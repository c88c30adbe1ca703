import Msgbus.Server.Runs

/-!
# The calls of the server's programs

Which calls the parts of a pass make, for any set of calls that has them, and
which ones a replay makes.
-/

namespace Msgbus

open Program

variable {A : Command → Prop} {spec : PeerSpec} {head : TopicHead}

theorem calls_callStore {op : StoreOp} (h : A (.store op)) : Calls A (callStore op) :=
  ⟨h, fun answer => calls_ofExcept answer⟩

theorem calls_callStoreText {op : StoreOp} (h : A (.store op)) : Calls A (callStoreText op) :=
  (calls_callStore h).mapError

theorem calls_nowMs {ε : Type} (h : A .nowMs) : Calls A (nowMs : Server ε UInt64) :=
  ⟨h, fun _ => trivial⟩

section Records

variable {topic : Option Topic} {origin : Option NodeId}

theorem calls_recordPeerSyncSuccess (hnow : A .nowMs)
    (hrecord : ∀ state : PeerSyncState, state.peer = spec.endpoint → state.topic = topic →
      state.lastError = none → A (.store (.recordPeerSyncState state)))
    (localHead remoteHead lastSyncedHead : UInt64) :
    Calls A (recordPeerSyncSuccess spec topic origin localHead remoteHead lastSyncedHead) := by
  apply (calls_nowMs hnow).bind
  intro attemptAt
  apply (calls_nowMs hnow).bind
  intro successAt
  exact (calls_callStoreText (hrecord _ rfl rfl rfl)).bind fun _ => trivial

theorem calls_recordPeerSyncFailure {error : String} (hnow : A .nowMs)
    (hrecord : ∀ state : PeerSyncState, state.topic = topic → state.lastError = some error →
      A (.store (.recordPeerSyncState state))) (localHead remoteHead : UInt64) :
    Calls A (recordPeerSyncFailure spec topic origin localHead remoteHead error) := by
  apply (calls_nowMs hnow).bind
  intro attemptAt
  exact (calls_callStoreText (hrecord _ rfl rfl)).bind fun _ => trivial

end Records

variable [Formats]

theorem calls_verifyPeerIdentity (h : A (.health spec.endpoint)) (localNode : NodeId) :
    Calls A (verifyPeerIdentity localNode spec) := by
  have hhealth : Calls A (callHealth spec) := ⟨h, fun answer => calls_ofExcept _⟩
  apply hhealth.bind
  intro response
  cases response.node with
  | none => exact trivial
  | some remote =>
      apply (calls_ofExcept _).bind
      intro remoteNode
      split_ifs
      · exact trivial
      · cases spec.expectedNode with
        | none => exact trivial
        | some expected =>
            dsimp only
            split_ifs
            · exact trivial
            · exact trivial

theorem calls_applyControlMessage (h : ∀ range : TombstoneRange, A (.store range.op))
    (m : StoredMessage) : Calls A (applyControlMessage m) := by
  unfold applyControlMessage
  split
  · exact trivial
  · exact trivial
  · exact (calls_callStore (h _)).mapError.bind fun _ => trivial

structure ApplyCalls (A : Command → Prop) : Prop where
  mark : ∀ range : TombstoneRange, A (.store range.op)
  send : ∀ m, A (.send m)

theorem ApplyCalls.afterPut (h : ApplyCalls A) (m : StoredMessage) (result : ReplicateResult) :
    Calls A (Msgbus.afterPut m result) := by
  cases result with
  | inserted =>
      exact (calls_applyControlMessage h.mark m).mapError.bind fun _ => ⟨h.send m, fun _ => trivial⟩
  | alreadyPresent => exact (calls_applyControlMessage h.mark m).mapError

/-- The calls of the messages of a head: they are put into the log that is
listed. -/
structure MessageCalls (A : Command → Prop) (head : TopicHead) : Prop extends ApplyCalls A where
  put : ∀ m : StoredMessage, m.topic = head.topic → m.origin = head.origin →
    A (.store (.putReplicatedMessage m))

theorem MessageCalls.syncMessage (h : MessageCalls A head) (m : StoredMessage) :
    Calls A (Msgbus.syncMessage spec head m) := by
  by_cases hmatch : m.topic = head.topic ∧ m.origin = head.origin
  · rw [syncMessage_eq hmatch.1 hmatch.2]
    apply (calls_callStoreText (h.put m hmatch.1 hmatch.2)).bind
    exact h.toApplyCalls.afterPut m
  · rw [Msgbus.syncMessage, if_pos (not_and_or.mp hmatch)]
    exact trivial

/-! ## The calls of a replay -/

inductive ReplayCall : Command → Prop where
  | listHeads : ReplayCall (.store .listHeads)
  | fetchMessages (query : FetchQuery) : ReplayCall (.store (.fetchMessages query))
  | tombstoneRange (range : TombstoneRange) : ReplayCall (.store range.op)

theorem calls_applyBatch (fromHeadId : UInt64) (messages : List StoredMessage) :
    Calls ReplayCall (applyBatch fromHeadId messages) := by
  induction messages generalizing fromHeadId with
  | nil => exact trivial
  | cons message rest ih =>
      exact (calls_applyControlMessage .tombstoneRange message).bind fun _ => ih _

theorem calls_replayLog (fuel : Nat) (fromHeadId : UInt64) :
    Calls ReplayCall (replayLog head fuel fromHeadId) := by
  induction fuel generalizing fromHeadId with
  | zero => exact trivial
  | succ fuel ih =>
      unfold replayLog
      split_ifs
      · apply (calls_callStore (.fetchMessages _)).mapError.bind
        intro messages
        split_ifs
        · exact trivial
        · exact (calls_applyBatch _ _).bind fun next => ih next
      · exact trivial

theorem calls_replayLogs (fuel : Nat) (heads : List TopicHead) :
    Calls ReplayCall (replayLogs fuel heads) := by
  induction heads with
  | nil => exact trivial
  | cons head rest ih =>
      apply (calls_replayLog fuel 1).bind
      intro done
      cases done with
      | none => exact trivial
      | some u => exact ih

theorem calls_replayControlMessages (fuel : Nat) :
    Calls ReplayCall (replayControlMessages fuel) :=
  (calls_callStore .listHeads).mapError.bind fun _ => calls_replayLogs fuel _

end Msgbus
