import Msgbus.Server.Calls

/-!
# Passes under a contract

A pass keeps every contract under which the messages of a stream may be taken,
whatever they are, and the other calls of a pass may be made: those for one log,
and those for a peer.  So does the task that makes the passes of a daemon, one
after the other.  Which calls a pass makes is a case of it.
-/

namespace Msgbus

open Program Contract

inductive LogCall (head : TopicHead) : Command → Prop where
  | nowMs : LogCall head .nowMs
  | record (state : PeerSyncState) (h : state.topic = some head.topic) :
      LogCall head (.store (.recordPeerSyncState state))
  | getHead : LogCall head (.store (.getHead head.topic head.origin))
  | fetch (endpoint : String) (request : Pb.FetchRequest) : LogCall head (.fetch endpoint request)

inductive PeerCall : Command → Prop where
  | nowMs : PeerCall .nowMs
  | record (state : PeerSyncState) (h : state.topic = none) :
      PeerCall (.store (.recordPeerSyncState state))
  | connect (endpoint : String) : PeerCall (.connect endpoint)
  | health (endpoint : String) : PeerCall (.health endpoint)
  | listHeads (endpoint : String) : PeerCall (.listHeads endpoint)

variable [Formats] {ι W : Type}

/-- Under the contract any message of the head may be taken, and the other calls for
its log may be made. -/
structure Takes (C : Contract ι W Command Command.Answer) (i : ι) (head : TopicHead) : Prop where
  message : ∀ (spec : PeerSpec) (m : StoredMessage) (w : W), C.Keeps i (syncMessage spec head m) w
  log : ∀ w c following, LogCall head c → C.Requires i w c following

/-- And so may those for a peer. -/
structure Visits (C : Contract ι W Command Command.Answer) (i : ι) : Prop where
  takes : ∀ head, Takes C i head
  peer : ∀ w c following, PeerCall c → C.Requires i w c following

variable {C : Contract ι W Command Command.Answer} {i : ι} {w : W}
variable {spec : PeerSpec} {head : TopicHead}

/-! ## The logs of a peer -/

theorem keeps_receive (h : ∀ m w, C.Keeps i (syncMessage spec head m) w) (last : Option Status)
    {start : UInt64} (items : List Pb.FetchResponse)
    (localHead : { localHead : UInt64 // start ≤ localHead }) (fetched : UInt32) :
    C.Keeps i (receive spec head last items localHead fetched) w := by
  induction items generalizing w localHead fetched with
  | nil =>
      cases last with
      | none => exact keeps_ret _
      | some status => exact keeps_fail _
  | cons item rest ih =>
      unfold receive
      split
      · exact ih localHead fetched
      · apply keeps_bind (keeps_ofExcept _)
        intro message w₁ _
        exact keeps_bind (h message w₁) fun _ _ _ => ih _ _

namespace Takes

theorem success (h : Takes C i head) (origin : Option NodeId)
    (localHead remoteHead lastSyncedHead : UInt64) :
    C.Keeps i (recordPeerSyncSuccess spec (some head.topic) origin localHead remoteHead
      lastSyncedHead) w :=
  keeps_of_calls (calls_recordPeerSyncSuccess .nowMs (fun state _ htopic _ => .record state htopic)
    _ _ _) h.log

theorem failure (h : Takes C i head) (origin : Option NodeId) (localHead remoteHead : UInt64)
    (error : String) :
    C.Keeps i (recordPeerSyncFailure spec (some head.topic) origin localHead remoteHead error) w :=
  keeps_of_calls (calls_recordPeerSyncFailure .nowMs (fun state htopic _ => .record state htopic)
    _ _) h.log

theorem getHead (h : Takes C i head) :
    C.Keeps i (callStoreText (.getHead head.topic head.origin)) w :=
  keeps_of_calls (calls_callStoreText .getHead) h.log

theorem syncLoop (h : Takes C i head) (batchLimit : UInt32) (localHead : UInt64) :
    C.Keeps i (Msgbus.syncLoop spec head batchLimit localHead) w := by
  induction hleft : 2 ^ 64 - localHead.toNat using Nat.strong_induction_on
    generalizing localHead w with
  | h left ih =>
      rw [Msgbus.syncLoop]
      split_ifs
      · apply keeps_call (fun w' _ => h.log w' _ _ (.fetch _ _))
        intro answer w₁ _ _
        apply keeps_bind (keeps_ofExcept _)
        rintro ⟨items, last⟩ w₂ -
        apply keeps_bind (keeps_receive (h.message spec) last items _ 0)
        rintro ⟨reached, fetched⟩ w₃ -
        apply keeps_bind (h.success _ _ _ _)
        intro u w₄ _
        split_ifs with hstop
        · exact keeps_pure _
        · have hle : localHead.toNat ≤ reached.1.toNat := reached.2
          have hne : reached.1.toNat ≠ localHead.toNat :=
            fun heq => hstop (Or.inr (UInt64.toNat_inj.mp heq))
          have hlt := UInt64.toNat_lt reached.1
          exact ih _ (by omega) reached.1 rfl
      · exact keeps_ret _

theorem syncHead (h : Takes C i head) (batchLimit : UInt32) :
    C.Keeps i (Msgbus.syncHead spec head batchLimit) w := by
  apply keeps_bind h.getHead
  intro stored w₁ _
  apply keeps_bind (h.syncLoop batchLimit _)
  intro localHead w₂ _
  split_ifs
  · exact h.success _ _ _ _
  · exact keeps_pure _

end Takes

/-- A pass over a list of heads keeps a contract that allows the heads that are
listed. -/
theorem keeps_syncHeads {heads : List Pb.TopicHead} (batchLimit : UInt32)
    (h : ∀ listed ∈ heads, ∀ head, coreTopicHead listed = .ok head → Takes C i head) :
    C.Keeps i (syncHeads spec batchLimit heads) w := by
  induction heads generalizing w with
  | nil => exact keeps_ret _
  | cons listed rest ih =>
      cases hhead : coreTopicHead listed with
      | error status =>
          rw [syncHeads, hhead]
          exact keeps_fail _
      | ok head =>
          have htakes := h listed List.mem_cons_self head hhead
          rw [syncHeads_cons hhead]
          apply keeps_bind (keeps_attempt (htakes.syncHead batchLimit))
          rintro (err | u) w₁ -
          · apply keeps_bind htakes.getHead
            intro stored w₂ _
            exact keeps_bind (htakes.failure _ _ _ _) fun _ _ _ => keeps_fail _
          · exact ih fun other hother => h other (List.mem_cons_of_mem _ hother)

/-! ## All peers -/

namespace Visits

theorem reads {ε α : Type} {p : Server ε α} (h : Visits C i) (hp : Calls PeerCall p) :
    C.Keeps i p w :=
  keeps_of_calls hp h.peer

theorem syncPeer (h : Visits C i) (localNode : NodeId) (batchLimit : UInt32) :
    C.Keeps i (Msgbus.syncPeer localNode spec batchLimit) w := by
  have hconnect : Calls PeerCall (connectPeer spec) := ⟨.connect _, fun _ => calls_ofExcept _⟩
  have hlist : Calls PeerCall (callListHeads spec) := ⟨.listHeads _, fun _ => calls_ofExcept _⟩
  apply keeps_bind (h.reads hconnect)
  intro connected w₁ _
  apply keeps_bind (h.reads (calls_verifyPeerIdentity (.health _) localNode))
  intro verified w₂ _
  apply keeps_bind (h.reads hlist)
  intro heads w₃ _
  apply keeps_bind (keeps_syncHeads batchLimit fun _ _ head _ => h.takes head)
  intro synced w₄ _
  exact h.reads (calls_recordPeerSyncSuccess .nowMs (fun state _ htopic _ => .record state htopic)
    _ _ _)

theorem syncPeers (h : Visits C i) (config : PeerSyncConfig) (peers : List PeerSpec)
    (firstError : Option String) : C.Keeps i (Msgbus.syncPeers config peers firstError) w := by
  induction peers generalizing w firstError with
  | nil =>
      cases firstError with
      | none => exact keeps_ret _
      | some error => exact keeps_fail _
  | cons peer rest ih =>
      unfold Msgbus.syncPeers
      apply keeps_bind (keeps_attempt (h.syncPeer config.localNode config.batchLimit))
      rintro (error | u) w₁ -
      · apply keeps_bind (keeps_attempt (h.reads (calls_recordPeerSyncFailure .nowMs
          (fun state htopic _ => .record state htopic) _ _)))
        exact fun _ _ _ => ih _
      · exact ih firstError

/-- The task keeps the contract however often it is woken. -/
theorem peerSync (h : Visits C i) (config : PeerSyncConfig) (wakes : List Wake) :
    C.Keeps i (Msgbus.peerSync config wakes) w := by
  induction wakes generalizing w with
  | nil => exact keeps_ret _
  | cons wake rest ih =>
      cases wake with
      | tick =>
          apply keeps_bind (keeps_attempt (h.syncPeers config config.peers none))
          exact fun _ _ _ => ih
      | changed shutdown =>
          rcases shutdown with - | - | -
          · exact keeps_ret _
          · exact ih
          · exact keeps_ret _

end Visits

/-! ## The calls of a pass -/

section Calls

variable {A : Command → Prop}

theorem takes_of_calls (hmessage : MessageCalls A head) (hlog : ∀ c, LogCall head c → A c) :
    Takes (ofCalls A) () head where
  message := fun _ m _ => keeps_of_calls (hmessage.syncMessage m) fun _ _ _ hc => hc
  log := fun _ c _ hc => hlog c hc

theorem calls_receive (h : MessageCalls A head) (last : Option Status) {start : UInt64}
    (items : List Pb.FetchResponse) (localHead : { localHead : UInt64 // start ≤ localHead })
    (fetched : UInt32) : Calls A (receive spec head last items localHead fetched) :=
  calls_of_keeps (keeps_receive (fun m _ => keeps_of_calls (h.syncMessage m) fun _ _ _ hc => hc)
    last items localHead fetched)

theorem calls_syncHeads {heads : List Pb.TopicHead} (batchLimit : UInt32)
    (h : ∀ listed ∈ heads, ∀ head, coreTopicHead listed = .ok head → Takes (ofCalls A) () head) :
    Calls A (syncHeads spec batchLimit heads) :=
  calls_of_keeps (keeps_syncHeads batchLimit h)

end Calls

end Msgbus
