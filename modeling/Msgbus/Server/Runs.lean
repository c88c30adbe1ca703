import Msgbus.Server.Sync

/-!
# Runs of single programs

What the programs of a daemon do when they run alone and their calls are
answered in a given way.  The surroundings are any relation of answers; `Calm`
collects the calls whose answers change nothing that matters.
-/

namespace Msgbus

open Program

variable {S : Type} {answers : S → (c : Command) → c.Answer → S → Prop} {s s' s₁ s₂ s₃ : S}

/-! ## Store calls -/

theorem runs_callStore {op : StoreOp} {answer : Except MsgbusError op.Result}
    (h : answers s (.store op) answer s') : Runs answers s (callStore op) answer s' := by
  refine .call h ?_
  cases answer with
  | ok result => exact .ret s' result
  | error e => exact .fail s' e

theorem runs_callStoreStatus {op : StoreOp} {result : op.Result}
    (h : answers s (.store op) (Except.ok result) s') :
    Runs answers s (callStoreStatus op) (.ok result) s' :=
  (runs_callStore h).mapError statusFromError

theorem runs_callStoreStatus_error {op : StoreOp} {e : MsgbusError}
    (h : answers s (.store op) (Except.error e) s') :
    Runs answers s (callStoreStatus op) (.error (statusFromError e)) s' :=
  (runs_callStore h).mapError statusFromError

theorem runs_callStoreText {op : StoreOp} {result : op.Result}
    (h : answers s (.store op) (Except.ok result) s') :
    Runs answers s (callStoreText op) (.ok result) s' :=
  (runs_callStore h).mapError MsgbusError.toText

theorem answers_of_callStore {op : StoreOp} {result : op.Result}
    (h : Runs answers s (callStore op) (.ok result) s') :
    answers s (.store op) (Except.ok result) s' := by
  cases h with
  | call hanswer hrest =>
      obtain ⟨rfl, rfl⟩ := hrest.of_ofExcept
      exact hanswer

/-! ## Handlers -/

theorem writeTarget_self (node : NodeId) {topic : String} (hvalid : ValidPart topic)
    (hne : (⟨topic⟩ : Topic) ≠ deleteTopic) : writeTarget node topic none = .ok (⟨topic⟩, node) := by
  have htopic : Topic.new topic = .ok ⟨topic⟩ := Topic.new_eq_ok.mpr ⟨hvalid, rfl⟩
  have happlication : ensureApplicationTopic ⟨topic⟩ = .ok () := if_neg hne
  have howned : ownedOrigin node none = .ok node := if_pos rfl
  unfold writeTarget
  rw [htopic, howned]
  change (ensureApplicationTopic ⟨topic⟩ >>= fun _ => _) = _
  rw [happlication]
  rfl

theorem runs_publish {node : NodeId} {request : Pb.PublishRequest} {topic : Topic} {id : MessageId}
    {stored : StoredMessage}
    (htarget : writeTarget node request.topic request.origin = .ok (topic, node))
    (hid : answers s .newMessageId id s₁)
    (happend : answers s₁ (.store (.appendMessage ⟨id, topic, node, request.payload, request.headers⟩))
      (Except.ok stored) s₂)
    (hsend : answers s₂ (.send stored) () s₃) :
    Runs answers s (publish node request) (.ok (protoMessage stored)) s₃ := by
  unfold publish
  rw [htarget]
  refine .call hid ?_
  refine (runs_callStoreStatus happend).bind ?_
  exact .call hsend (.ret _ _)

theorem runs_deleteRange {node : NodeId} {request : Pb.DeleteRangeRequest} {topic : Topic}
    {result : UInt64 × StoredMessage}
    (htarget : writeTarget node request.topic request.origin = .ok (topic, node))
    (hmark : answers s (.store (.tombstoneRangeWithMarker topic node request.fromHeadId
      request.toHeadId deleteTopic node)) (Except.ok result) s₁)
    (hsend : answers s₁ (.send result.2) () s₂) :
    Runs answers s (deleteRange node request) (.ok result.1) s₂ := by
  have hcontrol : Topic.new deleteTopic.value = .ok deleteTopic :=
    Topic.new_eq_ok.mpr ⟨by decide, rfl⟩
  unfold deleteRange
  rw [htarget, hcontrol]
  refine (runs_callStoreStatus hmark).bind ?_
  exact .call hsend (.ret _ _)

theorem runs_enqueueFifo {node : NodeId} {request : Pb.EnqueueFifoRequest} {queue : QueueName}
    {topic : Topic} {target : NodeId} {id : MessageId} {stored : StoredFifoMessage}
    (hqueue : QueueName.new request.queue = .ok queue)
    (hwrite : writeTarget node request.topic request.source = .ok (topic, node))
    (htarget : requiredNode request.target (.invalidArgument "target is required") = .ok target)
    (hid : answers s .newMessageId id s₁)
    (henqueue : answers s₁ (.store (.enqueueFifo
      ⟨id, queue, topic, node, target, request.payload, request.headers⟩)) (Except.ok stored) s₂) :
    Runs answers s (enqueueFifo node request) (.ok (protoFifo stored)) s₂ := by
  unfold enqueueFifo
  rw [hqueue, hwrite, htarget]
  refine .call hid ?_
  exact (runs_callStoreStatus henqueue).bind (.ret _ _)

/-! ## Synchronisation -/

/-- The calls of a pass that do not matter are answered while `P` holds, and it
goes on to hold. -/
structure Calm (answers : S → (c : Command) → c.Answer → S → Prop) (P : S → Prop) : Prop where
  nowMs : ∀ s, P s → ∃ (now : UInt64) (s' : S), answers s .nowMs now s' ∧ P s'
  connect : ∀ s endpoint, P s → ∃ s', answers s (.connect endpoint) (Except.ok ()) s' ∧ P s'
  record : ∀ s state, P s →
    ∃ s', answers s (.store (.recordPeerSyncState state)) (Except.ok ()) s' ∧ P s'

variable {P Q R : S → Prop} {peer : PeerSpec} {head : TopicHead}

theorem Calm.mono {answers' : S → (c : Command) → c.Answer → S → Prop} (h : Calm answers P)
    (hmore : ∀ s c answer s', (∀ endpoint, c ≠ .listHeads endpoint) → answers s c answer s' →
      answers' s c answer s') : Calm answers' P where
  nowMs := by
    intro s hs
    obtain ⟨now, s', hanswer, hs'⟩ := h.nowMs s hs
    exact ⟨now, s', hmore _ _ _ _ (fun _ hc => by cases hc) hanswer, hs'⟩
  connect := by
    intro s endpoint hs
    obtain ⟨s', hanswer, hs'⟩ := h.connect s endpoint hs
    exact ⟨s', hmore _ _ _ _ (fun _ hc => by cases hc) hanswer, hs'⟩
  record := by
    intro s state hs
    obtain ⟨s', hanswer, hs'⟩ := h.record s state hs
    exact ⟨s', hmore _ _ _ _ (fun _ hc => by cases hc) hanswer, hs'⟩

theorem Calm.runs_nowMs {ε : Type} (h : Calm answers P) (hs : P s) :
    ∃ (now : UInt64) (s' : S),
      Runs answers s (Msgbus.nowMs : Server ε UInt64) (.ok now) s' ∧ P s' := by
  obtain ⟨now, s', hanswer, hs'⟩ := h.nowMs s hs
  exact ⟨now, s', .call hanswer (.ret _ _), hs'⟩

theorem Calm.runs_recordPeerSyncSuccess (h : Calm answers P) (hs : P s) (peer : PeerSpec)
    (topic : Option Topic) (origin : Option NodeId) (localHead remoteHead lastSyncedHead : UInt64) :
    ∃ s', Runs answers s
      (recordPeerSyncSuccess peer topic origin localHead remoteHead lastSyncedHead) (.ok ()) s' ∧
        P s' := by
  obtain ⟨attemptAt, s₁, hattempt, hs₁⟩ := h.runs_nowMs hs
  obtain ⟨successAt, s₂, hsuccess, hs₂⟩ := h.runs_nowMs hs₁
  obtain ⟨s₃, hrecord, hs₃⟩ := h.record s₂ _ hs₂
  exact ⟨s₃, hattempt.bind (hsuccess.bind ((runs_callStoreText hrecord).bind (.ret _ _))), hs₃⟩

theorem Calm.runs_recordPeerSyncFailure (h : Calm answers P) (hs : P s) (peer : PeerSpec)
    (topic : Option Topic) (origin : Option NodeId) (localHead remoteHead : UInt64)
    (error : String) :
    ∃ s', Runs answers s
      (recordPeerSyncFailure peer topic origin localHead remoteHead error) (.ok ()) s' ∧ P s' := by
  obtain ⟨attemptAt, s₁, hattempt, hs₁⟩ := h.runs_nowMs hs
  obtain ⟨s₂, hrecord, hs₂⟩ := h.record s₁ _ hs₁
  exact ⟨s₂, hattempt.bind ((runs_callStoreText hrecord).bind (.ret _ _)), hs₂⟩

theorem runs_connectPeer (h : answers s (.connect peer.endpoint) (Except.ok ()) s') :
    Runs answers s (connectPeer peer) (.ok ()) s' :=
  .call h (.ret _ _)

variable [Formats]

theorem runs_callListHeads {heads : List Pb.TopicHead}
    (h : answers s (.listHeads peer.endpoint) (Except.ok heads) s') :
    Runs answers s (callListHeads peer) (.ok heads) s' :=
  .call h (.ret _ _)

theorem runs_verifyPeerIdentity {localNode remote : NodeId} (hvalid : remote.Valid)
    (hne : remote ≠ localNode) (hexpected : peer.expectedNode = none)
    (h : answers s (.health peer.endpoint) (Except.ok (health remote)) s') :
    Runs answers s (verifyPeerIdentity localNode peer) (.ok ()) s' := by
  refine .call h ?_
  change Runs answers s' (ofExcept ((coreNode (protoNode remote)).mapError Formats.statusText) >>= _)
    _ _
  rw [coreNode_protoNode (Or.inl hvalid)]
  change Runs answers s' (if remote = localNode then _ else _) _ _
  rw [if_neg hne, hexpected]
  exact .ret _ _

/-! ### One message -/

section Message

variable {m : StoredMessage}

def afterPut (m : StoredMessage) : ReplicateResult → Server String Unit
  | .inserted => ((applyControlMessage m).mapError Formats.statusText).bind fun _ => send m
  | .alreadyPresent => (applyControlMessage m).mapError Formats.statusText

theorem syncMessage_eq (htopic : m.topic = head.topic) (horigin : m.origin = head.origin) :
    syncMessage peer head m = (callStoreText (.putReplicatedMessage m)).bind (afterPut m) := by
  unfold syncMessage
  rw [if_neg (by rw [htopic, horigin]; simp)]
  rfl

/-- What `apply_control_message` does when it ends well. -/
theorem applyControlMessage_cases (h : Runs answers s (applyControlMessage m) (.ok ()) s') :
    (controlRange m = .ok none ∧ s' = s) ∨
      ∃ (range : TombstoneRange) (count : range.op.Result), controlRange m = .ok (some range) ∧
        answers s (.store range.op) (Except.ok count) s' := by
  unfold applyControlMessage at h
  cases hrange : controlRange m with
  | error status =>
      rw [hrange] at h
      cases h
  | ok marked =>
      rw [hrange] at h
      cases marked with
      | none =>
          cases h
          exact Or.inl ⟨rfl, rfl⟩
      | some range =>
          obtain ⟨count, s₁, hcall, hpure⟩ := h.of_bind
          obtain ⟨-, rfl⟩ := hpure.of_pure
          exact Or.inr ⟨range, count, rfl, answers_of_callStore hcall.of_mapError⟩

/-- What happens to one message when all goes well: it is put, applied and, if it
was new, broadcast. -/
theorem syncMessage_cases (h : Runs answers s (syncMessage peer head m) (.ok ()) s') :
    m.topic = head.topic ∧ m.origin = head.origin ∧ ∃ (result : ReplicateResult) (s₁ s₂ : S),
      answers s (.store (.putReplicatedMessage m)) (Except.ok result) s₁ ∧
      Runs answers s₁ (applyControlMessage m) (.ok ()) s₂ ∧
      ((result = .inserted ∧ answers s₂ (.send m) () s') ∨ (result = .alreadyPresent ∧ s' = s₂)) := by
  by_cases hmatch : m.topic = head.topic ∧ m.origin = head.origin
  · refine ⟨hmatch.1, hmatch.2, ?_⟩
    rw [syncMessage_eq hmatch.1 hmatch.2] at h
    obtain ⟨result, s₁, hput, hrest⟩ := Runs.of_bind h
    refine ⟨result, s₁, ?_⟩
    cases result with
    | inserted =>
        obtain ⟨u, s₂, happly, hsend⟩ := Runs.of_bind hrest
        cases hsend with
        | call hanswer hret =>
            cases hret
            exact ⟨s₂, answers_of_callStore hput.of_mapError, happly.of_mapError,
              Or.inl ⟨rfl, hanswer⟩⟩
    | alreadyPresent =>
        exact ⟨s', answers_of_callStore hput.of_mapError, Runs.of_mapError hrest,
          Or.inr ⟨rfl, rfl⟩⟩
  · unfold syncMessage at h
    rw [if_pos (not_and_or.mp hmatch)] at h
    cases h

theorem runs_syncMessage (htopic : m.topic = head.topic) (horigin : m.origin = head.origin)
    (hcontrol : controlRange m = .ok none)
    (hput : answers s (.store (.putReplicatedMessage m)) (Except.ok ReplicateResult.inserted) s₁)
    (hsend : answers s₁ (.send m) () s₂) : Runs answers s (syncMessage peer head m) (.ok ()) s₂ := by
  rw [syncMessage_eq htopic horigin]
  refine (runs_callStoreText hput).bind ?_
  have happly : applyControlMessage m = .ret () := by
    unfold applyControlMessage
    rw [hcontrol]
  change Runs answers s₁ (((applyControlMessage m).mapError Formats.statusText).bind fun _ => send m)
    _ _
  rw [happly]
  exact .call hsend (.ret _ _)

theorem runs_syncMessage_marks (htopic : m.topic = head.topic) (horigin : m.origin = head.origin)
    {range : TombstoneRange} {count : range.op.Result} (hmarks : controlRange m = .ok (some range))
    (hput : answers s (.store (.putReplicatedMessage m)) (Except.ok ReplicateResult.inserted) s₁)
    (hrange : answers s₁ (.store range.op) (Except.ok count) s₂)
    (hsend : answers s₂ (.send m) () s₃) : Runs answers s (syncMessage peer head m) (.ok ()) s₃ := by
  rw [syncMessage_eq htopic horigin]
  refine (runs_callStoreText hput).bind ?_
  have happly : Runs answers s₁ (applyControlMessage m) (.ok ()) s₂ := by
    unfold applyControlMessage
    rw [hmarks]
    exact (runs_callStoreStatus hrange).bind (.ret _ _)
  exact (happly.mapError Formats.statusText).bind (.call hsend (.ret _ _))

theorem runs_syncMessage_refused (htopic : m.topic = head.topic) (horigin : m.origin = head.origin)
    {range : TombstoneRange} {e : MsgbusError} (hmarks : controlRange m = .ok (some range))
    (hput : answers s (.store (.putReplicatedMessage m)) (Except.ok ReplicateResult.inserted) s₁)
    (hrange : answers s₁ (.store range.op) (Except.error e) s₂) :
    Runs answers s (syncMessage peer head m) (.error (Formats.statusText (statusFromError e))) s₂ := by
  rw [syncMessage_eq htopic horigin]
  refine (runs_callStoreText hput).bind ?_
  have happly : Runs answers s₁ (applyControlMessage m) (.error (statusFromError e)) s₂ := by
    unfold applyControlMessage
    rw [hmarks]
    exact (runs_callStoreStatus_error hrange).bind_error
  exact (happly.mapError Formats.statusText).bind_error

end Message

/-! ### One head with one new message -/

section Head

variable {batchLimit : UInt32} {stored : Option HeadId} {envelope : Pb.MessageEnvelope}
variable {m : StoredMessage}

theorem runs_receive_one {start : UInt64} {localHead : { localHead : UInt64 // start ≤ localHead }}
    {out : Except String Unit} (hm : coreMessage envelope = .ok m)
    (hmessage : Runs answers s (syncMessage peer head m) out s') :
    Runs answers s (receive peer head none [⟨some envelope⟩] localHead 0)
      (out.map fun _ => (⟨max localHead.1 m.headId,
        UInt64.le_trans localHead.2 (UInt64.le_max_left _ _)⟩, 1)) s' := by
  unfold receive
  change Runs answers s (ofExcept ((coreMessage envelope).mapError Formats.statusText) >>= _) _ _
  rw [hm]
  cases out with
  | ok u => exact hmessage.bind (.ret _ _)
  | error e => exact hmessage.bind_error

theorem runs_syncLoop_one {last : UInt64} {out : Except String UInt64} (hbehind : last < head.headId)
    (hfetch : answers s (.fetch peer.endpoint (fetchRequest head last batchLimit))
      (Except.ok ([⟨some envelope⟩], none)) s₁)
    (hm : coreMessage envelope = .ok m) (hlater : last.toNat < m.headId.toNat)
    (hmessage : Runs answers s₁ (syncMessage peer head m) (.ok ()) s₂)
    (hrecord : Runs answers s₂ (recordPeerSyncSuccess peer (some head.topic) (some head.origin)
      m.headId head.headId m.headId) (.ok ()) s₃)
    (hrest : Runs answers s₃ (syncLoop peer head batchLimit m.headId) out s') :
    Runs answers s (syncLoop peer head batchLimit last) out s' := by
  have hmax : max last m.headId = m.headId := by
    rw [← UInt64.toNat_inj, UInt64.toNat_max]
    omega
  have hgo : ¬ ((1 : UInt32) = 0 ∨ max last m.headId = last) := by
    rw [hmax, ← UInt64.toNat_inj]
    rintro (h | h)
    · cases h
    · omega
  rw [syncLoop, if_pos hbehind]
  refine .call hfetch ((runs_receive_one hm hmessage).bind ?_)
  rw [← hmax] at hrecord hrest
  refine hrecord.bind ?_
  rw [dif_neg hgo]
  exact hrest

/-- The surroundings of a daemon that lacks the last message of a listed log. -/
structure OneBehind (answers : S → (c : Command) → c.Answer → S → Prop) (P : S → Prop)
    (peer : PeerSpec) (head : TopicHead) (batchLimit : UInt32) (stored : Option HeadId)
    (envelope : Pb.MessageEnvelope) (m : StoredMessage) : Prop where
  calm : Calm answers P
  getHead : ∀ s, P s →
    ∃ s', answers s (.store (.getHead head.topic head.origin)) (Except.ok stored) s' ∧ P s'
  behind : stored.getD 0 < head.headId
  fetch : ∀ s, P s → ∃ s', answers s
    (.fetch peer.endpoint (fetchRequest head (stored.getD 0) batchLimit))
      (Except.ok ([⟨some envelope⟩], none)) s' ∧ P s'
  message : coreMessage envelope = .ok m
  headId : m.headId = head.headId

theorem OneBehind.runs_syncHead (h : OneBehind answers P peer head batchLimit stored envelope m)
    (hQ : Calm answers Q)
    (hmessage : ∀ s, P s → ∃ s', Runs answers s (syncMessage peer head m) (.ok ()) s' ∧ Q s')
    (hs : P s) : ∃ s', Runs answers s (syncHead peer head batchLimit) (.ok ()) s' ∧ Q s' := by
  obtain ⟨s₁, hgetHead, hs₁⟩ := h.getHead s hs
  obtain ⟨s₂, hfetch, hs₂⟩ := h.fetch s₁ hs₁
  obtain ⟨s₃, hreceived, hs₃⟩ := hmessage s₂ hs₂
  obtain ⟨s₄, hround, hs₄⟩ := hQ.runs_recordPeerSyncSuccess hs₃ peer (some head.topic)
    (some head.origin) m.headId head.headId m.headId
  obtain ⟨s₅, hdone, hs₅⟩ := hQ.runs_recordPeerSyncSuccess hs₄ peer (some head.topic)
    (some head.origin) m.headId head.headId m.headId
  refine ⟨s₅, ?_, hs₅⟩
  have hstop : syncLoop peer head batchLimit m.headId = .ret m.headId := by
    rw [syncLoop, if_neg (by rw [h.headId]; exact UInt64.lt_irrefl _)]
  have hlater : (stored.getD 0).toNat < m.headId.toNat := by
    rw [h.headId]
    exact UInt64.lt_iff_toNat_lt.mp h.behind
  have hloop : Runs answers s₁ (syncLoop peer head batchLimit (stored.getD 0)) (.ok m.headId) s₄ :=
    runs_syncLoop_one h.behind hfetch h.message hlater hreceived hround (hstop ▸ .ret _ _)
  refine (runs_callStoreText hgetHead).bind (hloop.bind ?_)
  rw [if_pos (by rw [h.headId]; exact UInt64.le_refl _)]
  exact hdone

theorem OneBehind.runs_syncHead_error
    (h : OneBehind answers P peer head batchLimit stored envelope m) {error : String}
    (hmessage : ∀ s, P s → ∃ s', Runs answers s (syncMessage peer head m) (.error error) s' ∧ Q s')
    (hs : P s) : ∃ s', Runs answers s (syncHead peer head batchLimit) (.error error) s' ∧ Q s' := by
  obtain ⟨s₁, hgetHead, hs₁⟩ := h.getHead s hs
  obtain ⟨s₂, hfetch, hs₂⟩ := h.fetch s₁ hs₁
  obtain ⟨s₃, hreceived, hs₃⟩ := hmessage s₂ hs₂
  refine ⟨s₃, ?_, hs₃⟩
  have hloop : Runs answers s₁ (syncLoop peer head batchLimit (stored.getD 0)) (.error error) s₃ := by
    rw [syncLoop, if_pos h.behind]
    refine .call hfetch ?_
    exact (runs_receive_one h.message hreceived).bind_error
  exact (runs_callStoreText hgetHead).bind hloop.bind_error

theorem Calm.runs_syncHead (hP : Calm answers P)
    (hgetHead : ∀ s, P s →
      ∃ s', answers s (.store (.getHead head.topic head.origin)) (Except.ok stored) s' ∧ P s')
    (hcurrent : head.headId ≤ stored.getD 0) (hs : P s) :
    ∃ s', Runs answers s (syncHead peer head batchLimit) (.ok ()) s' ∧ P s' := by
  obtain ⟨s₁, hstored, hs₁⟩ := hgetHead s hs
  obtain ⟨s₂, hdone, hs₂⟩ := hP.runs_recordPeerSyncSuccess hs₁ peer (some head.topic)
    (some head.origin) (stored.getD 0) head.headId (stored.getD 0)
  refine ⟨s₂, (runs_callStoreText hstored).bind ?_, hs₂⟩
  have hstop : syncLoop peer head batchLimit (stored.getD 0) = .ret (stored.getD 0) := by
    rw [syncLoop, if_neg (UInt64.not_lt.mpr hcurrent)]
  rw [hstop]
  change Runs answers s₁ (if head.headId ≤ stored.getD 0 then _ else _) _ _
  rw [if_pos hcurrent]
  exact hdone

end Head

/-! ### All heads -/

def afterHead (peer : PeerSpec) (head : TopicHead) (batchLimit : UInt32)
    (rest : List Pb.TopicHead) : Except String Unit → Server String Unit
  | .ok () => syncHeads peer batchLimit rest
  | .error err => do
      let stored : Option HeadId ← callStoreText (.getHead head.topic head.origin)
      recordPeerSyncFailure peer (some head.topic) (some head.origin) (stored.getD 0) head.headId err
      .fail err

theorem syncHeads_cons {listed : Pb.TopicHead} (h : coreTopicHead listed = .ok head)
    (batchLimit : UInt32) (rest : List Pb.TopicHead) :
    syncHeads peer batchLimit (listed :: rest) =
      (syncHead peer head batchLimit).attempt >>= afterHead peer head batchLimit rest := by
  rw [syncHeads, h]
  refine congrArg ((syncHead peer head batchLimit).attempt.bind ·) (funext fun outcome => ?_)
  cases outcome with
  | ok u => rfl
  | error e => rfl

/-! ### A pass with one peer -/

section Pass

variable {localNode : NodeId} {batchLimit : UInt32} {listed : Pb.TopicHead}

/-- A peer with another valid identity that lists just one head; `R` holds when it
has. -/
structure ListsOne (answers : S → (c : Command) → c.Answer → S → Prop) (P R : S → Prop)
    (localNode : NodeId) (peer : PeerSpec) (listed : Pb.TopicHead) (head : TopicHead) : Prop where
  calm : Calm answers P
  expected : peer.expectedNode = none
  health : ∀ s, P s → ∃ remote s', remote.Valid ∧ remote ≠ localNode ∧
    answers s (.health peer.endpoint) (Except.ok (Msgbus.health remote)) s' ∧ P s'
  listHeads : ∀ s, P s →
    ∃ s', answers s (.listHeads peer.endpoint) (Except.ok [listed]) s' ∧ R s'
  head : coreTopicHead listed = .ok head

theorem ListsOne.runs_heads (h : ListsOne answers P R localNode peer listed head)
    (batchLimit : UInt32) (hs : P s) :
    ∃ s', R s' ∧ ∀ {out s''}, Runs answers s' (syncHeads peer batchLimit [listed] >>= fun _ =>
      recordPeerSyncSuccess peer none none 0 0 0) out s'' →
        Runs answers s (syncPeer localNode peer batchLimit) out s'' := by
  obtain ⟨s₁, hconnect, hs₁⟩ := h.calm.connect s peer.endpoint hs
  obtain ⟨remote, s₂, hvalid, hne, hhealth, hs₂⟩ := h.health s₁ hs₁
  obtain ⟨s₃, hlist, hs₃⟩ := h.listHeads s₂ hs₂
  refine ⟨s₃, hs₃, fun hrest => ?_⟩
  exact (runs_connectPeer hconnect).bind
    ((runs_verifyPeerIdentity hvalid hne h.expected hhealth).bind
      ((runs_callListHeads hlist).bind hrest))

theorem ListsOne.runs_syncOnce (h : ListsOne answers P R localNode peer listed head)
    (hQ : Calm answers Q)
    (hhead : ∀ s, R s → ∃ s', Runs answers s (syncHead peer head batchLimit) (.ok ()) s' ∧ Q s')
    (hs : P s) :
    ∃ s', Runs answers s (syncOnce ⟨localNode, [peer], batchLimit⟩) (.ok ()) s' ∧ Q s' := by
  obtain ⟨s₁, hs₁, hpeer⟩ := h.runs_heads batchLimit hs
  obtain ⟨s₂, hsync, hs₂⟩ := hhead s₁ hs₁
  obtain ⟨s₃, hdone, hs₃⟩ := hQ.runs_recordPeerSyncSuccess hs₂ peer none none 0 0 0
  refine ⟨s₃, ?_, hs₃⟩
  have hheads : Runs answers s₁ (syncHeads peer batchLimit [listed]) (.ok ()) s₂ := by
    rw [syncHeads_cons h.head]
    exact hsync.attempt.bind (.ret _ _)
  exact (hpeer (hheads.bind hdone)).attempt.bind (.ret _ _)

theorem ListsOne.runs_syncOnce_error (h : ListsOne answers P R localNode peer listed head)
    (hQ : Calm answers Q) {error : String} {stored : Option HeadId}
    (hhead : ∀ s, R s →
      ∃ s', Runs answers s (syncHead peer head batchLimit) (.error error) s' ∧ Q s')
    (hgetHead : ∀ s, Q s →
      ∃ s', answers s (.store (.getHead head.topic head.origin)) (Except.ok stored) s' ∧ Q s')
    (hs : P s) :
    ∃ s', Runs answers s (syncOnce ⟨localNode, [peer], batchLimit⟩) (.error error) s' ∧ Q s' := by
  obtain ⟨s₁, hs₁, hpeer⟩ := h.runs_heads batchLimit hs
  obtain ⟨s₂, hsync, hs₂⟩ := hhead s₁ hs₁
  obtain ⟨s₃, hstored, hs₃⟩ := hgetHead s₂ hs₂
  obtain ⟨s₄, hlog, hs₄⟩ := hQ.runs_recordPeerSyncFailure hs₃ peer (some head.topic)
    (some head.origin) (stored.getD 0) head.headId error
  obtain ⟨s₅, hfailure, hs₅⟩ := hQ.runs_recordPeerSyncFailure hs₄ peer none none 0 0 error
  refine ⟨s₅, ?_, hs₅⟩
  have hheads : Runs answers s₁ (syncHeads peer batchLimit [listed]) (.error error) s₄ := by
    rw [syncHeads_cons h.head]
    refine hsync.attempt.bind ?_
    exact (runs_callStoreText hstored).bind (hlog.bind (.fail _ _))
  refine (hpeer hheads.bind_error).attempt.bind ?_
  exact hfailure.attempt.bind (.fail _ _)

end Pass

end Msgbus
