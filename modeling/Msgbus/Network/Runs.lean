import Msgbus.Fifo
import Msgbus.Server.Runs
import Msgbus.Windows

/-!
# Runs of networks

How the daemons of a network answer when nothing fails: what a store does with a
call it accepts, what a peer returns to a fetch, and that recording the state of
a peer never matters.
-/

namespace Msgbus

open Program

variable [Formats]

/-! ## A store -/

section Store

variable {kind : StorageKind} {s : kind.Store}

theorem exists_storeAnswers (hs : Reachable s) {env : CallEnv} (hid : ValidPart env.id.value)
    {op : StoreOp} (hop : op.onLogs = true)
    (haccepts : @Backend.Accepts _ kind.Store (instBackendStore kind) (kind.logs s) env op)
    (hrefuses : (kind.logs s).refuses op = none) :
    ∃ result s', StoreAnswers s op (.ok result) s' ∧ Reachable s' ∧
      Logs.Step env op result (kind.logs s) (kind.logs s') := by
  have hinv : kind.Inv s := Backend.inv_of_reachable hs
  obtain ⟨result, s', hexec⟩ := Backend.exec_eq_ok hinv hop haccepts hrefuses
  have hafter : op.after s env = s' := StoreOp.after_of_ok hexec
  refine ⟨result, s', Or.inl ⟨env, hid, ?_, hafter.symm⟩, ?_, (Backend.refines hinv hexec).2⟩
  · exact (StoreOp.outcome_eq_ok.mpr ⟨s', hexec⟩).symm
  · rw [← hafter]
    exact hs.call env op

theorem exists_put_next (hs : Reachable s) {env : CallEnv} (hid : ValidPart env.id.value)
    {m : StoredMessage} (hnext : ((kind.logs s).current m.log).toNat + 1 = m.headId.toNat)
    (haccepts : @Backend.Accepts _ kind.Store (instBackendStore kind) (kind.logs s) env
      (.putReplicatedMessage m)) :
    ∃ s', StoreAnswers s (.putReplicatedMessage m) (.ok .inserted) s' ∧ Reachable s' ∧
      kind.logs s' = (kind.logs s).write m.log m.headId ((kind.logs s).stamp m) := by
  have hwf : (kind.logs s).WellFormed := Backend.wellFormed (Backend.inv_of_reachable hs)
  obtain ⟨result, s', hanswer, hs', -, hput⟩ :=
    exists_storeAnswers hs hid rfl haccepts (Logs.refuses_put_next hwf hnext)
  obtain ⟨rfl, hwrite⟩ := Logs.putStep_next hwf hnext hput
  exact ⟨s', hanswer, hs', hwrite⟩

theorem storeAnswers_getHead (hs : Reachable s) (topic : Topic) (origin : NodeId) :
    StoreAnswers s (.getHead topic origin) (.ok ((kind.logs s).head (LogKey.of topic origin))) s := by
  have hexec : (StoreOp.getHead topic origin).exec s ⟨0, 0, ⟨"m"⟩⟩ =
      .ok ((kind.logs s).head (LogKey.of topic origin), s) :=
    congrArg (Except.map (·, s)) (Backend.getHead_eq topic origin (Backend.inv_of_reachable hs))
  exact Or.inl ⟨⟨0, 0, ⟨"m"⟩⟩, by decide, (StoreOp.outcome_eq_ok.mpr ⟨_, hexec⟩).symm,
    (StoreOp.after_of_ok hexec).symm⟩

theorem exists_recordPeerSyncState (hs : Reachable s) (state : PeerSyncState) :
    ∃ s', StoreAnswers s (.recordPeerSyncState state) (.ok ()) s' ∧ Reachable s' ∧
      kind.logs s' = kind.logs s := by
  have hfifo := kind.fifoInv_of_reachable hs
  let env : CallEnv := ⟨0, 0, ⟨"m"⟩⟩
  obtain ⟨s', hexec⟩ := kind.record_ok hfifo env state
  have hafter : (StoreOp.recordPeerSyncState state).after s env = s' := StoreOp.after_of_ok hexec
  refine ⟨s', Or.inl ⟨env, by decide, ?_, hafter.symm⟩, ?_, ?_⟩
  · exact (StoreOp.outcome_eq_ok.mpr ⟨s', hexec⟩).symm
  · rw [← hafter]
    exact hs.call env _
  · exact (Backend.refines hfifo.inv hexec).2

end Store

/-! ## A peer -/

section Peer

omit [Formats]

variable {σ : Type} [MsgbusStore σ] {s : σ}

theorem handlerAnswers_read {op : StoreOp} {result : op.Result} {env : CallEnv}
    (hid : ValidPart env.id.value) (h : op.exec s env = .ok (result, s)) :
    HandlerAnswers s (.store op) (Except.ok result) s :=
  Or.inl ⟨env, hid, (StoreOp.outcome_eq_ok.mpr ⟨s, h⟩).symm, (StoreOp.after_of_ok h).symm⟩

theorem serves_listHeads {heads : List TopicHead} (h : MsgbusStore.listHeads s = .ok heads) :
    Serves s listHeads (heads.map protoTopicHead) := by
  have hexec : StoreOp.exec s ⟨0, 0, ⟨"m"⟩⟩ .listHeads = .ok (heads, s) :=
    congrArg (Except.map (·, s)) h
  exact ⟨s, (runs_callStoreStatus (handlerAnswers_read (by decide) hexec)).bind (.ret _ _)⟩

theorem requestOrigin_protoNode {node origin : NodeId}
    (h : origin.Valid ∨ origin.isEmpty = true) :
    requestOrigin node (some (protoNode origin)) =
      .ok (if origin.isEmpty = true then node else origin) := by
  unfold requestOrigin
  change (coreNode (protoNode origin) >>= fun requested => _) = _
  rw [coreNode_protoNode h]
  change (if origin.isEmpty = true then _ else _) = _
  split_ifs
  · rfl
  · rfl

/-- What the handler of a fetch of `sync_head` asks its store for: a request
without an origin is about the daemon's own log. -/
def fetchQuery (node : NodeId) (head : TopicHead) (localHead : UInt64) (batchLimit : UInt32) :
    FetchQuery :=
  ⟨head.topic, if head.origin.isEmpty = true then node else head.origin,
    max (localHead.saturatingAdd 1) 1, max batchLimit 1⟩

theorem fetchQuery_of_valid (node : NodeId) {head : TopicHead} (localHead : UInt64)
    (batchLimit : UInt32) (h : head.origin.Valid) :
    fetchQuery node head localHead batchLimit = ⟨head.topic, head.origin,
      max (localHead.saturatingAdd 1) 1, max batchLimit 1⟩ := by
  rw [fetchQuery, h.isEmpty_eq]
  rfl

theorem fetch_eq (node : NodeId) {head : TopicHead} (localHead : UInt64) (batchLimit : UInt32)
    (htopic : ValidPart head.topic.value)
    (horigin : head.origin.Valid ∨ head.origin.isEmpty = true) :
    fetch node (fetchRequest head localHead batchLimit) =
      (callStoreStatus (.fetchMessages (fetchQuery node head localHead batchLimit))).bind
        fun messages : List StoredMessage =>
          .ret (messages.map fun m => ⟨some (protoMessage m)⟩) := by
  have hnew : Topic.new head.topic.value = .ok head.topic := Topic.new_eq_ok.mpr ⟨htopic, rfl⟩
  unfold fetch fetchRequest
  rw [hnew, requestOrigin_protoNode horigin]
  rfl

theorem serves_fetch {node : NodeId} {head : TopicHead} {localHead : UInt64} {batchLimit : UInt32}
    {messages : List StoredMessage} (htopic : ValidPart head.topic.value)
    (horigin : head.origin.Valid ∨ head.origin.isEmpty = true)
    (h : MsgbusStore.fetchMessages s (fetchQuery node head localHead batchLimit) = .ok messages) :
    Serves s (fetch node (fetchRequest head localHead batchLimit))
      (messages.map fun m => ⟨some (protoMessage m)⟩) := by
  have hexec : StoreOp.exec s ⟨0, 0, ⟨"m"⟩⟩
      (.fetchMessages (fetchQuery node head localHead batchLimit)) = .ok (messages, s) :=
    congrArg (Except.map (·, s)) h
  refine ⟨s, ?_⟩
  rw [fetch_eq node localHead batchLimit htopic horigin]
  exact (runs_callStoreStatus (handlerAnswers_read (by decide) hexec)).bind (.ret _ _)

end Peer

/-! ## A network -/

namespace Network

open System

variable {ι : Type} {N : Network ι} {w : ι → Logs}

def Settled (N : Network ι) (w : ι → Logs) (s : N.Stores) : Prop :=
  (∀ i, Reachable (s i)) ∧ N.view s = w

theorem settled_fresh : N.Settled (fun _ => Logs.empty) N.fresh := ⟨fun _ => .empty, view_fresh⟩

theorem Settled.logs_eq {s : N.Stores} (hs : N.Settled w s) (i : ι) :
    (N.storage i).logs (s i) = w i :=
  congrFun hs.2 i

theorem Settled.wellFormed {s : N.Stores} (hs : N.Settled w s) (i : ι) : (w i).WellFormed := by
  rw [← hs.logs_eq i]
  exact Backend.wellFormed (Backend.inv_of_reachable (hs.1 i))

variable [DecidableEq ι]

theorem Settled.update {s : N.Stores} (hs : N.Settled w s) {i : ι} {t : (N.storage i).Store}
    (ht : Reachable t) {b : Logs} (hb : (N.storage i).logs t = b) :
    N.Settled (Function.update w i b) (Function.update s i t) := by
  refine ⟨(Function.forall_update_iff s fun j (t : (N.storage j).Store) => Reachable t).mpr
    ⟨ht, fun j _ => hs.1 j⟩, ?_⟩
  rw [view_update, hs.2, hb]

/-- The condition admits successful calls of a daemon in settled networks, those
to the store if they are in `ops`. -/
def Permits (N : Network ι) (Cond : ι → N.Stores → (c : Command) → c.Answer → Prop) (i : ι)
    (w : ι → Logs) (ops : StoreOp → Prop) : Prop :=
  ∀ s c (answer : Command.Answer c), N.Settled w s → (∀ op, c = .store op → ops op) →
    c.Succeeds answer → Cond i s c answer

variable {Cond : ι → N.Stores → (c : Command) → c.Answer → Prop} {i j : ι}

theorem Settled.answers {s : N.Stores} (hs : N.Settled w s) {env : CallEnv} {op : StoreOp}
    (hcond : N.Permits Cond i w (· = op)) (hid : ValidPart env.id.value) (hop : op.onLogs = true)
    (haccepts : @Backend.Accepts _ (N.storage i).Store (instBackendStore _) (w i) env op)
    (hrefuses : (w i).refuses op = none) :
    ∃ result b s', (N.system.restrict Cond).Answers i s (.store op) (Except.ok result) s' ∧
      Logs.Step env op result (w i) b ∧ N.Settled (Function.update w i b) s' := by
  rw [← hs.logs_eq i] at haccepts hrefuses
  obtain ⟨result, t, hanswer, ht, hstep⟩ := exists_storeAnswers (hs.1 i) hid hop haccepts hrefuses
  rw [hs.logs_eq i] at hstep
  have hpermit : Cond i s (.store op) (Except.ok result) :=
    hcond s _ _ hs (fun op' hc => (Command.store.inj hc).symm) ⟨result, rfl⟩
  exact ⟨result, _, _, ⟨hpermit, t, hanswer, rfl⟩, hstep, hs.update ht rfl⟩

/-- The condition admits all successful calls that append nothing. -/
def Lenient (N : Network ι) (Cond : ι → N.Stores → (c : Command) → c.Answer → Prop) : Prop :=
  ∀ i w, N.Permits Cond i w (·.appendsTo = none)

theorem Lenient.calm (hcond : N.Lenient Cond) (i : ι) (w : ι → Logs) :
    Calm ((N.system.restrict Cond).Answers i) (N.Settled w) where
  nowMs := fun s hs => ⟨0, s, ⟨hcond i w s _ _ hs (fun op hc => by cases hc) trivial, rfl⟩, hs⟩
  connect := fun s endpoint hs =>
    ⟨s, ⟨hcond i w s _ _ hs (fun op hc => by cases hc) trivial, rfl⟩, hs⟩
  record := by
    intro s state hs
    obtain ⟨t, hanswer, ht, hlogs⟩ := exists_recordPeerSyncState (hs.1 i) state
    have hpermit : Cond i s (.store (.recordPeerSyncState state)) (Except.ok ()) :=
      hcond i w s _ _ hs (fun op hc => by cases hc; rfl) ⟨(), rfl⟩
    refine ⟨Function.update s i t, ⟨hpermit, t, hanswer, rfl⟩, ?_⟩
    have hsettled := hs.update ht (hlogs.trans (hs.logs_eq i))
    rw [Function.update_eq_self] at hsettled
    exact hsettled

theorem Settled.send {s : N.Stores} (hs : N.Settled w s) (hcond : N.Lenient Cond)
    (m : StoredMessage) : (N.system.restrict Cond).Answers i s (.send m) () s :=
  ⟨hcond i w s _ _ hs (fun op hc => by cases hc) trivial, rfl⟩

theorem Settled.getHead {s : N.Stores} (hs : N.Settled w s) (hcond : N.Lenient Cond) (topic : Topic)
    (origin : NodeId) : (N.system.restrict Cond).Answers i s (.store (.getHead topic origin))
      (Except.ok ((w i).head (LogKey.of topic origin))) s := by
  have hanswer := storeAnswers_getHead (hs.1 i) topic origin
  rw [hs.logs_eq i] at hanswer
  exact ⟨hcond i w s _ _ hs (fun op hc => by cases hc; rfl) ⟨_, rfl⟩, s i, hanswer,
    (Function.update_eq_self i s).symm⟩

theorem Settled.put {s : N.Stores} (hs : N.Settled w s) (hcond : N.Lenient Cond) {m : StoredMessage}
    (hnext : ((w i).current m.log).toNat + 1 = m.headId.toNat)
    (haccepts : @Backend.Accepts _ (N.storage i).Store (instBackendStore _) (w i) ⟨0, 0, ⟨"m"⟩⟩
      (.putReplicatedMessage m)) :
    ∃ s', (N.system.restrict Cond).Answers i s (.store (.putReplicatedMessage m))
      (Except.ok ReplicateResult.inserted) s' ∧
        N.Settled (Function.update w i ((w i).write m.log m.headId ((w i).stamp m))) s' := by
  rw [← hs.logs_eq i] at haccepts hnext
  obtain ⟨t, hanswer, ht, hlogs⟩ := exists_put_next (hs.1 i)
    (show ValidPart (CallEnv.id ⟨0, 0, ⟨"m"⟩⟩).value by decide) hnext haccepts
  rw [hs.logs_eq i] at hlogs
  have hpermit : Cond i s (.store (.putReplicatedMessage m)) (Except.ok ReplicateResult.inserted) :=
    hcond i w s _ _ hs (fun op hc => by cases hc; rfl) ⟨_, rfl⟩
  exact ⟨_, ⟨hpermit, t, hanswer, rfl⟩, hs.update ht hlogs⟩

/-! ## Requests -/

def Rests (N : Network ι) (w : ι → Logs) (a : State ι N.Stores Command Command.Answer) : Prop :=
  N.Settled w a.shared ∧ ∀ t ∈ a.tasks, t.2.first = none

omit [DecidableEq ι] in
theorem rests_init : N.Rests (fun _ => Logs.empty) (.init N.fresh) :=
  ⟨settled_fresh, fun _ h => absurd h List.not_mem_nil⟩

variable {a : State ι N.Stores Command Command.Answer}

omit [DecidableEq ι] in
theorem Rests.not_aboutTo (ha : N.Rests w a) (c : Command) : ¬ a.AboutTo i c :=
  State.not_aboutTo_of_ended ha.2

omit [DecidableEq ι] in
theorem Rests.task {sys : System ι N.Stores Command Command.Answer} (ha : N.Rests w a)
    {p : Server Unit Unit} {out : Except Unit Unit} {s' : N.Stores} {w' : ι → Logs}
    (hstart : sys.Starts i p) (hruns : Runs (sys.Answers i) a.shared p out s')
    (hs' : N.Settled w' s') : ∃ a', sys.Reaches a a' ∧ N.Rests w' a' := by
  refine ⟨_, reaches_task hstart hruns a.tasks, hs', ?_⟩
  intro t ht
  rcases List.mem_append.mp ht with hold | hnew
  · exact ha.2 t hold
  · rw [List.mem_singleton.mp hnew]
    cases out with
    | ok u => rfl
    | error e => rfl

theorem Rests.exists_publish (ha : N.Rests w a) (env : CallEnv) (topic : String)
    (payload : ByteArray) (headers : Headers) (hid : ValidPart env.id.value)
    (hvalid : ValidPart topic) (hne : (⟨topic⟩ : Topic) ≠ deleteTopic) (hcond : N.Lenient Cond)
    (hpermits : N.Permits Cond i w
      (· = .appendMessage ⟨env.id, ⟨topic⟩, N.node i, payload, headers⟩))
    (haccepts : @Backend.Accepts _ (N.storage i).Store (instBackendStore _) (w i) env
      (.appendMessage ⟨env.id, ⟨topic⟩, N.node i, payload, headers⟩)) :
    ∃ a', (N.system.restrict Cond).Reaches a a' ∧ N.Rests (Function.update w i
      ((w i).append ⟨env.id, ⟨topic⟩, N.node i, payload, headers⟩ env.now)) a' := by
  obtain ⟨stored, b, s₁, happend, ⟨-, rfl⟩, hs₁⟩ := ha.1.answers hpermits hid rfl haccepts rfl
  have hsend := hs₁.send hcond stored (i := i)
  have hidle : (N.system.restrict Cond).Answers i a.shared .newMessageId env.id a.shared :=
    ⟨hcond i w _ _ _ ha.1 (fun op hc => by cases hc) trivial, hid, rfl⟩
  have hruns : Runs _ a.shared (publish (N.node i) ⟨topic, none, payload, headers⟩) _ s₁ :=
    runs_publish (writeTarget_self (N.node i) hvalid hne) hidle happend hsend
  exact ha.task (Starts.publish _) hruns.discard hs₁

theorem Rests.exists_deleteRange (ha : N.Rests w a) (env : CallEnv) (topic : String)
    (first last : HeadId) (hid : ValidPart env.id.value) (hvalid : ValidPart topic)
    (hne : (⟨topic⟩ : Topic) ≠ deleteTopic) (hle : first ≤ last) (hcond : N.Lenient Cond)
    (hpermits : N.Permits Cond i w (· = .tombstoneRangeWithMarker ⟨topic⟩ (N.node i) first last
      deleteTopic (N.node i)))
    (haccepts : @Backend.Accepts _ (N.storage i).Store (instBackendStore _) (w i) env
      (.tombstoneRangeWithMarker ⟨topic⟩ (N.node i) first last deleteTopic (N.node i))) :
    ∃ a', (N.system.restrict Cond).Reaches a a' ∧ N.Rests (Function.update w i
      (((w i).mark (LogKey.of ⟨topic⟩ (N.node i)) first last).append
        (Logs.marker ⟨topic⟩ (N.node i) first last deleteTopic (N.node i) env) env.later)) a' := by
  obtain ⟨result, b, s₁, hmark, ⟨-, -, -, rfl⟩, hs₁⟩ :=
    ha.1.answers hpermits hid rfl haccepts (if_neg (UInt64.not_lt.mpr hle))
  have hsend := hs₁.send hcond result.2 (i := i)
  have hruns : Runs _ a.shared (deleteRange (N.node i) ⟨topic, none, first, last⟩) _ s₁ :=
    runs_deleteRange (writeTarget_self (N.node i) hvalid hne) hmark hsend
  exact ha.task (Starts.deleteRange _) hruns.discard hs₁

/-! ## Passes -/

/-- Daemon `j` has one log, and `m` at its head, which is the next message of it
that daemon `i` lacks. -/
structure OneAhead (N : Network ι) (w : ι → Logs) (i j : ι) (head : TopicHead)
    (m : StoredMessage) : Prop where
  lists : ∀ h, (w j).IsHead h ↔ h = head
  message : (w j).message (LogKey.of head.topic head.origin) head.headId = some m
  behind : ((w i).current (LogKey.of head.topic head.origin)).toNat + 1 = head.headId.toNat
  topic : m.topic = head.topic
  origin : m.origin = head.origin
  validTopic : ValidPart head.topic.value
  validOrigin : head.origin.Valid
  validId : ValidPart m.id.value
  /-- The backend of the peer takes calls that append nothing. -/
  reads : ∀ op, op.appendsTo = none →
    @Backend.Accepts _ (N.storage j).Store (instBackendStore _) (w j) ⟨0, 0, ⟨"m"⟩⟩ op

variable {head : TopicHead} {m : StoredMessage} {endpoint : String}

theorem Lenient.lists (hcond : N.Lenient Cond) (hresolve : N.resolve endpoint = some j)
    (hne : N.node j ≠ N.node i) (hlists : ∀ h, (w j).IsHead h ↔ h = head)
    (htopic : ValidPart head.topic.value) (horigin : head.origin.Valid)
    (hreads : @Backend.Accepts _ (N.storage j).Store (instBackendStore _) (w j) ⟨0, 0, ⟨"m"⟩⟩
      .listHeads) :
    ListsOne ((N.system.restrict Cond).Answers i) (N.Settled w) (N.Settled w) (N.node i)
      ⟨endpoint, none⟩ (protoTopicHead head) head where
  calm := hcond.calm i w
  expected := rfl
  health := by
    intro s hs
    refine ⟨N.node j, s, N.valid j, hne,
      ⟨hcond i w s _ _ hs (fun op hc => by cases hc) trivial, rfl, ?_⟩, hs⟩
    rintro response ⟨⟩
    exact ⟨j, hresolve, rfl⟩
  listHeads := by
    intro s hs
    refine ⟨s, ⟨hcond i w s _ _ hs (fun op hc => by cases hc) trivial, rfl, ?_⟩, hs⟩
    rintro heads ⟨⟩
    rw [← hs.logs_eq j] at hreads
    obtain ⟨heads, hrun, hnodup, hmem⟩ :=
      Backend.listHeads_eq (Backend.inv_of_reachable (hs.1 j)) hreads
    have hone : heads = [head] := by
      refine List.perm_singleton.mp
        ((List.perm_ext_iff_of_nodup hnodup (List.nodup_singleton _)).mpr ?_)
      intro g
      rw [hmem, List.mem_singleton, ← hlists g, ← hs.logs_eq j]
      exact Iff.rfl
    rw [hone] at hrun
    exact ⟨j, hresolve, serves_listHeads hrun⟩
  head := coreTopicHead_protoTopicHead (Or.inl horigin) htopic

theorem OneAhead.listsOne (h : N.OneAhead w i j head m) (hcond : N.Lenient Cond)
    (hresolve : N.resolve endpoint = some j) (hne : N.node j ≠ N.node i) :
    ListsOne ((N.system.restrict Cond).Answers i) (N.Settled w) (N.Settled w) (N.node i)
      ⟨endpoint, none⟩ (protoTopicHead head) head :=
  hcond.lists hresolve hne h.lists h.validTopic h.validOrigin (h.reads .listHeads rfl)

omit [DecidableEq ι] in
theorem OneAhead.window_eq (h : N.OneAhead w i j head m) {s : N.Stores} (hs : N.Settled w s)
    {limit : Nat} (hlimit : 0 < limit) :
    (w j).window (LogKey.of head.topic head.origin) head.headId limit = [m] := by
  have hwf := hs.wellFormed j
  have hhead : (w j).current (LogKey.of head.topic head.origin) = head.headId :=
    ((h.lists head).mpr rfl).current_eq hwf
  have hmessage := h.message
  rw [← hhead] at hmessage ⊢
  exact Logs.window_current hwf hmessage hlimit

omit [DecidableEq ι] in
theorem OneAhead.headId_eq (h : N.OneAhead w i j head m) {s : N.Stores} (hs : N.Settled w s) :
    m.headId = head.headId :=
  ((hs.wellFormed j).positioned _ _ _ h.message).1

theorem OneAhead.oneBehind (h : N.OneAhead w i j head m) {s : N.Stores} (hs : N.Settled w s)
    (hcond : N.Lenient Cond) (hresolve : N.resolve endpoint = some j) (batchLimit : UInt32) :
    OneBehind ((N.system.restrict Cond).Answers i) (N.Settled w) ⟨endpoint, none⟩ head batchLimit
      ((w i).head (LogKey.of head.topic head.origin)) (protoMessage m) m where
  calm := hcond.calm i w
  getHead := fun s hs => ⟨s, hs.getHead hcond _ _, hs⟩
  behind := by
    have hbehind := h.behind
    apply UInt64.lt_iff_toNat_lt.mpr
    change ((w i).current _).toNat < _
    omega
  fetch := by
    intro s hs
    refine ⟨s, ⟨hcond i w s _ _ hs (fun op hc => by cases hc) trivial, rfl, ?_⟩, hs⟩
    rintro items last ⟨⟩
    have hfirst : max ((((w i).head (LogKey.of head.topic head.origin)).getD 0).saturatingAdd 1) 1 =
        head.headId := by
      have hbehind := h.behind
      have hlt := UInt64.toNat_lt head.headId
      apply UInt64.toNat_inj.mp
      change (max (((w i).current _).saturatingAdd 1) 1).toNat = _
      rw [UInt64.toNat_max, UInt64.toNat_saturatingAdd_one, UInt64.toNat_one]
      omega
    have hreads := h.reads (.fetchMessages ⟨head.topic, head.origin, head.headId, max batchLimit 1⟩)
      rfl
    rw [← hs.logs_eq j] at hreads
    have hfetch := Backend.fetchMessages_eq (Backend.inv_of_reachable (hs.1 j)) hreads
    change _ = Except.ok (((N.storage j).logs (s j)).window _ _ _) at hfetch
    rw [hs.logs_eq j, h.window_eq hs (effectiveLimit_pos _), ← hfirst] at hfetch
    rw [← fetchQuery_of_valid (N.node j) _ batchLimit h.validOrigin] at hfetch
    exact ⟨j, _, hresolve, serves_fetch h.validTopic (Or.inl h.validOrigin) hfetch,
      List.prefix_rfl, fun _ => rfl⟩
  message := by
    refine coreMessage_protoMessage ?_ ?_ h.validId ?_
    · rw [h.origin]
      exact Or.inl h.validOrigin
    · rw [h.headId_eq hs]
      intro hzero
      have hbehind := h.behind
      rw [hzero] at hbehind
      cases hbehind
    · rw [h.topic]
      exact h.validTopic
  headId := h.headId_eq hs

omit [DecidableEq ι] in
theorem OneAhead.next (h : N.OneAhead w i j head m) {s : N.Stores} (hs : N.Settled w s) :
    ((w i).current m.log).toNat + 1 = m.headId.toNat := by
  rw [h.headId_eq hs, ((hs.wellFormed j).positioned _ _ _ h.message).2]
  exact h.behind

theorem Rests.exists_syncOnce (ha : N.Rests w a) (h : N.OneAhead w i j head m)
    (hcond : N.Lenient Cond) (hresolve : N.resolve endpoint = some j)
    (hne : N.node j ≠ N.node i) (hcontrol : controlRange m = .ok none)
    (haccepts : @Backend.Accepts _ (N.storage i).Store (instBackendStore _) (w i) ⟨0, 0, ⟨"m"⟩⟩
      (.putReplicatedMessage m)) (batchLimit : UInt32) :
    ∃ a', (N.system.restrict Cond).Reaches a a' ∧
      N.Rests (Function.update w i ((w i).write m.log m.headId ((w i).stamp m))) a' := by
  let w' := Function.update w i ((w i).write m.log m.headId ((w i).stamp m))
  have hafter := hcond.calm i w'
  have hmessage : ∀ s, N.Settled w s → ∃ s', Runs ((N.system.restrict Cond).Answers i) s
      (syncMessage ⟨endpoint, none⟩ head m) (.ok ()) s' ∧ N.Settled w' s' := by
    intro s hs
    obtain ⟨s₁, hput, hs₁⟩ := hs.put hcond (h.next hs) haccepts
    exact ⟨s₁, runs_syncMessage h.topic h.origin hcontrol hput (hs₁.send hcond m), hs₁⟩
  obtain ⟨s', hruns, hs'⟩ := (h.listsOne hcond hresolve hne).runs_syncOnce hafter
    (fun s hs => (h.oneBehind hs hcond hresolve batchLimit).runs_syncHead hafter hmessage hs) ha.1
  exact ha.task (Starts.syncOnce _ rfl) hruns.discard hs'

theorem Rests.exists_syncOnce_marks (ha : N.Rests w a) (h : N.OneAhead w i j head m)
    (hcond : N.Lenient Cond) (hresolve : N.resolve endpoint = some j)
    (hne : N.node j ≠ N.node i) {range : TombstoneRange} {b : Logs}
    (hmarks : controlRange m = .ok (some range))
    (haccepts : @Backend.Accepts _ (N.storage i).Store (instBackendStore _) (w i) ⟨0, 0, ⟨"m"⟩⟩
      (.putReplicatedMessage m))
    (hb : b = (w i).write m.log m.headId ((w i).stamp m))
    (happlied : @Backend.Accepts _ (N.storage i).Store (instBackendStore _) b ⟨0, 0, ⟨"m"⟩⟩ range.op)
    (hle : range.fromHeadId ≤ range.toHeadId) (batchLimit : UInt32) :
    ∃ a', (N.system.restrict Cond).Reaches a a' ∧
      N.Rests (Function.update w i
        (b.mark (LogKey.of range.topic range.origin) range.fromHeadId range.toHeadId)) a' := by
  have hafter := hcond.calm i (Function.update w i
    (b.mark (LogKey.of range.topic range.origin) range.fromHeadId range.toHeadId))
  have hpermits : N.Permits Cond i (Function.update w i b) (· = range.op) := by
    intro s c answer hs hc hok
    exact hcond i _ s c answer hs (fun op hop => by rw [hc op hop]; rfl) hok
  rw [← Function.update_self i b w] at happlied
  have hmessage : ∀ s, N.Settled w s → ∃ s', Runs ((N.system.restrict Cond).Answers i) s
      (syncMessage ⟨endpoint, none⟩ head m) (.ok ()) s' ∧ N.Settled (Function.update w i
        (b.mark (LogKey.of range.topic range.origin) range.fromHeadId range.toHeadId)) s' := by
    intro s hs
    obtain ⟨s₁, hput, hs₁⟩ := hs.put hcond (h.next hs) haccepts
    rw [← hb] at hs₁
    obtain ⟨count, b', s₂, hrange, ⟨-, -, rfl⟩, hs₂⟩ := hs₁.answers hpermits (by decide) rfl happlied
      (if_neg (UInt64.not_lt.mpr hle))
    rw [Function.update_idem, Function.update_self] at hs₂
    exact ⟨s₂, runs_syncMessage_marks h.topic h.origin hmarks hput hrange (hs₂.send hcond m), hs₂⟩
  obtain ⟨s', hruns, hs'⟩ := (h.listsOne hcond hresolve hne).runs_syncOnce hafter
    (fun s hs => (h.oneBehind hs hcond hresolve batchLimit).runs_syncHead hafter hmessage hs) ha.1
  exact ha.task (Starts.syncOnce _ rfl) hruns.discard hs'

/-- A pass that brings a marker which the store of the daemon does not apply: the
marker stays. -/
theorem Rests.exists_syncOnce_refused (ha : N.Rests w a) (h : N.OneAhead w i j head m)
    (hcond : N.Lenient Cond) (hresolve : N.resolve endpoint = some j)
    (hne : N.node j ≠ N.node i) {range : TombstoneRange} {e : MsgbusError} {b : Logs}
    (hmarks : controlRange m = .ok (some range))
    (haccepts : @Backend.Accepts _ (N.storage i).Store (instBackendStore _) (w i) ⟨0, 0, ⟨"m"⟩⟩
      (.putReplicatedMessage m))
    (hb : b = (w i).write m.log m.headId ((w i).stamp m))
    (hrefused : ∀ s, N.Settled (Function.update w i b) s →
      (N.system.restrict Cond).Answers i s (.store range.op) (Except.error e) s)
    (batchLimit : UInt32) :
    ∃ a', (N.system.restrict Cond).Reaches a a' ∧ N.Rests (Function.update w i b) a' := by
  have hafter := hcond.calm i (Function.update w i b)
  have hmessage : ∀ s, N.Settled w s → ∃ s', Runs ((N.system.restrict Cond).Answers i) s
      (syncMessage ⟨endpoint, none⟩ head m) (.error (Formats.statusText (statusFromError e))) s' ∧
        N.Settled (Function.update w i b) s' := by
    intro s hs
    obtain ⟨s₁, hput, hs₁⟩ := hs.put hcond (h.next hs) haccepts
    rw [← hb] at hs₁
    exact ⟨s₁, runs_syncMessage_refused h.topic h.origin hmarks hput (hrefused s₁ hs₁), hs₁⟩
  obtain ⟨s', hruns, hs'⟩ := (h.listsOne hcond hresolve hne).runs_syncOnce_error hafter
    (fun s hs => (h.oneBehind hs hcond hresolve batchLimit).runs_syncHead_error hmessage hs)
    (fun s hs => ⟨s, hs.getHead hcond _ _, hs⟩) ha.1
  exact ha.task (Starts.syncOnce _ rfl) hruns.discard hs'

/-! ## Passes with arbitrary peers -/

theorem exposedAnswers_of_answers {s s' : N.Stores} {c : Command} {answer : c.Answer}
    (h : (N.system.restrict Cond).Answers i s c answer s') :
    (N.exposed.restrict Cond).Answers i s c answer s' := by
  refine ⟨h.1, ?_⟩
  cases c with
  | store op => exact h.2
  | newMessageId => exact h.2
  | health endpoint => exact h.2.1
  | listHeads endpoint => exact h.2.1
  | fetch endpoint request => exact h.2.1
  | _ => exact h.2

theorem Lenient.exposedCalm (hcond : N.Lenient Cond) (i : ι) (w : ι → Logs) :
    Calm ((N.exposed.restrict Cond).Answers i) (N.Settled w) :=
  (hcond.calm i w).mono fun _ _ _ _ _ h => exposedAnswers_of_answers h

theorem Lenient.listsOne (hcond : N.Lenient Cond) {remote : NodeId} (hvalid : remote.Valid)
    (hne : remote ≠ N.node i) {listed : Pb.TopicHead} (hhead : coreTopicHead listed = .ok head) :
    ListsOne ((N.exposed.restrict Cond).Answers i) (N.Settled w) (N.Settled w) (N.node i)
      ⟨endpoint, none⟩ listed head where
  calm := hcond.exposedCalm i w
  expected := rfl
  health := fun s hs => ⟨remote, s, hvalid, hne,
    ⟨hcond i w s _ _ hs (fun op hc => by cases hc) trivial, rfl⟩, hs⟩
  listHeads := fun s hs => ⟨s, ⟨hcond i w s _ _ hs (fun op hc => by cases hc) trivial, rfl⟩, hs⟩
  head := hhead

theorem Lenient.oneBehind (hcond : N.Lenient Cond) {envelope : Pb.MessageEnvelope}
    (hmessage : coreMessage envelope = .ok m) (hheadId : m.headId = head.headId)
    (hbehind : (w i).current (LogKey.of head.topic head.origin) < head.headId)
    (batchLimit : UInt32) :
    OneBehind ((N.exposed.restrict Cond).Answers i) (N.Settled w) ⟨endpoint, none⟩ head batchLimit
      ((w i).head (LogKey.of head.topic head.origin)) envelope m where
  calm := hcond.exposedCalm i w
  getHead := fun s hs => ⟨s, exposedAnswers_of_answers (hs.getHead hcond _ _), hs⟩
  behind := hbehind
  fetch := fun s hs => ⟨s, ⟨hcond i w s _ _ hs (fun op hc => by cases hc) trivial, rfl⟩, hs⟩
  message := hmessage
  headId := hheadId

theorem Settled.exists_exposed_syncOnce {s : N.Stores} (hs : N.Settled w s) (hcond : N.Lenient Cond)
    {remote : NodeId} (hvalid : remote.Valid) (hne : remote ≠ N.node i) {listed : Pb.TopicHead}
    (hhead : coreTopicHead listed = .ok head) {envelope : Pb.MessageEnvelope}
    (hmessage : coreMessage envelope = .ok m) (hlisted : head = ⟨m.topic, m.origin, m.headId⟩)
    (hnext : ((w i).current m.log).toNat + 1 = m.headId.toNat) (hcontrol : controlRange m = .ok none)
    (haccepts : @Backend.Accepts _ (N.storage i).Store (instBackendStore _) (w i) ⟨0, 0, ⟨"m"⟩⟩
      (.putReplicatedMessage m)) :
    ∃ s', Runs ((N.exposed.restrict Cond).Answers i) s (syncOnce ⟨N.node i, [⟨"peer", none⟩], 1⟩)
        (.ok ()) s' ∧
      N.Settled (Function.update w i ((w i).write m.log m.headId ((w i).stamp m))) s' := by
  let w' := Function.update w i ((w i).write m.log m.headId ((w i).stamp m))
  have hafter := hcond.exposedCalm i w'
  have hbehind : (w i).current (LogKey.of head.topic head.origin) < head.headId := by
    rw [hlisted, UInt64.lt_iff_toNat_lt]
    exact hnext ▸ Nat.lt_succ_self _
  have hone : OneBehind ((N.exposed.restrict Cond).Answers i) (N.Settled w) ⟨"peer", none⟩ head 1 _
      envelope m := hcond.oneBehind hmessage (by rw [hlisted]) hbehind 1
  have hsync : ∀ s, N.Settled w s → ∃ s', Runs ((N.exposed.restrict Cond).Answers i) s
      (syncMessage ⟨"peer", none⟩ head m) (.ok ()) s' ∧ N.Settled w' s' := by
    intro s hs
    obtain ⟨s₁, hput, hs₁⟩ := hs.put hcond hnext haccepts
    exact ⟨s₁, runs_syncMessage (by rw [hlisted]) (by rw [hlisted]) hcontrol
      (exposedAnswers_of_answers hput) (exposedAnswers_of_answers (hs₁.send hcond m)), hs₁⟩
  exact (hcond.listsOne hvalid hne hhead).runs_syncOnce hafter
    (fun s hs => hone.runs_syncHead hafter hsync hs) hs

theorem Rests.exists_exposed_syncOnce (ha : N.Rests w a) (hcond : N.Lenient Cond)
    {remote : NodeId} (hvalid : remote.Valid) (hne : remote ≠ N.node i) {listed : Pb.TopicHead}
    (hhead : coreTopicHead listed = .ok head) {envelope : Pb.MessageEnvelope}
    (hmessage : coreMessage envelope = .ok m) (hlisted : head = ⟨m.topic, m.origin, m.headId⟩)
    (hnext : ((w i).current m.log).toNat + 1 = m.headId.toNat) (hcontrol : controlRange m = .ok none)
    (haccepts : @Backend.Accepts _ (N.storage i).Store (instBackendStore _) (w i) ⟨0, 0, ⟨"m"⟩⟩
      (.putReplicatedMessage m)) :
    ∃ a', (N.exposed.restrict Cond).Reaches a a' ∧
      N.Rests (Function.update w i ((w i).write m.log m.headId ((w i).stamp m))) a' := by
  obtain ⟨s', hruns, hs'⟩ := ha.1.exists_exposed_syncOnce hcond hvalid hne hhead hmessage hlisted
    hnext hcontrol haccepts
  exact ha.task (Starts.syncOnce _ rfl) hruns.discard hs'

/-! ## Recorded passes -/

section Recorded

variable {S : Type} {sys : System ι S Command Command.Answer} {P P' : S → Prop}
variable {R R' : List (Event ι Command Command.Answer) → Prop} {localNode : NodeId} {peer : PeerSpec}
variable {listed : Pb.TopicHead} {batchLimit : UInt32} {stored : Option HeadId}
variable {envelope : Pb.MessageEnvelope}

def Recording (P : S → Prop) (R : List (Event ι Command Command.Answer) → Prop)
    (s : S × List (Event ι Command Command.Answer)) : Prop :=
  P s.1 ∧ R s.2

omit [Formats] [DecidableEq ι] in
theorem exists_answer_recorded {c : Command} {answer : c.Answer}
    (h : ∀ s, P s → ∃ s', sys.Answers i s c answer s' ∧ P' s')
    (hrecord : ∀ events, R events → R' ((i, ⟨c, answer⟩) :: events))
    (s : S × List (Event ι Command Command.Answer)) (hs : Recording P R s) :
    ∃ s', sys.traced.Answers i s c answer s' ∧ Recording P' R' s' := by
  obtain ⟨s', hanswer, hs'⟩ := h s.1 hs.1
  exact ⟨(s', _), ⟨hanswer, rfl⟩, hs', hrecord s.2 hs.2⟩

def KeptByCalls (i : ι) (R : List (Event ι Command Command.Answer) → Prop) : Prop :=
  ∀ events c answer, (∀ m, c ≠ .send m) → R events → R ((i, ⟨c, answer⟩) :: events)

omit [Formats] [DecidableEq ι] in
theorem Calm.traced (h : Calm (sys.Answers i) P) (hkept : KeptByCalls i R) :
    Calm (sys.traced.Answers i) (Recording P R) where
  nowMs := by
    intro s hs
    obtain ⟨now, s', hanswer, hs'⟩ := h.nowMs s.1 hs.1
    exact ⟨now, (s', _), ⟨hanswer, rfl⟩, hs', hkept _ _ _ (fun _ hc => by cases hc) hs.2⟩
  connect := fun s endpoint hs => exists_answer_recorded (fun s hs => h.connect s endpoint hs)
    (fun _ => hkept _ _ _ fun _ hc => by cases hc) s hs
  record := fun s state hs => exists_answer_recorded (fun s hs => h.record s state hs)
    (fun _ => hkept _ _ _ fun _ hc => by cases hc) s hs

omit [Formats] [DecidableEq ι] in
theorem ListsOne.traced (h : ListsOne (sys.Answers i) P P localNode peer listed head)
    (hkept : KeptByCalls i R)
    (hlisted : ∀ events, R events →
      R' ((i, ⟨.listHeads peer.endpoint, (Except.ok [listed] : Except Status (List Pb.TopicHead))⟩) ::
        events)) :
    ListsOne (sys.traced.Answers i) (Recording P R) (Recording P R') localNode peer listed head where
  calm := Calm.traced h.calm hkept
  expected := h.expected
  health := by
    intro s hs
    obtain ⟨remote, s', hvalid, hne, hanswer, hs'⟩ := h.health s.1 hs.1
    exact ⟨remote, (s', _), hvalid, hne, ⟨hanswer, rfl⟩, hs',
      hkept _ _ _ (fun _ hc => by cases hc) hs.2⟩
  listHeads := exists_answer_recorded h.listHeads hlisted
  head := h.head

omit [Formats] [DecidableEq ι] in
theorem OneBehind.traced
    (h : OneBehind (sys.Answers i) P peer head batchLimit stored envelope m)
    (hkept : KeptByCalls i R) :
    OneBehind (sys.traced.Answers i) (Recording P R) peer head batchLimit stored envelope m where
  calm := Calm.traced h.calm hkept
  getHead := exists_answer_recorded h.getHead fun _ => hkept _ _ _ fun _ hc => by cases hc
  behind := h.behind
  fetch := exists_answer_recorded h.fetch fun _ => hkept _ _ _ fun _ hc => by cases hc
  message := h.message
  headId := h.headId

end Recorded

def solo : Network Unit where
  node := fun _ => ⟨"a", "b", "c"⟩
  storage := fun _ => .redb
  resolve := fun _ => none
  valid := fun _ => by decide

/-- Two daemons, the first on redb; every endpoint is that of the first. -/
def pair (kind : StorageKind) : Network Bool where
  node := fun owner => if owner then ⟨"a", "b", "c"⟩ else ⟨"x", "y", "z"⟩
  storage := fun owner => if owner then .redb else kind
  resolve := fun _ => some true
  valid := by decide

omit [Formats] in
theorem distinct_pair (kind : StorageKind) : (pair kind).Distinct := by
  intro x y hkey
  cases x with
  | false =>
      cases y with
      | false => rfl
      | true => exact absurd hkey (by decide : ("x/y/z" : String) ≠ "a/b/c")
  | true =>
      cases y with
      | false => exact absurd hkey (by decide : ("a/b/c" : String) ≠ "x/y/z")
      | true => rfl

end Network

end Msgbus
