import Msgbus.Guarantees

/-!
# Isolation of logs

Every table is addressed through `NodeId::key`, so two identities with one key
share their logs.  Calls addressed to one log leave another alone exactly when
the two differ by topic or key.
-/

namespace Msgbus

open Program

variable [Formats]

/-- The call writes to the log `first`, and to `marker` if it appends a marker. -/
def StoreOp.AddressedTo (first marker : Topic × NodeId) : StoreOp → Prop
  | .appendMessage message => (message.topic, message.origin) = first
  | .putReplicatedMessage message => (message.topic, message.origin) = first
  | .tombstoneRange topic origin _ _ => (topic, origin) = first
  | .tombstoneRangeWithMarker topic origin _ _ markerTopic markerOrigin =>
      (topic, origin) = first ∧ (markerTopic, markerOrigin) = marker
  | _ => False

/-- From every reachable state, no call addressed to `first` changes what
`get_head` and `fetch_messages` return for `second`, and no delete marker for
`first` that `apply_control_message` accepts flags a message of `second`. -/
structure Isolates (kind : StorageKind) (first marker second : Topic × NodeId) : Prop where
  getHead : ∀ (s : kind.Store) (env : CallEnv) (op : StoreOp), Reachable s →
    op.AddressedTo first marker →
      MsgbusStore.getHead (op.after s env) second.1 second.2 =
        MsgbusStore.getHead s second.1 second.2
  fetchMessages : ∀ (s : kind.Store) (env : CallEnv) (op : StoreOp) (fromHeadId : HeadId)
    (limit : UInt32), Reachable s → op.AddressedTo first marker →
      MsgbusStore.fetchMessages (op.after s env) ⟨second.1, second.2, fromHeadId, limit⟩ =
        MsgbusStore.fetchMessages s ⟨second.1, second.2, fromHeadId, limit⟩
  control : ∀ (s s' : kind.Store) (control : StoredMessage) (range : TombstoneRange),
    Reachable s → control.Marks range → (range.topic, control.origin) = first →
      Runs HandlerAnswers s (applyControlMessage control) (.ok ()) s' →
        ∀ k n m m', (kind.logs s).message k n = some m → (m.topic, m.origin) = second →
          (kind.logs s').message k n = some m' → m'.deleted = m.deleted

omit [Formats] in
theorem StoreOp.AddressedTo.touches {first marker : Topic × NodeId} {op : StoreOp}
    (h : op.AddressedTo first marker) {k : LogKey} (hk : k ∈ op.touches) :
    k = LogKey.of first.1 first.2 ∨ k = LogKey.of marker.1 marker.2 := by
  cases op with
  | appendMessage message =>
      cases h
      exact Or.inl (List.mem_singleton.mp hk)
  | putReplicatedMessage message =>
      cases h
      exact Or.inl (List.mem_singleton.mp hk)
  | tombstoneRange topic origin f l =>
      cases h
      exact Or.inl (List.mem_singleton.mp hk)
  | tombstoneRangeWithMarker topic origin f l markerTopic markerOrigin =>
      obtain ⟨rfl, rfl⟩ := h
      rcases List.mem_cons.mp hk with rfl | hk
      · exact Or.inl rfl
      · exact Or.inr (List.mem_singleton.mp hk)
  | _ => cases h

/-- A call, whatever its outcome, leaves the logs alone that it is not addressed
to. -/
theorem same_log_after (kind : StorageKind) {s : kind.Store} (hs : kind.Inv s) (env : CallEnv)
    {op : StoreOp} {k : LogKey} (hk : k ∉ op.touches) :
    (kind.logs (op.after s env)).head k = (kind.logs s).head k ∧
      (kind.logs (op.after s env)).message k = (kind.logs s).message k := by
  rcases Backend.after_cases hs env op with ⟨r, -, -, hstep⟩ | hsame
  · exact Logs.step_frame hstep hk
  · rw [hsame]
    exact ⟨rfl, rfl⟩

/-- An accepted marker changes the store by its one `tombstone_range`. -/
theorem after_of_runs_applyControlMessage {σ : Type} [MsgbusStore σ] {s s' : σ}
    {control : StoredMessage} {range : TombstoneRange} (hmarks : control.Marks range)
    (h : Runs HandlerAnswers s (applyControlMessage control) (.ok ()) s') :
    ∃ env, s' = range.op.after s env := by
  unfold applyControlMessage at h
  rw [show controlRange control = .ok (some range) from hmarks] at h
  obtain ⟨result, t, hcall, hrest⟩ := h.of_bind
  obtain ⟨-, rfl⟩ := hrest.of_pure
  rcases storeAnswers_of_runs hcall with ⟨env, -, -, hafter⟩ | ⟨message, herror, -⟩
  · exact ⟨env, hafter⟩
  · cases herror

theorem isolates_of_ne (kind : StorageKind) {first marker second : Topic × NodeId}
    (hfirst : LogKey.of first.1 first.2 ≠ LogKey.of second.1 second.2)
    (hmarker : LogKey.of marker.1 marker.2 ≠ LogKey.of second.1 second.2) :
    Isolates kind first marker second := by
  have huntouched : ∀ op : StoreOp, op.AddressedTo first marker →
      LogKey.of second.1 second.2 ∉ op.touches := by
    intro op hop htouches
    rcases hop.touches htouches with heq | heq
    · exact hfirst heq.symm
    · exact hmarker heq.symm
  constructor
  · intro s env op hs hop
    have hinv : kind.Inv s := Backend.inv_of_reachable hs
    rw [Backend.getHead_eq _ _ (Backend.inv_after hinv env op), Backend.getHead_eq _ _ hinv]
    exact congrArg Except.ok (same_log_after kind hinv env (huntouched op hop)).1
  · intro s env op fromHeadId limit hs hop
    have hinv : kind.Inv s := Backend.inv_of_reachable hs
    obtain ⟨hhead, hmessage⟩ := same_log_after kind hinv env (huntouched op hop)
    refine Backend.fetchMessages_congr (Backend.inv_after hinv env op) hinv ?_
    exact Logs.log_congr (congrArg (Option.getD · 0) hhead) hmessage
  · intro s s' control range hs hmarks hrange hruns k n m m' hm hsecond hm'
    have hinv : kind.Inv s := Backend.inv_of_reachable hs
    have hk : LogKey.of second.1 second.2 = k := by
      rw [← ((Backend.wellFormed hinv).positioned k n m hm).2, ← hsecond]
      rfl
    have hop : range.op.AddressedTo first marker := by
      rw [← hrange, (StoredMessage.marks_iff.mp hmarks).2.2.2]
      rfl
    obtain ⟨env, rfl⟩ := after_of_runs_applyControlMessage hmarks hruns
    have hsame := (same_log_after kind hinv env (huntouched _ hop)).2
    rw [hk] at hsame
    rw [hsame, hm] at hm'
    cases hm'
    rfl

theorem not_isolates_of_head {kind : StorageKind} {first marker second : Topic × NodeId}
    (op : StoreOp) (env : CallEnv) (h : HeadId) (hop : op.AddressedTo first marker)
    (hhead : (kind.logs (op.after (MsgbusStore.empty : kind.Store) env)).head
      (LogKey.of second.1 second.2) = some h) :
    ¬ Isolates kind first marker second := by
  intro hisolates
  have hinv : kind.Inv (MsgbusStore.empty : kind.Store) := Backend.inv_empty
  have hsame := hisolates.getHead MsgbusStore.empty env op .empty hop
  rw [Backend.getHead_eq _ _ (Backend.inv_after hinv env op), Backend.getHead_eq _ _ hinv,
    Backend.logs_empty] at hsame
  have hnone := Except.ok.inj hsame
  rw [show @Backend.logs _ _ (instBackendStore kind) (op.after MsgbusStore.empty env) =
    kind.logs (op.after MsgbusStore.empty env) from rfl, hhead] at hnone
  cases hnone

/-- Two logs are isolated exactly when their topics or the keys of their origins
differ, and so do those of the marker's log. -/
theorem isolates_iff (kind : StorageKind) (first marker second : Topic × NodeId) :
    Isolates kind first marker second ↔
      LogKey.of first.1 first.2 ≠ LogKey.of second.1 second.2 ∧
        LogKey.of marker.1 marker.2 ≠ LogKey.of second.1 second.2 := by
  constructor
  · intro hisolates
    constructor
    · intro heq
      let msg : NewMessage := ⟨⟨"m"⟩, first.1, first.2, .empty, .empty⟩
      refine not_isolates_of_head (.appendMessage msg) firstEnv 1 rfl ?_ hisolates
      rw [← heq]
      exact head_append_fresh kind (by decide)
    · intro heq
      refine not_isolates_of_head
        (.tombstoneRangeWithMarker first.1 first.2 1 1 marker.1 marker.2) firstEnv 1 ⟨rfl, rfl⟩ ?_
        hisolates
      rw [← heq]
      exact head_marker_fresh kind (by decide) (by decide)
  · rintro ⟨hfirst, hmarker⟩
    exact isolates_of_ne kind hfirst hmarker

/-- An identity that `NodeId::validate` admits, with the key `a/b/c/d`. -/
def slashedNode : NodeId := ⟨"a/b", "c", "d"⟩

def splitNode : NodeId := ⟨"a", "b/c", "d"⟩

def slashedMessage : NewMessage := ⟨⟨"m"⟩, ⟨"t"⟩, slashedNode, .empty, .empty⟩

omit [Formats] in
/-- In either backend, an append for one identity moves the head of the other. -/
theorem shared_key_moves_head :
    letI := Serde.formats
    Topic.new "t" = .ok ⟨"t"⟩ ∧ slashedNode.validate = .ok () ∧ splitNode.validate = .ok () ∧
      slashedNode ≠ splitNode ∧
      MsgbusStore.getHead (MsgbusStore.empty : Redb) ⟨"t"⟩ splitNode = .ok none ∧
      MsgbusStore.getHead (StoreOp.after (MsgbusStore.empty : Redb) firstEnv
        (.appendMessage slashedMessage)) ⟨"t"⟩ splitNode = .ok (some 1) ∧
      MsgbusStore.getHead (MsgbusStore.empty : Sqlite) ⟨"t"⟩ splitNode = .ok none ∧
      MsgbusStore.getHead (StoreOp.after (MsgbusStore.empty : Sqlite) firstEnv
        (.appendMessage slashedMessage)) ⟨"t"⟩ splitNode = .ok (some 1) := by
  let _ : Formats := Serde.formats
  have hshared : LogKey.of ⟨"t"⟩ splitNode = LogKey.of ⟨"t"⟩ slashedNode := by decide
  have hbefore : ∀ kind : StorageKind,
      MsgbusStore.getHead (MsgbusStore.empty : kind.Store) ⟨"t"⟩ splitNode = .ok none := by
    intro kind
    rw [Backend.getHead_eq _ _ Backend.inv_empty, Backend.logs_empty]
    rfl
  have hafter : ∀ kind : StorageKind,
      MsgbusStore.getHead (StoreOp.after (MsgbusStore.empty : kind.Store) firstEnv
        (.appendMessage slashedMessage)) ⟨"t"⟩ splitNode = .ok (some 1) := by
    intro kind
    rw [Backend.getHead_eq _ _ (Backend.inv_after Backend.inv_empty firstEnv _), hshared]
    exact congrArg Except.ok (head_append_fresh kind (by decide))
  exact ⟨by decide, by decide, by decide, by decide, hbefore .redb, hafter .redb,
    hbefore .sqlite, hafter .sqlite⟩

end Msgbus
