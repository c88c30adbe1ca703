import Msgbus.Backends

/-!
# Stores that later writes cannot tell apart

An append and a replicated write read the heads and messages of a store and,
of its tombstones, only whether one covers the message at hand.  Two stores
that agree on these answer every such call alike and agree afterwards.
-/

namespace Msgbus

open Except

def StoreOp.Writes : StoreOp → Prop
  | .appendMessage _ | .putReplicatedMessage _ => True
  | _ => False

structure Logs.Alike (b b' : Logs) : Prop where
  head : b.head = b'.head
  message : b.message = b'.message
  covers : ∀ k n, b.Covers k n ↔ b'.Covers k n

theorem Logs.Alike.stamp_eq {b b' : Logs} (h : b.Alike b') (m : StoredMessage) :
    b.stamp m = b'.stamp m := by
  rw [stamp_eq_of_iff (b := b) (d := (b'.stamp m).deleted)]
  · exact stamp_eq_withDeleted.symm
  · rw [stamp_deleted, h.covers]

variable [Formats]

namespace Redb

variable {s t : Redb}

structure Alike (s t : Redb) : Prop where
  heads : s.heads = t.heads
  messages : s.messages = t.messages
  marks : ∀ m, applyTombstoneMarkers s m = applyTombstoneMarkers t m

theorem appendMessage_alike (h : s.Alike t) (m : NewMessage) (now : UInt64) :
    Related (fun x y : StoredMessage × Redb => x.1 = y.1 ∧ x.2.Alike y.2)
      (appendMessage s m now) (appendMessage t m now) := by
  have hmarks : ∀ heads m, applyTombstoneMarkers { s with messages := t.messages, heads := heads } m =
      applyTombstoneMarkers { t with heads := heads } m := fun _ m => h.marks m
  unfold appendMessage appendMessageInTxn
  dsimp only
  rw [h.heads, h.messages]
  refine Related.bind (R := Eq) (.of_eq (hmarks _ _)) ?_
  rintro stored _ rfl
  exact ⟨rfl, rfl, rfl, h.marks⟩

theorem putReplicatedMessage_alike (h : s.Alike t) (m : StoredMessage) :
    Related (fun x y : ReplicateResult × Redb => x.1 = y.1 ∧ x.2.Alike y.2)
      (putReplicatedMessage s m) (putReplicatedMessage t m) := by
  unfold putReplicatedMessage currentHeadInTxn
  rw [h.heads, h.messages, h.marks]
  refine Related.ite rfl (Related.bind_same fun message => ?_)
  dsimp only
  cases t.messages.get (messageKey message.topic message.origin message.headId) with
  | none => exact Related.ite rfl ⟨rfl, rfl, rfl, h.marks⟩
  | some value =>
      refine Related.bind_same fun existing => ?_
      exact Related.ite ⟨rfl, h⟩ (Related.ite ⟨rfl, rfl, rfl, h.marks⟩ rfl)

theorem mem_heads_of_logs (hs : s.Coded) (h : s.logs.head = t.logs.head) {e : String × UInt64}
    (he : e ∈ s.heads.entries) : e ∈ t.heads.entries := by
  obtain ⟨k, hk⟩ := hs.heads e he
  have hget : s.heads.get (logHeadKey k) = t.heads.get (logHeadKey k) := congrFun h k
  rw [← hk, OrderedTable.get_eq_some_iff.mpr he] at hget
  exact OrderedTable.get_eq_some_iff.mp hget.symm

theorem mem_messages_of_logs (hs : s.Coded) (ht : t.Coded) (h : s.logs.message = t.logs.message)
    {e : String × ByteArray} (he : e ∈ s.messages.entries) : e ∈ t.messages.entries := by
  obtain ⟨m, rfl⟩ := hs.messages e he
  have hm := (logs_message_eq_some hs).mpr ⟨he, rfl, rfl⟩
  rw [h] at hm
  exact ((logs_message_eq_some ht).mp hm).1

theorem alike_of_logs (hs : s.Coded) (ht : t.Coded) (h : s.logs.Alike t.logs) : s.Alike t where
  heads := OrderedTable.ext_mem fun _ =>
    ⟨mem_heads_of_logs hs h.head, mem_heads_of_logs ht h.head.symm⟩
  messages := OrderedTable.ext_mem fun _ =>
    ⟨mem_messages_of_logs hs ht h.message, mem_messages_of_logs ht hs h.message.symm⟩
  marks := by
    intro m
    rw [applyTombstoneMarkers_eq hs, applyTombstoneMarkers_eq ht, h.stamp_eq]

theorem Alike.message_eq (h : s.Alike t) : s.logs.message = t.logs.message := by
  unfold logs
  rw [h.messages]

theorem Alike.head_eq (h : s.Alike t) : s.logs.head = t.logs.head := by
  unfold logs
  rw [h.heads]

end Redb

namespace Sqlite

variable {s t : Sqlite}

structure Alike (s t : Sqlite) : Prop where
  heads : s.heads = t.heads
  messages : s.messages = t.messages
  marks : ∀ m, applyTombstoneMarkers s m = applyTombstoneMarkers t m

omit [Formats] in
theorem selectHead_congr (h : s.heads = t.heads) (topic : Topic) (origin : NodeId) :
    selectHead s topic origin = selectHead t topic origin := by
  unfold selectHead
  rw [h]

omit [Formats] in
theorem insertMessage_alike (h : s.Alike t) (pk : MessagePk) (row : MessageRow) :
    Related Alike (insertMessage s pk row) (insertMessage t pk row) := by
  unfold insertMessage
  rw [h.messages]
  exact Related.ite rfl (Related.ite rfl ⟨h.heads, rfl, h.marks⟩)

omit [Formats] in
theorem Alike.withHeads (h : s.Alike t) (heads : OrderedTable HeadPk Int) :
    Alike { s with heads := heads } { t with heads := heads } := ⟨rfl, h.messages, h.marks⟩

theorem appendMessage_alike (h : s.Alike t) (m : NewMessage) (now : UInt64) :
    Related (fun x y : StoredMessage × Sqlite => x.1 = y.1 ∧ x.2.Alike y.2)
      (appendMessage s m now) (appendMessage t m now) := by
  unfold appendMessage appendMessageInTx
  rw [selectHead_congr h.heads, h.heads]
  refine Related.bind_same fun current => Related.bind_same fun nextHead => ?_
  dsimp only
  refine Related.bind (R := Eq) (.of_eq ((h.withHeads _).marks _)) ?_
  rintro stored _ rfl
  refine Related.bind_same fun row => Related.bind (insertMessage_alike (h.withHeads _) _ _) ?_
  intro s' t' h'
  exact ⟨rfl, h'⟩

theorem putFresh_alike (h : s.Alike t) (m : StoredMessage) (headId : Int) :
    Related (fun x y : ReplicateResult × Sqlite => x.1 = y.1 ∧ x.2.Alike y.2)
      (putFresh s m headId) (putFresh t m headId) := by
  unfold putFresh
  rw [selectHead_congr h.heads]
  refine Related.bind_same fun current => Related.ite rfl ?_
  refine Related.bind_same fun row => Related.bind (insertMessage_alike h _ _) ?_
  intro s' t' h'
  refine Related.ite ⟨rfl, ?_⟩ ⟨rfl, h'⟩
  rw [h'.heads]
  exact h'.withHeads _

theorem putReplicatedMessage_alike (h : s.Alike t) (m : StoredMessage) :
    Related (fun x y : ReplicateResult × Sqlite => x.1 = y.1 ∧ x.2.Alike y.2)
      (putReplicatedMessage s m) (putReplicatedMessage t m) := by
  unfold putReplicatedMessage
  rw [h.messages, h.marks]
  refine Related.ite rfl (Related.bind_same fun message => Related.bind_same fun headId => ?_)
  dsimp only
  cases t.messages.get ⟨message.topic.value, message.origin.key, headId⟩ with
  | none => exact putFresh_alike h message headId
  | some row =>
      refine Related.bind_same fun existing => ?_
      unfold putExisting
      rw [h.messages]
      exact Related.ite ⟨rfl, h⟩ (Related.ite ⟨rfl, h.heads, rfl, h.marks⟩ rfl)

theorem mem_heads_of_logs (hs : s.Coded) (ht : t.Coded) (h : s.logs.head = t.logs.head)
    {e : HeadPk × Int} (he : e ∈ s.heads.entries) : e ∈ t.heads.entries := by
  obtain ⟨n, hn, -⟩ := hs.heads e he
  have hget : s.heads.get (headPk ⟨⟨e.1.topic⟩, e.1.originKey⟩) = some (n.toNat : Int) :=
    OrderedTable.get_eq_some_iff.mpr (hn ▸ he)
  have hhead := (logs_head_eq_some hs).mpr hget
  rw [h] at hhead
  have hmem := OrderedTable.get_eq_some_iff.mp ((logs_head_eq_some ht).mp hhead)
  rw [← hn] at hmem
  exact hmem

theorem mem_messages_of_logs (hs : s.Coded) (ht : t.Coded) (h : s.logs.message = t.logs.message)
    {e : MessagePk × MessageRow} (he : e ∈ s.messages.entries) : e ∈ t.messages.entries := by
  obtain ⟨m, rfl, -⟩ := hs.messages e he
  have hm := (logs_message_eq_some hs).mpr ⟨he, rfl, rfl⟩
  rw [h] at hm
  exact ((logs_message_eq_some ht).mp hm).1

/-- Whether the check of the head id fails depends on the message alone. -/
theorem applyTombstoneMarkers_congr (hs : s.Coded) (ht : t.Coded) (h : s.logs.Alike t.logs)
    (m : StoredMessage) : applyTombstoneMarkers s m = applyTombstoneMarkers t m := by
  by_cases hok : m.deleted = true ∨ Fits m.headId
  · rw [(applyTombstoneMarkers_eq_ok hs).mpr ⟨hok, rfl⟩,
      (applyTombstoneMarkers_eq_ok ht).mpr ⟨hok, rfl⟩, h.stamp_eq]
  · obtain ⟨hlive, hfits⟩ := not_or.mp hok
    have herror : ∀ u : Sqlite, applyTombstoneMarkers u m =
        .error (.invalidArgument (toString m.headId ++ " exceeds i64")) := by
      intro u
      unfold applyTombstoneMarkers u64ToI64
      rw [if_neg hlive, if_neg (show ¬ m.headId.toNat ≤ i64Max from hfits)]
      rfl
    rw [herror s, herror t]

theorem alike_of_logs (hs : s.Coded) (ht : t.Coded) (h : s.logs.Alike t.logs) : s.Alike t where
  heads := OrderedTable.ext_mem fun _ =>
    ⟨mem_heads_of_logs hs ht h.head, mem_heads_of_logs ht hs h.head.symm⟩
  messages := OrderedTable.ext_mem fun _ =>
    ⟨mem_messages_of_logs hs ht h.message, mem_messages_of_logs ht hs h.message.symm⟩
  marks := applyTombstoneMarkers_congr hs ht h

theorem Alike.message_eq (h : s.Alike t) : s.logs.message = t.logs.message := by
  unfold logs
  rw [h.messages]

theorem Alike.head_eq (h : s.Alike t) : s.logs.head = t.logs.head := by
  unfold logs
  rw [h.heads]

end Sqlite

/-! ## Either backend -/

namespace StorageKind

def Alike : (kind : StorageKind) → kind.Store → kind.Store → Prop
  | redb => Redb.Alike
  | sqlite => Sqlite.Alike

theorem alike_of_logs (kind : StorageKind) {s t : kind.Store} (hs : kind.Inv s) (ht : kind.Inv t)
    (h : (kind.logs s).Alike (kind.logs t)) : kind.Alike s t := by
  cases kind with
  | redb => exact Redb.alike_of_logs hs.coded ht.coded h
  | sqlite => exact Sqlite.alike_of_logs hs.coded ht.coded h

theorem Alike.logs_eq {kind : StorageKind} {s t : kind.Store} (h : kind.Alike s t) :
    (kind.logs s).head = (kind.logs t).head ∧ (kind.logs s).message = (kind.logs t).message := by
  cases kind with
  | redb => exact ⟨Redb.Alike.head_eq h, Redb.Alike.message_eq h⟩
  | sqlite => exact ⟨Sqlite.Alike.head_eq h, Sqlite.Alike.message_eq h⟩

theorem exec_alike (kind : StorageKind) {s t : kind.Store} (h : kind.Alike s t) (env : CallEnv)
    {op : StoreOp} (hop : op.Writes) :
    Related (fun x y : op.Result × kind.Store => x.1 = y.1 ∧ kind.Alike x.2 y.2)
      (op.exec s env) (op.exec t env) := by
  cases op with
  | appendMessage m =>
      cases kind with
      | redb => exact Redb.appendMessage_alike h m env.now
      | sqlite => exact Sqlite.appendMessage_alike h m env.now
  | putReplicatedMessage m =>
      cases kind with
      | redb => exact Redb.putReplicatedMessage_alike h m
      | sqlite => exact Sqlite.putReplicatedMessage_alike h m
  | _ => exact absurd hop id

/-- One later write is answered alike and leaves the stores alike. -/
theorem Alike.step {kind : StorageKind} {s t : kind.Store} (h : kind.Alike s t) (env : CallEnv)
    {op : StoreOp} (hop : op.Writes) :
    op.outcome s env = op.outcome t env ∧ kind.Alike (op.after s env) (op.after t env) := by
  have hrelated := kind.exec_alike h env hop
  unfold StoreOp.outcome StoreOp.after
  cases hs : op.exec s env with
  | error e =>
      cases ht : op.exec t env with
      | error e' =>
          rw [hs, ht] at hrelated
          exact ⟨congrArg Except.error hrelated, h⟩
      | ok result =>
          rw [hs, ht] at hrelated
          exact absurd hrelated id
  | ok result =>
      cases ht : op.exec t env with
      | error e' =>
          rw [hs, ht] at hrelated
          exact absurd hrelated id
      | ok result' =>
          rw [hs, ht] at hrelated
          exact ⟨congrArg Except.ok hrelated.1, hrelated.2⟩

theorem Alike.run {kind : StorageKind} {s t : kind.Store} (h : kind.Alike s t)
    {later : List (CallEnv × StoreOp)} (hlater : ∀ call ∈ later, call.2.Writes) :
    traceFrom s later = traceFrom t later ∧ kind.Alike (runFrom s later) (runFrom t later) := by
  induction later generalizing s t with
  | nil => exact ⟨rfl, h⟩
  | cons call rest ih =>
      obtain ⟨houtcome, hafter⟩ := h.step call.1 (hlater call List.mem_cons_self)
      obtain ⟨htrace, hrun⟩ := ih hafter fun c hc => hlater c (List.mem_cons_of_mem _ hc)
      refine ⟨?_, hrun⟩
      rw [traceFrom, traceFrom, houtcome, htrace]

end StorageKind

end Msgbus
