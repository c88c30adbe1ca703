import Msgbus.Lib.ExceptRules
import Msgbus.Logs.Growth
import Msgbus.Sqlite.Store

/-!
# The logs in SQLite tables

`logs` reads the abstract logs off the tables, and `Coded` says that every row
is the row of a value whose numbers fit `i64`.  `Accepts` collects what SQLite
asks of a call beyond what the logs themselves ask.
-/

namespace Msgbus.Sqlite

variable [Formats] {s : Sqlite} {k : LogKey} {n : HeadId} {m : StoredMessage}

def messageEntry (m : StoredMessage) : MessagePk × MessageRow :=
  (⟨m.topic.value, m.origin.key, m.headId.toNat⟩,
    ⟨Formats.nodeId.toStr m.origin, m.id.value, m.payload, Formats.headers.toStr m.headers,
      m.createdAtMs.toNat, m.deleted⟩)

def messagePk (k : LogKey) (n : HeadId) : MessagePk := ⟨k.topic.value, k.origin, n.toNat⟩

def headPk (k : LogKey) : HeadPk := ⟨k.topic.value, k.origin⟩

def tombstonePk (k : LogKey) (first last : HeadId) : TombstonePk :=
  ⟨k.topic.value, k.origin, first.toNat, last.toNat⟩

def Fits (n : UInt64) : Prop := n.toNat ≤ i64Max

instance (n : UInt64) : Decidable (Fits n) := inferInstanceAs (Decidable (n.toNat ≤ i64Max))

/-- Every row is the row of a value whose numbers fit. -/
structure Coded (s : Sqlite) : Prop where
  messages : ∀ e ∈ s.messages.entries, ∃ m, e = messageEntry m ∧ Fits m.headId
  heads : ∀ e ∈ s.heads.entries, ∃ h : UInt64, e.2 = h.toNat ∧ Fits h
  tombstones : ∀ e ∈ s.tombstones.entries, ∃ k first last, e.1 = tombstonePk k first last

def readRow (pk : MessagePk) (row : MessageRow) : Option StoredMessage := do
  let origin ← (Formats.nodeId.decodeJson row.originJson).toOption
  let headers ← (Formats.headers.decodeJson row.headersJson).toOption
  some ⟨⟨row.id⟩, ⟨pk.topic⟩, origin, UInt64.ofNat pk.headId.toNat, row.payload, headers,
    UInt64.ofNat row.createdAtMs.toNat, row.deleted⟩

def logs (s : Sqlite) : Logs where
  head k := (s.heads.get (headPk k)).map fun h => UInt64.ofNat h.toNat
  message k n := (s.messages.get (messagePk k n)).bind (readRow (messagePk k n))
  tombstone k first last := (s.tombstones.get (tombstonePk k first last)).isSome = true

/-! ## Keys and rows -/

omit [Formats] in
theorem headPk_injective : Function.Injective headPk := by
  rintro ⟨⟨t⟩, o⟩ ⟨⟨t'⟩, o'⟩ h
  simp only [headPk, HeadPk.mk.injEq] at h
  rw [h.1, h.2]

omit [Formats] in
theorem messagePk_inj {k k' : LogKey} {n n' : HeadId} :
    messagePk k n = messagePk k' n' ↔ k = k' ∧ n = n' := by
  obtain ⟨⟨t⟩, o⟩ := k
  obtain ⟨⟨t'⟩, o'⟩ := k'
  simp only [messagePk, MessagePk.mk.injEq, LogKey.mk.injEq, Topic.mk.injEq, Int.natCast_inj,
    UInt64.toNat_inj]
  tauto

omit [Formats] in
theorem tombstonePk_inj {k k' : LogKey} {f f' l l' : HeadId} :
    tombstonePk k f l = tombstonePk k' f' l' ↔ k = k' ∧ f = f' ∧ l = l' := by
  obtain ⟨⟨t⟩, o⟩ := k
  obtain ⟨⟨t'⟩, o'⟩ := k'
  simp only [tombstonePk, TombstonePk.mk.injEq, LogKey.mk.injEq, Topic.mk.injEq,
    Int.natCast_inj, UInt64.toNat_inj]
  tauto

@[simp] theorem messageEntry_topic : (messageEntry m).1.topic = m.topic.value := rfl

@[simp] theorem messageEntry_originKey : (messageEntry m).1.originKey = m.origin.key := rfl

@[simp] theorem messageEntry_headId : (messageEntry m).1.headId = m.headId.toNat := rfl

@[simp] theorem messageEntry_deleted : (messageEntry m).2.deleted = m.deleted := rfl

theorem messageEntry_fst (m : StoredMessage) : (messageEntry m).1 = messagePk m.log m.headId := rfl

omit [Formats] in
theorem messagePk_lt_iff {n n' : HeadId} : messagePk k n < messagePk k n' ↔ n.toNat < n'.toNat := by
  change toLex (k.topic.value, toLex (k.origin, (n.toNat : Int))) <
    toLex (k.topic.value, toLex (k.origin, (n'.toNat : Int))) ↔ _
  simp [Prod.Lex.toLex_lt_toLex]

@[simp] theorem readRow_messageEntry (m : StoredMessage) :
    readRow (messageEntry m).1 (messageEntry m).2 = some m := by
  simp [readRow, messageEntry, Except.toOption]

theorem logs_message_eq_some (hs : s.Coded) :
    s.logs.message k n = some m ↔
      messageEntry m ∈ s.messages.entries ∧ m.log = k ∧ m.headId = n := by
  simp only [logs, Option.bind_eq_some_iff, OrderedTable.get_eq_some_iff]
  constructor
  · rintro ⟨row, hmem, hread⟩
    obtain ⟨m', hentry, -⟩ := hs.messages _ hmem
    have hpk : messagePk k n = (messageEntry m').1 := congrArg Prod.fst hentry
    have hrow : row = (messageEntry m').2 := congrArg Prod.snd hentry
    rw [hpk, hrow, readRow_messageEntry, Option.some.injEq] at hread
    subst hread
    obtain ⟨hlog, hhead⟩ := messagePk_inj.mp (hpk.trans (messageEntry_fst m'))
    exact ⟨hentry ▸ hmem, hlog.symm, hhead.symm⟩
  · rintro ⟨hmem, rfl, rfl⟩
    exact ⟨_, hmem, readRow_messageEntry m⟩

theorem get_message_eq_none (hs : s.Coded) :
    s.messages.get (messagePk k n) = none ↔ s.logs.message k n = none := by
  constructor
  · intro hget
    simp [logs, hget]
  · intro hnone
    by_contra hsome
    obtain ⟨row, hget⟩ := Option.ne_none_iff_exists'.mp hsome
    obtain ⟨m, hentry, -⟩ := hs.messages _ (OrderedTable.get_eq_some_iff.mp hget)
    have hpk := (congrArg Prod.fst hentry).trans (messageEntry_fst m)
    obtain ⟨hlog, hhead⟩ := messagePk_inj.mp hpk
    have hm : s.logs.message k n = some m := (logs_message_eq_some hs).mpr
      ⟨hentry ▸ OrderedTable.get_eq_some_iff.mp hget, hlog.symm, hhead.symm⟩
    rw [hnone] at hm
    cases hm

theorem logs_head_eq_some (hs : s.Coded) {h : UInt64} :
    s.logs.head k = some h ↔ s.heads.get (headPk k) = some (h.toNat : Int) := by
  simp only [logs, Option.map_eq_some_iff]
  constructor
  · rintro ⟨value, hget, rfl⟩
    obtain ⟨h', hvalue, -⟩ := hs.heads _ (OrderedTable.get_eq_some_iff.mp hget)
    simp only at hvalue
    rw [hget, hvalue]
    simp
  · intro hget
    exact ⟨_, hget, by simp⟩

/-! ## What the helpers return -/

omit [Formats] in
theorem u64ToI64_eq_ok {n : UInt64} {i : Int} : u64ToI64 n = .ok i ↔ Fits n ∧ i = n.toNat := by
  unfold u64ToI64 Fits
  split_ifs with h
  · simp [h, eq_comm]
  · simp [h]

omit [Formats] in
@[simp] theorem i64ToU64_natCast (n : UInt64) : i64ToU64 (n.toNat : Int) = .ok n := by
  simp [i64ToU64]

theorem rowToMessage_eq_ok {m' : StoredMessage} :
    rowToMessage (messageEntry m).1 (messageEntry m).2 = .ok m' ↔
      (ValidPart m.id.value ∧ ValidPart m.topic.value) ∧ m' = m := by
  have hmap : ∀ x : Except MsgbusError StoredMessage,
      Except.mapError storageErr x = .ok m' ↔ x = .ok m' := by
    intro x
    cases x <;> simp [Except.mapError]
  unfold rowToMessage
  rw [hmap]
  simp only [messageEntry, Except.bind_eq_ok, i64ToU64_natCast, MessageId.fromString_eq_ok,
    Topic.new_eq_ok, JsonFormat.decodeJson_toStr, Except.ok.injEq, pure, Except.pure]
  constructor
  · rintro ⟨_, rfl, _, rfl, _, ⟨hid, rfl⟩, _, ⟨htopic, rfl⟩, _, rfl, _, rfl, rfl⟩
    exact ⟨⟨hid, htopic⟩, rfl⟩
  · rintro ⟨⟨hid, htopic⟩, rfl⟩
    exact ⟨_, rfl, _, rfl, _, ⟨hid, rfl⟩, _, ⟨htopic, rfl⟩, _, rfl, _, rfl, rfl⟩

theorem messageRow_eq_ok {e : MessagePk × MessageRow} :
    messageRow m = .ok e ↔ (Fits m.headId ∧ Fits m.createdAtMs) ∧ e = messageEntry m := by
  unfold messageRow
  simp only [Except.bind_eq_ok, u64ToI64_eq_ok, pure, Except.pure, Except.ok.injEq]
  constructor
  · rintro ⟨_, ⟨hhead, rfl⟩, _, ⟨hcreated, rfl⟩, rfl⟩
    exact ⟨⟨hhead, hcreated⟩, rfl⟩
  · rintro ⟨⟨hhead, hcreated⟩, rfl⟩
    exact ⟨_, ⟨hhead, rfl⟩, _, ⟨hcreated, rfl⟩, rfl⟩

theorem selectHead_eq (hs : s.Coded) (topic : Topic) (origin : NodeId) :
    selectHead s topic origin = .ok (s.logs.head (LogKey.of topic origin)) := by
  have hpk : (⟨topic.value, origin.key⟩ : HeadPk) = headPk (LogKey.of topic origin) := rfl
  unfold selectHead
  rw [hpk]
  cases hget : s.heads.get (headPk (LogKey.of topic origin)) with
  | none => simp [logs, hget]
  | some value =>
      obtain ⟨h, hvalue, -⟩ := hs.heads _ (OrderedTable.get_eq_some_iff.mp hget)
      simp only at hvalue
      subst hvalue
      rw [(logs_head_eq_some hs).mpr hget]
      simp [Except.map]

def IdFree (s : Sqlite) (id : String) : Prop := ∀ e ∈ s.messages.entries, e.2.id ≠ id

omit [Formats] in
/-- An insert that checks a primary key and a unique index succeeds exactly when
neither is taken. -/
theorem uniqueInsert_eq_ok {K V β : Type} [LinearOrder K] {t : OrderedTable K V} {pk : K}
    {index : V → String} {id : String} {e₁ e₂ : MsgbusError} {b b' : β} :
    (if (t.get pk).isSome then .error e₁
      else if t.entries.any (fun entry => index entry.2 = id) then .error e₂
      else .ok b : Except MsgbusError β) = .ok b' ↔
      (t.get pk = none ∧ ∀ e ∈ t.entries, index e.2 ≠ id) ∧ b' = b := by
  split_ifs with hpk hid
  · simp only [false_iff, not_and]
    rintro ⟨hnone, -⟩
    rw [hnone] at hpk
    cases hpk
  · simp only [false_iff, not_and]
    rintro ⟨-, hfree⟩
    obtain ⟨e, he, heq⟩ := List.any_eq_true.mp hid
    exact absurd (of_decide_eq_true heq) (hfree e he)
  · have hfree : ∀ e ∈ t.entries, index e.2 ≠ id := by
      intro e he heq
      exact hid (List.any_eq_true.mpr ⟨e, he, decide_eq_true heq⟩)
    rw [Bool.not_eq_true, Option.isSome_eq_false_iff, Option.isNone_iff_eq_none] at hpk
    simp only [Except.ok.injEq, hpk, true_and, eq_comm]
    exact ⟨fun h => ⟨hfree, h⟩, fun h => h.2⟩

omit [Formats] in
theorem insertMessage_eq_ok {pk : MessagePk} {row : MessageRow} {s' : Sqlite} :
    insertMessage s pk row = .ok s' ↔
      (s.messages.get pk = none ∧ s.IdFree row.id) ∧
        s' = { s with messages := s.messages.insert pk row } :=
  uniqueInsert_eq_ok

/-! ## Queries -/

omit [Formats] in
theorem log_eq_iff : m.log = k ↔ m.topic.value = k.topic.value ∧ m.origin.key = k.origin := by
  obtain ⟨⟨t⟩, o⟩ := k
  obtain ⟨id, ⟨t'⟩, origin, headId, payload, headers, createdAtMs, deleted⟩ := m
  simp [StoredMessage.log, LogKey.of]

/-- A query whose rows are some messages of one log returns them in head
order. -/
theorem filter_messages (hs : s.Coded) (hb : s.logs.WellFormed)
    {p : MessagePk × MessageRow → Bool} {ms : List StoredMessage}
    (hms : ms.Sublist (s.logs.log k))
    (hp : ∀ m, messageEntry m ∈ s.messages.entries → (p (messageEntry m) = true ↔ m ∈ ms)) :
    s.messages.entries.filter p = ms.map messageEntry := by
  have hstored : ∀ m ∈ ms, messageEntry m ∈ s.messages.entries ∧ m.log = k := by
    intro m hm
    obtain ⟨hmem, hlog, -⟩ :=
      (logs_message_eq_some hs).mp ((Logs.mem_log hb).mp (hms.subset hm))
    exact ⟨hmem, hlog⟩
  refine OrderedTable.scan_ext (s.messages.sorted.filter _) ?_ ?_
  · rw [List.pairwise_map]
    refine ((Logs.log_pairwise hb).sublist hms).imp_of_mem ?_
    intro a b ha hb' hlt
    rw [messageEntry_fst, messageEntry_fst, (hstored a ha).2, (hstored b hb').2]
    exact messagePk_lt_iff.mpr hlt
  · intro e
    rw [List.mem_filter, List.mem_map]
    constructor
    · rintro ⟨hmem, hpe⟩
      obtain ⟨m, rfl, -⟩ := hs.messages e hmem
      exact ⟨m, (hp m hmem).mp hpe, rfl⟩
    · rintro ⟨m, hm, rfl⟩
      exact ⟨(hstored m hm).1, (hp m (hstored m hm).1).mpr hm⟩

theorem select_messages (hs : s.Coded) (hb : s.logs.WellFormed) :
    (s.messages.entries.filter fun entry =>
      entry.1.topic = k.topic.value && entry.1.originKey = k.origin &&
        (n.toNat : Int) ≤ entry.1.headId) =
      ((s.logs.log k).drop (n.toNat - 1)).map messageEntry := by
  refine filter_messages hs hb (List.drop_sublist _ _) ?_
  intro m hmem
  rw [Logs.mem_log_drop hb, logs_message_eq_some hs, log_eq_iff, UInt64.le_iff_toNat_le]
  simp only [messageEntry_topic, messageEntry_originKey, messageEntry_headId, Bool.and_eq_true,
    decide_eq_true_eq, Int.ofNat_le, hmem, true_and, and_true]
  exact and_congr (and_congr decide_eq_true_iff decide_eq_true_iff) Iff.rfl

theorem select_unmarked (hs : s.Coded) (hb : s.logs.WellFormed) (topic : Topic)
    (origin : NodeId) (first last : HeadId) :
    (s.messages.entries.filter fun entry =>
      inTombstoneRange topic origin first.toNat last.toNat entry.1 entry.2) =
      (s.logs.unmarked (LogKey.of topic origin) first last).map messageEntry := by
  refine filter_messages hs hb List.filter_sublist ?_
  intro m hmem
  rw [Logs.mem_unmarked hb, logs_message_eq_some hs, log_eq_iff, UInt64.le_iff_toNat_le,
    UInt64.le_iff_toNat_le]
  simp only [inTombstoneRange, messageEntry_topic, messageEntry_originKey, messageEntry_headId,
    messageEntry_deleted, LogKey.of, Bool.and_eq_true, decide_eq_true_eq, Int.ofNat_le, hmem,
    true_and, and_true, and_assoc]
  exact and_congr decide_eq_true_iff (and_congr decide_eq_true_iff
    (and_congr Iff.rfl (and_congr Iff.rfl decide_eq_true_iff)))

theorem applyTombstoneMarkers_eq_ok (hs : s.Coded) {m' : StoredMessage} :
    applyTombstoneMarkers s m = .ok m' ↔
      (m.deleted = true ∨ Fits m.headId) ∧ m' = s.logs.stamp m := by
  unfold applyTombstoneMarkers
  split_ifs with hdeleted
  · rw [Logs.stamp_of_deleted hdeleted]
    simp [hdeleted, eq_comm]
  · have hany : (s.tombstones.entries.any fun entry =>
        entry.1.topic = m.topic.value && entry.1.originKey = m.origin.key &&
          entry.1.fromHeadId ≤ (m.headId.toNat : Int) &&
          (m.headId.toNat : Int) ≤ entry.1.toHeadId) = true ↔
        s.logs.Covers m.log m.headId := by
      simp only [List.any_eq_true, Bool.and_eq_true, decide_eq_true_eq, Logs.Covers]
      constructor
      · rintro ⟨⟨pk, row⟩, hmem, ⟨⟨htopic, horigin⟩, hfirst⟩, hlast⟩
        obtain ⟨k, first, last, hpk⟩ := hs.tombstones _ hmem
        simp only at hpk
        subst hpk
        have hlog : m.log = k := log_eq_iff.mpr ⟨htopic.symm, horigin.symm⟩
        refine ⟨first, last, ?_, ?_, ?_⟩
        · rw [hlog]
          exact Option.isSome_iff_exists.mpr ⟨row, OrderedTable.get_eq_some_iff.mpr hmem⟩
        · rw [UInt64.le_iff_toNat_le]
          exact Int.ofNat_le.mp hfirst
        · rw [UInt64.le_iff_toNat_le]
          exact Int.ofNat_le.mp hlast
      · rintro ⟨first, last, hrange, hfirst, hlast⟩
        obtain ⟨row, hget⟩ := Option.isSome_iff_exists.mp hrange
        rw [UInt64.le_iff_toNat_le] at hfirst hlast
        exact ⟨_, OrderedTable.get_eq_some_iff.mp hget,
          ⟨⟨rfl, rfl⟩, Int.ofNat_le.mpr hfirst⟩, Int.ofNat_le.mpr hlast⟩
    rw [Bool.not_eq_true] at hdeleted
    have hstamp : s.logs.stamp m = if (s.tombstones.entries.any fun entry =>
        entry.1.topic = m.topic.value && entry.1.originKey = m.origin.key &&
          entry.1.fromHeadId ≤ (m.headId.toNat : Int) &&
          (m.headId.toNat : Int) ≤ entry.1.toHeadId) = true
        then { m with deleted := true } else m := by
      split_ifs with hcover
      · exact Logs.stamp_eq_of_iff (by simp [hany.mp hcover])
      · rw [hany] at hcover
        exact Logs.stamp_eq_of_iff (d := m.deleted) (by simp [hcover])
    rw [Except.bind_eq_ok]
    simp only [u64ToI64_eq_ok, hdeleted, Bool.false_eq_true, false_or]
    constructor
    · rintro ⟨_, ⟨hfits, rfl⟩, hm'⟩
      cases hm'
      exact ⟨hfits, hstamp.symm⟩
    · rintro ⟨hfits, rfl⟩
      exact ⟨_, ⟨hfits, rfl⟩, congrArg Except.ok hstamp.symm⟩

end Msgbus.Sqlite
