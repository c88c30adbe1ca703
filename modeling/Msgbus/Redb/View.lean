import Msgbus.Logs.Growth
import Msgbus.Redb.Store
import Mathlib.Data.Set.List

/-!
# The logs in redb tables

`logs` reads the abstract logs off the tables, and `Coded` says that every row
is under the key of the value it holds.  Under both, each scan of the backend
has a closed form on the abstract logs; the callers use these and no longer
look at keys.
-/

namespace Msgbus.Redb

open TextKey

variable [Formats] {s : Redb} {k : LogKey} {n : HeadId} {m : StoredMessage}

def messageEntry (m : StoredMessage) : String × ByteArray :=
  (logMessageKey m.log m.headId, Formats.storedMessage.encode m)

def tombstoneEntry (t : TombstoneRange) : String × ByteArray :=
  (logTombstoneKey (LogKey.of t.topic t.origin) t.fromHeadId t.toHeadId,
    Formats.tombstoneRange.encode t)

structure Coded (s : Redb) : Prop where
  messages : ∀ e ∈ s.messages.entries, ∃ m, e = messageEntry m
  heads : ∀ e ∈ s.heads.entries, ∃ k, e.1 = logHeadKey k
  tombstones : ∀ e ∈ s.tombstones.entries, ∃ t, e = tombstoneEntry t

def logs (s : Redb) : Logs where
  head k := s.heads.get (logHeadKey k)
  message k n :=
    (s.messages.get (logMessageKey k n)).bind fun v =>
      (Formats.storedMessage.decode v).toOption
  tombstone k first last := (s.tombstones.get (logTombstoneKey k first last)).isSome = true

/-! ## Reading the tables -/

theorem tombstoneEntry_injective : Function.Injective tombstoneEntry := by
  intro t t' h
  exact Formats.tombstoneRange.encode_injective (congrArg Prod.snd h)

theorem logs_message_eq_some (hs : s.Coded) :
    s.logs.message k n = some m ↔
      messageEntry m ∈ s.messages.entries ∧ m.log = k ∧ m.headId = n := by
  simp only [logs, Option.bind_eq_some_iff, OrderedTable.get_eq_some_iff]
  constructor
  · rintro ⟨value, hmem, hdecode⟩
    obtain ⟨m', hentry⟩ := hs.messages _ hmem
    obtain ⟨hkey, rfl⟩ := Prod.mk.inj hentry
    rw [JsonFormat.decode_encode] at hdecode
    obtain rfl : m' = m := by simpa [Except.toOption] using hdecode
    obtain ⟨hlog, hhead⟩ := logMessageKey_inj.mp hkey
    exact ⟨hentry ▸ hmem, hlog.symm, hhead.symm⟩
  · rintro ⟨hmem, rfl, rfl⟩
    exact ⟨_, hmem, by simp [Except.toOption]⟩

theorem logs_tombstone_iff (hs : s.Coded) {first last : HeadId} :
    s.logs.tombstone k first last ↔
      ∃ t, tombstoneEntry t ∈ s.tombstones.entries ∧ LogKey.of t.topic t.origin = k ∧
        t.fromHeadId = first ∧ t.toHeadId = last := by
  simp only [logs, Option.isSome_iff_exists, OrderedTable.get_eq_some_iff]
  constructor
  · rintro ⟨value, hmem⟩
    obtain ⟨t, hentry⟩ := hs.tombstones _ hmem
    obtain ⟨hlog, hfirst, hlast⟩ := logTombstoneKey_inj.mp (congrArg Prod.fst hentry)
    exact ⟨t, hentry ▸ hmem, hlog.symm, hfirst.symm, hlast.symm⟩
  · rintro ⟨t, hmem, rfl, rfl, rfl⟩
    exact ⟨_, hmem⟩

/-! ## Scans -/

theorem scan_messages (hs : s.Coded) (hb : s.logs.WellFormed) :
    (s.messages.rangeFrom (logMessageKey k n)).takeWhile
        (fun e => startsWith e.1 (logMessagePrefix k)) =
      ((s.logs.log k).drop (n.toNat - 1)).map messageEntry := by
  rw [takeWhile_rangeFrom _ (startsWith_logMessagePrefix.mpr rfl)]
  refine OrderedTable.scan_ext ((s.messages.rangeFrom_sorted _).filter _) ?_ ?_
  · rw [List.pairwise_map]
    refine ((Logs.log_pairwise hb).drop).imp_of_mem ?_
    intro a b ha hb' hlt
    have halog := (hb.positioned k _ a ((Logs.mem_log_drop hb).mp ha).1).2
    have hblog := (hb.positioned k _ b ((Logs.mem_log_drop hb).mp hb').1).2
    simp only [messageEntry, halog, hblog]
    exact logMessageKey_lt_iff.mpr hlt
  · intro e
    rw [List.mem_map]
    simp only [OrderedTable.rangeFrom, List.mem_filter, decide_eq_true_eq]
    constructor
    · rintro ⟨⟨hmem, hfrom⟩, hstart⟩
      obtain ⟨m, rfl⟩ := hs.messages e hmem
      obtain rfl := startsWith_logMessagePrefix.mp hstart
      refine ⟨m, (Logs.mem_log_drop hb).mpr ⟨(logs_message_eq_some hs).mpr ⟨hmem, rfl, rfl⟩, ?_⟩,
        rfl⟩
      rw [UInt64.le_iff_toNat_le, ← not_lt, ← logMessageKey_lt_iff]
      exact not_lt.mpr hfrom
    · rintro ⟨m, hm, rfl⟩
      obtain ⟨hmessage, hle⟩ := (Logs.mem_log_drop hb).mp hm
      obtain ⟨hmem, rfl, -⟩ := (logs_message_eq_some hs).mp hmessage
      refine ⟨⟨hmem, ?_⟩, startsWith_logMessagePrefix.mpr rfl⟩
      rw [UInt64.le_iff_toNat_le] at hle
      exact not_lt.mp fun hlt => absurd (logMessageKey_lt_iff.mp hlt) (not_lt.mpr hle)

omit [Formats] in
/-- One step of a scan whose rows are `xs`: it reads the first of them, or it
stops and there are none. -/
theorem scan_cons {α : Type} {entry : α → String × ByteArray} {start key : String}
    {value : ByteArray} {rest : List (String × ByteArray)} {xs : List α}
    (hscan : ((key, value) :: rest).takeWhile (fun e => startsWith e.1 start) = xs.map entry) :
    (startsWith key start = true ∧ ∃ x xs', xs = x :: xs' ∧ entry x = (key, value) ∧
      rest.takeWhile (fun e => startsWith e.1 start) = xs'.map entry) ∨
    (startsWith key start = false ∧ xs = []) := by
  cases hp : startsWith key start with
  | true =>
      rw [List.takeWhile_cons, if_pos hp] at hscan
      obtain ⟨x, xs', rfl, hentry, hrest⟩ := List.map_eq_cons_iff.mp hscan.symm
      exact Or.inl ⟨rfl, x, xs', rfl, hentry, hrest.symm⟩
  | false =>
      rw [List.takeWhile_cons, if_neg (by simp [hp])] at hscan
      exact Or.inr ⟨rfl, by simpa using hscan.symm⟩

/-- The loop of `fetch_messages` returns the rows it scans, up to the limit. -/
theorem fetchScan_eq {start : String} {limit : Nat} {l : List (String × ByteArray)}
    {ms out : List StoredMessage}
    (hscan : l.takeWhile (fun e => startsWith e.1 start) = ms.map messageEntry)
    (hout : out.length < limit) :
    fetchScan start limit out l = .ok (out ++ ms.take (limit - out.length)) := by
  induction l generalizing out ms with
  | nil =>
      obtain rfl : ms = [] := by simpa using hscan.symm
      simp [fetchScan]
  | cons e rest ih =>
      obtain ⟨key, value⟩ := e
      rcases scan_cons hscan with ⟨hp, m, ms, rfl, hentry, hrest⟩ | ⟨hp, rfl⟩
      · obtain ⟨-, rfl⟩ := Prod.mk.inj hentry
        have htake : (m :: ms).take (limit - out.length) =
            m :: ms.take (limit - (out ++ [m]).length) := by
          rw [show limit - out.length = limit - (out ++ [m]).length + 1 by simp; omega,
            List.take_succ_cons]
        rw [fetchScan, if_neg (by simp [hp]), JsonFormat.decode_encode, htake]
        simp only [bind, Except.bind, pure, Except.pure]
        split_ifs with hlimit
        · rw [Nat.sub_eq_zero_of_le hlimit]
          simp
        · rw [ih hrest (not_le.mp hlimit)]
          simp
      · simp [fetchScan, hp]

theorem scan_tombstones (hs : s.Coded) :
    ∃ ts : List TombstoneRange,
      (s.tombstones.rangeFrom (logTombstonePrefix k)).takeWhile
        (fun e => startsWith e.1 (logTombstonePrefix k)) = ts.map tombstoneEntry ∧
      ∀ t, t ∈ ts ↔
        tombstoneEntry t ∈ s.tombstones.entries ∧ LogKey.of t.topic t.origin = k := by
  rw [takeWhile_rangeFrom _ (startsWith_self _)]
  have hrange : ∀ e ∈ (s.tombstones.rangeFrom (logTombstonePrefix k)).filter
      (fun e => startsWith e.1 (logTombstonePrefix k)), e ∈ Set.range tombstoneEntry := by
    intro e he
    obtain ⟨t, rfl⟩ := hs.tombstones e (List.mem_filter.mp (List.mem_filter.mp he).1).1
    exact ⟨t, rfl⟩
  obtain ⟨ts, hts⟩ := (Set.range_list_map tombstoneEntry).symm.subset hrange
  refine ⟨ts, hts.symm, ?_⟩
  intro t
  rw [← List.mem_map_of_injective tombstoneEntry_injective, hts]
  simp only [OrderedTable.rangeFrom, List.mem_filter, decide_eq_true_eq]
  constructor
  · rintro ⟨⟨hmem, -⟩, hstart⟩
    exact ⟨hmem, startsWith_logTombstonePrefix.mp hstart⟩
  · rintro ⟨hmem, rfl⟩
    have hstart : startsWith (tombstoneEntry t).1
        (logTombstonePrefix (LogKey.of t.topic t.origin)) = true :=
      startsWith_logTombstonePrefix.mpr rfl
    exact ⟨⟨hmem, le_of_startsWith hstart⟩, hstart⟩

theorem applyTombstoneScan_eq {start : String} {l : List (String × ByteArray)}
    {ts : List TombstoneRange}
    (hscan : l.takeWhile (fun e => startsWith e.1 start) = ts.map tombstoneEntry) :
    applyTombstoneScan start m l =
      .ok (m.withDeleted
        (m.deleted || ts.any fun t => t.fromHeadId ≤ m.headId ∧ m.headId ≤ t.toHeadId)) := by
  induction l generalizing ts with
  | nil =>
      obtain rfl : ts = [] := by simpa using hscan.symm
      simp [applyTombstoneScan, StoredMessage.withDeleted]
  | cons e rest ih =>
      obtain ⟨key, value⟩ := e
      rcases scan_cons hscan with ⟨hp, t, ts, rfl, hentry, hrest⟩ | ⟨hp, rfl⟩
      · obtain ⟨-, rfl⟩ := Prod.mk.inj hentry
        rw [applyTombstoneScan, if_neg (by simp [hp]), JsonFormat.decode_encode]
        simp only [bind, Except.bind, pure, Except.pure]
        split_ifs with hcover
        · simp [hcover, StoredMessage.withDeleted]
        · rw [ih hrest, List.any_cons, decide_eq_false hcover, Bool.false_or]
      · simp [applyTombstoneScan, hp, StoredMessage.withDeleted]

theorem applyTombstoneMarkers_eq (hs : s.Coded) :
    applyTombstoneMarkers s m = .ok (s.logs.stamp m) := by
  unfold applyTombstoneMarkers
  split_ifs with hdeleted
  · rw [Logs.stamp_of_deleted hdeleted]
  · obtain ⟨ts, hscan, hmem⟩ := scan_tombstones (k := m.log) hs
    have hany : (ts.any fun t => t.fromHeadId ≤ m.headId ∧ m.headId ≤ t.toHeadId) = true ↔
        s.logs.Covers m.log m.headId := by
      simp only [List.any_eq_true, decide_eq_true_eq, hmem, Logs.Covers, logs_tombstone_iff hs]
      constructor
      · rintro ⟨t, ⟨ht, hlog⟩, hfirst, hlast⟩
        exact ⟨_, _, ⟨t, ht, hlog, rfl, rfl⟩, hfirst, hlast⟩
      · rintro ⟨_, _, ⟨t, ht, hlog, rfl, rfl⟩, hfirst, hlast⟩
        exact ⟨t, ⟨ht, hlog⟩, hfirst, hlast⟩
    refine (applyTombstoneScan_eq hscan).trans ?_
    rw [Logs.stamp_eq_of_iff]
    rw [Bool.or_eq_true, hany]

/-- The rewrite scan collects the messages of the range that are not flagged
yet. -/
theorem tombstoneScan_eq {start : String} {last : HeadId} {l : List (String × ByteArray)}
    {ms : List StoredMessage}
    (hscan : l.takeWhile (fun e => startsWith e.1 start) = ms.map messageEntry) :
    tombstoneScan start last l =
      .ok (((ms.takeWhile (fun m => m.headId ≤ last)).filter (fun m => !m.deleted)).map
        fun m => messageEntry (m.withDeleted true)) := by
  induction l generalizing ms with
  | nil =>
      obtain rfl : ms = [] := by simpa using hscan.symm
      simp [tombstoneScan]
  | cons e rest ih =>
      obtain ⟨key, value⟩ := e
      rcases scan_cons hscan with ⟨hp, m, ms, rfl, hentry, hrest⟩ | ⟨hp, rfl⟩
      · obtain ⟨rfl, rfl⟩ := Prod.mk.inj hentry
        rw [tombstoneScan, if_neg (by simp [hp]), JsonFormat.decode_encode, ih hrest]
        simp only [bind, Except.bind, pure, Except.pure]
        by_cases hlast : last < m.headId
        · have hstop : (m :: ms).takeWhile (fun m => decide (m.headId ≤ last)) = [] := by
            simp [hlast]
          rw [if_pos hlast, hstop]
          rfl
        · have hread : (m :: ms).takeWhile (fun m => decide (m.headId ≤ last)) =
              m :: ms.takeWhile (fun m => decide (m.headId ≤ last)) := by
            simp [UInt64.not_lt.mp hlast]
          rw [if_neg hlast, hread]
          cases hdeleted : m.deleted with
          | true => rw [if_pos rfl, List.filter_cons_of_neg (by simp [hdeleted])]
          | false =>
              rw [if_neg (by simp), List.filter_cons_of_pos (by simp [hdeleted])]
              rfl
      · simp [tombstoneScan, hp]

end Msgbus.Redb
