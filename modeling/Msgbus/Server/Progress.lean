import Msgbus.Logs.Invariant
import Msgbus.Server.Obligations

/-!
# What a pass brings

The logs of a daemon in the course of a pass, as a function of its logs and the
peer's at the start and of how far each log has been replicated.  The outcome of
a whole pass is one value of that function, so it depends neither on the size of
the batches nor on the order of the heads.
-/

namespace Msgbus

variable [Formats]

def StoredMessage.ranges (m : StoredMessage) (k : LogKey) (first last : HeadId) : Prop :=
  ∃ range, m.Marks range ∧ k = LogKey.of range.topic range.origin ∧ first = range.fromHeadId ∧
    last = range.toHeadId

/-! ## Progress -/

namespace Logs

def InRange (ranges : LogKey → HeadId → HeadId → Prop) (k : LogKey) (n : HeadId) : Prop :=
  ∃ first last, ranges k first last ∧ first ≤ n ∧ n ≤ last

open scoped Classical in
noncomputable def flag (ranges : LogKey → HeadId → HeadId → Prop) (k : LogKey) (n : HeadId)
    (m : StoredMessage) : StoredMessage :=
  m.withDeleted (m.deleted || decide (InRange ranges k n))

/-- A range that a marker of the peer carries, new to the daemon and among the
positions replicated so far. -/
def NewRange (mine peer : Logs) (reached : LogKey → HeadId) (k : LogKey) (first last : HeadId) :
    Prop :=
  ∃ source n m, mine.current source < n ∧ n ≤ reached source ∧ peer.message source n = some m ∧
    m.ranges k first last

/-- The entry of a log: the daemon's up to its head, then the peer's as far as
they have been replicated. -/
def entryTo (mine peer : Logs) (reached : LogKey → HeadId) (k : LogKey) (n : HeadId) :
    Option StoredMessage :=
  if n ≤ mine.current k then mine.message k n
  else if n ≤ reached k then peer.message k n
  else none

/-- The logs of the daemon when each log has been replicated as far as `reached`:
the ranges of new markers are recorded, and an entry is flagged if it came flagged
or a recorded range covers it. -/
noncomputable def caughtTo (mine peer : Logs) (reached : LogKey → HeadId) : Logs where
  head := fun k => if mine.current k < reached k then some (reached k) else mine.head k
  message := fun k n => (entryTo mine peer reached k n).map
    (flag (fun k first last => mine.tombstone k first last ∨ NewRange mine peer reached k first last)
      k n)
  tombstone := fun k first last =>
    mine.tombstone k first last ∨ NewRange mine peer reached k first last

noncomputable def caughtUp (mine peer : Logs) : Logs :=
  caughtTo mine peer fun k => max (mine.current k) (peer.current k)

section Flag

variable {b : Logs} {ranges ranges' : LogKey → HeadId → HeadId → Prop} {k k' : LogKey}
variable {n n' first last : HeadId} {m : StoredMessage}

omit [Formats]

theorem flag_deleted :
    (flag ranges k n m).deleted = true ↔ m.deleted = true ∨ InRange ranges k n := by
  simp [flag, StoredMessage.withDeleted]

theorem stamp_eq_flag : b.stamp m = flag b.tombstone m.log m.headId m := rfl

theorem flag_of_covered (h : InRange ranges k n → m.deleted = true) : flag ranges k n m = m := by
  refine StoredMessage.withDeleted_of_eq (Bool.eq_iff_iff.mpr ?_)
  refine Iff.trans ?_ flag_deleted.symm
  exact ⟨Or.inl, fun hflag => hflag.elim id h⟩

theorem flag_flag : flag ranges' k n (flag ranges k n m) =
    flag (fun k first last => ranges k first last ∨ ranges' k first last) k n m := by
  have hflag : (flag ranges' k n (flag ranges k n m)).deleted =
      (flag (fun k first last => ranges k first last ∨ ranges' k first last) k n m).deleted := by
    rw [Bool.eq_iff_iff, flag_deleted, flag_deleted, flag_deleted, or_assoc]
    simp only [InRange, or_and_right, exists_or]
  exact congrArg m.withDeleted hflag

theorem mark_message_flag : (b.mark k first last).message k' n' = (b.message k' n').map
    (flag (fun k' first' last' => k' = k ∧ first' = first ∧ last' = last) k' n') := by
  have hcovers : InRange (fun k' first' last' => k' = k ∧ first' = first ∧ last' = last) k' n' ↔
      k' = k ∧ first ≤ n' ∧ n' ≤ last := by
    constructor
    · rintro ⟨f, l, ⟨hk, rfl, rfl⟩, hrange⟩
      exact ⟨hk, hrange⟩
    · rintro ⟨hk, hrange⟩
      exact ⟨first, last, ⟨hk, rfl, rfl⟩, hrange⟩
  rw [mark_message]
  congr 1
  funext old
  refine congrArg old.withDeleted (Bool.eq_iff_iff.mpr ?_)
  rw [Bool.or_eq_true, decide_eq_true_eq, ← hcovers]
  exact flag_deleted.symm

end Flag

section Progress

variable {mine peer : Logs} {reached : LogKey → HeadId} {k : LogKey} {n : HeadId}
variable {m : StoredMessage}

theorem caughtTo_start (hmine : mine.WellFormed) : caughtTo mine peer mine.current = mine := by
  have hnone : ∀ k first last, ¬ NewRange mine peer mine.current k first last := by
    rintro k first last ⟨source, n, m, hlt, hle, -⟩
    exact absurd hlt (UInt64.not_lt.mpr hle)
  have hranges : (fun k first last => mine.tombstone k first last ∨
      NewRange mine peer mine.current k first last) = mine.tombstone := by
    ext k first last
    simp only [hnone, or_false]
  have hentry : ∀ k n, entryTo mine peer mine.current k n = mine.message k n := by
    intro k n
    unfold entryTo
    by_cases hle : n ≤ mine.current k
    · rw [if_pos hle]
    · rw [if_neg hle, if_neg hle, eq_comm, ← Option.not_isSome_iff_eq_none, hmine.contiguous]
      exact fun h => hle (UInt64.le_iff_toNat_le.mpr h.2)
  unfold caughtTo
  rw [hranges]
  ext k n m
  · simp [UInt64.lt_irrefl]
  · change (entryTo mine peer mine.current k n).map _ = _ ↔ _
    rw [hentry]
    cases hm : mine.message k n with
    | none => simp
    | some stored => rw [Option.map_some, flag_of_covered (hmine.covered k n stored hm)]
  · rfl

theorem caughtUp_of_current_le (hmine : mine.WellFormed)
    (hle : ∀ k, peer.current k ≤ mine.current k) : caughtUp mine peer = mine := by
  have hmax : (fun k => max (mine.current k) (peer.current k)) = mine.current := by
    funext k
    have hk := UInt64.le_iff_toNat_le.mp (hle k)
    rw [← UInt64.toNat_inj, UInt64.toNat_max]
    omega
  rw [caughtUp, hmax, caughtTo_start hmine]

theorem caughtTo_current (hreached : mine.current k ≤ reached k) :
    (caughtTo mine peer reached).current k = reached k := by
  change (if mine.current k < reached k then some (reached k) else mine.head k).getD 0 = _
  by_cases hlt : mine.current k < reached k
  · rw [if_pos hlt]
    rfl
  · rw [if_neg hlt]
    exact UInt64.le_antisymm hreached (UInt64.not_lt.mp hlt)

omit [Formats] in
theorem entryTo_update (hreached : mine.current k ≤ reached k)
    (hn : n.toNat = (reached k).toNat + 1) (hm : peer.message k n = some m) (k' : LogKey)
    (n' : HeadId) : entryTo mine peer (Function.update reached k n) k' n' =
      if k' = k ∧ n' = n then some m else entryTo mine peer reached k' n' := by
  have hle := UInt64.le_iff_toNat_le.mp hreached
  by_cases hk : k' = k
  · subst hk
    unfold entryTo
    rw [Function.update_self]
    by_cases heq : n' = n
    · subst heq
      have hpast : ¬ n' ≤ mine.current k' := by
        rw [UInt64.le_iff_toNat_le]
        omega
      rw [if_neg hpast, if_pos (UInt64.le_refl _), hm]
      exact (if_pos ⟨rfl, rfl⟩).symm
    · have hne : n'.toNat ≠ n.toNat := fun h => heq (UInt64.toNat_inj.mp h)
      have hsame : n' ≤ n ↔ n' ≤ reached k' := by
        rw [UInt64.le_iff_toNat_le, UInt64.le_iff_toNat_le]
        omega
      simp only [hsame, heq, and_false, if_false]
  · rw [if_neg fun h => hk h.1, entryTo, entryTo, Function.update_of_ne hk]

theorem newRange_update (hreached : mine.current k ≤ reached k)
    (hn : n.toNat = (reached k).toNat + 1) (hm : peer.message k n = some m) (k' : LogKey)
    (first last : HeadId) : NewRange mine peer (Function.update reached k n) k' first last ↔
      NewRange mine peer reached k' first last ∨ m.ranges k' first last := by
  have hle := UInt64.le_iff_toNat_le.mp hreached
  constructor
  · rintro ⟨source, n', m', hlt, hle', hm', hrange⟩
    by_cases hsource : source = k
    · subst hsource
      rw [Function.update_self, UInt64.le_iff_toNat_le] at hle'
      by_cases heq : n' = n
      · subst heq
        rw [hm] at hm'
        cases hm'
        exact Or.inr hrange
      · have hne : n'.toNat ≠ n.toNat := fun h => heq (UInt64.toNat_inj.mp h)
        refine Or.inl ⟨source, n', m', hlt, ?_, hm', hrange⟩
        rw [UInt64.le_iff_toNat_le]
        omega
    · rw [Function.update_of_ne hsource] at hle'
      exact Or.inl ⟨source, n', m', hlt, hle', hm', hrange⟩
  · rintro (⟨source, n', m', hlt, hle', hrange⟩ | hrange)
    · refine ⟨source, n', m', hlt, ?_, hrange⟩
      by_cases hsource : source = k
      · subst hsource
        rw [Function.update_self, UInt64.le_iff_toNat_le]
        have hle'' := UInt64.le_iff_toNat_le.mp hle'
        omega
      · rw [Function.update_of_ne hsource]
        exact hle'
    · refine ⟨k, n, m, ?_, ?_, hm, hrange⟩
      · rw [UInt64.lt_iff_toNat_lt]
        omega
      · rw [Function.update_self]
        exact UInt64.le_refl n

theorem caughtTo_head_update (hreached : mine.current k ≤ reached k)
    (hn : n.toNat = (reached k).toNat + 1) (x : StoredMessage) :
    (caughtTo mine peer (Function.update reached k n)).head =
      ((caughtTo mine peer reached).write k n x).head := by
  have hle := UInt64.le_iff_toNat_le.mp hreached
  ext k' : 1
  by_cases hk : k' = k
  · subst hk
    have hmax : max (reached k') n = n := by
      rw [← UInt64.toNat_inj, UInt64.toNat_max]
      omega
    have hlt : mine.current k' < n := by
      rw [UInt64.lt_iff_toNat_lt]
      omega
    simp only [caughtTo, write, Function.update_self]
    rw [if_pos hlt]
    exact congrArg some ((congrArg (max · n) (caughtTo_current hreached)).trans hmax).symm
  · rw [write_head_of_ne_log hk]
    simp only [caughtTo, Function.update_of_ne hk]

/-- Storing the next entry of a log and flagging and recording what it marks is
progress by that entry. -/
theorem eq_caughtTo_update {b : Logs} (hreached : mine.current k ≤ reached k)
    (hn : n.toNat = (reached k).toNat + 1) (hm : peer.message k n = some m)
    (hposition : m.headId = n ∧ m.log = k)
    (hhead : b.head =
      ((caughtTo mine peer reached).write k n ((caughtTo mine peer reached).stamp m)).head)
    (hmessage : ∀ k' n', b.message k' n' =
      (((caughtTo mine peer reached).write k n ((caughtTo mine peer reached).stamp m)).message k'
        n').map (flag m.ranges k' n'))
    (htombstone : ∀ k' first last, b.tombstone k' first last ↔
      (caughtTo mine peer reached).tombstone k' first last ∨ m.ranges k' first last) :
    b = caughtTo mine peer (Function.update reached k n) := by
  have hranges : (caughtTo mine peer (Function.update reached k n)).tombstone =
      fun k' first last =>
        (caughtTo mine peer reached).tombstone k' first last ∨ m.ranges k' first last := by
    ext k' first last
    change _ ∨ NewRange mine peer (Function.update reached k n) k' first last ↔ _
    rw [newRange_update hreached hn hm, ← or_assoc]
    rfl
  refine Logs.ext (hhead.trans (caughtTo_head_update hreached hn _).symm) ?_ ?_
  · ext k' n' : 2
    change _ = (entryTo mine peer (Function.update reached k n) k' n').map
      (flag (caughtTo mine peer (Function.update reached k n)).tombstone k' n')
    rw [hmessage, write_message, entryTo_update hreached hn hm, hranges]
    split_ifs with hnew
    · rw [stamp_eq_flag, hposition.1, hposition.2, hnew.1, hnew.2, Option.map_some, Option.map_some,
        flag_flag]
    · change ((entryTo mine peer reached k' n').map
        (flag (caughtTo mine peer reached).tombstone k' n')).map _ = _
      rw [Option.map_map]
      exact congrArg (Option.map · _) (funext fun m' => flag_flag)
  · rw [hranges]
    ext k' first last
    exact htombstone k' first last

theorem caughtTo_write (hreached : mine.current k ≤ reached k)
    (hn : n.toNat = (reached k).toNat + 1) (hm : peer.message k n = some m)
    (hposition : m.headId = n ∧ m.log = k) (hnone : controlRange m = .ok none) :
    (caughtTo mine peer reached).write k n ((caughtTo mine peer reached).stamp m) =
      caughtTo mine peer (Function.update reached k n) := by
  have hranges : ∀ k' first last, ¬ m.ranges k' first last := by
    rintro k' first last ⟨range, hmarks, -⟩
    rw [StoredMessage.Marks, hnone] at hmarks
    cases hmarks
  refine eq_caughtTo_update hreached hn hm hposition rfl ?_ ?_
  · intro k' n'
    have hid : flag m.ranges k' n' = id := by
      ext m' : 1
      refine flag_of_covered ?_
      rintro ⟨first, last, hrange, -⟩
      exact absurd hrange (hranges k' first last)
    rw [hid, Option.map_id]
    rfl
  · intro k' first last
    simp only [hranges, or_false]
    rfl

theorem caughtTo_mark {range : TombstoneRange} (hreached : mine.current k ≤ reached k)
    (hn : n.toNat = (reached k).toNat + 1) (hm : peer.message k n = some m)
    (hposition : m.headId = n ∧ m.log = k) (hmarks : controlRange m = .ok (some range)) :
    ((caughtTo mine peer reached).write k n ((caughtTo mine peer reached).stamp m)).mark
        (LogKey.of range.topic range.origin) range.fromHeadId range.toHeadId =
      caughtTo mine peer (Function.update reached k n) := by
  have hranges : m.ranges = fun k' first last => k' = LogKey.of range.topic range.origin ∧
      first = range.fromHeadId ∧ last = range.toHeadId := by
    ext k' first last
    constructor
    · rintro ⟨range', hmarks', hrange⟩
      rw [StoredMessage.Marks, hmarks] at hmarks'
      cases hmarks'
      exact hrange
    · exact fun hrange => ⟨range, hmarks, hrange⟩
  refine eq_caughtTo_update hreached hn hm hposition rfl ?_ ?_
  · intro k' n'
    rw [mark_message_flag, hranges]
  · intro k' first last
    rw [hranges]
    rfl

end Progress

end Logs

end Msgbus
