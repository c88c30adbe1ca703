import Msgbus.Alike
import Msgbus.Guarantees
import Mathlib.Data.FinEnum
import Mathlib.Data.Set.Card

/-!
# Sequences of ranges

`tombstone_range` flags the stored messages of a range and records the range
for messages to come.  A sequence of such calls on one log does what its union
does: order and repetition show only in how the count is split over the calls.
-/

namespace Msgbus

structure RangeCall where
  env : CallEnv
  topic : Topic
  origin : NodeId
  first : HeadId
  last : HeadId

def InUnion (calls : List RangeCall) (n : UInt64) : Prop :=
  ∃ c ∈ calls, c.first ≤ n ∧ n ≤ c.last

instance decidableInUnion (calls : List RangeCall) (n : UInt64) : Decidable (InUnion calls n) :=
  inferInstanceAs (Decidable (∃ c ∈ calls, _))

theorem inUnion_cons {c : RangeCall} {calls : List RangeCall} {n : UInt64} :
    InUnion (c :: calls) n ↔ (c.first ≤ n ∧ n ≤ c.last) ∨ InUnion calls n := by
  unfold InUnion
  rw [List.exists_mem_cons_iff]

namespace Logs

variable {b b' : Logs} {k k' : LogKey} {n first last : UInt64}

def Live (b : Logs) (k : LogKey) (n : UInt64) : Prop :=
  ∃ m, b.message k n = some m ∧ m.deleted = false

def flipped (b b' : Logs) : Set (LogKey × UInt64) :=
  {p | ∃ m m', b.message p.1 p.2 = some m ∧ b'.message p.1 p.2 = some m' ∧ m.deleted ≠ m'.deleted}

def markAll (b : Logs) (k : LogKey) (calls : List RangeCall) : Logs :=
  calls.foldl (fun b c => b.mark k c.first c.last) b

theorem markAll_head (calls : List RangeCall) : (b.markAll k calls).head = b.head := by
  induction calls generalizing b with
  | nil => rfl
  | cons c calls ih => exact ih

theorem markAll_message (calls : List RangeCall) :
    (b.markAll k calls).message k' n = (b.message k' n).map fun m =>
      m.withDeleted (m.deleted || decide (k' = k ∧ InUnion calls n)) := by
  induction calls generalizing b with
  | nil =>
      have hkeep : ∀ m : StoredMessage, m.withDeleted m.deleted = m :=
        fun m => StoredMessage.withDeleted_of_eq rfl
      simp [markAll, InUnion, hkeep]
  | cons c calls ih =>
      refine ih.trans ?_
      rw [mark_message, Option.map_map]
      congr 1
      funext m
      refine congrArg m.withDeleted (Bool.eq_iff_iff.mpr ?_)
      simp only [StoredMessage.withDeleted, Bool.or_eq_true, decide_eq_true_eq, inUnion_cons]
      tauto

theorem markAll_message_of_ne (calls : List RangeCall) (h : k' ≠ k) :
    (b.markAll k calls).message k' = b.message k' := by
  induction calls generalizing b with
  | nil => rfl
  | cons c calls ih => exact ih.trans (mark_message_of_ne_log h)

theorem markAll_covers (calls : List RangeCall) :
    (b.markAll k calls).Covers k' n ↔ b.Covers k' n ∨ (k' = k ∧ InUnion calls n) := by
  induction calls generalizing b with
  | nil => simp [markAll, InUnion]
  | cons c calls ih =>
      refine ih.trans ?_
      rw [mark_covers, inUnion_cons]
      tauto

theorem alike_markAll {calls calls' : List RangeCall}
    (h : ∀ n, InUnion calls n ↔ InUnion calls' n) :
    (b.markAll k calls).Alike (b.markAll k calls') where
  head := by rw [markAll_head, markAll_head]
  message := by
    funext k' n
    rw [markAll_message, markAll_message]
    simp only [h]
  covers := by
    intro k' n
    rw [markAll_covers, markAll_covers, h]

/-! ## Counting -/

theorem live_mark : (b.mark k first last).Live k n ↔ b.Live k n ∧ ¬ (first ≤ n ∧ n ≤ last) := by
  unfold Live
  rw [mark_message]
  cases b.message k n with
  | none => simp
  | some m => simp [StoredMessage.withDeleted]

theorem length_unmarked (hb : b.WellFormed) :
    (b.unmarked k first last).length = {n | b.Live k n ∧ first ≤ n ∧ n ≤ last}.ncard := by
  have hnodup : ((b.unmarked k first last).map (·.headId)).Nodup := by
    have hsorted := (log_pairwise (k := k) hb).sublist
      (List.filter_sublist (p := fun m : StoredMessage =>
        first ≤ m.headId ∧ m.headId ≤ last ∧ m.deleted = false))
    refine List.pairwise_map.mpr (hsorted.imp ?_)
    intro m m' hlt heq
    rw [heq] at hlt
    exact absurd hlt (Nat.lt_irrefl _)
  have hset : {n | b.Live k n ∧ first ≤ n ∧ n ≤ last} =
      (((b.unmarked k first last).map (·.headId)).toFinset : Set UInt64) := by
    ext n
    simp only [Set.mem_ofPred_eq, List.coe_toFinset, List.mem_map, mem_unmarked hb]
    constructor
    · rintro ⟨⟨m, hm, hlive⟩, hfirst, hlast⟩
      obtain rfl := (hb.positioned k n m hm).1
      exact ⟨m, ⟨hm, hfirst, hlast, hlive⟩, rfl⟩
    · rintro ⟨m, ⟨hm, hfirst, hlast, hlive⟩, rfl⟩
      exact ⟨⟨m, hm, hlive⟩, hfirst, hlast⟩
  rw [hset, Set.ncard_coe_finset, List.toFinset_card_of_nodup hnodup, List.length_map]

theorem ncard_flipped_mark :
    (b.flipped (b.mark k first last)).ncard = {n | b.Live k n ∧ first ≤ n ∧ n ≤ last}.ncard := by
  have himage : b.flipped (b.mark k first last) =
      (fun n => (k, n)) '' {n | b.Live k n ∧ first ≤ n ∧ n ≤ last} := by
    ext ⟨k', n⟩
    simp only [flipped, Set.mem_ofPred_eq, mark_message, Set.mem_image, Prod.mk.injEq]
    constructor
    · rintro ⟨m, m', hm, hm', hne⟩
      rw [hm, Option.map_some, Option.some.injEq] at hm'
      have hflag : m.deleted = false ∧ k' = k ∧ first ≤ n ∧ n ≤ last := by
        rw [← hm'] at hne
        cases hdeleted : m.deleted with
        | false => simpa [StoredMessage.withDeleted, hdeleted] using hne
        | true => simp [StoredMessage.withDeleted, hdeleted] at hne
      obtain ⟨hlive, rfl, hrange⟩ := hflag
      exact ⟨n, ⟨⟨m, hm, hlive⟩, hrange⟩, rfl, rfl⟩
    · rintro ⟨n', ⟨⟨m, hm, hlive⟩, hrange⟩, rfl, rfl⟩
      refine ⟨m, m.withDeleted true, hm, ?_, ?_⟩
      · rw [hm, Option.map_some, decide_eq_true ⟨rfl, hrange⟩, Bool.or_true]
      · rw [hlive]
        exact Bool.false_ne_true
  rw [himage]
  exact Set.ncard_image_of_injective _ fun n n' h => congrArg Prod.snd h

/-- The live positions of a union: those of the first range, and those of the
rest that the first range leaves live. -/
theorem ncard_live_cons (c : RangeCall) (calls : List RangeCall) :
    {n | b.Live k n ∧ InUnion (c :: calls) n}.ncard =
      {n | b.Live k n ∧ c.first ≤ n ∧ n ≤ c.last}.ncard +
        {n | (b.mark k c.first c.last).Live k n ∧ InUnion calls n}.ncard := by
  have hunion : {n | b.Live k n ∧ InUnion (c :: calls) n} =
      {n | b.Live k n ∧ c.first ≤ n ∧ n ≤ c.last} ∪
        {n | (b.mark k c.first c.last).Live k n ∧ InUnion calls n} := by
    ext n
    simp only [Set.mem_ofPred_eq, Set.mem_union, live_mark, inUnion_cons]
    tauto
  rw [hunion, Set.ncard_union_eq]
  rw [Set.disjoint_left]
  intro n hin hout
  exact (live_mark.mp hout.1).2 hin.2

end Logs

variable [Formats]

namespace StorageKind

variable {kind : StorageKind} {k : LogKey} {s s' : kind.Store}

inductive Tombstoned (kind : StorageKind) (k : LogKey) :
    kind.Store → List RangeCall → List UInt64 → kind.Store → Prop where
  | nil (s : kind.Store) : Tombstoned kind k s [] [] s
  | cons {s s₁ s' : kind.Store} {c : RangeCall} {calls : List RangeCall} {count : UInt64}
      {counts : List UInt64} (hlog : LogKey.of c.topic c.origin = k)
      (hcall : MsgbusStore.tombstoneRange s c.topic c.origin c.first c.last c.env.now =
        .ok (count, s₁))
      (hrest : Tombstoned kind k s₁ calls counts s') :
      Tombstoned kind k s (c :: calls) (count :: counts) s'

theorem mark_of_tombstoneRange (hs : kind.Inv s) {topic : Topic} {origin : NodeId}
    {first last : HeadId} {now count : UInt64}
    (h : MsgbusStore.tombstoneRange s topic origin first last now = .ok (count, s')) :
    kind.Inv s' ∧ kind.logs s' = (kind.logs s).mark (LogKey.of topic origin) first last ∧
      count.toNat =
        {n | (kind.logs s).Live (LogKey.of topic origin) n ∧ first ≤ n ∧ n ≤ last}.ncard := by
  have hexec : StoreOp.exec s ⟨now, now, ⟨""⟩⟩ (.tombstoneRange topic origin first last) =
      .ok (count, s') := h
  obtain ⟨hinv, -, hcount, hlogs⟩ := Backend.refines hs hexec
  exact ⟨hinv, hlogs, hcount.trans (Logs.length_unmarked (Backend.wellFormed hs))⟩

theorem Tombstoned.spec {calls : List RangeCall} {counts : List UInt64}
    (h : kind.Tombstoned k s calls counts s') (hs : kind.Inv s) :
    kind.Inv s' ∧ kind.logs s' = (kind.logs s).markAll k calls ∧
      (counts.map UInt64.toNat).sum = {n | (kind.logs s).Live k n ∧ InUnion calls n}.ncard := by
  induction h with
  | nil s => exact ⟨hs, rfl, by simp [InUnion]⟩
  | cons hlog hcall hrest ih =>
      subst hlog
      obtain ⟨hinv, hlogs, hcount⟩ := mark_of_tombstoneRange hs hcall
      obtain ⟨hinv', hlogs', hsum⟩ := ih hinv
      refine ⟨hinv', ?_, ?_⟩
      · rw [hlogs', hlogs]
        rfl
      · rw [List.map_cons, List.sum_cons, hsum, hcount, hlogs, ← Logs.ncard_live_cons]

end StorageKind

/-- `tombstone_range` is a counted union: each call counts the flags it flips,
the counts of a sequence add up to what was live in the union, heads and other
logs stay as they were, and two sequences with one union leave the same messages
and the same answers to every later write. -/
theorem tombstone_range_union (kind : StorageKind) {s : kind.Store} (hs : Reachable s) (k : LogKey) :
    (∀ (topic : Topic) (origin : NodeId) (first last : HeadId) (now count : UInt64)
        (s' : kind.Store),
      MsgbusStore.tombstoneRange s topic origin first last now = .ok (count, s') →
        count.toNat = ((kind.logs s).flipped (kind.logs s')).ncard) ∧
    (∀ (calls : List RangeCall) (counts : List UInt64) (s' : kind.Store),
      kind.Tombstoned k s calls counts s' →
        (counts.map UInt64.toNat).sum = {n | (kind.logs s).Live k n ∧ InUnion calls n}.ncard ∧
        (kind.logs s').head = (kind.logs s).head ∧
        (∀ k', k' ≠ k → (kind.logs s').message k' = (kind.logs s).message k') ∧
        ∀ n, (kind.logs s').message k n = ((kind.logs s).message k n).map fun m =>
          m.withDeleted (m.deleted || decide (InUnion calls n))) ∧
    ∀ (calls₁ calls₂ : List RangeCall) (counts₁ counts₂ : List UInt64) (s₁ s₂ : kind.Store),
      kind.Tombstoned k s calls₁ counts₁ s₁ → kind.Tombstoned k s calls₂ counts₂ s₂ →
      (∀ n, InUnion calls₁ n ↔ InUnion calls₂ n) →
        (kind.logs s₁).message = (kind.logs s₂).message ∧
        ∀ later : List (CallEnv × StoreOp), (∀ call ∈ later, call.2.Writes) →
          traceFrom s₁ later = traceFrom s₂ later ∧
          (kind.logs (runFrom s₁ later)).head = (kind.logs (runFrom s₂ later)).head ∧
          (kind.logs (runFrom s₁ later)).message = (kind.logs (runFrom s₂ later)).message := by
  have hinv : kind.Inv s := Backend.inv_of_reachable hs
  refine ⟨?_, ?_, ?_⟩
  · intro topic origin first last now count s' hcall
    obtain ⟨-, hlogs, hcount⟩ := StorageKind.mark_of_tombstoneRange hinv hcall
    rw [hcount, hlogs, Logs.ncard_flipped_mark]
  · intro calls counts s' hrun
    obtain ⟨-, hlogs, hsum⟩ := hrun.spec hinv
    refine ⟨hsum, ?_, ?_, ?_⟩
    · rw [hlogs, Logs.markAll_head]
    · intro k' hk'
      rw [hlogs, Logs.markAll_message_of_ne calls hk']
    · intro n
      rw [hlogs, Logs.markAll_message]
      simp only [true_and]
  · intro calls₁ calls₂ counts₁ counts₂ s₁ s₂ hrun₁ hrun₂ hunion
    obtain ⟨hinv₁, hlogs₁, -⟩ := hrun₁.spec hinv
    obtain ⟨hinv₂, hlogs₂, -⟩ := hrun₂.spec hinv
    have hlogs : (kind.logs s₁).Alike (kind.logs s₂) := by
      rw [hlogs₁, hlogs₂]
      exact Logs.alike_markAll hunion
    refine ⟨hlogs.message, ?_⟩
    intro later hlater
    obtain ⟨htrace, hafter⟩ := (kind.alike_of_logs hinv₁ hinv₂ hlogs).run hlater
    exact ⟨htrace, hafter.logs_eq⟩

theorem exists_tombstoned_twice {s : Redb} (hs : s.Inv) (c : RangeCall) (hle : c.first ≤ c.last) :
    ∃ (count count' : UInt64) (s₁ s₂ : Redb),
      MsgbusStore.tombstoneRange s c.topic c.origin c.first c.last c.env.now = .ok (count, s₁) ∧
      StorageKind.redb.Tombstoned (LogKey.of c.topic c.origin) s [c, c] [count, count'] s₂ := by
  have hok : ∀ t : Redb, t.Inv → ∃ r t',
      StoreOp.exec t c.env (.tombstoneRange c.topic c.origin c.first c.last) = .ok (r, t') := by
    intro t ht
    exact Backend.exec_eq_ok (σ := Redb) ht rfl trivial (if_neg (UInt64.not_lt.mpr hle))
  obtain ⟨count, s₁, hfirst⟩ := hok s hs
  obtain ⟨count', s₂, hsecond⟩ := hok s₁ (Backend.refines hs hfirst).1
  have hdone : StorageKind.redb.Tombstoned (LogKey.of c.topic c.origin) s₂ [] [] s₂ :=
    .nil (show StorageKind.redb.Store from s₂)
  exact ⟨count, count', s₁, s₂, hfirst, .cons rfl hfirst (.cons rfl hsecond hdone)⟩

omit [Formats] in
/-- A range over the one message of a store, twice. -/
theorem tombstone_range_union_one :
    letI := Serde.formats
    ∃ (count count' : UInt64) (s₁ s₂ : Redb),
      StorageKind.redb.Tombstoned (LogKey.of ⟨"t"⟩ ⟨"a", "b", "c"⟩) (firstStore .redb)
        [⟨firstEnv, ⟨"t"⟩, ⟨"a", "b", "c"⟩, 1, 1⟩, ⟨firstEnv, ⟨"t"⟩, ⟨"a", "b", "c"⟩, 1, 1⟩]
        [count, count'] s₂ ∧
      count.toNat = (Logs.flipped (Redb.logs (firstStore .redb)) s₁.logs).ncard ∧
      s₂.logs.head = (Redb.logs (firstStore .redb)).head := by
  let := Serde.formats
  have hreachable : Reachable (firstStore .redb) := .call _ _ .empty
  obtain ⟨count, count', s₁, s₂, hfirst, htwo⟩ := exists_tombstoned_twice
    (Backend.inv_of_reachable hreachable) ⟨firstEnv, ⟨"t"⟩, ⟨"a", "b", "c"⟩, 1, 1⟩ (by decide)
  obtain ⟨hcount, hrun, -⟩ := tombstone_range_union .redb hreachable
    (LogKey.of ⟨"t"⟩ ⟨"a", "b", "c"⟩)
  exact ⟨count, count', s₁, s₂, htwo, hcount _ _ _ _ _ _ _ hfirst, (hrun _ _ _ htwo).2.1⟩

end Msgbus
