import Msgbus.Logs.Invariant

/-!
# How logs grow

A log as a list, and what a call does to it: an append adds one message at the
end, a range flags messages in place, nothing else changes.  `Grows` is the
resulting order on the logs of a store: messages stay where they are, only
their deleted flag may be raised, and heads never move back.
-/

namespace Msgbus

namespace StoredMessage

/-- `m'` is `m` with a deleted flag that may have been raised. -/
def Keeps (m m' : StoredMessage) : Prop :=
  m' = m.withDeleted m'.deleted ∧ (m.deleted = true → m'.deleted = true)

theorem Keeps.refl (m : StoredMessage) : m.Keeps m := ⟨rfl, fun h => h⟩

theorem Keeps.trans {m₁ m₂ m₃ : StoredMessage} (h₁ : m₁.Keeps m₂) (h₂ : m₂.Keeps m₃) :
    m₁.Keeps m₃ := by
  refine ⟨?_, fun h => h₂.2 (h₁.2 h)⟩
  rw [h₂.1, h₁.1]
  rfl

theorem keeps_withDeleted_true (m : StoredMessage) : m.Keeps (m.withDeleted true) :=
  ⟨rfl, fun _ => rfl⟩

theorem Keeps.payload_eq {m m' : StoredMessage} (h : m.Keeps m') : m'.payload = m.payload := by
  rw [h.1]
  rfl

theorem Keeps.eq_of_not_deleted {m m' : StoredMessage} (h : m.Keeps m')
    (hlive : m'.deleted = false) : m = m' := by
  have hm : m.deleted = false := by
    rw [← Bool.not_eq_true] at hlive ⊢
    exact fun hdeleted => hlive (h.2 hdeleted)
  rw [h.1, hlive, withDeleted_of_eq hm]

end StoredMessage

namespace Logs

open StoredMessage

variable {b b' : Logs} {k k' : LogKey} {n n' : UInt64} {m : StoredMessage}

/-! ## Logs as lists -/

theorem toNat_ofNat_succ {i : Nat} {h : UInt64} (hi : i < h.toNat) :
    (UInt64.ofNat (i + 1)).toNat = i + 1 := by
  rw [UInt64.toNat_ofNat']
  exact Nat.mod_eq_of_lt (by have := h.toNat_lt; omega)

theorem message_isSome_of_lt (hb : b.WellFormed) {i : Nat} (hi : i < (b.current k).toNat) :
    (b.message k (UInt64.ofNat (i + 1))).isSome := by
  rw [hb.contiguous, toNat_ofNat_succ hi]
  omega

theorem log_eq_map (hb : b.WellFormed) :
    (b.log k).map some =
      (List.range (b.current k).toNat).map fun i => b.message k (UInt64.ofNat (i + 1)) := by
  have hsome : ∀ l : List Nat, (∀ i ∈ l, i < (b.current k).toNat) →
      (l.filterMap fun i => b.message k (UInt64.ofNat (i + 1))).map some =
        l.map fun i => b.message k (UInt64.ofNat (i + 1)) := by
    intro l
    induction l with
    | nil => intro _; rfl
    | cons i l ih =>
        intro hl
        obtain ⟨m, hm⟩ := Option.isSome_iff_exists.mp
          (message_isSome_of_lt hb (hl i List.mem_cons_self))
        have hrest := ih fun j hj => hl j (List.mem_cons_of_mem _ hj)
        simp only [List.filterMap_cons, hm, List.map_cons, hrest]
  exact hsome _ fun i hi => List.mem_range.mp hi

@[simp] theorem length_log (hb : b.WellFormed) :
    (b.log k).length = (b.current k).toNat := by
  have h := congrArg List.length (log_eq_map (k := k) hb)
  simpa using h

theorem log_getElem? (hb : b.WellFormed) (i : Nat) :
    (b.log k)[i]? =
      if i < (b.current k).toNat then b.message k (UInt64.ofNat (i + 1)) else none := by
  split_ifs with hi
  · have h := congrArg (fun l => l[i]?) (log_eq_map (k := k) hb)
    simp only [List.getElem?_map, List.getElem?_range hi, Option.map_some] at h
    cases hget : (b.log k)[i]? with
    | none => rw [hget] at h; simp at h
    | some m => rw [hget] at h; simpa using h
  · rw [List.getElem?_eq_none]
    rw [length_log hb]
    omega

theorem log_getElem?_pred (hb : b.WellFormed) (hpos : 0 < n.toNat) :
    (b.log k)[n.toNat - 1]? = b.message k n := by
  have hn : UInt64.ofNat (n.toNat - 1 + 1) = n := by
    rw [Nat.sub_add_cancel hpos, UInt64.ofNat_toNat]
  rw [log_getElem? hb, hn]
  split_ifs with hlt
  · rfl
  · rw [eq_comm, ← Option.not_isSome_iff_eq_none, hb.contiguous]
    omega

theorem message_of_log_getElem? (hb : b.WellFormed) {i : Nat}
    (h : (b.log k)[i]? = some m) : b.message k m.headId = some m ∧ m.headId.toNat = i + 1 := by
  rw [log_getElem? hb] at h
  split_ifs at h with hi
  have hhead := (hb.positioned k _ m h).1
  rw [hhead]
  exact ⟨h, toNat_ofNat_succ hi⟩

theorem log_getElem?_of_message (hb : b.WellFormed) (h : b.message k n = some m) :
    (b.log k)[n.toNat - 1]? = some m ∧ 0 < n.toNat := by
  have hpos := ((hb.contiguous k n).mp (by rw [h]; rfl)).1
  exact ⟨by rw [log_getElem?_pred hb hpos, h], hpos⟩

theorem mem_log_drop (hb : b.WellFormed) :
    m ∈ (b.log k).drop (n.toNat - 1) ↔ b.message k m.headId = some m ∧ n ≤ m.headId := by
  rw [List.mem_iff_getElem?, UInt64.le_iff_toNat_le]
  simp only [List.getElem?_drop]
  constructor
  · rintro ⟨i, hi⟩
    obtain ⟨hm, hpos⟩ := message_of_log_getElem? hb hi
    exact ⟨hm, by omega⟩
  · rintro ⟨hm, hle⟩
    obtain ⟨hget, hpos⟩ := log_getElem?_of_message hb hm
    refine ⟨m.headId.toNat - 1 - (n.toNat - 1), ?_⟩
    rw [show n.toNat - 1 + (m.headId.toNat - 1 - (n.toNat - 1)) = m.headId.toNat - 1 by omega]
    exact hget

theorem mem_log (hb : b.WellFormed) : m ∈ b.log k ↔ b.message k m.headId = some m := by
  have h := mem_log_drop (k := k) (n := 0) (m := m) hb
  have hzero : (0 : UInt64) ≤ m.headId := by
    rw [UInt64.le_iff_toNat_le]
    exact Nat.zero_le _
  simpa [hzero] using h

theorem log_pairwise (hb : b.WellFormed) :
    (b.log k).Pairwise (fun m m' => m.headId.toNat < m'.headId.toNat) := by
  rw [List.pairwise_iff_getElem]
  intro i j hi hj hij
  have hmi := (message_of_log_getElem? hb (List.getElem?_eq_getElem hi)).2
  have hmj := (message_of_log_getElem? hb (List.getElem?_eq_getElem hj)).2
  omega

theorem log_drop_eq_filter (hb : b.WellFormed) :
    (b.log k).drop (n.toNat - 1) = (b.log k).filter (fun m => n ≤ m.headId) := by
  have hsorted := log_pairwise (k := k) hb
  have hnodup : (b.log k).Nodup :=
    hsorted.imp fun hlt heq => absurd (heq ▸ hlt) (lt_irrefl _)
  refine List.Perm.eq_of_pairwise ?_ hsorted.drop (hsorted.filter _)
    ((List.perm_ext_iff_of_nodup (hnodup.sublist (List.drop_sublist _ _)) (hnodup.filter _)).mpr ?_)
  · intro m m' _ _ hlt hgt
    omega
  · intro m
    rw [mem_log_drop hb, List.mem_filter, mem_log hb, decide_eq_true_eq]

/-- The scan for a range, which stops after its last position, finds the
messages to flag. -/
theorem unmarked_eq (hb : b.WellFormed) {first last : UInt64} :
    (((b.log k).drop (first.toNat - 1)).takeWhile (fun m => m.headId ≤ last)).filter
      (fun m => !m.deleted) = b.unmarked k first last := by
  have hstop : ((b.log k).drop (first.toNat - 1)).Pairwise fun m m' =>
      decide (m'.headId ≤ last) = true → decide (m.headId ≤ last) = true := by
    refine (log_pairwise hb).drop.imp ?_
    intro m m' hlt
    simp only [decide_eq_true_eq, UInt64.le_iff_toNat_le]
    omega
  rw [List.takeWhile_eq_filter_of_pairwise hstop, log_drop_eq_filter hb, List.filter_filter,
    List.filter_filter]
  refine List.filter_congr fun m _ => ?_
  cases m.deleted <;> simp [Bool.and_comm]

theorem mem_unmarked (hb : b.WellFormed) {first last : UInt64} :
    m ∈ b.unmarked k first last ↔
      b.message k m.headId = some m ∧ first ≤ m.headId ∧ m.headId ≤ last ∧
        m.deleted = false := by
  simp [unmarked, mem_log hb]

theorem length_unmarked_lt (hb : b.WellFormed) {first last : UInt64} :
    (b.unmarked k first last).length < 2 ^ 64 := by
  have hle : (b.unmarked k first last).length ≤ (b.log k).length := List.length_filter_le _ _
  rw [length_log hb] at hle
  exact hle.trans_lt (b.current k).toNat_lt

theorem log_congr (hcurrent : b.current k = b'.current k) (hmessage : b.message k = b'.message k) :
    b.log k = b'.log k := by
  unfold log
  rw [hcurrent, hmessage]

theorem window_congr {first : UInt64} {limit : Nat} (h : b.log k = b'.log k) :
    b.window k first limit = b'.window k first limit := by
  rw [window, window, h]

theorem log_write_of_ne (h : k' ≠ k) : (b.write k n m).log k' = b.log k' :=
  log_congr (write_current_of_ne_log h) (write_message_of_ne_log h)

theorem log_mark_of_ne {first last : UInt64} (h : k' ≠ k) :
    (b.mark k first last).log k' = b.log k' :=
  log_congr rfl (mark_message_of_ne_log h)

theorem log_write_next (hb : b.WellFormed) (hwrite : (b.write k n m).WellFormed)
    (hnext : n.toNat = (b.current k).toNat + 1) :
    (b.write k n m).log k = b.log k ++ [m] := by
  apply List.ext_getElem?
  intro i
  rw [log_getElem? hwrite, write_current_self, UInt64.toNat_max, List.getElem?_append,
    length_log hb, log_getElem? hb]
  by_cases hi : i < (b.current k).toNat
  · have hne : UInt64.ofNat (i + 1) ≠ n := by
      intro heq
      have := congrArg UInt64.toNat heq
      rw [toNat_ofNat_succ hi] at this
      omega
    rw [if_pos (by omega), if_pos hi, if_pos hi, write_message_of_ne hne]
  · rw [if_neg hi]
    by_cases hlast : i = (b.current k).toNat
    · have hn : UInt64.ofNat (i + 1) = n := by
        rw [hlast, ← hnext, UInt64.ofNat_toNat]
      rw [if_pos (by omega), hn, write_message_self, hlast]
      simp
    · rw [if_neg (by omega), List.getElem?_eq_none]
      simp
      omega

theorem log_mark (hb : b.WellFormed) (first last : UInt64) :
    (b.mark k first last).log k = (b.log k).map fun m =>
      if first ≤ m.headId ∧ m.headId ≤ last then m.withDeleted true else m := by
  apply List.ext_getElem?
  intro i
  rw [log_getElem? (wellFormed_mark hb first last), mark_current, List.getElem?_map,
    log_getElem? hb]
  split_ifs with hi
  · obtain ⟨m, hm⟩ := Option.isSome_iff_exists.mp (message_isSome_of_lt hb hi)
    have hhead := (hb.positioned k _ m hm).1
    rw [mark_message_self, markRange, hm, Option.map_some, Option.map_some, hhead]
    split_ifs <;> rfl
  · rfl

/-! ## The growth order -/

/-- Messages stay in place up to their deleted flag, heads do not move back and
ranges stay recorded. -/
structure Grows (b b' : Logs) : Prop where
  message : ∀ k n m, b.message k n = some m → ∃ m', b'.message k n = some m' ∧ m.Keeps m'
  head : ∀ k, (b.current k).toNat ≤ (b'.current k).toNat
  tombstone : ∀ k first last, b.tombstone k first last → b'.tombstone k first last

theorem Grows.refl (b : Logs) : b.Grows b where
  message := fun _ _ m h => ⟨m, h, .refl m⟩
  head := fun _ => le_rfl
  tombstone := fun _ _ _ h => h

theorem Grows.trans {b₁ b₂ b₃ : Logs} (h₁ : b₁.Grows b₂) (h₂ : b₂.Grows b₃) :
    b₁.Grows b₃ where
  message := by
    intro k n m hm
    obtain ⟨m', hm', hkeep⟩ := h₁.message k n m hm
    obtain ⟨m'', hm'', hkeep'⟩ := h₂.message k n m' hm'
    exact ⟨m'', hm'', hkeep.trans hkeep'⟩
  head := fun k => (h₁.head k).trans (h₂.head k)
  tombstone := fun k first last h => h₂.tombstone k first last (h₁.tombstone k first last h)

theorem Grows.message_eq_none (h : b.Grows b') (hnone : b'.message k n = none) :
    b.message k n = none := by
  cases hm : b.message k n with
  | none => rfl
  | some m =>
      obtain ⟨m', hm', -⟩ := h.message k n m hm
      rw [hnone] at hm'
      cases hm'

/-- A log is a prefix of another when every message has its counterpart there,
and both may be compared through any part of the messages. -/
theorem map_log_prefix {α : Type} {f : StoredMessage → α} (hb : b.WellFormed)
    (hb' : b'.WellFormed)
    (h : ∀ n m, b.message k n = some m → ∃ m', b'.message k n = some m' ∧ f m' = f m) :
    (b.log k).map f <+: (b'.log k).map f := by
  rw [List.prefix_iff_getElem?]
  intro i hi
  rw [List.length_map] at hi
  obtain ⟨hm, hpos⟩ := message_of_log_getElem? hb (List.getElem?_eq_getElem hi)
  obtain ⟨m', hm', hf⟩ := h _ _ hm
  have hget := (log_getElem?_of_message hb' hm').1
  rw [hpos, Nat.add_sub_cancel] at hget
  rw [List.getElem?_map, hget, List.getElem_map, Option.map_some, hf]

theorem grows_write_fresh (hfresh : b.message k n = none) : b.Grows (b.write k n m) where
  message := by
    intro k' n' m' hm'
    refine ⟨m', ?_, .refl m'⟩
    by_cases hk : k' = k
    · subst hk
      have hn : n' ≠ n := by
        rintro rfl
        rw [hfresh] at hm'
        cases hm'
      rw [write_message_of_ne hn, hm']
    · rw [write_message_of_ne_log hk, hm']
  head := by
    intro k'
    by_cases hk : k' = k
    · subst hk
      rw [write_current_self, UInt64.toNat_max]
      omega
    · rw [write_current_of_ne_log hk]
  tombstone := fun _ _ _ h => h

theorem grows_write_keeps {old : StoredMessage} (hold : b.message k n = some old)
    (hkeep : old.Keeps m) : b.Grows (b.write k n m) where
  message := by
    intro k' n' m' hm'
    by_cases hk : k' = k
    · subst hk
      by_cases hn : n' = n
      · subst hn
        rw [hold, Option.some.injEq] at hm'
        exact ⟨m, write_message_self, hm' ▸ hkeep⟩
      · exact ⟨m', by rw [write_message_of_ne hn, hm'], .refl m'⟩
    · exact ⟨m', by rw [write_message_of_ne_log hk, hm'], .refl m'⟩
  head := by
    intro k'
    by_cases hk : k' = k
    · subst hk
      rw [write_current_self, UInt64.toNat_max]
      omega
    · rw [write_current_of_ne_log hk]
  tombstone := fun _ _ _ h => h

theorem grows_mark (first last : UInt64) : b.Grows (b.mark k first last) where
  message := by
    intro k' n' m' hm'
    by_cases hk : k' = k
    · subst hk
      rw [mark_message_self, markRange, hm']
      split_ifs
      · exact ⟨_, rfl, keeps_withDeleted_true m'⟩
      · exact ⟨m', rfl, .refl m'⟩
    · exact ⟨m', by rw [mark_message_of_ne_log hk, hm'], .refl m'⟩
  head := fun _ => le_rfl
  tombstone := fun _ _ _ h => Or.inl h

theorem message_next_eq_none (hb : b.WellFormed) (hlimit : b.current k ≠ UInt64.maxValue) :
    b.message k ((b.current k).saturatingAdd 1) = none := by
  have hlt : (b.current k).toNat < 2 ^ 64 - 1 := by
    have hne : (b.current k).toNat ≠ UInt64.maxValue.toNat :=
      fun h => hlimit (UInt64.toNat_inj.mp h)
    have hbound := (b.current k).toNat_lt
    rw [UInt64.toNat_maxValue] at hne
    omega
  rw [← Option.not_isSome_iff_eq_none, hb.contiguous, UInt64.toNat_saturatingAdd_one]
  omega

theorem grows_append (hb : b.WellFormed) {msg : NewMessage} {now : UInt64}
    (hlimit : b.current (LogKey.of msg.topic msg.origin) ≠ UInt64.maxValue) :
    b.Grows (b.append msg now) :=
  grows_write_fresh (message_next_eq_none hb hlimit)

theorem grows_put {r : ReplicateResult} (h : PutStep m r b b') : b.Grows b' := by
  cases r with
  | alreadyPresent => exact h.2 ▸ .refl b
  | inserted =>
      obtain ⟨rfl, ⟨hfresh, -⟩ | ⟨old, hold, -, hstamp⟩⟩ := h
      · exact grows_write_fresh hfresh
      · exact grows_write_keeps hold (hstamp ▸ keeps_withDeleted_true old)

/-! ## Where a message comes from -/

theorem write_message_cases {a : StoredMessage} (h : (b.write k n a).message k' n' = some m) :
    (k' = k ∧ n' = n ∧ m = a) ∨ b.message k' n' = some m := by
  by_cases hk : k' = k
  · subst hk
    by_cases hn : n' = n
    · subst hn
      rw [write_message_self, Option.some.injEq] at h
      exact Or.inl ⟨rfl, rfl, h.symm⟩
    · rw [write_message_of_ne hn] at h
      exact Or.inr h
  · rw [write_message_of_ne_log hk] at h
    exact Or.inr h

theorem mark_message_cases {first last : UInt64}
    (h : (b.mark k first last).message k' n' = some m) :
    b.message k' n' = some m ∨ (k' = k ∧ first ≤ n' ∧ n' ≤ last ∧
      ∃ old, b.message k' n' = some old ∧ m = old.withDeleted true) := by
  by_cases hk : k' = k
  · subst hk
    rw [mark_message_self] at h
    obtain ⟨old, hold, hm⟩ := markRange_eq_some h
    split_ifs at hm with hrange
    · exact Or.inr ⟨rfl, hrange.1, hrange.2, old, hold, hm⟩
    · exact Or.inl (hm ▸ hold)
  · rw [mark_message_of_ne_log hk] at h
    exact Or.inl h

end Logs

def StoreOp.appendsTo : StoreOp → Option LogKey
  | .appendMessage message => some (LogKey.of message.topic message.origin)
  | .tombstoneRangeWithMarker _ _ _ _ markerTopic markerOrigin =>
      some (LogKey.of markerTopic markerOrigin)
  | _ => none

/-- A call grows the logs unless it appends to a log whose counter is at its
limit. -/
theorem Logs.step_grows [Formats] {b b' : Logs} {env : CallEnv} {op : StoreOp} {r : op.Result}
    (hb : b.WellFormed) (hlimit : ∀ k ∈ op.appendsTo, b.current k ≠ UInt64.maxValue)
    (h : Step env op r b b') : b.Grows b' := by
  cases op with
  | appendMessage msg => exact h.2 ▸ grows_append hb (hlimit _ rfl)
  | fetchMessages query => exact h.2 ▸ .refl b
  | getHead topic origin => exact h.2 ▸ .refl b
  | listHeads => exact h.2.2 ▸ .refl b
  | putReplicatedMessage message => exact grows_put h.2
  | tombstoneRange topic origin first last => exact h.2.2 ▸ grows_mark first last
  | tombstoneRangeWithMarker topic origin first last markerTopic markerOrigin =>
      have happend : (b.mark (LogKey.of topic origin) first last).Grows b' :=
        h.2.2.2 ▸ grows_append (wellFormed_mark hb first last) (hlimit _ rfl)
      exact (grows_mark first last).trans happend
  | enqueueFifo message => exact h ▸ .refl b
  | peekFifo queue => exact h ▸ .refl b
  | ackFifo queue messageId => exact h ▸ .refl b
  | rejectFifo queue messageId => exact h ▸ .refl b
  | recordPeerSyncState state => exact h ▸ .refl b
  | listPeerSyncStates => exact h ▸ .refl b

/-- Where the messages of a log come from: a message after a call was there
before, or the call stored it. -/
theorem Logs.step_message_cases [Formats] {b b' : Logs} {env : CallEnv} {op : StoreOp}
    {r : op.Result} {k : LogKey} {n : UInt64} {m : StoredMessage} (h : Step env op r b b')
    (hm : b'.message k n = some m) :
    (∃ old, b.message k n = some old ∧ old.Keeps m) ∨
      (∃ msg, op = .putReplicatedMessage msg ∧ m = b.stamp msg) ∨
      (∃ msg, op = .appendMessage msg ∧ m = b.appended msg env.now) ∨
      ∃ topic origin first last markerTopic markerOrigin,
        op = .tombstoneRangeWithMarker topic origin first last markerTopic markerOrigin ∧
        m = (b.mark (LogKey.of topic origin) first last).appended
          (marker topic origin first last markerTopic markerOrigin env) env.later := by
  have hsame : b' = b → ∃ old, b.message k n = some old ∧ old.Keeps m := by
    rintro rfl
    exact ⟨m, hm, .refl m⟩
  have hmarked : ∀ k' first last, (b.mark k' first last).message k n = some m →
      ∃ old, b.message k n = some old ∧ old.Keeps m := by
    intro k' first last hmark
    rcases mark_message_cases hmark with hold | ⟨-, -, -, old, hold, rfl⟩
    · exact ⟨m, hold, .refl m⟩
    · exact ⟨old, hold, StoredMessage.keeps_withDeleted_true old⟩
  cases op with
  | appendMessage msg =>
      obtain ⟨-, rfl⟩ := h
      rcases write_message_cases hm with ⟨-, -, rfl⟩ | hold
      · exact Or.inr (Or.inr (Or.inl ⟨msg, rfl, rfl⟩))
      · exact Or.inl ⟨m, hold, .refl m⟩
  | putReplicatedMessage msg =>
      obtain ⟨-, hput⟩ := h
      cases r with
      | alreadyPresent => exact Or.inl (hsame hput.2)
      | inserted =>
          obtain ⟨rfl, -⟩ := hput
          rcases write_message_cases hm with ⟨-, -, rfl⟩ | hold
          · exact Or.inr (Or.inl ⟨msg, rfl, rfl⟩)
          · exact Or.inl ⟨m, hold, .refl m⟩
  | tombstoneRange topic origin first last =>
      obtain ⟨-, -, rfl⟩ := h
      exact Or.inl (hmarked _ _ _ hm)
  | tombstoneRangeWithMarker topic origin first last markerTopic markerOrigin =>
      obtain ⟨-, -, -, rfl⟩ := h
      rcases write_message_cases hm with ⟨-, -, rfl⟩ | hold
      · exact Or.inr (Or.inr (Or.inr ⟨_, _, _, _, _, _, rfl, rfl⟩))
      · exact Or.inl (hmarked _ _ _ hold)
  | fetchMessages query => exact Or.inl (hsame h.2)
  | getHead topic origin => exact Or.inl (hsame h.2)
  | listHeads => exact Or.inl (hsame h.2.2)
  | enqueueFifo message => exact Or.inl (hsame h)
  | peekFifo queue => exact Or.inl (hsame h)
  | ackFifo queue messageId => exact Or.inl (hsame h)
  | rejectFifo queue messageId => exact Or.inl (hsame h)
  | recordPeerSyncState state => exact Or.inl (hsame h)
  | listPeerSyncStates => exact Or.inl (hsame h)

theorem Logs.append_head_self {b : Logs} (msg : NewMessage) (now : UInt64) :
    (b.append msg now).head (LogKey.of msg.topic msg.origin) =
      some ((b.current (LogKey.of msg.topic msg.origin)).saturatingAdd 1) := by
  simp [Logs.append, Logs.write, UInt64.max_saturatingAdd_one]

theorem Logs.append_current_le {b : Logs} (msg : NewMessage) (now : UInt64) (k : LogKey) :
    ((b.append msg now).current k).toNat ≤ (b.current k).toNat + 1 := by
  by_cases hk : k = LogKey.of msg.topic msg.origin
  · subst hk
    rw [Logs.append, write_current_self, UInt64.toNat_max, appended_headId,
      UInt64.toNat_saturatingAdd_one]
    omega
  · rw [Logs.append, write_current_of_ne_log hk]
    omega

theorem Logs.current_append_self {b : Logs} (msg : NewMessage) (now : UInt64) :
    (b.append msg now).current (b.appended msg now).log = (b.appended msg now).headId :=
  congrArg (Option.getD · 0) (append_head_self msg now)

theorem Logs.current_le_write {b : Logs} (k k' : LogKey) (n : UInt64) (m : StoredMessage) :
    (b.current k).toNat ≤ ((b.write k' n m).current k).toNat := by
  by_cases hk : k = k'
  · subst hk
    rw [write_current_self, UInt64.toNat_max]
    omega
  · rw [write_current_of_ne_log hk]

theorem Logs.appended_of_current_lt {b : Logs} {msg : NewMessage} {now : UInt64} {k : LogKey}
    {n : Nat} (hlt : (b.current k).toNat < n)
    (hle : n ≤ ((b.append msg now).current k).toNat) :
    (b.appended msg now).log = k ∧ (b.appended msg now).headId.toNat = n := by
  by_cases hk : k = LogKey.of msg.topic msg.origin
  · subst hk
    refine ⟨rfl, ?_⟩
    have hnext := append_current_le (b := b) msg now (LogKey.of msg.topic msg.origin)
    rw [← current_append_self]
    change ((b.append msg now).current (LogKey.of msg.topic msg.origin)).toNat = n
    omega
  · rw [Logs.append, write_current_of_ne_log hk] at hle
    omega

theorem Logs.headId_le_of_put [Formats] {b b' : Logs} {env : CallEnv} {m : StoredMessage}
    {r : ReplicateResult} (hb : b.WellFormed) (h : Step env (.putReplicatedMessage m) r b b') :
    m.headId.toNat ≤ (b'.current m.log).toNat := by
  obtain ⟨-, hput⟩ := h
  cases r with
  | alreadyPresent =>
      obtain ⟨hstored, rfl⟩ := hput
      exact ((hb.contiguous _ _).mp (by rw [hstored]; rfl)).2
  | inserted =>
      obtain ⟨rfl, -⟩ := hput
      rw [write_current_self, UInt64.toNat_max]
      omega

theorem Logs.current_le_of_step [Formats] {b b' : Logs} {env : CallEnv} {op : StoreOp}
    {r : op.Result} (h : Step env op r b b') (k : LogKey) :
    (b.current k).toNat ≤ (b'.current k).toNat := by
  cases op with
  | appendMessage msg =>
      rw [h.2]
      exact current_le_write k _ _ _
  | putReplicatedMessage m =>
      cases r with
      | alreadyPresent => rw [h.2.2]
      | inserted =>
          rw [h.2.1]
          exact current_le_write k _ _ _
  | tombstoneRange topic origin first last =>
      rw [h.2.2]
      exact Nat.le_refl _
  | tombstoneRangeWithMarker topic origin first last markerTopic markerOrigin =>
      rw [h.2.2.2]
      exact current_le_write (b := b.mark _ first last) k _ _ _
  | fetchMessages query => rw [h.2]
  | getHead topic origin => rw [h.2]
  | listHeads => rw [h.2.2]
  | _ => rw [show b' = b from h]

theorem Logs.step_current_le [Formats] {b b' : Logs} {env : CallEnv} {op : StoreOp}
    {r : op.Result} (hb : b.WellFormed) (h : Step env op r b b') (k : LogKey) :
    (b'.current k).toNat ≤ (b.current k).toNat + 1 := by
  have hsame : b' = b → (b'.current k).toNat ≤ (b.current k).toNat + 1 := by
    rintro rfl
    omega
  cases op with
  | appendMessage msg => exact h.2 ▸ append_current_le msg env.now k
  | putReplicatedMessage m =>
      obtain ⟨-, hput⟩ := h
      cases r with
      | alreadyPresent => exact hsame hput.2
      | inserted =>
          obtain ⟨rfl, hcase⟩ := hput
          by_cases hk : k = m.log
          · subst hk
            rw [write_current_self, UInt64.toNat_max]
            rcases hcase with ⟨-, hle⟩ | ⟨old, hold, -, -⟩
            · rw [UInt64.toNat_saturatingAdd_one] at hle
              omega
            · have hheld := ((hb.contiguous m.log m.headId).mp (by rw [hold]; rfl)).2
              omega
          · rw [write_current_of_ne_log hk]
            omega
  | tombstoneRange topic origin first last => exact h.2.2 ▸ Nat.le_succ _
  | tombstoneRangeWithMarker topic origin first last markerTopic markerOrigin =>
      exact h.2.2.2 ▸ append_current_le _ env.later k
  | fetchMessages query => exact hsame h.2
  | getHead topic origin => exact hsame h.2
  | listHeads => exact hsame h.2.2
  | enqueueFifo message => exact hsame h
  | peekFifo queue => exact hsame h
  | ackFifo queue messageId => exact hsame h
  | rejectFifo queue messageId => exact hsame h
  | recordPeerSyncState state => exact hsame h
  | listPeerSyncStates => exact hsame h

/-! ## Frames -/

def StoreOp.touches : StoreOp → List LogKey
  | .appendMessage message => [LogKey.of message.topic message.origin]
  | .putReplicatedMessage message => [message.log]
  | .tombstoneRange topic origin _ _ => [LogKey.of topic origin]
  | .tombstoneRangeWithMarker topic origin _ _ markerTopic markerOrigin =>
      [LogKey.of topic origin, LogKey.of markerTopic markerOrigin]
  | _ => []

/-- A call leaves every other log as it was. -/
theorem Logs.step_frame [Formats] {b b' : Logs} {env : CallEnv} {op : StoreOp} {r : op.Result}
    {k : LogKey} (h : Step env op r b b') (hk : k ∉ op.touches) :
    b'.head k = b.head k ∧ b'.message k = b.message k := by
  have hsame : b' = b → b'.head k = b.head k ∧ b'.message k = b.message k := by
    rintro rfl
    exact ⟨rfl, rfl⟩
  cases op with
  | appendMessage msg =>
      obtain ⟨-, rfl⟩ := h
      have hne : k ≠ LogKey.of msg.topic msg.origin := fun heq => hk (List.mem_singleton.mpr heq)
      exact ⟨write_head_of_ne_log hne, write_message_of_ne_log hne⟩
  | putReplicatedMessage m =>
      obtain ⟨-, hput⟩ := h
      cases r with
      | alreadyPresent => exact hsame hput.2
      | inserted =>
          obtain ⟨rfl, -⟩ := hput
          have hne : k ≠ m.log := fun heq => hk (List.mem_singleton.mpr heq)
          exact ⟨write_head_of_ne_log hne, write_message_of_ne_log hne⟩
  | tombstoneRange topic origin first last =>
      obtain ⟨-, -, rfl⟩ := h
      have hne : k ≠ LogKey.of topic origin := fun heq => hk (List.mem_singleton.mpr heq)
      exact ⟨rfl, mark_message_of_ne_log hne⟩
  | tombstoneRangeWithMarker topic origin first last markerTopic markerOrigin =>
      obtain ⟨-, -, -, rfl⟩ := h
      have hne : k ≠ LogKey.of topic origin := fun heq => hk (by simp [StoreOp.touches, heq])
      have hne' : k ≠ LogKey.of markerTopic markerOrigin :=
        fun heq => hk (by simp [StoreOp.touches, heq])
      exact ⟨write_head_of_ne_log hne',
        (write_message_of_ne_log hne').trans (mark_message_of_ne_log hne)⟩
  | fetchMessages query => exact hsame h.2
  | getHead topic origin => exact hsame h.2
  | listHeads => exact hsame h.2.2
  | enqueueFifo message => exact hsame h
  | peekFifo queue => exact hsame h
  | ackFifo queue messageId => exact hsame h
  | rejectFifo queue messageId => exact hsame h
  | recordPeerSyncState state => exact hsame h
  | listPeerSyncStates => exact hsame h

theorem Logs.step_head_eq [Formats] {b b' : Logs} {env : CallEnv} {op : StoreOp} {r : op.Result}
    {k : LogKey} (h : Step env op r b b') (happends : op.appendsTo = none)
    (hputs : ∀ m, op = .putReplicatedMessage m → m.log ≠ k) : b'.head k = b.head k := by
  by_cases hrange : ∃ topic origin first last, op = .tombstoneRange topic origin first last
  · obtain ⟨topic, origin, first, last, rfl⟩ := hrange
    obtain ⟨-, -, rfl⟩ := h
    rfl
  · refine (Logs.step_frame h ?_).1
    cases op with
    | appendMessage msg => cases happends
    | tombstoneRangeWithMarker topic origin first last markerTopic markerOrigin => cases happends
    | putReplicatedMessage m =>
        exact fun hk => hputs m rfl (List.mem_singleton.mp hk).symm
    | tombstoneRange topic origin first last => exact absurd ⟨_, _, _, _, rfl⟩ hrange
    | _ => exact List.not_mem_nil

/-- The head of a log moves only by a call that appends to it or puts a message
into it. -/
theorem Logs.step_head_of_ne [Formats] {b b' : Logs} {env : CallEnv} {op : StoreOp} {r : op.Result}
    {k : LogKey} (h : Step env op r b b') (happends : op.appendsTo ≠ some k)
    (hputs : ∀ m, op = .putReplicatedMessage m → m.log ≠ k) : b'.head k = b.head k := by
  cases op with
  | appendMessage msg =>
      obtain ⟨-, rfl⟩ := h
      exact write_head_of_ne_log fun heq => happends (congrArg some heq.symm)
  | tombstoneRangeWithMarker topic origin first last markerTopic markerOrigin =>
      obtain ⟨-, -, -, rfl⟩ := h
      exact write_head_of_ne_log fun heq => happends (congrArg some heq.symm)
  | _ => exact step_head_eq h rfl hputs

/-! ## Tombstones -/

def StoreOp.marks : StoreOp → Option (LogKey × HeadId × HeadId)
  | .tombstoneRange topic origin first last => some (LogKey.of topic origin, first, last)
  | .tombstoneRangeWithMarker topic origin first last _ _ =>
      some (LogKey.of topic origin, first, last)
  | _ => none

theorem Logs.step_tombstone_iff [Formats] {b b' : Logs} {env : CallEnv} {op : StoreOp}
    {r : op.Result} (h : Step env op r b b') {k : LogKey} {first last : UInt64} :
    b'.tombstone k first last ↔ b.tombstone k first last ∨ op.marks = some (k, first, last) := by
  have hsame : b' = b → op.marks = none →
      (b'.tombstone k first last ↔ b.tombstone k first last ∨ op.marks = some (k, first, last)) := by
    intro heq hmarks
    rw [heq, hmarks]
    simp
  have hmark : ∀ k' f l, b'.tombstone = (b.mark k' f l).tombstone → op.marks = some (k', f, l) →
      (b'.tombstone k first last ↔ b.tombstone k first last ∨ op.marks = some (k, first, last)) := by
    intro k' f l heq hmarks
    rw [heq, hmarks, Option.some.injEq, Prod.mk.injEq, Prod.mk.injEq]
    exact or_congr Iff.rfl (and_congr eq_comm (and_congr eq_comm eq_comm))
  cases op with
  | appendMessage msg =>
      obtain ⟨-, rfl⟩ := h
      exact ⟨Or.inl, fun h => h.resolve_right (by simp [StoreOp.marks])⟩
  | putReplicatedMessage m =>
      obtain ⟨-, hput⟩ := h
      cases r with
      | alreadyPresent => exact hsame hput.2 rfl
      | inserted =>
          obtain ⟨rfl, -⟩ := hput
          exact ⟨Or.inl, fun h => h.resolve_right (by simp [StoreOp.marks])⟩
  | tombstoneRange topic origin f l =>
      obtain ⟨-, -, rfl⟩ := h
      exact hmark _ _ _ rfl rfl
  | tombstoneRangeWithMarker topic origin f l markerTopic markerOrigin =>
      obtain ⟨-, -, -, rfl⟩ := h
      exact hmark _ _ _ rfl rfl
  | fetchMessages query => exact hsame h.2 rfl
  | getHead topic origin => exact hsame h.2 rfl
  | listHeads => exact hsame h.2.2 rfl
  | enqueueFifo message => exact hsame h rfl
  | peekFifo queue => exact hsame h rfl
  | ackFifo queue messageId => exact hsame h rfl
  | rejectFifo queue messageId => exact hsame h rfl
  | recordPeerSyncState state => exact hsame h rfl
  | listPeerSyncStates => exact hsame h rfl

/-- Where the flag of a message comes from: it was there, a recorded range covers
the message, or it came with a replicated message. -/
theorem Logs.step_deleted_cases [Formats] {b b' : Logs} {env : CallEnv} {op : StoreOp}
    {r : op.Result} {k : LogKey} {n : UInt64} {m : StoredMessage} (h : Step env op r b b')
    (hm : b'.message k n = some m) (hdeleted : m.deleted = true) :
    (∃ old, b.message k n = some old ∧ old.Keeps m ∧ old.deleted = true) ∨ b'.Covers k n ∨
      ∃ msg, op = .putReplicatedMessage msg ∧ m = b.stamp msg ∧ msg.deleted = true := by
  have hsame : b' = b → ∃ old, b.message k n = some old ∧ old.Keeps m ∧ old.deleted = true := by
    rintro rfl
    exact ⟨m, hm, .refl m, hdeleted⟩
  have hold : b.message k n = some m →
      ∃ old, b.message k n = some old ∧ old.Keeps m ∧ old.deleted = true :=
    fun hm => ⟨m, hm, .refl m, hdeleted⟩
  have hmarked : ∀ k' first last, (b.mark k' first last).message k n = some m →
      (∃ old, b.message k n = some old ∧ old.Keeps m ∧ old.deleted = true) ∨
        (b.mark k' first last).Covers k n := by
    intro k' first last hmark
    rcases mark_message_cases hmark with hold' | ⟨rfl, hfirst, hlast, -⟩
    · exact Or.inl (hold hold')
    · exact Or.inr (mark_covers.mpr (Or.inr ⟨rfl, hfirst, hlast⟩))
  -- what an append stores is flagged only when a range covers it
  have happended : ∀ (b₁ : Logs) msg now, (b₁.append msg now).message k n = some m →
      b₁.message k n = some m ∨ b₁.Covers k n := by
    intro b₁ msg now hwrite
    rcases write_message_cases hwrite with ⟨rfl, rfl, rfl⟩ | hold'
    · rcases stamp_deleted.mp hdeleted with hfalse | hcovers
      · cases hfalse
      · exact Or.inr hcovers
    · exact Or.inl hold'
  cases op with
  | appendMessage msg =>
      obtain ⟨-, rfl⟩ := h
      rcases happended b msg env.now hm with hold' | hcovers
      · exact Or.inl (hold hold')
      · exact Or.inr (Or.inl hcovers)
  | putReplicatedMessage msg =>
      obtain ⟨-, hput⟩ := h
      cases r with
      | alreadyPresent => exact Or.inl (hsame hput.2)
      | inserted =>
          obtain ⟨rfl, -⟩ := hput
          rcases write_message_cases hm with ⟨rfl, rfl, rfl⟩ | hold'
          · rcases stamp_deleted.mp hdeleted with hflag | hcovers
            · exact Or.inr (Or.inr ⟨msg, rfl, rfl, hflag⟩)
            · exact Or.inr (Or.inl hcovers)
          · exact Or.inl (hold hold')
  | tombstoneRange topic origin first last =>
      obtain ⟨-, -, rfl⟩ := h
      exact (hmarked _ _ _ hm).imp_right Or.inl
  | tombstoneRangeWithMarker topic origin first last markerTopic markerOrigin =>
      obtain ⟨-, -, -, rfl⟩ := h
      rcases happended _ _ _ hm with hold' | hcovers
      · exact (hmarked _ _ _ hold').imp_right Or.inl
      · exact Or.inr (Or.inl hcovers)
  | fetchMessages query => exact Or.inl (hsame h.2)
  | getHead topic origin => exact Or.inl (hsame h.2)
  | listHeads => exact Or.inl (hsame h.2.2)
  | enqueueFifo message => exact Or.inl (hsame h)
  | peekFifo queue => exact Or.inl (hsame h)
  | ackFifo queue messageId => exact Or.inl (hsame h)
  | rejectFifo queue messageId => exact Or.inl (hsame h)
  | recordPeerSyncState state => exact Or.inl (hsame h)
  | listPeerSyncStates => exact Or.inl (hsame h)

end Msgbus
