import Msgbus.Logs

/-!
# Every store call keeps the logs well formed

`write` and `mark` are the only two ways a call changes the logs, so the
invariant is proved for each of them once and `step_wellFormed` follows from
the shape of `Step`.
-/

namespace Msgbus.Logs

variable {b b' : Logs} {k k' : LogKey} {n n' : UInt64} {m : StoredMessage}

/-! ## Reading back a write -/

@[simp] theorem write_message_self : (b.write k n m).message k n = some m := by
  simp [write]

theorem write_message_of_ne (h : n' ≠ n) :
    (b.write k n m).message k n' = b.message k n' := by
  simp [write, h]

theorem write_message_of_ne_log (h : k' ≠ k) :
    (b.write k n m).message k' = b.message k' := by
  simp [write, h]

theorem write_message : (b.write k n m).message k' n' =
    if k' = k ∧ n' = n then some m else b.message k' n' := by
  by_cases hk : k' = k
  · subst hk
    by_cases hn : n' = n
    · rw [hn, write_message_self, if_pos ⟨rfl, rfl⟩]
    · rw [write_message_of_ne hn, if_neg fun h => hn h.2]
  · rw [write_message_of_ne_log hk, if_neg fun h => hk h.1]

@[simp] theorem write_current_self :
    (b.write k n m).current k = max (b.current k) n := by
  simp [write, current]

theorem write_head_of_ne_log (h : k' ≠ k) : (b.write k n m).head k' = b.head k' := by
  simp [write, h]

theorem write_current_of_ne_log (h : k' ≠ k) :
    (b.write k n m).current k' = b.current k' := by
  simp [current, write_head_of_ne_log h]

@[simp] theorem write_covers : (b.write k n m).Covers k' n' ↔ b.Covers k' n' := Iff.rfl

theorem isHead_write_iff (honly : ∀ k', k' ≠ k → b.head k' = none)
    (hlast : max (b.current k) n = n) (head : TopicHead) :
    (b.write k n m).IsHead head ↔ head = ⟨m.topic, m.origin, n⟩ := by
  have hhead : (b.write k n m).head k = some n := by
    simp only [write, Function.update_self, hlast]
  constructor
  · rintro ⟨k', m', hk', hm', htopic, horigin⟩
    by_cases hk : k' = k
    · rw [hk, hhead] at hk'
      have hn := Option.some.inj hk'
      rw [hk, ← hn, write_message_self] at hm'
      cases hm'
      cases head
      cases htopic
      cases horigin
      cases hn
      rfl
    · rw [write_head_of_ne_log hk, honly k' hk] at hk'
      cases hk'
  · rintro rfl
    exact ⟨k, m, hhead, write_message_self, rfl, rfl⟩

/-! ## Reading back a range -/

@[simp] theorem mark_current (first last : UInt64) :
    (b.mark k first last).current = b.current := rfl

theorem mark_message_self (first last : UInt64) :
    (b.mark k first last).message k = markRange first last (b.message k) := by
  simp [mark]

theorem mark_message_of_ne_log {first last : UInt64} (h : k' ≠ k) :
    (b.mark k first last).message k' = b.message k' := by
  simp [mark, h]

theorem mark_message {first last : UInt64} :
    (b.mark k first last).message k' n = (b.message k' n).map fun m =>
      m.withDeleted (m.deleted || decide (k' = k ∧ first ≤ n ∧ n ≤ last)) := by
  have hkeep : ∀ m : StoredMessage, m.withDeleted m.deleted = m :=
    fun m => StoredMessage.withDeleted_of_eq rfl
  by_cases hk : k' = k
  · subst hk
    rw [mark_message_self, markRange]
    by_cases hrange : first ≤ n ∧ n ≤ last
    · simp [hrange]
    · simp [hrange, hkeep]
  · rw [mark_message_of_ne_log hk]
    simp [hk, hkeep]

theorem mark_covers {first last : UInt64} :
    (b.mark k first last).Covers k' n ↔
      b.Covers k' n ∨ (k' = k ∧ first ≤ n ∧ n ≤ last) := by
  constructor
  · rintro ⟨f, l, hrange | ⟨rfl, rfl, rfl⟩, hf, hl⟩
    · exact Or.inl ⟨f, l, hrange, hf, hl⟩
    · exact Or.inr ⟨rfl, hf, hl⟩
  · rintro (⟨f, l, hrange, hf, hl⟩ | ⟨rfl, hf, hl⟩)
    · exact ⟨f, l, Or.inl hrange, hf, hl⟩
    · exact ⟨first, last, Or.inr ⟨rfl, rfl, rfl⟩, hf, hl⟩

theorem markRange_isSome {first last : UInt64} {entries : UInt64 → Option StoredMessage} :
    (markRange first last entries n).isSome = (entries n).isSome := by
  unfold markRange
  split_ifs <;> simp

theorem markRange_eq_some {first last : UInt64} {entries : UInt64 → Option StoredMessage}
    (h : markRange first last entries n = some m) :
    ∃ old, entries n = some old ∧
      m = if first ≤ n ∧ n ≤ last then old.withDeleted true else old := by
  unfold markRange at h
  split_ifs at h with hrange
  · obtain ⟨old, hold, rfl⟩ := Option.map_eq_some_iff.mp h
    exact ⟨old, hold, by rw [if_pos hrange]⟩
  · exact ⟨m, h, by rw [if_neg hrange]⟩

/-! ## The stored form of a message -/

@[simp] theorem withDeleted_headId (d : Bool) : (m.withDeleted d).headId = m.headId := rfl

@[simp] theorem withDeleted_log (d : Bool) : (m.withDeleted d).log = m.log := rfl

theorem stamp_deleted :
    (b.stamp m).deleted = true ↔ m.deleted = true ∨ b.Covers m.log m.headId := by
  simp [stamp, StoredMessage.withDeleted]

theorem stamp_eq_of_iff {d : Bool}
    (h : d = true ↔ m.deleted = true ∨ b.Covers m.log m.headId) : b.stamp m = m.withDeleted d := by
  have hd : (b.stamp m).deleted = d := by
    rw [Bool.eq_iff_iff, stamp_deleted, h]
  rw [← hd]
  rfl

theorem stamp_of_deleted (h : m.deleted = true) : b.stamp m = m := by
  rw [stamp_eq_of_iff (d := true) (by simp [h])]
  cases m
  cases h
  rfl

theorem stamp_eq_self_iff : b.stamp m = m ↔ m.deleted = true ∨ ¬ b.Covers m.log m.headId := by
  constructor
  · intro hsame
    by_contra hneither
    have hflag := stamp_deleted.mpr (Or.inr (not_not.mp (not_or.mp hneither).2))
    rw [hsame] at hflag
    exact hneither (Or.inl hflag)
  · rintro (hdeleted | huncovered)
    · exact stamp_of_deleted hdeleted
    · rw [stamp_eq_of_iff (d := m.deleted) (by simp [huncovered])]
      exact StoredMessage.withDeleted_of_eq rfl

theorem eq_of_stamp_live {msg : StoredMessage} (h : m = b.stamp msg) (hlive : m.deleted = false) :
    msg = m := by
  have hsame : b.stamp msg = msg := by
    refine stamp_eq_self_iff.mpr (Or.inr fun hcovers => ?_)
    have hdeleted : (b.stamp msg).deleted = true := stamp_deleted.mpr (Or.inr hcovers)
    rw [← h, hlive] at hdeleted
    cases hdeleted
  rw [h, hsame]

theorem stamp_eq_withDeleted : b.stamp m = m.withDeleted (b.stamp m).deleted := rfl

@[simp] theorem appended_headId (msg : NewMessage) (now : UInt64) :
    (b.appended msg now).headId =
      (b.current (LogKey.of msg.topic msg.origin)).saturatingAdd 1 := rfl

@[simp] theorem appended_log (msg : NewMessage) (now : UInt64) :
    (b.appended msg now).log = LogKey.of msg.topic msg.origin := rfl

/-! ## The invariant -/

theorem wellFormed_empty : empty.WellFormed where
  head_pos := by
    intro k h hh
    cases hh
  contiguous := by
    intro k n
    simp only [empty, current, Option.isSome_none, Option.getD_none]
    constructor
    · intro h
      cases h
    · rintro ⟨hpos, hle⟩
      rw [show (0 : UInt64).toNat = 0 from rfl] at hle
      omega
  positioned := by
    intro k n m h
    cases h
  covered := by
    intro k n m h
    cases h

/-- Writing at or right after the head keeps the log contiguous. -/
theorem wellFormed_write (hb : b.WellFormed) (hpos : 0 < n.toNat)
    (hnext : n.toNat ≤ (b.current k).toNat + 1) (hhead : m.headId = n) (hlog : m.log = k)
    (hcovered : b.Covers k n → m.deleted = true) : (b.write k n m).WellFormed where
  head_pos := by
    intro k' h hh
    by_cases hk : k' = k
    · subst hk
      have heq : max (b.current k') n = h := by simpa [write] using hh
      rw [← heq, UInt64.toNat_max]
      omega
    · rw [write_head_of_ne_log hk] at hh
      exact hb.head_pos k' h hh
  contiguous := by
    intro k' n'
    by_cases hk : k' = k
    · subst hk
      rw [write_current_self, UInt64.toNat_max]
      by_cases hn : n' = n
      · subst hn
        simp only [write_message_self, Option.isSome_some, true_iff]
        omega
      · have hne : n'.toNat ≠ n.toNat := fun h => hn (UInt64.toNat_inj.mp h)
        rw [write_message_of_ne hn, hb.contiguous]
        omega
    · rw [write_message_of_ne_log hk, write_current_of_ne_log hk]
      exact hb.contiguous k' n'
  positioned := by
    intro k' n' m' hm'
    by_cases hk : k' = k
    · subst hk
      by_cases hn : n' = n
      · subst hn
        rw [write_message_self, Option.some.injEq] at hm'
        exact hm' ▸ ⟨hhead, hlog⟩
      · rw [write_message_of_ne hn] at hm'
        exact hb.positioned k' n' m' hm'
    · rw [write_message_of_ne_log hk] at hm'
      exact hb.positioned k' n' m' hm'
  covered := by
    intro k' n' m' hm' hcov
    rw [write_covers] at hcov
    by_cases hk : k' = k
    · subst hk
      by_cases hn : n' = n
      · subst hn
        rw [write_message_self, Option.some.injEq] at hm'
        exact hm' ▸ hcovered hcov
      · rw [write_message_of_ne hn] at hm'
        exact hb.covered k' n' m' hm' hcov
    · rw [write_message_of_ne_log hk] at hm'
      exact hb.covered k' n' m' hm' hcov

theorem current_lt_of_free (hb : b.WellFormed) (hzero : n ≠ 0) (hfree : b.message k n = none) :
    b.current k < n := by
  have hnot := (hb.contiguous k n).not.mp (by simp [hfree])
  have hpos : n.toNat ≠ 0 := fun h0 => hzero (UInt64.toNat_inj.mp h0)
  rw [UInt64.lt_iff_toNat_lt]
  omega

theorem write_head_of_message {old : StoredMessage} (hb : b.WellFormed)
    (hold : b.message k n = some old) : (b.write k n m).head = b.head := by
  obtain ⟨hpos, hle⟩ := (hb.contiguous k n).mp (by rw [hold]; rfl)
  obtain ⟨h, hhead⟩ : ∃ h, b.head k = some h := by
    rw [← Option.isSome_iff_exists, ← Option.ne_none_iff_isSome]
    intro hnone
    rw [current, hnone, Option.getD_none, show (0 : UInt64).toNat = 0 from rfl] at hle
    omega
  have hcurrent : b.current k = h := by rw [current, hhead]; rfl
  have hmax : max (b.current k) n = h := by
    rw [← UInt64.toNat_inj, UInt64.toNat_max, hcurrent]
    rw [hcurrent] at hle
    omega
  simp only [write, hmax, ← hhead, Function.update_eq_self]

theorem wellFormed_mark (hb : b.WellFormed) (first last : UInt64) :
    (b.mark k first last).WellFormed where
  head_pos := hb.head_pos
  contiguous := by
    intro k' n'
    rw [mark_current, ← hb.contiguous k' n']
    by_cases hk : k' = k
    · subst hk
      rw [mark_message_self, markRange_isSome]
    · rw [mark_message_of_ne_log hk]
  positioned := by
    intro k' n' m' hm'
    by_cases hk : k' = k
    · subst hk
      rw [mark_message_self] at hm'
      obtain ⟨old, hold, rfl⟩ := markRange_eq_some hm'
      have hpos := hb.positioned k' n' old hold
      split_ifs
      · exact hpos
      · exact hpos
    · rw [mark_message_of_ne_log hk] at hm'
      exact hb.positioned k' n' m' hm'
  covered := by
    intro k' n' m' hm' hcov
    rw [mark_covers] at hcov
    by_cases hk : k' = k
    · subst hk
      rw [mark_message_self] at hm'
      obtain ⟨old, hold, rfl⟩ := markRange_eq_some hm'
      split_ifs with hrange
      · rfl
      · rcases hcov with hcov | ⟨-, hrange'⟩
        · exact hb.covered k' n' old hold hcov
        · exact absurd hrange' hrange
    · rw [mark_message_of_ne_log hk] at hm'
      rcases hcov with hcov | ⟨hk', -⟩
      · exact hb.covered k' n' m' hm' hcov
      · exact absurd hk' hk

theorem wellFormed_append (hb : b.WellFormed) (msg : NewMessage) (now : UInt64) :
    (b.append msg now).WellFormed := by
  have hnext := UInt64.toNat_saturatingAdd_one (b.current (LogKey.of msg.topic msg.origin))
  refine wellFormed_write hb ?_ ?_ rfl rfl ?_
  · rw [appended_headId, hnext]
    omega
  · rw [appended_headId, hnext]
    omega
  · intro hcov
    exact stamp_deleted.mpr (Or.inr hcov)

theorem wellFormed_put {r : ReplicateResult} (hb : b.WellFormed) (hzero : m.headId ≠ 0)
    (h : PutStep m r b b') : b'.WellFormed := by
  have hpos : 0 < m.headId.toNat := by
    rw [Nat.pos_iff_ne_zero]
    exact fun h0 => hzero (UInt64.toNat_inj.mp h0)
  have hcov : b.Covers m.log m.headId → (b.stamp m).deleted = true :=
    fun hc => stamp_deleted.mpr (Or.inr hc)
  cases r with
  | alreadyPresent =>
      obtain ⟨-, rfl⟩ := h
      exact hb
  | inserted =>
      obtain ⟨rfl, ⟨-, hnext⟩ | ⟨old, hold, -, -⟩⟩ := h
      · refine wellFormed_write hb hpos ?_ rfl rfl hcov
        rw [UInt64.toNat_saturatingAdd_one] at hnext
        omega
      · have hle := ((hb.contiguous m.log m.headId).mp (by rw [hold]; rfl)).2
        exact wellFormed_write hb hpos (by omega) rfl rfl hcov

/-! ## The next message of a log -/

theorem message_eq_none_of_next (hb : b.WellFormed)
    (hnext : (b.current m.log).toNat + 1 = m.headId.toNat) : b.message m.log m.headId = none := by
  rw [← Option.not_isSome_iff_eq_none, hb.contiguous]
  omega

theorem refuses_put_next (hb : b.WellFormed)
    (hnext : (b.current m.log).toNat + 1 = m.headId.toNat) :
    b.refuses (.putReplicatedMessage m) = none := by
  have hpos : m.headId ≠ 0 := by
    intro hzero
    rw [hzero] at hnext
    cases hnext
  have hgap : ¬ (b.current m.log).saturatingAdd 1 < m.headId := by
    have hlt := UInt64.toNat_lt m.headId
    rw [UInt64.lt_iff_toNat_lt, UInt64.toNat_saturatingAdd_one]
    omega
  simp only [refuses, if_neg hpos, message_eq_none_of_next hb hnext, if_neg hgap]

theorem putStep_next {r : ReplicateResult} (hb : b.WellFormed)
    (hnext : (b.current m.log).toNat + 1 = m.headId.toNat) (h : PutStep m r b b') :
    r = .inserted ∧ b' = b.write m.log m.headId (b.stamp m) := by
  cases r with
  | inserted => exact ⟨rfl, h.1⟩
  | alreadyPresent =>
      have hpresent := h.1
      rw [message_eq_none_of_next hb hnext] at hpresent
      cases hpresent

/-! ## Listed heads -/

theorem IsHead.head_message {b : Logs} {head : TopicHead} (h : b.IsHead head)
    (hb : b.WellFormed) :
    b.head (LogKey.of head.topic head.origin) = some head.headId ∧
      ∃ m, b.message (LogKey.of head.topic head.origin) head.headId = some m := by
  obtain ⟨k, m, hk, hm, htopic, horigin⟩ := h
  have hlog : LogKey.of head.topic head.origin = k := by
    rw [htopic, horigin]
    exact (hb.positioned k _ m hm).2
  rw [hlog]
  exact ⟨hk, m, hm⟩

theorem IsHead.current_eq {b : Logs} {head : TopicHead} (h : b.IsHead head)
    (hb : b.WellFormed) : b.current (LogKey.of head.topic head.origin) = head.headId := by
  rw [current, (h.head_message hb).1]
  rfl

theorem IsHead.eq_of_log {b : Logs} {head head' : TopicHead} (hb : b.WellFormed)
    (h : b.IsHead head) (h' : b.IsHead head')
    (hlog : LogKey.of head.topic head.origin = LogKey.of head'.topic head'.origin) : head = head' := by
  have hheadId : head.headId = head'.headId := by
    rw [← h.current_eq hb, ← h'.current_eq hb, hlog]
  obtain ⟨k, m, -, hm, htopic, horigin⟩ := h
  obtain ⟨k', m', -, hm', htopic', horigin'⟩ := h'
  have hk : k = k' := by
    rw [← (hb.positioned k _ m hm).2, ← (hb.positioned k' _ m' hm').2]
    rw [htopic, horigin, htopic', horigin'] at hlog
    exact hlog
  rw [hk, hheadId, hm', Option.some.injEq] at hm
  have hsame : head.topic = head'.topic ∧ head.origin = head'.origin := by
    rw [htopic, htopic', horigin, horigin', hm]
    exact ⟨rfl, rfl⟩
  cases head
  cases head'
  cases hsame.1
  cases hsame.2
  cases hheadId
  rfl

theorem exists_isHead_iff {b : Logs} (hb : b.WellFormed) {k : LogKey} :
    (∃ head, b.IsHead head ∧ LogKey.of head.topic head.origin = k) ↔
      ∃ n m, b.message k n = some m := by
  constructor
  · rintro ⟨head, hlisted, rfl⟩
    exact ⟨head.headId, (hlisted.head_message hb).2⟩
  · rintro ⟨n, m, hm⟩
    have hbounds := (hb.contiguous k n).mp (by rw [hm]; rfl)
    cases hhead : b.head k with
    | none =>
        rw [current, hhead] at hbounds
        have hzero : (0 : UInt64).toNat = 0 := rfl
        exact absurd hbounds.2 (by rw [Option.getD_none, hzero]; omega)
    | some h =>
        have hsome : (b.message k h).isSome := by
          rw [hb.contiguous, current, hhead]
          exact ⟨hb.head_pos k h hhead, Nat.le_refl _⟩
        obtain ⟨top, htop⟩ := Option.isSome_iff_exists.mp hsome
        exact ⟨⟨top.topic, top.origin, h⟩, ⟨k, top, hhead, htop, rfl, rfl⟩,
          (hb.positioned k h top htop).2⟩

/-! ## Every call -/

theorem step_of_not_onLogs [Formats] {env : CallEnv} {op : StoreOp} {r : op.Result}
    (hop : op.onLogs = false) : Step env op r b b := by
  cases op <;> first | rfl | cases hop

/-- Every successful call keeps the invariant. -/
theorem step_wellFormed [Formats] {env : CallEnv} {op : StoreOp} {r : op.Result}
    (hb : b.WellFormed) (h : Step env op r b b') : b'.WellFormed := by
  cases op with
  | appendMessage msg => exact h.2 ▸ wellFormed_append hb msg env.now
  | fetchMessages query => exact h.2 ▸ hb
  | getHead topic origin => exact h.2 ▸ hb
  | listHeads => exact h.2.2 ▸ hb
  | putReplicatedMessage message => exact wellFormed_put hb h.1 h.2
  | tombstoneRange topic origin first last => exact h.2.2 ▸ wellFormed_mark hb first last
  | tombstoneRangeWithMarker topic origin first last markerTopic markerOrigin =>
      exact h.2.2.2 ▸ wellFormed_append (wellFormed_mark hb first last) _ env.later
  | enqueueFifo message => exact h ▸ hb
  | peekFifo queue => exact h ▸ hb
  | ackFifo queue messageId => exact h ▸ hb
  | rejectFifo queue messageId => exact h ▸ hb
  | recordPeerSyncState state => exact h ▸ hb
  | listPeerSyncStates => exact h ▸ hb

end Msgbus.Logs
