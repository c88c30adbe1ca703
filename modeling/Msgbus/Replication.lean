import Msgbus.Interchange

/-!
# Copies of one log

`put_replicated_message` is called with copies of the entries of an origin's
log, as peers hold them: they agree but for the `deleted` flag, and a stale copy
may come after a fresh one.  A copy that raises the flag, or finds it as it is,
is taken.  A live copy of an entry that is flagged already is not: it is reported
as a conflict unless a recorded range covers it.
-/

namespace Msgbus

/-- Copies of entries of one log, which agree with each other and with what is
stored on everything but the flag. -/
structure CopiesOf (b : Logs) (k : LogKey) (copies : List StoredMessage) : Prop where
  log : ∀ m ∈ copies, m.log = k
  position : ∀ m ∈ copies, m.headId ≠ 0
  agree : ∀ m ∈ copies, ∀ m' ∈ copies, m'.headId = m.headId → m' = m.withDeleted m'.deleted
  stored : ∀ m ∈ copies, ∀ old, b.message k m.headId = some old → m = old.withDeleted m.deleted

namespace Logs

variable {b b' : Logs} {k : LogKey} {m : StoredMessage}

/-- The entry at the position of a copy is not flagged, or the copy would be
stored flagged too. -/
def Upholds (b : Logs) (m : StoredMessage) : Prop :=
  ∀ old, b.message m.log m.headId = some old → old.deleted = true →
    m.deleted = true ∨ b.Covers m.log m.headId

theorem refuses_copy_iff (hzero : m.headId ≠ 0)
    (hreach : m.headId.toNat ≤ (b.current m.log).toNat + 1)
    (hcopy : ∀ old, b.message m.log m.headId = some old → m = old.withDeleted m.deleted) :
    b.refuses (.putReplicatedMessage m) = none ↔ b.Upholds m := by
  simp only [refuses]
  rw [if_neg hzero]
  unfold Upholds
  cases hold : b.message m.log m.headId with
  | none =>
      have hlt := m.headId.toNat_lt
      have hgap : ¬ (b.current m.log).saturatingAdd 1 < m.headId := by
        rw [UInt64.lt_iff_toNat_lt, UInt64.toNat_saturatingAdd_one]
        omega
      simp [hgap]
  | some old =>
      have hstamp : b.stamp m = old.withDeleted (b.stamp m).deleted :=
        stamp_eq_withDeleted.trans
          (congrArg (·.withDeleted (b.stamp m).deleted) (hcopy old hold))
      have htaken : (old = b.stamp m ∨ b.stamp m = old.withDeleted true) ↔
          (old.deleted = true → (b.stamp m).deleted = true) := by
        constructor
        · rintro (hsame | hraised) hdeleted
          · rw [← hsame]
            exact hdeleted
          · rw [hraised]
            rfl
        · intro hflag
          cases hstamped : (b.stamp m).deleted with
          | true =>
              rw [hstamped] at hstamp
              exact Or.inr hstamp
          | false =>
              rw [hstamped] at hstamp hflag
              have hlive : old.deleted = false := by simpa using hflag
              rw [StoredMessage.withDeleted_of_eq hlive] at hstamp
              exact Or.inl hstamp.symm
      have hnone : ∀ c : Prop, [Decidable c] →
          ((if c then none else some ErrorKind.conflict) = none ↔ c) := by
        intro c _
        simp
      rw [hnone, htaken, stamp_deleted]
      simp

theorem not_gap_of_refuses (hzero : m.headId ≠ 0) (hnone : b.message m.log m.headId = none)
    (h : b.refuses (.putReplicatedMessage m) = none) :
    ¬ (b.current m.log).saturatingAdd 1 < m.headId := by
  intro hgap
  simp only [refuses] at h
  rw [if_neg hzero, hnone] at h
  simp [hgap] at h

theorem same_of_refuses (hzero : m.headId ≠ 0) {old : StoredMessage}
    (hold : b.message m.log m.headId = some old)
    (h : b.refuses (.putReplicatedMessage m) = none) :
    old = b.stamp m ∨ b.stamp m = old.withDeleted true := by
  by_contra hdiffers
  simp only [refuses] at h
  rw [if_neg hzero, hold] at h
  simp [hdiffers] at h

theorem refuses_eq_conflict (hzero : m.headId ≠ 0) {old : StoredMessage}
    (hold : b.message m.log m.headId = some old)
    (h : b.refuses (.putReplicatedMessage m) ≠ none) :
    b.refuses (.putReplicatedMessage m) = some .conflict := by
  simp only [refuses] at h ⊢
  rw [if_neg hzero, hold] at h ⊢
  exact if_neg fun hsame => h (if_pos hsame)

def Flagged (b : Logs) (k : LogKey) (n : UInt64) : Prop :=
  ∃ m, b.message k n = some m ∧ m.deleted = true

theorem PutStep.message_self {r : ReplicateResult} (h : PutStep m r b b') :
    b'.message m.log m.headId = some (b.stamp m) := by
  cases r with
  | alreadyPresent =>
      rw [h.2]
      exact h.1
  | inserted =>
      rw [h.1]
      exact write_message_self

theorem PutStep.message_of_ne {r : ReplicateResult} (h : PutStep m r b b') {n : UInt64}
    (hn : n ≠ m.headId) : b'.message m.log n = b.message m.log n := by
  cases r with
  | alreadyPresent => rw [h.2]
  | inserted =>
      rw [h.1]
      exact write_message_of_ne hn

theorem PutStep.covers {r : ReplicateResult} (h : PutStep m r b b') (k : LogKey) (n : UInt64) :
    b'.Covers k n ↔ b.Covers k n := by
  cases r with
  | alreadyPresent => rw [h.2]
  | inserted =>
      rw [h.1]
      exact write_covers

theorem PutStep.stamp_deleted_of_flagged {r : ReplicateResult} (h : PutStep m r b b')
    (hflagged : b.Flagged m.log m.headId) : (b.stamp m).deleted = true := by
  obtain ⟨old, hold, hdeleted⟩ := hflagged
  cases r with
  | alreadyPresent =>
      rw [h.1, Option.some.injEq] at hold
      rw [hold]
      exact hdeleted
  | inserted =>
      obtain ⟨-, ⟨hnone, -⟩ | ⟨old', -, -, hraised⟩⟩ := h
      · rw [hold] at hnone
        cases hnone
      · rw [hraised]
        rfl

theorem PutStep.flagged_iff {r : ReplicateResult} (h : PutStep m r b b') {n : UInt64} :
    (b'.Flagged m.log n ∨ b.Covers m.log n) ↔
      b.Flagged m.log n ∨ (m.headId = n ∧ m.deleted = true) ∨ b.Covers m.log n := by
  by_cases hn : n = m.headId
  · subst hn
    have hafter : b'.Flagged m.log m.headId ↔ m.deleted = true ∨ b.Covers m.log m.headId := by
      unfold Flagged
      rw [h.message_self, ← stamp_deleted]
      simp
    have hbefore := fun hflagged => stamp_deleted.mp (h.stamp_deleted_of_flagged hflagged)
    rw [hafter]
    tauto
  · have hne : m.headId ≠ n := fun heq => hn heq.symm
    unfold Flagged
    rw [h.message_of_ne hn]
    simp [hne]

/-- No live copy comes to an entry that was flagged at the start or by an earlier
copy, unless a range covers it. -/
def NoStale (b : Logs) (copies : List StoredMessage) : Prop :=
  ∀ before m after, copies = before ++ m :: after →
    m.deleted = true ∨ b.Covers m.log m.headId ∨
      (¬ b.Flagged m.log m.headId ∧ ∀ m' ∈ before, m'.headId = m.headId → m'.deleted = false)

theorem noStale_nil : b.NoStale [] := by
  intro before m after h
  exact absurd h.symm (by simp)

theorem NoStale.upholds {copies : List StoredMessage} (h : b.NoStale (m :: copies)) :
    b.Upholds m := by
  intro old hold hdeleted
  rcases h [] m copies rfl with hm | hcovers | ⟨hlive, -⟩
  · exact Or.inl hm
  · exact Or.inr hcovers
  · exact absurd ⟨old, hold, hdeleted⟩ hlive

/-- Taking the first copy accounts for it in what is stored. -/
theorem noStale_cons {r : ReplicateResult} {copies : List StoredMessage} (hput : PutStep m r b b')
    (hlog : ∀ m' ∈ copies, m'.log = m.log) :
    b.NoStale (m :: copies) ↔ b.Upholds m ∧ b'.NoStale copies := by
  constructor
  · intro h
    refine ⟨h.upholds, ?_⟩
    rintro before m' after rfl
    have hm' := hlog m' (by simp)
    have hflagged := hput.flagged_iff (n := m'.headId)
    rw [hput.covers, hm']
    rcases h (m :: before) m' after rfl with hdeleted | hcovers | ⟨hlive, hbefore⟩
    · exact Or.inl hdeleted
    · rw [hm'] at hcovers
      exact Or.inr (Or.inl hcovers)
    · rw [hm'] at hlive
      by_cases hcovers : b.Covers m.log m'.headId
      · exact Or.inr (Or.inl hcovers)
      · refine Or.inr (Or.inr ⟨fun hafter => ?_, fun m'' hm'' =>
          hbefore m'' (List.mem_cons_of_mem _ hm'')⟩)
        rcases hflagged.mp (Or.inl hafter) with hold | ⟨hn, hdeleted⟩ | hcovered
        · exact hlive hold
        · rw [hbefore m List.mem_cons_self hn] at hdeleted
          cases hdeleted
        · exact hcovers hcovered
  · rintro ⟨hupholds, h⟩ before m' after hsplit
    cases before with
    | nil =>
        obtain ⟨rfl, -⟩ := List.cons.inj hsplit
        by_cases hflagged : b.Flagged m.log m.headId
        · obtain ⟨old, hold, hdeleted⟩ := hflagged
          rcases hupholds old hold hdeleted with hm | hcovers
          · exact Or.inl hm
          · exact Or.inr (Or.inl hcovers)
        · exact Or.inr (Or.inr ⟨hflagged, by simp⟩)
    | cons first before =>
        obtain ⟨rfl, rfl⟩ := List.cons.inj hsplit
        have hm' := hlog m' (by simp)
        have hflagged := hput.flagged_iff (n := m'.headId)
        rcases h before m' after rfl with hdeleted | hcovers | ⟨hlive, hbefore⟩
        · exact Or.inl hdeleted
        · exact Or.inr (Or.inl ((hput.covers _ _).mp hcovers))
        · rw [hm'] at hlive ⊢
          by_cases hcovers : b.Covers m.log m'.headId
          · exact Or.inr (Or.inl hcovers)
          · have hnot : ¬ (b.Flagged m.log m'.headId ∨ (m.headId = m'.headId ∧ m.deleted = true) ∨
                b.Covers m.log m'.headId) := by
              rw [← hflagged]
              exact not_or.mpr ⟨hlive, hcovers⟩
            obtain ⟨hstart, hfirst⟩ := not_or.mp hnot
            refine Or.inr (Or.inr ⟨hstart, ?_⟩)
            intro m'' hm'' hn
            rcases List.mem_cons.mp hm'' with rfl | hrest
            · exact Bool.eq_false_iff.mpr fun hdeleted => hfirst (Or.inl ⟨hn, hdeleted⟩)
            · exact hbefore m'' hrest hn

end Logs

theorem CopiesOf.tail {b b' : Logs} {k : LogKey} {m : StoredMessage} {copies : List StoredMessage}
    {r : ReplicateResult} (h : CopiesOf b k (m :: copies)) (hput : Logs.PutStep m r b b') :
    CopiesOf b' k copies where
  log := fun m' hm' => h.log m' (List.mem_cons_of_mem _ hm')
  position := fun m' hm' => h.position m' (List.mem_cons_of_mem _ hm')
  agree := fun m₁ h₁ m₂ h₂ =>
    h.agree m₁ (List.mem_cons_of_mem _ h₁) m₂ (List.mem_cons_of_mem _ h₂)
  stored := by
    intro m' hm' old hold
    obtain rfl := h.log m List.mem_cons_self
    by_cases hn : m'.headId = m.headId
    · -- the entry is the copy just taken, with which the others agree
      rw [hn, hput.message_self, Option.some.injEq] at hold
      rw [← hold]
      exact h.agree m List.mem_cons_self m' (List.mem_cons_of_mem _ hm') hn
    · rw [hput.message_of_ne hn] at hold
      exact h.stored m' (List.mem_cons_of_mem _ hm') old hold

variable [Formats]

/-! ## SQLite -/

/-- What SQLite asks of a copy beyond the logs: the entry that is there can be
read back, or the new one has numbers that fit and an id that is not taken. -/
def Sqlite.CanHold (b : Logs) (m : StoredMessage) : Prop :=
  Sqlite.Fits m.headId ∧
    (∀ old, b.message m.log m.headId = some old →
      ValidPart old.id.value ∧ ValidPart old.topic.value) ∧
    (b.message m.log m.headId = none →
      Sqlite.Fits m.createdAtMs ∧ ∀ k n old, b.message k n = some old → old.id ≠ m.id)

theorem Sqlite.putReplicatedMessage_ok_iff {s : Sqlite} (hs : s.Inv) {m : StoredMessage}
    (hzero : m.headId ≠ 0) :
    (∃ r s', putReplicatedMessage s m = .ok (r, s')) ↔
      s.logs.refuses (.putReplicatedMessage m) = none ∧ CanHold s.logs m := by
  constructor
  · rintro ⟨r, s', hput⟩
    have hout := putReplicatedMessage_outcome hs ⟨0, 0, ⟨""⟩⟩ m
    rw [hput] at hout
    have hrefuses := Logs.refuses_of_step hout.2.1
    have hfits := fits_of_putReplicatedMessage hs hzero hput
    refine ⟨hrefuses, hfits, ?_, ?_⟩
    · intro old hold
      rw [putReplicatedMessage_of_some hs hzero hfits hold] at hput
      obtain ⟨existing, hread, -⟩ := Except.bind_eq_ok.mp hput
      exact (rowToMessage_eq_ok.mp hread).1
    · intro hnone
      rw [putReplicatedMessage_of_none hs hzero hfits hnone] at hput
      have hgap := Logs.not_gap_of_refuses hzero hnone hrefuses
      obtain ⟨hinsertable, -, -⟩ :=
        (putFresh_eq_ok (m := s.logs.stamp m) hs hzero hnone hgap).mp hput
      refine ⟨hinsertable.createdAtMs, ?_⟩
      intro k n old hold hid
      exact (idFree_iff hs.coded).mp hinsertable.idFree k n old hold (congrArg MessageId.value hid)
  · rintro ⟨hrefuses, hfits, hread, hfresh⟩
    cases hold : s.logs.message m.log m.headId with
    | none =>
        obtain ⟨hcreated, hid⟩ := hfresh hold
        have hinsertable : s.Insertable (s.logs.stamp m) := by
          refine ⟨hfits, hcreated, hold, (idFree_iff hs.coded).mpr ?_⟩
          intro k n old hstored heq
          exact hid k n old hstored (MessageId.value_injective heq)
        have hgap := Logs.not_gap_of_refuses hzero hold hrefuses
        rw [putReplicatedMessage_of_none hs hzero hfits hold]
        exact ⟨_, _, (putFresh_eq_ok (m := s.logs.stamp m) hs hzero hold hgap).mpr
          ⟨hinsertable, rfl, rfl⟩⟩
    | some old =>
        rw [putReplicatedMessage_of_some hs hzero hfits hold,
          Except.bind_of_ok (rowToMessage_eq_ok.mpr ⟨hread old hold, rfl⟩)]
        unfold putExisting
        split_ifs with hsame hflag
        · exact ⟨_, _, rfl⟩
        · exact ⟨_, _, rfl⟩
        · exfalso
          have hraised := (Logs.same_of_refuses hzero hold hrefuses).resolve_left hsame
          refine hflag ?_
          rw [Bool.and_eq_true, sameMessageExceptDeleted_iff, hraised]
          exact ⟨rfl, rfl⟩

namespace StorageKind

def CanHold : StorageKind → Logs → StoredMessage → Prop
  | redb, _, _ => True
  | sqlite, b, m => Sqlite.CanHold b m

def Joins (kind : StorageKind) (b : Logs) (m : StoredMessage) : Prop :=
  b.Upholds m ∧ kind.CanHold b m

variable {kind : StorageKind} {s s' : kind.Store} {k : LogKey} {m : StoredMessage}
variable {copies : List StoredMessage}

/-- The surroundings of a replicated write, which reads neither clock nor id. -/
def putEnv : CallEnv := ⟨0, 0, ⟨""⟩⟩

theorem putStep_of_ok (hs : kind.Inv s) {r : ReplicateResult}
    (h : MsgbusStore.putReplicatedMessage s m = .ok (r, s')) :
    kind.Inv s' ∧ Logs.PutStep m r (kind.logs s) (kind.logs s') := by
  have hexec : StoreOp.exec s putEnv (.putReplicatedMessage m) = .ok (r, s') := h
  exact ⟨(Backend.refines hs hexec).1, (Backend.refines hs hexec).2.2⟩

theorem put_ok_iff (hs : kind.Inv s) (hzero : m.headId ≠ 0)
    (hreach : m.headId.toNat ≤ ((kind.logs s).current m.log).toNat + 1)
    (hcopy : ∀ old, (kind.logs s).message m.log m.headId = some old →
      m = old.withDeleted m.deleted) :
    (∃ r s', MsgbusStore.putReplicatedMessage s m = .ok (r, s')) ↔ kind.Joins (kind.logs s) m := by
  unfold Joins
  rw [← Logs.refuses_copy_iff hzero hreach hcopy]
  cases kind with
  | redb =>
      refine Iff.trans ?_ (and_iff_left trivial).symm
      constructor
      · rintro ⟨r, s', hput⟩
        have hexec : StoreOp.exec s putEnv (.putReplicatedMessage m) = .ok (r, s') := hput
        exact Logs.refuses_of_step (Backend.refines hs hexec).2
      · intro hrefuses
        have hok : ∃ r s', StoreOp.exec s putEnv (.putReplicatedMessage m) = .ok (r, s') :=
          Backend.exec_eq_ok (σ := Redb) hs rfl trivial hrefuses
        exact hok
  | sqlite => exact Sqlite.putReplicatedMessage_ok_iff hs hzero

inductive Replicated (kind : StorageKind) :
    kind.Store → List StoredMessage → kind.Store → Prop where
  | nil (s : kind.Store) : Replicated kind s [] s
  | cons {s s₁ s' : kind.Store} {m : StoredMessage} {copies : List StoredMessage}
      {r : ReplicateResult} (hput : MsgbusStore.putReplicatedMessage s m = .ok (r, s₁))
      (hrest : Replicated kind s₁ copies s') : Replicated kind s (m :: copies) s'

def InReach (kind : StorageKind) : kind.Store → List StoredMessage → Prop
  | _, [] => True
  | s, m :: copies =>
      m.headId.toNat ≤ ((kind.logs s).current m.log).toNat + 1 ∧
        InReach kind (StoreOp.after s putEnv (.putReplicatedMessage m)) copies

def JoinsAll (kind : StorageKind) : kind.Store → List StoredMessage → Prop
  | _, [] => True
  | s, m :: copies =>
      kind.Joins (kind.logs s) m ∧
        JoinsAll kind (StoreOp.after s putEnv (.putReplicatedMessage m)) copies

theorem after_put {r : ReplicateResult}
    (h : MsgbusStore.putReplicatedMessage s m = .ok (r, s')) :
    StoreOp.after s putEnv (.putReplicatedMessage m) = s' := by
  have hexec : StoreOp.exec s putEnv (.putReplicatedMessage m) = .ok (r, s') := h
  exact StoreOp.after_of_ok hexec

theorem replicated_iff_joinsAll (hs : kind.Inv s) (hcopies : CopiesOf (kind.logs s) k copies)
    (hreach : kind.InReach s copies) :
    (∃ s', kind.Replicated s copies s') ↔ kind.JoinsAll s copies := by
  induction copies generalizing s with
  | nil => exact iff_of_true ⟨s, .nil s⟩ trivial
  | cons m copies ih =>
      obtain rfl := hcopies.log m List.mem_cons_self
      have hok := put_ok_iff hs (hcopies.position m List.mem_cons_self) hreach.1
        (hcopies.stored m List.mem_cons_self)
      constructor
      · rintro ⟨s', hrun⟩
        cases hrun with
        | cons hput hrest =>
            obtain ⟨hinv, hstep⟩ := putStep_of_ok hs hput
            have hreach' := hreach.2
            rw [after_put hput] at hreach'
            refine ⟨hok.mp ⟨_, _, hput⟩, ?_⟩
            rw [after_put hput]
            exact (ih hinv (hcopies.tail hstep) hreach').mp ⟨s', hrest⟩
      · rintro ⟨hjoins, hrest⟩
        obtain ⟨r, s₁, hput⟩ := hok.mpr hjoins
        obtain ⟨hinv, hstep⟩ := putStep_of_ok hs hput
        have hreach' := hreach.2
        rw [after_put hput] at hreach' hrest
        obtain ⟨s', hrun⟩ := (ih hinv (hcopies.tail hstep) hreach').mpr hrest
        exact ⟨s', .cons hput hrun⟩

/-- In a backend that can hold every copy, a sequence joins exactly when it has
no stale one. -/
theorem joinsAll_iff_noStale (hhold : ∀ b m, kind.CanHold b m) (hs : kind.Inv s)
    (hcopies : CopiesOf (kind.logs s) k copies) (hreach : kind.InReach s copies) :
    kind.JoinsAll s copies ↔ (kind.logs s).NoStale copies := by
  induction copies generalizing s with
  | nil => exact iff_of_true trivial Logs.noStale_nil
  | cons m copies ih =>
      obtain rfl := hcopies.log m List.mem_cons_self
      by_cases hupholds : (kind.logs s).Upholds m
      · obtain ⟨r, s₁, hput⟩ := (put_ok_iff hs (hcopies.position m List.mem_cons_self) hreach.1
          (hcopies.stored m List.mem_cons_self)).mpr ⟨hupholds, hhold _ m⟩
        obtain ⟨hinv, hstep⟩ := putStep_of_ok hs hput
        have hreach' := hreach.2
        rw [after_put hput] at hreach'
        rw [Logs.noStale_cons hstep fun m' hm' => hcopies.log m' (List.mem_cons_of_mem _ hm'),
          JoinsAll, after_put hput, ih hinv (hcopies.tail hstep) hreach']
        exact and_congr_left fun _ => and_iff_left (hhold _ m)
      · exact iff_of_false (fun h => hupholds h.1.1) fun h => hupholds h.upholds

theorem Replicated.flagged_iff (h : kind.Replicated s copies s') (hs : kind.Inv s)
    (hlog : ∀ m ∈ copies, m.log = k) {n : UInt64} :
    ((kind.logs s').Flagged k n ∨ (kind.logs s).Covers k n) ↔
      (kind.logs s).Flagged k n ∨ (∃ m ∈ copies, m.headId = n ∧ m.deleted = true) ∨
        (kind.logs s).Covers k n := by
  induction h with
  | nil s => simp
  | cons hput hrest ih =>
      rename_i s s₁ s' m copies r
      obtain rfl := hlog m List.mem_cons_self
      obtain ⟨hinv, hstep⟩ := putStep_of_ok hs hput
      have hrec := ih hinv fun m' hm' => hlog m' (List.mem_cons_of_mem _ hm')
      have hone := hstep.flagged_iff (n := n)
      rw [hstep.covers] at hrec
      rw [List.exists_mem_cons_iff, hrec, or_left_comm, hone]
      refine or_left_comm.trans (or_congr_right ?_)
      rw [or_assoc]
      exact or_left_comm

theorem Replicated.inv (h : kind.Replicated s copies s') (hs : kind.Inv s) :
    kind.Inv s' ∧ ∀ k n, (kind.logs s').Covers k n ↔ (kind.logs s).Covers k n := by
  induction h with
  | nil s => exact ⟨hs, fun _ _ => Iff.rfl⟩
  | cons hput hrest ih =>
      obtain ⟨hinv, hstep⟩ := putStep_of_ok hs hput
      obtain ⟨hinv', hcovers⟩ := ih hinv
      exact ⟨hinv', fun k n => (hcovers k n).trans (hstep.covers k n)⟩

end StorageKind

/-- Copies of one log are all taken, and leave each entry flagged exactly when it
was, a copy is or a range covers it, if and only if each copy joins the store it
meets; in redb that is, if and only if no copy is stale. -/
theorem replication_joins_iff (kind : StorageKind) {s : kind.Store} (hs : Reachable s)
    {k : LogKey} {copies : List StoredMessage} (hcopies : CopiesOf (kind.logs s) k copies)
    (hreach : kind.InReach s copies) :
    ((∃ s', kind.Replicated s copies s' ∧
        ∀ n m', (kind.logs s').message k n = some m' →
          (m'.deleted = true ↔ (kind.logs s).Flagged k n ∨
            (∃ m ∈ copies, m.headId = n ∧ m.deleted = true) ∨ (kind.logs s).Covers k n)) ↔
      kind.JoinsAll s copies) ∧
    (kind = .redb → (kind.JoinsAll s copies ↔ (kind.logs s).NoStale copies)) := by
  have hinv : kind.Inv s := Backend.inv_of_reachable hs
  constructor
  · rw [← StorageKind.replicated_iff_joinsAll hinv hcopies hreach]
    refine exists_congr fun s' => and_iff_left_of_imp ?_
    intro hrun n m' hm'
    obtain ⟨hinv', hcovers⟩ := hrun.inv hinv
    have hwf : (kind.logs s').WellFormed := Backend.wellFormed hinv'
    rw [← hrun.flagged_iff hinv hcopies.log]
    constructor
    · intro hdeleted
      exact Or.inl ⟨m', hm', hdeleted⟩
    · rintro (⟨m'', hm'', hdeleted⟩ | hcovered)
      · rw [hm', Option.some.injEq] at hm''
        rw [hm'']
        exact hdeleted
      · exact hwf.covered k n m' hm' ((hcovers k n).mpr hcovered)
  · rintro rfl
    exact StorageKind.joinsAll_iff_noStale (fun _ _ => trivial) hinv hcopies hreach

/-! ## A stale copy -/

def firstCopy (deleted : Bool) : StoredMessage :=
  ⟨⟨"m"⟩, ⟨"t"⟩, ⟨"a", "b", "c"⟩, 1, .empty, .empty, 0, deleted⟩

theorem copiesOf_firstCopy (d d' : Bool) :
    CopiesOf (StorageKind.redb.logs MsgbusStore.empty) (LogKey.of ⟨"t"⟩ ⟨"a", "b", "c"⟩)
      [firstCopy d, firstCopy d'] where
  log := by
    intro m hm
    rcases List.mem_pair.mp hm with rfl | rfl
    · rfl
    · rfl
  position := by
    intro m hm
    rcases List.mem_pair.mp hm with rfl | rfl
    · exact (show (1 : UInt64) ≠ 0 by decide)
    · exact (show (1 : UInt64) ≠ 0 by decide)
  agree := by
    intro m hm m' hm' _
    rcases List.mem_pair.mp hm with rfl | rfl <;> rcases List.mem_pair.mp hm' with rfl | rfl <;> rfl
  stored := by
    intro m hm old hold
    rw [show StorageKind.redb.logs MsgbusStore.empty = Logs.empty from Redb.logs_openEmpty] at hold
    cases hold

theorem inReach_firstCopy (d d' : Bool) :
    StorageKind.redb.InReach MsgbusStore.empty [firstCopy d, firstCopy d'] :=
  ⟨Nat.succ_le_succ (Nat.zero_le _), Nat.succ_le_succ (Nat.zero_le _), trivial⟩

omit [Formats] in
/-- A live copy, then a deleted one. -/
theorem replication_joins_two :
    letI := Serde.formats
    ∃ s', StorageKind.redb.Replicated MsgbusStore.empty [firstCopy false, firstCopy true] s' := by
  let := Serde.formats
  have hjoins := replication_joins_iff .redb .empty (copiesOf_firstCopy false true)
    (inReach_firstCopy false true)
  have hfresh : (StorageKind.redb.logs MsgbusStore.empty).NoStale
      [firstCopy false, firstCopy true] := by
    intro before m after hsplit
    cases before with
    | nil =>
        obtain ⟨rfl, -⟩ := List.cons.inj hsplit
        refine Or.inr (Or.inr ⟨?_, by simp⟩)
        rw [show StorageKind.redb.logs MsgbusStore.empty = Logs.empty from Redb.logs_openEmpty]
        rintro ⟨old, hold, -⟩
        cases hold
    | cons first before =>
        obtain ⟨-, hrest⟩ := List.cons.inj hsplit
        have hlast : m ∈ [firstCopy true] := by
          rw [hrest]
          exact List.mem_append_right _ List.mem_cons_self
        rw [List.mem_singleton.mp hlast]
        exact Or.inl rfl
  obtain ⟨s', hrun, -⟩ := hjoins.1.mpr ((hjoins.2 rfl).mpr hfresh)
  exact ⟨s', hrun⟩

omit [Formats] in
/-- A live copy that comes after a deleted one is a conflict. -/
theorem stale_copy_conflicts :
    letI := Serde.formats
    CopiesOf (StorageKind.redb.logs MsgbusStore.empty) (LogKey.of ⟨"t"⟩ ⟨"a", "b", "c"⟩)
        [firstCopy true, firstCopy false] ∧
      StorageKind.redb.InReach MsgbusStore.empty [firstCopy true, firstCopy false] ∧
      ∃ (s₁ : Redb) (r : ReplicateResult) (e : MsgbusError),
        MsgbusStore.putReplicatedMessage (MsgbusStore.empty : Redb) (firstCopy true) =
          .ok (r, s₁) ∧
        MsgbusStore.putReplicatedMessage s₁ (firstCopy false) = .error e ∧ e.kind = .conflict := by
  let := Serde.formats
  have hcopies := copiesOf_firstCopy true false
  have hreach := inReach_firstCopy true false
  have hinv : StorageKind.redb.Inv MsgbusStore.empty := Backend.inv_empty
  have hfirst : StorageKind.redb.Joins (StorageKind.redb.logs MsgbusStore.empty) (firstCopy true) :=
    ⟨fun _ _ _ => Or.inl rfl, trivial⟩
  obtain ⟨r, s₁, hput⟩ := (StorageKind.put_ok_iff hinv (hcopies.position _ List.mem_cons_self)
    hreach.1 (hcopies.stored _ List.mem_cons_self)).mpr hfirst
  obtain ⟨hinv₁, hstep⟩ := StorageKind.putStep_of_ok hinv hput
  -- what is stored now is deleted, and no range covers it
  have hstored := hstep.message_self
  have hnot : ¬ (StorageKind.redb.logs s₁).Upholds (firstCopy false) := by
    intro hupholds
    rcases hupholds _ hstored (Logs.stamp_deleted.mpr (Or.inl rfl)) with hdeleted | hcovers
    · cases hdeleted
    · rw [hstep.covers,
        show StorageKind.redb.logs MsgbusStore.empty = Logs.empty from Redb.logs_openEmpty] at hcovers
      obtain ⟨first, last, hrange, -⟩ := hcovers
      exact hrange
  have hrefuses : (StorageKind.redb.logs s₁).refuses (.putReplicatedMessage (firstCopy false)) =
      some .conflict := by
    have hzero : (firstCopy false).headId ≠ 0 := by decide
    have hnext : (firstCopy false).headId.toNat ≤
        ((StorageKind.redb.logs s₁).current (firstCopy false).log).toNat + 1 :=
      Nat.succ_le_succ (Nat.zero_le _)
    refine Logs.refuses_eq_conflict hzero hstored fun hnone => hnot ?_
    exact (Logs.refuses_copy_iff hzero hnext
      ((hcopies.tail hstep).stored _ List.mem_cons_self)).mp hnone
  refine ⟨hcopies, hreach, s₁, r, ?_⟩
  cases hexec : StoreOp.exec s₁ StorageKind.putEnv (.putReplicatedMessage (firstCopy false)) with
  | ok result =>
      have hnone := Logs.refuses_of_step (Backend.refines hinv₁ hexec).2
      exact absurd (hrefuses.symm.trans hnone) (Option.some_ne_none _)
  | error e =>
      have hkind := Backend.refused (σ := Redb) hinv₁ rfl trivial hexec
      exact ⟨e, hput, hexec, (Option.some.inj (hrefuses.symm.trans hkind)).symm⟩

end Msgbus
