import Msgbus.Network.Histories
import Msgbus.Network.Recovery

/-!
# What survives a stop

A daemon may stop at any moment, in the middle of any of its tasks, and come back.
What it has acknowledged is still there: its log is the history of all the writes
it has ever acknowledged, and the copies of it at other daemons are first parts of
that history.
-/

namespace Msgbus.Network

open Program System Lifecycle

variable [Formats] {ι : Type} [DecidableEq ι] {N : Network ι}
variable {a b : Fleet ι (N.Stores × List (Event ι Command Command.Answer)) Command Command.Answer}

/-- Honest daemons that stop and come back, below the counter limit, with a record
of the calls that were answered. -/
abbrev recordedFleet (N : Network ι) :
    Lifecycle ι (N.Stores × List (Event ι Command Command.Answer)) Command Command.Answer :=
  (N.lifecycle N.system N.BelowLimit N.BelowLimit).traced

theorem ownHistories_of_fleet (hdistinct : N.Distinct)
    (hrun : N.recordedFleet.Reaches (.init (N.fresh, [])) a) :
    Kept (replicaKnowledge N.node).contract (fun s => N.view s.1) (fun s => N.Agrees s.1)
        a.toState ∧ N.OwnHistories a.shared.1 a.shared.2 := by
  have hhonours := (honours_below hdistinct).traced
  induction hrun with
  | refl =>
      refine ⟨⟨agrees_fresh, ?_⟩, ownHistories_fresh⟩
      intro n i p htask
      cases htask
  | tail _ hstep ih =>
      obtain ⟨hkept, hown⟩ := ih
      obtain ⟨i, hstep⟩ := hstep
      refine ⟨Lifecycle.kept_step (fun _ _ w hstarts => meets_of_starts rfl hstarts w)
        (fun _ _ w hboots => meets_of_boots hboots w) hhonours hhonours hkept hstep, ?_⟩
      -- Only an answer changes a store or is recorded.
      rcases hstep.shared with hsame | ⟨n, c, next, answer, htask, hanswer⟩
      · rw [hsame]
        exact hown
      · obtain ⟨⟨hlimit, hanswer⟩, hrecorded⟩ := hanswer.elim id id
        have hnext := hown.answer hdistinct hkept.1 (hkept.requires htask).1 hlimit hanswer
        rw [← hrecorded] at hnext
        exact hnext

/-- While daemons stop at any moment and come back, below the counter limit: the
log that a daemon holds of an owner is, up to deleted flags, the first part of the
writes that the owner has ever acknowledged, in the order of their transactions;
the owner itself holds all of them. -/
theorem acknowledged_survives (hdistinct : N.Distinct)
    (hrun : N.recordedFleet.Reaches (.init (N.fresh, [])) a) (x owner : ι) (topic : Topic) :
    ((N.view a.shared.1 x).log (LogKey.of topic (N.node owner))).map (·.content) =
        ((acknowledged owner (LogKey.of topic (N.node owner)) a.shared.2).map (·.content)).take
          ((N.view a.shared.1 x).current (LogKey.of topic (N.node owner))).toNat ∧
      ((N.view a.shared.1 owner).current (LogKey.of topic (N.node owner))).toNat =
        (acknowledged owner (LogKey.of topic (N.node owner)) a.shared.2).length := by
  obtain ⟨hkept, hown⟩ := ownHistories_of_fleet hdistinct hrun
  exact hown.log_eq hdistinct hkept.1 x owner topic

/-! ## An owner that stops after two publishes -/

omit [Formats] in
theorem topic_of_filled {n : Nat} (hwf : (filled n).WellFormed) {k : LogKey} {position : HeadId}
    {m : StoredMessage} (hm : (filled n).message k position = some m) : m.topic ≠ deleteTopic := by
  have hbounds := (hwf.contiguous k position).mp (by rw [hm]; rfl)
  have hk : k = entryLog := by
    by_contra hne
    rw [Logs.current, head_filled_of_ne n hne] at hbounds
    exact absurd (Nat.le_trans hbounds.1 hbounds.2) (by decide)
  have htopic : m.topic = ⟨"t"⟩ := by
    rw [hk] at hm
    exact congrArg LogKey.topic (hwf.positioned _ _ _ hm).2
  rw [htopic]
  decide

theorem unimpeded_filled {n : Nat} (hwf : (filled n).WellFormed) :
    StorageKind.redb.Unimpeded (filled n) where
  lists := fun hkind => by cases hkind
  reads := fun _ _ _ hm htopic => absurd htopic (topic_of_filled hwf hm)
  control := fun _ _ _ hm htopic => absurd htopic (topic_of_filled hwf hm)
  below := by
    rintro head ⟨k, m, -, hm, hhead, -⟩ htopic
    exact absurd (hhead.symm.trans htopic) (topic_of_filled hwf hm)

theorem exists_restarted :
    ∃ a b, ((pair .redb).lifecycle (pair .redb).system (pair .redb).BelowLimit
        (pair .redb).BelowLimit).Reaches (.init (pair .redb).fresh) a ∧ a.phase true = .down ∧
      ((pair .redb).lifecycle (pair .redb).system (pair .redb).BelowLimit
        (pair .redb).BelowLimit).Reaches a b ∧ b.phase true = .up ∧
      (((pair .redb).view b.shared true).current entryLog).toNat = 2 ∧
      (((pair .redb).view b.shared false).current entryLog).toNat = 1 := by
  obtain ⟨a₀, hboot, hshared, -, hup⟩ := reaches_up .redb (pair .redb).system
    (pair .redb).BelowLimit (pair .redb).BelowLimit (fun _ _ _ _ _ hanswer => hanswer)
    fun _ k hk => by cases hk
  obtain ⟨a₁, hrounds, ha₁⟩ := exists_filled_both (n := 1) (by decide)
  obtain ⟨a₂, hpublish, ha₂⟩ := ha₁.exists_publish ⟨0, 0, ⟨"m"⟩⟩ "t" .empty .empty (by decide)
    (by decide) (by decide) lenient_belowLimit (permits_belowLimit (by decide)) trivial
  have hserved := hrounds.trans hpublish
  rw [← hshared] at hserved
  have howner : (pair .redb).view a₂.shared true = filled 2 := by
    rw [ha₂.1.2]
    rfl
  have hcopy : (pair .redb).view a₂.shared false = filled 1 := by
    rw [ha₂.1.2]
    rfl
  have hinv : ((pair .redb).storage true).Inv (a₂.shared true) :=
    Backend.inv_of_reachable (ha₂.1.1 true)
  have hwf : (filled 2).WellFormed := howner ▸ Backend.wellFormed hinv
  have hbelow (s' : (pair .redb).Stores) (c : Command) (answer : c.Answer)
      (_ : ((pair .redb).view s' true).current = ((pair .redb).view a₂.shared true).current)
      (hc : ReplayCall c) : (pair .redb).BelowLimit true s' c answer :=
    belowLimit_of_appends fun op hop => by cases hc <;> cases hop <;> rfl
  obtain ⟨p, s', hboots, hruns, hreplayed, -, hothers⟩ :=
    exists_serveReplay hinv (howner.symm ▸ unimpeded_filled hwf) hbelow
  refine ⟨_, _, (hboot.trans (reaches_of_serving hserved hup)).tail ⟨true, .stop⟩, rfl,
    reaches_boot rfl hboots hruns, rfl, ?_, ?_⟩
  · change (((pair .redb).view s' true).current entryLog).toNat = 2
    rw [hreplayed.current_eq, howner]
    exact current_filled 2 (by decide)
  · change ((((pair .redb).storage false).logs (s' false)).current entryLog).toNat = 1
    rw [hothers false (by decide)]
    change (((pair .redb).view a₂.shared false).current entryLog).toNat = 1
    rw [hcopy]
    exact current_filled 1 (by decide)

omit [Formats] in
/-- An owner that has stopped and come back holds both of its acknowledged writes,
and the copy the first of them. -/
theorem acknowledged_survives_restarted : letI := Serde.formats
    ∃ a b, (pair .redb).recordedFleet.Reaches (.init ((pair .redb).fresh, [])) a ∧
      a.phase true = .down ∧ (pair .redb).recordedFleet.Reaches a b ∧ b.phase true = .up ∧
      (acknowledged true entryLog b.shared.2).length = 2 ∧
      (((pair .redb).view b.shared.1 true).log entryLog).map (·.content) =
        ((acknowledged true entryLog b.shared.2).map (·.content)).take 2 ∧
      (((pair .redb).view b.shared.1 false).log entryLog).map (·.content) =
        ((acknowledged true entryLog b.shared.2).map (·.content)).take 1 := by
  let := Serde.formats
  obtain ⟨a, b, hrun, hdown, hlater, hup, htwo, hone⟩ := exists_restarted
  obtain ⟨events, hrecorded⟩ := Lifecycle.Reaches.recorded hrun []
  obtain ⟨events', hrecorded'⟩ := Lifecycle.Reaches.recorded hlater events
  obtain ⟨howner, hall⟩ := acknowledged_survives (distinct_pair .redb)
    (hrecorded.trans hrecorded') true true ⟨"t"⟩
  obtain ⟨hcopy, -⟩ := acknowledged_survives (distinct_pair .redb)
    (hrecorded.trans hrecorded') false true ⟨"t"⟩
  exact ⟨_, _, hrecorded, hdown, hrecorded', hup, hall.symm.trans htwo,
    howner.trans (congrArg (List.take · _) htwo), hcopy.trans (congrArg (List.take · _) hone)⟩

end Msgbus.Network
