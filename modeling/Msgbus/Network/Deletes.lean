import Msgbus.Network.Completion
import Msgbus.Network.Markers

/-!
# Deletes converge

While store calls succeed, every delete marker that reaches a daemon is applied
there before anything else happens to the task that stored it.  So once a daemon
holds the whole delete log of an owner, its copies of the owner's logs carry
exactly the owner's flags.
-/

namespace Msgbus.Network

open System

variable [Formats] {ι : Type} {N : Network ι}

/-- Store calls succeed, and no append goes to a log at its counter limit. -/
def Succeeding (N : Network ι) (i : ι) (s : N.Stores) (c : Command) (answer : c.Answer) : Prop :=
  N.BelowLimit i s c answer ∧ c.Succeeds answer

variable [DecidableEq ι]

/-- While store calls succeed, the replicas agree and every live marker is
applied or about to be. -/
theorem markersApplied_of_reaches (hdistinct : N.Distinct)
    {a : State ι N.Stores Command Command.Answer}
    (hrun : (N.system.restrict N.Succeeding).Reaches (.init N.fresh) a) :
    N.Agrees a.shared ∧ MarkersApplied a := by
  have hcond : ∀ i s c answer, N.Succeeding i s c answer → N.BelowLimit i s c answer :=
    fun _ _ _ _ h => h.1
  refine ⟨(kept_of_reaches hdistinct hcond hrun).1, ?_⟩
  induction hrun with
  | refl => exact markersApplied_init
  | tail hreach hstep ih =>
      have hkept := kept_of_reaches hdistinct hcond hreach
      cases hstep with
      | start hstart => exact markersApplied_start ih _
      | answer htask hanswer =>
          exact markersApplied_answer hkept hkept.1.1 ih htask (fun _ _ => hanswer.1.2)
            (exposedAnswers_of_answers hanswer).2

omit [DecidableEq ι] in
/-- No range is about a delete log, so an owner never flags its markers. -/
theorem Agrees.marker_live {s : N.Stores} (hs : N.Agrees s) {owner : ι} {n : UInt64}
    {m : StoredMessage}
    (hm : (N.view s owner).message (LogKey.of deleteTopic (N.node owner)) n = some m) :
    m.deleted = false := by
  rw [← Bool.not_eq_true]
  intro hdeleted
  obtain ⟨first, last, hrange, -⟩ := hs.2.1.owned owner _ n m rfl hm hdeleted
  exact (hs.2.1.ranges owner _ first last hrange).1 rfl

omit [DecidableEq ι] in
theorem Agrees.marker_at {s : N.Stores} (hdistinct : N.Distinct) (hs : N.Agrees s) {x owner : ι}
    {n : UInt64} {m : StoredMessage}
    (hhead : (N.view s x).head (LogKey.of deleteTopic (N.node owner)) =
      (N.view s owner).head (LogKey.of deleteTopic (N.node owner)))
    (hm : (N.view s owner).message (LogKey.of deleteTopic (N.node owner)) n = some m) :
    (N.view s x).message (LogKey.of deleteTopic (N.node owner)) n = some m ∧
      m.origin = N.node owner := by
  have hwf := wellFormed_view hs.1
  have hsome : ((N.view s owner).message (LogKey.of deleteTopic (N.node owner)) n).isSome := by
    rw [hm]
    rfl
  have hheld : ((N.view s x).message (LogKey.of deleteTopic (N.node owner)) n).isSome := by
    rw [(hwf x).contiguous, Logs.current, hhead]
    exact ((hwf owner).contiguous _ _).mp hsome
  obtain ⟨c, hc⟩ := Option.isSome_iff_exists.mp hheld
  obtain ⟨hpos, hlog⟩ := (hwf x).positioned _ _ c hc
  have howner : c.log.origin = (N.node owner).key := by
    rw [hlog]
    rfl
  obtain ⟨horigin, m', hm', hkeep⟩ := (hs.2.1.vouched x _ _ c hc).at_owner hdistinct howner
  rw [hlog, hpos, hm] at hm'
  cases hm'
  rw [hkeep.eq_of_not_deleted (hs.marker_live hm)] at hc horigin
  exact ⟨hc, horigin⟩

/-- In every run below the counter limit in which store calls succeed: when a
daemon holds the whole delete log of an owner and has none of its markers still to
apply, its copy of each log of the owner is a prefix of the owner's, deleted flags
included.  A replay, which applies again what has been applied, does not matter. -/
theorem deletes_converge (hdistinct : N.Distinct) {a : State ι N.Stores Command Command.Answer}
    (hrun : (N.system.restrict N.Succeeding).Reaches (.init N.fresh) a) {x owner : ι}
    (hquiet : ∀ range, a.AboutTo x (.store (TombstoneRange.op range)) →
      (N.view a.shared x).tombstone (LogKey.of range.topic range.origin) range.fromHeadId
        range.toHeadId)
    (hhead : (N.view a.shared x).head (LogKey.of deleteTopic (N.node owner)) =
      (N.view a.shared owner).head (LogKey.of deleteTopic (N.node owner)))
    (topic : Topic) :
    (N.view a.shared x).log (LogKey.of topic (N.node owner)) <+:
      (N.view a.shared owner).log (LogKey.of topic (N.node owner)) := by
  obtain ⟨hs, happlied⟩ := markersApplied_of_reaches hdistinct hrun
  have hwf := wellFormed_view hs.1
  have hlogs := Logs.map_log_prefix (f := id) (k := LogKey.of topic (N.node owner))
    (hwf x) (hwf owner)
  simp only [List.map_id, id_eq] at hlogs
  apply hlogs
  intro n m hm
  obtain ⟨hpos, hlog⟩ := (hwf x).positioned _ n m hm
  have howner : m.log.origin = (N.node owner).key := by
    rw [hlog]
    rfl
  obtain ⟨-, m', hm', hkeep⟩ := (hs.2.1.vouched x _ n m hm).at_owner hdistinct howner
  rw [hlog, hpos] at hm'
  refine ⟨m', hm', ?_⟩
  cases hdeleted : m'.deleted with
  | false => exact (hkeep.eq_of_not_deleted hdeleted).symm
  | true =>
      -- The owner flagged the message for a range, which it issued as a marker.
      obtain ⟨first, last, hrange, hfirst, hlast⟩ := hs.2.1.owned owner _ n m' rfl hm' hdeleted
      obtain ⟨c, marker, range, hmarker, hslice, hop⟩ := hs.2.2.issued owner _ _ _ rfl hrange
      obtain ⟨htopic, horigin, hfrom, hto⟩ := StoreOp.tombstoneRange.inj hop
      obtain ⟨hheld, hnode⟩ := hs.marker_at hdistinct hhead hmarker
      have hlive := hs.marker_live hmarker
      have hmarks : marker.Marks range := by
        refine StoredMessage.marks_iff.mpr ⟨?_, hlive, hslice, by rw [hnode, horigin]⟩
        exact congrArg LogKey.topic ((hwf x).positioned _ _ _ hheld).2
      -- The marker has arrived here and has been applied, so the copy is flagged too.
      have hrecorded := (happlied x _ _ marker range hheld hmarks).elim id (hquiet range)
      rw [htopic, horigin, hfrom, hto] at hrecorded
      have hflag := (hwf x).covered _ n m hm ⟨first, last, hrecorded, hfirst, hlast⟩
      rw [hkeep.1, hdeleted, StoredMessage.withDeleted_of_eq hflag]

omit [DecidableEq ι] in
theorem roomy_succeeding : N.Roomy N.Succeeding :=
  fun i w op hroom s c answer hs hc hok => ⟨roomy_belowLimit i w op hroom s c answer hs hc hok, hok⟩

omit [Formats] in
/-- The deleted message and its marker arrive at another daemon, and its copy is
flagged. -/
theorem deletes_converge_removed : letI := Serde.formats
    ∃ (a : State Bool (pair .redb).Stores Command Command.Answer) (m : StoredMessage),
      ((pair .redb).system.restrict (pair .redb).Succeeding).Reaches
        (.init (pair .redb).fresh) a ∧
      ((pair .redb).view a.shared false).head (LogKey.of deleteTopic ((pair .redb).node true)) =
        some 1 ∧
      ((pair .redb).view a.shared true).message entryLog 1 = some m ∧ m.deleted = true ∧
      ((pair .redb).view a.shared false).message entryLog 1 = some m := by
  let := Serde.formats
  obtain ⟨a, hrun, hended, howner, hcopy⟩ := exists_removed_taken roomy_succeeding
    (fun _ _ _ _ h => h.1)
    (fun _ _ _ _ happends hdone => ⟨belowLimit_of_appends happends, hdone.succeeds⟩)
  obtain ⟨m, hm, hdeleted⟩ := deleted_removedLogs
  obtain ⟨hentry, hmarkers⟩ := head_removedLogs
  have hwf := wellFormed_view (markersApplied_of_reaches (distinct_pair .redb) hrun).1.1
  have hlength : ((pair .redb).view a.shared false).current entryLog = 1 := by
    rw [hcopy, Logs.current, head_caughtUp_removed hentry]
    rfl
  have hcopied : ((pair .redb).view a.shared false).head
      (LogKey.of deleteTopic ((pair .redb).node true)) = some 1 := by
    rw [hcopy]
    exact head_caughtUp_removed hmarkers
  have howned : ((pair .redb).view a.shared true).head
      (LogKey.of deleteTopic ((pair .redb).node true)) = some 1 := by
    rw [howner]
    exact hmarkers
  have hconverged : ((pair .redb).view a.shared false).log entryLog <+:
      ((pair .redb).view a.shared true).log entryLog :=
    deletes_converge (distinct_pair .redb) hrun
      (fun range habout => absurd habout (State.not_aboutTo_of_ended hended))
      (hcopied.trans howned.symm) ⟨"t"⟩
  obtain ⟨m', hm'⟩ := Option.isSome_iff_exists.mp
    (((hwf false).contiguous entryLog 1).mpr ⟨Nat.le_refl _, by rw [hlength]⟩)
  have hposition : m'.headId = 1 := ((hwf false).positioned _ _ _ hm').1
  have hmem := hconverged.mem ((Logs.mem_log (hwf false)).mpr (by rw [hposition]; exact hm'))
  have hsame := (Logs.mem_log (hwf true)).mp hmem
  rw [hposition, howner, hm] at hsame
  cases hsame
  exact ⟨a, m, hrun, hcopied, by rw [howner]; exact hm, hdeleted, hm'⟩

omit [Formats] in
/-- Above the limit the copy of a log can differ from the owner's although the
delete logs are the same. -/
theorem overwritten_copy_diverges : letI := Serde.formats
    (pair .redb).Distinct ∧
      ∃ a, ((pair .redb).system.restrict fun _ _ c answer => c.Succeeds answer).Reaches
          (.init (pair .redb).fresh) a ∧
        (∀ x range, ¬ a.AboutTo x (.store (TombstoneRange.op range))) ∧
        ((pair .redb).view a.shared false).head (LogKey.of deleteTopic ((pair .redb).node true)) =
          ((pair .redb).view a.shared true).head
            (LogKey.of deleteTopic ((pair .redb).node true)) ∧
        ¬ ((pair .redb).view a.shared false).log entryLog <+:
          ((pair .redb).view a.shared true).log entryLog := by
  let := Serde.formats
  let Cond : Bool → (pair .redb).Stores → (c : Command) → c.Answer → Prop :=
    fun _ _ c answer => c.Succeeds answer
  have hcond : (pair .redb).Lenient Cond := fun _ _ _ _ _ _ _ hok => hok
  obtain ⟨a, m, m', hrun, ⟨w, ha⟩, hheads, hm, hm', hpayload, hpayload'⟩ :=
    exists_overwritten hcond fun _ _ _ _ _ _ _ hok => hok
  have hwf := fun x => wellFormed_view (fun i => Backend.inv_of_reachable (ha.1.1 i)) x
  refine ⟨distinct_pair .redb, a, hrun, fun x range => ha.not_aboutTo _, ?_, ?_⟩
  · rw [hheads false _ (by decide), hheads true _ (by decide)]
  · intro hcopied
    have hmem : m ∈ ((pair .redb).view a.shared true).log entryLog :=
      hcopied.mem ((Logs.mem_log (hwf false)).mpr
        (by rw [((hwf false).positioned _ _ _ hm).1]; exact hm))
    have hsame := (Logs.mem_log (hwf true)).mp hmem
    rw [((hwf false).positioned _ _ _ hm).1, hm'] at hsame
    cases hsame
    rw [hpayload] at hpayload'
    exact absurd hpayload' (by decide)

end Msgbus.Network
