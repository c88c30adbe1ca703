import Msgbus.Network.Accepted
import Msgbus.Server.Markers

/-!
# Markers that a pass stores

A pass stores a delete marker in one transaction and applies it in the next.  As
long as applying succeeds, every marker of every daemon is applied or about to
be, whatever its peers send.
-/

namespace Msgbus

variable [Formats]

/-! ## Markers of one daemon -/

def MarkersLive (b : Logs) : Prop :=
  ∀ k n m, b.message k n = some m → m.topic = deleteTopic → m.deleted = false →
    ∃ range, m.Marks range

/-- Every live message on the delete topic carries a range that has been
recorded, and all messages in the range are flagged. -/
def Logs.DeletesApplied (b : Logs) : Prop :=
  ∀ k n m, b.message k n = some m → m.topic = deleteTopic → m.deleted = false →
    ∃ range, Formats.tombstoneRange.fromSlice m.payload = .ok range ∧
      b.tombstone (LogKey.of range.topic range.origin) range.fromHeadId range.toHeadId ∧
      ∀ n' m', b.message (LogKey.of range.topic range.origin) n' = some m' →
        range.fromHeadId ≤ n' → n' ≤ range.toHeadId → m'.deleted = true

theorem Logs.deletesApplied_of_appliedOr {b : Logs} {aboutTo : Command → Prop} (hb : b.WellFormed)
    (hlive : MarkersLive b) (happlied : AppliedOr b aboutTo)
    (hquiet : ∀ range, ¬ aboutTo (.store (TombstoneRange.op range))) : b.DeletesApplied := by
  intro k n m hm htopic hdeleted
  obtain ⟨range, hmarks⟩ := hlive k n m hm htopic hdeleted
  have hrange := (happlied k n m range hm hmarks).resolve_right (hquiet range)
  refine ⟨range, (StoredMessage.marks_iff.mp hmarks).2.2.1, hrange, ?_⟩
  intro n' m' hm' hfirst hlast
  exact hb.covered _ n' m' hm' ⟨_, _, hrange, hfirst, hlast⟩

theorem MarkersLive.step {b b' : Logs} {env : CallEnv} {op : StoreOp} {r : op.Result}
    (h : MarkersLive b) (hstep : Logs.Step env op r b b')
    (happend : ∀ msg, op = .appendMessage msg → msg.topic ≠ deleteTopic)
    (hmarker : ∀ topic origin first last markerTopic markerOrigin,
      op = .tombstoneRangeWithMarker topic origin first last markerTopic markerOrigin →
        markerOrigin = origin)
    (hput : ∀ m, op = .putReplicatedMessage m → m.topic = deleteTopic → m.deleted = false →
      ∃ range, m.Marks range) : MarkersLive b' := by
  intro k n m hm htopic hlive
  rcases Logs.step_message_cases hstep hm with ⟨old, hold, hkeep⟩ | ⟨msg, hop, hstamp⟩ |
    ⟨msg, hop, hnew⟩ | ⟨topic, origin, first, last, markerTopic, markerOrigin, hop, hnew⟩
  · rw [hkeep.eq_of_not_deleted hlive] at hold
    exact h k n m hold htopic hlive
  · have hmsg : msg = m := Logs.eq_of_stamp_live hstamp hlive
    exact hmsg ▸ hput msg hop (hmsg ▸ htopic) (hmsg ▸ hlive)
  · rw [hnew] at htopic
    exact absurd htopic (happend msg hop)
  · refine ⟨⟨topic, origin, first, last, env.now⟩, StoredMessage.marks_iff.mpr ⟨htopic, hlive, ?_, ?_⟩⟩
    · rw [hnew]
      exact Formats.tombstoneRange.fromSlice_toVec _
    · rw [hnew]
      exact hmarker topic origin first last markerTopic markerOrigin hop

def openKnowledge {ι : Type} (node : ι → NodeId) : Knowledge ι Unit where
  node := node
  Later := fun _ _ => True
  refl := fun _ => trivial
  trans := fun _ _ => trivial
  Known := fun _ _ => True
  known_later := fun _ _ => trivial
  Listed := fun _ _ => True
  listed_later := fun _ _ => trivial
  Wanted := fun _ _ _ => True
  Held := fun _ _ _ => True
  held_later := fun _ _ => trivial
  held_of_known := fun _ _ => trivial
  Sent := fun _ _ _ => True
  sent_later := fun _ _ => trivial

theorem Explained.marks {ι : Type} {node : ι → NodeId} {A : Ledger ι} {m : StoredMessage}
    (h : Explained node A m) (htopic : m.topic = deleteTopic) (hlive : m.deleted = false) :
    ∃ range, m.Marks range := by
  obtain ⟨owner, hm⟩ := h
  obtain ⟨range, hslice, horigin, -⟩ := hm.marker htopic
  exact ⟨range, StoredMessage.marks_iff.mpr ⟨htopic, hlive, hslice, hm.origin.trans horigin.symm⟩⟩

/-! ## Markers of a network -/

namespace Network

open System

variable {ι : Type} {N : Network ι}

/-- Every live marker is applied where it is stored, or about to be. -/
def MarkersApplied (a : State ι N.Stores Command Command.Answer) : Prop :=
  ∀ x, AppliedOr (N.view a.shared x) (a.AboutTo x)

theorem markersApplied_init :
    MarkersApplied (.init N.fresh : State ι N.Stores Command Command.Answer) := by
  intro x k n m range hm
  change (N.view N.fresh x).message k n = some m at hm
  rw [view_fresh] at hm
  cases hm

theorem markersApplied_start {a : State ι N.Stores Command Command.Answer} (h : MarkersApplied a)
    (t : ι × Server Unit Unit) :
    MarkersApplied (⟨a.shared, a.tasks ++ [t]⟩ : State ι N.Stores Command Command.Answer) := by
  intro x k n m range hm hmarks
  exact (h x k n m range hm hmarks).imp_right fun habout => habout.start t

variable [DecidableEq ι]

/-- An answer keeps the markers of a daemon applied unless it is the daemon's own
and fails to apply one. -/
theorem appliedOr_answer {W : Type} {K : Knowledge ι W} {w : W}
    {a : State ι N.Stores Command Command.Answer} {n : Nat} {i x : ι} {c : Command}
    {next : c.Answer → Server Unit Unit} {answer : c.Answer} {s' : N.Stores}
    (hinv : N.Inv a.shared) (h : AppliedOr (N.view a.shared x) (a.AboutTo x))
    (htask : a.tasks[n]? = some (i, .call c next))
    (hrequires : K.contract.Requires i w c (fun answer => (next answer).first))
    (hok : x = i → ∀ range, c = .store (TombstoneRange.op range) → c.Succeeds answer)
    (hanswer : N.ExposedAnswers i a.shared c answer s') :
    AppliedOr (N.view s' x) ((⟨s', a.tasks.set n (i, next answer)⟩ :
      State ι N.Stores Command Command.Answer).AboutTo x) := by
  obtain ⟨hallows, hnext⟩ := hrequires
  by_cases hstore : ∃ op, c = .store op
  · obtain ⟨op, rfl⟩ := hstore
    obtain ⟨t, hstored, rfl⟩ := hanswer
    rw [view_update]
    by_cases hx : x = i
    · subst hx
      rw [Function.update_self]
      rcases storeAnswers_cases (hinv x) hstored with
        ⟨env, result, -, rfl, -, hstep⟩ | ⟨⟨e, rfl⟩, rfl⟩
      · refine h.step hstep ?_ ?_ ?_
        · intro c' habout hc'
          exact habout.answer htask (Or.inr hc')
        · rintro msg rfl
          exact hallows.2.1
        · intro m range hop hmarks
          exact State.aboutTo_next htask (hnext m range _ (congrArg _ hop) hmarks ⟨_, rfl⟩)
      -- a call that failed was not one that applies a marker
      · intro k n' m range hm hmarks
        refine (h k n' m range hm hmarks).imp_right fun habout => habout.answer htask (Or.inr ?_)
        intro hc
        obtain ⟨result, hresult⟩ := hok rfl range hc.symm
        cases hresult
    · rw [Function.update_of_ne hx]
      intro k n' m range hm hmarks
      exact (h k n' m range hm hmarks).imp_right fun habout => habout.answer htask (Or.inl hx)
  · have hc : ∀ op, c ≠ .store op := fun op hop => hstore ⟨op, hop⟩
    rw [exposedAnswers_eq_of_ne_store hanswer hc]
    intro k n' m range hm hmarks
    exact (h k n' m range hm hmarks).imp_right fun habout =>
      habout.answer htask (Or.inr (hc _).symm)

theorem markersApplied_answer {W : Type} {K : Knowledge ι W} {view : N.Stores → W}
    {I : N.Stores → Prop} {a : State ι N.Stores Command Command.Answer} {n : Nat} {i : ι}
    {c : Command} {next : c.Answer → Server Unit Unit} {answer : c.Answer} {s' : N.Stores}
    (hkept : Kept K.contract view I a) (hinv : N.Inv a.shared) (h : MarkersApplied a)
    (htask : a.tasks[n]? = some (i, .call c next))
    (hok : ∀ range, c = .store (TombstoneRange.op range) → c.Succeeds answer)
    (hanswer : N.ExposedAnswers i a.shared c answer s') :
    MarkersApplied (⟨s', a.tasks.set n (i, next answer)⟩ :
      State ι N.Stores Command Command.Answer) :=
  fun x => appliedOr_answer hinv (h x) htask (hkept.requires htask) (fun _ => hok) hanswer

/-! ## Runs in which markers are honoured -/

/-- A live message on the delete topic is stored only if it is a marker, and no
range that is to be applied fails. -/
def Honoured (N : Network ι) (_ : ι) (_ : N.Stores) : (c : Command) → c.Answer → Prop
  | .store (.putReplicatedMessage m), (answer : Except MsgbusError ReplicateResult) =>
      (∃ result, answer = .ok result) → m.topic = deleteTopic → m.deleted = false →
        ∃ range, m.Marks range
  | .store (.tombstoneRange _ _ _ _), (answer : Except MsgbusError UInt64) =>
      ∃ count, answer = .ok count
  | _, _ => True

theorem honours_open :
    N.exposed.Honours (openKnowledge N.node).contract (fun _ => ()) N.Inv := by
  apply Knowledge.honours_of_calls
  · rintro i s op answer s' hs - ⟨t, hstore, rfl⟩
    refine ⟨?_, trivial, ?_⟩
    · rcases storeAnswers_cases (hs i) hstore with ⟨-, -, -, -, ht, -⟩ | ⟨-, rfl⟩
      · exact inv_update hs ht
      · rw [Function.update_eq_self]
        exact hs
    · cases op with
      | fetchMessages query => exact fun _ _ _ _ => trivial
      | appendMessage msg => exact fun _ _ => trivial
      | getHead topic origin => exact fun _ _ _ _ _ _ _ => trivial
      | putReplicatedMessage m => exact fun _ => trivial
      | tombstoneRangeWithMarker topic origin first last markerTopic markerOrigin =>
          exact fun _ _ => trivial
      | _ => trivial
  · intro i s c answer s' hs hc hanswer
    cases exposedAnswers_eq_of_ne_store hanswer hc
    exact ⟨hs, trivial⟩
  · intro i s id s' hanswer
    exact hanswer.1
  · exact fun _ _ _ _ _ _ _ _ _ _ _ => trivial
  · exact fun _ _ _ _ _ _ _ _ _ _ _ _ _ _ _ => trivial

theorem markersLive_answer {i : ι} {s s' : N.Stores} {c : Command} {answer : c.Answer}
    (hinv : N.Inv s) (h : ∀ x, MarkersLive (N.view s x))
    (hallows : (openKnowledge N.node).Allows i () c)
    (hanswer : (N.exposed.restrict N.Honoured).Answers i s c answer s') (x : ι) :
    MarkersLive (N.view s' x) := by
  obtain ⟨hcond, hanswer⟩ := hanswer
  by_cases hstore : ∃ op, c = .store op
  · obtain ⟨op, rfl⟩ := hstore
    obtain ⟨t, hstored, rfl⟩ := hanswer
    rw [view_update]
    refine (Function.forall_update_iff (N.view s) fun _ b => MarkersLive b).mpr
      ⟨?_, fun j _ => h j⟩ x
    rcases storeAnswers_cases (hinv i) hstored with ⟨env, result, -, rfl, -, hstep⟩ | ⟨-, rfl⟩
    · refine (h i).step hstep ?_ ?_ ?_
      · rintro msg rfl
        exact hallows.2.1
      · rintro topic origin first last markerTopic markerOrigin rfl
        exact hallows.2.2.2.trans hallows.1.symm
      · rintro m rfl htopic hlive
        exact hcond ⟨result, rfl⟩ htopic hlive
    · exact h i
  · rw [exposedAnswers_eq_of_ne_store hanswer fun op hop => hstore ⟨op, hop⟩]
    exact h x

/-- While markers are honoured, only they are live on the delete topics, and each
is applied or about to be. -/
theorem markers_of_reaches {a : State ι N.Stores Command Command.Answer}
    (hrun : (N.exposed.restrict N.Honoured).Reaches (.init N.fresh) a) :
    N.Inv a.shared ∧ (∀ x, MarkersLive (N.view a.shared x)) ∧ MarkersApplied a := by
  have hkept : ∀ {b : State ι N.Stores Command Command.Answer},
      (N.exposed.restrict N.Honoured).Reaches (.init N.fresh) b →
        Kept (openKnowledge N.node).contract (fun _ => ()) N.Inv b := fun hreach =>
    System.kept_of_reaches (fun _ _ w hstarts => meets_of_starts rfl hstarts w)
      (honours_open.restrict _) inv_fresh hreach
  refine ⟨(hkept hrun).1, ?_⟩
  induction hrun with
  | refl =>
      refine ⟨?_, markersApplied_init⟩
      intro x k n m hm
      change (N.view N.fresh x).message k n = some m at hm
      rw [view_fresh] at hm
      cases hm
  | tail hreach hstep ih =>
      have hbefore := hkept hreach
      cases hstep with
      | start hstart => exact ⟨ih.1, markersApplied_start ih.2 _⟩
      | answer htask hanswer =>
          refine ⟨markersLive_answer hbefore.1 ih.1 (hbefore.requires htask).1 hanswer, ?_⟩
          refine markersApplied_answer hbefore hbefore.1 ih.2 htask ?_ hanswer.2
          rintro range rfl
          exact hanswer.1

/-- In every run in which markers are honoured, whatever peers send and whatever
other calls fail: when no task of a daemon is between storing and applying a
marker, as when a pass has just returned, every live delete message of the daemon
has its range recorded and the messages in the range flagged. -/
theorem deletes_applied {a : State ι N.Stores Command Command.Answer}
    (hrun : (N.exposed.restrict N.Honoured).Reaches (.init N.fresh) a) (i : ι)
    (hquiet : ∀ range, ¬ a.AboutTo i (.store (TombstoneRange.op range))) :
    (N.view a.shared i).DeletesApplied := by
  obtain ⟨hinv, hlive, happlied⟩ := markers_of_reaches hrun
  exact Logs.deletesApplied_of_appliedOr (wellFormed_view hinv i) (hlive i) (happlied i) hquiet

/-- Among honest daemons markers are honoured as long as ranges are applied. -/
theorem honoured_of_reaches (hdistinct : N.Distinct) {a : State ι N.Stores Command Command.Answer}
    {Cond : ι → N.Stores → (c : Command) → c.Answer → Prop}
    (hcond : ∀ i s range answer, Cond i s (.store (TombstoneRange.op range)) answer →
      ∃ count, answer = .ok count)
    (hrun : (N.system.restrict Cond).Reaches (.init N.fresh) a) :
    (N.exposed.restrict N.Honoured).Reaches (.init N.fresh) a := by
  induction hrun with
  | refl => exact .refl
  | tail hreach hstep ih =>
      cases hstep with
      | start hstart => exact ih.tail (.start hstart)
      | @answer n i c next answer s' htask hanswer =>
          refine ih.tail (.answer htask ⟨?_, (exposedAnswers_of_answers hanswer).2⟩)
          obtain ⟨events, htraced, -⟩ := Reaches.traced hreach
          have hkept := System.kept_of_reaches
            (fun _ _ w hstarts => meets_of_starts rfl hstarts w)
            (honours_accounts hdistinct) accountsKept_fresh htraced
          have hallows := (hkept.requires htask).1
          cases c with
          | store op =>
              cases op with
              | putReplicatedMessage m => exact fun _ htopic hlive => hallows.1.marks htopic hlive
              | tombstoneRange topic origin first last =>
                  exact hcond i _ ⟨topic, origin, first, last, 0⟩ answer hanswer.1
              | _ => trivial
          | _ => trivial

/-! ## A delete of one daemon at another -/

section Pair

noncomputable def deletedLogs (first last : HeadId) : Logs :=
  (Logs.empty.mark (LogKey.of ⟨"t"⟩ ⟨"a", "b", "c"⟩) first last).append
    (Logs.marker ⟨"t"⟩ ⟨"a", "b", "c"⟩ first last deleteTopic ⟨"a", "b", "c"⟩ ⟨0, 0, ⟨"m"⟩⟩) 0

def firstMarker (first last : HeadId) : StoredMessage :=
  ⟨⟨"m"⟩, deleteTopic, ⟨"a", "b", "c"⟩, 1,
    Formats.tombstoneRange.encode ⟨⟨"t"⟩, ⟨"a", "b", "c"⟩, first, last, 0⟩, .empty, 0, false⟩

variable {kind : StorageKind} {first last : HeadId}

theorem firstMarker_marks : (firstMarker first last).Marks ⟨⟨"t"⟩, ⟨"a", "b", "c"⟩, first, last, 0⟩ :=
  StoredMessage.marks_iff.mpr ⟨rfl, rfl, Formats.tombstoneRange.fromSlice_toVec _, rfl⟩

theorem deletedLogs_eq : deletedLogs first last =
    (Logs.empty.mark (LogKey.of ⟨"t"⟩ ⟨"a", "b", "c"⟩) first last).write
      (LogKey.of deleteTopic ⟨"a", "b", "c"⟩) 1 (firstMarker first last) := by
  have hother : ¬ (Logs.empty.mark (LogKey.of ⟨"t"⟩ ⟨"a", "b", "c"⟩) first last).Covers
      (firstMarker first last).log (firstMarker first last).headId := by
    rintro ⟨f, l, hrange | ⟨hlog, -⟩, -⟩
    · exact hrange
    · exact absurd hlog (show LogKey.of deleteTopic ⟨"a", "b", "c"⟩ ≠ LogKey.of ⟨"t"⟩ _ by decide)
  have hstamp : (Logs.empty.mark (LogKey.of ⟨"t"⟩ ⟨"a", "b", "c"⟩) first last).stamp
      (firstMarker first last) = firstMarker first last :=
    Logs.stamp_eq_self_iff.mpr (Or.inr hother)
  rw [deletedLogs, Logs.append]
  exact congrArg (Logs.write _ _ 1) hstamp

theorem oneAhead_deleted : (pair kind).OneAhead
    (Function.update (fun _ => Logs.empty) true (deletedLogs first last)) false true
      ⟨deleteTopic, ⟨"a", "b", "c"⟩, 1⟩ (firstMarker first last) where
  lists := by
    intro head
    rw [Function.update_self, deletedLogs_eq]
    exact Logs.isHead_write_iff (fun _ _ => rfl) rfl head
  message := by
    rw [Function.update_self, deletedLogs_eq]
    exact Logs.write_message_self
  behind := rfl
  topic := rfl
  origin := rfl
  validTopic := (by decide : ValidPart "$msgbus.delete")
  validOrigin := (by decide : NodeId.Valid ⟨"a", "b", "c"⟩)
  validId := (by decide : ValidPart "m")
  reads := fun _ _ => trivial

variable {Cond : Bool → (pair kind).Stores → (c : Command) → c.Answer → Prop}

theorem exists_deleted (hcond : (pair kind).Lenient Cond)
    (hpermits : (pair kind).Permits Cond true (fun _ => Logs.empty)
      (· = .tombstoneRangeWithMarker ⟨"t"⟩ ((pair kind).node true) first last deleteTopic
        ((pair kind).node true))) (hle : first ≤ last) :
    ∃ a, ((pair kind).system.restrict Cond).Reaches (.init (pair kind).fresh) a ∧
      (pair kind).Rests (Function.update (fun _ => Logs.empty) true (deletedLogs first last)) a :=
  rests_init.exists_deleteRange ⟨0, 0, ⟨"m"⟩⟩ "t" first last (by decide) (by decide) (by decide) hle
    hcond hpermits trivial

def copiedLogs (first last : HeadId) : Logs :=
  Logs.empty.write (LogKey.of deleteTopic ⟨"a", "b", "c"⟩) 1 (firstMarker first last)

noncomputable def copiedPair (first last : HeadId) : Bool → Logs :=
  Function.update (Function.update (fun _ => Logs.empty) true (deletedLogs first last)) false
    (copiedLogs first last)

theorem copiedLogs_eq : copiedLogs first last = Logs.empty.write (firstMarker first last).log
    (firstMarker first last).headId (Logs.empty.stamp (firstMarker first last)) := by
  rw [Logs.stamp_eq_self_iff.mpr (Or.inr fun ⟨_, _, hrange, _⟩ => hrange)]
  rfl

theorem exists_copied {e : MsgbusError} (hcond : (pair kind).Lenient Cond)
    (hpermits : (pair kind).Permits Cond true (fun _ => Logs.empty)
      (· = .tombstoneRangeWithMarker ⟨"t"⟩ ((pair kind).node true) first last deleteTopic
        ((pair kind).node true))) (hle : first ≤ last)
    (haccepts : @Backend.Accepts _ kind.Store (instBackendStore _) Logs.empty ⟨0, 0, ⟨"m"⟩⟩
      (.putReplicatedMessage (firstMarker first last)))
    (hrefused : ∀ s, (pair kind).Settled (copiedPair first last) s →
      ((pair kind).system.restrict Cond).Answers false s
        (.store (TombstoneRange.op ⟨⟨"t"⟩, ⟨"a", "b", "c"⟩, first, last, 0⟩)) (Except.error e) s) :
    ∃ a, ((pair kind).system.restrict Cond).Reaches (.init (pair kind).fresh) a ∧
      (pair kind).Rests (copiedPair first last) a := by
  obtain ⟨a₁, hdelete, ha₁⟩ := exists_deleted hcond hpermits hle
  have hresolve : (pair kind).resolve "peer" = some true := rfl
  have hne : (pair kind).node true ≠ (pair kind).node false :=
    (by decide : (⟨"a", "b", "c"⟩ : NodeId) ≠ ⟨"x", "y", "z"⟩)
  obtain ⟨a₂, hpass, ha₂⟩ := ha₁.exists_syncOnce_refused oneAhead_deleted hcond hresolve hne
    firstMarker_marks haccepts copiedLogs_eq hrefused 1
  exact ⟨a₂, hdelete.trans hpass, ha₂⟩

theorem runs_syncOnce_copied (hcond : (pair kind).Lenient Cond) {s : (pair kind).Stores}
    (hs : (pair kind).Settled (copiedPair first last) s) :
    ∃ s', Program.Runs (((pair kind).system.restrict Cond).Answers false) s
        (syncOnce ⟨(pair kind).node false, [⟨"peer", none⟩], 1⟩) (.ok ()) s' ∧
      (pair kind).Settled (copiedPair first last) s' := by
  have hresolve : (pair kind).resolve "peer" = some true := rfl
  have hne : (pair kind).node true ≠ (pair kind).node false :=
    (by decide : (⟨"a", "b", "c"⟩ : NodeId) ≠ ⟨"x", "y", "z"⟩)
  have hahead : (pair kind).OneAhead
      (Function.update (fun _ => Logs.empty) true (deletedLogs first last)) false true
      ⟨deleteTopic, ⟨"a", "b", "c"⟩, 1⟩ (firstMarker first last) := oneAhead_deleted
  have hlists : ListsOne (((pair kind).system.restrict Cond).Answers false)
      ((pair kind).Settled (copiedPair first last)) ((pair kind).Settled (copiedPair first last))
      ((pair kind).node false) ⟨"peer", none⟩ _ ⟨deleteTopic, ⟨"a", "b", "c"⟩, 1⟩ :=
    hcond.lists hresolve hne hahead.lists hahead.validTopic hahead.validOrigin trivial
  refine hlists.runs_syncOnce hlists.calm (fun s hs => ?_) hs
  exact hlists.calm.runs_syncHead (fun s hs => ⟨s, hs.getHead hcond _ _, hs⟩) (UInt64.le_refl 1) hs

theorem not_deletesApplied_copied : ¬ (copiedLogs first last).DeletesApplied := by
  intro happlied
  obtain ⟨range, -, hrange, -⟩ := happlied _ 1 (firstMarker first last) Logs.write_message_self rfl rfl
  exact hrange

omit [Formats] in
/-- A marker is stored and the call that applies it fails; the next pass succeeds
and the marker is still not applied. -/
theorem marker_left_unapplied : letI := Serde.formats
    ∃ (a : State Bool (pair .redb).Stores Command Command.Answer) (s' : (pair .redb).Stores),
      (pair .redb).system.Reaches (.init (pair .redb).fresh) a ∧ (∀ x c, ¬ a.AboutTo x c) ∧
      Program.Runs ((pair .redb).system.Answers false) a.shared
        (syncOnce ⟨(pair .redb).node false, [⟨"peer", none⟩], 1⟩) (.ok ()) s' ∧
      ¬ ((pair .redb).view s' false).DeletesApplied := by
  let := Serde.formats
  let Cond : Bool → (pair .redb).Stores → (c : Command) → c.Answer → Prop := fun _ _ _ _ => True
  have hcond : (pair .redb).Lenient Cond := fun _ _ _ _ _ _ _ _ => trivial
  obtain ⟨a, hrun, ha⟩ := exists_copied hcond (fun _ _ _ _ _ _ => trivial)
    (show (1 : HeadId) ≤ 1 by decide) trivial
    fun s _ => ⟨trivial, s false, Or.inr ⟨"disk", rfl, rfl⟩, (Function.update_eq_self false s).symm⟩
  obtain ⟨s', hpass, hs'⟩ := runs_syncOnce_copied hcond ha.1
  refine ⟨a, s', Reaches.of_restrict hrun, fun x c => ha.not_aboutTo c,
    hpass.mono fun _ _ _ _ hanswer => hanswer.2, ?_⟩
  rw [hs'.2]
  exact not_deletesApplied_copied

omit [Formats] in
theorem deletes_applied_pass : letI := Serde.formats
    ∃ a, ((pair .redb).exposed.restrict (pair .redb).Honoured).Reaches
        (.init (pair .redb).fresh) a ∧ (∀ c, ¬ a.AboutTo false c) ∧
      ((pair .redb).view a.shared false).message (LogKey.of deleteTopic ⟨"a", "b", "c"⟩) 1 =
        some (firstMarker 1 1) ∧
      ((pair .redb).view a.shared false).DeletesApplied := by
  let := Serde.formats
  let Cond : Bool → (pair .redb).Stores → (c : Command) → c.Answer → Prop :=
    fun _ _ c answer => c.Succeeds answer
  have hcond : (pair .redb).Lenient Cond := fun _ _ _ _ _ _ _ hok => hok
  have hresolve : (pair .redb).resolve "peer" = some true := rfl
  obtain ⟨a₁, hdelete, ha₁⟩ := exists_deleted hcond (fun _ _ _ _ _ hok => hok)
    (show (1 : HeadId) ≤ 1 by decide)
  obtain ⟨a₂, hpass, ha₂⟩ := ha₁.exists_syncOnce_marks oneAhead_deleted hcond hresolve (by decide)
    firstMarker_marks trivial copiedLogs_eq trivial (UInt64.le_refl 1) 1
  have hrun := honoured_of_reaches (distinct_pair .redb) (fun _ _ _ _ hok => hok)
    (hdelete.trans hpass)
  refine ⟨a₂, hrun, fun c => ha₂.not_aboutTo c, ?_,
    deletes_applied hrun false fun range => ha₂.not_aboutTo _⟩
  have hother : LogKey.of deleteTopic ⟨"a", "b", "c"⟩ ≠ LogKey.of ⟨"t"⟩ ⟨"a", "b", "c"⟩ := by decide
  rw [ha₂.1.2, Function.update_self, Logs.mark_message_of_ne_log hother]
  exact Logs.write_message_self

end Pair

end Network

end Msgbus
