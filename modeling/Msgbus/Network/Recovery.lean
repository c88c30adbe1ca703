import Msgbus.Lib.Lifecycle
import Msgbus.Network.Restart
import Msgbus.Server.Calls

/-!
# Daemons that stop and come back

A daemon may stop at any moment, between storing a marker and applying it as
well.  What its transactions have stored stays.  `serve` replays the delete logs
before the daemon takes requests, so a daemon that serves has caught up on its
markers, whatever had failed before.
-/

namespace Msgbus

open Program System Lifecycle

variable [Formats]

/-- What `serve` does before the daemon takes requests.  A replay that is out of
fuel has not come to its end. -/
def serveReplay (fuel : Nat) : Server Unit Unit :=
  ((replayControlMessages fuel).mapError fun _ => ()) >>= fun done =>
    .ofExcept (done.elim (.error ()) .ok)

namespace StorageKind

variable {kind : StorageKind} {s : kind.Store}

/-- If it returns, every live marker of the store has been applied. -/
theorem performs_serveReplay (hs : kind.Inv s)
    (hbelow : ∀ k, k.topic = deleteTopic → (kind.logs s).current k ≠ UInt64.maxValue) {fuel : Nat}
    (hfuel : 2 ^ 64 ≤ fuel) :
    Performs HandlerAnswers StoreCall (serveReplay fuel)
      (fun out s' => out = .ok () → AppliedOr (kind.logs s') fun _ => False) s := by
  have hreplay := (goes_handler hs hbelow).performs_replayControlMessages hs hfuel
  have happlied : Performs HandlerAnswers StoreCall
      ((replayControlMessages fuel).mapError fun _ => ())
      (fun out s' => ∀ done, out = .ok done → AppliedOr (kind.logs s') fun _ => False) s := by
    refine Performs.mapError (hreplay.consequence ?_)
    rintro (e | r) s' hends done hdone
    · cases hdone
    · obtain ⟨-, -, -, hhandled⟩ := hends
      intro k n m range hm hmarks
      exact Or.inl ((hhandled k n m hm (StoredMessage.marks_iff.mp hmarks).1).recorded hmarks)
  refine happlied.bind ?_ ?_
  · intro done s' hdone
    exact performs_ofExcept fun _ => hdone done rfl
  · intro e s' _ herror
    cases herror

end StorageKind

namespace Network

variable {ι : Type}

def Boots (_ : ι) (p : Server Unit Unit) : Prop := ∃ fuel, 2 ^ 64 ≤ fuel ∧ p = serveReplay fuel

/-- Daemons that stop and come back, with conditions on the answers to those that
serve and to those that start. -/
def lifecycle (N : Network ι) (sys : System ι N.Stores Command Command.Answer)
    (Serving Booting : ι → N.Stores → (c : Command) → c.Answer → Prop) :
    Lifecycle ι N.Stores Command Command.Answer where
  serving := sys.restrict Serving
  booting := ⟨Boots, (sys.restrict Booting).Answers⟩

variable {N : Network ι} {i : ι} {p : Server Unit Unit}

/-- The daemon's delete logs are not full. -/
def Below (N : Network ι) (i : ι) (s : N.Stores) (c : Command) (_ : c.Answer) : Prop :=
  ∀ k, k.topic = deleteTopic → (N.view s i).current k ≠ UInt64.maxValue

/-- No range that the daemon is to apply while it serves fails. -/
def AppliesAt (i : ι) {S : Type} (j : ι) (_ : S) (c : Command) (answer : c.Answer) : Prop :=
  j = i → ∀ range, c = .store (TombstoneRange.op range) → c.Succeeds answer

theorem meets_of_boots {W : Type} {K : Knowledge ι W} (h : Boots i p) (w : W) :
    K.contract.Meets i p (fun _ _ => True) w := by
  obtain ⟨fuel, -, rfl⟩ := h
  have hkeeps : K.contract.Keeps i (serveReplay fuel) w :=
    Contract.keeps_bind (Contract.keeps_mapError (Knowledge.keeps_replayControlMessages fuel))
      fun _ _ _ => Contract.keeps_ofExcept _
  exact hkeeps.consequence fun _ _ _ => trivial

/-! ## What a daemon that serves has caught up on -/

def Catching (N : Network ι) (i : ι) (s : N.Stores) (p : Server Unit Unit) : Prop :=
  Boots i p ∨ Performs HandlerAnswers StorageKind.StoreCall p
    (fun out t => out = .ok () → AppliedOr ((N.storage i).logs t) fun _ => False) (s i)

/-- A daemon that starts is catching up, and one that serves has every live
marker applied or is about to apply it. -/
structure Recovered (N : Network ι) (i : ι) (a : Fleet ι N.Stores Command Command.Answer) :
    Prop where
  booting : ∀ (n : Nat) p, a.phase i = .booting n → a.tasks[n]? = some (i, p) →
    N.Catching i a.shared p
  up : a.phase i = .up → AppliedOr (N.view a.shared i) (a.AboutTo i)

variable {a b : Fleet ι N.Stores Command Command.Answer}

theorem recovered_of_down (h : a.phase i = .down) : N.Recovered i a where
  booting := by
    intro n p hbooting
    rw [h] at hbooting
    cases hbooting
  up := by
    intro hup
    rw [h] at hup
    cases hup

theorem Recovered.untouched (h : N.Recovered i a) (hsame : b.shared i = a.shared i)
    (htouched : Untouched i a b) : N.Recovered i b where
  booting := by
    intro n p hphase htask
    rw [htouched.phase] at hphase
    have hcatching := h.booting n p hphase ((htouched.tasks n p).mp htask)
    unfold Catching
    rw [hsame]
    exact hcatching
  up := by
    intro hup
    rw [htouched.phase] at hup
    intro k n m range hm hmarks
    unfold view at hm ⊢
    rw [hsame] at hm ⊢
    exact (h.up hup k n m range hm hmarks).imp_right htouched.aboutTo

variable [DecidableEq ι]

theorem Catching.answer {s s' : N.Stores} {c : Command} {next : c.Answer → Server Unit Unit}
    {answer : c.Answer} (h : N.Catching i s (.call c next)) (hinv : N.Inv s)
    (hbelow : N.Below i s c answer) (hanswer : N.ExposedAnswers i s c answer s') :
    N.Catching i s' (next answer) := by
  have hperforms : Performs HandlerAnswers StorageKind.StoreCall (.call c next)
      (fun out t => out = .ok () → AppliedOr ((N.storage i).logs t) fun _ => False) (s i) := by
    rcases h with ⟨fuel, hfuel, hp⟩ | hperforms
    · rw [hp]
      exact StorageKind.performs_serveReplay (hinv i) hbelow hfuel
    · exact hperforms
  cases c with
  | store op =>
      obtain ⟨t, hstored, rfl⟩ := hanswer
      refine Or.inr ?_
      rw [Function.update_self]
      exact hperforms.2 answer t hstored
  | _ => exact hperforms.1.elim

/-- A daemon's own steps: it catches up before it serves, and keeps up from then
on unless it fails to apply a range. -/
theorem Recovered.own {W : Type} {K : Knowledge ι W} {view : N.Stores → W} {I : N.Stores → Prop}
    (h : N.Recovered i a) (hkept : Kept K.contract view I a.toState) (hinv : N.Inv a.shared)
    (hstep : (N.lifecycle N.exposed (AppliesAt i) N.Below).Step i a b) : N.Recovered i b := by
  cases hstep with
  | @boot p hdown hstart =>
      refine ⟨?_, ?_⟩
      · intro n q hphase htask
        change Function.update a.phase i _ i = _ at hphase
        rw [Function.update_self] at hphase
        cases hphase
        cases List.getElem?_concat_length.symm.trans htask
        exact Or.inl hstart
      · intro hup
        change Function.update a.phase i _ i = _ at hup
        rw [Function.update_self] at hup
        cases hup
  | @bootAnswer n c next answer s' hphase htask hanswer =>
      refine ⟨?_, ?_⟩
      · intro m q hm hq
        cases hphase.symm.trans hm
        have hset : (a.tasks.set n (i, next answer))[n]? = some (i, next answer) :=
          List.getElem?_set_self (List.getElem?_eq_some_iff.mp htask).1
        cases hset.symm.trans hq
        exact (h.booting n _ hphase htask).answer hinv hanswer.1 hanswer.2
      · intro hup
        cases hphase.symm.trans hup
  | @ready n hphase htask =>
      refine ⟨?_, ?_⟩
      · intro m q hm
        change Function.update a.phase i _ i = _ at hm
        rw [Function.update_self] at hm
        cases hm
      · intro _ k m stored range hm hmarks
        rcases h.booting n _ hphase htask with ⟨fuel, -, hp⟩ | hdone
        · cases hp
        · exact (hdone rfl k m stored range hm hmarks).imp_right False.elim
  | start hup hstart =>
      refine ⟨?_, ?_⟩
      · intro n q hphase
        cases hup.symm.trans hphase
      · intro _ k n m range hm hmarks
        exact (h.up hup k n m range hm hmarks).imp_right fun habout => habout.start _
  | answer hup htask hanswer =>
      refine ⟨?_, ?_⟩
      · intro n q hphase
        cases hup.symm.trans hphase
      · intro _
        exact appliedOr_answer hinv (h.up hup) htask (hkept.requires htask) (fun _ => hanswer.1 rfl)
          hanswer.2
  | stop => exact recovered_of_down (Function.update_self i _ _)

theorem exposedAnswers_other {j : ι} {s s' : N.Stores} {c : Command} {answer : c.Answer}
    (h : N.ExposedAnswers j s c answer s') (hne : i ≠ j) : s' i = s i := by
  by_cases hstore : ∃ op, c = .store op
  · obtain ⟨op, rfl⟩ := hstore
    obtain ⟨t, -, rfl⟩ := h
    exact Function.update_of_ne hne _ _
  · rw [exposedAnswers_eq_of_ne_store h fun op hop => hstore ⟨op, hop⟩]

theorem kept_of_lifecycle {Serving Booting : ι → N.Stores → (c : Command) → c.Answer → Prop}
    (ha : Kept (openKnowledge N.node).contract (fun _ => ()) N.Inv a.toState)
    (hrun : (N.lifecycle N.exposed Serving Booting).Reaches a b) :
    Kept (openKnowledge N.node).contract (fun _ => ()) N.Inv b.toState :=
  Lifecycle.kept_of_reaches (fun _ _ w hstart => meets_of_starts rfl hstart w)
    (fun _ _ w hboot => meets_of_boots hboot w) (honours_open.restrict Serving)
    (honours_open.restrict Booting) ha hrun

omit [DecidableEq ι] in
theorem kept_init : Kept (openKnowledge N.node).contract (fun _ => ()) N.Inv
    (Fleet.init N.fresh : Fleet ι N.Stores Command Command.Answer).toState :=
  ⟨inv_fresh, fun _ _ _ htask => by cases htask⟩

theorem Recovered.reaches (h : N.Recovered i a)
    (hkept : Kept (openKnowledge N.node).contract (fun _ => ()) N.Inv a.toState)
    (hrun : (N.lifecycle N.exposed (AppliesAt i) N.Below).Reaches a b) : N.Recovered i b := by
  induction hrun with
  | refl => exact h
  | tail hreach hstep ih =>
      obtain ⟨j, hstep⟩ := hstep
      by_cases hij : i = j
      · subst hij
        have hbefore := kept_of_lifecycle hkept hreach
        exact ih.own hbefore hbefore.1 hstep
      · refine ih.untouched ?_ (hstep.untouched hij)
        rcases hstep.shared with hsame | ⟨n, c, next, answer, -, hanswer | hanswer⟩
        · rw [hsame]
        · exact exposedAnswers_other hanswer.2 hij
        · exact exposedAnswers_other hanswer.2 hij

/-! ## Starts that succeed -/

omit [Formats] in
/-- A run on the store of one daemon is one on all stores, if what its calls keep
true of the store is enough for its answers. -/
theorem runs_of_store {α ε : Type} {answers : (N.storage i).Store → (c : Command) → c.Answer →
      (N.storage i).Store → Prop}
    {answers' : N.Stores → (c : Command) → c.Answer → N.Stores → Prop} {A : Command → Prop}
    {I : (N.storage i).Store → Prop} {q : Server ε α} {out : Except ε α}
    {t t' : (N.storage i).Store} {s : N.Stores} (hs : s i = t) (hruns : Runs answers t q out t')
    (hcalls : Calls A q) (ht : I t)
    (hkeep : ∀ t c answer t', I t → A c → answers t c answer t' → I t')
    (hanswers : ∀ s c answer t', I (s i) → A c → answers (s i) c answer t' →
      answers' s c answer (Function.update s i t')) :
    Runs answers' s q out (Function.update s i t') := by
  induction hruns generalizing s with
  | ret t a =>
      rw [← hs, Function.update_eq_self]
      exact .ret s a
  | fail t e =>
      rw [← hs, Function.update_eq_self]
      exact .fail s e
  | @call t t' t'' c next answer out hanswer _ ih =>
      have hrest := ih (Function.update_self i t' s) (hcalls.2 answer)
        (hkeep t c answer t' ht hcalls.1 hanswer)
      rw [Function.update_idem] at hrest
      subst hs
      exact .call (hanswers s c answer t' ht hcalls.1 hanswer) hrest

theorem runs_serveReplay {S : Type} {answers : S → (c : Command) → c.Answer → S → Prop} {s s' : S}
    {fuel : Nat} (h : Runs answers s (replayControlMessages fuel) (.ok (some ())) s') :
    Runs answers s (serveReplay fuel) (.ok ()) s' :=
  (h.mapError fun _ => ()).bind (.ret _ _)

theorem current_of_replayCall {kind : StorageKind} {t t' : kind.Store} {c : Command}
    {answer : c.Answer} (hc : ReplayCall c) (ht : kind.Inv t)
    (h : kind.UndisturbedAnswers t c answer t') :
    kind.Inv t' ∧ (kind.logs t').current = (kind.logs t).current := by
  have hop : ∃ op, c = .store op ∧ op.appendsTo = none ∧ ∀ m, op ≠ .putReplicatedMessage m := by
    cases hc with
    | listHeads => exact ⟨_, rfl, rfl, fun _ => StoreOp.noConfusion⟩
    | fetchMessages query => exact ⟨_, rfl, rfl, fun _ => StoreOp.noConfusion⟩
    | tombstoneRange range => exact ⟨_, rfl, rfl, fun _ => StoreOp.noConfusion⟩
  obtain ⟨op, rfl, happends, hputs⟩ := hop
  obtain ⟨env, -, -, -, rfl⟩ := h
  rcases Backend.after_cases ht env op with ⟨r, -, hinv, hstep⟩ | hsame
  · refine ⟨hinv, ?_⟩
    funext k
    exact congrArg (·.getD 0) (Logs.step_head_eq hstep happends fun m hm => absurd hm (hputs m))
  · rw [hsame]
    exact ⟨ht, rfl⟩

/-- A start that nothing stands in the way of, under a condition that holds of
the calls of a replay while no head moves. -/
theorem exists_serveReplay {s : N.Stores} (hinv : (N.storage i).Inv (s i))
    (h : (N.storage i).Unimpeded (N.view s i))
    {Cond : ι → N.Stores → (c : Command) → c.Answer → Prop}
    (hcond : ∀ s' c answer, (N.view s' i).current = (N.view s i).current → ReplayCall c →
      Cond i s' c answer) :
    ∃ p s', Boots i p ∧ Runs ((N.system.restrict Cond).Answers i) s p (.ok ()) s' ∧
      (N.view s i).Replayed (N.view s' i) ∧ (N.view s' i).DeletesApplied ∧
      ∀ j, j ≠ i → s' j = s j := by
  obtain ⟨⟨t, hruns⟩, -⟩ := h.runs hinv (Nat.le_refl (2 ^ 64))
  obtain ⟨-, hreplaying, -, hhandled⟩ := ((h.goes hinv).performs_replayControlMessages hinv
    (Nat.le_refl (2 ^ 64))).of_runs hruns
  have hwhole : Runs ((N.system.restrict Cond).Answers i) s (replayControlMessages (2 ^ 64))
      (.ok (some ())) (Function.update s i t) := by
    refine runs_of_store (I := fun t => (N.storage i).Inv t ∧
      ((N.storage i).logs t).current = (N.view s i).current) rfl hruns
      (calls_replayControlMessages _) ⟨hinv, rfl⟩ ?_ ?_
    · rintro t c answer t' ⟨ht, hcurrent⟩ hc hanswer
      obtain ⟨ht', hsame⟩ := current_of_replayCall hc ht hanswer
      exact ⟨ht', hsame.trans hcurrent⟩
    · rintro s' c answer t' ⟨-, hcurrent⟩ hc hanswer
      refine ⟨hcond s' c answer hcurrent hc, ?_⟩
      cases c with
      | store op =>
          obtain ⟨env, hid, -, houtcome⟩ := hanswer
          exact ⟨t', Or.inl ⟨env, hid, houtcome⟩, rfl⟩
      | _ => exact hanswer.elim
  refine ⟨serveReplay (2 ^ 64), Function.update s i t, ⟨_, Nat.le_refl _, rfl⟩,
    runs_serveReplay hwhole, ?_, ?_, fun j hj => Function.update_of_ne hj _ _⟩
  · rw [view_update, Function.update_self]
    exact hreplaying.replayed
  · rw [view_update, Function.update_self]
    exact StorageKind.deletesApplied_of_handled hreplaying.wellFormed hhandled

omit [DecidableEq ι] in
theorem portable_of_replayCall {s : N.Stores} {c : Command} {answer : c.Answer}
    (hc : ReplayCall c) : N.Portable i s c answer := by
  cases hc with
  | listHeads => exact trivial
  | fetchMessages query => exact trivial
  | tombstoneRange range => exact trivial

/-! ## Daemons that come back -/

/-- Daemons stop and come back at any moments, peers send anything and every call
may fail.  From a moment on at which a daemon is stopped, as long as the ranges
that it applies while it serves do not fail: whenever it serves and no task of it
is between storing and applying a marker, each live marker in its logs has its
range recorded and the messages in the range flagged, those that it had stored and
not applied before included. -/
theorem markers_recover (hrun : (N.lifecycle N.exposed (fun _ _ _ _ => True) N.Below).Reaches
      (.init N.fresh) a) (hdown : a.phase i = .down)
    (hlater : (N.lifecycle N.exposed (AppliesAt i) N.Below).Reaches a b) (hup : b.phase i = .up)
    (hquiet : ∀ range, ¬ b.AboutTo i (.store (TombstoneRange.op range))) {k : LogKey} {n : HeadId}
    {m : StoredMessage} {range : TombstoneRange}
    (hm : (N.view b.shared i).message k n = some m) (hmarks : m.Marks range) :
    (N.view b.shared i).tombstone (LogKey.of range.topic range.origin) range.fromHeadId
        range.toHeadId ∧
      ∀ n' m', (N.view b.shared i).message (LogKey.of range.topic range.origin) n' = some m' →
        range.fromHeadId ≤ n' → n' ≤ range.toHeadId → m'.deleted = true := by
  have hkept := kept_of_lifecycle kept_init hrun
  have hrecovered := (recovered_of_down hdown).reaches hkept hlater
  have hinv := (kept_of_lifecycle hkept hlater).1
  have hrecorded := (hrecovered.up hup k n m range hm hmarks).resolve_right (hquiet range)
  refine ⟨hrecorded, ?_⟩
  intro n' m' hm' hfirst hlast
  exact (wellFormed_view hinv i).covered _ n' m' hm' ⟨_, _, hrecorded, hfirst, hlast⟩

theorem runs_serveReplay_fresh {Cond : ι → N.Stores → (c : Command) → c.Answer → Prop}
    (hcond : Cond i N.fresh (.store .listHeads) (Except.ok [])) (fuel : Nat) :
    Runs ((N.system.restrict Cond).Answers i) N.fresh (serveReplay fuel) (.ok ()) N.fresh := by
  have hlist : MsgbusStore.listHeads (N.fresh i) = .ok [] := by
    unfold fresh
    cases N.storage i with
    | redb => rfl
    | sqlite => rfl
  have hexec : StoreOp.exec (N.fresh i) ⟨0, 0, ⟨"m"⟩⟩ .listHeads = .ok ([], N.fresh i) :=
    congrArg (Except.map (·, N.fresh i)) hlist
  have hanswer : (N.system.restrict Cond).Answers i N.fresh (.store .listHeads) (Except.ok [])
      N.fresh :=
    ⟨hcond, N.fresh i, handlerAnswers_read (by decide) hexec, (Function.update_eq_self i _).symm⟩
  have hreplay : Runs ((N.system.restrict Cond).Answers i) N.fresh (replayControlMessages fuel)
      (.ok (some ())) N.fresh := (runs_callStoreStatus hanswer).bind (.ret _ _)
  exact runs_serveReplay hreplay

section Pair

theorem reaches_up (kind : StorageKind) (sys : System Bool (pair kind).Stores Command Command.Answer)
    (Serving Booting : Bool → (pair kind).Stores → (c : Command) → c.Answer → Prop)
    (hsys : ∀ x s s' c answer, ((pair kind).system.restrict Booting).Answers x s c answer s' →
      (sys.restrict Booting).Answers x s c answer s')
    (hcond : ∀ x, Booting x (pair kind).fresh (.store .listHeads) (Except.ok [])) :
    ∃ a, ((pair kind).lifecycle sys Serving Booting).Reaches (.init (pair kind).fresh) a ∧
      a.shared = (pair kind).fresh ∧ (∀ t ∈ a.tasks, t.2.first = none) ∧
      ∀ x, a.phase x = .up := by
  have hboots : ∀ x : Bool, Boots x (serveReplay (2 ^ 64)) := fun x => ⟨_, Nat.le_refl _, rfl⟩
  have hruns : ∀ x, Runs ((sys.restrict Booting).Answers x) (pair kind).fresh
      (serveReplay (2 ^ 64)) (.ok ()) (pair kind).fresh :=
    fun x => (runs_serveReplay_fresh (hcond x) _).mono fun _ _ _ _ => hsys x _ _ _ _
  let L := (pair kind).lifecycle sys Serving Booting
  let a₁ : Fleet Bool (pair kind).Stores Command Command.Answer :=
    ⟨⟨(pair kind).fresh, [(true, .ret ())]⟩, Function.update (fun _ => .down) true .up⟩
  have hfirst : L.Reaches (.init (pair kind).fresh) a₁ := reaches_boot rfl (hboots true) (hruns true)
  have hsecond : L.Reaches a₁ ⟨⟨(pair kind).fresh, a₁.tasks ++ [(false, .ret ())]⟩,
      Function.update a₁.phase false .up⟩ := reaches_boot rfl (hboots false) (hruns false)
  refine ⟨_, hfirst.trans hsecond, rfl, ?_, ?_⟩
  · intro t ht
    rcases List.mem_cons.mp ht with rfl | ht
    · rfl
    · rw [List.mem_singleton.mp ht]
      rfl
  · intro x
    cases x with
    | false => rfl
    | true => rfl

omit [Formats] in
theorem first_of_mem_abort {x : ι} {tasks : List (ι × Server Unit Unit)}
    (h : ∀ t ∈ tasks, t.2.first = none) : ∀ t ∈ abort x tasks, t.2.first = none := by
  intro t ht
  obtain ⟨task, hmem, rfl⟩ := List.mem_map.mp ht
  split_ifs
  · rfl
  · exact h task hmem

theorem eq_of_message_copied {k : LogKey} {n : HeadId} {m : StoredMessage}
    (h : (copiedLogs 1 1).message k n = some m) : m = firstMarker 1 1 := by
  rcases Logs.write_message_cases h with ⟨-, -, rfl⟩ | hold
  · rfl
  · cases hold

theorem copied_below (k : LogKey) : (copiedLogs 1 1).current k ≠ UInt64.maxValue := by
  unfold copiedLogs
  by_cases hk : k = LogKey.of deleteTopic ⟨"a", "b", "c"⟩
  · rw [hk, Logs.write_current_self]
    exact (by decide : (1 : UInt64) ≠ UInt64.maxValue)
  · rw [Logs.write_current_of_ne_log hk]
    exact (by decide : (0 : UInt64) ≠ UInt64.maxValue)

theorem unimpeded_copied (kind : StorageKind) : kind.Unimpeded (copiedLogs 1 1) := by
  have hvalid : ValidPart (firstMarker 1 1).id.value ∧ ValidPart (firstMarker 1 1).topic.value :=
    (by decide : ValidPart "m" ∧ ValidPart "$msgbus.delete")
  refine ⟨?_, ?_, ?_, ?_⟩
  · rintro - head ⟨k, m, -, hm, htopic, -⟩
    rw [htopic, eq_of_message_copied hm]
    exact hvalid.2
  · intro k n m hm _ _
    rw [eq_of_message_copied hm]
    exact hvalid
  · intro k n m hm _
    rw [eq_of_message_copied hm]
    refine Or.inr ⟨_, firstMarker_marks, UInt64.le_refl 1, ?_⟩
    cases kind with
    | redb => exact (by decide : 1 ≤ UInt64.maxValue.toNat)
    | sqlite => exact (by decide : 1 ≤ i64Max)
  · intro head hhead _
    rw [(Logs.isHead_write_iff (fun _ _ => rfl) rfl head).mp hhead]
    exact (by decide : (1 : UInt64) ≠ UInt64.maxValue)

theorem marker_of_replayed {b b' : Logs} (hb : b = copiedLogs 1 1) (h : b.Replayed b') :
    b'.message (LogKey.of deleteTopic ⟨"a", "b", "c"⟩) 1 = some (firstMarker 1 1) := by
  subst hb
  obtain ⟨m', hm', -⟩ := h.message _ _ _ Logs.write_message_self
  rcases h.only _ _ m' hm' with hsame | ⟨k', n', marker, range, hmarker, hmarks, hlog, -⟩
  · rw [hm', eq_of_message_copied hsame]
  · rw [eq_of_message_copied hmarker] at hmarks
    cases hmarks.symm.trans firstMarker_marks
    exact absurd hlog (by decide : LogKey.of ⟨"t"⟩ ⟨"a", "b", "c"⟩ ≠ _)

theorem exists_stopped :
    ∃ a, ((pair .redb).lifecycle (pair .redb).exposed (fun _ _ _ _ => True)
        (pair .redb).Below).Reaches (.init (pair .redb).fresh) a ∧ a.phase false = .down ∧
      (pair .redb).Rests (copiedPair 1 1) a.toState := by
  let Cond : Bool → (pair .redb).Stores → (c : Command) → c.Answer → Prop := fun _ _ _ _ => True
  have hcond : (pair .redb).Lenient Cond := fun _ _ _ _ _ _ _ _ => trivial
  have hfresh : ∀ x, (pair .redb).Below x (pair .redb).fresh (.store .listHeads) (Except.ok []) := by
    intro x k _
    rw [view_fresh]
    exact (by decide : (0 : UInt64) ≠ UInt64.maxValue)
  obtain ⟨a₀, hboot, hshared, hdone, hup⟩ := reaches_up .redb (pair .redb).exposed Cond
    (pair .redb).Below (fun _ _ _ _ _ hanswer => exposedAnswers_of_answers hanswer) hfresh
  obtain ⟨a₁, hrun, ha₁⟩ := exists_copied hcond (fun _ _ _ _ _ _ => trivial)
    (show (1 : HeadId) ≤ 1 by decide) trivial
    fun s _ => ⟨trivial, s false, Or.inr ⟨"disk", rfl, rfl⟩, (Function.update_eq_self false s).symm⟩
  have hserved : ((pair .redb).exposed.restrict Cond).Reaches (.init a₀.shared) a₁ := by
    rw [hshared]
    exact hrun.weaken (fun _ _ hstart => hstart) fun _ _ _ _ _ h => exposedAnswers_of_answers h
  refine ⟨_, (hboot.trans (reaches_of_serving hserved hup)).tail ⟨false, .stop⟩, rfl, ha₁.1, ?_⟩
  exact first_of_mem_abort (List.forall_mem_append.mpr ⟨hdone, ha₁.2⟩)

theorem exists_back {a : Fleet Bool (pair .redb).Stores Command Command.Answer}
    {Serving : Bool → (pair .redb).Stores → (c : Command) → c.Answer → Prop}
    (hdown : a.phase false = .down) (ha : (pair .redb).Rests (copiedPair 1 1) a.toState) :
    ∃ b, ((pair .redb).lifecycle (pair .redb).exposed Serving (pair .redb).Below).Reaches a b ∧
      b.phase false = .up ∧ (∀ c, ¬ b.AboutTo false c) ∧
      ((pair .redb).view b.shared false).message (LogKey.of deleteTopic ⟨"a", "b", "c"⟩) 1 =
        some (firstMarker 1 1) := by
  have hcopied : (pair .redb).view a.shared false = copiedLogs 1 1 :=
    (congrFun ha.1.2 false).trans (Function.update_self _ _ _)
  have hunimpeded : ((pair .redb).storage false).Unimpeded ((pair .redb).view a.shared false) := by
    rw [hcopied]
    exact unimpeded_copied ((pair .redb).storage false)
  have hbelow : ∀ s c answer, ((pair .redb).view s false).current =
      ((pair .redb).view a.shared false).current → ReplayCall c →
        (pair .redb).Below false s c answer := by
    intro s c answer hsame _ k _
    rw [hsame, hcopied]
    exact copied_below k
  obtain ⟨p, s', hboots, hruns, hreplayed, -⟩ :=
    exists_serveReplay (Backend.inv_of_reachable (ha.1.1 false)) hunimpeded hbelow
  have hback : ((pair .redb).lifecycle (pair .redb).exposed Serving (pair .redb).Below).Reaches a
      ⟨⟨s', a.tasks ++ [(false, .ret ())]⟩, Function.update a.phase false .up⟩ :=
    reaches_boot hdown hboots (hruns.mono fun _ _ _ _ hanswer => exposedAnswers_of_answers hanswer)
  refine ⟨_, hback, rfl, ?_, marker_of_replayed hcopied hreplayed⟩
  rintro c ⟨n, q, htask, hfirst⟩
  have hnone : q.first = none := by
    rcases List.mem_append.mp (List.mem_of_getElem? htask) with hold | hnew
    · exact ha.2 _ hold
    · cases List.mem_singleton.mp hnew
      rfl
  rw [hnone] at hfirst
  cases hfirst

omit [Formats] in
theorem markers_recover_stopped : letI := Serde.formats
    ∃ a b : Fleet Bool (pair .redb).Stores Command Command.Answer,
      ((pair .redb).lifecycle (pair .redb).exposed (fun _ _ _ _ => True) (pair .redb).Below).Reaches
        (.init (pair .redb).fresh) a ∧ a.phase false = .down ∧
      ¬ ((pair .redb).view a.shared false).tombstone (LogKey.of ⟨"t"⟩ ⟨"a", "b", "c"⟩) 1 1 ∧
      ((pair .redb).lifecycle (pair .redb).exposed (AppliesAt false) (pair .redb).Below).Reaches
        a b ∧ b.phase false = .up ∧
      ((pair .redb).view b.shared false).tombstone (LogKey.of ⟨"t"⟩ ⟨"a", "b", "c"⟩) 1 1 := by
  let := Serde.formats
  obtain ⟨a, hstopped, hdown, ha⟩ := exists_stopped
  obtain ⟨b, hback, hup, hquiet, hmarker⟩ := exists_back hdown ha
  have hrecorded := markers_recover hstopped hdown hback hup (fun range => hquiet _) hmarker
    firstMarker_marks
  refine ⟨a, b, hstopped, hdown, ?_, hback, hup, ?_⟩
  · rw [ha.1.2]
    exact id
  · exact hrecorded.1

end Pair

/-- Among honest daemons whose deletes have bounds that every backend can store:
in whatever state daemons have stopped, started and served, each of them can stop
and come back to serve, alone, and has then applied all of its markers. -/
theorem daemon_comes_back
    (hrun : (N.lifecycle N.system N.Portable N.Portable).Reaches (.init N.fresh) a) (i : ι) :
    ∃ b, (N.lifecycle N.system N.Portable N.Portable).Reaches a b ∧ b.phase i = .up ∧
      (N.view b.shared i).DeletesApplied ∧
      ∀ j, j ≠ i → b.phase j = a.phase j ∧ b.shared j = a.shared j := by
  have hinit : Kept (replayKnowledge N.node N.FitsAll).contract (fun _ => ()) N.AllReplayable
      (Fleet.init N.fresh : Fleet ι N.Stores Command Command.Answer).toState :=
    ⟨allReplayable_fresh, fun _ _ _ htask => by cases htask⟩
  have hs : N.AllReplayable a.shared :=
    (Lifecycle.kept_of_reaches (fun _ _ w hstart => meets_of_starts rfl hstart w)
      (fun _ _ w hboot => meets_of_boots hboot w) honours_replay honours_replay hinit hrun).1
  obtain ⟨p, s', hboots, hruns, -, happlied, hother⟩ := exists_serveReplay (hs.1 i)
    (hs.replays i).unimpeded fun _ _ _ _ hc => portable_of_replayCall hc
  let stopped : Fleet ι N.Stores Command Command.Answer :=
    ⟨⟨a.shared, abort i a.tasks⟩, Function.update a.phase i .down⟩
  have hback : (N.lifecycle N.system N.Portable N.Portable).Reaches stopped
      ⟨⟨s', stopped.tasks ++ [(i, .ret ())]⟩, Function.update stopped.phase i .up⟩ :=
    reaches_boot (Function.update_self i _ _) hboots hruns
  refine ⟨_, .head ⟨i, .stop⟩ hback, Function.update_self i _ _, happlied, ?_⟩
  intro j hj
  refine ⟨?_, hother j hj⟩
  exact (Function.update_of_ne hj _ _).trans (Function.update_of_ne hj _ _)

omit [Formats] in
theorem daemon_comes_back_deleted : letI := Serde.formats
    ∃ a b : Fleet Bool (pair .sqlite).Stores Command Command.Answer,
      ((pair .sqlite).lifecycle (pair .sqlite).system (pair .sqlite).Portable
        (pair .sqlite).Portable).Reaches (.init (pair .sqlite).fresh) a ∧
      ((pair .sqlite).view a.shared true).message (LogKey.of deleteTopic ⟨"a", "b", "c"⟩) 1 =
        some (firstMarker 1 1) ∧
      ((pair .sqlite).lifecycle (pair .sqlite).system (pair .sqlite).Portable
        (pair .sqlite).Portable).Reaches a b ∧ b.phase true = .up ∧
      ((pair .sqlite).view b.shared true).DeletesApplied := by
  let := Serde.formats
  have hfits : (pair .sqlite).FitsAll 1 := by
    intro x
    cases x with
    | false => exact (by decide : 1 ≤ i64Max)
    | true => exact (by decide : 1 ≤ UInt64.maxValue.toNat)
  obtain ⟨a₀, hboot, hshared, -, hup⟩ := reaches_up .sqlite (pair .sqlite).system
    (pair .sqlite).Portable (pair .sqlite).Portable (fun _ _ _ _ _ hanswer => hanswer) fun _ => trivial
  obtain ⟨a₁, hdelete, ha₁⟩ := exists_deleted lenient_portable (permits_portable hfits)
    (show (1 : HeadId) ≤ 1 by decide)
  rw [← hshared] at hdelete
  have hrun := hboot.trans (reaches_of_serving hdelete hup)
  obtain ⟨b, hback, hserves, happlied, -⟩ := daemon_comes_back hrun true
  refine ⟨_, b, hrun, ?_, hback, hserves, happlied⟩
  change ((pair .sqlite).view a₁.shared true).message _ _ = _
  rw [ha₁.1.2, Function.update_self, deletedLogs_eq]
  exact Logs.write_message_self

end Network

end Msgbus
