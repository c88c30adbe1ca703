import Msgbus.Lib.Interleaving

/-!
# Parties that stop and start again

A party of an interleaved system may stop at any moment: its tasks are gone and
the shared state stays as it is.  It starts again with one program that it runs by
itself, and serves once that program has returned.
-/

/-- The tasks of parties that serve, and the programs that parties start with. -/
structure Lifecycle (ι S Call : Type) (Answer : Call → Type) where
  serving : System ι S Call Answer
  booting : System ι S Call Answer

namespace Lifecycle

open System

variable {ι S W Call : Type} {Answer : Call → Type}

/-- What a party does: it is stopped, it runs the task that it starts with, or it
serves. -/
inductive Phase where
  | down
  | booting (task : Nat)
  | up
  deriving DecidableEq

structure Fleet (ι S Call : Type) (Answer : Call → Type) extends State ι S Call Answer where
  phase : ι → Phase

def Fleet.init (s : S) : Fleet ι S Call Answer := ⟨.init s, fun _ => .down⟩

variable [DecidableEq ι]

def abort (i : ι) (tasks : List (ι × Program Call Answer Unit Unit)) :
    List (ι × Program Call Answer Unit Unit) :=
  tasks.map fun task => if task.1 = i then (i, .fail ()) else task

inductive Step (L : Lifecycle ι S Call Answer) (i : ι) :
    Fleet ι S Call Answer → Fleet ι S Call Answer → Prop where
  | boot {a : Fleet ι S Call Answer} {p : Program Call Answer Unit Unit}
      (hdown : a.phase i = .down) (h : L.booting.Starts i p) :
      Step L i a ⟨⟨a.shared, a.tasks ++ [(i, p)]⟩,
        Function.update a.phase i (.booting a.tasks.length)⟩
  | bootAnswer {a : Fleet ι S Call Answer} {n : Nat} {c : Call}
      {next : Answer c → Program Call Answer Unit Unit} {answer : Answer c} {s' : S}
      (hphase : a.phase i = .booting n) (htask : a.tasks[n]? = some (i, .call c next))
      (h : L.booting.Answers i a.shared c answer s') :
      Step L i a ⟨⟨s', a.tasks.set n (i, next answer)⟩, a.phase⟩
  | ready {a : Fleet ι S Call Answer} {n : Nat} (hphase : a.phase i = .booting n)
      (htask : a.tasks[n]? = some (i, .ret ())) :
      Step L i a ⟨a.toState, Function.update a.phase i .up⟩
  | start {a : Fleet ι S Call Answer} {p : Program Call Answer Unit Unit}
      (hup : a.phase i = .up) (h : L.serving.Starts i p) :
      Step L i a ⟨⟨a.shared, a.tasks ++ [(i, p)]⟩, a.phase⟩
  | answer {a : Fleet ι S Call Answer} {n : Nat} {c : Call}
      {next : Answer c → Program Call Answer Unit Unit} {answer : Answer c} {s' : S}
      (hup : a.phase i = .up) (htask : a.tasks[n]? = some (i, .call c next))
      (h : L.serving.Answers i a.shared c answer s') :
      Step L i a ⟨⟨s', a.tasks.set n (i, next answer)⟩, a.phase⟩
  | stop {a : Fleet ι S Call Answer} :
      Step L i a ⟨⟨a.shared, abort i a.tasks⟩, Function.update a.phase i .down⟩

abbrev Reaches (L : Lifecycle ι S Call Answer) :=
  Relation.ReflTransGen fun a b : Fleet ι S Call Answer => ∃ i, Step L i a b

variable {L : Lifecycle ι S Call Answer} {a b : Fleet ι S Call Answer} {i j : ι}

def traced (L : Lifecycle ι S Call Answer) :
    Lifecycle ι (S × List (Event ι Call Answer)) Call Answer :=
  ⟨L.serving.traced, L.booting.traced⟩

/-- A run can be recorded, after whatever was recorded before. -/
theorem Reaches.recorded (h : L.Reaches a b) (before : List (Event ι Call Answer)) : ∃ events,
    L.traced.Reaches ⟨⟨(a.shared, before), a.tasks⟩, a.phase⟩
      ⟨⟨(b.shared, events), b.tasks⟩, b.phase⟩ := by
  induction h with
  | refl => exact ⟨before, .refl⟩
  | tail _ hstep ih =>
      obtain ⟨events, hrun⟩ := ih
      obtain ⟨i, hstep⟩ := hstep
      cases hstep with
      | boot hdown hstart => exact ⟨events, hrun.tail ⟨i, .boot hdown hstart⟩⟩
      | bootAnswer hphase htask hanswer =>
          exact ⟨_, hrun.tail ⟨i, .bootAnswer hphase htask ⟨hanswer, rfl⟩⟩⟩
      | ready hphase htask => exact ⟨events, hrun.tail ⟨i, .ready hphase htask⟩⟩
      | start hup hstart => exact ⟨events, hrun.tail ⟨i, .start hup hstart⟩⟩
      | answer hup htask hanswer => exact ⟨_, hrun.tail ⟨i, .answer hup htask ⟨hanswer, rfl⟩⟩⟩
      | stop => exact ⟨events, hrun.tail ⟨i, .stop⟩⟩

/-! ## The other parties -/

theorem getElem?_abort {tasks : List (ι × Program Call Answer Unit Unit)} (hne : i ≠ j) (n : Nat)
    (p : Program Call Answer Unit Unit) :
    (abort j tasks)[n]? = some (i, p) ↔ tasks[n]? = some (i, p) := by
  unfold abort
  rw [List.getElem?_map]
  cases htask : tasks[n]? with
  | none => simp
  | some task =>
      by_cases hj : task.1 = j
      · have hother : task ≠ (i, p) := by
          rintro rfl
          exact hne hj
        simp [hj, hother, Ne.symm hne]
      · simp [hj]

structure Untouched (i : ι) (a b : Fleet ι S Call Answer) : Prop where
  phase : b.phase i = a.phase i
  tasks : ∀ (n : Nat) p, b.tasks[n]? = some (i, p) ↔ a.tasks[n]? = some (i, p)

theorem untouched_append (hne : i ≠ j) (p : Program Call Answer Unit Unit) (phase : Phase) :
    Untouched i a ⟨⟨a.shared, a.tasks ++ [(j, p)]⟩, Function.update a.phase j phase⟩ where
  phase := Function.update_of_ne hne _ _
  tasks := by
    intro n q
    constructor
    · intro htask
      rcases getElem?_append_start n htask with hold | hnew
      · exact hold
      · cases hnew
        exact absurd rfl hne
    · intro htask
      exact (List.getElem?_append_left (List.getElem?_eq_some_iff.mp htask).1).trans htask

omit [DecidableEq ι] in
theorem untouched_set {n : Nat} {p q : Program Call Answer Unit Unit} {s' : S} (hne : i ≠ j)
    (hold : a.tasks[n]? = some (j, p)) :
    Untouched i a ⟨⟨s', a.tasks.set n (j, q)⟩, a.phase⟩ where
  phase := rfl
  tasks := by
    intro m r
    by_cases hm : n = m
    · subst hm
      have hset : (a.tasks.set n (j, q))[n]? = some (j, q) :=
        List.getElem?_set_self (List.getElem?_eq_some_iff.mp hold).1
      constructor
      · intro htask
        cases hset.symm.trans htask
        exact absurd rfl hne
      · intro htask
        cases hold.symm.trans htask
        exact absurd rfl hne
    · exact iff_of_eq (congrArg (· = some (i, r)) (List.getElem?_set_ne hm))

theorem Step.untouched (h : L.Step j a b) (hne : i ≠ j) : Untouched i a b := by
  cases h with
  | boot hdown hstart => exact untouched_append hne _ _
  | bootAnswer hphase htask hanswer => exact untouched_set hne htask
  | ready hphase htask => exact ⟨Function.update_of_ne hne _ _, fun _ _ => Iff.rfl⟩
  | @start p hup hstart =>
      have happend := untouched_append (a := a) hne p (a.phase j)
      rw [Function.update_eq_self] at happend
      exact happend
  | answer hup htask hanswer => exact untouched_set hne htask
  | stop => exact ⟨Function.update_of_ne hne _ _, fun n p => getElem?_abort hne n p⟩

theorem Step.shared (h : L.Step j a b) : b.shared = a.shared ∨ ∃ (n : Nat) (c : Call)
    (next : Answer c → Program Call Answer Unit Unit) (answer : Answer c),
      a.tasks[n]? = some (j, .call c next) ∧ (L.serving.Answers j a.shared c answer b.shared ∨
        L.booting.Answers j a.shared c answer b.shared) := by
  cases h with
  | bootAnswer hphase htask hanswer => exact Or.inr ⟨_, _, _, _, htask, Or.inr hanswer⟩
  | answer hup htask hanswer => exact Or.inr ⟨_, _, _, _, htask, Or.inl hanswer⟩
  | _ => exact Or.inl rfl

omit [DecidableEq ι] in
theorem Untouched.aboutTo {c : Call} (h : Untouched i a b) (habout : a.AboutTo i c) :
    b.AboutTo i c := by
  obtain ⟨n, p, htask, hfirst⟩ := habout
  exact ⟨n, p, (h.tasks n p).mpr htask, hfirst⟩

/-! ## The invariant rule -/

section Contracts

variable {C : Contract ι W Call Answer} {view : S → W} {I : S → Prop}

/-- Programs that keep a contract, in surroundings that honour it, preserve the
invariant while parties stop and start. -/
theorem kept_step (hserves : ∀ i p w, L.serving.Starts i p → C.Meets i p (fun _ _ => True) w)
    (hboots : ∀ i p w, L.booting.Starts i p → C.Meets i p (fun _ _ => True) w)
    (hserving : L.serving.Honours C view I) (hbooting : L.booting.Honours C view I)
    (ha : Kept C view I a.toState) (hstep : L.Step i a b) : Kept C view I b.toState := by
  cases hstep with
  | boot hdown hstart => exact System.kept_step hboots hbooting ha (.start hstart)
  | bootAnswer hphase htask hanswer =>
      exact System.kept_step hboots hbooting ha (.answer htask hanswer)
  | ready hphase htask => exact ha
  | start hup hstart => exact System.kept_step hserves hserving ha (.start hstart)
  | answer hup htask hanswer =>
      exact System.kept_step hserves hserving ha (.answer htask hanswer)
  | stop =>
      refine ⟨ha.1, ?_⟩
      intro n j p htask
      -- A task that is gone makes no call.
      obtain ⟨task, hold, heq⟩ := Option.map_eq_some_iff.mp (List.getElem?_map.symm.trans htask)
      by_cases hj : task.1 = i
      · rw [if_pos hj] at heq
        cases heq
        exact trivial
      · rw [if_neg hj] at heq
        exact ha.2 n j p (heq ▸ hold)

theorem kept_of_reaches
    (hserves : ∀ i p w, L.serving.Starts i p → C.Meets i p (fun _ _ => True) w)
    (hboots : ∀ i p w, L.booting.Starts i p → C.Meets i p (fun _ _ => True) w)
    (hserving : L.serving.Honours C view I) (hbooting : L.booting.Honours C view I)
    (ha : Kept C view I a.toState) (hreach : L.Reaches a b) : Kept C view I b.toState := by
  induction hreach with
  | refl => exact ha
  | tail _ hstep ih =>
      obtain ⟨i, hstep⟩ := hstep
      exact kept_step hserves hboots hserving hbooting ih hstep

end Contracts

/-! ## Runs -/

theorem reaches_boot {p : Program Call Answer Unit Unit} {s' : S} (hdown : a.phase i = .down)
    (hstart : L.booting.Starts i p)
    (hruns : Program.Runs (L.booting.Answers i) a.shared p (.ok ()) s') :
    L.Reaches a ⟨⟨s', a.tasks ++ [(i, .ret ())]⟩, Function.update a.phase i .up⟩ := by
  -- The program is run in the last place of the list of tasks.
  have hboot : ∀ {s s' : S} {p : Program Call Answer Unit Unit} {out : Except Unit Unit},
      Program.Runs (L.booting.Answers i) s p out s' →
        L.Reaches ⟨⟨s, a.tasks ++ [(i, p)]⟩, Function.update a.phase i (.booting a.tasks.length)⟩
          ⟨⟨s', a.tasks ++ [(i, .ofExcept out)]⟩,
            Function.update a.phase i (.booting a.tasks.length)⟩ := by
    intro s s' p out hruns
    induction hruns with
    | ret s u => exact .refl
    | fail s e => exact .refl
    | @call s s' s'' c next answer out hanswer _ ih =>
        refine .head ⟨i, ?_⟩ ih
        have hset : (a.tasks ++ [(i, Program.call c next)]).set a.tasks.length (i, next answer) =
            a.tasks ++ [(i, next answer)] := by
          rw [List.set_append_right _ _ (Nat.le_refl _), Nat.sub_self]
          rfl
        have hphase : Function.update a.phase i (Phase.booting a.tasks.length) i =
            .booting a.tasks.length := Function.update_self i _ _
        have htask : (a.tasks ++ [(i, Program.call c next)])[a.tasks.length]? =
            some (i, .call c next) := List.getElem?_concat_length
        have hstep := Step.bootAnswer (L := L)
          (a := ⟨⟨s, a.tasks ++ [(i, .call c next)]⟩,
            Function.update a.phase i (.booting a.tasks.length)⟩) hphase htask hanswer
        rw [hset] at hstep
        exact hstep
  refine .head ⟨i, .boot hdown hstart⟩ ((hboot hruns).tail ⟨i, ?_⟩)
  have hready := Step.ready (L := L) (i := i)
    (a := ⟨⟨s', a.tasks ++ [(i, .ret ())]⟩,
      Function.update a.phase i (.booting a.tasks.length)⟩)
    (Function.update_self i _ _) List.getElem?_concat_length
  rw [Function.update_idem] at hready
  exact hready

/-- While every party serves, tasks run as those of the system beside the tasks
that were there before. -/
theorem reaches_of_serving {b : State ι S Call Answer} (h : L.serving.Reaches (.init a.shared) b)
    (hup : ∀ i, a.phase i = .up) : L.Reaches a ⟨⟨b.shared, a.tasks ++ b.tasks⟩, a.phase⟩ := by
  induction h with
  | refl =>
      change L.Reaches a ⟨⟨a.shared, a.tasks ++ []⟩, a.phase⟩
      rw [List.append_nil]
  | @tail b _ _ hstep ih =>
      refine ih.tail ?_
      cases hstep with
      | @start i p hstart =>
          have hnext := Step.start (a := ⟨⟨b.shared, a.tasks ++ b.tasks⟩, a.phase⟩) (hup i) hstart
          rw [List.append_assoc] at hnext
          exact ⟨i, hnext⟩
      | @answer n i c next answer s' htask hanswer =>
          have hmoved : (a.tasks ++ b.tasks)[a.tasks.length + n]? = some (i, .call c next) := by
            rw [List.getElem?_append_right (Nat.le_add_right _ _), Nat.add_sub_cancel_left]
            exact htask
          have hnext := Step.answer (a := ⟨⟨b.shared, a.tasks ++ b.tasks⟩, a.phase⟩) (hup i) hmoved
            hanswer
          rw [List.set_append_right _ _ (Nat.le_add_right _ _), Nat.add_sub_cancel_left] at hnext
          exact ⟨i, hnext⟩

end Lifecycle
