import Msgbus.Lib.Program
import Mathlib.Logic.Relation

/-!
# Interleaved programs

Tasks of several parties on one shared state.  A step starts a task or answers
the next call of one, so any number of tasks interleave between any two calls.
A task that is aborted is one that is never answered again.
-/

/-- Which programs a party may start, and how the shared state may answer a call
of a party. -/
structure System (ι S Call : Type) (Answer : Call → Type) where
  Starts : ι → Program Call Answer Unit Unit → Prop
  Answers : ι → S → (c : Call) → Answer c → S → Prop

namespace System

variable {ι S W Call : Type} {Answer : Call → Type}

/-- The shared state and every task started so far, with what is left of its
program. -/
structure State (ι S Call : Type) (Answer : Call → Type) where
  shared : S
  tasks : List (ι × Program Call Answer Unit Unit)

def State.init (s : S) : State ι S Call Answer := ⟨s, []⟩

def State.AboutTo (a : State ι S Call Answer) (i : ι) (c : Call) : Prop :=
  ∃ (n : Nat) (p : Program Call Answer Unit Unit),
    a.tasks[n]? = some (i, p) ∧ p.first = some c

def restrict (sys : System ι S Call Answer) (Cond : ι → S → (c : Call) → Answer c → Prop) :
    System ι S Call Answer where
  Starts := sys.Starts
  Answers := fun i s c answer s' => Cond i s c answer ∧ sys.Answers i s c answer s'

abbrev Event (ι Call : Type) (Answer : Call → Type) := ι × (c : Call) × Answer c

def traced (sys : System ι S Call Answer) :
    System ι (S × List (Event ι Call Answer)) Call Answer where
  Starts := sys.Starts
  Answers := fun i s c answer s' =>
    sys.Answers i s.1 c answer s'.1 ∧ s'.2 = (i, ⟨c, answer⟩) :: s.2

inductive Step (sys : System ι S Call Answer) : State ι S Call Answer →
    State ι S Call Answer → Prop where
  | start {a : State ι S Call Answer} {i : ι} {p : Program Call Answer Unit Unit}
      (h : sys.Starts i p) : Step sys a ⟨a.shared, a.tasks ++ [(i, p)]⟩
  | answer {a : State ι S Call Answer} {n : Nat} {i : ι} {c : Call}
      {next : Answer c → Program Call Answer Unit Unit} {answer : Answer c} {s' : S}
      (htask : a.tasks[n]? = some (i, .call c next))
      (h : sys.Answers i a.shared c answer s') :
      Step sys a ⟨s', a.tasks.set n (i, next answer)⟩

theorem Step.of_answer {sys : System ι S Call Answer} {s s' : S}
    {tasks tasks' : List (ι × Program Call Answer Unit Unit)} {i : ι} {c : Call}
    {next : Answer c → Program Call Answer Unit Unit} {answer : Answer c} (n : Nat)
    (h : sys.Answers i s c answer s') (htask : tasks[n]? = some (i, .call c next))
    (hafter : tasks' = tasks.set n (i, next answer)) : Step sys ⟨s, tasks⟩ ⟨s', tasks'⟩ := by
  subst hafter
  exact .answer htask h

abbrev Reaches (sys : System ι S Call Answer) := Relation.ReflTransGen (Step sys)

theorem Step.weaken {sys sys' : System ι S Call Answer} {a b : State ι S Call Answer}
    (h : sys.Step a b) (hstarts : ∀ i p, sys.Starts i p → sys'.Starts i p)
    (hanswers : ∀ i s c answer s', sys.Answers i s c answer s' → sys'.Answers i s c answer s') :
    sys'.Step a b := by
  cases h with
  | start hstart => exact .start (hstarts _ _ hstart)
  | answer htask hanswer => exact .answer htask (hanswers _ _ _ _ _ hanswer)

theorem Reaches.weaken {sys sys' : System ι S Call Answer} {a b : State ι S Call Answer}
    (h : sys.Reaches a b) (hstarts : ∀ i p, sys.Starts i p → sys'.Starts i p)
    (hanswers : ∀ i s c answer s', sys.Answers i s c answer s' → sys'.Answers i s c answer s') :
    sys'.Reaches a b :=
  Relation.ReflTransGen.mono (fun _ _ hstep => hstep.weaken hstarts hanswers) _ _ h

theorem Step.of_restrict {sys : System ι S Call Answer}
    {Cond : ι → S → (c : Call) → Answer c → Prop} {a b : State ι S Call Answer}
    (h : (sys.restrict Cond).Step a b) : sys.Step a b :=
  h.weaken (fun _ _ hstart => hstart) fun _ _ _ _ _ hanswer => hanswer.2

theorem Reaches.of_restrict {sys : System ι S Call Answer}
    {Cond : ι → S → (c : Call) → Answer c → Prop} {a b : State ι S Call Answer}
    (h : (sys.restrict Cond).Reaches a b) : sys.Reaches a b :=
  Relation.ReflTransGen.mono (fun _ _ hstep => hstep.of_restrict) _ _ h

theorem Reaches.traced {sys : System ι S Call Answer}
    {Cond : ι → S → (c : Call) → Answer c → Prop} {a b : State ι S Call Answer}
    (h : (sys.restrict Cond).Reaches a b) :
    ∃ events, sys.traced.Reaches ⟨(a.shared, []), a.tasks⟩ ⟨(b.shared, events), b.tasks⟩ ∧
      ∀ event ∈ events, ∃ s, Cond event.1 s event.2.1 event.2.2 := by
  induction h with
  | refl => exact ⟨[], .refl, fun _ hevent => absurd hevent List.not_mem_nil⟩
  | tail _ hstep ih =>
      obtain ⟨events, hrun, hmeets⟩ := ih
      cases hstep with
      | start hstart => exact ⟨events, hrun.tail (.start hstart), hmeets⟩
      | answer htask hanswer =>
          refine ⟨_, hrun.tail (.answer htask ⟨hanswer.2, rfl⟩), ?_⟩
          intro event hevent
          rcases List.mem_cons.mp hevent with rfl | hold
          · exact ⟨_, hanswer.1⟩
          · exact hmeets event hold

/-- Every run can be recorded, after whatever was recorded before. -/
theorem Reaches.recorded {sys : System ι S Call Answer} {a b : State ι S Call Answer}
    (h : sys.Reaches a b) (before : List (Event ι Call Answer)) : ∃ events,
      sys.traced.Reaches ⟨(a.shared, before), a.tasks⟩ ⟨(b.shared, events), b.tasks⟩ := by
  induction h with
  | refl => exact ⟨before, .refl⟩
  | tail _ hstep ih =>
      obtain ⟨events, hrun⟩ := ih
      cases hstep with
      | start hstart => exact ⟨events, hrun.tail (.start hstart)⟩
      | answer htask hanswer => exact ⟨_, hrun.tail (.answer htask ⟨hanswer, rfl⟩)⟩

theorem Reaches.of_traced {sys : System ι S Call Answer}
    {a b : State ι (S × List (Event ι Call Answer)) Call Answer} (h : sys.traced.Reaches a b) :
    sys.Reaches ⟨a.shared.1, a.tasks⟩ ⟨b.shared.1, b.tasks⟩ := by
  induction h with
  | refl => exact .refl
  | tail _ hstep ih =>
      cases hstep with
      | start hstart => exact ih.tail (.start hstart)
      | answer htask hanswer => exact ih.tail (.answer htask hanswer.1)

/-- A predicate that every step preserves holds along every run. -/
theorem Reaches.invariant {sys : System ι S Call Answer} {P : State ι S Call Answer → Prop}
    {a b : State ι S Call Answer} (h : sys.Reaches a b) (ha : P a)
    (hstep : ∀ a b, P a → sys.Step a b → P b) : P b := by
  induction h with
  | refl => exact ha
  | tail _ hab ih => exact hstep _ _ ih hab

section Tasks

variable {sys : System ι S Call Answer} {a : State ι S Call Answer} {i : ι}
variable {p : Program Call Answer Unit Unit}

theorem getElem?_append_start (n : Nat) {i : ι} {p : Program Call Answer Unit Unit} {t}
    (h : (a.tasks ++ [(i, p)])[n]? = some t) : a.tasks[n]? = some t ∨ t = (i, p) := by
  rcases Nat.lt_or_ge n a.tasks.length with hn | hn
  · rw [List.getElem?_append_left hn] at h
    exact Or.inl h
  · rw [List.getElem?_append_right hn] at h
    exact Or.inr (List.mem_singleton.mp (List.mem_of_getElem? h))

theorem getElem?_set_answer {n m : Nat} {t u : ι × Program Call Answer Unit Unit}
    (h : (a.tasks.set n u)[m]? = some t) : (n ≠ m ∧ a.tasks[m]? = some t) ∨ t = u := by
  by_cases hnm : n = m
  · subst hnm
    rw [List.getElem?_set_self'] at h
    cases htask : a.tasks[n]? with
    | none =>
        rw [htask] at h
        cases h
    | some v =>
        rw [htask] at h
        cases h
        exact Or.inr rfl
  · rw [List.getElem?_set_ne hnm] at h
    exact Or.inl ⟨hnm, h⟩

/-! ## The calls that tasks are about to make -/

theorem State.AboutTo.start {c : Call} (h : a.AboutTo i c) (t : ι × Program Call Answer Unit Unit) :
    (⟨a.shared, a.tasks ++ [t]⟩ : State ι S Call Answer).AboutTo i c := by
  obtain ⟨n, q, htask, hfirst⟩ := h
  refine ⟨n, q, ?_, hfirst⟩
  rw [List.getElem?_append_left (List.getElem?_eq_some_iff.mp htask).1]
  exact htask

theorem State.not_aboutTo_of_ended {c : Call} (h : ∀ t ∈ a.tasks, t.2.first = none) :
    ¬ a.AboutTo i c := by
  rintro ⟨n, p, htask, hfirst⟩
  rw [show p.first = none from h _ (List.mem_of_getElem? htask)] at hfirst
  cases hfirst

theorem State.AboutTo.answer {c c' : Call} {n : Nat} {j : ι}
    {next : Answer c' → Program Call Answer Unit Unit} {s' : S}
    {t : ι × Program Call Answer Unit Unit} (h : a.AboutTo i c)
    (htask : a.tasks[n]? = some (j, .call c' next)) (hother : i ≠ j ∨ c ≠ c') :
    (⟨s', a.tasks.set n t⟩ : State ι S Call Answer).AboutTo i c := by
  obtain ⟨m, q, hq, hfirst⟩ := h
  refine ⟨m, q, ?_, hfirst⟩
  have hne : n ≠ m := by
    rintro rfl
    rw [htask] at hq
    cases hq
    cases hfirst
    rcases hother with hi | hc
    · exact hi rfl
    · exact hc rfl
  rw [List.getElem?_set_ne hne]
  exact hq

theorem State.aboutTo_next {c c' : Call} {n : Nat} {next : Answer c' → Program Call Answer Unit Unit}
    {answer : Answer c'} {s' : S} (htask : a.tasks[n]? = some (i, .call c' next))
    (hfirst : (next answer).first = some c) :
    (⟨s', a.tasks.set n (i, next answer)⟩ : State ι S Call Answer).AboutTo i c :=
  ⟨n, next answer, List.getElem?_set_self (List.getElem?_eq_some_iff.mp htask).1, hfirst⟩

theorem reaches_of_advances {n : Nat} {s s' : S} {q : Program Call Answer Unit Unit}
    {tasks : List (ι × Program Call Answer Unit Unit)}
    (h : Program.Advances (sys.Answers i) s p s' q) (htask : tasks[n]? = some (i, p)) :
    sys.Reaches ⟨s, tasks⟩ ⟨s', tasks.set n (i, q)⟩ := by
  obtain ⟨hlt, hget⟩ := List.getElem?_eq_some_iff.mp htask
  induction h generalizing tasks with
  | refl s p =>
      rw [← hget, List.set_getElem_self hlt]
  | @call s s' s'' c next q answer h _ ih =>
      have hset : (tasks.set n (i, next answer))[n]? = some (i, next answer) :=
        List.getElem?_set_self hlt
      obtain ⟨hlt', hget'⟩ := List.getElem?_eq_some_iff.mp hset
      have hrest := ih hset hlt' hget'
      rw [List.set_set] at hrest
      exact .head (.answer htask h) hrest

theorem reaches_of_runs {n : Nat} {s s' : S} {out : Except Unit Unit}
    {tasks : List (ι × Program Call Answer Unit Unit)}
    (hruns : Program.Runs (sys.Answers i) s p out s')
    (htask : tasks[n]? = some (i, p)) :
    sys.Reaches ⟨s, tasks⟩ ⟨s', tasks.set n (i, .ofExcept out)⟩ :=
  reaches_of_advances (.of_runs hruns) htask

theorem reaches_task {s s' : S} {out : Except Unit Unit} (hstart : sys.Starts i p)
    (hruns : Program.Runs (sys.Answers i) s p out s')
    (tasks : List (ι × Program Call Answer Unit Unit)) :
    sys.Reaches ⟨s, tasks⟩ ⟨s', tasks ++ [(i, .ofExcept out)]⟩ := by
  have htask : (tasks ++ [(i, p)])[tasks.length]? = some (i, p) := by
    rw [List.getElem?_append_right (Nat.le_refl _), Nat.sub_self]
    rfl
  have hset : (tasks ++ [(i, p)]).set tasks.length (i, .ofExcept out) =
      tasks ++ [(i, .ofExcept out)] := by
    rw [List.set_append_right _ _ (Nat.le_refl _), Nat.sub_self]
    rfl
  have hrest : sys.Reaches _ _ := reaches_of_runs hruns htask
  rw [hset] at hrest
  exact .head (.start hstart) hrest

end Tasks

/-! ## The invariant rule -/

/-- The shared state satisfies the invariant and every task keeps the contract
from here on. -/
def Kept (C : Contract ι W Call Answer) (view : S → W) (I : S → Prop)
    (a : State ι S Call Answer) : Prop :=
  I a.shared ∧ ∀ (n : Nat) (i : ι) (p : Program Call Answer Unit Unit),
    a.tasks[n]? = some (i, p) → C.Meets i p (fun _ _ => True) (view a.shared)

/-- What the surroundings owe the tasks: while a task makes a call as the
contract requires, the invariant is kept, the world moves forward and the answer
is as ensured. -/
def Honours (sys : System ι S Call Answer) (C : Contract ι W Call Answer) (view : S → W)
    (I : S → Prop) : Prop :=
  ∀ i s c following answer s', I s → C.Requires i (view s) c following →
    sys.Answers i s c answer s' →
      I s' ∧ C.Later (view s) (view s') ∧ C.Ensures i (view s') c answer

variable {sys : System ι S Call Answer} {C : Contract ι W Call Answer} {view : S → W}
variable {I : S → Prop} {a b : State ι S Call Answer}

theorem Honours.restrict (h : sys.Honours C view I)
    (Cond : ι → S → (c : Call) → Answer c → Prop) : (sys.restrict Cond).Honours C view I :=
  fun i s c following answer s' hs hreq hanswer => h i s c following answer s' hs hreq hanswer.2

theorem Honours.traced (h : sys.Honours C view I) :
    sys.traced.Honours C (fun s => view s.1) (fun s => I s.1) :=
  fun i s c following answer s' hs hreq hanswer =>
    h i s.1 c following answer s'.1 hs hreq hanswer.1

theorem Kept.requires {n : Nat} {i : ι} {c : Call}
    {next : Answer c → Program Call Answer Unit Unit} (h : Kept C view I a)
    (htask : a.tasks[n]? = some (i, .call c next)) :
    C.Requires i (view a.shared) c (fun answer => (next answer).first) :=
  (h.2 n i _ htask _ (C.refl _)).1

theorem Kept.later (hcalls : sys.Honours C view I) (ha : Kept C view I a) (hstep : sys.Step a b) :
    C.Later (view a.shared) (view b.shared) := by
  cases hstep with
  | start hstart => exact C.refl _
  | answer htask hanswer =>
      exact (hcalls _ _ _ _ _ _ ha.1 (ha.requires htask) hanswer).2.1

theorem kept_step (hstarts : ∀ i p w, sys.Starts i p → C.Meets i p (fun _ _ => True) w)
    (hcalls : sys.Honours C view I) (ha : Kept C view I a) (hstep : sys.Step a b) :
    Kept C view I b := by
  cases hstep with
  | start hstart =>
      refine ⟨ha.1, ?_⟩
      intro m j q htask
      rcases getElem?_append_start m htask with hold | hnew
      · exact ha.2 m j q hold
      · cases hnew
        exact hstarts _ _ _ hstart
  | @answer n i c next answer s' htask hanswer =>
      obtain ⟨hreq, hnext⟩ := ha.2 n i _ htask _ (C.refl _)
      obtain ⟨hI, hlater, hens⟩ := hcalls i _ c _ answer s' ha.1 hreq hanswer
      refine ⟨hI, ?_⟩
      intro m j q hq
      rcases getElem?_set_answer hq with ⟨-, hold⟩ | hnew
      · exact (ha.2 m j q hold).later (fun _ _ _ _ h => h) hlater
      · cases hnew
        exact hnext answer _ hlater hens

/-- Tasks that keep the contract in surroundings that honour it preserve the
invariant along every run. -/
theorem kept_of_reaches (hstarts : ∀ i p w, sys.Starts i p → C.Meets i p (fun _ _ => True) w)
    (hcalls : sys.Honours C view I) {s : S} (hinit : I s)
    (hreach : sys.Reaches (State.init s) b) : Kept C view I b := by
  refine hreach.invariant ⟨hinit, ?_⟩ fun a b ha hstep => kept_step hstarts hcalls ha hstep
  intro n i p htask
  cases htask

/-! ## Tasks that exclude each other -/

def Exclusive (C : Contract ι W Call Answer) (view : S → W) (a : State ι S Call Answer) : Prop :=
  ∀ (n m : Nat) (i : ι) (p q : Program Call Answer Unit Unit), n ≠ m →
    a.tasks[n]? = some (i, p) → a.tasks[m]? = some (i, q) →
      C.Meets i p (fun _ _ => True) (view a.shared) ∨ C.Meets i q (fun _ _ => True) (view a.shared)

theorem exclusive_of_nodup (h : (a.tasks.map Prod.fst).Nodup) : Exclusive C view a := by
  intro n m i p q hnm hn hm
  refine absurd ?_ hnm
  refine (List.getElem?_inj ?_ h).mp ?_
  · rw [List.length_map]
    exact (List.getElem?_eq_some_iff.mp hn).1
  · rw [List.getElem?_map, List.getElem?_map, hn, hm]
    rfl

/-- While a task makes a call that the contract does not allow, the others of its
party keep the contract. -/
theorem Exclusive.others {n m : Nat} {i : ι} {c : Call}
    {next : Answer c → Program Call Answer Unit Unit} {q : Program Call Answer Unit Unit}
    (h : Exclusive C view a) (htask : a.tasks[n]? = some (i, .call c next))
    (hforbidden : ∀ following, ¬ C.Requires i (view a.shared) c following) (hnm : n ≠ m)
    (hq : a.tasks[m]? = some (i, q)) : C.Meets i q (fun _ _ => True) (view a.shared) := by
  rcases h n m i _ q hnm htask hq with hmeets | hmeets
  · exact absurd (hmeets _ (C.refl _)).1 (hforbidden _)
  · exact hmeets

theorem exclusive_step (hstarts : ∀ i p w, sys.Starts i p → C.Meets i p (fun _ _ => True) w)
    (hcalls : sys.Honours C view I) (hI : I a.shared)
    (hlater : C.Later (view a.shared) (view b.shared)) (ha : Exclusive C view a)
    (hstep : sys.Step a b) : Exclusive C view b := by
  intro n m i p q hnm hn hm
  cases hstep with
  | start hstart =>
      rcases getElem?_append_start n hn with hold | hnew
      · rcases getElem?_append_start m hm with hold' | hnew'
        · exact ha n m i p q hnm hold hold'
        · cases hnew'
          exact Or.inr (hstarts _ _ _ hstart)
      · cases hnew
        exact Or.inl (hstarts _ _ _ hstart)
  | @answer k j c next answer s' htask hanswer =>
      -- a task that keeps the contract goes on to keep it, answered or not
      have hmeets : ∀ (l : Nat) (p : Program Call Answer Unit Unit),
          (a.tasks.set k (j, next answer))[l]? = some (i, p) →
            ∃ p', a.tasks[l]? = some (i, p') ∧ (C.Meets i p' (fun _ _ => True) (view a.shared) →
              C.Meets i p (fun _ _ => True) (view s')) := by
        intro l p hl
        by_cases hkl : k = l
        · subst hkl
          rw [List.getElem?_set_self (List.getElem?_eq_some_iff.mp htask).1] at hl
          cases hl
          refine ⟨_, htask, fun hcall => ?_⟩
          obtain ⟨hreq, hnext⟩ := hcall _ (C.refl _)
          exact hnext answer _ hlater (hcalls _ _ _ _ _ _ hI hreq hanswer).2.2
        · rw [List.getElem?_set_ne hkl] at hl
          exact ⟨p, hl, fun hold => hold.later (fun _ _ _ _ h => h) hlater⟩
      obtain ⟨p', hp', hnext⟩ := hmeets n p hn
      obtain ⟨q', hq', hnext'⟩ := hmeets m q hm
      exact (ha n m i p' q' hnm hp' hq').imp hnext hnext'

/-! ## One task among the others -/

/-- A task goes on to do what its program promises, while all other tasks run:
`P` is what is known of the whole system, from which each answer is as ensured
and moves the world forward. -/
theorem Reaches.meets {P : State ι S Call Answer → Prop} {post : W → Except Unit Unit → Prop}
    {n : Nat} {i : ι} {p : Program Call Answer Unit Unit} (h : sys.Reaches a b)
    (hpost : ∀ out w w', C.Later w w' → post w out → post w' out)
    (hP : ∀ a b, P a → sys.Step a b → P b)
    (hanswers : ∀ (a : State ι S Call Answer) (n : Nat) j c next answer s', P a →
      a.tasks[n]? = some (j, .call c next) → sys.Answers j a.shared c answer s' →
        C.Later (view a.shared) (view s') ∧ C.Ensures j (view s') c answer)
    (ha : P a) (htask : a.tasks[n]? = some (i, p)) (hp : C.Meets i p post (view a.shared)) :
    ∃ q, b.tasks[n]? = some (i, q) ∧ C.Meets i q post (view b.shared) := by
  have hrun : P b ∧ ∃ q, b.tasks[n]? = some (i, q) ∧ C.Meets i q post (view b.shared) := by
    induction h with
    | refl => exact ⟨ha, p, htask, hp⟩
    | @tail b b' _ hstep ih =>
        obtain ⟨hb, q, hq, hmeets⟩ := ih
        refine ⟨hP _ _ hb hstep, ?_⟩
        cases hstep with
        | start hstart =>
            refine ⟨q, ?_, hmeets⟩
            rw [List.getElem?_append_left (List.getElem?_eq_some_iff.mp hq).1]
            exact hq
        | @answer m j c next answer s' htask' hanswer =>
            obtain ⟨hlater, hens⟩ := hanswers b m j c next answer s' hb htask' hanswer
            by_cases hm : m = n
            · subst hm
              rw [hq] at htask'
              cases htask'
              refine ⟨next answer, List.getElem?_set_self (List.getElem?_eq_some_iff.mp hq).1, ?_⟩
              exact (hmeets _ (C.refl _)).2 answer _ hlater hens
            · refine ⟨q, ?_, hmeets.later hpost hlater⟩
              rw [List.getElem?_set_ne hm]
              exact hq
  exact hrun.2

/-- What a program achieves when it returns holds once its task has returned. -/
theorem Reaches.gives (view : S → W) {P : State ι S Call Answer → Prop} {Q : W → Prop} {n : Nat}
    {i : ι} {p : Program Call Answer Unit Unit} (h : sys.Reaches a b)
    (hQ : ∀ w w', C.Later w w' → Q w → Q w') (hP : ∀ a b, P a → sys.Step a b → P b)
    (hanswers : ∀ (a : State ι S Call Answer) (n : Nat) j c next answer s', P a →
      a.tasks[n]? = some (j, .call c next) → sys.Answers j a.shared c answer s' →
        C.Later (view a.shared) (view s') ∧ C.Ensures j (view s') c answer)
    (ha : P a) (htask : a.tasks[n]? = some (i, p)) (hp : C.Gives i p (fun _ => Q) (view a.shared))
    (hdone : b.tasks[n]? = some (i, .ret ())) : Q (view b.shared) := by
  obtain ⟨q, hq, hmeets⟩ := h.meets
    (fun out w w' hlater hout u hu => hQ w w' hlater (hout u hu)) hP hanswers ha htask hp
  rw [hdone] at hq
  cases hq
  exact hmeets () rfl

end System
