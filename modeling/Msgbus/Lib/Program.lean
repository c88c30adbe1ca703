import Mathlib.Data.Option.Basic

/-!
# Programs that make calls

A program is the tree of the calls it makes to its surroundings: it returns,
fails, or makes a call and goes on with the answer.  A loop of such a program is
a recursive definition; what a call does is fixed elsewhere, so one program can
be run alone, or interleaved with others between any two of its calls.

`Contract.Meets` is a rely-guarantee judgement over such trees.  The state of
the surroundings enters through what is known about it, a world, which only
moves to later worlds while others run; before each call the program owes what
the contract requires, and after it may use what the contract ensures.
-/

inductive Program (Call : Type) (Answer : Call → Type) (ε α : Type) where
  | ret (value : α)
  | fail (error : ε)
  | call (c : Call) (next : Answer c → Program Call Answer ε α)

namespace Program

variable {Call : Type} {Answer : Call → Type} {ε ε' α β : Type}

def bind (p : Program Call Answer ε α) (f : α → Program Call Answer ε β) :
    Program Call Answer ε β :=
  match p with
  | ret a => f a
  | fail e => fail e
  | call c next => call c fun answer => (next answer).bind f

instance : Monad (Program Call Answer ε) where
  pure := ret
  bind := bind

theorem bind_assoc {γ : Type} (p : Program Call Answer ε α) (f : α → Program Call Answer ε β)
    (g : β → Program Call Answer ε γ) : (p.bind f).bind g = p.bind fun a => (f a).bind g := by
  induction p with
  | ret a => rfl
  | fail e => rfl
  | call c next ih => exact congrArg (call c) (funext ih)

def ofExcept : Except ε α → Program Call Answer ε α
  | .ok a => ret a
  | .error e => fail e

def mapError (f : ε → ε') : Program Call Answer ε α → Program Call Answer ε' α
  | ret a => ret a
  | fail e => fail (f e)
  | call c next => call c fun answer => (next answer).mapError f

def attempt : Program Call Answer ε α → Program Call Answer ε' (Except ε α)
  | ret a => ret (.ok a)
  | fail e => ret (.error e)
  | call c next => call c fun answer => (next answer).attempt

def discard : Program Call Answer ε α → Program Call Answer Unit Unit
  | ret _ => ret ()
  | fail _ => fail ()
  | call c next => call c fun answer => (next answer).discard

def first : Program Call Answer ε α → Option Call
  | ret _ => none
  | fail _ => none
  | call c _ => some c

theorem first_bind {p : Program Call Answer ε α} (f : α → Program Call Answer ε β) {c : Call}
    (h : p.first = some c) : (p.bind f).first = some c := by
  cases p with
  | ret a => cases h
  | fail e => cases h
  | call c' next => exact h

theorem first_mapError {p : Program Call Answer ε α} (f : ε → ε') :
    (p.mapError f).first = p.first := by
  cases p with
  | ret a => rfl
  | fail e => rfl
  | call c next => rfl

theorem first_attempt {p : Program Call Answer ε α} :
    (p.attempt : Program Call Answer ε' (Except ε α)).first = p.first := by
  cases p with
  | ret a => rfl
  | fail e => rfl
  | call c next => rfl

theorem first_discard {p : Program Call Answer ε α} : p.discard.first = p.first := by
  cases p with
  | ret a => rfl
  | fail e => rfl
  | call c next => rfl

/-! ## Running a program alone -/

/-- A run of a program to its end, with nothing else going on: `answers` says
how a state may answer a call and which state follows. -/
inductive Runs {S : Type} (answers : S → (c : Call) → Answer c → S → Prop) :
    S → Program Call Answer ε α → Except ε α → S → Prop where
  | ret (s : S) (a : α) : Runs answers s (ret a) (.ok a) s
  | fail (s : S) (e : ε) : Runs answers s (fail e) (.error e) s
  | call {s s' s'' : S} {c : Call} {next : Answer c → Program Call Answer ε α}
      {answer : Answer c} {out : Except ε α} (h : answers s c answer s')
      (rest : Runs answers s' (next answer) out s'') : Runs answers s (call c next) out s''

namespace Runs

variable {S : Type} {answers : S → (c : Call) → Answer c → S → Prop} {s s' s'' : S}

theorem bind {p : Program Call Answer ε α} {f : α → Program Call Answer ε β} {a : α}
    {out : Except ε β} (hp : Runs answers s p (.ok a) s') (hf : Runs answers s' (f a) out s'') :
    Runs answers s (p.bind f) out s'' := by
  generalize hok : Except.ok a = first at hp
  induction hp with
  | ret s b =>
      cases hok
      exact hf
  | fail s e => cases hok
  | call h _ ih => exact .call h (ih hf hok)

theorem bind_error {p : Program Call Answer ε α} {f : α → Program Call Answer ε β} {e : ε}
    (hp : Runs answers s p (.error e) s') : Runs answers s (p.bind f) (.error e) s' := by
  generalize herror : Except.error e = first at hp
  induction hp with
  | ret s b => cases herror
  | fail s e' =>
      cases herror
      exact .fail s e
  | call h _ ih => exact .call h (ih herror)

theorem mapError {p : Program Call Answer ε α} {out : Except ε α} (f : ε → ε')
    (hp : Runs answers s p out s') : Runs answers s (p.mapError f) (out.mapError f) s' := by
  induction hp with
  | ret s a => exact .ret s a
  | fail s e => exact .fail s (f e)
  | call h _ ih => exact .call h ih

theorem attempt {p : Program Call Answer ε α} {out : Except ε α} (hp : Runs answers s p out s') :
    Runs answers s (p.attempt : Program Call Answer ε' (Except ε α)) (.ok out) s' := by
  induction hp with
  | ret s a => exact .ret s _
  | fail s e => exact .ret s _
  | call h _ ih => exact .call h ih

theorem discard {p : Program Call Answer ε α} {out : Except ε α} (hp : Runs answers s p out s') :
    Runs answers s p.discard ((out.mapError fun _ => ()).map fun _ => ()) s' := by
  induction hp with
  | ret s a => exact .ret s ()
  | fail s e => exact .fail s ()
  | call h _ ih => exact .call h ih

theorem bind_cases {p : Program Call Answer ε α} {f : α → Program Call Answer ε β}
    {out : Except ε β} (h : Runs answers s (p >>= f) out s'') :
    (∃ a s', Runs answers s p (.ok a) s' ∧ Runs answers s' (f a) out s'') ∨
      ∃ e, out = .error e ∧ Runs answers s p (.error e) s'' := by
  induction p generalizing s with
  | ret a => exact Or.inl ⟨a, s, .ret s a, h⟩
  | fail e =>
      cases h
      exact Or.inr ⟨e, rfl, .fail _ e⟩
  | call c next ih =>
      cases h with
      | call hanswer hrest =>
          rcases ih _ hrest with ⟨a, t, hp, hf⟩ | ⟨e, rfl, hp⟩
          · exact Or.inl ⟨a, t, .call hanswer hp, hf⟩
          · exact Or.inr ⟨e, rfl, .call hanswer hp⟩

theorem of_bind {p : Program Call Answer ε α} {f : α → Program Call Answer ε β} {b : β}
    (h : Runs answers s (p >>= f) (.ok b) s'') :
    ∃ a s', Runs answers s p (.ok a) s' ∧ Runs answers s' (f a) (.ok b) s'' := by
  rcases bind_cases h with hparts | ⟨e, herror, -⟩
  · exact hparts
  · cases herror

theorem of_mapError {p : Program Call Answer ε α} {f : ε → ε'} {a : α}
    (h : Runs answers s (p.mapError f) (.ok a) s') : Runs answers s p (.ok a) s' := by
  induction p generalizing s with
  | ret b =>
      cases h
      exact .ret _ _
  | fail e => cases h
  | call c next ih =>
      cases h with
      | call hanswer hrest => exact .call hanswer (ih _ hrest)

theorem mono {answers' : S → (c : Call) → Answer c → S → Prop} {p : Program Call Answer ε α}
    {out : Except ε α} (hp : Runs answers s p out s')
    (hmore : ∀ s c answer s', answers s c answer s' → answers' s c answer s') :
    Runs answers' s p out s' := by
  induction hp with
  | ret s a => exact .ret s a
  | fail s e => exact .fail s e
  | call h _ ih => exact .call (hmore _ _ _ _ h) ih

theorem preserves {p : Program Call Answer ε α} {out : Except ε α} {I : S → Prop}
    (h : Runs answers s p out s') (hs : I s)
    (hkeep : ∀ s c answer s', I s → answers s c answer s' → I s') : I s' := by
  induction h with
  | ret s a => exact hs
  | fail s e => exact hs
  | call hanswer _ ih => exact ih (hkeep _ _ _ _ hs hanswer)

theorem of_ofExcept {r : Except ε α} {a : α} (h : Runs answers s (ofExcept r) (.ok a) s') :
    r = .ok a ∧ s' = s := by
  cases r with
  | ok b =>
      cases h
      exact ⟨rfl, rfl⟩
  | error e => cases h

theorem of_pure {a b : α} (h : Runs answers s (pure a : Program Call Answer ε α) (.ok b) s') :
    b = a ∧ s' = s := by
  cases h
  exact ⟨rfl, rfl⟩

end Runs

/-! ## Running part of a program -/

/-- Some first calls of a program are answered, and `q` is what is left of it. -/
inductive Advances {S : Type} (answers : S → (c : Call) → Answer c → S → Prop) :
    S → Program Call Answer ε α → S → Program Call Answer ε α → Prop where
  | refl (s : S) (p : Program Call Answer ε α) : Advances answers s p s p
  | call {s s' s'' : S} {c : Call} {next : Answer c → Program Call Answer ε α}
      {q : Program Call Answer ε α} {answer : Answer c} (h : answers s c answer s')
      (rest : Advances answers s' (next answer) s'' q) : Advances answers s (call c next) s'' q

namespace Advances

variable {S : Type} {answers : S → (c : Call) → Answer c → S → Prop} {s s' s'' : S}
variable {p q r : Program Call Answer ε α}

theorem of_runs {out : Except ε α} (h : Runs answers s p out s') :
    Advances answers s p s' (ofExcept out) := by
  induction h with
  | ret s a => exact .refl s _
  | fail s e => exact .refl s _
  | call h _ ih => exact .call h ih

theorem trans (hp : Advances answers s p s' q) (hq : Advances answers s' q s'' r) :
    Advances answers s p s'' r := by
  induction hp with
  | refl s p => exact hq
  | call h _ ih => exact .call h (ih hq)

theorem bind (h : Advances answers s p s' q) (f : α → Program Call Answer ε β) :
    Advances answers s (p.bind f) s' (q.bind f) := by
  induction h with
  | refl s p => exact .refl s _
  | call h _ ih => exact .call h ih

theorem attempt (h : Advances answers s p s' q) :
    Advances answers s (p.attempt : Program Call Answer ε' (Except ε α)) s' q.attempt := by
  induction h with
  | refl s p => exact .refl s _
  | call h _ ih => exact .call h ih

theorem discard (h : Advances answers s p s' q) :
    Advances answers s p.discard s' q.discard := by
  induction h with
  | refl s p => exact .refl s _
  | call h _ ih => exact .call h ih

end Advances

/-! ## The calls of a program -/

section Calls

variable {A : Call → Prop} {p : Program Call Answer ε α}

variable (A) in
/-- Whatever it is answered, the program only makes calls in `A`. -/
def Calls : Program Call Answer ε α → Prop
  | ret _ => True
  | fail _ => True
  | call c next => A c ∧ ∀ answer, Calls (next answer)

theorem Calls.bind {f : α → Program Call Answer ε β} (hp : Calls A p) (hf : ∀ a, Calls A (f a)) :
    Calls A (p >>= f) := by
  induction p with
  | ret a => exact hf a
  | fail e => exact trivial
  | call c next ih => exact ⟨hp.1, fun answer => ih answer (hp.2 answer)⟩

theorem Calls.mapError {f : ε → ε'} (hp : Calls A p) : Calls A (p.mapError f) := by
  induction p with
  | ret a => exact trivial
  | fail e => exact trivial
  | call c next ih => exact ⟨hp.1, fun answer => ih answer (hp.2 answer)⟩

theorem calls_ofExcept (r : Except ε α) : Calls A (ofExcept r : Program Call Answer ε α) := by
  cases r with
  | ok a => exact trivial
  | error e => exact trivial

theorem Runs.invariant {S : Type} {answers : S → (c : Call) → Answer c → S → Prop} {s s' : S}
    {out : Except ε α} {I : S → Prop} (hruns : Runs answers s p out s') (hp : Calls A p) (hs : I s)
    (hkeep : ∀ s c answer s', I s → A c → answers s c answer s' → I s') : I s' := by
  induction hruns with
  | ret s a => exact hs
  | fail s e => exact hs
  | call hanswer _ ih => exact ih (hp.2 _) (hkeep _ _ _ _ hs hp.1 hanswer)

theorem Runs.mono_of_calls {S : Type} {answers answers' : S → (c : Call) → Answer c → S → Prop}
    {s s' : S} {out : Except ε α} (hruns : Runs answers s p out s') (hp : Calls A p)
    (hmore : ∀ s c answer s', A c → answers s c answer s' → answers' s c answer s') :
    Runs answers' s p out s' := by
  induction hruns with
  | ret s a => exact .ret s a
  | fail s e => exact .fail s e
  | call hanswer _ ih => exact .call (hmore _ _ _ _ hp.1 hanswer) (ih (hp.2 _))

end Calls

/-! ## How often a program makes a call -/

section AtMost

variable {P : Call → Bool} {p : Program Call Answer ε α} {n m : Nat}

variable (P) in
/-- Whatever it is answered, the program makes at most `n` calls in `P`. -/
def AtMost : Program Call Answer ε α → Nat → Prop
  | ret _, _ => True
  | fail _, _ => True
  | call c next, n =>
      (P c = true → 0 < n) ∧ ∀ answer, AtMost (next answer) (if P c = true then n - 1 else n)

theorem AtMost.mono (hp : AtMost P p n) (hle : n ≤ m) : AtMost P p m := by
  induction p generalizing n m with
  | ret a => exact trivial
  | fail e => exact trivial
  | call c next ih =>
      refine ⟨fun hc => Nat.lt_of_lt_of_le (hp.1 hc) hle, fun answer => ih answer (hp.2 answer) ?_⟩
      split
      · omega
      · exact hle

theorem AtMost.bind {f : α → Program Call Answer ε β} (hp : AtMost P p n)
    (hf : ∀ a, AtMost P (f a) m) : AtMost P (p >>= f) (n + m) := by
  induction p generalizing n with
  | ret a => exact (hf a).mono (Nat.le_add_left m n)
  | fail e => exact trivial
  | call c next ih =>
      refine ⟨fun hc => Nat.lt_of_lt_of_le (hp.1 hc) (Nat.le_add_right n m), fun answer => ?_⟩
      refine (ih answer (hp.2 answer)).mono ?_
      by_cases hc : P c = true
      · have hpos := hp.1 hc
        rw [if_pos hc, if_pos hc]
        omega
      · exact Nat.le_of_eq (by rw [if_neg hc, if_neg hc])

theorem Calls.atMost (hp : Calls (fun c => P c = false) p) (n : Nat) : AtMost P p n := by
  induction p with
  | ret a => exact trivial
  | fail e => exact trivial
  | call c next ih =>
      refine ⟨fun hc => ?_, fun answer => ?_⟩
      · rw [hp.1] at hc
        cases hc
      · rw [if_neg (by rw [hp.1]; exact Bool.false_ne_true)]
        exact ih answer (hp.2 answer)

theorem Calls.atMost_bind {f : α → Program Call Answer ε β} (hp : Calls (fun c => P c = false) p)
    (hf : ∀ a, AtMost P (f a) m) : AtMost P (p >>= f) m :=
  ((hp.atMost 0).bind hf).mono (Nat.le_of_eq (Nat.zero_add m))

/-- What counts the calls in `P` counts at most `n` of them in a run. -/
theorem AtMost.of_runs {S : Type} {answers : S → (c : Call) → Answer c → S → Prop} {s s' : S}
    {out : Except ε α} (count : S → Nat) (hp : AtMost P p n) (hruns : Runs answers s p out s')
    (hcount : ∀ s c answer s', answers s c answer s' →
      count s' = count s + if P c = true then 1 else 0) : count s' ≤ count s + n := by
  induction hruns generalizing n with
  | ret s a => exact Nat.le_add_right _ _
  | fail s e => exact Nat.le_add_right _ _
  | @call s s' s'' c next answer out hanswer _ ih =>
      have hrest := ih (hp.2 answer)
      rw [hcount _ _ _ _ hanswer] at hrest
      by_cases hc : P c = true
      · have hpos := hp.1 hc
        rw [if_pos hc, if_pos hc] at hrest
        omega
      · rw [if_neg hc, if_neg hc] at hrest
        exact hrest

end AtMost

/-! ## Every run of a program -/

section Performs

variable {S : Type} {answers : S → (c : Call) → Answer c → S → Prop} {Asks : S → Call → Prop}
variable {p : Program Call Answer ε α} {s : S}

variable (answers Asks) in
/-- However its calls are answered, the program only makes calls that may be
asked for, and ends with `post`. -/
def Performs : Program Call Answer ε α → (Except ε α → S → Prop) → S → Prop
  | ret a, post, s => post (.ok a) s
  | fail e, post, s => post (.error e) s
  | call c next, post, s =>
      Asks s c ∧ ∀ answer s', answers s c answer s' → Performs (next answer) post s'

theorem Performs.consequence {post post' : Except ε α → S → Prop}
    (h : Performs answers Asks p post s) (hpost : ∀ out s', post out s' → post' out s') :
    Performs answers Asks p post' s := by
  induction p generalizing s with
  | ret a => exact hpost _ s h
  | fail e => exact hpost _ s h
  | call c next ih => exact ⟨h.1, fun answer s' hanswer => ih answer (h.2 answer s' hanswer)⟩

theorem Performs.mono {answers' : S → (c : Call) → Answer c → S → Prop} {Asks' : S → Call → Prop}
    {post : Except ε α → S → Prop} (h : Performs answers Asks p post s)
    (hanswers : ∀ s c answer s', answers' s c answer s' → answers s c answer s')
    (hasks : ∀ s c, Asks s c → Asks' s c) : Performs answers' Asks' p post s := by
  induction p generalizing s with
  | ret a => exact h
  | fail e => exact h
  | call c next ih =>
      exact ⟨hasks s c h.1, fun answer s' hanswer =>
        ih answer (h.2 answer s' (hanswers s c answer s' hanswer))⟩

theorem performs_bind {f : α → Program Call Answer ε β} {post : Except ε β → S → Prop}
    (h : Performs answers Asks p
      (fun out s' => match out with
        | .ok a => Performs answers Asks (f a) post s'
        | .error e => post (.error e) s') s) :
    Performs answers Asks (p >>= f) post s := by
  induction p generalizing s with
  | ret a => exact h
  | fail e => exact h
  | call c next ih => exact ⟨h.1, fun answer s' hanswer => ih answer (h.2 answer s' hanswer)⟩

theorem Performs.bind {f : α → Program Call Answer ε β} {post : Except ε α → S → Prop}
    {post' : Except ε β → S → Prop} (hp : Performs answers Asks p post s)
    (hf : ∀ a s', post (.ok a) s' → Performs answers Asks (f a) post' s')
    (herror : ∀ e s', post (.error e) s' → post' (.error e) s') :
    Performs answers Asks (p >>= f) post' s := by
  refine performs_bind (hp.consequence ?_)
  rintro (e | a) s' hpost
  · exact herror e s' hpost
  · exact hf a s' hpost

theorem Performs.mapError {f : ε → ε'} {post : Except ε' α → S → Prop}
    (hp : Performs answers Asks p (fun out s' => post (out.mapError f) s') s) :
    Performs answers Asks (p.mapError f) post s := by
  induction p generalizing s with
  | ret a => exact hp
  | fail e => exact hp
  | call c next ih => exact ⟨hp.1, fun answer s' hanswer => ih answer (hp.2 answer s' hanswer)⟩

theorem Performs.attempt {post : Except ε' (Except ε α) → S → Prop}
    (hp : Performs answers Asks p (fun out s' => post (.ok out) s') s) :
    Performs answers Asks (p.attempt : Program Call Answer ε' (Except ε α)) post s := by
  induction p generalizing s with
  | ret a => exact hp
  | fail e => exact hp
  | call c next ih => exact ⟨hp.1, fun answer s' hanswer => ih answer (hp.2 answer s' hanswer)⟩

theorem performs_ofExcept {r : Except ε α} {post : Except ε α → S → Prop} (h : post r s) :
    Performs answers Asks (ofExcept r) post s := by
  cases r with
  | ok a => exact h
  | error e => exact h

theorem Performs.and_invariant {post : Except ε α → S → Prop} {I : S → Prop}
    (h : Performs answers Asks p post s) (hs : I s)
    (hkeep : ∀ s c answer s', I s → answers s c answer s' → I s') :
    Performs answers Asks p (fun out s' => post out s' ∧ I s') s := by
  induction p generalizing s with
  | ret a => exact ⟨h, hs⟩
  | fail e => exact ⟨h, hs⟩
  | call c next ih =>
      exact ⟨h.1, fun answer s' hanswer =>
        ih answer (h.2 answer s' hanswer) (hkeep s c answer s' hs hanswer)⟩

theorem Performs.of_runs {post : Except ε α → S → Prop} {out : Except ε α} {s' : S}
    (h : Performs answers Asks p post s) (hruns : Runs answers s p out s') : post out s' := by
  induction hruns with
  | ret s a => exact h
  | fail s e => exact h
  | call hanswer _ ih => exact ih (h.2 _ _ hanswer)

theorem performs_trivial (p : Program Call Answer ε α) (s : S) :
    Performs answers (fun _ _ => True) p (fun _ _ => True) s := by
  induction p generalizing s with
  | ret a => exact trivial
  | fail e => exact trivial
  | call c next ih => exact ⟨trivial, fun answer s' _ => ih answer s'⟩

/-- A program runs to its end if all it may ask for is answered. -/
theorem Performs.exists_runs {post : Except ε α → S → Prop} {I : S → Prop}
    (h : Performs answers Asks p post s) (hs : I s)
    (hprogress : ∀ s c, I s → Asks s c → ∃ answer s', answers s c answer s')
    (hkeep : ∀ s c answer s', I s → answers s c answer s' → I s') :
    ∃ out s', Runs answers s p out s' := by
  induction p generalizing s with
  | ret a => exact ⟨_, s, .ret s a⟩
  | fail e => exact ⟨_, s, .fail s e⟩
  | call c next ih =>
      obtain ⟨answer, s', hanswer⟩ := hprogress s c hs h.1
      obtain ⟨out, s'', hruns⟩ := ih answer (h.2 answer s' hanswer) (hkeep s c answer s' hs hanswer)
      exact ⟨out, s'', .call hanswer hruns⟩

end Performs

end Program

/-! ## Contracts -/

/-- The terms on which the programs of parties `ι` make calls.  `Later` orders
what is known of the surroundings.  A requirement may speak of the call that
follows each answer, so that two calls can be required to stand together. -/
structure Contract (ι W Call : Type) (Answer : Call → Type) where
  Later : W → W → Prop
  refl : ∀ w, Later w w
  trans : ∀ {w₁ w₂ w₃}, Later w₁ w₂ → Later w₂ w₃ → Later w₁ w₃
  Requires : ι → W → (c : Call) → (Answer c → Option Call) → Prop
  requires_mono : ∀ {i w c} {following following' : Answer c → Option Call},
    (∀ answer c', following answer = some c' → following' answer = some c') →
      Requires i w c following → Requires i w c following'
  Ensures : ι → W → (c : Call) → Answer c → Prop

namespace Contract

open Program

variable {ι W Call : Type} {Answer : Call → Type} {ε ε' α β : Type}
variable (C : Contract ι W Call Answer) (i : ι)

/-- The program keeps the contract from world `w` on, and ends with `post`. -/
def Meets : Program Call Answer ε α → (W → Except ε α → Prop) → W → Prop
  | ret a, post, w => post w (.ok a)
  | fail e, post, w => post w (.error e)
  | call c next, post, w => ∀ w', C.Later w w' →
      C.Requires i w' c (fun answer => (next answer).first) ∧
        ∀ answer w'', C.Later w' w'' → C.Ensures i w'' c answer → Meets (next answer) post w''

variable {C i}

theorem Meets.consequence {p : Program Call Answer ε α} {post post' : W → Except ε α → Prop}
    {w : W} (h : C.Meets i p post w) (hpost : ∀ w out, post w out → post' w out) :
    C.Meets i p post' w := by
  induction p generalizing w with
  | ret a => exact hpost w _ h
  | fail e => exact hpost w _ h
  | call c next ih =>
      intro w' hw'
      obtain ⟨hreq, hnext⟩ := h w' hw'
      exact ⟨hreq, fun answer w'' hw'' hens => ih answer (hnext answer w'' hw'' hens)⟩

theorem Meets.later {p : Program Call Answer ε α} {post : W → Except ε α → Prop} {w w' : W}
    (h : C.Meets i p post w) (hpost : ∀ out w w', C.Later w w' → post w out → post w' out)
    (hw' : C.Later w w') : C.Meets i p post w' := by
  cases p with
  | ret a => exact hpost _ w w' hw' h
  | fail e => exact hpost _ w w' hw' h
  | call c next => exact fun w'' hw'' => h w'' (C.trans hw' hw'')

theorem meets_bind {p : Program Call Answer ε α} {f : α → Program Call Answer ε β}
    {post : W → Except ε β → Prop} {w : W}
    (h : C.Meets i p
      (fun w out => match out with
        | .ok a => C.Meets i (f a) post w
        | .error e => post w (.error e)) w) :
    C.Meets i (p.bind f) post w := by
  induction p generalizing w with
  | ret a => exact h
  | fail e => exact h
  | call c next ih =>
      intro w' hw'
      obtain ⟨hreq, hnext⟩ := h w' hw'
      refine ⟨C.requires_mono (fun answer c' hfirst => first_bind f hfirst) hreq, ?_⟩
      intro answer w'' hw'' hens
      exact ih answer (hnext answer w'' hw'' hens)

theorem meets_mapError {p : Program Call Answer ε α} {f : ε → ε'}
    {post : W → Except ε' α → Prop} {w : W}
    (h : C.Meets i p (fun w out => post w (out.mapError f)) w) :
    C.Meets i (p.mapError f) post w := by
  induction p generalizing w with
  | ret a => exact h
  | fail e => exact h
  | call c next ih =>
      intro w' hw'
      obtain ⟨hreq, hnext⟩ := h w' hw'
      refine ⟨C.requires_mono (fun answer c' hfirst => ?_) hreq, ?_⟩
      · rw [first_mapError]
        exact hfirst
      · intro answer w'' hw'' hens
        exact ih answer (hnext answer w'' hw'' hens)

theorem meets_attempt {p : Program Call Answer ε α}
    {post : W → Except ε' (Except ε α) → Prop} {w : W}
    (h : C.Meets i p (fun w out => post w (.ok out)) w) : C.Meets i p.attempt post w := by
  induction p generalizing w with
  | ret a => exact h
  | fail e => exact h
  | call c next ih =>
      intro w' hw'
      obtain ⟨hreq, hnext⟩ := h w' hw'
      refine ⟨C.requires_mono (fun answer c' hfirst => ?_) hreq, ?_⟩
      · rw [first_attempt]
        exact hfirst
      · intro answer w'' hw'' hens
        exact ih answer (hnext answer w'' hw'' hens)

theorem meets_discard {p : Program Call Answer ε α} {post : W → Except Unit Unit → Prop} {w : W}
    (h : C.Meets i p
      (fun w out => post w ((out.mapError fun _ => ()).map fun _ => ())) w) :
    C.Meets i p.discard post w := by
  induction p generalizing w with
  | ret a => exact h
  | fail e => exact h
  | call c next ih =>
      intro w' hw'
      obtain ⟨hreq, hnext⟩ := h w' hw'
      refine ⟨C.requires_mono (fun answer c' hfirst => ?_) hreq, ?_⟩
      · rw [first_discard]
        exact hfirst
      · intro answer w'' hw'' hens
        exact ih answer (hnext answer w'' hw'' hens)

theorem meets_ofExcept {r : Except ε α} {post : W → Except ε α → Prop} {w : W}
    (h : post w r) : C.Meets i (ofExcept r) post w := by
  cases r with
  | ok a => exact h
  | error e => exact h

theorem Meets.and_later {p : Program Call Answer ε α} {post : W → Except ε α → Prop} {w : W}
    (h : C.Meets i p post w) : C.Meets i p (fun w' out => C.Later w w' ∧ post w' out) w := by
  induction p generalizing w with
  | ret a => exact ⟨C.refl w, h⟩
  | fail e => exact ⟨C.refl w, h⟩
  | call c next ih =>
      intro w' hw'
      obtain ⟨hreq, hnext⟩ := h w' hw'
      refine ⟨hreq, fun answer w'' hw'' hens => ?_⟩
      apply (ih answer (hnext answer w'' hw'' hens)).consequence
      intro w₃ out hout
      exact ⟨C.trans (C.trans hw' hw'') hout.1, hout.2⟩

/-! ## Programs that owe nothing at their end -/

variable (C i) in
/-- The program keeps the contract and only moves the world forward. -/
def Keeps (p : Program Call Answer ε α) (w : W) : Prop :=
  C.Meets i p (fun w' _ => C.Later w w') w

variable {p : Program Call Answer ε α} {w : W}

theorem keeps_ret (a : α) : C.Keeps i (ret a : Program Call Answer ε α) w := C.refl w

theorem keeps_fail (e : ε) : C.Keeps i (fail e : Program Call Answer ε α) w := C.refl w

theorem keeps_pure (a : α) : C.Keeps i (pure a : Program Call Answer ε α) w := C.refl w

theorem keeps_ofExcept (r : Except ε α) :
    C.Keeps i (ofExcept r : Program Call Answer ε α) w :=
  meets_ofExcept (C.refl w)

theorem Keeps.weaken {w' : W} (h : C.Keeps i p w') (hw' : C.Later w w') :
    C.Meets i p (fun w'' _ => C.Later w w'') w' :=
  Meets.consequence h fun _ _ hlater => C.trans hw' hlater

theorem keeps_call {c : Call} {next : Answer c → Program Call Answer ε α}
    (hreq : ∀ w', C.Later w w' → C.Requires i w' c fun answer => (next answer).first)
    (hnext : ∀ answer w', C.Later w w' → C.Ensures i w' c answer → C.Keeps i (next answer) w') :
    C.Keeps i (call c next) w := by
  intro w' hw'
  refine ⟨hreq w' hw', ?_⟩
  intro answer w'' hw'' hens
  have hlater := C.trans hw' hw''
  exact (hnext answer w'' hlater hens).weaken hlater

theorem keeps_bind_of {f : α → Program Call Answer ε β} {P : α → W → Prop}
    (hp : C.Meets i p (fun w' out => C.Later w w' ∧ ∀ a, out = .ok a → P a w') w)
    (hf : ∀ a w', C.Later w w' → P a w' → C.Keeps i (f a) w') : C.Keeps i (p >>= f) w := by
  refine meets_bind (hp.consequence ?_)
  rintro w' (e | a) ⟨hlater, hP⟩
  · exact hlater
  · exact (hf a w' hlater (hP a rfl)).weaken hlater

theorem keeps_bind {f : α → Program Call Answer ε β} (hp : C.Keeps i p w)
    (hf : ∀ a w', C.Later w w' → C.Keeps i (f a) w') : C.Keeps i (p >>= f) w :=
  keeps_bind_of (P := fun _ _ => True) (hp.consequence fun _ _ h => ⟨h, fun _ _ => trivial⟩)
    fun a w' hw' _ => hf a w' hw'

theorem keeps_mapError {f : ε → ε'} (hp : C.Keeps i p w) : C.Keeps i (p.mapError f) w :=
  meets_mapError hp

theorem keeps_attempt (hp : C.Keeps i p w) :
    C.Keeps i (p.attempt : Program Call Answer ε' (Except ε α)) w :=
  meets_attempt hp

theorem Keeps.discard (hp : C.Keeps i p w) : C.Meets i p.discard (fun _ _ => True) w :=
  meets_discard (hp.consequence fun _ _ _ => trivial)

/-! ## What a program has achieved when it returns -/

section Gives

variable {Q : α → W → Prop} {R : β → W → Prop}

variable (C i) in
/-- If the program returns, its result satisfies `Q` in the world it returns in. -/
def Gives (p : Program Call Answer ε α) (Q : α → W → Prop) (w : W) : Prop :=
  C.Meets i p (fun w' out => ∀ a, out = .ok a → Q a w') w

theorem gives_ret {a : α} (h : Q a w) : C.Gives i (ret a : Program Call Answer ε α) Q w := by
  rintro b ⟨⟩
  exact h

theorem gives_fail (e : ε) : C.Gives i (fail e : Program Call Answer ε α) Q w := by
  rintro b ⟨⟩

theorem gives_ofExcept {r : Except ε α} (h : ∀ a, r = .ok a → Q a w) :
    C.Gives i (ofExcept r : Program Call Answer ε α) Q w :=
  meets_ofExcept h

theorem Gives.mono {Q' : α → W → Prop} (hp : C.Gives i p Q w)
    (h : ∀ a w', C.Later w w' → Q a w' → Q' a w') : C.Gives i p Q' w := by
  apply hp.and_later.consequence
  rintro w' out ⟨hlater, hout⟩ a rfl
  exact h a w' hlater (hout a rfl)

theorem Gives.bind {f : α → Program Call Answer ε β} (hp : C.Gives i p Q w)
    (hf : ∀ a w', C.Later w w' → Q a w' → C.Gives i (f a) R w') : C.Gives i (p >>= f) R w := by
  refine meets_bind (hp.and_later.consequence ?_)
  rintro w' (e | a) ⟨hlater, hout⟩
  · rintro b ⟨⟩
  · exact hf a w' hlater (hout a rfl)

theorem Gives.mapError {f : ε → ε'} (hp : C.Gives i p Q w) : C.Gives i (p.mapError f) Q w := by
  apply meets_mapError
  apply hp.consequence
  rintro w' (e | a) hout b hb
  · cases hb
  · cases hb
    exact hout a rfl

theorem Gives.attempt (hp : C.Gives i p Q w) :
    C.Gives i (p.attempt : Program Call Answer ε' (Except ε α))
      (fun out w' => ∀ a, out = .ok a → Q a w') w := by
  apply meets_attempt
  apply hp.consequence
  rintro w' out hout result ⟨⟩
  exact hout

theorem Gives.discard {P : W → Prop} (hp : C.Gives i p (fun _ => P) w) :
    C.Gives i p.discard (fun _ => P) w := by
  apply meets_discard
  apply hp.consequence
  rintro w' (e | a) hout u hu
  · cases hu
  · exact hout a rfl

end Gives

/-- Calls that may be made from now on keep the contract. -/
theorem keeps_of_calls_later {A : Call → Prop} (hp : Calls A p)
    (hA : ∀ w' c following, C.Later w w' → A c → C.Requires i w' c following) : C.Keeps i p w := by
  induction p generalizing w with
  | ret a => exact keeps_ret a
  | fail e => exact keeps_fail e
  | call c next ih =>
      refine keeps_call (fun w' hw' => hA w' c _ hw' hp.1) fun answer w' hw' _ => ?_
      exact ih answer (hp.2 answer) fun w'' c following hw'' => hA w'' c following (C.trans hw' hw'')

theorem keeps_of_calls {A : Call → Prop} (hp : Calls A p)
    (hA : ∀ w c following, A c → C.Requires i w c following) : C.Keeps i p w :=
  keeps_of_calls_later hp fun w' c following _ => hA w' c following

/-! ## Stricter contracts -/

def also (C : Contract ι W Call Answer) (R : ι → W → Call → Prop) : Contract ι W Call Answer where
  Later := C.Later
  refl := C.refl
  trans := C.trans
  Requires := fun i w c following => C.Requires i w c following ∧ R i w c
  requires_mono := fun hfollow h => ⟨C.requires_mono hfollow h.1, h.2⟩
  Ensures := C.Ensures

section Also

variable {R : ι → W → Call → Prop} {post : W → Except ε α → Prop}

theorem Meets.of_also (h : (C.also R).Meets i p post w) : C.Meets i p post w := by
  induction p generalizing w with
  | ret a => exact h
  | fail e => exact h
  | call c next ih =>
      intro w' hw'
      obtain ⟨hreq, hnext⟩ := h w' hw'
      exact ⟨hreq.1, fun answer w'' hw'' hens => ih answer (hnext answer w'' hw'' hens)⟩

theorem Meets.also {A : Call → Prop} (h : C.Meets i p post w) (hp : Calls A p)
    (hR : ∀ w c, A c → R i w c) : (C.also R).Meets i p post w := by
  induction p generalizing w with
  | ret a => exact h
  | fail e => exact h
  | call c next ih =>
      intro w' hw'
      obtain ⟨hreq, hnext⟩ := h w' hw'
      exact ⟨⟨hreq, hR w' c hp.1⟩, fun answer w'' hw'' hens =>
        ih answer (hnext answer w'' hw'' hens) (hp.2 answer)⟩

end Also

/-- A contract over worlds that hold more, and tell the program no less. -/
theorem Meets.lift {W' : Type} {C' : Contract ι W' Call Answer} (f : W' → W)
    (hlater : ∀ {w w'}, C'.Later w w' → C.Later (f w) (f w'))
    (hrequires : ∀ {w c following}, C.Requires i (f w) c following → C'.Requires i w c following)
    (hensures : ∀ {w c answer}, C'.Ensures i w c answer → C.Ensures i (f w) c answer)
    {post : W → Except ε α → Prop} {w : W'} (h : C.Meets i p post (f w)) :
    C'.Meets i p (fun w' out => post (f w') out) w := by
  induction p generalizing w with
  | ret a => exact h
  | fail e => exact h
  | call c next ih =>
      intro w' hw'
      obtain ⟨hreq, hnext⟩ := h (f w') (hlater hw')
      exact ⟨hrequires hreq, fun answer w'' hw'' hens =>
        ih answer (hnext answer (f w'') (hlater hw'') (hensures hens))⟩

def ofCalls (A : Call → Prop) : Contract Unit Unit Call Answer where
  Later := fun _ _ => True
  refl := fun _ => trivial
  trans := fun _ _ => trivial
  Requires := fun _ _ c _ => A c
  requires_mono := fun _ h => h
  Ensures := fun _ _ _ _ => True

theorem calls_of_keeps {A : Call → Prop} (h : (ofCalls A).Keeps () p ()) : Calls A p := by
  induction p with
  | ret a => exact trivial
  | fail e => exact trivial
  | call c next ih =>
      obtain ⟨hc, hnext⟩ := h () trivial
      exact ⟨hc, fun answer => ih answer (hnext answer () trivial trivial)⟩

/-! ## Contracts that require nothing -/

def ofAnswers (Later : W → W → Prop) (refl : ∀ w, Later w w)
    (trans : ∀ {w₁ w₂ w₃}, Later w₁ w₂ → Later w₂ w₃ → Later w₁ w₃)
    (Ensures : ι → W → (c : Call) → Answer c → Prop) : Contract ι W Call Answer where
  Later := Later
  refl := refl
  trans := trans
  Requires := fun _ _ _ _ => True
  requires_mono := fun _ h => h
  Ensures := Ensures

section OfAnswers

variable {Later : W → W → Prop} {refl : ∀ w, Later w w}
variable {trans : ∀ {w₁ w₂ w₃}, Later w₁ w₂ → Later w₂ w₃ → Later w₁ w₃}
variable {Ensures : ι → W → (c : Call) → Answer c → Prop} {Q : α → W → Prop}

theorem gives_call {c : Call} {next : Answer c → Program Call Answer ε α}
    (h : ∀ answer w', Later w w' → Ensures i w' c answer →
      (ofAnswers Later refl trans Ensures).Gives i (next answer) Q w') :
    (ofAnswers Later refl trans Ensures).Gives i (call c next) Q w := by
  intro w' hw'
  exact ⟨trivial, fun answer w'' hw'' hens => h answer w'' (trans hw' hw'') hens⟩

theorem gives_trivial (p : Program Call Answer ε α) :
    (ofAnswers Later refl trans Ensures).Gives i p (fun _ _ => True) w := by
  induction p generalizing w with
  | ret a => exact gives_ret trivial
  | fail e => exact gives_fail e
  | call c next ih => exact gives_call fun answer _ _ _ => ih answer

end OfAnswers

end Contract
