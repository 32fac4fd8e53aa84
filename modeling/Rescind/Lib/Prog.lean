/-
# `Rescind.Lib.Prog` — stateful programs that can fail or be cut short

A program over a state `S` runs to a value, to an error it raises, or to
`died`: the process it runs in is gone.  Whichever it is, the state reached is
kept, so what a cut-short program had already done is still there to be
reasoned about.  An error can be caught (`attempt`); a death cannot.

    m >>= f            runs `f` on a value; an error or a death ends both
    attempt m          an error becomes a value, a death stays one
    loop f xs a        a `for` loop over a list, carrying an accumulator

Six readings of a program:

    Keeps R X F m      every run of `m` relates its states by the preorder `R`;
                       it raises an error only if `X`, dies only if `F`
    Yields P m         every value a run of `m` ends in satisfies `P`
    Same R m           two runs of `m` from states related by `R` end the same
                       way, in states related by `R`
    Post m Q s         the run of `m` from `s` ends with `Q`, however it ends
    Returns m Q s      the run of `m` from `s` ends in a value, with `Q`
    Traces M D φ m Q   from phase `φ` every run of `m` is a path of the machine
                       `M`, a value satisfying `Q` in the phase it ends in;
                       after any other end only `D` is known of the state

`Keeps` is for what a run leaves alone, `Post` for what one run did, `Traces`
for the order in which it does the rest: a machine `M` says what may happen in which phase, `Traces` that a
program does nothing else, and an invariant of `M` is then one of the program
(`path_invariant`).
-/
import Mathlib.Logic.Relation
import Mathlib.Order.Defs.Unbundled

namespace Rescind.Lib

/-- How a program ended. -/
inductive Res (ε α : Type) where
  | ok (a : α)
  | err (e : ε)
  | died
  deriving DecidableEq, Repr

/-- `P` of a value, `N` of any other end. -/
def Res.Either {ε α : Type} (P : α → Prop) (N : Prop) : Res ε α → Prop
  | .ok a => P a
  | .err _ => N
  | .died => N

/-- A program: from a state, an end and the state reached. -/
def Prog (S ε α : Type) := S → Res ε α × S

namespace Prog

variable {S ε ε' α β : Type}

@[inline] def pure (a : α) : Prog S ε α := fun s => (.ok a, s)

@[inline] def bind (m : Prog S ε α) (f : α → Prog S ε β) : Prog S ε β := fun s =>
  match m s with
  | (.ok a, s') => f a s'
  | (.err e, s') => (.err e, s')
  | (.died, s') => (.died, s')

instance : Monad (Prog S ε) where
  pure := pure
  bind := bind

/-- Raise an error. -/
def fail (e : ε) : Prog S ε α := fun s => (.err e, s)

/-- The process is gone. -/
def die : Prog S ε α := fun s => (.died, s)

/-- The state, or a part of it. -/
def read (f : S → α) : Prog S ε α := fun s => (.ok (f s), s)

/-- Change the state. -/
def edit (f : S → S) : Prog S ε Unit := fun s => (.ok (), f s)

/-- An error of `m` as a value, under whichever error type the caller has. -/
def attempt (m : Prog S ε α) : Prog S ε' (Except ε α) := fun s =>
  match m s with
  | (.ok a, s') => (.ok (.ok a), s')
  | (.err e, s') => (.ok (.error e), s')
  | (.died, s') => (.died, s')

/-- A value that may already be an error. -/
def ofExcept : Except ε α → Prog S ε α
  | .ok a => pure a
  | .error e => fail e

/-- Run only under a condition. -/
def when (c : Bool) (m : Prog S ε Unit) : Prog S ε Unit := if c then m else pure ()

/-- Raise an error under a condition. -/
def failIf (c : Bool) (e : ε) : Prog S ε Unit := if c then fail e else pure ()

/-- A `for` loop over a list, carrying an accumulator. -/
def loop {γ : Type} (f : γ → α → Prog S ε α) : List γ → α → Prog S ε α
  | [], a => pure a
  | x :: xs, a => bind (f x a) fun a' => loop f xs a'

/-- A `for` loop whose body may break: the first `some` ends it. -/
def search {γ : Type} (f : γ → Prog S ε (Option α)) : List γ → Prog S ε (Option α)
  | [] => pure none
  | x :: xs => bind (f x) fun r => match r with
      | some a => pure (some a)
      | none => search f xs

theorem bind_eq (m : Prog S ε α) (f : α → Prog S ε β) (s : S) :
    (m >>= f) s = match m s with
      | (.ok a, s') => f a s'
      | (.err e, s') => (.err e, s')
      | (.died, s') => (.died, s') := rfl

@[simp] theorem pure_apply (a : α) (s : S) : (Pure.pure a : Prog S ε α) s = (.ok a, s) := rfl

@[simp] theorem fail_apply (e : ε) (s : S) : (fail e : Prog S ε α) s = (.err e, s) := rfl

@[simp] theorem read_apply (f : S → α) (s : S) : (read f : Prog S ε α) s = (.ok (f s), s) := rfl

@[simp] theorem edit_apply (f : S → S) (s : S) : (edit f : Prog S ε Unit) s = (.ok (), f s) := rfl

theorem bind_ok {m : Prog S ε α} {f : α → Prog S ε β} {s s' : S} {a : α}
    (h : m s = (.ok a, s')) : (m >>= f) s = f a s' := by
  rw [bind_eq, h]

theorem bind_assoc {γ : Type} (m : Prog S ε α) (f : α → Prog S ε β) (g : β → Prog S ε γ) :
    (m >>= f >>= g) = m >>= fun a => f a >>= g := by
  funext s
  simp only [bind_eq]
  match m s with
  | (.ok a, s') => rfl
  | (.err e, s') => rfl
  | (.died, s') => rfl

/-- **Peeling.**  A bind that returned a value went through a value of its
first part. -/
theorem bind_ok_inv {m : Prog S ε α} {f : α → Prog S ε β} {s s' : S} {b : β}
    (h : (m >>= f) s = (.ok b, s')) : ∃ a s₁, m s = (.ok a, s₁) ∧ f a s₁ = (.ok b, s') := by
  rw [bind_eq] at h
  match hm : m s with
  | (.ok a, s₁) => exact ⟨a, s₁, rfl, by simpa [hm] using h⟩
  | (.err e, s₁) => simp [hm] at h
  | (.died, s₁) => simp [hm] at h

/-- A run, from how it ended. -/
theorem eq_of_fst {m : Prog S ε α} {s : S} {r : Res ε α} (h : (m s).1 = r) : m s = (r, (m s).2) :=
  Prod.ext h rfl

theorem attempt_ok {m : Prog S ε α} {s s' : S} {a : α} (h : m s = (.ok a, s')) :
    (attempt m : Prog S ε' (Except ε α)) s = (.ok (.ok a), s') := by
  unfold attempt
  rw [h]

theorem attempt_err {m : Prog S ε α} {s s' : S} {e : ε} (h : m s = (.err e, s')) :
    (attempt m : Prog S ε' (Except ε α)) s = (.ok (.error e), s') := by
  unfold attempt
  rw [h]

/-- A value that was not caught. -/
theorem attempt_ok_inv {m : Prog S ε α} {s s' : S} {a : α}
    (h : (attempt m : Prog S ε' (Except ε α)) s = (.ok (.ok a), s')) : m s = (.ok a, s') := by
  unfold attempt at h
  match hm : m s with
  | (.ok b, t) => rw [hm] at h; cases h; rfl
  | (.err e, t) => rw [hm] at h; cases h
  | (.died, t) => rw [hm] at h; cases h

/-- A caught error. -/
theorem attempt_err_inv {m : Prog S ε α} {s s' : S} {e : ε}
    (h : (attempt m : Prog S ε' (Except ε α)) s = (.ok (.error e), s')) : m s = (.err e, s') := by
  unfold attempt at h
  match hm : m s with
  | (.ok b, t) => rw [hm] at h; cases h
  | (.err d, t) => rw [hm] at h; cases h; rfl
  | (.died, t) => rw [hm] at h; cases h

/-- A search that found something found it at some element, past the others
before it. -/
theorem search_some_inv {γ : Type} {f : γ → Prog S ε (Option α)} {xs : List γ} {s s' : S} {a : α}
    (h : search f xs s = (.ok (some a), s')) :
    ∃ ys x zs t, xs = ys ++ x :: zs ∧ search f ys s = (.ok none, t) ∧ f x t = (.ok (some a), s') := by
  induction xs generalizing s with
  | nil => cases h
  | cons x xs ih =>
      obtain ⟨r, t, hx, hr⟩ := bind_ok_inv h
      cases r with
      | some b =>
          cases hr
          exact ⟨[], x, xs, s, rfl, rfl, hx⟩
      | none =>
          obtain ⟨ys, y, zs, u, hxs, hys, hy⟩ := ih hr
          exact ⟨x :: ys, y, zs, u, by rw [hxs]; rfl, (bind_ok hx).trans hys, hy⟩

/-- A search that found nothing goes on in what follows. -/
theorem search_append {γ : Type} {f : γ → Prog S ε (Option α)} {ys zs : List γ} {s t : S}
    (hys : search f ys s = (.ok none, t)) : search f (ys ++ zs) s = search f zs t := by
  induction ys generalizing s with
  | nil =>
      cases hys
      rfl
  | cons y ys ih =>
      obtain ⟨r, u, hy, hr⟩ := bind_ok_inv hys
      cases r with
      | some b => cases hr
      | none => exact (bind_ok hy).trans (ih hr)

/-! ## Two runs of one program -/

/-- From related states, the same end and related states. -/
def Same (R : S → S → Prop) (m : Prog S ε α) : Prop :=
  ∀ s t, R s t → (m s).1 = (m t).1 ∧ R (m s).2 (m t).2

section
variable {R : S → S → Prop}

theorem Same.pure (a : α) : Same R (Pure.pure a : Prog S ε α) := fun _ _ h => ⟨rfl, h⟩

theorem Same.bind {m : Prog S ε α} {f : α → Prog S ε β} (hm : Same R m)
    (hf : ∀ a, Same R (f a)) : Same R (m >>= f) := by
  intro s t h
  obtain ⟨he, hR⟩ := hm s t h
  rw [bind_eq, bind_eq]
  match hs : m s, ht : m t with
  | (r, s'), (r', t') =>
      rw [hs, ht] at he hR
      obtain rfl : r = r' := he
      cases r with
      | ok a => exact hf a s' t' hR
      | err e => exact ⟨rfl, hR⟩
      | died => exact ⟨rfl, hR⟩

end

/-! ## What every run keeps -/

/-- What is known of the world when a program ends otherwise than in a value. -/
def Excused (X F : Prop) : Res ε α → Prop
  | .ok _ => True
  | .err _ => X
  | .died => F

/-- Every run relates its states by `R`; an error is excused by `X`, a death by
`F`. -/
def Keeps (R : S → S → Prop) (X F : Prop) (m : Prog S ε α) : Prop :=
  ∀ s, R s (m s).2 ∧ Excused X F (m s).1

section
variable {R : S → S → Prop} {X F : Prop}

theorem Keeps.pure [Std.Refl R] (a : α) : Keeps R X F (Pure.pure a : Prog S ε α) :=
  fun s => ⟨Std.Refl.refl s, trivial⟩

theorem Keeps.fail [Std.Refl R] (e : ε) : Keeps R True F (fail e : Prog S ε α) :=
  fun s => ⟨Std.Refl.refl s, trivial⟩

theorem Keeps.read [Std.Refl R] (f : S → α) : Keeps R X F (read f : Prog S ε α) :=
  fun s => ⟨Std.Refl.refl s, trivial⟩

theorem Keeps.edit {f : S → S} (h : ∀ s, R s (f s)) : Keeps R X F (edit f : Prog S ε Unit) :=
  fun s => ⟨h s, trivial⟩

theorem Keeps.ofExcept [Std.Refl R] (x : Except ε α) :
    Keeps R True F (ofExcept x : Prog S ε α) := by
  cases x with
  | ok a => exact Keeps.pure a
  | error e => exact Keeps.fail e

theorem Keeps.bind [IsTrans S R] {m : Prog S ε α} {f : α → Prog S ε β} (hm : Keeps R X F m)
    (hf : ∀ a, Keeps R X F (f a)) : Keeps R X F (m >>= f) := by
  intro s
  have hs := hm s
  rw [bind_eq]
  match h : m s with
  | (.ok a, s') =>
      rw [h] at hs
      exact ⟨IsTrans.trans _ _ _ hs.1 (hf a s').1, (hf a s').2⟩
  | (.err e, s') => rw [h] at hs; exact hs
  | (.died, s') => rw [h] at hs; exact hs

/-- Reading first, the rest may depend on what the state was. -/
theorem Keeps.readBind {g : S → α} {f : α → Prog S ε β}
    (hf : ∀ s, R s (f (g s) s).2 ∧ Excused X F (f (g s) s).1) :
    Keeps R X F (Prog.read g >>= f) := hf

theorem Keeps.attempt {X' : Prop} {m : Prog S ε α} (hm : Keeps R X F m) :
    Keeps R X' F (attempt m : Prog S ε' (Except ε α)) := by
  intro s
  have hs := hm s
  unfold Prog.attempt
  match h : m s with
  | (.ok a, s') => rw [h] at hs; exact ⟨hs.1, trivial⟩
  | (.err e, s') => rw [h] at hs; exact ⟨hs.1, trivial⟩
  | (.died, s') => rw [h] at hs; exact hs

theorem Keeps.ite {c : Prop} [Decidable c] {m n : Prog S ε α} (hm : Keeps R X F m)
    (hn : Keeps R X F n) : Keeps R X F (if c then m else n) := by
  split
  · exact hm
  · exact hn

theorem Keeps.when [Std.Refl R] {c : Bool} {m : Prog S ε Unit} (hm : Keeps R X F m) :
    Keeps R X F (when c m) := by
  unfold Prog.when
  exact Keeps.ite hm (Keeps.pure ())

theorem Keeps.failIf [Std.Refl R] (c : Bool) (e : ε) :
    Keeps R True F (failIf c e : Prog S ε Unit) := by
  unfold Prog.failIf
  exact Keeps.ite (Keeps.fail e) (Keeps.pure ())

theorem Keeps.loop [Std.Refl R] [IsTrans S R] {γ : Type} {f : γ → α → Prog S ε α} (xs : List γ)
    (h : ∀ x a, Keeps R X F (f x a)) (a : α) : Keeps R X F (loop f xs a) := by
  induction xs generalizing a with
  | nil => exact Keeps.pure a
  | cons x xs ih => exact Keeps.bind (h x a) ih

theorem Keeps.search [Std.Refl R] [IsTrans S R] {γ : Type} {f : γ → Prog S ε (Option α)}
    (xs : List γ) (h : ∀ x, Keeps R X F (f x)) : Keeps R X F (search f xs) := by
  induction xs with
  | nil => exact Keeps.pure none
  | cons x xs ih =>
      refine Keeps.bind (h x) fun r => ?_
      cases r with
      | some a => exact Keeps.pure (some a)
      | none => exact ih

theorem Keeps.mono {R' : S → S → Prop} {X' : Prop} {m : Prog S ε α} (h : Keeps R X F m)
    (hR : ∀ s s', R s s' → R' s s') (hX : X → X') : Keeps R' X' F m := by
  intro s
  refine ⟨hR _ _ (h s).1, ?_⟩
  have hx := (h s).2
  match hm : (m s).1 with
  | .ok a => trivial
  | .err e => rw [hm] at hx; exact hX hx
  | .died => rw [hm] at hx; exact hx

/-- What is kept where a run ended. -/
theorem Keeps.ran {m : Prog S ε α} (hm : Keeps R X F m) {s s' : S} {r : Res ε α}
    (h : m s = (r, s')) : R s s' := by
  have hs := (hm s).1
  rw [h] at hs
  exact hs

/-- In a loop that ran through, the body ran at each element. -/
theorem Keeps.inLoop [Std.Refl R] [IsTrans S R] {γ : Type} {f : γ → α → Prog S ε α} {xs : List γ}
    (hf : ∀ x a, Keeps R X F (f x a)) {a b : α} {s s' : S} (h : Prog.loop f xs a s = (.ok b, s')) {x : γ}
    (hx : x ∈ xs) : ∃ c d t t', R s t ∧ f x c t = (.ok d, t') ∧ R t' s' := by
  induction xs generalizing a s with
  | nil => exact absurd hx List.not_mem_nil
  | cons y ys ih =>
      obtain ⟨c, t, hy, hys⟩ := bind_ok_inv h
      rcases List.mem_cons.mp hx with rfl | hx
      · exact ⟨a, c, s, t, Std.Refl.refl s, hy, Keeps.ran (Keeps.loop ys hf c) hys⟩
      · obtain ⟨d, e, u, u', hu, hxu, hu'⟩ := ih hys hx
        exact ⟨d, e, u, u', IsTrans.trans _ _ _ ((hf y a).ran hy) hu, hxu, hu'⟩

/-- However it ends. -/
theorem Keeps.ofState {m : Prog S ε α} (h : ∀ s, R s (m s).2) : Keeps R True True m := by
  refine fun s => ⟨h s, ?_⟩
  cases (m s).1 <;> trivial

/-- Without asking how it ends. -/
theorem Keeps.anyEnd {m : Prog S ε α} (h : Keeps R X F m) : Keeps R True True m :=
  Keeps.ofState fun s => (h s).1

end

/-! ## What every value is -/

/-- Every value a run ends in satisfies `P`. -/
def Yields (P : α → Prop) (m : Prog S ε α) : Prop := ∀ s a s', m s = (.ok a, s') → P a

section
variable {P : α → Prop}

theorem Yields.pure {a : α} (h : P a) : Yields P (Pure.pure a : Prog S ε α) := by
  intro s b s' hm
  cases hm
  exact h

theorem Yields.fail (e : ε) : Yields P (fail e : Prog S ε α) := by
  intro s a s' hm
  cases hm

theorem Yields.bind {Q : β → Prop} {m : Prog S ε α} {f : α → Prog S ε β} (hm : Yields P m)
    (hf : ∀ a, P a → Yields Q (f a)) : Yields Q (m >>= f) := by
  intro s b s' h
  obtain ⟨a, s₁, ha, hb⟩ := bind_ok_inv h
  exact hf a (hm s a s₁ ha) s₁ b s' hb

/-- Whatever the first part returned. -/
theorem Yields.after {Q : β → Prop} {m : Prog S ε α} {f : α → Prog S ε β}
    (hf : ∀ a, Yields Q (f a)) : Yields Q (m >>= f) :=
  Yields.bind (P := fun _ => True) (fun _ _ _ _ => trivial) fun a _ => hf a

/-- What follows matters only at the values returned. -/
theorem Yields.bind_congr {m : Prog S ε α} {f g : α → Prog S ε β} (hm : Yields P m)
    (h : ∀ a, P a → f a = g a) : m >>= f = m >>= g := by
  funext s
  rw [bind_eq, bind_eq]
  match ha : m s with
  | (.ok a, s') => exact congrFun (h a (hm s a s' ha)) s'
  | (.err e, s') => rfl
  | (.died, s') => rfl

theorem Yields.attempt {m : Prog S ε α} (hm : Yields P m) :
    Yields (fun x => ∀ a, x = .ok a → P a) (attempt m : Prog S ε' (Except ε α)) := by
  intro s x s' h a hx
  subst hx
  unfold Prog.attempt at h
  match hs : m s with
  | (.ok b, s₁) =>
      rw [hs] at h
      cases h
      exact hm s a s' hs
  | (.err e, s₁) => rw [hs] at h; cases h
  | (.died, s₁) => rw [hs] at h; cases h

/-- The error was not raised. -/
theorem Yields.failIf (c : Bool) (e : ε) :
    Yields (fun _ => c = false) (failIf c e : Prog S ε Unit) := by
  intro s a s' h
  cases c with
  | false => rfl
  | true => cases h

theorem Yields.ofExcept (x : Except ε α) :
    Yields (fun a => x = .ok a) (ofExcept x : Prog S ε α) := by
  intro s a s' h
  cases x with
  | ok b => cases h; rfl
  | error e => cases h

end

/-! ## Runs that return -/

/-- The run from `s` ends in a value, with `Q`. -/
def Returns (m : Prog S ε α) (Q : α → S → Prop) (s : S) : Prop :=
  ∃ a s', m s = (.ok a, s') ∧ Q a s'

section
variable {s : S}

theorem Returns.pure {Q : α → S → Prop} {a : α} (h : Q a s) :
    Returns (Pure.pure a : Prog S ε α) Q s := ⟨a, s, rfl, h⟩

theorem Returns.bind {m : Prog S ε α} {f : α → Prog S ε β} {P : α → S → Prop} {Q : β → S → Prop}
    (hm : Returns m P s) (hf : ∀ a s', P a s' → Returns (f a) Q s') : Returns (m >>= f) Q s := by
  obtain ⟨a, s', h, hP⟩ := hm
  obtain ⟨b, s'', h', hQ⟩ := hf a s' hP
  exact ⟨b, s'', (bind_ok h).trans h', hQ⟩

theorem Returns.mono {m : Prog S ε α} {P Q : α → S → Prop} (hm : Returns m P s)
    (h : ∀ a s', P a s' → Q a s') : Returns m Q s := by
  obtain ⟨a, s', hs, hP⟩ := hm
  exact ⟨a, s', hs, h a s' hP⟩

theorem Returns.attempt {m : Prog S ε α} {P : α → S → Prop} {Q : Except ε α → S → Prop}
    (hm : Returns m P s) (h : ∀ a s', P a s' → Q (.ok a) s') :
    Returns (attempt m : Prog S ε' (Except ε α)) Q s := by
  obtain ⟨a, s', hs, hP⟩ := hm
  refine ⟨.ok a, s', ?_, h a s' hP⟩
  unfold Prog.attempt
  rw [hs]

/-- The loop rule: `I` of what is still to be run, the accumulator and the
state. -/
theorem Returns.loop {γ : Type} {f : γ → α → Prog S ε α} {I : List γ → α → S → Prop}
    (hf : ∀ x xs a s, I (x :: xs) a s → Returns (f x a) (I xs) s) (xs : List γ) (a : α) (h : I xs a s) :
    Returns (loop f xs a) (I []) s := by
  induction xs generalizing a s with
  | nil => exact Returns.pure h
  | cons x xs ih => exact Returns.bind (hf x xs a s h) fun a' s' h' => ih a' h'

/-- What a run that returns leaves. -/
theorem Returns.state {m : Prog S ε α} {Q : α → S → Prop} (hm : Returns m Q s) : ∃ a, Q a (m s).2 := by
  obtain ⟨a, s', hs, hQ⟩ := hm
  exact ⟨a, by rw [hs]; exact hQ⟩

end

/-! ## What one run ends with -/

/-- The run from `s` ends with `Q`. -/
def Post (m : Prog S ε α) (Q : Res ε α → S → Prop) (s : S) : Prop := Q (m s).1 (m s).2

section
variable {R : S → S → Prop} {X F : Prop} {s : S} {Q : Res ε α → S → Prop}

theorem Post.mono {m : Prog S ε α} {Q' : Res ε α → S → Prop} (h : Post m Q' s)
    (hQ : ∀ x s', Q' x s' → Q x s') : Post m Q s :=
  hQ _ _ h

theorem Post.and {m : Prog S ε α} {Q' : Res ε α → S → Prop} (h : Post m Q s) (h' : Post m Q' s) :
    Post m (fun x s' => Q x s' ∧ Q' x s') s :=
  ⟨h, h'⟩

/-- What a bind ends with: the first part may end it too. -/
theorem Post.bind {m : Prog S ε α} {f : α → Prog S ε β} {P : Res ε α → S → Prop}
    {Q : Res ε β → S → Prop} (hm : Post m P s) (hok : ∀ a s', P (.ok a) s' → Post (f a) Q s')
    (herr : ∀ e s', P (.err e) s' → Q (.err e) s') (hdied : ∀ s', P .died s' → Q .died s') :
    Post (m >>= f) Q s := by
  unfold Post at hm ⊢
  rw [bind_eq]
  match h : m s with
  | (.ok a, s') => rw [h] at hm; exact hok a s' hm
  | (.err e, s') => rw [h] at hm; exact herr e s' hm
  | (.died, s') => rw [h] at hm; exact hdied s' hm

/-- First a part that keeps `R`. -/
theorem Post.keepsBind {m : Prog S ε α} {f : α → Prog S ε β} {Q : Res ε β → S → Prop}
    (hm : Keeps R X F m) (hf : ∀ a s', R s s' → Post (f a) Q s')
    (herr : ∀ e s', R s s' → Q (.err e) s') (hdied : ∀ s', R s s' → Q .died s') :
    Post (m >>= f) Q s :=
  Post.bind (P := fun _ s' => R s s') (hm s).1 hf herr hdied

theorem Post.keeps {m : Prog S ε α} (hm : Keeps R X F m) (hQ : ∀ x s', R s s' → Q x s') :
    Post m Q s :=
  hQ _ _ (hm s).1

theorem Post.readBind {g : S → α} {f : α → Prog S ε β} {Q : Res ε β → S → Prop}
    (h : Post (f (g s)) Q s) : Post (Prog.read g >>= f) Q s := h

theorem Post.ofExceptBind {x : Except ε α} {f : α → Prog S ε β} {Q : Res ε β → S → Prop}
    (hok : ∀ a, x = .ok a → Post (f a) Q s) (herr : ∀ e, x = .error e → Q (.err e) s) :
    Post (ofExcept x >>= f) Q s := by
  cases x with
  | ok a => exact hok a rfl
  | error e => exact herr e rfl

/-- A caught error is a value. -/
theorem Post.attempt {m : Prog S ε α} {Q : Res ε' (Except ε α) → S → Prop}
    {P : Res ε α → S → Prop} (hm : Post m P s) (hok : ∀ a s', P (.ok a) s' → Q (.ok (.ok a)) s')
    (herr : ∀ e s', P (.err e) s' → Q (.ok (.error e)) s')
    (hdied : ∀ s', P .died s' → Q .died s') : Post (attempt m) Q s := by
  unfold Post at hm ⊢
  unfold Prog.attempt
  match h : m s with
  | (.ok a, s') => rw [h] at hm; exact hok a s' hm
  | (.err e, s') => rw [h] at hm; exact herr e s' hm
  | (.died, s') => rw [h] at hm; exact hdied s' hm

end

/-! ## Paths of a machine -/

section
variable {Φ : Type} {M : Φ × S → Φ × S → Prop} {D : Option ε → Φ → S → S → Prop}

/-- From phase `φ` and this state, the program goes along the machine.  `D`
relates the last state of the path to the one left behind by an error, or by a
death (`none`). -/
def Traces (M : Φ × S → Φ × S → Prop) (D : Option ε → Φ → S → S → Prop) (φ : Φ)
    (m : Prog S ε α) (Q : α → Φ → S → Prop) (s : S) : Prop :=
  match m s with
  | (.ok a, s') => ∃ φ', Relation.ReflTransGen M (φ, s) (φ', s') ∧ Q a φ' s'
  | (.err e, s') => ∃ φ' s₁, Relation.ReflTransGen M (φ, s) (φ', s₁) ∧ D (some e) φ' s₁ s'
  | (.died, s') => ∃ φ' s₁, Relation.ReflTransGen M (φ, s) (φ', s₁) ∧ D none φ' s₁ s'

variable {φ : Φ} {s : S} {Q : α → Φ → S → Prop}

theorem Traces.pure {a : α} (h : Q a φ s) : Traces M D φ (Pure.pure a : Prog S ε α) Q s :=
  ⟨φ, .refl, h⟩

theorem Traces.fail {e : ε} (h : D (some e) φ s s) : Traces M D φ (fail e : Prog S ε α) Q s :=
  ⟨φ, s, .refl, h⟩

/-- A program that ran to a value in one step of the machine. -/
theorem Traces.eval {m : Prog S ε α} {a : α} {φ' : Φ} {s' : S} (hm : m s = (.ok a, s'))
    (h : M (φ, s) (φ', s')) (hQ : Q a φ' s') : Traces M D φ m Q s := by
  unfold Traces
  rw [hm]
  exact ⟨φ', .single h, hQ⟩

theorem Traces.bind {m : Prog S ε α} {f : α → Prog S ε β} {R : α → Φ → S → Prop}
    {Q : β → Φ → S → Prop} (hm : Traces M D φ m R s)
    (hf : ∀ a φ' s', R a φ' s' → Traces M D φ' (f a) Q s') : Traces M D φ (m >>= f) Q s := by
  unfold Traces at hm ⊢
  rw [bind_eq]
  match hs : m s with
  | (.err e, s') => simpa only [hs] using hm
  | (.died, s') => simpa only [hs] using hm
  | (.ok a, s') =>
      simp only [hs] at hm
      obtain ⟨φ₁, hp, hr⟩ := hm
      have hfa := hf a φ₁ s' hr
      unfold Traces at hfa
      simp only
      match hs' : f a s' with
      | (.ok b, s₂) =>
          simp only [hs'] at hfa
          obtain ⟨φ₂, hp₂, hq⟩ := hfa
          exact ⟨φ₂, hp.trans hp₂, hq⟩
      | (.err e, s₂) =>
          simp only [hs'] at hfa
          obtain ⟨φ₂, s₁, hp₂, hd⟩ := hfa
          exact ⟨φ₂, s₁, hp.trans hp₂, hd⟩
      | (.died, s₂) =>
          simp only [hs'] at hfa
          obtain ⟨φ₂, s₁, hp₂, hd⟩ := hfa
          exact ⟨φ₂, s₁, hp.trans hp₂, hd⟩

theorem Traces.readBind {g : S → α} {f : α → Prog S ε β} {Q : β → Φ → S → Prop}
    (h : Traces M D φ (f (g s)) Q s) : Traces M D φ (Prog.read g >>= f) Q s := h

/-- An edit that is one step of the machine. -/
theorem Traces.editBind {g : S → S} {f : Unit → Prog S ε α} {φ' : Φ} (hM : M (φ, s) (φ', g s))
    (h : Traces M D φ' (f ()) Q (g s)) : Traces M D φ (Prog.edit g >>= f) Q s :=
  Traces.bind (R := fun _ φ₁ s₁ => φ₁ = φ' ∧ s₁ = g s) (Traces.eval rfl hM ⟨rfl, rfl⟩)
    fun _ _ _ hr => by rw [hr.1, hr.2]; exact h

/-- What holds of a value, and what of a caught error. -/
def Caught (Q : α → Φ → S → Prop) (P : ε → Φ → S → Prop) : Except ε α → Φ → S → Prop
  | .ok a => Q a
  | .error e => P e

/-- An error caught, the state it left being the last of the path. -/
theorem Traces.attempt {m : Prog S ε α} {D' : Option ε' → Φ → S → S → Prop}
    {P : ε → Φ → S → Prop} (h : Traces M D φ m Q s)
    (he : ∀ e φ' s₁ s', D (some e) φ' s₁ s' → s' = s₁ ∧ P e φ' s₁)
    (hd : ∀ φ' s₁ s', D none φ' s₁ s' → D' none φ' s₁ s') :
    Traces M D' φ (attempt m) (Caught Q P) s := by
  unfold Traces at h ⊢
  unfold Prog.attempt
  match hs : m s with
  | (.ok a, s') =>
      simp only [hs] at h
      exact h
  | (.err e, s') =>
      simp only [hs] at h
      obtain ⟨φ₂, s₁, hp, hd'⟩ := h
      obtain ⟨rfl, hP⟩ := he e φ₂ s₁ s' hd'
      exact ⟨φ₂, hp, hP⟩
  | (.died, s') =>
      simp only [hs] at h
      obtain ⟨φ₂, s₁, hp, hd'⟩ := h
      exact ⟨φ₂, s₁, hp, hd _ _ _ hd'⟩

theorem Traces.mono {m : Prog S ε α} {Q' : α → Φ → S → Prop} (h : Traces M D φ m Q' s)
    (hQ : ∀ a φ' s', Q' a φ' s' → Q a φ' s') : Traces M D φ m Q s := by
  unfold Traces at h ⊢
  match hs : m s with
  | (.ok a, s') =>
      simp only [hs] at h
      obtain ⟨φ', hp, hq⟩ := h
      exact ⟨φ', hp, hQ a φ' s' hq⟩
  | (.err e, s') => simpa only [hs] using h
  | (.died, s') => simpa only [hs] using h

/-- The path is known where the program ends. -/
theorem Traces.withPath {m : Prog S ε α} (h : Traces M D φ m Q s) :
    Traces M D φ m
      (fun a φ' s' => Q a φ' s' ∧ Relation.ReflTransGen M (φ, s) (φ', s')) s := by
  unfold Traces at h ⊢
  match hs : m s with
  | (.ok a, s') =>
      simp only [hs] at h
      obtain ⟨φ', hp, hq⟩ := h
      exact ⟨φ', hp, hq, hp⟩
  | (.err e, s') => simpa only [hs] using h
  | (.died, s') => simpa only [hs] using h

/-- What its values satisfy is known where the program ends. -/
theorem Traces.yields {m : Prog S ε α} {P : α → Prop} (h : Traces M D φ m Q s)
    (hy : Yields P m) : Traces M D φ m (fun a φ' s' => Q a φ' s' ∧ P a) s := by
  unfold Traces at h ⊢
  match hs : m s with
  | (.ok a, s') =>
      simp only [hs] at h
      obtain ⟨φ', hp, hq⟩ := h
      exact ⟨φ', hp, hq, hy s a s' hs⟩
  | (.err e, s') => simpa only [hs] using h
  | (.died, s') => simpa only [hs] using h

/-- What every run keeps is known where the program ends. -/
theorem Traces.keeping {R : S → S → Prop} {X F : Prop} {m : Prog S ε α} (h : Traces M D φ m Q s)
    (hk : Keeps R X F m) : Traces M D φ m (fun a φ' s' => Q a φ' s' ∧ R s s') s := by
  have hR := (hk s).1
  unfold Traces at h ⊢
  match hs : m s with
  | (.ok a, s') =>
      simp only [hs] at h hR
      obtain ⟨φ', hp, hq⟩ := h
      exact ⟨φ', hp, hq, hR⟩
  | (.err e, s') => simpa only [hs] using h
  | (.died, s') => simpa only [hs] using h

/-- A program that keeps `R` stays in its phase, where the machine allows it. -/
theorem Traces.ofKeeps {R : S → S → Prop} {X F : Prop} {m : Prog S ε α} (h : Keeps R X F m)
    (hM : ∀ s s', R s s' → M (φ, s) (φ, s')) (hX : X → ∀ e s, D (some e) φ s s)
    (hF : F → ∀ s, D none φ s s) :
    Traces M D φ m (fun _ φ' s' => φ' = φ ∧ R s s') s := by
  have hs := h s
  unfold Traces
  match hm : m s with
  | (.ok a, s') =>
      rw [hm] at hs
      exact ⟨φ, .single (hM _ _ hs.1), rfl, hs.1⟩
  | (.err e, s') =>
      rw [hm] at hs
      exact ⟨φ, s', .single (hM _ _ hs.1), hX hs.2 e s'⟩
  | (.died, s') =>
      rw [hm] at hs
      exact ⟨φ, s', .single (hM _ _ hs.1), hF hs.2 s'⟩

theorem Traces.when {c : Bool} {m : Prog S ε Unit} {Q : Unit → Φ → S → Prop}
    (hm : c = true → Traces M D φ m Q s) (hq : c = false → Q () φ s) :
    Traces M D φ (when c m) Q s := by
  unfold Prog.when
  cases c with
  | true => exact hm rfl
  | false => exact Traces.pure (hq rfl)

theorem Traces.failIf {c : Bool} {e : ε} {Q : Unit → Φ → S → Prop}
    (hd : c = true → D (some e) φ s s) (hq : c = false → Q () φ s) :
    Traces M D φ (failIf c e : Prog S ε Unit) Q s := by
  unfold Prog.failIf
  cases c with
  | true => exact Traces.fail (hd rfl)
  | false => exact Traces.pure (hq rfl)

/-- A loop whose body keeps an assertion about phase and state. -/
theorem Traces.loop {γ : Type} {f : γ → α → Prog S ε α} {I : Φ → S → Prop} (xs : List γ)
    (h : ∀ x ∈ xs, ∀ a φ s, I φ s → Traces M D φ (f x a) (fun _ => I) s) (a : α)
    (hI : I φ s) : Traces M D φ (loop f xs a) (fun _ => I) s := by
  induction xs generalizing a φ s with
  | nil => exact Traces.pure hI
  | cons x xs ih =>
      exact Traces.bind (h x List.mem_cons_self a φ s hI)
        fun a' φ' s' hI' => ih (fun y hy => h y (List.mem_cons_of_mem _ hy)) a' hI'

/-- The program runs from `s` while the machine is still at `p`: what was done
since is to be one step together with what follows. -/
def Pending (M : Φ × S → Φ × S → Prop) (D : Option ε → Φ → S → S → Prop) (p : Φ × S)
    (m : Prog S ε α) (Q : α → Φ → S → Prop) (s : S) : Prop :=
  match m s with
  | (.ok a, s') => ∃ φ', Relation.ReflTransGen M p (φ', s') ∧ Q a φ' s'
  | (.err e, s') => ∃ φ' s₁, Relation.ReflTransGen M p (φ', s₁) ∧ D (some e) φ' s₁ s'
  | (.died, s') => ∃ φ' s₁, Relation.ReflTransGen M p (φ', s₁) ∧ D none φ' s₁ s'

theorem Pending.start {m : Prog S ε α} (h : Pending M D (φ, s) m Q s) : Traces M D φ m Q s := h

/-- An edit the machine has not followed yet. -/
theorem Pending.editBind {p : Φ × S} {g : S → S} {f : Unit → Prog S ε α}
    (h : Pending M D p (f ()) Q (g s)) : Pending M D p (Prog.edit g >>= f) Q s := h

/-- The machine goes ahead by a step. -/
theorem Pending.via {p p' : Φ × S} {m : Prog S ε α} (hM : M p p') (h : Pending M D p' m Q s) :
    Pending M D p m Q s := by
  unfold Pending at h ⊢
  match hs : m s with
  | (.ok a, s') =>
      simp only [hs] at h
      obtain ⟨φ', hp, hq⟩ := h
      exact ⟨φ', .head hM hp, hq⟩
  | (.err e, s') =>
      simp only [hs] at h
      obtain ⟨φ', s₁, hp, hd⟩ := h
      exact ⟨φ', s₁, .head hM hp, hd⟩
  | (.died, s') =>
      simp only [hs] at h
      obtain ⟨φ', s₁, hp, hd⟩ := h
      exact ⟨φ', s₁, .head hM hp, hd⟩

/-- The machine catches up in one step. -/
theorem Pending.land {p : Φ × S} {m : Prog S ε α} (hM : M p (φ, s)) (h : Traces M D φ m Q s) :
    Pending M D p m Q s := Pending.via hM h

/-- A last edit with which the machine catches up. -/
theorem Pending.edit {p : Φ × S} {g : S → S} {Q : Unit → Φ → S → Prop} (hM : M p (φ, g s))
    (hQ : Q () φ (g s)) : Pending M D p (Prog.edit g) Q s :=
  ⟨φ, .single hM, hQ⟩

/-- A program that keeps `R`, its failures dropping back to where the machine
is. -/
theorem Pending.keepsBind {p : Φ × S} {R : S → S → Prop} {F : Prop} {m : Prog S ε α}
    {f : α → Prog S ε β} {Q : β → Φ → S → Prop} (hm : Keeps R F F m)
    (hf : ∀ a s', R s s' → Pending M D p (f a) Q s')
    (hD : F → ∀ o s', R s s' → D o p.1 p.2 s') : Pending M D p (m >>= f) Q s := by
  have hs := hm s
  unfold Pending
  rw [bind_eq]
  match h : m s with
  | (.ok a, s') =>
      rw [h] at hs
      exact hf a s' hs.1
  | (.err e, s') =>
      rw [h] at hs
      exact ⟨p.1, p.2, .refl, hD hs.2 _ s' hs.1⟩
  | (.died, s') =>
      rw [h] at hs
      exact ⟨p.1, p.2, .refl, hD hs.2 _ s' hs.1⟩

/-- A step of the machine that the state does not show. -/
theorem Traces.after {m : Prog S ε α} {φ' : Φ} (h : M (φ, s) (φ', s))
    (hm : Traces M D φ' m Q s) : Traces M D φ m Q s :=
  Pending.land h hm

/-- What every step of the machine keeps holds along a path of it. -/
theorem path_invariant {I : Φ × S → Prop} {p p' : Φ × S} (h : Relation.ReflTransGen M p p')
    (hM : ∀ p p', I p → M p p' → I p') (hI : I p) : I p' := by
  induction h with
  | refl => exact hI
  | tail _ hstep ih => exact hM _ _ ih hstep

end

end Prog

end Rescind.Lib
