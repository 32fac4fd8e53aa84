/-
# `Rescind.Lib.Words` — results that must fit a machine word

Unsigned 64-bit arithmetic as a build runs it: a result that does not fit stops
the program in a build that checks, and keeps its low 64 bits in one that does
not.  A computation over words is a partial one, beside the exact one over the
naturals.

    a result is the exact one exactly where it fits   (`word_eq_self`)
    a sum that wraps falls short of both its terms    (`word_add_lt`)
    a loop whose steps all fit is the exact loop      (`foldlM_fits`)
    and one with a step that does not fit stops       (`foldlM_stops`)
-/
import Mathlib.Algebra.Ring.Int.Defs
import Mathlib.Algebra.Ring.Nat

namespace Rescind.Lib

/-- What a build does with a result that does not fit. -/
inductive Overflow where
  | stops | wraps
  deriving DecidableEq, Repr

namespace Overflow

variable {o : Overflow} {a b n m : Nat}

/-- A result in a word, or none where the program stops. -/
def word (o : Overflow) (n : Nat) : Option Nat :=
  if n < 2 ^ 64 then some n
  else match o with
    | .stops => none
    | .wraps => some (n % 2 ^ 64)

/-- A signed result in a word. -/
def signed (o : Overflow) (n : Int) : Option Int :=
  if -2 ^ 63 ≤ n ∧ n < 2 ^ 63 then some n
  else match o with
    | .stops => none
    | .wraps => some (n.bmod (2 ^ 64))

theorem word_of_lt (h : n < 2 ^ 64) : o.word n = some n := if_pos h

theorem word_stops (h : 2 ^ 64 ≤ n) : stops.word n = none := by
  rw [word, if_neg (Nat.not_lt.mpr h)]

theorem word_wraps (h : 2 ^ 64 ≤ n) : wraps.word n = some (n % 2 ^ 64) := by
  rw [word, if_neg (Nat.not_lt.mpr h)]

theorem word_lt (h : o.word n = some m) : m < 2 ^ 64 := by
  by_cases hn : n < 2 ^ 64
  · rw [word_of_lt hn] at h
    rwa [← Option.some.inj h]
  · have hn := Nat.not_lt.mp hn
    cases o with
    | stops =>
        rw [word_stops hn] at h
        cases h
    | wraps =>
        rw [word_wraps hn] at h
        rw [← Option.some.inj h]
        exact Nat.mod_lt _ (Nat.two_pow_pos 64)

/-- A result is the exact one exactly where it fits. -/
theorem word_eq_self : o.word n = some n ↔ n < 2 ^ 64 :=
  ⟨word_lt, word_of_lt⟩

/-- A sum that wraps falls short of both its terms. -/
theorem word_add_lt (ha : a < 2 ^ 64) (hb : b < 2 ^ 64) (h : 2 ^ 64 ≤ a + b)
    (hm : wraps.word (a + b) = some m) : m < a ∧ m < b := by
  rw [word_wraps h] at hm
  have hm := Option.some.inj hm
  have hlow : (a + b) % 2 ^ 64 = a + b - 2 ^ 64 := by
    rw [Nat.mod_eq_sub_mod h]
    exact Nat.mod_eq_of_lt (by omega)
  constructor <;> omega

end Overflow

/-! ## Loops of partial steps -/

section Loops

variable {α σ : Type} {f : σ → α → σ} {g : σ → α → Option σ} {P : α → Prop}

theorem foldlM_fits (h : ∀ s a, P a → g s a = some (f s a)) :
    ∀ {xs : List α} {s : σ}, (∀ a ∈ xs, P a) → xs.foldlM g s = some (xs.foldl f s) := by
  intro xs
  induction xs with
  | nil => intro s _; rfl
  | cons a xs ih =>
      intro s hp
      rw [List.foldlM_cons, h s a (hp a (List.mem_cons_self ..)), List.foldl_cons]
      exact ih fun b hb => hp b (List.mem_cons_of_mem _ hb)

theorem foldlM_stops (h : ∀ s a, ¬P a → g s a = none) :
    ∀ {xs : List α} {s : σ}, (∃ a ∈ xs, ¬P a) → xs.foldlM g s = none := by
  intro xs
  induction xs with
  | nil =>
      intro s hp
      obtain ⟨a, ha, _⟩ := hp
      exact absurd ha List.not_mem_nil
  | cons a xs ih =>
      intro s hp
      rw [List.foldlM_cons]
      cases hg : g s a with
      | none => rfl
      | some t =>
          obtain ⟨b, hb, hn⟩ := hp
          rcases List.mem_cons.mp hb with rfl | hb
          · rw [h s b hn] at hg
            cases hg
          · exact ih ⟨b, hb, hn⟩

end Loops

end Rescind.Lib
