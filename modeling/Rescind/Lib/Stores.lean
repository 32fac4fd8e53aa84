/-
# `Rescind.Lib.Stores` — what a store keeps and what is overwritten

A store as a function of its keys.  `Only X` is what changes nothing off the keys of
`X`.  Assignments that have been begun, and perhaps left half done, come to the same
when they are made again from the first: what each of them sets does not depend on what
was there.

    assignments made again                       (`assign_only`)
-/
import Mathlib.Data.Set.Basic
import Mathlib.Order.Defs.Unbundled

namespace Rescind.Lib

variable {K V : Type}

/-- Only the keys of `X` are touched. -/
def Only (X : Set K) (f g : K → V) : Prop := ∀ k, k ∉ X → g k = f k

section
variable {X Y : Set K} {f g h : K → V} {k : K}

instance : Std.Refl (Only (V := V) X) := ⟨fun _ _ _ => rfl⟩

instance : IsTrans (K → V) (Only X) := ⟨fun _ _ _ h h' k hk => (h' k hk).trans (h k hk)⟩

theorem Only.symm (h : Only X f g) : Only X g f := fun k hk => (h k hk).symm

theorem Only.mono (hX : X ⊆ Y) (h : Only X f g) : Only Y f g := fun k hk => h k fun hx => hk (hX hx)

variable [DecidableEq K]

theorem Only.update {v : V} (hk : k ∈ X) : Only X f (Function.update f k v) := by
  intro j hj
  have hne : j ≠ k := fun h => hj (h ▸ hk)
  exact Function.update_of_ne hne v f

/-- Stores that agree off a key agree on it too once it is set. -/
theorem Only.assigned {v : V} (h : Only (X ∪ {k}) f g) : Only X (Function.update f k v) (Function.update g k v) := by
  intro j hj
  by_cases hk : j = k
  · rw [hk, Function.update_self, Function.update_self]
  · rw [Function.update_of_ne hk, Function.update_of_ne hk]
    exact h j fun hx => hx.elim hj hk

/-- Assignments, one after the other. -/
def assign : List (K × V) → (K → V) → K → V
  | [], f => f
  | w :: ws, f => assign ws (Function.update f w.1 w.2)

/-- The keys assigned to. -/
def keys (ws : List (K × V)) : Set K := { k | ∃ v, (k, v) ∈ ws }

/-- Stores that agree off what is assigned to agree once it is assigned. -/
theorem assign_only {ws : List (K × V)} (h : Only (X ∪ keys ws) f g) : Only X (assign ws f) (assign ws g) := by
  induction ws generalizing f g with
  | nil => exact h.mono fun k hk => hk.elim id fun ⟨v, hv⟩ => (List.not_mem_nil hv).elim
  | cons w ws ih =>
      refine ih (Only.assigned (h.mono fun k hk => ?_))
      rcases hk with hk | ⟨v, hv⟩
      · exact Or.inl (Or.inl hk)
      · rcases List.mem_cons.mp hv with rfl | hv
        · exact Or.inr rfl
        · exact Or.inl (Or.inr ⟨v, hv⟩)

theorem only_assign (ws : List (K × V)) : Only (keys ws) f (assign ws f) := by
  induction ws generalizing f with
  | nil => exact fun _ _ => rfl
  | cons w ws ih =>
      have hw : w.1 ∈ keys (w :: ws) := ⟨w.2, List.mem_cons_self⟩
      have hws : keys ws ⊆ keys (w :: ws) := fun k ⟨v, hv⟩ => ⟨v, List.mem_cons_of_mem _ hv⟩
      exact trans_of (Only (keys (w :: ws))) (Only.update hw) (ih.mono hws)

end

end Rescind.Lib
