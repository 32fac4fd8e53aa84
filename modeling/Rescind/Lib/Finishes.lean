/-
# `Rescind.Lib.Finishes` — what a program that returns has done

Partial correctness of programs that can fail or be cut short: `Finishes m Q s` says of
the run of `m` from `s` only that where it returns a value, it does so with `Q`.  A
part that fails or dies ends the whole, so each rule speaks of values alone, and a
program is gone through from its first line to its last.

    Finishes.bind          first a part with its own end
    Finishes.keepsBind     first a part of which a relation is known
    Finishes.visits        a `for` loop that ran through did its work at each element
-/
import Rescind.Lib.Prog

namespace Rescind.Lib.Prog

variable {S ε ε' α β γ : Type}

/-- Where the run from `s` returns, it does with `Q`. -/
def Finishes (m : Prog S ε α) (Q : α → S → Prop) (s : S) : Prop := ∀ a s', m s = (.ok a, s') → Q a s'

section
variable {R : S → S → Prop} {X F : Prop} {s : S} {m : Prog S ε α} {Q : α → S → Prop}

theorem Finishes.mono {P : α → S → Prop} (h : Finishes m P s) (hQ : ∀ a s', P a s' → Q a s') : Finishes m Q s :=
  fun a s' hm => hQ a s' (h a s' hm)

theorem Finishes.and {P : α → S → Prop} (h : Finishes m P s) (h' : Finishes m Q s) :
    Finishes m (fun a s' => P a s' ∧ Q a s') s :=
  fun a s' hm => ⟨h a s' hm, h' a s' hm⟩

theorem Finishes.pure {a : α} (h : Q a s) : Finishes (Pure.pure a : Prog S ε α) Q s := by
  intro b s' hm
  cases hm
  exact h

theorem Finishes.bind {f : α → Prog S ε β} {P : α → S → Prop} {Q : β → S → Prop} (hm : Finishes m P s)
    (hf : ∀ a s', P a s' → Finishes (f a) Q s') : Finishes (m >>= f) Q s := by
  intro b s' h
  obtain ⟨a, s₁, ha, hb⟩ := bind_ok_inv h
  exact hf a s₁ (hm a s₁ ha) b s' hb

theorem Finishes.readBind {g : S → α} {f : α → Prog S ε β} {Q : β → S → Prop} (h : Finishes (f (g s)) Q s) :
    Finishes (Prog.read g >>= f) Q s := h

theorem Finishes.editBind {g : S → S} {f : Unit → Prog S ε β} {Q : β → S → Prop}
    (h : Finishes (f ()) Q (g s)) : Finishes (Prog.edit g >>= f) Q s := h

/-- Past a check that raises an error the check failed to find one. -/
theorem failIf_ok {c : Bool} {e : ε} {u : Unit} {s' : S} (h : failIf c e s = (.ok u, s')) : c = false ∧ s' = s := by
  cases c with
  | false =>
      cases h
      exact ⟨rfl, rfl⟩
  | true => cases h

/-- What a part under a condition did. -/
theorem when_ok {c : Bool} {m : Prog S ε Unit} {u : Unit} {s' : S} (h : when c m s = (.ok u, s')) :
    c = true ∧ m s = (.ok u, s') ∨ c = false ∧ s' = s := by
  cases c with
  | true => exact Or.inl ⟨rfl, h⟩
  | false =>
      cases h
      exact Or.inr ⟨rfl, rfl⟩

/-- First a part that keeps `R`. -/
theorem Finishes.keepsBind {f : α → Prog S ε β} {Q : β → S → Prop} (hm : Keeps R X F m)
    (hf : ∀ a s', R s s' → Finishes (f a) Q s') : Finishes (m >>= f) Q s :=
  Finishes.bind (P := fun _ s' => R s s') (fun _ _ h => hm.ran h) hf

theorem Finishes.keeps (hm : Keeps R X F m) (hQ : ∀ a s', R s s' → Q a s') : Finishes m Q s :=
  fun a s' h => hQ a s' (hm.ran h)

theorem Finishes.ite {c : Prop} [Decidable c] {n : Prog S ε α} (hm : c → Finishes m Q s)
    (hn : ¬c → Finishes n Q s) : Finishes (if c then m else n) Q s := by
  split
  next h => exact hm h
  next h => exact hn h

theorem Finishes.when {c : Bool} {m : Prog S ε Unit} {Q : Unit → S → Prop} (hm : c = true → Finishes m Q s)
    (hn : c = false → Q () s) : Finishes (when c m) Q s := by
  unfold Prog.when
  exact Finishes.ite hm fun h => Finishes.pure (hn (Bool.eq_false_iff.mpr h))

/-- A loop whose body does its work at an element that is as it was found, and leaves
those of other keys as they are: where it ran through, the work is done at each. -/
theorem Finishes.visits {κ : Type} {key : γ → κ} {P D : γ → S → Prop} {f : γ → α → Prog S ε α}
    (hdo : ∀ x a s, P x s → Finishes (f x a) (fun _ s' =>
      D x s' ∧ ∀ y, key y ≠ key x → (P y s → P y s') ∧ (D y s → D y s')) s)
    {xs : List γ} (hn : (xs.map key).Nodup) (a : α) (h : ∀ x ∈ xs, P x s) :
    Finishes (Prog.loop f xs a) (fun _ s' => ∀ x ∈ xs, D x s') s := by
  suffices hloop : Finishes (Prog.loop f xs a) (fun _ s' =>
      (∀ x ∈ xs, D x s') ∧ ∀ y, key y ∉ xs.map key → D y s → D y s') s from
    hloop.mono fun _ _ h => h.1
  induction xs generalizing a s with
  | nil => exact Finishes.pure ⟨fun _ hx => (List.not_mem_nil hx).elim, fun _ _ hd => hd⟩
  | cons x xs ih =>
      rw [List.map_cons, List.nodup_cons] at hn
      refine Finishes.bind (hdo x a s (h x List.mem_cons_self)) ?_
      rintro a₁ s₁ ⟨hx, hother⟩
      have hne : ∀ y ∈ xs, key y ≠ key x := fun y hy he => hn.1 (he ▸ List.mem_map_of_mem hy)
      refine (ih hn.2 a₁ fun y hy => (hother y (hne y hy)).1 (h y (List.mem_cons_of_mem _ hy))).mono ?_
      rintro a₂ s₂ ⟨hrest, hkept⟩
      refine ⟨fun y hy => ?_, fun y hy hd => ?_⟩
      · rcases List.mem_cons.mp hy with rfl | hy
        · exact hkept _ hn.1 hx
        · exact hrest y hy
      · rw [List.map_cons, List.mem_cons, not_or] at hy
        exact hkept y hy.2 ((hother y hy.1).2 hd)

end

end Rescind.Lib.Prog
