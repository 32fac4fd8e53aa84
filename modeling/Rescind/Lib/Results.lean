/-
# `Rescind.Lib.Results` — computations that give a result

`Gives x P`: the computation succeeds, and what it returns has the property.
One rule for each way such a computation is put together:

    a result, an error                          (`gives_ok`, `gives_error`)
    one after another                           (`gives_bind`, `gives_map`)
    a check, then the rest                      (`gives_unless`)
    what does not depend on the result          (`gives_and_left`, `gives_and_right`)
    each item of a list                         (`gives_mapM`)
    a bind, read off either of its parts        (`bind_of_ok`, `ok_of_bind`)
-/
import Mathlib.Data.List.Basic

namespace Rescind.Lib

variable {ε α β : Type}

/-- The computation returns something with the property. -/
def Gives (x : Except ε α) (P : α → Prop) : Prop := ∃ y, x = .ok y ∧ P y

theorem gives_ok {y : α} {P : α → Prop} : Gives (.ok y : Except ε α) P ↔ P y := by
  constructor
  · rintro ⟨z, hz, hP⟩
    cases hz
    exact hP
  · intro hP
    exact ⟨y, rfl, hP⟩

theorem gives_pure {y : α} {P : α → Prop} : Gives (pure y : Except ε α) P ↔ P y := gives_ok

theorem gives_error {e : ε} {P : α → Prop} : ¬ Gives (.error e : Except ε α) P := by
  rintro ⟨y, hy, -⟩
  cases hy

theorem gives_bind {x : Except ε α} {g : α → Except ε β} {P : β → Prop} :
    Gives (x >>= g) P ↔ Gives x fun y => Gives (g y) P := by
  cases x with
  | error e => exact iff_of_false gives_error gives_error
  | ok y =>
      rw [gives_ok]
      exact Iff.rfl

theorem gives_map {x : Except ε α} {g : α → β} {P : β → Prop} :
    Gives (x >>= fun y => pure (g y)) P ↔ Gives x fun y => P (g y) := by
  rw [gives_bind]
  cases x with
  | error e => exact iff_of_false gives_error gives_error
  | ok y =>
      rw [gives_ok, gives_ok]
      exact gives_ok

/-- A check made before the rest. -/
theorem gives_unless {p : Prop} [Decidable p] {e : ε} {x : Except ε α} {P : α → Prop} :
    Gives (if p then .error e else x) P ↔ ¬ p ∧ Gives x P := by
  split
  next h => exact iff_of_false gives_error fun hx => hx.1 h
  next h => exact (and_iff_right h).symm

theorem Gives.mono {x : Except ε α} {P Q : α → Prop} (h : Gives x P) (hPQ : ∀ y, P y → Q y) :
    Gives x Q := by
  obtain ⟨y, hy, hP⟩ := h
  exact ⟨y, hy, hPQ y hP⟩

theorem gives_congr {x : Except ε α} {P Q : α → Prop} (h : ∀ y, x = .ok y → (P y ↔ Q y)) :
    Gives x P ↔ Gives x Q := by
  constructor
  · rintro ⟨y, hy, hP⟩
    exact ⟨y, hy, (h y hy).mp hP⟩
  · rintro ⟨y, hy, hQ⟩
    exact ⟨y, hy, (h y hy).mpr hQ⟩

theorem gives_and_left {x : Except ε α} {p : Prop} {Q : α → Prop} :
    Gives x (fun y => p ∧ Q y) ↔ p ∧ Gives x Q := by
  constructor
  · rintro ⟨y, hy, hp, hQ⟩
    exact ⟨hp, y, hy, hQ⟩
  · rintro ⟨hp, y, hy, hQ⟩
    exact ⟨y, hy, hp, hQ⟩

theorem gives_and_right {x : Except ε α} {P : α → Prop} {q : Prop} :
    Gives x (fun y => P y ∧ q) ↔ Gives x P ∧ q := by
  simp only [and_comm, gives_and_left]

/-- A property of every item of the list returned is one of what each item
gives. -/
theorem gives_mapM {f : α → Except ε β} {P : β → Prop} {xs : List α} :
    Gives (xs.mapM f) (fun ys => ∀ y ∈ ys, P y) ↔ ∀ x ∈ xs, Gives (f x) P := by
  induction xs with
  | nil => exact gives_ok.trans (iff_of_true nofun nofun)
  | cons x xs ih =>
      rw [List.mapM_cons, gives_bind, List.forall_mem_cons, ← ih]
      cases f x with
      | error e => exact iff_of_false gives_error fun h => gives_error h.1
      | ok y =>
          rw [gives_ok, gives_map, gives_ok]
          constructor
          · rintro ⟨ys, hys, hP⟩
            exact ⟨hP y List.mem_cons_self, ys, hys, fun z hz => hP z (List.mem_cons_of_mem _ hz)⟩
          · rintro ⟨hy, ys, hys, hP⟩
            exact ⟨ys, hys, List.forall_mem_cons.mpr ⟨hy, hP⟩⟩

/-! ## Binds -/

/-- A bind whose first part succeeded. -/
theorem bind_of_ok {x : Except ε α} {f : α → Except ε β} {a : α} (h : x = .ok a) :
    (x >>= f) = f a := by
  rw [h]
  rfl

/-- A bind whose first part failed. -/
theorem bind_of_error {x : Except ε α} {f : α → Except ε β} {e : ε} (h : x = .error e) :
    (x >>= f) = .error e := by
  rw [h]
  rfl

/-- A bind that succeeded went through a value. -/
theorem ok_of_bind {x : Except ε α} {f : α → Except ε β} {b : β} (h : (x >>= f) = .ok b) :
    ∃ a, x = .ok a ∧ f a = .ok b := by
  cases x with
  | ok a => exact ⟨a, rfl, h⟩
  | error e => cases h

end Rescind.Lib
