/-
# `Rescind.Lib.Ranges` — ranges of a list, from one predicate to another

A range begins at what the first predicate holds of and goes to the next thing
after it that the second holds of, or to the end of the list.  What is left when
every range is deleted begins none.

    deleting changes nothing where no range begins     (`deleteRange_eq_self_iff`)
    what is left stays when more follows               (`deleteRange_append`)
-/
import Mathlib.Data.List.Basic

namespace Rescind.Lib

variable {α : Type}

/-- The list without its ranges, from inside one or outside. -/
def deleteRange (p q : α → Bool) : Bool → List α → List α
  | _, [] => []
  | false, x :: xs => if p x then deleteRange p q true xs else x :: deleteRange p q false xs
  | true, x :: xs => deleteRange p q (!q x) xs

variable {p q : α → Bool}

theorem deleteRange_subset {b : Bool} {xs : List α} : deleteRange p q b xs ⊆ xs := by
  induction xs generalizing b with
  | nil =>
      rw [deleteRange]
      exact List.Subset.refl []
  | cons x xs ih =>
      cases b with
      | true =>
          rw [deleteRange]
          exact List.subset_cons_of_subset x ih
      | false =>
          rw [deleteRange]
          split
          · exact List.subset_cons_of_subset x ih
          · exact List.cons_subset_cons x ih

/-- What is left begins no range. -/
theorem begins_none {b : Bool} {xs : List α} {x : α} (h : x ∈ deleteRange p q b xs) : p x = false := by
  induction xs generalizing b with
  | nil =>
      rw [deleteRange] at h
      cases h
  | cons y ys ih =>
      cases b with
      | true =>
          rw [deleteRange] at h
          exact ih h
      | false =>
          rw [deleteRange] at h
          split at h
          · exact ih h
          · rename_i hy
            rcases List.mem_cons.mp h with rfl | h
            · simpa using hy
            · exact ih h

/-- Things that begin no range stay, whatever follows. -/
theorem deleteRange_append {xs : List α} (h : ∀ x ∈ xs, p x = false) (ys : List α) :
    deleteRange p q false (xs ++ ys) = xs ++ deleteRange p q false ys := by
  induction xs with
  | nil => rfl
  | cons x xs ih =>
      have hx : p x = false := h x List.mem_cons_self
      rw [List.cons_append, deleteRange, if_neg (by rw [hx]; exact Bool.false_ne_true),
        ih fun y hy => h y (List.mem_cons_of_mem _ hy), List.cons_append]

theorem deleteRange_eq_self_iff {xs : List α} :
    deleteRange p q false xs = xs ↔ ∀ x ∈ xs, p x = false := by
  constructor
  · intro h x hx
    rw [← h] at hx
    exact begins_none hx
  · intro h
    have ha := deleteRange_append (q := q) h []
    rwa [deleteRange, List.append_nil] at ha

end Rescind.Lib
