/-
# `Rescind.Lib.Threshold` — weighted thresholds and their tight choices

Things of a list have weights, and a choice of them reaches a threshold when
their weights add up to it.  A choice is *tight* when it reaches the threshold
and none of it is superfluous.

    what reaches the threshold has a tight choice in it     (`exists_tight`)
    the threshold is reached by those that hold, exactly
    when some tight choice holds altogether                 (`tight_holds_iff`)
    a thing is in a tight choice exactly when it is pivotal (`pivotal_iff`)

A thing is pivotal when some of the others fall short of the threshold by
themselves and reach it with this one.  Nothing is asked of the weights: they
may be zero, and the threshold too.
-/
import Mathlib.Algebra.BigOperators.Group.List.Basic
import Mathlib.Algebra.Ring.Nat
import Mathlib.Data.List.Basic
import Mathlib.Data.List.Sublists

namespace Rescind.Lib

variable {α : Type} (w : α → Nat)

/-- What the weights add up to. -/
def total (s : List α) : Nat := (s.map w).sum

/-- A choice that reaches the threshold, none of it superfluous. -/
structure Tight (n : Nat) (s : List α) : Prop where
  reaches : n ≤ total w s
  needed : ∀ x ∈ s, total w s - w x < n

/-- Some of the others fall short without this one and do not with it. -/
def Pivotal (n : Nat) (others : List α) (x : α) : Prop :=
  ∃ s, s.Sublist others ∧ total w s < n ∧ n ≤ total w s + w x

@[simp] theorem total_nil : total w ([] : List α) = 0 := rfl

@[simp] theorem total_cons (x : α) (s : List α) : total w (x :: s) = w x + total w s := by
  simp [total]

@[simp] theorem total_append (s t : List α) : total w (s ++ t) = total w s + total w t := by
  simp [total]

variable {w}

theorem total_le_of_sublist {s t : List α} (h : s.Sublist t) : total w s ≤ total w t := by
  induction h with
  | slnil => exact Nat.le_refl _
  | cons x _ ih =>
      rw [total_cons]
      omega
  | cons_cons x _ ih =>
      rw [total_cons, total_cons]
      omega

/-! ## Tight choices -/

/-- **What reaches the threshold has a tight choice in it**: what is
superfluous is taken away, one thing after another. -/
theorem exists_tight {n : Nat} {s : List α} (h : n ≤ total w s) :
    ∃ t, t.Sublist s ∧ Tight w n t := by
  by_cases hs : ∀ x ∈ s, total w s - w x < n
  · exact ⟨s, List.Sublist.refl s, h, hs⟩
  · push Not at hs
    obtain ⟨x, hx, hn⟩ := hs
    obtain ⟨l, r, rfl⟩ := List.append_of_mem hx
    have hsub : (l ++ r).Sublist (l ++ x :: r) :=
      (List.Sublist.refl l).append (List.sublist_cons_self x r)
    have hrest : n ≤ total w (l ++ r) := by
      rw [total_append, total_cons] at hn
      rw [total_append]
      omega
    obtain ⟨t, ht, htight⟩ := exists_tight hrest
    exact ⟨t, ht.trans hsub, htight⟩
  termination_by s.length
  decreasing_by
    subst_vars
    simp

/-- Only the weights tell whether a choice is tight. -/
theorem tight_map {n : Nat} {s : List α} : Tight id n (s.map w) ↔ Tight w n s := by
  have ht : total id (s.map w) = total w s := by
    rw [total, total, List.map_id]
  constructor
  · intro h
    refine ⟨ht ▸ h.reaches, ?_⟩
    intro x hx
    have := h.needed (w x) (List.mem_map_of_mem hx)
    rwa [ht] at this
  · intro h
    refine ⟨ht ▸ h.reaches, ?_⟩
    intro x hx
    obtain ⟨y, hy, rfl⟩ := List.mem_map.mp hx
    rw [ht]
    exact h.needed y hy

variable {P : α → Bool}

/-- **The threshold is reached** by the things that hold, exactly when some
tight choice holds altogether. -/
theorem tight_holds_iff {n : Nat} {xs : List α} :
    (∃ s, s.Sublist xs ∧ Tight w n s ∧ ∀ x ∈ s, P x = true) ↔ n ≤ total w (xs.filter P) := by
  constructor
  · rintro ⟨s, hs, ht, hP⟩
    have hf : s.Sublist (xs.filter P) := by
      have := hs.filter P
      rwa [List.filter_eq_self.mpr hP] at this
    exact ht.reaches.trans (total_le_of_sublist hf)
  · intro h
    obtain ⟨t, ht, htight⟩ := exists_tight h
    refine ⟨t, ht.trans List.filter_sublist, htight, ?_⟩
    intro x hx
    exact (List.mem_filter.mp (ht.subset hx)).2

/-! ## Pivotal things -/

/-- A choice with a thing in it is a choice of the others with the thing put
back. -/
theorem sublist_mem_split {s xs : List α} {x : α} (h : s.Sublist xs) (hx : x ∈ s) :
    ∃ l r s₁ s₂, xs = l ++ x :: r ∧ s = s₁ ++ x :: s₂ ∧ s₁.Sublist l ∧ s₂.Sublist r := by
  obtain ⟨s₁, s₂, rfl⟩ := List.append_of_mem hx
  obtain ⟨l, r, rfl, hl, hr⟩ := List.append_sublist_iff.mp h
  obtain ⟨r₁, r₂, rfl, hx₁, hr₂⟩ := List.cons_sublist_iff.mp hr
  obtain ⟨a, b, rfl⟩ := List.append_of_mem hx₁
  refine ⟨l ++ a, b ++ r₂, s₁, s₂, ?_, rfl, ?_, ?_⟩
  · simp
  · exact hl.trans (List.sublist_append_left l a)
  · exact hr₂.trans (List.sublist_append_right b r₂)

/-- **A thing is in a tight choice** exactly when it is pivotal. -/
theorem pivotal_iff {n : Nat} {xs : List α} {Q : α → Prop} :
    (∃ s x, s.Sublist xs ∧ Tight w n s ∧ x ∈ s ∧ Q x) ↔
      ∃ l x r, xs = l ++ x :: r ∧ Pivotal w n (l ++ r) x ∧ Q x := by
  constructor
  · rintro ⟨s, x, hs, ht, hx, hQ⟩
    obtain ⟨l, r, s₁, s₂, rfl, rfl, hl, hr⟩ := sublist_mem_split hs hx
    have hreach := ht.reaches
    have hneed := ht.needed x hx
    rw [total_append, total_cons] at hreach hneed
    refine ⟨l, x, r, rfl, ⟨s₁ ++ s₂, hl.append hr, ?_, ?_⟩, hQ⟩
    · rw [total_append]
      omega
    · rw [total_append]
      omega
  · rintro ⟨l, x, r, rfl, ⟨s, hs, hshort, hreach⟩, hQ⟩
    obtain ⟨s₁, s₂, rfl, hl, hr⟩ := List.sublist_append_iff.mp hs
    have hput : (s₁ ++ x :: s₂).Sublist (l ++ x :: r) := hl.append (hr.cons_cons x)
    have hn : n ≤ total w (s₁ ++ x :: s₂) := by
      rw [total_append] at hreach
      rw [total_append, total_cons]
      omega
    obtain ⟨t, ht, htight⟩ := exists_tight hn
    refine ⟨t, x, ht.trans hput, htight, ?_, hQ⟩
    -- without the thing the choice is one of the others, which fall short
    by_contra hx
    have hsub : t.Sublist (s₁ ++ s₂) := by
      obtain ⟨t₁, t₂, rfl, ht₁, ht₂⟩ := List.sublist_append_iff.mp ht
      refine ht₁.append ?_
      rcases List.sublist_cons_iff.mp ht₂ with h | ⟨u, rfl, -⟩
      · exact h
      · exact absurd (List.mem_append_right t₁ List.mem_cons_self) hx
    have := total_le_of_sublist (w := w) hsub
    have := htight.reaches
    omega

end Rescind.Lib
