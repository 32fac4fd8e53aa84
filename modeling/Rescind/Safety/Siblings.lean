/-
# `Rescind.Safety.Siblings` — the order of steps is the order of the walk

Two visits of a walk are in one pass if no loop had turned between them.  The visits
of one pass come in the order of their numbers (`visits_inTurn`), which is the order
the interference query takes them in wherever it takes them in any.

Nothing is asked of the plan, and the walk is the engine's own, whatever it is answered.
-/
import Rescind.Core.Siblings
import Rescind.Safety.Visits

namespace Rescind

open Lib

variable {σ : Type} (E : Setting σ)

/-! ## The visits of one pass come in order -/

/-- No loop turned between two visits. -/
def OnePass (a b : Visit) : Prop :=
  ∀ pre r s p q, a.path = pre ++ .lap r :: p → b.path = pre ++ .lap s :: q → r.round = s.round

/-- In one pass the first has the smaller number. -/
def InTurn (a b : Visit) : Prop := OnePass a b → a.app.step < b.app.step

theorem InTurn.under {a b : Visit} (h : InTurn a b) (f : Fork) : InTurn (a.under f) (b.under f) := by
  intro hp
  refine h fun pre r s p q ha hb => hp (f :: pre) r s p q ?_ ?_
  · exact congrArg (f :: ·) ha
  · exact congrArg (f :: ·) hb

theorem pairwise_under {vs : List Visit} (h : vs.Pairwise InTurn) (f : Fork) :
    (vs.map (Visit.under f)).Pairwise InTurn :=
  List.pairwise_map.mpr (h.imp fun hab => hab.under f)

/-- Visits of different rounds are of different passes. -/
theorem inTurn_rounds {t u : Lap} (h : t.round ≠ u.round) (a b : Visit) :
    InTurn (a.under (.lap t)) (b.under (.lap u)) := by
  intro hp
  exact absurd (hp [] t u a.path b.path rfl rfl) h

theorem inTurn_visitRounds {var : String} {visits : Nat → String → World σ → List Visit}
    {f : Nat → String → Eng σ Flow} (h : ∀ i x w, (visits i x w).Pairwise InTurn) (xs : List String)
    (i : Nat) (w : World σ) : (visitRounds var visits f xs i w).Pairwise InTurn := by
  induction xs generalizing i w with
  | nil => exact List.Pairwise.nil
  | cons x xs ih =>
      rw [visitRounds]
      refine List.pairwise_append.mpr ⟨pairwise_under (h i x w) _, ?_, fun a ha b hb => ?_⟩
      · split
        · exact ih _ _
        · exact List.Pairwise.nil
      · obtain ⟨a, _, rfl⟩ := List.mem_map.mp ha
        split at hb
        · obtain ⟨j, y, b, -, hj, -, rfl⟩ := round_of_mem hb
          exact inTurn_rounds (show i ≠ j by omega) a b
        · cases hb

mutual

theorem inTurn_visitItem (it : Item) (iteration leaf : Nat) (vars : Vars) (w : World σ) :
    (visitItem E it iteration leaf vars w).Pairwise InTurn := by
  match it with
  | .par children => exact visits_inTurn children 0 iteration leaf vars w
  | .repeat_ form var body =>
      rw [visitItem]
      split
      · exact inTurn_visitRounds (fun i x w => visits_inTurn body 0 i leaf _ w) _ _ _
      · exact List.Pairwise.nil
  | .when_ guard window onLapse then_ else_ =>
      rw [visitItem]
      split
      · exact pairwise_under (visits_inTurn then_ 0 iteration leaf vars _) _
      · exact pairwise_under (visits_inTurn else_ 0 iteration _ vars _) _
      · exact List.Pairwise.nil
  | .step _ | .knell _ | .slot _ | .confirm | .commit | .preflight _ | .observe _ _
  | .assert _ _ _ => exact List.pairwise_singleton _ _

/-- **The visits of one pass** come in the order of their numbers. -/
theorem visits_inTurn (items : List Item) (i iteration leaf : Nat) (vars : Vars) (w : World σ) :
    (visitItems E items i iteration leaf vars w).Pairwise InTurn := by
  match items with
  | [] => exact List.Pairwise.nil
  | it :: items =>
      rw [visitItems]
      refine List.pairwise_append.mpr
        ⟨pairwise_under (inTurn_visitItem it iteration leaf vars w) _, ?_, fun a ha b hb _ => ?_⟩
      · split
        · exact visits_inTurn items _ iteration _ vars _
        · exact List.Pairwise.nil
      · -- the rest of the list is numbered from past the item
        obtain ⟨a, hm, rfl⟩ := List.mem_map.mp ha
        have hlow := step_of_reachesItem it (reaches_visitItem E it iteration leaf vars w hm)
        split at hb
        · next leaf' w' hw =>
            obtain rfl : leaf' = _ := yields_walkItem E it iteration leaf vars w _ _ hw rfl
            have hhigh := step_of_reachesItems items
              (reaches_visitItems E items (i + 1) iteration _ vars w' hb)
            exact Nat.lt_of_lt_of_le hlow.2 hhigh.1
        · cases hb

end

/-! ## Order and siblinghood -/

/-- **Order and siblinghood.**  Siblings are the steps whose innermost container is
a `par`, in different children of it; two other steps are ordered one way; where
both are visited in one pass of the walk they are visited in that order; and the
check of the `par`s looks at each pair of siblings once. -/
theorem order_and_siblings (owner : String) (p : Plan) :
    (∀ a b, (a, b) ∈ parSiblings owner p.body ↔ (StepAt p.body a ∧ StepAt p.body b) ∧
      ∃ n cs, Innermost p.body a b (n, .par cs) ∧ InDifferent cs n a b) ∧
    (∀ x y : Leaf, x.n ≠ y.n →
      (Sibling owner p.body x.n y.n → before x y (parSiblings owner p.body) = false ∧
        before y x (parSiblings owner p.body) = false) ∧
      (¬Sibling owner p.body x.n y.n →
        before x y (parSiblings owner p.body) ≠ before y x (parSiblings owner p.body))) ∧
    (∀ w : World σ, (visits E p.body w).Pairwise fun a b => OnePass a b →
      ∀ x y : Leaf, x.n = a.app.step → y.n = b.app.step → before y x (parSiblings owner p.body) = false ∧
        (¬Sibling owner p.body x.n y.n → before x y (parSiblings owner p.body) = true)) ∧
    (parViolations owner p.body).1 =
      nub (((compared owner p.body).filter fun q => !disjointUmbra owner q.1.2 q.2.2).map
        fun q => (q.1.1, q.2.1)) ∧
    ((compared owner p.body).map fun q => (q.1.1, q.2.1)).Nodup ∧
    ∀ a b, (a, b) ∈ (compared owner p.body).map (fun q => (q.1.1, q.2.1)) ↔
      (a, b) ∈ parSiblings owner p.body := by
  refine ⟨siblings_iff owner p.body, fun x y hne => ⟨fun h => ?_, before_one_way hne⟩, fun w => ?_,
    parViolations_eq owner p.body, nodup_compared owner p.body, mem_compared owner p.body⟩
  · exact ⟨not_before_sibling h, not_before_sibling h.symm⟩
  · refine (visits_inTurn E p.body 0 0 1 [] w).imp fun hab hp x y hx hy => ?_
    have hlt : x.n < y.n := hx ▸ hy ▸ hab hp
    constructor
    · rw [← Bool.not_eq_true, before_iff]
      exact fun h => Nat.lt_asymm hlt h.1
    · exact fun h => before_iff.mpr ⟨hlt, fun hs => h (.inl hs)⟩

end Rescind
