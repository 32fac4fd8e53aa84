/-
# `Rescind.Core.Algebra` — leaves, intent and coverage of a plan

The leaves of a plan in execution order, numbered from 1; the intent a plan
declares (temporary by `wane`, permanent by a reachable `commit()`); the paths
through its `when` arms; and what its backstop covers.

    leafCount items = (leaves items).length            (`leafCount_eq_length`)
-/
import Rescind.Core.Model
import Mathlib.Data.List.Enum

namespace Rescind

/-! ## Leaves -/

mutual

/-- The leaves of one item: containers contribute their children. -/
def leavesOf : Item → List Item
  | .par children => leaves children
  | .repeat_ _ _ body => leaves body
  | .when_ _ _ _ then_ else_ => leaves then_ ++ leaves else_
  | it => [it]

/-- The leaves of a plan in execution order. -/
def leaves : List Item → List Item
  | [] => []
  | it :: items => leavesOf it ++ leaves items

end

/-- The leaves numbered from 1. -/
def numbered (items : List Item) : List (Nat × Item) :=
  (leaves items).zipIdx 1 |>.map fun p => (p.2, p.1)

/-- The number of leaves, as the walk counts them. -/
def leafCount (items : List Item) : Nat := (numbered items).length

/-- The step, if the leaf is a step or a knell. -/
def stepOf : Item → Option StepI
  | .step s | .knell s => some s
  | _ => none

/-- The step's op, if the leaf is a step or a knell. -/
def opOf (it : Item) : Option Op := (stepOf it).map StepI.op

/-- The leaf with a number. -/
def leafAt (items : List Item) (n : Nat) : Option Item :=
  ((numbered items).find? fun p => p.1 = n).map Prod.snd

@[simp] theorem leafCount_eq_length (items : List Item) :
    leafCount items = (leaves items).length := by
  simp [leafCount, numbered]

@[simp] theorem leaves_append (a b : List Item) : leaves (a ++ b) = leaves a ++ leaves b := by
  induction a with
  | nil => simp [leaves]
  | cons it a ih => simp [leaves, ih, List.append_assoc]

/-! ## Numbers of leaves -/

theorem find_zipIdx {α : Type} (xs : List α) (k i : Nat) :
    (((xs.zipIdx k).map fun p => (p.2, p.1)).find? fun p => p.1 = k + i).map Prod.snd = xs[i]? := by
  induction xs generalizing k i with
  | nil => simp
  | cons x xs ih =>
      cases i with
      | zero => simp [List.zipIdx_cons]
      | succ i =>
          have hne : ¬k = k + (i + 1) := by omega
          have hk : k + (i + 1) = k + 1 + i := by omega
          simp only [List.zipIdx_cons, List.map_cons, List.find?_cons, List.getElem?_cons_succ]
          rw [decide_eq_false hne, hk]
          exact ih (k + 1) i

/-- The leaf with number `i + 1` is the `i`-th in execution order. -/
theorem leafAt_eq (items : List Item) (i : Nat) : leafAt items (1 + i) = (leaves items)[i]? :=
  find_zipIdx (leaves items) 1 i

/-- The leaf at a number is numbered by it. -/
theorem mem_of_leafAt {items : List Item} {n : Nat} {it : Item} (h : leafAt items n = some it) :
    (n, it) ∈ numbered items := by
  obtain ⟨⟨k, x⟩, hf, rfl⟩ := Option.map_eq_some_iff.mp h
  have hk : k = n := by simpa using List.find?_some hf
  subst hk
  exact List.mem_of_find?_eq_some hf

theorem mem_numbered_of_opAt {items : List Item} {n : Nat} {o : Op}
    (h : (leafAt items n).bind opOf = some o) : ∃ it, (n, it) ∈ numbered items ∧ opOf it = some o := by
  obtain ⟨it, hl, ho⟩ := Option.bind_eq_some_iff.mp h
  exact ⟨it, mem_of_leafAt hl, ho⟩

/-- A numbered leaf is the leaf at its number. -/
theorem leafAt_of_mem {items : List Item} {n : Nat} {it : Item} (h : (n, it) ∈ numbered items) :
    leafAt items n = some it := by
  obtain ⟨⟨x, k⟩, hm, he⟩ := List.mem_map.mp h
  obtain ⟨rfl, rfl⟩ : k = n ∧ x = it := by simpa using he
  obtain ⟨hk, hx⟩ := List.mk_mem_zipIdx_iff_le_and_getElem?_sub.mp hm
  obtain ⟨i, rfl⟩ := Nat.exists_eq_add_of_le hk
  rw [leafAt_eq]
  simpa using hx

/-! ## Intent -/

inductive Intent where
  | temporary | permanent
  deriving DecidableEq, Repr

mutual

def commitReachableItem : Item → Bool
  | .commit => true
  | .par children => commitReachable children
  | .repeat_ _ _ body => commitReachable body
  | .when_ _ _ _ then_ else_ => commitReachable then_ || commitReachable else_
  | _ => false

def commitReachable : List Item → Bool
  | [] => false
  | it :: items => commitReachableItem it || commitReachable items

end

/-- The intent, or `none` when it cannot be determined (E0501). -/
def inferIntent (p : Plan) : Option Intent :=
  let hasWane := p.wane.isSome
  let hasCommit := commitReachable p.body
  if p.firesByConstruction then
    if hasWane || hasCommit then none else some .temporary
  else if hasWane && !hasCommit then some .temporary
  else if hasCommit && !hasWane then some .permanent
  else none

/-- The bound a temporary plan's states expire at: `wane`, or for a
fires-by-construction plan the `unless_confirmed` duration. -/
def effectiveWane (p : Plan) : Option Duration :=
  match p.wane with
  | some w => some w
  | none =>
      if p.firesByConstruction then
        p.backstop.bind fun b => b.triggers.findSome? fun
          | .unlessConfirmed d => some d
          | _ => none
      else none

/-- Every way of following one sequence of leaves by another. -/
def crossPaths (acc here : List (List Item)) : List (List Item) :=
  acc.flatMap fun a => here.map fun h => a ++ h

mutual

def pathsOf : Item → List (List Item)
  | .par children => pathsFrom children [[]]
  | .repeat_ _ _ body => pathsFrom body [[]]
  | .when_ _ _ _ then_ else_ => pathsFrom then_ [[]] ++ pathsFrom else_ [[]]
  | it => [[it]]

/-- The paths of a sequence, each after one of the prefixes found so far. -/
def pathsFrom : List Item → List (List Item) → List (List Item)
  | [], acc => acc
  | it :: items, acc => pathsFrom items (crossPaths acc (pathsOf it))

end

/-- Every path through a plan: the leaves along each choice of `when` arm. -/
def paths (items : List Item) : List (List Item) := pathsFrom items [[]]

def Item.isCommit : Item → Bool
  | .commit => true
  | _ => false

def Item.isConfirm : Item → Bool
  | .confirm => true
  | _ => false

/-- Paths on which `commit()` is followed by another item (E0502). -/
def commitNotLast (items : List Item) : Bool :=
  (paths items).any fun path => 2 ≤ (path.dropWhile fun it => !it.isCommit).length

/-- Paths that never reach `commit()` (E0505 for a permanent plan). -/
def pathsWithoutCommit (items : List Item) : Nat :=
  ((paths items).filter fun path => !path.any Item.isCommit).length

/-- Paths that reach neither `confirm()` nor `commit()`. -/
def pathsWithoutDisarm (items : List Item) : Nat :=
  ((paths items).filter fun path => !path.any fun it => it.isConfirm || it.isCommit).length

/-! ## Backstop coverage -/

/-- What a plan's backstop covers. -/
structure Coverage where
  covered : List Nat
  installedBefore : Option Nat
  armedBeforeStep : Nat
  lateArmingWindow : List Nat
  deriving DecidableEq, Repr

def targetUndoSteps (items : List Item) : List Nat :=
  (numbered items).filterMap fun p =>
    match opOf p.2 with
    | some o => if o.undoLocus = .target then some p.1 else none
    | none => none

/-- A covered step is a step. -/
theorem op_of_targetUndo {items : List Item} {n : Nat} (h : n ∈ targetUndoSteps items) :
    ((leafAt items n).bind opOf).isSome = true := by
  obtain ⟨⟨k, it⟩, hm, he⟩ := List.mem_filterMap.mp h
  dsimp only at he
  rcases ho : opOf it with _ | o
  · rw [ho] at he
    cases he
  · rw [ho] at he
    dsimp only at he
    split at he
    · cases he
      rw [leafAt_of_mem hm, Option.bind_some, ho]
      rfl
    · cases he

theorem numbers_numbered (items : List Item) :
    (numbered items).map Prod.fst = List.range' 1 (leaves items).length := by
  rw [numbered, List.map_map]
  exact List.zipIdx_map_snd 1 (leaves items)

theorem sorted_numbered (items : List Item) :
    ((numbered items).map Prod.fst).Pairwise (· < ·) := by
  rw [numbers_numbered]
  exact List.pairwise_lt_range'

def coverage (p : Plan) : Option Coverage :=
  p.backstop.map fun b =>
    let cov := targetUndoSteps p.body
    { covered := cov
      installedBefore := cov.head?
      armedBeforeStep := b.armBefore
      lateArmingWindow := cov.filter fun n => n < b.armBefore }

end Rescind
