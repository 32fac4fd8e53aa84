/-
# `Rescind.Core.Numbers` — the numbers of a plan

The numbers a plan's text writes into it: thresholds and weights, the counts of
repeats, the modes of staged files, and how often a backstop is armed.  A plan with
each replaced by what a function makes of it is the plan itself exactly where the
function keeps every one of them.

    a gate, a body, an op, an item, a plan         (`GateExpr.map_eq_iff` and so on)
-/
import Rescind.Core.Model

namespace Rescind

variable (f : Nat → Nat)

/-! ## Gates -/

mutual

def GateExpr.map : GateExpr → GateExpr
  | .thresh n factors => .thresh (f n) (Factor.mapAll factors)
  | .single x => .single (Factor.map x)

def Factor.map : Factor → Factor
  | .auth id w => .auth id (f w)
  | .humans w => .humans (f w)
  | .group g w => .group (GateExpr.map g) (f w)
  | .wait d w => .wait d (f w)

def Factor.mapAll : List Factor → List Factor
  | [] => []
  | x :: xs => Factor.map x :: Factor.mapAll xs

end

theorem Factor.mapAll_eq_map (xs : List Factor) : Factor.mapAll f xs = xs.map (Factor.map f) := by
  induction xs with
  | nil => rfl
  | cons x xs ih => rw [Factor.mapAll, List.map_cons, ih]

mutual

def GateExpr.numbers : GateExpr → List Nat
  | .thresh n factors => n :: Factor.allNumbers factors
  | .single x => Factor.numbers x

def Factor.numbers : Factor → List Nat
  | .auth _ w => [w]
  | .humans w => [w]
  | .group g w => w :: GateExpr.numbers g
  | .wait _ w => [w]

def Factor.allNumbers : List Factor → List Nat
  | [] => []
  | x :: xs => Factor.numbers x ++ Factor.allNumbers xs

end

/-- A function keeps each of some numbers. -/
def Fixes (ks : List Nat) : Prop := ∀ k ∈ ks, f k = k

variable {f}

@[simp] theorem fixes_nil : Fixes f [] := fun _ h => by cases h

@[simp] theorem fixes_cons {k : Nat} {ks : List Nat} : Fixes f (k :: ks) ↔ f k = k ∧ Fixes f ks :=
  List.forall_mem_cons

@[simp] theorem fixes_append {ks ls : List Nat} : Fixes f (ks ++ ls) ↔ Fixes f ks ∧ Fixes f ls :=
  List.forall_mem_append

mutual

theorem GateExpr.map_eq_iff (g : GateExpr) : g.map f = g ↔ Fixes f g.numbers := by
  cases g with
  | thresh n factors =>
      simp only [GateExpr.map, GateExpr.numbers, GateExpr.thresh.injEq, fixes_cons]
      exact and_congr_right fun _ => Factor.mapAll_eq_iff factors
  | single x =>
      simp only [GateExpr.map, GateExpr.numbers, GateExpr.single.injEq]
      exact Factor.map_eq_iff x

theorem Factor.map_eq_iff (x : Factor) : x.map f = x ↔ Fixes f x.numbers := by
  cases x with
  | auth id w => simp [Factor.map, Factor.numbers]
  | humans w => simp [Factor.map, Factor.numbers]
  | wait d w => simp [Factor.map, Factor.numbers]
  | group g w =>
      simp only [Factor.map, Factor.numbers, Factor.group.injEq, fixes_cons]
      rw [and_comm]
      exact and_congr_right fun _ => GateExpr.map_eq_iff g

theorem Factor.mapAll_eq_iff (xs : List Factor) :
    Factor.mapAll f xs = xs ↔ Fixes f (Factor.allNumbers xs) := by
  cases xs with
  | nil => simp [Factor.mapAll, Factor.allNumbers]
  | cons x xs =>
      simp only [Factor.mapAll, Factor.allNumbers, List.cons.injEq, fixes_append]
      exact and_congr (Factor.map_eq_iff x) (Factor.mapAll_eq_iff xs)

end

/-! ## Bodies and ops -/

variable (f)

def Prim.map : Prim → Prim
  | .stage name content mode => .stage name content (f mode)
  | p => p

def Prim.numbers : Prim → List Nat
  | .stage _ _ mode => [mode]
  | _ => []

def Body.numbers (b : Body) : List Nat := b.flatMap Prim.numbers

def Undo.map : Undo → Undo
  | .computed b pre => .computed (List.map (Prim.map f) b) pre
  | .compensate b pre => .compensate (List.map (Prim.map f) b) pre
  | u => u

def Undo.numbers : Undo → List Nat
  | .computed b _ => Body.numbers b
  | .compensate b _ => Body.numbers b
  | _ => []

def Ack.map : Ack → Ack
  | .gate g => .gate (g.map f)
  | a => a

def Ack.numbers : Ack → List Nat
  | .gate g => g.numbers
  | .noAck _ => []

def Refusal.map : Refusal → Refusal
  | .knell guard cost ack => .knell guard cost (ack.map f)
  | r => r

def Refusal.numbers : Refusal → List Nat
  | .knell _ _ ack => ack.numbers
  | _ => []

def Op.map (op : Op) : Op :=
  { op with
    do_ := List.map (Prim.map f) op.do_
    undo := op.undo.map f
    refusal := op.refusal.map f
    suspend := op.suspend.map (List.map (Prim.map f))
    reestablish := op.reestablish.map (List.map (Prim.map f)) }

def Op.numbers (op : Op) : List Nat :=
  Body.numbers op.do_ ++ (op.undo.numbers ++ (op.refusal.numbers ++
    (Body.numbers (op.suspend.getD []) ++ Body.numbers (op.reestablish.getD []))))

/-! ## Items and plans -/

def gateNumbers (g : Option GateExpr) : List Nat := g.elim [] GateExpr.numbers

def StepI.map (s : StepI) : StepI :=
  { s with op := s.op.map f, gate := s.gate.map (GateExpr.map f) }

def StepI.numbers (s : StepI) : List Nat := s.op.numbers ++ gateNumbers s.gate

def RepeatForm.map : RepeatForm → RepeatForm
  | .count n => .count (f n)
  | .over list max setValued => .over list (f max) setValued

def RepeatForm.numbers : RepeatForm → List Nat
  | .count n => [n]
  | .over _ max _ => [max]

mutual

def Item.map : Item → Item
  | .step s => .step (s.map f)
  | .knell s => .knell (s.map f)
  | .par children => .par (Item.mapAll children)
  | .repeat_ form var body => .repeat_ (form.map f) var (Item.mapAll body)
  | .when_ g window lapse then_ else_ =>
      .when_ g window lapse (Item.mapAll then_) (Item.mapAll else_)
  | .slot name => .slot name
  | .confirm => .confirm
  | .commit => .commit
  | .preflight guards => .preflight guards
  | .observe probe a => .observe probe a
  | .assert g window lapse => .assert g window lapse

def Item.mapAll : List Item → List Item
  | [] => []
  | it :: its => Item.map it :: Item.mapAll its

end

theorem Item.mapAll_eq_map (its : List Item) : Item.mapAll f its = its.map (Item.map f) := by
  induction its with
  | nil => rfl
  | cons it its ih => rw [Item.mapAll, List.map_cons, ih]

mutual

def Item.numbers : Item → List Nat
  | .step s => s.numbers
  | .knell s => s.numbers
  | .par children => Item.allNumbers children
  | .repeat_ form _ body => form.numbers ++ Item.allNumbers body
  | .when_ _ _ _ then_ else_ => Item.allNumbers then_ ++ Item.allNumbers else_
  | .slot _ | .confirm | .commit | .preflight _ | .observe _ _ | .assert _ _ _ => []

def Item.allNumbers : List Item → List Nat
  | [] => []
  | it :: its => Item.numbers it ++ Item.allNumbers its

end

def Backstop.map (b : Backstop) : Backstop := { b with armBefore := f b.armBefore }

def Plan.map (p : Plan) : Plan :=
  { p with
    gate := p.gate.map fun g => { g with expr := g.expr.map f }
    backstop := p.backstop.map (Backstop.map f)
    body := Item.mapAll f p.body }

/-- The numbers a plan's text writes into it. -/
def Plan.numbers (p : Plan) : List Nat :=
  gateNumbers (p.gate.map PlanGate.expr) ++
    ((p.backstop.elim [] fun b => [b.armBefore]) ++ Item.allNumbers p.body)

variable {f}

theorem Body.map_eq_iff (b : Body) : List.map (Prim.map f) b = b ↔ Fixes f (Body.numbers b) := by
  induction b with
  | nil => exact iff_of_true rfl fixes_nil
  | cons p b ih =>
      rw [List.map_cons, List.cons.injEq, Body.numbers, List.flatMap_cons, fixes_append, ih]
      refine and_congr_left fun _ => ?_
      cases p <;> simp [Prim.map, Prim.numbers]

theorem Body.option_eq_iff (b : Option Body) :
    b.map (List.map (Prim.map f)) = b ↔ Fixes f (Body.numbers (b.getD [])) := by
  cases b with
  | none => exact iff_of_true rfl fixes_nil
  | some b => exact Option.some_inj.trans (Body.map_eq_iff b)

theorem Undo.map_eq_iff (u : Undo) : u.map f = u ↔ Fixes f u.numbers := by
  cases u with
  | computed b pre =>
      simp only [Undo.map, Undo.numbers, Undo.computed.injEq, and_true]
      exact Body.map_eq_iff b
  | compensate b pre =>
      simp only [Undo.map, Undo.numbers, Undo.compensate.injEq, and_true]
      exact Body.map_eq_iff b
  | restore | noUndo => exact iff_of_true rfl fixes_nil

theorem Refusal.map_eq_iff (r : Refusal) : r.map f = r ↔ Fixes f r.numbers := by
  cases r with
  | knell guard cost ack =>
      simp only [Refusal.map, Refusal.numbers, Refusal.knell.injEq, true_and]
      cases ack with
      | gate g =>
          simp only [Ack.map, Ack.numbers, Ack.gate.injEq]
          exact GateExpr.map_eq_iff g
      | noAck reason => exact iff_of_true rfl fixes_nil
  | revert | hold => exact iff_of_true rfl fixes_nil

theorem Op.map_eq_iff (op : Op) : op.map f = op ↔ Fixes f op.numbers := by
  obtain ⟨⟩ := op
  simp only [Op.map, Op.numbers, Op.mk.injEq, fixes_append, true_and, and_true]
  exact and_congr (Body.map_eq_iff _) <| and_congr (Undo.map_eq_iff _) <|
    and_congr (Refusal.map_eq_iff _) <| and_congr (Body.option_eq_iff _) (Body.option_eq_iff _)

theorem gate_eq_iff (g : Option GateExpr) :
    g.map (GateExpr.map f) = g ↔ Fixes f (gateNumbers g) := by
  cases g with
  | none => exact iff_of_true rfl fixes_nil
  | some g => exact Option.some_inj.trans (GateExpr.map_eq_iff g)

theorem StepI.map_eq_iff (s : StepI) : s.map f = s ↔ Fixes f s.numbers := by
  obtain ⟨⟩ := s
  simp only [StepI.map, StepI.numbers, StepI.mk.injEq, fixes_append, true_and, and_true,
    ← Op.map_eq_iff, ← gate_eq_iff]

theorem RepeatForm.map_eq_iff (r : RepeatForm) : r.map f = r ↔ Fixes f r.numbers := by
  cases r <;> simp [RepeatForm.map, RepeatForm.numbers]

mutual

theorem Item.map_eq_iff (it : Item) : it.map f = it ↔ Fixes f it.numbers := by
  cases it with
  | step s =>
      simp only [Item.map, Item.numbers, Item.step.injEq]
      exact StepI.map_eq_iff s
  | knell s =>
      simp only [Item.map, Item.numbers, Item.knell.injEq]
      exact StepI.map_eq_iff s
  | par children =>
      simp only [Item.map, Item.numbers, Item.par.injEq]
      exact Item.mapAll_eq_iff children
  | repeat_ form var body =>
      simp only [Item.map, Item.numbers, Item.repeat_.injEq, true_and, fixes_append]
      exact and_congr (RepeatForm.map_eq_iff form) (Item.mapAll_eq_iff body)
  | when_ g window lapse then_ else_ =>
      simp only [Item.map, Item.numbers, Item.when_.injEq, true_and, fixes_append]
      exact and_congr (Item.mapAll_eq_iff then_) (Item.mapAll_eq_iff else_)
  | slot name | confirm | commit | preflight guards | observe probe a | assert g window lapse =>
      exact iff_of_true (by rw [Item.map]) fixes_nil

theorem Item.mapAll_eq_iff (its : List Item) :
    Item.mapAll f its = its ↔ Fixes f (Item.allNumbers its) := by
  cases its with
  | nil => exact iff_of_true rfl fixes_nil
  | cons it its =>
      simp only [Item.mapAll, Item.allNumbers, List.cons.injEq, fixes_append]
      exact and_congr (Item.map_eq_iff it) (Item.mapAll_eq_iff its)

end

/-- **A plan** is the one with its numbers replaced where each is kept. -/
theorem Plan.map_eq_iff (p : Plan) : p.map f = p ↔ Fixes f p.numbers := by
  obtain ⟨_, _, gate, _, _, backstop, _, _, _, _, _, _, _⟩ := p
  simp only [Plan.map, Plan.numbers, Plan.mk.injEq, fixes_append, true_and, and_true,
    ← Item.mapAll_eq_iff]
  refine and_congr ?_ (and_congr ?_ Iff.rfl)
  · cases gate with
    | none => exact iff_of_true rfl fixes_nil
    | some g =>
        obtain ⟨⟩ := g
        simp only [Option.map_some, Option.some.injEq, PlanGate.mk.injEq, and_true]
        exact GateExpr.map_eq_iff _
  · cases backstop with
    | none => exact iff_of_true rfl fixes_nil
    | some b =>
        obtain ⟨⟩ := b
        simp [Backstop.map]

end Rescind
