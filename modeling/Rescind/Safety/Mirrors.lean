/-
# `Rescind.Safety.Mirrors` — the algebra's reversal and the order of a revert

An execution of a plan is a tree (`Exec`): the values every repeat ran through,
the arm every `when` took, and a name for every leaf it ran.  The reversed plan
runs with the same lists and arms (`Exec.rev`).  A revert undoes last in, first
out; the reversed plan gives that order except that it still runs a repeat's
rounds first to last.

A plan with a knell is not reversed at all, and has no order to compare.

**Proved here.**

    the mirrored tree is an execution of the reversed plan     (`runsAll_rev`)
    rounds keep their order when the plan is reversed          (`before_of_orders`)
    with one round to a repeat the order is the revert's       (`orders_rev`)
    so it is exactly then                                      (`mirrors_iff`)
    a walk that goes to its end is an execution                (`exec_of_walk`)
-/
import Rescind.Core.Reverse
import Rescind.Safety.Reversal
import Rescind.Safety.Visits
import Rescind.Engine.Script

namespace Rescind

open Lib

/-! ## Executions -/

mutual

/-- How one item ran. -/
inductive Exec where
  | leaf (name : Nat) (it : Item)
  | par (children : List Exec)
  | repeat_ (form : RepeatForm) (var : String) (rounds : List Round)
  | when_ (arm : Bool) (run : List Exec)

/-- One round of a repeat: its value, and how the body ran. -/
inductive Round where
  | mk (value : String) (run : List Exec)

end

def Round.value : Round → String
  | .mk value _ => value

mutual

/-- The tree is an execution of the item. -/
def Runs : Exec → Item → Prop
  | .leaf _ it', it => it = it' ∧ it.isLeaf = true
  | .par es, it => ∃ children, it = .par children ∧ RunsAll es children
  | .repeat_ form var rounds, it => ∃ body, it = .repeat_ form var body ∧
      (∀ k, form = .count k → rounds.map Round.value = (List.range k).map toString) ∧
      RunsRounds rounds body
  | .when_ arm run, it => ∃ guard window onLapse then_ else_,
      it = .when_ guard window onLapse then_ else_ ∧ RunsAll run (if arm then then_ else else_)

def RunsAll : List Exec → List Item → Prop
  | [], items => items = []
  | e :: es, items => ∃ it rest, items = it :: rest ∧ Runs e it ∧ RunsAll es rest

def RunsRounds : List Round → List Item → Prop
  | [], _ => True
  | .mk _ run :: rounds, body => RunsAll run body ∧ RunsRounds rounds body

end

/-- One application of a step: which it is, the step, and the loop variables it
ran under. -/
structure Ran where
  name : Nat
  step : StepI
  vars : Vars

/-- The same application, the other way. -/
def Ran.flip (a : Ran) : Ran := { a with step := flipStep a.step }

/-- What a leaf applies. -/
def ranAt (name : Nat) (it : Item) (vars : Vars) : List Ran :=
  ((stepOf it).map fun s => ⟨name, s, vars⟩).toList

mutual

/-- The applications of an execution, in the order the walk makes them. -/
def Exec.unroll : Exec → Vars → List Ran
  | .leaf name it, vars => ranAt name it vars
  | .par es, vars => unrollAll es vars
  | .repeat_ _ var rounds, vars => unrollRounds rounds var vars
  | .when_ _ run, vars => unrollAll run vars

def unrollAll : List Exec → Vars → List Ran
  | [], _ => []
  | e :: es, vars => e.unroll vars ++ unrollAll es vars

def unrollRounds : List Round → String → Vars → List Ran
  | [], _, _ => []
  | .mk value run :: rounds, var, vars =>
      unrollAll run (vars.insert var value) ++ unrollRounds rounds var vars

end

mutual

/-- An order of the applications of an execution: the children of a `par` may go
in any order. -/
def Exec.Orders : Exec → Vars → List Ran → Prop
  | .leaf name it, vars, as => as = ranAt name it vars
  | .par es, vars, as =>
      ∃ parts parts' : List (List Ran),
        OrdersEach es vars parts ∧ parts'.Perm parts ∧ as = parts'.flatten
  | .repeat_ _ var rounds, vars, as => OrdersRounds rounds var vars as
  | .when_ _ run, vars, as => ∃ parts : List (List Ran), OrdersEach run vars parts ∧ as = parts.flatten

def OrdersEach : List Exec → Vars → List (List Ran) → Prop
  | [], _, parts => parts = []
  | e :: es, vars, parts => ∃ part rest, parts = part :: rest ∧ e.Orders vars part ∧
      OrdersEach es vars rest

def OrdersRounds : List Round → String → Vars → List Ran → Prop
  | [], _, _, as => as = []
  | .mk value run :: rounds, var, vars, as => ∃ (parts : List (List Ran)) (rest : List Ran),
      OrdersEach run (vars.insert var value) parts ∧ OrdersRounds rounds var vars rest ∧
        as = parts.flatten ++ rest

end

/-- An order of a whole execution's applications. -/
def OrdersAll (es : List Exec) (vars : Vars) (as : List Ran) : Prop :=
  ∃ parts, OrdersEach es vars parts ∧ as = parts.flatten

/-! ## The reversed plan's execution -/

def flipLeaf : Item → Item
  | .step s => .step (flipStep s)
  | it => it

mutual

/-- The execution of the reversed item with the same lists and arms. -/
def Exec.rev : Exec → Exec
  | .leaf name it => .leaf name (flipLeaf it)
  | .par es => .par (revEach es)
  | .repeat_ form var rounds => .repeat_ form var (revRounds rounds)
  | .when_ arm run => .when_ arm (revEach run).reverse

def revEach : List Exec → List Exec
  | [] => []
  | e :: es => e.rev :: revEach es

def revRounds : List Round → List Round
  | [] => []
  | .mk value run :: rounds => .mk value (revEach run).reverse :: revRounds rounds

end

/-- The execution of the reversed plan with the same lists and arms. -/
def revAll (es : List Exec) : List Exec := (revEach es).reverse

theorem runsAll_append {es fs : List Exec} {items items' : List Item} (h : RunsAll es items)
    (h' : RunsAll fs items') : RunsAll (es ++ fs) (items ++ items') := by
  induction es generalizing items with
  | nil =>
      cases h
      exact h'
  | cons e es ih =>
      obtain ⟨it, rest, rfl, he, h⟩ := h
      exact ⟨it, rest ++ items', rfl, he, ih h⟩

theorem values_rev (rounds : List Round) :
    (revRounds rounds).map Round.value = rounds.map Round.value := by
  induction rounds with
  | nil => rfl
  | cons round rounds ih =>
      obtain ⟨value, run⟩ := round
      rw [revRounds, List.map_cons, List.map_cons, ih]
      rfl

mutual

theorem runs_rev (e : Exec) {it r : Item} (h : Runs e it) (hr : reverseItem it = .ok r) :
    Runs e.rev r := by
  match e with
  | .leaf name it' =>
      obtain ⟨rfl, hl⟩ := h
      cases it with
      | par | repeat_ | when_ => cases hl
      | knell s => cases hr
      | _ =>
          cases hr
          exact ⟨rfl, rfl⟩
  | .par es =>
      obtain ⟨children, rfl, h⟩ := h
      rw [reverseItem] at hr
      obtain ⟨xs, hxs, hr⟩ := ok_of_bind hr
      cases hr
      exact ⟨xs, rfl, runsEach_rev es h hxs⟩
  | .repeat_ form var rounds =>
      obtain ⟨body, rfl, hv, h⟩ := h
      rw [reverseItem] at hr
      obtain ⟨xs, hxs, hr⟩ := ok_of_bind hr
      cases hr
      exact ⟨xs, rfl, fun k hk => (values_rev rounds).trans (hv k hk), runsRounds_rev rounds h hxs⟩
  | .when_ arm run =>
      obtain ⟨guard, window, onLapse, then_, else_, rfl, h⟩ := h
      rw [reverseItem] at hr
      obtain ⟨t, ht, hr⟩ := ok_of_bind hr
      obtain ⟨e, he, hr⟩ := ok_of_bind hr
      cases hr
      refine ⟨guard, window, onLapse, t, e, rfl, ?_⟩
      cases arm with
      | true => exact runsAll_rev run h ht
      | false => exact runsAll_rev run h he

theorem runsEach_rev (es : List Exec) {items r : List Item} (h : RunsAll es items)
    (hr : reverseEach items = .ok r) : RunsAll (revEach es) r := by
  match es with
  | [] =>
      cases h
      cases hr
      rfl
  | e :: es =>
      obtain ⟨it, rest, rfl, he, h⟩ := h
      rw [reverseEach] at hr
      obtain ⟨x, hx, hr⟩ := ok_of_bind hr
      obtain ⟨xs, hxs, hr⟩ := ok_of_bind hr
      cases hr
      exact ⟨x, xs, rfl, runs_rev e he hx, runsEach_rev es h hxs⟩

/-- The mirrored tree is an execution of the reversed plan. -/
theorem runsAll_rev (es : List Exec) {items r : List Item} (h : RunsAll es items)
    (hr : reverseItems items = .ok r) : RunsAll (revEach es).reverse r := by
  match es with
  | [] =>
      cases h
      cases hr
      rfl
  | e :: es =>
      obtain ⟨it, rest, rfl, he, h⟩ := h
      rw [reverseItems] at hr
      obtain ⟨xs, hxs, hr⟩ := ok_of_bind hr
      obtain ⟨x, hx, hr⟩ := ok_of_bind hr
      cases hr
      rw [revEach, List.reverse_cons]
      exact runsAll_append (runsAll_rev es h hxs) ⟨x, [], rfl, runs_rev e he hx, rfl⟩

theorem runsRounds_rev (rounds : List Round) {body r : List Item} (h : RunsRounds rounds body)
    (hr : reverseItems body = .ok r) : RunsRounds (revRounds rounds) r := by
  match rounds with
  | [] => trivial
  | .mk value run :: rounds => exact ⟨runsAll_rev run h.1 hr, runsRounds_rev rounds h.2 hr⟩

end

/-! ## Rounds keep their order -/

mutual

/-- The applications of an execution, by name. -/
def Exec.names : Exec → List Nat
  | .leaf name it => (ranAt name it []).map Ran.name
  | .par es => namesAll es
  | .repeat_ _ _ rounds => namesRounds rounds
  | .when_ _ run => namesAll run

def namesAll : List Exec → List Nat
  | [] => []
  | e :: es => e.names ++ namesAll es

def namesRounds : List Round → List Nat
  | [] => []
  | .mk _ run :: rounds => namesAll run ++ namesRounds rounds

end

mutual

/-- One application is made in an earlier round of a repeat than another. -/
def Exec.Before (x y : Nat) : Exec → Prop
  | .leaf _ _ => False
  | .par es => BeforeAny x y es
  | .repeat_ _ _ rounds => BeforeRounds x y rounds
  | .when_ _ run => BeforeAny x y run

def BeforeAny (x y : Nat) : List Exec → Prop
  | [] => False
  | e :: es => e.Before x y ∨ BeforeAny x y es

def BeforeRounds (x y : Nat) : List Round → Prop
  | [] => False
  | .mk _ run :: rounds => BeforeAny x y run ∨ (x ∈ namesAll run ∧ y ∈ namesRounds rounds) ∨
      BeforeRounds x y rounds

end

theorem names_ranAt (name : Nat) (it : Item) (vars vars' : Vars) :
    (ranAt name it vars).map Ran.name = (ranAt name it vars').map Ran.name := by
  unfold ranAt
  cases stepOf it with
  | none => rfl
  | some s => rfl

/-- What is applied in a part is applied in the whole, in the same order. -/
theorem sublist_parts {ns : List Nat} {part : List Ran} {parts : List (List Ran)}
    (hm : part ∈ parts) (h : ns.Sublist (part.map Ran.name)) :
    ns.Sublist (parts.flatten.map Ran.name) :=
  h.trans ((List.sublist_flatten_of_mem hm).map _)

mutual

theorem mem_of_orders (e : Exec) {vars : Vars} {as : List Ran} (h : e.Orders vars as) {x : Nat}
    (hx : x ∈ e.names) : x ∈ as.map Ran.name := by
  match e with
  | .leaf name it =>
      cases h
      rw [names_ranAt name it vars []]
      exact hx
  | .par es =>
      obtain ⟨parts, parts', h, hp, rfl⟩ := h
      obtain ⟨part, hm, hx⟩ := mem_of_ordersEach es h hx
      exact List.singleton_sublist.mp
        (sublist_parts (hp.mem_iff.mpr hm) (List.singleton_sublist.mpr hx))
  | .repeat_ form var rounds => exact mem_of_ordersRounds rounds h hx
  | .when_ arm run =>
      obtain ⟨parts, h, rfl⟩ := h
      obtain ⟨part, hm, hx⟩ := mem_of_ordersEach run h hx
      exact List.singleton_sublist.mp (sublist_parts hm (List.singleton_sublist.mpr hx))

theorem mem_of_ordersEach (es : List Exec) {vars : Vars} {parts : List (List Ran)}
    (h : OrdersEach es vars parts) {x : Nat} (hx : x ∈ namesAll es) :
    ∃ part ∈ parts, x ∈ part.map Ran.name := by
  match es with
  | [] => cases hx
  | e :: es =>
      obtain ⟨part, rest, rfl, he, h⟩ := h
      rcases List.mem_append.mp hx with hx | hx
      · exact ⟨part, List.mem_cons_self, mem_of_orders e he hx⟩
      · obtain ⟨q, hq, hx⟩ := mem_of_ordersEach es h hx
        exact ⟨q, List.mem_cons_of_mem _ hq, hx⟩

theorem mem_of_ordersRounds (rounds : List Round) {var : String} {vars : Vars} {as : List Ran}
    (h : OrdersRounds rounds var vars as) {x : Nat} (hx : x ∈ namesRounds rounds) :
    x ∈ as.map Ran.name := by
  match rounds with
  | [] => cases hx
  | .mk value run :: rounds =>
      obtain ⟨parts, rest, hr, h, rfl⟩ := h
      rw [List.map_append]
      rcases List.mem_append.mp hx with hx | hx
      · obtain ⟨part, hm, hx⟩ := mem_of_ordersEach run hr hx
        exact List.mem_append_left _ (List.singleton_sublist.mp
          (sublist_parts hm (List.singleton_sublist.mpr hx)))
      · exact List.mem_append_right _ (mem_of_ordersRounds rounds h hx)

end

mutual

theorem before_of_orders (e : Exec) {vars : Vars} {as : List Ran} (h : e.Orders vars as)
    {x y : Nat} (hb : e.Before x y) : [x, y].Sublist (as.map Ran.name) := by
  match e with
  | .leaf name it => cases hb
  | .par es =>
      obtain ⟨parts, parts', h, hp, rfl⟩ := h
      obtain ⟨part, hm, hb⟩ := before_of_ordersEach es h hb
      exact sublist_parts (hp.mem_iff.mpr hm) hb
  | .repeat_ form var rounds => exact before_of_ordersRounds rounds h hb
  | .when_ arm run =>
      obtain ⟨parts, h, rfl⟩ := h
      obtain ⟨part, hm, hb⟩ := before_of_ordersEach run h hb
      exact sublist_parts hm hb

theorem before_of_ordersEach (es : List Exec) {vars : Vars} {parts : List (List Ran)}
    (h : OrdersEach es vars parts) {x y : Nat} (hb : BeforeAny x y es) :
    ∃ part ∈ parts, [x, y].Sublist (part.map Ran.name) := by
  match es with
  | [] => cases hb
  | e :: es =>
      obtain ⟨part, rest, rfl, he, h⟩ := h
      rcases hb with hb | hb
      · exact ⟨part, List.mem_cons_self, before_of_orders e he hb⟩
      · obtain ⟨q, hq, hb⟩ := before_of_ordersEach es h hb
        exact ⟨q, List.mem_cons_of_mem _ hq, hb⟩

/-- In any order the applications of one round come before those of a later
one. -/
theorem before_of_ordersRounds (rounds : List Round) {var : String} {vars : Vars} {as : List Ran}
    (h : OrdersRounds rounds var vars as) {x y : Nat} (hb : BeforeRounds x y rounds) :
    [x, y].Sublist (as.map Ran.name) := by
  match rounds with
  | [] => cases hb
  | .mk value run :: rounds =>
      obtain ⟨parts, rest, hr, h, rfl⟩ := h
      rw [List.map_append]
      rcases hb with hb | ⟨hx, hy⟩ | hb
      · obtain ⟨part, hm, hb⟩ := before_of_ordersEach run hr hb
        exact (sublist_parts hm hb).trans (List.sublist_append_left _ _)
      · obtain ⟨part, hm, hx⟩ := mem_of_ordersEach run hr hx
        have hx := sublist_parts hm (List.singleton_sublist.mpr hx)
        have hy := List.singleton_sublist.mpr (mem_of_ordersRounds rounds h hy)
        exact hx.append hy
      · exact (before_of_ordersRounds rounds h hb).trans (List.sublist_append_right _ _)

end

theorem mem_namesAll {es : List Exec} {x : Nat} : x ∈ namesAll es ↔ ∃ e ∈ es, x ∈ e.names := by
  induction es with
  | nil => simp only [namesAll, List.not_mem_nil, false_and, exists_false]
  | cons e es ih => simp only [namesAll, List.mem_append, ih, List.mem_cons, exists_eq_or_imp]

theorem beforeAny_iff {es : List Exec} {x y : Nat} :
    BeforeAny x y es ↔ ∃ e ∈ es, e.Before x y := by
  induction es with
  | nil => simp only [BeforeAny, List.not_mem_nil, false_and, exists_false]
  | cons e es ih => simp only [BeforeAny, ih, List.mem_cons, exists_eq_or_imp]

theorem names_flipLeaf (name : Nat) (it : Item) :
    (ranAt name (flipLeaf it) []).map Ran.name = (ranAt name it []).map Ran.name := by
  cases it with
  | _ => rfl

mutual

theorem names_rev (e : Exec) (x : Nat) : x ∈ e.rev.names ↔ x ∈ e.names := by
  match e with
  | .leaf name it =>
      rw [Exec.rev, Exec.names, names_flipLeaf]
      rfl
  | .par es => exact names_revEach es x
  | .repeat_ form var rounds => exact names_revRounds rounds x
  | .when_ arm run =>
      have h : x ∈ namesAll (revEach run).reverse ↔ x ∈ namesAll (revEach run) := by
        simp only [mem_namesAll, List.mem_reverse]
      exact h.trans (names_revEach run x)

theorem names_revEach (es : List Exec) (x : Nat) : x ∈ namesAll (revEach es) ↔ x ∈ namesAll es := by
  match es with
  | [] => exact Iff.rfl
  | e :: es =>
      rw [revEach, namesAll, namesAll, List.mem_append, List.mem_append, names_rev e x,
        names_revEach es x]

theorem names_revRounds (rounds : List Round) (x : Nat) :
    x ∈ namesRounds (revRounds rounds) ↔ x ∈ namesRounds rounds := by
  match rounds with
  | [] => exact Iff.rfl
  | .mk value run :: rounds =>
      have h : x ∈ namesAll (revEach run).reverse ↔ x ∈ namesAll (revEach run) := by
        simp only [mem_namesAll, List.mem_reverse]
      rw [revRounds, namesRounds, namesRounds, List.mem_append, List.mem_append, h,
        names_revEach run x, names_revRounds rounds x]

end

theorem beforeAny_reverse {es : List Exec} {x y : Nat} (h : BeforeAny x y es) :
    BeforeAny x y es.reverse := by
  obtain ⟨e, hm, hb⟩ := beforeAny_iff.mp h
  exact beforeAny_iff.mpr ⟨e, List.mem_reverse.mpr hm, hb⟩

mutual

theorem before_rev (e : Exec) {x y : Nat} (h : e.Before x y) : e.rev.Before x y := by
  match e with
  | .leaf name it => cases h
  | .par es => exact before_revEach es h
  | .repeat_ form var rounds => exact before_revRounds rounds h
  | .when_ arm run => exact beforeAny_reverse (before_revEach run h)

theorem before_revEach (es : List Exec) {x y : Nat} (h : BeforeAny x y es) :
    BeforeAny x y (revEach es) := by
  match es with
  | [] => cases h
  | e :: es =>
      rcases h with h | h
      · exact .inl (before_rev e h)
      · exact .inr (before_revEach es h)

/-- The reversed plan's rounds are in the order they were in. -/
theorem before_revRounds (rounds : List Round) {x y : Nat} (h : BeforeRounds x y rounds) :
    BeforeRounds x y (revRounds rounds) := by
  match rounds with
  | [] => cases h
  | .mk value run :: rounds =>
      rcases h with h | ⟨hx, hy⟩ | h
      · exact .inl (beforeAny_reverse (before_revEach run h))
      · refine .inr (.inl ⟨?_, (names_revRounds rounds y).mpr hy⟩)
        obtain ⟨e, hm, hn⟩ := mem_namesAll.mp ((names_revEach run x).mpr hx)
        exact mem_namesAll.mpr ⟨e, List.mem_reverse.mpr hm, hn⟩
      · exact .inr (.inr (before_revRounds rounds h))

end

/-! ## The order of the walk -/

mutual

theorem orders_unroll (e : Exec) (vars : Vars) : e.Orders vars (e.unroll vars) := by
  match e with
  | .leaf name it => rfl
  | .par es =>
      obtain ⟨parts, h, hu⟩ := orders_unrollAll es vars
      exact ⟨parts, parts, h, .refl _, hu⟩
  | .repeat_ form var rounds => exact orders_unrollRounds rounds var vars
  | .when_ arm run => exact orders_unrollAll run vars

theorem orders_unrollAll (es : List Exec) (vars : Vars) : OrdersAll es vars (unrollAll es vars) := by
  match es with
  | [] => exact ⟨[], rfl, rfl⟩
  | e :: es =>
      obtain ⟨parts, h, hu⟩ := orders_unrollAll es vars
      exact ⟨e.unroll vars :: parts, ⟨_, _, rfl, orders_unroll e vars, h⟩, by
        rw [unrollAll, hu, List.flatten_cons]⟩

theorem orders_unrollRounds (rounds : List Round) (var : String) (vars : Vars) :
    OrdersRounds rounds var vars (unrollRounds rounds var vars) := by
  match rounds with
  | [] => rfl
  | .mk value run :: rounds =>
      obtain ⟨parts, h, hu⟩ := orders_unrollAll run (vars.insert var value)
      exact ⟨parts, _, h, orders_unrollRounds rounds var vars, by rw [unrollRounds, hu]⟩

end

mutual

theorem names_unroll (e : Exec) (vars : Vars) : (e.unroll vars).map Ran.name = e.names := by
  match e with
  | .leaf name it => exact names_ranAt name it vars []
  | .par es => exact names_unrollAll es vars
  | .repeat_ form var rounds => exact names_unrollRounds rounds var vars
  | .when_ arm run => exact names_unrollAll run vars

theorem names_unrollAll (es : List Exec) (vars : Vars) :
    (unrollAll es vars).map Ran.name = namesAll es := by
  match es with
  | [] => rfl
  | e :: es => rw [unrollAll, namesAll, List.map_append, names_unroll e, names_unrollAll es]

theorem names_unrollRounds (rounds : List Round) (var : String) (vars : Vars) :
    (unrollRounds rounds var vars).map Ran.name = namesRounds rounds := by
  match rounds with
  | [] => rfl
  | .mk value run :: rounds =>
      rw [unrollRounds, namesRounds, List.map_append, names_unrollAll run,
        names_unrollRounds rounds]

end

/-! ## The order of a revert -/

/-- The applications in the order a revert undoes them, each the other way. -/
def undoing (as : List Ran) : List Ran := as.reverse.map Ran.flip

theorem undoing_append (as bs : List Ran) : undoing (as ++ bs) = undoing bs ++ undoing as := by
  rw [undoing, List.reverse_append, List.map_append]
  rfl

theorem names_undoing (as : List Ran) :
    (undoing as).map Ran.name = (as.map Ran.name).reverse := by
  rw [undoing, List.map_map, ← List.map_reverse]
  rfl

theorem ordersEach_append {es fs : List Exec} {vars : Vars} {parts parts' : List (List Ran)}
    (h : OrdersEach es vars parts) (h' : OrdersEach fs vars parts') :
    OrdersEach (es ++ fs) vars (parts ++ parts') := by
  induction es generalizing parts with
  | nil =>
      cases h
      exact h'
  | cons e es ih =>
      obtain ⟨part, rest, rfl, he, h⟩ := h
      exact ⟨part, rest ++ parts', rfl, he, ih h⟩

theorem ordersEach_reverse {es : List Exec} {vars : Vars} {parts : List (List Ran)}
    (h : OrdersEach es vars parts) : OrdersEach es.reverse vars parts.reverse := by
  induction es generalizing parts with
  | nil =>
      cases h
      rfl
  | cons e es ih =>
      obtain ⟨part, rest, rfl, he, h⟩ := h
      rw [List.reverse_cons, List.reverse_cons]
      exact ordersEach_append (ih h) ⟨part, [], rfl, he, rfl⟩

/-- What each child undoes. -/
def undoingEach (es : List Exec) (vars : Vars) : List (List Ran) :=
  es.map fun e => undoing (e.unroll vars)

theorem undoing_unrollAll (es : List Exec) (vars : Vars) :
    (undoingEach es vars).reverse.flatten = undoing (unrollAll es vars) := by
  induction es with
  | nil => rfl
  | cons e es ih =>
      rw [undoingEach, List.map_cons, List.reverse_cons, List.flatten_append, unrollAll,
        undoing_append, ← ih]
      simp [undoingEach]

theorem ranAt_flipLeaf {it : Item} (h : knellFreeItem it = true) (name : Nat) (vars : Vars) :
    ranAt name (flipLeaf it) vars = undoing (ranAt name it vars) := by
  cases it with
  | knell s => cases h
  | _ => rfl

mutual

theorem orders_rev (e : Exec) {it : Item} (hr : Runs e it) (hk : knellFreeItem it = true)
    (h : ∀ x y, ¬e.Before x y) (vars : Vars) : e.rev.Orders vars (undoing (e.unroll vars)) := by
  match e with
  | .leaf name it' =>
      obtain ⟨rfl, -⟩ := hr
      exact (ranAt_flipLeaf hk name vars).symm
  | .par es =>
      obtain ⟨children, rfl, hr⟩ := hr
      refine ⟨undoingEach es vars, (undoingEach es vars).reverse, orders_revEach es hr hk h vars,
        List.reverse_perm _, (undoing_unrollAll es vars).symm⟩
  | .repeat_ form var rounds =>
      obtain ⟨body, rfl, -, hr⟩ := hr
      exact orders_revRounds rounds hr hk h var vars
  | .when_ arm run =>
      obtain ⟨guard, window, onLapse, then_, else_, rfl, hr⟩ := hr
      rw [knellFreeItem, Bool.and_eq_true] at hk
      refine ⟨_, ordersEach_reverse (orders_revEach run hr ?_ h vars),
        (undoing_unrollAll run vars).symm⟩
      cases arm with
      | true => exact hk.1
      | false => exact hk.2

theorem orders_revEach (es : List Exec) {items : List Item} (hr : RunsAll es items)
    (hk : knellFree items = true) (h : ∀ x y, ¬BeforeAny x y es) (vars : Vars) :
    OrdersEach (revEach es) vars (undoingEach es vars) := by
  match es with
  | [] => rfl
  | e :: es =>
      obtain ⟨it, rest, rfl, he, hr⟩ := hr
      rw [knellFree, Bool.and_eq_true] at hk
      exact ⟨_, _, rfl, orders_rev e he hk.1 (fun x y hb => h x y (.inl hb)) vars,
        orders_revEach es hr hk.2 (fun x y hb => h x y (.inr hb)) vars⟩

/-- With no two rounds that apply a step, the rounds' order does not matter. -/
theorem orders_revRounds (rounds : List Round) {body : List Item} (hr : RunsRounds rounds body)
    (hk : knellFree body = true) (h : ∀ x y, ¬BeforeRounds x y rounds) (var : String)
    (vars : Vars) :
    OrdersRounds (revRounds rounds) var vars (undoing (unrollRounds rounds var vars)) := by
  match rounds with
  | [] => rfl
  | .mk value run :: rounds =>
      have hround := orders_revEach run hr.1 hk (fun x y hb => h x y (.inl hb))
        (vars.insert var value)
      have hrest := orders_revRounds rounds hr.2 hk (fun x y hb => h x y (.inr (.inr hb))) var vars
      refine ⟨_, _, ordersEach_reverse hround, hrest, ?_⟩
      rw [undoing_unrollAll, unrollRounds, undoing_append]
      -- one of the two applies nothing
      cases hn : namesAll run with
      | nil =>
          have he := names_unrollAll run (vars.insert var value)
          rw [hn, List.map_eq_nil_iff] at he
          rw [he]
          exact List.append_nil _
      | cons x xs =>
          cases hm : namesRounds rounds with
          | nil =>
              have he := names_unrollRounds rounds var vars
              rw [hm, List.map_eq_nil_iff] at he
              rw [he]
              exact (List.append_nil _).symm
          | cons y ys =>
              refine absurd (.inr (.inl ⟨?_, ?_⟩)) (h x y)
              · rw [hn]
                exact List.mem_cons_self
              · rw [hm]
                exact List.mem_cons_self

end

/-! ## The two orders -/

/-- Two names are not in both orders among names of their own. -/
theorem not_both_orders {x y : Nat} {ns : List Nat} (hn : ns.Nodup) (h : [x, y].Sublist ns)
    (h' : [y, x].Sublist ns) : False := by
  induction ns with
  | nil => cases h
  | cons n ns ih =>
      rw [List.nodup_cons] at hn
      cases h with
      | cons _ h =>
          have hy : y ∈ ns := h.subset (List.mem_cons_of_mem _ List.mem_cons_self)
          cases h' with
          | cons _ h' => exact ih hn.2 h h'
          | cons_cons _ h' => exact hn.1 hy
      | cons_cons _ h =>
          have hy : y ∈ ns := h.subset List.mem_cons_self
          cases h' with
          | cons _ h' => exact hn.1 (h'.subset (List.mem_cons_of_mem _ List.mem_cons_self))
          | cons_cons _ h' => exact hn.1 hy

/-- The reversed plan, run with the same lists and arms, applies in some order of
its `par`s' children exactly what the execution applied, last first and each the
other way. -/
def Mirrors (items : List Item) (es : List Exec) : Prop :=
  ∃ r, reverseItems items = .ok r ∧ RunsAll (revAll es) r ∧
    OrdersAll (revAll es) [] (undoing (unrollAll es []))

/-- What an earlier round applied is before what a later one did in every order
of the reversed plan, and after it in a revert's. -/
theorem not_before_of_mirrors {items : List Item} {es : List Exec} (hn : (namesAll es).Nodup)
    (h : Mirrors items es) (x y : Nat) : ¬BeforeAny x y es := by
  intro hb
  obtain ⟨r, -, -, parts, ho, hu⟩ := h
  obtain ⟨walked, hw, hwu⟩ := orders_unrollAll es []
  obtain ⟨p, hp, h⟩ := before_of_ordersEach es hw hb
  have h := sublist_parts hp h
  rw [← hwu, names_unrollAll] at h
  obtain ⟨q, hq, h'⟩ := before_of_ordersEach _ ho (beforeAny_reverse (before_revEach es hb))
  have h' := sublist_parts hq h'
  rw [← hu, names_undoing, names_unrollAll, ← List.reverse_sublist, List.reverse_reverse] at h'
  exact not_both_orders hn h h'

theorem mirrors_of_not_before {items : List Item} {es : List Exec}
    (hk : knellFree items = true) (hr : RunsAll es items) (h : ∀ x y, ¬BeforeAny x y es) :
    Mirrors items es := by
  obtain ⟨r, hr'⟩ := reverseItems_ok hk
  exact ⟨r, hr', runsAll_rev es hr hr', _, ordersEach_reverse (orders_revEach es hr hk h []),
    (undoing_unrollAll es []).symm⟩

/-- **The algebra's reversal is the runtime's, round by round.**  For every
knell-free plan and every execution of it, the reversed plan applies what a
revert undoes in a revert's order exactly if no repeat of the execution applied
steps in two of its rounds.  A prefix refuses exactly for a knell among its
leaves, and a revert undoes last in, first out. -/
theorem mirrors_iff {σ : Type} (E : Setting σ) {items : List Item} {es : List Exec}
    (hk : knellFree items = true) (hr : RunsAll es items) (hn : (namesAll es).Nodup) :
    (Mirrors items es ↔ ∀ x y, ¬BeforeAny x y es) ∧
      (∀ k, (∃ r, reverseFrom k items = .error r) ↔ ∃ s, .knell s ∈ (leaves items).take k) ∧
      ∀ w : World σ, ∃ d, Reverses w (revert E w).1 (revert E w).2 d := by
  refine ⟨⟨not_before_of_mirrors hn, mirrors_of_not_before hk hr⟩,
    fun k => reverseFrom_refuses k items, fun w => ?_⟩
  obtain ⟨d, hd, -, -⟩ := post_revert E w
  exact ⟨d, hd⟩

/-! ## The execution of a walk -/

section Walks

variable {σ : Type} {E : Setting σ}

/-- What some visits apply, in their order, each by a name from one on.  A step's
number names its leaf. -/
def ranOf (item : Nat → Option Item) : Nat → List Visit → List Ran
  | _, [] => []
  | k, a :: as =>
      ((item a.app.step).map fun it => ranAt k it a.app.vars).getD [] ++ ranOf item (k + 1) as

theorem ranOf_append (item : Nat → Option Item) (k : Nat) (as bs : List Visit) :
    ranOf item k (as ++ bs) = ranOf item k as ++ ranOf item (k + as.length) bs := by
  induction as generalizing k with
  | nil => rfl
  | cons a as ih =>
      rw [List.cons_append, ranOf, ranOf, ih, List.append_assoc, List.length_cons,
        Nat.add_assoc k 1, Nat.add_comm 1]

@[simp] theorem ranOf_under (item : Nat → Option Item) (k : Nat) (f : Fork) (as : List Visit) :
    ranOf item k (as.map (Visit.under f)) = ranOf item k as := by
  induction as generalizing k with
  | nil => rfl
  | cons a as ih => rw [List.map_cons, ranOf, ranOf, ih, Visit.app_under]

/-- The names are from the first on, and each is another. -/
theorem names_ranOf (item : Nat → Option Item) (k : Nat) (as : List Visit) :
    ((ranOf item k as).map Ran.name).Sublist (List.range' k as.length) := by
  induction as generalizing k with
  | nil => exact List.Sublist.refl _
  | cons a as ih =>
      have hone : List.Sublist
          ((((item a.app.step).map fun it => ranAt k it a.app.vars).getD []).map Ran.name) [k] := by
        cases item a.app.step with
        | none => exact List.nil_sublist _
        | some it =>
            show List.Sublist ((ranAt k it a.app.vars).map Ran.name) [k]
            unfold ranAt
            cases stepOf it with
            | none => exact List.nil_sublist _
            | some s => exact List.Sublist.refl _
      rw [ranOf, List.map_append, List.length_cons, List.range'_succ]
      exact hone.append (ih (k + 1))

open Lib.Prog

theorem exec_of_rounds {var : String} {vars : Vars} {body : List Item} (item : Nat → Option Item)
    {seen : Nat → String → World σ → List Visit} {f : Nat → String → Eng σ Flow}
    (hbody : ∀ i x w w' k, f i x w = (.ok .continue_, w') → ∃ es, RunsAll es body ∧
      unrollAll es (vars.insert var x) = ranOf item k (seen i x w))
    (xs : List String) (i : Nat) (w w' : World σ) (k : Nat)
    (h : repeatLoop f xs i w = (.ok .continue_, w')) :
    ∃ rounds, rounds.map Round.value = xs ∧ RunsRounds rounds body ∧
      unrollRounds rounds var vars = ranOf item k (visitRounds var seen f xs i w) := by
  induction xs generalizing i w k with
  | nil => exact ⟨[], rfl, trivial, rfl⟩
  | cons x xs ih =>
      rw [repeatLoop] at h
      obtain ⟨flow, w₁, hx, h⟩ := bind_ok_inv h
      cases flow with
      | stop => cases h
      | continue_ =>
          obtain ⟨es, hes, hu⟩ := hbody i x w w₁ k hx
          obtain ⟨rounds, hv, hr, hus⟩ := ih (i + 1) w₁ (k + (seen i x w).length) h
          refine ⟨.mk x es :: rounds, ?_, ⟨hes, hr⟩, ?_⟩
          · rw [List.map_cons, hv]
            rfl
          · rw [unrollRounds, visitRounds, hx, ranOf_append, ranOf_under, List.length_map, hu, hus]

mutual

theorem exec_of_walkItem (item : Nat → Option Item) (it : Item) (iteration leaf : Nat) (vars : Vars)
    (hat : ∀ p ∈ numberedFrom (leavesOf it) leaf, item p.1 = some p.2) (k : Nat) {w w' : World σ}
    {n : Nat} (h : walkItem E it iteration leaf vars w = (.ok (.continue_, n), w')) :
    ∃ e, Runs e it ∧ e.unroll vars = ranOf item k (visitItem E it iteration leaf vars w) := by
  have atLeaf : ∀ it', it'.isLeaf = true → (∀ p ∈ numberedFrom (leavesOf it') leaf, item p.1 = some p.2) →
      ∃ e, Runs e it' ∧ e.unroll vars = ranOf item k [⟨[], ⟨leaf, iteration, vars⟩⟩] := by
    intro it' hl hat
    rw [leavesOf_leaf hl] at hat
    have hitem : item leaf = some it' := hat (leaf, it') (List.mem_singleton_self _)
    refine ⟨.leaf k it', ⟨rfl, hl⟩, ?_⟩
    simp [ranOf, hitem, Exec.unroll]
  match it with
  | .par children =>
      obtain ⟨es, hes, hu⟩ := exec_of_walkItems item children 0 iteration leaf vars hat k h
      exact ⟨.par es, ⟨children, rfl, hes⟩, hu⟩
  | .repeat_ form var body =>
      rw [walkItem] at h
      obtain ⟨values, w₁, hv, h⟩ := bind_ok_inv h
      obtain ⟨flow, w₂, hl, h⟩ := bind_ok_inv h
      cases h
      obtain ⟨rounds, hvals, hr, hu⟩ := exec_of_rounds item (fun i x w w' k hw => by
        obtain ⟨ended, w₃, hw, he⟩ := bind_ok_inv hw
        obtain ⟨flow, n⟩ := ended
        cases he
        exact exec_of_walkItems item body 0 i leaf (vars.insert var x) hat k hw) values 0 w₁ _ k hl
      refine ⟨.repeat_ form var rounds, ⟨body, rfl, fun c hc => ?_, hr⟩, ?_⟩
      · subst hc
        cases hv
        exact hvals
      · rw [visitItem, hv]
        exact hu
  | .when_ guard window onLapse then_ else_ =>
      rw [walkItem] at h
      obtain ⟨arm, w₁, hc, h⟩ := bind_ok_inv h
      rw [leavesOf, numberedFrom_append] at hat
      rw [visitItem, hc]
      match arm with
      | none => cases h
      | some true =>
          obtain ⟨ended, w₂, hw, h⟩ := bind_ok_inv h
          obtain ⟨flow, n⟩ := ended
          cases h
          obtain ⟨es, hes, hu⟩ := exec_of_walkItems item then_ 0 iteration leaf vars
            (fun p hp => hat p (List.mem_append_left _ hp)) k hw
          exact ⟨.when_ true es, ⟨guard, window, onLapse, then_, else_, rfl, hes⟩,
            hu.trans (ranOf_under item k _ _).symm⟩
      | some false =>
          obtain ⟨es, hes, hu⟩ := exec_of_walkItems item else_ 0 iteration _ vars
            (fun p hp => hat p (List.mem_append_right _ (leafCount_eq_length then_ ▸ hp))) k h
          exact ⟨.when_ false es, ⟨guard, window, onLapse, then_, else_, rfl, hes⟩,
            hu.trans (ranOf_under item k _ _).symm⟩
  | .step _ | .knell _ | .slot _ | .confirm | .commit | .preflight _ | .observe _ _
  | .assert _ _ _ => exact atLeaf _ rfl hat

theorem exec_of_walkItems (item : Nat → Option Item) (items : List Item) (i iteration leaf : Nat)
    (vars : Vars) (hat : ∀ p ∈ numberedFrom (leaves items) leaf, item p.1 = some p.2) (k : Nat)
    {w w' : World σ} {n : Nat}
    (h : walkItems E items iteration leaf vars w = (.ok (.continue_, n), w')) :
    ∃ es, RunsAll es items ∧
      unrollAll es vars = ranOf item k (visitItems E items i iteration leaf vars w) := by
  match items with
  | [] => exact ⟨[], rfl, rfl⟩
  | it :: items =>
      rw [walkItems] at h
      obtain ⟨ended, w₁, hw, h⟩ := bind_ok_inv h
      obtain ⟨flow, next⟩ := ended
      cases flow with
      | stop => cases h
      | continue_ =>
          obtain rfl : next = _ := yields_walkItem E it iteration leaf vars w _ _ hw rfl
          rw [leaves, numberedFrom_append] at hat
          obtain ⟨e, he, hu⟩ := exec_of_walkItem item it iteration leaf vars
            (fun p hp => hat p (List.mem_append_left _ hp)) k hw
          obtain ⟨es, hes, hus⟩ := exec_of_walkItems item items (i + 1) iteration _ vars
            (fun p hp => hat p (List.mem_append_right _ hp)) 
            (k + (visitItem E it iteration leaf vars w).length) h
          refine ⟨e :: es, ⟨it, items, rfl, he, hes⟩, ?_⟩
          rw [unrollAll, visitItems, hw, ranOf_append, ranOf_under, List.length_map, hu, hus]

end

/-- **A walk that goes to its end is an execution of the plan**: what it comes to, in
its order, is what the execution applies, no name twice.  So the reversed plan mirrors
it exactly if no repeat applied steps in two of its rounds. -/
theorem exec_of_walk {items : List Item} (hk : knellFree items = true) {w w' : World σ} {n : Nat}
    (h : walkItems E items 0 1 [] w = (.ok (.continue_, n), w')) :
    ∃ es, RunsAll es items ∧ (namesAll es).Nodup ∧
      unrollAll es [] = ranOf (fun n => (leaves items)[n - 1]?) 0 (visits E items w) ∧
      (Mirrors items es ↔ ∀ x y, ¬BeforeAny x y es) := by
  have hat : ∀ p ∈ numberedFrom (leaves items) 1, (leaves items)[p.1 - 1]? = some p.2 := by
    rintro ⟨m, it⟩ hm
    obtain ⟨⟨x, i⟩, hx, he⟩ := List.mem_map.mp hm
    obtain ⟨rfl, rfl⟩ := Prod.mk.inj he
    exact (List.mk_mem_zipIdx_iff_le_and_getElem?_sub.mp hx).2
  obtain ⟨es, hes, hu⟩ := exec_of_walkItems (fun n => (leaves items)[n - 1]?) items 0 0 1 [] hat 0 h
  have hn : (namesAll es).Nodup := by
    rw [← names_unrollAll es [], hu]
    exact (names_ranOf _ 0 _).nodup List.nodup_range'
  exact ⟨es, hes, hn, hu, not_before_of_mirrors hn, mirrors_of_not_before hk hes⟩

end Walks

/-! ## Two rounds of one repeat -/

namespace TwoRounds

def put : Item := ownFile "/etc/\x7bv\x7d"

/-- One file for each name of a list. -/
def body : List Item := [.repeat_ (.over "names" 8 false) "v" [put]]

def round (name : Nat) (value : String) : Round := .mk value [.leaf name put]

/-- The list is `motd`. -/
def once : List Exec := [.repeat_ (.over "names" 8 false) "v" [round 1 "motd"]]

/-- The list is `motd, issue`. -/
def twice : List Exec := [.repeat_ (.over "names" 8 false) "v" [round 1 "motd", round 2 "issue"]]

theorem runs_round (name : Nat) : RunsAll [.leaf name put] [put] :=
  ⟨put, [], rfl, ⟨rfl, rfl⟩, rfl⟩

theorem runs_once : RunsAll once body :=
  ⟨_, [], rfl, ⟨[put], rfl, (fun k h => by cases h), runs_round 1, trivial⟩, rfl⟩

theorem runs_twice : RunsAll twice body :=
  ⟨_, [], rfl, ⟨[put], rfl, (fun k h => by cases h), runs_round 1, runs_round 2, trivial⟩, rfl⟩

theorem not_before_once (x y : Nat) : ¬BeforeAny x y once := by
  rintro (((h | h) | ⟨-, h⟩ | h) | h)
  · exact h
  · exact h
  · cases h
  · exact h
  · exact h

theorem mirrors_once : Mirrors body once :=
  (mirrors_iff (Script.setting {}) rfl runs_once (by decide)).1.mpr not_before_once

/-- The revert undoes `issue` first; the reversed plan still runs `motd`
first. -/
theorem not_mirrors_twice :
    knellFree body = true ∧ RunsAll twice body ∧ (namesAll twice).Nodup ∧ ¬Mirrors body twice := by
  have hn : (namesAll twice).Nodup := by decide
  refine ⟨rfl, runs_twice, hn, fun h => not_before_of_mirrors hn h 1 2 ?_⟩
  exact .inl (.inr (.inl ⟨List.mem_cons_self, List.mem_cons_self⟩))

end TwoRounds

end Rescind
