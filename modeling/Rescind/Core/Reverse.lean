/-
# `Rescind.Core.Reverse` — the reversal algebra

Reversal is syntactic: a step's direction flips, a sequence's order flips, a
`par` reverses each child in place, and a knell refuses.

    a knell-free plan reverses                              (`reverseItems_ok`)
    and back                                                (`reverseItems_twice`)
    the reverse of a sequence is the reverses, swapped      (`reverseItems_append`)
    a prefix refuses for the knells in it                   (`reverseFrom_refuses`)
    a refusal is for the first knell that is met            (`refusedAt_items`)

The knell met first is the last in order of execution where no `par` and no
`when` has knells in two places (`knellsMet_reverse`); elsewhere it need not be,
as the children of a `par` keep their order and the arms of a `when` theirs.
-/
import Rescind.Core.Numbering
import Rescind.Lib.Results

namespace Rescind

open Lib

/-- Why a reversal is refused: the knell is irreversible. -/
structure Refused where
  item : Item

def Direction.flip : Direction → Direction
  | .forward => .inverse
  | .inverse => .forward

def flipStep (s : StepI) : StepI := { s with direction := s.direction.flip }

mutual

/-- Reverse one item.  What changes nothing reverses to itself. -/
def reverseItem : Item → Except Refused Item
  | .step s => .ok (.step (flipStep s))
  | .par children => do
      let children ← reverseEach children
      pure (.par children)
  | .knell s => .error ⟨.knell s⟩
  | .repeat_ form var body => do
      let body ← reverseItems body
      pure (.repeat_ form var body)
  | .when_ guard window onLapse then_ else_ => do
      let then_ ← reverseItems then_
      let else_ ← reverseItems else_
      pure (.when_ guard window onLapse then_ else_)
  | it => .ok it

/-- Each item in place. -/
def reverseEach : List Item → Except Refused (List Item)
  | [] => .ok []
  | it :: items => do
      let it ← reverseItem it
      let items ← reverseEach items
      pure (it :: items)

/-- A sequence, last in first out, each item reversed. -/
def reverseItems : List Item → Except Refused (List Item)
  | [] => .ok []
  | it :: items => do
      -- the last item is reversed first
      let items ← reverseItems items
      let it ← reverseItem it
      pure (items ++ [it])

end

/-- Undo the applied prefix of a plan: its first `k` leaves, in reverse. -/
def reverseFrom (k : Nat) (items : List Item) : Except Refused (List Item) :=
  reverseItems ((leaves items).take k)

mutual

def knellFreeItem : Item → Bool
  | .knell _ => false
  | .par children => knellFree children
  | .repeat_ _ _ body => knellFree body
  | .when_ _ _ _ then_ else_ => knellFree then_ && knellFree else_
  | _ => true

/-- A plan with no knell anywhere in it. -/
def knellFree : List Item → Bool
  | [] => true
  | it :: items => knellFreeItem it && knellFree items

end

/-! ## What reverses -/

@[simp] theorem Direction.flip_flip (d : Direction) : d.flip.flip = d := by
  cases d with
  | forward => rfl
  | inverse => rfl

@[simp] theorem flipStep_flipStep (s : StepI) : flipStep (flipStep s) = s := by
  simp [flipStep]

mutual

theorem reverseItem_ok {it : Item} (h : knellFreeItem it = true) :
    ∃ r, reverseItem it = .ok r := by
  match it with
  | .knell s => cases h
  | .par children =>
      obtain ⟨r, hr⟩ := reverseEach_ok h
      exact ⟨.par r, by rw [reverseItem, bind_of_ok hr]; rfl⟩
  | .repeat_ form var body =>
      obtain ⟨r, hr⟩ := reverseItems_ok h
      exact ⟨.repeat_ form var r, by rw [reverseItem, bind_of_ok hr]; rfl⟩
  | .when_ guard window onLapse then_ else_ =>
      rw [knellFreeItem, Bool.and_eq_true] at h
      obtain ⟨t, ht⟩ := reverseItems_ok h.1
      obtain ⟨e, he⟩ := reverseItems_ok h.2
      exact ⟨.when_ guard window onLapse t e, by rw [reverseItem, bind_of_ok ht, bind_of_ok he]; rfl⟩
  | .step _ | .slot _ | .confirm | .commit | .preflight _ | .observe _ _ | .assert _ _ _ =>
      exact ⟨_, rfl⟩

theorem reverseEach_ok {items : List Item} (h : knellFree items = true) :
    ∃ r, reverseEach items = .ok r := by
  match items with
  | [] => exact ⟨[], rfl⟩
  | it :: items =>
      rw [knellFree, Bool.and_eq_true] at h
      obtain ⟨x, hx⟩ := reverseItem_ok h.1
      obtain ⟨xs, hxs⟩ := reverseEach_ok h.2
      exact ⟨x :: xs, by rw [reverseEach, bind_of_ok hx, bind_of_ok hxs]; rfl⟩

/-- A knell-free plan reverses. -/
theorem reverseItems_ok {items : List Item} (h : knellFree items = true) :
    ∃ r, reverseItems items = .ok r := by
  match items with
  | [] => exact ⟨[], rfl⟩
  | it :: items =>
      rw [knellFree, Bool.and_eq_true] at h
      obtain ⟨x, hx⟩ := reverseItem_ok h.1
      obtain ⟨xs, hxs⟩ := reverseItems_ok h.2
      exact ⟨xs ++ [x], by rw [reverseItems, bind_of_ok hxs, bind_of_ok hx]; rfl⟩

end

mutual

theorem reverseItem_refused {it : Item} (h : knellFreeItem it = false) :
    ∃ r, reverseItem it = .error r := by
  match it with
  | .knell s => exact ⟨_, rfl⟩
  | .par children =>
      obtain ⟨r, hr⟩ := reverseEach_refused h
      exact ⟨r, by rw [reverseItem, bind_of_error hr]⟩
  | .repeat_ form var body =>
      obtain ⟨r, hr⟩ := reverseItems_refused h
      exact ⟨r, by rw [reverseItem, bind_of_error hr]⟩
  | .when_ guard window onLapse then_ else_ =>
      rw [knellFreeItem] at h
      cases ht : knellFree then_ with
      | false =>
          obtain ⟨r, hr⟩ := reverseItems_refused ht
          exact ⟨r, by rw [reverseItem, bind_of_error hr]⟩
      | true =>
          rw [ht, Bool.true_and] at h
          obtain ⟨t, ht⟩ := reverseItems_ok ht
          obtain ⟨r, hr⟩ := reverseItems_refused h
          exact ⟨r, by rw [reverseItem, bind_of_ok ht, bind_of_error hr]⟩
  | .step _ | .slot _ | .confirm | .commit | .preflight _ | .observe _ _ | .assert _ _ _ => cases h

theorem reverseEach_refused {items : List Item} (h : knellFree items = false) :
    ∃ r, reverseEach items = .error r := by
  match items with
  | [] => cases h
  | it :: items =>
      rw [knellFree] at h
      cases hi : knellFreeItem it with
      | false =>
          obtain ⟨r, hr⟩ := reverseItem_refused hi
          exact ⟨r, by rw [reverseEach, bind_of_error hr]⟩
      | true =>
          rw [hi, Bool.true_and] at h
          obtain ⟨x, hx⟩ := reverseItem_ok hi
          obtain ⟨r, hr⟩ := reverseEach_refused h
          exact ⟨r, by rw [reverseEach, bind_of_ok hx, bind_of_error hr]⟩

theorem reverseItems_refused {items : List Item} (h : knellFree items = false) :
    ∃ r, reverseItems items = .error r := by
  match items with
  | [] => cases h
  | it :: items =>
      rw [knellFree] at h
      cases hs : knellFree items with
      | false =>
          obtain ⟨r, hr⟩ := reverseItems_refused hs
          exact ⟨r, by rw [reverseItems, bind_of_error hr]⟩
      | true =>
          rw [hs, Bool.and_true] at h
          obtain ⟨xs, hxs⟩ := reverseItems_ok hs
          obtain ⟨r, hr⟩ := reverseItem_refused h
          exact ⟨r, by rw [reverseItems, bind_of_ok hxs, bind_of_error hr]⟩

end

/-! ## The laws -/

/-- The reverse of a sequence is the reverses, swapped. -/
theorem reverseItems_append {a b ra rb : List Item} (ha : reverseItems a = .ok ra)
    (hb : reverseItems b = .ok rb) : reverseItems (a ++ b) = .ok (rb ++ ra) := by
  induction a generalizing ra with
  | nil =>
      cases ha
      rw [List.nil_append, List.append_nil, hb]
  | cons it a ih =>
      rw [reverseItems] at ha
      obtain ⟨xs, hxs, ha⟩ := ok_of_bind ha
      obtain ⟨x, hx, ha⟩ := ok_of_bind ha
      cases ha
      rw [List.cons_append, reverseItems, bind_of_ok (ih hxs), bind_of_ok hx, ← List.append_assoc]
      rfl

mutual

theorem reverseItem_twice {it r : Item} (h : reverseItem it = .ok r) : reverseItem r = .ok it := by
  match it with
  | .knell s => cases h
  | .par children =>
      rw [reverseItem] at h
      obtain ⟨xs, hxs, h⟩ := ok_of_bind h
      cases h
      rw [reverseItem, bind_of_ok (reverseEach_twice hxs)]
      rfl
  | .repeat_ form var body =>
      rw [reverseItem] at h
      obtain ⟨xs, hxs, h⟩ := ok_of_bind h
      cases h
      rw [reverseItem, bind_of_ok (reverseItems_twice hxs)]
      rfl
  | .when_ guard window onLapse then_ else_ =>
      rw [reverseItem] at h
      obtain ⟨t, ht, h⟩ := ok_of_bind h
      obtain ⟨e, he, h⟩ := ok_of_bind h
      cases h
      rw [reverseItem, bind_of_ok (reverseItems_twice ht), bind_of_ok (reverseItems_twice he)]
      rfl
  | .step s =>
      cases h
      rw [reverseItem, flipStep_flipStep]
  | .slot _ | .confirm | .commit | .preflight _ | .observe _ _ | .assert _ _ _ =>
      cases h
      rfl

theorem reverseEach_twice {items r : List Item} (h : reverseEach items = .ok r) :
    reverseEach r = .ok items := by
  match items with
  | [] =>
      cases h
      rfl
  | it :: items =>
      rw [reverseEach] at h
      obtain ⟨x, hx, h⟩ := ok_of_bind h
      obtain ⟨xs, hxs, h⟩ := ok_of_bind h
      cases h
      rw [reverseEach, bind_of_ok (reverseItem_twice hx), bind_of_ok (reverseEach_twice hxs)]
      rfl

/-- A plan that reverses reverses back. -/
theorem reverseItems_twice {items r : List Item} (h : reverseItems items = .ok r) :
    reverseItems r = .ok items := by
  match items with
  | [] =>
      cases h
      rfl
  | it :: items =>
      rw [reverseItems] at h
      obtain ⟨xs, hxs, h⟩ := ok_of_bind h
      obtain ⟨x, hx, h⟩ := ok_of_bind h
      cases h
      have last : reverseItems [x] = .ok [it] := by
        rw [reverseItems, reverseItems, bind_of_ok rfl, bind_of_ok (reverseItem_twice hx)]
        rfl
      exact reverseItems_append (reverseItems_twice hxs) last

end

/-! ## Where it refuses -/

/-- `seq` is list append. -/
def seq_ (a b : List Item) : List Item := a ++ b

/-- The item a reversal is refused for. -/
def refusedAt {α : Type} : Except Refused α → Option Item
  | .error r => some r.item
  | .ok _ => none

mutual

/-- The knells of an item, as its reversal meets them. -/
def knellsOf : Item → List StepI
  | .knell s => [s]
  | .par children => knellsEach children
  | .repeat_ _ _ body => knellsMet body
  | .when_ _ _ _ then_ else_ => knellsMet then_ ++ knellsMet else_
  | _ => []

def knellsEach : List Item → List StepI
  | [] => []
  | it :: items => knellsOf it ++ knellsEach items

/-- The knells of a sequence, as its reversal meets them: the last item first. -/
def knellsMet : List Item → List StepI
  | [] => []
  | it :: items => knellsMet items ++ knellsOf it

end

/-- The knells of a plan in order of execution. -/
def knellsIn (items : List Item) : List StepI :=
  (leaves items).filterMap fun
    | .knell s => some s
    | _ => none

mutual

def orderedItem : Item → Bool
  | .par children => orderedEach children
  | .repeat_ _ _ body => ordered body
  | .when_ _ _ _ then_ else_ =>
      (knellFree then_ || knellFree else_) && ordered then_ && ordered else_
  | _ => true

def orderedEach : List Item → Bool
  | [] => true
  | it :: items => (knellFreeItem it || knellFree items) && orderedItem it && orderedEach items

/-- No `par` has knells in two of its children, and no `when` in both arms. -/
def ordered : List Item → Bool
  | [] => true
  | it :: items => orderedItem it && ordered items

end

@[simp] theorem refusedAt_ok {α : Type} (x : α) : refusedAt (.ok x) = none := rfl

@[simp] theorem refusedAt_error {α : Type} (r : Refused) :
    refusedAt (.error r : Except Refused α) = some r.item := rfl

/-- What is made of a result does not refuse. -/
theorem refusedAt_map {α β : Type} (x : Except Refused α) (f : α → β) :
    refusedAt (x >>= fun y => pure (f y)) = refusedAt x := by
  cases x with
  | error r => rfl
  | ok y => rfl

/-- Of two in turn the first that refuses does. -/
theorem refusedAt_bind {α β γ : Type} (x : Except Refused α) (z : Except Refused β)
    (f : α → β → γ) : refusedAt (x >>= fun y => z >>= fun w => pure (f y w)) =
      (refusedAt x).or (refusedAt z) := by
  cases x with
  | error r => rfl
  | ok y => exact refusedAt_map z (f y)

mutual

theorem refusedAt_item (it : Item) :
    refusedAt (reverseItem it) = (knellsOf it).head?.map Item.knell := by
  match it with
  | .knell s => rfl
  | .par children => rw [reverseItem, refusedAt_map, refusedAt_each children, knellsOf]
  | .repeat_ form var body => rw [reverseItem, refusedAt_map, refusedAt_items body, knellsOf]
  | .when_ guard window onLapse then_ else_ =>
      rw [reverseItem, refusedAt_bind, refusedAt_items then_, refusedAt_items else_, knellsOf,
        List.head?_append, Option.map_or]
  | .step _ | .slot _ | .confirm | .commit | .preflight _ | .observe _ _ | .assert _ _ _ => rfl

theorem refusedAt_each (items : List Item) :
    refusedAt (reverseEach items) = (knellsEach items).head?.map Item.knell := by
  match items with
  | [] => rfl
  | it :: items =>
      rw [reverseEach, refusedAt_bind, refusedAt_item it, refusedAt_each items, knellsEach,
        List.head?_append, Option.map_or]

/-- **A refusal** is for the first knell the reversal meets. -/
theorem refusedAt_items (items : List Item) :
    refusedAt (reverseItems items) = (knellsMet items).head?.map Item.knell := by
  match items with
  | [] => rfl
  | it :: items =>
      rw [reverseItems, refusedAt_bind, refusedAt_items items, refusedAt_item it, knellsMet,
        List.head?_append, Option.map_or]

end

mutual

theorem knellsOf_eq_nil {it : Item} : knellsOf it = [] ↔ knellFreeItem it = true := by
  match it with
  | .knell s => exact iff_of_false (List.cons_ne_nil s []) Bool.false_ne_true
  | .par children => exact knellsEach_eq_nil
  | .repeat_ _ _ body => exact knellsMet_eq_nil
  | .when_ _ _ _ then_ else_ =>
      rw [knellsOf, List.append_eq_nil_iff, knellsMet_eq_nil, knellsMet_eq_nil, knellFreeItem,
        Bool.and_eq_true]
  | .step _ | .slot _ | .confirm | .commit | .preflight _ | .observe _ _ | .assert _ _ _ =>
      exact iff_of_true rfl rfl

theorem knellsEach_eq_nil {items : List Item} : knellsEach items = [] ↔ knellFree items = true := by
  match items with
  | [] => exact iff_of_true rfl rfl
  | it :: items =>
      rw [knellsEach, List.append_eq_nil_iff, knellsOf_eq_nil, knellsEach_eq_nil, knellFree,
        Bool.and_eq_true]

/-- No knell is met where there is none. -/
theorem knellsMet_eq_nil {items : List Item} : knellsMet items = [] ↔ knellFree items = true := by
  match items with
  | [] => exact iff_of_true rfl rfl
  | it :: items =>
      rw [knellsMet, List.append_eq_nil_iff, knellsMet_eq_nil, knellsOf_eq_nil, knellFree,
        Bool.and_eq_true, and_comm]

end

/-- Lists of which one is empty may be put either way round. -/
theorem append_swap {α : Type} {xs ys : List α} (h : xs = [] ∨ ys = []) :
    xs ++ ys = ys ++ xs := by
  rcases h with rfl | rfl
  · rw [List.nil_append, List.append_nil]
  · rw [List.nil_append, List.append_nil]

theorem knellsIn_cons (it : Item) (items : List Item) :
    knellsIn (it :: items) = knellsIn [it] ++ knellsIn items := by
  rw [← List.singleton_append, knellsIn, leaves_append, List.filterMap_append]
  rfl

mutual

theorem knellsOf_reverse {it : Item} (h : orderedItem it = true) :
    knellsOf it = (knellsIn [it]).reverse := by
  have one : ∀ it, knellsIn [it] = (leavesOf it).filterMap fun
      | .knell s => some s
      | _ => none := by
    intro it
    rw [knellsIn, leaves, leaves, List.append_nil]
  rw [one]
  match it with
  | .knell s => rfl
  | .par children => exact knellsEach_reverse h
  | .repeat_ _ _ body => exact knellsMet_reverse h
  | .when_ _ _ _ then_ else_ =>
      rw [orderedItem, Bool.and_eq_true, Bool.and_eq_true, Bool.or_eq_true] at h
      obtain ⟨⟨hfree, ht⟩, he⟩ := h
      have hswap : knellsMet then_ = [] ∨ knellsMet else_ = [] :=
        hfree.imp knellsMet_eq_nil.mpr knellsMet_eq_nil.mpr
      rw [knellsOf, append_swap hswap, knellsMet_reverse ht, knellsMet_reverse he,
        ← List.reverse_append, leavesOf, List.filterMap_append]
      rfl
  | .step _ | .slot _ | .confirm | .commit | .preflight _ | .observe _ _ | .assert _ _ _ => rfl

theorem knellsEach_reverse {items : List Item} (h : orderedEach items = true) :
    knellsEach items = (knellsIn items).reverse := by
  match items with
  | [] => rfl
  | it :: items =>
      rw [orderedEach, Bool.and_eq_true, Bool.and_eq_true, Bool.or_eq_true] at h
      obtain ⟨⟨hfree, hi⟩, hs⟩ := h
      have hswap : knellsOf it = [] ∨ knellsEach items = [] :=
        hfree.imp knellsOf_eq_nil.mpr knellsEach_eq_nil.mpr
      rw [knellsEach, append_swap hswap, knellsOf_reverse hi, knellsEach_reverse hs,
        ← List.reverse_append, ← knellsIn_cons]

/-- **The knells met** are those of the plan, last first. -/
theorem knellsMet_reverse {items : List Item} (h : ordered items = true) :
    knellsMet items = (knellsIn items).reverse := by
  match items with
  | [] => rfl
  | it :: items =>
      rw [ordered, Bool.and_eq_true] at h
      rw [knellsMet, knellsOf_reverse h.1, knellsMet_reverse h.2, ← List.reverse_append,
        ← knellsIn_cons]

end

/-! ## The applied prefix -/

theorem isLeaf_of_mem_leaves {items : List Item} {it : Item} (h : it ∈ leaves items) :
    it.isLeaf = true := by
  obtain ⟨i, hi⟩ := List.mem_iff_getElem?.mp h
  have hm : (i, it) ∈ numberedFrom (leaves items) 0 :=
    List.mem_map.mpr ⟨(it, i), List.mk_mem_zipIdx_iff_le_and_getElem?_sub.mpr ⟨Nat.zero_le i, hi⟩, rfl⟩
  rw [numberedFrom_eq] at hm
  exact (List.mem_filter.mp hm).2

theorem knellFree_iff {items : List Item} :
    knellFree items = false ↔ ∃ it ∈ items, knellFreeItem it = false := by
  induction items with
  | nil => simp [knellFree]
  | cons it items ih =>
      rw [knellFree, Bool.and_eq_false_iff, ih]
      simp only [List.mem_cons, exists_eq_or_imp]

/-- **A prefix refuses** exactly for a knell among its leaves. -/
theorem reverseFrom_refuses (k : Nat) (items : List Item) :
    (∃ r, reverseFrom k items = .error r) ↔ ∃ s, .knell s ∈ (leaves items).take k := by
  have hk : (∃ r, reverseFrom k items = .error r) ↔ knellFree ((leaves items).take k) = false := by
    constructor
    · rintro ⟨r, hr⟩
      cases h : knellFree ((leaves items).take k) with
      | false => rfl
      | true =>
          obtain ⟨xs, hxs⟩ := reverseItems_ok h
          rw [reverseFrom, hxs] at hr
          cases hr
    · exact reverseItems_refused
  rw [hk, knellFree_iff]
  constructor
  · rintro ⟨it, hm, hf⟩
    have hl := isLeaf_of_mem_leaves (List.mem_of_mem_take hm)
    cases it with
    | knell s => exact ⟨s, hm⟩
    | par | repeat_ | when_ => cases hl
    | _ => cases hf
  · rintro ⟨s, hm⟩
    exact ⟨.knell s, hm, rfl⟩

/-! ## The laws together -/

/-- **The reversal algebra**: a sequence reverses to the reverses swapped, and
refuses for the first knell met in its second half, or else in its first; a list
reverses when it is free of knells, and then back. -/
theorem reverse_laws :
    (∀ a b, reverseItems (seq_ a b) =
      (do let rb ← reverseItems b
          let ra ← reverseItems a
          pure (seq_ rb ra))) ∧
    (∀ a b, refusedAt (reverseItems (seq_ a b)) =
      ((knellsMet b).head?.or (knellsMet a).head?).map Item.knell) ∧
    (∀ items, ordered items = true → (knellsMet items).head? = (knellsIn items).getLast?) ∧
    (∀ items, (∃ r, reverseItems items = .ok r) ↔ knellFree items = true) ∧
    ∀ items, knellFree items = true → (reverseItems items >>= reverseItems) = .ok items := by
  have hseq : ∀ a b, reverseItems (seq_ a b) =
      (do let rb ← reverseItems b
          let ra ← reverseItems a
          pure (seq_ rb ra)) := by
    intro a b
    rw [seq_]
    induction a with
    | nil =>
        rw [List.nil_append, reverseItems]
        cases reverseItems b with
        | error r => rfl
        | ok rb => exact congrArg Except.ok (List.append_nil rb).symm
    | cons it a ih =>
        rw [List.cons_append, reverseItems, ih, reverseItems]
        cases reverseItems b with
        | error r => rfl
        | ok rb =>
            cases reverseItems a with
            | error r => rfl
            | ok ra =>
                cases reverseItem it with
                | error r => rfl
                | ok r => exact congrArg Except.ok (List.append_assoc rb ra [r])
  refine ⟨hseq, ?_, ?_, ?_, ?_⟩
  · intro a b
    rw [hseq, refusedAt_bind, refusedAt_items, refusedAt_items, Option.map_or]
  · intro items h
    rw [knellsMet_reverse h, List.head?_reverse]
  · intro items
    constructor
    · rintro ⟨r, hr⟩
      by_contra hk
      obtain ⟨e, he⟩ := reverseItems_refused (Bool.eq_false_iff.mpr hk)
      rw [he] at hr
      cases hr
    · exact reverseItems_ok
  · intro items h
    obtain ⟨r, hr⟩ := reverseItems_ok h
    rw [bind_of_ok hr, reverseItems_twice hr]

/-- A knell of an op by name. -/
def bell (name : String) : Item := .knell { op := { id := name, footprint := [] } }

/-- A `par` of two knells refuses for the first of them, though the second is
the last to be executed. -/
theorem reverse_not_last : ¬ ∀ a b, refusedAt (reverseItems (seq_ a b)) =
    ((knellsIn b).getLast?.or (knellsIn a).getLast?).map Item.knell := by
  intro h
  have hk := h [] [.par [bell "first", bell "second"]]
  injection hk with hk
  injection hk with hk
  injection hk with hop
  injection hop with hid
  revert hid
  decide

end Rescind
