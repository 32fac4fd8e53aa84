/-
# `Rescind.Core.Siblings` — the order of steps and its exceptions

Two steps have no order between them when the innermost container of both is a
`par`.  The query's own list of such pairs is those (`siblings_iff`), any other
two steps are ordered one way (`before_iff`), and the check of the `par`s looks at
every such pair once, however deep the `par`s lie in one another (`nodup_compared`).
-/
import Mathlib.Data.List.Nodup
import Rescind.Core.Numbering

namespace Rescind

/-! ## Innermost containers -/

/-- The places inside an item. -/
def inside : Item → Nat → List (Nat × Item)
  | .par children, n => placesFrom children n
  | .repeat_ _ _ body, n => placesFrom body n
  | .when_ _ _ _ then_ else_, n => placesFrom then_ n ++ placesFrom else_ (n + leafCount then_)
  | _, _ => []

/-- The leaf with a number is inside the item at a place, or is it. -/
def Spans (q : Nat × Item) (a : Nat) : Prop := q.1 ≤ a ∧ a < q.1 + (leavesOf q.2).length

/-- The innermost container of two leaves. -/
structure Innermost (items : List Item) (a b : Nat) (q : Nat × Item) : Prop where
  place : q ∈ places items
  both : Spans q a ∧ Spans q b
  least : ∀ d ∈ inside q.2 q.1, ¬(Spans d a ∧ Spans d b)

/-- A leaf inside the one and a leaf inside the other of two children of a `par`. -/
def InDifferent (cs : List Item) (n a b : Nat) : Prop :=
  ∃ c d, (c, d) ∈ laterPairs (childrenAt cs n) ∧ Spans c a ∧ Spans d b

/-- The leaf with a number is a step's. -/
def StepAt (items : List Item) (a : Nat) : Prop := ∃ o, (a, o) ∈ opsOf (numbered items)

theorem spans_of_segment {xs : List Item} {k n : Nat} {it : Item}
    (h : Segment xs k n (leavesOf it)) : k ≤ n ∧ n + (leavesOf it).length ≤ k + xs.length := by
  obtain ⟨pre, post, rfl, rfl⟩ := h
  simp only [List.length_append]
  omega

/-- Each child begins where those before it end. -/
theorem apart_children (cs : List Item) (n : Nat) :
    (childrenAt cs n).Pairwise fun c d => c.1 + (leavesOf c.2).length ≤ d.1 := by
  have from_ : ∀ (cs : List Item) (n : Nat), ∀ d ∈ childrenAt cs n, n ≤ d.1 := by
    intro cs
    induction cs with
    | nil =>
        intro n d hd
        cases hd
    | cons c cs ih =>
        intro n d hd
        rcases List.mem_cons.mp hd with rfl | hd
        · exact Nat.le_refl _
        · exact Nat.le_trans (Nat.le_add_right _ _) (ih _ d hd)
  induction cs generalizing n with
  | nil => exact List.Pairwise.nil
  | cons c cs ih => exact List.pairwise_cons.mpr ⟨from_ cs _, ih _⟩

theorem rel_of_laterPairs {α : Type} {R : α → α → Prop} {xs : List α} (h : xs.Pairwise R) {x y : α}
    (hxy : (x, y) ∈ laterPairs xs) : R x y ∧ x ∈ xs ∧ y ∈ xs := by
  induction xs with
  | nil => cases hxy
  | cons z xs ih =>
      obtain ⟨hz, hxs⟩ := List.pairwise_cons.mp h
      rcases List.mem_append.mp hxy with hxy | hxy
      · obtain ⟨w, hw, he⟩ := List.mem_map.mp hxy
        cases he
        exact ⟨hz _ hw, List.mem_cons_self, List.mem_cons_of_mem _ hw⟩
      · obtain ⟨hr, hx, hy⟩ := ih hxs hxy
        exact ⟨hr, List.mem_cons_of_mem _ hx, List.mem_cons_of_mem _ hy⟩

/-- A leaf is inside one child. -/
theorem child_unique {cs : List Item} {n a : Nat} {c d : Nat × Item} (hc : c ∈ childrenAt cs n)
    (hd : d ∈ childrenAt cs n) (ha : Spans c a) (ha' : Spans d a) : c = d := by
  have hp := apart_children cs n
  generalize childrenAt cs n = l at hc hd hp
  induction l with
  | nil => cases hc
  | cons e l ih =>
      obtain ⟨he, hl⟩ := List.pairwise_cons.mp hp
      rcases List.mem_cons.mp hc with rfl | hcl
      · rcases List.mem_cons.mp hd with rfl | hdl
        · rfl
        · have hcd := he d hdl
          have := ha.2
          have := ha'.1
          omega
      · rcases List.mem_cons.mp hd with rfl | hdl
        · have hdc := he c hcl
          have := ha'.2
          have := ha.1
          omega
        · exact ih hcl hdl hl

/-- What is inside a sequence is inside one of its items. -/
theorem child_of_place {cs : List Item} {n : Nat} {q : Nat × Item} (h : q ∈ placesFrom cs n) :
    ∃ c ∈ childrenAt cs n, ∀ a, Spans q a → Spans c a := by
  induction cs generalizing n with
  | nil => cases h
  | cons c cs ih =>
      rw [placesFrom] at h
      rcases List.mem_append.mp h with h | h
      · refine ⟨(n, c), List.mem_cons_self, fun a ha => ?_⟩
        obtain ⟨hle, hlt⟩ := spans_of_segment (leavesOf_at h)
        have := ha.1
        have := ha.2
        exact ⟨by dsimp only; omega, by dsimp only; omega⟩
      · obtain ⟨d, hd, hs⟩ := ih h
        exact ⟨d, List.mem_cons_of_mem _ hd, hs⟩

theorem stepsAt_spans {c : Nat × Item} {p : Nat × Op} (h : p ∈ stepsAt c) : Spans c p.1 := by
  obtain ⟨x, hx, -⟩ := mem_opsOf.mp h
  exact bounds_of_mem hx

/-- A step inside a child of a `par` is one of the child's steps. -/
theorem stepsAt_of_spans {items cs : List Item} {n : Nat} (h : (n, .par cs) ∈ places items)
    {c : Nat × Item} (hc : c ∈ childrenAt cs n) {p : Nat × Op} (hp : p ∈ opsOf (numbered items))
    (hs : Spans c p.1) : p ∈ stepsAt c := by
  obtain ⟨pre, post, hx, hn⟩ := (leaves_at (x := .par cs) h).trans (segment_of_child cs n hc)
  have hnum : numbered items = numberedFrom (leaves items) 1 := rfl
  have hbetween := steps_between pre (leavesOf c.2) post 1
  rw [stepsAt, hn, ← hbetween, ← hx]
  refine List.mem_filter.mpr ⟨hnum ▸ hp, ?_⟩
  rw [← hn]
  simp only [Bool.and_eq_true, decide_eq_true_eq]
  exact hs

/-! ## Siblings -/

/-- **Siblings** are the steps whose innermost container is a `par`, in different
children of it. -/
theorem siblings_iff (owner : String) (items : List Item) (a b : Nat) :
    (a, b) ∈ parSiblings owner items ↔ (StepAt items a ∧ StepAt items b) ∧
      ∃ n cs, Innermost items a b (n, .par cs) ∧ InDifferent cs n a b := by
  rw [mem_parSiblings]
  constructor
  · rintro ⟨n, cs, hm, c, d, hcd, ⟨o, ho⟩, o', ho'⟩
    obtain ⟨hlt, hc, hd⟩ := rel_of_laterPairs (apart_children cs n) hcd
    have ha : Spans c a := stepsAt_spans ho
    have hb : Spans d b := stepsAt_spans ho'
    have hwhole : ∀ {e}, e ∈ childrenAt cs n → ∀ {i}, Spans e i → Spans (n, .par cs) i := by
      intro e he i hi
      obtain ⟨hle, hle'⟩ := spans_of_segment (segment_of_child cs n he)
      have := hi.1
      have := hi.2
      have hlen : (leavesOf (.par cs)).length = (leaves cs).length := rfl
      exact ⟨by dsimp only; omega, by dsimp only; omega⟩
    refine ⟨⟨⟨o, steps_of_child hm hc ho⟩, o', steps_of_child hm hd ho'⟩, n, cs,
      ⟨hm, ⟨hwhole hc ha, hwhole hd hb⟩, fun e he hab => ?_⟩, c, d, hcd, ha, hb⟩
    -- what is inside the `par` is inside one child of it
    obtain ⟨f, hf, hspans⟩ := child_of_place he
    obtain rfl := child_unique hf hc (hspans a hab.1) ha
    obtain rfl := child_unique hf hd (hspans b hab.2) hb
    have := ha.1
    have := ha.2
    omega
  · rintro ⟨⟨⟨o, ho⟩, o', ho'⟩, n, cs, hin, c, d, hcd, ha, hb⟩
    obtain ⟨_, hc, hd⟩ := rel_of_laterPairs (apart_children cs n) hcd
    exact ⟨n, cs, hin.place, c, d, hcd, ⟨o, stepsAt_of_spans hin.place hc ho ha⟩, o',
      stepsAt_of_spans hin.place hd ho' hb⟩

theorem lt_of_siblings {owner : String} {items : List Item} {a b : Nat}
    (h : (a, b) ∈ parSiblings owner items) : a < b := by
  obtain ⟨n, cs, _, c, d, hcd, ⟨o, ho⟩, o', ho'⟩ := (mem_parSiblings owner items a b).mp h
  exact lt_of_laterPairs hcd ho ho'

/-! ## Order -/

/-- `before(A, B)`: leaf order, undefined between children of one `par`. -/
def before (x y : Leaf) (siblings : List (Nat × Nat)) : Bool :=
  x.n < y.n && !siblings.contains (x.n, y.n)

theorem before_iff {x y : Leaf} {siblings : List (Nat × Nat)} :
    before x y siblings = true ↔ x.n < y.n ∧ (x.n, y.n) ∉ siblings := by
  rw [before, Bool.and_eq_true, decide_eq_true_eq, Bool.not_eq_true', ← Bool.not_eq_true,
    List.contains_iff_mem]

/-- The steps with two numbers, in either order, are siblings. -/
def Sibling (owner : String) (items : List Item) (a b : Nat) : Prop :=
  (a, b) ∈ parSiblings owner items ∨ (b, a) ∈ parSiblings owner items

/-- Two steps that are no siblings are ordered one way. -/
theorem before_one_way {owner : String} {items : List Item} {x y : Leaf} (hne : x.n ≠ y.n)
    (h : ¬Sibling owner items x.n y.n) :
    before x y (parSiblings owner items) ≠ before y x (parSiblings owner items) := by
  obtain ⟨hxy, hyx⟩ := not_or.mp h
  rcases Nat.lt_or_gt_of_ne hne with hlt | hlt
  · have hb := before_iff.mpr ⟨hlt, hxy⟩
    have hb' : ¬before y x (parSiblings owner items) = true := fun h =>
      Nat.lt_asymm hlt (before_iff.mp h).1
    rw [hb]
    exact fun h => hb' h.symm
  · have hb := before_iff.mpr ⟨hlt, hyx⟩
    have hb' : ¬before x y (parSiblings owner items) = true := fun h =>
      Nat.lt_asymm hlt (before_iff.mp h).1
    rw [hb]
    exact hb'

/-- Siblings are ordered neither way. -/
theorem not_before_sibling {owner : String} {items : List Item} {x y : Leaf}
    (h : Sibling owner items x.n y.n) : before x y (parSiblings owner items) = false := by
  rw [← Bool.not_eq_true, before_iff]
  rintro ⟨hlt, hxy⟩
  rcases h with h | h
  · exact hxy h
  · exact Nat.lt_asymm hlt (lt_of_siblings h)

/-! ## Every pair once -/

/-- The pairs of an element of one list and an element of a later one. -/
def acrossPairs {α : Type} (grp : List (List α)) : List (α × α) :=
  (laterPairs grp).flatMap fun p => p.1.flatMap fun a => p.2.map fun b => (a, b)

theorem mem_acrossPairs {α : Type} {grp : List (List α)} {q : α × α} :
    q ∈ acrossPairs grp ↔ ∃ x y, (x, y) ∈ laterPairs grp ∧ q.1 ∈ x ∧ q.2 ∈ y := by
  simp only [acrossPairs, List.mem_flatMap, List.mem_map, Prod.exists]
  constructor
  · rintro ⟨x, y, hxy, a, ha, b, hb, rfl⟩
    exact ⟨x, y, hxy, ha, hb⟩
  · rintro ⟨x, y, hxy, ha, hb⟩
    exact ⟨x, y, hxy, q.1, ha, q.2, hb, rfl⟩

theorem acrossPairs_map {α β : Type} (f : α → β) (grp : List (List α)) :
    acrossPairs (grp.map (List.map f)) = (acrossPairs grp).map fun q => (f q.1, f q.2) := by
  rw [acrossPairs, acrossPairs, laterPairs_map, List.flatMap_map, List.map_flatMap]
  refine List.flatMap_congr fun p _ => ?_
  rw [List.flatMap_map, List.map_flatMap]
  refine List.flatMap_congr fun a _ => ?_
  rw [List.map_map, List.map_map]
  rfl

theorem mem_of_laterPairs {α : Type} {xs : List α} {x y : α} (h : (x, y) ∈ laterPairs xs) :
    x ∈ xs ∧ y ∈ xs :=
  (rel_of_laterPairs (R := fun _ _ => True) (List.pairwise_of_forall fun _ _ => trivial) h).2

/-- Of lists with nothing twice no pair comes twice. -/
theorem nodup_acrossPairs {α : Type} {grp : List (List α)} (h : grp.flatten.Nodup) :
    (acrossPairs grp).Nodup := by
  induction grp with
  | nil => exact List.nodup_nil
  | cons x grp ih =>
      rw [List.flatten_cons, List.nodup_append] at h
      obtain ⟨hx, hgrp, hapart⟩ := h
      obtain ⟨heach, hdisjoint⟩ := List.nodup_flatten.mp hgrp
      have hsplit : acrossPairs (x :: grp) = (grp.flatMap fun y => x.product y) ++ acrossPairs grp := by
        rw [acrossPairs, laterPairs, List.flatMap_append, List.flatMap_map]
        rfl
      rw [hsplit, List.nodup_append]
      refine ⟨List.nodup_flatMap.mpr ⟨fun y hy => hx.product (heach y hy), ?_⟩, ih hgrp, ?_⟩
      · refine hdisjoint.imp fun hyz q hq hq' => ?_
        exact hyz (List.pair_mem_product.mp hq).2 (List.pair_mem_product.mp hq').2
      · rintro q hq q' hq' rfl
        obtain ⟨y, _, hq⟩ := List.mem_flatMap.mp hq
        obtain ⟨z, w, hzw, hz, _⟩ := mem_acrossPairs.mp hq'
        exact hapart q.1 (List.pair_mem_product.mp hq).1 q.1
          (List.mem_flatten.mpr ⟨z, (mem_of_laterPairs hzw).1, hz⟩) rfl

/-- The steps the check of the `par`s looks at together. -/
def compared (owner : String) (items : List Item) : List ((Nat × Op) × (Nat × Op)) :=
  (parChildren owner items).flatMap acrossPairs

/-- The numbers of the steps of each group, paired. -/
def numberPairs (grps : List (List (List (Nat × Op)))) : List (Nat × Nat) :=
  grps.flatMap fun grp => acrossPairs (grp.map (List.map Prod.fst))

theorem numberPairs_append (gs hs : List (List (List (Nat × Op)))) :
    numberPairs (gs ++ hs) = numberPairs gs ++ numberPairs hs := List.flatMap_append

theorem numberPairs_compared (owner : String) (items : List Item) :
    (compared owner items).map (fun q => (q.1.1, q.2.1)) = numberPairs (parChildren owner items) := by
  rw [compared, List.map_flatMap, numberPairs]
  exact List.flatMap_congr fun grp _ => (acrossPairs_map Prod.fst grp).symm

/-- What is reported of two children is reported of the steps looked at. -/
theorem parViolations_eq (owner : String) (items : List Item) :
    (parViolations owner items).1 =
      nub (((compared owner items).filter fun q => !disjointUmbra owner q.1.2 q.2.2).map
        fun q => (q.1.1, q.2.1)) := by
  rw [parViolations, compared, List.filter_flatMap, List.map_flatMap]
  refine congrArg nub (List.flatMap_congr fun grp _ => ?_)
  rw [acrossPairs, List.filter_flatMap, List.map_flatMap]
  refine List.flatMap_congr fun p _ => ?_
  rw [List.filter_flatMap, List.map_flatMap]
  refine List.flatMap_congr fun a _ => ?_
  rw [List.filter_map, List.map_map]
  rfl

theorem opsOf_numbers (ps : List (Nat × Item)) :
    ((opsOf ps).map Prod.fst).Sublist (ps.map Prod.fst) := by
  induction ps with
  | nil => exact List.nil_sublist _
  | cons p ps ih =>
      rw [opsOf, List.filterMap_cons, List.map_cons]
      cases opOf p.2 with
      | none => exact ih.trans (List.sublist_cons_self _ _)
      | some o => exact ih.cons_cons _

/-- No step of a `par`'s children comes twice. -/
theorem nodup_steps (cs : List Item) (n : Nat) :
    (((childrenAt cs n).map stepsAt).map (List.map Prod.fst)).flatten.Nodup := by
  have hflat : (((childrenAt cs n).map stepsAt).map (List.map Prod.fst)).flatten =
      (opsOf (numberedFrom (leaves cs) n)).map Prod.fst := by
    induction cs generalizing n with
    | nil => rfl
    | cons c cs ih =>
        rw [childrenAt, List.map_cons, List.map_cons, List.flatten_cons, ih, leaves,
          numberedFrom_append, opsOf_append, List.map_append]
        rfl
  have hnumbers : (numberedFrom (leaves cs) n).map Prod.fst = List.range' n (leaves cs).length := by
    rw [numberedFrom, List.map_map]
    exact List.zipIdx_map_snd n (leaves cs)
  rw [hflat]
  exact (hnumbers ▸ List.nodup_range' : ((numberedFrom (leaves cs) n).map Prod.fst).Nodup).sublist
    (opsOf_numbers _)

/-- A pair of different children is of no one child. -/
theorem not_inDifferent {cs : List Item} {n a b : Nat} {c : Nat × Item} (hc : c ∈ childrenAt cs n)
    (ha : Spans c a) (hb : Spans c b) : ¬InDifferent cs n a b := by
  rintro ⟨d, e, hde, had, hbe⟩
  obtain ⟨hlt, hd, he⟩ := rel_of_laterPairs (apart_children cs n) hde
  obtain rfl := child_unique hc hd ha had
  obtain rfl := child_unique hc he hb hbe
  have := ha.1
  have := ha.2
  omega

/-- A sequence's groups are those of its first item and those after it, though a
`par`'s nested ones come last. -/
theorem numberPairs_perm (lvs : List Leaf) (it : Item) (its : List Item) (n : Nat) :
    (numberPairs (collectPars lvs (it :: its) n)).Perm
      (numberPairs (collectItem lvs it n ++ collectPars lvs its (n + (leavesOf it).length))) := by
  have plain : (∀ cs, it ≠ .par cs) →
      (numberPairs (collectPars lvs (it :: its) n)).Perm
        (numberPairs (collectItem lvs it n ++ collectPars lvs its (n + (leavesOf it).length))) := by
    intro h
    rw [collectPars]
    exact h
  match it with
  | .par cs =>
      rw [collectPars, collectItem, leafCount_eq_length, List.cons_append]
      refine List.Perm.append_left _ ?_
      exact (List.perm_append_comm).flatMap_right _
  | .repeat_ _ _ _ | .when_ _ _ _ _ _ | .step _ | .knell _ | .slot _ | .confirm | .commit
  | .preflight _ | .observe _ _ | .assert _ _ _ =>
      refine plain ?_
      intro cs h
      cases h

section
variable {lvs : List Leaf} {xs : List Item} {k : Nat}
  (hl : lvs.map (fun l => (l.n, l.op)) = opsOf (numberedFrom xs k))

include hl

theorem nodup_parGroup {cs : List Item} {n : Nat} (h : Segment xs k n (leaves cs)) :
    (acrossPairs ((parGroup lvs cs n).map (List.map Prod.fst))).Nodup := by
  rw [parGroup_eq hl cs n h]
  exact nodup_acrossPairs (nodup_steps cs n)

theorem inDifferent_of_parGroup {cs : List Item} {n : Nat} (h : Segment xs k n (leaves cs))
    {q : Nat × Nat} (hq : q ∈ acrossPairs ((parGroup lvs cs n).map (List.map Prod.fst))) :
    InDifferent cs n q.1 q.2 := by
  rw [parGroup_eq hl cs n h, acrossPairs_map] at hq
  obtain ⟨r, hr, rfl⟩ := List.mem_map.mp hq
  obtain ⟨x, y, hxy, hx, hy⟩ := mem_acrossPairs.mp hr
  rw [laterPairs_map] at hxy
  obtain ⟨⟨c, d⟩, hcd, he⟩ := List.mem_map.mp hxy
  cases he
  exact ⟨c, d, hcd, stepsAt_spans hx, stepsAt_spans hy⟩

/-- A pair of some groups is of different children of a `par` among their places. -/
theorem inDifferent_of_numberPairs {ys : List Item} {lo : Nat} (h : Segment xs k lo ys)
    {ps : List (Nat × Item)} (hs : ∀ q ∈ ps, Segment ys lo q.1 (leavesOf q.2))
    {grps : List (List (List (Nat × Op)))} (hg : ∀ grp ∈ grps, GroupOf lvs ps grp) {q : Nat × Nat}
    (hq : q ∈ numberPairs grps) : ∃ n cs, (n, .par cs) ∈ ps ∧ InDifferent cs n q.1 q.2 := by
  obtain ⟨grp, hgrp, hq⟩ := List.mem_flatMap.mp hq
  obtain ⟨n, cs, hm, rfl⟩ := hg grp hgrp
  exact ⟨n, cs, hm, inDifferent_of_parGroup hl (h.trans (hs _ hm)) hq⟩

theorem bounds_of_numberPairs {ys : List Item} {lo : Nat} (h : Segment xs k lo ys)
    {ps : List (Nat × Item)} (hs : ∀ q ∈ ps, Segment ys lo q.1 (leavesOf q.2))
    {grps : List (List (List (Nat × Op)))} (hg : ∀ grp ∈ grps, GroupOf lvs ps grp) {q : Nat × Nat}
    (hq : q ∈ numberPairs grps) : lo ≤ q.1 ∧ q.1 < lo + ys.length := by
  obtain ⟨n, cs, hm, c, d, hcd, ha, _⟩ := inDifferent_of_numberPairs hl h hs hg hq
  obtain ⟨hle, hle'⟩ := spans_of_segment (segment_of_child cs n (mem_of_laterPairs hcd).1)
  obtain ⟨hlo, hhi⟩ := spans_of_segment (hs _ hm)
  have hlen : (leavesOf (.par cs)).length = (leaves cs).length := rfl
  have := ha.1
  have := ha.2
  dsimp only at hlo hhi
  omega

/-- Of groups from one stretch and groups from a later one no pair is the same. -/
theorem nodup_stretches {ys zs : List Item} {lo : Nat} (hy : Segment xs k lo ys)
    (hz : Segment xs k (lo + ys.length) zs) {ps qs : List (Nat × Item)}
    (hs : ∀ q ∈ ps, Segment ys lo q.1 (leavesOf q.2))
    (hs' : ∀ q ∈ qs, Segment zs (lo + ys.length) q.1 (leavesOf q.2))
    {gs gs' : List (List (List (Nat × Op)))} (hg : ∀ grp ∈ gs, GroupOf lvs ps grp)
    (hg' : ∀ grp ∈ gs', GroupOf lvs qs grp) (hn : (numberPairs gs).Nodup)
    (hn' : (numberPairs gs').Nodup) : (numberPairs (gs ++ gs')).Nodup := by
  rw [numberPairs_append, List.nodup_append]
  refine ⟨hn, hn', ?_⟩
  rintro q hq q' hq' rfl
  have hlow := bounds_of_numberPairs hl hy hs hg hq
  have hhigh := bounds_of_numberPairs hl hz hs' hg' hq'
  omega

/-- The pairs of a `par` are none of those inside its children. -/
theorem nodup_par {cs : List Item} {n : Nat} (h : Segment xs k n (leaves cs))
    (hn : (numberPairs (collectEach lvs cs n)).Nodup) :
    (numberPairs (parGroup lvs cs n :: collectEach lvs cs n)).Nodup := by
  have hcons : numberPairs (parGroup lvs cs n :: collectEach lvs cs n) =
      acrossPairs ((parGroup lvs cs n).map (List.map Prod.fst)) ++
        numberPairs (collectEach lvs cs n) := rfl
  rw [hcons, List.nodup_append]
  refine ⟨nodup_parGroup hl h, hn, ?_⟩
  rintro q hq q' hq' rfl
  obtain ⟨m, ds, hm, c, d, hcd, ha, hb⟩ := inDifferent_of_numberPairs hl h (fun _ => leaves_at)
    (fun grp => (mem_collectEach lvs cs n grp).mp) hq'
  obtain ⟨e, he, hspans⟩ := child_of_place hm
  have hwhole : ∀ {f}, f ∈ childrenAt ds m → ∀ {i}, Spans f i → Spans e i := by
    intro f hf i hi
    obtain ⟨hle, hle'⟩ := spans_of_segment (segment_of_child ds m hf)
    have hlen : (leavesOf (.par ds)).length = (leaves ds).length := rfl
    have := hi.1
    have := hi.2
    exact hspans i ⟨by dsimp only; omega, by dsimp only; omega⟩
  have hmem := mem_of_laterPairs hcd
  exact not_inDifferent he (hwhole hmem.1 ha) (hwhole hmem.2 hb) (inDifferent_of_parGroup hl h hq)

mutual

theorem nodup_collectItem (it : Item) (n : Nat) (h : Segment xs k n (leavesOf it)) :
    (numberPairs (collectItem lvs it n)).Nodup := by
  match it with
  | .par cs => exact nodup_par hl h (nodup_collectEach cs n h)
  | .repeat_ form var body => exact nodup_collectPars body n h
  | .when_ guard window onLapse then_ else_ =>
      have hthen : Segment xs k n (leaves then_) := h.trans (Segment.whole _ _).right
      have helse : Segment xs k (n + (leaves then_).length) (leaves else_) :=
        h.trans (Segment.left (Segment.whole _ _))
      rw [collectItem, leafCount_eq_length]
      exact nodup_stretches hl hthen helse (fun _ => leaves_at) (fun _ => leaves_at)
        (fun grp => (mem_collectPars lvs then_ n grp).mp)
        (fun grp => (mem_collectPars lvs else_ _ grp).mp) (nodup_collectPars then_ n hthen)
        (nodup_collectPars else_ _ helse)
  | .step _ | .knell _ | .slot _ | .confirm | .commit | .preflight _ | .observe _ _
  | .assert _ _ _ => exact List.nodup_nil

theorem nodup_collectEach (cs : List Item) (n : Nat) (h : Segment xs k n (leaves cs)) :
    (numberPairs (collectEach lvs cs n)).Nodup := by
  match cs with
  | [] => exact List.nodup_nil
  | c :: cs =>
      have hc : Segment xs k n (leavesOf c) := h.trans (Segment.whole _ _).right
      have hcs : Segment xs k (n + (leavesOf c).length) (leaves cs) :=
        h.trans (Segment.left (Segment.whole _ _))
      rw [collectEach]
      exact nodup_stretches hl hc hcs (fun _ => leavesOf_at) (fun _ => leaves_at)
        (fun grp => (mem_collectItem lvs c n grp).mp) (fun grp => (mem_collectEach lvs cs _ grp).mp)
        (nodup_collectItem c n hc) (nodup_collectEach cs _ hcs)

/-- No pair of a sequence comes twice. -/
theorem nodup_collectPars (its : List Item) (n : Nat) (h : Segment xs k n (leaves its)) :
    (numberPairs (collectPars lvs its n)).Nodup := by
  match its with
  | [] => exact List.nodup_nil
  | it :: its =>
      have hit : Segment xs k n (leavesOf it) := h.trans (Segment.whole _ _).right
      have hits : Segment xs k (n + (leavesOf it).length) (leaves its) :=
        h.trans (Segment.left (Segment.whole _ _))
      have hboth := nodup_stretches hl hit hits (fun _ => leavesOf_at) (fun _ => leaves_at)
        (fun grp => (mem_collectItem lvs it n grp).mp) (fun grp => (mem_collectPars lvs its _ grp).mp)
        (nodup_collectItem it n hit) (nodup_collectPars its _ hits)
      exact (numberPairs_perm lvs it its n).nodup_iff.mpr hboth

end

end

/-- The pairs looked at are those of siblings. -/
theorem mem_compared (owner : String) (items : List Item) (a b : Nat) :
    (a, b) ∈ (compared owner items).map (fun q => (q.1.1, q.2.1)) ↔
      (a, b) ∈ parSiblings owner items := by
  rw [mem_parSiblings, compared]
  constructor
  · intro h
    obtain ⟨q, hq, he⟩ := List.mem_map.mp h
    cases he
    obtain ⟨grp, hg, hq⟩ := List.mem_flatMap.mp hq
    obtain ⟨n, cs, hm, rfl⟩ := (mem_parChildren owner items grp).mp hg
    obtain ⟨x, y, hxy, hx, hy⟩ := mem_acrossPairs.mp hq
    rw [laterPairs_map] at hxy
    obtain ⟨⟨c, d⟩, hcd, he⟩ := List.mem_map.mp hxy
    cases he
    exact ⟨n, cs, hm, c, d, hcd, ⟨_, hx⟩, _, hy⟩
  · rintro ⟨n, cs, hm, c, d, hcd, ⟨o, ho⟩, o', ho'⟩
    refine List.mem_map.mpr ⟨((a, o), (b, o')), List.mem_flatMap.mpr
      ⟨_, (mem_parChildren owner items _).mpr ⟨n, cs, hm, rfl⟩, mem_acrossPairs.mpr ?_⟩, rfl⟩
    refine ⟨stepsAt c, stepsAt d, ?_, ho, ho'⟩
    rw [laterPairs_map]
    exact List.mem_map_of_mem hcd

/-- **No pair is looked at twice**, however deep the `par`s lie. -/
theorem nodup_compared (owner : String) (items : List Item) :
    ((compared owner items).map fun q => (q.1.1, q.2.1)).Nodup := by
  rw [numberPairs_compared]
  exact nodup_collectPars (stepFacts_eq owner items) items 1 (Segment.whole _ _)

end Rescind
