/-
# `Rescind.Core.Numbering` — one numbering of a plan's leaves

A plan's places are its items, containers included, each under the number its
first leaf has or would have.  Every traversal that numbers leaves is a reading
of the places (`Traverses`): the leaves themselves, the steps the interference
query sees, the probes the checker lists, and the children of every `par`.

    an item's leaves are the plan's from its number on       (`leaves_at`)
    a traversal reads the places in order                    (`Traverses.eq`)
    the groups of a `par` are its children's steps           (`mem_parChildren`)
    siblings are steps of two children of one `par`          (`mem_parSiblings`)
-/
import Rescind.Core.Check
import Mathlib.Data.List.Basic

namespace Rescind

/-! ## Places -/

/-- Not a container. -/
def Item.isLeaf : Item → Bool
  | .par _ | .repeat_ _ _ _ | .when_ _ _ _ _ _ => false
  | _ => true

mutual

def placesOf : Item → Nat → List (Nat × Item)
  | .par children, n => (n, .par children) :: placesFrom children n
  | .repeat_ form var body, n => (n, .repeat_ form var body) :: placesFrom body n
  | .when_ guard window onLapse then_ else_, n =>
      (n, .when_ guard window onLapse then_ else_) ::
        (placesFrom then_ n ++ placesFrom else_ (n + leafCount then_))
  | it, n => [(n, it)]

def placesFrom : List Item → Nat → List (Nat × Item)
  | [], _ => []
  | it :: items, n => placesOf it n ++ placesFrom items (n + (leavesOf it).length)

end

/-- The places of a plan: every item, at the number of its first leaf. -/
def places (items : List Item) : List (Nat × Item) := placesFrom items 1

theorem leavesOf_leaf {it : Item} (h : it.isLeaf = true) : leavesOf it = [it] := by
  cases it with
  | par | repeat_ | when_ => cases h
  | _ => rfl

theorem placesOf_leaf {it : Item} (h : it.isLeaf = true) (n : Nat) : placesOf it n = [(n, it)] := by
  cases it with
  | par | repeat_ | when_ => cases h
  | _ => rfl

/-! ## Traversals -/

section
variable {α β : Type}

/-- A traversal of a plan that counts its leaves: what it makes of an item is
what it makes of its place, followed by what is inside.  It may carry something
along, which loops change. -/
structure Traverses (f : Nat × Item → List α) (item : β → Item → Nat → List α)
    (items : β → List Item → Nat → List α) : Prop where
  nil : ∀ b n, items b [] n = []
  cons : ∀ b it its n,
    items b (it :: its) n = item b it n ++ items b its (n + (leavesOf it).length)
  par : ∀ b children n, item b (.par children) n = f (n, .par children) ++ items b children n
  repeat_ : ∀ b form var body n, ∃ b', item b (.repeat_ form var body) n =
    f (n, .repeat_ form var body) ++ items b' body n
  when_ : ∀ b guard window onLapse then_ else_ n, item b (.when_ guard window onLapse then_ else_) n =
    f (n, .when_ guard window onLapse then_ else_) ++
      (items b then_ n ++ items b else_ (n + leafCount then_))
  leaf : ∀ b it n, it.isLeaf = true → item b it n = f (n, it)

variable {f : Nat × Item → List α} {item : β → Item → Nat → List α}
  {items : β → List Item → Nat → List α}

mutual

theorem Traverses.eqOf (h : Traverses f item items) (b : β) (it : Item) (n : Nat) :
    item b it n = (placesOf it n).flatMap f := by
  have leaf : it.isLeaf = true → item b it n = (placesOf it n).flatMap f := by
    intro hl
    rw [h.leaf b it n hl, placesOf_leaf hl, List.flatMap_singleton]
  match it with
  | .par children => rw [h.par, h.eq b children, placesOf, List.flatMap_cons]
  | .repeat_ form var body =>
      obtain ⟨b', hb⟩ := h.repeat_ b form var body n
      rw [hb, h.eq b' body, placesOf, List.flatMap_cons]
  | .when_ guard window onLapse then_ else_ =>
      rw [h.when_, h.eq b then_, h.eq b else_, placesOf, List.flatMap_cons, List.flatMap_append]
  | .step _ | .knell _ | .slot _ | .confirm | .commit | .preflight _ | .observe _ _
  | .assert _ _ _ => exact leaf rfl

/-- **A traversal reads the places in order.** -/
theorem Traverses.eq (h : Traverses f item items) (b : β) (its : List Item) (n : Nat) :
    items b its n = (placesFrom its n).flatMap f := by
  match its with
  | [] => rw [h.nil, placesFrom, List.flatMap_nil]
  | it :: its => rw [h.cons, h.eqOf b it, h.eq b its, placesFrom, List.flatMap_append]

end

end

/-! ## Leaves and steps -/

/-- Leaves numbered from `n` on. -/
def numberedFrom (xs : List Item) (n : Nat) : List (Nat × Item) :=
  (xs.zipIdx n).map fun p => (p.2, p.1)

theorem numberedFrom_append (xs ys : List Item) (n : Nat) :
    numberedFrom (xs ++ ys) n = numberedFrom xs n ++ numberedFrom ys (n + xs.length) := by
  rw [numberedFrom, List.zipIdx_append, List.map_append]
  rfl

theorem bounds_of_mem {xs : List Item} {n k : Nat} {it : Item} (h : (k, it) ∈ numberedFrom xs n) :
    n ≤ k ∧ k < n + xs.length := by
  obtain ⟨⟨x, i⟩, hm, he⟩ := List.mem_map.mp h
  obtain ⟨rfl, rfl⟩ : i = k ∧ x = it := by simpa using he
  obtain ⟨hle, hx⟩ := List.mk_mem_zipIdx_iff_le_and_getElem?_sub.mp hm
  obtain ⟨hlt, -⟩ := List.getElem?_eq_some_iff.mp hx
  omega

theorem traverses_numbered : Traverses (β := Unit)
    (fun p => if p.2.isLeaf then [p] else [])
    (fun _ it n => numberedFrom (leavesOf it) n) (fun _ its n => numberedFrom (leaves its) n) where
  nil _ _ := rfl
  cons _ it its n := by rw [leaves, numberedFrom_append]
  par _ children n := by simp [Item.isLeaf, leavesOf]
  repeat_ _ form var body n := ⟨(), by simp [Item.isLeaf, leavesOf]⟩
  when_ _ guard window onLapse then_ else_ n := by
    simp [Item.isLeaf, leavesOf, numberedFrom_append]
  leaf _ it n hl := by rw [leavesOf_leaf hl, if_pos hl]; rfl

/-- The numbered leaves are the places that are no containers. -/
theorem numberedFrom_eq (its : List Item) (n : Nat) :
    numberedFrom (leaves its) n = (placesFrom its n).filter fun p => p.2.isLeaf := by
  rw [traverses_numbered.eq () its n]
  induction placesFrom its n with
  | nil => rfl
  | cons p ps ih =>
      rw [List.flatMap_cons, ih, List.filter_cons]
      split
      · rfl
      · rfl

/-- The steps among numbered items, with their ops. -/
def opsOf (ps : List (Nat × Item)) : List (Nat × Op) :=
  ps.filterMap fun p => (opOf p.2).map fun o => (p.1, o)

theorem opsOf_append (ps qs : List (Nat × Item)) : opsOf (ps ++ qs) = opsOf ps ++ opsOf qs :=
  List.filterMap_append

theorem mem_opsOf {ps : List (Nat × Item)} {n : Nat} {o : Op} :
    (n, o) ∈ opsOf ps ↔ ∃ it, (n, it) ∈ ps ∧ opOf it = some o := by
  constructor
  · intro h
    obtain ⟨⟨k, it⟩, hm, he⟩ := List.mem_filterMap.mp h
    obtain ⟨o', ho, hp⟩ := Option.map_eq_some_iff.mp he
    cases hp
    exact ⟨it, hm, ho⟩
  · rintro ⟨it, hm, ho⟩
    exact List.mem_filterMap.mpr ⟨(n, it), hm, by rw [ho]; rfl⟩

/-- A container has no op. -/
theorem opOf_container {it : Item} (h : it.isLeaf = false) : opOf it = none := by
  cases it with
  | par | repeat_ | when_ => rfl
  | _ => cases h

theorem opsOf_leaves (ps : List (Nat × Item)) :
    opsOf (ps.filter fun p => p.2.isLeaf) = opsOf ps := by
  induction ps with
  | nil => rfl
  | cons p ps ih =>
      cases hl : p.2.isLeaf with
      | true =>
          rw [List.filter_cons_of_pos (by exact hl)]
          simp only [opsOf, List.filterMap_cons] at ih ⊢
          rw [ih]
      | false =>
          rw [List.filter_cons_of_neg (by simp [hl]), ih]
          simp [opsOf, opOf_container hl]

theorem traverses_stepFacts (owner : String) : Traverses
    (fun p => ((opOf p.2).map fun o => (p.1, o)).toList)
    (fun vars it n => (stepFactsOf owner vars it n).map fun l => (l.n, l.op))
    (fun vars its n => (stepFactsFrom owner vars its n).map fun l => (l.n, l.op)) where
  nil _ _ := rfl
  cons vars it its n := by rw [stepFactsFrom, List.map_append]
  par vars children n := by rw [stepFactsOf]; rfl
  repeat_ vars form var body n := by
    cases form with
    | count k => exact ⟨vars, by rw [stepFactsOf]; rfl⟩
    | _ => exact ⟨var :: vars, by rw [stepFactsOf]; rfl⟩
  when_ vars guard window onLapse then_ else_ n := by
    rw [stepFactsOf, List.map_append]
    rfl
  leaf vars it n hl := by
    cases it with
    | par | repeat_ | when_ => cases hl
    | _ => rfl

/-- The steps the interference query sees are the numbered leaves' own. -/
theorem stepFacts_eq (owner : String) (items : List Item) :
    (stepFacts owner items).map (fun l => (l.n, l.op)) = opsOf (numbered items) := by
  have hn : numbered items = numberedFrom (leaves items) 1 := rfl
  rw [hn, numberedFrom_eq, opsOf_leaves, stepFacts, (traverses_stepFacts owner).eq [] items 1]
  exact (List.filterMap_eq_flatMap_toList _ _).symm

/-! ## Probes -/

/-- The names observed where an item stands: a `when`'s guard, a leaf's own. -/
def probesAt : Item → List String
  | .when_ guard _ _ _ _ => [guard.name]
  | it => leafProbes it

theorem traverses_observedProbes : Traverses (β := Unit)
    (fun p => (probesAt p.2).map fun name => (some p.1, name))
    (fun _ it n => observedProbesOf it n) (fun _ its n => observedProbesFrom its n) where
  nil _ _ := rfl
  cons _ it its n := by rw [observedProbesFrom]
  par _ children n := by rw [observedProbesOf]; rfl
  repeat_ _ form var body n := ⟨(), by rw [observedProbesOf]; rfl⟩
  when_ _ guard window onLapse then_ else_ n := by rw [observedProbesOf]; rfl
  leaf _ it n hl := by
    cases it with
    | par | repeat_ | when_ => cases hl
    | _ => rfl

/-- The probes the checker lists, each at its item's number. -/
theorem observedProbesFrom_eq (its : List Item) (n : Nat) :
    observedProbesFrom its n =
      (placesFrom its n).flatMap fun p => (probesAt p.2).map fun name => (some p.1, name) :=
  traverses_observedProbes.eq () its n

/-! ## The children of a `par` -/

/-- An item's leaves, inside an item or a sequence's, from a number on. -/
def Segment (xs : List Item) (k n : Nat) (ys : List Item) : Prop :=
  ∃ pre post, xs = pre ++ ys ++ post ∧ n = k + pre.length

theorem Segment.whole (xs : List Item) (k : Nat) : Segment xs k k xs :=
  ⟨[], [], by simp, rfl⟩

theorem Segment.right {xs ys zs : List Item} {k n : Nat} (h : Segment xs k n ys) :
    Segment (xs ++ zs) k n ys := by
  obtain ⟨pre, post, rfl, hn⟩ := h
  exact ⟨pre, post ++ zs, by simp only [List.append_assoc], hn⟩

theorem Segment.left {xs ys zs : List Item} {k n : Nat} (h : Segment xs (k + zs.length) n ys) :
    Segment (zs ++ xs) k n ys := by
  obtain ⟨pre, post, rfl, rfl⟩ := h
  refine ⟨zs ++ pre, post, by simp only [List.append_assoc], ?_⟩
  rw [List.length_append, Nat.add_assoc]

theorem Segment.trans {xs ys zs : List Item} {k n m : Nat} (h : Segment xs k n ys)
    (h' : Segment ys n m zs) : Segment xs k m zs := by
  obtain ⟨pre, post, rfl, rfl⟩ := h
  exact h'.left.right

mutual

theorem leavesOf_at {it : Item} {k n : Nat} {x : Item} (h : (n, x) ∈ placesOf it k) :
    Segment (leavesOf it) k n (leavesOf x) := by
  have leaf : it.isLeaf = true → Segment (leavesOf it) k n (leavesOf x) := by
    intro hl
    rw [placesOf_leaf hl] at h
    cases List.mem_singleton.mp h
    exact .whole _ _
  match it with
  | .par children =>
      rcases List.mem_cons.mp h with he | h
      · cases he
        exact .whole _ _
      · exact leaves_at h
  | .repeat_ form var body =>
      rcases List.mem_cons.mp h with he | h
      · cases he
        exact .whole _ _
      · exact leaves_at h
  | .when_ guard window onLapse then_ else_ =>
      rcases List.mem_cons.mp h with he | h
      · cases he
        exact .whole _ _
      · rcases List.mem_append.mp h with h | h
        · exact (leaves_at h).right
        · rw [leafCount_eq_length] at h
          exact (leaves_at h).left
  | .step _ | .knell _ | .slot _ | .confirm | .commit | .preflight _ | .observe _ _
  | .assert _ _ _ => exact leaf rfl

/-- An item's leaves are the plan's, from its number on. -/
theorem leaves_at {items : List Item} {k n : Nat} {x : Item} (h : (n, x) ∈ placesFrom items k) :
    Segment (leaves items) k n (leavesOf x) := by
  match items with
  | [] => cases h
  | it :: items =>
      rw [placesFrom] at h
      rcases List.mem_append.mp h with h | h
      · exact (leavesOf_at h).right
      · exact (leaves_at h).left

end

/-- The children of a `par`, each at its number. -/
def childrenAt : List Item → Nat → List (Nat × Item)
  | [], _ => []
  | c :: cs, n => (n, c) :: childrenAt cs (n + (leavesOf c).length)

/-- The steps of an item at its number. -/
def stepsAt (p : Nat × Item) : List (Nat × Op) := opsOf (numberedFrom (leavesOf p.2) p.1)

/-- The steps between two numbers are those of the leaves between them. -/
theorem steps_between (pre xs post : List Item) (k : Nat) :
    ((opsOf (numberedFrom (pre ++ xs ++ post) k)).filter fun p =>
        k + pre.length ≤ p.1 && p.1 < k + pre.length + xs.length) =
      opsOf (numberedFrom xs (k + pre.length)) := by
  have bounds : ∀ {ys : List Item} {i : Nat} {p : Nat × Op}, p ∈ opsOf (numberedFrom ys i) →
      i ≤ p.1 ∧ p.1 < i + ys.length := by
    intro ys i p hp
    obtain ⟨it, hm, -⟩ := mem_opsOf.mp hp
    exact bounds_of_mem hm
  simp only [numberedFrom_append, opsOf_append, List.filter_append, List.length_append]
  have hpre : ((opsOf (numberedFrom pre k)).filter fun p =>
      k + pre.length ≤ p.1 && p.1 < k + pre.length + xs.length) = [] := by
    rw [List.filter_eq_nil_iff]
    intro p hp
    have := bounds hp
    simp only [Bool.and_eq_true, decide_eq_true_eq]
    omega
  have hxs : ((opsOf (numberedFrom xs (k + pre.length))).filter fun p =>
      k + pre.length ≤ p.1 && p.1 < k + pre.length + xs.length) =
        opsOf (numberedFrom xs (k + pre.length)) := by
    rw [List.filter_eq_self]
    intro p hp
    have := bounds hp
    simp only [Bool.and_eq_true, decide_eq_true_eq]
    omega
  have hpost : ((opsOf (numberedFrom post (k + (pre.length + xs.length)))).filter fun p =>
      k + pre.length ≤ p.1 && p.1 < k + pre.length + xs.length) = [] := by
    rw [List.filter_eq_nil_iff]
    intro p hp
    have := bounds hp
    simp only [Bool.and_eq_true, decide_eq_true_eq]
    omega
  rw [hpre, hxs, hpost, List.nil_append, List.append_nil]

/-- A `par`'s group, read off the whole plan's steps, is each child's own. -/
theorem parGroup_eq {lvs : List Leaf} {xs : List Item} {k : Nat}
    (hl : lvs.map (fun l => (l.n, l.op)) = opsOf (numberedFrom xs k)) (cs : List Item) (n : Nat)
    (h : Segment xs k n (leaves cs)) : parGroup lvs cs n = (childrenAt cs n).map stepsAt := by
  induction cs generalizing n with
  | nil => rfl
  | cons c cs ih =>
      obtain ⟨pre, post, rfl, rfl⟩ := h
      have hc := steps_between pre (leavesOf c) (leaves cs ++ post) k
      have hg : ((lvs.filter fun l =>
          k + pre.length ≤ l.n && l.n < k + pre.length + (leavesOf c).length).map
            fun l => (l.n, l.op)) = stepsAt (k + pre.length, c) := by
        rw [stepsAt, ← hc, ← List.append_assoc]
        rw [leaves, ← List.append_assoc] at hl
        rw [← hl, List.filter_map]
        rfl
      rw [parGroup, childrenAt, List.map_cons, hg, ih]
      refine ⟨pre ++ leavesOf c, post, ?_, ?_⟩
      · simp only [leaves, List.append_assoc]
      · rw [List.length_append, Nat.add_assoc]

/-- A group is one of the `par`s among some places. -/
def GroupOf (lvs : List Leaf) (ps : List (Nat × Item)) (grp : List (List (Nat × Op))) : Prop :=
  ∃ n cs, (n, .par cs) ∈ ps ∧ grp = parGroup lvs cs n

theorem groupOf_nil {lvs : List Leaf} {grp : List (List (Nat × Op))} :
    grp ∈ ([] : List (List (List (Nat × Op)))) ↔ GroupOf lvs [] grp := by
  constructor
  · intro h
    cases h
  · rintro ⟨n, cs, hm, -⟩
    cases hm

theorem groupOf_append {lvs : List Leaf} {ps qs : List (Nat × Item)} {grp : List (List (Nat × Op))} :
    GroupOf lvs (ps ++ qs) grp ↔ GroupOf lvs ps grp ∨ GroupOf lvs qs grp := by
  constructor
  · rintro ⟨n, cs, hm, he⟩
    rcases List.mem_append.mp hm with hm | hm
    · exact .inl ⟨n, cs, hm, he⟩
    · exact .inr ⟨n, cs, hm, he⟩
  · rintro (⟨n, cs, hm, he⟩ | ⟨n, cs, hm, he⟩)
    · exact ⟨n, cs, List.mem_append_left _ hm, he⟩
    · exact ⟨n, cs, List.mem_append_right _ hm, he⟩

theorem groupOf_cons {lvs : List Leaf} {n : Nat} {it : Item} {ps : List (Nat × Item)}
    {grp : List (List (Nat × Op))} (h : ∀ cs, it ≠ .par cs) :
    GroupOf lvs ((n, it) :: ps) grp ↔ GroupOf lvs ps grp := by
  constructor
  · rintro ⟨m, cs, hm, he⟩
    rcases List.mem_cons.mp hm with heq | hm
    · cases heq
      exact absurd rfl (h cs)
    · exact ⟨m, cs, hm, he⟩
  · rintro ⟨m, cs, hm, he⟩
    exact ⟨m, cs, List.mem_cons_of_mem _ hm, he⟩

theorem groupOf_par {lvs : List Leaf} {n : Nat} {cs : List Item} {ps : List (Nat × Item)}
    {grp : List (List (Nat × Op))} :
    GroupOf lvs ((n, .par cs) :: ps) grp ↔ grp = parGroup lvs cs n ∨ GroupOf lvs ps grp := by
  constructor
  · rintro ⟨m, cs', hm, he⟩
    rcases List.mem_cons.mp hm with heq | hm
    · cases heq
      exact .inl he
    · exact .inr ⟨m, cs', hm, he⟩
  · rintro (he | ⟨m, cs', hm, he⟩)
    · exact ⟨n, cs, List.mem_cons_self, he⟩
    · exact ⟨m, cs', List.mem_cons_of_mem _ hm, he⟩

theorem groupOf_leaf {lvs : List Leaf} {n : Nat} {it : Item} {grp : List (List (Nat × Op))}
    (h : it.isLeaf = true) : ¬GroupOf lvs [(n, it)] grp := by
  rintro ⟨m, cs, hm, -⟩
  cases List.mem_singleton.mp hm
  cases h

mutual

theorem mem_collectItem (lvs : List Leaf) (it : Item) (n : Nat) (grp : List (List (Nat × Op))) :
    grp ∈ collectItem lvs it n ↔ GroupOf lvs (placesOf it n) grp := by
  match it with
  | .par cs =>
      rw [collectItem, placesOf, List.mem_cons, groupOf_par, mem_collectEach lvs cs n grp]
  | .repeat_ form var body =>
      rw [collectItem, placesOf, groupOf_cons (by intro _ h; cases h), mem_collectPars lvs body n grp]
  | .when_ guard window onLapse then_ else_ =>
      rw [collectItem, placesOf, groupOf_cons (by intro _ h; cases h), groupOf_append, List.mem_append,
        mem_collectPars lvs then_ n grp, mem_collectPars lvs else_ _ grp]
  | .step _ | .knell _ | .slot _ | .confirm | .commit | .preflight _ | .observe _ _
  | .assert _ _ _ =>
      exact ⟨fun h => absurd h List.not_mem_nil, fun h => absurd h (groupOf_leaf rfl)⟩

theorem mem_collectEach (lvs : List Leaf) (cs : List Item) (n : Nat)
    (grp : List (List (Nat × Op))) :
    grp ∈ collectEach lvs cs n ↔ GroupOf lvs (placesFrom cs n) grp := by
  match cs with
  | [] => exact groupOf_nil
  | c :: cs =>
      rw [collectEach, placesFrom, groupOf_append, List.mem_append, mem_collectItem lvs c n grp,
        mem_collectEach lvs cs _ grp]

/-- The groups collected are those of the `par`s of the plan. -/
theorem mem_collectPars (lvs : List Leaf) (its : List Item) (n : Nat)
    (grp : List (List (Nat × Op))) :
    grp ∈ collectPars lvs its n ↔ GroupOf lvs (placesFrom its n) grp := by
  match its with
  | [] => exact groupOf_nil
  | .par cs :: its =>
      rw [collectPars, placesFrom, placesOf, List.cons_append, groupOf_par, groupOf_append,
        List.mem_cons, List.mem_append, mem_collectPars lvs its _ grp, mem_collectEach lvs cs n grp,
        leafCount_eq_length, or_comm (a := GroupOf lvs (placesFrom cs n) grp)]
      rfl
  | .repeat_ form var body :: its =>
      rw [collectPars, placesFrom, groupOf_append, List.mem_append, mem_collectItem lvs _ n grp,
        mem_collectPars lvs its _ grp]
      all_goals exact fun _ h => nomatch h
  | .when_ guard window onLapse then_ else_ :: its =>
      rw [collectPars, placesFrom, groupOf_append, List.mem_append, mem_collectItem lvs _ n grp,
        mem_collectPars lvs its _ grp]
      all_goals exact fun _ h => nomatch h
  | .step _ :: its | .knell _ :: its | .slot _ :: its | .confirm :: its | .commit :: its
  | .preflight _ :: its | .observe _ _ :: its | .assert _ _ _ :: its =>
      rw [collectPars, placesFrom, groupOf_append, List.mem_append, mem_collectItem lvs _ n grp,
        mem_collectPars lvs its _ grp]
      all_goals exact fun _ h => nomatch h

end

/-- **The groups of the `par`s** are the steps of their children, each at its
number. -/
theorem mem_parChildren (owner : String) (items : List Item) (grp : List (List (Nat × Op))) :
    grp ∈ parChildren owner items ↔
      ∃ n cs, (n, .par cs) ∈ places items ∧ grp = (childrenAt cs n).map stepsAt := by
  rw [parChildren, mem_collectPars]
  have hg : ∀ {n cs}, (n, .par cs) ∈ places items →
      parGroup (stepFacts owner items) cs n = (childrenAt cs n).map stepsAt := by
    intro n cs hm
    exact parGroup_eq (stepFacts_eq owner items) cs n (leaves_at (x := .par cs) hm)
  constructor
  · rintro ⟨n, cs, hm, rfl⟩
    exact ⟨n, cs, hm, hg hm⟩
  · rintro ⟨n, cs, hm, rfl⟩
    exact ⟨n, cs, hm, (hg hm).symm⟩

/-- A child's leaves are among those of its `par`, from its number on. -/
theorem segment_of_child (cs : List Item) (n : Nat) {c : Nat × Item} (h : c ∈ childrenAt cs n) :
    Segment (leaves cs) n c.1 (leavesOf c.2) := by
  induction cs generalizing n with
  | nil => cases h
  | cons d ds ih =>
      rcases List.mem_cons.mp h with rfl | h
      · exact (Segment.whole _ _).right
      · exact (ih _ h).left

/-- The steps of a `par`'s children are steps of the plan. -/
theorem steps_of_child {items cs : List Item} {n : Nat} (h : (n, .par cs) ∈ places items)
    {c : Nat × Item} (hc : c ∈ childrenAt cs n) {p : Nat × Op} (hp : p ∈ stepsAt c) :
    p ∈ opsOf (numbered items) := by
  obtain ⟨pre, post, hx, hn⟩ := (leaves_at (x := .par cs) h).trans (segment_of_child cs n hc)
  have hnum : numbered items = numberedFrom (leaves items) 1 := rfl
  rw [hnum, hx, numberedFrom_append, numberedFrom_append, opsOf_append, opsOf_append, ← hn]
  exact List.mem_append_left _ (List.mem_append_right _ hp)

/-- Of two children the earlier one's steps have the smaller numbers. -/
theorem lt_of_laterPairs {cs : List Item} {n : Nat} {c d : Nat × Item}
    (h : (c, d) ∈ laterPairs (childrenAt cs n)) {a b : Nat × Op} (ha : a ∈ stepsAt c)
    (hb : b ∈ stepsAt d) : a.1 < b.1 := by
  have from_ : ∀ (cs : List Item) (n : Nat), d ∈ childrenAt cs n → n ≤ d.1 := by
    intro cs
    induction cs with
    | nil =>
        intro n h
        cases h
    | cons e es ih =>
        intro n h
        rcases List.mem_cons.mp h with rfl | h
        · exact Nat.le_refl _
        · exact Nat.le_trans (Nat.le_add_right _ _) (ih _ h)
  have apart : ∀ (cs : List Item) (n : Nat), (c, d) ∈ laterPairs (childrenAt cs n) →
      c.1 + (leavesOf c.2).length ≤ d.1 := by
    intro cs
    induction cs with
    | nil =>
        intro n h
        cases h
    | cons e es ih =>
        intro n h
        rcases List.mem_append.mp h with h | h
        · obtain ⟨d', hd, he⟩ := List.mem_map.mp h
          cases he
          exact from_ es _ hd
        · exact ih _ h
  obtain ⟨x, hx, -⟩ := mem_opsOf.mp ha
  obtain ⟨y, hy, -⟩ := mem_opsOf.mp hb
  have hc := bounds_of_mem hx
  have hd := bounds_of_mem hy
  have := apart cs n h
  omega

/-- **Siblings** are the numbers of two steps in different children of one
`par`, in order. -/
theorem mem_parSiblings (owner : String) (items : List Item) (a b : Nat) :
    (a, b) ∈ parSiblings owner items ↔ ∃ n cs, (n, .par cs) ∈ places items ∧
      ∃ c d, (c, d) ∈ laterPairs (childrenAt cs n) ∧
        (∃ o, (a, o) ∈ stepsAt c) ∧ ∃ o, (b, o) ∈ stepsAt d := by
  rw [parSiblings, mem_nub, List.mem_flatMap]
  constructor
  · rintro ⟨grp, hg, hp⟩
    obtain ⟨n, cs, hm, rfl⟩ := (mem_parChildren owner items grp).mp hg
    rw [laterPairs_map] at hp
    obtain ⟨q, hq, hp⟩ := List.mem_flatMap.mp hp
    obtain ⟨⟨c, d⟩, hcd, rfl⟩ := List.mem_map.mp hq
    obtain ⟨x, hx, hp⟩ := List.mem_flatMap.mp hp
    obtain ⟨y, hy, he⟩ := List.mem_map.mp hp
    have hlt := lt_of_laterPairs hcd hx hy
    rw [Nat.min_eq_left (Nat.le_of_lt hlt), Nat.max_eq_right (Nat.le_of_lt hlt)] at he
    cases he
    exact ⟨n, cs, hm, c, d, hcd, ⟨x.2, hx⟩, y.2, hy⟩
  · rintro ⟨n, cs, hm, c, d, hcd, ⟨x, hx⟩, y, hy⟩
    refine ⟨_, (mem_parChildren owner items _).mpr ⟨n, cs, hm, rfl⟩, ?_⟩
    have hlt := lt_of_laterPairs hcd hx hy
    rw [laterPairs_map]
    refine List.mem_flatMap.mpr ⟨_, List.mem_map_of_mem hcd, List.mem_flatMap.mpr ⟨_, hx, ?_⟩⟩
    refine List.mem_map.mpr ⟨_, hy, ?_⟩
    rw [Nat.min_eq_left (Nat.le_of_lt hlt), Nat.max_eq_right (Nat.le_of_lt hlt)]

/-! ## The counts the traversals keep -/

namespace Interference

mutual

def leafCountOf : Item → Nat
  | .par children => leafCount children
  | .repeat_ _ _ body => leafCount body
  | .when_ _ _ _ then_ else_ => leafCount then_ + leafCount else_
  | _ => 1

/-- The query's own count of leaves. -/
def leafCount : List Item → Nat
  | [] => 0
  | it :: items => leafCountOf it + leafCount items

end

mutual

theorem leafCountOf_eq (it : Item) : leafCountOf it = (leavesOf it).length := by
  match it with
  | .par children => exact leafCount_eq children
  | .repeat_ form var body => exact leafCount_eq body
  | .when_ guard window onLapse then_ else_ =>
      rw [leafCountOf, leavesOf, leafCount_eq then_, leafCount_eq else_, List.length_append]
  | .step _ | .knell _ | .slot _ | .confirm | .commit | .preflight _ | .observe _ _
  | .assert _ _ _ => rfl

theorem leafCount_eq (items : List Item) : leafCount items = (leaves items).length := by
  match items with
  | [] => rfl
  | it :: items => rw [leafCount, leaves, leafCountOf_eq it, leafCount_eq items, List.length_append]

end

end Interference

namespace ObservedProbes

mutual

def goItem : Item → Nat → Nat × List (Option Nat × String)
  | .par children, next => go children next
  | .repeat_ _ _ body, next => go body next
  | .when_ guard _ _ then_ else_, next =>
      let yes := go then_ next
      let no := go else_ yes.1
      (no.1, (some next, guard.name) :: (yes.2 ++ no.2))
  | it, next => (next + 1, (leafProbes it).map fun name => (some next, name))

/-- The checker's traversal as it counts: the next number is carried along. -/
def go : List Item → Nat → Nat × List (Option Nat × String)
  | [], next => (next, [])
  | it :: items, next =>
      let here := goItem it next
      let after := go items here.1
      (after.1, here.2 ++ after.2)

end

mutual

theorem goItem_eq (it : Item) (n : Nat) :
    goItem it n = (n + (leavesOf it).length, observedProbesOf it n) := by
  match it with
  | .par children => exact go_eq children n
  | .repeat_ form var body => exact go_eq body n
  | .when_ guard window onLapse then_ else_ =>
      rw [goItem, go_eq then_ n, go_eq else_, observedProbesOf, leavesOf, leafCount_eq_length,
        List.length_append, Nat.add_assoc]
  | .step _ | .knell _ | .slot _ | .confirm | .commit | .preflight _ | .observe _ _
  | .assert _ _ _ => rfl

theorem go_eq (items : List Item) (n : Nat) :
    go items n = (n + (leaves items).length, observedProbesFrom items n) := by
  match items with
  | [] => rfl
  | it :: items =>
      rw [go, goItem_eq it n, go_eq items, observedProbesFrom, leaves, List.length_append,
        Nat.add_assoc]

end

end ObservedProbes

end Rescind
