/-
# `Rescind.Safety.Unrolled` — the interference query over every execution

The query judges a plan's leaves as they are written: shapes with their loop
variables in braces, pairs in leaf order.  An execution unrolls the plan: every
`when` takes some arm, every `repeat over` runs through some list, and an
application has its variables and its host.

A fact an application writes and its undo needs clashes with a later
application that writes it.  For a plan on which the query reports nothing, no
two applications clash that the query compares.  It leaves out three kinds of
pairs (`LeftOut`), and the plan is undisturbed exactly when none of those
clashes.

The lists and arms of an execution are any there may be.

**Proved here.**

    instances of one shape overlap as the query has it       (`overlapShape_of_instantiate`)
    every application is one of a leaf of the query          (`leaf_of_unrollsAll`)
    the query finds every clash it does not leave out        (`reported_of_clash`)
    so a silent query is as good as its omissions            (`undisturbed_iff`)
-/
import Rescind.Engine.Script
import Rescind.Core.Numbering

namespace Rescind

open Lib

/-! ## Executions -/

/-- One application of a step: its leaf number, its op, and the loop variables
it runs under. -/
structure Application where
  n : Nat
  op : Op
  vars : Vars

/-- One round after another, each with its value. -/
def Rounds (round : String → List Application → Prop) : List String → List Application → Prop
  | [], as => as = []
  | v :: vs, as => ∃ bs cs, round v bs ∧ Rounds round vs cs ∧ as = bs ++ cs

mutual

/-- The applications one item runs, numbered and bound as the walk does: some
arm of every `when`, some list for every `repeat over`. -/
def Unrolls : Item → Nat → Vars → List Application → Prop
  | .step s, n, vars, as => as = [⟨n, s.op, vars⟩]
  | .knell s, n, vars, as => as = [⟨n, s.op, vars⟩]
  | .par children, n, vars, as => UnrollsAll children n vars as
  | .repeat_ (.count k) var body, n, vars, as =>
      Rounds (fun v => UnrollsAll body n (vars.insert var v)) ((List.range k).map toString) as
  | .repeat_ (.over _ _ _) var body, n, vars, as =>
      ∃ values, Rounds (fun v => UnrollsAll body n (vars.insert var v)) values as
  | .when_ _ _ _ then_ else_, n, vars, as =>
      UnrollsAll then_ n vars as ∨ UnrollsAll else_ (n + leafCount then_) vars as
  | .slot _, _, _, as => as = []
  | .confirm, _, _, as => as = []
  | .commit, _, _, as => as = []
  | .preflight _, _, _, as => as = []
  | .observe _ _, _, _, as => as = []
  | .assert _ _ _, _, _, as => as = []

def UnrollsAll : List Item → Nat → Vars → List Application → Prop
  | [], _, _, as => as = []
  | it :: items, n, vars, as =>
      ∃ bs cs, Unrolls it n vars bs ∧
        UnrollsAll items (n + (leavesOf it).length) vars cs ∧ as = bs ++ cs

end

/-- The applications of a whole execution, first to last. -/
def Executes (items : List Item) (as : List Application) : Prop := UnrollsAll items 1 [] as

/-! ## Clashes -/

/-- The host of an application: the one its locus names, or any where it is
bound at runtime. -/
def RunsOn (owner : String) (o : Op) (host : Host) : Prop :=
  match o.locus with
  | .host (.bound _) => True
  | _ => host.name = leafHostText owner o

/-- Every fact an op writes, whether its shape is known or bound at runtime. -/
def allWrites (o : Op) : List Fact := writes o ++ mayWrite o

/-- The environment an application's shapes are instantiated in. -/
def Application.env (a : Application) (params outputs : Vars) : Env :=
  { params, outputs, controller := a.vars }

/-- On one host, a fact `f` that the undo of `a` needs, a fact `g` that `a`
writes and a fact `h` that `b` writes come to be one. -/
structure Clash (owner : String) (params : Vars) (a b : Application) (f g h : Fact) : Prop where
  need : f ∈ needs a.op
  own : g ∈ allWrites a.op
  other : h ∈ allWrites b.op
  ownAnchor : anchorsMeet f.anchor g.anchor = true
  otherAnchor : anchorsMeet f.anchor h.anchor = true
  sameAnchor : anchorsMeet g.anchor h.anchor = true
  same : ∃ host outputs outputs' shape, RunsOn owner a.op host ∧ RunsOn owner b.op host ∧
    instantiate f.shape host (a.env params outputs) = .ok shape ∧
    instantiate g.shape host (a.env params outputs) = .ok shape ∧
    instantiate h.shape host (b.env params outputs') = .ok shape

mutual

/-- The `par`s of a plan, each with the number of its first leaf. -/
def parsAt : List Item → Nat → List (List Item × Nat)
  | [], _ => []
  | it :: items, n => parsIn it n ++ parsAt items (n + (leavesOf it).length)

def parsIn : Item → Nat → List (List Item × Nat)
  | .par children, n => (children, n) :: parsAt children n
  | .repeat_ _ _ body, n => parsAt body n
  | .when_ _ _ _ then_ else_, n => parsAt then_ n ++ parsAt else_ (n + leafCount then_)
  | _, _ => []

end

/-- The numbers of the leaves of each child of a `par`: from one number up to
another. -/
def childRanges : List Item → Nat → List (Nat × Nat)
  | [], _ => []
  | c :: cs, n => (n, n + (leavesOf c).length) :: childRanges cs (n + (leavesOf c).length)

/-- Two leaves are in different children of one `par`. -/
def ParApart (items : List Item) (m n : Nat) : Prop :=
  ∃ p ∈ parsAt items 1, ∃ r ∈ laterPairs (childRanges p.1 p.2),
    (r.1.1 ≤ m ∧ m < r.1.2 ∧ r.2.1 ≤ n ∧ n < r.2.2) ∨ (r.1.1 ≤ n ∧ n < r.1.2 ∧ r.2.1 ≤ m ∧ m < r.2.2)

/-- What the query leaves out: an application of a later leaf before one of an
earlier leaf; two leaves under the same loop variables and a fact indexed by one
of them; a fact `undo_pre` names that is written under another name, where
nothing is bound at runtime. -/
def LeftOut (x y : Leaf) (f g h : Fact) : Prop :=
  y.n < x.n ∨ (sameLoop x.vars y.vars = true ∧ indexedBy x.vars f = true) ∨
    (g ∉ needs x.op ∧ runtimeBound g.shape = false ∧ runtimeBound h.shape = false ∧
      runtimeBound x.host = false ∧ runtimeBound y.host = false)

/-- In no execution do two applications of different leaves, not in different
children of one `par`, clash in facts that `Q` says are looked at. -/
def FreeOf (Q : Leaf → Leaf → Fact → Fact → Fact → Prop) (owner : String) (items : List Item) :
    Prop :=
  ∀ params as a b, Executes items as → [a, b].Sublist as → a.n ≠ b.n → ¬ParApart items a.n b.n →
    ∀ x ∈ stepFacts owner items, ∀ y ∈ stepFacts owner items, x.n = a.n → y.n = b.n →
      ∀ f g h, Q x y f g h → ¬Clash owner params a b f g h

/-- No later application writes what an earlier one wrote and needs. -/
def Undisturbed (owner : String) (items : List Item) : Prop :=
  ∀ params as a b, Executes items as → [a, b].Sublist as → a.n ≠ b.n → ¬ParApart items a.n b.n →
    ∀ f g h, ¬Clash owner params a b f g h

/-- The query reports nothing. -/
structure Silent (owner : String) (items : List Item) : Prop where
  conflict : conflict owner items = []
  mayConflict : mayConflict owner items = []
  par : parViolations owner items = ([], [])

/-! ## Shapes -/

theorem Text.dropPrefix_isSome {p xs : List Char} :
    (Text.dropPrefix p xs).isSome = true ↔ p <+: xs := by
  induction p generalizing xs with
  | nil => simp [Text.dropPrefix]
  | cons c p ih =>
      cases xs with
      | nil => simp [Text.dropPrefix]
      | cons x xs =>
          unfold Text.dropPrefix
          by_cases hc : c = x
          · rw [if_pos hc, ih, List.cons_prefix_cons]
            exact ⟨fun h => ⟨hc, h⟩, fun h => h.2⟩
          · rw [if_neg hc, List.cons_prefix_cons]
            exact ⟨nofun, fun h => absurd h.1 hc⟩

theorem Text.cut_fst {c : Char} {xs lit after : List Char} (h : Text.cut c xs = some (lit, after)) :
    lit = xs.takeWhile (· ≠ c) := by
  induction xs generalizing lit with
  | nil => cases h
  | cons x xs ih =>
      unfold Text.cut at h
      by_cases hx : x = c
      · rw [if_pos hx] at h
        cases h
        simp [hx]
      · rw [if_neg hx, Option.map_eq_some_iff] at h
        obtain ⟨p, hp, he⟩ := h
        cases he
        rw [List.takeWhile_cons_of_pos (by simpa using hx), ih hp]

theorem takeWhile_prefix_instantiateFrom {host : Host} {env : Env} {fuel : Nat}
    {xs r : List Char} (h : instantiateFrom host env fuel xs = .ok r) :
    xs.takeWhile (· ≠ '\x7b') <+: r := by
  have self : ∀ {r}, (Except.ok xs : Except String (List Char)) = .ok r →
      xs.takeWhile (· ≠ '\x7b') <+: r := by
    rintro _ ⟨⟩
    exact List.takeWhile_prefix _
  cases fuel with
  | zero => exact self h
  | succ fuel =>
      unfold instantiateFrom at h
      split at h
      · exact self h
      next lit after hcut =>
        split at h
        · exact self h
        next rest _ =>
          split at h
          · cases h
          · rw [← Text.cut_fst hcut]
            match hr : instantiateFrom host env fuel rest with
            | .error e => rw [hr] at h; cases h
            | .ok r' =>
                rw [hr] at h
                cases h
                show lit <+: lit ++ _ ++ r'
                rw [List.append_assoc]
                exact List.prefix_append _ _

theorem staticPart_starts {s c : String} {host : Host} {env : Env}
    (h : instantiate s host env = .ok c) : staticPart s <+: c.toList := by
  unfold instantiate at h
  split at h
  · cases h
    exact List.takeWhile_prefix _
  · match hr : instantiateFrom host env s.length s.toList with
    | .error e => rw [hr] at h; cases h
    | .ok r =>
        rw [hr] at h
        cases h
        rw [String.toList_ofList]
        exact takeWhile_prefix_instantiateFrom hr

/-- Shapes with an instance in common overlap. -/
theorem overlapShape_of_instantiate {s t c : String} {host host' : Host} {env env' : Env}
    (hs : instantiate s host env = .ok c) (ht : instantiate t host' env' = .ok c) :
    overlapShape s t = true := by
  unfold overlapShape
  split
  next h =>
    rw [Bool.and_eq_true, Bool.not_eq_true', Bool.not_eq_true'] at h
    rw [instantiate_of_static h.1] at hs
    rw [instantiate_of_static h.2] at ht
    cases hs
    cases ht
    exact decide_eq_true rfl
  · rw [Bool.or_eq_true, Text.dropPrefix_isSome, Text.dropPrefix_isSome]
    rcases List.prefix_or_prefix_of_prefix (staticPart_starts hs) (staticPart_starts ht) with h | h
    · exact .inl (h.trans ( List.takeWhile_prefix _))
    · exact .inr (h.trans ( List.takeWhile_prefix _))

/-! ## Leaves -/

theorem leaf_of_rounds {round : String → List Application → Prop} {P : Application → Prop}
    (h : ∀ v bs, round v bs → ∀ a ∈ bs, P a) {vs : List String} {as : List Application}
    (hr : Rounds round vs as) : ∀ a ∈ as, P a := by
  induction vs generalizing as with
  | nil =>
      rw [Rounds] at hr
      rw [hr]
      exact fun _ ha => absurd ha List.not_mem_nil
  | cons v vs ih =>
      rw [Rounds] at hr
      obtain ⟨bs, cs, hb, hc, rfl⟩ := hr
      intro a ha
      rcases List.mem_append.mp ha with ha | ha
      · exact h v bs hb a ha
      · exact ih hc a ha

mutual

theorem leaf_of_unrolls (owner : String) (names : List String) (it : Item) (n : Nat) (vars : Vars)
    (as : List Application) (h : Unrolls it n vars as) :
    ∀ a ∈ as, ∃ l ∈ stepFactsOf owner names it n, l.n = a.n ∧ l.op = a.op := by
  match it with
  | .step s | .knell s =>
      rw [Unrolls] at h
      subst h
      intro a ha
      rw [List.mem_singleton.mp ha]
      exact ⟨_, List.mem_singleton_self _, rfl, rfl⟩
  | .par children =>
      rw [Unrolls] at h
      rw [stepFactsOf]
      exact leaf_of_unrollsAll owner names children n vars as h
  | .repeat_ (.count k) var body =>
      rw [Unrolls] at h
      rw [stepFactsOf]
      exact leaf_of_rounds (fun v bs hb => leaf_of_unrollsAll owner names body n _ bs hb) h
  | .repeat_ (.over list max sv) var body =>
      rw [Unrolls] at h
      rw [stepFactsOf]
      obtain ⟨values, h⟩ := h
      exact leaf_of_rounds (fun v bs hb => leaf_of_unrollsAll owner (var :: names) body n _ bs hb) h
  | .when_ g w l then_ else_ =>
      rw [Unrolls] at h
      rw [stepFactsOf]
      intro a ha
      rcases h with h | h
      · obtain ⟨l, hl, he⟩ := leaf_of_unrollsAll owner names then_ n vars as h a ha
        exact ⟨l, List.mem_append_left _ hl, he⟩
      · obtain ⟨l, hl, he⟩ := leaf_of_unrollsAll owner names else_ _ vars as h a ha
        exact ⟨l, List.mem_append_right _ hl, he⟩
  | .slot _ | .confirm | .commit | .preflight _ | .observe _ _ | .assert _ _ _ =>
      rw [Unrolls] at h
      subst h
      exact fun _ ha => absurd ha List.not_mem_nil

theorem leaf_of_unrollsAll (owner : String) (names : List String) (items : List Item) (n : Nat)
    (vars : Vars) (as : List Application) (h : UnrollsAll items n vars as) :
    ∀ a ∈ as, ∃ l ∈ stepFactsFrom owner names items n, l.n = a.n ∧ l.op = a.op := by
  match items with
  | [] =>
      rw [UnrollsAll] at h
      subst h
      exact fun _ ha => absurd ha List.not_mem_nil
  | it :: items =>
      rw [UnrollsAll] at h
      rw [stepFactsFrom]
      obtain ⟨bs, cs, hb, hc, rfl⟩ := h
      intro a ha
      rcases List.mem_append.mp ha with ha | ha
      · obtain ⟨l, hl, he⟩ := leaf_of_unrolls owner names it n vars bs hb a ha
        exact ⟨l, List.mem_append_left _ hl, he⟩
      · obtain ⟨l, hl, he⟩ := leaf_of_unrollsAll owner names items _ vars cs hc a ha
        exact ⟨l, List.mem_append_right _ hl, he⟩

end

/-- The leaves of a stretch of a plan, in order of number, all within it, each
on the host of its op. -/
structure Ascending (owner : String) (ls : List Leaf) (start stop : Nat) : Prop where
  within : ∀ l ∈ ls, start ≤ l.n ∧ l.n < stop
  sorted : ls.Pairwise fun x y => x.n < y.n
  hosts : ∀ l ∈ ls, l.host = leafHostText owner l.op

section
variable {owner : String}

theorem Ascending.append {xs ys : List Leaf} {i j k : Nat} (hx : Ascending owner xs i j)
    (hy : Ascending owner ys j k) (hij : i ≤ j) (hjk : j ≤ k) : Ascending owner (xs ++ ys) i k := by
  refine ⟨fun l hl => ?_, List.pairwise_append.mpr ⟨hx.sorted, hy.sorted, fun x hxm y hym => ?_⟩,
    fun l hl => (List.mem_append.mp hl).elim (hx.hosts l) (hy.hosts l)⟩
  · rcases List.mem_append.mp hl with hl | hl
    · have := hx.within l hl
      omega
    · have := hy.within l hl
      omega
  · have := hx.within x hxm
    have := hy.within y hym
    omega

theorem Ascending.single {l : Leaf} (h : l.host = leafHostText owner l.op) :
    Ascending owner [l] l.n (l.n + 1) :=
  ⟨fun x hx => by rw [List.mem_singleton.mp hx]; omega, List.pairwise_singleton _ _,
    fun x hx => by rw [List.mem_singleton.mp hx]; exact h⟩

theorem Ascending.nil (i j : Nat) : Ascending owner [] i j :=
  ⟨fun _ hl => absurd hl List.not_mem_nil, List.Pairwise.nil,
    fun _ hl => absurd hl List.not_mem_nil⟩

end

mutual

theorem ascending_stepFactsOf (owner : String) (vars : List String) (it : Item) (n : Nat) :
    Ascending owner (stepFactsOf owner vars it n) n (n + (leavesOf it).length) := by
  match it with
  | .step s | .knell s => exact .single rfl
  | .par children =>
      rw [stepFactsOf, leavesOf]
      exact ascending_stepFactsFrom owner vars children n
  | .repeat_ (.count k) var body =>
      rw [stepFactsOf, leavesOf]
      exact ascending_stepFactsFrom owner vars body n
  | .repeat_ (.over list max sv) var body =>
      rw [stepFactsOf, leavesOf]
      exact ascending_stepFactsFrom owner (var :: vars) body n
  | .when_ g w l then_ else_ =>
      rw [stepFactsOf, leavesOf, leafCount_eq_length, List.length_append, ← Nat.add_assoc]
      exact (ascending_stepFactsFrom owner vars then_ n).append
        (ascending_stepFactsFrom owner vars else_ _) (Nat.le_add_right _ _) (Nat.le_add_right _ _)
  | .slot _ | .confirm | .commit | .preflight _ | .observe _ _ | .assert _ _ _ => exact .nil _ _

theorem ascending_stepFactsFrom (owner : String) (vars : List String) (items : List Item) (n : Nat) :
    Ascending owner (stepFactsFrom owner vars items n) n (n + (leaves items).length) := by
  match items with
  | [] => exact .nil _ _
  | it :: items =>
      rw [stepFactsFrom, leaves, List.length_append, ← Nat.add_assoc]
      exact (ascending_stepFactsOf owner vars it n).append
        (ascending_stepFactsFrom owner vars items _) (Nat.le_add_right _ _) (Nat.le_add_right _ _)

end

theorem mem_laterPairs {α : Type} {x y : α} {xs : List α} :
    (x, y) ∈ laterPairs xs ↔ [x, y].Sublist xs := by
  induction xs with
  | nil => simp [laterPairs]
  | cons z zs ih =>
      rw [laterPairs, List.mem_append, ih, List.mem_map]
      constructor
      · rintro (⟨w, hw, he⟩ | h)
        · cases he
          exact (List.singleton_sublist.mpr hw).cons_cons _
        · exact h.cons _
      · intro h
        cases h with
        | cons _ h => exact .inr h
        | cons_cons _ h => exact .inl ⟨y, List.singleton_sublist.mp h, rfl⟩

/-- Two leaves of a plan, the one with the smaller number first. -/
theorem sublist_of_lt {ls : List Leaf} {x y : Leaf} (hs : ls.Pairwise fun x y => x.n < y.n)
    (hx : x ∈ ls) (hy : y ∈ ls) (hlt : x.n < y.n) : [x, y].Sublist ls := by
  induction ls with
  | nil => cases hx
  | cons z zs ih =>
      rw [List.pairwise_cons] at hs
      rcases List.mem_cons.mp hx with rfl | hxz
      · rcases List.mem_cons.mp hy with rfl | hyz
        · omega
        · exact (List.singleton_sublist.mpr hyz).cons_cons _
      · rcases List.mem_cons.mp hy with rfl | hyz
        · have := hs.1 x hxz
          omega
        · exact (ih hs.2 hxz hyz).cons _

/-! ## Siblings -/

theorem traverses_parsAt : Traverses (β := Unit)
    (fun p => match p.2 with
      | .par children => [(children, p.1)]
      | _ => [])
    (fun _ it n => parsIn it n) (fun _ its n => parsAt its n) where
  nil _ _ := rfl
  cons _ it its n := by rw [parsAt]
  par _ children n := by rw [parsIn]; rfl
  repeat_ _ form var body n := ⟨(), by rw [parsIn]; rfl⟩
  when_ _ guard window onLapse then_ else_ n := by rw [parsIn]; rfl
  leaf _ it n hl := by
    cases it with
    | par | repeat_ | when_ => cases hl
    | _ => rfl

theorem mem_parsAt {items cs : List Item} {n : Nat} (h : (n, .par cs) ∈ places items) :
    (cs, n) ∈ parsAt items 1 := by
  rw [traverses_parsAt.eq () items 1]
  exact List.mem_flatMap.mpr ⟨_, h, List.mem_cons_self⟩

theorem childRanges_eq (cs : List Item) (n : Nat) :
    childRanges cs n = (childrenAt cs n).map fun c => (c.1, c.1 + (leavesOf c.2).length) := by
  induction cs generalizing n with
  | nil => rfl
  | cons c cs ih => rw [childRanges, childrenAt, List.map_cons, ih]

/-- What the query takes for siblings is in different children of one `par`. -/
theorem parApart_of_siblings {owner : String} {items : List Item} {m n : Nat}
    (h : (m, n) ∈ parSiblings owner items) : ParApart items m n := by
  obtain ⟨k, cs, hp, c, d, hcd, ⟨o, hc⟩, o', hd⟩ := (mem_parSiblings owner items m n).mp h
  refine ⟨(cs, k), mem_parsAt hp, ((c.1, c.1 + (leavesOf c.2).length),
    (d.1, d.1 + (leavesOf d.2).length)), ?_, .inl ?_⟩
  · rw [childRanges_eq, laterPairs_map]
    exact List.mem_map_of_mem hcd
  · obtain ⟨x, hx, -⟩ := mem_opsOf.mp hc
    obtain ⟨y, hy, -⟩ := mem_opsOf.mp hd
    exact ⟨(bounds_of_mem hx).1, (bounds_of_mem hx).2, (bounds_of_mem hy).1, (bounds_of_mem hy).2⟩

/-! ## The query -/

theorem mem_allWrites {o : Op} {f : Fact} :
    f ∈ allWrites o ↔ (f ∈ writes o ∧ runtimeBound f.shape = false) ∨
      (f ∈ mayWrite o ∧ runtimeBound f.shape = true) := by
  unfold allWrites
  rw [List.mem_append]
  refine or_congr ?_ ?_
  · refine ⟨fun h => ⟨h, ?_⟩, fun h => h.1⟩
    obtain ⟨e, he, rfl⟩ := List.mem_map.mp h
    have := (List.mem_filter.mp he).2
    rw [Bool.and_eq_true, Bool.not_eq_true'] at this
    exact this.2
  · refine ⟨fun h => ⟨h, ?_⟩, fun h => h.1⟩
    obtain ⟨e, he, rfl⟩ := List.mem_map.mp h
    have := (List.mem_filter.mp he).2
    rw [Bool.and_eq_true] at this
    exact this.2

theorem Text.mem_of_cutAt {c : Char} {p xs : List Char}
    (h : (Text.cutAt (c :: p) xs).isSome = true) : c ∈ xs := by
  induction xs with
  | nil => cases h
  | cons x xs ih =>
      unfold Text.cutAt at h
      split at h
      next hd =>
        have := (List.cons_prefix_cons.mp (Text.dropPrefix_isSome.mp hd)).1
        exact this ▸ List.mem_cons_self
      · rw [Option.isSome_map] at h
        exact List.mem_cons_of_mem _ (ih h)

theorem indexedBy_of_static {vars : List String} {f : Fact} (h : runtimeBound f.shape = false) :
    indexedBy vars f = false := by
  refine List.any_eq_false.mpr fun v _ hs => ?_
  have hm : '\x7b' ∈ f.shape.toList := Text.mem_of_cutAt (p := v.toList ++ ['\x7d']) (by simpa using hs)
  unfold runtimeBound at h
  rw [List.contains_eq_mem, decide_eq_false_iff_not] at h
  exact h hm

/-- Hosts of applications that meet overlap. -/
theorem overlapHost_of_runsOn {owner : String} {o o' : Op} {host : Host} (h : RunsOn owner o host)
    (h' : RunsOn owner o' host) : overlapHost (leafHostText owner o) (leafHostText owner o') = true := by
  have bound : ∀ b : String, runtimeBound ("\x7b" ++ b ++ "\x7d") = true := by
    intro b
    simp [runtimeBound]
  unfold overlapHost
  by_cases hb : ∃ b, o.locus = .host (.bound b)
  · obtain ⟨b, hb⟩ := hb
    rw [show leafHostText owner o = "\x7b" ++ b ++ "\x7d" by rw [leafHostText, hb], bound]
    simp
  · by_cases hb' : ∃ b, o'.locus = .host (.bound b)
    · obtain ⟨b, hb'⟩ := hb'
      rw [show leafHostText owner o' = "\x7b" ++ b ++ "\x7d" by rw [leafHostText, hb'], bound]
      simp
    · have named : ∀ {o : Op}, RunsOn owner o host → (¬∃ b, o.locus = .host (.bound b)) →
          host.name = leafHostText owner o := by
        intro o h hn
        unfold RunsOn at h
        split at h
        next b hl => exact absurd ⟨b, hl⟩ hn
        · exact h
      rw [← named h hb, ← named h' hb']
      simp

theorem mem_orderedPairs {ls : List Leaf} {sib : List (Nat × Nat)} {x y : Leaf}
    (hl : [x, y].Sublist ls) (hlt : x.n < y.n) (hs : (x.n, y.n) ∉ sib) :
    (x, y) ∈ orderedPairs ls sib := by
  refine List.mem_filter.mpr ⟨mem_laterPairs.mpr hl, ?_⟩
  simp only [Bool.and_eq_true, decide_eq_true_eq, Bool.not_eq_true']
  exact ⟨hlt, by simpa using hs⟩

theorem touches_of_same {f g : Fact} {host : Host} {env env' : Env} {shape : String}
    (hf : instantiate f.shape host env = .ok shape) (hg : instantiate g.shape host env' = .ok shape)
    (ha : anchorsMeet f.anchor g.anchor = true) : f.touches g = true := by
  rw [Fact.touches, overlapShape_of_instantiate hf hg, ha]
  rfl

/-- The query finds a clash it does not leave out. -/
theorem reported_of_clash {owner : String} {items : List Item} {params : Vars}
    {a b : Application} {x y : Leaf} {f g h : Fact} (hp : (x, y) ∈ orderedPairs (stepFacts owner items)
      (parSiblings owner items)) (hx : x ∈ stepFacts owner items) (hy : y ∈ stepFacts owner items)
    (hxa : x.op = a.op) (hyb : y.op = b.op) (hc : Clash owner params a b f g h)
    (hno : ¬LeftOut x y f g h) : conflict owner items ≠ [] ∨ mayConflict owner items ≠ [] := by
  have hleaves := ascending_stepFactsFrom owner [] items 1
  obtain ⟨host, outs, outs', shape, hra, hrb, hf, hg, hh⟩ := hc.same
  have hhost : overlapHost x.host y.host = true := by
    rw [hleaves.hosts x hx, hleaves.hosts y hy, hxa, hyb]
    exact overlapHost_of_runsOn hra hrb
  have hneed : f ∈ needs x.op := hxa ▸ hc.need
  have hown : g ∈ allWrites x.op := hxa ▸ hc.own
  have hother : h ∈ allWrites y.op := hyb ▸ hc.other
  unfold LeftOut at hno
  simp only [not_or] at hno
  obtain ⟨-, hloop, hexact⟩ := hno
  by_cases hst : runtimeBound g.shape = false ∧ runtimeBound h.shape = false ∧
      runtimeBound x.host = false ∧ runtimeBound y.host = false
  · left
    obtain ⟨hgs, hhs, hxs, hys⟩ := hst
    have hgn : g ∈ needs x.op := by
      by_contra hn
      exact hexact ⟨hn, hgs, hhs, hxs, hys⟩
    have hgw : g ∈ writes x.op := by
      rcases mem_allWrites.mp hown with hw | hw
      · exact hw.1
      · exact absurd (hw.2.symm.trans hgs) nofun
    have hhw : h ∈ writes y.op := by
      rcases mem_allWrites.mp hother with hw | hw
      · exact hw.1
      · exact absurd (hw.2.symm.trans hhs) nofun
    have hsame : x.host = y.host := by
      unfold overlapHost at hhost
      rw [hxs, hys, Bool.or_false, Bool.or_false, decide_eq_true_eq] at hhost
      exact hhost
    refine List.ne_nil_of_mem (a := ⟨x.n, y.n, g⟩) ?_
    unfold conflict
    rw [mem_nub, List.mem_flatMap]
    refine ⟨(x, y), hp, ?_⟩
    dsimp only
    rw [if_neg (by simp [hys, hsame]), List.mem_flatMap]
    refine ⟨g, List.mem_filter.mpr ⟨hgw, by simpa using hgn⟩, ?_⟩
    refine List.mem_map.mpr ⟨h, List.mem_filter.mpr ⟨hhw, ?_⟩, rfl⟩
    rw [touches_of_same hg hh hc.sameAnchor, indexedBy_of_static hgs]
    simp
  · right
    refine List.ne_nil_of_mem (a := ⟨x.n, y.n, f⟩) ?_
    unfold mayConflict
    rw [mem_nub, List.mem_flatMap]
    refine ⟨(x, y), hp, ?_⟩
    dsimp only
    rw [if_neg (by simp [hhost]), List.mem_flatMap]
    refine ⟨f, hneed, List.mem_flatMap.mpr ⟨g, List.mem_filter.mpr ⟨?_, ?_⟩, ?_⟩⟩
    · exact List.mem_append.mpr (List.mem_append.mp hown).symm
    · exact touches_of_same hf hg hc.ownAnchor
    · refine List.mem_map.mpr ⟨h, List.mem_filter.mpr ⟨?_, ?_⟩, rfl⟩
      · exact List.mem_append.mpr (List.mem_append.mp hother).symm
      · have hpen : (mayWrite y.op).contains h = true ∨ (mayWrite x.op).contains g = true ∨
            runtimeBound x.host = true ∨ runtimeBound y.host = true := by
          by_contra hn
          simp only [not_or, Bool.not_eq_true, List.contains_eq_mem, decide_eq_false_iff_not] at hn
          refine hst ⟨?_, ?_, hn.2.2.1, hn.2.2.2⟩
          · exact (mem_allWrites.mp hown).elim (fun h => h.2) fun h => absurd h.1 hn.2.1
          · exact (mem_allWrites.mp hother).elim (fun h => h.2) fun h => absurd h.1 hn.1
        have hprune : (sameLoop x.vars y.vars && indexedBy x.vars f) = false := by
          rw [Bool.and_eq_false_iff]
          by_contra hn
          simp only [not_or, Bool.not_eq_false] at hn
          exact hloop hn
        rw [touches_of_same hf hh hc.otherAnchor, hprune]
        simpa [or_assoc] using hpen

/-- **The query is complete up to what it leaves out.**  On a plan on which the
query reports nothing, no later application writes what an earlier one wrote
and needs, if and only if none does among the pairs the query leaves out. -/
theorem undisturbed_iff {owner : String} {items : List Item} (hq : Silent owner items) :
    Undisturbed owner items ↔ FreeOf LeftOut owner items := by
  constructor
  · exact fun h params as a b he hs hne hpar _ _ _ _ _ _ f g h' _ => h params as a b he hs hne hpar f g h'
  · intro hfree params as a b he hs hne hpar f g h hc
    have hleaves := ascending_stepFactsFrom owner [] items 1
    have hmem : a ∈ as ∧ b ∈ as := ⟨hs.subset (by simp), hs.subset (by simp)⟩
    obtain ⟨x, hx, hxn, hxo⟩ := leaf_of_unrollsAll owner [] items 1 [] as he a hmem.1
    obtain ⟨y, hy, hyn, hyo⟩ := leaf_of_unrollsAll owner [] items 1 [] as he b hmem.2
    by_cases hl : LeftOut x y f g h
    · exact hfree params as a b he hs hne hpar x hx y hy hxn hyn f g h hl hc
    · have hlt : x.n < y.n := by
        have : ¬y.n < x.n := fun h => hl (.inl h)
        omega
      have hsib : (x.n, y.n) ∉ parSiblings owner items := by
        rw [hxn, hyn]
        exact fun h => hpar (parApart_of_siblings h)
      have hpair := mem_orderedPairs (sublist_of_lt hleaves.sorted hx hy hlt) hlt hsib
      rcases reported_of_clash hpair hx hy hxo hyo hc hl with h | h
      · exact h hq.conflict
      · exact h hq.mayConflict

/-! ## Two steps of one round -/

namespace OneRound

/-- A step that modifies one file. -/
def modifyFile (shape : String) : Item :=
  .step { op := {
    id := "edit"
    footprint := [{ kind := .modified, shape }]
    do_ := [.write ⟨shape, none⟩ (.lit "x")] } }

/-- Two steps modify the file of each round. -/
def body : List Item :=
  [.repeat_ (.over "names" 8 true) "v"
    [modifyFile "file:/etc/\x7bv\x7d", modifyFile "file:/etc/\x7bv\x7d"]]

def edit : Op :=
  { id := "edit"
    footprint := [{ kind := .modified, shape := "file:/etc/\x7bv\x7d" }]
    do_ := [.write ⟨"file:/etc/\x7bv\x7d", none⟩ (.lit "x")] }

def file : Fact := ⟨"file:/etc/\x7bv\x7d", none⟩

/-- The two applications of the round `motd`. -/
def first : Application := ⟨1, edit, [("v", "motd")]⟩

def second : Application := ⟨2, edit, [("v", "motd")]⟩

theorem silent : Silent "web" body := ⟨by decide +kernel, by decide +kernel, by decide +kernel⟩

theorem executes : Executes body [first, second] := by
  unfold Executes body
  simp only [UnrollsAll, Unrolls, modifyFile]
  refine ⟨[first, second], [], ⟨["motd"], ?_⟩, rfl, rfl⟩
  rw [Rounds]
  refine ⟨[first, second], [], ?_, rfl, rfl⟩
  exact ⟨[first], [second], rfl, ⟨[second], [], rfl, rfl, rfl⟩, rfl⟩

theorem clash : Clash "web" [] first second file file file where
  need := by decide
  own := by decide
  other := by decide
  ownAnchor := rfl
  otherAnchor := rfl
  sameAnchor := rfl
  same := ⟨smallHost "web", [], [], "file:/etc/motd", rfl, rfl, by decide +kernel, by decide +kernel,
    by decide +kernel⟩

/-- The query reports nothing, and the second step of a round overwrites what
the first wrote and restores from. -/
theorem disturbed : Silent "web" body ∧ ¬Undisturbed "web" body := by
  refine ⟨silent, fun h => h [] _ first second executes (List.Sublist.refl _) nofun ?_ _ _ _ clash⟩
  rintro ⟨p, hp, -⟩
  rw [show parsAt body 1 = [] from rfl] at hp
  cases hp

/-- Two steps modify two files of each round, and one more after the loop a third. -/
def apart : List Item :=
  [.repeat_ (.over "names" 8 true) "v"
    [modifyFile "file:/etc/\x7bv\x7d", modifyFile "file:/srv/\x7bv\x7d"], modifyFile "file:/run/motd"]

theorem apart_iff : Silent "web" apart ∧ (Undisturbed "web" apart ↔ FreeOf LeftOut "web" apart) :=
  have hs : Silent "web" apart := ⟨by decide +kernel, by decide +kernel, by decide +kernel⟩
  ⟨hs, undisturbed_iff hs⟩

end OneRound

end Rescind
