/-
# `Rescind.Safety.Visits` — where a walk comes to its leaves

A visit of the walk is an application of a leaf and the way to it: which item of a
list, which round of a repeat, which arm of a `when`.  A walk's visits go up to where
it stops.

**Proved here.**

    the walk runs leaves at its visits only            (`walkItems_of_visits`)
    a visit is at a place of the plan                  (`reaches_visitItems`)
    and numbered there                                 (`step_of_reachesItems`)

Whether the walk skips what it comes to is not asked here.
-/
import Rescind.Safety.Numbering

namespace Rescind

open Lib

variable {σ : Type} (E : Setting σ)

/-! ## The visits of a walk -/

/-- One round of a repeat: the variable it binds, which round, and the element. -/
structure Lap where
  var : String
  round : Nat
  value : String
  deriving DecidableEq

/-- One step of the way to a leaf. -/
inductive Fork where
  | item (i : Nat)
  | lap (t : Lap)
  | arm (then_ : Bool)
  deriving DecidableEq

/-- The way to a leaf, and the application it is. -/
structure Visit where
  path : List Fork
  app : AppliedStep
  deriving DecidableEq

def Visit.under (f : Fork) (a : Visit) : Visit := { a with path := f :: a.path }

@[simp] theorem Visit.app_under (f : Fork) (a : Visit) : (a.under f).app = a.app := rfl

/-- The visits of a loop's rounds, up to the last that is run. -/
def visitRounds (var : String) (visits : Nat → String → World σ → List Visit)
    (f : Nat → String → Eng σ Flow) : List String → Nat → World σ → List Visit
  | [], _, _ => []
  | x :: xs, i, w =>
      (visits i x w).map (Visit.under (.lap ⟨var, i, x⟩)) ++
        match f i x w with
        | (.ok .continue_, w) => visitRounds var visits f xs (i + 1) w
        | _ => []

mutual

/-- The visits of the walk of one item. -/
def visitItem : Item → Nat → Nat → Vars → World σ → List Visit
  | .par children, iteration, leaf, vars, w => visitItems children 0 iteration leaf vars w
  | .repeat_ form var body, _, leaf, vars, w =>
      match repeatValues E form leaf vars w with
      | (.ok values, w) =>
          visitRounds var (fun i x => visitItems body 0 i leaf (vars.insert var x))
            (fun i x => do
              let ended ← walkItems E body i leaf (vars.insert var x)
              pure ended.1) values 0 w
      | _ => []
  | .when_ guard _ _ then_ else_, iteration, leaf, vars, w =>
      match chooseArm E guard leaf iteration vars w with
      | (.ok (some true), w) =>
          (visitItems then_ 0 iteration leaf vars w).map (Visit.under (.arm true))
      | (.ok (some false), w) =>
          (visitItems else_ 0 iteration (leaf + leafCount then_) vars w).map
            (Visit.under (.arm false))
      | _ => []
  | _, iteration, leaf, vars, _ => [⟨[], ⟨leaf, iteration, vars⟩⟩]

/-- The visits of the walk of a list, from its item with a number on: those of an
item, and if the walk goes on those of the rest. -/
def visitItems : List Item → Nat → Nat → Nat → Vars → World σ → List Visit
  | [], _, _, _, _, _ => []
  | it :: items, i, iteration, leaf, vars, w =>
      (visitItem it iteration leaf vars w).map (Visit.under (.item i)) ++
        match walkItem E it iteration leaf vars w with
        | (.ok (.continue_, leaf), w) => visitItems items (i + 1) iteration leaf vars w
        | _ => []

end

/-- The visits of a walk of a plan. -/
def visits (items : List Item) (w : World σ) : List Visit := visitItems E items 0 0 1 [] w

/-! ## The walk runs leaves at its visits -/

section
variable {E} {v : Walker σ}

/-- A walker that does what the engine does at some visits, and chooses as it
does everywhere. -/
structure AgreesAt (E : Setting σ) (v : Walker σ) (as : List Visit) : Prop where
  leaf {a : Visit} : a ∈ as → ∀ it, v.leaf it a.app = walkLeaf E it a.app
  choose : v.choose = chooseArm E
  values : v.values = repeatValues E

theorem AgreesAt.mono {as bs : List Visit} (h : AgreesAt E v as) (hs : ∀ b ∈ bs, b ∈ as) :
    AgreesAt E v bs := ⟨fun hb => h.leaf (hs _ hb), h.choose, h.values⟩

theorem AgreesAt.under {as : List Visit} {f : Fork} (h : AgreesAt E v (as.map (Visit.under f))) :
    AgreesAt E v as :=
  ⟨fun ha it => h.leaf (List.mem_map_of_mem ha) it, h.choose, h.values⟩

open Lib.Prog

theorem repeatLoop_of_visits {var : String} {seen : Nat → String → World σ → List Visit}
    {f g : Nat → String → Eng σ Flow} (hfg : ∀ i x w, AgreesAt E v (seen i x w) → g i x w = f i x w)
    (xs : List String) (i : Nat) (w : World σ) (h : AgreesAt E v (visitRounds var seen f xs i w)) :
    repeatLoop g xs i w = repeatLoop f xs i w := by
  induction xs generalizing i w with
  | nil => rfl
  | cons x xs ih =>
      rw [visitRounds] at h
      have hx : g i x w = f i x w := hfg i x w
        (h.mono fun _ hb => List.mem_append_left _ hb).under
      rw [repeatLoop, repeatLoop, bind_eq, bind_eq, hx]
      rcases hf : f i x w with ⟨flow | e | _, w'⟩
      · cases flow with
        | stop => rfl
        | continue_ =>
            rw [hf] at h
            exact ih (i + 1) w' (h.mono fun _ hb => List.mem_append_right _ hb)
      · rfl
      · rfl

mutual

theorem walkItem_of_visits (it : Item) (iteration leaf : Nat) (vars : Vars) (w : World σ)
    (h : AgreesAt E v (visitItem E it iteration leaf vars w)) :
    walkItemBy v it iteration leaf vars w = walkItem E it iteration leaf vars w := by
  have atLeaf : ∀ it, AgreesAt E v [⟨[], ⟨leaf, iteration, vars⟩⟩] →
      v.pass it ⟨leaf, iteration, vars⟩ w = walkLeaf E it ⟨leaf, iteration, vars⟩ w := by
    intro it h
    rw [Walker.pass, h.leaf (List.mem_singleton_self _) it]
    exact congrFun (pass_walker E it _) w
  match it with
  | .par children =>
      rw [walkItemBy, walkItem]
      exact walkItems_of_visits children 0 iteration leaf vars w h
  | .repeat_ form var body =>
      rw [walkItemBy, walkItem, h.values, bind_eq, bind_eq]
      rw [visitItem] at h
      rcases hr : repeatValues E form leaf vars w with ⟨values | e | _, w'⟩
      · rw [hr] at h
        have hbody : ∀ i x w, AgreesAt E v (visitItems E body 0 i leaf (vars.insert var x) w) →
            (do let ended ← walkItemsBy v body i leaf (vars.insert var x)
                Pure.pure ended.1 : Eng σ Flow) w =
            (do let ended ← walkItems E body i leaf (vars.insert var x)
                Pure.pure ended.1 : Eng σ Flow) w := by
          intro i x w hb
          rw [bind_eq, bind_eq, walkItems_of_visits body 0 i leaf _ w hb]
        have hloop := repeatLoop_of_visits hbody values 0 w' h
        show (repeatLoop _ values 0 >>= _) w' = (repeatLoop _ values 0 >>= _) w'
        rw [bind_eq, bind_eq]
        exact hloop ▸ rfl
      · rfl
      · rfl
  | .when_ guard window onLapse then_ else_ =>
      rw [walkItemBy, walkItem, h.choose, bind_eq, bind_eq]
      rw [visitItem] at h
      rcases hc : chooseArm E guard leaf iteration vars w with ⟨arm | e | _, w'⟩
      · rw [hc] at h
        match arm with
        | none => rfl
        | some true =>
            show (walkItemsBy v then_ iteration leaf vars >>= _) w' =
              (walkItems E then_ iteration leaf vars >>= _) w'
            rw [bind_eq, bind_eq, walkItems_of_visits then_ 0 iteration leaf vars w' h.under]
        | some false => exact walkItems_of_visits else_ 0 iteration _ vars w' h.under
      · rfl
      · rfl
  | .step _ | .knell _ | .slot _ | .confirm | .commit | .preflight _ | .observe _ _
  | .assert _ _ _ =>
      exact atLeaf _ h

/-- **The walk runs leaves at its visits only**: what a walker does at any other
application does not matter. -/
theorem walkItems_of_visits (items : List Item) (i iteration leaf : Nat) (vars : Vars) (w : World σ)
    (h : AgreesAt E v (visitItems E items i iteration leaf vars w)) :
    walkItemsBy v items iteration leaf vars w = walkItems E items iteration leaf vars w := by
  match items with
  | [] => rfl
  | it :: items =>
      rw [visitItems] at h
      rw [walkItemsBy, walkItems, bind_eq, bind_eq,
        walkItem_of_visits it iteration leaf vars w (h.mono fun _ hb => List.mem_append_left _ hb).under]
      rcases hi : walkItem E it iteration leaf vars w with ⟨ended | e | _, w'⟩
      · obtain ⟨flow, next⟩ := ended
        cases flow with
        | stop => rfl
        | continue_ =>
            rw [hi] at h
            exact walkItems_of_visits items (i + 1) iteration next vars w'
              (h.mono fun _ hb => List.mem_append_right _ hb)
      · rfl
      · rfl

end

end

/-! ## Where a visit can be -/

mutual

/-- A visit of an item, whatever arms are taken and whatever its lists hold. -/
def ReachesItem : Item → Nat → Nat → Vars → Visit → Prop
  | .par children, iteration, leaf, vars, a => ReachesItems children 0 iteration leaf vars a
  | .repeat_ _ var body, _, leaf, vars, a =>
      ∃ i x b, ReachesItems body 0 i leaf (vars.insert var x) b ∧ a = b.under (.lap ⟨var, i, x⟩)
  | .when_ _ _ _ then_ else_, iteration, leaf, vars, a =>
      (∃ b, ReachesItems then_ 0 iteration leaf vars b ∧ a = b.under (.arm true)) ∨
        ∃ b, ReachesItems else_ 0 iteration (leaf + leafCount then_) vars b ∧
          a = b.under (.arm false)
  | _, iteration, leaf, vars, a => a = ⟨[], ⟨leaf, iteration, vars⟩⟩

def ReachesItems : List Item → Nat → Nat → Nat → Vars → Visit → Prop
  | [], _, _, _, _, _ => False
  | it :: items, i, iteration, leaf, vars, a =>
      (∃ b, ReachesItem it iteration leaf vars b ∧ a = b.under (.item i)) ∨
        ReachesItems items (i + 1) iteration (leaf + (leavesOf it).length) vars a

end

/-- Every visit of rounds from one on is of such a round. -/
theorem round_of_mem {var : String} {visits : Nat → String → World σ → List Visit}
    {f : Nat → String → Eng σ Flow} {xs : List String} {i : Nat} {w : World σ} {a : Visit}
    (h : a ∈ visitRounds var visits f xs i w) :
    ∃ j x b w', i ≤ j ∧ b ∈ visits j x w' ∧ a = b.under (.lap ⟨var, j, x⟩) := by
  induction xs generalizing i w with
  | nil => cases h
  | cons x xs ih =>
      rw [visitRounds] at h
      rcases List.mem_append.mp h with h | h
      · obtain ⟨b, hb, rfl⟩ := List.mem_map.mp h
        exact ⟨i, x, b, w, Nat.le_refl _, hb, rfl⟩
      · split at h
        · obtain ⟨j, y, b, w', hj, hb, rfl⟩ := ih h
          exact ⟨j, y, b, w', Nat.le_of_succ_le hj, hb, rfl⟩
        · cases h

mutual

theorem reaches_visitItem (it : Item) (iteration leaf : Nat) (vars : Vars) (w : World σ)
    {a : Visit} (h : a ∈ visitItem E it iteration leaf vars w) :
    ReachesItem it iteration leaf vars a := by
  match it with
  | .par children => exact reaches_visitItems children 0 iteration leaf vars w h
  | .repeat_ form var body =>
      rw [visitItem] at h
      split at h
      · obtain ⟨j, x, b, w', -, hb, rfl⟩ := round_of_mem h
        exact ⟨j, x, b, reaches_visitItems body 0 j leaf _ w' hb, rfl⟩
      · cases h
  | .when_ guard window onLapse then_ else_ =>
      rw [visitItem] at h
      split at h
      · obtain ⟨b, hb, rfl⟩ := List.mem_map.mp h
        exact .inl ⟨b, reaches_visitItems then_ 0 iteration leaf vars _ hb, rfl⟩
      · obtain ⟨b, hb, rfl⟩ := List.mem_map.mp h
        exact .inr ⟨b, reaches_visitItems else_ 0 iteration _ vars _ hb, rfl⟩
      · cases h
  | .step _ | .knell _ | .slot _ | .confirm | .commit | .preflight _ | .observe _ _
  | .assert _ _ _ => exact List.mem_singleton.mp h

theorem reaches_visitItems (items : List Item) (i iteration leaf : Nat) (vars : Vars) (w : World σ)
    {a : Visit} (h : a ∈ visitItems E items i iteration leaf vars w) :
    ReachesItems items i iteration leaf vars a := by
  match items with
  | [] => cases h
  | it :: items =>
      rw [visitItems] at h
      rcases List.mem_append.mp h with h | h
      · obtain ⟨b, hb, rfl⟩ := List.mem_map.mp h
        exact .inl ⟨b, reaches_visitItem it iteration leaf vars w hb, rfl⟩
      · split at h
        · next leaf' w' hw =>
            obtain rfl : leaf' = _ := yields_walkItem E it iteration leaf vars w _ _ hw rfl
            exact .inr (reaches_visitItems items (i + 1) iteration _ vars w' h)
        · cases h

end

mutual

/-- Its step is one of the item's. -/
theorem step_of_reachesItem (it : Item) {iteration leaf : Nat} {vars : Vars} {a : Visit}
    (h : ReachesItem it iteration leaf vars a) :
    leaf ≤ a.app.step ∧ a.app.step < leaf + (leavesOf it).length := by
  match it with
  | .par children => exact step_of_reachesItems children h
  | .repeat_ form var body =>
      obtain ⟨i, x, b, hb, rfl⟩ := h
      have := step_of_reachesItems body hb
      exact this
  | .when_ guard window onLapse then_ else_ =>
      rw [leavesOf, List.length_append]
      rcases h with ⟨b, hb, rfl⟩ | ⟨b, hb, rfl⟩
      · have := step_of_reachesItems then_ hb
        rw [Visit.app_under]
        omega
      · have := step_of_reachesItems else_ hb
        rw [leafCount_eq_length] at this
        rw [Visit.app_under]
        omega
  | .step _ | .knell _ | .slot _ | .confirm | .commit | .preflight _ | .observe _ _
  | .assert _ _ _ =>
      subst h
      exact ⟨Nat.le_refl _, Nat.lt_succ_self _⟩

theorem step_of_reachesItems (items : List Item) {i iteration leaf : Nat} {vars : Vars} {a : Visit}
    (h : ReachesItems items i iteration leaf vars a) :
    leaf ≤ a.app.step ∧ a.app.step < leaf + (leaves items).length := by
  match items with
  | [] => cases h
  | it :: items =>
      rw [leaves, List.length_append]
      rcases h with ⟨b, hb, rfl⟩ | h
      · have := step_of_reachesItem it hb
        rw [Visit.app_under]
        omega
      · have := step_of_reachesItems items h
        omega

end

end Rescind
