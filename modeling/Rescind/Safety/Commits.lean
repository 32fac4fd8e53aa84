/-
# `Rescind.Safety.Commits` — where an execution ends

The check judges commit() on the paths of the plan as it is written: some arm of
every `when`, every repeat's body once.  An execution runs a repeat's body once
for each value of its list, or a fixed number of times, and stops at commit().

A repeat's body that runs never is no path of the check.  A permanent plan whose
commit() lies in a repeat that may run no round passes, and has an execution that
ends without it; those plans are the ones that do (`commitSkippable`).  Nor does
the check look for confirm() in a temporary plan, where the state machine refuses
it; the plans with an execution that reaches one are those of `confirmRuns`.

No step of an execution fails, and no gate or guard keeps it waiting (`Unhindered`).

**Proved here.**

    an execution stops at its first commit(), or has none     (`ends_of_walksAll`)
    an execution that does not stop follows a path without    (`path_of_walksAll`)
    one there is, where the commit() may be skipped           (`goesOnAll_of_skippable`)
    so which checked plans end as they should                 (`ends_iff`)
    the engine's walk goes where some execution goes          (`goesOn_of_walkItems`)
    and stops at a commit() it runs                           (`commit_stops`)
-/
import Mathlib.Data.List.TakeWhile
import Rescind.Engine.Script

namespace Rescind

open Lib Lib.Prog

/-! ## Executions -/

/-- One part, then another unless the first stopped. -/
def Then (part rest : List Item → Flow → Prop) (ls : List Item) (f : Flow) : Prop :=
  (part ls .stop ∧ f = .stop) ∨
    ∃ ls₁ ls₂, part ls₁ .continue_ ∧ rest ls₂ f ∧ ls = ls₁ ++ ls₂

/-- Nothing left to do. -/
def Done (ls : List Item) (f : Flow) : Prop := ls = [] ∧ f = .continue_

/-- So many rounds. -/
def Times (round : List Item → Flow → Prop) : Nat → List Item → Flow → Prop
  | 0 => Done
  | k + 1 => Then round (Times round k)

mutual

/-- The leaves one item is walked through and how the walk goes on, each leaf as
`goes` says: some arm of every `when`, a list of some length for every `repeat
over`. -/
def Walks (goes : Item → Flow → Prop) : Item → List Item → Flow → Prop
  | .par children, ls, f => WalksAll goes children ls f
  | .repeat_ (.count k) _ body, ls, f => Times (WalksAll goes body) k ls f
  | .repeat_ (.over _ _ _) _ body, ls, f => ∃ k, Times (WalksAll goes body) k ls f
  | .when_ _ _ _ then_ else_, ls, f => WalksAll goes then_ ls f ∨ WalksAll goes else_ ls f
  | .commit, ls, f => ls = [.commit] ∧ goes .commit f
  | .step s, ls, f => ls = [.step s] ∧ goes (.step s) f
  | .knell s, ls, f => ls = [.knell s] ∧ goes (.knell s) f
  | .slot name, ls, f => ls = [.slot name] ∧ goes (.slot name) f
  | .confirm, ls, f => ls = [.confirm] ∧ goes .confirm f
  | .preflight gs, ls, f => ls = [.preflight gs] ∧ goes (.preflight gs) f
  | .observe p al, ls, f => ls = [.observe p al] ∧ goes (.observe p al) f
  | .assert g w l, ls, f => ls = [.assert g w l] ∧ goes (.assert g w l) f

def WalksAll (goes : Item → Flow → Prop) : List Item → List Item → Flow → Prop
  | [], ls, f => Done ls f
  | it :: items, ls, f => Then (Walks goes it) (WalksAll goes items) ls f

end

/-- Without refusal: the walk stops at commit(), and goes on after any other
leaf. -/
def Unhindered : Item → Flow → Prop
  | .commit, f => f = .stop
  | _, f => f = .continue_

/-- One commit(), the last leaf. -/
def EndsInCommit (ls : List Item) : Prop :=
  ∃ before, ls = before ++ [.commit] ∧ ∀ it ∈ before, it.isCommit = false

/-! ## Where an execution stops -/

/-- Stopped at the first commit(), or met none. -/
def Ended (ls : List Item) (f : Flow) : Prop :=
  (f = .stop → EndsInCommit ls) ∧ (f = .continue_ → ∀ it ∈ ls, it.isCommit = false)

theorem Ended.done {ls : List Item} {f : Flow} (h : Done ls f) : Ended ls f := by
  obtain ⟨rfl, rfl⟩ := h
  exact ⟨by simp, by simp⟩

theorem Ended.leaf {it : Item} (h : it.isCommit = false) {ls : List Item} {f : Flow}
    (hl : ls = [it] ∧ f = .continue_) : Ended ls f := by
  obtain ⟨rfl, rfl⟩ := hl
  exact ⟨by simp, by simpa using h⟩

theorem Ended.then {P Q : List Item → Flow → Prop} (hP : ∀ ls f, P ls f → Ended ls f)
    (hQ : ∀ ls f, Q ls f → Ended ls f) {ls : List Item} {f : Flow} (h : Then P Q ls f) :
    Ended ls f := by
  rcases h with ⟨hp, rfl⟩ | ⟨ls₁, ls₂, hp, hq, rfl⟩
  · exact ⟨(hP _ _ hp).1, by simp⟩
  · have hfirst := (hP _ _ hp).2 rfl
    obtain ⟨hstop, hgoes⟩ := hQ _ _ hq
    refine ⟨fun hf => ?_, fun hf it hit => ?_⟩
    · obtain ⟨before, rfl, hb⟩ := hstop hf
      refine ⟨ls₁ ++ before, (List.append_assoc _ _ _).symm, fun it hit => ?_⟩
      exact (List.mem_append.mp hit).elim (hfirst it) (hb it)
    · exact (List.mem_append.mp hit).elim (hfirst it) (hgoes hf it)

theorem Ended.times {P : List Item → Flow → Prop} (hP : ∀ ls f, P ls f → Ended ls f) (k : Nat) :
    ∀ ls f, Times P k ls f → Ended ls f := by
  induction k with
  | zero => exact fun _ _ => Ended.done
  | succ k ih => exact fun _ _ => Ended.then hP ih

mutual

theorem ends_of_walks (it : Item) (ls : List Item) (f : Flow) (h : Walks Unhindered it ls f) :
    Ended ls f := by
  cases it with
  | par children => exact ends_of_walksAll children ls f h
  | repeat_ form var body =>
      have hb := fun ls f => ends_of_walksAll body ls f
      cases form with
      | count k => exact Ended.times hb k ls f h
      | _ =>
          obtain ⟨k, hk⟩ := h
          exact Ended.times hb k ls f hk
  | when_ _ _ _ then_ else_ =>
      exact h.elim (ends_of_walksAll then_ ls f) (ends_of_walksAll else_ ls f)
  | commit =>
      obtain ⟨rfl, rfl⟩ := h
      exact ⟨fun _ => ⟨[], rfl, by simp⟩, by simp⟩
  | _ => exact Ended.leaf rfl h

theorem ends_of_walksAll (items : List Item) (ls : List Item) (f : Flow)
    (h : WalksAll Unhindered items ls f) :
    Ended ls f := by
  cases items with
  | nil => exact Ended.done h
  | cons it items =>
      exact Ended.then (fun ls f => ends_of_walks it ls f) (fun ls f => ends_of_walksAll items ls f) h

end

/-! ## The paths of the check -/

/-- A path with commit() on it. -/
def Committing (path : List Item) : Prop := ∃ it ∈ path, it.isCommit = true

theorem mem_crossPaths {acc here : List (List Item)} {path : List Item} :
    path ∈ crossPaths acc here ↔ ∃ a ∈ acc, ∃ h ∈ here, path = a ++ h := by
  simp only [crossPaths, List.mem_flatMap, List.mem_map]
  constructor
  · rintro ⟨a, ha, h, hh, rfl⟩
    exact ⟨a, ha, h, hh, rfl⟩
  · rintro ⟨a, ha, h, hh, rfl⟩
    exact ⟨a, ha, h, hh, rfl⟩

theorem mem_pathsFrom {items : List Item} {acc : List (List Item)} {path : List Item} :
    path ∈ pathsFrom items acc ↔ ∃ a ∈ acc, ∃ p ∈ paths items, path = a ++ p := by
  induction items generalizing acc path with
  | nil => simp [pathsFrom, paths]
  | cons it items ih =>
      simp only [paths, pathsFrom]
      rw [ih]
      constructor
      · rintro ⟨a, ha, p, hp, rfl⟩
        obtain ⟨b, hb, h, hh, rfl⟩ := mem_crossPaths.mp ha
        refine ⟨b, hb, h ++ p, ih.mpr ⟨h, ?_, p, hp, rfl⟩, List.append_assoc _ _ _⟩
        exact mem_crossPaths.mpr ⟨[], by simp, h, hh, rfl⟩
      · rintro ⟨a, ha, q, hq, rfl⟩
        obtain ⟨b, hb, p, hp, rfl⟩ := ih.mp hq
        obtain ⟨c, hc, h, hh, rfl⟩ := mem_crossPaths.mp hb
        obtain rfl := List.mem_singleton.mp hc
        refine ⟨a ++ h, mem_crossPaths.mpr ⟨a, ha, h, hh, rfl⟩, p, hp, ?_⟩
        simp

/-- A path of a sequence is a path of its first item and one of the others. -/
theorem mem_paths_cons {it : Item} {items : List Item} {path : List Item} :
    path ∈ paths (it :: items) ↔ ∃ p ∈ pathsOf it, ∃ q ∈ paths items, path = p ++ q := by
  have h := @mem_pathsFrom items (crossPaths [[]] (pathsOf it)) path
  have hc : crossPaths [[]] (pathsOf it) = pathsOf it := by simp [crossPaths]
  rw [hc] at h
  rw [← h, paths, pathsFrom, hc]

mutual

theorem pathsOf_ne_nil (it : Item) : ∃ p, p ∈ pathsOf it := by
  cases it with
  | par children => exact paths_ne_nil children
  | repeat_ _ _ body => exact paths_ne_nil body
  | when_ _ _ _ then_ else_ =>
      obtain ⟨p, hp⟩ := paths_ne_nil then_
      exact ⟨p, List.mem_append_left _ hp⟩
  | _ => exact ⟨_, List.mem_singleton.mpr rfl⟩

theorem paths_ne_nil (items : List Item) : ∃ p, p ∈ paths items := by
  cases items with
  | nil => exact ⟨[], List.mem_singleton.mpr rfl⟩
  | cons it items =>
      obtain ⟨p, hp⟩ := pathsOf_ne_nil it
      obtain ⟨q, hq⟩ := paths_ne_nil items
      exact ⟨p ++ q, mem_paths_cons.mpr ⟨p, hp, q, hq, rfl⟩⟩

end

theorem committing_append {p q : List Item} : Committing (p ++ q) ↔ Committing p ∨ Committing q := by
  simp only [Committing, List.mem_append, or_and_right, exists_or]

mutual

theorem commitReachableItem_iff (it : Item) :
    commitReachableItem it = true ↔ ∃ p ∈ pathsOf it, Committing p := by
  cases it with
  | par children => exact commitReachable_iff children
  | repeat_ _ _ body => exact commitReachable_iff body
  | when_ _ _ _ then_ else_ =>
      simp only [commitReachableItem, Bool.or_eq_true, commitReachable_iff then_,
        commitReachable_iff else_, pathsOf, List.mem_append, or_and_right, exists_or]
      rfl
  | _ => simp [commitReachableItem, pathsOf, Committing, Item.isCommit]

theorem commitReachable_iff (items : List Item) :
    commitReachable items = true ↔ ∃ p ∈ paths items, Committing p := by
  cases items with
  | nil => simp [commitReachable, paths, pathsFrom, Committing]
  | cons it items =>
      rw [commitReachable, Bool.or_eq_true, commitReachableItem_iff it, commitReachable_iff items]
      constructor
      · rintro (⟨p, hp, hc⟩ | ⟨q, hq, hc⟩)
        · obtain ⟨q, hq⟩ := paths_ne_nil items
          exact ⟨p ++ q, mem_paths_cons.mpr ⟨p, hp, q, hq, rfl⟩, committing_append.mpr (.inl hc)⟩
        · obtain ⟨p, hp⟩ := pathsOf_ne_nil it
          exact ⟨p ++ q, mem_paths_cons.mpr ⟨p, hp, q, hq, rfl⟩, committing_append.mpr (.inr hc)⟩
      · rintro ⟨path, hpath, hc⟩
        obtain ⟨p, hp, q, hq, rfl⟩ := mem_paths_cons.mp hpath
        exact (committing_append.mp hc).imp (fun h => ⟨p, hp, h⟩) fun h => ⟨q, hq, h⟩

end

/-- Where no commit() is reachable, no path commits. -/
theorem not_committing {items : List Item} (h : commitReachable items = false) {p : List Item}
    (hp : p ∈ paths items) : ¬ Committing p := by
  intro hc
  rw [(commitReachable_iff items).mpr ⟨p, hp, hc⟩] at h
  cases h

/-! ## Executions that never stop -/

mutual

/-- A commit() lies in a repeat that may run no round: one over a list, or one of
no rounds. -/
def commitSkippableItem : Item → Bool
  | .par children => commitSkippable children
  | .repeat_ (.count 0) _ body => commitReachable body
  | .repeat_ (.count (_ + 1)) _ body => commitSkippable body
  | .repeat_ (.over _ _ _) _ body => commitReachable body
  | .when_ _ _ _ then_ else_ => commitSkippable then_ || commitSkippable else_
  | _ => false

def commitSkippable : List Item → Bool
  | [] => false
  | it :: items => commitSkippableItem it || commitSkippable items

end

/-- The path taken by an execution that never stopped. -/
theorem path_of_body {body : List Item} (h : commitReachable body = false) :
    ∃ p ∈ paths body, ¬ Committing p := by
  obtain ⟨p, hp⟩ := paths_ne_nil body
  exact ⟨p, hp, not_committing h hp⟩

theorem path_of_leaf {it : Item} (h : it.isCommit = false) : ∃ p ∈ [[it]], ¬ Committing p := by
  refine ⟨[it], List.mem_singleton.mpr rfl, ?_⟩
  rintro ⟨x, hx, hc⟩
  rw [List.mem_singleton.mp hx, h] at hc
  cases hc

mutual

theorem path_of_walks (it : Item) (hs : commitSkippableItem it = false) (ls : List Item)
    (h : Walks Unhindered it ls .continue_) : ∃ p ∈ pathsOf it, ¬ Committing p := by
  cases it with
  | par children => exact path_of_walksAll children hs ls h
  | repeat_ form var body =>
      cases form with
      | count k =>
          cases k with
          | zero => exact path_of_body hs
          | succ k =>
              rcases h with ⟨-, hf⟩ | ⟨ls₁, ls₂, hb, -, -⟩
              · cases hf
              · exact path_of_walksAll body hs ls₁ hb
      | _ => exact path_of_body hs
  | when_ _ _ _ then_ else_ =>
      obtain ⟨ht, he⟩ := Bool.or_eq_false_iff.mp hs
      rcases h with h | h
      · obtain ⟨p, hp, hc⟩ := path_of_walksAll then_ ht ls h
        exact ⟨p, List.mem_append_left _ hp, hc⟩
      · obtain ⟨p, hp, hc⟩ := path_of_walksAll else_ he ls h
        exact ⟨p, List.mem_append_right _ hp, hc⟩
  | commit => cases h.2
  | _ => exact path_of_leaf rfl

theorem path_of_walksAll (items : List Item) (hs : commitSkippable items = false) (ls : List Item)
    (h : WalksAll Unhindered items ls .continue_) : ∃ p ∈ paths items, ¬ Committing p := by
  cases items with
  | nil => exact ⟨[], List.mem_singleton.mpr rfl, by simp [Committing]⟩
  | cons it items =>
      obtain ⟨hi, hr⟩ := Bool.or_eq_false_iff.mp hs
      rcases h with ⟨-, hf⟩ | ⟨ls₁, ls₂, h₁, h₂, -⟩
      · cases hf
      · obtain ⟨p, hp, hc⟩ := path_of_walks it hi ls₁ h₁
        obtain ⟨q, hq, hc'⟩ := path_of_walksAll items hr ls₂ h₂
        refine ⟨p ++ q, mem_paths_cons.mpr ⟨p, hp, q, hq, rfl⟩, fun h => ?_⟩
        exact (committing_append.mp h).elim hc hc'

end

/-- Some execution goes on to the end. -/
def GoesOn (walks : List Item → Flow → Prop) : Prop := ∃ ls, walks ls .continue_

theorem GoesOn.then {P Q : List Item → Flow → Prop} (hP : GoesOn P) (hQ : GoesOn Q) :
    GoesOn (Then P Q) := by
  obtain ⟨ls₁, h₁⟩ := hP
  obtain ⟨ls₂, h₂⟩ := hQ
  exact ⟨ls₁ ++ ls₂, .inr ⟨ls₁, ls₂, h₁, h₂, rfl⟩⟩

theorem GoesOn.done : GoesOn Done := ⟨[], rfl, rfl⟩

theorem GoesOn.times {P : List Item → Flow → Prop} (hP : GoesOn P) (k : Nat) :
    GoesOn (Times P k) := by
  induction k with
  | zero => exact GoesOn.done
  | succ k ih => exact hP.then ih

mutual

theorem goesOn_of_uncommitted (it : Item) (h : commitReachableItem it = false) :
    GoesOn (Walks Unhindered it) := by
  cases it with
  | par children => exact goesOnAll_of_uncommitted children h
  | repeat_ form var body =>
      cases form with
      | count k => exact (goesOnAll_of_uncommitted body h).times k
      | _ => exact ⟨[], 0, rfl, rfl⟩
  | when_ _ _ _ then_ else_ =>
      obtain ⟨ls, hl⟩ := goesOnAll_of_uncommitted then_ (Bool.or_eq_false_iff.mp h).1
      exact ⟨ls, .inl hl⟩
  | commit => cases h
  | _ => exact ⟨_, rfl, rfl⟩

theorem goesOnAll_of_uncommitted (items : List Item) (h : commitReachable items = false) :
    GoesOn (WalksAll Unhindered items) := by
  cases items with
  | nil => exact GoesOn.done
  | cons it items =>
      obtain ⟨hi, hr⟩ := Bool.or_eq_false_iff.mp h
      exact (goesOn_of_uncommitted it hi).then (goesOnAll_of_uncommitted items hr)

end

/-- Nothing follows a commit() on any of the paths. -/
def CommitLast (ps : List (List Item)) : Prop :=
  ∀ p ∈ ps, (p.dropWhile fun it => !it.isCommit).length ≤ 1

theorem rest_ne_nil_iff {p : List Item} :
    (p.dropWhile fun it => !it.isCommit) ≠ [] ↔ Committing p := by
  rw [Ne, List.dropWhile_eq_nil_iff]
  simp [Committing]

theorem rest_append (p q : List Item) : ((p ++ q).dropWhile fun it => !it.isCommit) =
    if (p.dropWhile fun it => !it.isCommit).isEmpty then q.dropWhile fun it => !it.isCommit
    else (p.dropWhile fun it => !it.isCommit) ++ q := List.dropWhile_append

/-- After a part that commits there is nothing. -/
theorem CommitLast.nil_of_committing {it : Item} {items : List Item}
    (h : CommitLast (paths (it :: items))) {p q : List Item} (hp : p ∈ pathsOf it)
    (hq : q ∈ paths items) (hc : Committing p) : q = [] := by
  have hl := h (p ++ q) (mem_paths_cons.mpr ⟨p, hp, q, hq, rfl⟩)
  have hne := rest_ne_nil_iff.mpr hc
  rw [rest_append, if_neg (by simpa using hne), List.length_append] at hl
  have := List.length_pos_iff.mpr hne
  exact List.length_eq_zero_iff.mp (by omega)

theorem CommitLast.first {it : Item} {items : List Item} (h : CommitLast (paths (it :: items))) :
    CommitLast (pathsOf it) := by
  intro p hp
  obtain ⟨q, hq⟩ := paths_ne_nil items
  by_cases hc : Committing p
  · have := h (p ++ q) (mem_paths_cons.mpr ⟨p, hp, q, hq, rfl⟩)
    rwa [h.nil_of_committing hp hq hc, List.append_nil] at this
  · rw [← rest_ne_nil_iff, not_not] at hc
    rw [hc]
    exact Nat.zero_le _

theorem CommitLast.others {it : Item} {items : List Item} (h : CommitLast (paths (it :: items))) :
    CommitLast (paths items) := by
  intro q hq
  obtain ⟨p, hp⟩ := pathsOf_ne_nil it
  by_cases hc : Committing p
  · rw [h.nil_of_committing hp hq hc]
    exact Nat.zero_le _
  · have := h (p ++ q) (mem_paths_cons.mpr ⟨p, hp, q, hq, rfl⟩)
    rw [← rest_ne_nil_iff, not_not] at hc
    rw [rest_append, hc] at this
    exact this

/-- After an item that may commit no commit() is reachable. -/
theorem CommitLast.uncommitted {it : Item} {items : List Item} (h : CommitLast (paths (it :: items)))
    (hc : commitReachableItem it = true) : commitReachable items = false := by
  obtain ⟨p, hp, hcp⟩ := (commitReachableItem_iff it).mp hc
  by_contra hr
  obtain ⟨q, hq, hcq⟩ := (commitReachable_iff items).mp (Bool.not_eq_false _ ▸ hr)
  rw [h.nil_of_committing hp hq hcp] at hcq
  obtain ⟨x, hx, -⟩ := hcq
  cases hx

theorem CommitLast.left {ps qs : List (List Item)} (h : CommitLast (ps ++ qs)) : CommitLast ps :=
  fun p hp => h p (List.mem_append_left _ hp)

theorem CommitLast.right {ps qs : List (List Item)} (h : CommitLast (ps ++ qs)) : CommitLast qs :=
  fun p hp => h p (List.mem_append_right _ hp)

mutual

theorem reachable_of_skippableItem (it : Item) (h : commitSkippableItem it = true) :
    commitReachableItem it = true := by
  cases it with
  | par children => exact reachable_of_skippable children h
  | repeat_ form var body =>
      cases form with
      | count k =>
          cases k with
          | zero => exact h
          | succ k => exact reachable_of_skippable body h
      | _ => exact h
  | when_ _ _ _ then_ else_ =>
      refine Bool.or_eq_true_iff.mpr ((Bool.or_eq_true_iff.mp h).imp ?_ ?_)
      · exact reachable_of_skippable then_
      · exact reachable_of_skippable else_
  | _ => cases h

theorem reachable_of_skippable (items : List Item) (h : commitSkippable items = true) :
    commitReachable items = true := by
  cases items with
  | nil => cases h
  | cons it items =>
      refine Bool.or_eq_true_iff.mpr ((Bool.or_eq_true_iff.mp h).imp ?_ ?_)
      · exact reachable_of_skippableItem it
      · exact reachable_of_skippable items

end

mutual

theorem goesOn_of_skippable (it : Item) (hl : CommitLast (pathsOf it))
    (h : commitSkippableItem it = true) : GoesOn (Walks Unhindered it) := by
  cases it with
  | par children => exact goesOnAll_of_skippable children hl h
  | repeat_ form var body =>
      cases form with
      | count k =>
          cases k with
          | zero => exact GoesOn.done
          | succ k => exact (goesOnAll_of_skippable body hl h).times (k + 1)
      | _ => exact ⟨[], 0, rfl, rfl⟩
  | when_ _ _ _ then_ else_ =>
      rcases Bool.or_eq_true_iff.mp h with h | h
      · obtain ⟨ls, hls⟩ := goesOnAll_of_skippable then_ hl.left h
        exact ⟨ls, .inl hls⟩
      · obtain ⟨ls, hls⟩ := goesOnAll_of_skippable else_ hl.right h
        exact ⟨ls, .inr hls⟩
  | _ => cases h

theorem goesOnAll_of_skippable (items : List Item) (hl : CommitLast (paths items))
    (h : commitSkippable items = true) : GoesOn (WalksAll Unhindered items) := by
  cases items with
  | nil => cases h
  | cons it items =>
      rcases Bool.or_eq_true_iff.mp h with h | h
      · have hr := hl.uncommitted (reachable_of_skippableItem it h)
        exact (goesOn_of_skippable it hl.first h).then (goesOnAll_of_uncommitted items hr)
      · -- a commit() in the first item would leave none for the others
        have hi : commitReachableItem it = false := by
          by_contra hc
          have hr := reachable_of_skippable items h
          rw [hl.uncommitted (Bool.not_eq_false _ ▸ hc)] at hr
          cases hr
        exact (goesOn_of_uncommitted it hi).then (goesOnAll_of_skippable items hl.others h)

end

/-! ## confirm() in a temporary plan -/

mutual

/-- A confirm() lies in no repeat of no rounds. -/
def confirmRunsItem : Item → Bool
  | .confirm => true
  | .par children => confirmRuns children
  | .repeat_ (.count 0) _ _ => false
  | .repeat_ (.count (_ + 1)) _ body => confirmRuns body
  | .repeat_ (.over _ _ _) _ body => confirmRuns body
  | .when_ _ _ _ then_ else_ => confirmRuns then_ || confirmRuns else_
  | _ => false

def confirmRuns : List Item → Bool
  | [] => false
  | it :: items => confirmRunsItem it || confirmRuns items

end

/-- No execution meets an item with the property. -/
def Avoids (P : Item → Bool) (walks : List Item → Flow → Prop) : Prop :=
  ∀ ls f, walks ls f → ∀ it ∈ ls, P it = false

section
variable {P : Item → Bool}

theorem Avoids.done : Avoids P Done := by
  rintro ls f ⟨rfl, -⟩ it hit
  cases hit

theorem Avoids.then {Q R : List Item → Flow → Prop} (hQ : Avoids P Q) (hR : Avoids P R) :
    Avoids P (Then Q R) := by
  rintro ls f (⟨h, -⟩ | ⟨ls₁, ls₂, h₁, h₂, rfl⟩) it hit
  · exact hQ _ _ h it hit
  · exact (List.mem_append.mp hit).elim (hQ _ _ h₁ it) (hR _ _ h₂ it)

theorem Avoids.times {Q : List Item → Flow → Prop} (hQ : Avoids P Q) (k : Nat) :
    Avoids P (Times Q k) := by
  induction k with
  | zero => exact Avoids.done
  | succ k ih => exact hQ.then ih

theorem avoids_leaf {it : Item} {f : Flow} (h : P it = false) :
    Avoids P fun ls g => ls = [it] ∧ g = f := by
  rintro ls g ⟨rfl, -⟩ x hx
  rw [List.mem_singleton.mp hx, h]

end

mutual

theorem avoids_commit (it : Item) (h : commitReachableItem it = false) :
    Avoids Item.isCommit (Walks Unhindered it) := by
  cases it with
  | par children => exact avoids_commitAll children h
  | repeat_ form var body =>
      have hb := avoids_commitAll body h
      cases form with
      | count k => exact hb.times k
      | _ =>
          rintro ls f ⟨k, hk⟩
          exact hb.times k ls f hk
  | when_ _ _ _ then_ else_ =>
      obtain ⟨ht, he⟩ := Bool.or_eq_false_iff.mp h
      intro ls f hw
      exact hw.elim (avoids_commitAll then_ ht ls f) (avoids_commitAll else_ he ls f)
  | commit => cases h
  | _ => exact avoids_leaf rfl

theorem avoids_commitAll (items : List Item) (h : commitReachable items = false) :
    Avoids Item.isCommit (WalksAll Unhindered items) := by
  cases items with
  | nil => exact Avoids.done
  | cons it items =>
      obtain ⟨hi, hr⟩ := Bool.or_eq_false_iff.mp h
      exact (avoids_commit it hi).then (avoids_commitAll items hr)

end

mutual

theorem avoids_confirm (it : Item) (h : confirmRunsItem it = false) :
    Avoids Item.isConfirm (Walks Unhindered it) := by
  cases it with
  | par children => exact avoids_confirmAll children h
  | repeat_ form var body =>
      cases form with
      | count k =>
          cases k with
          | zero => exact Avoids.done
          | succ k => exact (avoids_confirmAll body h).times (k + 1)
      | _ =>
          rintro ls f ⟨k, hk⟩
          exact (avoids_confirmAll body h).times k ls f hk
  | when_ _ _ _ then_ else_ =>
      obtain ⟨ht, he⟩ := Bool.or_eq_false_iff.mp h
      intro ls f hw
      exact hw.elim (avoids_confirmAll then_ ht ls f) (avoids_confirmAll else_ he ls f)
  | confirm => cases h
  | _ => exact avoids_leaf rfl

theorem avoids_confirmAll (items : List Item) (h : confirmRuns items = false) :
    Avoids Item.isConfirm (WalksAll Unhindered items) := by
  cases items with
  | nil => exact Avoids.done
  | cons it items =>
      obtain ⟨hi, hr⟩ := Bool.or_eq_false_iff.mp h
      exact (avoids_confirm it hi).then (avoids_confirmAll items hr)

end

/-- Some execution that goes on meets confirm(). -/
def MeetsConfirm (walks : List Item → Flow → Prop) : Prop :=
  ∃ ls, walks ls .continue_ ∧ .confirm ∈ ls

theorem MeetsConfirm.then_left {P Q : List Item → Flow → Prop} (hP : MeetsConfirm P)
    (hQ : GoesOn Q) : MeetsConfirm (Then P Q) := by
  obtain ⟨ls₁, h₁, hm⟩ := hP
  obtain ⟨ls₂, h₂⟩ := hQ
  exact ⟨ls₁ ++ ls₂, .inr ⟨ls₁, ls₂, h₁, h₂, rfl⟩, List.mem_append_left _ hm⟩

theorem MeetsConfirm.then_right {P Q : List Item → Flow → Prop} (hP : GoesOn P)
    (hQ : MeetsConfirm Q) : MeetsConfirm (Then P Q) := by
  obtain ⟨ls₁, h₁⟩ := hP
  obtain ⟨ls₂, h₂, hm⟩ := hQ
  exact ⟨ls₁ ++ ls₂, .inr ⟨ls₁, ls₂, h₁, h₂, rfl⟩, List.mem_append_right _ hm⟩

mutual

theorem meetsConfirm_of_runs (it : Item) (hc : commitReachableItem it = false)
    (h : confirmRunsItem it = true) : MeetsConfirm (Walks Unhindered it) := by
  cases it with
  | par children => exact meetsConfirmAll_of_runs children hc h
  | repeat_ form var body =>
      cases form with
      | count k =>
          cases k with
          | zero => cases h
          | succ k =>
              exact (meetsConfirmAll_of_runs body hc h).then_left
                ((goesOnAll_of_uncommitted body hc).times k)
      | _ =>
          obtain ⟨ls, hl, hm⟩ := (meetsConfirmAll_of_runs body hc h).then_left GoesOn.done
          exact ⟨ls, ⟨1, hl⟩, hm⟩
  | when_ _ _ _ then_ else_ =>
      obtain ⟨ht, he⟩ := Bool.or_eq_false_iff.mp hc
      rcases Bool.or_eq_true_iff.mp h with h | h
      · obtain ⟨ls, hl, hm⟩ := meetsConfirmAll_of_runs then_ ht h
        exact ⟨ls, .inl hl, hm⟩
      · obtain ⟨ls, hl, hm⟩ := meetsConfirmAll_of_runs else_ he h
        exact ⟨ls, .inr hl, hm⟩
  | confirm => exact ⟨[.confirm], ⟨rfl, rfl⟩, List.mem_singleton.mpr rfl⟩
  | _ => cases h

theorem meetsConfirmAll_of_runs (items : List Item) (hc : commitReachable items = false)
    (h : confirmRuns items = true) : MeetsConfirm (WalksAll Unhindered items) := by
  cases items with
  | nil => cases h
  | cons it items =>
      obtain ⟨hi, hr⟩ := Bool.or_eq_false_iff.mp hc
      rcases Bool.or_eq_true_iff.mp h with h | h
      · exact (meetsConfirm_of_runs it hi h).then_left (goesOnAll_of_uncommitted items hr)
      · exact .then_right (goesOn_of_uncommitted it hi) (meetsConfirmAll_of_runs items hr h)

end

/-! ## Checked plans -/

/-- What the check says of commit(). -/
theorem commits_of_checkClean {ir : PlanIr} (h : checkClean ir = true) :
    CommitLast (paths ir.plan.body) ∧
      (inferIntent ir.plan = some .permanent → ∀ p ∈ paths ir.plan.body, Committing p) := by
  rw [checkClean, List.isEmpty_iff] at h
  delta check at h
  simp only [List.append_eq_nil_iff, flag_eq_nil] at h
  obtain ⟨⟨⟨⟨-, hlast⟩, hwithout⟩, -⟩, -⟩ := h
  refine ⟨fun p hp => ?_, fun hi p hp => ?_⟩
  · simp only [commitNotLast, List.any_eq_false, decide_eq_true_eq, Nat.not_le] at hlast
    exact Nat.le_of_lt_succ (hlast p hp)
  · by_contra hc
    have hmem : p ∈ (paths ir.plan.body).filter fun path => !path.any Item.isCommit := by
      refine List.mem_filter.mpr ⟨hp, ?_⟩
      simpa [Committing] using hc
    have hlen : 0 < pathsWithoutCommit ir.plan.body := List.length_pos_of_mem hmem
    simp [hi, hlen] at hwithout

/-- A temporary plan has no commit(). -/
theorem uncommitted_of_temporary {p : Plan} (h : inferIntent p = some .temporary) :
    commitReachable p.body = false := by
  revert h
  simp only [inferIntent]
  cases commitReachable p.body <;> cases p.wane.isSome <;> cases p.firesByConstruction <;> simp

/-- The event commit() and confirm() give the state machine. -/
def Item.event : Item → Option Event
  | .commit => some .commitItem
  | .confirm => some .confirm
  | _ => none

/-- The state machine refuses the item in a temporary plan (R0102). -/
def RefusedTemporary (it : Item) : Prop :=
  ∃ ev ctx, it.event = some ev ∧ ctx.intent = .temporary ∧
    transition ctx .applying ev = .refuse .r0102

theorem refusedTemporary_iff (it : Item) :
    RefusedTemporary it ↔ it.isCommit = true ∨ it.isConfirm = true := by
  constructor
  · rintro ⟨ev, ctx, he, -, -⟩
    cases it <;> simp [Item.event, Item.isCommit, Item.isConfirm] at he ⊢
  · intro h
    have hctx : ∃ ctx : Ctx, ctx.intent = .temporary := ⟨⟨.temporary, .manual, false, .revert⟩, rfl⟩
    obtain ⟨ctx, hi⟩ := hctx
    rcases h with h | h <;> cases it <;> simp [Item.isCommit, Item.isConfirm] at h
    · exact ⟨.commitItem, ctx, rfl, hi, by simp [transition, terminal, hi]⟩
    · exact ⟨.confirm, ctx, rfl, hi, by simp [transition, terminal, hi]⟩

/-- **Which checked plans end as they should.**  Every execution of a permanent
plan that passes the check ends in its one commit() just when no commit() lies in
a repeat that may run no round; and no execution of a temporary plan that passes
meets an item that the state machine refuses just when no confirm() can run. -/
theorem ends_iff (ir : PlanIr) (h : checkClean ir = true) :
    (inferIntent ir.plan = some .permanent →
      ((∀ ls f, WalksAll Unhindered ir.plan.body ls f → EndsInCommit ls) ↔
        commitSkippable ir.plan.body = false)) ∧
    (inferIntent ir.plan = some .temporary →
      ((∀ ls f, WalksAll Unhindered ir.plan.body ls f → ∀ it ∈ ls, ¬ RefusedTemporary it) ↔
        confirmRuns ir.plan.body = false)) := by
  obtain ⟨hlast, hall⟩ := commits_of_checkClean h
  refine ⟨fun hi => ⟨fun hends => ?_, fun hs ls f hw => ?_⟩,
    fun hi => ⟨fun hnone => ?_, fun hr ls f hw it hit hrefused => ?_⟩⟩
  · by_contra hs
    obtain ⟨ls, hw⟩ := goesOnAll_of_skippable _ hlast (Bool.not_eq_false _ ▸ hs)
    obtain ⟨before, rfl, -⟩ := hends ls _ hw
    have := (ends_of_walksAll _ _ _ hw).2 rfl .commit (by simp)
    cases this
  · cases f with
    | stop => exact (ends_of_walksAll _ _ _ hw).1 rfl
    | continue_ =>
        obtain ⟨p, hp, hc⟩ := path_of_walksAll _ hs ls hw
        exact absurd (hall hi p hp) hc
  · by_contra hr
    obtain ⟨ls, hw, hm⟩ := meetsConfirmAll_of_runs _ (uncommitted_of_temporary hi)
      (Bool.not_eq_false _ ▸ hr)
    exact hnone ls _ hw .confirm hm ((refusedTemporary_iff _).mpr (.inr rfl))
  · rcases (refusedTemporary_iff it).mp hrefused with hx | hx
    · rw [avoids_commitAll _ (uncommitted_of_temporary hi) ls f hw it hit] at hx
      cases hx
    · rw [avoids_confirmAll _ hr ls f hw it hit] at hx
      cases hx

/-! ## The engine's walk -/

section
variable {goes goes' : Item → Flow → Prop}

theorem Then.goesOn {P Q : List Item → Flow → Prop} {ls : List Item}
    (h : Then P Q ls .continue_) :
    ∃ ls₁ ls₂, P ls₁ .continue_ ∧ Q ls₂ .continue_ ∧ ls = ls₁ ++ ls₂ := by
  rcases h with ⟨-, hf⟩ | h
  · cases hf
  · exact h

theorem GoesOn.of_then {P Q P' Q' : List Item → Flow → Prop} (hP : GoesOn P → GoesOn P')
    (hQ : GoesOn Q → GoesOn Q') (h : GoesOn (Then P Q)) : GoesOn (Then P' Q') := by
  obtain ⟨ls, h⟩ := h
  obtain ⟨ls₁, ls₂, h₁, h₂, -⟩ := h.goesOn
  exact (hP ⟨ls₁, h₁⟩).then (hQ ⟨ls₂, h₂⟩)

theorem GoesOn.of_times {P P' : List Item → Flow → Prop} (hP : GoesOn P → GoesOn P') (k : Nat)
    (h : GoesOn (Times P k)) : GoesOn (Times P' k) := by
  induction k with
  | zero => exact GoesOn.done
  | succ k ih => exact GoesOn.of_then hP ih h

mutual

theorem goesOn_mono (hg : ∀ it, goes it .continue_ → goes' it .continue_) (it : Item)
    (h : GoesOn (Walks goes it)) : GoesOn (Walks goes' it) := by
  cases it with
  | par children => exact goesOnAll_mono hg children h
  | repeat_ form var body =>
      cases form with
      | count k => exact GoesOn.of_times (goesOnAll_mono hg body) k h
      | _ => exact ⟨[], 0, rfl, rfl⟩
  | when_ _ _ _ then_ else_ =>
      obtain ⟨ls, h | h⟩ := h
      · obtain ⟨ls', h'⟩ := goesOnAll_mono hg then_ ⟨ls, h⟩
        exact ⟨ls', .inl h'⟩
      · obtain ⟨ls', h'⟩ := goesOnAll_mono hg else_ ⟨ls, h⟩
        exact ⟨ls', .inr h'⟩
  | _ =>
      obtain ⟨ls, hl, h⟩ := h
      exact ⟨ls, hl, hg _ h⟩

theorem goesOnAll_mono (hg : ∀ it, goes it .continue_ → goes' it .continue_) (items : List Item)
    (h : GoesOn (WalksAll goes items)) : GoesOn (WalksAll goes' items) := by
  cases items with
  | nil => exact GoesOn.done
  | cons it items => exact GoesOn.of_then (goesOn_mono hg it) (goesOnAll_mono hg items) h

end

end

section
variable {σ : Type} (E : Setting σ)

/-- How the engine's run of a leaf may go on. -/
def LeafGoes (it : Item) (f : Flow) : Prop :=
  ∃ a w n w', walkLeaf E it a w = (.ok (f, n), w')

theorem yields_leaf (it : Item) (a : AppliedStep) :
    Yields (fun r => r.1 = .continue_ → LeafGoes E it .continue_) (walkLeaf E it a) := by
  rintro w ⟨f, n⟩ w' h rfl
  exact ⟨a, w, n, w', h⟩

theorem yields_repeatLoop {P : List Item → Flow → Prop} {f : Nat → String → Eng σ Flow}
    (hf : ∀ i v, Yields (fun flow => flow = .continue_ → GoesOn P) (f i v)) (vs : List String) (i : Nat) :
    Yields (fun flow => flow = .continue_ → GoesOn (Times P vs.length)) (repeatLoop f vs i) := by
  induction vs generalizing i with
  | nil => exact Yields.pure fun _ => GoesOn.done
  | cons v vs ih =>
      refine Yields.bind (hf i v) fun flow hflow => ?_
      cases flow with
      | stop => exact Yields.pure nofun
      | continue_ =>
          intro w flow w' h hc
          exact (hflow rfl).then (ih (i + 1) w flow w' h hc)

mutual

/-- A walk of the engine that goes on went where some execution goes, each leaf
as the engine runs it. -/
theorem goesOn_of_walkItem (it : Item) (iteration leaf : Nat) (vars : Vars) :
    Yields (fun r => r.1 = .continue_ → GoesOn (Walks (LeafGoes E) it))
      (walkItem E it iteration leaf vars) := by
  cases it with
  | par children => exact goesOn_of_walkItems children iteration leaf vars
  | repeat_ form var body =>
      have hbody : ∀ i v, Yields (fun flow : Flow => flow = .continue_ →
          GoesOn (WalksAll (LeafGoes E) body))
          (walkItems E body i leaf (vars.insert var v) >>= fun ended => Pure.pure ended.1) := by
        intro i v
        refine Yields.bind (goesOn_of_walkItems body i leaf (vars.insert var v)) fun r hr => ?_
        exact Yields.pure hr
      cases form with
      | count k =>
          have hvalues : Yields (fun vs => vs.length = k) (repeatValues E (.count k) leaf vars) :=
            Yields.pure (by simp)
          refine Yields.bind hvalues fun vs hvs => ?_
          refine Yields.bind (yields_repeatLoop hbody vs 0) fun flow hflow => ?_
          rw [hvs] at hflow
          exact Yields.pure hflow
      | _ =>
          exact Yields.after fun values => Yields.after fun flow =>
            Yields.pure fun _ => ⟨[], 0, rfl, rfl⟩
  | when_ guard _ _ then_ else_ =>
      refine Yields.after fun arm => ?_
      cases arm with
      | none => exact Yields.pure nofun
      | some arm =>
          cases arm with
          | true =>
              refine Yields.bind (goesOn_of_walkItems then_ iteration leaf vars) fun r hr => ?_
              refine Yields.pure fun hc => ?_
              obtain ⟨ls, hl⟩ := hr hc
              exact ⟨ls, .inl hl⟩
          | false =>
              intro w r w' h hc
              obtain ⟨ls, hl⟩ := goesOn_of_walkItems else_ iteration _ vars w r w' h hc
              exact ⟨ls, .inr hl⟩
  | _ =>
      intro w r w' h hc
      exact ⟨_, rfl, yields_leaf E _ _ w r w' h hc⟩

theorem goesOn_of_walkItems (items : List Item) (iteration leaf : Nat) (vars : Vars) :
    Yields (fun r => r.1 = .continue_ → GoesOn (WalksAll (LeafGoes E) items))
      (walkItems E items iteration leaf vars) := by
  cases items with
  | nil => exact Yields.pure fun _ => GoesOn.done
  | cons it items =>
      refine Yields.bind (goesOn_of_walkItem it iteration leaf vars) fun r hr => ?_
      obtain ⟨flow, leaf'⟩ := r
      cases flow with
      | stop => exact Yields.pure nofun
      | continue_ =>
          intro w r w' h hc
          exact (hr rfl).then (goesOn_of_walkItems items iteration leaf' vars w r w' h hc)

end

theorem yields_refuse (n : Nat) (why : String) : Yields (fun f => f = .stop) (refuse E n why) := by
  refine Yields.after fun _ => Yields.after fun _ => Yields.after fun _ => Yields.after fun r => ?_
  by_cases hh : r.state = .held
  · rw [if_pos hh]
    exact Yields.after fun _ => Yields.after fun _ => Yields.after fun _ => Yields.pure rfl
  · rw [if_neg hh]
    exact Yields.after fun _ => Yields.pure rfl

theorem yields_backstopBeforeLeaf (n : Nat) :
    Yields (fun f => ∀ flow, f = some flow → flow = .stop) (backstopBeforeLeaf E n) := by
  have hnone : Yields (fun f => ∀ flow, f = some flow → flow = .stop)
      (Pure.pure none : Eng σ (Option Flow)) := Yields.pure nofun
  have hrefused : ∀ why, Yields (fun f => ∀ flow, f = some flow → flow = .stop)
      (some <$> refuse E n why) := by
    intro why
    refine Yields.bind (yields_refuse E n why) fun f hf => Yields.pure ?_
    intro flow h
    exact Option.some.inj h ▸ hf
  refine Yields.after fun r => ?_
  cases coverage r.plan with
  | none => exact hnone
  | some cov =>
      dsimp only
      by_cases hc : cov.covered.isEmpty
      · rw [if_pos hc]
        exact hnone
      · rw [if_neg hc]
        refine Yields.after fun installed => ?_
        cases installed with
        | error why => exact hrefused why
        | ok =>
            refine Yields.after fun armed => ?_
            cases armed with
            | error why => exact hrefused why
            | ok => exact hnone

/-- A commit() that is run, and not skipped as applied, stops the walk. -/
theorem commit_stops {a : AppliedStep} {w w' : World σ} {f : Flow} {n : Nat}
    (hn : w.hand.isApplied a.step a.iteration a.vars = false)
    (h : walkLeaf E .commit a w = (.ok (f, n), w')) : f = .stop := by
  have hrun : Yields (fun f => f = .stop) (runLeaf E a .commit) := by
    refine Yields.bind (yields_backstopBeforeLeaf E a.step) fun x hx => ?_
    cases x with
    | some flow => exact Yields.pure (hx flow rfl)
    | none =>
        exact Yields.after fun _ => Yields.after fun _ => Yields.after fun _ => Yields.after fun _ =>
          Yields.after fun _ => Yields.after fun _ => Yields.after fun _ => Yields.pure rfl
  have hwalk : walkLeaf E .commit a w =
      (runLeaf E a .commit >>= fun flow => Pure.pure (flow, a.step + 1)) w := by
    show (if w.hand.isApplied a.step a.iteration a.vars then _ else _ : Eng σ (Flow × Nat)) w = _
    rw [if_neg (by simp [hn])]
  rw [hwalk] at h
  have hy : Yields (fun r : Flow × Nat => r.1 = .stop)
      (runLeaf E a .commit >>= fun flow => Pure.pure (flow, a.step + 1)) :=
    Yields.bind hrun fun flow hf => Yields.pure hf
  exact hy w (f, n) w' h

end

/-! ## A commit() in a loop, and a confirm() with a deadline -/

namespace Loops

/-- A permanent plan for one host. -/
def lasting (body : List Item) : PlanIr where
  site := smallSite ["web"]
  requester := "ops"
  plan := { id := "p", owner := "web", body }

/-- Commits once for every host of a list. -/
def perHost : PlanIr := lasting [.repeat_ (.over "hosts" 8 true) "h" [.commit]]

/-- Confirms, though it expires. -/
def confirms : PlanIr := smallPlan "p" "web" [.confirm]

theorem not_ended : checkClean perHost = true ∧ inferIntent perHost.plan = some .permanent ∧
    (¬ ∀ ls f, WalksAll Unhindered perHost.plan.body ls f → EndsInCommit ls) ∧
    checkClean confirms = true ∧ inferIntent confirms.plan = some .temporary ∧
    ¬ ∀ ls f, WalksAll Unhindered confirms.plan.body ls f → ∀ it ∈ ls, ¬ RefusedTemporary it := by
  refine ⟨by decide +kernel, rfl, fun h => ?_, by decide +kernel, rfl, fun h => ?_⟩
  · -- the list of hosts is empty
    have hw : WalksAll Unhindered perHost.plan.body [] .continue_ :=
      .inr ⟨[], [], ⟨0, rfl, rfl⟩, ⟨rfl, rfl⟩, rfl⟩
    obtain ⟨before, hb, -⟩ := h _ _ hw
    simp at hb
  · have hw : WalksAll Unhindered confirms.plan.body [.confirm] .continue_ :=
      .inr ⟨[.confirm], [], ⟨rfl, rfl⟩, ⟨rfl, rfl⟩, rfl⟩
    exact h _ _ hw .confirm (by simp) ((refusedTemporary_iff _).mpr (.inr rfl))

/-- Confirms twice, and commits. -/
def twice : PlanIr := lasting [.repeat_ (.count 2) "i" [.confirm], .commit]

theorem twice_ends : checkClean twice = true ∧ inferIntent twice.plan = some .permanent ∧
    commitSkippable twice.plan.body = false ∧
    ∀ ls f, WalksAll Unhindered twice.plan.body ls f → EndsInCommit ls := by
  have hc : checkClean twice = true := by decide +kernel
  have hs : commitSkippable twice.plan.body = false := by decide
  exact ⟨hc, rfl, hs, ((ends_iff twice hc).1 rfl).mpr hs⟩

end Loops

end Rescind
