/-
# `Rescind.Core.Thresholds` — gates in the machine's words

`gates.rs` counts the choices of a threshold's factors by a 64-bit mask and adds
their weights in 32 bits.  `Gates.satisfyingPaths` is the enumeration as the
machine runs it, `none` where the shift or an addition overflows.

    the masks choose every sublist, and nothing else     (`chosen_sublist`,
                                                           `exists_mask`)
    the paths of a threshold                              (`mem_thresholdPaths`)
    it returns exactly where the gate fits                (`satisfyingPaths_isSome`)
    and then what the unbounded enumeration does          (`satisfyingPaths_eq`)
    so the engine's answer on a gate and the check's report, which are modelled over
      the unbounded one, are the machine's of every gate that fits
                                        (`satisfied_unbounded`, `report_unbounded`)

What a gate means is `GateExpr.holds`: a threshold holds when the weights of the
factors that hold add up to it.
-/
import Rescind.Core.Gates
import Rescind.Lib.Threshold

namespace Rescind

open Lib

/-! ## Masks -/

theorem chosen_cons {α : Type} (mask : Nat) (x : α) (xs : List α) :
    chosen mask (x :: xs) = (if mask.testBit 0 then [x] else []) ++ chosen (mask / 2) xs := by
  have shift : ∀ (xs : List α) (k : Nat),
      ((xs.zipIdx (k + 1)).filter fun p => mask.testBit p.2).map Prod.fst =
        ((xs.zipIdx k).filter fun p => (mask / 2).testBit p.2).map Prod.fst := by
    intro xs
    induction xs with
    | nil => intro k; rfl
    | cons y ys ih =>
        intro k
        rw [List.zipIdx_cons, List.zipIdx_cons, List.filter_cons, List.filter_cons,
          Nat.testBit_div_two]
        split
        · rw [List.map_cons, List.map_cons, ih]
        · exact ih (k + 1)
  rw [chosen, chosen, List.zipIdx_cons, List.filter_cons]
  split
  · rw [List.map_cons, shift xs 0]
    rfl
  · exact shift xs 0

/-- What a mask chooses keeps the order. -/
theorem chosen_sublist {α : Type} (mask : Nat) (xs : List α) : (chosen mask xs).Sublist xs := by
  have h : (xs.zipIdx.map Prod.fst) = xs := List.zipIdx_map_fst 0 xs
  have hs := (List.filter_sublist (p := fun p : α × Nat => mask.testBit p.2)
    (l := xs.zipIdx)).map Prod.fst
  rwa [h] at hs

/-- Every choice that keeps the order has its mask. -/
theorem exists_mask {α : Type} {s xs : List α} (h : s.Sublist xs) :
    ∃ mask < 2 ^ xs.length, chosen mask xs = s := by
  induction h with
  | slnil => exact ⟨0, by simp, rfl⟩
  | @cons s xs x _ ih =>
      obtain ⟨mask, hlt, rfl⟩ := ih
      refine ⟨2 * mask, ?_, ?_⟩
      · rw [List.length_cons, Nat.pow_succ]
        omega
      · rw [chosen_cons, Nat.mul_div_cancel_left mask Nat.two_pos]
        simp
  | @cons_cons s xs x _ ih =>
      obtain ⟨mask, hlt, rfl⟩ := ih
      refine ⟨2 * mask + 1, ?_, ?_⟩
      · rw [List.length_cons, Nat.pow_succ]
        omega
      · have hdiv : (2 * mask + 1) / 2 = mask := by omega
        rw [chosen_cons, hdiv]
        simp

/-! ## The paths of a threshold -/

/-- A path for each of the chosen factors, merged. -/
def Merged (s : List (Nat × List GatePath)) (p : GatePath) : Prop :=
  ∃ ps, List.Forall₂ (fun f q => q ∈ f.2) s ps ∧ p = ps.foldr GatePath.merge ⟨[], [], none⟩

theorem mem_foldr_merge {s : List (Nat × List GatePath)} {p : GatePath} :
    p ∈ s.foldr (fun f acc => f.2.flatMap fun q => acc.map fun r => q.merge r) [⟨[], [], none⟩] ↔
      Merged s p := by
  induction s generalizing p with
  | nil =>
      rw [List.foldr_nil, List.mem_singleton]
      constructor
      · rintro rfl
        exact ⟨[], .nil, rfl⟩
      · rintro ⟨ps, hps, rfl⟩
        cases hps
        rfl
  | cons f s ih =>
      rw [List.foldr_cons, List.mem_flatMap]
      constructor
      · rintro ⟨q, hq, hp⟩
        obtain ⟨r, hr, rfl⟩ := List.mem_map.mp hp
        obtain ⟨ps, hps, rfl⟩ := ih.mp hr
        exact ⟨q :: ps, .cons hq hps, rfl⟩
      · rintro ⟨ps, hps, rfl⟩
        cases hps with
        | @cons _ q _ ps hq hps =>
          exact ⟨q, hq, List.mem_map.mpr ⟨_, ih.mpr ⟨ps, hps, rfl⟩, rfl⟩⟩

/-- The check the loop makes of a choice. -/
theorem tight_iff {n : Nat} {α : Type} {s : List (Nat × α)} :
    Tight Prod.fst n s ↔ ¬ (s.map Prod.fst).sum < n ∧
      (s.all (fun f => (s.map Prod.fst).sum - f.1 < n) || s.isEmpty) = true := by
  have hempty : s.isEmpty = true → s.all (fun f => (s.map Prod.fst).sum - f.1 < n) = true := by
    intro h
    rw [List.isEmpty_iff.mp h]
    rfl
  rw [Bool.or_eq_true, or_iff_left_of_imp hempty, List.all_eq_true]
  constructor
  · intro h
    exact ⟨Nat.not_lt.mpr h.reaches, fun f hf => decide_eq_true (h.needed f hf)⟩
  · rintro ⟨hn, hall⟩
    exact ⟨Nat.not_lt.mp hn, fun f hf => of_decide_eq_true (hall f hf)⟩

/-- The paths of one choice: none unless it is tight. -/
def tightPaths (n : Nat) (s : List (Nat × List GatePath)) : List GatePath :=
  if (s.map Prod.fst).sum < n then []
  else if !(s.all (fun f => (s.map Prod.fst).sum - f.1 < n) || s.isEmpty) then []
  else s.foldr (fun f acc => f.2.flatMap fun q => acc.map fun r => q.merge r) [⟨[], [], none⟩]

theorem thresholdPaths_eq (n : Nat) (xs : List (Nat × List GatePath)) :
    thresholdPaths n xs =
      (List.range (2 ^ xs.length)).flatMap fun mask => tightPaths n (chosen mask xs) := rfl

theorem tightPaths_of_tight {n : Nat} {s : List (Nat × List GatePath)}
    (h : Tight Prod.fst n s) : tightPaths n s =
      s.foldr (fun f acc => f.2.flatMap fun q => acc.map fun r => q.merge r)
        [⟨[], [], none⟩] := by
  obtain ⟨hn, hm⟩ := tight_iff.mp h
  rw [tightPaths, if_neg hn, hm]
  rfl

theorem tightPaths_of_not {n : Nat} {s : List (Nat × List GatePath)}
    (h : ¬ Tight Prod.fst n s) : tightPaths n s = [] := by
  rw [tightPaths]
  split
  · rfl
  next hn =>
    split
    · rfl
    next hm =>
      exact absurd (tight_iff.mpr ⟨hn, by simpa only [Bool.not_eq_true', Bool.not_eq_false] using hm⟩) h

/-- **The paths of a threshold**: a tight choice of its factors, and a path for
each of them. -/
theorem mem_thresholdPaths {n : Nat} {xs : List (Nat × List GatePath)} {p : GatePath} :
    p ∈ thresholdPaths n xs ↔ ∃ s, s.Sublist xs ∧ Tight Prod.fst n s ∧ Merged s p := by
  have body : ∀ s, p ∈ tightPaths n s ↔ Tight Prod.fst n s ∧ Merged s p := by
    intro s
    by_cases ht : Tight Prod.fst n s
    · rw [tightPaths_of_tight ht, mem_foldr_merge, and_iff_right ht]
    · rw [tightPaths_of_not ht]
      exact iff_of_false List.not_mem_nil fun h => ht h.1
  rw [thresholdPaths_eq, List.mem_flatMap]
  constructor
  · rintro ⟨mask, -, hp⟩
    exact ⟨chosen mask xs, chosen_sublist mask xs, (body _).mp hp⟩
  · rintro ⟨s, hs, hp⟩
    obtain ⟨mask, hlt, rfl⟩ := exists_mask hs
    exact ⟨mask, List.mem_range.mpr hlt, (body _).mpr hp⟩

/-! ## What a gate means -/

section

variable (auths : List Authenticator) (proofs : List String) (elapsed : Duration)

mutual

/-- An authenticator holds when it is published and proved, `humans()` when some
published human is, a wait when it has elapsed. -/
def Factor.holds : Factor → Bool
  | .auth id _ => auths.any (fun a => a.id = id) && proofs.contains id
  | .humans _ => auths.any fun a => a.human && proofs.contains a.id
  | .group expr _ => expr.holds
  | .wait duration _ => duration.seconds ≤ elapsed.seconds

/-- The weights of the factors that hold, added up. -/
def heldWeight : List Factor → Nat
  | [] => 0
  | f :: fs => (if f.holds then f.weight else 0) + heldWeight fs

/-- A threshold holds when the weights of the factors that hold reach it. -/
def GateExpr.holds : GateExpr → Bool
  | .single f => f.holds
  | .thresh n factors => n ≤ heldWeight factors

end

end

/-! ## The machine's enumeration -/

namespace Gates

/-- One shifted left in 64 bits. -/
def shl64 (k : Nat) : Option Nat := if k < 64 then some (2 ^ k) else none

/-- The weights added up in 32 bits, one after another. -/
def sum32 (ws : List Nat) : Option Nat :=
  ws.foldlM (fun acc w => if acc + w < 2 ^ 32 then some (acc + w) else none) 0

/-- The paths of one choice of factors. -/
def choicePaths (n : Nat) (picked : List (Nat × Option (List GatePath))) :
    Option (List GatePath) :=
  (sum32 (picked.map Prod.fst)).bind fun total =>
    if total < n then some []
    else if !(picked.all (fun f => total - f.1 < n) || picked.isEmpty) then some []
    else picked.foldrM
      (fun f acc => f.2.map fun ps => ps.flatMap fun p => acc.map fun q => p.merge q)
      [⟨[], [], none⟩]

/-- The paths of a threshold, from the weight and the paths of each factor; a
factor's paths are asked for only where the loop comes to them. -/
def thresholdPaths (n : Nat) (factors : List (Nat × Option (List GatePath))) :
    Option (List GatePath) :=
  (shl64 factors.length).bind fun masks =>
    ((List.range masks).mapM fun mask => choicePaths n (chosen mask factors)).map List.flatten

mutual

def factorPaths (auths : List Authenticator) : Factor → Option (List GatePath)
  | .group expr _ => satisfyingPaths auths expr
  | f => some (Rescind.factorPaths auths f)

def factorsPaths (auths : List Authenticator) : List Factor → List (Nat × Option (List GatePath))
  | [] => []
  | f :: fs => (f.weight, factorPaths auths f) :: factorsPaths auths fs

/-- Every satisfying path of a gate, as the machine finds them. -/
def satisfyingPaths (auths : List Authenticator) : GateExpr → Option (List GatePath)
  | .single f => factorPaths auths f
  | .thresh n factors => thresholdPaths n (factorsPaths auths factors)

end

/-- Whether every authenticator of a path has a proof. -/
def proved (proofs : List String) (p : GatePath) : Bool := p.auths.all fun id => proofs.contains id

/-- The smallest of some numbers of seconds. -/
def earliest (ds : List Duration) : Option Duration :=
  ((ds.map Duration.seconds).min?).map Duration.mk

/-- Whether a gate is satisfied now. -/
def satisfied (auths : List Authenticator) (g : GateExpr) (proofs : List String)
    (elapsed : Duration) : Option Bool :=
  (satisfyingPaths auths g).map fun ps => ps.any fun p =>
    proved proofs p && p.wait.all fun w => w.seconds ≤ elapsed.seconds

/-- The earliest a gate could be satisfied with the proofs it has. -/
def satisfiableAt (auths : List Authenticator) (g : GateExpr) (proofs : List String) :
    Option (Option Duration) :=
  (satisfyingPaths auths g).map fun ps =>
    earliest ((ps.filter (proved proofs)).map fun p => p.wait.getD ⟨0⟩)

/-- What a check reports of a gate. -/
structure Report extends GateReport where
  /-- Over satisfying paths; `none` if there is none. -/
  minDistinctHumans : Option Nat
  /-- Earliest instant satisfiable by waits only. -/
  waitAloneAt : Option Duration

def report (auths : List Authenticator) (g : GateExpr) : Option Report :=
  (satisfyingPaths auths g).map fun ps =>
    { satisfiable := !ps.isEmpty
      zeroHumanPath := ps.any fun p => p.humans.isEmpty
      minDistinctHumans := (ps.map fun p => p.humans.length).min?
      waitAloneAt := earliest ((ps.filter fun p => p.humans.isEmpty).filterMap GatePath.wait) }

/-! ### Where it returns -/

theorem shl64_eq_some {k m : Nat} : shl64 k = some m ↔ k < 64 ∧ m = 2 ^ k := by
  rw [shl64]
  split
  next h =>
    rw [and_iff_right h, Option.some.injEq]
    exact eq_comm
  next h => exact iff_of_false (fun he => by cases he) fun he => h he.1

/-- The weights add up in 32 bits exactly when all of them together do. -/
theorem sum32_eq (ws : List Nat) : sum32 ws = if ws.sum < 2 ^ 32 then some ws.sum else none := by
  have go : ∀ (ws : List Nat) (acc : Nat), acc < 2 ^ 32 →
      ws.foldlM (fun acc w => if acc + w < 2 ^ 32 then some (acc + w) else none) acc =
        if acc + ws.sum < 2 ^ 32 then some (acc + ws.sum) else none := by
    intro ws
    induction ws with
    | nil =>
        intro acc hacc
        rw [List.foldlM_nil, List.sum_nil, Nat.add_zero, if_pos hacc]
        rfl
    | cons w ws ih =>
        intro acc hacc
        rw [List.foldlM_cons, List.sum_cons, ← Nat.add_assoc]
        by_cases hw : acc + w < 2 ^ 32
        · rw [if_pos hw]
          exact ih (acc + w) hw
        · rw [if_neg hw, if_neg (by omega)]
          rfl
  have h := go ws 0 (by decide)
  rwa [Nat.zero_add] at h

/-- What the loop merges, where the paths of every chosen factor were found. -/
theorem foldrM_merge {s : List (Nat × Option (List GatePath))} {ps : List GatePath} :
    s.foldrM (fun f acc => f.2.map fun ps => ps.flatMap fun p => acc.map fun q => p.merge q)
        [⟨[], [], none⟩] = some ps ↔
      (∀ f ∈ s, f.2.isSome = true) ∧ ps = (s.map fun f => (f.1, f.2.getD [])).foldr
        (fun f acc => f.2.flatMap fun q => acc.map fun r => q.merge r) [⟨[], [], none⟩] := by
  induction s generalizing ps with
  | nil =>
      rw [List.foldrM_nil, and_iff_right (List.forall_mem_nil _)]
      exact Option.some_inj.trans eq_comm
  | cons f s ih =>
      obtain ⟨w, o⟩ := f
      rw [List.foldrM_cons, List.map_cons, List.foldr_cons]
      constructor
      · intro h
        obtain ⟨acc, hacc, h⟩ := Option.bind_eq_some_iff.mp h
        obtain ⟨hall, rfl⟩ := ih.mp hacc
        obtain ⟨qs, rfl, rfl⟩ := Option.map_eq_some_iff.mp h
        exact ⟨List.forall_mem_cons.mpr ⟨rfl, hall⟩, rfl⟩
      · rintro ⟨hall, rfl⟩
        obtain ⟨ho, hrest⟩ := List.forall_mem_cons.mp hall
        obtain ⟨qs, rfl⟩ := Option.isSome_iff_exists.mp ho
        exact Option.bind_eq_some_iff.mpr ⟨_, ih.mpr ⟨hrest, rfl⟩, rfl⟩

/-- The paths of a choice, where the enumeration gets that far. -/
theorem choicePaths_eq_some {n : Nat} {s : List (Nat × Option (List GatePath))}
    {ps : List GatePath} :
    choicePaths n s = some ps ↔ total Prod.fst s < 2 ^ 32 ∧
      (Tight Prod.fst n s → ∀ f ∈ s, f.2.isSome = true) ∧
      ps = tightPaths n (s.map fun f => (f.1, f.2.getD [])) := by
  have hfst : (s.map fun f => (f.1, f.2.getD [])).map Prod.fst = s.map Prod.fst := by
    rw [List.map_map]
    rfl
  have htight : Tight Prod.fst n (s.map fun f => (f.1, f.2.getD [])) ↔ Tight Prod.fst n s := by
    rw [← tight_map, hfst, tight_map]
  rw [choicePaths, sum32_eq]
  by_cases hsum : (s.map Prod.fst).sum < 2 ^ 32
  · rw [if_pos hsum, Option.bind_some, total, and_iff_right hsum]
    by_cases ht : Tight Prod.fst n s
    · obtain ⟨hn, hm⟩ := tight_iff.mp ht
      rw [if_neg hn, hm, tightPaths_of_tight (htight.mpr ht)]
      exact foldrM_merge.trans (and_congr_left fun _ => ⟨fun h _ => h, fun h => h ht⟩)
    · rw [tightPaths_of_not fun h => ht (htight.mp h)]
      have hnil : (if (s.map Prod.fst).sum < n then some []
          else if !(s.all (fun f => (s.map Prod.fst).sum - f.1 < n) || s.isEmpty) then some []
          else s.foldrM
            (fun f acc => f.2.map fun ps => ps.flatMap fun p => acc.map fun q => p.merge q)
            [⟨[], [], none⟩]) = some [] := by
        split
        · rfl
        next hn =>
          split
          · rfl
          next hm =>
            exact absurd (tight_iff.mpr
              ⟨hn, by simpa only [Bool.not_eq_true', Bool.not_eq_false] using hm⟩) ht
      rw [hnil, and_iff_right fun h => absurd h ht]
      exact Option.some_inj.trans eq_comm
  · rw [if_neg hsum]
    exact iff_of_false (fun h => by cases h) fun h => hsum h.1

theorem choicePaths_isSome {n : Nat} {s : List (Nat × Option (List GatePath))} :
    (choicePaths n s).isSome = true ↔ total Prod.fst s < 2 ^ 32 ∧
      (Tight Prod.fst n s → ∀ f ∈ s, f.2.isSome = true) := by
  rw [Option.isSome_iff_exists]
  constructor
  · rintro ⟨ps, h⟩
    obtain ⟨hsum, hall, -⟩ := choicePaths_eq_some.mp h
    exact ⟨hsum, hall⟩
  · rintro ⟨hsum, hall⟩
    exact ⟨_, choicePaths_eq_some.mpr ⟨hsum, hall, rfl⟩⟩

theorem mapM_isSome {α β : Type} {f : α → Option β} {xs : List α} :
    (xs.mapM f).isSome = true ↔ ∀ x ∈ xs, (f x).isSome = true := by
  induction xs with
  | nil => exact iff_of_true rfl (List.forall_mem_nil _)
  | cons x xs ih =>
      rw [List.mapM_cons, List.forall_mem_cons, ← ih]
      cases f x <;> cases xs.mapM f <;> simp

/-- A list of results, each known, is the list of what is known. -/
theorem mapM_eq_map {α β : Type} {f : α → Option β} {g : α → β} {xs : List α} {ys : List β}
    (h : xs.mapM f = some ys) (hg : ∀ x y, f x = some y → y = g x) : ys = xs.map g := by
  induction xs generalizing ys with
  | nil => exact (Option.some.inj h).symm
  | cons x xs ih =>
      rw [List.mapM_cons] at h
      obtain ⟨y, hy, h⟩ := Option.bind_eq_some_iff.mp h
      obtain ⟨zs, hzs, h⟩ := Option.bind_eq_some_iff.mp h
      rw [← Option.some.inj h, List.map_cons, hg x y hy, ih hzs]

/-- **A threshold returns** when its factors are few, their weights fit, and so
does every factor of a tight choice. -/
theorem thresholdPaths_isSome {n : Nat} {xs : List (Nat × Option (List GatePath))} :
    (thresholdPaths n xs).isSome = true ↔ xs.length < 64 ∧ total Prod.fst xs < 2 ^ 32 ∧
      ∀ s, s.Sublist xs → Tight Prod.fst n s → ∀ f ∈ s, f.2.isSome = true := by
  rw [thresholdPaths, shl64]
  by_cases hlen : xs.length < 64
  · rw [if_pos hlen, Option.bind_some, Option.isSome_map, mapM_isSome, and_iff_right hlen]
    constructor
    · intro h
      have at_ : ∀ s, s.Sublist xs → (choicePaths n s).isSome = true := by
        intro s hs
        obtain ⟨mask, hlt, rfl⟩ := exists_mask hs
        exact h mask (List.mem_range.mpr hlt)
      refine ⟨(choicePaths_isSome.mp (at_ xs (List.Sublist.refl xs))).1, ?_⟩
      intro s hs
      exact (choicePaths_isSome.mp (at_ s hs)).2
    · rintro ⟨hsum, hall⟩ mask -
      have hs := chosen_sublist mask xs
      exact choicePaths_isSome.mpr ⟨(total_le_of_sublist hs).trans_lt hsum, hall _ hs⟩
  · rw [if_neg hlen]
    exact iff_of_false Bool.false_ne_true fun h => hlen h.1

/-- The paths the machine found for a factor, where it looked, are its paths. -/
def Agrees (f : Nat × Option (List GatePath)) (g : Nat × List GatePath) : Prop :=
  f.1 = g.1 ∧ ∀ ps, f.2 = some ps → ps = g.2

theorem chosen_forall₂ {α β : Type} {R : α → β → Prop} {xs : List α} {ys : List β}
    (h : List.Forall₂ R xs ys) (mask : Nat) :
    List.Forall₂ R (chosen mask xs) (chosen mask ys) := by
  induction h generalizing mask with
  | nil => exact .nil
  | cons hxy _ ih =>
      rw [chosen_cons, chosen_cons]
      split
      · exact .cons hxy (ih _)
      · exact ih _

theorem choicePaths_agrees {n : Nat} {s : List (Nat × Option (List GatePath))}
    {t : List (Nat × List GatePath)} {ps : List GatePath} (h : List.Forall₂ Agrees s t)
    (hs : choicePaths n s = some ps) : ps = tightPaths n t := by
  obtain ⟨-, hall, rfl⟩ := choicePaths_eq_some.mp hs
  by_cases ht : Tight Prod.fst n s
  · -- every chosen factor's paths were found
    have hst : (s.map fun f => (f.1, f.2.getD [])) = t := by
      have hfound := hall ht
      clear hs ht hall
      induction h with
      | nil => rfl
      | @cons f g s t hfg _ ih =>
          obtain ⟨hf, hrest⟩ := List.forall_mem_cons.mp hfound
          obtain ⟨qs, hqs⟩ := Option.isSome_iff_exists.mp hf
          have hg : (f.1, f.2.getD []) = g := by
            rw [hqs, Option.getD_some, hfg.1, hfg.2 qs hqs]
          rw [List.map_cons, hg, ih hrest]
    rw [hst]
  · have hfst : s.map Prod.fst = t.map Prod.fst := by
      clear hs hall ht
      induction h with
      | nil => rfl
      | cons hfg _ ih => rw [List.map_cons, List.map_cons, hfg.1, ih]
    have hkeep : (s.map fun f => (f.1, f.2.getD [])).map Prod.fst = s.map Prod.fst := by
      rw [List.map_map]
      rfl
    rw [tightPaths_of_not, tightPaths_of_not]
    · rwa [← tight_map, ← hfst, tight_map]
    · rwa [← tight_map, hkeep, tight_map]

/-- **What the machine finds** is what the unbounded enumeration does. -/
theorem thresholdPaths_agrees {n : Nat} {xs : List (Nat × Option (List GatePath))}
    {ys : List (Nat × List GatePath)} {ps : List GatePath} (h : List.Forall₂ Agrees xs ys)
    (hs : thresholdPaths n xs = some ps) : ps = Rescind.thresholdPaths n ys := by
  obtain ⟨m, hm, hs⟩ := Option.bind_eq_some_iff.mp hs
  obtain ⟨-, rfl⟩ := shl64_eq_some.mp hm
  obtain ⟨found, hfound, rfl⟩ := Option.map_eq_some_iff.mp hs
  rw [mapM_eq_map hfound fun mask _ => choicePaths_agrees (chosen_forall₂ h mask),
    thresholdPaths_eq, h.length_eq, List.flatMap_def]

end Gates

/-! ### Gates that fit -/

/-- A threshold fits: fewer than 64 factors, weights that add up in 32 bits, and
every factor on which some choice turns fits in its turn. -/
def Fitting (n : Nat) (xs : List (Nat × Prop)) : Prop :=
  xs.length < 64 ∧ total Prod.fst xs < 2 ^ 32 ∧
    ∀ l x r, xs = l ++ x :: r → Pivotal Prod.fst n (l ++ r) x → x.2

mutual

def Factor.fits : Factor → Prop
  | .group expr _ => expr.fits
  | _ => True

def factorsFit : List Factor → List (Nat × Prop)
  | [] => []
  | f :: fs => (f.weight, f.fits) :: factorsFit fs

/-- A gate the machine can count: so at every depth it comes to. -/
def GateExpr.fits : GateExpr → Prop
  | .single f => f.fits
  | .thresh n factors => Fitting n (factorsFit factors)

end

mutual

def Factor.narrow : Factor → Prop
  | .group expr _ => expr.narrow
  | _ => True

def factorsNarrow : List Factor → Prop
  | [] => True
  | f :: fs => f.narrow ∧ factorsNarrow fs

/-- Every threshold, at every depth, has fewer than 64 factors, and weights that
add up in 32 bits. -/
def GateExpr.narrow : GateExpr → Prop
  | .single f => f.narrow
  | .thresh _ factors =>
      factors.length < 64 ∧ total Factor.weight factors < 2 ^ 32 ∧ factorsNarrow factors

end

/-- Of the tight choices, or of the factors on which one turns. -/
theorem fitting_iff {n : Nat} {xs : List (Nat × Prop)} :
    Fitting n xs ↔ xs.length < 64 ∧ total Prod.fst xs < 2 ^ 32 ∧
      ∀ s, s.Sublist xs → Tight Prod.fst n s → ∀ x ∈ s, x.2 := by
  have h := @pivotal_iff (Nat × Prop) Prod.fst n xs fun x => ¬ x.2
  refine and_congr_right fun _ => and_congr_right fun _ => ?_
  constructor
  · intro hp s hs ht x hx
    by_contra hx2
    obtain ⟨l, y, r, he, hpiv, hy⟩ := h.mp ⟨s, x, hs, ht, hx, hx2⟩
    exact hy (hp l y r he hpiv)
  · intro ht l x r he hpiv
    by_contra hx2
    obtain ⟨s, y, hs, hs', hy, hy2⟩ := h.mpr ⟨l, x, r, he, hpiv, hx2⟩
    exact hy2 (ht s hs hs' y hy)

namespace Gates

variable {auths : List Authenticator}

/-- Whether a threshold returns, told from whether its factors do. -/
theorem thresholdPaths_isSome_map {n : Nat} {xs : List (Nat × Option (List GatePath))} :
    (thresholdPaths n xs).isSome = true ↔ Fitting n (xs.map fun f => (f.1, f.2.isSome = true)) := by
  have hfst : (xs.map fun f => (f.1, f.2.isSome = true)).map Prod.fst = xs.map Prod.fst := by
    rw [List.map_map]
    rfl
  rw [thresholdPaths_isSome, fitting_iff, List.length_map, total, total, hfst]
  refine and_congr_right fun _ => and_congr_right fun _ => ?_
  constructor
  · intro h s hs ht x hx
    obtain ⟨t, hsub, rfl⟩ := List.sublist_map_iff.mp hs
    obtain ⟨f, hf, rfl⟩ := List.mem_map.mp hx
    refine h t hsub ?_ f hf
    rw [← tight_map, List.map_map] at ht
    rwa [← tight_map]
  · intro h s hs ht f hf
    refine h _ (hs.map _) ?_ _ (List.mem_map_of_mem hf)
    rw [← tight_map, List.map_map]
    rwa [← tight_map] at ht

mutual

theorem factorPaths_isSome (f : Factor) : (factorPaths auths f).isSome = true ↔ f.fits := by
  match f with
  | .group expr _ => exact satisfyingPaths_isSome expr
  | .auth _ _ | .humans _ | .wait _ _ => exact iff_of_true rfl trivial

theorem factorsPaths_fit (fs : List Factor) :
    (factorsPaths auths fs).map (fun f => (f.1, f.2.isSome = true)) = factorsFit fs := by
  match fs with
  | [] => rfl
  | f :: fs =>
      rw [factorsPaths, factorsFit, List.map_cons, factorsPaths_fit fs,
        propext (factorPaths_isSome f)]

/-- **It returns** exactly where the gate fits. -/
theorem satisfyingPaths_isSome (g : GateExpr) :
    (satisfyingPaths auths g).isSome = true ↔ g.fits := by
  match g with
  | .single f => exact factorPaths_isSome f
  | .thresh n factors =>
      rw [satisfyingPaths, GateExpr.fits, ← factorsPaths_fit factors]
      exact thresholdPaths_isSome_map

end

mutual

theorem factorPaths_eq {f : Factor} {ps : List GatePath} (h : factorPaths auths f = some ps) :
    ps = Rescind.factorPaths auths f := by
  match f with
  | .group expr _ => exact satisfyingPaths_eq h
  | .auth _ _ | .humans _ | .wait _ _ => exact (Option.some.inj h).symm

theorem factorsPaths_agree (fs : List Factor) :
    List.Forall₂ Agrees (factorsPaths auths fs) (Rescind.factorsPaths auths fs) := by
  match fs with
  | [] => exact .nil
  | f :: fs => exact .cons ⟨rfl, fun _ h => factorPaths_eq h⟩ (factorsPaths_agree fs)

/-- **And finds** what the unbounded enumeration finds. -/
theorem satisfyingPaths_eq {g : GateExpr} {ps : List GatePath}
    (h : satisfyingPaths auths g = some ps) : ps = Rescind.satisfyingPaths auths g := by
  match g with
  | .single f => exact factorPaths_eq h
  | .thresh n factors => exact thresholdPaths_agrees (factorsPaths_agree factors) h

end

theorem satisfyingPaths_of_fits {g : GateExpr} (h : g.fits) :
    satisfyingPaths auths g = some (Rescind.satisfyingPaths auths g) := by
  obtain ⟨ps, hps⟩ := Option.isSome_iff_exists.mp ((@satisfyingPaths_isSome auths g).mpr h)
  rw [hps, satisfyingPaths_eq hps]

/-- Of a gate that fits the engine answers what the unbounded model of it does. -/
theorem satisfied_unbounded {g : GateExpr} (h : g.fits) (proofs : List String) (elapsed : Duration) :
    satisfied auths g proofs elapsed = some (gateSatisfiedBy auths g proofs elapsed) := by
  rw [satisfied, satisfyingPaths_of_fits h, Option.map_some, gateSatisfiedBy]
  refine congrArg (fun f => some (List.any (Rescind.satisfyingPaths auths g) f)) (funext fun p => ?_)
  cases p.wait <;> rfl

/-- And the check reports the same. -/
theorem report_unbounded {g : GateExpr} (h : g.fits) :
    (report auths g).map Report.toGateReport = some (gateReport auths g) := by
  rw [report, satisfyingPaths_of_fits h]
  rfl

end Gates

mutual

theorem Factor.fits_of_narrow {f : Factor} (h : f.narrow) : f.fits := by
  match f with
  | .group expr _ => exact GateExpr.fits_of_narrow h
  | .auth _ _ | .humans _ | .wait _ _ => trivial

theorem factorsFit_of_narrow {fs : List Factor} (h : factorsNarrow fs) :
    ∀ x ∈ factorsFit fs, x.2 := by
  match fs with
  | [] => exact List.forall_mem_nil _
  | f :: fs =>
      exact List.forall_mem_cons.mpr ⟨Factor.fits_of_narrow h.1, factorsFit_of_narrow h.2⟩

/-- A narrow gate fits. -/
theorem GateExpr.fits_of_narrow {g : GateExpr} (h : g.narrow) : g.fits := by
  match g with
  | .single f => exact Factor.fits_of_narrow h
  | .thresh n factors =>
      have hfst : (factorsFit factors).map Prod.fst = factors.map Factor.weight := by
        clear h
        induction factors with
        | nil => rfl
        | cons f fs ih => rw [factorsFit, List.map_cons, List.map_cons, ih]
      obtain ⟨hlen, hsum, hall⟩ := h
      refine ⟨?_, ?_, ?_⟩
      · rwa [← List.length_map Prod.fst, hfst, List.length_map]
      · rwa [total, hfst]
      · intro l x r he _
        refine factorsFit_of_narrow hall x ?_
        rw [he]
        exact List.mem_append_right l List.mem_cons_self

end

end Rescind
