/-
# `Rescind.Core.Verdict` — what a verdict says of reversal

How far a plan reverses, where its holds are and what it reverts back to, each
read off the numbered leaves.

**Proved here.**

    a plan reverses through the step the verdict names, and through no later
    one if it has a knell                                 (`reverse_through`)
    the segments are the leaves between the knells        (`Cuts.rejoin`)
    a hold is listed if it is the first since the knell
    before it                                             (`Cuts.mem_holds`)
    all of it together                                    (`verdict_reversal`)
-/
import Rescind.Core.Check
import Rescind.Core.Reverse

namespace Rescind

/-! ## The verdict -/

/-- Split step numbers into segments: before the first knell, and after each
knell up to the next. -/
def splitSegments : List Nat → List Nat → List (List Nat)
  | ns, [] => [ns]
  | ns, k :: rest => ns.takeWhile (· < k) :: splitSegments (ns.filter (k < ·)) rest

section
variable (p : Plan)

def stepOps : List (Nat × Op) :=
  (numbered p.body).filterMap fun q => (opOf q.2).map fun o => (q.1, o)

/-- A conflict whose fact is an anchor declared twice is reported as that. -/
def conflictList : List Conflict :=
  (conflict p.owner p.body).filter fun c => !(anchorDuplicates p.owner p.body).contains c

def firstKnell : Option Nat := ((numbered p.body).find? fun q => q.2.isKnell).map Prod.fst

def lastStep : Nat := (numbered p.body).length

/-- With a knell, every step before it; without one, the last mutating step; and
nothing of a plan with a conflict. -/
def reversibleThrough : Nat :=
  if (conflictList p).isEmpty then
    match firstKnell p with
    | some k => k - 1
    | none => ((stepOps p).map Prod.fst).max?.getD 0
  else 0

def knellSteps : List Nat :=
  (((numbered p.body).filter fun q => q.2.isKnell).map Prod.fst).mergeSort

def allSteps : List Nat := (numbered p.body).map Prod.fst

def isHolding (n : Nat) : Bool := (stepOps p).any fun q => q.1 = n && q.2.refusal.isHold

def segments : List (List Nat) := splitSegments (allSteps p) (knellSteps p)

/-- The first `:hold` step in each knell segment. -/
def holdsAt : List Nat := (segments p).filterMap fun seg => seg.find? (isHolding p)

/-- What an undo goes back to: the last knell, where steps come after it. -/
def backTo : Option (Nat × Nat) :=
  match (knellSteps p).getLast? with
  | some n => if n < lastStep p then some (lastStep p, n) else none
  | none => none

end

/-! ## Numbers cut by knells -/

/-- Numbers in order, cut at some of them. -/
inductive Cuts : List Nat → List Nat → Prop
  | last {ns : List Nat} (h : ns.Pairwise (· < ·)) : Cuts ns []
  | knell {before after ks : List Nat} {k : Nat} (hb : before.Pairwise (· < ·))
      (hlt : ∀ n ∈ before, n < k) (hgt : ∀ n ∈ after, k < n) (rest : Cuts after ks) :
      Cuts (before ++ k :: after) (k :: ks)

theorem cuts_of_sorted {ns ks : List Nat} (hn : ns.Pairwise (· < ·)) (hk : ks.Pairwise (· < ·))
    (hm : ∀ k ∈ ks, k ∈ ns) : Cuts ns ks := by
  induction ks generalizing ns with
  | nil => exact .last hn
  | cons k ks ih =>
      obtain ⟨before, after, rfl⟩ := List.append_of_mem (hm k List.mem_cons_self)
      obtain ⟨hb, ha, hlt⟩ := List.pairwise_append.mp hn
      obtain ⟨hgt, ha⟩ := List.pairwise_cons.mp ha
      obtain ⟨hfirst, hk⟩ := List.pairwise_cons.mp hk
      refine .knell hb (fun n hn => hlt n hn k List.mem_cons_self) hgt (ih ha hk fun j hj => ?_)
      have hj' := hfirst j hj
      rcases List.mem_append.mp (hm j (List.mem_cons_of_mem _ hj)) with hin | hin
      · have hjk := hlt j hin k List.mem_cons_self
        omega
      · rcases List.mem_cons.mp hin with rfl | hin
        · omega
        · exact hin

/-- At a knell the segments are those before it and those of what follows it. -/
theorem splitSegments_cut {before after ks : List Nat} {k : Nat} (hlt : ∀ n ∈ before, n < k)
    (hgt : ∀ n ∈ after, k < n) :
    splitSegments (before ++ k :: after) (k :: ks) = before :: splitSegments after ks := by
  have htake : (before ++ k :: after).takeWhile (· < k) = before := by
    rw [List.takeWhile_append_of_pos fun n hn => decide_eq_true (hlt n hn),
      List.takeWhile_cons_of_neg (by rw [decide_eq_true_eq]; exact Nat.lt_irrefl k), List.append_nil]
  have hfilter : (before ++ k :: after).filter (k < ·) = after := by
    have hb : before.filter (k < ·) = [] := List.filter_eq_nil_iff.mpr fun n hn => by
      have hn' := hlt n hn
      simp only [decide_eq_true_eq]
      omega
    have ha : after.filter (k < ·) = after := List.filter_eq_self.mpr fun n hn =>
      decide_eq_true (hgt n hn)
    rw [List.filter_append, hb, List.filter_cons_of_neg (by rw [decide_eq_true_eq]; exact Nat.lt_irrefl k),
      ha, List.nil_append]
  rw [splitSegments, htake, hfilter]

/-- Segments put together again around the numbers between them. -/
def rejoin : List (List Nat) → List Nat → List Nat
  | seg :: segs, k :: ks => seg ++ k :: rejoin segs ks
  | segs, _ => segs.flatten

theorem not_mem_knells {n k : Nat} {ks : List Nat} : n ∉ k :: ks ↔ n ≠ k ∧ n ∉ ks := by
  rw [List.mem_cons, not_or]

namespace Cuts

variable {ns ks : List Nat}

theorem rejoin (h : Cuts ns ks) : Rescind.rejoin (splitSegments ns ks) ks = ns := by
  induction h with
  | last h => exact List.append_nil _
  | knell hb hlt hgt rest ih => rw [splitSegments_cut hlt hgt, Rescind.rejoin, ih]

theorem mem_of_knell (h : Cuts ns ks) {k : Nat} (hk : k ∈ ks) : k ∈ ns := by
  induction h with
  | last h => cases hk
  | knell hb hlt hgt rest ih =>
      rcases List.mem_cons.mp hk with rfl | hk
      · exact List.mem_append_right _ List.mem_cons_self
      · exact List.mem_append_right _ (List.mem_cons_of_mem _ (ih hk))

theorem mem_segment (h : Cuts ns ks) {seg : List Nat} (hs : seg ∈ splitSegments ns ks) {n : Nat}
    (hn : n ∈ seg) : n ∈ ns ∧ n ∉ ks := by
  induction h with
  | last h =>
      rw [splitSegments, List.mem_singleton] at hs
      exact ⟨hs ▸ hn, List.not_mem_nil⟩
  | knell hb hlt hgt rest ih =>
      rw [splitSegments_cut hlt hgt] at hs
      rcases List.mem_cons.mp hs with rfl | hs
      · have hnk := hlt n hn
        refine ⟨List.mem_append_left _ hn, not_mem_knells.mpr ⟨by omega, fun hks => ?_⟩⟩
        have hkn := hgt n (rest.mem_of_knell hks)
        omega
      · obtain ⟨hin, hks⟩ := ih hs
        have hkn := hgt n hin
        exact ⟨List.mem_append_right _ (List.mem_cons_of_mem _ hin),
          not_mem_knells.mpr ⟨by omega, hks⟩⟩

/-- The segments of consecutive numbers are of consecutive numbers. -/
theorem consecutive (h : Cuts ns ks) {a m : Nat} (hn : ns = List.range' a m) {seg : List Nat}
    (hs : seg ∈ splitSegments ns ks) : ∃ b l, seg = List.range' b l := by
  induction h generalizing a m with
  | last h =>
      rw [splitSegments, List.mem_singleton] at hs
      exact ⟨a, m, hs.trans hn⟩
  | knell hb hlt hgt rest ih =>
      obtain ⟨j, _, hbefore, hafter⟩ := List.range'_eq_append_iff.mp hn.symm
      obtain ⟨_, _, hafter⟩ := List.range'_eq_cons_iff.mp hafter.symm
      rw [splitSegments_cut hlt hgt] at hs
      rcases List.mem_cons.mp hs with rfl | hs
      · exact ⟨a, j, hbefore⟩
      · exact ih hafter hs

/-- In order, the first that holds is the one with none before it. -/
theorem find_sorted {hold : Nat → Bool} {n : Nat} (h : ns.Pairwise (· < ·)) :
    ns.find? hold = some n ↔ (n ∈ ns ∧ hold n = true) ∧ ∀ m ∈ ns, hold m = true → ¬m < n := by
  induction ns with
  | nil => exact iff_of_false (fun h => by cases h) fun h => by cases h.1.1
  | cons x ns ih =>
      obtain ⟨hlt, hs⟩ := List.pairwise_cons.mp h
      by_cases hx : hold x = true
      · rw [List.find?_cons_of_pos hx, Option.some.injEq]
        constructor
        · rintro rfl
          refine ⟨⟨List.mem_cons_self, hx⟩, fun m hm _ hmx => ?_⟩
          rcases List.mem_cons.mp hm with rfl | hm
          · exact Nat.lt_irrefl _ hmx
          · exact Nat.lt_asymm hmx (hlt m hm)
        · rintro ⟨⟨hn, _⟩, hfirst⟩
          rcases List.mem_cons.mp hn with rfl | hn
          · rfl
          · exact absurd (hlt n hn) (hfirst x List.mem_cons_self hx)
      · rw [List.find?_cons_of_neg hx, ih hs]
        constructor
        · rintro ⟨⟨hn, hh⟩, hfirst⟩
          refine ⟨⟨List.mem_cons_of_mem _ hn, hh⟩, fun m hm hhm => ?_⟩
          rcases List.mem_cons.mp hm with rfl | hm
          · exact absurd hhm hx
          · exact hfirst m hm hhm
        · rintro ⟨⟨hn, hh⟩, hfirst⟩
          rcases List.mem_cons.mp hn with rfl | hn
          · exact absurd hh hx
          · exact ⟨⟨hn, hh⟩, fun m hm => hfirst m (List.mem_cons_of_mem _ hm)⟩

/-- The first of each segment that holds. -/
def holds (hold : Nat → Bool) (segs : List (List Nat)) : List Nat :=
  segs.filterMap fun seg => seg.find? hold

/-- A hold is listed if it is the first since the knell before it. -/
theorem mem_holds (h : Cuts ns ks) (hold : Nat → Bool) (n : Nat) :
    n ∈ holds hold (splitSegments ns ks) ↔
      (n ∈ ns ∧ n ∉ ks ∧ hold n = true) ∧
        ∀ m ∈ ns, m ∉ ks → hold m = true → m < n → ∃ k ∈ ks, m < k ∧ k < n := by
  induction h with
  | last h =>
      rw [splitSegments, holds, List.mem_filterMap]
      simp only [List.mem_singleton, exists_eq_left, find_sorted h, List.not_mem_nil, not_false_eq_true,
        true_and, false_and, exists_false, true_implies]
  | @knell before after ks k hb hlt hgt rest ih =>
      have hks : ∀ j ∈ ks, k < j := fun j hj => hgt j (rest.mem_of_knell hj)
      have hcons : n ∈ holds hold (before :: splitSegments after ks) ↔
          before.find? hold = some n ∨ n ∈ holds hold (splitSegments after ks) := by
        simp only [holds, List.mem_filterMap, List.mem_cons, exists_eq_or_imp]
      rw [splitSegments_cut hlt hgt, hcons, find_sorted hb, ih]
      constructor
      · rintro (⟨⟨hn, hh⟩, hfirst⟩ | ⟨⟨hn, hnk, hh⟩, hfirst⟩)
        · have hnk := hlt n hn
          refine ⟨⟨List.mem_append_left _ hn, not_mem_knells.mpr ⟨by omega, fun hj => ?_⟩, hh⟩,
            fun m hm _ hhm hmn => ?_⟩
          · have hkn := hks n hj
            omega
          · rcases List.mem_append.mp hm with hm | hm
            · exact absurd hmn (hfirst m hm hhm)
            · rcases List.mem_cons.mp hm with rfl | hm
              · omega
              · have hkm := hgt m hm
                omega
        · have hkn := hgt n hn
          refine ⟨⟨List.mem_append_right _ (List.mem_cons_of_mem _ hn),
            not_mem_knells.mpr ⟨by omega, hnk⟩, hh⟩, fun m hm hmk hhm hmn => ?_⟩
          rcases List.mem_append.mp hm with hm | hm
          · exact ⟨k, List.mem_cons_self, hlt m hm, hkn⟩
          · rcases List.mem_cons.mp hm with rfl | hm
            · exact absurd List.mem_cons_self hmk
            · obtain ⟨j, hj, hmj⟩ := hfirst m hm (fun h => hmk (List.mem_cons_of_mem _ h)) hhm hmn
              exact ⟨j, List.mem_cons_of_mem _ hj, hmj⟩
      · rintro ⟨⟨hn, hnk, hh⟩, hfirst⟩
        obtain ⟨hne, hnks⟩ := not_mem_knells.mp hnk
        rcases List.mem_append.mp hn with hn | hn
        · refine .inl ⟨⟨hn, hh⟩, fun m hm hhm hmn => ?_⟩
          have hmk := hlt m hm
          have hn' := hlt n hn
          obtain ⟨j, hj, _, hjn⟩ := hfirst m (List.mem_append_left _ hm)
            (not_mem_knells.mpr ⟨by omega, fun h => by have := hks m h; omega⟩) hhm hmn
          rcases List.mem_cons.mp hj with rfl | hj
          · omega
          · have hkj := hks j hj
            omega
        · rcases List.mem_cons.mp hn with rfl | hn
          · exact absurd rfl hne
          · refine .inr ⟨⟨hn, hnks, hh⟩, fun m hm hmk hhm hmn => ?_⟩
            have hkm := hgt m hm
            obtain ⟨j, hj, hmj, hjn⟩ := hfirst m
              (List.mem_append_right _ (List.mem_cons_of_mem _ hm))
              (not_mem_knells.mpr ⟨by omega, hmk⟩) hhm hmn
            rcases List.mem_cons.mp hj with rfl | hj
            · omega
            · exact ⟨j, hj, hmj, hjn⟩

theorem sorted_holds (h : Cuts ns ks) (hold : Nat → Bool) :
    (holds hold (splitSegments ns ks)).Pairwise (· < ·) := by
  induction h with
  | @last ns h =>
      rw [splitSegments, holds, List.filterMap_cons, List.filterMap_nil]
      cases ns.find? hold with
      | none => exact List.Pairwise.nil
      | some n => exact List.pairwise_singleton _ n
  | @knell before after ks k hb hlt hgt rest ih =>
      rw [splitSegments_cut hlt hgt, holds, List.filterMap_cons]
      cases hf : before.find? hold with
      | none => exact ih
      | some n =>
          refine List.pairwise_cons.mpr ⟨fun m hm => ?_, ih⟩
          have hnk := hlt n (List.mem_of_find?_eq_some hf)
          have hkm := hgt m ((rest.mem_holds hold m).mp hm).1.1
          omega

theorem length_segments (h : Cuts ns ks) : (splitSegments ns ks).length = ks.length + 1 := by
  induction h with
  | last h => rfl
  | knell hb hlt hgt rest ih => rw [splitSegments_cut hlt hgt, List.length_cons, ih, List.length_cons]

end Cuts

/-! ## The knells and holds of a plan -/

/-- The leaf with a number is a knell. -/
def KnellAt (p : Plan) (n : Nat) : Prop := ∃ s, leafAt p.body n = some (.knell s)

/-- The leaf with a number is of an op that holds on refusal. -/
def HoldAt (p : Plan) (n : Nat) : Prop :=
  ∃ o, (leafAt p.body n).bind opOf = some o ∧ o.refusal.isHold = true

section
variable {p : Plan}

/-- The numbers of the knells come in order. -/
theorem knellSteps_eq :
    knellSteps p = ((numbered p.body).filter fun q => q.2.isKnell).map Prod.fst := by
  have hs : (((numbered p.body).filter fun q => q.2.isKnell).map Prod.fst).Pairwise (· < ·) :=
    (sorted_numbered p.body).sublist (List.filter_sublist.map Prod.fst)
  refine List.mergeSort_of_pairwise (hs.imp fun h => ?_)
  exact decide_eq_true (Nat.le_of_lt h)

theorem sorted_knellSteps : (knellSteps p).Pairwise (· < ·) := by
  rw [knellSteps_eq]
  exact (sorted_numbered p.body).sublist (List.filter_sublist.map Prod.fst)

theorem isKnell_iff {it : Item} : it.isKnell = true ↔ ∃ s, it = .knell s := by
  cases it with
  | knell s => exact iff_of_true rfl ⟨s, rfl⟩
  | _ => exact iff_of_false Bool.false_ne_true fun h => by cases h.choose_spec

theorem mem_knellSteps {n : Nat} : n ∈ knellSteps p ↔ KnellAt p n := by
  rw [knellSteps_eq, List.mem_map]
  constructor
  · rintro ⟨⟨m, it⟩, hm, rfl⟩
    obtain ⟨hm, hk⟩ := List.mem_filter.mp hm
    obtain ⟨s, rfl⟩ := isKnell_iff.mp hk
    exact ⟨s, leafAt_of_mem hm⟩
  · rintro ⟨s, hs⟩
    exact ⟨(n, .knell s), List.mem_filter.mpr ⟨mem_of_leafAt hs, rfl⟩, rfl⟩

theorem isHolding_iff {n : Nat} : isHolding p n = true ↔ HoldAt p n := by
  rw [isHolding, List.any_eq_true]
  constructor
  · rintro ⟨⟨m, o⟩, hm, hh⟩
    simp only [Bool.and_eq_true, decide_eq_true_eq] at hh
    obtain ⟨⟨m', it⟩, hit, ho⟩ := List.mem_filterMap.mp hm
    obtain ⟨o', ho', he⟩ := Option.map_eq_some_iff.mp ho
    cases he
    obtain ⟨rfl, hhold⟩ := hh
    exact ⟨o, by rw [leafAt_of_mem hit]; exact ho', hhold⟩
  · rintro ⟨o, ho, hh⟩
    obtain ⟨it, hit, ho⟩ := Option.bind_eq_some_iff.mp ho
    refine ⟨(n, o), List.mem_filterMap.mpr ⟨(n, it), mem_of_leafAt hit, ?_⟩, ?_⟩
    · rw [ho]
      rfl
    · simp only [decide_true, Bool.true_and, hh]

theorem cuts_steps : Cuts (allSteps p) (knellSteps p) := by
  refine cuts_of_sorted (sorted_numbered p.body) sorted_knellSteps fun k hk => ?_
  rw [knellSteps_eq] at hk
  obtain ⟨q, hq, rfl⟩ := List.mem_map.mp hk
  exact List.mem_map.mpr ⟨q, List.mem_of_mem_filter hq, rfl⟩

theorem mem_allSteps {n : Nat} : n ∈ allSteps p ↔ 1 ≤ n ∧ n ≤ (leaves p.body).length := by
  rw [allSteps, numbers_numbered, List.mem_range'_1]
  omega

theorem mem_allSteps_of_leafAt {n : Nat} {it : Item} (h : leafAt p.body n = some it) :
    n ∈ allSteps p := List.mem_map.mpr ⟨(n, it), mem_of_leafAt h, rfl⟩

/-- A prefix refuses if a knell's number is within it. -/
theorem refuses_iff (k : Nat) :
    (∃ e, reverseFrom k p.body = .error e) ↔ ∃ n, KnellAt p n ∧ n ≤ k := by
  rw [reverseFrom_refuses]
  constructor
  · rintro ⟨s, hs⟩
    obtain ⟨i, hi⟩ := List.mem_iff_getElem?.mp hs
    rw [List.getElem?_take] at hi
    split at hi
    · next hik => exact ⟨1 + i, ⟨s, (leafAt_eq p.body i).trans hi⟩, by omega⟩
    · cases hi
  · rintro ⟨n, ⟨s, hs⟩, hnk⟩
    obtain ⟨i, rfl⟩ := Nat.exists_eq_add_of_le (mem_allSteps.mp (mem_allSteps_of_leafAt hs)).1
    rw [leafAt_eq] at hs
    refine ⟨s, List.mem_iff_getElem?.mpr ⟨i, ?_⟩⟩
    rw [List.getElem?_take, if_pos (by omega), hs]

theorem reverses_iff (k : Nat) :
    (∃ r, reverseFrom k p.body = .ok r) ↔ ∀ n, KnellAt p n → k < n := by
  have h := refuses_iff (p := p) k
  cases hr : reverseFrom k p.body with
  | ok r =>
      refine iff_of_true ⟨r, rfl⟩ fun n hn => ?_
      by_contra hkn
      obtain ⟨e, he⟩ := h.mpr ⟨n, hn, by omega⟩
      rw [hr] at he
      cases he
  | error e =>
      obtain ⟨n, hn, hnk⟩ := h.mp ⟨e, hr⟩
      refine iff_of_false (fun h => by cases h.choose_spec) fun h => ?_
      have hkn := h n hn
      omega

theorem firstKnell_eq : firstKnell p = (knellSteps p).head? := by
  rw [firstKnell, knellSteps_eq, List.head?_map, List.head?_filter]

/-- The first knell is before the others. -/
theorem firstKnell_le {k : Nat} (h : firstKnell p = some k) :
    KnellAt p k ∧ ∀ n, KnellAt p n → k ≤ n := by
  rw [firstKnell_eq] at h
  obtain ⟨rest, hr⟩ := List.head?_eq_some_iff.mp h
  have hs := sorted_knellSteps (p := p)
  refine ⟨mem_knellSteps.mp (hr ▸ List.mem_cons_self), fun n hn => ?_⟩
  have hn' := mem_knellSteps.mpr hn
  rw [hr] at hn' hs
  rcases List.mem_cons.mp hn' with rfl | hn'
  · exact Nat.le_refl _
  · exact Nat.le_of_lt (List.rel_of_pairwise_cons hs hn')

theorem not_knellAt (h : firstKnell p = none) (n : Nat) : ¬KnellAt p n := by
  intro hn
  rw [firstKnell_eq, List.head?_eq_none_iff] at h
  have hm := mem_knellSteps.mpr hn
  rw [h] at hm
  cases hm

/-- A plan without a conflict reverses through the step the verdict names, and if
it has a knell through no later one. -/
theorem reverse_through (hc : conflictList p = []) :
    (∃ r, reverseFrom (reversibleThrough p) p.body = .ok r) ∧
      ((∃ n, KnellAt p n) → ∀ k, reversibleThrough p < k →
        ∃ e, reverseFrom k p.body = .error e) := by
  rw [reverses_iff]
  cases hf : firstKnell p with
  | none =>
      have hnone := not_knellAt hf
      exact ⟨fun n hn => absurd hn (hnone n), fun hk => absurd hk.choose_spec (hnone _)⟩
  | some k =>
      obtain ⟨hk, hfirst⟩ := firstKnell_le hf
      obtain ⟨s, hs⟩ := hk
      have hpos := (mem_allSteps.mp (mem_allSteps_of_leafAt hs)).1
      have hthrough : reversibleThrough p = k - 1 := by
        rw [reversibleThrough, if_pos (List.isEmpty_iff.mpr hc), hf]
      rw [hthrough]
      refine ⟨fun n hn => ?_, fun _ j hj => (refuses_iff j).mpr ⟨k, ⟨s, hs⟩, by omega⟩⟩
      have hkn := hfirst n hn
      omega

/-- What is gone back to is the last knell, with steps after it. -/
theorem backTo_eq_some {last n : Nat} (h : backTo p = some (last, n)) :
    last = (leaves p.body).length ∧ n < last ∧ KnellAt p n ∧ ∀ m, n < m → ¬KnellAt p m := by
  rw [backTo] at h
  cases hl : (knellSteps p).getLast? with
  | none =>
      rw [hl] at h
      cases h
  | some k =>
      rw [hl] at h
      dsimp only at h
      split at h
      · next hlt =>
          cases h
          refine ⟨?_, hlt, mem_knellSteps.mp (List.mem_of_getLast? hl), fun m hm hk => ?_⟩
          · rw [lastStep, ← leafCount, leafCount_eq_length]
          · obtain ⟨front, hfront⟩ := List.getLast?_eq_some_iff.mp hl
            have hs := sorted_knellSteps (p := p)
            have hin := mem_knellSteps.mpr hk
            rw [hfront] at hs hin
            rcases List.mem_append.mp hin with hin | hin
            · have hmn := (List.pairwise_append.mp hs).2.2 m hin n List.mem_cons_self
              omega
            · have hmn := List.mem_singleton.mp hin
              omega
      · cases h

/-- **The verdict's statements of reversal** hold of the algebra: how far the plan
reverses, what it goes back to, how the knells cut its steps and which holds are
the first of theirs. -/
theorem verdict_reversal (p : Plan) :
    (conflictList p = [] →
      (∃ r, reverseFrom (reversibleThrough p) p.body = .ok r) ∧
        ((∃ n, KnellAt p n) → ∀ k, reversibleThrough p < k →
          ∃ e, reverseFrom k p.body = .error e)) ∧
    (∀ last n, backTo p = some (last, n) →
      last = (leaves p.body).length ∧ n < last ∧ KnellAt p n ∧ ∀ m, n < m → ¬KnellAt p m) ∧
    (∀ n, n ∈ knellSteps p ↔ KnellAt p n) ∧
    ((segments p).length = (knellSteps p).length + 1 ∧
      rejoin (segments p) (knellSteps p) = List.range' 1 (leaves p.body).length ∧
      ∀ seg ∈ segments p, (∃ b l, seg = List.range' b l) ∧ ∀ n ∈ seg, ¬KnellAt p n) ∧
    (holdsAt p).Pairwise (· < ·) ∧
    ∀ n, n ∈ holdsAt p ↔ (HoldAt p n ∧ ¬KnellAt p n) ∧
      ∀ m, HoldAt p m → ¬KnellAt p m → m < n → ∃ k, KnellAt p k ∧ m < k ∧ k < n := by
  have hcuts := cuts_steps (p := p)
  have hall : allSteps p = List.range' 1 (leaves p.body).length := numbers_numbered p.body
  refine ⟨reverse_through, fun last n => backTo_eq_some, fun n => mem_knellSteps, ⟨?_, ?_, ?_⟩,
    hcuts.sorted_holds (isHolding p), fun n => ?_⟩
  · exact hcuts.length_segments
  · exact hcuts.rejoin.trans hall
  · intro seg hseg
    refine ⟨hcuts.consecutive hall hseg, fun n hn hk => ?_⟩
    exact (hcuts.mem_segment hseg hn).2 (mem_knellSteps.mpr hk)
  · have hleaf : ∀ {m}, HoldAt p m → m ∈ allSteps p := by
      rintro m ⟨o, ho, _⟩
      obtain ⟨it, hit, _⟩ := Option.bind_eq_some_iff.mp ho
      exact mem_allSteps_of_leafAt hit
    have hmem := hcuts.mem_holds (isHolding p) n
    simp only [mem_knellSteps, isHolding_iff] at hmem
    refine hmem.trans (and_congr ⟨?_, ?_⟩ ⟨?_, ?_⟩)
    · rintro ⟨_, hk, hh⟩
      exact ⟨hh, hk⟩
    · rintro ⟨hh, hk⟩
      exact ⟨hleaf hh, hk, hh⟩
    · intro h m hh hk hmn
      exact h m (hleaf hh) hk hh hmn
    · intro h m _ hk hh hmn
      exact h m hh hk hmn

end

end Rescind
