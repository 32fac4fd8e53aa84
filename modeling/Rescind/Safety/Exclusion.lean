/-
# `Rescind.Safety.Exclusion` — the ledger admits no two that touch

A run of the ledger is a sequence of `request` and `release` calls on the empty
one.  The invariant is `Exclusive`: every holding is a real reservation, and any
two on one host are apart, in umbra and in exclusivity class.  It does not
depend on the order of the calls, since whether two holdings touch does not.

The holdings are any there may be.  Whether they are those of the records is
`Rescind.Safety.Reservations`.

**Proved here.**

    every call keeps the invariant                            (`Exclusive.call`)
    an exclusive ledger is read back as it was written        (`toLedger_fromLedger`)
    so every run is exclusive, and survives the store         (`ledger_exclusive`)
-/
import Rescind.Engine.Store

namespace Rescind

/-! ## Holdings that are apart -/

/-- No fact of the one touches a fact of the other. -/
def Holding.Disjoint (a b : Holding) : Prop :=
  ∀ f ∈ a.umbra, ∀ g ∈ b.umbra, f.sameAs g = false

/-- Two holdings on one host reserve nothing in common. -/
structure Holding.Apart (a b : Holding) : Prop where
  umbra : a.Disjoint b
  exclusivity : ∀ t, a.exclusivity = some t → b.exclusivity ≠ some t

/-- A ledger of reservations that are pairwise apart on each host. -/
structure Ledger.Exclusive (l : Ledger) : Prop where
  real : ∀ h ∈ l.held, h.rehearsal = false
  apart : l.held.Pairwise fun a b => a.host = b.host → a.Apart b

theorem disjoint_of_overlaps {a b : Holding} (h : Ledger.overlaps a b = false) : a.Disjoint b := by
  intro f hf g hg
  by_contra hs
  have hany : Ledger.overlaps a b = true :=
    List.any_eq_true.mpr ⟨f, hf, List.any_eq_true.mpr ⟨g, hg, by simpa using hs⟩⟩
  rw [hany] at h
  cases h

theorem exclusivity_of_exclusiveWith {a b : Holding} (h : Ledger.exclusiveWith a b = false) (t : String)
    (ha : a.exclusivity = some t) : b.exclusivity ≠ some t := by
  intro hb
  simp [Ledger.exclusiveWith, ha, hb] at h

theorem overlaps_of_disjoint {a b : Holding} (h : a.Disjoint b) : Ledger.overlaps a b = false := by
  refine List.any_eq_false.mpr fun f hf => ?_
  simp only [List.any_eq_true, not_exists, not_and, Bool.not_eq_true]
  exact fun g hg => h f hf g hg

theorem exclusiveWith_of_apart {a b : Holding} (h : a.Apart b) :
    Ledger.exclusiveWith a b = false := by
  unfold Ledger.exclusiveWith
  split
  next x y hx hy =>
    refine decide_eq_false ?_
    rintro rfl
    exact h.exclusivity x hy hx
  next => rfl

/-! ## One call -/

namespace Ledger

/-- What an admitted request found: it is a rehearsal's, or its holding is apart
from every one on its host. -/
theorem request_apart {l l' : Ledger} {inst : Holding} (h : l.request inst = .ok l') :
    (inst.rehearsal = true ∧ l' = l) ∨
      (inst.rehearsal = false ∧ l' = ⟨inst :: l.held⟩ ∧
        ∀ x ∈ l.held, inst.host = x.host → inst.Apart x) := by
  unfold request at h
  by_cases hr : inst.rehearsal = true
  · rw [if_pos hr] at h
    cases h
    exact .inl ⟨hr, rfl⟩
  · rw [if_neg hr] at h
    dsimp only at h
    split at h
    next => cases h
    next hx =>
      split at h
      next => cases h
      next ho =>
        cases h
        refine .inr ⟨by simpa using hr, rfl, fun x hx' hh => ?_⟩
        have hmem : x ∈ l.held.filter fun h => h.host = inst.host :=
          List.mem_filter.mpr ⟨hx', decide_eq_true hh.symm⟩
        have hn := List.find?_eq_none.mp hx x hmem
        have hn' := List.find?_eq_none.mp ho x hmem
        exact ⟨disjoint_of_overlaps (by simpa using hn'),
          exclusivity_of_exclusiveWith (by simpa using hn)⟩

/-- A reservation that is apart from what is held on its host is admitted. -/
theorem request_of_apart {l : Ledger} {inst : Holding} (hr : inst.rehearsal = false)
    (h : ∀ x ∈ l.held, inst.host = x.host → inst.Apart x) :
    l.request inst = .ok ⟨inst :: l.held⟩ := by
  have apart : ∀ x ∈ l.held.filter (fun h => h.host = inst.host), inst.Apart x := by
    intro x hx
    obtain ⟨hx, hh⟩ := List.mem_filter.mp hx
    exact h x hx (of_decide_eq_true hh).symm
  have hx : (l.held.filter fun h => h.host = inst.host).find? (exclusiveWith inst) = none :=
    List.find?_eq_none.mpr fun x hx => by simp [exclusiveWith_of_apart (apart x hx)]
  have ho : (l.held.filter fun h => h.host = inst.host).find? (overlaps inst) = none :=
    List.find?_eq_none.mpr fun x hx => by simp [overlaps_of_disjoint (apart x hx).umbra]
  simp [request, hr, hx, ho]

theorem request_rehearsal {l : Ledger} {inst : Holding} (h : inst.rehearsal = true) :
    l.request inst = .ok l := by
  simp [request, h]

theorem Exclusive.empty : Exclusive {} := ⟨fun _ h => (by cases h), .nil⟩

theorem Exclusive.request {l l' : Ledger} {inst : Holding} (hl : l.Exclusive)
    (h : l.request inst = .ok l') : l'.Exclusive := by
  rcases request_apart h with ⟨-, rfl⟩ | ⟨hr, rfl, ha⟩
  · exact hl
  · refine ⟨fun x hx => ?_, List.pairwise_cons.mpr ⟨ha, hl.apart⟩⟩
    rcases List.mem_cons.mp hx with rfl | hx
    · exact hr
    · exact hl.real x hx

theorem Exclusive.release {l : Ledger} (hl : l.Exclusive) (id : String) : (l.release id).Exclusive :=
  ⟨fun x hx => hl.real x (mem_release.mp hx).1, hl.apart.sublist List.filter_sublist⟩

/-! ## Runs -/

inductive Call where
  | request (inst : Holding)
  | release (id : String)

/-- One call; a refused request leaves the ledger as it was. -/
def call (l : Ledger) : Call → Ledger
  | .request inst =>
      match l.request inst with
      | .ok l' => l'
      | .error _ => l
  | .release id => l.release id

/-- The ledger after a sequence of calls on the empty one. -/
def after (calls : List Call) : Ledger := calls.foldl call {}

theorem Exclusive.call {l : Ledger} (hl : l.Exclusive) (c : Call) : (l.call c).Exclusive := by
  cases c with
  | request inst =>
      simp only [Ledger.call]
      split
      next l' h => exact hl.request h
      next => exact hl
  | release id => exact hl.release id

theorem exclusive_after (calls : List Call) : (after calls).Exclusive := by
  have run : ∀ l : Ledger, l.Exclusive → (calls.foldl Ledger.call l).Exclusive := by
    induction calls with
    | nil =>
        intro l hl
        exact hl
    | cons c calls ih =>
        intro l hl
        exact ih _ (hl.call c)
  exact run {} Exclusive.empty

/-! ## The store's record -/

end Ledger

open LedgerRecord in
theorem toHolding_fromHolding {h : Holding} (hr : h.rehearsal = false) :
    toHolding (fromHolding h) = h := by
  obtain ⟨id, host, umbra, exclusivity, rehearsal⟩ := h
  obtain rfl : rehearsal = false := hr
  have hu : umbra.map ((fun f : String × Option String => (⟨f.1, f.2⟩ : Fact)) ∘
      fun f => (f.shape, f.anchor)) = umbra := List.map_id umbra
  simp only [toHolding, fromHolding, List.map_map, hu]

/-- **The record of an exclusive ledger is read back as the ledger.** -/
theorem toLedger_fromLedger {l : Ledger} (hl : l.Exclusive) :
    (LedgerRecord.fromLedger l).toLedger = .ok l := by
  obtain ⟨held⟩ := l
  unfold LedgerRecord.toLedger LedgerRecord.fromLedger
  -- the oldest holding is admitted first, so the induction is on the newest
  induction held with
  | nil => rfl
  | cons h held ih =>
      have htail : (⟨held⟩ : Ledger).Exclusive :=
        ⟨fun x hx => hl.real x (List.mem_cons_of_mem _ hx), (List.pairwise_cons.mp hl.apart).2⟩
      have hr : h.rehearsal = false := hl.real h List.mem_cons_self
      have hreq := Ledger.request_of_apart (l := ⟨held⟩) hr (List.pairwise_cons.mp hl.apart).1
      rw [List.map_cons, List.reverse_cons, List.foldlM_append, ih htail]
      simp only [List.foldlM_cons, List.foldlM_nil, bind, Except.bind, toHolding_fromHolding hr, hreq,
        pure, Except.pure]

/-- **The ledger excludes.**  After every sequence of calls on the empty ledger,
what is held are reservations, pairwise apart on each host; a rehearsal is
admitted and changes nothing; a release leaves the holdings of other ids, each once
and in their order, and none of its own; and the ledger is read back from its record
as it is. -/
theorem ledger_exclusive (calls : List Ledger.Call) :
    (Ledger.after calls).Exclusive ∧
      (∀ inst : Holding, inst.rehearsal = true →
        (Ledger.after calls).request inst = .ok (Ledger.after calls)) ∧
      (∀ id, ((Ledger.after calls).release id).held =
          (Ledger.after calls).held.filter (fun x => x.id ≠ id) ∧
        ∀ x, x ∈ ((Ledger.after calls).release id).held ↔
          x ∈ (Ledger.after calls).held ∧ x.id ≠ id) ∧
      (LedgerRecord.fromLedger (Ledger.after calls)).toLedger = .ok (Ledger.after calls) := by
  exact ⟨Ledger.exclusive_after calls, fun _ hr => Ledger.request_rehearsal hr,
    fun _ => ⟨rfl, fun _ => Ledger.mem_release⟩, toLedger_fromLedger (Ledger.exclusive_after calls)⟩

end Rescind
