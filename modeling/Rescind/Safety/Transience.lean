/-
# `Rescind.Safety.Transience` — no instance is left in `Applying`

While the store and the journal accept every write and the process lives, a
verb leaves no instance in `Applying`: an error inside the walk refuses the
step, and the refusal takes the instance to `Held` or through its revert.  The
errors that leave the walk without a refusal are the ones the history names
(`Strand`).

The invariant: in a settled phase, neither the record in hand nor what is
stored under its id is `Applying`.

Of the outside it is asked that it accepts (`Accepts`); what its executors and probes
answer is free.

**Proved here.**

    every move keeps the invariant                               (`Settled.move`)
    so an instance is in `Applying` only where one was stranded  (`applying_transient`)
-/
import Rescind.Turn.Runs
import Rescind.Engine.Script

namespace Rescind

open Lib Lib.Prog

variable {σ : Type}

/-- No error left a walk without refusing the step. -/
def NoneStranded (acts : List Act) : Prop := ∀ id why, Act.stranded id why ∉ acts

theorem NoneStranded.suffix {acts acts' : List Act} (h : NoneStranded acts') (hs : acts <:+ acts') :
    NoneStranded acts :=
  fun id why hm => h id why (hs.subset hm)

/-- No stored instance is in `Applying`. -/
def NoneApplying (w : World σ) : Prop :=
  ∀ j r, w.instances.read j = some r → r.state ≠ .applying

/-- No stored instance but the one in hand is in `Applying`; nor is that one, in
a settled phase. -/
structure Settled (p : Phase × World σ) : Prop where
  others : ∀ j r, j ≠ p.2.hand.id → p.2.instances.read j = some r → r.state ≠ .applying
  hand : p.1.settled = true → p.2.hand.state ≠ .applying
  own : p.1.settled = true → ∀ c, p.2.ownCore = some c → c.state ≠ .applying

theorem Settled.move {E : Setting σ} {p p' : Phase × World σ} (hm : Move E p p') (h : Settled p) : Settled p' := by
  have hhand := hm.coherent h.hand
  refine ⟨fun j r hj hr => ?_, hhand, fun hs c hc => ?_⟩
  · rw [hm.id] at hj
    rw [hm.others j hj] at hr
    exact h.others j r hj hr
  · -- what a move writes is the record in hand
    have written : ∀ {w' : World σ} {φ : Phase}, p' = (φ, w') → w'.ownCore = some w'.hand.core →
        c.state ≠ .applying := by
      rintro w' φ rfl ho
      rw [ho] at hc
      exact Option.some.inj hc ▸ hhand hs
    have calm : ∀ {φ : Phase} {w w' : World σ}, p = (φ, w) → p' = (φ, w') → Calm w w' →
        c.state ≠ .applying := by
      rintro φ w w' rfl rfl hq
      rcases hq.ownCore with ho | ho
      · exact h.own hs c (ho ▸ hc)
      · exact written rfl (by rw [ho, hq.hand])
    cases hm with
    | quiet hq => exact calm rfl rfl hq.toCalm
    | amend hr => exact calm rfl rfl (calm_hand hr)
    | reload _ hr => exact calm rfl rfl (calm_hand (InstanceRecord.core_of_kern hr))
    | check _ _ hp | request _ hp | transit _ _ _ hp | pop hp | fired hp =>
        exact written rfl (hp.synced rfl)
    | remark | undo => exact h.own hs c hc
    | reserve | reserved | closeGap | release | released | reenter => exact h.own rfl c hc
    | mark _ _ hφ => rcases hφ with rfl | ⟨rfl, -⟩ <;> cases hs
    | depart | skip | start | finish | pass | handOff | recollect | choose | fail | forget | unmake
    | rerecord => cases hs

/-- Where a turn ends in a settled phase. -/
theorem Settled.noneApplying {φ : Phase} {w : World σ} (h : Settled (φ, w))
    (hs : φ.settled = true) : NoneApplying w := by
  intro j r hr
  by_cases hj : j = w.hand.id
  · refine h.own hs r.core ?_
    rw [World.ownCore, ← hj, hr]
    rfl
  · exact h.others j r hj hr

theorem NoneApplying.congr {w w' : World σ} (h : NoneApplying w)
    (hr : ∀ j, w'.instances.read j = w.instances.read j) : NoneApplying w' :=
  fun j r hj => h j r (hr j ▸ hj)

/-- The invariant of the runs of a world that accepts every write. -/
def settledInvariant {E : Setting σ} (ha : Accepts E) :
    Invariant E (fun _ => True) fun _ => True where
  Kept w := NoneStranded w.acts → NoneApplying w
  Held p := NoneStranded p.2.acts → Settled p
  between hb h hn := (h (hb.acts ▸ hn)).congr hb.records
  condition _ _ := trivial
  take {w r} h hr hn := by
    have hnone : NoneApplying w := h hn
    refine ⟨fun j r' _ hr' => hnone j r' hr', fun _ => hnone _ r hr, fun _ c hc => ?_⟩
    obtain ⟨r', hr', rfl⟩ := Option.map_eq_some_iff.mp hc
    exact hnone _ r' hr'
  fresh {w ir params opts nonce} h _ _ _ hn := by
    have hnone : NoneApplying w := h hn
    refine ⟨fun j r' _ hr' => hnone j r' hr', fun _ => nofun, fun _ c hc => ?_⟩
    obtain ⟨r', hr', rfl⟩ := Option.map_eq_some_iff.mp hc
    exact hnone _ r' hr'
  move hm h hn := (h (hn.suffix hm.acts)).move hm
  leave h hn := (h hn).noneApplying rfl
  drop {φ w w'} h hd _ hn := by
    have hn' : NoneStranded w.acts := by
      rw [← show w'.acts = w.acts from congrArg Frame.acts hd.frame]
      exact hn
    rcases hd.excuse with hs | ⟨why, hs⟩ | hs
    · exact ((h hn').noneApplying hs).congr hd.records
    · exact absurd hs (hn' _ why)
    · exact absurd ha hs

/-- **`Applying` is transient.**  Where the store and the journal accept every
write and the process lives, no run in which nothing was stranded leaves an
instance in `Applying` after a verb. -/
theorem applying_transient {E : Setting σ} {w : World σ} (ha : Accepts E) (h : Run E w)
    (hn : NoneStranded w.acts) : NoneApplying w :=
  (settledInvariant ha).run (fun w hw _ _ j r hr => by
    rw [hw.instances] at hr
    cases hr) h hn

/-! ## A temporary plan with a `confirm()` -/

theorem NoneApplying.all {w : World σ} (h : NoneApplying w) :
    (w.instances.records.all fun r => r.state ≠ .applying) = true :=
  List.all_eq_true.mpr fun r hr => by simpa using h r.id r (Store.read_of_mem hr)

/-- The entry is not of an error that left a walk. -/
def Act.refuses : Act → Bool
  | .stranded _ _ => false
  | _ => true

theorem NoneStranded.of_all {acts : List Act} (h : acts.all Act.refuses = true) :
    NoneStranded acts :=
  fun _ _ hm => Bool.noConfusion (List.all_eq_true.mp h _ hm)

namespace ConfirmTemporary

/-- Everything goes well. -/
def script : Script := {}

abbrev site : Setting Nat := script.setting

theorem accepts : Accepts site := script.accepts (fun _ => rfl) fun _ => rfl

/-- A step and a `confirm()`, under a wane. -/
def plan : PlanIr := smallPlan "p" "web" [ownFile "/etc/motd", .confirm]

def applied : World Nat := (exec site (.apply plan [] {}) (smallWorld ["web"])).2

theorem told_applied : checkClean plan = true ∧ applied.up = true ∧
    (applied.instances.records.all fun r => r.state ≠ .applying) = false := by decide +kernel

/-- The machine refuses the `confirm()` of a temporary plan, and the error leaves
the walk. -/
theorem left_applying : checkClean plan = true ∧ Accepts site ∧ Run site applied ∧
    applied.up = true ∧ ¬NoneApplying applied := by
  refine ⟨told_applied.1, accepts, ?_, told_applied.2.1, fun h => ?_⟩
  · exact Run.exec (.start (begins_smallWorld _) trivial) (.apply plan [] {}) rfl
  · exact absurd (h.all.symm.trans told_applied.2.2) nofun

/-- The same without the `confirm()`. -/
def plain : PlanIr := smallPlan "p" "web" [ownFile "/etc/motd"]

def rested : World Nat := (exec site (.apply plain [] {}) (smallWorld ["web"])).2

theorem run_rested : Run site rested :=
  Run.exec (.start (begins_smallWorld _) trivial) (.apply plain [] {}) rfl

theorem none_applying_rested : Accepts site ∧ Run site rested ∧ NoneApplying rested :=
  have hn : NoneStranded rested.acts := .of_all (by decide +kernel)
  ⟨accepts, run_rested, applying_transient accepts run_rested hn⟩

end ConfirmTemporary

end Rescind
