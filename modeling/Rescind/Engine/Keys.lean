/-
# `Rescind.Engine.Keys` — the keys of applications, as they are written

An application's markers and snapshots are kept under its key: the step number,
and inside a repeat its variables after it, as a map on one line.

    a key is read back                                 (`parseStepKey_stepKey`)
    keys are told apart by their text                  (`stepKey_inj`)
-/
import Rescind.Lib.Json
import Rescind.Engine.Record

namespace Rescind

open Lib

/-- The text of a key. -/
def stepKey (step : Nat) (vars : Vars) : List Char :=
  if vars.isEmpty then Nat.toDigits 10 step else Nat.toDigits 10 step ++ Json.printMap vars

/-- A step number of 32 bits. -/
def parseStep (ds : List Char) : Option Nat :=
  if ds.isEmpty then none
  else
    let n := Nat.ofDigitChars 10 ds 0
    if n < 2 ^ 32 then some n else none

/-- A key's step and variables. -/
def parseStepKey (key : List Char) : Option (Nat × Vars) :=
  match parseStep (Json.digits key) with
  | none => none
  | some step =>
      if (Json.afterDigits key).isEmpty then some (step, [])
      else (Json.readMap (Json.afterDigits key)).map fun v => (step, v)

/-- What follows the digits of a key. -/
def keyVars (vars : Vars) : List Char := if vars.isEmpty then [] else Json.printMap vars

theorem stepKey_eq (step : Nat) (vars : Vars) :
    stepKey step vars = Nat.toDigits 10 step ++ keyVars vars := by
  unfold stepKey keyVars
  split
  · rw [List.append_nil]
  · rfl

/-- A map begins with a brace. -/
theorem stops_keyVars (vars : Vars) : Json.Stops (keyVars vars) := by
  cases vars with
  | nil => trivial
  | cons p ps => exact ⟨rfl, by decide, by decide, by decide⟩

/-- A key is taken apart after its digits. -/
theorem digits_stepKey (step : Nat) (vars : Vars) :
    Json.digits (stepKey step vars) = Nat.toDigits 10 step ∧
      Json.afterDigits (stepKey step vars) = keyVars vars := by
  rw [stepKey_eq]
  exact Json.digits_toDigits step (stops_keyVars vars)

theorem parseStep_toDigits {step : Nat} (h : step < 2 ^ 32) :
    parseStep (Nat.toDigits 10 step) = some step := by
  have hne : (Nat.toDigits 10 step).isEmpty = false :=
    List.isEmpty_eq_false_iff.mpr Nat.toDigits_ne_nil
  rw [parseStep, hne, if_neg Bool.false_ne_true]
  simp only [Nat.ofDigitChars_ten_toDigits]
  exact if_pos h

/-- **A key is read back.** -/
theorem parseStepKey_stepKey {step : Nat} {vars : Vars} (hn : step < 2 ^ 32)
    (hv : Assoc.Sorted vars) : parseStepKey (stepKey step vars) = some (step, vars) := by
  obtain ⟨hd, ha⟩ := digits_stepKey step vars
  rw [parseStepKey, hd, ha, parseStep_toDigits hn]
  cases vars with
  | nil => rfl
  | cons p ps =>
      have hread := Json.readMap_print hv
      exact (if_neg Bool.false_ne_true).trans (congrArg (Option.map fun v => (step, v)) hread)

theorem keyVars_inj {vars vars' : Vars} (hv : Assoc.Sorted vars) (hv' : Assoc.Sorted vars')
    (h : keyVars vars = keyVars vars') : vars = vars' := by
  cases vars with
  | nil =>
      cases vars' with
      | nil => rfl
      | cons p ps => cases h
  | cons p ps =>
      cases vars' with
      | nil => cases h
      | cons q qs =>
          have hr := congrArg Json.readMap (h : Json.printMap (p :: ps) = Json.printMap (q :: qs))
          exact Option.some.inj
            ((Json.readMap_print hv).symm.trans (hr.trans (Json.readMap_print hv')))

/-- **Keys are told apart by their text**, whatever the variables hold. -/
theorem stepKey_inj {step step' : Nat} {vars vars' : Vars} (hv : Assoc.Sorted vars)
    (hv' : Assoc.Sorted vars') :
    stepKey step vars = stepKey step' vars' ↔ step = step' ∧ vars = vars' := by
  constructor
  · intro h
    have hd := congrArg Json.digits h
    have ha := congrArg Json.afterDigits h
    rw [(digits_stepKey _ _).1, (digits_stepKey _ _).1] at hd
    rw [(digits_stepKey _ _).2, (digits_stepKey _ _).2] at ha
    refine ⟨?_, keyVars_inj hv hv' ha⟩
    rw [← Nat.ofDigitChars_ten_toDigits (n := step), hd, Nat.ofDigitChars_ten_toDigits]
  · rintro ⟨rfl, rfl⟩
    rfl

end Rescind
