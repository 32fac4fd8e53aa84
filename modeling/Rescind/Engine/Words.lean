/-
# `Rescind.Engine.Words` — deadlines in the machine's words

Instants and durations are unsigned 64-bit counts of seconds, and the source
adds and multiplies them with the language's plain operators.  Each function
that computes a bound is here as the machine runs it, under the name of the
exact one of this development where that has one: `none` is a program that
stopped.  Of the verbs those that move a plan's expiry are here too; elsewhere in
this development a verb adds without a bound.

    a renewal whose sums fit is the exact one          (`renew_eq`)
-/
import Rescind.Engine.Secrets
import Rescind.Engine.Verbs
import Rescind.Lib.Words

namespace Rescind.Words

open Lib

variable (o : Overflow)

def plus (i : Instant) (d : Duration) : Option Instant :=
  (o.word (i.unixS + d.seconds)).map Instant.mk

/-- The clock's reading later by what is declared, where something is. -/
def later (now : Instant) : Option Duration → Option (Option Instant)
  | none => some none
  | some d => (plus o now d).map some

/-! ## Durations of a plan text -/

def numeral (digits : List Char) : Nat :=
  digits.foldl (fun n c => 10 * n + (c.toNat - '0'.toNat)) 0

/-- A run of digits as a word; what does not parse is none. -/
def parseWord (digits : List Char) : Option Nat :=
  if digits.isEmpty then none
  else if numeral digits < 2 ^ 64 then some (numeral digits) else none

/-- `30m` as seconds. -/
def durationSeconds (text : List Char) : Option Nat :=
  let digits := text.takeWhile Char.isDigit
  let n := (parseWord digits).getD 0
  match text.drop digits.length with
  | ['m', 's'] => some (n / 1000)
  | ['s'] => some n
  | ['m'] => o.word (n * 60)
  | ['h'] => o.word (n * 3600)
  | ['d'] => o.word (n * 86400)
  | _ => some n

/-- `30m + 10m`. -/
def added (a b : Duration) : Option Duration :=
  (o.word (a.seconds + b.seconds)).map Duration.mk

/-- Whether a heartbeat's interval is above a third of its deadline. -/
def tooSlow : Trigger → Option Bool
  | .unlessHeartbeat deadline (some i) =>
      (o.word (i.seconds * 3)).map fun n => deadline.seconds < n
  | _ => some false

def heartbeatViolations (p : Plan) : Option Nat :=
  match p.backstop with
  | none => some 0
  | some b => b.triggers.foldlM (fun n t => (tooSlow o t).map fun slow => n + slow.toNat) 0

/-! ## Bounds -/

def approvalDeadline (r : InstanceRecord) (g : PlanGate) (now : Instant) :
    Option (Option Instant) :=
  later o now (g.window.or r.ir.site.maxWait)

def waneDeadline (r : InstanceRecord) (now : Instant) : Option (Option Instant) :=
  if r.permanent then some r.deadline else later o now (effectiveWane r.plan)

def waitBound (r : InstanceRecord) (window : Option Duration) (now : Instant) :
    Option (Option Instant) :=
  later o now (stepBound r window)

/-- What one trigger adds to the schedule: a recorded wane stands for `after:`. -/
def scheduled (now : Instant) (wane : Option Instant) (s : Schedule) : Trigger → Option Schedule
  | .after d =>
      match wane with
      | some w => some { s with deadline := some w }
      | none => (plus o now d).map fun i => { s with deadline := some i }
  | .unlessConfirmed d => (plus o now d).map fun i => { s with deadline := some i }
  | .unlessHeartbeat deadline interval =>
      some { s with
        heartbeatS := some deadline.seconds
        intervalS := some ((interval.map Duration.seconds).getD (deadline.seconds / 3)) }

def schedule (triggers : List Trigger) (now : Instant) (wane : Option Instant) :
    Option Schedule :=
  triggers.foldlM (scheduled o now wane) {}

/-- When the next heartbeat is due, where one was written before. -/
def heartbeatAt (st : BackstopState) : Option (Option Instant) :=
  if st.armed && !st.fired then
    match st.intervalS, st.lastHeartbeat with
    | some interval, some last => (plus o last ⟨interval⟩).map some
    | _, _ => some none
  else some none

def holdBound (r : InstanceRecord) (now : Instant) : Option (Option Instant) :=
  if r.permanent then later o now r.ir.site.maxWait else some r.deadline

/-- The earlier of the declared duration and the bound the plan puts. -/
def keptBound (duration : Option Duration) (now : Instant) (until_ : Option Instant) :
    Option (Option Instant) :=
  (later o now duration).map fun own => match own, until_ with
    | some a, some b => some ⟨min a.unixS b.unixS⟩
    | a, none => a
    | none, b => b

def renewAt (now deadline : Instant) (renewWithin wane : Duration) :
    Option (Except RenewRefusal Instant) :=
  if expired now deadline then some (.error .expired)
  else
    let opens : Instant := ⟨deadline.unixS - renewWithin.seconds⟩
    if now.unixS < opens.unixS then some (.error (.outsideWindow opens))
    else (plus o now wane).map .ok

/-! ## Verbs -/

/-- The approval: wane starts. -/
def approve {σ : Type} (E : Setting σ) : Eng σ Unit := do
  let refused ← refuseOnContractChange E
  if refused then pure ()
  else do
    let now ← ask E .now
    match waneDeadline o (← hand) now with
    | none => .die
    | some deadline => do
        setHand fun r => { r with approvedAt := some now, deadline := deadline }
        step E .approve
        let r ← hand
        log E (.approved r.rehearsal)

/-- Arm the installed artifact. -/
def backstopArm {σ : Type} (E : Setting σ) : Eng σ (Except String Unit) := do
  let r ← hand
  match r.backstop with
  | none => pure (.ok ())
  | some st =>
      if r.rehearsal || st.armed || !st.installed then pure (.ok ())
      else match hostOf E (← hostsNow) st.host with
        | none => pure (.error (st.host ++ " is not a host of the site"))
        | some host => do
            let now ← ask E .now
            match schedule o (triggersOf r.plan) now r.deadline with
            | none => .die
            | some sched => armAs E r st host now sched

/-- The verb, with the machine's sum: one that stops takes the process with it. -/
def renew {σ : Type} (E : Setting σ) (id : String) (wane : Duration) : Eng σ Outcome := do
  load E id
  step E .renew
  let r ← hand
  match r.deadline, r.plan.renewWithin with
  | none, _ => .fail (.internal "a temporary plan with no deadline")
  | some _, none => .fail (.notAdmitted .r0102 "the plan declares no renew_within")
  | some deadline, some within => do
      let now ← ask E .now
      match renewAt o now deadline within wane with
      | none => .die
      | some (.error why) => .fail (renewRefused why)
      | some (.ok d) => do
          renewTo E d
          report

theorem renewAt_eq {now deadline : Instant} {within wane : Duration}
    (h : now.unixS + wane.seconds < 2 ^ 64) :
    renewAt o now deadline within wane = some (Rescind.renewAt now deadline within wane) := by
  unfold renewAt Rescind.renewAt
  split
  · rfl
  · dsimp only
    split
    · rfl
    · rw [plus, Overflow.word_of_lt h]
      rfl

/-- Where every sum fits, the machine renews as the exact verb does. -/
theorem renew_eq {σ : Type} {E : Setting σ} {id : String} {wane : Duration}
    (h : ∀ s now s', E.outside.answer s .now = (some now, s') → now.unixS + wane.seconds < 2 ^ 64) :
    renew o E id wane = Rescind.renew E id wane := by
  unfold renew Rescind.renew
  refine congrArg _ (funext fun _ => congrArg _ (funext fun _ => congrArg _ (funext fun r => ?_)))
  cases r.deadline with
  | none => rfl
  | some deadline =>
      cases r.plan.renewWithin with
      | none => rfl
      | some within =>
          funext w
          dsimp only
          rcases ha : E.outside.answer w.out .now with ⟨_ | now, s⟩
          · rw [ask_bind_none E ha, ask_bind_none E ha]
          · rw [ask_bind_some E ha, ask_bind_some E ha, renewAt_eq o (h _ _ _ ha)]
            cases Rescind.renewAt now deadline within wane <;> rfl

end Rescind.Words
