/-
# `Rescind.Core.States` — the runtime state machine

The states an instance is in, the events the engine feeds, and the transition
function with its five class rules, as the source's table.

    every move of the machine is one of the edges       (`edge_of_transition`)
    a state past the walk never returns to it           (`transition_past`)
-/
import Rescind.Core.Algebra

namespace Rescind

inductive State where
  | unchecked | checked | pending | approvalExpired | applying | waiting | deferred | held
  | applied | suspended | expired | reverting | stuck | driftHeld | committed | closed
  deriving DecidableEq, Repr

def State.name : State → String
  | .unchecked => "Unchecked"
  | .checked => "Checked"
  | .pending => "Pending"
  | .approvalExpired => "ApprovalExpired"
  | .applying => "Applying"
  | .waiting => "Waiting"
  | .deferred => "Deferred"
  | .held => "Held"
  | .applied => "Applied"
  | .suspended => "Suspended"
  | .expired => "Expired"
  | .reverting => "Reverting"
  | .stuck => "Stuck"
  | .driftHeld => "DriftHeld"
  | .committed => "Committed"
  | .closed => "Closed"

inductive Event where
  | check | request | approve | approvalWindowLapses | cancel | hostContractChanged
  | allStepsDone | commitItem | refuse | waitAtStep | waitSatisfied | deferAtStep
  | handoffDone | recant | suspend | reestablish | renew | confirm | commitVerb | resume
  | boundLapses | waneElapses | undoClean | undoFailed | retry | driftOnDefer
  | forceDrift | abandon
  deriving DecidableEq, Repr

/-- Runtime codes the machine can name. -/
inductive RCode where
  | r0102 | r0103
  deriving DecidableEq, Repr

inductive Verdict where
  | to (s : State)
  /-- The event is observed and the state is unchanged. -/
  | stay
  /-- The event is refused with a code; the state is unchanged. -/
  | refuse (code : RCode)
  /-- The event cannot occur in this state. -/
  | notApplicable
  deriving DecidableEq, Repr

/-- What a transition may depend on besides the state and the event. -/
structure Ctx where
  intent : Intent
  mode : Mode
  earlierHold : Bool
  onLapse : OnLapse
  deriving DecidableEq, Repr

def terminal : State → Bool
  | .closed | .committed => true
  | _ => false

/-- Wane bounds every non-terminal state of a temporary plan but `DriftHeld`
and `Stuck` (unbounded) and those before the approval. -/
def waneOutcome (permanent : Bool) (s : State) : Verdict :=
  if permanent then .notApplicable
  else match s with
    | .driftHeld | .stuck | .expired => .stay
    | .pending | .unchecked | .checked | .approvalExpired => .notApplicable
    | _ => .to .expired

/-- A lapse before wane resolves per `on_lapse`; always a revert under auto. -/
def lapseOutcome (ctx : Ctx) : Verdict :=
  if ctx.mode = .auto then .to .reverting
  else if ctx.onLapse = .hold then .to .held
  else .to .reverting

def transition (ctx : Ctx) (s : State) (ev : Event) : Verdict :=
  let temporary := ctx.intent = .temporary
  let permanent := ctx.intent = .permanent
  if terminal s then .notApplicable
  else if permanent ∧ (s = .applied ∨ s = .suspended) then .notApplicable
  else if ev = .waneElapses then waneOutcome permanent s
  else if ev = .abandon then
    if s = .stuck ∨ s = .driftHeld then .to .closed else .notApplicable
  else
    let permanentOnly (v : Verdict) := if permanent then v else .refuse .r0102
    let temporaryOnly (v : Verdict) := if temporary then v else .refuse .r0102
    match s, ev with
    | .unchecked, .check => .to .checked
    | .checked, .request => .to .pending
    | .pending, .approve => .to .applying
    | .pending, .approvalWindowLapses => .to .approvalExpired
    | .pending, .cancel => .to .closed
    | .pending, .hostContractChanged => .to .closed
    | .approvalExpired, .cancel => .to .closed
    | .applying, .allStepsDone => if temporary then .to .applied else .notApplicable
    | .applying, .commitItem => permanentOnly (.to .committed)
    | .applying, .refuse => if ctx.earlierHold then .to .held else .to .reverting
    | .applying, .waitAtStep => .to .waiting
    | .applying, .deferAtStep => .to .deferred
    | .applying, .confirm => permanentOnly .stay
    | .applying, .renew => temporaryOnly .stay
    | .waiting, .waitSatisfied => .to .applying
    | .waiting, .recant => .to .reverting
    | .waiting, .boundLapses => lapseOutcome ctx
    | .deferred, .handoffDone => .to .applying
    | .deferred, .recant => .to .reverting
    | .deferred, .commitVerb => permanentOnly (.to .committed)
    | .held, .resume => .to .applying
    | .held, .recant => .to .reverting
    | .held, .commitVerb => permanentOnly (.to .committed)
    | .applied, .recant => .to .reverting
    | .applied, .suspend => .to .suspended
    | .applied, .renew => temporaryOnly .stay
    | .applied, .confirm => permanentOnly .stay
    | .suspended, .reestablish => .to .applied
    | .suspended, .recant => .to .reverting
    | .expired, .undoClean => .to .closed
    | .expired, .undoFailed => .to .stuck
    | .expired, .driftOnDefer => .to .driftHeld
    | .reverting, .undoClean => .to .closed
    | .reverting, .undoFailed => .to .stuck
    | .reverting, .driftOnDefer => .to .driftHeld
    | .stuck, .retry => .to .reverting
    | .driftHeld, .forceDrift => .to .reverting
    | .driftHeld, .recant => .refuse .r0103
    | _, _ => .notApplicable

/-- Whether a bound has been reached: the boundary is closed. -/
def expired (now deadline : Instant) : Bool := deadline.unixS ≤ now.unixS

/-- Why a renewal is refused. -/
inductive RenewRefusal where
  | expired
  | outsideWindow (until_ : Instant)
  deriving DecidableEq, Repr

/-- Renewal of a temporary plan: only within `renew_within` of the deadline,
never for an expired plan, anchored at the renewal. -/
def renewAt (now deadline : Instant) (renewWithin wane : Duration) :
    Except RenewRefusal Instant :=
  if expired now deadline then .error .expired
  else
    let opens : Instant := ⟨deadline.unixS - renewWithin.seconds⟩
    if now.unixS < opens.unixS then .error (.outsideWindow opens)
    else .ok (now.plus wane)

/-! ## Shape of the machine -/

/-- The moves the table allows. -/
inductive Edge (ctx : Ctx) : State → Event → State → Prop where
  | check : Edge ctx .unchecked .check .checked
  | request : Edge ctx .checked .request .pending
  | approve : Edge ctx .pending .approve .applying
  | approvalLapses : Edge ctx .pending .approvalWindowLapses .approvalExpired
  | cancel {s : State} (h : s = .pending ∨ s = .approvalExpired) : Edge ctx s .cancel .closed
  | contractChanged : Edge ctx .pending .hostContractChanged .closed
  | allStepsDone (h : ctx.intent = .temporary) : Edge ctx .applying .allStepsDone .applied
  | commitItem (h : ctx.intent = .permanent) : Edge ctx .applying .commitItem .committed
  | refuseHold (h : ctx.earlierHold = true) : Edge ctx .applying .refuse .held
  | refuse (h : ctx.earlierHold = false) : Edge ctx .applying .refuse .reverting
  | waitAtStep : Edge ctx .applying .waitAtStep .waiting
  | deferAtStep : Edge ctx .applying .deferAtStep .deferred
  | waitSatisfied : Edge ctx .waiting .waitSatisfied .applying
  | lapseHold (h : ctx.mode ≠ .auto ∧ ctx.onLapse = .hold) : Edge ctx .waiting .boundLapses .held
  | lapse (h : ¬(ctx.mode ≠ .auto ∧ ctx.onLapse = .hold)) :
      Edge ctx .waiting .boundLapses .reverting
  | handoffDone : Edge ctx .deferred .handoffDone .applying
  | commitVerb {s : State} (h : ctx.intent = .permanent) (hs : s = .deferred ∨ s = .held) :
      Edge ctx s .commitVerb .committed
  | resume : Edge ctx .held .resume .applying
  | recant {s : State}
      (h : s = .waiting ∨ s = .deferred ∨ s = .held ∨ s = .applied ∨ s = .suspended) :
      Edge ctx s .recant .reverting
  | suspend : Edge ctx .applied .suspend .suspended
  | reestablish : Edge ctx .suspended .reestablish .applied
  | undoClean {s : State} (h : s = .expired ∨ s = .reverting) : Edge ctx s .undoClean .closed
  | undoFailed {s : State} (h : s = .expired ∨ s = .reverting) : Edge ctx s .undoFailed .stuck
  | driftOnDefer {s : State} (h : s = .expired ∨ s = .reverting) :
      Edge ctx s .driftOnDefer .driftHeld
  | retry : Edge ctx .stuck .retry .reverting
  | forceDrift : Edge ctx .driftHeld .forceDrift .reverting
  | abandon {s : State} (h : s = .stuck ∨ s = .driftHeld) : Edge ctx s .abandon .closed
  | waneElapses {s : State} (h : ctx.intent = .temporary) (ht : ¬terminal s = true)
      (hs : waneOutcome false s = .to .expired) : Edge ctx s .waneElapses .expired

/-- The events the table observes without a move. -/
inductive Observed (ctx : Ctx) : State → Event → Prop where
  | wane {s : State} (h : ctx.intent = .temporary) (hs : s = .driftHeld ∨ s = .stuck ∨ s = .expired) :
      Observed ctx s .waneElapses
  | confirm (h : ctx.intent = .permanent) : Observed ctx .applying .confirm
  | renew {s : State} (h : ctx.intent = .temporary) (hs : s = .applying ∨ s = .applied) :
      Observed ctx s .renew

/-- What a verdict says of an event. -/
def Verdict.Meets (ctx : Ctx) (s : State) (ev : Event) : Verdict → Prop
  | .to s' => Edge ctx s ev s'
  | .stay => Observed ctx s ev
  | _ => True

theorem meets_wane {ctx : Ctx} {s : State} (ht : ¬terminal s = true) :
    (waneOutcome (ctx.intent = .permanent) s).Meets ctx s .waneElapses := by
  cases hi : ctx.intent with
  | permanent => exact trivial
  | temporary =>
      cases s <;> first
        | exact trivial
        | exact .waneElapses hi ht rfl
        | exact .wane hi (by decide)

theorem meets_lapse {ctx : Ctx} : (lapseOutcome ctx).Meets ctx .waiting .boundLapses := by
  unfold lapseOutcome
  split
  next h => exact .lapse fun h' => h'.1 h
  next h =>
    split
    next h' => exact .lapseHold ⟨h, h'⟩
    next h' => exact .lapse fun h => h' h.2

/-- The table's own cases, one by one. -/
theorem transition_meets (ctx : Ctx) (s : State) (ev : Event) :
    (transition ctx s ev).Meets ctx s ev := by
  unfold transition
  dsimp only
  split
  · exact trivial
  split
  · exact trivial
  split
  next ht _ he => subst he; exact meets_wane ht
  split
  next he =>
    subst he
    split
    next h => exact .abandon h
    next => exact trivial
  next hp _ _ =>
    split <;> first
      | exact trivial
      | exact meets_lapse
      | (constructor <;> decide)
      | constructor
      | (split <;> first
          | exact trivial
          | exact .allStepsDone ‹_›
          | exact .commitItem ‹_›
          | exact .commitVerb ‹_› (by decide)
          | exact .confirm ‹_›
          | exact .renew ‹_› (by decide)
          | exact .refuseHold ‹_›
          | exact .refuse (Bool.not_eq_true _ ▸ ‹¬_ = true›)
          | exact absurd ⟨‹_›, .inl rfl⟩ hp)

theorem edge_of_transition {ctx : Ctx} {s s' : State} {ev : Event}
    (h : transition ctx s ev = .to s') : Edge ctx s ev s' := by
  have := transition_meets ctx s ev
  rw [h] at this
  exact this

theorem observed_of_transition {ctx : Ctx} {s : State} {ev : Event}
    (h : transition ctx s ev = .stay) : Observed ctx s ev := by
  have := transition_meets ctx s ev
  rw [h] at this
  exact this

/-- States from which a walk can still start or go on. -/
def State.walkable : State → Bool
  | .unchecked | .checked | .pending | .applying | .waiting | .deferred | .held => true
  | _ => false

/-- A state past the walk never returns to it. -/
theorem transition_past {ctx : Ctx} {s s' : State} {ev : Event}
    (h : transition ctx s ev = .to s') (hs : s.walkable = false) : s'.walkable = false := by
  cases edge_of_transition h <;> first | rfl | cases hs

end Rescind
