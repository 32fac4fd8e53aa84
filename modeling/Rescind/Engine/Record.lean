/-
# `Rescind.Engine.Record` — the persisted instance and what the engine says

The instance record as the store keeps it, the journal's events, the engine's
errors and outcomes, hosts, and the values that cross the executor seam.

A snapshot is keyed by the step, its loop variables and the footprint index,
and a marker list by the step and its variables: the source writes these keys
as one text whose parts can be read back (`step_key`, `parse_step_key`).
-/
import Rescind.Core.Check
import Rescind.Core.States

namespace Rescind

open Lib

/-- A digest, in hex. -/
abbrev Hash := String

/-! ## Applications -/

/-- One application of a step: its number, its repeat iteration and the loop
variables it ran with. -/
structure AppliedStep where
  step : Nat
  iteration : Nat
  vars : Vars
  deriving DecidableEq, Repr

/-- The key an application's markers are kept under. -/
abbrev StepKey := Nat × Vars

def AppliedStep.key (a : AppliedStep) : StepKey := (a.step, a.vars)

structure Wait where
  step : Nat
  reason : String
  since : Instant
  /-- The wait's own bound; wane still wins. -/
  bound : Option Instant
  /-- The guard being waited on, when the wait is an unknown guard. -/
  guard : Option String
  deriving DecidableEq, Repr

structure DeferredAt where
  step : Nat
  handoff : String
  iteration : Nat
  vars : Vars
  deriving DecidableEq, Repr

/-- A file staged for a step, removed after it. -/
structure Staged where
  host : String
  step : Nat
  name : String
  deriving DecidableEq, Repr

/-- One fact of a step as `do` left it. -/
structure Marker where
  kind : Kind
  path : String
  digest : String
  deriving DecidableEq, Repr

inductive Scope where
  | plan
  | step (n : Nat)
  | ack (n : Nat)
  deriving DecidableEq, Repr

/-- One proof an instance has accepted. -/
structure Proof where
  scope : Scope
  authenticator : String
  submitter : String
  at_ : Instant
  deriving DecidableEq, Repr

/-- What the engine has put on a host for an instance's backstop. -/
structure BackstopState where
  host : String
  artifact : String
  scheduler : String
  installed : Bool
  armed : Bool
  deadline : Option Instant
  heartbeatS : Option Nat
  intervalS : Option Nat
  lastHeartbeat : Option Instant
  confirmed : Bool
  fired : Bool
  deriving DecidableEq, Repr

/-- What a record says of what is going on: the application in flight, the
wait, the request with its acknowledgements and proofs, and the backstop. -/
structure Docket where
  attempting : Option AppliedStep
  waiting : Option Wait
  nonce : String
  hostContract : Option Hash
  requestedAt : Option Instant
  acks : List Nat
  proofs : List Proof
  backstop : Option BackstopState
  deriving DecidableEq, Repr

/-- Digests of facts, by shape. -/
abbrev Watched := Assoc String String

/-- One instance, as the store keeps it. -/
structure InstanceRecord where
  id : String
  ir : PlanIr
  params : Vars
  state : State
  permanent : Bool
  rehearsal : Bool
  requestedAt : Option Instant := none
  approvedAt : Option Instant := none
  deadline : Option Instant := none
  approvalDeadline : Option Instant := none
  applied : List AppliedStep := []
  /-- The arm each `when` chose, by the leaf number of its first leaf. -/
  choices : Assoc Nat Bool := []
  outputs : Vars := []
  snapshots : Assoc (StepKey × Nat) String := []
  waiting : Option Wait := none
  heldAt : Option Nat := none
  deferred : Option DeferredAt := none
  stuck : List Nat := []
  driftHeld : List Nat := []
  markers : Assoc StepKey (List Marker) := []
  dirs : List String := []
  staged : List Staged := []
  forceDrift : Bool := false
  backstop : Option BackstopState := none
  nonce : String := ""
  /-- The host contract frozen at the request; a change is R0301. -/
  hostContract : Option Hash := none
  proofs : List Proof := []
  secretUndelivered : Bool := false
  /-- The step whose `do` is running right now. -/
  attempting : Option AppliedStep := none
  /-- What every fact the step in flight observes read before its `do`. -/
  attemptingPre : Watched := []
  acks : List Nat := []
  forced : List String := []
  ledgerIds : List String := []
  refusal : Option String := none
  closedReason : Option String := none

namespace InstanceRecord

def plan (r : InstanceRecord) : Plan := r.ir.plan

def intent (r : InstanceRecord) : Intent := if r.permanent then .permanent else .temporary

def docket (r : InstanceRecord) : Docket :=
  { attempting := r.attempting, waiting := r.waiting, nonce := r.nonce
    hostContract := r.hostContract, requestedAt := r.requestedAt
    acks := r.acks, proofs := r.proofs, backstop := r.backstop }

def isApplied (r : InstanceRecord) (step iteration : Nat) (vars : Vars) : Bool :=
  r.applied.any fun a => a.step = step && a.iteration = iteration && a.vars = vars

def opAt (r : InstanceRecord) (step : Nat) : Option Op := (leafAt r.plan.body step).bind opOf

def stepAt (r : InstanceRecord) (step : Nat) : Option StepI := (leafAt r.plan.body step).bind stepOf

/-- An applied step has refusal `:hold`. -/
def earlierHold (r : InstanceRecord) : Bool :=
  r.applied.any fun a => match r.opAt a.step with
    | some o => o.refusal.isHold
    | none => false

/-- The context the state machine reads. -/
def ctx (r : InstanceRecord) : Ctx :=
  { intent := r.intent
    mode := r.plan.mode
    earlierHold := r.earlierHold
    onLapse := ((r.waiting.bind fun w => r.stepAt w.step).map StepI.onLapse).getD .revert }

theorem isApplied_iff (r : InstanceRecord) (a : AppliedStep) :
    r.isApplied a.step a.iteration a.vars = true ↔ a ∈ r.applied := by
  simp only [isApplied, List.any_eq_true, Bool.and_eq_true, decide_eq_true_eq]
  constructor
  · rintro ⟨b, hb, ⟨h1, h2⟩, h3⟩
    have : b = a := by cases a; cases b; simp_all
    exact this ▸ hb
  · intro ha
    exact ⟨a, ha, ⟨rfl, rfl⟩, rfl⟩

end InstanceRecord

/-! ## The journal -/

/-- The events of the journal that the modelled operations record. -/
inductive J where
  | checked
  | requested
  | proofAccepted (scope : Scope) (authenticator submitter : String)
  | approved (rehearsal : Bool)
  | approvalExpired
  | cancelled
  | applying (step : Nat) (undoLine : String)
  | stepDone (step : Nat)
  | stepFailed (step : Nat) (error : String)
  | undoSkipped (step : Nat) (reason : String)
  | applied
  | renewed
  | confirmed
  | committed (by_ reason : String)
  | recant
  | reverting (steps : List Nat)
  | reverted
  | stuck (steps : List Nat)
  | expired
  | closed (reason : String)
  | backstopFired (step : Nat)
  | backstopFiredAfterAbandon (host : String) (steps : List Nat)
  | held (step : Nat)
  | resumed (step : Nat) (by_ : String)
  | deferred (step : Nat) (handoff : String)
  | handoffDone (step : Nat) (by_ : String)
  | suspended
  | reestablished
  | waiting (step : Nat) (reason : String)
  | waitLapsed (step : Nat) (reason : String)
  | stepGateRequested (step : Nat) (stepDigest : Hash)
  | stepGateSatisfied (step : Nat)
  | ackRequested (step : Nat) (cost : String)
  | knellAcknowledged (step : Nat) (cost by_ : String)
  | denied (gate reason : String)
  | footprintViolation (step : Nat) (facts : List String)
  | driftClobbered (step : Nat) (facts : List String)
  | driftHeld (step : Nat) (facts : List String)
  | hostContractChanged (expected observed : Hash)
  | refused (reason : String)
  | secretRevealed (label acceptor : String)
  | secretUndelivered (label : String)
  | secretDropped (label reason : String)
  | stagedRemoved (step : Nat) (reason : String)
  | instanceDirOrphaned (host inst : String) (armed : Bool)
  | instanceDirForeign (host inst controller : String)
  | reclaimed (host inst : String) (forced : Bool) (reason : String)
  | abandoned (stepsNotReverted : List Nat) (artifactsLeftArmed : List String)
      (by_ reason : String)
  | migrated (from_ to_ : Nat) (by_ : String)
  | drillAttested (plan host inst : String) (restored : Bool) (facts : List String)
  deriving DecidableEq, Repr

/-- A journal entry: when, about what, and what happened.  Its place in the
chain, its hash and its signature are the store's. -/
structure Entry where
  at_ : Instant
  plan : String
  inst : String
  host : String
  event : J
  deriving DecidableEq, Repr

/-! ## Errors and outcomes -/

inductive JournalError where
  | store (e : String)
  /-- R0304: these sinks did not acknowledge the entry. -/
  | sinkRefused (refusals : List (String × String))
  | sign (e : String)
  deriving DecidableEq, Repr

inductive EngineError where
  /-- The check refused the plan. -/
  | refused (diagnostics : List Diagnostic)
  /-- R0101 (exit 75) or R0203 at request. -/
  | ledger (code : LedgerCode) (msg : String)
  /-- R0102, R0103: the verb is not admitted here. -/
  | notAdmitted (code : RCode) (msg : String)
  | noSuchInstance (id : String)
  /-- A verb that has no meaning in the instance's state. -/
  | wrongState (state : State) (verb : String)
  | journal (e : JournalError)
  | store (e : String)
  /-- A refusal the world made, naming its own R-code. -/
  | runtime (msg : String)
  /-- A malformed plan the checker should have refused. -/
  | internal (msg : String)
  deriving DecidableEq, Repr

/-- What a verb reports: the state reached and its exit code. -/
structure Outcome where
  id : String
  state : State
  exit : Nat
  deriving DecidableEq, Repr

/-- The exit code for a state. -/
def exitOf (state : State) (refused secretUndelivered : Bool) : Nat :=
  match state with
  | .held => 3
  | .stuck => 4
  | .deferred => 5
  | .pending | .waiting => 6
  | .driftHeld => 8
  | .closed => if refused then 1 else 0
  | _ => if secretUndelivered then 7 else 0

def outcome (r : InstanceRecord) : Outcome :=
  ⟨r.id, r.state, exitOf r.state r.refusal.isSome r.secretUndelivered⟩

/-! ## Hosts and the executor seam -/

/-- The engine's view of a host. -/
structure Host where
  record : HostRecord
  address : String
  scheduler : Option String := none
  rescindRoot : Option String := none
  facts : Vars := []
  deriving DecidableEq, Repr

namespace Host

def name (h : Host) : String := h.record.name

/-- A `host.<field>` reference. -/
def field (h : Host) (f : String) : Option String :=
  if f = "name" then some h.record.name
  else if f = "os" then some h.record.os
  else if f = "address" then some h.address
  else h.facts.get f

end Host

/-- Which locus an executor serves. -/
inductive LocusKind where
  | local_ | ssh
  | hook (t : String)
  deriving DecidableEq, Repr

def LocusKind.transport : LocusKind → String
  | .local_ => "local"
  | .ssh => "ssh"
  | .hook t => t

structure ExecCaps where
  filesystem : Bool
  stdinPreamble : Bool
  deriving DecidableEq, Repr

/-- A value as an executor receives it: text, and whether it is a secret. -/
structure Resolved where
  text : String
  secret : Bool := false
  deriving DecidableEq, Repr

/-- A resolved primitive. -/
inductive RPrim where
  | run (cmd : Resolved) (env : List (String × Resolved)) (stdin : Option Resolved)
  | write (shape : String) (content : Resolved)
  | remove (shape : String)
  | append (shape : String) (line : Resolved)
  | regionSet (shape : String) (anchor : Option String) (content : Resolved)
  | regionClear (shape : String) (anchor : Option String)
  | stage (name : String) (content : Resolved) (mode : Nat)
  | hook (name : String) (args : List (String × Resolved))
  | install (name : String)
  | release (name : String)
  | call (prim : String) (cmd : Resolved)
  deriving DecidableEq, Repr

/-- What a probe saw. -/
structure Observation where
  text : String
  tri : Option Tri
  deriving DecidableEq, Repr

def Observation.asTri (o : Observation) : Tri := o.tri.getD .unknown

structure BootstrapState where
  rescindRoot : Bool
  group : Bool
  instancesDir : Bool
  lock : Bool
  modesOk : Bool
  deriving DecidableEq, Repr

def BootstrapState.ready (b : BootstrapState) : Bool :=
  b.rescindRoot && b.group && b.instancesDir && b.lock && b.modesOk

/-- One instance directory as a target reports it. -/
structure InstanceDirState where
  inst : String
  armed : Bool
  fired : Bool
  modesOk : Bool
  deriving DecidableEq, Repr

inductive Presence where
  | present | absent | unknown
  deriving DecidableEq, Repr

/-- What the scheduler runs, and where it lives. -/
structure Job where
  inst : String
  artifact : String
  language : ArtifactLanguage
  os : String
  deriving DecidableEq, Repr

/-- What the approval binding is asked to verify. -/
structure ProofRequest where
  inst : String
  digest : Hash
  scope : Scope
  context : String
  authenticator : String
  proof : String
  deriving DecidableEq, Repr

structure Verified where
  verified : Bool
  reason : String
  deriving DecidableEq, Repr

/-! ## The undo as one line -/

def refText (r : Ref) : String :=
  if r.isSecret then "<secret:" ++ r.label ++ ">" else "#\x7b" ++ r.label ++ "\x7d"

def templateText (parts : Template) : String :=
  String.join <| parts.map fun
    | .lit s => s
    | .ref r => refText r

def valueText : Value → String
  | .lit s => s
  | .ref r => refText r
  | .template parts => templateText parts

def kwargs (args : List (String × Value)) : String :=
  Text.join ", " (args.map fun a => a.1 ++ ": " ++ valueText a.2)

def primLine : Prim → String
  | .run cmd _ _ => templateText cmd
  | .write fact _ => "write " ++ fact.shape
  | .remove fact => "remove " ++ fact.shape
  | .append fact _ => "append to " ++ fact.shape
  | .regionSet fact _ => match fact.anchor with
      | some a => "set anchor " ++ a ++ " in " ++ fact.shape
      | none => "set the region in " ++ fact.shape
  | .regionClear fact => match fact.anchor with
      | some a => "clear anchor " ++ a ++ " in " ++ fact.shape
      | none => "clear the region in " ++ fact.shape
  | .stage name _ _ => "stage " ++ name
  | .hook name args => "hook :" ++ name ++ "(" ++ kwargs args ++ ")"
  | .install name => "install :" ++ name
  | .release name => "release :" ++ name
  | .call prim _ args => prim ++ "(" ++ kwargs (args.map fun a => (a.name, a.value)) ++ ")"

def bodyLine (b : Body) : String := Text.join "; " (b.map primLine)

def restoreLine (e : FootprintEntry) : Option String :=
  match e.kind with
  | .owned => some ("remove " ++ e.shape)
  | .region => some (match e.anchor with
      | some a => "strip anchor " ++ a ++ " from " ++ e.shape
      | none => "strip the region from " ++ e.shape)
  | .modified => some ("restore " ++ e.shape ++ " from snapshot")
  | .held => some ("release " ++ e.shape)
  | .derived | .appendOnly => none

def undoLine (o : Op) : String :=
  match o.undo with
  | .noUndo => ""
  | .restore =>
      let parts := o.footprint.filterMap restoreLine
      if parts.isEmpty then "nothing to restore" else Text.join "; " parts
  | .computed body _ => bodyLine body
  | .compensate body _ =>
      "compensate: " ++ bodyLine body ++
        (if o.footprint.any fun e => e.kind = .appendOnly then " (undone by record, not erasure)"
          else "")

end Rescind
