/-
# `Rescind.Turn.Machine` — what one instance's turn may do, and in which order

A verb works on one record at a time.  This module says, apart from the
engine's code, in which order a turn may do what it does to the record, the
ledger and the history: a machine over phases.

    beginning   a fresh record is in hand          requesting   it is durable
    reserving   its umbras are in memory           reserved     and in the store
    starting    a walk is due                      walking      the plan is walked
    inFlight a  the `do` of `a` was handed over    guarding a   its post guards are asked
    failing a   it failed                          refusing     a refusal is due
    undoing     a revert runs                      closing      the record is terminal
    releasing   its ledger entries are dropped     agreed       ledger and record agree again
    resting     at rest, or just loaded

Everything the engine does besides is *quiet* (`Quiet`): it leaves the core and
the docket of the record in hand, the ledger and the history alone, and writes
at most the record in hand, as it is.  The docket changes one item at a time
(`Amends`), and what is noted besides a move is noted for a reason (`Permits`).
A turn that fails leaves the record in hand behind (`Drops`); unless a write was
refused it was settled, or left a trace of what stranded it.

**Proved here.**

    a move keeps what identifies the record in hand, and every other record
                                                        (`Move.identity`, `Move.others`)
    a move only adds to the history                     (`Move.acts`)
-/
import Rescind.Engine.Verbs

namespace Rescind

open Lib

variable {σ : Type}

/-! ## The core of a record -/

/-- The part of a record a turn's order is about. -/
structure Core where
  id : String
  ir : PlanIr
  params : Vars
  state : State
  permanent : Bool
  rehearsal : Bool
  applied : List AppliedStep
  choices : Assoc Nat Bool
  ledgerIds : List String

def InstanceRecord.core (r : InstanceRecord) : Core :=
  { id := r.id, ir := r.ir, params := r.params, state := r.state, permanent := r.permanent
    rehearsal := r.rehearsal, applied := r.applied, choices := r.choices
    ledgerIds := r.ledgerIds }

namespace Core

def inState (c : Core) (s : State) : Core := { c with state := s }

def having (c : Core) (as : List AppliedStep) : Core := { c with applied := as }

def choosing (c : Core) (cs : Assoc Nat Bool) : Core := { c with choices := cs }

end Core

/-- What a turn may change besides records. -/
structure Frame where
  hosts : Assoc String Host
  stored : Ledger
  ledger : Ledger
  settling : Bool
  acts : List Act
  gap : Option String

namespace Frame

def telling (f : Frame) (acts : List Act) : Frame := { f with acts }

def gapped (f : Frame) (gap : Option String) : Frame := { f with gap }

end Frame

def World.frame (w : World σ) : Frame :=
  { hosts := w.hosts, stored := w.stored, ledger := w.ledger, settling := w.settling
    acts := w.acts, gap := w.gap }

/-- The world with one more entry in its history. -/
def World.noted (w : World σ) (a : Act) : World σ := { w with acts := a :: w.acts }

/-- The core of what is stored under the id in hand. -/
def World.ownCore (w : World σ) : Option Core :=
  (w.instances.read w.hand.id).map InstanceRecord.core

/-- Every other record is as it was. -/
def SameOthers (w w' : World σ) : Prop :=
  ∀ j, j ≠ w.hand.id → w'.instances.read j = w.instances.read j

/-- What a record's order and its docket are. -/
def InstanceRecord.kern (r : InstanceRecord) : Core × Docket := (r.core, r.docket)

/-- Nothing of the order is touched; the record in hand may have been
written. -/
structure Calm (w w' : World σ) : Prop where
  hand : w'.hand.core = w.hand.core
  others : SameOthers w w'
  own : w'.instances.read w.hand.id = w.instances.read w.hand.id ∨
    (w'.instances.read w.hand.id).map InstanceRecord.core = some w.hand.core
  frame : w'.frame = w.frame

/-- Nor is the docket. -/
structure Quiet (w w' : World σ) : Prop extends Calm w w' where
  docket : w'.hand.docket = w.hand.docket
  kept : w'.instances.read w.hand.id = w.instances.read w.hand.id ∨
    (w'.instances.read w.hand.id).map InstanceRecord.kern = some w.hand.kern

/-- The record in hand became `c`, and durable; the rest became `f`. -/
structure Puts (c : Core) (f : Frame) (w w' : World σ) : Prop where
  hand : w'.hand.core = c
  docket : w'.hand.docket = w.hand.docket
  others : SameOthers w w'
  own : (w'.instances.read w.hand.id).map InstanceRecord.kern = some (c, w.hand.docket)
  frame : w'.frame = f

/-! ## Whether an application stands -/

/-- Its `do` completed, or was handed off, and it was not undone since nor its
record begun anew. -/
def standing (id : String) (a : AppliedStep) : List Act → Bool
  | [] => false
  | .completed j b :: acts => (j = id && b = a) || standing id a acts
  | .handedOff j b :: acts => (j = id && b = a) || standing id a acts
  | .undone j b :: acts => !(j = id && b = a) && standing id a acts
  | .fresh j :: acts => !(j = id) && standing id a acts
  | _ :: acts => standing id a acts

/-- Entries that say nothing of whether an application stands. -/
def Act.idle : Act → Bool
  | .fresh _ | .did _ _ _ | .completed _ _ | .handedOff _ _ | .skipped _ _ | .undone _ _
  | .rerecorded _ _ _ | .chose _ _ _ _ _ _ => false
  | _ => true

/-- The instance an entry is about. -/
def Act.inst : Act → String
  | .fresh id | .did id _ _ | .completed id _ | .handedOff id _ | .skipped id _ | .undoRun id _ _
  | .undone id _ | .untouched id _ | .rerecorded id _ _ | .chose id _ _ _ _ _ | .listed id _ _ _
  | .stranded id _ | .ahead id _ | .handing id _ _ | .quit id _ | .found id _
  | .setOut id _ | .passed id _ | .left id _ _ _ | .woke id _ _ | .proved id _ _ _ | .acked id _ _
  | .upFront id _ | .installed id _ _ | .armed id _ _ _ _ | .counted id _ _ _ | .froze id _
  | .compared id _ _ | .fell id => id

/-! ## Phases -/

inductive Phase where
  | beginning | requesting | reserving | reserved
  | starting | walking
  | inFlight (a : AppliedStep)
  | guarding (a : AppliedStep)
  | failing (a : AppliedStep)
  | refusing | undoing | closing | releasing | agreed | resting
  deriving DecidableEq

/-- The record was asked for: its request is durable. -/
def Phase.asked : Phase → Bool
  | .beginning | .requesting | .reserving | .reserved => false
  | _ => true

/-- The instance is not being applied. -/
def Phase.settled : Phase → Bool
  | .starting | .walking | .inFlight _ | .guarding _ | .failing _ | .refusing => false
  | _ => true

/-- The phase a state reached by an event starts. -/
def State.phase : State → Phase
  | .applying => .starting
  | .reverting | .expired => .undoing
  | .closed | .committed => .closing
  | _ => .resting

/-- The events a phase feeds. -/
def Phase.feeds : Phase → Event → Bool
  | .starting, .refuse => true
  | .walking, .refuse | .walking, .waitAtStep | .walking, .deferAtStep
  | .walking, .allStepsDone | .walking, .commitItem => true
  | .guarding _, .refuse | .guarding _, .waitAtStep => true
  | .refusing, .refuse => true
  | .undoing, .undoClean | .undoing, .undoFailed | .undoing, .driftOnDefer => true
  | .resting, .check | .resting, .request | .resting, .allStepsDone | .resting, .commitItem
  | .resting, .waitAtStep | .resting, .deferAtStep | .resting, .undoClean
  | .resting, .undoFailed | .resting, .driftOnDefer => false
  | .resting, _ => true
  | _, _ => false

/-- A record as `apply` begins it. -/
structure InstanceRecord.Blank (r : InstanceRecord) : Prop where
  state : r.state = .unchecked
  applied : r.applied = []
  choices : r.choices = []
  ledgerIds : r.ledgerIds = []
  docket : r.docket = ⟨none, none, r.nonce, none, none, r.acks, [], none⟩

/-- No live instance is in the way of a fresh record. -/
def Unblocked (w : World σ) : Prop :=
  w.hand.rehearsal = true ∨
    ∀ d, w.instances.read w.hand.id = some d → terminal d.state = true

/-! ## Gates -/

/-- The outside gives this answer, in some state of its own: not every state it may be in
is one a run meets. -/
def Said (E : Setting σ) (q : Query) (x : Reply q) : Prop :=
  ∃ o, (E.outside.answer o q).1 = some x

/-- These proofs satisfy a gate, with the wait accrued since a request, by the clock
and the authenticators the binding publishes; or the binding opens every gate. -/
def OpensSince (E : Setting σ) (requested : Option Instant) (g : GateExpr) (proofs : List String) :
    Prop :=
  E.approval = some true ∨ ∃ (auths : List Authenticator) (now : Instant),
    (auths = [] ∨ Said E .authenticators (.ok auths)) ∧ Said E .now now ∧
    gateSatisfiedBy auths g proofs ⟨now.unixS - (requested.map Instant.unixS).getD 0⟩ = true

/-- They do with the wait accrued since the request of the record. -/
def GateOpens (E : Setting σ) (r : InstanceRecord) (g : GateExpr) (proofs : List String) : Prop :=
  OpensSince E r.requestedAt g proofs

/-- The proofs a docket holds for a scope satisfy a gate. -/
def GateMet (E : Setting σ) (r : InstanceRecord) (scope : Scope) (g : GateExpr) : Prop :=
  GateOpens E r g (proofsFor r scope)

/-- The approval binding verified a proof of this authenticator for this digest
and scope of the instance. -/
def VerifiesFor (E : Setting σ) (id : String) (scope : Scope) (au : String) (digest : Hash) : Prop :=
  ∃ q v, q.inst = id ∧ q.scope = scope ∧ q.authenticator = au ∧ q.digest = digest ∧
    Said E (.verify q) (.ok v) ∧ v.verified = true

/-- It verified one for this scope of the instance. -/
def Verifies (E : Setting σ) (id : String) (scope : Scope) (au : String) : Prop :=
  ∃ d, VerifiesFor E id scope au d

/-- The history has a proof verified for this digest and scope since the record
began, or was last refused for its host contract. -/
def provedFor (id : String) (scope : Scope) (au : String) (digest : Hash) : List Act → Bool
  | [] => false
  | .proved j sc b d :: acts =>
      (j = id && sc = scope && b = au && d = digest) || provedFor id scope au digest acts
  | .fresh j :: acts => !(j = id) && provedFor id scope au digest acts
  | .fell j :: acts => !(j = id) && provedFor id scope au digest acts
  | _ :: acts => provedFor id scope au digest acts

/-- Why a proof may be kept: it was verified, or is for the acknowledgement of
a step that asks for none. -/
def Vouched (E : Setting σ) (w : World σ) (p : Proof) : Prop :=
  provedFor w.hand.id p.scope p.authenticator (scopeDigest E w.hand p.scope) w.acts = true ∨
    ∃ n, p.scope = .ack n ∧ ackGate w.hand n = none

/-- The last thing noted is a proof verified for this scope. -/
def JustProved (E : Setting σ) (w : World σ) (scope : Scope) (au : String) : Prop :=
  ∃ acts, w.acts = .proved w.hand.id scope au (scopeDigest E w.hand scope) :: acts

/-- What may be counted for a scope: the proofs the record holds for it, and for
an acknowledgement the one just verified. -/
def Tallies (E : Setting σ) (w : World σ) (scope : Scope) (aus : List String) : Prop :=
  match scope with
  | .ack n => ackGate w.hand n ≠ none ∧
      ∃ au, JustProved E w (.ack n) au ∧ aus = proofsFor w.hand (.ack n) ++ [au]
  | scope => aus = proofsFor w.hand scope

/-- Why a step counts as acknowledged: a reason was given, and the gate it
answers to opens with the proof just verified, which was counted. -/
structure Acknowledged (E : Setting σ) (w : World σ) (n : Nat) (reason : String) : Prop where
  reason : (Text.trim reason.toList).isEmpty = false
  gate : ∀ g, ackGate w.hand n = some g → ∃ au d acts,
    w.acts = .counted w.hand.id (.ack n) (proofsFor w.hand (.ack n) ++ [au]) d ::
        .proved w.hand.id (.ack n) au d :: acts ∧
      GateOpens E w.hand g (proofsFor w.hand (.ack n) ++ [au])

/-- What may end a wait. -/
def Wakes (E : Setting σ) (w : World σ) : Cause → Prop
  | .proof n => ∃ au d acts g, w.acts = .counted w.hand.id (.step n) (proofsFor w.hand (.step n)) d ::
        .proved w.hand.id (.step n) au d :: acts ∧
      (w.hand.stepAt n).bind StepI.gate = some g ∧ GateMet E w.hand (.step n) g
  | .ack n => (w.hand.waiting.map fun x => (x.step, x.reason)) = some (n, "ack")
  | .guard g answer => w.hand.waiting.bind Wait.guard = some g ∧ answer ≠ .unknown

/-- What placing the artifact and its entry on a host went through: it has
them, and its scheduler does not deny it. -/
structure Places (E : Setting σ) (r : InstanceRecord) (host : Host) (st : BackstopState) : Prop where
  state : st.installed = true ∧ st.armed = false
  name : st.host = host.name
  placed : ∃ i text, executorIndex E host = some i ∧
    E.renderArtifact r.ir r.params host r.id = .ok (st.artifact, text) ∧
    Said E (.putFile i host r.id st.artifact (Bytes.ofString text) 0o750) (.ok ()) ∧
    Said E (.schedInstall st.scheduler i host (jobOf host r.id st.artifact)) (.ok ()) ∧
    ∃ p, p ≠ .absent ∧
      Said E (.schedPresent st.scheduler i host (jobOf host r.id st.artifact)) (.ok p)

/-- An installation places on the host of the covered steps, as the inventory has
it. -/
def Installs (E : Setting σ) (hosts : Assoc String Host) (r : InstanceRecord) (st : BackstopState) :
    Prop :=
  ∃ host, backstopHost E hosts r = .ok (some host) ∧ Places E r host st

/-- What arming on a host went through: the modes and the clock did not object,
and what the schedule asks for is written. -/
def Writes (E : Setting σ) (r : InstanceRecord) (st : BackstopState) (host : Host) (now : Instant)
    (sched : Schedule) : Prop :=
  ∃ i dirs clock, executorIndex E host = some i ∧ Said E (.dirList i host) (.ok dirs) ∧
    ((dirs.find? fun d => d.inst = r.id).map fun d => !d.modesOk).getD false = false ∧
    Said E (.clockNow i host) (.ok clock) ∧ skewWithin E.skewTolerance host now clock = .ok () ∧
    (∀ d, sched.deadline = some d →
      Said E (.replaceFile i host r.id "deadline" (epochText d)) (.ok ())) ∧
    (sched.heartbeatS.isSome = true →
      Said E (.replaceFile i host r.id "heartbeat" (epochText now)) (.ok ())) ∧
    Said E (.schedArm st.scheduler i host (jobOf host r.id st.artifact) (sched.deadline.getD now))
      (.ok ())

/-- An arming writes, where the inventory has the host of the installed artifact, what
the triggers ask for by the clock and the deadline of the record. -/
structure Arms (E : Setting σ) (hosts : Assoc String Host) (now : Instant) (deadline : Option Instant)
    (r : InstanceRecord) (st : BackstopState) : Prop where
  armed : st.armed = true
  clock : Said E .now now
  written : ∃ host, hostOf E hosts st.host = some host ∧
    st.deadline = (schedule (triggersOf r.plan) now deadline).deadline ∧
    st.heartbeatS = (schedule (triggersOf r.plan) now deadline).heartbeatS ∧
    Writes E r st host now (schedule (triggersOf r.plan) now deadline)

/-- What is armed is the artifact the record says is installed. -/
def ArmsInstalled (r : InstanceRecord) (st : BackstopState) : Prop :=
  ∃ st', r.backstop = some st' ∧ st'.installed = true ∧ st.installed = true ∧
    st.host = st'.host ∧ st.artifact = st'.artifact ∧ st.scheduler = st'.scheduler

/-- A change of what is recorded of a backstop that neither installs nor arms. -/
structure Eases (f : BackstopState → BackstopState) : Prop where
  host : ∀ st, (f st).host = st.host
  installed : ∀ st, (f st).installed = true → st.installed = true
  armed : ∀ st, (f st).armed = true → st.armed = true

/-- From the first covered step on the backstop is installed, and from the step
`arm_before` names armed; a rehearsal has none. -/
def Shielded (r : InstanceRecord) (n : Nat) : Prop :=
  r.rehearsal = false → ∀ cov first, coverage r.plan = some cov →
    cov.installedBefore = some first → first ≤ n →
    ∃ st, r.backstop = some st ∧ st.installed = true ∧
      (cov.armedBeforeStep ≤ n → st.armed = true)

/-- The gate a knell at a leaf is acknowledged through. -/
def knellGate (r : InstanceRecord) (n : Nat) : Option GateExpr :=
  match leafAt r.plan.body n with
  | some (.knell s) => match s.op.refusal with
      | .knell _ _ (.gate g) => some g
      | _ => none
  | _ => none

/-- What the plan puts before a step is open: its gate, its knell's
acknowledgement, its backstop. -/
structure Opened (E : Setting σ) (r : InstanceRecord) (n : Nat) : Prop where
  gate : ∀ g, (r.stepAt n).bind StepI.gate = some g → GateMet E r (.step n) g
  ack : ∀ g, knellGate r n = some g → n ∈ r.acks
  shield : Shielded r n

/-- What stands when a `do` is handed over: the durable record says which
application is in flight, and what the plan puts before it is open. -/
structure Cleared (E : Setting σ) (w : World σ) (a : AppliedStep) : Prop where
  real : w.hand.rehearsal = false
  flight : w.hand.attempting = some a
  state : w.hand.state = .applying
  stored : (w.instances.read w.hand.id).map InstanceRecord.kern = some w.hand.kern
  opened : Opened E w.hand a.step

/-- The request of an instance that is no rehearsal has frozen its host contract. -/
def Frozen (r : InstanceRecord) : Prop := r.rehearsal = true ∨ r.hostContract.isSome = true

/-- What stands when the plan is walked: the host contract was just found as the
request froze it, if it froze one. -/
def Departs (E : Setting σ) (w : World σ) : Prop :=
  w.hand.rehearsal = true ∨ w.hand.hostContract = none ∨ ∃ c acts,
    w.hand.hostContract = some (E.contractHash c) ∧
      w.acts = .compared w.hand.id (E.contractHash c) c :: acts

/-- The window an item declares for what it may wait on. -/
def Item.window : Item → Option Duration
  | .step s | .knell s => s.window
  | .assert _ window _ => window
  | _ => none

/-- A window a wait at a leaf may have: the leaf's own, or none. -/
def WindowAt (r : InstanceRecord) (n : Nat) (window : Option Duration) : Prop :=
  window = none ∨ (leafAt r.plan.body n).bind Item.window = window

/-! ## Amendments and notes -/

/-- What the docket of the record in hand may become. -/
inductive Amends (E : Setting σ) (φ : Phase) (w : World σ) : Docket → Prop where
  | attempt {a : AppliedStep} {acts : List Act} (h : w.acts = .ahead w.hand.id a :: acts)
      (hφ : φ = .walking) : Amends E φ w { w.hand.docket with attempting := some a }
  | clear : Amends E φ w { w.hand.docket with attempting := none }
  | wait {x : Wait} {window : Option Duration} (hw : WindowAt w.hand x.step window)
      (hb : x.bound = (stepBound w.hand window).map x.since.plus) :
      Amends E φ w { w.hand.docket with waiting := some x }
  | unwait : Amends E φ w { w.hand.docket with waiting := none }
  | request {now : Instant} (hφ : φ = .reserved) :
      Amends E φ w { w.hand.docket with requestedAt := some now }
  | freeze {c : HostContract} {acts : List Act} (h : w.acts = .froze w.hand.id c :: acts)
      (hφ : φ = .reserved) :
      Amends E φ w { w.hand.docket with hostContract := some (E.contractHash c) }
  | prove {p : Proof} (h : Vouched E w p) (hφ : φ = .resting) :
      Amends E φ w { w.hand.docket with proofs := w.hand.proofs ++ [p] }
  | unprove : Amends E φ w { w.hand.docket with proofs := [] }
  | ack {n : Nat} {reason : String} {acts : List Act}
      (h : w.acts = .acked w.hand.id n reason :: acts) (hj : Acknowledged E { w with acts } n reason)
      (hφ : φ = .resting) :
      Amends E φ w { w.hand.docket with acks := w.hand.acks ++ [n] }
  | install {st : BackstopState} {acts : List Act}
      (h : w.acts = .installed w.hand.id w.hosts st :: acts) (hj : Installs E w.hosts w.hand st) :
      Amends E φ w { w.hand.docket with backstop := some st }
  | arm {st : BackstopState} {now : Instant} {deadline : Option Instant} {acts : List Act}
      (h : w.acts = .armed w.hand.id w.hosts now deadline st :: acts)
      (hj : Arms E w.hosts now deadline w.hand st) (hi : ArmsInstalled w.hand st) :
      Amends E φ w { w.hand.docket with backstop := some st }
  | ease {f : BackstopState → BackstopState} (h : Eases f) :
      Amends E φ w { w.hand.docket with backstop := w.hand.backstop.map f }

/-- What may be noted besides a move. -/
def Permits (E : Setting σ) (φ : Phase) (w : World σ) : Act → Prop
  | .ahead _ a => φ = .walking ∧ a ∉ w.hand.applied
  | .found _ a => φ = .resting ∧ w.hand.attempting = some a
  | .woke _ wait cause =>
      φ = .resting ∧ w.hand.state = .waiting ∧ wait = w.hand.waiting ∧ Wakes E w cause
  | .proved id scope au d => d = scopeDigest E w.hand scope ∧ VerifiesFor E id scope au d
  | .counted _ scope aus d => d = scopeDigest E w.hand scope ∧ Tallies E w scope aus
  | .froze _ _ => φ = .reserved
  | .compared _ frozen _ => w.hand.hostContract = some frozen
  | .fell _ => w.hand.proofs = [] ∧
      (w.instances.read w.hand.id).map InstanceRecord.kern = some w.hand.kern
  | .acked _ n reason => Acknowledged E w n reason
  | .installed _ hosts st => hosts = w.hosts ∧ Installs E hosts w.hand st
  | .armed _ hosts now deadline st => hosts = w.hosts ∧ Arms E hosts now deadline w.hand st
  | .undoRun _ _ _ | .untouched _ _ | .listed _ _ _ _ | .stranded _ _ => True
  | _ => False

/-! ## Moves -/

/-- One move of a turn. -/
inductive Move (E : Setting σ) : Phase × World σ → Phase × World σ → Prop where
  | quiet {φ : Phase} {w w' : World σ} (h : Quiet w w') : Move E (φ, w) (φ, w')
  | amend {φ : Phase} {w : World σ} {r : InstanceRecord} (hc : r.core = w.hand.core)
      (h : Amends E φ w r.docket) : Move E (φ, w) (φ, { w with hand := r })
  | remark {φ : Phase} {w : World σ} (a : Act) (h : a.idle = true) (hi : a.inst = w.hand.id)
      (hp : Permits E φ w a) : Move E (φ, w) (φ, w.noted a)
  -- a request
  | check {w w' : World σ} (hb : w.hand.Blank) (hu : Unblocked w)
      (h : Puts (w.hand.core.inState .checked)
        (w.frame.telling (.upFront w.hand.id w.hand.acks :: .fresh w.hand.id :: w.acts)) w w') :
      Move E (.beginning, w) (.requesting, w')
  | reserve {w : World σ} {l : Ledger}
      (h : reserveAll w.hand (umbras w.hand.plan) w.ledger = .ok l) :
      Move E (.requesting, w) (.reserving, { w with
        ledger := l
        hand := { w.hand with ledgerIds := lidsOf w.hand }
        gap := if (lidsOf w.hand).isEmpty then w.gap else some w.hand.id })
  | reserved {w : World σ} : Move E (.reserving, w) (.reserved, { w with stored := w.ledger })
  | request {w w' : World σ} (hf : Frozen w.hand)
      (h : Puts (w.hand.core.inState .pending) w.frame w w') :
      Move E (.reserved, w) (.agreed, w')
  | closeGap {w : World σ} : Move E (.agreed, w) (.resting, { w with gap := none })
  -- the state machine
  | transit {φ : Phase} {w w' : World σ} {ev : Event} {s : State} (hf : φ.feeds ev = true)
      (ht : transition w.hand.ctx w.hand.state ev = .to s)
      (hl : ev = .waitSatisfied → ∃ cause acts,
        w.acts = .woke w.hand.id w.hand.waiting cause :: acts)
      (h : Puts (w.hand.core.inState s)
        ((w.frame.gapped (gapAfter s w.hand w.gap)).telling (turned w.hand ev s ++ w.acts)) w w') :
      Move E (φ, w) (s.phase, w')
  -- the walk
  | depart {w : World σ} (h : Departs E w) : Move E (.starting, w) (.walking, w)
  | skip {w : World σ} {a : AppliedStep} (h : a ∈ w.hand.applied)
      (ho : (w.hand.opAt a.step).isSome = true) :
      Move E (.walking, w) (.walking, w.noted (.skipped w.hand.id a))
  | start {w : World σ} {a : AppliedStep} (h : a ∉ w.hand.applied) (hc : Cleared E w a) :
      Move E (.walking, w) (.inFlight a,
        (w.noted (.handing w.hand.id a w.handing)).noted (.did w.hand.id a w.hand.applied))
  | finish {φ : Phase} {w : World σ} {a : AppliedStep}
      (h : φ = .inFlight a ∨ φ = .walking ∧ w.hand.rehearsal = true) :
      Move E (φ, w) (.walking, w.noted (.completed w.hand.id a))
  | mark {w w' : World σ} {a : AppliedStep} {φ : Phase} (hf : w.hand.attempting = none)
      (ho : standing w.hand.id a w.acts = true ∨ w.hand.opAt a.step = none)
      (hφ : φ = .guarding a ∨ φ = .walking ∧
        (w.hand.opAt a.step = none ∨ w.hand.rehearsal = true))
      (h : Puts (w.hand.core.having (w.hand.applied ++ [a])) w.frame w w') :
      Move E (.walking, w) (φ, w')
  | pass {w : World σ} {a : AppliedStep} :
      Move E (.guarding a, w) (.walking, w.noted (.passed w.hand.id a))
  | handOff {w w' : World σ} {a : AppliedStep}
      (h : Puts (w.hand.core.having (w.hand.applied ++ [a]))
        (w.frame.telling (.handedOff w.hand.id a :: w.acts)) w w') :
      Move E (.starting, w) (.starting, w')
  | recollect {w : World σ} {leaf iteration : Nat} {vars : Vars} {c : Bool}
      (h : w.hand.choices.get leaf = some c) :
      Move E (.walking, w) (.walking, w.noted (.chose w.hand.id leaf iteration vars none c))
  | choose {w w' : World σ} {leaf iteration : Nat} {vars : Vars} {tri : Tri} {c : Bool}
      (hn : w.hand.choices.get leaf = none)
      (h : Puts (w.hand.core.choosing (w.hand.choices.insert leaf c))
        (w.frame.telling (.chose w.hand.id leaf iteration vars (some tri) c :: w.acts)) w w') :
      Move E (.walking, w) (.walking, w')
  -- a failed `do`
  | fail {w : World σ} {a : AppliedStep} : Move E (.inFlight a, w) (.failing a, w)
  | forget {w : World σ} {a : AppliedStep} : Move E (.failing a, w) (.refusing, w)
  | unmake {w : World σ} {a : AppliedStep} :
      Move E (.failing a, w) (.refusing, w.noted (.undone w.hand.id a))
  | rerecord {φ : Phase} {w : World σ} {a : AppliedStep} {r : InstanceRecord}
      (hφ : φ = .failing a ∨ φ = .resting ∧ w.hand.state = .applying ∧
        ∃ acts, w.acts = .found w.hand.id a :: acts)
      (hr : r.core = w.hand.core.having (w.hand.applied ++ [a]))
      (hd : r.docket = w.hand.docket) :
      Move E (φ, w) (.refusing,
        { w with hand := r, acts := .rerecorded r.id a r.earlierHold :: w.acts })
  -- the revert
  | reenter {w : World σ} (hs : w.hand.state = .reverting ∨ w.hand.state = .expired)
      (hy : w.ownCore = some w.hand.core) : Move E (.resting, w) (.undoing, w)
  | undo {w : World σ} {a : AppliedStep} :
      Move E (.undoing, w) (.undoing, w.noted (.undone w.hand.id a))
  | pop {w w' : World σ}
      (h : Puts (w.hand.core.having w.hand.applied.dropLast) w.frame w w') :
      Move E (.undoing, w) (.undoing, w')
  | fired {w w' : World σ} {gone : List Nat}
      (h : Puts (w.hand.core.having (w.hand.applied.filter fun a => !gone.contains a.step))
        (w.frame.telling
          ((w.hand.applied.filter fun a => gone.contains a.step).map (.undone w.hand.id) ++ w.acts))
        w w') :
      Move E (.resting, w) (.resting, w')
  -- the end
  | release {w : World σ} :
      Move E (.closing, w) (.releasing, { w with
        ledger := w.hand.ledgerIds.foldl Ledger.release w.ledger
        hand := { w.hand with ledgerIds := [] } })
  | released {w : World σ} : Move E (.releasing, w) (.agreed, { w with stored := w.ledger })
  | reload {w : World σ} {r : InstanceRecord} (hr : w.instances.read r.id = some r)
      (hc : r.kern = w.hand.kern) : Move E (.resting, w) (.resting, { w with hand := r })

/-- Moves in sequence. -/
abbrev Moves (E : Setting σ) : Phase × World σ → Phase × World σ → Prop :=
  Relation.ReflTransGen (Move E)

section
variable {E : Setting σ} {p p' : Phase × World σ}

/-- What identifies a record: no move changes it. -/
def Core.identity (c : Core) : String × PlanIr × Vars × Bool × Bool :=
  (c.id, c.ir, c.params, c.permanent, c.rehearsal)

theorem Core.id_eq_of_identity {c c' : Core} (h : c'.identity = c.identity) : c'.id = c.id :=
  congrArg Prod.fst h

theorem InstanceRecord.core_of_kern {r r' : InstanceRecord} (h : r.kern = r'.kern) :
    r.core = r'.core := congrArg Prod.fst h

theorem InstanceRecord.docket_of_kern {r r' : InstanceRecord} (h : r.kern = r'.kern) :
    r.docket = r'.docket := congrArg Prod.snd h

/-- Another record of the same core in hand. -/
theorem calm_hand {w : World σ} {r : InstanceRecord} (hc : r.core = w.hand.core) :
    Calm w { w with hand := r } := ⟨hc, fun _ _ => rfl, .inl rfl, rfl⟩

theorem Move.identity (h : Move E p p') :
    p'.2.hand.core.identity = p.2.hand.core.identity := by
  cases h with
  | quiet h => exact congrArg Core.identity h.hand
  | amend hc => exact congrArg Core.identity hc
  | check _ _ h | request _ h | transit _ _ _ h | mark _ _ _ h | handOff h | choose _ h | pop h
  | fired h => exact (congrArg Core.identity h.hand).trans rfl
  | rerecord _ hr => exact (congrArg Core.identity hr).trans rfl
  | reload _ hc => exact congrArg Core.identity (InstanceRecord.core_of_kern hc)
  | _ => rfl

theorem Move.id (h : Move E p p') : p'.2.hand.id = p.2.hand.id :=
  Core.id_eq_of_identity h.identity

theorem Move.others (h : Move E p p') : SameOthers p.2 p'.2 := by
  cases h with
  | quiet h => exact h.others
  | check _ _ h | request _ h | transit _ _ _ h | mark _ _ _ h | handOff h | choose _ h | pop h
  | fired h => exact h.others
  | _ => exact fun _ _ => rfl

theorem acts_of_frame {w' : World σ} {f : Frame} (h : w'.frame = f) : w'.acts = f.acts :=
  congrArg Frame.acts h

/-- What the end of a state tells is about the record, and of no application. -/
theorem of_mem_turned {r : InstanceRecord} {ev : Event} {s : State} {act : Act}
    (h : act ∈ turned r ev s) : act.inst = r.id ∧ act.idle = true := by
  simp only [turned, List.mem_append] at h
  rcases h with (h | h) | h <;> split at h <;> simp at h <;> subst h <;> exact ⟨rfl, rfl⟩

/-- What a move adds to the history is about the record in hand. -/
theorem Move.told (h : Move E p p') :
    ∃ new, p'.2.acts = new ++ p.2.acts ∧ ∀ act ∈ new, act.inst = p.2.hand.id := by
  have none_ : ∀ {w' : World σ}, w'.acts = p.2.acts → ∃ new, w'.acts = new ++ p.2.acts ∧
      ∀ act ∈ new, act.inst = p.2.hand.id := fun h => ⟨[], h, fun _ hm => by cases hm⟩
  cases h with
  | quiet h => exact none_ (acts_of_frame h.frame)
  | remark a _ hi => exact ⟨[a], rfl, by simpa using hi⟩
  | check _ _ h => exact ⟨[_, _], acts_of_frame h.frame, by simp [Act.inst]⟩
  | handOff h | choose _ h => exact ⟨[_], acts_of_frame h.frame, by simp [Act.inst]⟩
  | request _ h | mark _ _ _ h | pop h => exact none_ (acts_of_frame h.frame)
  | transit _ _ _ h => exact ⟨_, acts_of_frame h.frame, fun _ hact => (of_mem_turned hact).1⟩
  | fired h =>
      refine ⟨_, acts_of_frame h.frame, fun act hact => ?_⟩
      obtain ⟨b, -, rfl⟩ := List.mem_map.mp hact
      rfl
  | @rerecord _ w _ r _ hr =>
      have hid : r.id = w.hand.id := congrArg Core.id hr
      exact ⟨[_], rfl, by simpa [Act.inst] using hid⟩
  | skip | finish | recollect | unmake | undo | pass => exact ⟨[_], rfl, by simp [Act.inst]⟩
  | start => exact ⟨[_, _], rfl, by simp [Act.inst]⟩
  | amend | reserve | reserved | closeGap | depart | fail | forget | reenter | release | released
  | reload => exact none_ rfl

/-- A move only adds to the history. -/
theorem Move.acts (h : Move E p p') : p.2.acts <:+ p'.2.acts := by
  obtain ⟨new, hnew, -⟩ := h.told
  exact ⟨new, hnew.symm⟩

/-- A settled phase has an instance that is not applying. -/
def Coherent (p : Phase × World σ) : Prop :=
  p.1.settled = true → p.2.hand.state ≠ .applying

theorem State.phase_settled_iff (s : State) : s.phase.settled = true ↔ s ≠ .applying := by
  cases s <;> simp [State.phase, Phase.settled]

theorem Core.state_ne {r : InstanceRecord} {c : Core} {s : State} (h : r.core = c)
    (hc : c.state ≠ s) : r.state ≠ s := by
  rw [← h] at hc
  exact hc

theorem Move.coherent (h : Move E p p') (hc : Coherent p) : Coherent p' := by
  intro hs
  cases h with
  | quiet h => exact Core.state_ne h.hand (hc hs)
  | amend h => exact Core.state_ne h (hc hs)
  | check _ _ h | request _ h => exact Core.state_ne h.hand nofun
  | transit _ _ _ h => exact Core.state_ne h.hand ((State.phase_settled_iff _).mp hs)
  | pop h | fired h => exact Core.state_ne h.hand (hc rfl)
  | reload _ hr => exact Core.state_ne (InstanceRecord.core_of_kern hr) (hc rfl)
  | remark | undo => exact hc hs
  | reserve | reserved | closeGap | release | released | reenter => exact hc rfl
  | mark _ _ hφ => rcases hφ with rfl | ⟨rfl, -⟩ <;> cases hs
  | depart | skip | start | finish | pass | handOff | recollect | choose | fail | forget | unmake
  | rerecord => cases hs

theorem Moves.coherent (h : Moves E p p') (hc : Coherent p) : Coherent p' := by
  induction h with
  | refl => exact hc
  | tail _ h ih => exact h.coherent ih

theorem Moves.identity (h : Moves E p p') :
    p'.2.hand.core.identity = p.2.hand.core.identity := by
  induction h with
  | refl => rfl
  | tail _ h ih => rw [h.identity, ih]

theorem Moves.id (h : Moves E p p') : p'.2.hand.id = p.2.hand.id :=
  Core.id_eq_of_identity (Moves.identity h)

theorem Moves.others (h : Moves E p p') : SameOthers p.2 p'.2 := by
  induction h with
  | refl => exact fun _ _ => rfl
  | tail hp h ih =>
      intro j hj
      rw [h.others j (by rw [Moves.id hp]; exact hj), ih j hj]

end

/-! ## When the world accepts -/

/-- The process never dies, and the store and the journal accept every
write. -/
structure Accepts (E : Setting σ) : Prop where
  alive : ∀ o q, (E.outside.answer o q).1.isSome = true
  write : ∀ o s x, (E.outside.answer o (.write s)).1 = some x → x = .ok ()
  sign : ∀ o e x, (E.outside.answer o (.sign e)).1 = some x → x = .ok ()
  deliver : ∀ o e x, (E.outside.answer o (.deliver e)).1 = some x → x = []

/-- The history says an error left this instance's walk. -/
def Stranded (id : String) (acts : List Act) : Prop := ∃ why, Act.stranded id why ∈ acts

/-- A turn that failed: the record in hand is dropped.  A write was refused or
the process died, the instance was settled, or the history says what stranded
it. -/
structure Drops (E : Setting σ) (φ : Phase) (w w' : World σ) : Prop where
  records : ∀ j, w'.instances.read j = w.instances.read j
  frame : w'.frame = w.frame
  excuse : φ.settled = true ∨ Stranded w.hand.id w.acts ∨ ¬Accepts E

/-- A program as a turn. -/
abbrev Turns (E : Setting σ) {α : Type} (φ : Phase) (m : Eng σ α)
    (Q : α → Phase → World σ → Prop) (w : World σ) : Prop :=
  Prog.Traces (Move E) (fun _ => Drops E) φ m Q w

end Rescind
