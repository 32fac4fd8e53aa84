/-
# `Rescind.Engine.Verbs` — the verbs, the reap pass, boot, and runs

What an operator asks of the engine (`apply` to `cancel`), what the engine does
by itself (`reap`, `heartbeat`), and what it does when it starts (`boot`).  A
verb loads its record, feeds one event and journals it; the walk or the revert
follows.

A run (`RunOf`, `Run`) is any sequence of verbs, changes of the host inventory
and restarts.  A process that died, or whose boot failed, does nothing until it is
started again.
-/
import Rescind.Engine.Walk

namespace Rescind

open Lib

variable {σ : Type} (E : Setting σ)

/-- What a verb reports. -/
def report : Eng σ Outcome := .read fun w => outcome w.hand

/-! ## Apply -/

/-- What `apply` is asked for besides the plan. -/
structure ApplyOptions where
  rehearsal : Bool := false
  acks : List Nat := []
  forced : List String := []
  mode : Option Mode := none

/-- The id of an instance: the plan, its owner and the start of the parameters'
digest.  A rehearsal's is its own. -/
def instanceId (ir : PlanIr) (params : Vars) (rehearsal : Bool) : String :=
  let id := ir.plan.id ++ "." ++ ir.plan.owner ++ "." ++ String.ofList (E.paramsDigest params).1
  if rehearsal then id ++ ".rehearsal" else id

/-- A record as an instance begins: nothing applied, nothing held. -/
def blankRecord (ir : PlanIr) (params : Vars) (opts : ApplyOptions) (nonce : String) :
    InstanceRecord :=
  { id := instanceId E ir params opts.rehearsal
    ir, params
    state := .unchecked
    permanent := inferIntent ir.plan = some .permanent
    rehearsal := opts.rehearsal
    nonce
    acks := opts.acks
    forced := opts.forced }

/-- The plan under the mode `apply` was asked to run it in. -/
def underMode (ir : PlanIr) (mode : Option Mode) : PlanIr :=
  { ir with plan := { ir.plan with mode := mode.getD ir.plan.mode } }

/-- R0101: an id held by a live instance.  A rehearsal is never blocked. -/
def refuseTaken (id : String) (rehearsal : Bool) : Eng σ Unit :=
  if rehearsal then pure ()
  else do
    match ← readInstance E id with
    | some r =>
        .failIf (!terminal r.state)
          (.ledger .r0101 ("instance " ++ id ++ " is already " ++ r.state.name))
    | none => pure ()

/-- The ledger id of an instance's reservation on a host. -/
def lid (id host : String) : String := id ++ "@" ++ host

/-- Reserve one umbra after another. -/
def reserveAll (r : InstanceRecord) :
    Assoc String (List Fact) → Ledger → Except (LedgerCode × String) Ledger
  | [], l => .ok l
  | (host, umbra) :: rest, l => do
      let l ← l.request
        { id := lid r.id host, host, umbra
          exclusivity := r.plan.exclusivity
          rehearsal := r.rehearsal }
      reserveAll r rest l

/-- The ledger ids an instance reserves: none for a rehearsal. -/
def lidsOf (r : InstanceRecord) : List String :=
  if r.rehearsal then [] else (umbras r.plan).map fun u => lid r.id u.1

/-- Reserve every touched host's umbra, and write the ledger. -/
def reserve : Eng σ Unit := do
  let r ← hand
  match reserveAll r (umbras r.plan) (← Prog.read World.ledger) with
  | .error (code, msg) => .fail (.ledger code msg)
  | .ok l => do
      .edit fun w => { w with
        ledger := l
        hand := { w.hand with ledgerIds := lidsOf r }
        gap := if (lidsOf r).isEmpty then w.gap else some r.id }
      writeLedger E

/-- Freeze the host contract: the request digest covers it. -/
def freeze : Eng σ Unit := do
  let r ← hand
  .when (!r.rehearsal) do
    let c ← hostContract E
    note (.froze r.id c)
    setHand fun r => { r with hostContract := some (E.contractHash c) }

/-- The request: reserve, freeze, and the record is pending. -/
def request (now : Instant) : Eng σ Unit := do
  reserve E
  setHand fun r => { r with requestedAt := some now }
  freeze E
  step E .request
  closeGap
  log E .requested

/-- Hold the request pending when its gate is not open; whether it was. -/
def holdPending (now : Instant) : Eng σ Bool := do
  let r ← hand
  match r.plan.gate, r.rehearsal with
  | some g, false => do
      if ← gateSatisfied E .plan g.expr then pure false
      else do
        setHand fun r => { r with
          approvalDeadline := (g.window.or r.ir.site.maxWait).map now.plus }
        persist E
        pure true
  | _, _ => pure false

/-- The approval: wane starts. -/
def approve : Eng σ Unit := do
  let refused ← refuseOnContractChange E
  if refused then pure ()
  else do
    let now ← ask E .now
    setHand fun r => { r with
      approvedAt := some now
      deadline := if r.permanent then r.deadline else (effectiveWane r.plan).map now.plus }
    step E .approve
    let r ← hand
    log E (.approved r.rehearsal)

/-- Approve, and walk. -/
def approveAndWalk : Eng σ Unit := do
  approve E
  persist E
  walk E

/-- Begin the record: its first durable write, and the entry for it. -/
def begin_ (r : InstanceRecord) : Eng σ Unit := do
  takeUp r
  step E .check
  note (.fresh r.id)
  note (.upFront r.id r.acks)
  log E .checked

/-- Check, request, approve (no gate) or hold pending (a gate), then apply. -/
def apply (ir : PlanIr) (params : Vars) (opts : ApplyOptions) : Eng σ Outcome := do
  let ir := underMode ir opts.mode
  if !checkClean ir then .fail (.refused (check ir.site ir.requester ir.plan))
  else do
    let now ← ask E .now
    let nonce ← ask E .nonce
    refuseTaken E (instanceId E ir params opts.rehearsal) opts.rehearsal
    begin_ E (blankRecord E ir params opts nonce)
    request E now
    let pending ← holdPending E now
    .when (!pending) (approveAndWalk E)
    report

/-! ## Proofs and acknowledgements -/

def Scope.gateName : Scope → String
  | .plan => "plan"
  | .step n => "step " ++ toString n
  | .ack n => "ack " ++ toString n

/-- Ask the approval binding about a proof. -/
def verify (r : ProofRequest) : Eng σ Verified := do
  match ← ask E (.verify r) with
  | .ok v => pure v
  | .error e => .fail (.runtime ("R0302: the approval binding: " ++ e))

def proofRequest (r : InstanceRecord) (scope : Scope) (context authenticator proof : String) :
    ProofRequest :=
  { inst := r.id, digest := scopeDigest E r scope, scope, context, authenticator, proof }

/-- A satisfied wait: the record is applying again. -/
def endWait (cause : Cause) : Eng σ Unit := do
  let r ← hand
  note (.woke r.id r.waiting cause)
  step E .waitSatisfied
  setHand fun r => { r with waiting := none }

/-- A satisfied wait at a gate or a guard: the walk goes on. -/
def walkOn (n : Nat) (cause : Cause) : Eng σ Unit := do
  endWait E cause
  log E (.stepGateSatisfied n)
  persist E
  walk E

/-- A proof may be the one that opens a gate: the plan's, at `Pending`, or a
step's, at `Waiting`. -/
def afterProof (scope : Scope) : Eng σ Unit := do
  let r ← hand
  match scope, r.state with
  | .plan, .pending =>
      match r.plan.gate with
      | none => pure ()
      | some g => do
          let opens ← gateSatisfied E .plan g.expr
          .when opens (approveAndWalk E)
  | .step n, .waiting =>
      match (r.stepAt n).bind StepI.gate with
      | none => pure ()
      | some g => do
          let opens ← gateSatisfied E (.step n) g
          .when opens (walkOn E n (.proof n))
  | _, _ => pure ()

/-- Keep a proof that was verified, once per scope and authenticator. -/
def acceptProof (scope : Scope) (authenticator submitter : String) : Eng σ Unit := do
  let at_ ← ask E .now
  setHand fun r =>
    if r.proofs.any fun p => p.scope = scope && p.authenticator = authenticator then r
    else { r with proofs := r.proofs ++ [⟨scope, authenticator, submitter, at_⟩] }
  log E (.proofAccepted scope authenticator submitter)
  persist E
  afterProof E scope

def approveProof (id : String) (scope : Scope) (authenticator proof submitter : String) :
    Eng σ Outcome := do
  load E id
  let refused ← refuseOnContractChange E
  if refused then report
  else do
    let r ← hand
    match E.approval with
    | none => .fail (.runtime "the site declares no approval binding")
    | some _ => do
        let v ← verify E (proofRequest E r scope "" authenticator proof)
        if !v.verified then do
          log E (.denied scope.gateName v.reason)
          .fail (.runtime ("the proof from " ++ authenticator ++ " was not accepted: " ++ v.reason))
        else do
          note (.proved r.id scope authenticator (scopeDigest E r scope))
          acceptProof E scope authenticator submitter
          report

/-- The gate a knell's acknowledgement answers to. -/
def ackGate (r : InstanceRecord) (n : Nat) : Option GateExpr :=
  match (r.opAt n).map Op.refusal with
  | some (.knell _ _ (.gate g)) => some g
  | _ => none

/-- The verdict on an acknowledgement's proof. -/
def verifyAck (r : ProofRequest) : Eng σ Verified :=
  match E.approval with
  | none => pure ⟨false, "the site declares no approval binding"⟩
  | some _ => verify E r

/-- Whether an acknowledgement's gate opens with one more proof. -/
def ackOpens (n : Nat) (g : GateExpr) (authenticator : String) : Eng σ Bool := do
  let r ← hand
  let auths ← authenticators E
  let now ← ask E .now
  let proofs := proofsFor r (.ack n) ++ [authenticator]
  note (.counted r.id (.ack n) proofs (scopeDigest E r (.ack n)))
  pure (E.approval = some true || gateSatisfiedBy auths g proofs (elapsedSince r now))

def ackCost (r : InstanceRecord) (n : Nat) : String :=
  match (r.opAt n).map Op.refusal with
  | some (.knell _ (.probe p) _) => p
  | _ => "none"

/-- Keep an acknowledgement's proof. -/
def keepAckProof (n : Nat) (authenticator submitter : String) : Eng σ Unit := do
  let at_ ← ask E .now
  setHand fun r => { r with proofs := r.proofs ++ [⟨.ack n, authenticator, submitter, at_⟩] }

/-- The acknowledgement itself; an instance waiting on it goes on. -/
def acknowledge (n : Nat) (reason authenticator submitter : String) : Eng σ Unit := do
  note (.acked (← hand).id n reason)
  setHand fun r => { r with acks := if r.acks.contains n then r.acks else r.acks ++ [n] }
  keepAckProof E n authenticator submitter
  let r ← hand
  log E (.knellAcknowledged n (ackCost r n) (authenticator ++ ": " ++ reason))
  persist E
  let waitsHere := (r.waiting.map fun w => (w.step, w.reason)) = some (n, "ack")
  .when (r.state = .waiting && waitsHere) do
    endWait E (.ack n)
    persist E
    walk E

/-- The proof of an acknowledgement whose gate needs more of them. -/
def keepAckPending (n : Nat) (authenticator submitter : String) : Eng σ Unit := do
  keepAckProof E n authenticator submitter
  log E (.proofAccepted (.ack n) authenticator submitter)
  persist E

/-- A knell whose `ack:` is a gate needs a proof in the ack scope: whether the
acknowledgement stands. -/
def ackAdmitted (n : Nat) (reason proof authenticator submitter : String) : Eng σ Bool := do
  let r ← hand
  match ackGate r n with
  | none => pure true
  | some g => do
      let v ← verifyAck E (proofRequest E r (.ack n) reason authenticator proof)
      if !v.verified then do
        log E (.denied (Scope.ack n).gateName v.reason)
        .fail (.runtime ("the acknowledgement from " ++ authenticator ++ " was not accepted: " ++
          v.reason))
      else do
        note (.proved r.id (.ack n) authenticator (scopeDigest E r (.ack n)))
        let opens ← ackOpens E n g authenticator
        .when (!opens) (keepAckPending E n authenticator submitter)
        pure opens

def ack (id : String) (n : Nat) (reason proof authenticator submitter : String) :
    Eng σ Outcome := do
  load E id
  .failIf (Text.trim reason.toList).isEmpty (.runtime "an acknowledgement needs a reason")
  let stands ← ackAdmitted E n reason proof authenticator submitter
  .when stands (acknowledge E n reason authenticator submitter)
  report

/-! ## Verbs on a running instance -/

def forcedGuards (force : List ForceName) : List String :=
  force.filterMap fun
    | .guard g => some g
    | _ => none

/-- The event a recant feeds: a held drift is forced where drift is. -/
def recantStep (force : List ForceName) : Eng σ Unit := do
  let r ← hand
  if r.state = .driftHeld && force.contains .drift then do
    step E .forceDrift
    setHand fun r => { r with forceDrift := true, driftHeld := [] }
  else step E .recant

def recant (id : String) (force : List ForceName) : Eng σ Outcome := do
  load E id
  recantStep E force
  setHand fun r => { r with forced := r.forced ++ forcedGuards force }
  log E .recant
  revert E
  report

def renewRefused : RenewRefusal → EngineError
  | .expired => .notAdmitted .r0102 "the plan has expired; an expired plan is never renewed"
  | .outsideWindow until_ => .notAdmitted .r0102 ("renewal opens at " ++ toString until_.unixS)

/-- The backstop is rearmed before the new expiry is the instance's. -/
def renewTo (d : Instant) : Eng σ Unit := do
  match ← backstopRearm E d with
  | .error why => do
      log E (.refused why)
      .fail (.runtime why)
  | .ok () => do
      setHand fun r => { r with deadline := some d }
      log E .renewed
      persist E

def renew (id : String) (wane : Duration) : Eng σ Outcome := do
  load E id
  step E .renew
  let r ← hand
  match r.deadline, r.plan.renewWithin with
  | none, _ => .fail (.internal "a temporary plan with no deadline")
  | some _, none => .fail (.notAdmitted .r0102 "the plan declares no renew_within")
  | some deadline, some within => do
      let now ← ask E .now
      match renewAt now deadline within wane with
      | .error why => .fail (renewRefused why)
      | .ok d => do
          renewTo E d
          report

def confirm (id : String) : Eng σ Outcome := do
  load E id
  step E .confirm
  match ← backstopDisarm E .confirmed with
  | .error why => .fail (.runtime why)
  | .ok () => do
      log E .confirmed
      persist E
      report

def commit (id by_ reason : String) : Eng σ Outcome := do
  load E id
  step E .commitVerb
  log E (.committed by_ reason)
  release E
  removeDirs E
  persist E
  report

def resume (id by_ : String) : Eng σ Outcome := do
  load E id
  let r ← hand
  step E .resume
  setHand fun r => { r with heldAt := none }
  log E (.resumed (r.heldAt.getD 0) by_)
  walk E
  report

/-- The handed-off step counts as applied. -/
def takeHandoff (d : DeferredAt) (by_ : String) : Eng σ Unit := do
  step E .handoffDone
  let a : AppliedStep := ⟨d.step, d.iteration, d.vars⟩
  setHand fun r => { r with deferred := none, applied := r.applied ++ [a] }
  log E (.handoffDone d.step by_)
  persist E
  note (.handedOff (← hand).id a)

def handoffDone (id : String) (n : Nat) (by_ : String) : Eng σ Outcome := do
  load E id
  let r ← hand
  match r.deferred with
  | none => .fail (.wrongState r.state ("handoff-done " ++ toString n))
  | some d =>
      if d.step ≠ n then .fail (.wrongState r.state ("handoff-done " ++ toString n))
      else do
        takeHandoff E d by_
        walk E
        report

/-- Disarm where the host is reachable; where it is not, what was left armed. -/
def disarmAbandoned : Eng σ (List String) := do
  let r ← hand
  if (r.backstop.map BackstopState.installed).getD false then do
    match ← backstopDisarm E .all with
    | .error why => pure [why]
    | .ok () => pure []
  else pure []

def abandon (id by_ reason : String) : Eng σ Outcome := do
  load E id
  step E .abandon
  let r ← hand
  let leftArmed ← disarmAbandoned E
  log E (.abandoned (r.applied.map AppliedStep.step) leftArmed by_ reason)
  let why := "abandoned by " ++ by_ ++ ": " ++ reason
  setHand fun r => { r with closedReason := some why }
  dropSecrets E "abandoned"
  log E (.closed why)
  release E
  persist E
  report

def cancel (id : String) : Eng σ Outcome := do
  load E id
  step E .cancel
  log E .cancelled
  dropSecrets E "cancelled"
  setHand fun r => { r with closedReason := some "cancelled" }
  log E (.closed "cancelled")
  release E
  persist E
  report

/-! ## The reap pass -/

/-- Close a request whose approval window lapsed. -/
def closeLapsed : Eng σ Unit := do
  step E .cancel
  setHand fun r => { r with closedReason := some "approval window lapsed" }
  log E (.closed "approval window lapsed")
  release E
  persist E

/-- The approval window of a pending instance. -/
def lapsePending (now : Instant) : Eng σ Unit := do
  let r ← hand
  .when (r.approvalDeadline.any fun d => expired now d) do
    step E .approvalWindowLapses
    log E .approvalExpired
    closeLapsed E

/-- A wait factor may have accrued enough weight to open the gate without
another proof. -/
def gateOpened : Eng σ Bool := do
  let r ← hand
  match r.plan.gate with
  | some g => gateSatisfied E .plan g.expr
  | none => pure false

def reapPending (now : Instant) : Eng σ Unit := do
  if ← gateOpened E then approveAndWalk E else lapsePending E now

/-- Unbounded states are notified again every pass. -/
def renotify : Eng σ Unit := do
  let r ← hand
  .when (r.state = .driftHeld || r.state = .stuck ||
      (r.permanent && (r.state = .held || r.state = .deferred))) do
    let _ ← ask E (.notify r.id r.state)
    pure ()

/-- A wait past its bound. -/
def lapseWait (w : Wait) : Eng σ Unit := do
  log E (.waitLapsed w.step w.reason)
  step E .boundLapses
  setHand fun r => { r with waiting := none }
  let r ← hand
  if r.state = .held then do
    setHand fun r => { r with heldAt := some w.step }
    log E (.held w.step)
    persist E
  else do
    setHand fun r => { r with
      refusal := some (atStep w.step ("wait lapsed (" ++ w.reason ++ ")")) }
    revert E

/-- The guard an instance waits on, asked again. -/
def recheckGuard (w : Wait) (g : String) : Eng σ Unit := do
  let owner ← ownerHost E
  match ← (observeTri E owner g).attempt with
  | .ok .yes => walkOn E w.step (.guard g .yes)
  | .ok .no => do
      endWait E (.guard g .no)
      let _ ← refuse E w.step ("guard " ++ g ++ " is no")
      pure ()
  | _ => pure ()

def reapWaiting (now : Instant) : Eng σ Unit := do
  let r ← hand
  let w := r.waiting.getD ⟨0, "", now, none, none⟩
  if w.bound.any fun b => expired now b then lapseWait E w
  else match w.guard with
    | some g => recheckGuard E w g
    | none => pure ()

/-- A deferred step whose handoff a probe reports done. -/
def reapDeferred : Eng σ Unit := do
  let r ← hand
  match r.deferred.bind fun d => (r.opAt d.step).bind fun o => o.handoffDone.map fun p => (d, p) with
  | none => pure ()
  | some (d, probe) => do
      let owner ← ownerHost E
      match ← (observeTri E owner probe).attempt with
      | .ok .yes => do
          let _ ← handoffDone E r.id d.step "probe"
          pure ()
      | _ => pure ()

def reapState (now : Instant) : Eng σ Unit := do
  let r ← hand
  match r.state with
  | .waiting => reapWaiting E now
  | .stuck => do
      step E .retry
      revert E
  | .deferred => reapDeferred E
  | _ => pure ()

/-- Wane has elapsed and expires the instance. -/
def wane : Eng σ Unit := do
  step E .waneElapses
  log E .expired
  setHand fun r => { r with refusal := none }
  revert E

/-- What the bounds of an instance ask for: wane before anything else. -/
def reapBounded (now : Instant) : Eng σ Unit := do
  let r ← hand
  let waned := r.deadline.any fun d => expired now d
  let verdict := transition r.ctx r.state .waneElapses
  if waned && verdict = .to .expired then wane E
  else do
    .when (waned && verdict = .stay) (step E .waneElapses)
    if r.state = .reverting || r.state = .expired then revert E else reapState E now

/-- One instance of the pass. -/
def reapInstance (now : Instant) : Eng σ Unit := do
  let r ← hand
  if terminal r.state then backstopFiredAfterAbandon E
  else if r.state = .pending then reapPending E now
  else if r.state = .approvalExpired then closeLapsed E
  else do
    let _ ← backstopReadFired E
    renotify E
    let settling ← Prog.read World.settling
    .when (!settling) (reapBounded E now)

def reap : Eng σ Unit := do
  let now ← ask E .now
  expireSecrets E
  let rs ← allInstances E
  Prog.loop (fun r (_ : Unit) => do
    takeUp r
    reapInstance E now) rs ()

/-! ## The heartbeat -/

/-- Whether a heartbeat is due. -/
def heartbeatDue (now : Instant) (st : BackstopState) : Bool :=
  st.armed && !st.fired && match st.intervalS with
    | none => false
    | some interval => match st.lastHeartbeat with
        | some last => last.unixS + interval ≤ now.unixS
        | none => true

def heartbeatInstance (now : Instant) : Eng σ Unit := do
  let r ← hand
  match r.backstop with
  | none => pure ()
  | some st =>
      if !heartbeatDue now st then pure ()
      else match hostOf E (← hostsNow) st.host with
        | none => pure ()
        | some host =>
            match executorIndex E host with
            | none => pure ()
            | some i => do
                match ← ask E (.replaceFile i host r.id "heartbeat" (epochText now)) with
                | .error _ => pure ()
                | .ok () => do
                    setHand fun r => { r with
                      backstop := r.backstop.map fun b => { b with lastHeartbeat := some now } }
                    persist E

/-- Every armed instance whose interval has elapsed gets a fresh heartbeat. -/
def heartbeat : Eng σ Unit := do
  let now ← ask E .now
  let rs ← allInstances E
  Prog.loop (fun r (_ : Unit) => do
    takeUp r
    heartbeatInstance E now) rs ()

/-! ## Boot -/

def setSettling (on : Bool) : Eng σ Unit := do
  .edit fun w => { w with settling := on }
  writeOk E .settle
  .edit fun w => { w with settle := on }

/-- Journal a migration of the store once. -/
def journalMigrated : Eng σ Unit := do
  readOk E .migrated
  match ← Prog.read World.migrated with
  | none => pure ()
  | some (from_, to_, by_) => do
      journalSiteEvent E (.migrated from_ to_ by_)
      writeOk E .migrated
      .edit fun w => { w with migrated := none }

/-- The op of the application in flight, as its `do` ran it. -/
def attemptedOp (hosts : Assoc String Host) (r : InstanceRecord) (a : AppliedStep) : Option Op :=
  (r.opAt a.step).bind fun o =>
    match stepHost E hosts r o with
    | .error _ => none
    | .ok h => (concreteOp o h (envFor r a.vars)).toOption

/-- Whether the `do` in flight never took: what its facts read before it is
what they read now. -/
def neverTook (a : AppliedStep) (pre : Watched) : Eng σ Bool := do
  let r ← hand
  match attemptedOp E (← hostsNow) r a with
  | none => pure false
  | some o => if pre.isEmpty then pure false else untouched E o pre

def diedInside : String :=
  "the engine died inside its do, which left every fact of its footprint as it found them"

/-- The application whose `do` was in flight may have half happened. -/
def recoverAttempt : Eng σ Unit := do
  let r ← hand
  match r.attempting with
  | none => pure ()
  | some a => do
      note (.found r.id a)
      setHand fun r => { r with attempting := none, attemptingPre := [] }
      if r.isApplied a.step a.iteration a.vars then pure ()
      else do
        if ← neverTook E a r.attemptingPre then do
          log E (.undoSkipped a.step diedInside)
          note (.untouched r.id a)
        else rerecord a

/-- An instance the engine was applying when it stopped. -/
def bootApplying : Eng σ Unit := do
  recoverAttempt E
  setHand fun r => { r with refusal := some "the engine restarted while applying" }
  step E .refuse
  let r ← hand
  if r.state = .held then do
    setHand fun r => { r with heldAt := (r.applied.getLast?).map AppliedStep.step }
    log E (.held (((r.applied.getLast?).map AppliedStep.step).getD 0))
    persist E
  else revert E

/-- Run a body of an applied step. -/
def runBody (a : AppliedStep) (op : Op) (body : Body) : Try σ Unit := do
  let r ← hand
  let host ← .ofExcept (stepHost E (← hostsNow) r op)
  let body ← .ofExcept (resolveBody body host (envFor r a.vars))
  match executorIndex E host with
  | none => .fail ("no executor reaches " ++ host.name)
  | some i => do
      let _ ← orElse (← ask E (.run i host r.id body)) fun e => e
      pure ()

/-- Whether the resource a step holds was established again. -/
def reestablished (a : AppliedStep) (op : Op) : Eng σ Bool :=
  match op.reestablish with
  | none => pure false
  | some body => do
      match ← (runBody E a op body).attempt with
      | .ok () => pure true
      | .error _ => pure false

/-- The held resource of one applied step: reestablished, or lost. -/
def bootHeld (a : AppliedStep) : Eng σ Unit := do
  let r ← hand
  match r.opAt a.step with
  | none => pure ()
  | some op =>
      if !op.footprint.any fun e => e.kind = .held then pure ()
      else do
        if ← reestablished E a op then do
          .when (r.state = .suspended) (step E .reestablish)
          log E .reestablished
        else
          .when (transition r.ctx r.state .suspend = .to .suspended) do
            step E .suspend
            log E .suspended

/-- The owned footprint of an applied step on its host, observed again. -/
def reobserveOn (i : Nat) (host : Host) (op : Op) : Eng σ Unit :=
  Prog.loop (fun e (_ : Unit) => do
    let _ ← ask E (.observe i host e.shape [])
    pure ()) (op.footprint.filter fun e => e.kind = .owned || e.kind = .region) ()

/-- The owned footprint of one applied step, observed again. -/
def reobserve (a : AppliedStep) : Eng σ Unit := do
  let r ← hand
  match r.opAt a.step with
  | none => pure ()
  | some op =>
      match stepHost E (← hostsNow) r op with
      | .error _ => pure ()
      | .ok host =>
          match executorIndex E host with
          | none => pure ()
          | some i => reobserveOn E i host op

def bootInstance : Eng σ Unit := do
  let r ← hand
  if r.state = .applying then bootApplying E
  else if terminal r.state then pure ()
  else do
    removeStaged E none "boot recovery"
    Prog.loop (fun a (_ : Unit) => bootHeld E a) r.applied ()
    Prog.loop (fun a (_ : Unit) => reobserve E a) r.applied ()

/-- Boot recovery: demote `Applying` and revert; reestablish every held
resource of an applied step or record it lost; re-observe every owned
footprint; only then leave settle. -/
def boot : Eng σ Unit := do
  setSettling E true
  journalMigrated E
  let rs ← allInstances E
  Prog.loop (fun r (_ : Unit) => do
    takeUp r
    bootInstance E) rs ()
  dropSecretsAtBoot E
  reconcile E
  setSettling E false

/-! ## Runs -/

/-- Whether the store says the engine was settling when it stopped. -/
def settlingNoted : Eng σ Bool := do
  match ← ask E (.read .settle) with
  | .ok () => .read World.settle
  | .error _ => pure false

/-- Open the engine over what is durable. -/
def reopen (hosts : Assoc String Host) : Eng σ Unit := do
  readOk E .ledger
  let settling ← settlingNoted E
  .edit fun w => { w with up := true, hosts, ledger := w.stored, settling }

/-- Start a process: open and boot.  One whose boot fails does not stay. -/
def restart (hosts : Assoc String Host) (w : World σ) : World σ :=
  match (do reopen E hosts; boot E : Eng σ Unit) w with
  | (.ok (), w') => w'
  | (_, w') => { w' with up := false }

/-- The verbs. -/
inductive Verb where
  | apply (ir : PlanIr) (params : Vars) (opts : ApplyOptions)
  | approveProof (id : String) (scope : Scope) (authenticator proof submitter : String)
  | ack (id : String) (n : Nat) (reason proof authenticator submitter : String)
  | recant (id : String) (force : List ForceName)
  | renew (id : String) (wane : Duration)
  | confirm (id : String)
  | commit (id by_ reason : String)
  | resume (id by_ : String)
  | handoffDone (id : String) (n : Nat) (by_ : String)
  | abandon (id by_ reason : String)
  | cancel (id : String)
  | reap
  | heartbeat

/-- Run a verb; the passes report nothing here. -/
def exec : Verb → Eng σ (Option Outcome)
  | .apply ir params opts => do pure (some (← apply E ir params opts))
  | .approveProof id scope au proof by_ => do pure (some (← approveProof E id scope au proof by_))
  | .ack id n reason proof au by_ => do pure (some (← ack E id n reason proof au by_))
  | .recant id force => do pure (some (← recant E id force))
  | .renew id wane => do pure (some (← renew E id wane))
  | .confirm id => do pure (some (← confirm E id))
  | .commit id by_ reason => do pure (some (← commit E id by_ reason))
  | .resume id by_ => do pure (some (← resume E id by_))
  | .handoffDone id n by_ => do pure (some (← handoffDone E id n by_))
  | .abandon id by_ reason => do pure (some (← abandon E id by_ reason))
  | .cancel id => do pure (some (← cancel E id))
  | .reap => do
      reap E
      pure none
  | .heartbeat => do
      heartbeat E
      pure none

/-- A world as a site begins: nothing stored. -/
structure World.Begins (w : World σ) : Prop where
  instances : w.instances = Store.empty
  stored : w.stored = {}
  ledger : w.ledger = {}
  acts : w.acts = []
  gap : w.gap = none

/-- The worlds reached by runs that start where `S` says, whose verbs all
satisfy `V` and whose worlds, between two turns, all satisfy `C`. -/
inductive RunOf (S : World σ → Prop) (V : Verb → Prop) (C : World σ → Prop) : World σ → Prop where
  | start {w : World σ} (h : S w) (c : C w) : RunOf S V C w
  | verb {w : World σ} (h : RunOf S V C w) (v : Verb) (hv : V v) (up : w.up = true)
      (c : C (exec E v w).2) : RunOf S V C (exec E v w).2
  | inventory {w : World σ} (h : RunOf S V C w) (hosts : Assoc String Host) (up : w.up = true)
      (c : C { w with hosts }) : RunOf S V C { w with hosts }
  | restart {w : World σ} (h : RunOf S V C w) (hosts : Assoc String Host)
      (c : C (restart E hosts w)) : RunOf S V C (restart E hosts w)

/-- The worlds a run of the site reaches. -/
abbrev Run : World σ → Prop := RunOf E World.Begins (fun _ => True) fun _ => True

/-- The worlds a run reaches from here. -/
abbrev Later (w : World σ) : World σ → Prop := RunOf E (· = w) (fun _ => True) fun _ => True

section
variable {E}

theorem Run.exec {w : World σ} (h : Run E w) (v : Verb) (up : w.up = true) :
    Run E (exec E v w).2 :=
  .verb h v trivial up trivial

theorem Run.restart {w : World σ} (h : Run E w) (hosts : Assoc String Host) :
    Run E (restart E hosts w) :=
  RunOf.restart h hosts trivial

theorem Later.refl (w : World σ) : Later E w w := .start rfl trivial

theorem Later.exec {w w' : World σ} (h : Later E w w') (v : Verb) (up : w'.up = true) :
    Later E w (exec E v w').2 :=
  .verb h v trivial up trivial

end

end Rescind
