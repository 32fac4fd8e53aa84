/-
# `Rescind.Engine.Walk` — walking a plan

The plan is walked from its start every time, skipping what is applied; what
is left of it runs leaf by leaf.  A step's `do` runs after its write-ahead
entry is acknowledged and the record says which application is in flight.

Leaves are counted with a running counter, as the source does: the arm a `when`
leaves out is counted too, and every iteration of a `repeat` counts from the
same start.
-/
import Rescind.Engine.Revert

namespace Rescind

open Lib

variable {σ : Type} (E : Setting σ)

/-! ## Gates and the host contract -/

/-- Every host the plan touches, with its record. -/
def touchedHosts (hosts : Assoc String Host) (r : InstanceRecord) : Assoc String HostRecord :=
  let names := r.plan.owner :: (numbered r.plan.body).filterMap fun p =>
    match (opOf p.2).map (stepHost E hosts r) with
    | some (.ok h) => some h.name
    | _ => none
  names.foldl (fun m n => match hostOf E hosts n with
    | some h => m.insert n h.record
    | none => m) []

/-- A static probe's value now; a measurement that fails is recorded as
failing. -/
def measure (owner : Host) (probe : String) : Eng σ String := do
  match ← (observeRaw E owner probe).attempt with
  | .ok o => pure o.text
  | .error e => pure ("unmeasured: " ++ e)

/-- Derive the host contract now. -/
def hostContract : Eng σ HostContract := do
  let r ← hand
  let hosts ← hostsNow
  let recs := touchedHosts E hosts r
  if r.rehearsal then pure ⟨recs, []⟩
  else match hostOf E hosts r.plan.owner with
    | none => pure ⟨recs, []⟩
    | some owner => do
        let statics ← Prog.loop (fun d (m : Vars) => do
          let v ← measure E owner d.name
          pure (m.insert d.name v)) (r.plan.probes.filter ProbeDecl.static_) []
        pure ⟨recs, statics⟩

/-- R0301: the contract the request froze and the one now, when they differ. -/
def contractChanged : Eng σ (Option (Hash × Hash)) := do
  let r ← hand
  match r.hostContract with
  | none => pure none
  | some expected => do
      let c ← hostContract E
      note (.compared r.id expected c)
      let observed := E.contractHash c
      if observed = expected then pure none else pure (some (expected, observed))

def contractReason : String :=
  "R0301: the host contract changed since the request; every proof falls with it"

/-- The first leaf with no application. -/
def firstUnapplied (r : InstanceRecord) : Nat :=
  (((numbered r.plan.body).map Prod.fst).find? fun n =>
    !r.applied.any fun a => a.step = n).getD 1

/-- Close a request whose contract changed before any step. -/
def closeOnContract : Eng σ Unit := do
  setHand fun r => { r with refusal := some contractReason }
  step E .hostContractChanged
  log E (.refused contractReason)
  let r ← hand
  .when (r.state = .closed) do
    setHand fun r => { r with closedReason := r.refusal }
    log E (.closed contractReason)
    release E
  persist E

/-- Refuse an instance whose host contract has changed since its request;
whether it did. -/
def refuseOnContractChange : Eng σ Bool := do
  let r ← hand
  if r.rehearsal || r.hostContract.isNone || r.state = .waiting then pure false
  else do
    match ← contractChanged E with
    | none => pure false
    | some (expected, observed) => do
        log E (.hostContractChanged expected observed)
        setHand fun r => { r with proofs := [] }
        let r ← hand
        if r.state = .applying then do
          let _ ← refuse E (firstUnapplied r) contractReason
          persist E
          note (.fell r.id)
          pure true
        else do
          closeOnContract E
          note (.fell r.id)
          pure true

/-- The request digest of an instance, in a scope. -/
def scopeDigest (r : InstanceRecord) (scope : Scope) : Hash :=
  E.scopedDigest (E.requestDigest
    { nonce := r.nonce
      planId := r.plan.id
      inst := r.id
      ownerHost := r.plan.owner
      paramsHash := E.paramsHash r.params
      hostContractHash := r.hostContract
      wane := effectiveWane r.plan
      requestedAt := r.requestedAt.getD ⟨0⟩
      gateHash := E.gateHash r.plan.gate
      planContentHash := E.planHash r.plan }) scope

/-- The authenticators the approval binding publishes. -/
def authenticators : Eng σ (List Authenticator) :=
  match E.approval with
  | none => pure []
  | some _ => do
      match ← ask E .authenticators with
      | .ok as => pure as
      | .error _ => pure []

def proofsFor (r : InstanceRecord) (scope : Scope) : List String :=
  (r.proofs.filter fun p => p.scope = scope).map Proof.authenticator

/-- Time since the request. -/
def elapsedSince (r : InstanceRecord) (now : Instant) : Duration :=
  ⟨now.unixS - (r.requestedAt.map Instant.unixS).getD 0⟩

/-- Whether a gate is satisfied now, given the proofs for its scope and the
time since the request; of a gate whose masks and sums fit the machine's words. -/
def gateSatisfied (scope : Scope) (gate : GateExpr) : Eng σ Bool := do
  let r ← hand
  let auths ← authenticators E
  let now ← ask E .now
  note (.counted r.id scope (proofsFor r scope) (scopeDigest E r scope))
  if E.approval = some true then pure true
  else pure (gateSatisfiedBy auths gate (proofsFor r scope) (elapsedSince r now))

/-! ## Waiting and guards -/

/-- Wait at a step. -/
def wait (n : Nat) (reason : String) (guard : Option String) (bound : Option Duration) :
    Eng σ Flow := do
  let now ← ask E .now
  setHand fun r => { r with
    waiting := some { step := n, reason, since := now, bound := bound.map now.plus, guard } }
  step E .waitAtStep
  log E (.waiting n reason)
  pure .stop

/-- Whether an unknown guard is forced. -/
def guardForced (r : InstanceRecord) (g : Guard) (force : List ForceName) : Bool :=
  !g.forceNever && r.plan.mode = .manual &&
    (r.forced.contains g.name || force.any fun
      | .guard x => x = g.name
      | .unknown => true
      | .drift => false)

/-- Evaluate a guard on the owner host: nothing when it passed, else how the
walk ended. -/
def guardBlocksWithBound (n : Nat) (g : Guard) (force : List ForceName) (bound : Option Duration) :
    Eng σ (Option Flow) := do
  let owner ← ownerHost E
  match ← (observeTri E owner g.name).attempt with
  | .error e => some <$> refuse E n e
  | .ok .yes => pure none
  | .ok .no => some <$> refuse E n ("guard " ++ g.name ++ " is no")
  | .ok .unknown => do
      let r ← hand
      if guardForced r g force then pure none
      else some <$> wait E n ("unknown guard " ++ g.name) (some g.name) bound

def guardBlocks (n : Nat) (force : List ForceName) (g : Guard) : Eng σ (Option Flow) := do
  let r ← hand
  guardBlocksWithBound E n g force r.ir.site.maxWait

/-! ## Backstop around the walk -/

/-- Install the backstop before the first covered step and arm it before the
step `arm_before` names; a refusal here refuses the step. -/
def backstopBeforeLeaf (n : Nat) : Eng σ (Option Flow) := do
  let r ← hand
  match coverage r.plan with
  | none => pure none
  | some cov =>
      if cov.covered.isEmpty then pure none
      else do
        let installed ← (if cov.installedBefore.any fun first => first ≤ n then backstopInstall E
          else pure (.ok ()))
        match installed with
        | .error why => some <$> refuse E n why
        | .ok () => do
            let armed ← (if cov.armedBeforeStep ≤ n then backstopArm E else pure (.ok ()))
            match armed with
            | .error why => some <$> refuse E n why
            | .ok () => pure none

/-- Late arming, once the covered steps are done. -/
def backstopAfterWalk : Eng σ Flow := do
  let r ← hand
  match coverage r.plan with
  | none => pure .continue_
  | some cov =>
      if cov.covered.isEmpty || (r.backstop.map BackstopState.armed).getD false then pure .continue_
      else do
        match ← backstopInstall E with
        | .error why => refuse E cov.armedBeforeStep why
        | .ok () => do
            match ← backstopArm E with
            | .error why => refuse E cov.armedBeforeStep why
            | .ok () => pure .continue_

/-! ## Before and after `do` -/

def markApplied (a : AppliedStep) : Eng σ Unit := do
  setHand fun r => { r with applied := r.applied ++ [a], attempting := none, attemptingPre := [] }
  persist E

/-- The most a snapshot may be, in bytes. -/
def snapshotCap : Nat := 1048576

def overCap (shape : String) (host : Host) (size : Nat) : String :=
  "R0204: " ++ shape ++ " on " ++ host.name ++ " is " ++ toString size ++ " bytes, above the " ++
    toString snapshotCap ++ "-byte snapshot cap"

def Kind.snapshotted : Kind → Bool
  | .modified | .region => true
  | _ => false

/-- Keep one fact's bytes: in the instance directory where there is one, and in
the record. -/
def keepSnapshot (a : AppliedStep) (i : Nat) (host : Host) (k : Nat) (bytes : Bytes) :
    Eng σ Unit := do
  let r ← hand
  .when (r.dirs.contains host.name) do
    let _ ← ask E (.replaceFile i host r.id
      ("snapshots/" ++ toString a.step ++ "/" ++ toString k) bytes)
    pure ()
  setHand fun r => { r with
    snapshots := r.snapshots.set (a.key, k) (String.ofList (Bytes.lossy bytes)) }

/-- Read every observed fact once: its digest, and for a modified fact or a
region its bytes.  A fact that cannot be read is an error value; one above the
cap ends the walk. -/
def snapshotFacts (a : AppliedStep) (i : Nat) (host : Host) :
    List (Nat × FootprintEntry × String) → Watched → Eng σ (Except String Watched)
  | [], pre => pure (.ok pre)
  | (k, e, _) :: rest, pre => do
      match ← (factBytes E host e.shape).attempt with
      | .error why => pure (.error why)
      | .ok bytes =>
          let pre := pre.insert e.shape (digestOf E.sha256 bytes)
          match e.kind.snapshotted, bytes with
          | true, some b =>
              if snapshotCap < b.length then do
                note (.stranded (← hand).id .overCap)
                .fail (.runtime (overCap e.shape host b.length))
              else do
                keepSnapshot E a i host k b
                snapshotFacts a i host rest pre
          | _, _ => snapshotFacts a i host rest pre

/-- Before `do`: the snapshot a `:restore` puts back, and the digest of every
fact the step observes. -/
def snapshot (a : AppliedStep) (op : Op) (host : Host) : Eng σ (Except String Watched) := do
  match executorIndex E host with
  | none => do
      persist E
      pure (.ok [])
  | some i => do
      match ← snapshotFacts E a i host (observedFacts op.footprint) [] with
      | .error why => pure (.error why)
      | .ok pre => do
          setHand fun r => { r with attemptingPre := pre }
          persist E
          pure (.ok pre)

/-- Whether a step's facts live on a host. -/
def onThisHost (hosts : Assoc String Host) (r : InstanceRecord) (host : Host) (o : Op) : Bool :=
  match stepHost E hosts r o with
  | .ok h => h.name = host.name
  | .error _ => false

/-- The facts an application holds on a host. -/
def factsOf (hosts : Assoc String Host) (r : InstanceRecord) (host : Host) (a : AppliedStep) :
    List String :=
  match r.opAt a.step with
  | none => []
  | some o =>
      if !onThisHost E hosts r host o then []
      else match concreteOp o host (envFor r a.vars) with
        | .ok o => (observedFacts o.footprint).map fun f => f.2.1.shape
        | .error _ => []

/-- The shapes a step's `do` must leave alone on a host. -/
def watchedShapes (hosts : Assoc String Host) (r : InstanceRecord) (host : Host)
    (a : AppliedStep) : List String :=
  ((numbered r.plan.body).flatMap fun p =>
    if p.1 = a.step then []
    else match opOf p.2 with
      | none => []
      | some o =>
          if !onThisHost E hosts r host o then []
          else ((observedFacts o.footprint).map fun f => f.2.1.shape).filter
            fun s => !runtimeBound s) ++
  r.applied.flatMap fun b =>
    if !b.vars.isEmpty && !(b.step = a.step && b.vars = a.vars) then factsOf E hosts r host b else []

/-- Digests of every observable fact of the plan on a host, except the
application's own. -/
def watched (host : Host) (a : AppliedStep) : Try σ Watched := do
  let r ← hand
  let hosts ← hostsNow
  if r.rehearsal || (executorIndex E host).isNone then pure []
  else
    let own := factsOf E hosts r host a
    Prog.loop (fun shape (w : Watched) =>
      if own.contains shape || w.contains shape then pure w
      else do
        let bytes ← factBytes E host shape
        pure (w.insert shape (digestOf E.sha256 bytes))) (watchedShapes E hosts r host a) []

def insertPair (x : String × String) : List (String × String) → List (String × String)
  | [] => [x]
  | y :: ys =>
      if x = y then y :: ys
      else if x.1 < y.1 || (x.1 = y.1 && x.2 < y.2) then x :: y :: ys
      else y :: insertPair x ys

/-- Every region the instance holds on a host, in order. -/
def regionsOn (hosts : Assoc String Host) (r : InstanceRecord) (host : Host) :
    List (String × String) :=
  let keys := r.applied.map AppliedStep.key ++ r.markers.map Prod.fst
  let found := keys.flatMap fun key =>
    match r.opAt key.1 with
    | none => []
    | some o =>
        if !onThisHost E hosts r host o then []
        else match concreteOp o host (envFor r key.2) with
          | .error _ => []
          | .ok o => o.footprint.filterMap fun e =>
              if e.kind = .region then
                match filePath e.shape, e.anchor with
                | some p, some anchor => some (p, anchor)
                | _, _ => none
              else none
  found.foldr insertPair []

/-- The marker of every observed fact as `do` left it. -/
def readMarkers (host : Host) (op : Op) : Try σ (List Marker) :=
  if (executorIndex E host).isNone then pure []
  else Prog.loop (fun f (ms : List Marker) => do
    let bytes ← factBytes E host f.2.1.shape
    pure (ms ++ [⟨f.2.1.kind, f.2.2, digestOf E.sha256 bytes⟩])) (observedFacts op.footprint) []

/-- The markers a rendered artifact can use: those of the file facts. -/
def artifactMarkers (op : Op) (ms : List Marker) : List Marker :=
  (fileFacts op.footprint).filterMap fun f =>
    ms.find? fun m => m.path = f.2.2 && m.kind = f.2.1.kind

/-- An error that leaves the walk, with no step refused. -/
def strand {α : Type} (why : Strand) (e : EngineError) : Eng σ α := do
  note (.stranded (← hand).id why)
  .fail e

/-- The markers of a step's facts as `do` left them, and the manifest of
regions held on the host, to the record and to the instance directory. -/
def writeMarkers (host : Host) (a : AppliedStep) (op : Op) : Eng σ (Except String Unit) := do
  let r ← hand
  let hosts ← hostsNow
  match ← (readMarkers E host op).attempt with
  | .error why => pure (.error why)
  | .ok ms => do
      match executorIndex E host, r.dirs.contains host.name with
      | some i, true => do
          let put ← ask E (.putFile i host r.id ("markers/" ++ toString a.step)
            (Bytes.ofString (markersText (artifactMarkers op ms))) 0o640)
          match put with
          | .error e => strand .markersUnwritten (.internal ("markers on " ++ host.name ++ ": " ++ e))
          | .ok () => do
              setHand fun r => { r with markers := r.markers.set a.key ms }
              let r ← hand
              let written ← ask E (.replaceFile i host r.id "manifest"
                (Bytes.ofString (manifestText (regionsOn E hosts r host))))
              match written with
              | .error e => strand .markersUnwritten (.internal ("manifest on " ++ host.name ++ ": " ++ e))
              | .ok () => do
                  persist E
                  pure (.ok ())
      | _, _ => do
          setHand fun r => { r with markers := r.markers.set a.key ms }
          persist E
          pure (.ok ())

/-- After a step's `do`: mark it applied, then its post guards. -/
def afterStep (a : AppliedStep) (op : Op) : Eng σ Flow := do
  markApplied E a
  let r ← hand
  if r.rehearsal then pure .continue_
  else do
    match ← Prog.search (guardBlocks E a.step []) op.post with
    | some flow => pure flow
    | none => do
        removeStaged E (some a.step) "step done"
        note (.passed (← hand).id a)
        pure .continue_

/-- A step whose `do` ran and failed: it is undone, and its failure refuses the
plan. -/
def failStep (a : AppliedStep) (op : Op) (pre : Watched) (why : String) : Eng σ Flow := do
  log E (.stepFailed a.step why)
  setHand fun r => { r with refusal := some (atStep a.step why) }
  undoFailed E a op pre
  refuseApplied E a.step

/-- R0201: the `do` touched what is not in its footprint. -/
def violateFootprint (a : AppliedStep) (op : Op) (pre : Watched) (changed : List String) :
    Eng σ Flow := do
  log E (.footprintViolation a.step changed)
  setHand fun r => { r with
    refusal := some (atStep a.step ("R0201: footprint violation: " ++ Text.join ", " changed)) }
  undoFailed E a op pre
  refuseApplied E a.step

def stagedBy (host : Host) (n : Nat) (b : Body) : List Staged :=
  b.filterMap fun
    | .stage name _ _ => some ⟨host.name, n, name⟩
    | _ => none

/-- The outputs of a step under its alias: those kept in the record, and the
secret ones. -/
def outputsOf (alias_ : String) (op : Op) (out : Vars) (secret : Bool) : List (String × String) :=
  op.outputs.filterMap fun o =>
    if o.secret = secret then (out.get o.name).map fun v => (alias_ ++ "." ++ o.name, v) else none

/-- What a step leaves in the record when its `do` is done. -/
def takeOutputs (host : Host) (n : Nat) (alias_ : String) (op : Op) (out : Vars)
    (r : InstanceRecord) : InstanceRecord :=
  { r with
    staged := r.staged ++ stagedBy host n op.do_
    outputs := (outputsOf alias_ op out false).foldl (fun m kv => m.insert kv.1 kv.2) r.outputs }

/-- The rest of a step whose `do` returned. -/
def afterDo (a : AppliedStep) (s : StepI) (op : Op) (host : Host) (pre before : Watched)
    (out : Vars) : Eng σ Flow := do
  let missing := (op.outputs.filter fun o => !out.contains o.name).map Output.name
  if !missing.isEmpty then
    failStep E a op pre ("silent: no output for " ++ Text.join ", " missing)
  else do
    match ← (watched E host a).attempt with
    | .error why => failStep E a op pre why
    | .ok after =>
        let changed := changedFacts before after
        if !changed.isEmpty then violateFootprint E a op pre changed
        else do
          match ← writeMarkers E host a op with
          | .error why => failStep E a op pre why
          | .ok () => do
              let alias_ := s.alias_.getD op.id
              setHand (takeOutputs host a.step alias_ op out)
              log E (.stepDone a.step)
              note (.completed (← hand).id a)
              Prog.loop (fun kv (_ : Unit) => deliverSecret E kv.1 kv.2)
                (outputsOf alias_ op out true) ()
              afterStep E a op

/-- What is read before `do`: the step's own facts, and those it must leave
alone. -/
def readBefore (a : AppliedStep) (op : Op) (host : Host) :
    Eng σ (Except String (Watched × Watched)) := do
  match ← snapshot E a op host with
  | .error why => pure (.error why)
  | .ok pre => do
      match ← (watched E host a).attempt with
      | .error why => pure (.error why)
      | .ok before => pure (.ok (pre, before))

/-- How things stand. -/
def World.handing (w : World σ) : Handing :=
  { record := w.hand
    stored := (w.instances.read w.hand.id).map fun r => (r.state, r.docket) }

/-- History: a `do` is handed over. -/
def handOver (a : AppliedStep) : Eng σ Unit := .edit fun w => { w with
  acts := .did w.hand.id a w.hand.applied :: .handing w.hand.id a w.handing :: w.acts }

/-- Hand the `do` to the executor. -/
def runDo (a : AppliedStep) (s : StepI) (op : Op) (host : Host) (pre before : Watched)
    (body : List RPrim) : Eng σ Flow := do
  match executorIndex E host with
  | none => strand .noExecutor (.internal "executor vanished")
  | some i => do
      let r ← hand
      handOver a
      match ← ask E (.run i host r.id body) with
      | .ok out => afterDo E a s op host pre before out.outputs
      | .error e => failStep E a op pre e

/-- From the write-ahead entry on: the record says which application is in
flight, and its `do` runs. -/
def attemptStep (a : AppliedStep) (s : StepI) (host : Host) : Eng σ Flow := do
  let n := a.step
  log E (.applying n (undoLine s.op))
  note (.ahead (← hand).id a)
  setHand fun r => { r with attempting := some a }
  persist E
  let r ← hand
  if r.rehearsal then do
    log E (.stepDone n)
    note (.completed r.id a)
    afterStep E a s.op
  else do
    match ← ensureInstanceDir E host with
    | .error why => refuse E n why
    | .ok () => do
        let env := envFor r a.vars
        match concreteOp s.op host env with
        | .error u => refuse E n (atStep n u)
        | .ok op => do
            match ← readBefore E a op host with
            | .error why => do
                setHand fun r => { r with attempting := none, attemptingPre := [] }
                refuse E n why
            | .ok (pre, before) => do
                match ← (loadSecrets E env op.do_).attempt with
                | .error why => refuse E n why
                | .ok env =>
                    match resolveBody op.do_ host env with
                    | .error u => refuse E n (atStep n u)
                    | .ok body => runDo E a s op host pre before body

/-! ## A step -/

/-- A bound host, or one no transport reaches, defers the step. -/
def defer (n iteration : Nat) (vars : Vars) (op : Op) (why : String) : Eng σ Flow := do
  let handoff := op.handoffDone.getD ("handoff-done " ++ toString n)
  setHand fun r => { r with deferred := some ⟨n, handoff, iteration, vars⟩ }
  step E .deferAtStep
  log E (.deferred n (handoff ++ " (" ++ why ++ ")"))
  pure .stop

/-- The wait's own bound: the step's window, else the site's. -/
def stepBound (r : InstanceRecord) (window : Option Duration) : Option Duration :=
  window.or r.ir.site.maxWait

/-- A step gate: satisfied, or the instance waits. -/
def gateBlocks (n : Nat) (s : StepI) : Eng σ (Option Flow) := do
  let r ← hand
  match s.gate, r.rehearsal with
  | some g, false => do
      if ← gateSatisfied E (.step n) g then pure none
      else do
        log E (.stepGateRequested n (scopeDigest E r (.step n)))
        some <$> wait E n "gate" none (stepBound r s.window)
  | _, _ => pure none

/-- The cost a person is asked to acknowledge, measured where they are asked;
one that cannot be measured is an error value. -/
def costText (cost : Cost) : Eng σ (Except String String) := do
  let r ← hand
  match cost with
  | .noCost _ => pure (.ok "none")
  | .probe p =>
      if r.rehearsal then pure (.ok p)
      else do
        let owner ← ownerHost E
        match ← (observeText E owner p).attempt with
        | .ok text => pure (.ok (p ++ ": " ++ String.ofList (Text.trim text.toList)))
        | .error e => pure (.error e)

def unmeasured (n : Nat) (e : String) : String :=
  "the cost of step " ++ toString n ++ ", a point of no return, could not be measured (" ++ e ++
    "); a knell is not acknowledged blind"

/-- A knell's acknowledgement: journaled, or the instance waits for one. -/
def ackBlocks (n : Nat) (s : StepI) (cost : Cost) : Eng σ (Option Flow) := do
  match ← costText E cost with
  | .error e => some <$> refuse E n (unmeasured n e)
  | .ok cost => do
      let r ← hand
      if r.acks.contains n then do
        log E (.knellAcknowledged n cost r.ir.requester)
        pure none
      else do
        log E (.ackRequested n cost)
        some <$> wait E n "ack" none (stepBound r s.window)

/-- A knell's own guard and acknowledgement. -/
def knellBlocks (n : Nat) (s : StepI) : Eng σ (Option Flow) :=
  match s.op.refusal with
  | .knell guard cost ack => do
      match ← Prog.search (guardBlocks E n s.force) guard.toList with
      | some flow => pure (some flow)
      | none => if ack.isGate then ackBlocks E n s cost else pure none
  | _ => pure none

def noFilesystemFor (host : Host) : String :=
  "R0408: a :target undo on " ++ host.name ++ ", whose executor reports no filesystem"

/-- What stands before a step's write-ahead: its gate, its guards, a knell's
acknowledgement. -/
def stepBlocks (n : Nat) (s : StepI) (knell : Bool) : Eng σ (Option Flow) := do
  match ← gateBlocks E n s with
  | some flow => pure (some flow)
  | none => do
      match ← Prog.search (guardBlocks E n s.force) s.op.pre with
      | some flow => pure (some flow)
      | none => if knell then knellBlocks E n s else pure none

def runStep (n iteration : Nat) (s : StepI) (knell : Bool) (vars : Vars) : Eng σ Flow := do
  let r ← hand
  match stepHost E (← hostsNow) r s.op with
  | .error from_ => defer E n iteration vars s.op from_
  | .ok host =>
      if !r.rehearsal && host.name ≠ "controller" && (executorIndex E host).isNone then
        defer E n iteration vars s.op ("no transport reaches " ++ host.name)
      else if s.op.undoLocus = .target && !(capsOf E host).filesystem && !r.rehearsal then
        refuse E n (noFilesystemFor host)
      else do
        match ← stepBlocks E n s knell with
        | some flow => pure flow
        | none => attemptStep E ⟨n, iteration, vars⟩ s host

/-! ## Leaves -/

/-- `confirm()`: the backstop's `unless_confirmed` trigger is disarmed. -/
def runConfirm (a : AppliedStep) : Eng σ Flow := do
  let r ← hand
  .when (!r.permanent) (note (.stranded r.id .confirmTemporary))
  step E .confirm
  match ← backstopDisarm E .confirmed with
  | .error why => refuse E a.step why
  | .ok () => do
      log E .confirmed
      markApplied E a
      pure .continue_

/-- `commit()`: the instance is done and its ledger entries released. -/
def runCommit : Eng σ Flow := do
  let r ← hand
  .when (!r.permanent) (note (.stranded r.id .commitTemporary))
  step E .commitItem
  log E (.committed r.ir.requester "commit() item")
  release E
  removeDirs E
  persist E
  pure .stop

def runObserve (a : AppliedStep) (probe alias_ : String) : Eng σ Flow := do
  let owner ← ownerHost E
  match ← (observeText E owner probe).attempt with
  | .ok text => do
      setHand fun r => { r with outputs := r.outputs.insert alias_ text }
      markApplied E a
      pure .continue_
  | .error e => refuse E a.step e

def runGuards (a : AppliedStep) (blocks : Eng σ (Option Flow)) : Eng σ Flow := do
  match ← blocks with
  | some flow => pure flow
  | none => do
      markApplied E a
      pure .continue_

def runLeafItem (a : AppliedStep) : Item → Eng σ Flow
  | .step s => runStep E a.step a.iteration s false a.vars
  | .knell s => runStep E a.step a.iteration s true a.vars
  | .confirm => runConfirm E a
  | .commit => runCommit E
  | .observe probe alias_ => runObserve E a probe alias_
  | .preflight guards => runGuards E a (Prog.search (guardBlocks E a.step []) guards)
  | .assert guard window _ => runGuards E a do
      let r ← hand
      guardBlocksWithBound E a.step guard [] (stepBound r window)
  | .slot name => strand .slotUnfilled (.internal ("slot " ++ name ++ " reached the engine unfilled"))
  | .par _ | .repeat_ _ _ _ | .when_ _ _ _ _ _ =>
      strand .container (.internal "a container reached run_leaf")

def runLeaf (a : AppliedStep) (it : Item) : Eng σ Flow := do
  match ← backstopBeforeLeaf E a.step with
  | some flow => pure flow
  | none => runLeafItem E a it

/-- Run a leaf, or skip it as applied; the counter moves past it. -/
def walkLeaf (it : Item) (a : AppliedStep) : Eng σ (Flow × Nat) := do
  let r ← hand
  if r.isApplied a.step a.iteration a.vars then do
    .when (opOf it).isSome (note (.skipped r.id a))
    pure (.continue_, a.step + 1)
  else do
    let flow ← runLeaf E a it
    pure (flow, a.step + 1)

/-! ## The walk -/

/-- The values a repeat runs through. -/
def repeatValues (form : RepeatForm) (leaf : Nat) (vars : Vars) : Eng σ (List String) :=
  match form with
  | .count n => pure ((List.range n).map toString)
  | .over list _ _ => do
      let values ← listValue E list vars
      note (.listed (← hand).id leaf vars values)
      pure values

/-- A repeat's body once per value, until the walk stops. -/
def repeatLoop (f : Nat → String → Eng σ Flow) : List String → Nat → Eng σ Flow
  | [], _ => pure .continue_
  | v :: vs, i => do
      match ← f i v with
      | .stop => pure .stop
      | .continue_ => repeatLoop f vs (i + 1)

/-- The arm a guard's observation names. -/
def armOf (guard : Guard) : Tri → Bool
  | .yes => true
  | .no => false
  | .unknown => guard.value = .yes

/-- The arm a `when` takes: the one it took before under this leaf number, or
the one its guard names now.  Nothing when the guard could not be observed. -/
def chooseArm (guard : Guard) (leaf iteration : Nat) (vars : Vars) : Eng σ (Option Bool) := do
  let r ← hand
  match r.choices.get leaf with
  | some c => do
      note (.chose r.id leaf iteration vars none c)
      pure (some c)
  | none => do
      let owner ← ownerHost E
      match ← (observeTri E owner guard.name).attempt with
      | .ok tri => do
          let c := armOf guard tri
          setHand fun r => { r with choices := r.choices.insert leaf c }
          persist E
          note (.chose r.id leaf iteration vars (some tri) c)
          pure (some c)
      | .error e => do
          let _ ← refuse E leaf ("when guard " ++ guard.name ++ ": " ++ e)
          pure none

mutual

/-- One item from the leaf counter on: how the walk ended, and the counter. -/
def walkItem : Item → Nat → Nat → Vars → Eng σ (Flow × Nat)
  | .par children, iteration, leaf, vars => walkItems children iteration leaf vars
  | .repeat_ form var body, _, leaf, vars => do
      let values ← repeatValues E form leaf vars
      -- every iteration counts its leaves from the same start
      let flow ← repeatLoop (fun i v => do
        let ended ← walkItems body i leaf (vars.insert var v)
        pure ended.1) values 0
      pure (flow, leaf + leafCount body)
  | .when_ guard _ _ then_ else_, iteration, leaf, vars => do
      match ← chooseArm E guard leaf iteration vars with
      | none => pure (.stop, leaf)
      | some true => do
          let ended ← walkItems then_ iteration leaf vars
          pure (ended.1, ended.2 + leafCount else_)
      | some false => walkItems else_ iteration (leaf + leafCount then_) vars
  | .step s, iteration, leaf, vars => walkLeaf E (.step s) ⟨leaf, iteration, vars⟩
  | .knell s, iteration, leaf, vars => walkLeaf E (.knell s) ⟨leaf, iteration, vars⟩
  | .slot name, iteration, leaf, vars => walkLeaf E (.slot name) ⟨leaf, iteration, vars⟩
  | .confirm, iteration, leaf, vars => walkLeaf E .confirm ⟨leaf, iteration, vars⟩
  | .commit, iteration, leaf, vars => walkLeaf E .commit ⟨leaf, iteration, vars⟩
  | .preflight gs, iteration, leaf, vars => walkLeaf E (.preflight gs) ⟨leaf, iteration, vars⟩
  | .observe p al, iteration, leaf, vars => walkLeaf E (.observe p al) ⟨leaf, iteration, vars⟩
  | .assert g w l, iteration, leaf, vars => walkLeaf E (.assert g w l) ⟨leaf, iteration, vars⟩

def walkItems : List Item → Nat → Nat → Vars → Eng σ (Flow × Nat)
  | [], _, leaf, _ => pure (.continue_, leaf)
  | it :: items, iteration, leaf, vars => do
      match ← walkItem it iteration leaf vars with
      | (.stop, leaf) => pure (.stop, leaf)
      | (.continue_, leaf) => walkItems items iteration leaf vars

end

/-- Every leaf is done and there was no `commit()` item: a temporary plan
rests. -/
def rest : Eng σ Unit := do
  let r ← hand
  .when r.permanent (note (.stranded r.id .uncommitted))
  step E .allStepsDone
  log E .applied

/-- Go on with the walk while it continues and the instance is applying. -/
def whileApplying (flow : Flow) (m : Eng σ Flow) : Eng σ Flow := do
  let r ← hand
  if flow = .continue_ ∧ r.state = .applying then m else pure .stop

/-- Walk the plan from its start, skipping what is applied, until it ends or
the instance leaves `Applying`. -/
def walk : Eng σ Unit := do
  let r ← hand
  if r.state ≠ .applying then pure ()
  else do
    let refused ← refuseOnContractChange E
    if refused then pure ()
    else do
      let ended ← walkItems E r.plan.body 0 1 []
      let flow ← whileApplying ended.1 (backstopAfterWalk E)
      let _ ← whileApplying flow (do
        rest E
        pure .stop)
      pure ()

end Rescind
