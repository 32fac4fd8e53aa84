/-
# `Rescind.Engine.Backstop` — instance directories, artifacts and firings

What the engine keeps on a target: the instance directory, the rendered
artifact with its scheduler entry, the deadline and the heartbeat it arms with,
and what it reads back after the artifact has fired.  A refusal of the world
comes back as a value, for the caller to refuse the step with.
-/
import Rescind.Engine.Observe

namespace Rescind

open Lib

variable {σ : Type} (E : Setting σ)

/-! ## Instance directories -/

/-- The controller that stamped an instance directory, when it is not ours. -/
def foreignController (i : Nat) (host : Host) (inst : String) : Try σ (Option String) := do
  match ← ask E (.getFile i host inst "controller") with
  | .error _ => pure none
  | .ok bytes =>
      match Bytes.text? bytes with
      | none => pure none
      | some t =>
          let id := String.ofList (Text.trim t)
          if id = "" || id = E.controllerId then pure none else pure (some id)

def boolWord (b : Bool) : String := if b then "true" else "false"

def notBootstrapped (host : Host) (st : BootstrapState) : String :=
  "R0407: " ++ host.name ++ " is not bootstrapped (rescind_root " ++ boolWord st.rescindRoot ++
    ", group " ++ boolWord st.group ++ ", instances " ++ boolWord st.instancesDir ++ ", lock " ++
    boolWord st.lock ++ ", modes " ++ boolWord st.modesOk ++ "); run `rescind bootstrap " ++
    host.name ++ "`"

def heldByOther (host : Host) (inst other : String) : String :=
  "R0409: " ++ host.name ++ " holds instance " ++ inst ++ " of controller " ++ other ++
    ", armed and not fired; rescind is single-controller per host. Its backstop is live: read it, " ++
    "then `rescind reclaim " ++ host.name ++ " " ++ inst ++ " --force --reason ...` if it is spent"

/-- One instance directory per run-capable host, refused on a host another
controller has armed. -/
def createDir (i : Nat) (host : Host) (id : String) : Try σ Unit := do
  let st ← orElse (← ask E (.bootstrapState i host)) fun e => "R0407: " ++ host.name ++ ": " ++ e
  .failIf (!st.ready) (notBootstrapped host st)
  let dirs ← orElse (← ask E (.dirList i host)) fun e =>
    "the instance directories on " ++ host.name ++ ": " ++ e
  Prog.loop (fun d (_ : Unit) => do
    if d.inst = id || !d.armed || d.fired then pure ()
    else match ← foreignController E i host d.inst with
      | some other => .fail (heldByOther host d.inst other)
      | none => pure ()) dirs ()
  orElse (← ask E (.dirCreate i host id)) fun e =>
    "instance directory on " ++ host.name ++ ": " ++ e
  orElse (← ask E (.putFile i host id "controller" (Bytes.ofString E.controllerId) 0o640)) fun e =>
    "the controller stamp on " ++ host.name ++ ": " ++ e

/-- An instance directory on a run-capable host, created before the first step
there. -/
def ensureInstanceDir (host : Host) : Eng σ (Except String Unit) := do
  let r ← hand
  if r.rehearsal || !(capsOf E host).filesystem || r.dirs.contains host.name then pure (.ok ())
  else match executorIndex E host with
    | none => pure (.ok ())
    | some i =>
        match ← (createDir E i host r.id).attempt with
        | .error why => pure (.error why)
        | .ok () => do
            setHand fun r => { r with dirs := r.dirs ++ [host.name] }
            persist E
            pure (.ok ())

/-- Ask something of the executor that reaches a host, where one does; its
answer does not matter. -/
def onHost {α : Type} (name : String) (f : Nat → Host → Eng σ α) : Eng σ Unit := do
  match hostOf E (← hostsNow) name with
  | none => pure ()
  | some host =>
      match executorIndex E host with
      | none => pure ()
      | some i => do
          let _ ← f i host
          pure ()

/-- Remove staged files: of one step after it ran, or of every step at boot. -/
def removeStaged (step : Option Nat) (reason : String) : Eng σ Unit := do
  let r ← hand
  let mine := r.staged.filter fun s => step.all fun n => s.step = n
  if mine.isEmpty then pure ()
  else do
    Prog.loop (fun s (_ : Unit) => do
      onHost E s.host fun i host => ask E (.removeFile i host r.id s.name)
      log E (.stagedRemoved s.step reason)) mine ()
    setHand fun r => { r with staged := r.staged.filter fun s => !mine.contains s }
    persist E

/-! ## Schedules and jobs -/

/-- The deadline and heartbeat an arm writes. -/
structure Schedule where
  deadline : Option Instant := none
  heartbeatS : Option Nat := none
  intervalS : Option Nat := none
  deriving DecidableEq, Repr

def schedule (triggers : List Trigger) (now : Instant) (wane : Option Instant) : Schedule :=
  triggers.foldl (fun s t => match t with
    | .after d => { s with deadline := some (wane.getD (now.plus d)) }
    | .unlessConfirmed d => { s with deadline := some (now.plus d) }
    | .unlessHeartbeat deadline interval =>
        { s with
          heartbeatS := some deadline.seconds
          intervalS := some ((interval.map Duration.seconds).getD (deadline.seconds / 3)) }) {}

def triggersOf (p : Plan) : List Trigger := (p.backstop.map Backstop.triggers).getD []

/-- The distance between two clocks. -/
def skew (a b : Instant) : Nat := (a.unixS - b.unixS) + (b.unixS - a.unixS)

inductive Disarm where
  /-- `confirm()`: the `unless_confirmed` trigger only. -/
  | confirmed
  /-- `commit()`, `abandon`, a clean revert: the entry and the artifact. -/
  | all
  deriving DecidableEq, Repr

def epochText (i : Instant) : Bytes := Bytes.ofString (toString i.unixS ++ "\n")

def rescindRootOf (host : Host) : String :=
  host.rescindRoot.getD (match shellOf host.record.os with
    | .posix => "/var/db/rescind"
    | .powershell => "C:\\ProgramData\\rescind")

def jobOf (host : Host) (id artifact : String) : Job :=
  let sep := match shellOf host.record.os with
    | .posix => "/"
    | .powershell => "\\"
  { inst := id
    artifact := rescindRootOf host ++ sep ++ "instances" ++ sep ++ id ++ sep ++ artifact
    language := languageOf host.record
    os := host.record.os }

def twoHosts (f h : Host) : String :=
  "the backstop covers steps on " ++ f.name ++ " and on " ++ h.name ++
    ": one artifact undoes one host's steps"

/-- The host a `:target` backstop lives on: the one host of the covered
steps. -/
def backstopHost (hosts : Assoc String Host) (r : InstanceRecord) : Except String (Option Host) :=
  match coverage r.plan with
  | none => .ok none
  | some cov => cov.covered.foldlM (fun found n =>
      match r.opAt n with
      | none => .ok found
      | some op => do
          let h ← stepHost E hosts r op
          match found with
          | none => .ok (some h)
          | some f =>
              if f.name ≠ h.name then .error (twoHosts f h) else .ok (some f)) none

def hasText (pat s : String) : Bool := (Text.cutAt pat.toList s.toList).isSome

/-! ## Install, arm, rearm, disarm -/

/-- A `fired` that was not there is as good as one removed. -/
def firedCleared (host : Host) : Except String Unit → Except String Unit
  | .ok () => .ok ()
  | .error e =>
      if !hasText "No such file" e && !hasText "not found" e then
        .error ("clearing a previous firing on " ++ host.name ++ ": " ++ e)
      else .ok ()

/-- Put the artifact and its scheduler entry on the host. -/
def installArtifact (r : InstanceRecord) (host : Host) : Try σ BackstopState := do
  let (fileName, text) ← orElse (E.renderArtifact r.ir r.params host r.id) fun e =>
    "the backstop artifact for " ++ host.name ++ ": " ++ e
  match host.scheduler with
  | none =>
      .fail ("R0401: " ++ host.name ++ " declares no scheduler, and the plan's backstop is on it")
  | some sched => do
      let job := jobOf host r.id fileName
      match executorIndex E host with
      | none => .fail ("no transport reaches " ++ host.name)
      | some i => do
          -- a `fired` left by an earlier instance of this id would disarm the new artifact
          let cleared ← ask E (.removeFile i host r.id "fired")
          .ofExcept (firedCleared host cleared)
          orElse (← ask E (.putFile i host r.id fileName (Bytes.ofString text) 0o750)) fun e =>
            "the backstop artifact on " ++ host.name ++ ": " ++ e
          .failIf (!E.schedulers.contains sched)
            ("R0401: no scheduler binding named " ++ sched ++ " for " ++ host.name)
          orElse (← ask E (.schedInstall sched i host job)) fun e =>
            "R0401: the scheduler entry on " ++ host.name ++ ": " ++ e
          match ← ask E (.schedPresent sched i host job) with
          | .ok .absent =>
              .fail ("R0401: " ++ sched ++ " on " ++ host.name ++
                " reports no entry after installing it")
          | .error e => .fail ("R0401: " ++ sched ++ " on " ++ host.name ++ ": " ++ e)
          | .ok _ =>
              pure { host := host.name, artifact := fileName, scheduler := sched
                     installed := true, armed := false, deadline := none, heartbeatS := none
                     intervalS := none, lastHeartbeat := none, confirmed := false, fired := false }

/-- Install the artifact and its scheduler entry, before the first covered
step. -/
def backstopInstall : Eng σ (Except String Unit) := do
  let r ← hand
  if r.rehearsal || (r.backstop.map BackstopState.installed).getD false then pure (.ok ())
  else match backstopHost E (← hostsNow) r with
    | .error why => pure (.error why)
    | .ok none => pure (.ok ())
    | .ok (some host) =>
        match ← ensureInstanceDir E host with
        | .error why => pure (.error why)
        | .ok () =>
            match ← (do installArtifact E (← hand) host : Try σ BackstopState).attempt with
            | .error why => pure (.error why)
            | .ok st => do
                note (.installed r.id (← hostsNow) st)
                setHand fun r => { r with backstop := some st }
                persist E
                pure (.ok ())

/-- R0403: the target's clock against the engine's; a target that cannot say is
taken at its word. -/
def skewWithin (tolerance : Duration) (host : Host) (now : Instant) :
    Option Instant → Except String Unit
  | none => .ok ()
  | some t =>
      if tolerance.seconds < skew now t then
        .error ("R0403: " ++ host.name ++ " is " ++ toString (skew now t) ++
          "s from the controller's clock, beyond the " ++ toString tolerance.seconds ++
          "s tolerance; arming refused")
      else .ok ()

/-- The modes, the skew probe, then the deadline and heartbeat the artifact
reads. -/
def armArtifact (r : InstanceRecord) (st : BackstopState) (host : Host) (now : Instant)
    (sched : Schedule) : Try σ Unit := do
  match executorIndex E host with
  | none => .fail ("no transport reaches " ++ host.name)
  | some i => do
      let dirs ← orElse (← ask E (.dirList i host)) fun e =>
        "the instance directories on " ++ host.name ++ ": " ++ e
      .failIf (((dirs.find? fun d => d.inst = r.id).map fun d => !d.modesOk).getD false)
        ("R0406: the instance directory of " ++ r.id ++ " on " ++ host.name ++
          " has the wrong modes; arming refused")
      let target ← orElse (← ask E (.clockNow i host)) fun e =>
        "R0403: the clock probe on " ++ host.name ++ ": " ++ e
      .ofExcept (skewWithin E.skewTolerance host now target)
      .when sched.deadline.isSome do
        orElse (← ask E (.replaceFile i host r.id "deadline"
          (epochText (sched.deadline.getD now)))) fun e => "the deadline on " ++ host.name ++ ": " ++ e
      .when sched.heartbeatS.isSome do
        orElse (← ask E (.replaceFile i host r.id "heartbeat" (epochText now))) fun e =>
          "the heartbeat on " ++ host.name ++ ": " ++ e
      .failIf (!E.schedulers.contains st.scheduler)
        ("R0401: no scheduler binding named " ++ st.scheduler ++ " for " ++ host.name)
      orElse (← ask E (.schedArm st.scheduler i host (jobOf host r.id st.artifact)
        (sched.deadline.getD now))) fun e => "R0401: arming on " ++ host.name ++ ": " ++ e

/-- What the record has of an artifact armed with a schedule. -/
def BackstopState.armedAs (st : BackstopState) (now : Instant) (sched : Schedule) : BackstopState :=
  { st with
    armed := true
    deadline := sched.deadline
    heartbeatS := sched.heartbeatS
    intervalS := sched.intervalS
    lastHeartbeat := sched.heartbeatS.map fun _ => now }

/-- Arm an installed artifact with a schedule, and record it. -/
def armAs (r : InstanceRecord) (st : BackstopState) (host : Host) (now : Instant) (sched : Schedule) :
    Eng σ (Except String Unit) := do
  match ← (armArtifact E r st host now sched).attempt with
  | .error why => pure (.error why)
  | .ok () => do
      note (.armed r.id (← hostsNow) now r.deadline (st.armedAs now sched))
      setHand fun r => { r with backstop := some (st.armedAs now sched) }
      persist E
      pure (.ok ())

/-- Arm the installed artifact. -/
def backstopArm : Eng σ (Except String Unit) := do
  let r ← hand
  match r.backstop with
  | none => pure (.ok ())
  | some st =>
      if r.rehearsal || st.armed || !st.installed then pure (.ok ())
      else match hostOf E (← hostsNow) st.host with
        | none => pure (.error (st.host ++ " is not a host of the site"))
        | some host => do
            let now ← ask E .now
            armAs E r st host now (schedule (triggersOf r.plan) now r.deadline)

/-- Move the deadline the artifact reads. -/
def rearmArtifact (r : InstanceRecord) (st : BackstopState) (host : Host) (deadline : Instant) :
    Try σ Unit := do
  match executorIndex E host with
  | none => .fail ("R0404: no transport reaches " ++ host.name)
  | some i => do
      orElse (← ask E (.replaceFile i host r.id "deadline" (epochText deadline))) fun e =>
        "R0404: the deadline on " ++ host.name ++ ": " ++ e
      .failIf (!E.schedulers.contains st.scheduler)
        ("R0404: no scheduler binding named " ++ st.scheduler)
      orElse (← ask E (.schedRearm st.scheduler i host (jobOf host r.id st.artifact) deadline))
        fun e => "R0404: rearming on " ++ host.name ++ ": " ++ e

/-- Rearm at renewal: only the deadline changes. -/
def backstopRearm (deadline : Instant) : Eng σ (Except String Unit) := do
  let r ← hand
  match r.backstop with
  | none => pure (.ok ())
  | some st =>
      if !st.armed || r.rehearsal then pure (.ok ())
      else match hostOf E (← hostsNow) st.host with
        | none => pure (.error ("R0404: " ++ st.host ++ " is not a host of the site"))
        | some host =>
            match ← (rearmArtifact E r st host deadline).attempt with
            | .error why => pure (.error why)
            | .ok () => do
                setHand fun r => { r with
                  backstop := r.backstop.map fun b => { b with deadline := some deadline } }
                persist E
                pure (.ok ())

def Trigger.isHeartbeat : Trigger → Bool
  | .unlessHeartbeat _ _ => true
  | _ => false

/-- Take the deadline away, and with `whole` the entry and the artifact too. -/
def disarmArtifact (r : InstanceRecord) (st : BackstopState) (host : Host) (whole : Bool) :
    Try σ Unit := do
  match executorIndex E host with
  | none => .fail ("no transport reaches " ++ host.name)
  | some i => do
      orElse (← ask E (.removeFile i host r.id "deadline")) fun e =>
        "the deadline on " ++ host.name ++ ": " ++ e
      .when whole do
        .failIf (!E.schedulers.contains st.scheduler)
          ("no scheduler binding named " ++ st.scheduler)
        orElse (← ask E (.schedDisarm st.scheduler i host (jobOf host r.id st.artifact))) fun e =>
          "disarming on " ++ host.name ++ ": " ++ e
        orElse (← ask E (.removeFile i host r.id st.artifact)) fun e =>
          "the artifact on " ++ host.name ++ ": " ++ e

/-- Disarm, on `confirm()` or on `commit()`, `abandon` and a clean revert. -/
def backstopDisarm (which : Disarm) : Eng σ (Except String Unit) := do
  let r ← hand
  match r.backstop with
  | none => pure (.ok ())
  | some st =>
      if r.rehearsal || !st.installed then pure (.ok ())
      else
        let whole := which = .all || !(triggersOf r.plan).any Trigger.isHeartbeat
        match hostOf E (← hostsNow) st.host with
        | none => pure (.error (st.host ++ " is not a host of the site"))
        | some host =>
            match ← (disarmArtifact E r st host whole).attempt with
            | .error why => pure (.error why)
            | .ok () => do
                setHand fun r => { r with
                  backstop := r.backstop.map fun b =>
                    if whole then { b with confirmed := true, armed := false, installed := false }
                    else { b with confirmed := true } }
                persist E
                pure (.ok ())

/-- Journal what the world refused, and go on. -/
def orLog : Except String Unit → Eng σ Unit
  | .error why => log E (.refused why)
  | .ok () => pure ()

/-- Remove the instance directories at close or commit. -/
def removeDirs : Eng σ Unit := do
  let disarmed ← backstopDisarm E .all
  orLog E disarmed
  let r ← hand
  Prog.loop (fun name (_ : Unit) => onHost E name fun i host => ask E (.dirRemove i host r.id))
    r.dirs ()
  setHand fun r => { r with dirs := [] }
  persist E

/-- Release the ledger entries of the record in hand, and write the ledger. -/
def release : Eng σ Unit := do
  .edit fun w => { w with
    ledger := w.hand.ledgerIds.foldl Ledger.release w.ledger
    hand := { w.hand with ledgerIds := [] } }
  writeLedger E
  closeGap

/-! ## Firings -/

/-- Whether a file of the instance directory can be read. -/
def hasFile (i : Nat) (host : Host) (inst rel : String) : Eng σ Bool := do
  match ← ask E (.getFile i host inst rel) with
  | .ok _ => pure true
  | .error _ => pure false

def appliedSteps (r : InstanceRecord) : List Nat := r.applied.map AppliedStep.step

/-- The covered, applied steps whose markers are gone. -/
def undoneByArtifact (i : Nat) (host : Host) (r : InstanceRecord) : Eng σ (List Nat) :=
  let covered := ((coverage r.plan).map Coverage.covered).getD []
  Prog.loop (fun n (undone : List Nat) => do
    if ← hasFile E i host r.id ("markers/" ++ toString n) then pure undone
    else pure (undone ++ [n])) (covered.filter fun n => (appliedSteps r).contains n) []

/-- History: each application dropped is one the artifact undid. -/
def noteFired (r : InstanceRecord) (undone : List Nat) : Eng σ Unit :=
  .edit fun w => { w with
    acts := (r.applied.filter fun a => undone.contains a.step).map (Act.undone r.id) ++ w.acts }

/-- Read what a fired artifact left: the `fired` marker, which steps it undid,
and the drift it met. -/
def backstopReadFired : Eng σ Bool := do
  let r ← hand
  match r.backstop with
  | none => pure false
  | some st =>
      if !st.installed || st.fired || r.rehearsal then pure false
      else match hostOf E (← hostsNow) st.host with
        | none => pure false
        | some host =>
            match executorIndex E host with
            | none => pure false
            | some i => do
                if !(← hasFile E i host r.id "fired") then pure false
                else do
                  let undone ← undoneByArtifact E i host r
                  let drift ← hasFile E i host r.id "drift"
                  let clobbered ← hasFile E i host r.id "clobbered"
                  Prog.loop (fun n (_ : Unit) => log E (.backstopFired n)) undone ()
                  let said := ["the artifact on " ++ host.name]
                  .when clobbered (log E (.driftClobbered (undone.head?.getD 0) said))
                  .when drift (log E (.driftHeld (undone.head?.getD 0) said))
                  setHand fun r => { r with
                    applied := r.applied.filter fun a => !undone.contains a.step
                    backstop := r.backstop.map fun b => { b with fired := true, armed := false } }
                  persist E
                  noteFired r undone
                  pure true

/-- A backstop that fires after its instance was abandoned: accepted and
visible. -/
def backstopFiredAfterAbandon : Eng σ Unit := do
  let r ← hand
  match r.backstop with
  | none => pure ()
  | some st =>
      if !st.installed || !st.armed || st.fired then pure ()
      else match hostOf E (← hostsNow) st.host with
        | none => pure ()
        | some host =>
            match executorIndex E host with
            | none => pure ()
            | some i => do
                if !(← hasFile E i host r.id "fired") then pure ()
                else do
                  log E (.backstopFiredAfterAbandon host.name
                    (((coverage r.plan).map Coverage.covered).getD []))
                  setHand fun r => { r with
                    backstop := r.backstop.map fun b => { b with fired := true, armed := false } }
                  persist E

/-- One instance directory found at reconciliation that the store does not
know. -/
def reconcileDir (i : Nat) (host : Host) (d : InstanceDirState) : Eng σ Unit := do
  match ← (foreignController E i host d.inst).attempt with
  | .ok (some other) => journalSiteEvent E (.instanceDirForeign host.name d.inst other)
  | _ =>
      if d.armed && !d.fired then
        journalSiteEvent E (.instanceDirOrphaned host.name d.inst true)
      else do
        match ← ask E (.dirRemove i host d.inst) with
        | .ok () => journalSiteEvent E (.reclaimed host.name d.inst false "boot reconciliation")
        | .error _ => pure ()

/-- The instance directories of one host. -/
def reconcileHost (known : List String) (host : Host) : Eng σ Unit :=
  match executorIndex E host with
  | none => pure ()
  | some i =>
      if !(capsOf E host).filesystem then pure ()
      else do
        match ← ask E (.dirList i host) with
        | .error _ => pure ()
        | .ok dirs =>
            Prog.loop (fun d (_ : Unit) =>
              if known.contains d.inst then pure () else reconcileDir E i host d) dirs ()

/-- Every instance directory on every reachable host against the store. -/
def reconcile : Eng σ Unit := do
  let rs ← allInstances E
  let known := (rs.filter fun r => !terminal r.state).map InstanceRecord.id
  let hosts ← hostsNow
  Prog.loop (fun h (_ : Unit) => reconcileHost E known h.2) hosts ()

/-! ## Reclaiming -/

def artifactFile : ArtifactLanguage → String
  | .sh => "artifact.sh"
  | .powershell => "artifact.ps1"
  | .python => "artifact.py"

/-- The job an instance directory names on a host, without the store. -/
def jobFor (host : Host) (inst : String) : Job :=
  jobOf host inst (artifactFile (languageOf host.record))

def Presence.word : Presence → String
  | .present => "present"
  | .absent => "absent"
  | .unknown => "unknown"

/-- Whether the scheduler entry for an instance is there; what cannot be asked is
never read as absence. -/
def entryPresence (host : Host) (inst : String) : Eng σ Presence :=
  match host.scheduler with
  | none => pure .absent
  | some name =>
      match executorIndex E host with
      | none => pure .unknown
      | some i =>
          if !E.schedulers.contains name then pure .unknown
          else do
            match ← ask E (.schedPresent name i host (jobFor host inst)) with
            | .ok p => pure p
            | .error _ => pure .unknown

def stillArmed (hostName inst : String) (p : Presence) : String :=
  "R0405: the artifact of " ++ inst ++ " on " ++ hostName ++
    " is armed and its scheduler entry is " ++ p.word ++
    "; reclaim it with --force --reason once the artifact has been read"

/-- Refused where the artifact is armed, but forced with a reason. -/
def reclaimable (host : Host) (hostName inst : String) (d : InstanceDirState) (force : Bool)
    (reason : String) : Eng σ Unit :=
  if d.armed && !d.fired then do
    let entry ← entryPresence E host inst
    if !force then .fail (.runtime (stillArmed hostName inst entry))
    else if (Text.trim reason.toList).isEmpty then .fail (.runtime "R0405: --force needs a --reason")
    else pure ()
  else pure ()

/-- The instance directory of a host that is to be reclaimed. -/
def reclaimOn (i : Nat) (host : Host) (hostName inst : String) (force : Bool) (reason : String) :
    Eng σ String := do
  let dirs ← orElse (← ask E (.dirList i host)) fun e =>
    .runtime ("the instance directories on " ++ hostName ++ ": " ++ e)
  match dirs.find? fun d => d.inst = inst with
  | none => .fail (.runtime (hostName ++ " has no instance directory " ++ inst))
  | some d => do
      reclaimable E host hostName inst d force reason
      orElse (← ask E (.dirRemove i host inst)) fun e =>
        .runtime ("reclaiming " ++ inst ++ " on " ++ hostName ++ ": " ++ e)
      journalSiteEvent E (.reclaimed hostName inst force reason)
      pure ("reclaimed " ++ inst ++ " on " ++ hostName)

/-- Remove an orphaned instance directory. -/
def reclaim (hostName inst : String) (force : Bool) (reason : String) : Eng σ String := do
  match hostOf E (← hostsNow) hostName with
  | none => .fail (.runtime (hostName ++ " is not a host of the site"))
  | some host =>
      match executorIndex E host with
      | none => .fail (.runtime ("no transport reaches " ++ hostName))
      | some i => reclaimOn E i host hostName inst force reason

end Rescind
