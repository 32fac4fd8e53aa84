/-
# `Rescind.Engine.Revert` — undoing applications

One application is undone under its drift policy (`undoStep`); a revert undoes
the applied ones last-in-first-out (`revert`); a refusal during `Applying`
holds or reverts (`refuse`); a failed step is itself undone at once, unless its
`do` never took (`undoFailed`).
-/
import Rescind.Engine.Backstop

namespace Rescind

open Lib

variable {σ : Type} (E : Setting σ)

/-- How a step's walk ended. -/
inductive Flow where
  | continue_
  /-- The instance left `Applying`; stop walking. -/
  | stop
  deriving DecidableEq, Repr

/-! ## One application -/

/-- What an undo found: facts clobbered under `:clobber`, facts held under
`:defer`. -/
structure UndoReport where
  clobbered : List String := []
  held : List String := []
  deriving DecidableEq, Repr

/-- Whether another active instance holds a region on a file of this host. -/
def foreignRegion (l : Ledger) (r : InstanceRecord) (host : Host) (shape : String) : Bool :=
  l.held.any fun h => !r.ledgerIds.contains h.id && h.host = host.name &&
    h.umbra.any fun f => f.shape = shape && f.anchor.isSome

/-- The digest a marker list records for an address. -/
def recordedDigest (ms : List Marker) (path : String) : Option String :=
  (ms.find? fun m => m.path = path).map Marker.digest

/-- The decision for one fact, from what it reads now. -/
def judge (l : Ledger) (r : InstanceRecord) (host : Host) (policy : Drift) (ms : List Marker)
    (e : FootprintEntry) (path : String) (bytes : Option Bytes) : Decision :=
  let current := digestOf E.sha256 bytes
  let changed := match recordedDigest ms path with
    | some d => d ≠ current
    | none => false
  let intact := if e.kind = .region then
      some (regionIntact ((bytes.map Bytes.lossy).getD []) (e.anchor.getD ""))
    else none
  let foreign := e.kind = .region && foreignRegion l r host e.shape
  let d := decideDrift e.kind policy changed intact foreign
  if r.forceDrift then d.force else d

/-- A decision added to what was found so far: the report and the regions to
restore whole. -/
def UndoReport.add (found : UndoReport × List Nat) (k : Nat) (shape : String) :
    Decision → UndoReport × List Nat
  | .undo => found
  | .clobber => ({ found.1 with clobbered := found.1.clobbered ++ [shape] }, found.2)
  | .restoreWhole =>
      ({ found.1 with clobbered := found.1.clobbered ++ [shape] }, found.2 ++ [k])
  | .defer | .deferForeign => ({ found.1 with held := found.1.held ++ [shape] }, found.2)

/-- Read every observed fact against its marker. -/
def judgeFacts (r : InstanceRecord) (host : Host) (policy : Drift) (ms : List Marker)
    (facts : List (Nat × FootprintEntry × String)) : Try σ (UndoReport × List Nat) :=
  Prog.loop (fun f (found : UndoReport × List Nat) => do
    let bytes ← factBytes E host f.2.1.shape
    let l ← Prog.read World.ledger
    pure (UndoReport.add found f.1 f.2.1.shape
      (judge E l r host policy ms f.2.1 f.2.2 bytes))) facts ({}, [])

/-- The body an undo runs. -/
def undoBodyOf (r : InstanceRecord) (a : AppliedStep) (op : Op) (host : Host) :
    Except String (List RPrim) :=
  match op.undo with
  | .noUndo => .ok []
  | .restore => restoreBody a.key op.footprint r.snapshots
  | .computed body _ | .compensate body _ => resolveBody body host (envFor r a.vars)

/-- The strip of one shape becomes the snapshot written back. -/
def wholeInstead (shape snapshot : String) : RPrim → RPrim
  | .regionClear s anchor => if s = shape then .write shape ⟨snapshot, false⟩ else .regionClear s anchor
  | p => p

/-- Damaged regions restored whole. -/
def restoreWholes (r : InstanceRecord) (a : AppliedStep) (op : Op) :
    List Nat → List RPrim → Except String (List RPrim)
  | [], body => .ok body
  | k :: ks, body =>
      let shape := (op.footprint[k]?.map FootprintEntry.shape).getD ""
      match r.snapshots.get (a.key, k) with
      | none => .error ("no snapshot for " ++ shape ++ " to restore whole")
      | some snapshot => restoreWholes r a op ks (body.map (wholeInstead shape snapshot))

/-- Hand a body to the executor as an application's undo. -/
def runUndo (i : Nat) (host : Host) (id : String) (a : AppliedStep) (body : List RPrim) :
    Try σ Unit := do
  note (.undoRun id a body)
  let _ ← orElse (← ask E (.run i host id body)) fun e => e
  pure ()

/-- Undo one application under its drift policy.  Every observable fact is read
against its marker; any fact deferred leaves the step untouched and reported
held; otherwise the undo runs, under the host lock when the step holds a
region. -/
def undoStep (a : AppliedStep) (op : Op) : Try σ UndoReport := do
  let r ← hand
  if r.rehearsal || op.undo.isNone then do
    note (.undone r.id a)
    pure {}
  else do
    let host ← .ofExcept (stepHost E (← hostsNow) r op)
    let op ← orElse (concreteOp op host (envFor r a.vars)) fun u =>
      "step " ++ toString a.step ++ ": " ++ u
    match executorIndex E host with
    | none => .fail ("no executor reaches " ++ host.name)
    | some i => do
        .when (op.footprint.any fun e => e.kind = .region) do
          orElse (← ask E (.hostLock i host)) fun e => "host lock on " ++ host.name ++ ": " ++ e
        let found ← judgeFacts E r host (op.effectiveDrift.getD .clobber)
          ((r.markers.get a.key).getD []) (observedFacts op.footprint)
        if !found.1.held.isEmpty then pure found.1
        else do
          let body ← .ofExcept (undoBodyOf r a op host)
          let body ← .ofExcept (restoreWholes r a op found.2 body)
          .when (!body.isEmpty) (runUndo E i host r.id a body)
          .when (r.dirs.contains host.name) do
            let _ ← ask E (.removeFile i host r.id ("markers/" ++ toString a.step))
            pure ()
          note (.undone r.id a)
          pure found.1

/-! ## The revert -/

/-- Adjacent repeats dropped. -/
def dedupAdj : List Nat → List Nat
  | [] => []
  | [x] => [x]
  | x :: y :: xs => if x = y then dedupAdj (y :: xs) else x :: dedupAdj (y :: xs)

def popApplied (r : InstanceRecord) : InstanceRecord := { r with applied := r.applied.dropLast }

/-- The steps of a list of applications, last first. -/
def stepsBack (as : List AppliedStep) : List Nat := dedupAdj (as.reverse.map AppliedStep.step)

/-- Undo the applications of a list, last applied first: whether all of them
were undone. -/
def revertLoop : List AppliedStep → Eng σ Bool
  | [] => pure true
  | a :: rest => do
      let r ← hand
      match r.opAt a.step with
      | none => do
          -- confirm(), observe, assert, preflight: nothing to undo
          setHand popApplied
          persist E
          revertLoop rest
      | some op =>
          match ← (undoStep E a op).attempt with
          | .ok report =>
              if !report.held.isEmpty then do
                setHand fun r => { r with driftHeld := [a.step] }
                log E (.driftHeld a.step report.held)
                step E .driftOnDefer
                pure false
              else do
                .when (!report.clobbered.isEmpty) (log E (.driftClobbered a.step report.clobbered))
                setHand fun r => { popApplied r with markers := r.markers.erase a.key }
                persist E
                revertLoop rest
          | .error why => do
              setHand fun r => { r with stuck := stepsBack r.applied }
              log E (.stepFailed a.step ("undo: " ++ why))
              step E .undoFailed
              let r ← hand
              log E (.stuck r.stuck)
              pure false

/-- Close a reverted instance: the record, then the ledger and the target. -/
def closeReverted : Eng σ Unit := do
  step E .undoClean
  log E .reverted
  let r ← hand
  let reason := (r.refusal.map fun why => "reverted after refusal: " ++ why).getD "reverted"
  setHand fun r => { r with closedReason := some reason }
  log E (.closed reason)
  dropSecrets E reason
  release E
  removeDirs E
  persist E

/-- Undo the applied steps last-in-first-out.  Clean: `Closed`.  A failing
undo: `Stuck`.  Held drift: `DriftHeld`. -/
def revert : Eng σ Unit := do
  let r ← hand
  log E (.reverting (stepsBack r.applied))
  setHand fun r => { r with stuck := [] }
  let clean ← revertLoop E r.applied.reverse
  .when clean (closeReverted E)

/-! ## Refusals -/

/-- The refusal proper: `Held` when an applied step holds, else `Reverting`,
and the revert runs. -/
def refuseApplied (n : Nat) : Eng σ Flow := do
  step E .refuse
  let r ← hand
  if r.state = .held then do
    setHand fun r => { r with heldAt := some n }
    persist E
    log E (.held n)
    pure .stop
  else do
    revert E
    pure .stop

def atStep (n : Nat) (reason : String) : String := "step " ++ toString n ++ ": " ++ reason

/-- A refusal at step `n` before its `do` ran. -/
def refuse (n : Nat) (reason : String) : Eng σ Flow := do
  setHand fun r => { r with refusal := some (atStep n reason) }
  log E (.refused (atStep n reason))
  refuseApplied E n

/-- Whether every fact in `pre` reads now as it did then. -/
def untouched (op : Op) (pre : Watched) : Eng σ Bool := do
  let r ← hand
  match stepHost E (← hostsNow) r op with
  | .error _ => pure false
  | .ok host => untouchedOn host pre
where
  untouchedOn (host : Host) : Watched → Eng σ Bool
    | [] => pure true
    | (shape, was) :: rest => do
        match ← (factBytes E host shape).attempt with
        | .ok now => if digestOf E.sha256 now = was then untouchedOn host rest else pure false
        | .error _ => pure false

def leftAsFound : String := "its do left every fact of its footprint as it found them"

/-- Put an unfinished application among the applied ones, so that a revert
undoes it. -/
def rerecord (a : AppliedStep) : Eng σ Unit := do
  setHand fun r => { r with applied := r.applied ++ [a] }
  let r ← hand
  note (.rerecorded r.id a r.earlierHold)

/-- A failed step is itself reverted at once, unless every fact it observes
reads as it did before `do`.  If the undo fails too, the step stays in the
applied set so the revert retries it. -/
def undoFailed (a : AppliedStep) (op : Op) (pre : Watched) : Eng σ Unit := do
  setHand fun r => { r with attempting := none, attemptingPre := [] }
  let same ← (if pre.isEmpty then pure false else untouched E op pre)
  if same then do
    log E (.undoSkipped a.step leftAsFound)
    note (.untouched (← hand).id a)
    persist E
  else do
    match ← (undoStep E a op).attempt with
    | .ok _ => persist E
    | .error why => do
        rerecord a
        log E (.stepFailed a.step ("undo: " ++ why))
        persist E

end Rescind
