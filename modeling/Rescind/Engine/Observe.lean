/-
# `Rescind.Engine.Observe` — reading facts, probes and secrets

Every read the engine makes of a host goes through the executor that reaches
it; a read that fails is R0205 and never the fact's absence.
-/
import Rescind.Engine.Footprint

namespace Rescind

open Lib

variable {σ ε : Type} (E : Setting σ)

/-- An executor's answer, its error prefixed. -/
def orElse {α : Type} (x : Except String α) (msg : String → ε) : Prog (World σ) ε α :=
  match x with
  | .ok a => pure a
  | .error e => .fail (msg e)

/-! ## Facts -/

def LocusKind.readsFilesAlone : LocusKind → Bool
  | .local_ | .ssh => true
  | .hook _ => false

/-- The first probe of the plan whose `reads` names the shape, and the names
the shape binds. -/
def readingDecl (p : Plan) (shape : String) : Option (ProbeDecl × Vars) :=
  p.probes.findSome? fun d => match d.reads with
    | some pat => (bindShape pat shape).map fun vars => (d, vars)
    | none => none

/-- The probe that reads `shape` on `host`, its body resolved; `none` where the
executor reads the shape itself. -/
def readingProbe (r : InstanceRecord) (host : Host) (shape : String) :
    Except String (Option (String × List RPrim)) :=
  if (filePath shape).isSome then .ok none
  else match (executorIndex E host).bind fun i => E.executors[i]? with
    | some (locus, _) =>
        if !locus.readsFilesAlone then .ok none
        else match readingDecl r.plan shape with
          | none => .ok none
          | some (d, vars) =>
              match resolveBody d.body host (envFor r vars) with
              | .ok body => .ok (some (d.name, body))
              | .error u => .error
                  ("R0205: " ++ shape ++ " on " ++ host.name ++ ": its probe " ++ d.name ++ ": " ++ u)
    | none => .ok none

def couldNotTell (shape : String) (host : Host) (probe text : String) : String :=
  "R0205: " ++ shape ++ " on " ++ host.name ++ ": its probe " ++ probe ++ " could not tell (" ++
    String.ofList (Text.trim text.toList) ++ ")"

/-- A fact's bytes on a host as they are now, or `none` for a fact that is not
there. -/
def factBytes (host : Host) (shape : String) : Try σ (Option Bytes) := do
  let r ← hand
  let reader ← .ofExcept (readingProbe E r host shape)
  match executorIndex E host with
  | none => .fail ("R0205: no executor reaches " ++ host.name ++ " to read " ++ shape)
  | some i =>
      match reader with
      | none =>
          orElse (← ask E (.readFact i host shape)) fun e =>
            "R0205: " ++ shape ++ " on " ++ host.name ++ " could not be read: " ++ e
      | some (name, body) => do
          let o ← orElse (← ask E (.observe i host name body)) fun e =>
            "R0205: " ++ shape ++ " on " ++ host.name ++ " could not be read by its probe " ++
              name ++ ": " ++ e
          match o.asTri with
          | .yes => pure (some (Bytes.ofString o.text))
          | .no => pure none
          | .unknown => .fail (couldNotTell shape host name o.text)

/-! ## Probes -/

/-- The probe a guard, observe or assert names, as the engine runs it: on which
host, and its resolved body. -/
def probeRun (r : InstanceRecord) (host : Host) (name : String) :
    Except String (Host × String × List RPrim) :=
  match r.plan.probes.find? fun p => p.name = name || p.produces.contains name with
  | some d => do
      let on := if d.locus = .controller then controllerHost E else host
      let body ← resolveBody d.body on (envFor r [])
      pure (on, d.name, body)
  | none => .ok (host, name, [])

def observeRaw (host : Host) (probe : String) : Try σ Observation := do
  let r ← hand
  let run ← .ofExcept (probeRun E r host probe)
  match executorIndex E run.1 with
  | none => .fail ("no executor reaches " ++ run.1.name)
  | some i =>
      orElse (← ask E (.observe i run.1 run.2.1 run.2.2)) fun e =>
        "observing " ++ probe ++ " on " ++ run.1.name ++ ": " ++ e

def observeTri (host : Host) (probe : String) : Try σ Tri := do
  let o ← observeRaw E host probe
  pure o.asTri

def observeText (host : Host) (probe : String) : Try σ String := do
  let o ← observeRaw E host probe
  pure o.text

/-- The elements of a list text: comma-separated, trimmed, empty ones left
out. -/
def listElements (text : String) : List String :=
  (((Text.split ',' text.toList).map Text.trim).filter fun s => !s.isEmpty).map String.ofList

/-- The values a `repeat over` runs through. -/
def listValue (list : String) (vars : Vars) : Eng σ (List String) := do
  let r ← hand
  match ((vars.get list).or (r.params.get list)).or (r.outputs.get list) with
  | some v => pure (listElements v)
  | none => do
      let owner ← ownerHost E
      match ← (observeText E owner list).attempt with
      | .ok text => pure (listElements text)
      | .error e => do
          note (.stranded r.id .listUnread)
          .fail (.internal ("repeat over " ++ list ++ ": " ++ e))

/-! ## Secrets -/

/-- The secrets a body names, each once, in order. -/
def wantedSecrets (b : Body) : List String :=
  nub <| (b.flatMap Prim.refs).filterMap fun
    | .secret n => some n
    | _ => none

/-- Fill the environment with every secret a body names. -/
def loadSecrets (env : Env) (b : Body) : Try σ Env := do
  let wanted := wantedSecrets b
  if wanted.isEmpty then pure env
  else if !E.hasSource then
    .fail ("the plan names secret(" ++ Text.join "), secret(" wanted ++
      ") and the site declares no `secrets from:` binding")
  else
    Prog.loop (fun name (env : Env) => do
      let value ← orElse (← ask E (.secret name)) fun e => "secret(" ++ name ++ "): " ++ e
      pure { env with secrets := env.secrets.insert name value }) wanted env

/-- Offer a secret to the acceptors in order, from the `i`-th on: the one that
takes it. -/
def offerSecret (label value : String) (now : Instant) (until_ : Option Instant) :
    List (String × Nat) → Eng σ (Option String)
  | [] => pure none
  | (name, i) :: rest => do
      let r ← hand
      match ← ask E (.offer i r.id label value now until_) with
      | .ok true => pure (some name)
      | .ok false => offerSecret label value now until_ rest
      | .error e => do
          log E (.secretDropped label ("R0302: " ++ name ++ ": " ++ e))
          offerSecret label value now until_ rest

/-- The bound a `hold(until: :wane)` resolves to: the wane deadline of a
temporary plan, the site's `max_wait` for a permanent one. -/
def holdBound (permanent : Bool) (maxWait : Option Duration) (deadline : Option Instant) :
    Eng σ (Option Instant) :=
  if permanent then do
    let t ← ask E .now
    pure (maxWait.map t.plus)
  else pure deadline

/-- Deliver one secret to the first acceptor that takes it. -/
def deliverSecret (label value : String) : Eng σ Unit := do
  let r ← hand
  match r.permanent, r.ir.site.maxWait with
  | true, none => do
      log E (.secretDropped label
        "R0104: hold(until: :wane) on a permanent plan, and the site declares no max_wait")
      setHand fun r => { r with secretUndelivered := true }
  | permanent, maxWait => do
      let until_ ← holdBound E permanent maxWait r.deadline
      let now ← ask E .now
      match ← offerSecret E label value now until_ E.acceptors.zipIdx with
      | some acceptor => log E (.secretRevealed label acceptor)
      | none => do
          log E (.secretUndelivered label)
          setHand fun r => { r with secretUndelivered := true }
          persist E

/-- Ask each acceptor in turn, gathering what it answers. -/
def gather {α : Type} (f : Nat → Eng σ (List α)) : Eng σ (List α) :=
  Prog.loop (fun i (acc : List α) => do pure (acc ++ (← f i)))
    (List.range E.acceptors.length) []

/-- Drop every secret held for the instance in hand, journaling why. -/
def dropSecrets (reason : String) : Eng σ Unit := do
  let r ← hand
  let dropped ← gather E fun i => ask E (.dropFor i r.id)
  Prog.loop (fun label (_ : Unit) => log E (.secretDropped label reason)) dropped ()

/-- Journal secrets dropped for instances the store may or may not know. -/
def journalDropped (gone : List (String × String)) (reason : String) : Eng σ Unit :=
  Prog.loop (fun g (_ : Unit) => do
    match ← (readInstance E g.1).attempt with
    | .ok (some r) => logAbout E r (.secretDropped g.2 reason)
    | _ => pure ()) gone ()

/-- Secrets past their bound, dropped on the reap pass. -/
def expireSecrets : Eng σ Unit := do
  let now ← ask E .now
  let gone ← gather E fun i => ask E (.expireHeld i now)
  journalDropped E gone "the hold's bound passed"

/-- A restart holds no secret across it. -/
def dropSecretsAtBoot : Eng σ Unit := do
  let gone ← gather E fun i => ask E (.dropAll i)
  journalDropped E gone "daemon_restart"

end Rescind
