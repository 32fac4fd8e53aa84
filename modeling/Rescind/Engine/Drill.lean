/-
# `Rescind.Engine.Drill` — a plan applied to a canary, recanted, and attested

`drill` reads every fact the plan's footprint names outright on the hosts its steps
name, applies the plan, recants it and reads them again; the attestation is a
journal entry of the site.  Every host must be a canary and the plan temporary, else
R0410.
-/
import Rescind.Engine.Verbs

namespace Rescind

open Lib

variable {σ : Type} (E : Setting σ)

/-! ## The facts of a drill -/

/-- One fact of a drill, read before the plan was applied and again after it was
recanted.  A digest of `none` is a fact that is not there, a state like any other;
`unread` says why a fact could not be read. -/
structure DrilledFact where
  host : String
  shape : String
  before : Option String
  after : Option String := none
  unread : Option String := none
  deriving DecidableEq, Repr

namespace DrilledFact

/-- Both reads succeeded and agree. -/
def restored (f : DrilledFact) : Bool := f.unread.isNone && f.before = f.after

/-- Its line in the attestation. -/
def line (f : DrilledFact) : String :=
  match f.unread with
  | some why => f.host ++ " " ++ f.shape ++ " unread=" ++ why
  | none => f.host ++ " " ++ f.shape ++ " before=" ++ f.before.getD "absent" ++ " after=" ++
      f.after.getD "absent"

/-- The fact of this shape on the host of this name. -/
def isOf (host shape : String) (f : DrilledFact) : Bool := f.host = host && f.shape = shape

end DrilledFact

/-! ## The hosts of a drill -/

def boundAtRuntime (plan host : String) : String :=
  "R0410: " ++ plan ++ " binds a step's host at runtime (" ++ host ++
    "); a drill names its canary before it runs"

/-- The hosts the steps name, each once. -/
def namedHosts (hosts : Assoc String Host) (r : InstanceRecord) :
    List (Nat × Item) → List Host → Except EngineError (List Host)
  | [], found => .ok found
  | (_, it) :: rest, found =>
      match opOf it with
      | none => namedHosts hosts r rest found
      | some op =>
          match stepHost E hosts r op with
          | .error b => .error (.runtime (boundAtRuntime r.plan.id b))
          | .ok host => namedHosts hosts r rest
              (if found.any fun h => h.name = host.name then found else found ++ [host])

def Host.roles (h : Host) : String := (h.facts.get "roles").getD ""

def Host.canary (h : Host) : Bool :=
  (Text.split ',' h.roles.toList).any fun role => Text.trim role = "canary".toList

def notCanary (h : Host) : String :=
  "R0410: " ++ h.name ++ " is not a canary (roles: " ++
    (if h.roles.isEmpty then "none" else h.roles) ++
    "); a drill applies a real plan to a real host, and only a host the inventory declares " ++
    "`canary` may be it"

/-- The hosts a drill would touch, each of which must be a canary. -/
def drillHosts (hosts : Assoc String Host) (r : InstanceRecord) :
    Except EngineError (List Host) := do
  let found ← namedHosts E hosts r (numbered r.plan.body) []
  match found.find? fun h => !h.canary with
  | some h => .error (.runtime (notCanary h))
  | none => .ok found

/-! ## Reading them -/

/-- The facts the footprints name on a host, in the order of the steps. -/
def factsOn (hosts : Assoc String Host) (r : InstanceRecord) (host : Host) :
    List (Host × FootprintEntry) :=
  (numbered r.plan.body).flatMap fun p =>
    match opOf p.2 with
    | none => []
    | some op =>
        if onThisHost E hosts r host op then
          (observedFacts op.footprint).map fun f => (host, f.2.1)
        else []

/-- Read one of them, by digest.  A shape still waiting on a value names no fact yet
and is not read, nor is a fact that was. -/
def drillFact (fact : Host × FootprintEntry) (out : List DrilledFact) :
    Eng σ (List DrilledFact) :=
  let (host, e) := fact
  if runtimeBound e.shape || out.any (DrilledFact.isOf host.name e.shape) then pure out
  else do
    match ← (factBytes E host e.shape).attempt with
    | .ok bytes => pure (out ++ [{
        host := host.name, shape := e.shape
        before := bytes.map fun b => digestOf E.sha256 (some b) }])
    | .error why => pure (out ++ [{
        host := host.name, shape := e.shape, before := none, unread := some why }])

/-- Every fact of the plan's footprint on those hosts. -/
def drillFacts (r : InstanceRecord) (hosts : List Host) : Eng σ (List DrilledFact) := do
  takeUp r
  let known ← Prog.read World.hosts
  .loop (drillFact E) (hosts.flatMap (factsOn E known r)) []

/-! ## The attestation -/

/-- What `attest` pairs up: the two listings, and how the drill went. -/
structure Attested where
  plan : String
  inst : String
  hosts : List Host
  before : List DrilledFact
  after : List DrilledFact
  exit : Nat
  /-- The state the plan was left in, where it was not applied or not recanted. -/
  why : Option State

/-- What a drill found. -/
structure Attestation where
  plan : String
  inst : String
  hosts : List String
  facts : List DrilledFact
  restored : Bool
  exit : Nat
  deriving DecidableEq, Repr

/-- A fact of the first listing with what the second says of it. -/
def pairFact (after : List DrilledFact) (b : DrilledFact) : DrilledFact :=
  let a := after.find? (DrilledFact.isOf b.host b.shape)
  { b with
    after := a.bind DrilledFact.before
    unread := b.unread.or (a.bind DrilledFact.unread) }

/-- Pair the two listings, and journal the attestation.  Nothing read is nothing
attested. -/
def attest (a : Attested) : Eng σ Attestation := do
  let facts := a.before.map (pairFact a.after)
  let restored := a.exit = 0 && !facts.isEmpty && facts.all DrilledFact.restored && a.why.isNone
  let names := a.hosts.map Host.name
  journalSiteEvent E
    (.drillAttested a.plan (Text.join "," names) a.inst restored (facts.map DrilledFact.line))
  pure { plan := a.plan, inst := a.inst, hosts := names, facts, restored
         exit := if restored then 0 else max a.exit 1 }

/-! ## A drill -/

def permanentDrill (plan : String) : String :=
  "R0410: " ++ plan ++ " is a permanent plan; a drill has to undo what it did, and a permanent " ++
    "plan is not recanted"

/-- Apply a plan to canaries, recant it, and attest that they came back to what they
were. -/
def drill (ir : PlanIr) (params : Vars) (opts : ApplyOptions) : Eng σ Attestation := do
  let nonce ← ask E .nonce
  let reading := blankRecord E ir params opts nonce
  let plan := ir.plan.id
  if reading.permanent then .fail (.runtime (permanentDrill plan))
  else do
    let known ← Prog.read World.hosts
    let hosts ← .ofExcept (drillHosts E known reading)
    let before ← drillFacts E reading hosts
    let out ← apply E ir params opts
    if out.state ≠ .applied then
      attest E { plan, inst := out.id, hosts, before, after := [], exit := 3, why := some out.state }
    else do
      let recanted ← recant E out.id []
      let after ← drillFacts E reading hosts
      if recanted.state = .closed then
        attest E { plan, inst := out.id, hosts, before, after, exit := 0, why := none }
      else
        attest E { plan, inst := out.id, hosts, before, after, exit := 1
                   why := some recanted.state }

end Rescind
