/-
# `Rescind.Core.Model` — plans, ops and the world a check is handed

The plan IR: bodies of primitives, footprints, ops, gates, items, plans, host
records and the site.  Names are the source's.  Durations and instants are
whole seconds; the fixed-width counters of the source are `Nat`.

Left out, because nothing in this development reads them: rendered arguments
of a step, which only `explain` prints.
-/
import Rescind.Lib.Assoc

namespace Rescind

open Lib (Assoc)

/-- Whole seconds. -/
structure Duration where
  seconds : Nat
  deriving DecidableEq, Repr

/-- A point in time, whole seconds since the Unix epoch. -/
structure Instant where
  unixS : Nat
  deriving DecidableEq, Repr

def Instant.plus (i : Instant) (d : Duration) : Instant := ⟨i.unixS + d.seconds⟩

/-- Three-valued truth. -/
inductive Tri where
  | yes | no | unknown
  deriving DecidableEq, Repr

/-- A binding of names to texts: parameters, outputs, loop variables. -/
abbrev Vars := Assoc String String

/-! ## Bodies -/

/-- A footprint fact as a primitive names it. -/
structure FactRef where
  shape : String
  anchor : Option String
  deriving DecidableEq, Repr

/-- Where a value comes from. -/
inductive Ref where
  | fact (name : String)
  | param (name : String)
  | host (field : String)
  | output (step name : String) (secret : Bool)
  | controller (name : String)
  | secret (name : String)
  deriving DecidableEq, Repr

namespace Ref

def isSecret : Ref → Bool
  | .output _ _ true => true
  | .secret _ => true
  | _ => false

/-- Bakeable into a target-side artifact. -/
def targetLocal : Ref → Bool
  | .fact _ | .param _ | .host _ => true
  | _ => false

def label : Ref → String
  | .fact n | .param n | .controller n | .secret n => n
  | .host f => "host." ++ f
  | .output step name _ => step ++ "." ++ name

end Ref

/-- One piece of an interpolated string. -/
inductive Part where
  | lit (s : String)
  | ref (r : Ref)
  deriving DecidableEq, Repr

abbrev Template := List Part

/-- A literal, a reference, or an interpolated string. -/
inductive Value where
  | lit (s : String)
  | ref (r : Ref)
  | template (t : Template)
  deriving DecidableEq, Repr

def templateRefs (parts : Template) : List Ref :=
  parts.filterMap fun
    | .ref r => some r
    | .lit _ => none

namespace Value

def refs : Value → List Ref
  | .lit _ => []
  | .ref r => [r]
  | .template parts => templateRefs parts

def isSecret (v : Value) : Bool := v.refs.any Ref.isSecret

end Value

/-- Which values a defprim argument may carry. -/
inductive ArgClass where
  | targetLocal | controller
  deriving DecidableEq, Repr

structure ClassedArg where
  name : String
  cls : ArgClass
  value : Value
  deriving DecidableEq, Repr

/-- The primitives of a body. -/
inductive Prim where
  | run (cmd : Template) (env : List (String × Value)) (stdin : Option Value)
  | write (fact : FactRef) (content : Value)
  | remove (fact : FactRef)
  | append (fact : FactRef) (line : Value)
  | regionSet (fact : FactRef) (content : Value)
  | regionClear (fact : FactRef)
  | stage (name : String) (content : Value) (mode : Nat)
  | hook (name : String) (args : List (String × Value))
  | install (name : String)
  | release (name : String)
  | call (prim : String) (cmd : Template) (args : List ClassedArg)
  deriving DecidableEq, Repr

/-- Every reference the primitive's values carry, in the order they are
written. -/
def Prim.refs : Prim → List Ref
  | .run cmd env stdin =>
      templateRefs cmd ++ env.flatMap (·.2.refs) ++ (stdin.map Value.refs).getD []
  | .write _ content => content.refs
  | .append _ line => line.refs
  | .regionSet _ content => content.refs
  | .stage _ content _ => content.refs
  | .hook _ args => args.flatMap (·.2.refs)
  | .call _ cmd args => templateRefs cmd ++ args.flatMap (·.value.refs)
  | .remove _ | .regionClear _ | .install _ | .release _ => []

abbrev Body := List Prim

/-! ## Facts and footprints -/

inductive Kind where
  | owned | region | modified | derived | appendOnly | held
  deriving DecidableEq, Repr

inductive Drift where
  | clobber | defer
  deriving DecidableEq, Repr

/-- The default drift policy by footprint kind. -/
def Kind.defaultDrift : Kind → Option Drift
  | .owned | .region => some .clobber
  | .modified => some .defer
  | .derived | .appendOnly | .held => none

/-- A footprint entry: the shape names the fact, the anchor is a region's
fence. -/
structure FootprintEntry where
  kind : Kind
  shape : String
  inst : Option String := none
  anchor : Option String := none
  deriving DecidableEq, Repr

abbrev Footprint := List FootprintEntry

/-- A guard: its name, the value a check assumes, and whether it declares
`force: never`. -/
structure Guard where
  name : String
  value : Tri
  forceNever : Bool := false
  deriving DecidableEq, Repr

/-! ## Gates -/

structure Authenticator where
  id : String
  human : Bool
  deriving DecidableEq, Repr

mutual

inductive GateExpr where
  | thresh (n : Nat) (factors : List Factor)
  | single (f : Factor)

inductive Factor where
  | auth (id : String) (weight : Nat)
  | humans (weight : Nat)
  | group (expr : GateExpr) (weight : Nat)
  | wait (duration : Duration) (weight : Nat)

end

structure PlanGate where
  expr : GateExpr
  window : Option Duration
  allowZeroHuman : Bool

/-! ## Ops -/

inductive HostRef where
  | static (h : String)
  /-- Bound at runtime from a named output. -/
  | bound (b : String)
  deriving DecidableEq, Repr

inductive Locus where
  | controller
  | target
  | host (h : HostRef)
  deriving DecidableEq, Repr

inductive UndoLocus where
  | target | controller | noLocus
  deriving DecidableEq, Repr

/-- The undo.  `computed` and `compensate` carry a body and the shapes the undo
needs unchanged; `restore` derives both from the footprint. -/
inductive Undo where
  | restore
  | computed (body : Body) (undoPre : List String)
  | compensate (body : Body) (undoPre : List String)
  | noUndo
  deriving DecidableEq, Repr

inductive Cost where
  | probe (p : String)
  | noCost (reason : String)
  deriving DecidableEq, Repr

inductive Ack where
  | gate (g : GateExpr)
  | noAck (reason : String)

inductive Refusal where
  | revert
  | hold (via : Option String)
  | knell (guard : Option Guard) (cost : Cost) (ack : Ack)

def Refusal.isHold : Refusal → Bool
  | .hold _ => true
  | _ => false

structure Output where
  name : String
  secret : Bool
  deriving DecidableEq, Repr

structure Op where
  id : String
  footprint : Footprint
  pre : List Guard := []
  do_ : Body := []
  undo : Undo := .restore
  post : List Guard := []
  undoLocus : UndoLocus := .controller
  refusal : Refusal := .revert
  /-- `none` means the kind's default. -/
  drift : Option Drift := none
  reach : List String := []
  outputs : List Output := []
  exclusivity : Option String := none
  locus : Locus := .target
  suspend : Option Body := none
  reestablish : Option Body := none
  handoffDone : Option String := none
  undoIdempotent : Bool := true

/-- The drift policy in force: the declared one, else the first default any
footprint kind supplies. -/
def Op.effectiveDrift (o : Op) : Option Drift :=
  match o.drift with
  | some d => some d
  | none => o.footprint.findSome? fun e => e.kind.defaultDrift

/-! ## Plans and items -/

inductive Direction where
  | forward | inverse
  deriving DecidableEq, Repr

inductive ForceName where
  | guard (g : String)
  | drift
  | unknown
  deriving DecidableEq, Repr

inductive OnLapse where
  | revert | hold
  deriving DecidableEq, Repr

structure StepI where
  op : Op
  direction : Direction := .forward
  gate : Option GateExpr := none
  window : Option Duration := none
  onLapse : OnLapse := .revert
  force : List ForceName := []
  alias_ : Option String := none

inductive RepeatForm where
  | count (n : Nat)
  | over (list : String) (max : Nat) (setValued : Bool)
  deriving DecidableEq, Repr

inductive Item where
  | step (s : StepI)
  | knell (s : StepI)
  | par (children : List Item)
  | slot (name : String)
  | confirm
  | commit
  | preflight (guards : List Guard)
  | observe (probe alias_ : String)
  | assert (guard : Guard) (window : Option Duration) (onLapse : OnLapse)
  | repeat_ (form : RepeatForm) (var : String) (body : List Item)
  | when_ (guard : Guard) (window : Option Duration) (onLapse : OnLapse)
      (then_ else_ : List Item)

inductive Trigger where
  | after (d : Duration)
  | unlessConfirmed (d : Duration)
  | unlessHeartbeat (deadline : Duration) (interval : Option Duration)
  deriving DecidableEq, Repr

structure Backstop where
  triggers : List Trigger
  armBefore : Nat
  deriving DecidableEq, Repr

inductive Strictness where
  | strict | warn
  deriving DecidableEq, Repr

inductive Mode where
  | manual | auto
  deriving DecidableEq, Repr

inductive JournalRequirement where
  | chained | signed
  deriving DecidableEq, Repr

/-- A probe declaration: its body on its locus produces facts; `reads` is the
fact shape it reads, with the names it binds in braces. -/
structure ProbeDecl where
  name : String
  locus : Locus
  body : Body
  produces : List String
  static_ : Bool
  reads : Option String := none
  deriving DecidableEq, Repr

structure Plan where
  id : String
  owner : String
  gate : Option PlanGate := none
  wane : Option Duration := none
  renewWithin : Option Duration := none
  backstop : Option Backstop := none
  firesByConstruction : Bool := false
  strictness : Strictness := .strict
  mode : Mode := .manual
  exclusivity : Option String := none
  requireJournal : Option JournalRequirement := none
  body : List Item
  probes : List ProbeDecl := []

/-! ## The world the checker is handed -/

/-- A backstop artifact's language. -/
inductive ArtifactLanguage where
  | sh | powershell | python
  deriving DecidableEq, Repr

/-- The parts of a host record a check reads. -/
structure HostRecord where
  name : String
  os : String
  reach : List String
  filesystem : Bool
  stdinPreamble : Bool
  artifact : Option ArtifactLanguage := none
  deriving DecidableEq, Repr

structure Site where
  hosts : List HostRecord
  transports : List String
  authenticators : List Authenticator
  maxWait : Option Duration
  schedulerPresent : List String
  secretsDeliverTo : List String
  approval : Option String
  deriving DecidableEq, Repr

/-- The plan IR as a request carries it. -/
structure PlanIr where
  site : Site
  requester : String
  plan : Plan

end Rescind
