/-
# `Rescind.Core.Check` — the checker's diagnostics

`check site requester plan` as the list of diagnostics it raises, in the
source's order of generation; a plan is clean when there is none.  A
diagnostic is its code and the step it names.  The rest of the source's
verdict (what `explain` prints) and the texts of the diagnostics are not read
by the engine and are left out.
-/
import Rescind.Core.Gates

namespace Rescind

open Lib

inductive Code where
  | e0201 | e0202 | e0203 | e0205 | e0206 | e0207 | e0208 | e0209 | e0210 | e0211
  | e0301 | e0302 | e0303 | e0304 | e0305
  | e0401 | e0403 | e0404 | e0405 | e0407 | e0410
  | e0501 | e0502 | e0503 | e0504 | e0505 | e0506 | e0507 | e0508 | e0509
  | e0606 | e0608 | e0609 | e0611
  deriving DecidableEq, Repr

structure Diagnostic where
  code : Code
  step : Option Nat
  deriving DecidableEq, Repr

/-! ## Shapes and probes -/

/-- The names a probe's `reads` pattern binds on a concrete shape.  Each round
takes one binder off the pattern, so its length bounds the rounds. -/
def bindShapeFrom : Nat → List Char → List Char → Vars → Option Vars
  | 0, _, _, _ => none
  | fuel + 1, pat, rest, vars =>
      match Text.cut '\x7b' pat with
      | none => if pat = rest then some vars else none
      | some (lit, after) => do
          let rest ← Text.dropPrefix lit rest
          let (name, pat) ← Text.cut '\x7d' after
          let nextLit := match Text.cut '\x7b' pat with
            | some (l, _) => l
            | none => pat
          let (taken, rest) ←
            if nextLit.isEmpty then
              if pat.isEmpty then some (rest, []) else none
            else Text.cutAt nextLit rest
          let vars := vars.insert (String.ofList name) (String.ofList taken)
          if taken.isEmpty then none else bindShapeFrom fuel pat rest vars

def bindShape (pattern shape : String) : Option Vars :=
  bindShapeFrom (pattern.length + 1) pattern.toList shape.toList []

/-- The host a step acts on, resolved where it can be. -/
def checkStepHost (p : Plan) (o : Op) : Except String String :=
  match o.locus with
  | .controller | .target => .ok p.owner
  | .host (.static h) => .ok h
  | .host (.bound b) => .error b

def hostRecord (site : Site) (h : String) : Option HostRecord :=
  site.hosts.find? fun r => r.name = h

/-- The controller's reach: a hook bound with `transport: :controller` first,
`local()` otherwise. -/
def controllerReach : List String := ["controller", "local"]

def selectedTransport (site : Site) (reach : List String) : Option String :=
  reach.find? fun t => t = "local" || site.transports.contains t

def isHookTransport (t : String) : Bool := t ≠ "local" && t ≠ "ssh"

/-- The names a leaf has observed. -/
def leafProbes : Item → List String
  | .preflight guards => guards.map Guard.name
  | .assert guard _ _ => [guard.name]
  | .observe probe _ => [probe]
  | .step s | .knell s =>
      (s.op.pre ++ s.op.post).map Guard.name ++
        (match s.op.refusal with
          | .knell guard cost ack =>
              (guard.map Guard.name).toList ++
                (match cost, ack with
                  | .probe c, .gate _ => [c]
                  | _, _ => [])
          | _ => []) ++
        s.op.handoffDone.toList
  | _ => []

mutual

def observedProbesOf : Item → Nat → List (Option Nat × String)
  | .par children, n => observedProbesFrom children n
  | .repeat_ _ _ body, n => observedProbesFrom body n
  | .when_ guard _ _ then_ else_, n =>
      (some n, guard.name) ::
        (observedProbesFrom then_ n ++ observedProbesFrom else_ (n + leafCount then_))
  | it, n => (leafProbes it).map fun name => (some n, name)

def observedProbesFrom : List Item → Nat → List (Option Nat × String)
  | [], _ => []
  | it :: items, n =>
      observedProbesOf it n ++ observedProbesFrom items (n + (leavesOf it).length)

end

/-- Every probe the plan will observe, with the step it is observed at. -/
def observedProbes (p : Plan) : List (Option Nat × String) :=
  ((p.probes.filter ProbeDecl.static_).map fun d => (none, d.name)) ++ observedProbesFrom p.body 1

/-- The first observation of each probe. -/
def firstByName : List (Option Nat × String) → List String → List (Option Nat × String)
  | [], _ => []
  | (n, name) :: rest, seen =>
      if seen.contains name then firstByName rest seen
      else (n, name) :: firstByName rest (name :: seen)

/-! ## Bodies, closure and secrets -/

def undoBody (o : Op) : Option Body :=
  match o.undo with
  | .computed body _ | .compensate body _ => some body
  | .restore | .noUndo => none

/-- Every body an op has. -/
def bodies (o : Op) : List Body :=
  [o.do_] ++ (undoBody o).toList ++ o.suspend.toList ++ o.reestablish.toList

/-- Every value of a primitive, with whether it is the command string and
whether it travels in the stdin preamble. -/
def positions : Prim → List (Bool × Bool × Value)
  | .run cmd env stdin =>
      [(true, false, .template cmd)] ++ (env.map fun e => (false, true, e.2)) ++
        (stdin.map fun v => (false, true, v)).toList
  | .write _ content | .regionSet _ content | .stage _ content _ => [(false, false, content)]
  | .append _ line => [(false, false, line)]
  | .hook _ args => args.map fun a => (false, false, a.2)
  | .call _ cmd args =>
      (true, false, .template cmd) :: args.map fun a => (false, false, a.value)
  | .remove _ | .regionClear _ | .install _ | .release _ => []

def secretAnywhere (b : Body) : Bool := b.any fun p => (positions p).any fun v => v.2.2.isSecret

def secretInRunString (b : Body) : Bool :=
  b.any fun p => (positions p).any fun v => v.1 && v.2.2.isSecret

def secretInChannel (b : Body) : Bool :=
  b.any fun p => (positions p).any fun v => v.2.1 && v.2.2.isSecret

/-- A reference that is neither target-local nor a secret. -/
def unclosedValue (v : Value) : Bool := v.refs.any fun r => !r.targetLocal && !r.isSecret

def unclosedPrim : Prim → Bool
  | .run cmd env stdin =>
      unclosedValue (.template cmd) || env.any (fun e => unclosedValue e.2) ||
        (stdin.map unclosedValue).getD false
  | .write fact content | .regionSet fact content =>
      runtimeBound fact.shape || unclosedValue content
  | .remove fact | .regionClear fact => runtimeBound fact.shape
  | .append fact line => runtimeBound fact.shape || unclosedValue line
  | .stage _ content _ => unclosedValue content
  | .hook _ _ | .install _ | .release _ => true
  | .call _ cmd args =>
      args.any (fun a => a.cls = .controller) || unclosedValue (.template cmd) ||
        args.any fun a => unclosedValue a.value

/-- Whether an op's undo is not closed over target-local commands and facts. -/
def unclosedUndo (o : Op) : Bool :=
  match o.undo with
  | .restore => o.footprint.any fun e => runtimeBound e.shape || e.kind = .held
  | .computed body _ | .compensate body _ => body.any unclosedPrim
  | .noUndo => false

/-! ## Backstops -/

def reachViolations (p : Plan) : List Nat :=
  let armedBefore (n : Nat) := match p.backstop with
    | none => false
    | some b => b.armBefore ≤ n
  (numbered p.body).filterMap fun q =>
    match opOf q.2 with
    | none => none
    | some o =>
        if !o.reach.isEmpty && (o.undoLocus ≠ .target || !armedBefore q.1) then some q.1 else none

def Trigger.isAfter : Trigger → Bool
  | .after _ => true
  | _ => false

def Trigger.isUnlessConfirmed : Trigger → Bool
  | .unlessConfirmed _ => true
  | _ => false

/-- Trigger and path violations by intent, as the codes they raise. -/
def triggerViolations (intent : Intent) (p : Plan) : List Code :=
  match p.backstop with
  | none => []
  | some b =>
      let afters := b.triggers.filter Trigger.isAfter
      match intent with
      | .temporary =>
          if p.firesByConstruction then afters.map fun _ => .e0503
          else
            (b.triggers.filter fun t => match t with
              | .after d => some d ≠ effectiveWane p
              | _ => false).map (fun _ => Code.e0503) ++
            (b.triggers.filter Trigger.isUnlessConfirmed).map (fun _ => Code.e0503) ++
            (if afters.isEmpty then [.e0503] else [])
      | .permanent =>
          afters.map (fun _ => Code.e0504) ++
            (if 0 < pathsWithoutDisarm p.body && !p.firesByConstruction then [.e0504] else [])

def heartbeatViolations (p : Plan) : Nat :=
  match p.backstop with
  | none => 0
  | some b => (b.triggers.filter fun t => match t with
      | .unlessHeartbeat deadline (some i) => deadline.seconds < i.seconds * 3
      | _ => false).length

inductive Shell where
  | posix | powershell
  deriving DecidableEq, Repr

def shellOf (os : String) : Shell := if os = "windows" then .powershell else .posix

def languageOf (h : HostRecord) : ArtifactLanguage :=
  h.artifact.getD (match shellOf h.os with
    | .posix => .sh
    | .powershell => .powershell)

def artifactSupported (os : String) : ArtifactLanguage → Bool
  | .sh => shellOf os = .posix
  | .powershell => shellOf os = .powershell
  | .python => true

/-! ## The check -/

def Undo.isNone : Undo → Bool
  | .noUndo => true
  | _ => false

def Refusal.isKnell : Refusal → Bool
  | .knell _ _ _ => true
  | _ => false

def Ack.isGate : Ack → Bool
  | .gate _ => true
  | _ => false

/-- Raise a diagnostic under a condition. -/
def flag (c : Bool) (code : Code) (n : Option Nat) : List Diagnostic := if c then [⟨code, n⟩] else []

theorem flag_eq_nil {c : Bool} {code : Code} {n : Option Nat} : flag c code n = [] ↔ c = false := by
  cases c <;> simp [flag]

/-- What a host cannot be: no record, or one with no filesystem. -/
def noFilesystem (site : Site) (p : Plan) (o : Op) : Bool :=
  match checkStepHost p o with
  | .ok h => match hostRecord site h with
      | some r => !r.filesystem
      | none => true
  | .error _ => false

/-- The step's host, where its executor cannot honor the stdin preamble. -/
def noPreamble (site : Site) (p : Plan) (o : Op) : Bool :=
  match o.locus with
  | .controller => false
  | _ => match checkStepHost p o with
      | .ok h => match hostRecord site h with
          | some r => !r.stdinPreamble
          | none => false
      | .error _ => false

/-- The per-op rules. -/
def opDiagnostics (site : Site) (p : Plan) (n : Nat) (o : Op) : List Diagnostic :=
  let at_ := some n
  let secretOutput := o.outputs.any Output.secret
  flag (o.undo.isNone != o.refusal.isKnell) .e0201 at_ ++
  flag (o.undoLocus = .target && unclosedUndo o) .e0202 at_ ++
  flag (o.undoLocus = .noLocus && !o.undo.isNone) .e0203 at_ ++
  flag (o.footprint.any (fun e => e.kind = .held) && (o.suspend.isNone || o.reestablish.isNone))
    .e0205 at_ ++
  flag (match o.undo with
    | .computed _ pre | .compensate _ pre => pre.isEmpty
    | _ => false) .e0207 at_ ++
  flag (!o.undoIdempotent) .e0208 at_ ++
  flag (o.undoLocus = .target && noFilesystem site p o) .e0407 at_ ++
  flag (!o.reach.isEmpty && o.effectiveDrift = some .defer) .e0410 at_ ++
  flag (secretOutput && site.secretsDeliverTo.isEmpty) .e0606 at_ ++
  flag (secretOutput && (o.reestablish.map fun r => r.any fun q => o.do_.contains q).getD false)
    .e0206 at_ ++
  flag (o.undoLocus = .target && ((undoBody o).map secretAnywhere).getD false) .e0210 at_ ++
  (bodies o).flatMap fun b =>
    flag (secretInRunString b) .e0209 at_ ++
    flag (noPreamble site p o && secretInChannel b) .e0211 at_

/-- The transport a step's host is reached by, where something reaches it. -/
def stepTransport (site : Site) (p : Plan) (o : Op) : Option String :=
  match o.locus with
  | .controller => selectedTransport site controllerReach
  | _ => match checkStepHost p o with
      | .ok h => (hostRecord site h).bind fun r => selectedTransport site r.reach
      | .error _ => none

def Prim.isHook : Prim → Bool
  | .hook _ _ => true
  | _ => false

def Prim.isRun : Prim → Bool
  | .run _ _ _ => true
  | _ => false

def hasFilePrefix (shape : String) : Bool := (Text.dropPrefix "file:".toList shape.toList).isSome

/-- E0608 and E0609: an action, or a computed undo's fact, that the host's
executor cannot perform or read. -/
def executorDiagnostics (site : Site) (p : Plan) (n : Nat) (o : Op) : List Diagnostic :=
  match stepTransport site p o with
  | none => []
  | some t =>
      if isHookTransport t then []
      else
        ((bodies o).filter fun b => b.any Prim.isHook).map fun _ => ⟨.e0608, some n⟩

def readDiagnostics (site : Site) (p : Plan) (n : Nat) (o : Op) : List Diagnostic :=
  match o.undo, stepTransport site p o with
  | .computed _ _, some t =>
      if isHookTransport t then []
      else
        (o.footprint.filter fun e =>
            (e.kind = .owned || e.kind = .modified) && !hasFilePrefix e.shape &&
            !p.probes.any fun d => match d.reads with
              | some pat => (bindShape pat e.shape).isSome
              | none => false).map fun _ => ⟨.e0609, some n⟩
  | _, _ => []

/-- E0608 for a probe that `local()` or `ssh()` would have to run and cannot. -/
def probeDiagnostics (site : Site) (p : Plan) : List Diagnostic :=
  let ownerReach := ((hostRecord site p.owner).map HostRecord.reach).getD []
  (firstByName (observedProbes p) []).flatMap fun q =>
    let decl := p.probes.find? fun d => d.name = q.2 || d.produces.contains q.2
    if (decl.map fun d => d.body.any Prim.isRun).getD false then []
    else
      let reach := match decl.map ProbeDecl.locus with
        | some .controller => controllerReach
        | _ => ownerReach
      match selectedTransport site reach with
      | none => []
      | some t => flag (!isHookTransport t) .e0608 q.1

/-- A step is deferred when its host is one the running engine cannot act on. -/
def deferredSteps (site : Site) (p : Plan) : List Nat :=
  let reachable (h : String) := match hostRecord site h with
    | none => false
    | some r => r.reach.any fun t => site.transports.contains t
  (numbered p.body).filterMap fun q =>
    match opOf q.2 with
    | none => none
    | some o =>
        match checkStepHost p o with
        | .error _ => some q.1
        | .ok h => if h ≠ p.owner && !reachable h then some q.1 else none

/-- Whether a leaf can wait: an assert, a gate, a knell's ack or unknown guard. -/
def canWaitAt : Item → Bool
  | .assert _ _ _ | .when_ _ _ _ _ _ => true
  | it => match stepOf it with
      | none => false
      | some s => s.gate.isSome || match s.op.refusal with
          | .knell _ _ (.gate _) => true
          | .knell (some g) _ _ => g.value = .unknown
          | _ => false

def lapseHold : Item → Bool
  | .assert _ _ onLapse => onLapse = .hold
  | .when_ _ _ onLapse _ _ => onLapse = .hold
  | it => match stepOf it with
      | some s => s.onLapse = .hold
      | none => false

def unboundedWait (site : Site) : Item → Bool
  | .assert _ window _ => window.isNone && site.maxWait.isNone
  | .when_ _ window _ _ _ => window.isNone && site.maxWait.isNone
  | it => match stepOf it with
      | some s => s.window.isNone && site.maxWait.isNone
      | none => false

def Item.isKnell : Item → Bool
  | .knell _ => true
  | _ => false

/-- Pending's bound is its approval window. -/
def pendingUnbounded (site : Site) (p : Plan) : List Diagnostic :=
  match p.gate with
  | some pg => flag (pg.window.isNone && site.maxWait.isNone) .e0506 none
  | none => []

/-- Waits and bounds. -/
def boundDiagnostics (site : Site) (p : Plan) : List Diagnostic :=
  let steps := numbered p.body
  match inferIntent p with
  | some .temporary =>
      let canWait := steps.any fun q => canWaitAt q.2
      -- a `:hold` step in some segment between knells, or a wait that lapses into a hold
      let canHold := steps.any fun q =>
        lapseHold q.2 || (!q.2.isKnell && ((opOf q.2).map fun o => o.refusal.isHold).getD false)
      if (effectiveWane p).isNone && (canWait || canHold || !(deferredSteps site p).isEmpty) then
        [⟨.e0506, none⟩]
      else pendingUnbounded site p
  | some .permanent =>
      (steps.filter fun q => canWaitAt q.2 && unboundedWait site q.2).map
        (fun q => ⟨.e0506, some q.1⟩) ++ pendingUnbounded site p
  | none => []

def gateChecks (site : Site) (requester : String) (p : Plan) (n : Option Nat) (g : GateExpr)
    (allowZero : Bool) : List Diagnostic :=
  let auths := site.authenticators
  let r := gateReport auths g
  flag (!(unknownAuthenticators auths g).isEmpty) .e0508 n ++
  flag (!r.satisfiable) .e0508 n ++
  flag (countsRequester auths requester g) .e0508 n ++
  flag (r.zeroHumanPath && (!allowZero || p.mode = .auto)) .e0509 n ++
  flag (n.isSome && p.mode = .auto && !r.zeroHumanPath) .e0507 n

def gateDiagnostics (site : Site) (requester : String) (p : Plan) : List Diagnostic :=
  let steps := numbered p.body
  (match p.gate with
    | some pg => gateChecks site requester p none pg.expr pg.allowZeroHuman
    | none => []) ++
  (steps.flatMap fun q => match (stepOf q.2).bind StepI.gate with
    | some g => gateChecks site requester p (some q.1) g false
    | none => []) ++
  (if site.approval.isNone then
    flag p.gate.isSome .e0611 none ++
    steps.flatMap fun q =>
      let gated := ((stepOf q.2).map fun s => s.gate.isSome).getD false
      let acked := match (opOf q.2).map Op.refusal with
        | some (.knell _ _ ack) => ack.isGate
        | _ => false
      flag (gated || acked) .e0611 (some q.1)
  else []) ++
  (steps.flatMap fun q => match (opOf q.2).map Op.refusal with
    | some (.knell _ _ (.gate g)) =>
        flag (p.mode = .auto) .e0507 (some q.1) ++
        flag (!(unknownAuthenticators site.authenticators g).isEmpty) .e0508 (some q.1) ++
        flag (!(gateReport site.authenticators g).satisfiable) .e0508 (some q.1)
    | _ => [])

def interferenceDiagnostics (p : Plan) : List Diagnostic :=
  let dups := anchorDuplicates p.owner p.body
  let par := parViolations p.owner p.body
  ((conflict p.owner p.body).filter fun c => !dups.contains c).map
    (fun c => ⟨.e0301, some c.later⟩) ++
  (if p.strictness = .strict then
    (mayConflict p.owner p.body).map fun c => ⟨.e0302, some c.later⟩ else []) ++
  par.1.map (fun q => ⟨.e0303, some q.2⟩) ++
  par.2.map (fun n => ⟨.e0304, some n⟩) ++
  dups.map fun c => ⟨.e0305, some c.later⟩

/-- The diagnostics of a plan, in generation order. -/
def check (site : Site) (requester : String) (p : Plan) : List Diagnostic :=
  let steps := numbered p.body
  let stepOps := steps.filterMap fun q => (opOf q.2).map fun o => (q.1, o)
  let intent := inferIntent p
  stepOps.flatMap (fun q => opDiagnostics site p q.1 q.2) ++
  stepOps.flatMap (fun q => executorDiagnostics site p q.1 q.2) ++
  stepOps.flatMap (fun q => readDiagnostics site p q.1 q.2) ++
  probeDiagnostics site p ++
  flag (p.mode = .auto && steps.any fun q =>
    ((stepOf q.2).map fun s => !s.force.isEmpty).getD false) .e0404 none ++
  flag (p.backstop.isSome && !site.schedulerPresent.contains p.owner) .e0403 none ++
  flag (((coverage p).map fun c => !c.covered.isEmpty).getD false &&
    match hostRecord site p.owner with
    | some h => !artifactSupported h.os (languageOf h)
    | none => false) .e0403 none ++
  interferenceDiagnostics p ++
  (reachViolations p).map (fun n => ⟨.e0401, some n⟩) ++
  List.replicate (heartbeatViolations p) ⟨.e0405, none⟩ ++
  (match intent with
    | some i => (triggerViolations i p).map fun c => ⟨c, none⟩
    | none => []) ++
  flag intent.isNone .e0501 none ++
  flag (commitNotLast p.body) .e0502 none ++
  flag (intent = some .permanent && 0 < pathsWithoutCommit p.body) .e0505 none ++
  boundDiagnostics site p ++
  gateDiagnostics site requester p

/-- A plan the check passes. -/
def checkClean (ir : PlanIr) : Bool := (check ir.site ir.requester ir.plan).isEmpty

/-- No rule is broken by a step's op. -/
theorem opDiagnostics_of_checkClean {ir : PlanIr} (h : checkClean ir = true) {n : Nat} {it : Item}
    {o : Op} (hm : (n, it) ∈ numbered ir.plan.body) (ho : opOf it = some o) :
    opDiagnostics ir.site ir.plan n o = [] := by
  rw [checkClean, List.isEmpty_iff] at h
  delta check at h
  simp only [List.append_eq_nil_iff,
    List.flatMap_eq_nil_iff] at h
  exact h.1.1.1.1.1.1.1.1.1.1.1.1.1.1.1 (n, o)
    (List.mem_filterMap.mpr ⟨(n, it), hm, by rw [ho]; rfl⟩)

/-- No step's body asks its executor for what it cannot perform. -/
theorem executorDiagnostics_of_checkClean {ir : PlanIr} (h : checkClean ir = true) {n : Nat}
    {it : Item} {o : Op} (hm : (n, it) ∈ numbered ir.plan.body) (ho : opOf it = some o) :
    executorDiagnostics ir.site ir.plan n o = [] := by
  rw [checkClean, List.isEmpty_iff] at h
  delta check at h
  simp only [List.append_eq_nil_iff,
    List.flatMap_eq_nil_iff] at h
  exact h.1.1.1.1.1.1.1.1.1.1.1.1.1.1.2 (n, o)
    (List.mem_filterMap.mpr ⟨(n, it), hm, by rw [ho]; rfl⟩)

/-- No probe is asked of an executor that cannot answer it. -/
theorem probeDiagnostics_of_checkClean {ir : PlanIr} (h : checkClean ir = true) :
    probeDiagnostics ir.site ir.plan = [] := by
  rw [checkClean, List.isEmpty_iff] at h
  delta check at h
  simp only [List.append_eq_nil_iff] at h
  exact h.1.1.1.1.1.1.1.1.1.1.1.1.2

/-- With a step to cover, the owner's record names a language with a template. -/
theorem artifactSupported_of_checkClean {ir : PlanIr} (h : checkClean ir = true) {c : Coverage}
    (hc : coverage ir.plan = some c) (hne : c.covered ≠ []) {r : HostRecord}
    (hr : hostRecord ir.site ir.plan.owner = some r) :
    artifactSupported r.os (languageOf r) = true := by
  rw [checkClean, List.isEmpty_iff] at h
  delta check at h
  simp only [List.append_eq_nil_iff, flag_eq_nil] at h
  have ht := h.1.1.1.1.1.1.1.1.1.2
  simpa [hc, hr, hne] using ht

/-- No gate is unsatisfiable, unbound or its requester's own. -/
theorem gateDiagnostics_of_checkClean {ir : PlanIr} (h : checkClean ir = true) :
    gateDiagnostics ir.site ir.requester ir.plan = [] := by
  rw [checkClean, List.isEmpty_iff] at h
  delta check at h
  simp only [List.append_eq_nil_iff] at h
  exact h.2

end Rescind
