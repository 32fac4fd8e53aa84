/-
# `Rescind.Render.Artifact` — the artifact of a backstop

The undo of each covered step as actions, with every value resolved from the
bindings, and a template of the host's language around them.  A template is its
own text around quoted values, and all it can refuse is a value its language
does not spell; so an artifact is kept here as what the template is rendered
from and the quotations at its holes, in the template's order.

    every covered step is a step                            (`coveredOps_fst`)
-/
import Rescind.Render.Command
import Rescind.Core.Check

namespace Rescind

/-- The primitive's name as the surface spells it. -/
def Prim.name : Prim → String
  | .run _ _ _ => "run"
  | .write _ _ => "write"
  | .remove _ => "remove"
  | .append _ _ => "append"
  | .regionSet _ _ => "region_set"
  | .regionClear _ => "region_clear"
  | .stage _ _ _ => "stage"
  | .hook _ _ => "hook"
  | .install _ => "install"
  | .release _ => "release"
  | .call _ _ _ => "call"

namespace Render

open Lib

/-! ## Where an artifact lives -/

/-- Where the artifact lives on the target; no root is the family's default. -/
structure Instance where
  id : String
  rescindRoot : Option String
  deriving DecidableEq, Repr

def defaultRoot : Shell → String
  | .posix => "/var/db/rescind"
  | .powershell => "C:\\ProgramData\\rescind"

def Instance.root (inst : Instance) (shell : Shell) : String :=
  inst.rescindRoot.getD (defaultRoot shell)

/-! ## Actions -/

/-- A file fact of a step: the path its shape names and the index of its
snapshot. -/
structure FileFact where
  kind : Kind
  path : String
  anchor : Option String
  k : Nat
  observed : kind.observed = true
  deriving DecidableEq, Repr

/-- One thing the artifact does when it undoes a step. -/
inductive Action where
  | remove (path : String)
  | stripRegion (path anchor : String) (k : Nat)
  | restoreSnapshot (path : String) (k : Nat)
  | run (command : String)
  | write (path content : String)
  | append (path line : String)
  | regionSet (path anchor content : String)
  | regionClear (path anchor : String)
  deriving DecidableEq, Repr

/-- A covered step, ready for a template. -/
structure Step where
  n : Nat
  id : String
  drift : Drift
  files : List FileFact
  actions : List Action
  deriving DecidableEq, Repr

/-- A footprint entry as a file fact, when it is a static `file:` shape of a kind
the artifact observes. -/
def fileFact (k : Nat) (e : FootprintEntry) : Option FileFact :=
  match filePath e.shape with
  | some path =>
      if h : e.kind.observed = true ∧ runtimeBound path = false then
        some ⟨e.kind, path, e.anchor, k, h.1⟩
      else none
  | none => none

def fileFactsOf (fp : Footprint) : List FileFact := fp.zipIdx.filterMap fun q => fileFact q.2 q.1

/-- A value as text, with no quoting: it is baked as a whole. -/
def textParts (step : Nat) (host : HostRecord) (b : Bindings) :
    Template → Except RenderError String
  | [] => .ok ""
  | .lit s :: parts => do
      let rest ← textParts step host b parts
      pure (s ++ rest)
  | .ref r :: parts => do
      let v ← resolve step r host b
      let rest ← textParts step host b parts
      pure (v ++ rest)

def textOf (step : Nat) (v : Value) (host : HostRecord) (b : Bindings) :
    Except RenderError String :=
  match v with
  | .lit s => .ok s
  | .ref r => resolve step r host b
  | .template parts => textParts step host b parts

def staticPath (step : Nat) (f : FactRef) : Except RenderError String :=
  match filePath f.shape with
  | some path => if runtimeBound path then .error (.unobservable step f.shape) else .ok path
  | none => .error (.unobservable step f.shape)

def anchorOf (step : Nat) (f : FactRef) : Except RenderError String :=
  match f.anchor with
  | some a => .ok a
  | none => .error (.notBakeable step ("region primitive on " ++ f.shape ++ " without an anchor"))

/-- What a restore does about one of its files. -/
def restoreAction (step : Nat) (f : FileFact) : Except RenderError Action :=
  match f.kind, f.observed with
  | .owned, _ => .ok (.remove f.path)
  | .region, _ =>
      match f.anchor with
      | some a => .ok (.stripRegion f.path a f.k)
      | none => .error (.notBakeable step ("region " ++ f.path ++ " without an anchor"))
  | .modified, _ => .ok (.restoreSnapshot f.path f.k)

/-- An entry a restore would have to act on and cannot: no file of the step has
its path. -/
def unobserved (files : List FileFact) (e : FootprintEntry) : Bool :=
  e.kind.observed && !files.any fun f => some f.path = filePath e.shape

def restoreActions (step : Nat) (fp : Footprint) (files : List FileFact) :
    Except RenderError (List Action) :=
  match fp.find? (unobserved files) with
  | some e => .error (.unobservable step e.shape)
  | none => do
      let actions ← files.mapM (restoreAction step)
      match fp.find? fun e => e.kind = .held with
      | some e => .error (.notBakeable step ("held " ++ e.shape ++ " (release is controller work)"))
      | none => pure actions

/-- What a primitive of a computed or compensating undo becomes. -/
def primAction (step : Nat) (shell : Shell) (host : HostRecord) (b : Bindings) :
    Prim → Except RenderError Action
  | .run cmd env stdin =>
      if !env.isEmpty || stdin.isSome then
        .error (.notBakeable step "run with env: or stdin: (the preamble is engine work)")
      else do
        let command ← runText step cmd shell host b
        pure (.run command)
  | .call prim cmd args =>
      if args.any fun a => a.cls = .controller then
        .error (.notBakeable step ("call " ++ prim ++ " with a controller-class argument"))
      else do
        let command ← runText step cmd shell host b
        pure (.run command)
  | .write fact content => do
      let path ← staticPath step fact
      let content ← textOf step content host b
      pure (.write path content)
  | .remove fact => do
      let path ← staticPath step fact
      pure (.remove path)
  | .append fact line => do
      let path ← staticPath step fact
      let line ← textOf step line host b
      pure (.append path line)
  | .regionSet fact content => do
      let path ← staticPath step fact
      let anchor ← anchorOf step fact
      let content ← textOf step content host b
      pure (.regionSet path anchor content)
  | .regionClear fact => do
      let path ← staticPath step fact
      let anchor ← anchorOf step fact
      pure (.regionClear path anchor)
  | .stage name content mode =>
      .error (.notBakeable step ((Prim.stage name content mode).name ++ " is a controller primitive"))
  | .hook name args =>
      .error (.notBakeable step ((Prim.hook name args).name ++ " is a controller primitive"))
  | .install name =>
      .error (.notBakeable step ((Prim.install name).name ++ " is a controller primitive"))
  | .release name =>
      .error (.notBakeable step ((Prim.release name).name ++ " is a controller primitive"))

def undoActions (step : Nat) (o : Op) (shell : Shell) (host : HostRecord) (b : Bindings) :
    Except RenderError (List Action) :=
  match o.undo with
  | .noUndo => .ok []
  | .restore => restoreActions step o.footprint (fileFactsOf o.footprint)
  | .computed body _ | .compensate body _ => body.mapM (primAction step shell host b)

/-- The actions of a covered step. -/
def stepActions (n : Nat) (o : Op) (shell : Shell) (host : HostRecord) (b : Bindings) :
    Except RenderError Step := do
  let actions ← undoActions n o shell host b
  pure ⟨n, o.id, o.effectiveDrift.getD .clobber, fileFactsOf o.footprint, actions⟩

/-! ## Templates -/

/-- Everything a template needs. -/
structure Context where
  plan : String
  host : HostRecord
  inst : Instance
  /-- A deadline file is compared when any `after:` or `unless_confirmed:`
  trigger is declared. -/
  deadline : Bool
  heartbeatS : Option Nat
  /-- Covered steps in reverse order: the artifact's undo order. -/
  steps : List Step
  deriving DecidableEq, Repr

namespace Context

def shell (c : Context) : Shell := shellOf c.host.os

def language (c : Context) : ArtifactLanguage := languageOf c.host

def root (c : Context) : String := c.inst.root c.shell

/-- The instance directory as the sh template spells it. -/
def dir (c : Context) : String := c.root ++ "/instances/" ++ c.inst.id

end Context

/-- The values a template quotes of an action, in its order.  Only sh spells the
snapshot's path; it puts what it writes before where. -/
def Action.holes (lang : ArtifactLanguage) (dir : String) (n : Nat) : Action → List String
  | .remove path => [path]
  | .stripRegion path anchor k =>
      match lang with
      | .sh => [path, dir ++ "/snapshots/" ++ toString n ++ "/" ++ toString k, anchor]
      | .powershell | .python => [path, anchor]
  | .restoreSnapshot path k =>
      match lang with
      | .sh => [dir ++ "/snapshots/" ++ toString n ++ "/" ++ toString k, path]
      | .powershell | .python => [path]
  | .run command => [command]
  | .write path content =>
      match lang with
      | .sh => [content, path]
      | .powershell | .python => [path, content]
  | .append path line =>
      match lang with
      | .sh => [line, path]
      | .powershell | .python => [path, line]
  | .regionSet path anchor content => [path, anchor, content]
  | .regionClear path anchor => [path, anchor]

/-- A step's: the files its drift check compares, which a region's is not one of,
then its actions. -/
def Step.holes (lang : ArtifactLanguage) (dir : String) (s : Step) : List String :=
  ((s.files.filter fun f => f.kind ≠ .region).map FileFact.path) ++
    s.actions.flatMap (Action.holes lang dir s.n)

/-- Every value a template quotes, with the step it is refused at. -/
def Context.holes (c : Context) : List (Nat × String) :=
  [(0, c.root), (0, match c.language with
    | .sh => c.dir
    | .powershell | .python => c.inst.id)] ++
  c.steps.flatMap fun s => (s.holes c.language c.dir).map fun v => (s.n, v)

def languageFamily : ArtifactLanguage → Family
  | .sh => .posix
  | .powershell => .powershell
  | .python => .python

def fileName : ArtifactLanguage → String
  | .sh => "artifact.sh"
  | .powershell => "artifact.ps1"
  | .python => "artifact.py"

/-- The rendered artifact: its text is the template of its language around the
quotations. -/
structure Artifact where
  context : Context
  fileName : String
  quotations : List String
  deriving DecidableEq, Repr

def template (c : Context) : Except RenderError Artifact := do
  let quotations ← c.holes.mapM fun q => bake (languageFamily c.language) q.1 q.2
  pure ⟨c, Render.fileName c.language, quotations⟩

/-! ## Rendering -/

/-- The covered steps with their ops. -/
def coveredOps (p : Plan) : List (Nat × Op) :=
  (targetUndoSteps p.body).filterMap fun n => ((leafAt p.body n).bind opOf).map fun o => (n, o)

def usesDeadline : Trigger → Bool
  | .after _ | .unlessConfirmed _ => true
  | .unlessHeartbeat _ _ => false

def heartbeatOf : Trigger → Option Nat
  | .unlessHeartbeat deadline _ => some deadline.seconds
  | .after _ | .unlessConfirmed _ => none

/-- Render the artifact for a host's record, or say why not. -/
def render (site : Site) (p : Plan) (host : String) (inst : Instance) (b : Bindings) :
    Except RenderError Artifact :=
  match p.backstop, coverage p with
  | some bs, some cov =>
      if cov.covered.isEmpty then .error .notTarget
      else
        match hostRecord site host with
        | none => .error (.unknownHost host)
        | some h =>
            if artifactSupported h.os (languageOf h) then do
              let steps ← (coveredOps p).reverse.mapM fun q => stepActions q.1 q.2 (shellOf h.os) h b
              template ⟨p.id, h, inst, bs.triggers.any usesDeadline,
                bs.triggers.findSome? heartbeatOf, steps⟩
            else .error (.unsupported h.os (languageOf h))
  | _, _ => .error .noBackstop

/-- The engine's render, for an instance on its host. -/
def renderArtifact (ir : PlanIr) (params : Vars) (host : Host) (id : String) :
    Except RenderError Artifact :=
  render ir.site ir.plan host.name ⟨id, host.rescindRoot⟩ (bindings params host)

/-- No covered step is left out: each is a step of the plan. -/
theorem coveredOps_fst (p : Plan) : (coveredOps p).map Prod.fst = targetUndoSteps p.body := by
  have hall : ∀ n ∈ targetUndoSteps p.body, ((leafAt p.body n).bind opOf).isSome = true :=
    fun n hn => op_of_targetUndo hn
  unfold coveredOps
  generalize targetUndoSteps p.body = ns at hall
  induction ns with
  | nil => rfl
  | cons n ns ih =>
      obtain ⟨o, ho⟩ := Option.isSome_iff_exists.mp (hall n List.mem_cons_self)
      rw [List.filterMap_cons_some (by rw [ho]; rfl), List.map_cons,
        ih fun m hm => hall m (List.mem_cons_of_mem _ hm)]

end Render

end Rescind
