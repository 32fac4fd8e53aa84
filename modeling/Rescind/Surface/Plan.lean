/-
# `Rescind.Surface.Plan` — a plan's options and its probes

The keyword lines of a plan are its options, each read where it stands.  Every probe
its file and the files it imports declare goes with it, under its bare name.
-/
import Rescind.Surface.Expand

namespace Rescind.Expand

open Ast Static
open Lib (Assoc Said)

namespace Context

variable {n : Nat} (C : Context n)

/-! ## Options -/

/-- A backstop's triggers: an interval belongs to the last heartbeat before it. -/
def triggers : List Trigger → Option Nat → List Arg → List Trigger
  | ts, _, [] => ts
  | ts, pending, .kw k :: as =>
      match durationOf k.value with
      | none => triggers ts pending as
      | some d =>
          match k.name with
          | "after" => triggers (ts ++ [.after d]) pending as
          | "unless_confirmed" => triggers (ts ++ [.unlessConfirmed d]) pending as
          | "unless_heartbeat" =>
              triggers (ts ++ [.unlessHeartbeat d none]) (some ts.length) as
          | "interval" =>
              triggers (pending.elim ts fun i => ts.modify i fun
                | .unlessHeartbeat deadline _ => .unlessHeartbeat deadline (some d)
                | t => t) pending as
          | _ => triggers ts pending as
  | ts, pending, .expr _ :: as => triggers ts pending as

def backstop (args : List Arg) : Backstop :=
  ⟨match kwv args "trigger" with
    | some (.expr (.list _ items)) => triggers [] none items
    | _ => [],
    match kwv args "arm_before" with
    | some (.expr (.lit _ (.int k))) => C.narrow k
    | _ => 1⟩

def planGate (depth : Nat) (m : Fin n) (args : List Arg) : Told (Option PlanGate) :=
  match args.head? with
  | some (.expr e) => do
      let g ← C.gate depth m [] e
      pure (g.map fun g =>
        ⟨g, kwDuration args "window", (kwBool args "allow_zero_human").getD false⟩)
  | _ => pure none

/-- What an option does to the plan. -/
def planLine (depth : Nat) (m : Fin n) (l : Line) : Told (Plan → Plan) :=
  match l.keyword with
  | "gate" => (fun g p => g.elim p fun g => { p with gate := some g }) <$> C.planGate depth m l.args
  | "wane" => do
      if (firstDuration l.args).isNone then
        C.report m l.range .e0107 "wane expects a duration (4h, 30m)"
      pure fun p => { p with
        wane := firstDuration l.args
        renewWithin := kwDuration l.args "renew_within" }
  | "backstop" => pure fun p => { p with backstop := some (C.backstop l.args) }
  | "mode" => pure fun p => (firstAtom l.args).elim p fun a =>
      { p with mode := if a = "auto" then .auto else .manual }
  | "strictness" => pure fun p => (firstAtom l.args).elim p fun a =>
      { p with strictness := if a = "warn" then .warn else .strict }
  | "exclusivity" => pure fun p => { p with exclusivity := firstAtom l.args }
  | "fires_by_construction" => pure fun p =>
      { p with firesByConstruction := (firstBool l.args).getD false }
  | "require" => pure fun p => ((kwv l.args "journal").bind atomOf).elim p fun a =>
      { p with requireJournal := some (if a = "signed" then .signed else .chained) }
  | _ => pure id

def planLines (depth : Nat) (m : Fin n) : List Line → Plan → Told Plan
  | [], p => pure p
  | l :: ls, p => do
      let f ← C.planLine depth m l
      planLines depth m ls (f p)

/-! ## Probes -/

/-- Declared for the controller. -/
def onController (l : Line) : Bool :=
  l.keyword = "locus" && l.args.any fun a => atomOf a = some "controller"

def isController (p : Def) : Bool := (lines p.body).any onController

/-- The facts a `produces` line names. -/
def produced (l : Line) : List String :=
  if l.keyword = "produces" then l.args.filterMap fun
    | .expr (.ref _ path) => some (dotted path)
    | _ => none
  else []

def orInsert (m : Assoc String Bool) (k : String) (v : Bool) : Assoc String Bool :=
  if m.contains k then m else m.insert k v

/-- The facts a file's probes produce, with where each is. -/
def fileProbes (m : Fin n) (acc : Assoc String Bool) : Assoc String Bool :=
  (C.defs m "defprobe").foldl (fun acc p =>
    orInsert (((lines p.2.body).flatMap produced).foldl
      (fun acc f => acc.insert f (isController p.2)) acc) p.2.name (isController p.2)) acc

/-- What a plan's file and the files it names see of probes. -/
def planProbes (m : Fin n) : Assoc String Bool :=
  (C.program m).imports.foldl (fun acc i =>
    (C.defs i.2 "defprobe").foldl (fun acc p =>
      orInsert acc (i.1 ++ "." ++ p.2.name) (isController p.2)) acc) (C.fileProbes m [])

/-- The names a fact shape binds: what is in its braces. -/
def boundNames : List Char → Option (List Char) → List String
  | [], _ => []
  | c :: cs, none => if c = '\x7b' then boundNames cs (some []) else boundNames cs none
  | c :: cs, some name =>
      if c = '\x7d' then String.ofList name :: boundNames cs none
      else boundNames cs (some (name ++ [c]))

/-- A probe's definition, by its file and its place there. -/
abbrev Place (n : Nat) := Fin n × Nat × Def

/-- The probes of a file and of the files it imports, each once under its bare name. -/
def probeDefs : List (Place n) → List (Place n) → Told (List (Place n))
  | seen, [] => pure seen
  | seen, d :: ds =>
      match seen.find? fun d' => d'.2.2.name = d.2.2.name with
      | none => probeDefs (seen ++ [d]) ds
      | some d' => do
          if ¬(d'.1 = d.1 ∧ d'.2.1 = d.2.1) then
            C.report d.1 d.2.2.nameRange .e0103 ("probe " ++ d.2.2.name ++ " is also defined in " ++
              (C.program d'.1).path ++
              "; the engine finds a probe by its name, so the two would be indistinguishable")
          probeDefs seen ds

/-- A `reads` line: one fact shape, once. -/
def readsLine (cx : OpCx n) (reads : Option String) (l : Line) : Told (Option String) :=
  match l.args, reads with
  | [.expr (.call range path args)], none => do
      let s ← C.shape cx false (.expr (.call range path args))
      pure (s.map Prod.fst)
  | _, some r => do
      C.report cx.module l.range .e0101 "a probe reads one fact shape"
      pure (some r)
  | _, none => do
      C.report cx.module l.range .e0101
        "`reads` names one fact shape with its instance, as `guest.state(g)`"
      pure none

def readsLines (cx : OpCx n) : Option String → List Line → Told (Option String)
  | reads, [] => pure reads
  | reads, l :: ls =>
      if l.keyword = "reads" then do
        let reads ← C.readsLine cx reads l
        readsLines cx reads ls
      else readsLines cx reads ls

/-- What a line of a probe does to its declaration. -/
def probeLine (cx : OpCx n) (l : Line) : Told (ProbeDecl → ProbeDecl) :=
  match l.keyword with
  | "run" =>
      match l.args.head? with
      | some (.expr (.lit _ (.str raw))) => do
          let cmd ← C.template cx raw
          pure fun d => { d with body := d.body ++ [.run cmd [] none] }
      | _ => pure id
  | "locus" => pure fun d => if onController l then { d with locus := .controller } else d
  | "produces" => pure fun d => { d with produces := d.produces ++ produced l }
  | "static" => pure fun d => { d with static_ := l.args.any fun a => boolOf a = some true }
  | _ => pure id

def probeLines (cx : OpCx n) : List Line → ProbeDecl → Told ProbeDecl
  | [], d => pure d
  | l :: ls, d => do
      let f ← C.probeLine cx l
      probeLines cx ls (f d)

def probeDecl (scope : Scope) (d : Place n) : Told ProbeDecl := do
  let reads ← C.readsLines ⟨d.1, d.2.2, [], scope⟩ none (lines d.2.2.body)
  let bound := reads.elim [] fun r => boundNames r.toList none
  C.probeLines ⟨d.1, d.2.2, [], { scope with loopVars := scope.loopVars ++ bound }⟩
    (lines d.2.2.body) ⟨d.2.2.name, .target, [], [], false, reads⟩

/-- Every probe the plan's file and its imports declare. -/
def probesOf (m : Fin n) (scope : Scope) : Told (List ProbeDecl) := do
  let sources := m :: (C.program m).imports.map Prod.snd ++ (C.program m).open_
  let places := sources.flatMap fun i =>
    ((C.program i).defs.zipIdx.filter fun d => d.1.keyword = "defprobe").map fun d => (i, d.2, d.1)
  let ds ← C.probeDefs [] places
  Said.collect (fun d => do
    let p ← C.probeDecl scope d
    pure [p]) ds

/-! ## The plan -/

/-- A plan's clause for a host. -/
def expandPlan (depth : Nat) (clauses : List (Fin n × Def)) (name : String) (m : Fin n) (at_ : Range)
    (owner : Contract) : Told (Option Plan) := do
  C.checkDuplicates clauses
  match ← C.dispatch clauses owner ("plan " ++ name) m at_ with
  | none => pure none
  | some d => do
      let scope : Scope := { probes := C.planProbes d.1 }
      let p ← C.planLines depth d.1 (lines d.2.body)
        { id := d.2.name, owner := owner.name, body := [] }
      let probes ← C.probesOf d.1 scope
      let items ← C.expandItems depth d.1 owner depth d.2.body scope
      let filled ← C.fillSlots d.1 owner (C.expandItems depth d.1 owner depth) items.2 items.1
      pure (some { p with probes := probes, body := filled.1 })

end Context

end Rescind.Expand
