/-
# `Rescind.Surface.Op` — an op as its definition reads at a call

The lines of an op are taken one after the other, each for what it does to the op.
A gate may name a parameter that is bound to a gate, and nothing keeps that from
naming itself: the expansion is given a depth, and comes to no end in one that is too
small.
-/
import Rescind.Surface.Body

namespace Rescind.Expand

open Ast Static
open Lib (Assoc Said)

namespace Context

variable {n : Nat} (C : Context n)

/-! ## Gates -/

/-- A number in 32 bits, or one. -/
def word32 (k : Option Nat) : Nat := C.narrow (k.getD 1)

def weight (args : List Arg) : Nat := C.word32 ((kwv args "weight").bind intOf)

def exprs (args : List Arg) : List Expr :=
  args.filterMap fun
    | .expr e => some e
    | .kw _ => none

/-- A gate's expression. -/
def gate : Nat → Fin n → Bindings → Expr → Told (Option GateExpr)
  | 0, _, _, _ => ⟨none⟩
  | depth + 1, m, bindings, .call range path args =>
      match dotted path with
      | "auth" => pure (some (.single (.auth
          (((exprs args).findSome? fun x => atomOf (.expr x)).getD "") (C.weight args))))
      | "humans" => pure (some (.single (.humans (C.weight args))))
      | "wait" => pure (some (.single (.wait ((args.findSome? durationOf).getD ⟨0⟩) (C.weight args))))
      | "group" => do
          match ← Said.first (gate depth m bindings) (exprs args) with
          | some inner => pure (some (.single (.group inner (C.weight args))))
          | none => pure none
      | "thresh" => do
          let factors ← Said.collect (fun x => do
            match ← gate depth m bindings x with
            | some (.single f) => pure [f]
            | _ =>
                match ← gate depth m bindings x with
                | some g => pure [Factor.group g 1]
                | none => pure []) (exprs (args.drop 1))
          pure (some (.thresh (C.word32 (args.head?.bind intOf)) factors))
      | other => do
          C.report m range .e0102 ("unknown gate factor " ++ other)
          pure none
  | depth + 1, m, bindings, .ref _ [x] =>
      match bindings.get x with
      | some (.literal (.call p a) _) => gate depth m bindings (.call ⟨0, 0⟩ p a)
      | _ => pure none
  | _ + 1, _, _, _ => pure none

variable (depth : Nat) (cx : OpCx n)

/-! ## Refusals -/

def humansAck : Ack := .gate (.single (.humans 1))

def gateAck (g : Option GateExpr) : Ack := g.elim (.noAck "") Ack.gate

/-- The reason a call binds beside its ack. -/
def boundReason (bindings : Bindings) : String :=
  match bindings.get "reason" with
  | some (.literal (.str s) _) => s
  | _ => ""

/-- The reason among an ack's siblings. -/
def reason (args : List Arg) : String := ((kwv args "reason").bind strOf).getD ""

/-- An ack that is a name: what the call bound it to. -/
def boundAck : Bound → Told Ack
  | .literal (.atom a) _ =>
      pure (if a = "none" then .noAck (boundReason cx.bindings) else humansAck)
  | .literal (.call p a) _ => gateAck <$> C.gate depth cx.module cx.bindings (.call ⟨0, 0⟩ p a)
  | _ => pure humansAck

/-- An ack: a gate, `:none` with a reason, or a parameter bound to either. -/
def ackOf (siblings : List Arg) : Arg → Told Ack
  | .kw _ => pure (.noAck "")
  | .expr e =>
      if atomOf (.expr e) = some "none" then pure (.noAck (reason siblings))
      else
        match e with
        | .ref _ [x] =>
            match cx.bindings.get x with
            | some b => C.boundAck depth cx b
            | none => gateAck <$> C.gate depth cx.module cx.bindings e
        | _ => gateAck <$> C.gate depth cx.module cx.bindings e

def knellGuard : Arg → Told Guard
  | .expr (.ref _ path) => pure ⟨dotted path, .yes, false⟩
  | a => do
      let text ← Said.ofOption (C.src cx.module a.range)
      pure ⟨text, .yes, false⟩

def noCost (args : List Arg) : Told Cost := do
  C.report cx.module ((args.head?.map Arg.range).getD ⟨0, 0⟩) .e0204
    ("knell " ++ cx.def_.name ++ " needs cost: a probe or :none with a reason")
  pure (.noCost "")

def cost (args : List Arg) : Told Cost :=
  match kwv args "cost" with
  | some (.expr (.call _ path _)) => pure (.probe (dotted path))
  | some a =>
      if atomOf a = some "none" then pure (.noCost (reason args)) else C.noCost cx args
  | none => C.noCost cx args

def knell (args : List Arg) : Told Refusal := do
  let guard ← optional (C.knellGuard cx) (kwv args "guard")
  let cost ← C.cost cx args
  let ack ← match kwv args "ack" with
    | none => pure humansAck
    | some v => C.ackOf depth cx args v
  pure (.knell guard cost ack)

def refusal (args : List Arg) : Told Refusal :=
  match args.head? with
  | some (.expr (.lit _ (.atom a))) =>
      pure (if a = "hold" then .hold ((kwv args "via").bind atomOf) else .revert)
  | some (.expr (.ref _ path)) =>
      if path = ["knell"] then C.knell depth cx args else pure .revert
  | _ => pure .revert

/-! ## The lines -/

def guards (args : List Arg) : Told (List Guard) :=
  Said.collect (fun e => do
    match e with
    | .ref _ path => pure [⟨dotted path, .yes, false⟩]
    | .call _ path _ => pure [⟨dotted path, .yes, false⟩]
    | e => do
        let text ← Said.ofOption (C.src cx.module e.range)
        pure [⟨text, .yes, false⟩]) (exprs args)

def footprintKind : String → Option Rescind.Kind
  | "owned" => some .owned
  | "region" => some .region
  | "modified" => some .modified
  | "derived" => some .derived
  | "append_only" => some .appendOnly
  | "held" => some .held
  | _ => none

def footprint (args : List Arg) : Told Footprint :=
  Said.collect (fun k => do
    match footprintKind k.name with
    | none => do
        C.report cx.module k.range .e0101 ("unknown footprint kind " ++ k.name)
        pure []
    | some kind => do
        let s ← C.shape cx (decide (kind = .derived)) k.value
        pure (s.toList.map fun p => ⟨kind, p.1, none, p.2⟩)) (kws args)

def reach (args : List Arg) : List String :=
  args.filterMap fun
    | .expr (.call _ path _) => some (dotted path)
    | _ => none

/-- The undo a line declares, without what it needs unchanged. -/
def undo (args : List Arg) : Told Undo :=
  match args.head? with
  | some (.expr (.lit _ (.atom a))) =>
      if a = "restore" then pure .restore
      else (fun b => .computed b []) <$> C.bodyOf cx args
  | some (.kw k) =>
      if k.name = "compensate" then (fun b => .compensate b []) <$> C.bodyOf cx [k.value]
      else (fun b => .computed b []) <$> C.bodyOf cx args
  | _ => (fun b => .computed b []) <$> C.bodyOf cx args

def undoPre (args : List Arg) : Told (List String) :=
  Said.collect (fun a => do
    let s ← C.shape cx false a
    pure (s.toList.map Prod.fst)) args

def undoLocus (args : List Arg) : UndoLocus :=
  match firstAtom args with
  | some "target" => .target
  | some "none" => .noLocus
  | _ => .controller

def drift (args : List Arg) : Option (Option Drift) :=
  match args.head? with
  | none => some none
  | some a => (C.valueVal cx a).map fun v =>
      if v.asAtom = some "clobber" then some .clobber
      else if v.asAtom = some "defer" then some .defer
      else none

/-- The outputs, after the one that is named last. -/
def outputsFrom : Option Output → List Arg → List Output
  | current, [] => current.toList
  | current, .expr (.ref _ path) :: as =>
      current.toList ++ outputsFrom (some ⟨dotted path, false⟩) as
  | current, .kw k :: as =>
      outputsFrom (if k.name = "secret" then
        current.map fun o => { o with secret := decide (boolOf k.value = some true) }
        else current) as
  | current, _ :: as => outputsFrom current as

def locus (args : List Arg) : Locus :=
  match args.head? with
  | some (.expr (.lit _ (.atom a))) => if a = "controller" then .controller else .target
  | some (.expr (.call _ path args)) =>
      if path = ["host"] then
        match args.head? with
        | some (.expr (.lit _ (.str raw))) => .host (.static (unquoted raw))
        | some (.expr (.ref _ path)) => .host (.bound (dotted path))
        | _ => .target
      else .target
  | _ => .target

def handoffDone (args : List Arg) : Option String :=
  match args.head? with
  | some (.expr (.call _ path _)) => some (dotted path)
  | some (.expr (.ref _ path)) => some (dotted path)
  | _ => none

/-- What the undo needs unchanged, where it has a body. -/
def setUndoPre (pre : List String) : Undo → Undo
  | .computed b _ => .computed b pre
  | .compensate b _ => .compensate b pre
  | u => u

/-- What a line does to the op. -/
def opLine (l : Line) : Told (Op → Op) :=
  match l.keyword with
  | "footprint" => (fun es op => { op with footprint := op.footprint ++ es }) <$> C.footprint cx l.args
  | "reach" => pure fun op => { op with reach := op.reach ++ reach l.args }
  | "pre" => (fun gs op => { op with pre := gs }) <$> C.guards cx l.args
  | "post" => (fun gs op => { op with post := gs }) <$> C.guards cx l.args
  | "do" => (fun b op => { op with do_ := b }) <$> C.bodyOf cx l.args
  | "undo" => (fun u op => { op with undo := u }) <$> C.undo cx l.args
  | "undo_pre" => (fun pre op => { op with undo := setUndoPre pre op.undo }) <$> C.undoPre cx l.args
  | "undo_locus" => pure fun op => { op with undoLocus := undoLocus l.args }
  | "refusal" => (fun r op => { op with refusal := r }) <$> C.refusal depth cx l.args
  | "drift" => (fun d op => { op with drift := d }) <$> Said.ofOption (C.drift cx l.args)
  | "outputs" => pure fun op => { op with outputs := op.outputs ++ outputsFrom none l.args }
  | "exclusivity" => pure fun op => { op with exclusivity := firstAtom l.args }
  | "locus" => pure fun op => { op with locus := locus l.args }
  | "handoff_done" => pure fun op => { op with handoffDone := handoffDone l.args }
  | "suspend" => (fun b op => { op with suspend := some b }) <$> C.bodyOf cx l.args
  | "reestablish" => (fun b op => { op with reestablish := some b }) <$> C.bodyOf cx l.args
  | other => do
      C.report cx.module l.range .e0101 ("`" ++ other ++ "` is not an op line")
      pure id

/-- The lines, in the order of the file. -/
def opLines : List Line → Op → Told Op
  | [], op => pure op
  | l :: ls, op => do
      let f ← C.opLine depth cx l
      opLines ls (f op)

/-- A `run` or a `hook` is idempotent only when the call says so. -/
def idempotentCall : Expr → Bool
  | .call _ [x] args =>
      if x = "run" ∨ x = "hook" then (kwv args "idempotent").bind boolOf = some true else true
  | _ => true

/-- The calls of an undo line as its idempotency is read. -/
def undoCalls (args : List Arg) : List Expr :=
  args.flatMap fun
    | .expr (.list _ items) => exprs items
    | .expr e => [e]
    | .kw _ => []

/-- Restoring and compensating are idempotent; a computed undo is where each of its
calls is. -/
def idempotent (body : List Stmt) (u : Undo) : Bool :=
  match u with
  | .computed _ _ =>
      match (lines body).find? fun l => l.keyword = "undo" with
      | none => true
      | some l => (undoCalls l.args).all idempotentCall && !body.isEmpty
  | _ => true

/-- The host a clause's op runs on, where its text names one; the clause is then chosen
by that host. -/
def staticLocusHost (body : List Stmt) : Option String :=
  match (lines body).find? fun l => l.keyword = "locus" with
  | some ⟨_, _, .expr (.call _ path args) :: _⟩ => if path = ["host"] then args.head?.bind strOf else none
  | _ => none

/-- An op's definition at a call: its lines, and whether its undo may run twice. -/
def expandDef : Told Op := do
  let op ← C.opLines depth cx (lines cx.def_.body) { id := cx.def_.name, footprint := [] }
  let u := if (lines cx.def_.body).any fun l => l.keyword = "undo" then op.undo else .noUndo
  pure { op with undo := u, undoIdempotent := idempotent cx.def_.body u }

end Context

end Rescind.Expand
