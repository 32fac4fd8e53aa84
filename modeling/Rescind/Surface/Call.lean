/-
# `Rescind.Surface.Call` — a step and the op it calls

A call names an op; the op's clause is the first whose pattern matches the host.  The
call's keyword arguments bind the op's parameters, each by how its value reaches the
body, and the op's own defaults fill what is left.

A string bound at a call is read where the call is, and what it interpolates is bound
there in turn: this is given a depth, as a gate is.
-/
import Rescind.Surface.Op

namespace Rescind.Expand

open Ast Static
open Lib (Assoc Said)

namespace Context

variable {n : Nat} (C : Context n)

/-! ## Clauses -/

def patText : Expr → Option String
  | .lit _ (.atom a) => some a
  | .lit _ (.str raw) => some (unquoted raw)
  | .lit _ (.int k) => some (toString k)
  | .ref _ path => if path = ["_"] then none else some (dotted path)
  | _ => none

/-- A fact of a host's contract. -/
def contractFact (c : Contract) : String → Option (List String)
  | "name" => some [c.name]
  | "os" => some [c.os]
  | "address" => some [c.address]
  | "roles" => some c.roles
  | "reach" => some c.reach
  | _ => none

def wanted : Arg → List String
  | .expr (.list _ items) => (exprs items).filterMap patText
  | .expr e => (patText e).toList
  | .kw _ => []

/-- A list against a list fact: every member; any other: one. -/
def hits (key : String) (actual : List String) (a : Arg) : Bool :=
  match a with
  | .expr (.list _ _) =>
      if key = "roles" ∨ key = "reach" then (wanted a).all fun w => w ∈ actual
      else (wanted a).any fun w => w ∈ actual
  | _ => (wanted a).any fun w => w ∈ actual

/-- Whether an entry of a pattern holds of a host, and whether it was refused. -/
def entryMatches (m : Fin n) (c : Contract) (k : Kw) : Told (Bool × Bool) :=
  let key := unquoted k.name.toList
  match contractFact c key with
  | some actual => pure (hits key actual k.value, false)
  | none => do
      C.report m k.range .e0111 ("clause pattern names `" ++ key ++
        "`, which is not a host-contract fact (name, os, address, roles, reach)")
      pure (false, true)

/-- Whether a clause's pattern matches a host, and whether it was refused. -/
def matches_ (m : Fin n) (c : Contract) : Option Pattern → Told (Bool × Bool)
  | some ⟨_, .record _ ks⟩ => do
      let rs ← Said.collect (fun k => do
        let r ← C.entryMatches m c k
        pure [r]) ks
      pure (rs.all Prod.fst, rs.any Prod.snd)
  | _ => pure (true, false)

/-- The first clause that matches, and whether one was refused before. -/
def firstMatch (c : Contract) : List (Fin n × Def) → Told (Option (Fin n × Def) × Bool)
  | [] => pure (none, false)
  | d :: ds => do
      let r ← C.matches_ d.1 c d.2.pattern
      if r.1 then pure (some d, r.2)
      else do
        let rest ← firstMatch c ds
        pure (rest.1, r.2 || rest.2)

/-- The first clause that names a host its pattern matches. -/
def firstStatic : List (Fin n × Def) → Told (Option (Fin n × Def))
  | [] => pure none
  | d :: ds =>
      match (staticLocusHost d.2.body).bind fun h => C.contracts.find? fun c => c.name = h with
      | some c => do
          let r ← C.matches_ d.1 c d.2.pattern
          if r.1 then pure (some d) else firstStatic ds
      | none => firstStatic ds

/-- The clause that matches the host, else one that names a host it matches. -/
def dispatch (ds : List (Fin n × Def)) (c : Contract) (what : String) (m : Fin n) (at_ : Range) :
    Told (Option (Fin n × Def)) := do
  let r ← C.firstMatch c ds
  match r with
  | (some d, _) => pure (some d)
  | (none, true) => pure none
  | (none, false) => do
      match ← C.firstStatic ds with
      | some d => pure (some d)
      | none => do
          C.report m at_ .e0112
            ("no clause of " ++ what ++ " matches host " ++ c.name ++ " (os " ++ c.os ++ ")")
          pure none

def patternText (d : Fin n × Def) : Option String :=
  d.2.pattern.elim (some "") fun p => C.src d.1 p.range

/-- Two clauses of one file with one pattern are indistinguishable. -/
def checkDuplicates : List (Fin n × Def) → Told Unit
  | [] => pure ()
  | d :: ds => do
      let pat ← Said.ofOption (C.patternText d)
      let _ ← Said.collect (fun d' => do
        let pat' ← Said.ofOption (C.patternText d')
        if d.1 = d'.1 ∧ pat = pat' then
          C.report d'.1 d'.2.nameRange .e0103
            (d.2.name ++ " is defined twice with the same clause pattern")
        pure ([] : List Unit)) ds
      checkDuplicates ds

/-! ## Binding -/

/-- What a name at a call is bound to. -/
def bindRef (m : Fin n) (range : Range) (scope : Scope) : List String → Told Bound
  | [x] =>
      if x ∈ scope.loopVars then pure (.controller x)
      else
        match scope.probes.get x with
        | some true => pure (.controller x)
        | some false => pure (.fact x)
        | none => pure (.param x)
  | [x, y] =>
      if x = "host" then pure (.host y)
      else
        match scope.aliases.get x with
        | some outputs => pure (.output x y (secretIn outputs y))
        | none =>
            if (C.program m).imports.contains x then pure .name
            else do
              C.report m range .e0110
                (x ++ "." ++ y ++ " is read before a step named " ++ x ++ " ran")
              pure .name
  | _ => pure .name

mutual

/-- How a call's value reaches the body. -/
def bind (depth : Nat) (m : Fin n) (scope : Scope) : Arg → Told Bound :=
  match depth with
  | 0 => fun _ => ⟨none⟩
  | depth + 1 => fun
    | .expr (.ref range path) => C.bindRef m range scope path
    | .expr e => do
        let v ← Said.ofOption (eval C.overflow C.parseExpr e)
        let text ← literalValue depth m scope e
        pure (.literal v (some text))
    | .kw _ => pure .name

/-- What a body reads in place of a literal: a string as its text, what it interpolates
bound where the call is; anything else as it is written. -/
def literalValue (depth : Nat) (m : Fin n) (scope : Scope) : Expr → Told Value :=
  match depth with
  | 0 => fun _ => ⟨none⟩
  | depth + 1 => fun
    | .lit _ (.str raw) => do
        let ps ← Said.ofOption (stringParts C.parseExpr raw)
        let parts ← Said.collect (fun p =>
          match p with
          | .lit s => pure [Rescind.Part.lit s]
          | .expr x => do
              let b ← bind depth m scope (.expr x)
              match b.asRef with
              | some r => pure [Rescind.Part.ref r]
              | none => do
                  let text ← Said.ofOption (C.src m x.range)
                  pure [Rescind.Part.lit text]) ps
        pure (valueOfParts parts)
    | e => .lit <$> Said.ofOption (C.src m e.range)

end

/-! ## Ops -/

/-- The text a default stands for. -/
def defaultText (m : Fin n) (e : Expr) : Told (Option Value) :=
  match e with
  | .lit range l =>
      match l with
      | .str raw => do
          let ps ← Said.ofOption (stringParts C.parseExpr raw)
          pure ((plain ps).map fun _ => .lit (unquoted raw))
      | _ => (fun s => some (.lit s)) <$> Said.ofOption (C.src m range)
  | _ => pure none

def isLit : Expr → Bool
  | .lit _ _ => true
  | _ => false

/-- A declared parameter's value of another kind than its default is reported. -/
def checkKind (call : Fin n × Range) (d : Def) (p : Kw) (given : Val) : Told Unit :=
  match p.value with
  | .expr e =>
      if isLit e then do
        let want ← Said.ofOption (eval C.overflow C.parseExpr e)
        match want.kind, given.kind with
        | some w, some g =>
            if w = g then pure ()
            else
              C.report call.1 call.2 .e0107
                ("op " ++ d.name ++ ": " ++ p.name ++ " expects " ++ w.name ++ ", got " ++ g.name)
        | _, _ => pure ()
      else pure ()
  | .kw _ => pure ()

/-- A parameter the call left unbound. -/
def fill (call : Fin n × Range) (m : Fin n) (d : Def) (p : Kw) (bindings : Bindings) : Told Bindings :=
  match p.value with
  | .kw _ => pure bindings
  | .expr e =>
      let needed := match e with
        | .ref _ path => decide (path = [p.name])
        | _ => false
      if needed then do
        C.report call.1 call.2 .e0102 ("op " ++ d.name ++ " needs its parameter " ++ p.name)
        pure bindings
      else do
        let text ← C.defaultText m e
        let v ← Said.ofOption (eval C.overflow C.parseExpr e)
        pure (bindings.insert p.name (.literal v text))

/-- Declared parameters with defaults fill what the call left unbound. -/
def defaults (call : Fin n × Range) (m : Fin n) (d : Def) : List Kw → Bindings → Told Bindings
  | [], bindings => pure bindings
  | p :: ps, bindings => do
      let bindings ← match bindings.get p.name with
        | some (.literal given _) => do
            C.checkKind call d p given
            pure bindings
        | some _ => pure bindings
        | none => C.fill call m d p bindings
      defaults call m d ps bindings

/-- The op a call expands to. -/
def expandOp (depth : Nat) (m : Fin n) (path : List String) (range : Range) (bindings : Bindings)
    (owner : Contract) (scope : Scope) : Told (Option Op) := do
  let ds := C.lookup m "defop" path
  if ds.isEmpty then
    C.report m range .e0102 ("unknown op " ++ dotted path)
    pure none
  else
    C.checkDuplicates ds
    match ← C.dispatch ds owner ("op " ++ dotted path) m range with
    | none => pure none
    | some d => do
        let bindings ← C.defaults (m, range) d.1 d.2 d.2.params bindings
        some <$> C.expandDef depth ⟨d.1, d.2, bindings, scope⟩

/-! ## Steps -/

def forceNames (a : Arg) : List ForceName :=
  match a with
  | .expr (.list _ items) => items.filterMap fun
      | .expr (.ref _ path) =>
          some (if path = ["unknown"] then .unknown
            else if path = ["drift"] then .drift else .guard (dotted path))
      | .expr (.lit _ (.atom a)) => some (.guard a)
      | _ => none
  | _ => []

/-- A keyword of a step. -/
def stepKw (depth : Nat) (m : Fin n) (bindings : Bindings) (k : Kw) : Told (StepI → StepI) :=
  match k.name with
  | "gate" =>
      match k.value with
      | .expr e => (fun g s => { s with gate := g }) <$> C.gate depth m bindings e
      | .kw _ => pure id
  | "window" => pure fun s => { s with window := durationOf k.value }
  | "on_lapse" => pure fun s =>
      { s with onLapse := if atomOf k.value = some "hold" then .hold else .revert }
  | "force" => pure fun s => { s with force := s.force ++ forceNames k.value }
  | _ => pure id

def stepKws (depth : Nat) (m : Fin n) (bindings : Bindings) : List Kw → StepI → Told StepI
  | [], s => pure s
  | k :: ks, s => do
      let f ← C.stepKw depth m bindings k
      stepKws depth m bindings ks (f s)

/-- What the call's keyword arguments bind. -/
def bindAll (depth : Nat) (m : Fin n) (scope : Scope) : List Kw → Bindings → Told Bindings
  | [], bindings => pure bindings
  | k :: ks, bindings => do
      let b ← C.bind depth m scope k.value
      bindAll depth m scope ks (bindings.insert k.name b)

/-- A step of an op, and the scope after it. -/
def stepOp (depth : Nat) (m : Fin n) (s : Step) (path : List String) (args : List Arg)
    (range : Range) (owner : Contract) (scope : Scope) (mk : StepI → Item) :
    Told (Option Item × Scope) := do
  let bindings ← C.bindAll depth m scope (kws args) []
  match ← C.expandOp depth m path range bindings owner scope with
  | none => pure (none, scope)
  | some op => do
      let st ← C.stepKws depth m bindings s.kws { op := op, alias_ := s.alias_ }
      pure (some (mk st), match s.alias_ with
        | some a => { scope with aliases := scope.aliases.insert a op.outputs }
        | none => scope)

/-- One step. -/
def expandStepOne (depth : Nat) (m : Fin n) (s : Step) (owner : Contract) (scope : Scope)
    (knell : Bool) : Told (Option Item × Scope) :=
  match s.call with
  | .call range path args =>
      if args.isEmpty ∧ knell = false ∧ path = ["confirm"] then pure (some .confirm, scope)
      else if args.isEmpty ∧ knell = false ∧ path = ["commit"] then pure (some .commit, scope)
      else C.stepOp depth m s path args range owner scope (if knell then .knell else .step)
  | _ => do
      C.report m s.range .e0101 "a step is a call"
      pure (none, scope)

end Context

end Rescind.Expand
