/-
# `Rescind.Surface.Body` — the bodies of an op

An op is expanded where it is called: its body reads what the call bound, never the
op's own name for it.  Each reference is classified by where its value comes from,
each call of a body lowered to a primitive, each fact to a shape.

What is reported names its place, and a place in the middle of a character stops
the program, as the text of one does.

Left out: the nearest name a report suggests.
-/
import Rescind.Lib.Said
import Rescind.Surface.Parser
import Rescind.Surface.Value

namespace Rescind.Expand

open Ast Static
open Lib (Assoc Said Overflow)

/-! ## Programs -/

/-- One loaded file. -/
structure Module (n : Nat) where
  path : String
  src : List Char
  /-- The definitions at its top, in order. -/
  defs : List Def
  /-- Import alias to file. -/
  imports : Assoc String (Fin n) := []
  /-- Files imported without an alias. -/
  open_ : List (Fin n) := []

/-- A host's contract: what clause patterns match on. -/
structure Contract where
  name : String
  os : String
  address : String
  roles : List String
  reach : List String
  deriving DecidableEq, Repr

inductive Code where
  | e0101 | e0102 | e0103 | e0106 | e0107 | e0108 | e0110 | e0111 | e0112 | e0113 | e0114 | e0204
  deriving DecidableEq, Repr

structure Diagnostic where
  code : Code
  span : Surface.Span
  message : String
  deriving DecidableEq, Repr

/-- What comes to a value and reports on the way. -/
abbrev Told := Said Diagnostic

/-- What everything is expanded in. -/
structure Context (n : Nat) where
  program : Fin n → Module n
  contracts : List Contract
  parseExpr : List Char → Option Expr
  overflow : Overflow
  /-- What 32 bits keep of a number. -/
  narrow : Nat → Nat := fun k => k % 2 ^ 32

/-- The part of a text before a count of bytes, and the part after it; all of it where
there are not as many, and none where one is inside a character. -/
def cutBytes : Nat → List Char → Option (List Char × List Char)
  | 0, cs => some ([], cs)
  | _ + 1, [] => some ([], [])
  | k + 1, c :: cs =>
      if c.utf8Size ≤ k + 1 then (cutBytes (k + 1 - c.utf8Size) cs).map fun p => (c :: p.1, p.2)
      else none

namespace Context

variable {n : Nat} (C : Context n)

/-- The text of a range. -/
def src (m : Fin n) (r : Range) : Option String := do
  let p ← cutBytes r.start (C.program m).src
  let q ← cutBytes (r.stop - r.start) p.2
  return String.ofList q.1

def report (m : Fin n) (r : Range) (code : Code) (message : String) : Told Unit := do
  let p ← Said.ofOption (cutBytes r.start (C.program m).src)
  Said.say ⟨code, Surface.spanAfter (C.program m).path p.1, message⟩

/-- Every definition of a keyword in a file. -/
def defs (m : Fin n) (keyword : String) : List (Fin n × Def) :=
  ((C.program m).defs.filter fun d => d.keyword = keyword).map fun d => (m, d)

def defsNamed (m : Fin n) (keyword name : String) : List (Fin n × Def) :=
  (C.defs m keyword).filter fun d => d.2.name = name

/-- The first of some lists that is not empty. -/
def firstFound {α : Type} : List (List α) → List α
  | [] => []
  | xs :: xss => if xs.isEmpty then firstFound xss else xs

/-- The clauses a possibly qualified name is defined by: in the file the alias names;
for a bare name here, else in an import without an alias. -/
def lookup (m : Fin n) (keyword : String) : List String → List (Fin n × Def)
  | [alias_, name] =>
      match (C.program m).imports.get alias_ with
      | some i => C.defsNamed i keyword name
      | none => []
  | [name] => firstFound ((m :: (C.program m).open_).map fun i => C.defsNamed i keyword name)
  | _ => []

end Context

/-! ## What a call binds -/

/-- How a name bound at an op's call reaches the body. -/
inductive Bound where
  /-- A literal: what is checked, and what the body reads in its place; none for a
  default that interpolates. -/
  | literal (v : Val) (text : Option Value)
  /-- A `repeat` variable, or the fact of a probe on the controller. -/
  | controller (name : String)
  | fact (name : String)
  | host (field : String)
  | output (step name : String) (secret : Bool)
  /-- A parameter the request binds, by the request's name for it. -/
  | param (name : String)
  /-- Nothing expansion follows into a body. -/
  | name

/-- The reference a body reads for it, when it is one. -/
def Bound.asRef : Bound → Option Ref
  | .controller x => some (.controller x)
  | .fact x => some (.fact x)
  | .host f => some (.host f)
  | .output step x secret => some (.output step x secret)
  | .param x => some (.param x)
  | .literal _ _ | .name => none

abbrev Bindings := Assoc String Bound

/-- What a body sees around it. -/
structure Scope where
  /-- `repeat` variables. -/
  loopVars : List String := []
  /-- Step aliases with their outputs. -/
  aliases : Assoc String (List Output) := []
  /-- The facts of probes, and whether each is on the controller. -/
  probes : Assoc String Bool := []

/-- An op's body, or a probe's, in what it sees. -/
structure OpCx (n : Nat) where
  module : Fin n
  def_ : Def
  bindings : Bindings
  scope : Scope

/-- An output is secret where one of its name is declared so. -/
def secretIn (outputs : List Output) (name : String) : Bool :=
  outputs.any fun o => decide (o.name = name) && o.secret

/-- The reference a path is, by where its value comes from. -/
def classify {n : Nat} (cx : OpCx n) : List String → Ref
  | [x] =>
      match cx.bindings.get x with
      | some b => b.asRef.getD (.param x)
      | none =>
          match cx.scope.probes.get x with
          | some true => .controller x
          | some false => .fact x
          | none => if x ∈ cx.scope.loopVars then .controller x else .param x
  | [x, y] =>
      if x = "host" then .host y
      else
        match cx.scope.aliases.get x with
        | some outputs => .output x y (secretIn outputs y)
        | none => .param (dotted [x, y])
  | path => .param (dotted path)

/-- What the call bound a bare name to, when that is a literal. -/
def substituted {n : Nat} (cx : OpCx n) : Expr → Option Value
  | .ref _ [x] =>
      match cx.bindings.get x with
      | some (.literal _ text) => text
      | _ => none
  | _ => none

/-- Text where all of it is. -/
def valueOfParts (parts : Template) : Value :=
  match parts.mapM fun
    | .lit s => some s
    | .ref _ => none with
  | some texts => .lit (String.join texts)
  | none => .template parts

def valueParts : Value → Template
  | .lit s => [.lit s]
  | .ref r => [.ref r]
  | .template parts => parts

def braced (s : String) : String := "\x7b" ++ s ++ "\x7d"

/-- A template in a shape: a reference by its label, in braces. -/
def shapeText (t : Template) : String :=
  String.join (t.map fun
    | .lit s => s
    | .ref r => braced r.label)

namespace Context

variable {n : Nat} (C : Context n) (cx : OpCx n)

/-! ## Values -/

def classifyExpr : Expr → Told (Option Ref)
  | .ref _ path => pure (some (classify cx path))
  | .call range path args =>
      if path = ["secret"] then
        match args.head?.bind atomOf with
        | some x => pure (some (.secret x))
        | none => do
            C.report cx.module range .e0101 "secret() takes the binding's atom"
            pure none
      else pure none
  | _ => pure none

/-- One interpolation: a literal the call bound is spliced in, anything else is the
reference it classifies as, or its own text. -/
def interpolated (e : Expr) : Told Template :=
  match substituted cx e with
  | some v => pure (valueParts v)
  | none => do
      match ← C.classifyExpr cx e with
      | some r => pure [.ref r]
      | none => do
          let text ← Said.ofOption (C.src cx.module e.range)
          pure [.lit text]

def templatePart : Static.Part → Told Template
  | .lit s => pure [.lit s]
  | .expr e => C.interpolated cx e

def template (raw : List Char) : Told Template := do
  let ps ← Said.ofOption (stringParts C.parseExpr raw)
  Said.collect (C.templatePart cx) ps

def value : Arg → Told Value
  | .expr (.lit _ (.str raw)) => valueOfParts <$> C.template cx raw
  | .expr e =>
      match substituted cx e with
      | some v => pure v
      | none => do
          match ← C.classifyExpr cx e with
          | some r => pure (.ref r)
          | none => .lit <$> Said.ofOption (C.src cx.module e.range)
  | .kw k => .lit <$> Said.ofOption (C.src cx.module k.range)

/-- What the checker reasons about. -/
def valueVal : Arg → Option Val
  | .expr (.ref _ [x]) =>
      match cx.bindings.get x with
      | some (.literal v _) => some v
      | some (.controller y) => some (.ref [y])
      | some (.fact y) => some (.ref [y])
      | some (.param y) => some (.ref [y])
      | some (.host f) => some (.ref ["host", f])
      | _ => some (.ref [x])
  | a => evalArg C.overflow C.parseExpr a

/-! ## Facts -/

/-- A fact's instance: a literal as it is, a value of the run in braces. -/
def instance_ : Expr → Told String
  | .lit _ (.str raw) => shapeText <$> C.template cx raw
  | .ref range path =>
      match substituted cx (.ref range path) with
      | some v => pure (shapeText (valueParts v))
      | none =>
          match path with
          | [x] => pure (braced (((cx.bindings.get x).bind Bound.asRef).elim x Ref.label))
          | _ => pure (braced (dotted path))
  | e => Said.ofOption (C.src cx.module e.range)

/-- The first positional argument. -/
def firstExpr (args : List Arg) : Option Expr :=
  args.findSome? fun
    | .expr e => some e
    | .kw _ => none

/-- A fact's shape and its anchor. -/
def shape (derived : Bool) : Arg → Told (Option (String × Option String))
  | .expr (.call range path args) =>
      match firstExpr args with
      | some e => do
          let text ← C.instance_ cx e
          pure (some (String.intercalate ":" path ++ ":" ++ text,
            (kw args "anchor").bind fun k => strOf k.value))
      | none => do
          C.report cx.module range .e0101 "a fact shape names its instance"
          pure none
  | .expr (.ref _ path) =>
      pure (some (if derived && path.length = 1 then "probe:" ++ path.headD ""
        else String.intercalate ":" path, none))
  | a => do
      C.report cx.module a.range .e0101
        "a fact shape is file(...), a dotted name, or a dotted call"
      pure none

def factRef (e : Expr) : Told (Option FactRef) := do
  let s ← C.shape cx false (.expr e)
  pure (s.map fun p => ⟨p.1, p.2⟩)

/-! ## Primitives -/

def positional (args : List Arg) : List Expr :=
  args.filterMap fun
    | .expr e => some e
    | .kw _ => none

def kwv (args : List Arg) (name : String) : Option Arg := (kw args name).map Kw.value

/-- A record's entries, as a `run` or a `hook` takes them. -/
def entries (ks : List Kw) (name : Kw → String) : Told (List (String × Value)) :=
  Said.collect (fun k => do
    let v ← C.value cx k.value
    pure [(name k, v)]) ks

def env (args : List Arg) : Told (List (String × Value)) :=
  match kwv args "env" with
  | some (.expr (.record _ ks)) => C.entries cx ks fun k => unquoted k.name.toList
  | _ => pure []

def optional {α : Type} (f : Arg → Told α) : Option Arg → Told (Option α)
  | none => pure none
  | some a => some <$> f a

def run (range : Range) (args : List Arg) : Told (Option Prim) :=
  match (positional args).head? with
  | some (.lit _ (.str raw)) => do
      let cmd ← C.template cx raw
      let env ← C.env cx args
      let stdin ← optional (C.value cx) (kwv args "stdin")
      pure (some (.run cmd env stdin))
  | _ => do
      C.report cx.module range .e0101 "run takes a string"
      pure none

/-- A primitive on a fact, and on the value of a keyword where it has one. -/
def onFact (args : List Arg) (next : FactRef → Told (Option Prim)) : Told (Option Prim) :=
  match (positional args).head? with
  | none => pure none
  | some e => do
      match ← C.factRef cx e with
      | none => pure none
      | some f => next f

def valued (args : List Arg) (name : String) (mk : Value → Prim) : Told (Option Prim) :=
  match kwv args name with
  | none => pure none
  | some a => do
      let v ← C.value cx a
      pure (some (mk v))

def stageName : Option Expr → Told String
  | some (.ref _ path) => pure (dotted path)
  | some e => Said.ofOption (C.src cx.module e.range)
  | none => pure ""

/-- A file's mode. -/
def mode (args : List Arg) : Nat := C.narrow (((kwv args "mode").bind intOf).getD 0o600)

def stage (args : List Arg) : Told (Option Prim) := do
  let name ← C.stageName cx (positional args).head?
  C.valued cx args "content" fun v => .stage name v (C.mode args)

/-- The atom that is the first positional argument. -/
def atomName (args : List Arg) : String :=
  match (positional args).head? with
  | some (.lit _ (.atom a)) => a
  | _ => ""

def kws (args : List Arg) : List Kw :=
  args.filterMap fun
    | .kw k => some k
    | .expr _ => none

def hook (args : List Arg) : Told (Option Prim) := do
  let vs ← C.entries cx ((kws args).filter fun k => k.name ≠ "idempotent") Kw.name
  pure (some (.hook (atomName args) vs))

/-- The classes a declaration gives its arguments. -/
def classes (l : Line) : Assoc String ArgClass :=
  match kwv l.args "classes" with
  | some (.expr (.record _ ks)) =>
      ks.foldl (fun acc k => Assoc.insert acc (unquoted k.name.toList)
        (if atomOf k.value = some "controller" then .controller else .targetLocal)) []
  | _ => []

/-- A part of a declared primitive's command: an argument's value, else as in any
other string. -/
def callPart (values : Assoc String Value) : Static.Part → Told Template
  | .lit s => pure [.lit s]
  | .expr e =>
      match e with
      | .ref _ [x] =>
          match values.get x with
          | some v => pure (valueParts v)
          | none => C.interpolated cx e
      | _ => C.interpolated cx e

/-- A call of a declared primitive: the command with the call's arguments in it, and
every argument with its class. -/
def callPrim (d : Def) (args : List Arg) : Told (Option Prim) :=
  match (lines d.body).find? fun l => l.keyword = "run" with
  | none => pure none
  | some l =>
      match l.args.head? with
      | some (.expr (.lit _ (.str raw))) => do
          let vs ← C.entries cx (kws args) Kw.name
          let values := vs.foldl (fun acc p => Assoc.insert acc p.1 p.2) ([] : Assoc String Value)
          let ps ← Said.ofOption (stringParts C.parseExpr raw)
          let cmd ← Said.collect (C.callPart cx values) ps
          pure (some (.call d.name cmd (values.map fun p =>
            ⟨p.1, ((classes l).get p.1).getD .targetLocal, p.2⟩)))
      | _ => do
          C.report cx.module d.range .e0101 ("defprim " ++ d.name ++ " needs `run \"...\"`")
          pure none

/-- A call that is no primitive of the language. -/
def declared (range : Range) (path : List String) (args : List Arg) : Told (Option Prim) :=
  match C.lookup cx.module "defprim" path with
  | d :: _ => C.callPrim cx d.2 args
  | [] => do
      C.report cx.module range .e0102 ("unknown primitive " ++ dotted path)
      pure none

def prim : Arg → Told (Option Prim)
  | .expr (.call range path args) =>
      match dotted path with
      | "run" => C.run cx range args
      | "write" => C.onFact cx args fun f => C.valued cx args "content" (.write f)
      | "remove" => C.onFact cx args fun f => pure (some (.remove f))
      | "append" => C.onFact cx args fun f => C.valued cx args "line" (.append f)
      | "region_set" => C.onFact cx args fun f => C.valued cx args "content" (.regionSet f)
      | "region_clear" => C.onFact cx args fun f => pure (some (.regionClear f))
      | "stage" => C.stage cx args
      | "hook" => C.hook cx args
      | "install" => pure (some (.install (atomName args)))
      | "release" => pure (some (.release (atomName args)))
      | _ => C.declared cx range path args
  | a => do
      C.report cx.module a.range .e0101 "a body is a primitive call or a list of them"
      pure none

/-- The calls of a body: of the lists among its arguments, and the others. -/
def calls (args : List Arg) : List Arg :=
  args.flatMap fun
    | .expr (.list _ items) => items
    | a => [a]

def bodyOf (args : List Arg) : Told Body :=
  Said.collect (fun a => Option.toList <$> C.prim cx a) (calls args)

end Context

end Rescind.Expand
