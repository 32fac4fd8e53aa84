/-
# `Rescind.Surface.Ast` — the tree as data

What a parsed tree is lowered to: statements, expressions and definitions, each
with the range of the text it came from.  Strings stay as written, with quotes and
escapes; `unquote` takes them off.

Left out: a definition and an import inside a body, of which only the range is
kept, for they are reported and not read.
-/
import Rescind.Core.Model
import Rescind.Lib.Text

namespace Rescind.Ast

open Lib

/-- From a place in a text to another. -/
structure Range where
  start : Nat
  stop : Nat
  deriving DecidableEq, Repr

inductive Lit where
  | int (n : Nat)
  | float (text : String)
  /-- As written, with quotes and escapes. -/
  | str (raw : List Char)
  | atom (a : String)
  | duration (seconds : Nat)
  | bool (b : Bool)
  deriving DecidableEq, Repr

mutual

inductive Expr where
  | lit (range : Range) (lit : Lit)
  | ref (range : Range) (path : List String)
  | call (range : Range) (path : List String) (args : List Arg)
  | binary (range : Range) (op : String) (lhs rhs : Expr)
  | unary (range : Range) (op : String) (expr : Expr)
  | paren (range : Range) (expr : Expr)
  | list (range : Range) (items : List Arg)
  | record (range : Range) (entries : List Kw)
  /-- A node that did not parse. -/
  | error (range : Range)

inductive Arg where
  | kw (k : Kw)
  | expr (e : Expr)

/-- `name: value`; the name as written. -/
inductive Kw where
  | mk (range : Range) (name : String) (value : Arg)

end

namespace Kw

def range : Kw → Range
  | .mk r _ _ => r

def name : Kw → String
  | .mk _ n _ => n

def value : Kw → Arg
  | .mk _ _ v => v

end Kw

def Expr.range : Expr → Range
  | .lit r _ | .ref r _ | .call r _ _ | .binary r _ _ _ | .unary r _ _ | .paren r _ | .list r _
  | .record r _ | .error r => r

def Arg.range : Arg → Range
  | .kw k => k.range
  | .expr e => e.range

/-- `keyword (:)? args`. -/
structure Line where
  range : Range
  keyword : String
  args : List Arg

structure Step where
  range : Range
  call : Expr
  kws : List Kw
  alias_ : Option String

inductive Stmt where
  | line (l : Line)
  | block (range : Range) (keyword : String) (body : List Stmt)
  | def_ (range : Range)
  | import_ (range : Range)
  | step (s : Step)
  | pipeline (steps : List Step)
  | knell (s : Step)
  | slot (range : Range) (name : String)
  | observe (range : Range) (call : Expr) (alias_ : Option String)
  | assert (range : Range) (args : List Arg)
  | repeat_ (range : Range) (args : List Arg) (var : Option String) (body : List Stmt)
  | when_ (range : Range) (args : List Arg) (then_ : List Stmt) (else_ : Option (List Stmt))
  | contribution (range : Range) (slot : String) (priority : Option Nat) (item : Stmt)

structure Pattern where
  range : Range
  expr : Expr

/-- `defX :name (, pattern)? (, params)* do stmts end`. -/
structure Def where
  range : Range
  keyword : String
  name : String
  nameRange : Range
  pattern : Option Pattern
  params : List Kw
  body : List Stmt

/-- The lines of a body. -/
def lines (body : List Stmt) : List Line :=
  body.filterMap fun
    | .line l => some l
    | _ => none

/-! ## Strings -/

/-- What a character after a backslash stands for. -/
def escaped (c : Char) : Char :=
  if c = 'n' then '\n' else if c = 't' then '\t' else c

def unescape : List Char → List Char
  | [] => []
  | c :: cs =>
      if c = '\\' then
        match cs with
        | [] => ['\\']
        | e :: cs => escaped e :: unescape cs
      else c :: unescape cs

def stripQuote (s : List Char) : List Char := if s.head? = some '"' then s.tail else s

/-- The text of a string without its quotes, and with its escapes taken for what
they stand for. -/
def unquote (raw : List Char) : List Char :=
  unescape (stripQuote (stripQuote raw).reverse).reverse

/-- A string's text. -/
def unquoted (raw : List Char) : String := String.ofList (unquote raw)

/-! ## Arguments -/

/-- The first of its name. -/
def kw (args : List Arg) (name : String) : Option Kw :=
  args.findSome? fun
    | .kw k => if k.name = name then some k else none
    | .expr _ => none

def atomOf : Arg → Option String
  | .expr (.lit _ (.atom a)) => some a
  | _ => none

def strOf : Arg → Option String
  | .expr (.lit _ (.str raw)) => some (unquoted raw)
  | _ => none

def intOf : Arg → Option Nat
  | .expr (.lit _ (.int n)) => some n
  | _ => none

def durationOf : Arg → Option Duration
  | .expr (.lit _ (.duration s)) => some ⟨s⟩
  | _ => none

def boolOf : Arg → Option Bool
  | .expr (.lit _ (.bool b)) => some b
  | _ => none

def firstAtom (args : List Arg) : Option String := args.findSome? atomOf

def firstBool (args : List Arg) : Option Bool := args.findSome? boolOf

def firstDuration (args : List Arg) : Option Duration := args.findSome? durationOf

def kwDuration (args : List Arg) (name : String) : Option Duration :=
  (kw args name).bind fun k => durationOf k.value

def kwBool (args : List Arg) (name : String) : Option Bool :=
  (kw args name).bind fun k => boolOf k.value

/-- A path with its dots. -/
def dotted (path : List String) : String := String.intercalate "." path

def atomOrStr : Expr → Option String
  | .lit _ (.atom a) => some a
  | .lit _ (.str raw) => some (unquoted raw)
  | .ref _ path => some (dotted path)
  | _ => none

end Rescind.Ast
