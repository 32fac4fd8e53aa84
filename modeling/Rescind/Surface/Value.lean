/-
# `Rescind.Surface.Value` — what an expression means without a host

A string is cut into its text and its `#{...}`, each parsed where it stands.  An
expression over literals is computed, in the machine's words; a name stays a name.
`none` is a program that stopped.
-/
import Rescind.Lib.Words
import Rescind.Surface.Ast

namespace Rescind.Static

open Lib Ast

inductive Part where
  | lit (s : String)
  | expr (e : Expr)

/-- A value an expression has without a host. -/
inductive Val where
  | int (n : Int)
  | float (x : Float)
  | str (s : String)
  | atom (a : String)
  | duration (d : Duration)
  | bool (b : Bool)
  | list (items : List Val)
  | record (entries : List (String × Val))
  /-- A name whose value is bound elsewhere. -/
  | ref (path : List String)
  /-- A call that is not a builtin. -/
  | call (path : List String) (args : List Arg)
  | template (parts : List Part)
  | unknown
  /-- No evaluation reaches it. -/
  | opaque_

inductive Kind where
  | int | float | str | atom | duration | bool | list | record
  deriving DecidableEq, Repr

def Kind.name : Kind → String
  | .int => "int"
  | .float => "float"
  | .str => "str"
  | .atom => "atom"
  | .duration => "duration"
  | .bool => "bool"
  | .list => "list"
  | .record => "record"

namespace Val

def kind : Val → Option Kind
  | .int _ => some .int
  | .float _ => some .float
  | .str _ | .template _ => some .str
  | .atom _ => some .atom
  | .duration _ => some .duration
  | .bool _ => some .bool
  | .list _ => some .list
  | .record _ => some .record
  | .ref _ | .call _ _ | .unknown | .opaque_ => none

def asAtom : Val → Option String
  | .atom a => some a
  | _ => none

end Val

/-! ## The parts of a string -/

/-- A string's text, and the texts between its `#{` and the brace that closes it. -/
inductive Segment where
  | lit (s : List Char)
  | expr (text : List Char)
  deriving DecidableEq, Repr

/-- The text so far, where there is some. -/
def Segment.flush (lit : List Char) : List Segment := if lit = [] then [] else [.lit lit]

mutual

/-- After some text. -/
def textFrom (lit : List Char) : List Char → Option (List Segment)
  | [] => some (Segment.flush lit)
  | '#' :: '\x7b' :: cs => (exprFrom 1 [] cs).map (Segment.flush lit ++ ·)
  | c :: cs => textFrom (lit ++ [c]) cs

/-- Inside a `#{` at a depth of braces, after the text from there.  Where it is not
closed its last character is taken for the brace. -/
def exprFrom (depth : Nat) (text : List Char) : List Char → Option (List Segment)
  | [] => if text = [] then none else some [.expr text.dropLast]
  | c :: cs =>
      if c = '\x7b' then exprFrom (depth + 1) (text ++ [c]) cs
      else if c = '\x7d' then
        if depth = 1 then (textFrom [] cs).map (.expr text :: ·)
        else exprFrom (depth - 1) (text ++ [c]) cs
      else exprFrom depth (text ++ [c]) cs

end

def segments (s : List Char) : Option (List Segment) :=
  (textFrom [] s).map fun ss => if ss = [] then [.lit []] else ss

/-- What is between the braces is parsed, and where it does not parse it is text. -/
def part (parseExpr : List Char → Option Expr) : Segment → Part
  | .lit s => .lit (String.ofList s)
  | .expr text =>
      match parseExpr (Text.trim text) with
      | some e => .expr e
      | none => .lit (String.ofList (['#', '\x7b'] ++ text ++ ['\x7d']))

/-- The parts of a string as written: its text and its `#{...}`. -/
def stringParts (parseExpr : List Char → Option Expr) (raw : List Char) : Option (List Part) :=
  (segments (unquote raw)).map fun ss => ss.map (part parseExpr)

/-- The text, where the parts are all text. -/
def plain : List Part → Option String
  | [] => some ""
  | .lit s :: ps => (plain ps).map (s ++ ·)
  | .expr _ :: _ => none

/-! ## Equality of values -/

mutual

def sameExpr : Expr → Expr → Bool
  | .lit r l, .lit r' l' => decide (r = r') && decide (l = l')
  | .ref r p, .ref r' p' => decide (r = r') && decide (p = p')
  | .call r p as, .call r' p' as' => decide (r = r') && decide (p = p') && sameArgs as as'
  | .binary r o a b, .binary r' o' a' b' =>
      decide (r = r') && decide (o = o') && sameExpr a a' && sameExpr b b'
  | .unary r o e, .unary r' o' e' => decide (r = r') && decide (o = o') && sameExpr e e'
  | .paren r e, .paren r' e' => decide (r = r') && sameExpr e e'
  | .list r as, .list r' as' => decide (r = r') && sameArgs as as'
  | .record r ks, .record r' ks' => decide (r = r') && sameKws ks ks'
  | .error r, .error r' => decide (r = r')
  | _, _ => false

def sameArg : Arg → Arg → Bool
  | .kw k, .kw k' => sameKw k k'
  | .expr e, .expr e' => sameExpr e e'
  | _, _ => false

def sameKw : Kw → Kw → Bool
  | .mk r n v, .mk r' n' v' => decide (r = r') && decide (n = n') && sameArg v v'

def sameArgs : List Arg → List Arg → Bool
  | [], [] => true
  | a :: as, a' :: as' => sameArg a a' && sameArgs as as'
  | _, _ => false

def sameKws : List Kw → List Kw → Bool
  | [], [] => true
  | k :: ks, k' :: ks' => sameKw k k' && sameKws ks ks'
  | _, _ => false

end

def samePart : Part → Part → Bool
  | .lit s, .lit s' => decide (s = s')
  | .expr e, .expr e' => sameExpr e e'
  | _, _ => false

def sameParts : List Part → List Part → Bool
  | [], [] => true
  | p :: ps, p' :: ps' => samePart p p' && sameParts ps ps'
  | _, _ => false

mutual

def same : Val → Val → Bool
  | .int a, .int b => decide (a = b)
  | .float a, .float b => a == b
  | .str a, .str b => decide (a = b)
  | .atom a, .atom b => decide (a = b)
  | .duration a, .duration b => decide (a = b)
  | .bool a, .bool b => decide (a = b)
  | .list a, .list b => sameItems a b
  | .record a, .record b => sameEntries a b
  | .ref a, .ref b => decide (a = b)
  | .call a as, .call b bs => decide (a = b) && sameArgs as bs
  | .template a, .template b => sameParts a b
  | .unknown, .unknown => true
  | .opaque_, .opaque_ => true
  | _, _ => false

def sameItems : List Val → List Val → Bool
  | [], [] => true
  | a :: as, b :: bs => same a b && sameItems as bs
  | _, _ => false

def sameEntries : List (String × Val) → List (String × Val) → Bool
  | [], [] => true
  | (k, a) :: as, (k', b) :: bs => decide (k = k') && same a b && sameEntries as bs
  | _, _ => false

end

/-! ## Evaluation -/

variable (o : Overflow)

/-- `==` and `!=` of what has a kind. -/
def equality (op : String) (l r : Val) : Val :=
  if l.kind.isSome && r.kind.isSome then
    if op = "==" then .bool (same l r)
    else if op = "!=" then .bool (!same l r)
    else .opaque_
  else .opaque_

/-- Division by none is not reached, and the quotient that does not fit stops every
build. -/
def ints (op : String) (a b : Int) : Option Val :=
  if op = "+" then (o.signed (a + b)).map .int
  else if op = "-" then (o.signed (a - b)).map .int
  else if op = "*" then (o.signed (a * b)).map .int
  else if op = "/" ∧ b ≠ 0 then (Overflow.stops.signed (a.tdiv b)).map .int
  else if op = "%" ∧ b ≠ 0 then (Overflow.stops.signed (a.tdiv b)).map fun _ => .int (a.tmod b)
  else if op = "<" then some (.bool (a < b))
  else if op = "<=" then some (.bool (a ≤ b))
  else if op = ">" then some (.bool (b < a))
  else if op = ">=" then some (.bool (b ≤ a))
  else some (equality op (.int a) (.int b))

def durations (op : String) (a b : Duration) : Option Val :=
  if op = "+" then (o.word (a.seconds + b.seconds)).map fun n => .duration ⟨n⟩
  else if op = "-" then some (.duration ⟨a.seconds - b.seconds⟩)
  else if op = "<" then some (.bool (a.seconds < b.seconds))
  else if op = "<=" then some (.bool (a.seconds ≤ b.seconds))
  else if op = ">" then some (.bool (b.seconds < a.seconds))
  else if op = ">=" then some (.bool (b.seconds ≤ a.seconds))
  else some (equality op (.duration a) (.duration b))

def bools (op : String) (a b : Bool) : Val :=
  if op = "and" then .bool (a && b)
  else if op = "or" then .bool (a || b)
  else equality op (.bool a) (.bool b)

def binary (op : String) : Val → Val → Option Val
  | .unknown, _ => some .unknown
  | _, .unknown => some .unknown
  | .int a, .int b => ints o op a b
  | .duration a, .duration b => durations o op a b
  | .bool a, .bool b => some (bools op a b)
  | l, r => some (equality op l r)

def unary (op : String) : Val → Option Val
  | .int n => if op = "-" then (o.signed (-n)).map .int else some .opaque_
  | .float x => some (if op = "-" then .float (-x) else .opaque_)
  | .bool b => some (if op = "not" then .bool (!b) else .opaque_)
  | .unknown => some .unknown
  | _ => some .opaque_

/-- A decimal. -/
def readFloat (text : String) : Float :=
  let digits := text.toList.filter Char.isDigit
  let places := ((text.toList.dropWhile (· ≠ '.')).filter Char.isDigit).length
  .ofScientific (digits.foldl (fun n c => 10 * n + (c.toNat - '0'.toNat)) 0) true places

variable (parseExpr : List Char → Option Expr)

def literal : Lit → Option Val
  | .int n => some (.int ((n : Int).bmod (2 ^ 64)))
  | .float text => some (.float (readFloat text))
  | .str raw => (stringParts parseExpr raw).map fun ps =>
      match plain ps with
      | some s => .str s
      | none => .template ps
  | .atom a => some (.atom a)
  | .duration s => some (.duration ⟨s⟩)
  | .bool b => some (.bool b)

mutual

/-- References stay references; an operator over known values is computed. -/
def eval : Expr → Option Val
  | .lit _ l => literal parseExpr l
  | .ref _ path => some (.ref path)
  | .call _ path args => some (.call path args)
  | .paren _ e => eval e
  | .list _ items => (evalItems items).map .list
  | .record _ entries => (evalEntries entries).map .record
  | .unary _ op e => do unary o op (← eval e)
  | .binary _ op l r => do binary o op (← eval l) (← eval r)
  | .error _ => some .opaque_

def evalArg : Arg → Option Val
  | .expr e => eval e
  | .kw k => (evalKw k).map fun p => .record [p]

/-- Under its name as written. -/
def evalKw : Kw → Option (String × Val)
  | .mk _ name v => (evalArg v).map fun v => (name, v)

def evalItems : List Arg → Option (List Val)
  | [] => some []
  | a :: as => do
      let v ← evalArg a
      return v :: (← evalItems as)

def evalEntries : List Kw → Option (List (String × Val))
  | [] => some []
  | k :: ks => do
      let p ← evalKw k
      return (unquoted p.1.toList, p.2) :: (← evalEntries ks)

end

end Rescind.Static
