/-
# `Rescind.Surface.Declare` — what a site block declares

Each line of a site block declares bindings for one use, told by its keyword and the
name of its first argument.  The lines are read in the order of the file into one
declaration.

Left out: what the declaration is checked for.
-/
import Rescind.Surface.Ast

namespace Rescind.Declare

open Ast

inductive ArgKind where
  | none_ | str | atom | other
  deriving DecidableEq, Repr

/-- A binding call: `file("x")`, `hook(:name, transport: :api)`, `local()`. -/
structure Binding where
  range : Range
  kind : String
  arg : Option String
  kws : List (String × String)
  argKind : ArgKind
  /-- The site line it stands on. -/
  slot : String
  deriving DecidableEq, Repr

structure Identity where
  name : String
  user : Option String
  operatorFor : List String
  admin : Bool
  subscribe : List String
  deriving DecidableEq, Repr

structure Registrar where
  name : String
  user : Option String
  mayRegister : List String
  deriving DecidableEq, Repr

structure SiteDecl where
  inventory : Option Binding := none
  /-- Every sink, in the order they are named. -/
  journal : List Binding := []
  journalSign : Option Binding := none
  approval : Option Binding := none
  secretsFrom : Option Binding := none
  deliverTo : List Binding := []
  execute : List Binding := []
  scheduler : Option Binding := none
  notify : Option Binding := none
  maxWait : Option Duration := none
  skewTolerance : Option Duration := none
  identities : List Identity := []
  registrars : List Registrar := []

/-! ## Bindings -/

def argKindOf : Expr → ArgKind
  | .lit _ (.str _) => .str
  | .lit _ (.atom _) => .atom
  | _ => .other

/-- The last positional argument, and its kind. -/
def lastArg : List Arg → Option String × ArgKind
  | [] => (none, .none_)
  | .kw _ :: as => lastArg as
  | .expr e :: as =>
      if as.any fun a => match a with
        | .expr _ => true
        | .kw _ => false
      then lastArg as else (atomOrStr e, argKindOf e)

def kwTexts (args : List Arg) : List (String × String) :=
  args.filterMap fun
    | .kw (.mk _ name (.expr e)) => (atomOrStr e).map fun v => (name, v)
    | _ => none

def bindingOf (slot : String) : Expr → Option Binding
  | .call range path args =>
      some ⟨range, dotted path, (lastArg args).1, kwTexts args, (lastArg args).2, slot⟩
  | _ => none

mutual

/-- The binding calls of an argument: of a list each, of a keyword its value's. -/
def bindingsOf (slot : String) : Arg → List Binding
  | .expr e => bindingsOfExpr slot e
  | .kw k => bindingsOfKw slot k

def bindingsOfExpr (slot : String) : Expr → List Binding
  | .list _ items => bindingsOfAll slot items
  | e => (bindingOf slot e).toList

def bindingsOfKw (slot : String) : Kw → List Binding
  | .mk _ _ v => bindingsOf slot v

def bindingsOfAll (slot : String) : List Arg → List Binding
  | [] => []
  | a :: as => bindingsOf slot a ++ bindingsOfAll slot as

end

/-! ## Lines -/

/-- What a line declares bindings for. -/
def slotOf (l : Line) : String :=
  match l.keyword, l.args.head? with
  | keyword, some (.kw (.mk _ name _)) =>
      match keyword, name with
      | "inventory", "from" => "inventory"
      | "journal", "to" => "journal"
      | "approval", "via" => "approval"
      | "secrets", "from" => "secrets_from"
      | "secrets", "deliver_to" => "deliver_to"
      | "execute", "via" => "execute"
      | "backstop", "scheduler" => "scheduler"
      | "notify", "via" => "notify"
      | _, _ => ""
  | _, _ => ""

/-- The bindings of a line. -/
def declared (l : Line) : List Binding := bindingsOfAll (slotOf l) l.args

def isKey (b : Binding) : Bool := b.kind = "key"

def siteLine (d : SiteDecl) (l : Line) : SiteDecl :=
  let bs := declared l
  match slotOf l with
  | "inventory" => { d with inventory := bs.head? }
  | "journal" => { d with
      journal := d.journal ++ bs.filter fun b => !isKey b
      journalSign := (bs.filter isKey).head? }
  | "approval" => { d with approval := bs.head? }
  | "secrets_from" => { d with secretsFrom := bs.head? }
  | "deliver_to" => { d with deliverTo := bs }
  | "execute" => { d with execute := bs }
  | "scheduler" => { d with scheduler := bs.head? }
  | "notify" => { d with notify := bs.head? }
  | _ =>
      match l.keyword with
      | "max_wait" => { d with maxWait := firstDuration l.args }
      | "skew_tolerance" => { d with skewTolerance := firstDuration l.args }
      | _ => d

/-! ## Blocks -/

/-- The first argument's name. -/
def lineName (args : List Arg) : String :=
  match args.head? with
  | some (.expr e) => (atomOrStr e).getD ""
  | _ => ""

def kwAtomOrStr (args : List Arg) (name : String) : Option String :=
  match (kw args name).map Kw.value with
  | some (.expr e) => atomOrStr e
  | _ => none

def kwList (args : List Arg) (name : String) : List String :=
  match (kw args name).map Kw.value with
  | some (.expr (.list _ items)) => items.filterMap fun
      | .expr e => atomOrStr e
      | .kw _ => none
  | some (.expr e) => (atomOrStr e).toList
  | _ => []

def identity (l : Line) : Identity :=
  ⟨lineName l.args, kwAtomOrStr l.args "user", kwList l.args "operator_for",
    (kwBool l.args "admin").getD false, kwList l.args "subscribe"⟩

def registrar (l : Line) : Registrar :=
  ⟨lineName l.args, kwAtomOrStr l.args "user", kwList l.args "may_register"⟩

/-- The lines of a keyword in a body. -/
def linesOf (keyword : String) (body : List Stmt) : List Line :=
  (lines body).filter fun l => l.keyword = keyword

def siteStmt (d : SiteDecl) : Stmt → SiteDecl
  | .line l => siteLine d l
  | .block _ keyword body =>
      if keyword = "operators" then
        { d with identities := d.identities ++ (linesOf "identity" body).map identity }
      else if keyword = "hooks" then
        { d with registrars := d.registrars ++ (linesOf "registrar" body).map registrar }
      else d
  | _ => d

/-- Read the site block. -/
def declare (body : List Stmt) : SiteDecl := body.foldl siteStmt {}

end Rescind.Declare
