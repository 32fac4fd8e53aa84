/-
# `Rescind.Surface.Parser` — the tree of a source

Recursive descent over the tokens, into a tree that keeps every one.  An error is
reported once for a line: its recovery takes the rest of the line and quiets the
parser to the next newline; a block left open where a definition starts is reported
there, and quiets it without taking anything.

A call of the parser to itself is given a depth, and none is what a depth too small
leaves.  The tree under construction is a frame, the children of the node that is
open: a checkpoint opens a frame of its own, which is wrapped in a node or let be.
Beside the parser the turns are told of its two loops that do not look whether
they took anything.
-/
import Rescind.Surface.Lexer

namespace Rescind.Surface

/-! ## Trees -/

inductive Tree where
  | token (t : Token)
  | node (k : SyntaxKind) (children : List Tree)

mutual
/-- The tokens of a tree, in order. -/
def Tree.leaves : Tree → List Token
  | .token t => [t]
  | .node _ ts => leavesOf ts

def leavesOf : List Tree → List Token
  | [] => []
  | t :: ts => t.leaves ++ leavesOf ts
end

/-! ## Diagnostics -/

structure Span where
  file : String
  line : Nat
  col : Nat
  deriving DecidableEq, Repr

/-- A diagnostic, and the token it is reported at. -/
structure Diagnostic where
  code : String
  index : Nat
  span : Span
  expected : Option String
  found : Option String
  message : String
  deriving DecidableEq, Repr

/-- The line and column after a text. -/
def spanAfter (file : String) (before : List Char) : Span :=
  ⟨file, (before.filter fun c => c = '\n').length + 1,
    (before.reverse.takeWhile fun c => c ≠ '\n').length + 1⟩

def SyntaxKind.describe : SyntaxKind → String
  | .whitespace => "whitespace"
  | .newline => "end of line"
  | .comment => "a comment"
  | .name => "a name"
  | .upperName => "an upper-case name"
  | .atom => "an atom"
  | .int => "an integer"
  | .float => "a number"
  | .duration => "a duration"
  | .string => "a string"
  | .lParen => "`(`"
  | .rParen => "`)`"
  | .lBrack => "`[`"
  | .rBrack => "`]`"
  | .lBrace => "`\x7b`"
  | .rBrace => "`\x7d`"
  | .percentBrace => "`%\x7b`"
  | .comma => "`,`"
  | .colon => "`:`"
  | .pipe => "`|`"
  | .pipeGt => "`|>`"
  | .eq => "`=`"
  | .eqEq => "`==`"
  | .bangEq => "`!=`"
  | .lt => "`<`"
  | .le => "`<=`"
  | .gt => "`>`"
  | .ge => "`>=`"
  | .plus => "`+`"
  | .minus => "`-`"
  | .star => "`*`"
  | .slash => "`/`"
  | .percent => "`%`"
  | .dot => "`.`"
  | .errorToken => "an unknown character"
  | _ => "a node"

/-- Whitespace and comments stand anywhere. -/
def Token.isTrivia (t : Token) : Bool := t.kind = .whitespace || t.kind = .comment

def Token.isName (t : Token) (s : String) : Bool := t.kind = .name && t.text = s.toList

/-- A string that ends as a closed one does. -/
def Token.closed (t : Token) : Bool :=
  t.kind = .string && 2 ≤ t.text.length && t.text.getLast? = some '"'

def foundText : Option Token → String
  | none => "end of file"
  | some t => match t.kind with
      | .newline => "end of line"
      | .name | .upperName | .atom | .int | .float | .duration | .string | .errorToken =>
          "`" ++ String.ofList t.text ++ "`"
      | k => k.describe

/-! ## The parser's state -/

/-- A turn of the loop over the top of the file, or over the header of a `repeat`:
whether the parser is quieted, and what is left. -/
structure Turn where
  header : Bool
  suppress : Bool
  rest : List Token

structure Parser where
  file : String
  done : List Token := []
  rest : List Token
  /-- Of the node that is open, or since the checkpoint. -/
  children : List Tree := []
  diagnostics : List Diagnostic := []
  suppress : Bool := false
  turns : List Turn := []

/-- The tokens that are not trivia. -/
def significant (ts : List Token) : List Token := ts.filter fun t => !t.isTrivia

namespace Parser

def peek (p : Parser) : Option Token := (significant p.rest).head?

def peek2 (p : Parser) : Option Token := (significant p.rest)[1]?

/-- The index of the next significant token. -/
def peekIndex (p : Parser) : Nat := p.done.length + (p.rest.takeWhile Token.isTrivia).length

def kind (p : Parser) : Option SyntaxKind := p.peek.map Token.kind

def at_ (p : Parser) (k : SyntaxKind) : Bool := p.kind = some k

def atName (p : Parser) (s : String) : Bool := p.peek.any fun t => t.isName s

def atEof (p : Parser) : Bool := p.peek.isNone

def eatTrivia (p : Parser) : Parser :=
  { p with
    done := p.done ++ p.rest.takeWhile Token.isTrivia
    rest := p.rest.dropWhile Token.isTrivia
    children := p.children ++ (p.rest.takeWhile Token.isTrivia).map .token }

/-- The next token goes into the tree; a newline ends a recovery. -/
def take (p : Parser) : Parser :=
  match p.rest with
  | [] => p
  | t :: ts =>
      { p with
        done := p.done ++ [t]
        rest := ts
        children := p.children ++ [.token t]
        suppress := p.suppress && t.kind ≠ .newline }

def report (p : Parser) (code : String) (index : Nat) (expected found : Option String)
    (message : String) : Parser :=
  { p with
    diagnostics := p.diagnostics ++
      [⟨code, index, spanAfter p.file (textOf ((p.done ++ p.rest).take index)), expected, found,
        message⟩] }

end Parser

/-- What works on the parser; it may not end in the depth given to it. -/
def M (α : Type) := Parser → Option α × Parser

instance : Monad M where
  pure a := fun p => (some a, p)
  bind m f := fun p => match m p with
    | (some a, p') => f a p'
    | (none, p') => (none, p')

/-- A sequence goes on from what its first half gives, and stops where that stops. -/
theorem bind_some {α β : Type} {m : M α} {f : α → M β} {a : α} {p q : Parser}
    (h : m p = (some a, q)) : (m >>= f) p = f a q := by
  show (match m p with
    | (some a, p') => f a p'
    | (none, p') => (none, p')) = f a q
  rw [h]

theorem bind_none {α β : Type} {m : M α} {f : α → M β} {p q : Parser} (h : m p = (none, q)) :
    (m >>= f) p = (none, q) := by
  show (match m p with
    | (some a, p') => f a p'
    | (none, p') => (none, p')) = (none, q)
  rw [h]

def look {α : Type} (f : Parser → α) : M α := fun p => (some (f p), p)

def update (f : Parser → Parser) : M Unit := fun p => (some (), f p)

/-- If this is ahead. -/
def whenAt (f : Parser → Bool) (m : M Unit) : M Unit := do
  if ← look f then m else pure ()

def unlessAt (f : Parser → Bool) (m : M Unit) : M Unit := do
  if ← look f then pure () else m

def at_ (k : SyntaxKind) : M Bool := look (·.at_ k)

def atName (s : String) : M Bool := look (·.atName s)

def bump : M Unit := update fun p => p.eatTrivia.take

/-- What `m` builds becomes a node's children. -/
def node {α : Type} (k : SyntaxKind) (m : M α) : M α := fun p =>
  let p := p.eatTrivia
  match m { p with children := [] } with
  | (r, q) => (r, { q with children := p.children ++ [.node k q.children] })

/-- From a checkpoint. -/
def frame {α : Type} (m : M α) : M α := fun p =>
  let p := p.eatTrivia
  match m { p with children := [] } with
  | (r, q) => (r, { q with children := p.children ++ q.children })

/-- A node started at the checkpoint. -/
def wrap {α : Type} (k : SyntaxKind) (m : M α) : M α := fun p =>
  match m p with
  | (r, q) => (r, { q with children := [.node k q.children] })

/-! ## Errors -/

/-- Take tokens to the end of the line. -/
def toNewline : Nat → M Unit
  | 0 => pure ()
  | n + 1 => do
      match ← look Parser.kind with
      | none => pure ()
      | some .newline => pure ()
      | some _ => do
          bump
          toNewline n

theorem toNewline_stop {p : Parser} (n : Nat) (h : p.kind = none ∨ p.kind = some .newline) :
    toNewline (n + 1) p = (some (), p) := by
  show (match p.kind with
    | none => pure ()
    | some .newline => pure ()
    | some _ => do
        bump
        toNewline n : M Unit) p = (some (), p)
  rcases h with h | h <;> rw [h] <;> rfl

theorem toNewline_bump {p : Parser} {k : SyntaxKind} (n : Nat) (h : p.kind = some k)
    (hk : k ≠ .newline) : toNewline (n + 1) p = toNewline n (bump p).2 := by
  show (match p.kind with
    | none => pure ()
    | some .newline => pure ()
    | some _ => do
        bump
        toNewline n : M Unit) p = _
  rw [h]
  cases k with
  | newline => exact absurd rfl hk
  | _ => rfl

/-- Report E0101 at the next significant token, and take the rest of the line. -/
def error (expected context : String) : M Unit := do
  if ← look Parser.suppress then pure ()
  else do
    update fun p => { p.report "E0101" p.peekIndex expected (foundText p.peek)
      ("parse error " ++ context) with suppress := true }
    node .error (fun p => toNewline p.rest.length p)

/-- A body ran into a keyword of the top: the block was never closed. -/
def missingEnd (context : String) : M Unit := do
  if ← look Parser.suppress then pure ()
  else update fun p => { p.report "E0101" p.peekIndex "`end`" (foundText p.peek)
    ("parse error " ++ context) with suppress := true }

def expect (k : SyntaxKind) (context : String) : M Bool := do
  if ← at_ k then do
    bump
    pure true
  else do
    error k.describe context
    pure false

def expectName (s context : String) : M Bool := do
  if ← atName s then do
    bump
    pure true
  else do
    error ("`" ++ s ++ "`") context
    pure false

def wantName (s context : String) : M Unit := do
  let _ ← expectName s context
  pure ()

def bumpNewline : M Unit := whenAt (·.at_ .newline) bump

def expectNewline (context : String) : M Unit := unlessAt Parser.atEof do
  unlessAt (·.at_ .newline) (error "end of line" context)
  bumpNewline

/-- Expected, and nothing to do without it. -/
def want (k : SyntaxKind) (context : String) : M Unit := do
  let _ ← expect k context
  pure ()

/-! ## Expressions -/

/-- The calls of the parser to itself, its loops among them. -/
inductive Rule where
  | tops | statements | stmt | header | pipes
  | arg | expr | not_ | unary | commas | entries | ors | ands | adds | muls | dots
  deriving DecidableEq, Repr

abbrev Calls := Rule → M Unit

/-- `arg (, arg)*`. -/
def args (go : Calls) : M Unit := node .args do
  go .arg
  go .commas

def commas (go : Calls) : M Unit := do
  if ← at_ .comma then do
    bump
    go .arg
    go .commas
  else pure ()

def recordEntry (go : Calls) : M Unit := node .recordEntry do
  if ← look fun p => p.at_ .name || p.at_ .upperName || p.at_ .string then do
    bump
    if ← expect .colon "after the record key" then go .arg else pure ()
  else error "a record key" "in a record"

def entries (go : Calls) : M Unit := do
  if ← at_ .comma then do
    bump
    recordEntry go
    go .entries
  else pure ()

def dots (go : Calls) : M Unit := do
  if ← at_ .dot then do
    bump
    want .name "after `.`"
    go .dots
  else pure ()

/-- A call of the reference there is, when a parenthesis follows. -/
def called (go : Calls) : M Unit := whenAt (·.at_ .lParen) <| wrap .call do
  bump
  unlessAt (·.at_ .rParen) (args go)
  want .rParen "to close the call"

def reference (go : Calls) : M Unit := frame do
  node .ref do
    bump
    go .dots
  called go

/-- Between a bracket and its other half, unless it closes at once. -/
def bracket (k close : SyntaxKind) (context : String) (m : M Unit) : M Unit := node k do
  bump
  unlessAt (·.at_ close) m
  want close context

def literal : M Unit := node .literal bump

def paren (go : Calls) : M Unit := node .paren do
  bump
  go .expr
  want .rParen "to close the parenthesis"

def list (go : Calls) : M Unit := bracket .list .rBrack "to close the list" do
  go .arg
  go .commas

def record (go : Calls) : M Unit := bracket .record .rBrace "to close the record" do
  recordEntry go
  go .entries

/-- What starts with a token of this kind. -/
def operand (go : Calls) : Option SyntaxKind → M Unit
  | some .string => do
      if ← look fun p => p.peek.any Token.closed then literal
      else error "a closing quote" "in a string"
  | some .int => literal
  | some .float => literal
  | some .atom => literal
  | some .duration => literal
  | some .name => do
      if ← look fun p => p.atName "true" || p.atName "false" then literal else reference go
  | some .upperName => node .ref bump
  | some .lParen => paren go
  | some .lBrack => list go
  | some .percentBrace => record go
  | _ => error "an expression" "here"

def postfix_ (go : Calls) : M Unit := do
  operand go (← look Parser.kind)

def unary (go : Calls) : M Unit := do
  if ← at_ .minus then node .unary do
    bump
    go .unary
  else postfix_ go

/-- While an operator is next: a node of what is there, the operator and what `next`
takes. -/
def chain (op : M Bool) (next again : M Unit) : M Unit := do
  if ← op then do
    wrap .binary do
      bump
      next
    again
  else pure ()

def atKinds (ks : List SyntaxKind) : M Bool := look fun p => ks.any p.at_

def muls (go : Calls) : M Unit := chain (atKinds [.star, .slash, .percent]) (unary go) (go .muls)

def mul (go : Calls) : M Unit := frame do
  unary go
  go .muls

def adds (go : Calls) : M Unit := chain (atKinds [.plus, .minus]) (mul go) (go .adds)

def add (go : Calls) : M Unit := frame do
  mul go
  go .adds

/-- Comparisons do not chain. -/
def cmp (go : Calls) : M Unit := frame do
  add go
  chain (atKinds [.lt, .le, .gt, .ge, .eqEq, .bangEq]) (add go) (pure ())

def not_ (go : Calls) : M Unit := do
  if ← atName "not" then node .unary do
    bump
    go .not_
  else cmp go

def ands (go : Calls) : M Unit := chain (atName "and") (not_ go) (go .ands)

def and_ (go : Calls) : M Unit := frame do
  not_ go
  go .ands

def ors (go : Calls) : M Unit := chain (atName "or") (and_ go) (go .ors)

def or_ (go : Calls) : M Unit := frame do
  and_ go
  go .ors

def expr (go : Calls) : M Unit := or_ go

/-- A keyword argument (`name: arg`, nesting allowed) or an expression. -/
def arg (go : Calls) : M Unit := do
  if ← look fun p => (p.at_ .name || p.at_ .upperName || p.at_ .string) &&
      p.peek2.map Token.kind = some .colon then node .kw do
    bump
    bump
    go .arg
  else expr go

/-! ## Statements -/

def asName : M Unit := whenAt (·.atName "as") do
  bump
  want .name "after `as`"

/-- `call (, kw)* (as NAME)?` without its newline. -/
def step (go : Calls) : M Unit := node .step do
  postfix_ go
  go .commas
  asName

def pipes (go : Calls) : M Unit := do
  if ← at_ .pipeGt then do
    bump
    step go
    go .pipes
  else pure ()

/-- `step (|> step)* NEWLINE`. -/
def stepOrPipeline (go : Calls) : M Unit := do
  frame do
    step go
    whenAt (·.at_ .pipeGt) (wrap .pipeline (go .pipes))
  expectNewline "after the step"

/-- A keyword line: `keyword (:)? args NEWLINE`. -/
def line (go : Calls) : M Unit := node .line do
  bump
  whenAt (·.at_ .colon) bump
  unlessAt (fun p => p.at_ .newline || p.atEof) (args go)
  expectNewline "after the line"

def defs : List String :=
  ["defprobe", "defprim", "defop", "defplan", "defrole", "defprotocol", "defimpl"]

def blocks : List String := ["site", "operators", "hooks", "par", "preflight"]

def atNames (names : List String) : M Bool := look fun p => names.any p.atName

/-- Statements until `end` or `else` or the end of the file. -/
def body (go : Calls) : M Unit := node .body do
  go .statements
  update Parser.eatTrivia

/-- What is between a `do` and its `end`. -/
def enclosed (go : Calls) (context : String) (middle : M Unit) : M Unit := do
  expectNewline "after `do`"
  body go
  middle
  wantName "end" context
  expectNewline "after `end`"

/-- `KEYWORD do NEWLINE body end NEWLINE`. -/
def block (go : Calls) : M Unit := node .block do
  bump
  if ← expectName "do" "after the block keyword" then
    enclosed go "to close the block" (pure ())
  else pure ()

def when_ (go : Calls) : M Unit := node .when_ do
  bump
  args go
  if ← expectName "do" "after the when guard" then
    enclosed go "to close the when" <| whenAt (·.atName "else") <| node .elseArm do
      bump
      expectNewline "after `else`"
      body go
  else pure ()

def turn (header : Bool) : M Unit := update fun p =>
  { p with turns := p.turns ++ [⟨header, p.suppress, p.rest⟩] }

def headerPart (go : Calls) : M Unit := do
  if ← at_ .comma then bump
  else if ← atName "as" then asName
  else go .arg

/-- `repeat INT as NAME do` or `repeat over: expr, as NAME, max: INT do`. -/
def header (go : Calls) : M Unit := do
  turn true
  unlessAt (fun p => p.atName "do" || p.at_ .newline || p.atEof) do
    headerPart go
    go .header

def repeat_ (go : Calls) : M Unit := node .repeat_ do
  bump
  go .header
  if ← expectName "do" "after the repeat header" then
    enclosed go "to close the repeat" (pure ())
  else pure ()

def contribution (go : Calls) : M Unit := node .contribution do
  bump
  whenAt (·.at_ .int) bump
  if ← at_ .name then go .stmt
  else do
    error "an item" "after the slot name"
    bumpNewline

def knell (go : Calls) : M Unit := node .knell do
  bump
  stepOrPipeline go

def assert_ (go : Calls) : M Unit := node .assert do
  bump
  args go
  expectNewline "after the assertion"

def slot : M Unit := node .slot do
  bump
  want .atom "after `slot`"
  expectNewline "after the slot name"

def observe (go : Calls) : M Unit := node .observe do
  bump
  expr go
  let as ← expectName "as" "after the probe call"
  whenAt (fun _ => as) (want .name "after `as`")
  expectNewline "after the observe"

/-- What is ahead decides the form of a statement. -/
def stmtForm (go : Calls) : M Unit := do
  if ← at_ .atom then contribution go
  else if !(← at_ .name) then do
    error "a statement" "in a body"
    bumpNewline
  else if ← atNames blocks then block go
  else if ← atName "knell" then knell go
  else if ← atName "slot" then slot
  else if ← atName "observe" then observe go
  else if ← atName "assert" then assert_ go
  else if ← atName "repeat" then repeat_ go
  else if ← atName "when" then when_ go
  else if ← look fun p => p.peek2.any fun t => t.kind = .lParen || t.kind = .dot then
    stepOrPipeline go
  else line go

def stmt (go : Calls) : M Unit := do
  if ← look Parser.atEof then pure ()
  else stmtForm go

/-- A statement that took nothing is stepped over by one token. -/
def statement (go : Calls) : M Unit := do
  let before ← look fun p => p.done.length
  go .stmt
  whenAt (fun p => decide (p.done.length = before)) (node .error bump)

def statements (go : Calls) : M Unit := do
  if ← look fun p => p.atEof || p.atName "end" || p.atName "else" then pure ()
  else if ← at_ .newline then do
    bump
    go .statements
  else if ← atNames (defs ++ ["import", "site"]) then
    missingEnd "to close the block before this definition"
  else do
    statement go
    go .statements

/-! ## The file -/

def import_ : M Unit := node .import_ do
  bump
  let named ← expect .string "after `import`"
  whenAt (fun _ => named) asName
  expectNewline "after the import"

/-- A clause pattern: an expression with an optional `= name` capture. -/
def pattern (go : Calls) : M Unit := node .pattern do
  expr go
  whenAt (·.at_ .eq) do
    bump
    want .name "after `=` in a pattern"

def firstArg (go : Calls) (patterned : Bool) : M Unit := if patterned then pattern go else go .arg

/-- `defX :name (, pattern)? (, kw)*`. -/
def defHeader (go : Calls) (patterned : Bool) : M Bool := node .header do
  let ok ← expect .atom "after the definition keyword"
  whenAt (fun p => ok && p.at_ .comma) do
    bump
    firstArg go patterned
    go .commas
  pure ok

def def_ (go : Calls) : M Unit := node .def_ do
  let patterned ← look fun p => p.atName "defop" || p.atName "defplan"
  bump
  if ← defHeader go patterned then do
    if ← expectName "do" "after the definition's header" then
      enclosed go "to close the definition" (pure ())
    else pure ()
  else pure ()

def topForm (go : Calls) : M Unit := do
  if ← atNames defs then def_ go
  else if ← atName "site" then block go
  else if ← atName "import" then import_
  else error "a definition, `site`, or `import`" "at the top of the file"

def top (go : Calls) : M Unit := do
  if ← at_ .newline then bump
  else do
    topForm go
    bumpNewline

def tops (go : Calls) : M Unit := do
  turn false
  unlessAt Parser.atEof do
    top go
    go .tops

def rule (go : Calls) : Rule → M Unit
  | .tops => tops go
  | .statements => statements go
  | .stmt => stmt go
  | .header => header go
  | .pipes => pipes go
  | .arg => arg go
  | .expr => expr go
  | .not_ => not_ go
  | .unary => unary go
  | .commas => commas go
  | .entries => entries go
  | .ors => ors go
  | .ands => ands go
  | .adds => adds go
  | .muls => muls go
  | .dots => dots go

/-- The parser with calls of itself this deep. -/
def run : Nat → Calls
  | 0, _ => fun p => (none, p)
  | n + 1, r => rule (run n) r

def languageVersion : Nat := 0

/-- A decimal that fits 32 bits, or the greatest that does. -/
def parseU32 (ds : List Char) : Nat :=
  min (ds.foldl (fun n d => 10 * n + (d.toNat - '0'.toNat)) 0) (2 ^ 32 - 1)

/-- The integer that is next. -/
def Parser.int (p : Parser) : Option Nat :=
  (p.peek.filter fun t => t.kind = .int).map fun t => parseU32 t.text

/-- After the keyword: the version, reported at the keyword when it is newer. -/
def marker (index : Nat) : M Unit := do
  bump
  match ← look Parser.int with
  | some v => do
    whenAt (fun _ => languageVersion < v) <|
      update (·.report "E0105" index "`rescind 0`" ("`rescind " ++ toString v ++ "`")
        ("language version " ++ toString v ++ " is newer than this compiler reads (0)"))
    bump
    expectNewline "after the version marker"
  | none => do
    error "an integer" "after `rescind`"
    bumpNewline

theorem marker_none {index : Nat} {p : Parser} (h : (bump p).2.int = none) :
    marker index p = (do
      error "an integer" "after `rescind`"
      bumpNewline) (bump p).2 := by
  show (match (bump p).2.int with
    | some v => do
      whenAt (fun _ => languageVersion < v) <|
        update (·.report "E0105" index "`rescind 0`" ("`rescind " ++ toString v ++ "`")
          ("language version " ++ toString v ++ " is newer than this compiler reads (0)"))
      bump
      expectNewline "after the version marker"
    | none => do
      error "an integer" "after `rescind`"
      bumpNewline) (bump p).2 = _
  rw [h]

theorem marker_some {index v : Nat} {p : Parser} (h : (bump p).2.int = some v) :
    marker index p = (do
      whenAt (fun _ => languageVersion < v) <|
        update (·.report "E0105" index "`rescind 0`" ("`rescind " ++ toString v ++ "`")
          ("language version " ++ toString v ++ " is newer than this compiler reads (0)"))
      bump
      expectNewline "after the version marker") (bump p).2 := by
  show (match (bump p).2.int with
    | some v => do
      whenAt (fun _ => languageVersion < v) <|
        update (·.report "E0105" index "`rescind 0`" ("`rescind " ++ toString v ++ "`")
          ("language version " ++ toString v ++ " is newer than this compiler reads (0)"))
      bump
      expectNewline "after the version marker"
    | none => do
      error "an integer" "after `rescind`"
      bumpNewline) (bump p).2 = _
  rw [h]

/-- `rescind INT`, first, with the keyword at `index`. -/
def versionAt (index : Nat) : M Unit := do
  let rue ← atName "rue"
  if ← look fun p => p.atName "rescind" || rue then do
    whenAt (fun _ => rue) <| update (·.report "E0610" index "`rescind 0`" "`rue`"
      ("the version line names `rue`, which is what this language was called before v0.4.0" ++
        " (new in v0.4.0: write `rescind` where the version line says `rue`)"))
    node .version (marker index)
  else update (·.report "E0105" 0 "`rescind 0` on the first line" none
    "language version marker missing")

def version : M Unit := do
  versionAt (← look Parser.peekIndex)

/-- The children of the file's node. -/
def file_ (go : Calls) : M Unit := do
  version
  go .tops
  update Parser.eatTrivia

/-- The tree and the diagnostics, if the parser ends in this depth. -/
def parse (n : Nat) (ts : List Token) (file : String) : Option (Tree × List Diagnostic) :=
  match file_ (run n) { file, rest := ts } with
  | (some (), p) => some (.node .file p.children, p.diagnostics)
  | (none, _) => none

end Rescind.Surface
