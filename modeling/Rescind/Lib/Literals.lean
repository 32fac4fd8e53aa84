/-
# `Rescind.Lib.Literals` — how other languages read a quoted text

A Python string literal in single quotes and a PowerShell verbatim string, each as
a machine over the characters.  A Python string is a sequence of code points,
surrogates among them; PowerShell takes the typographic single quotes for quotes.

    a character that is itself              (`Python.run_ordinary`, `PowerShell.run_ordinary`)
    an escape of one letter, or of two hexadecimal digits
                                            (`Python.run_letter`, `Python.run_hex`)

A name in braces (`\N{…}`) is looked up by a function the reader is given.
-/
import Rescind.Lib.Text

namespace Rescind.Lib

/-! ## Digits -/

/-- The value of a digit, of either case. -/
def digitValue (c : Char) : Option Nat :=
  if '0' ≤ c ∧ c ≤ '9' then some (c.toNat - '0'.toNat)
  else if 'a' ≤ c ∧ c ≤ 'f' then some (c.toNat - 'a'.toNat + 10)
  else if 'A' ≤ c ∧ c ≤ 'F' then some (c.toNat - 'A'.toNat + 10)
  else none

/-- The value of a digit to a base. -/
def digitIn (base : Nat) (c : Char) : Option Nat := (digitValue c).filter (· < base)

theorem digitIn_digitChar {base d : Nat} (hb : base ≤ 16) (hd : d < base) :
    digitIn base (Nat.digitChar d) = some d := by
  have hv : ∀ d < 16, digitValue (Nat.digitChar d) = some d := by decide
  rw [digitIn, hv d (by omega), Option.filter_some, if_pos (by simpa using hd)]

/-! ## Python -/

namespace Python

/-- Where in a literal the reader stands. -/
inductive State where
  | plain
  /-- Right after a backslash. -/
  | escape
  /-- An octal escape, with how many digits it may still have. -/
  | octal (left value : Nat)
  /-- A hexadecimal escape, with how many digits it must still have. -/
  | hex (left value : Nat)
  /-- Right after `\N`. -/
  | brace
  | name (acc : List Char)
  | closed
  deriving DecidableEq, Repr

/-- A character that is no part of an escape. -/
def feedPlain (c : Char) : Option (List Nat × State) :=
  if c = '\\' then some ([], .escape)
  else if c = '\'' then some ([], .closed)
  else if c = '\n' ∨ c = '\r' ∨ c.toNat = 0 then none
  else some ([c.toNat], .plain)

/-- The escapes of one letter. -/
def letterEscapes : List (Char × Nat) :=
  [('\\', 0x5c), ('\'', 0x27), ('"', 0x22), ('a', 7), ('b', 8), ('f', 12), ('n', 10), ('r', 13),
    ('t', 9), ('v', 11)]

/-- The escapes that count their digits. -/
def hexEscapes : List (Char × Nat) := [('x', 2), ('u', 4), ('U', 8)]

def feedEscape (c : Char) : Option (List Nat × State) :=
  match letterEscapes.lookup c with
  | some n => some ([n], .plain)
  | none =>
      match hexEscapes.lookup c with
      | some n => some ([], .hex n 0)
      | none =>
          match digitIn 8 c with
          | some d => some ([], .octal 2 d)
          | none =>
              if c = '\n' then some ([], .plain)
              else if c = 'N' then some ([], .brace)
              -- an unknown escape keeps its backslash
              else (feedPlain c).map fun r => (0x5c :: r.1, r.2)

/-- One character: the code points it completes, and where the reader stands. -/
def feed (named : List Char → Option Nat) : State → Char → Option (List Nat × State)
  | .plain, c => feedPlain c
  | .escape, c => feedEscape c
  | .octal left value, c =>
      match left, digitIn 8 c with
      | left + 1, some d => some ([], .octal left (8 * value + d))
      | _, _ => (feedPlain c).map fun r => (value :: r.1, r.2)
  | .hex left value, c =>
      (digitIn 16 c).bind fun d =>
        let value := 16 * value + d
        if 1 < left then some ([], .hex (left - 1) value)
        else if value < 0x110000 then some ([value], .plain) else none
  | .brace, c => if c = '\x7b' then some ([], .name []) else none
  | .name acc, c =>
      if c = '\x7d' then (named acc.reverse).map fun n => ([n], .plain) else some ([], .name (c :: acc))
  | .closed, _ => none

/-- The rest of a literal, to its quote and no further. -/
def run (named : List Char → Option Nat) : State → List Char → Option (List Nat)
  | .closed, [] => some []
  | _, [] => none
  | s, c :: cs => (feed named s c).bind fun r => (run named r.2 cs).map (r.1 ++ ·)

/-- What a literal in single quotes evaluates to; three quotes open another kind
of literal.  `named` are the characters that have names. -/
def eval (named : List Char → Option Nat) : List Char → Option (List Nat)
  | '\'' :: '\'' :: '\'' :: _ => none
  | '\'' :: cs => run named .plain cs
  | _ => none

variable {named : List Char → Option Nat}

/-- A literal whose text begins with no quote. -/
theorem eval_quote {d : Char} (h : d ≠ '\'') (r : List Char) :
    eval named ('\'' :: d :: r) = run named .plain (d :: r) := by
  unfold eval
  split
  next heq =>
    injection heq with _ heq
    injection heq with hd
    exact absurd hd h
  next heq =>
    injection heq with _ heq
    rw [heq]
  next hne => exact absurd rfl (hne (d :: r))

/-- A character that is itself. -/
theorem run_ordinary {c : Char} (hb : c ≠ '\\') (hq : c ≠ '\'') (hn : c ≠ '\n') (hr : c ≠ '\r')
    (h0 : c.toNat ≠ 0) (r : List Char) :
    run named .plain (c :: r) = (run named .plain r).map (c.toNat :: ·) := by
  have hf : feedPlain c = some ([c.toNat], .plain) := by
    rw [feedPlain, if_neg hb, if_neg hq, if_neg (not_or.mpr ⟨hn, not_or.mpr ⟨hr, h0⟩⟩)]
  rw [run, feed, hf]
  rfl

/-- An escape of one letter. -/
theorem run_letter {c : Char} {n : Nat} (h : letterEscapes.lookup c = some n) (r : List Char) :
    run named .plain ('\\' :: c :: r) = (run named .plain r).map (n :: ·) := by
  have hf : feed named .escape c = some ([n], .plain) := by rw [feed, feedEscape, h]
  have hb : feed named .plain '\\' = some ([], .escape) := rfl
  rw [run, hb, Option.bind_some, run, hf, Option.bind_some, Option.map_map]
  rfl

/-- Two hexadecimal digits. -/
theorem run_hex {hi lo : Nat} (hh : hi < 16) (hl : lo < 16) (r : List Char) :
    run named .plain ('\\' :: 'x' :: Nat.digitChar hi :: Nat.digitChar lo :: r) =
      (run named .plain r).map ((16 * hi + lo) :: ·) := by
  have hb : feed named .plain '\\' = some ([], .escape) := rfl
  have hx : feed named .escape 'x' = some ([], .hex 2 0) := rfl
  have h₁ : feed named (.hex 2 0) (Nat.digitChar hi) = some ([], .hex 1 hi) := by
    simp [feed, digitIn_digitChar (by decide) hh]
  have h₂ : feed named (.hex 1 hi) (Nat.digitChar lo) = some ([16 * hi + lo], .plain) := by
    have hlt : 16 * hi + lo < 0x110000 := by omega
    simp [feed, digitIn_digitChar (by decide) hl, hlt]
  rw [run, hb, Option.bind_some, run, hx, Option.bind_some, run, h₁, Option.bind_some, run, h₂]
  simp only [Option.bind_some, Option.map_map]
  rfl

end Python

/-! ## PowerShell -/

namespace PowerShell

/-- What PowerShell takes for a single quote. -/
def isQuote (c : Char) : Bool := c = '\'' || (0x2018 ≤ c.toNat && c.toNat ≤ 0x201b)

/-- The rest of a verbatim string; `pending` after a quote that closes it unless
another follows. -/
def run : Bool → List Char → Option (List Char)
  | pending, [] => if pending then some [] else none
  | false, c :: cs => if isQuote c then run true cs else (run false cs).map (c :: ·)
  | true, c :: cs => if isQuote c then (run false cs).map (c :: ·) else none

/-- What a verbatim string evaluates to. -/
def eval : List Char → Option (List Char)
  | [] => none
  | c :: cs => if isQuote c then run false cs else none

theorem run_ordinary {c : Char} (h : isQuote c = false) (r : List Char) :
    run false (c :: r) = (run false r).map (c :: ·) := by
  rw [run, if_neg (by rw [h]; exact Bool.false_ne_true)]

/-- A doubled quote. -/
theorem run_doubled (r : List Char) :
    run false ('\'' :: '\'' :: r) = (run false r).map ('\'' :: ·) := rfl

end PowerShell

end Rescind.Lib
