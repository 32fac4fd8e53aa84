/-
# `Rescind.Bindings.Ssh` — a region over ssh

The lines of the script that set and clear a region on the target: the anchor in
quotes, the content in octal, decoded there by `printf` inside `$(…)`.  What that
leaves of a text is the target shell's.
-/
import Rescind.Render.Command
import Rescind.Render.Helpers

namespace Rescind.Ssh

open Lib Render

/-! ## Values -/

/-- A byte as `printf '%b'` reads it. -/
def octalByte (b : UInt8) : List Char :=
  ['\\', '0', Nat.digitChar (b.toNat / 64), Nat.digitChar (b.toNat / 8 % 8),
    Nat.digitChar (b.toNat % 8)]

def octal (s : String) : List Char := (Bytes.ofString s).flatMap octalByte

/-- A text less the newlines it ends in. -/
def lessNewlines (s : List Char) : List Char := (s.reverse.dropWhile (· = '\n')).reverse

/-- A target, by what its shell leaves of a text. -/
structure Target where
  /-- `$(printf '%b' '…')`. -/
  decoded : List Char → List Char
  decoded_octal : ∀ s : String, '\x00' ∉ s.toList → decoded (octal s) = lessNewlines s.toList

/-- An executor's refusal of what it cannot write in a script. -/
structure Unsupported where
  why : Unquotable
  deriving DecidableEq, Repr

def q (s : String) : Except Unsupported String :=
  match posix s with
  | .ok t => .ok t
  | .error why => .error ⟨why⟩

/-! ## The two lines -/

/-- `region_set <path> <anchor> <content>`: the file after it. -/
def regionSet (A : Awk) (T : Target) (s : List Char) (anchor content : String) :
    Except Unsupported (List Char) := do
  let _ ← q anchor
  pure (Render.regionSet A s anchor (T.decoded (octal content)))

/-- `strip_region <path> <anchor>`: the file after it, or nothing where the script
fails. -/
def regionClear (A : Awk) (s : List Char) (anchor : String) :
    Except Unsupported (Option (List Char)) := do
  let _ ← q anchor
  pure (stripRegion A s anchor)

end Rescind.Ssh
