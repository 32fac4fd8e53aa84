/-
# `Rescind.Render.Helpers` — the helpers of a rendered artifact

The functions a sh artifact brings along, over the texts of the files they read.
awk and grep go by records: a record ends at a newline and keeps its carriage
return.  What `-v` leaves of a text, and how two texts compare that look like
numbers, is awk's own.

The functions that fence a region are those of the artifact and of every script that
`ssh()` runs.
-/
import Mathlib.Data.List.Infix
import Rescind.Engine.Footprint
import Rescind.Lib.Fields

namespace Rescind.Render

open Lib

/-- An awk. -/
structure Awk where
  /-- What `-v a=…` leaves of a text: escapes are taken out. -/
  assigned : List Char → List Char
  /-- Whether two texts are the same number, where both look like one. -/
  numeric : List Char → List Char → Option Bool
  assigned_plain : ∀ s, '\\' ∉ s → assigned s = s
  numeric_slash : ∀ s t, '/' ∈ s → numeric s t = none

/-- `==` of two texts from outside the program. -/
def Awk.same (A : Awk) (s t : List Char) : Bool := (A.numeric s t).getD (s == t)

/-- `$n`, counted from nought. -/
def field (n : Nat) (row : List (List Char)) : List Char := row[n]?.getD []

/-- `recorded M p`: the third field of every record whose second is `p`. -/
def recorded (A : Awk) (markers : List Char) (p : String) : List (List Char) :=
  ((Text.rows markers).filter fun l => A.same (field 1 (Text.fields l)) (A.assigned p.toList)).map
    fun l => field 2 (Text.fields l)

/-- `grep -F`: some record holds one of the lines of the pattern. -/
def grepF (pattern : String) (s : List Char) : Bool :=
  (Text.rows s).any fun l => (Text.split '\n' pattern.toList).any fun p => decide (p <:+: l)

/-- `foreign_region p`: the manifest of an instance other than `inst` names it. -/
def foreignRegionIn (inst : String) (manifests : List (String × List Char)) (p : String) : Bool :=
  manifests.any fun m => m.1 != inst && grepF ("region " ++ p ++ " ") m.2

/-! ## Regions -/

/-- `grep -c -F -x`: how many records are one of the lines of the pattern. -/
def grepCount (pattern s : List Char) : Nat :=
  (Text.rows s).countP fun l => (Text.split '\n' pattern).contains l

/-- Whether both counts of `strip_region` are one. -/
def regionIntact (s : List Char) (anchor : String) : Bool :=
  grepCount (beginMarker anchor) s = 1 && grepCount (endMarker anchor) s = 1

/-- The anchor as awk has it. -/
def Awk.anchor (A : Awk) (anchor : String) : String := String.ofList (A.assigned anchor.toList)

/-- The records awk prints, each with a newline. -/
def printed (A : Awk) (s : List Char) (anchor : String) : List Char :=
  Text.unlines (stripLines (beginMarker (A.anchor anchor)) (endMarker (A.anchor anchor)) false
    (Text.rows s))

/-- `strip_region`: the file after it, or nothing where the function returns 1 and the
file is as it was. -/
def stripRegion (A : Awk) (s : List Char) (anchor : String) : Option (List Char) :=
  if regionIntact s anchor then some (printed A s anchor) else none

/-- `region_set`: what is left of the file, and then the block. -/
def regionSet (A : Awk) (s : List Char) (anchor : String) (content : List Char) : List Char :=
  (stripRegion A s anchor).getD s ++ (beginMarker anchor ++ '\n' :: content ++ '\n' ::
    endMarker anchor ++ ['\n'])

end Rescind.Render
