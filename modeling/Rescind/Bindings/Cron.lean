/-
# `Rescind.Bindings.Cron` — the crontab edits of the cron binding

An entry is a fenced region of the crontab, anchored by the instance's id.  Each
edit is one pipeline: the crontab is listed, `sed` deletes the range from the
begin line to the end line, the region is printed after it, and the whole is
given to `crontab -`.  Nothing looks at how the listing fared.
-/
import Rescind.Engine.Record
import Rescind.Lib.Fields
import Rescind.Lib.Ranges

namespace Rescind

open Lib

/-- The command the entry runs. -/
def Job.command (job : Job) : String :=
  match job.language with
  | .sh => "/bin/sh " ++ job.artifact
  | .python => "uv run --offline --script " ++ job.artifact
  | .powershell => "powershell -NoProfile -File " ++ job.artifact

namespace Cron

/-- Every minute. -/
def schedule : String := "* * * * *"

def beginLine (inst : String) : List Char := ("# rescind-region " ++ inst ++ " begin").toList

def endLine (inst : String) : List Char := ("# rescind-region " ++ inst ++ " end").toList

/-! ## sed -/

/-- A character that is not special in a basic regular expression, a dot apart,
and does not end one. -/
def ordinary (c : Char) : Bool := c ∉ ['\\', '[', '*', '^', '$', '/', '\n']

/-- A line and an expression of ordinary characters: a dot matches any
character. -/
def dotted : List Char → List Char → Bool
  | [], [] => true
  | p :: ps, c :: cs => (p = '.' || p = c) && dotted ps cs
  | _, _ => false

/-- A sed. -/
structure Sed where
  /-- The lines `/^b$/,/^e$/` ranges from and to; nothing where the script is
  refused. -/
  range : List Char → List Char → Option ((List Char → Bool) × (List Char → Bool))
  range_ordinary : ∀ b e, b.all ordinary = true → e.all ordinary = true →
    range b e = some (dotted b, dotted e)

variable (S : Sed)

/-- The lines the strip script prints. -/
def kept (inst : String) (lines : List (List Char)) : List (List Char) :=
  match S.range (beginLine inst) (endLine inst) with
  | some r => deleteRange r.1 r.2 false lines
  | none => []

/-! ## Edits -/

/-- How the two uses of `crontab` fare: whether it lists, and whether it takes
what it is given. -/
structure Fares where
  lists : Bool
  takes : Bool
  deriving DecidableEq, Repr

/-- What `crontab -l` prints. -/
def listed (f : Fares) (tab : List Char) : List Char := if f.lists then tab else []

/-- The crontab after `crontab -`. -/
def taken (f : Fares) (tab new : List Char) : List Char := if f.takes then new else tab

/-- What the strip pipeline prints. -/
def strip (f : Fares) (inst : String) (tab : List Char) : List Char :=
  Text.unlines (kept S inst (Text.rows (listed f tab)))

/-- What `printf '%s\n'` prints of the region. -/
def region (job : Job) : List Char :=
  Text.unlines [beginLine job.inst, (schedule ++ " " ++ job.command).toList, endLine job.inst]

/-- The crontab after an install. -/
def install (f : Fares) (job : Job) (tab : List Char) : List Char :=
  taken f tab (strip S f job.inst tab ++ region job)

/-- And after a disarm. -/
def disarm (f : Fares) (job : Job) (tab : List Char) : List Char :=
  taken f tab (strip S f job.inst tab)

end Cron

end Rescind
