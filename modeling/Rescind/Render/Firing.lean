/-
# `Rescind.Render.Firing` — what a fired artifact does

The sh template as the command line a scheduler runs, over the files of its target.
Every covered step is a section of its own: the files of the step are compared with
the digests its marker records, the actions run, and the marker goes.  `set -e` is not
in force, so a line that fails is passed over.

A file is a text here and a path names at most one; a directory, a mode and another
process at the same files are not modelled.  What the host's own programs do (`sh -c`,
the digest, how a shell reads a number, whether a path can be written) is the
machine's.
-/
import Rescind.Lib.Killed
import Rescind.Render.Artifact
import Rescind.Render.Helpers

namespace Rescind.Render

open Lib

/-- The files of a target, each a text. -/
abbrev Tree := String → Option (List Char)

/-- The programs of a target. -/
structure Machine where
  awk : Awk
  /-- What `sha` prints of a file's text. -/
  digest : List Char → List Char
  /-- `[ … -ge … ]`: the integer a text spells. -/
  integer : List Char → Option Int
  /-- `$((…))`: the number a variable's text stands for. -/
  arith : List Char → Option Int
  /-- `sh -c`. -/
  command : String → Tree → Tree
  /-- What `sh -c` may leave where it is killed. -/
  halfway : String → Tree → Tree → Prop
  writable : String → Bool
  /-- The directories of `$ROOT/instances`. -/
  instances : List String
  integer_nat : ∀ n : Nat, integer (toString n).toList = some (n : Int)
  arith_nat : ∀ n : Nat, arith (toString n).toList = some (n : Int)

/-- How the host lock was come by. -/
inductive Lock where
  /-- `lockf` or `flock` gave it. -/
  | held
  /-- Neither is there: the run goes on unlocked. -/
  | without
  /-- It was not given in time. -/
  | late
  deriving DecidableEq, Repr

/-! ## Paths -/

namespace Context

/-- A file of the instance directory. -/
def file (c : Context) (name : String) : String := c.dir ++ ("/" ++ name)

def marker (c : Context) (n : Nat) : String := c.file ("markers/" ++ toString n)

def snapshot (c : Context) (n k : Nat) : String :=
  c.file ("snapshots/" ++ toString n ++ "/" ++ toString k)

end Context

/-- The name a file is written under before it is moved into place. -/
def tmpOf (p : String) : String := p ++ ".rescind-tmp"

/-! ## The host's commands -/

/-- `$(…)`: final newlines are dropped. -/
def substituted (s : List Char) : List Char := s.rdropWhile (· = '\n')

section
variable (m : Machine)

/-- Output into a file, after the text `old` leaves there.  A killed one leaves a
beginning of what it puts out. -/
def into (p : String) (old out : Tree → List Char) : Cmd Tree :=
  .act (fun f => if m.writable p then (true, Function.update f p (some (old f ++ out f))) else (false, f))
    fun f g => m.writable p = true ∧ ∃ w, w <+: out f ∧ g = Function.update f p (some (old f ++ w))

/-- `> p`. -/
def overwrite (p : String) (out : Tree → List Char) : Cmd Tree := into m p (fun _ => []) out

/-- `>> p`. -/
def appendTo (p : String) (out : List Char) : Cmd Tree := into m p (fun f => (f p).getD []) fun _ => out

/-- `rm -f p`. -/
def rm (p : String) : Cmd Tree :=
  .act (fun f => if m.writable p then (true, Function.update f p none) else (false, f)) fun _ _ => False

/-- `mv p q`. -/
def mv (p q : String) : Cmd Tree :=
  .act (fun f => match f p with
    | some t =>
        if m.writable p && m.writable q then (true, Function.update (Function.update f p none) q (some t))
        else (false, f)
    | none => (false, f)) fun _ _ => False

/-- `cp p q`. -/
def cp (p q : String) : Cmd Tree :=
  .andThen (.test fun f => (f p).isSome) (overwrite m q fun f => (f p).getD [])

/-! ## The helpers -/

/-- `sha`. -/
def sha (f : Tree) (p : String) : List Char := (f p).elim missing.toList m.digest

/-- The file becomes what is put out, by way of its temporary name. -/
def replace (p : String) (out : Tree → List Char) : Cmd Tree :=
  .andThen (overwrite m (tmpOf p) out) (mv m (tmpOf p) p)

/-- `strip_region`. -/
def stripRegionOf (p anchor : String) : Cmd Tree :=
  .andThen (.test fun f => (f p).any fun s => regionIntact s anchor)
    (replace m p fun f => (f p).elim [] fun s => printed m.awk s anchor)

/-- `region_set`. -/
def regionSetOf (p anchor : String) (content : List Char) : Cmd Tree :=
  .seq (stripRegionOf m p anchor) (replace m p fun f => (f p).getD [] ++ (beginMarker anchor ++
    '\n' :: content ++ '\n' :: endMarker anchor ++ ['\n']))

/-- `restore`. -/
def restore (snapshot p : String) : Cmd Tree :=
  .andThen (cp m snapshot (tmpOf p)) (mv m (tmpOf p) p)

variable (c : Context)

/-- A step's number in a report. -/
def line (n : Nat) : List Char := (toString n).toList ++ ['\n']

/-- `defer`. -/
def defer (n : Nat) : Cmd Tree := appendTo m (c.file "drift") (line n)

/-- `clobbered`. -/
def clobbered (n : Nat) : Cmd Tree := appendTo m (c.file "clobbered") (line n)

/-- `foreign_region`. -/
def foreignRegionAt (f : Tree) (p : String) : Bool :=
  foreignRegionIn c.inst.id (m.instances.filterMap fun i =>
    (f (c.root ++ "/instances/" ++ i ++ "/manifest")).map (i, ·)) p

/-! ## A step's section -/

/-- Whether a file is not what the step's marker records of it. -/
def changedAt (n : Nat) (f : Tree) (p : String) : Bool :=
  sha m f p != substituted (Text.unlines (recorded m.awk ((f (c.marker n)).getD []) p))

/-- What is done about a region whose markers are damaged. -/
def damaged (lock : Lock) (drift : Drift) (n k : Nat) (p : String) : Cmd Tree :=
  match drift with
  | .clobber =>
      .cond (.test fun f => lock = .without || foreignRegionAt m c f p) (defer m c n)
        (.seq (restore m (c.snapshot n k) p) (clobbered m c n))
  | .defer => defer m c n

/-- An action of a step. -/
def Action.cmd (lock : Lock) (drift : Drift) (n : Nat) : Action → Cmd Tree
  | .remove p => rm m p
  | .stripRegion p anchor k => .orElse (stripRegionOf m p anchor) (damaged m c lock drift n k p)
  | .restoreSnapshot p k => restore m (c.snapshot n k) p
  | .run command => .act (fun f => (true, m.command command f)) (m.halfway command)
  | .write p content => overwrite m p fun _ => content.toList
  | .append p line => appendTo m p (line.toList ++ ['\n'])
  | .regionSet p anchor content => regionSetOf m p anchor content.toList
  | .regionClear p anchor => .orElse (stripRegionOf m p anchor) (.done true)

namespace Step

/-- The files its drift check compares. -/
def plain (s : Step) : List String := (s.files.filter fun f => f.kind ≠ .region).map FileFact.path

/-- The actions, and the marker gone. -/
def undo (lock : Lock) (s : Step) : Cmd Tree :=
  .seq (.block (s.actions.map (Action.cmd m c lock s.drift s.n))) (rm m (c.marker s.n))

/-- Under `:clobber` every changed file is reported. -/
def reports (s : Step) : Cmd Tree :=
  .block (s.plain.map fun p => .orElse (.test fun f => !changedAt m c s.n f p) (clobbered m c s.n))

/-- What a marked step does. -/
def marked (lock : Lock) (s : Step) : Cmd Tree :=
  match s.drift with
  | .defer => .cond (.test fun f => s.plain.any (changedAt m c s.n f)) (defer m c s.n) (s.undo m c lock)
  | .clobber => .seq (s.reports m c) (s.undo m c lock)

/-- The section. -/
def cmd (lock : Lock) (s : Step) : Cmd Tree :=
  .cond (.test fun f => (f (c.marker s.n)).isSome) (s.marked m c lock) (.done true)

end Step

/-! ## The artifact -/

/-- Whether a bound of the plan's triggers has passed.  A heartbeat that is no number
ends the script. -/
def due (now : Nat) (f : Tree) : Bool :=
  let late := c.deadline && (f (c.file "deadline")).any fun t =>
    (m.integer (substituted t)).any fun d => decide (d ≤ (now : Int))
  match c.heartbeatS with
  | none => late
  | some s =>
      match f (c.file "heartbeat") with
      | none => true
      | some t =>
          match m.arith (substituted t) with
          | none => false
          | some h => late || decide ((s : Int) < now - h)

/-- The sections in the artifact's order, and its mark that it has fired. -/
def sections (lock : Lock) : Cmd Tree :=
  .seq (.block (c.steps.map (Step.cmd m c lock))) (overwrite m (c.file "fired") fun _ => [])

/-- The artifact, run at a time. -/
def firing (now : Nat) (lock : Lock) : Cmd Tree :=
  .cond (.test fun f => (f (c.file "fired")).isSome) (.done true) <|
    .cond (.test (due m c now)) (if lock = .late then .done false else sections m c lock) (.done true)

end

end Rescind.Render
