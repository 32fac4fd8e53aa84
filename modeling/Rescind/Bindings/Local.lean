/-
# `Rescind.Bindings.Local` — the controller as a target

What `local()` does to the files of the machine it runs on, each a text.  A body is run
primitive by primitive and ends with the first that fails; a file is written under a
temporary name and moved into place; a region is set and stripped by the engine's rule.
What a command printed is scrubbed of the body's secrets before anything is read off it:
the lines that bind outputs, the rest of its stdout, the last line of its stderr.

What a command does and prints, and which paths can be written, is the machine's.  A
directory, the mode of a file and a file that cannot be read are not modelled.
-/
import Rescind.Lib.Replace
import Rescind.Render.Firing

namespace Rescind

open Lib

/-! ## Scrubbing -/

/-- What stands in a secret's place. -/
def secretMark : List Char := "<secret>".toList

/-- A value to scrub: a secret, and not empty. -/
def secretIn (r : Resolved) : List String := if r.secret && r.text ≠ "" then [r.text] else []

def secretsOfPrim : RPrim → List String
  | .run cmd env stdin =>
      secretIn cmd ++ env.flatMap (fun kv => secretIn kv.2) ++ stdin.toList.flatMap secretIn
  | .write _ content | .regionSet _ _ content | .stage _ content _ => secretIn content
  | .append _ line => secretIn line
  | .hook _ args => args.flatMap fun kv => secretIn kv.2
  | .call _ cmd => secretIn cmd
  | .remove _ | .regionClear _ _ | .install _ | .release _ => []

/-- Every secret value the body carries, for scrubbing. -/
def secretsOf (body : List RPrim) : List String := body.flatMap secretsOfPrim

def scrub (text : List Char) (secrets : List String) : List Char :=
  secrets.foldl (fun t s => replace s.toList secretMark t) text

/-- What a command left: its exit code, and the bytes it printed. -/
structure Printed where
  code : Int32
  stdout : Bytes
  stderr : Bytes

namespace Local

open Render (Tree tmpOf)

/-- What `sh` returns of a command: the exit code, and both texts scrubbed. -/
def sh (secrets : List String) (ran : Printed) : Int32 × List Char × List Char :=
  (ran.code, scrub (Bytes.lossy ran.stdout) secrets, scrub (Bytes.lossy ran.stderr) secrets)

/-- The machine the executor runs on. -/
structure Machine where
  /-- The shell, given a command with its environment and its stdin. -/
  shell : String → List (String × String) → Option String → Tree → Except String Printed × Tree
  writable : String → Bool
  /-- What the system says of a path that cannot be written. -/
  why : String → String

/-! ## Output -/

/-- What the commands of a body printed, and the outputs they declared. -/
structure Output where
  stdout : List Char := []
  outputs : Vars := []
  deriving DecidableEq, Repr

/-- The stdout line that binds a declared output. -/
def outputPrefix : List Char := "rescind-output ".toList

/-- What a line of stdout binds. -/
def outputOf (l : List Char) : Option (String × String) :=
  ((Text.dropPrefix outputPrefix l).bind (Text.cut '=')).map fun kv =>
    (String.ofList (Text.trim kv.1), String.ofList kv.2)

/-- Bindings added to bindings. -/
def extend (vs kvs : Vars) : Vars := kvs.foldl (fun vs kv => vs.insert kv.1 kv.2) vs

/-- The outputs a run's stdout declares, and the stdout without those lines. -/
def splitOutputs (stdout : List Char) : List Char × Vars :=
  (Text.unlines ((Text.lines stdout).filter fun l => (Text.dropPrefix outputPrefix l).isNone),
    extend [] ((Text.lines stdout).filterMap outputOf))

/-- What is reported of a command that failed. -/
def exited (code : Int32) (stderr : List Char) : String :=
  "failed: exit " ++ toString code ++ ": " ++
    String.ofList ((Text.lines (Text.trim stderr)).getLast?.getD [])

/-- What a command that ran adds to the output of its body, or how it failed. -/
def took (secrets : List String) (out : Output) (ran : Printed) : Except String Output :=
  let (code, stdout, stderr) := sh secrets ran
  if code ≠ 0 then .error (exited code stderr)
  else
    let (rest, outputs) := splitOutputs stdout
    .ok { stdout := out.stdout ++ rest, outputs := extend out.outputs outputs }

/-! ## Files -/

section
variable (m : Machine)

def io (p : String) : String := "i/o: " ++ m.why p

def pathOf (shape : String) : Prog Tree String String :=
  match filePath shape with
  | some p => pure p
  | none => .fail ("unsupported: " ++ shape ++ " is not a file fact")

/-- A missing file reads as an empty one. -/
def readText (p : String) : Prog Tree String (List Char) := .read fun f => (f p).getD []

/-- Write through a temporary name beside the file and a rename. -/
def writeAtomic (p : String) (t : List Char) : Prog Tree String Unit := do
  .failIf (!m.writable (tmpOf p)) (io m (tmpOf p))
  .edit fun f => Function.update f (tmpOf p) (some t)
  .failIf (!m.writable p) (io m p)
  .edit fun f => Function.update (Function.update f (tmpOf p) none) p (some t)

/-- `fs::remove_file`, where a missing file is none to remove. -/
def remove (p : String) : Prog Tree String Unit := do
  let there ← Prog.read fun f => (f p).isSome
  .when there do
    .failIf (!m.writable p) (io m p)
    .edit fun f => Function.update f p none

/-- One shell command, its environment and its stdin in clear. -/
def spawn (cmd : Resolved) (env : List (String × Resolved)) (stdin : Option Resolved) :
    Prog Tree String Printed := fun f =>
  match m.shell cmd.text (env.map fun kv => (kv.1, kv.2.text)) (stdin.map Resolved.text) f with
  | (.ok ran, g) => (.ok ran, g)
  | (.error e, g) => (.err ("i/o: " ++ e), g)

/-- A command of a body. -/
def command (secrets : List String) (cmd : Resolved) (env : List (String × Resolved))
    (stdin : Option Resolved) (out : Output) : Prog Tree String Output := do
  .ofExcept (took secrets out (← spawn m cmd env stdin))

/-- A line of its own at the end of the text. -/
def appended (text line : List Char) : List Char :=
  (if text.isEmpty || text.getLast? = some '\n' then text else text ++ ['\n']) ++ line ++ ['\n']

/-! ## A body -/

/-- A primitive, in the instance directory `dir`. -/
def prim (dir : String) (secrets : List String) (out : Output) : RPrim → Prog Tree String Output
  | .run cmd env stdin => command m secrets cmd env stdin out
  | .call _ cmd => command m secrets cmd [] none out
  | .write shape content => do
      writeAtomic m (← pathOf shape) content.text.toList
      pure out
  | .remove shape => do
      remove m (← pathOf shape)
      pure out
  | .append shape line => do
      let p ← pathOf shape
      writeAtomic m p (appended (← readText p) line.text.toList)
      pure out
  | .regionSet shape anchor content => do
      let p ← pathOf shape
      writeAtomic m p (regionPut (← readText p) (anchor.getD "") content.text.toList)
      pure out
  | .regionClear shape anchor => do
      let p ← pathOf shape
      match regionStrip (← readText p) (anchor.getD "") with
      | some t => do
          writeAtomic m p t
          pure out
      | none => .fail ("failed: region " ++ anchor.getD "" ++ " of " ++ p ++ " has damaged markers")
  | .stage name content _ => do
      writeAtomic m (dir ++ "/" ++ name) content.text.toList
      pure out
  | .hook name _ =>
      .fail ("unsupported: hook(:" ++ name ++ ") is a hook executor's primitive, not local()'s")
  | .install name | .release name =>
      .fail ("unsupported: " ++ name ++ ": install and release are a hook's primitives, not local()'s")

/-- A body, with what its commands print. -/
def run (dir : String) (body : List RPrim) : Prog Tree String Output :=
  .loop (fun p out => prim m dir (secretsOf body) out p) body {}

/-- A body, with what the engine reads of it: the outputs it declares. -/
def runBody (dir : String) (body : List RPrim) : Prog Tree String ExecOutput := do
  let out ← run m dir body
  pure ⟨out.outputs⟩

/-- The command of a probe, its first. -/
def probeCommand (body : List RPrim) :
    Option (Resolved × List (String × Resolved) × Option Resolved) :=
  body.findSome? fun
    | .run cmd env stdin => some (cmd, env, stdin)
    | _ => none

/-- The text without the white space it ends in. -/
def trimEnd (s : List Char) : List Char := (s.reverse.dropWhile Text.isWhite).reverse

/-- What an exit status answers. -/
def answerOf (code : Int32) : Tri :=
  if code = 0 then .yes else if code = 1 then .no else .unknown

/-- A probe is its first command; its stdout is what was seen. -/
def observe (name : String) (body : List RPrim) : Prog Tree String Observation :=
  match probeCommand body with
  | none => .fail ("unsupported: probe " ++ name ++ " has no run body; local() knows no probe by name")
  | some (cmd, env, stdin) => do
      let (code, stdout, _) := sh (secretsOf body) (← spawn m cmd env stdin)
      pure ⟨String.ofList (trimEnd stdout), some (answerOf code)⟩

/-- The bytes of a fact, or none. -/
def readFact (shape : String) : Prog Tree String (Option Bytes) := do
  let p ← pathOf shape
  .read fun f => (f p).map Bytes.ofText

end

end Local

end Rescind
