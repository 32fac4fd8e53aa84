/-
# `Rescind.Render.Command` — the command lines an artifact is given

A `run` of a covered step's undo as the sh template bakes it: every reference of
the command resolved from the bindings and quoted for the shell that will read
it, and the whole handed to `sh -c` in quotes again.

    a baked line hands `sh -c` the command                  (`commandOf_runLine`)
-/
import Rescind.Lib.Quoting
import Rescind.Engine.Footprint

namespace Rescind.Render

open Lib

/-! ## Quoting -/

inductive Family where
  | posix | powershell | python
  deriving DecidableEq, Repr

/-- A value that cannot be quoted safely for a family (E0109). -/
structure Unquotable where
  family : Family
  value : String
  found : Char
  deriving DecidableEq, Repr

def isControl (c : Char) : Bool := c.toNat < 0x20 || (0x7f ≤ c.toNat && c.toNat ≤ 0x9f)

def readable (c : Char) : Bool := !isControl c || c = '\t' || c = '\n' || c = '\r'

def refuse (family : Family) (s : String) (bad : Char → Bool) : Except Unquotable Unit :=
  match s.toList.find? bad with
  | some found => .error ⟨family, s, found⟩
  | none => .ok ()

/-- Single quotes, with `'\''` for an embedded one. -/
def posix (s : String) : Except Unquotable String := do
  refuse .posix s fun c => !readable c
  pure (String.ofList (Shell.quoted s.toList))

/-- A quote within PowerShell's single quotes is doubled. -/
def doubleQuote (c : Char) : List Char := if c = '\'' then ['\'', '\''] else [c]

def powershell (s : String) : Except Unquotable String := do
  refuse .powershell s fun c => !readable c
  pure (String.ofList ('\'' :: s.toList.flatMap doubleQuote ++ ['\'']))

/-- A character of a Python string literal. -/
def escapePython (c : Char) : List Char :=
  if c = '\\' then ['\\', '\\']
  else if c = '\'' then ['\\', '\'']
  else if c = '\n' then ['\\', 'n']
  else if c = '\t' then ['\\', 't']
  else if c = '\r' then ['\\', 'r']
  else if isControl c then ['\\', 'x', Nat.digitChar (c.toNat / 16), Nat.digitChar (c.toNat % 16)]
  else [c]

def python (s : String) : Except Unquotable String := do
  refuse .python s fun c => c.toNat = 0
  pure (String.ofList ('\'' :: s.toList.flatMap escapePython ++ ['\'']))

/-- Quote for a family. -/
def quote : Family → String → Except Unquotable String
  | .posix => posix
  | .powershell => powershell
  | .python => python

/-! ## Values -/

/-- What a render bakes in: the parameters of the request, and the fields of the
host record beyond its name and os. -/
structure Bindings where
  params : Vars
  hostFields : Vars
  deriving DecidableEq, Repr

inductive RenderError where
  | noBackstop
  /-- The backstop covers no step. -/
  | notTarget
  | unknownHost (host : String)
  /-- No template for the host's os and artifact language (E0403). -/
  | unsupported (os : String) (language : ArtifactLanguage)
  | unbound (step : Nat) (name : String)
  | notBakeable (step : Nat) (what : String)
  | unquotable (step : Nat) (inner : Unquotable)
  /-- Not a static `file:` path. -/
  | unobservable (step : Nat) (shape : String)
  deriving DecidableEq, Repr

/-- The bindings of an instance on its host. -/
def bindings (params : Vars) (host : Host) : Bindings :=
  ⟨params, host.facts.insert "address" host.address⟩

/-- A reference as the text it bakes to.  An artifact runs no probe, and knows
neither the controller nor a secret. -/
def resolve (step : Nat) (r : Ref) (host : HostRecord) (b : Bindings) : Except RenderError String :=
  match r with
  | .param n =>
      match b.params.get n with
      | some v => .ok v
      | none => .error (.unbound step n)
  | .host f =>
      if f = "name" then .ok host.name
      else if f = "os" then .ok host.os
      else match b.hostFields.get f with
        | some v => .ok v
        | none => .error (.unbound step ("host." ++ f))
  | .fact _ | .output _ _ _ | .controller _ | .secret _ =>
      .error (.notBakeable step ("reference " ++ r.label))

/-- A text as a family spells it, or the refusal of the step that bakes it. -/
def bake (family : Family) (step : Nat) (s : String) : Except RenderError String :=
  match quote family s with
  | .ok t => .ok t
  | .error e => .error (.unquotable step e)

/-- The sh template's own. -/
def q (step : Nat) (s : String) : Except RenderError String := bake .posix step s

def shellFamily : Shell → Family
  | .posix => .posix
  | .powershell => .powershell

/-- A command for the host's shell: literal parts as they are, every
interpolation quoted. -/
def runText (step : Nat) (cmd : Template) (shell : Shell) (host : HostRecord) (b : Bindings) :
    Except RenderError String :=
  match cmd with
  | [] => .ok ""
  | .lit s :: cmd => do
      let rest ← runText step cmd shell host b
      pure (s ++ rest)
  | .ref r :: cmd => do
      let v ← resolve step r host b
      let quoted ← bake (shellFamily shell) step v
      let rest ← runText step cmd shell host b
      pure (quoted ++ rest)

/-- The line of the sh artifact that runs a command. -/
def runLine (step : Nat) (cmd : Template) (host : HostRecord) (b : Bindings) :
    Except RenderError String := do
  let command ← runText step cmd .posix host b
  let quoted ← q step command
  pure ("    sh -c " ++ quoted ++ "\n")

/-! ## What the shell reads of a line -/

/-- The command a line hands to `sh -c`. -/
def commandOf (r : Shell.Reading) : Option (List Char) :=
  match r.tokens with
  | [.word sh, .word c, .word command] =>
      if sh = Shell.literals "sh".toList ∧ c = Shell.literals "-c".toList then
        some (command.map Shell.Glyph.char)
      else none
  | _ => none

theorem toList_posix {s t : String} (h : posix s = .ok t) : t.toList = Shell.quoted s.toList := by
  unfold posix refuse at h
  cases hf : s.toList.find? fun c => !readable c with
  | some c => rw [hf] at h; cases h
  | none =>
      rw [hf] at h
      cases h
      rw [String.toList_ofList]

theorem toList_powershell {s t : String} (h : powershell s = .ok t) :
    t.toList = '\'' :: s.toList.flatMap doubleQuote ++ ['\''] := by
  unfold powershell refuse at h
  cases hf : s.toList.find? fun c => !readable c with
  | some c => rw [hf] at h; cases h
  | none =>
      rw [hf] at h
      cases h
      rw [String.toList_ofList]

theorem bake_eq_ok {family : Family} {step : Nat} {s t : String} :
    bake family step s = .ok t ↔ quote family s = .ok t := by
  unfold bake
  cases quote family s with
  | error e => exact ⟨nofun, nofun⟩
  | ok u => exact ⟨fun h => congrArg _ (Except.ok.inj h), fun h => congrArg _ (Except.ok.inj h)⟩

theorem bake_shellFamily_posix (step : Nat) (s : String) :
    bake (shellFamily .posix) step s = q step s := rfl

theorem toList_q {step : Nat} {s t : String} (h : q step s = .ok t) :
    t.toList = Shell.quoted s.toList :=
  toList_posix (bake_eq_ok.mp h)

theorem readable_quoted {cs : List Char} (h : ∀ c ∈ cs, readable c = true) :
    ∀ c ∈ Shell.quoted cs, readable c = true := by
  intro c hc
  simp only [Shell.quoted, List.mem_append, List.mem_cons, List.mem_flatMap, List.not_mem_nil,
    or_false] at hc
  rcases hc with (rfl | ⟨d, hd, hc⟩) | rfl
  · decide
  · unfold Shell.escapeQuote at hc
    split at hc
    · simp only [List.mem_cons, List.not_mem_nil, or_false] at hc
      rcases hc with rfl | rfl | rfl | rfl <;> decide
    · rw [List.mem_singleton.mp hc]
      exact h d hd
  · decide

theorem literals_char (s : List Char) : (Shell.literals s).map Shell.Glyph.char = s := by
  unfold Shell.literals
  rw [List.map_map]
  exact List.map_id s

/-- A baked line hands `sh -c` the command. -/
theorem commandOf_runLine {step : Nat} {cmd : Template} {host : HostRecord} {b : Bindings}
    {line : String} (h : runLine step cmd host b = .ok line) :
    ∃ command, runText step cmd .posix host b = .ok command ∧
      commandOf (Shell.read line.toList) = some command.toList := by
  unfold runLine at h
  cases ht : runText step cmd .posix host b with
  | error e => rw [ht] at h; cases h
  | ok command =>
      rw [ht] at h
      cases hq : q step command with
      | error e => simp only [bind, Except.bind, hq] at h; cases h
      | ok quoted =>
          simp only [bind, Except.bind, hq] at h
          cases h
          refine ⟨command, rfl, ?_⟩
          have hl : ("    sh -c " ++ quoted ++ "\n").toList =
              "    sh -c ".toList ++ (Shell.quoted command.toList ++ ['\n']) := by
            rw [String.toList_append, String.toList_append, toList_q hq, List.append_assoc]
            rfl
          have hs : ({} : Shell.Lexer).feeds "    sh -c ".toList =
              { done := [.word (Shell.literals "sh".toList), .word (Shell.literals "-c".toList)] } := by
            decide
          have hread : Shell.read ("    sh -c " ++ quoted ++ "\n").toList =
              ⟨[.word (Shell.literals "sh".toList), .word (Shell.literals "-c".toList),
                .word (Shell.literals command.toList)], .complete⟩ := by
            unfold Shell.read
            rw [hl, Shell.Lexer.feeds_append, hs, Shell.Lexer.feeds_append,
              Shell.Lexer.feeds_quoted rfl rfl, Shell.Lexer.feeds_cons, Shell.Lexer.feeds_nil]
            refine (Shell.Lexer.finish_newline ?_ fun h => Bool.false_ne_true h.2).1.trans ?_
            · exact Shell.Lexer.wellFormed_of_mode (.inl rfl) fun _ => rfl
            · rfl
          rw [hread]
          simp only [commandOf, and_self, if_true, literals_char]

end Rescind.Render
