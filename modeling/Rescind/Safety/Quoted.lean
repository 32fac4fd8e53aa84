/-
# `Rescind.Safety.Quoted` — what quoting keeps

A quoted value is read back as itself by the language it was quoted for, and a
command quoted for the shell may stand in a line that is quoted for Python.
PowerShell takes the typographic single quotes for quotes, which are not
doubled: its part is about texts without them.  What is refused is what would be
unreadable in a listing, and in Python a NUL.

    each language reads back what was quoted for it, and
      nesting composes                                  (`quoting_exact`)

The languages are read by the readers of `Rescind.Lib`; a locale or a profile that
changes how they read is not in them.
-/
import Rescind.Render.Command
import Rescind.Lib.Literals

namespace Rescind.Render

open Lib

/-! ## The shell -/

/-- Quoted words with a space between. -/
def spaced : List (List Char) → List Char
  | [] => []
  | [v] => Shell.quoted v
  | v :: vs => Shell.quoted v ++ ' ' :: spaced vs

theorem feeds_spaced (ts : List Shell.Token) (v r : List Char) :
    ({ done := ts } : Shell.Lexer).feeds (Shell.quoted v ++ ' ' :: r) =
      ({ done := ts ++ [.word (Shell.literals v)] } : Shell.Lexer).feeds r := by
  rw [Shell.Lexer.feeds_append, Shell.Lexer.feeds_quoted rfl rfl, Shell.Lexer.feeds_cons]
  rfl

/-- A word at the end of a line is one more word. -/
theorem finish_quoted (ts : List Shell.Token) (v : List Char) :
    (({ done := ts } : Shell.Lexer).feeds (Shell.quoted v)).finish =
      ⟨ts ++ [.word (Shell.literals v)], .complete⟩ := by
  rw [Shell.Lexer.feeds_quoted rfl rfl]
  have hd : Shell.dropBreaks (ts ++ [.word (Shell.literals v)]) = ts ++ [.word (Shell.literals v)] :=
    List.rdropWhile_concat_neg _ _ _ (by simp [Shell.isNewline])
  simp [Shell.Lexer.finish, Shell.Lexer.close, Shell.Lexer.endWord, Shell.Lexer.delimit_of_quoted,
    Shell.Lexer.ending, hd]

/-- Quoted words are read as the words. -/
theorem read_spaced (vs : List (List Char)) :
    Shell.read (spaced vs) = ⟨vs.map fun v => .word (Shell.literals v), .complete⟩ := by
  have hrun : ∀ (vs : List (List Char)) (ts : List Shell.Token), vs ≠ [] →
      (({ done := ts } : Shell.Lexer).feeds (spaced vs)).finish =
        ⟨ts ++ vs.map fun v => .word (Shell.literals v), .complete⟩ := by
    intro vs
    induction vs with
    | nil => exact fun _ h => absurd rfl h
    | cons v vs ih =>
        intro ts _
        cases vs with
        | nil => exact finish_quoted ts v
        | cons w vs =>
            rw [spaced, feeds_spaced, ih _ (List.cons_ne_nil w vs), List.append_assoc]
            · rfl
            · exact List.cons_ne_nil w vs
  cases vs with
  | nil => rfl
  | cons v vs => exact hrun (v :: vs) [] (List.cons_ne_nil v vs)

/-- The line that hands a command to `sh -c`. -/
theorem read_line (command : List Char) :
    Shell.read ("sh -c ".toList ++ Shell.quoted command) =
      ⟨[.word (Shell.literals "sh".toList), .word (Shell.literals "-c".toList),
        .word (Shell.literals command)], .complete⟩ := by
  have hs : ({} : Shell.Lexer).feeds "sh -c ".toList =
      { done := [.word (Shell.literals "sh".toList), .word (Shell.literals "-c".toList)] } := by
    decide
  rw [Shell.read, Shell.Lexer.feeds_append, hs, finish_quoted]
  rfl

/-! ## What is refused -/

theorem refuse_eq_ok {f : Family} {s : String} {bad : Char → Bool} :
    refuse f s bad = .ok () ↔ ∀ c ∈ s.toList, bad c = false := by
  unfold refuse
  cases hf : s.toList.find? bad with
  | some c =>
      refine iff_of_false (by intro h; cases h) fun h => ?_
      have hb := List.find?_some hf
      rw [h c (List.mem_of_find?_eq_some hf)] at hb
      cases hb
  | none => exact iff_of_true rfl fun c hc => by simpa using List.find?_eq_none.mp hf c hc

/-- A quoter refuses just the texts with a character that is bad for it. -/
theorem refused_iff {f : Family} {s : String} {bad : Char → Bool} {g : Unit → String} :
    (∃ e, (refuse f s bad >>= fun u => pure (g u) : Except Unquotable String) = .error e) ↔
      ∃ c ∈ s.toList, bad c = true := by
  have hiff : refuse f s bad = .ok () ↔ ∀ c ∈ s.toList, bad c = false := refuse_eq_ok
  cases hr : refuse f s bad with
  | error e =>
      refine iff_of_true ⟨e, rfl⟩ ?_
      by_contra hn
      have hok := hiff.mpr fun c hc => by
        cases hb : bad c with
        | true => exact absurd ⟨c, hc, hb⟩ hn
        | false => rfl
      rw [hr] at hok
      cases hok
  | ok u =>
      refine iff_of_false (fun ⟨e, he⟩ => by cases he) ?_
      rintro ⟨c, hc, hb⟩
      rw [hiff.mp hr c hc] at hb
      cases hb

theorem readable_eq_false {c : Char} :
    (!readable c) = true ↔ isControl c = true ∧ c ≠ '\t' ∧ c ≠ '\n' ∧ c ≠ '\r' := by
  cases h : isControl c <;> simp [readable, h, and_assoc]

/-! ## Python -/

variable {named : List Char → Option Nat}

/-- A character as it is spelled is read back. -/
theorem run_escapePython {c : Char} (h0 : c.toNat ≠ 0) (r : List Char) :
    Python.run named .plain (escapePython c ++ r) =
      (Python.run named .plain r).map (c.toNat :: ·) := by
  unfold escapePython
  by_cases hb : c = '\\'
  · subst hb
    exact Python.run_letter rfl r
  by_cases hq : c = '\''
  · subst hq
    exact Python.run_letter rfl r
  by_cases hn : c = '\n'
  · subst hn
    exact Python.run_letter rfl r
  by_cases ht : c = '\t'
  · subst ht
    exact Python.run_letter rfl r
  by_cases hr : c = '\r'
  · subst hr
    exact Python.run_letter rfl r
  rw [if_neg hb, if_neg hq, if_neg hn, if_neg ht, if_neg hr]
  by_cases hc : isControl c = true
  · -- a control character is below 256
    have hlt : c.toNat < 256 := by
      simp only [isControl, Bool.or_eq_true, Bool.and_eq_true, decide_eq_true_eq] at hc
      omega
    have hv : 16 * (c.toNat / 16) + c.toNat % 16 = c.toNat := by omega
    have hx : Python.run named .plain ('\\' :: 'x' :: Nat.digitChar (c.toNat / 16) ::
        Nat.digitChar (c.toNat % 16) :: r) =
        (Python.run named .plain r).map ((16 * (c.toNat / 16) + c.toNat % 16) :: ·) :=
      Python.run_hex (by omega) (by omega) r
    rw [if_pos hc]
    rwa [hv] at hx
  · rw [if_neg hc]
    exact Python.run_ordinary hb hq hn hr h0 r

/-- No spelling begins with a quote. -/
theorem escapePython_head {c d : Char} {r : List Char} (h : escapePython c = d :: r) : d ≠ '\'' := by
  unfold escapePython at h
  repeat' split at h
  all_goals
    injection h with h
    subst h
  all_goals first
    | decide
    | assumption

theorem escapePython_ne_nil (c : Char) : escapePython c ≠ [] := by
  unfold escapePython
  repeat' split
  all_goals exact List.cons_ne_nil _ _

theorem toList_python {s t : String} (h : python s = .ok t) :
    t.toList = '\'' :: s.toList.flatMap escapePython ++ ['\''] ∧ ∀ c ∈ s.toList, c.toNat ≠ 0 := by
  unfold python at h
  cases hr : refuse .python s fun c => c.toNat = 0 with
  | error e => rw [hr] at h; cases h
  | ok u =>
      rw [hr] at h
      cases h
      refine ⟨String.toList_ofList, fun c hc => ?_⟩
      simpa using refuse_eq_ok.mp hr c hc

theorem eval_python {s t : String} (h : python s = .ok t) :
    Python.eval named t.toList = some (s.toList.map Char.toNat) := by
  obtain ⟨ht, h0⟩ := toList_python h
  have hrun : ∀ cs : List Char, (∀ c ∈ cs, c.toNat ≠ 0) →
      Python.run named .plain (cs.flatMap escapePython ++ ['\'']) = some (cs.map Char.toNat) := by
    intro cs
    induction cs with
    | nil => exact fun _ => rfl
    | cons c cs ih =>
        intro hcs
        rw [List.flatMap_cons, List.append_assoc, run_escapePython (hcs c List.mem_cons_self),
          ih fun d hd => hcs d (List.mem_cons_of_mem _ hd)]
        rfl
  have hopen : Python.eval named ('\'' :: (s.toList.flatMap escapePython ++ ['\''])) =
      Python.run named .plain (s.toList.flatMap escapePython ++ ['\'']) := by
    cases hs : s.toList with
    | nil => rfl
    | cons c cs =>
        cases hc : escapePython c with
        | nil => exact absurd hc (escapePython_ne_nil c)
        | cons d r =>
            rw [List.flatMap_cons, hc]
            exact Python.eval_quote (escapePython_head hc) _
  rw [ht, List.cons_append, hopen, hrun _ h0]

/-! ## PowerShell -/

/-- The quotes PowerShell takes for quotes and the quoter does not double. -/
def isTypographic (c : Char) : Bool := 0x2018 ≤ c.toNat && c.toNat ≤ 0x201b

theorem eval_powershell {s t : String} (hs : ∀ c ∈ s.toList, isTypographic c = false)
    (h : powershell s = .ok t) : PowerShell.eval t.toList = some s.toList := by
  have hrun : ∀ cs : List Char, (∀ c ∈ cs, isTypographic c = false) →
      PowerShell.run false (cs.flatMap doubleQuote ++ ['\'']) = some cs := by
    intro cs
    induction cs with
    | nil => exact fun _ => rfl
    | cons c cs ih =>
        intro hcs
        have ih' := ih fun d hd => hcs d (List.mem_cons_of_mem _ hd)
        rw [List.flatMap_cons, List.append_assoc]
        by_cases hc : c = '\''
        · subst hc
          exact (PowerShell.run_doubled _).trans (congrArg (Option.map ('\'' :: ·)) ih')
        · have hq : PowerShell.isQuote c = false := by
            have ht := hcs c List.mem_cons_self
            simpa [PowerShell.isQuote, hc, isTypographic] using ht
          rw [doubleQuote, if_neg hc, List.singleton_append, PowerShell.run_ordinary hq, ih']
          rfl
  rw [toList_powershell h, List.cons_append]
  exact hrun _ hs

/-! ## Quoting is exact -/

/-- What each language makes of a text quoted for it, and what is refused. -/
structure ReadBack (named : List Char → Option Nat) : Prop where
  /-- The shell reads one word, the text. -/
  posix : ∀ s t, posix s = .ok t →
    Shell.read t.toList = ⟨[.word (Shell.literals s.toList)], .complete⟩
  /-- Python evaluates the literal to the text. -/
  python : ∀ s t, python s = .ok t → Python.eval named t.toList = some (s.toList.map Char.toNat)
  /-- So does PowerShell, of a text without typographic quotes. -/
  powershell : ∀ s t, (∀ c ∈ s.toList, isTypographic c = false) → powershell s = .ok t →
    PowerShell.eval t.toList = some s.toList
  /-- Words quoted into a command, the command into a `sh -c` line and the line
  into a Python literal come out again one by one. -/
  nested : ∀ (args : List String) (words : List String) (command quoted line literal : String),
    List.Forall₂ (fun a w => Render.posix a = .ok w) args words → command = " ".intercalate words →
    Render.posix command = .ok quoted → line = "sh -c " ++ quoted →
    Render.python line = .ok literal →
    Python.eval named literal.toList = some (line.toList.map Char.toNat) ∧
      commandOf (Shell.read line.toList) = some command.toList ∧
      Shell.read command.toList = ⟨args.map fun a => .word (Shell.literals a.toList), .complete⟩
  /-- Nothing is refused for a shell but a control character other than tab,
  newline and carriage return. -/
  refused : ∀ f s, f ≠ Family.python → ((∃ e, quote f s = .error e) ↔
    ∃ c ∈ s.toList, isControl c = true ∧ c ≠ '\t' ∧ c ≠ '\n' ∧ c ≠ '\r')
  /-- And nothing for Python but a NUL. -/
  refusedPython : ∀ s, (∃ e, quote .python s = .error e) ↔ ∃ c ∈ s.toList, c.toNat = 0

/-- Words that were quoted one by one make a line of quoted words. -/
theorem toList_words {args words : List String}
    (h : List.Forall₂ (fun a w => posix a = .ok w) args words) :
    (" ".intercalate words).toList = spaced (args.map String.toList) := by
  induction h with
  | nil => rfl
  | @cons a w args words ha hs ih =>
      cases hs with
      | nil =>
          rw [String.intercalate_singleton, toList_posix ha]
          rfl
      | @cons b x args words hb hs =>
          rw [String.intercalate_cons_cons, String.toList_append, String.toList_append, ih,
            toList_posix ha, List.append_assoc]
          rfl

/-- Each language reads back what was quoted for it, nesting composes, and what
is refused is a control character a listing would not show. -/
theorem quoting_exact (named : List Char → Option Nat) : ReadBack named where
  posix s t h := by rw [toList_posix h, Shell.read_quoted]
  python s t h := eval_python h
  powershell s t hs h := eval_powershell hs h
  nested args words command quoted line literal hw hc hq hl hp := by
    refine ⟨eval_python hp, ?_, ?_⟩
    · rw [hl, String.toList_append, toList_posix hq, read_line]
      simp only [commandOf, and_self, if_true, literals_char]
    · rw [hc, toList_words hw, read_spaced, List.map_map]
      rfl
  refused f s hf := by
    cases f with
    | python => exact absurd rfl hf
    | posix => exact refused_iff.trans (by simp only [readable_eq_false])
    | powershell => exact refused_iff.trans (by simp only [readable_eq_false])
  refusedPython s := refused_iff.trans (by simp only [decide_eq_true_eq])

/-- A bell is refused though the shell can carry it. -/
theorem bell_refused : ¬ ∀ s : String, (∃ e, posix s = .error e) →
    ¬ ∃ t, Shell.read t = ⟨[.word (Shell.literals s.toList)], .complete⟩ := by
  intro h
  exact h "\x07" ⟨_, rfl⟩ ⟨_, Shell.read_quoted _⟩

end Rescind.Render
