/-
# `Rescind.Safety.Lossless` — nothing of a source is lost, where the parser ends

Where it ends the tree holds every token, in order, and each ERROR node is on a line a
diagnostic is on.  It ends unless a string runs to a backslash that is the last
character there is, or one of the two loops that do not look whether they took
anything comes, quieted, to a token nothing starts with.

The parser is recursive, and the stack it runs on is not modelled.

**Proved here.**

    the loop at the top leaves nothing                        (`atEof_of_tops`)
    a tree holds the tokens it was parsed from              (`leaves_of_parse`)
    a parser that comes to a dead turn never ends              (`never_of_dead`)
    a source is kept exactly where no string and no loop runs on
                                                               (`lossless_iff`)
    a definition left open before a malformed one              (`Open.not_kept`)
-/
import Rescind.Surface.Depth

namespace Rescind.Surface

/-- The turns told of in parsing to this depth. -/
def turnsOf (n : Nat) (ts : List Token) (file : String) : List Turn :=
  (file_ (run n) { file, rest := ts }).2.turns

/-- Lexing and parsing end; every character is in one token of the tree, in order; and
each ERROR node has a diagnostic on its line. -/
def Kept (src : List Char) (file : String) : Prop :=
  ∃ ts, lex src = some ts ∧ (∀ t ∈ ts, t.text ≠ []) ∧ textOf ts = src ∧
    ∃ n tree ds, parse n ts file = some (tree, ds) ∧ tree.leaves = ts ∧
      ∀ i ∈ tree.errors 0, ∃ d ∈ ds, lineOf ts d.index = lineOf ts i

section
variable {p q : Parser} {n m : Nat} {ts : List Token} {file : String}

/-! ## What is left -/

/-- The loop at the top ends only where nothing is left. -/
theorem atEof_of_tops (h : run n .tops p = (some (), q)) : q.atEof = true := by
  induction n generalizing p with
  | zero => cases h
  | succ n ih =>
      have h : (if (p.told false).atEof = true then pure ()
        else top (run n) >>= fun _ => run n .tops : M Unit) (p.told false) = (some (), q) := h
      by_cases he : (p.told false).atEof = true
      · rw [if_pos he] at h
        obtain ⟨-, rfl⟩ := Prod.mk.inj h
        exact he
      · rw [if_neg he] at h
        obtain ⟨a, r, -, hr, -⟩ := bind_ended (m := top (run n)) (f := fun _ => run n .tops)
          (p := p.told false) (by rw [h]; rfl)
        exact ih (hr.symm.trans h)

theorem rest_of_atEof (h : p.atEof = true) : p.eatTrivia.rest = [] := by
  have hs : significant p.eatTrivia.rest = [] := by
    rw [significant_eatTrivia]
    unfold Parser.atEof Parser.peek at h
    simpa using h
  show p.rest.dropWhile Token.isTrivia = []
  have hs : significant (p.rest.dropWhile Token.isTrivia) = [] := hs
  cases hr : p.rest.dropWhile Token.isTrivia with
  | nil => rfl
  | cons t ts =>
      have ht : t.isTrivia = false := by
        have := List.head?_dropWhile_not Token.isTrivia p.rest
        rw [hr] at this
        exact this
      rw [hr] at hs
      simp [significant, ht] at hs

theorem rest_of_file (h : file_ (run n) p = (some (), q)) : q.rest = [] := by
  obtain ⟨_, r, -, hr, hsome⟩ := bind_ended (m := version)
    (f := fun _ => run n .tops >>= fun _ => update Parser.eatTrivia) (p := p)
    (by rw [show version >>= _ = file_ (run n) from rfl, h]; rfl)
  obtain ⟨_, r', hr', he, -⟩ := bind_ended hsome
  have hq : file_ (run n) p = (some (), r'.eatTrivia) := hr.trans he
  rw [h] at hq
  obtain ⟨-, rfl⟩ := Prod.mk.inj hq
  exact rest_of_atEof (atEof_of_tops hr')

/-! ## The tree -/

theorem parse_eq {tree : Tree} {ds : List Diagnostic} (h : parse n ts file = some (tree, ds)) :
    ∃ q, file_ (run n) { file, rest := ts } = (some (), q) ∧ tree = .node .file q.children ∧
      ds = q.diagnostics := by
  unfold parse at h
  split at h
  next q hq =>
    obtain ⟨rfl, rfl⟩ := Prod.mk.inj (Option.some.inj h)
    exact ⟨q, hq, rfl, rfl⟩
  next => cases h

/-- The tree holds the tokens it was parsed from, and each of its ERROR nodes is on a
line a diagnostic is on. -/
theorem leaves_of_parse {tree : Tree} {ds : List Diagnostic}
    (h : parse n ts file = some (tree, ds)) : tree.leaves = ts ∧
      ∀ i ∈ tree.errors 0, ∃ d ∈ ds, lineOf ts d.index = lineOf ts i := by
  obtain ⟨q, hq, rfl, rfl⟩ := parse_eq h
  have hg : Grows { file, rest := ts } q := by
    have hg := keeps_file n { file, rest := ts }
    rwa [hq] at hg
  have hleaves : q.done = leavesOf q.children := hg.leaves [] rfl
  have htokens : q.done ++ q.rest = ts := hg.tokens
  have hdone : q.done = ts := by rwa [rest_of_file hq, List.append_nil] at htokens
  have hnoted : q.Noted := hg.noted
    ⟨fun hs => absurd hs Bool.false_ne_true, fun _ _ i hi => absurd hi List.not_mem_nil⟩
  refine ⟨hleaves.symm.trans hdone, fun i hi => ?_⟩
  have hi : i ∈ errorsOf 0 q.children := by simpa [Tree.errors] using hi
  obtain ⟨d, hd, hl⟩ := hnoted.2 0 ⟨[], rfl, hleaves⟩ i hi
  rw [htokens] at hl
  exact ⟨d, hd, hl⟩

/-! ## Where the parser ends -/

theorem isSome_parse : (parse n ts file).isSome = (file_ (run n) { file, rest := ts }).1.isSome := by
  unfold parse
  split
  next h => rw [h]; rfl
  next h => rw [h]; rfl

/-- What ends in a depth ends in a greater one. -/
theorem parse_deeper (h : (parse n ts file).isSome = true) (hn : n ≤ m) :
    (parse m ts file).isSome = true := by
  rw [isSome_parse] at h ⊢
  rcases deepens_file hn { file, rest := ts } with he | ⟨hnone, -⟩
  · rwa [← he]
  · rw [hnone] at h
    cases h

/-- Told of in a depth, a dead turn is told of in a greater one. -/
theorem dead_deeper (h : ∃ t ∈ turnsOf n ts file, t.Dead) (hn : n ≤ m) :
    ∃ t ∈ turnsOf m ts file, t.Dead := by
  obtain ⟨t, ht, hd⟩ := h
  refine ⟨t, ?_, hd⟩
  unfold turnsOf at ht ⊢
  rcases deepens_file hn { file, rest := ts } with he | ⟨-, hturns⟩
  · rwa [← he]
  · exact hturns.subset ht

/-- A parser that comes to a dead turn does not end in any depth. -/
theorem never_of_dead (h : ∃ t ∈ turnsOf n ts file, t.Dead) (m : Nat) : parse m ts file = none := by
  by_contra hsome
  have hsome := parse_deeper (Option.isSome_iff_ne_none.mpr hsome) (Nat.le_max_right n m)
  have hdead := dead_deeper h (Nat.le_max_left n m)
  rcases doomed_file (max n m) { file, rest := ts } hdead with ⟨t, ht, -⟩ | hnone
  · exact absurd ht List.not_mem_nil
  · rw [isSome_parse, hnone] at hsome
    cases hsome

/-- The parser ends exactly where it comes to no dead turn. -/
theorem ended_iff : (∃ n, (parse n ts file).isSome = true) ↔ ∀ n, ∀ t ∈ turnsOf n ts file, ¬t.Dead := by
  constructor
  · rintro ⟨n, h⟩ m t ht hd
    rw [never_of_dead ⟨t, ht, hd⟩ n] at h
    cases h
  · intro h
    refine ⟨3 * ts.length + 1, ?_⟩
    rw [isSome_parse]
    refine (ends_file (p := { file, rest := ts }) (Nat.lt_succ_self _)).resolve_left ?_
    rintro ⟨t, ht, hd⟩
    exact h _ t ht hd

end

/-- Exactly then is a source kept: no string runs to a backslash that is the last
character, and no loop comes to a dead turn. -/
theorem lossless_iff (src : List Char) (file : String) : Kept src file ↔
    (∀ cs, Reaches src ('"' :: cs) → lexString cs 0 ≤ cs.length) ∧
      ∀ ts, lex src = some ts → ∀ n, ∀ t ∈ turnsOf n ts file, ¬t.Dead := by
  rw [← lex_isSome_iff]
  constructor
  · rintro ⟨ts, hlex, -, -, n, tree, ds, hparse, -⟩
    refine ⟨by rw [hlex]; rfl, fun ts' h => ?_⟩
    obtain rfl := Option.some.inj (hlex.symm.trans h)
    exact ended_iff.mp ⟨n, by rw [hparse]; rfl⟩
  · rintro ⟨hlex, hturns⟩
    obtain ⟨ts, hts⟩ := Option.isSome_iff_exists.mp hlex
    obtain ⟨n, hn⟩ := ended_iff.mpr (hturns ts hts)
    obtain ⟨⟨tree, ds⟩, hparse⟩ := Option.isSome_iff_exists.mp hn
    obtain ⟨hleaves, herrors⟩ := leaves_of_parse hparse
    exact ⟨ts, hts, nonempty_of_lex hts, text_of_lex hts, n, tree, ds, hparse, hleaves, herrors⟩

/-! ## Sources that are not kept -/

theorem not_kept_of_dead {src : List Char} {ts : List Token} {n : Nat} {file : String}
    (hts : lex src = some ts) (h : ∃ t ∈ turnsOf n ts file, t.Dead) : ¬Kept src file := by
  rintro ⟨ts', hlex, -, -, m, tree, ds, hparse, -⟩
  obtain rfl := Option.some.inj (hlex.symm.trans hts)
  rw [never_of_dead h m] at hparse
  cases hparse

namespace Open

/-- A definition left open before one without a name. -/
def block : List Char := "rescind 0\ndefplan :a do\ndefop 5\n".toList

/-- The header of a `repeat` on the line of an error. -/
def loop : List Char := "rescind 0\ndefplan :a do\ndefop :b do repeat )\n".toList

/-- A string that ends in a backslash, at the end of the file. -/
def string : List Char := "rescind 0\nimport \"a\\".toList

def tokens (src : List Char) : List Token := (lex src).getD []

theorem lex_block : lex block = some (tokens block) := by decide +kernel

theorem lex_loop : lex loop = some (tokens loop) := by decide +kernel

/-- The parser never ends on the first two, and the lexer has nothing for the third. -/
theorem not_kept : ¬Kept block "a.rescind" ∧ ¬Kept loop "a.rescind" ∧ ¬Kept string "a.rescind" := by
  refine ⟨not_kept_of_dead (n := 3) lex_block (by decide +kernel),
    not_kept_of_dead (n := 12) lex_loop (by decide +kernel), ?_⟩
  rintro ⟨ts, hlex, -⟩
  have hnone : lex string = none := by decide +kernel
  rw [hnone] at hlex
  cases hlex

end Open

end Rescind.Surface
