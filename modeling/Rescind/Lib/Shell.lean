/-
# `Rescind.Lib.Shell` — how a POSIX shell takes a text apart

Token recognition and quoting, as the shell command language has them: words,
operators, comments, the three quotings, numbers before a redirection, unquoted
words the grammar takes for its own, and, for each character of a word, whether an
assignment or an expansion still sees it.  The lexer is a fold over the text; what
has been delimited is never changed, and a word in progress only grows:

    a delimited token stands for good                       (`Lexer.Emitted.feeds`)
    a word in progress keeps its first characters           (`Lexer.Begins.feeds`)
    newlines at the end change nothing, unless escaped      (`read_dropNewlines_iff`)

The inside of `$(…)`, of a parameter in braces, of backquotes and of a
here-document is read by rules of its own: from the first of them on the text
is given as it stands.  The grammar is not parsed: a reserved word and the `NAME=` of
an assignment are told wherever they stand, and a name where a function may be
defined of it only right before the parenthesis.  No alias is known.
-/
import Mathlib.Data.List.Basic
import Mathlib.Data.List.DropRight

namespace Rescind.Lib.Shell

/-! ## Characters -/

/-- What a character is to the shell, outside quotes. -/
inductive Kind where
  | newline | blank | single | double | backslash | backquote | dollar | hash | tilde
  | pattern | bracket | operator | equals | colon | ordinary
  deriving DecidableEq, Repr

def kind (c : Char) : Kind :=
  if c = '\n' then .newline
  else if c = ' ' ∨ c = '\t' then .blank
  else if c = '\'' then .single
  else if c = '"' then .double
  else if c = '\\' then .backslash
  else if c = '\x60' then .backquote
  else if c = '$' then .dollar
  else if c = '#' then .hash
  else if c = '~' then .tilde
  else if c = '*' ∨ c = '?' then .pattern
  else if c = '[' then .bracket
  else if c = '|' ∨ c = '&' ∨ c = ';' ∨ c = '<' ∨ c = '>' ∨ c = '(' ∨ c = ')' then .operator
  else if c = '=' then .equals
  else if c = ':' then .colon
  else .ordinary

/-- A character a parameter's name starts with. -/
def isNameStart (c : Char) : Bool := c.isAlpha || c = '_'

def isNameChar (c : Char) : Bool := c.isAlphanum || c = '_'

/-- The parameters named by one character. -/
def isSpecialParameter (c : Char) : Bool :=
  c.isDigit || c = '@' || c = '*' || c = '#' || c = '?' || c = '-' || c = '$' || c = '!'

/-! ## Words -/

/-- Whether a character only stands for itself, or is seen by an assignment or an
expansion, outside quotes or within double quotes. -/
inductive Force where
  | literal | active | quoted
  deriving DecidableEq, Repr

structure Glyph where
  char : Char
  force : Force
  deriving DecidableEq, Repr

/-- A text that only stands for itself. -/
def literals (s : List Char) : List Glyph := s.map (⟨·, .literal⟩)

inductive Token where
  | word (glyphs : List Glyph)
  /-- The number right before a redirection. -/
  | number (glyphs : List Glyph)
  /-- An unquoted word the grammar takes for its own, or for a name. -/
  | keyword (glyphs : List Glyph)
  /-- One character of an operator, and whether it goes on the one before. -/
  | op (c : Char) (joined : Bool)
  deriving DecidableEq, Repr

def isDigits (gs : List Glyph) : Bool :=
  gs.all fun g => g.force = .literal && g.char.isDigit

/-- The characters of a name, which an assignment, a loop or a function is given. -/
def isName : List Glyph → Bool
  | [] => false
  | g :: gs => isNameStart g.char && gs.all fun g => isNameChar g.char

/-- The words the grammar reserves, and those a shell may reserve. -/
def reservedWords : List String :=
  ["!", "\x7b", "\x7d", "case", "do", "done", "elif", "else", "esac", "fi", "for", "if", "in",
    "then", "until", "while", "[[", "]]", "function", "namespace", "select", "time"]

def isReserved (gs : List Glyph) : Bool :=
  reservedWords.any fun w => w.toList = gs.map Glyph.char

/-! ## The lexer -/

inductive Mode where
  | plain | single | double | comment | beyond
  deriving DecidableEq, Repr

/-- What the characters before say of the next one: it comes right after a
`$`, within a parameter's name, within the login name after a tilde, or where a
value of an assignment begins. -/
inductive Expansion where
  | none | dollar | name | tilde | value
  deriving DecidableEq, Repr

structure Lexer where
  /-- The tokens delimited so far. -/
  done : List Token := []
  /-- The word in progress. -/
  word : Option (List Glyph) := none
  /-- Nothing of the word in progress was quoted. -/
  bare : Bool := true
  /-- The word in progress has an unquoted `[`. -/
  bracket : Bool := false
  /-- The word in progress begins with a name and an unquoted `=`. -/
  assigning : Bool := false
  mode : Mode := .plain
  /-- Right after a backslash. -/
  escaped : Bool := false
  expansion : Expansion := .none
  /-- Right after a character of an operator. -/
  joined : Bool := false
  /-- The text the lexer does not read. -/
  rest : List Char := []
  deriving DecidableEq, Repr

namespace Lexer

/-- A character joins the word in progress. -/
def put (s : Lexer) (c : Char) (f : Force) (e : Expansion := .none) : Lexer :=
  { s with word := some (s.word.getD [] ++ [⟨c, f⟩]), expansion := e, joined := false }

/-- A quote begins or continues a word. -/
def quote (s : Lexer) (m : Mode) : Lexer :=
  { s with mode := m, word := some (s.word.getD []), bare := false, expansion := .none
           joined := false }

/-- A word is read as a number before `c`. -/
def numbers (s : Lexer) (gs : List Glyph) (c : Char) : Bool :=
  s.bare && isDigits gs && !gs.isEmpty && (c = '<' || c = '>')

/-- The grammar looks for a name: right before a parenthesis, or after one of the
words that are given one. -/
def seeksName (s : Lexer) (c : Char) : Bool :=
  c = '(' || s.done.getLast?.any fun
    | .keyword gs => ["for", "select", "function"].any fun w => w.toList = gs.map Glyph.char
    | _ => false

/-- A word that the grammar takes for its own, or for a name. -/
def reserves (s : Lexer) (gs : List Glyph) (c : Char) : Bool :=
  s.bare && (isReserved gs || isName gs && s.seeksName c)

/-- A word as it is delimited by `c`. -/
def delimit (s : Lexer) (gs : List Glyph) (c : Char) : Token :=
  if s.numbers gs c then .number gs else if s.reserves gs c then .keyword gs else .word gs

/-- The word in progress, if any, is delimited by `c`. -/
def endWord (s : Lexer) (c : Char) : Lexer :=
  match s.word with
  | none => s
  | some gs =>
      { s with
        done := s.done ++ [s.delimit gs c]
        word := none, bare := true, bracket := false, assigning := false, expansion := .none }

/-- An operator's character; `joined` after another of them. -/
def operator (s : Lexer) (c : Char) : Lexer :=
  let t := s.endWord c
  { t with done := t.done ++ [.op c s.joined], joined := c ≠ '\n', expansion := .none }

/-- From here on the text is read by rules of its own. -/
def goBeyond (s : Lexer) (c : Char) : Lexer := { s with mode := .beyond, rest := [c] }

/-- An unquoted `=` makes an assignment of the word in progress. -/
def assigns (s : Lexer) : Bool := s.bare && s.word.any isName

/-- A character that only stands for itself, outside a bracket. -/
def putOrdinary (s : Lexer) (c : Char) (e : Expansion := .none) : Lexer :=
  s.put c (if s.bracket then .active else .literal) e

/-- An unquoted character of a word, where no expansion goes on. -/
def putFresh (s : Lexer) (c : Char) : Lexer :=
  match kind c with
  | .dollar => s.put c .active .dollar
  | .tilde =>
      if s.word.isNone || s.expansion = .value then s.put c .active .tilde else s.putOrdinary c
  | .pattern => s.put c .active
  | .bracket => { s.put c .active with bracket := true }
  | .equals =>
      if s.assigns then { s.put c .active .value with assigning := true } else s.putOrdinary c
  | .colon => s.putOrdinary c (if s.assigning then .value else .none)
  | _ => s.putOrdinary c

/-- An unquoted character of a word, by what stands before it. -/
def putBare (s : Lexer) (c : Char) : Lexer :=
  match s.expansion with
  | .none | .value => s.putFresh c
  | .dollar =>
      if isNameStart c then s.put c .active .name
      else if isSpecialParameter c then s.put c .active
      else s.putFresh c
  | .name => if isNameChar c then s.put c .active .name else s.putFresh c
  | .tilde =>
      if c = '/' then s.putOrdinary c
      else if s.assigning && c = ':' then s.put c .active .value
      else s.put c .active .tilde

/-- The same within double quotes, where only `$` expands. -/
def putQuoted (s : Lexer) (c : Char) : Lexer :=
  let fresh := if c = '$' then s.put c .quoted .dollar else s.put c .literal
  match s.expansion with
  | .dollar =>
      if isNameStart c then s.put c .quoted .name
      else if isSpecialParameter c then s.put c .quoted
      else fresh
  | .name => if isNameChar c then s.put c .quoted .name else fresh
  | _ => fresh

/-- A `$` that opens a substitution or a parameter in braces. -/
def opens (s : Lexer) (c : Char) : Bool :=
  s.expansion = .dollar && (c = '(' || c = '\x7b')

/-- The second character of a `<<`. -/
def heredoc (s : Lexer) (c : Char) : Bool :=
  c = '<' && s.joined && s.done.getLast?.any fun t => t = .op '<' false

def feedPlain (s : Lexer) (c : Char) : Lexer :=
  if s.escaped then
    -- an escaped newline continues the line
    if c = '\n' then { s with escaped := false }
    else { s with escaped := false, bare := false }.put c .literal
  else if s.opens c then s.goBeyond c
  else match kind c with
    | .backslash => { s with escaped := true }
    | .single => s.quote .single
    | .double => s.quote .double
    | .newline => { s.operator c with joined := false }
    | .blank => { s.endWord c with joined := false, expansion := .none }
    | .hash => if s.word.isNone then { s with mode := .comment, joined := false } else s.putBare c
    | .backquote => s.goBeyond c
    | .operator => if s.heredoc c then s.goBeyond c else s.operator c
    | _ => s.putBare c

def feedDouble (s : Lexer) (c : Char) : Lexer :=
  if s.escaped then
    let t := { s with escaped := false }
    if c = '\n' then t
    else if c = '$' ∨ c = '\x60' ∨ c = '"' ∨ c = '\\' then t.put c .literal
    else (t.put '\\' .literal).put c .literal
  else if s.opens c || c = '\x60' then s.goBeyond c
  else if c = '\\' then { s with escaped := true }
  else if c = '"' then { s with mode := .plain, expansion := .none }
  else s.putQuoted c

/-- One character. -/
def feed (s : Lexer) (c : Char) : Lexer :=
  match s.mode with
  | .plain => s.feedPlain c
  | .single => if c = '\'' then { s with mode := .plain } else s.put c .literal
  | .double => s.feedDouble c
  | .comment => if c = '\n' then { s with mode := .plain }.feedPlain c else s
  | .beyond => { s with rest := s.rest ++ [c] }

def feeds (s : Lexer) (cs : List Char) : Lexer := cs.foldl feed s

@[simp] theorem feeds_nil (s : Lexer) : s.feeds [] = s := rfl

@[simp] theorem feeds_cons (s : Lexer) (c : Char) (cs : List Char) :
    s.feeds (c :: cs) = (s.feed c).feeds cs := rfl

@[simp] theorem feeds_append (s : Lexer) (cs ds : List Char) :
    s.feeds (cs ++ ds) = (s.feeds cs).feeds ds := List.foldl_append

end Lexer

/-! ## What the shell reads -/

/-- How the text ended: complete, within a quotation, or in text the lexer does
not read, with the word it continues. -/
inductive Ending where
  | complete | unclosed
  | beyond (word : Option (List Glyph)) (text : List Char)
  deriving DecidableEq, Repr

structure Reading where
  tokens : List Token
  ending : Ending
  deriving DecidableEq, Repr

/-- Newlines at the end of a text end nothing further. -/
def dropNewlines (cs : List Char) : List Char := cs.rdropWhile (· = '\n')

def isNewline : Token → Bool
  | .op c _ => c = '\n'
  | _ => false

/-- The glyphs of a word, the grammar's own or not. -/
def Token.spelling : Token → Option (List Glyph)
  | .word gs | .keyword gs => some gs
  | _ => none

theorem not_isNewline {x : Token} {gs : List Glyph} (hx : x.spelling = some gs) :
    isNewline x = false := by
  cases x with
  | word | keyword => rfl
  | number | op => cases hx

def dropBreaks (ts : List Token) : List Token := ts.rdropWhile isNewline

/-- The end of the text delimits the word in progress, outside quotes; a
backslash with nothing after it stands for itself. -/
def Lexer.close (s : Lexer) : Lexer :=
  match s.mode with
  | .plain => if s.escaped then (s.put '\\' .literal).endWord '\n' else s.endWord '\n'
  | _ => s

def Lexer.ending (s : Lexer) : Ending :=
  match s.mode with
  | .plain | .comment => .complete
  | .single | .double => .unclosed
  | .beyond => .beyond s.word (dropNewlines s.rest)

def Lexer.finish (s : Lexer) : Reading := ⟨dropBreaks s.close.done, s.ending⟩

/-- What a shell obtains from a text. -/
def read (text : List Char) : Reading := (({} : Lexer).feeds text).finish

/-! ## What stands -/

namespace Lexer

variable {s : Lexer} {c : Char}

/-- Only before a redirection is a word read as a number. -/
theorem spelling_delimit {gs : List Glyph} (hc : (c = '<' || c = '>') = false) :
    (s.delimit gs c).spelling = some gs := by
  unfold delimit numbers
  rw [hc, Bool.and_false, if_neg Bool.false_ne_true]
  split <;> rfl

/-- A word with a quote in it is a word. -/
theorem delimit_of_quoted {gs : List Glyph} (hb : s.bare = false) : s.delimit gs c = .word gs := by
  simp [delimit, numbers, reserves, hb]

/-- All that one character does to what was read before: the word in progress
grows, or it is delimited, or there is none. -/
inductive Fed (s t : Lexer) : Prop where
  | grown (hd : t.done = s.done)
      (hw : ∀ gs, s.word = some gs → ∃ hs, t.word = some (gs ++ hs)) : Fed s t
  | ended (gs : List Glyph) (x : Token) (hw : s.word = some gs)
      (hx : x.spelling = some gs ∨ isDigits gs = true ∧ x = .number gs)
      (hd : s.done ++ [x] <+: t.done) : Fed s t
  | idle (hw : s.word = none) (hd : s.done <+: t.done) : Fed s t

theorem fed_same {t : Lexer} (hd : t.done = s.done) (hw : t.word = s.word) : Fed s t :=
  .grown hd fun gs h => ⟨[], by rw [hw, h, List.append_nil]⟩

theorem fed_put {g : Glyph} {t : Lexer} (hd : t.done = s.done)
    (hw : t.word = some (s.word.getD [] ++ [g])) : Fed s t :=
  .grown hd fun gs h => ⟨[g], by rw [hw, h]; rfl⟩

theorem Fed.congr {s' t : Lexer} (h : Fed s' t) (hd : s'.done = s.done) (hw : s'.word = s.word) :
    Fed s t := by
  cases h with
  | grown hd' hw' => exact .grown (hd'.trans hd) fun gs hg => hw' gs (hw.trans hg)
  | ended gs x hg hx hd' => exact .ended gs x (hw.symm.trans hg) hx (hd ▸ hd')
  | idle hg hd' => exact .idle (hw.symm.trans hg) (hd ▸ hd')

theorem fed_quote {m : Mode} : Fed s (s.quote m) :=
  .grown rfl fun gs h => ⟨[], by simp [quote, h]⟩

theorem fed_endWord {t : Lexer} (hd : (s.endWord c).done <+: t.done) : Fed s t := by
  unfold endWord at hd
  cases hw : s.word with
  | none =>
      rw [hw] at hd
      exact .idle hw hd
  | some gs =>
      rw [hw] at hd
      refine .ended gs _ hw ?_ hd
      unfold delimit
      split
      · rename_i h
        simp only [numbers, Bool.and_eq_true] at h
        exact .inr ⟨h.1.1.2, rfl⟩
      · exact .inl (by split <;> rfl)

theorem fed_operator {t : Lexer} (hd : t.done = (s.operator c).done) : Fed s t :=
  fed_endWord (c := c) (by rw [hd]; exact List.prefix_append _ _)

theorem fed_putBare : Fed s (s.putBare c) := by
  unfold putBare putFresh
  repeat' split
  all_goals exact fed_put rfl rfl

theorem fed_putQuoted : Fed s (s.putQuoted c) := by
  unfold putQuoted
  dsimp only
  repeat' split
  all_goals exact fed_put rfl rfl

theorem fed_feedPlain : Fed s (s.feedPlain c) := by
  unfold feedPlain
  repeat' split
  all_goals first
    | exact fed_same rfl rfl
    | exact fed_put rfl rfl
    | exact fed_quote
    | exact fed_operator rfl
    | exact fed_endWord (c := c) List.prefix_rfl
    | exact fed_putBare

theorem fed_feedDouble : Fed s (s.feedDouble c) := by
  unfold feedDouble
  dsimp only
  repeat' split
  all_goals first
    | exact fed_same rfl rfl
    | exact fed_put rfl rfl
    | exact fed_putQuoted
    | exact .grown rfl fun gs h => ⟨[⟨'\\', .literal⟩, ⟨c, .literal⟩], by simp [put, h]⟩

/-- A character only adds to what was read. -/
theorem fed_feed : Fed s (s.feed c) := by
  unfold feed
  split
  · exact fed_feedPlain
  · split
    · exact fed_same rfl rfl
    · exact fed_put rfl rfl
  · exact fed_feedDouble
  · split
    · exact Fed.congr fed_feedPlain rfl rfl
    · exact fed_same rfl rfl
  · exact fed_same rfl rfl

/-- The token after those of `ts` is `x`. -/
def Emitted (ts : List Token) (x : Token) (s : Lexer) : Prop := ts ++ [x] <+: s.done

/-- What comes after `ts` begins with `p`: the word in progress, or a word that
was delimited. -/
def Begins (ts : List Token) (p : List Glyph) (s : Lexer) : Prop :=
  (s.done = ts ∧ ∃ gs, s.word = some (p ++ gs)) ∨
    ∃ gs x, x.spelling = some (p ++ gs) ∧ Emitted ts x s

variable {ts : List Token} {x : Token} {p : List Glyph}

variable {t : Lexer}

theorem Emitted.fed (h : Emitted ts x s) (hf : Fed s t) : Emitted ts x t := by
  have hp : s.done <+: t.done := by
    cases hf with
    | grown hd _ => exact hd ▸ List.prefix_rfl
    | ended gs y _ _ hd => exact (List.prefix_append _ _).trans hd
    | idle _ hd => exact hd
  exact List.IsPrefix.trans h hp

theorem isDigits_append {gs : List Glyph} (h : isDigits p = false) : isDigits (p ++ gs) = false := by
  unfold isDigits at h ⊢
  rw [List.all_append, h, Bool.false_and]

theorem Begins.fed (hp : isDigits p = false) (h : Begins ts p s) (hf : Fed s t) : Begins ts p t := by
  rcases h with ⟨hd, gs, hw⟩ | ⟨gs, x, hx, h⟩
  · cases hf with
    | grown hd' hw' =>
        obtain ⟨hs, hg⟩ := hw' _ hw
        exact .inl ⟨hd'.trans hd, gs ++ hs, by rw [hg, List.append_assoc]⟩
    | ended gs' y hw' hy hd' =>
        obtain rfl : p ++ gs = gs' := Option.some.inj (hw.symm.trans hw')
        rcases hy with hy | ⟨hn, -⟩
        · exact .inr ⟨gs, y, hy, hd ▸ hd'⟩
        · rw [isDigits_append hp] at hn
          exact absurd hn Bool.false_ne_true
    | idle hw' _ => exact absurd (hw.symm.trans hw') nofun
  · exact .inr ⟨gs, x, hx, h.fed hf⟩

theorem Emitted.feeds (h : Emitted ts x s) (cs : List Char) : Emitted ts x (s.feeds cs) := by
  induction cs generalizing s with
  | nil => exact h
  | cons c cs ih => exact ih (h.fed fed_feed)

theorem Begins.feeds (hp : isDigits p = false) (h : Begins ts p s) (cs : List Char) :
    Begins ts p (s.feeds cs) := by
  induction cs generalizing s with
  | nil => exact h
  | cons c cs ih => exact ih (h.fed hp fed_feed)

/-! ## What a reading shows of it -/

theorem dropBreaks_append (hx : isNewline x = false) (r : List Token) :
    dropBreaks (ts ++ [x] ++ r) = ts ++ [x] ++ dropBreaks r := by
  unfold dropBreaks
  induction r using List.reverseRecOn with
  | nil =>
      rw [List.append_nil, List.rdropWhile_concat_neg _ _ _ (by simp [hx])]
      simp
  | append_singleton r y ih =>
      rw [← List.append_assoc]
      by_cases hy : isNewline y = true
      · rw [List.rdropWhile_concat_pos _ _ _ hy, ih, List.rdropWhile_concat_pos _ _ _ hy]
      · rw [List.rdropWhile_concat_neg _ _ _ hy, List.rdropWhile_concat_neg _ _ _ hy]
        simp

theorem get_dropBreaks {l : List Token} (hx : isNewline x = false) (h : ts ++ [x] <+: l) :
    (dropBreaks l)[ts.length]? = some x := by
  obtain ⟨r, rfl⟩ := h
  rw [dropBreaks_append hx]
  simp

theorem get_dropBreaks_length : (dropBreaks ts)[ts.length]? = none := by
  have h := (List.rdropWhile_prefix isNewline ts).length_le
  exact List.getElem?_eq_none h

/-- The end of the text, too, only adds to what was read. -/
theorem close_keeps {P : Lexer → Prop} (hP : ∀ {s t}, P s → Fed s t → P t) (h : P s) : P s.close := by
  unfold close
  split
  · split
    · have hput : Fed s (s.put '\\' .literal) := fed_put (g := ⟨'\\', .literal⟩) rfl rfl
      exact hP (hP h hput) (fed_endWord (c := '\n') List.prefix_rfl)
    · exact hP h (fed_endWord (c := '\n') List.prefix_rfl)
  · exact h

/-- Two readings differ where one has delimited a word that does not begin as
the other's word in progress does. -/
theorem finish_ne {gs : List Glyph} (hx : x.spelling = some gs) (hs : Emitted ts x s)
    (ht : Begins ts p t) (hp : isDigits p = false) (hg : ¬p <+: gs) : s.finish ≠ t.finish := by
  intro he
  have hs' : s.finish.tokens[ts.length]? = some x :=
    get_dropBreaks (not_isNewline hx) (close_keeps Emitted.fed hs)
  rw [he] at hs'
  rcases close_keeps (P := Begins ts p) (Begins.fed hp) ht with ⟨hd, -⟩ | ⟨gs', y, hy, h⟩
  · have hn : t.finish.tokens[ts.length]? = none := by
      show (dropBreaks t.close.done)[ts.length]? = none
      rw [hd]
      exact get_dropBreaks_length
    exact absurd (hs'.symm.trans hn) nofun
  · have hw : t.finish.tokens[ts.length]? = some y := get_dropBreaks (not_isNewline hy) h
    obtain rfl : x = y := Option.some.inj (hs'.symm.trans hw)
    obtain rfl : gs = p ++ gs' := Option.some.inj (hx.symm.trans hy)
    exact hg (List.prefix_append _ _)

/-! ## Lexers a text leads to -/

/-- Within single quotes. -/
structure InSingle (s : Lexer) (gs : List Glyph) : Prop where
  mode : s.mode = .single
  word : s.word = some gs
  bare : s.bare = false
  escaped : s.escaped = false
  expansion : s.expansion = .none
  joined : s.joined = false

/-- What holds of every lexer a text leads to. -/
structure WellFormed (s : Lexer) : Prop where
  single : s.mode = .single → s.InSingle (s.word.getD [])
  double : s.mode = .double → s.word.isSome = true
  comment : s.mode = .comment → s.word = none ∧ s.escaped = false
  joined : s.word.isSome = true → s.joined = false

theorem WellFormed.initial : WellFormed {} := ⟨nofun, nofun, nofun, nofun⟩

/-- Outside quotes and comments only the joined operators matter. -/
theorem wellFormed_of_mode {s : Lexer} (hm : s.mode = .plain ∨ s.mode = .beyond)
    (hj : s.word.isSome = true → s.joined = false) : WellFormed s := by
  rcases hm with hm | hm <;>
    exact ⟨fun h => (nomatch hm.symm.trans h), fun h => (nomatch hm.symm.trans h),
      fun h => (nomatch hm.symm.trans h), hj⟩

theorem wellFormed_double {s : Lexer} (hm : s.mode = .double) (hw : s.word.isSome = true)
    (hj : s.joined = false) : WellFormed s :=
  ⟨fun h => (nomatch hm.symm.trans h), fun _ => hw, fun h => (nomatch hm.symm.trans h), fun _ => hj⟩

theorem endWord_mode : (s.endWord c).mode = s.mode := by
  unfold endWord
  split <;> rfl

theorem endWord_word : (s.endWord c).word = none := by
  cases hw : s.word with
  | none => simp [endWord, hw]
  | some gs => simp [endWord, hw]

/-- What an unquoted character of a word leaves as it was. -/
theorem putBare_spec : ∃ f, (s.putBare c).word = some (s.word.getD [] ++ [⟨c, f⟩]) ∧
    (s.putBare c).done = s.done ∧ (s.putBare c).mode = s.mode ∧
    (s.putBare c).escaped = s.escaped ∧ (s.putBare c).joined = false := by
  unfold putBare putFresh
  repeat' split
  all_goals exact ⟨_, rfl, rfl, rfl, rfl, rfl⟩

theorem putQuoted_spec : ∃ f, (s.putQuoted c).word = some (s.word.getD [] ++ [⟨c, f⟩]) ∧
    (s.putQuoted c).mode = s.mode ∧ (s.putQuoted c).joined = false := by
  unfold putQuoted
  dsimp only
  repeat' split
  all_goals exact ⟨_, rfl, rfl, rfl⟩

theorem WellFormed.feedPlain (h : WellFormed s) (hm : s.mode = .plain) : WellFormed (s.feedPlain c) := by
  have hput : WellFormed (s.putBare c) := by
    obtain ⟨f, -, -, hm', -, hj⟩ := putBare_spec (s := s) (c := c)
    exact wellFormed_of_mode (.inl (hm'.trans hm)) fun _ => hj
  have hend : ∀ t : Lexer, t.word = (s.endWord c).word → t.mode = (s.endWord c).mode →
      WellFormed t := fun t hw hm' =>
    wellFormed_of_mode (.inl (by rw [hm', endWord_mode, hm])) fun h => by
      rw [hw, endWord_word] at h
      cases h
  unfold Lexer.feedPlain
  split
  · split
    · exact wellFormed_of_mode (.inl hm) h.joined
    · exact wellFormed_of_mode (.inl hm) fun _ => rfl
  · rename_i he
    have he' : s.escaped = false := by simpa using he
    split
    · exact wellFormed_of_mode (.inr rfl) h.joined
    · split
      · exact wellFormed_of_mode (.inl hm) h.joined
      · exact ⟨fun _ => ⟨rfl, rfl, rfl, he', rfl, rfl⟩, nofun, nofun, fun _ => rfl⟩
      · exact wellFormed_double rfl rfl rfl
      · exact hend _ rfl rfl
      · exact hend _ rfl rfl
      · split
        · rename_i hn
          exact ⟨nofun, nofun, fun _ => ⟨by simpa using hn, he'⟩, fun _ => rfl⟩
        · exact hput
      · exact wellFormed_of_mode (.inr rfl) h.joined
      · split
        · exact wellFormed_of_mode (.inr rfl) h.joined
        · exact hend _ rfl rfl
      · exact hput

theorem WellFormed.feedDouble (h : WellFormed s) (hm : s.mode = .double) :
    WellFormed (s.feedDouble c) := by
  have hw : s.word.isSome = true := h.double hm
  have hput : WellFormed (s.putQuoted c) := by
    obtain ⟨f, hw', hm', hj⟩ := putQuoted_spec (s := s) (c := c)
    exact wellFormed_double (hm'.trans hm) (by rw [hw']; rfl) hj
  unfold Lexer.feedDouble
  dsimp only
  repeat' split
  all_goals first
    | exact wellFormed_double hm hw (h.joined hw)
    | exact wellFormed_double hm rfl rfl
    | exact wellFormed_of_mode (.inr rfl) h.joined
    | exact wellFormed_of_mode (.inl rfl) h.joined
    | exact hput

theorem WellFormed.feed (h : WellFormed s) : WellFormed (s.feed c) := by
  unfold Lexer.feed
  split
  · rename_i hm
    exact h.feedPlain hm
  · rename_i hm
    obtain ⟨h₁, h₂, h₃, h₄, h₅, h₆⟩ := h.single hm
    split
    · exact wellFormed_of_mode (.inl rfl) h.joined
    · exact ⟨fun _ => ⟨hm, rfl, h₃, h₄, rfl, rfl⟩, fun h => (nomatch hm.symm.trans h),
        fun h => (nomatch hm.symm.trans h), fun _ => rfl⟩
  · rename_i hm
    exact h.feedDouble hm
  · split
    · exact WellFormed.feedPlain (s := { s with mode := .plain })
        (wellFormed_of_mode (.inl rfl) h.joined) rfl
    · exact h
  · rename_i hm
    exact wellFormed_of_mode (.inr hm) h.joined

theorem WellFormed.feeds (h : WellFormed s) (cs : List Char) : WellFormed (s.feeds cs) := by
  induction cs generalizing s with
  | nil => exact h
  | cons c cs ih => exact ih h.feed

end Lexer

/-! ## Newlines at the end -/

namespace Lexer

variable {s : Lexer}

/-- A backslash outside quotes waits for the next character. -/
def Waits (s : Lexer) : Prop := s.mode = .plain ∧ s.escaped = true

theorem dropBreaks_break (ts : List Token) (j : Bool) :
    dropBreaks (ts ++ [.op '\n' j]) = dropBreaks ts :=
  List.rdropWhile_concat_pos _ _ _ (by simp [isNewline])

theorem finish_newline (hwf : WellFormed s) (h : ¬Waits s) :
    (s.feed '\n').finish = s.finish ∧ ¬Waits (s.feed '\n') := by
  match hm : s.mode with
  | .plain =>
      have he : s.escaped = false := by
        cases he : s.escaped
        · rfl
        · exact absurd ⟨hm, he⟩ h
      have hf : s.feed '\n' = { s.operator '\n' with joined := false } := by
        simp [feed, hm, feedPlain, he, opens, kind]
      have hem : (s.endWord '\n').escaped = false := by
        unfold endWord
        split <;> exact he
      rw [hf]
      refine ⟨?_, fun hw => ?_⟩
      · simp only [finish, close, ending, operator, endWord_mode, hm, hem, he, endWord_word,
          Bool.false_eq_true, if_false]
        rw [show ∀ t : Lexer, t.word = none → t.endWord '\n' = t from fun t ht => by
          simp [endWord, ht]]
        · rw [dropBreaks_break]
        · rfl
      · exact absurd (hem.symm.trans hw.2) nofun
  | .single =>
      simp [feed, hm, finish, close, ending, put, Waits]
  | .double =>
      cases he : s.escaped with
      | true => simp [feed, hm, feedDouble, he, finish, close, ending, Waits]
      | false =>
          have hx : s.opens '\n' = false := by simp [opens]
          obtain ⟨f, -, hm', -⟩ := putQuoted_spec (s := s) (c := '\n')
          have hd : (s.putQuoted '\n').done = s.done := by
            unfold putQuoted
            dsimp only
            repeat' split
            all_goals rfl
          simp [feed, hm, feedDouble, he, hx, finish, close, ending, Waits, hm', hd]
  | .comment =>
      obtain ⟨hw, he⟩ := hwf.comment hm
      have hd : (s.feed '\n').finish = ⟨dropBreaks (s.done ++ [.op '\n' s.joined]), .complete⟩ := by
        simp [feed, hm, feedPlain, he, opens, kind, operator, endWord, hw, finish, close, ending]
      refine ⟨by rw [hd, dropBreaks_break]; simp [finish, close, ending, hm], ?_⟩
      simp [feed, hm, feedPlain, he, opens, kind, operator, endWord, hw, Waits]
  | .beyond =>
      refine ⟨?_, by simp [feed, hm, Waits]⟩
      have hn : dropNewlines (s.rest ++ ['\n']) = dropNewlines s.rest :=
        List.rdropWhile_concat_pos _ _ _ (by simp)
      simp [feed, hm, finish, close, ending, hn]

theorem finish_newlines (hwf : WellFormed s) (h : ¬Waits s) (cs : List Char)
    (hc : ∀ c ∈ cs, c = '\n') : (s.feeds cs).finish = s.finish := by
  induction cs generalizing s with
  | nil => rfl
  | cons c cs ih =>
      obtain rfl := hc c List.mem_cons_self
      obtain ⟨hf, hw⟩ := finish_newline hwf h
      rw [feeds_cons, ih hwf.feed hw fun c h => hc c (List.mem_cons_of_mem _ h), hf]

/-- A word before a newline is delimited. -/
theorem emitted_newline {gs : List Glyph} (hm : s.mode = .plain) (he : s.escaped = false)
    (hw : s.word = some gs) : ∃ x, x.spelling = some gs ∧ Emitted s.done x (s.feed '\n') :=
  ⟨s.delimit gs '\n', spelling_delimit rfl, by
    simp [Emitted, feed, hm, feedPlain, he, opens, kind, operator, endWord, hw]⟩

/-- After a backslash, a newline is no end. -/
theorem finish_escaped (hwf : WellFormed s) (h : Waits s) (cs : List Char)
    (hc : ∀ c ∈ cs, c = '\n') : (s.feeds ('\n' :: cs)).finish ≠ s.finish := by
  obtain ⟨hm, he⟩ := h
  have hf : s.feed '\n' = { s with escaped := false } := by simp [feed, hm, feedPlain, he]
  obtain ⟨x, hx, hs⟩ : ∃ x, x.spelling = some (s.word.getD [] ++ [⟨'\\', .literal⟩]) ∧
      Emitted s.done x s.close :=
    ⟨(s.put '\\' .literal).delimit (s.word.getD [] ++ [⟨'\\', .literal⟩]) '\n', spelling_delimit rfl, by
      simp [Emitted, close, hm, he, put, endWord]⟩
  have hnw : ¬Waits (s.feed '\n') := by
    rw [hf]
    exact fun h => nomatch h.2
  rw [feeds_cons, finish_newlines hwf.feed hnw cs hc, hf]
  intro heq
  have hget : s.finish.tokens[s.done.length]? = some x := get_dropBreaks (not_isNewline hx) hs
  rw [← heq] at hget
  cases hw : s.word with
  | none =>
      have hn : (({ s with escaped := false } : Lexer).finish).tokens = dropBreaks s.done := by
        simp [finish, close, hm, endWord, hw]
      rw [hn, get_dropBreaks_length] at hget
      cases hget
  | some gs =>
      have hy : (s.delimit gs '\n').spelling = some gs := spelling_delimit rfl
      have hn : (({ s with escaped := false } : Lexer).finish).tokens =
          s.done ++ [s.delimit gs '\n'] := by
        have hd : (({ s with escaped := false } : Lexer).finish).tokens =
            dropBreaks (s.done ++ [s.delimit gs '\n']) := by
          simp only [finish, close, hm, endWord, hw, Bool.false_eq_true, if_false]
          rfl
        rw [hd]
        exact List.rdropWhile_concat_neg _ _ _ (by simp [not_isNewline hy])
      rw [hn] at hget
      obtain rfl : s.delimit gs '\n' = x := by simpa using hget
      rw [hy, hw] at hx
      simp at hx

end Lexer

/-- The text ends, after a backslash outside quotes, in newlines. -/
def EndsEscaped (text : List Char) : Prop :=
  dropNewlines text ≠ text ∧ (({} : Lexer).feeds (dropNewlines text)).Waits

/-- A text reads the same without the newlines at its end, unless they were
escaped. -/
theorem read_dropNewlines_iff (text : List Char) :
    read (dropNewlines text) = read text ↔ ¬EndsEscaped text := by
  obtain ⟨cs, hcs, hall⟩ : ∃ cs, text = dropNewlines text ++ cs ∧ ∀ c ∈ cs, c = '\n' :=
    ⟨text.rtakeWhile (· = '\n'), List.rdropWhile_append_rtakeWhile.symm, fun c hc => by
      simpa using List.mem_rtakeWhile_imp hc⟩
  have hwf : (({} : Lexer).feeds (dropNewlines text)).WellFormed := Lexer.WellFormed.initial.feeds _
  have hread : read text = ((({} : Lexer).feeds (dropNewlines text)).feeds cs).finish := by
    rw [← Lexer.feeds_append, ← hcs]
    rfl
  rw [hread]
  constructor
  · rintro he ⟨hne, hw⟩
    cases cs with
    | nil => exact hne (by rw [List.append_nil] at hcs; exact hcs.symm)
    | cons c cs =>
        obtain rfl := hall c List.mem_cons_self
        exact Lexer.finish_escaped hwf hw cs (fun c h => hall c (List.mem_cons_of_mem _ h)) he.symm
  · intro hn
    by_cases hw : (({} : Lexer).feeds (dropNewlines text)).Waits
    · have : dropNewlines text = text := by
        by_contra hne
        exact hn ⟨hne, hw⟩
      rw [this] at hcs ⊢
      rw [List.self_eq_append_right.mp hcs]
      rfl
    · exact (Lexer.finish_newlines hwf hw cs hall).symm

end Rescind.Lib.Shell
