/-
# `Rescind.Lib.Quoting` — what quoting a part of a text changes

A text whose parts are put in as they are, against the same text with each part
in single quotes.  Where every part stands in a word, or in single quotes, and is
made of characters that only stand for themselves, the shell reads the same;
and no text with such a hole in it reads the same whatever the part:

    a quoted text is read as one word, the text itself      (`read_quoted`)
    harmless parts may be quoted                            (`read_withQuotes`)
    every hole has a part that shows the quoting            (`exists_telltale`)
-/
import Rescind.Lib.Shell

namespace Rescind.Lib.Shell

/-! ## Quoting a part of the text -/

/-- A quote within single quotes: the quotes are closed, an escaped one stands
outside, and they are opened again. -/
def escapeQuote (c : Char) : List Char := if c = '\'' then ['\'', '\\', '\'', '\''] else [c]

/-- A text in single quotes. -/
def quoted (v : List Char) : List Char := '\'' :: v.flatMap escapeQuote ++ ['\'']

namespace Lexer

variable {s t : Lexer} {c : Char}

def growing (s : Lexer) (gs : List Glyph) : Lexer := { s with word := some gs }

theorem feeds_escapeQuote {gs : List Glyph} (h : InSingle s gs) :
    s.feeds (escapeQuote c) = s.growing (gs ++ [⟨c, .literal⟩]) := by
  obtain ⟨h₁, h₂, h₃, h₄, h₅, h₆⟩ := h
  cases s
  subst h₁ h₂ h₃ h₄ h₅ h₆
  unfold escapeQuote
  split
  · rename_i hc
    subst hc
    simp [feed, feedPlain, put, quote, kind, opens, growing]
  · rename_i hc
    simp [feed, put, hc, growing]

theorem feeds_escapeQuotes {gs : List Glyph} (h : InSingle s gs) (v : List Char) :
    s.feeds (v.flatMap escapeQuote) = s.growing (gs ++ literals v) := by
  induction v generalizing s gs with
  | nil =>
      have hw := h.word
      cases s
      subst hw
      simp [growing, literals]
  | cons c v ih =>
      have hs : InSingle (s.growing (gs ++ [⟨c, .literal⟩])) (gs ++ [⟨c, .literal⟩]) :=
        ⟨h.mode, rfl, h.bare, h.escaped, h.expansion, h.joined⟩
      rw [List.flatMap_cons, feeds_append, feeds_escapeQuote h, ih hs]
      simp [growing, literals]

/-- Outside quotes, a quoted text is its characters and nothing else. -/
theorem feeds_quoted (hm : s.mode = .plain) (he : s.escaped = false) (v : List Char) :
    s.feeds (quoted v) =
      { s with word := some (s.word.getD [] ++ literals v), bare := false, expansion := .none
               joined := false } := by
  have hq : s.feed '\'' = s.quote .single := by
    simp [feed, hm, feedPlain, he, opens, kind]
  have hs : InSingle (s.quote .single) (s.word.getD []) := ⟨rfl, rfl, rfl, he, rfl, rfl⟩
  unfold quoted
  rw [List.cons_append, feeds_cons, feeds_append, hq, feeds_escapeQuotes hs]
  cases s
  subst hm
  simp [feed, growing, quote]

end Lexer

/-- A quoted text is read as one word, the text itself. -/
theorem read_quoted (v : List Char) : read (quoted v) = ⟨[.word (literals v)], .complete⟩ := by
  unfold read
  rw [Lexer.feeds_quoted rfl rfl]
  simp [Lexer.finish, Lexer.close, Lexer.endWord, Lexer.delimit_of_quoted, Lexer.ending, dropBreaks,
    isNewline, List.rdropWhile_singleton]

/-! ## Texts with parts that are quoted -/

/-- A character of the text, or a part that is put in as it is or quoted. -/
inductive Piece where
  | char (c : Char)
  | part (v : List Char)

def Piece.raw : Piece → List Char
  | .char c => [c]
  | .part v => v

def Piece.quoted : Piece → List Char
  | .char c => [c]
  | .part v => Shell.quoted v

/-- The text with every part as it is. -/
def raw (ps : List Piece) : List Char := ps.flatMap Piece.raw

/-- The text with every part in single quotes. -/
def withQuotes (ps : List Piece) : List Char := ps.flatMap Piece.quoted

/-- A character that ends a word, outside quotes. -/
def delimits (c : Char) : Bool :=
  match kind c with
  | .newline | .blank | .operator => true
  | _ => false

/-- How the lexer of the quoted text stands to that of the raw one: they are the
same; it has begun a word that the other has not; it has seen a quote in the
word in progress. -/
inductive Lag where
  | same | opened | touched
  deriving DecidableEq, Repr

namespace Lexer

/-- A character that only stands for itself, in the word in progress or as the
first of one: it neither goes on with an expansion nor begins one, nor an assignment,
a comment or another word. -/
def joins (s : Lexer) (c : Char) : Bool :=
  !s.bracket &&
    (match kind c with
    | .ordinary | .colon => true
    | .hash => s.word.isSome
    | .tilde => s.word.isSome && s.expansion ≠ .value
    | .equals => !s.assigns
    | _ => false) &&
    match s.expansion with
    | .none | .value => true
    | .dollar => false
    | .name => !isNameChar c
    | .tilde => c = '/'

def joinsAll (s : Lexer) : List Char → Bool
  | [] => true
  | c :: v => s.joins c && (s.feed c).joinsAll v

/-- A part outside quotes, after which nothing is expanded. -/
def fitsPlain (s : Lexer) (v : List Char) : Bool :=
  s.joinsAll v && (s.feeds v).expansion = .none

/-- A part at a place where quoting it changes nothing. -/
def fits (s : Lexer) (v : List Char) : Bool :=
  match s.mode with
  | .plain => !s.escaped && s.fitsPlain v
  | .single => { s with mode := .plain }.joinsAll v
  | .comment => v.all (· ≠ '\n')
  | .double | .beyond => false

/-- Before `c` the word in progress, were nothing of it quoted, is more than a word. -/
def taken (s : Lexer) (c : Char) : Bool :=
  s.word.any fun gs => s.numbers gs c || s.reserves gs c

/-- Before `c` the last word may be the name of a function. -/
def defines (s : Lexer) (c : Char) : Bool :=
  s.word.isNone && c = '(' && s.done.getLast?.any fun
    | .word gs => isName gs
    | _ => false

/-- A character after which the two lexers are together as before. -/
def passes (s : Lexer) (l : Lag) (c : Char) : Bool :=
  !(s.mode = .plain && !s.escaped && s.defines c) &&
  match l with
  | .same => true
  | .touched => !(s.mode = .plain && !s.escaped && (delimits c && s.taken c || kind c = .equals && s.assigns))
  | .opened => s.escaped || match kind c with
      | .backslash | .single | .double | .dollar | .pattern | .bracket => true
      | .equals | .colon | .ordinary => true
      | _ => false

def lagAfter (t : Lexer) : Lag → Lag
  | .same => .same
  | .touched => if t.word.isNone then .same else .touched
  | .opened => if t.word.isNone then .opened else .touched

def lagPart (s t : Lexer) (l : Lag) : Lag :=
  match s.mode with
  | .plain => if t.word.isNone then .opened else .touched
  | _ => l

/-- Every part of the text stands where quoting it changes nothing. -/
def harmless (s : Lexer) (l : Lag) : List Piece → Bool
  | [] => if l = .opened then s.escaped else s.passes l '\n'
  | .char c :: ps => s.passes l c && harmless (s.feed c) (lagAfter (s.feed c) l) ps
  | .part v :: ps => s.fits v && harmless (s.feeds v) (lagPart s (s.feeds v) l) ps

/-- The lexer after a quote within the word in progress. -/
def touch (s : Lexer) : Lexer := { s with bare := false }

/-- The lexer after an empty quotation that begins a word. -/
def start (s : Lexer) : Lexer := { s with word := some [], bare := false, joined := false }

/-- How the lexers of the two texts stand. -/
def Paired (s t : Lexer) : Lag → Prop
  | .same => t = s
  | .touched => s.word.isSome = true ∧ t = s.touch
  | .opened => s.word = none ∧ s.mode = .plain ∧ s.expansion = .none ∧ t = s.start

variable {s t : Lexer} {c : Char}

@[simp] theorem touch_done : s.touch.done = s.done := rfl
@[simp] theorem touch_word : s.touch.word = s.word := rfl
@[simp] theorem touch_bracket : s.touch.bracket = s.bracket := rfl
@[simp] theorem touch_mode : s.touch.mode = s.mode := rfl
@[simp] theorem touch_escaped : s.touch.escaped = s.escaped := rfl
@[simp] theorem touch_expansion : s.touch.expansion = s.expansion := rfl
@[simp] theorem touch_joined : s.touch.joined = s.joined := rfl
@[simp] theorem touch_opens : s.touch.opens c = s.opens c := rfl
@[simp] theorem touch_heredoc : s.touch.heredoc c = s.heredoc c := rfl
@[simp] theorem touch_assigning : s.touch.assigning = s.assigning := rfl
@[simp] theorem touch_assigns : s.touch.assigns = false := rfl

/-- Only an assignment is told by a quote in its name. -/
theorem touch_putFresh (ha : kind c = .equals → s.assigns = false) :
    s.touch.putFresh c = (s.putFresh c).touch := by
  unfold putFresh
  cases hk : kind c with
  | equals =>
      dsimp only
      rw [ha hk, touch_assigns]
      rfl
  | tilde =>
      simp only [touch_word, touch_expansion, apply_ite touch]
      rfl
  | _ => rfl

theorem touch_putBare (ha : kind c = .equals → s.assigns = false) :
    s.touch.putBare c = (s.putBare c).touch := by
  simp only [putBare, touch_expansion, touch_assigning, touch_putFresh ha]
  cases s.expansion with
  | none | value => rfl
  | _ =>
      simp only [apply_ite touch]
      rfl

theorem touch_putQuoted : s.touch.putQuoted c = (s.putQuoted c).touch := by
  simp only [putQuoted, touch_expansion]
  repeat' split
  all_goals rfl

theorem touch_endWord (hw : s.word.isSome = true) (hn : s.taken c = false) :
    s.touch.endWord c = s.endWord c := by
  obtain ⟨gs, hg⟩ := Option.isSome_iff_exists.mp hw
  simp only [taken, hg, Option.any_some, Bool.or_eq_false_iff] at hn
  have hd : s.delimit gs c = .word gs := by simp [delimit, hn]
  simp only [endWord, touch_word, hg, hd, delimit_of_quoted (s := s.touch) rfl]
  rfl

theorem endWord_none (hw : s.word.isSome = true) : (s.endWord c).word = none := by
  obtain ⟨gs, hg⟩ := Option.isSome_iff_exists.mp hw
  simp [endWord, hg]

theorem putBare_isSome : (s.putBare c).word.isSome = true := by
  obtain ⟨f, hw, -⟩ := putBare_spec (s := s) (c := c)
  rw [hw]
  rfl

theorem putQuoted_isSome : (s.putQuoted c).word.isSome = true := by
  unfold putQuoted
  dsimp only
  repeat' split
  all_goals rfl

/-- A lexer that saw a quote in the word in progress stays one, or the word has
ended and nothing tells the two apart. -/
def Follows (s t : Lexer) : Prop :=
  (s.word.isSome = true ∧ t = s.touch) ∨ (s.word = none ∧ t = s)

theorem follows_feedPlain (hw : s.word.isSome = true)
    (hn : s.escaped = false → delimits c = true → s.taken c = false)
    (ha : s.escaped = false → kind c = .equals → s.assigns = false) :
    Follows (s.feedPlain c) (s.touch.feedPlain c) := by
  have hnone : s.word.isNone = false := by simpa using hw
  unfold feedPlain
  simp only [touch_escaped, touch_opens, touch_word, hnone]
  split
  · split
    · exact .inl ⟨hw, rfl⟩
    · exact .inl ⟨rfl, rfl⟩
  · rename_i he
    have he' : s.escaped = false := by simpa using he
    have hend : delimits c = true → s.touch.endWord c = s.endWord c := fun hd =>
      touch_endWord hw (hn he' hd)
    have hword : (s.endWord c).word = none := endWord_none hw
    have hop : delimits c = true → Follows (s.operator c) (s.touch.operator c) := fun hd => by
      refine .inr ⟨hword, ?_⟩
      unfold operator
      rw [hend hd]
      rfl
    have hput : Follows (s.putBare c) (s.touch.putBare c) :=
      .inl ⟨putBare_isSome, touch_putBare (ha he')⟩
    split
    · exact .inl ⟨hw, rfl⟩
    · cases hk : kind c with
      | backslash => exact .inl ⟨hw, rfl⟩
      | single | double => exact .inl ⟨rfl, rfl⟩
      | newline =>
          refine .inr ⟨hword, ?_⟩
          unfold operator
          rw [hend (by simp [delimits, hk])]
          rfl
      | blank => exact .inr ⟨hword, by rw [hend (by simp [delimits, hk])]⟩
      | backquote => exact .inl ⟨hw, rfl⟩
      | operator =>
          dsimp only
          by_cases hh : s.heredoc c = true
          · rw [if_pos hh, if_pos (touch_heredoc.trans hh)]
            exact .inl ⟨hw, rfl⟩
          · rw [if_neg hh, if_neg (show ¬s.touch.heredoc c = true from hh)]
            exact hop (by simp [delimits, hk])
      | _ => exact hput

theorem follows_feedDouble (hw : s.word.isSome = true) :
    Follows (s.feedDouble c) (s.touch.feedDouble c) := by
  unfold feedDouble
  by_cases he : s.escaped = true
  · rw [if_pos he, if_pos (touch_escaped.trans he)]
    dsimp only
    repeat' split
    all_goals first
      | exact .inl ⟨hw, rfl⟩
      | exact .inl ⟨rfl, rfl⟩
  · rw [if_neg he, if_neg (show ¬s.touch.escaped = true from he)]
    by_cases ho : (s.opens c || c = '\x60') = true
    · rw [if_pos ho, if_pos (show (s.touch.opens c || c = '\x60') = true from ho)]
      exact .inl ⟨hw, rfl⟩
    · rw [if_neg ho, if_neg (show ¬(s.touch.opens c || c = '\x60') = true from ho)]
      split
      · exact .inl ⟨hw, rfl⟩
      · split
        · exact .inl ⟨hw, rfl⟩
        · exact .inl ⟨putQuoted_isSome, touch_putQuoted⟩

theorem follows_feed (hwf : WellFormed s) (hw : s.word.isSome = true)
    (hn : s.passes .touched c = true) : Follows (s.feed c) (s.touch.feed c) := by
  unfold feed
  rw [touch_mode]
  match hm : s.mode with
  | .plain =>
      have hp : s.escaped = false → (delimits c = true → s.taken c = false) ∧
          (kind c = .equals → s.assigns = false) := fun he => by
        simp only [passes, hm, he, Bool.and_eq_true, Bool.not_eq_true'] at hn
        simpa [imp_iff_not_or] using hn.2
      exact follows_feedPlain hw (fun he => (hp he).1) fun he => (hp he).2
  | .single =>
      dsimp only
      split
      · exact .inl ⟨hw, rfl⟩
      · exact .inl ⟨rfl, rfl⟩
  | .double => exact follows_feedDouble hw
  | .comment =>
      rw [(hwf.comment hm).1] at hw
      cases hw
  | .beyond => exact .inl ⟨hw, rfl⟩

/-- What `joins` asks of a character, by its kind. -/
theorem kind_of_joins (h : s.joins c = true) : s.bracket = false ∧
    (kind c = .ordinary ∨ kind c = .colon ∨ kind c = .hash ∧ s.word.isSome = true ∨
      kind c = .tilde ∧ s.word.isSome = true ∧ s.expansion ≠ .value ∨
      kind c = .equals ∧ s.assigns = false) ∧
    (s.expansion = .none ∨ s.expansion = .value ∨ s.expansion = .name ∧ isNameChar c = false ∨
      s.expansion = .tilde ∧ c = '/') := by
  simp only [joins, Bool.and_eq_true, Bool.not_eq_true'] at h
  obtain ⟨⟨hb, hk⟩, hx⟩ := h
  refine ⟨hb, ?_, ?_⟩
  · cases hc : kind c <;> simp_all
  · cases hs : s.expansion <;> simp_all

theorem putFresh_joins (h : s.joins c = true) : ∃ e, s.putFresh c = s.put c .literal e := by
  obtain ⟨hb, hk, -⟩ := kind_of_joins h
  have ho : ∀ e, s.putOrdinary c e = s.put c .literal e := fun e => by simp [putOrdinary, hb]
  unfold putFresh
  rcases hk with hk | hk | ⟨hk, -⟩ | ⟨hk, hw, hx⟩ | ⟨hk, ha⟩
  · exact ⟨.none, by simp only [hk, ho]⟩
  · exact ⟨_, by simp only [hk, ho]; rfl⟩
  · exact ⟨.none, by simp only [hk, ho]⟩
  · refine ⟨.none, ?_⟩
    have hw' : s.word.isNone = false := by simpa using hw
    simp [hk, ho, hw', hx]
  · exact ⟨.none, by simp [hk, ho, ha]⟩

/-- A character that joins is its own literal; after a colon in an assignment, a tilde may
yet be expanded. -/
theorem feed_joins (hm : s.mode = .plain) (he : s.escaped = false) (h : s.joins c = true) :
    ∃ e, s.feed c = s.put c .literal e := by
  obtain ⟨hb, hk, hx⟩ := kind_of_joins h
  have ho : s.opens c = false := by
    rcases hx with hx | hx | ⟨hx, -⟩ | ⟨hx, -⟩ <;> simp [opens, hx]
  have hput : ∃ e, s.putBare c = s.put c .literal e := by
    rcases hx with hx | hx | ⟨hx, hn⟩ | ⟨hx, rfl⟩
    · simpa [putBare, hx] using putFresh_joins h
    · simpa [putBare, hx] using putFresh_joins h
    · simpa [putBare, hx, hn] using putFresh_joins h
    · exact ⟨.none, by simp [putBare, hx, putOrdinary, hb]⟩
  have hfeed : s.feed c = s.putBare c := by
    unfold feed feedPlain
    rcases hk with hk | hk | ⟨hk, hw⟩ | ⟨hk, -⟩ | ⟨hk, -⟩
    case inr.inr.inl => simp [hm, he, ho, hk, show s.word.isNone = false by simpa using hw]
    all_goals simp [hm, he, ho, hk]
  rw [hfeed]
  exact hput

/-- A part outside quotes is its characters and nothing else. -/
theorem feeds_joinsAll {v : List Char} (hm : s.mode = .plain) (he : s.escaped = false) (hv : v ≠ [])
    (h : s.joinsAll v = true) : ∃ e, s.feeds v =
      { s with word := some (s.word.getD [] ++ literals v), expansion := e, joined := false } := by
  induction v generalizing s with
  | nil => exact absurd rfl hv
  | cons c v ih =>
      simp only [joinsAll, Bool.and_eq_true] at h
      obtain ⟨e, hf⟩ := feed_joins hm he h.1
      have hall : (s.put c .literal e).joinsAll v = true := hf ▸ h.2
      rw [feeds_cons, hf]
      by_cases hn : v = []
      · subst hn
        exact ⟨e, by simp [put, literals]⟩
      · obtain ⟨e', h'⟩ := ih (s := s.put c .literal e) hm he hn hall
        exact ⟨e', by rw [h']; simp [put, literals]⟩

theorem feeds_fitsPlain (hm : s.mode = .plain) (he : s.escaped = false) {v : List Char}
    (hv : v ≠ []) (hf : s.fitsPlain v = true) :
    s.feeds v = { s with word := some (s.word.getD [] ++ literals v), expansion := .none
                         joined := false } := by
  simp only [fitsPlain, Bool.and_eq_true, decide_eq_true_eq] at hf
  obtain ⟨e, he'⟩ := feeds_joinsAll hm he hv hf.1
  have hx := hf.2
  rw [he'] at hx ⊢
  rw [show e = .none from hx]

theorem flatMap_escapeQuote {v : List Char} (hv : ∀ c ∈ v, c ≠ '\'') :
    v.flatMap escapeQuote = v := by
  induction v with
  | nil => rfl
  | cons c v ih =>
      rw [List.flatMap_cons, ih fun c hc => hv c (List.mem_cons_of_mem _ hc), escapeQuote,
        if_neg (hv c List.mem_cons_self)]
      rfl

theorem ne_quote_of_joinsAll {v : List Char} (h : s.joinsAll v = true) : ∀ c ∈ v, c ≠ '\'' := by
  induction v generalizing s with
  | nil => exact nofun
  | cons c v ih =>
      simp only [joinsAll, Bool.and_eq_true] at h
      intro d hd
      rcases List.mem_cons.mp hd with rfl | hd
      · rintro rfl
        have hk := (kind_of_joins h.1).2.1
        revert hk
        simp [kind]
      · exact ih h.2 d hd

theorem feeds_single {gs : List Glyph} (h : InSingle s gs) {v : List Char}
    (hv : ∀ c ∈ v, c ≠ '\'') : s.feeds v = s.growing (gs ++ literals v) := by
  rw [← feeds_escapeQuotes h v, flatMap_escapeQuote hv]

theorem feeds_comment (hm : s.mode = .comment) (v : List Char) (hv : ∀ c ∈ v, c ≠ '\n') :
    s.feeds v = s := by
  induction v with
  | nil => rfl
  | cons c v ih =>
      have hc : s.feed c = s := by simp [feed, hm, hv c List.mem_cons_self]
      rw [feeds_cons, hc, ih fun c hc => hv c (List.mem_cons_of_mem _ hc)]

theorem ne_newline_quoted {v : List Char} (hv : ∀ c ∈ v, c ≠ '\n') : ∀ c ∈ quoted v, c ≠ '\n' := by
  have he : ∀ c ∈ v.flatMap escapeQuote, c ≠ '\n' := by
    intro c hc
    obtain ⟨d, hd, hc⟩ := List.mem_flatMap.mp hc
    unfold escapeQuote at hc
    split at hc
    · simp only [List.mem_cons, List.not_mem_nil, or_false] at hc
      rcases hc with rfl | rfl | rfl | rfl <;> decide
    · rw [List.mem_singleton.mp hc]
      exact hv d hd
  intro c hc
  simp only [quoted, List.mem_append, List.mem_cons, List.not_mem_nil, or_false] at hc
  rcases hc with (rfl | hc) | rfl
  · decide
  · exact he c hc
  · decide

/-- Within single quotes, quoting a part closes them before it and opens them
after it. -/
theorem feeds_quoted_single (h : InSingle s (s.word.getD [])) {v : List Char}
    (hv : { s with mode := .plain }.joinsAll v = true) : s.feeds (quoted v) = s.feeds v := by
  obtain ⟨h₁, h₂, h₃, h₄, h₅, h₆⟩ := h
  have hne : ∀ c ∈ v, c ≠ '\'' := ne_quote_of_joinsAll hv
  have hclose : s.feed '\'' = { s with mode := .plain } := by simp [feed, h₁]
  obtain ⟨e, hmid⟩ : ∃ e, ({ s with mode := .plain } : Lexer).feeds v =
      { s with mode := .plain, word := some (s.word.getD [] ++ literals v), expansion := e } := by
    by_cases hn : v = []
    · subst hn
      exact ⟨s.expansion, by simp [literals, ← h₂]⟩
    · obtain ⟨e, he⟩ := feeds_joinsAll (s := { s with mode := .plain }) rfl h₄ hn hv
      exact ⟨e, by rw [he, h₆]⟩
  unfold quoted
  rw [List.cons_append, feeds_cons, feeds_append, hclose, flatMap_escapeQuote hne, hmid,
    feeds_single ⟨h₁, h₂, h₃, h₄, h₅, h₆⟩ hne]
  have ho : ({ s with mode := .plain, word := some (s.word.getD [] ++ literals v), expansion := e } :
      Lexer).opens '\'' = false := by simp [opens]
  cases s
  simp only at h₁ h₃ h₄ h₅ h₆
  subst h₁ h₃ h₄ h₅ h₆
  simp [feed, feedPlain, opens, kind, quote, growing]

theorem paired_part {l : Lag} {v : List Char} (hwf : WellFormed s) (h : Paired s t l)
    (hf : s.fits v = true) :
    Paired (s.feeds v) (t.feeds (quoted v)) (lagPart s (s.feeds v) l) := by
  unfold fits at hf
  unfold lagPart
  match hm : s.mode with
  | .plain =>
      simp only [hm, Bool.and_eq_true, Bool.not_eq_true'] at hf ⊢
      obtain ⟨he, hf⟩ := hf
      have ht : t.feeds (quoted v) =
          { s with word := some (s.word.getD [] ++ literals v), bare := false, expansion := .none
                   joined := false } := by
        match l, h with
        | .same, h => rw [h, feeds_quoted hm he]
        | .touched, h => rw [h.2, feeds_quoted (s := s.touch) hm he]; rfl
        | .opened, h =>
            rw [h.2.2.2, feeds_quoted (s := s.start) hm he]
            simp [start, h.1]
      rw [ht]
      by_cases hv : v = []
      · subst hv
        have hx : s.expansion = .none := by
          simp only [fitsPlain, Bool.and_eq_true, decide_eq_true_eq] at hf
          exact hf.2
        cases hw : s.word with
        | none => simp [Paired, start, hw, hm, hx, literals]
        | some gs =>
            have hj : s.joined = false := hwf.joined (by rw [hw]; rfl)
            simp [Paired, touch, hw, hx, hj, literals]
      · rw [feeds_fitsPlain hm he hv hf]
        simp [Paired, touch]
  | .single =>
      simp only [hm] at hf ⊢
      have hs := hwf.single hm
      have hts : t = s := by
        match l, h with
        | .same, h => exact h
        | .touched, h => rw [h.2, touch, ← hs.bare]
        | .opened, h => exact absurd (hm.symm.trans h.2.1) nofun
      rw [hts, feeds_quoted_single hs hf]
      match l, h with
      | .same, h => rfl
      | .touched, h =>
          rw [feeds_single hs (ne_quote_of_joinsAll hf)]
          refine ⟨rfl, ?_⟩
          rw [touch, growing, ← hs.bare]
      | .opened, h => exact absurd (hm.symm.trans h.2.1) nofun
  | .comment =>
      simp only [hm, List.all_eq_true, decide_eq_true_eq] at hf ⊢
      have hq : ∀ c ∈ quoted v, c ≠ '\n' := ne_newline_quoted hf
      rw [feeds_comment hm v hf]
      match l, h with
      | .same, h => rw [h, feeds_comment hm _ hq]; rfl
      | .touched, h => rw [h.2, feeds_comment (s := s.touch) hm _ hq]; exact ⟨h.1, rfl⟩
      | .opened, h => exact absurd (hm.symm.trans h.2.1) nofun
  | .double => simp [hm] at hf
  | .beyond => simp [hm] at hf

theorem paired_opened (h : Paired s t .opened) (hp : s.passes .opened c = true) :
    Paired (s.feed c) (t.feed c) (lagAfter (s.feed c) .opened) := by
  obtain ⟨hw, hm, hx, rfl⟩ := h
  have ho : s.opens c = false := by simp [opens, hx]
  have ho' : s.start.opens c = false := ho
  unfold feed
  rw [show s.start.mode = s.mode from rfl, hm]
  dsimp only
  unfold feedPlain
  cases he : s.escaped with
  | true =>
      rw [if_pos rfl, if_pos (show s.start.escaped = true from he)]
      by_cases hc : c = '\n'
      · rw [if_pos hc, if_pos hc]
        simp [lagAfter, Paired, hw, hm, hx, start]
      · rw [if_neg hc, if_neg hc]
        simp [lagAfter, Paired, put, start, touch, hw]
  | false =>
      simp only [ho, ho', show s.start.escaped = false from he, Bool.false_eq_true, if_false]
      simp only [passes, he, Bool.false_or, Bool.and_eq_true] at hp
      replace hp := hp.2
      have hna : s.assigns = false := by simp [assigns, hw]
      have hna' : s.start.assigns = false := rfl
      cases hk : kind c with
      | backslash => simp [lagAfter, Paired, hw, hm, hx, start]
      | single | double => simp [lagAfter, Paired, quote, touch, start, hw]
      | dollar | pattern | bracket | ordinary | colon =>
          simp [putBare, putFresh, putOrdinary, hk, hx, lagAfter, Paired, put, touch, start, hw]
      | equals =>
          have hs : s.putBare c = s.putOrdinary c := by simp [putBare, putFresh, hk, hx, hna]
          have hs' : s.start.putBare c = s.start.putOrdinary c := by
            simp [putBare, putFresh, hk, show s.start.expansion = .none from hx, hna']
          dsimp only
          rw [hs, hs']
          simp [lagAfter, Paired, putOrdinary, put, touch, start, hw]
          rfl
      | _ => rw [hk] at hp; cases hp

theorem paired_char {l : Lag} (hwf : WellFormed s) (h : Paired s t l) (hp : s.passes l c = true) :
    Paired (s.feed c) (t.feed c) (lagAfter (s.feed c) l) := by
  match l, h with
  | .same, h => exact congrArg (feed · c) h
  | .touched, ⟨hw, ht⟩ =>
      rw [ht]
      rcases follows_feed hwf hw hp with ⟨hs, he⟩ | ⟨hn, he⟩
      · have : (s.feed c).word.isNone = false := by simpa using hs
        simp [lagAfter, this, Paired, hs, he]
      · simp [lagAfter, hn, Paired, he]
  | .opened, h => exact paired_opened h hp

/-- A backslash at the end of a word makes it neither a name nor reserved. -/
theorem not_taken_backslash {gs : List Glyph} {f : Force} (hw : s.word = some (gs ++ [⟨'\\', f⟩])) :
    s.taken '\n' = false := by
  have hn : isName (gs ++ [⟨'\\', f⟩]) = false := by
    cases gs with
    | nil => rfl
    | cons g gs => simp [isName, show isNameChar '\\' = false by decide]
  have hr : isReserved (gs ++ [⟨'\\', f⟩]) = false := by
    refine List.any_eq_false.mpr fun w hw => ?_
    have hlast : w.toList.getLast? ≠ some '\\' := by
      revert w
      decide
    simp only [decide_eq_true_eq]
    intro he
    exact hlast (by rw [he]; simp)
  simp [taken, hw, numbers, reserves, hn, hr]

theorem close_touch (hw : s.word.isSome = true) (hp : s.passes .touched '\n' = true) :
    s.touch.close.done = s.close.done := by
  unfold close
  rw [touch_mode, touch_escaped]
  match hm : s.mode with
  | .plain =>
      cases he : s.escaped with
      | true =>
          dsimp only
          rw [if_pos rfl, if_pos rfl, show s.touch.put '\\' .literal = (s.put '\\' .literal).touch from rfl,
            touch_endWord rfl (not_taken_backslash rfl)]
      | false =>
          simp only [passes, hm, he, Bool.and_eq_true, Bool.not_eq_true'] at hp
          have ht : s.taken '\n' = false := by simpa [delimits, kind] using hp.2
          simp [touch_endWord hw ht]
  | .single | .double | .comment | .beyond => rfl

theorem finish_of_paired {l : Lag} (h : Paired s t l)
    (hl : (if l = .opened then s.escaped else s.passes l '\n') = true) : t.finish = s.finish := by
  match l, h with
  | .same, h => exact congrArg finish h
  | .touched, h =>
      rw [h.2]
      unfold finish
      rw [close_touch h.1 hl]
      rfl
  | .opened, ⟨hw, hm, _, ht⟩ =>
      have he : s.escaped = true := hl
      have hput : s.start.put '\\' .literal = (s.put '\\' .literal).touch := by
        simp [start, put, touch, hw]
      rw [ht]
      unfold finish close ending
      rw [show s.start.mode = s.mode from rfl, show s.start.escaped = s.escaped from rfl, hm, he]
      dsimp only
      rw [if_pos rfl, if_pos rfl, hput, touch_endWord rfl (not_taken_backslash rfl)]

/-- Where every part stands harmlessly, quoting the parts changes nothing. -/
theorem finish_withQuotes {l : Lag} (ps : List Piece) (hwf : WellFormed s) (h : Paired s t l)
    (hs : s.harmless l ps = true) :
    (t.feeds (withQuotes ps)).finish = (s.feeds (raw ps)).finish := by
  induction ps generalizing s t l with
  | nil => exact finish_of_paired h hs
  | cons p ps ih =>
      unfold harmless at hs
      cases p with
      | char c =>
          rw [Bool.and_eq_true] at hs
          exact ih hwf.feed (paired_char hwf h hs.1) hs.2
      | part v =>
          rw [Bool.and_eq_true] at hs
          have hr : raw (.part v :: ps) = v ++ raw ps := rfl
          have hq : withQuotes (.part v :: ps) = quoted v ++ withQuotes ps := rfl
          rw [hr, hq, feeds_append, feeds_append]
          exact ih (hwf.feeds v) (paired_part hwf h hs.1) hs.2

end Lexer

/-- Where every part stands harmlessly, a shell reads the same words from the
text with its parts quoted and from the text with its parts as they are. -/
theorem read_withQuotes {ps : List Piece} (h : ({} : Lexer).harmless .same ps = true) :
    read (withQuotes ps) = read (raw ps) :=
  Lexer.finish_withQuotes (l := .same) ps .initial rfl h

/-! ## Quoting is seen by some part -/

/-- A text with holes, each filled by the same part. -/
def fill (v : List Char) (xs : List (Option Char)) : List Piece :=
  xs.map fun
    | some c => .char c
    | none => .part v

namespace Lexer

variable {s : Lexer}

/-- A letter and a newline outside quotes end a word. -/
theorem emitted_bare (hm : s.mode = .plain) (he : s.escaped = false) (hx : s.opens 'c' = false) :
    ∃ f x, x.spelling = some (s.word.getD [] ++ [⟨'c', f⟩]) ∧
      Emitted s.done x (s.feeds ['c', '\n']) := by
  obtain ⟨f, hw, hd, hm', he', -⟩ := putBare_spec (s := s) (c := 'c')
  have h₁ : s.feed 'c' = s.putBare 'c' := by simp [feed, hm, feedPlain, he, hx, kind]
  obtain ⟨x, hsp, h⟩ := emitted_newline (hm'.trans hm) (he'.trans he) hw
  rw [hd, ← h₁] at h
  exact ⟨f, x, hsp, h⟩

theorem not_starts_two {α : Type} {l : List α} {a b c : α} : ¬l ++ [a, b] <+: l ++ [c] := by
  intro h
  have := h.length_le
  simp at this

theorem not_starts_other {α : Type} {l r : List α} {a b : α} (h : a ≠ b) :
    ¬l ++ [a] <+: l ++ b :: r := by
  rw [List.prefix_append_right_inj]
  intro hp
  exact h (List.cons_prefix_cons.mp hp).1

theorem opens_letter : s.opens 'c' = false := by simp [opens]

theorem not_digits {gs : List Glyph} {g : Glyph} (h : g.char.isDigit = false) :
    isDigits (gs ++ [g]) = false := by
  simp [isDigits, h]

/-- The parts that show a quotation, by where they stand. -/
def telltale (s : Lexer) : List Char :=
  match s.mode with
  | .plain | .single => ['c', '\n']
  | .double => ['"', '\n', '"']
  | .comment => ['\n', '\'', '\n', '\'', '\n']
  | .beyond => []

theorem telltale_plain (hm : s.mode = .plain) (cs ds : List Char) :
    ((s.feeds s.telltale).feeds cs).finish ≠ ((s.feeds (quoted s.telltale)).feeds ds).finish := by
  rw [show s.telltale = ['c', '\n'] by simp [telltale, hm]]
  cases he : s.escaped with
  | false =>
      obtain ⟨f, x, hx, hs⟩ := emitted_bare hm he opens_letter
      refine finish_ne (p := s.word.getD [] ++ [⟨'c', .literal⟩, ⟨'\n', .literal⟩]) hx
        (hs.feeds cs) (Begins.feeds ?_ (.inl ⟨?_, [], ?_⟩) ds) ?_ not_starts_two
      · simp [isDigits]
      · rw [feeds_quoted hm he]
      · rw [feeds_quoted hm he]
        simp [literals]
      · simp [isDigits]
  | true =>
      obtain ⟨x, hx, hs⟩ : ∃ x, x.spelling = some (s.word.getD [] ++ [⟨'c', .literal⟩]) ∧
          Emitted s.done x (s.feeds ['c', '\n']) := by
        have h₁ : s.feed 'c' = { s with escaped := false, bare := false }.put 'c' .literal := by
          simp [feed, hm, feedPlain, he]
        obtain ⟨x, hx, h⟩ := emitted_newline (s := s.feed 'c') (by rw [h₁]; exact hm) (by rw [h₁]; rfl)
          (by rw [h₁]; rfl)
        rw [show (s.feed 'c').done = s.done by rw [h₁]; rfl] at h
        exact ⟨x, hx, h⟩
      have ht : Begins s.done (s.word.getD [] ++ [⟨'\'', .literal⟩]) (s.feed '\'') := by
        refine .inl ⟨?_, [], ?_⟩ <;> simp [feed, hm, feedPlain, he, put]
      exact finish_ne hx (hs.feeds cs) ((ht.feeds (not_digits rfl) _).feeds (not_digits rfl) ds)
        (not_digits rfl) (not_starts_other (by decide))

theorem telltale_single (hwf : WellFormed s) (hm : s.mode = .single) (cs ds : List Char) :
    ((s.feeds s.telltale).feeds cs).finish ≠ ((s.feeds (quoted s.telltale)).feeds ds).finish := by
  rw [show s.telltale = ['c', '\n'] by simp [telltale, hm]]
  have h := hwf.single hm
  have hclose : s.feed '\'' = { s with mode := .plain } := by simp [feed, hm]
  obtain ⟨f, x, hx, hs⟩ := emitted_bare (s := { s with mode := .plain }) rfl h.escaped opens_letter
  have hs' : Emitted s.done x (s.feeds (quoted ['c', '\n'])) := by
    show Emitted _ _ ((s.feed '\'').feeds (['c', '\n'] ++ ['\'']))
    rw [hclose, feeds_append]
    exact hs.feeds _
  refine Ne.symm (finish_ne (p := s.word.getD [] ++ [⟨'c', .literal⟩, ⟨'\n', .literal⟩])
    hx (hs'.feeds ds) (Begins.feeds ?_ (.inl ⟨?_, [], ?_⟩) cs) ?_ not_starts_two)
  · simp [isDigits]
  · simp [feed, hm, put]
  · simp [feed, hm, put]
  · simp [isDigits]

theorem telltale_double (hwf : WellFormed s) (hm : s.mode = .double) (cs ds : List Char) :
    ((s.feeds s.telltale).feeds cs).finish ≠ ((s.feeds (quoted s.telltale)).feeds ds).finish := by
  rw [show s.telltale = ['"', '\n', '"'] by simp [telltale, hm]]
  obtain ⟨gs, hw⟩ := Option.isSome_iff_exists.mp (hwf.double hm)
  cases he : s.escaped with
  | false =>
      obtain ⟨x, hx, hs⟩ : ∃ x, x.spelling = some gs ∧ Emitted s.done x (s.feeds ['"', '\n', '"']) := by
        have h₁ : s.feed '"' = { s with mode := .plain, expansion := .none } := by
          simp [feed, hm, feedDouble, he, opens]
        obtain ⟨x, hx, h⟩ := emitted_newline (s := s.feed '"') (by rw [h₁]) (by rw [h₁]; exact he)
          (by rw [h₁]; exact hw)
        rw [show (s.feed '"').done = s.done by rw [h₁]] at h
        exact ⟨x, hx, h.feeds ['"']⟩
      have ht : Begins s.done (gs ++ [⟨'\'', .literal⟩]) (s.feed '\'') := by
        have h₁ : s.feed '\'' = s.put '\'' .literal := by
          have hx : s.opens '\'' = false := by simp [opens]
          have hn : isNameStart '\'' = false := by decide
          have hn' : isNameChar '\'' = false := by decide
          have hn'' : isSpecialParameter '\'' = false := by decide
          cases hxp : s.expansion <;> simp [feed, hm, feedDouble, he, hx, putQuoted, hxp, hn, hn', hn'']
        rw [h₁]
        exact .inl ⟨rfl, [], by simp [put, hw]⟩
      refine finish_ne hx (hs.feeds cs) ((ht.feeds (not_digits rfl) _).feeds (not_digits rfl) ds)
        (not_digits rfl) fun hp => ?_
      have := hp.length_le
      simp only [List.length_append, List.length_singleton] at this
      omega
  | true =>
      have ht : Begins s.done (gs ++ [⟨'"', .literal⟩]) (s.feed '"') := by
        refine .inl ⟨?_, [], ?_⟩ <;> simp [feed, hm, feedDouble, he, put, hw]
      obtain ⟨x, hx, hs⟩ : ∃ x, x.spelling = some (gs ++ [⟨'\\', .literal⟩, ⟨'\'', .literal⟩]) ∧
          Emitted s.done x (s.feeds ['\'', '"', '\n']) := by
        have h₁ : s.feeds ['\'', '"'] =
            { s with mode := .plain, escaped := false, expansion := .none, joined := false
                     word := some (gs ++ [⟨'\\', .literal⟩, ⟨'\'', .literal⟩]) } := by
          simp [feed, hm, feedDouble, he, put, hw, opens]
        obtain ⟨x, hx, h⟩ := emitted_newline (s := s.feeds ['\'', '"']) (by rw [h₁]) (by rw [h₁])
          (by rw [h₁])
        rw [show (s.feeds ['\'', '"']).done = s.done by rw [h₁]] at h
        exact ⟨x, hx, h⟩
      refine Ne.symm (finish_ne hx ((hs.feeds ['"', '\'']).feeds ds)
        ((ht.feeds (not_digits rfl) ['\n', '"']).feeds (not_digits rfl) cs)
        (not_digits rfl) (not_starts_other (by decide)))

theorem telltale_comment (hwf : WellFormed s) (hm : s.mode = .comment) (cs ds : List Char) :
    ((s.feeds s.telltale).feeds cs).finish ≠ ((s.feeds (quoted s.telltale)).feeds ds).finish := by
  rw [show s.telltale = ['\n', '\'', '\n', '\'', '\n'] by simp [telltale, hm]]
  obtain ⟨hw, he⟩ := hwf.comment hm
  have hs : Emitted (s.done ++ [.op '\n' s.joined]) (.word [⟨'\n', .literal⟩])
      (s.feeds ['\n', '\'', '\n', '\'', '\n']) := by
    simp [Emitted, feed, hm, feedPlain, he, put, hw, opens, kind, operator, endWord, delimit_of_quoted, quote]
  have ht : Begins (s.done ++ [.op '\n' s.joined]) [⟨'\\', .literal⟩]
      (s.feeds ['\'', '\n', '\'', '\\']) := by
    refine .inl ⟨?_, [], ?_⟩ <;>
      simp [feed, hm, feedPlain, he, put, hw, opens, kind, operator, endWord, quote]
  refine finish_ne rfl (hs.feeds cs) ((ht.feeds ?_ _).feeds ?_ ds) ?_ ?_
  all_goals decide

theorem feeds_beyond (hm : s.mode = .beyond) (cs : List Char) :
    s.feeds cs = { s with rest := s.rest ++ cs } := by
  induction cs generalizing s with
  | nil => simp
  | cons c cs ih =>
      have hc : s.feed c = { s with rest := s.rest ++ [c] } := by simp [feed, hm]
      rw [feeds_cons, hc, ih (s := { s with rest := s.rest ++ [c] }) hm]
      simp

theorem count_dropNewlines (cs : List Char) : (dropNewlines cs).count '\'' = cs.count '\'' := by
  unfold dropNewlines
  induction cs using List.reverseRecOn with
  | nil => simp
  | append_singleton cs c ih =>
      by_cases hc : c = '\n'
      · subst hc
        rw [List.rdropWhile_concat_pos _ _ _ (by simp), ih, List.count_append]
        simp
      · rw [List.rdropWhile_concat_neg _ _ _ (by simpa using hc)]

theorem count_raw_le (xs : List (Option Char)) :
    (raw (fill [] xs)).count '\'' ≤ (withQuotes (fill [] xs)).count '\'' := by
  induction xs with
  | nil => exact Nat.le_refl _
  | cons x xs ih =>
      cases x with
      | none =>
          have h₁ : raw (fill [] (none :: xs)) = raw (fill [] xs) := rfl
          have h₂ : withQuotes (fill [] (none :: xs)) = '\'' :: '\'' :: withQuotes (fill [] xs) := rfl
          rw [h₁, h₂, List.count_cons, List.count_cons]
          omega
      | some c =>
          have h₁ : raw (fill [] (some c :: xs)) = c :: raw (fill [] xs) := rfl
          have h₂ : withQuotes (fill [] (some c :: xs)) = c :: withQuotes (fill [] xs) := rfl
          rw [h₁, h₂, List.count_cons, List.count_cons]
          omega

theorem telltale_beyond (hm : s.mode = .beyond) (xs : List (Option Char)) :
    (s.feeds (raw (fill s.telltale (none :: xs)))).finish ≠
      (s.feeds (withQuotes (fill s.telltale (none :: xs)))).finish := by
  rw [show s.telltale = [] by simp [telltale, hm], feeds_beyond hm, feeds_beyond hm]
  intro he
  have hend := congrArg Reading.ending he
  simp only [finish, ending, hm, Ending.beyond.injEq, true_and] at hend
  have hc := congrArg (List.count '\'') hend
  rw [count_dropNewlines, count_dropNewlines, List.count_append, List.count_append] at hc
  have h₁ : raw (fill [] (none :: xs)) = raw (fill [] xs) := rfl
  have h₂ : withQuotes (fill [] (none :: xs)) = '\'' :: '\'' :: withQuotes (fill [] xs) := rfl
  have hle := count_raw_le xs
  rw [h₁, h₂, List.count_cons_self, List.count_cons_self] at hc
  omega

/-- Whatever stands before and after a hole, there is a part that shows whether
it is quoted. -/
theorem telltale_shows (hwf : WellFormed s) (xs : List (Option Char)) :
    (s.feeds (raw (fill s.telltale (none :: xs)))).finish ≠
      (s.feeds (withQuotes (fill s.telltale (none :: xs)))).finish := by
  have hr : raw (fill s.telltale (none :: xs)) = s.telltale ++ raw (fill s.telltale xs) := rfl
  have hq : withQuotes (fill s.telltale (none :: xs)) =
      quoted s.telltale ++ withQuotes (fill s.telltale xs) := rfl
  match hm : s.mode with
  | .plain => rw [hr, hq, feeds_append, feeds_append]; exact telltale_plain hm _ _
  | .single => rw [hr, hq, feeds_append, feeds_append]; exact telltale_single hwf hm _ _
  | .double => rw [hr, hq, feeds_append, feeds_append]; exact telltale_double hwf hm _ _
  | .comment => rw [hr, hq, feeds_append, feeds_append]; exact telltale_comment hwf hm _ _
  | .beyond => exact telltale_beyond hm xs

end Lexer

/-- The characters a telltale part is made of. -/
def telltaleChars : List Char := ['c', '\n', '"', '\'']

theorem mem_telltale (s : Lexer) : ∀ c ∈ s.telltale, c ∈ telltaleChars := by
  unfold Lexer.telltale
  split <;> simp [telltaleChars]

/-- A text with a hole in it reads differently, for some part in its holes, when
they are quoted. -/
theorem exists_telltale {xs : List (Option Char)} (h : none ∈ xs) :
    ∃ v, (∀ c ∈ v, c ∈ telltaleChars) ∧ read (raw (fill v xs)) ≠ read (withQuotes (fill v xs)) := by
  obtain ⟨cs, ys, hxs⟩ : ∃ (cs : List Char) (ys : List (Option Char)),
      xs = cs.map some ++ none :: ys := by
    induction xs with
    | nil => cases h
    | cons x xs ih =>
        cases x with
        | none => exact ⟨[], xs, rfl⟩
        | some c =>
            obtain ⟨cs, ys, rfl⟩ := ih (by simpa using h)
            exact ⟨c :: cs, ys, rfl⟩
  have hraw : ∀ v, raw (fill v xs) = cs ++ raw (fill v (none :: ys)) := fun v => by
    rw [hxs]
    simp [raw, fill, List.flatMap_map, Piece.raw]
  have hquo : ∀ v, withQuotes (fill v xs) = cs ++ withQuotes (fill v (none :: ys)) := fun v => by
    rw [hxs]
    simp [withQuotes, fill, List.flatMap_map, Piece.quoted]
  refine ⟨(({} : Lexer).feeds cs).telltale, mem_telltale _, ?_⟩
  unfold read
  rw [hraw, hquo, Lexer.feeds_append, Lexer.feeds_append]
  exact Lexer.telltale_shows (Lexer.WellFormed.initial.feeds cs) ys

end Rescind.Lib.Shell
