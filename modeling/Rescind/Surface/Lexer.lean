/-
# `Rescind.Surface.Lexer` — the tokens of a source

A source is cut into tokens, nothing dropped: at each place the longest token there
is.  A string carries its `#{...}` whole, braces balanced; one that is not closed
runs to the end of the line.  A string's scan steps over what a backslash escapes
without looking, also over the end of the source, and taking more than there is ends
the program.

**Proved here.**

    the tokens' texts are the source, none empty     (`text_of_lex`, `nonempty_of_lex`)
    only a string's scan can pass the end                       (`lex_isSome_iff`)
-/
import Rescind.Lib.Text

namespace Rescind.Surface

/-- The kinds of tokens, and of the nodes of a tree. -/
inductive SyntaxKind where
  | whitespace | newline | comment
  | name | upperName | atom | int | float | duration | string
  | lParen | rParen | lBrack | rBrack | lBrace | rBrace | percentBrace
  | comma | colon | pipe | pipeGt | eq | eqEq | bangEq | lt | le | gt | ge
  | plus | minus | star | slash | percent | dot
  /-- A character the lexer does not know. -/
  | errorToken
  | file | version | import_ | block | def_ | header | pattern | body | line | step | pipeline
  | knell | slot | observe | assert | repeat_ | when_ | elseArm | contribution
  | args | kw | call | ref | binary | unary | paren | list | record | recordEntry | literal
  | error
  deriving DecidableEq, Repr

structure Token where
  kind : SyntaxKind
  text : List Char
  deriving DecidableEq, Repr

/-- Their texts, one after the other. -/
def textOf (ts : List Token) : List Char := ts.flatMap Token.text

@[simp] theorem textOf_nil : textOf [] = [] := rfl

@[simp] theorem textOf_cons (t : Token) (ts : List Token) :
    textOf (t :: ts) = t.text ++ textOf ts := rfl

@[simp] theorem textOf_append (ts us : List Token) : textOf (ts ++ us) = textOf ts ++ textOf us :=
  List.flatMap_append

/-! ## Scanning one token -/

def isBlank (c : Char) : Bool := c = ' ' || c = '\t'

def isDigit (c : Char) : Bool := '0' ≤ c && c ≤ '9'

def isLower (c : Char) : Bool := 'a' ≤ c && c ≤ 'z'

def isUpper (c : Char) : Bool := 'A' ≤ c && c ≤ 'Z'

def isNameStart (c : Char) : Bool := isLower c || c = '_'

def isNameChar (c : Char) : Bool := isLower c || isDigit c || c = '_'

def isAtomChar (c : Char) : Bool := isNameChar c || c = '?' || c = '!'

def isUpperChar (c : Char) : Bool := isUpper c || isLower c || isDigit c || c = '_'

/-- How many characters a run has. -/
def runOf (p : Char → Bool) (cs : List Char) : Nat := (cs.takeWhile p).length

/-- From after the opening quote to after the closing one, at a depth of braces
inside `#{...}`; or to the end of the line. -/
def lexString : List Char → Nat → Nat
  | [], _ => 0
  | c :: cs, d =>
      if c = '\\' ∧ d = 0 then
        match cs with
        | [] => 2
        | _ :: cs => lexString cs 0 + 2
      else if c = '"' ∧ d = 0 then 1
      else if c = '#' ∧ d = 0 then
        match cs with
        | '{' :: cs => lexString cs 1 + 2
        | cs => lexString cs 0 + 1
      else if c = '{' ∧ 0 < d then lexString cs (d + 1) + 1
      else if c = '}' ∧ 0 < d then lexString cs (d - 1) + 1
      else if c = '\n' then 0
      else lexString cs d + 1

/-- From after the opening quote of a quoted atom to after its closing one, if it is
closed on its line. -/
def quotedAtom : List Char → Option Nat
  | [] => none
  | c :: cs =>
      if c = '"' then some 1
      else if c = '\n' then none
      else if c = '\\' then
        match cs with
        | [] => none
        | e :: cs => if e = '\n' then none else (quotedAtom cs).map (· + 2)
      else (quotedAtom cs).map (· + 1)

/-- A number: a duration, else a decimal, else an integer. -/
def scanNumber (cs : List Char) : SyntaxKind × Nat :=
  let n := runOf isDigit cs
  match cs.drop n with
  | 'm' :: 's' :: _ => (.duration, n + 2)
  | 's' :: _ => (.duration, n + 1)
  | 'm' :: _ => (.duration, n + 1)
  | 'h' :: _ => (.duration, n + 1)
  | 'd' :: _ => (.duration, n + 1)
  | '.' :: e :: fs => if isDigit e then (.float, n + 2 + runOf isDigit fs) else (.int, n)
  | _ => (.int, n)

def scanName (cs : List Char) : SyntaxKind × Nat :=
  let n := runOf isNameChar cs
  match cs.drop n with
  | '?' :: _ => (.name, n + 1)
  | _ => (.name, n)

def scanColon (cs : List Char) : SyntaxKind × Nat :=
  match cs with
  | '"' :: fs => match quotedAtom fs with
      | some n => (.atom, n + 1)
      | none => (.colon, 0)
  | c :: fs => if isNameStart c then (.atom, 1 + runOf isAtomChar fs) else (.colon, 0)
  | [] => (.colon, 0)

/-- A token of one character, or with `d` after it of two. -/
def scanPair (d : Char) (two one : SyntaxKind) (cs : List Char) : SyntaxKind × Nat :=
  if cs.head? = some d then (two, 1) else (one, 0)

/-- The token that starts with `c`: its kind, and how many characters follow. -/
def scan (c : Char) (cs : List Char) : SyntaxKind × Nat :=
  if isBlank c then (.whitespace, runOf isBlank cs)
  else if c = '\n' then (.newline, 0)
  else if c = '\r' then scanPair '\n' .newline .errorToken cs
  else if c = '#' then (.comment, runOf (fun c => c ≠ '\n') cs)
  else if isDigit c then scanNumber cs
  else if isNameStart c then scanName cs
  else if isUpper c then (.upperName, runOf isUpperChar cs)
  else if c = ':' then scanColon cs
  else if c = '"' then (.string, lexString cs 0)
  else if c = '%' then scanPair '{' .percentBrace .percent cs
  else if c = '(' then (.lParen, 0)
  else if c = ')' then (.rParen, 0)
  else if c = '[' then (.lBrack, 0)
  else if c = ']' then (.rBrack, 0)
  else if c = '{' then (.lBrace, 0)
  else if c = '}' then (.rBrace, 0)
  else if c = ',' then (.comma, 0)
  else if c = '|' then scanPair '>' .pipeGt .pipe cs
  else if c = '=' then scanPair '=' .eqEq .eq cs
  else if c = '!' then scanPair '=' .bangEq .errorToken cs
  else if c = '<' then scanPair '=' .le .lt cs
  else if c = '>' then scanPair '=' .ge .gt cs
  else if c = '+' then (.plus, 0)
  else if c = '-' then (.minus, 0)
  else if c = '*' then (.star, 0)
  else if c = '/' then (.slash, 0)
  else if c = '.' then (.dot, 0)
  else (.errorToken, 0)

/-! ## The whole source -/

/-- The tokens, if none takes more than there is. -/
def lexFrom : Nat → List Char → Option (List Token)
  | 0, _ => some []
  | _ + 1, [] => some []
  | n + 1, c :: cs =>
      if (scan c cs).2 ≤ cs.length then
        (lexFrom n (cs.drop (scan c cs).2)).map
          (⟨(scan c cs).1, c :: cs.take (scan c cs).2⟩ :: ·)
      else none

def lex (src : List Char) : Option (List Token) := lexFrom src.length src

/-- Where a token starts. -/
inductive Reaches (src : List Char) : List Char → Prop where
  | start : Reaches src src
  | next {c : Char} {cs : List Char} (h : Reaches src (c :: cs)) :
      Reaches src (cs.drop (scan c cs).2)

/-! ## What a scan takes -/

section
variable {p : Char → Bool} {c d : Char} {cs : List Char} {n : Nat} {two one : SyntaxKind}

theorem runOf_le (p : Char → Bool) (cs : List Char) : runOf p cs ≤ cs.length :=
  (List.takeWhile_sublist p).length_le

theorem drop_lt {x : Char} {xs : List Char} (h : cs.drop n = x :: xs) :
    n + 1 + xs.length = cs.length := by
  have hl := congrArg List.length h
  simp only [List.length_drop, List.length_cons] at hl
  omega

theorem scanPair_le : (scanPair d two one cs).2 ≤ cs.length := by
  unfold scanPair
  cases cs with
  | nil => simp
  | cons x xs => split <;> simp

theorem scanNumber_le : (scanNumber cs).2 ≤ cs.length := by
  have hn := runOf_le isDigit cs
  unfold scanNumber
  simp only
  split
  next h =>
    have hl := drop_lt h
    simp only [List.length_cons] at hl
    show _ + 2 ≤ _
    omega
  next h => have hl := drop_lt h; show _ + 1 ≤ _; omega
  next h => have hl := drop_lt h; show _ + 1 ≤ _; omega
  next h => have hl := drop_lt h; show _ + 1 ≤ _; omega
  next h => have hl := drop_lt h; show _ + 1 ≤ _; omega
  next e fs h =>
    have hl := drop_lt h
    have hf := runOf_le isDigit fs
    simp only [List.length_cons] at hl
    split
    · show _ + 2 + _ ≤ _
      omega
    · exact hn
  next => exact hn

theorem scanName_le : (scanName cs).2 ≤ cs.length := by
  have hn := runOf_le isNameChar cs
  unfold scanName
  simp only
  split
  next h => have hl := drop_lt h; show _ + 1 ≤ _; omega
  next => exact hn

theorem quotedAtom_le (h : quotedAtom cs = some n) : n ≤ cs.length := by
  fun_induction quotedAtom cs generalizing n with
  | case1 => cases h
  | case2 => cases h; simp
  | case3 => cases h
  | case4 => cases h
  | case5 => cases h
  | case6 _ _ _ _ _ ih =>
      obtain ⟨m, hm, rfl⟩ := Option.map_eq_some_iff.mp h
      exact Nat.add_le_add_right (ih hm) 2
  | case7 _ _ _ _ _ ih =>
      obtain ⟨m, hm, rfl⟩ := Option.map_eq_some_iff.mp h
      exact Nat.add_le_add_right (ih hm) 1

theorem scanColon_le : (scanColon cs).2 ≤ cs.length := by
  unfold scanColon
  split
  next fs =>
    split
    next n hn => exact Nat.add_le_add_right (quotedAtom_le hn) 1
    next => exact Nat.zero_le _
  next c fs _ =>
    split
    · have hf := runOf_le isAtomChar fs
      show 1 + _ ≤ fs.length + 1
      omega
    · exact Nat.zero_le _
  next => exact Nat.le_refl 0

theorem ite_of {α : Type} {P : α → Prop} {q : Prop} [Decidable q] {a b : α} (ha : q → P a)
    (hb : ¬q → P b) : P (if q then a else b) := by
  split
  next h => exact ha h
  next h => exact hb h

/-- Only a string's scan can pass the end of the source. -/
theorem scan_le (c : Char) (cs : List Char) :
    (scan c cs).2 ≤ cs.length ∨ c = '"' ∧ (scan c cs).2 = lexString cs 0 := by
  have one : ∀ k : SyntaxKind, ((k, 0) : SyntaxKind × Nat).2 ≤ cs.length := fun _ => Nat.zero_le _
  let P (r : SyntaxKind × Nat) : Prop := r.2 ≤ cs.length ∨ c = '"' ∧ r.2 = lexString cs 0
  refine ite_of (P := P) (fun _ => .inl (runOf_le _ _)) fun _ => ?_
  refine ite_of (P := P) (fun _ => .inl (one _)) fun _ => ?_
  refine ite_of (P := P) (fun _ => .inl scanPair_le) fun _ => ?_
  refine ite_of (P := P) (fun _ => .inl (runOf_le _ _)) fun _ => ?_
  refine ite_of (P := P) (fun _ => .inl scanNumber_le) fun _ => ?_
  refine ite_of (P := P) (fun _ => .inl scanName_le) fun _ => ?_
  refine ite_of (P := P) (fun _ => .inl (runOf_le _ _)) fun _ => ?_
  refine ite_of (P := P) (fun _ => .inl scanColon_le) fun _ => ?_
  refine ite_of (P := P) (fun hc => .inr ⟨hc, rfl⟩) fun _ => ?_
  refine ite_of (P := P) (fun _ => .inl scanPair_le) fun _ => ?_
  iterate 7 refine ite_of (P := P) (fun _ => .inl (one _)) fun _ => ?_
  iterate 5 refine ite_of (P := P) (fun _ => .inl scanPair_le) fun _ => ?_
  iterate 5 refine ite_of (P := P) (fun _ => .inl (one _)) fun _ => ?_
  exact .inl (one _)

end

/-! ## What a source is cut into -/

section
variable {src : List Char} {ts : List Token} {n : Nat}

theorem text_of_lexFrom (h : lexFrom n src = some ts) (hn : src.length ≤ n) : textOf ts = src := by
  induction n generalizing src ts with
  | zero =>
      obtain rfl := List.length_eq_zero_iff.mp (Nat.le_zero.mp hn)
      cases h
      rfl
  | succ n ih =>
      cases src with
      | nil => cases h; rfl
      | cons c cs =>
          obtain ⟨-, h⟩ := Option.ite_none_right_eq_some.mp h
          obtain ⟨us, hus, rfl⟩ := Option.map_eq_some_iff.mp h
          rw [textOf_cons, ih hus (by simp only [List.length_drop, List.length_cons] at *; omega)]
          exact congrArg (c :: ·) (List.take_append_drop _ cs)

/-- The tokens' texts are the source. -/
theorem text_of_lex (h : lex src = some ts) : textOf ts = src :=
  text_of_lexFrom h (Nat.le_refl _)

theorem nonempty_of_lexFrom (h : lexFrom n src = some ts) : ∀ t ∈ ts, t.text ≠ [] := by
  induction n generalizing src ts with
  | zero => cases h; exact fun t ht => absurd ht List.not_mem_nil
  | succ n ih =>
      cases src with
      | nil => cases h; exact fun t ht => absurd ht List.not_mem_nil
      | cons c cs =>
          obtain ⟨-, h⟩ := Option.ite_none_right_eq_some.mp h
          obtain ⟨us, hus, rfl⟩ := Option.map_eq_some_iff.mp h
          intro t ht
          rcases List.mem_cons.mp ht with rfl | ht
          · exact List.cons_ne_nil _ _
          · exact ih hus t ht

theorem nonempty_of_lex (h : lex src = some ts) : ∀ t ∈ ts, t.text ≠ [] := nonempty_of_lexFrom h

theorem Reaches.of_nil {r : List Char} (h : Reaches [] r) : r = [] := by
  induction h with
  | start => rfl
  | next _ ih => cases ih

/-- A later token starts in what the first one leaves. -/
theorem Reaches.of_cons {c : Char} {cs r : List Char} (h : Reaches (c :: cs) r) :
    r = c :: cs ∨ Reaches (cs.drop (scan c cs).2) r := by
  induction h with
  | start => exact .inl rfl
  | next _ ih =>
      rcases ih with he | h
      · cases he
        exact .inr .start
      · exact .inr h.next

theorem Reaches.tail {c : Char} {cs r : List Char} (h : Reaches (cs.drop (scan c cs).2) r) :
    Reaches (c :: cs) r := by
  induction h with
  | start => exact .next .start
  | next _ ih => exact ih.next

theorem lexFrom_isSome_iff (hn : src.length ≤ n) : (lexFrom n src).isSome = true ↔
    ∀ c cs, Reaches src (c :: cs) → (scan c cs).2 ≤ cs.length := by
  induction n generalizing src with
  | zero =>
      obtain rfl := List.length_eq_zero_iff.mp (Nat.le_zero.mp hn)
      exact iff_of_true rfl fun c cs h => by cases h.of_nil
  | succ n ih =>
      cases src with
      | nil => exact iff_of_true rfl fun c cs h => by cases h.of_nil
      | cons c cs =>
          have hlen : (cs.drop (scan c cs).2).length ≤ n := by
            simp only [List.length_drop, List.length_cons] at *
            omega
          by_cases hle : (scan c cs).2 ≤ cs.length
          · have hsome : (lexFrom (n + 1) (c :: cs)).isSome =
                (lexFrom n (cs.drop (scan c cs).2)).isSome := by
              rw [lexFrom, if_pos hle, Option.isSome_map]
            rw [hsome, ih hlen]
            refine ⟨fun h c' cs' hr => ?_, fun h c' cs' hr => h c' cs' hr.tail⟩
            rcases hr.of_cons with he | hr
            · cases he
              exact hle
            · exact h c' cs' hr
          · have hnone : lexFrom (n + 1) (c :: cs) = none := by rw [lexFrom, if_neg hle]
            rw [hnone]
            exact iff_of_false Bool.false_ne_true fun h => hle (h c cs .start)

/-- The lexer ends unless a string's scan steps over the end of the source. -/
theorem lex_isSome_iff : (lex src).isSome = true ↔
    ∀ cs, Reaches src ('"' :: cs) → lexString cs 0 ≤ cs.length := by
  refine (lexFrom_isSome_iff (Nat.le_refl _)).trans ⟨fun h cs hr => ?_, fun h c cs hr => ?_⟩
  · exact h _ _ hr
  · rcases scan_le c cs with hle | ⟨rfl, he⟩
    · exact hle
    · exact he ▸ h cs hr

end

end Rescind.Surface
