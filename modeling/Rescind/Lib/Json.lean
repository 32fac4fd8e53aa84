/-
# `Rescind.Lib.Json` — JSON values, printed and read

A value has its objects as maps, sorted by key.  Printing is the pretty form with
two spaces for each level; reading takes any JSON text, and a later member of an
object for an earlier one of the same key.  How a number with a fraction is
written and read is a parameter.

    what is printed is read back                       (`parse_print`)
    so values are told apart by their text             (`print_inj`)
    a map does not depend on the order of its
      insertions                                       (`kept_eq_of_reordered`)
    a map of strings is read back from one line        (`readMap_print`)
-/
import Mathlib.Algebra.Ring.Int.Defs
import Mathlib.Data.List.TakeWhile
import Rescind.Lib.Assoc
import Rescind.Lib.Literals

namespace Rescind.Lib.Json

/-! ## Values -/

/-- An integer of 64 bits, with a sign or without, or a number with a fraction. -/
inductive Number (F : Type) where
  | integer (n : Int) (fits : -2 ^ 63 ≤ n ∧ n < 2 ^ 64)
  | float (f : F)
  deriving DecidableEq

inductive Value (F : Type) where
  | null
  | bool (b : Bool)
  | number (n : Number F)
  | string (s : String)
  | array (items : List (Value F))
  | object (members : List (String × Value F))

namespace Value

variable {F : Type}

/-- A value is built of its parts. -/
@[elab_as_elim]
theorem parts {P : Value F → Prop} (null : P .null) (bool : ∀ b, P (.bool b))
    (number : ∀ n, P (.number n)) (string : ∀ s, P (.string s))
    (array : ∀ xs, (∀ x ∈ xs, P x) → P (.array xs))
    (object : ∀ ms, (∀ m ∈ ms, P m.2) → P (.object ms)) (v : Value F) : P v := by
  refine @Value.rec F P (fun xs => ∀ x ∈ xs, P x) (fun ms => ∀ m ∈ ms, P m.2) (fun m => P m.2)
    null bool number string array object ?_ ?_ ?_ ?_ ?_ v
  · intro x hx
    cases hx
  · intro x xs hx hxs y hy
    rcases List.mem_cons.mp hy with rfl | hy
    · exact hx
    · exact hxs y hy
  · intro m hm
    cases hm
  · intro m ms hm hms n hn
    rcases List.mem_cons.mp hn with rfl | hn
    · exact hm
    · exact hms n hn
  · intro k v hv
    exact hv

mutual

/-- The keys of every object are in order. -/
def Ordered : Value F → Prop
  | .array xs => OrderedItems xs
  | .object ms => Assoc.Sorted ms ∧ OrderedMembers ms
  | _ => True

def OrderedItems : List (Value F) → Prop
  | [] => True
  | x :: xs => x.Ordered ∧ OrderedItems xs

def OrderedMembers : List (String × Value F) → Prop
  | [] => True
  | (_, v) :: ms => v.Ordered ∧ OrderedMembers ms

end

mutual

/-- There is no number with a fraction. -/
def whole : Value F → Bool
  | .number (.float _) => false
  | .array xs => wholeItems xs
  | .object ms => wholeMembers ms
  | _ => true

def wholeItems : List (Value F) → Bool
  | [] => true
  | x :: xs => x.whole && wholeItems xs

def wholeMembers : List (String × Value F) → Bool
  | [] => true
  | (_, v) :: ms => v.whole && wholeMembers ms

end

end Value

/-- How a number with a fraction is written, and read. -/
structure Floats (F : Type) where
  text : F → List Char
  read : List Char → Option F

variable {F : Type} (fs : Floats F)

/-! ## Printing -/

/-- The characters an escape of one letter stands for. -/
def letters : List (Char × Char) :=
  [('b', '\x08'), ('f', '\x0c'), ('n', '\n'), ('r', '\r'), ('t', '\t')]

def escape (c : Char) : List Char :=
  if c = '"' ∨ c = '\\' then ['\\', c]
  else match letters.find? fun l => l.2 = c with
    | some l => ['\\', l.1]
    | none =>
        if c.toNat < 0x20 then
          ['\\', 'u', '0', '0', Nat.digitChar (c.toNat / 16), Nat.digitChar (c.toNat % 16)]
        else [c]

def printString (s : String) : List Char := '"' :: s.toList.flatMap escape ++ ['"']

def printInteger (n : Int) : List Char :=
  if n < 0 then '-' :: Nat.toDigits 10 n.natAbs else Nat.toDigits 10 n.natAbs

/-- A new line, so many levels in. -/
def indent (depth : Nat) : List Char := '\n' :: List.replicate (2 * depth) ' '

mutual

/-- A value, so many levels in. -/
def printAt (depth : Nat) : Value F → List Char
  | .null => ['n', 'u', 'l', 'l']
  | .bool true => ['t', 'r', 'u', 'e']
  | .bool false => ['f', 'a', 'l', 's', 'e']
  | .number (.integer n _) => printInteger n
  | .number (.float f) => fs.text f
  | .string s => printString s
  | .array [] => ['[', ']']
  | .array (x :: xs) =>
      '[' :: (indent (depth + 1) ++ (printAt (depth + 1) x ++ printItems depth xs))
  | .object [] => ['\x7b', '\x7d']
  | .object ((k, v) :: ms) =>
      '\x7b' :: (indent (depth + 1) ++ (printString k ++ ':' :: ' ' ::
        (printAt (depth + 1) v ++ printMembers depth ms)))

/-- The items after the first, and the end. -/
def printItems (depth : Nat) : List (Value F) → List Char
  | [] => indent depth ++ [']']
  | x :: xs => ',' :: (indent (depth + 1) ++ (printAt (depth + 1) x ++ printItems depth xs))

def printMembers (depth : Nat) : List (String × Value F) → List Char
  | [] => indent depth ++ ['\x7d']
  | (k, v) :: ms =>
      ',' :: (indent (depth + 1) ++ (printString k ++ ':' :: ' ' ::
        (printAt (depth + 1) v ++ printMembers depth ms)))

end

def print (v : Value F) : List Char := printAt fs 0 v

/-! ## Reading -/

def blank (c : Char) : Bool := c = ' ' || c = '\t' || c = '\n' || c = '\r'

def skip (s : List Char) : List Char := s.dropWhile blank

/-- The value of four hexadecimal digits. -/
def hex4 (a b c d : Char) : Option Nat := do
  let a ← digitIn 16 a
  let b ← digitIn 16 b
  let c ← digitIn 16 c
  let d ← digitIn 16 d
  pure (4096 * a + 256 * b + 16 * c + d)

/-- The character of an escape of one letter. -/
def letterOf (c : Char) : Option Char :=
  if c = '"' ∨ c = '\\' ∨ c = '/' then some c
  else (letters.find? fun l => l.1 = c).map Prod.snd

/-- A string after its opening quote, and what follows its closing one. -/
def readString : List Char → Option (List Char × List Char)
  | [] => none
  | '"' :: r => some ([], r)
  | '\\' :: 'u' :: a :: b :: c :: d :: r =>
      match hex4 a b c d with
      | none => none
      | some n =>
          if 0xd800 ≤ n ∧ n < 0xdc00 then
            match r with
            | '\\' :: 'u' :: a' :: b' :: c' :: d' :: r' =>
                match hex4 a' b' c' d' with
                | none => none
                | some m =>
                    if 0xdc00 ≤ m ∧ m < 0xe000 then
                      (readString r').map fun p =>
                        (Char.ofNat (0x10000 + 0x400 * (n - 0xd800) + (m - 0xdc00)) :: p.1, p.2)
                    else none
            | _ => none
          else if 0xdc00 ≤ n ∧ n < 0xe000 then none
          else (readString r).map fun p => (Char.ofNat n :: p.1, p.2)
  | '\\' :: e :: r =>
      match letterOf e with
      | none => none
      | some c => (readString r).map fun p => (c :: p.1, p.2)
  | c :: r => if c.toNat < 0x20 ∨ c = '\\' then none
      else (readString r).map fun p => (c :: p.1, p.2)

def digits (s : List Char) : List Char := s.takeWhile Char.isDigit

def afterDigits (s : List Char) : List Char := s.dropWhile Char.isDigit

/-- The fraction of a number, if it has one, and what follows. -/
def readFraction : List Char → Option (List Char × List Char)
  | '.' :: r => if (digits r).isEmpty then none else some ('.' :: digits r, afterDigits r)
  | r => some ([], r)

def readSign : List Char → List Char × List Char
  | '+' :: r => (['+'], r)
  | '-' :: r => (['-'], r)
  | r => ([], r)

/-- Its exponent. -/
def readExponent : List Char → Option (List Char × List Char)
  | [] => some ([], [])
  | c :: r =>
      if c = 'e' ∨ c = 'E' then
        let s := readSign r
        if (digits s.2).isEmpty then none
        else some (c :: (s.1 ++ digits s.2), afterDigits s.2)
      else some ([], c :: r)

/-- The number of a text in its parts: an integer that fits, but for a negative
nought, is one. -/
def numberOf (negative : Bool) (ds tail : List Char) : Option (Number F) :=
  let n := Nat.ofDigitChars 10 ds 0
  let m : Int := if negative then -n else n
  if h : tail = [] ∧ (negative = true → n ≠ 0) ∧ -2 ^ 63 ≤ m ∧ m < 2 ^ 64 then
    some (.integer m h.2.2)
  else (fs.read ((if negative then ['-'] else []) ++ ds ++ tail)).map .float

/-- Digits, with no nought before others. -/
def readDigits (negative : Bool) (s : List Char) : Option (Number F × List Char) :=
  if (digits s).isEmpty || ((digits s).head? = some '0' && 1 < (digits s).length) then none
  else do
    let frac ← readFraction (afterDigits s)
    let exp ← readExponent frac.2
    let n ← numberOf fs negative (digits s) (frac.1 ++ exp.1)
    pure (n, exp.2)

def readNumber : List Char → Option (Number F × List Char)
  | '-' :: r => readDigits fs true r
  | r => readDigits fs false r

/-- One of the three words. -/
def readWord (s : List Char) : Option (Value F × List Char) :=
  match Text.dropPrefix ['n', 'u', 'l', 'l'] s with
  | some r => some (.null, r)
  | none =>
      match Text.dropPrefix ['t', 'r', 'u', 'e'] s with
      | some r => some (.bool true, r)
      | none => (Text.dropPrefix ['f', 'a', 'l', 's', 'e'] s).map fun r => (.bool false, r)

/-- What a map keeps of members put into it one after the other. -/
def build (ms : List (String × Value F)) : Assoc String (Value F) :=
  ms.foldl (fun m p => m.insert p.1 p.2) []

mutual

/-- A value and what follows it, with arrays and objects so many levels deep and
no deeper. -/
def readAt : Nat → Nat → List Char → Option (Value F × List Char)
  | 0, _, _ => none
  | fuel + 1, room, s =>
      match skip s with
      | [] => none
      | c :: r =>
          if c = '"' then (readString r).map fun p => (.string (String.ofList p.1), p.2)
          else if c = '[' then
            if room = 0 then none
            else match skip r with
              | ']' :: r' => some (.array [], r')
              | r' => (readItems fuel (room - 1) r').map fun p => (.array p.1, p.2)
          else if c = '\x7b' then
            if room = 0 then none
            else match skip r with
              | '\x7d' :: r' => some (.object [], r')
              | r' => (readMembers fuel (room - 1) r').map fun p => (.object (build p.1), p.2)
          else if c = '-' ∨ c.isDigit then (readNumber fs (c :: r)).map fun p => (.number p.1, p.2)
          else readWord (c :: r)

/-- Items up to the end of their array. -/
def readItems : Nat → Nat → List Char → Option (List (Value F) × List Char)
  | 0, _, _ => none
  | fuel + 1, room, s =>
      match readAt fuel room s with
      | none => none
      | some (x, r) =>
          match skip r with
          | ',' :: r' => (readItems fuel room r').map fun p => (x :: p.1, p.2)
          | ']' :: r' => some ([x], r')
          | _ => none

def readMembers : Nat → Nat → List Char → Option (List (String × Value F) × List Char)
  | 0, _, _ => none
  | fuel + 1, room, s =>
      match skip s with
      | '"' :: r =>
          match readString r with
          | none => none
          | some (k, r) =>
              match skip r with
              | ':' :: r =>
                  match readAt fuel room r with
                  | none => none
                  | some (v, r) =>
                      match skip r with
                      | ',' :: r' => (readMembers fuel room r').map fun p =>
                          ((String.ofList k, v) :: p.1, p.2)
                      | '\x7d' :: r' => some ([(String.ofList k, v)], r')
                      | _ => none
              | _ => none
      | _ => none

end

/-- A text that is one value and nothing more, its arrays and objects no more than
so many levels deep.  Every character opens at most one value and one item. -/
def parse (room : Nat) (s : List Char) : Option (Value F) :=
  match readAt fs (2 * s.length + 2) room s with
  | some (v, r) => if (skip r).isEmpty then some v else none
  | none => none

/-! ## Strings read back -/

theorem readString_plain {c : Char} (hq : c ≠ '"') (hb : c ≠ '\\') (hc : ¬c.toNat < 0x20)
    (r : List Char) : readString (c :: r) = (readString r).map fun p => (c :: p.1, p.2) := by
  rw [readString]
  · rw [if_neg (not_or.mpr ⟨hc, hb⟩)]
  · exact hq
  · intro a b c' d r' h
    exact absurd h hb
  · intro e r h
    exact absurd h hb

theorem readString_letter {e c : Char} (he : e ≠ 'u') (h : letterOf e = some c) (r : List Char) :
    readString ('\\' :: e :: r) = (readString r).map fun p => (c :: p.1, p.2) := by
  rw [readString]
  · rw [h]
  · intro a b c' d r' h
    exact absurd h he

/-- A code below the surrogates is a character. -/
theorem readString_code {a b c d : Char} {n : Nat} (h : hex4 a b c d = some n) (hn : n < 0xd800)
    (r : List Char) :
    readString ('\\' :: 'u' :: a :: b :: c :: d :: r) =
      (readString r).map fun p => (Char.ofNat n :: p.1, p.2) := by
  rw [readString, h]
  dsimp only
  rw [if_neg (by omega), if_neg (by omega)]

theorem letterOf_letters {l : Char × Char} (h : l ∈ letters) : l.1 ≠ 'u' ∧ letterOf l.1 = some l.2 := by
  simp only [letters, List.mem_cons, List.not_mem_nil, or_false] at h
  rcases h with rfl | rfl | rfl | rfl | rfl <;> decide

theorem hex4_control {n : Nat} (h : n < 0x20) :
    hex4 '0' '0' (Nat.digitChar (n / 16)) (Nat.digitChar (n % 16)) = some n := by
  have h0 : digitIn 16 '0' = some 0 := by decide
  simp only [hex4, h0, digitIn_digitChar (by decide : 16 ≤ 16) (by omega : n / 16 < 16),
    digitIn_digitChar (by decide : 16 ≤ 16) (by omega : n % 16 < 16)]
  show some (4096 * 0 + 256 * 0 + 16 * (n / 16) + n % 16) = some n
  congr 1
  omega

/-- A character comes back from its escape, whatever follows. -/
theorem readString_escape (c : Char) (r : List Char) :
    readString (escape c ++ r) = (readString r).map fun p => (c :: p.1, p.2) := by
  by_cases hs : c = '"' ∨ c = '\\'
  · rw [escape, if_pos hs]
    have hu : c ≠ 'u' := by rcases hs with rfl | rfl <;> decide
    exact readString_letter hu (if_pos (hs.imp_right .inl)) r
  · rw [escape, if_neg hs]
    cases hl : letters.find? fun l => l.2 = c with
    | some l =>
        obtain ⟨hu, hc⟩ := letterOf_letters (List.mem_of_find?_eq_some hl)
        have hlc : l.2 = c := by simpa using List.find?_some hl
        rw [hlc] at hc
        exact readString_letter hu hc r
    | none =>
        by_cases hc : c.toNat < 0x20
        · simp only [if_pos hc]
          have hread := readString_code (hex4_control hc) (by omega) r
          rwa [Char.ofNat_toNat] at hread
        · simp only [if_neg hc]
          obtain ⟨hq, hb⟩ := not_or.mp hs
          exact readString_plain hq hb hc r

theorem readString_print (s r : List Char) :
    readString (s.flatMap escape ++ '"' :: r) = some (s, r) := by
  induction s with
  | nil => rfl
  | cons c s ih => rw [List.flatMap_cons, List.append_assoc, readString_escape, ih, Option.map_some]

/-! ## Numbers read back -/

/-- What follows a number: no digit, fraction or exponent. -/
def Stops : List Char → Prop
  | [] => True
  | c :: _ => c.isDigit = false ∧ c ≠ '.' ∧ c ≠ 'e' ∧ c ≠ 'E'

theorem digits_toDigits (n : Nat) {r : List Char} (h : Stops r) :
    digits (Nat.toDigits 10 n ++ r) = Nat.toDigits 10 n ∧ afterDigits (Nat.toDigits 10 n ++ r) = r := by
  have hd : ∀ c ∈ Nat.toDigits 10 n, c.isDigit = true := fun c hc =>
    Nat.isDigit_of_mem_toDigits (by decide) (by decide) hc
  have hr : r.takeWhile Char.isDigit = [] ∧ r.dropWhile Char.isDigit = r := by
    cases r with
    | nil => exact ⟨rfl, rfl⟩
    | cons c r => simp [h.1]
  rw [digits, afterDigits, List.takeWhile_append_of_pos hd, List.dropWhile_append_of_pos hd, hr.1, hr.2,
    List.append_nil]
  exact ⟨rfl, rfl⟩

/-- No nought stands before other digits. -/
theorem toDigits_head (n : Nat) :
    (Nat.toDigits 10 n).head? = some '0' → (Nat.toDigits 10 n).length = 1 := by
  induction n using Nat.strongRecOn with
  | ind n ih =>
      by_cases hn : n < 10
      · intro _
        rw [Nat.toDigits_of_lt_base hn]
        rfl
      · have hsplit := Nat.toDigits_of_base_le (by decide : 1 < 10) (Nat.not_lt.mp hn)
        rw [hsplit]
        intro h
        have hq : (Nat.toDigits 10 (n / 10)).head? = some '0' := by
          rwa [List.head?_append_of_ne_nil _ Nat.toDigits_ne_nil] at h
        have hlen := ih (n / 10) (by omega) hq
        -- a single nought is the quotient nought
        obtain ⟨d, hd⟩ := List.length_eq_one_iff.mp hlen
        rw [hd] at hq
        obtain rfl : d = '0' := Option.some.inj hq
        have hz : n / 10 = 0 := by
          have hof := Nat.ofDigitChars_ten_toDigits (n := n / 10)
          rw [hd] at hof
          exact hof.symm
        omega

theorem readDigits_toDigits {negative : Bool} {n : Nat} {r : List Char} (hr : Stops r) :
    readDigits fs negative (Nat.toDigits 10 n ++ r) =
      (numberOf fs negative (Nat.toDigits 10 n) []).map fun m => (m, r) := by
  obtain ⟨hd, ha⟩ := digits_toDigits n hr
  have hfrac : readFraction r = some ([], r) := by
    cases r with
    | nil => rfl
    | cons c r =>
        rw [readFraction]
        intro r' h
        exact absurd (List.head_eq_of_cons_eq h) hr.2.1
  have hexp : readExponent r = some ([], r) := by
    cases r with
    | nil => rfl
    | cons c r => rw [readExponent, if_neg (not_or.mpr hr.2.2)]
  have hne : ¬((Nat.toDigits 10 n).isEmpty ||
      ((Nat.toDigits 10 n).head? = some '0' && 1 < (Nat.toDigits 10 n).length)) = true := by
    simp only [Bool.or_eq_true, List.isEmpty_iff, Bool.and_eq_true, decide_eq_true_eq, not_or]
    refine ⟨Nat.toDigits_ne_nil, fun h => ?_⟩
    have hlen := toDigits_head n h.1
    omega
  rw [readDigits, hd, if_neg hne, ha, hfrac]
  simp only [Option.bind_eq_bind, Option.bind_some, hexp, List.append_nil]
  cases numberOf fs negative (Nat.toDigits 10 n) [] <;> rfl

theorem numberOf_integer {negative : Bool} {k : Nat} {n : Int} (h : -2 ^ 63 ≤ n ∧ n < 2 ^ 64)
    (hn : (if negative then -(k : Int) else k) = n) (hz : negative = true → k ≠ 0) :
    numberOf fs negative (Nat.toDigits 10 k) [] = some (.integer n h) := by
  subst hn
  unfold numberOf
  simp only [Nat.ofDigitChars_ten_toDigits]
  exact dif_pos ⟨trivial, hz, h⟩

/-- An integer is read back before what is no part of a number. -/
theorem readNumber_print {n : Int} (h : -2 ^ 63 ≤ n ∧ n < 2 ^ 64) {r : List Char} (hr : Stops r) :
    readNumber fs (printInteger n ++ r) = some (.integer n h, r) := by
  by_cases hn : n < 0
  · rw [printInteger, if_pos hn, List.cons_append, readNumber, readDigits_toDigits fs hr,
      numberOf_integer fs h]
    · rfl
    · rw [if_pos rfl]
      omega
    · intro _
      omega
  · have hread : readNumber fs (Nat.toDigits 10 n.natAbs ++ r) =
        readDigits fs false (Nat.toDigits 10 n.natAbs ++ r) := by
      obtain ⟨d, ds, hd⟩ := List.exists_cons_of_ne_nil (Nat.toDigits_ne_nil (n := n.natAbs) (b := 10))
      have hm : d ∈ Nat.toDigits 10 n.natAbs := by
        rw [hd]
        exact List.mem_cons_self
      have hdigit : d.isDigit = true := Nat.isDigit_of_mem_toDigits (by decide) (by decide) hm
      rw [hd, List.cons_append, readNumber]
      intro r' h'
      rw [List.head_eq_of_cons_eq h'] at hdigit
      exact absurd hdigit (by decide)
    rw [printInteger, if_neg hn, hread, readDigits_toDigits fs hr, numberOf_integer fs h]
    · rfl
    · rw [if_neg Bool.false_ne_true]
      omega
    · intro h
      cases h

/-! ## Values read back -/

mutual

/-- The fuel a value is read with. -/
def weight : Value F → Nat
  | .array xs => weightItems xs + 1
  | .object ms => weightMembers ms + 1
  | _ => 1

def weightItems : List (Value F) → Nat
  | [] => 0
  | x :: xs => weight x + weightItems xs + 1

def weightMembers : List (String × Value F) → Nat
  | [] => 0
  | (_, v) :: ms => weight v + weightMembers ms + 1

end

mutual

/-- How many levels of arrays and objects a value has. -/
def nesting : Value F → Nat
  | .array xs => nestingItems xs + 1
  | .object ms => nestingMembers ms + 1
  | _ => 0

def nestingItems : List (Value F) → Nat
  | [] => 0
  | x :: xs => max (nesting x) (nestingItems xs)

def nestingMembers : List (String × Value F) → Nat
  | [] => 0
  | (_, v) :: ms => max (nesting v) (nestingMembers ms)

end

theorem skip_indent (depth : Nat) (s : List Char) : skip (indent depth ++ s) = skip s := by
  have hrep : ∀ n, (List.replicate n ' ' ++ s).dropWhile blank = s.dropWhile blank := by
    intro n
    induction n with
    | zero => rfl
    | succ n ih => rw [List.replicate_succ, List.cons_append, List.dropWhile_cons_of_pos rfl, ih]
  rw [indent, skip, List.cons_append, List.dropWhile_cons_of_pos rfl, hrep, skip]

theorem skip_cons {c : Char} (h : blank c = false) (s : List Char) : skip (c :: s) = c :: s := by
  rw [skip, List.dropWhile_cons_of_neg (by rw [h]; exact Bool.false_ne_true)]

/-- A value does not depend on the blanks before it. -/
theorem readAt_skip {s s' : List Char} (h : skip s = skip s') (fuel room : Nat) :
    readAt fs fuel room s = readAt fs fuel room s' := by
  cases fuel with
  | zero => rw [readAt, readAt]
  | succ fuel => rw [readAt, readAt, h]

/-- With the fuel it needs and before what is no part of a number, a value is read
back if it has the room. -/
def ReadsBack (v : Value F) : Prop :=
  ∀ fuel room depth r, weight v ≤ fuel → Stops r →
    readAt fs fuel room (printAt fs depth v ++ r) = if nesting v ≤ room then some (v, r) else none

/-- The end of an array, or the comma before its next item. -/
theorem stops_items (depth : Nat) (xs : List (Value F)) (r : List Char) :
    Stops (printItems fs depth xs ++ r) := by
  cases xs with
  | nil => exact ⟨rfl, by decide, by decide, by decide⟩
  | cons x xs => exact ⟨rfl, by decide, by decide, by decide⟩

theorem stops_members (depth : Nat) (ms : List (String × Value F)) (r : List Char) :
    Stops (printMembers fs depth ms ++ r) := by
  cases ms with
  | nil => exact ⟨rfl, by decide, by decide, by decide⟩
  | cons m ms => exact ⟨rfl, by decide, by decide, by decide⟩

/-- Items that are read back one by one are read back up to the end. -/
theorem readItems_print {x : Value F} {xs : List (Value F)} (h : ∀ y ∈ x :: xs, ReadsBack fs y)
    (fuel room depth : Nat) (r : List Char) (hf : weightItems (x :: xs) ≤ fuel) :
    readItems fs fuel room (indent (depth + 1) ++ (printAt fs (depth + 1) x ++
      (printItems fs depth xs ++ r))) =
      if nestingItems (x :: xs) ≤ room then some (x :: xs, r) else none := by
  induction xs generalizing x fuel with
  | nil =>
      cases fuel with
      | zero => cases hf
      | succ fuel =>
          have hx := h x List.mem_cons_self fuel room (depth + 1) (printItems fs depth [] ++ r)
            (by simp only [weightItems] at hf; omega) (stops_items fs depth [] r)
          have hn : nestingItems [x] = nesting x := Nat.max_zero _
          rw [readItems, readAt_skip fs (skip_indent _ _), hx, hn]
          by_cases hr : nesting x ≤ room
          · rw [if_pos hr, if_pos hr]
            dsimp only
            rw [printItems, List.append_assoc, skip_indent, List.singleton_append, skip_cons rfl]
            rfl
          · rw [if_neg hr, if_neg hr]
  | cons y ys ih =>
      cases fuel with
      | zero => cases hf
      | succ fuel =>
          have hx := h x List.mem_cons_self fuel room (depth + 1)
            (printItems fs depth (y :: ys) ++ r)
            (by simp only [weightItems] at hf; omega) (stops_items fs depth (y :: ys) r)
          have hys := ih (fun z hz => h z (List.mem_cons_of_mem _ hz)) fuel
            (by simp only [weightItems] at hf ⊢; omega)
          have hn : nestingItems (x :: y :: ys) ≤ room ↔
              nesting x ≤ room ∧ nestingItems (y :: ys) ≤ room := Nat.max_le
          rw [readItems, readAt_skip fs (skip_indent _ _), hx]
          by_cases hr : nesting x ≤ room
          · rw [if_pos hr]
            dsimp only
            rw [printItems, List.cons_append, skip_cons rfl, List.append_assoc, List.append_assoc]
            show (readItems fs fuel room _).map _ = _
            rw [hys]
            by_cases hrs : nestingItems (y :: ys) ≤ room
            · rw [if_pos hrs, if_pos (hn.mpr ⟨hr, hrs⟩)]
              rfl
            · rw [if_neg hrs, if_neg fun h => hrs (hn.mp h).2]
              rfl
          · rw [if_neg hr, if_neg fun h => hr (hn.mp h).1]

/-- A member up to its value. -/
theorem readMembers_key (fuel room depth : Nat) (k : String) (s : List Char) :
    readMembers fs (fuel + 1) room (indent depth ++ (printString k ++ ':' :: ' ' :: s)) =
      match readAt fs fuel room s with
      | none => none
      | some (v, r) =>
          match skip r with
          | ',' :: r' => (readMembers fs fuel room r').map fun p => ((k, v) :: p.1, p.2)
          | '\x7d' :: r' => some ([(k, v)], r')
          | _ => none := by
  have hs : skip (' ' :: s) = skip s := List.dropWhile_cons_of_pos rfl
  have hk := readString_print k.toList (':' :: ' ' :: s)
  rw [readMembers, skip_indent, printString, List.cons_append, List.cons_append, skip_cons rfl]
  simp only [List.append_assoc, List.singleton_append, hk, skip_cons (rfl : blank ':' = false),
    String.ofList_toList, readAt_skip fs hs]

theorem readMembers_print {k : String} {v : Value F} {ms : List (String × Value F)}
    (h : ∀ m ∈ (k, v) :: ms, ReadsBack fs m.2) (fuel room depth : Nat) (r : List Char)
    (hf : weightMembers ((k, v) :: ms) ≤ fuel) :
    readMembers fs fuel room (indent (depth + 1) ++ (printString k ++ ':' :: ' ' ::
      (printAt fs (depth + 1) v ++ (printMembers fs depth ms ++ r)))) =
      if nestingMembers ((k, v) :: ms) ≤ room then some ((k, v) :: ms, r) else none := by
  induction ms generalizing k v fuel with
  | nil =>
      cases fuel with
      | zero => cases hf
      | succ fuel =>
          have hv : readAt fs fuel room (printAt fs (depth + 1) v ++ _) = _ :=
            h (k, v) List.mem_cons_self fuel room (depth + 1) (printMembers fs depth [] ++ r)
              (by simp only [weightMembers] at hf; show weight v ≤ fuel; omega)
              (stops_members fs depth [] r)
          have hn : nestingMembers [(k, v)] = nesting v := Nat.max_zero _
          rw [readMembers_key, hv, hn]
          by_cases hr : nesting v ≤ room
          · rw [if_pos hr, if_pos hr]
            dsimp only
            rw [printMembers, List.append_assoc, skip_indent, List.singleton_append, skip_cons rfl]
            rfl
          · rw [if_neg hr, if_neg hr]
  | cons m ms ih =>
      obtain ⟨k', v'⟩ := m
      cases fuel with
      | zero => cases hf
      | succ fuel =>
          have hv : readAt fs fuel room (printAt fs (depth + 1) v ++ _) = _ :=
            h (k, v) List.mem_cons_self fuel room (depth + 1)
              (printMembers fs depth ((k', v') :: ms) ++ r)
              (by simp only [weightMembers] at hf; show weight v ≤ fuel; omega)
              (stops_members fs depth _ r)
          have hms := ih (fun z hz => h z (List.mem_cons_of_mem _ hz)) fuel
            (by simp only [weightMembers] at hf ⊢; omega)
          have hn : nestingMembers ((k, v) :: (k', v') :: ms) ≤ room ↔
              nesting v ≤ room ∧ nestingMembers ((k', v') :: ms) ≤ room := Nat.max_le
          rw [readMembers_key, hv]
          by_cases hr : nesting v ≤ room
          · rw [if_pos hr]
            dsimp only
            rw [printMembers, List.cons_append, skip_cons rfl]
            simp only [List.append_assoc, List.cons_append]
            show (readMembers fs fuel room _).map _ = _
            rw [hms]
            by_cases hrs : nestingMembers ((k', v') :: ms) ≤ room
            · rw [if_pos hrs, if_pos (hn.mpr ⟨hr, hrs⟩)]
              rfl
            · rw [if_neg hrs, if_neg fun h => hrs (hn.mp h).2]
              rfl
          · rw [if_neg hr, if_neg fun h => hr (hn.mp h).1]

/-- Members in key order are kept as they come. -/
theorem build_eq_self {ms : List (String × Value F)} (h : Assoc.Sorted ms) : build ms = ms :=
  h.foldl_insert

theorem orderedItems_iff {xs : List (Value F)} : Value.OrderedItems xs ↔ ∀ x ∈ xs, x.Ordered := by
  induction xs with
  | nil => exact iff_of_true trivial fun _ h => by cases h
  | cons x xs ih => rw [Value.OrderedItems, ih, List.forall_mem_cons]

theorem orderedMembers_iff {ms : List (String × Value F)} :
    Value.OrderedMembers ms ↔ ∀ m ∈ ms, m.2.Ordered := by
  induction ms with
  | nil => exact iff_of_true trivial fun _ h => by cases h
  | cons m ms ih => rw [Value.OrderedMembers, ih, List.forall_mem_cons]

theorem wholeItems_iff {xs : List (Value F)} :
    Value.wholeItems xs = true ↔ ∀ x ∈ xs, x.whole = true := by
  induction xs with
  | nil => exact iff_of_true rfl fun _ h => by cases h
  | cons x xs ih => rw [Value.wholeItems, Bool.and_eq_true, ih, List.forall_mem_cons]

theorem wholeMembers_iff {ms : List (String × Value F)} :
    Value.wholeMembers ms = true ↔ ∀ m ∈ ms, m.2.whole = true := by
  induction ms with
  | nil => exact iff_of_true rfl fun _ h => by cases h
  | cons m ms ih => rw [Value.wholeMembers, Bool.and_eq_true, ih, List.forall_mem_cons]

theorem printInteger_cons (n : Int) :
    ∃ c r, printInteger n = c :: r ∧ (c = '-' ∨ c.isDigit = true) := by
  by_cases hn : n < 0
  · exact ⟨_, _, if_pos hn, .inl rfl⟩
  · obtain ⟨d, ds, hd⟩ := List.exists_cons_of_ne_nil (Nat.toDigits_ne_nil (n := n.natAbs) (b := 10))
    have hm : d ∈ Nat.toDigits 10 n.natAbs := by
      rw [hd]
      exact List.mem_cons_self
    exact ⟨d, ds, (if_neg hn).trans hd, .inr (Nat.isDigit_of_mem_toDigits (by decide) (by decide) hm)⟩

/-- A value begins with neither a blank nor the end of an array. -/
def Begins (s : List Char) : Prop := ∃ c r, s = c :: r ∧ blank c = false ∧ c ≠ ']'

theorem Begins.append {s : List Char} (h : Begins s) (r : List Char) : Begins (s ++ r) := by
  obtain ⟨c, t, rfl, hc⟩ := h
  exact ⟨c, t ++ r, rfl, hc⟩

theorem numeral_marks {c : Char} (h : c = '-' ∨ c.isDigit = true) :
    blank c = false ∧ c ≠ ']' ∧ c ≠ '"' ∧ c ≠ '[' ∧ c ≠ '\x7b' := by
  rcases h with rfl | h
  · decide
  · refine ⟨?_, ?_, ?_, ?_, ?_⟩
    · rw [Bool.eq_false_iff]
      intro hb
      simp only [blank, Bool.or_eq_true, decide_eq_true_eq] at hb
      rcases hb with ((rfl | rfl) | rfl) | rfl <;> exact absurd h (by decide)
    all_goals
      rintro rfl
      exact absurd h (by decide)

theorem begins_printAt {v : Value F} (hw : v.whole = true) (depth : Nat) :
    Begins (printAt fs depth v) := by
  cases v with
  | null => exact ⟨_, _, rfl, by decide⟩
  | bool b => cases b <;> exact ⟨_, _, rfl, by decide⟩
  | number n =>
      cases n with
      | integer n h =>
          obtain ⟨c, r, hc, hd⟩ := printInteger_cons n
          exact ⟨c, r, hc, (numeral_marks hd).1, (numeral_marks hd).2.1⟩
      | float f => cases hw
  | string s => exact ⟨_, _, rfl, by decide⟩
  | array xs => cases xs <;> exact ⟨_, _, rfl, by decide⟩
  | object ms => cases ms <;> exact ⟨_, _, rfl, by decide⟩

theorem skip_begins {s : List Char} (h : Begins s) : skip s = s := by
  obtain ⟨c, r, rfl, hc, _⟩ := h
  exact skip_cons hc r

/-- What has no parts needs the fuel of one value and no room. -/
theorem readsBack_leaf {v : Value F} (hn : nesting v = 0) (hw : 1 ≤ weight v)
    (h : ∀ fuel room depth r, Stops r →
      readAt fs (fuel + 1) room (printAt fs depth v ++ r) = some (v, r)) : ReadsBack fs v := by
  intro fuel room depth r hf hr
  obtain ⟨fuel, rfl⟩ := Nat.exists_eq_add_of_le' (Nat.le_trans hw hf)
  rw [h fuel room depth r hr, if_pos (hn ▸ Nat.zero_le room)]

theorem readsBack_integer {n : Int} (h : -2 ^ 63 ≤ n ∧ n < 2 ^ 64) :
    ReadsBack fs (.number (.integer n h)) := by
  refine readsBack_leaf fs rfl (Nat.le_refl 1) fun fuel room depth r hr => ?_
  obtain ⟨c, t, hc, hd⟩ := printInteger_cons n
  obtain ⟨hb, _, hq, ha, ho⟩ := numeral_marks hd
  have hp : printAt fs depth (.number (.integer n h)) = c :: t := hc
  have hread := readNumber_print fs h hr
  rw [hc, List.cons_append] at hread
  rw [hp, List.cons_append, readAt, skip_cons hb]
  dsimp only
  rw [if_neg hq, if_neg ha, if_neg ho, if_pos hd, hread]
  rfl

theorem readsBack_string (s : String) : ReadsBack fs (.string s) := by
  refine readsBack_leaf fs rfl (Nat.le_refl 1) fun fuel room depth r _ => ?_
  have hread := readString_print s.toList r
  rw [printAt, printString, List.cons_append, List.cons_append, readAt, skip_cons rfl]
  dsimp only
  rw [if_pos rfl, List.append_assoc, List.singleton_append, hread, Option.map_some,
    String.ofList_toList]

theorem readItems_skip {s s' : List Char} (h : skip s = skip s') (fuel room : Nat) :
    readItems fs fuel room s = readItems fs fuel room s' := by
  cases fuel with
  | zero => rw [readItems, readItems]
  | succ fuel => rw [readItems, readItems, readAt_skip fs h]

theorem readMembers_skip {s s' : List Char} (h : skip s = skip s') (fuel room : Nat) :
    readMembers fs fuel room s = readMembers fs fuel room s' := by
  cases fuel with
  | zero => rw [readMembers, readMembers]
  | succ fuel => rw [readMembers, readMembers, h]

/-- No array or object without room for it. -/
theorem readAt_full (fuel : Nat) {c : Char} (hc : c = '[' ∨ c = '\x7b') (s : List Char) :
    readAt fs fuel 0 (c :: s) = none := by
  cases fuel with
  | zero => rw [readAt]
  | succ fuel =>
      rcases hc with rfl | rfl
      all_goals
        rw [readAt, skip_cons rfl]
        rfl

theorem readAt_array (fuel room depth : Nat) {s : List Char} (h : Begins s) :
    readAt fs (fuel + 1) (room + 1) ('[' :: (indent depth ++ s)) =
      (readItems fs fuel room (indent depth ++ s)).map fun p => (.array p.1, p.2) := by
  have hskip : skip (indent depth ++ s) = s := (skip_indent depth s).trans (skip_begins h)
  have hsame : skip s = skip (indent depth ++ s) := (skip_indent depth s).symm
  rw [← readItems_skip fs hsame fuel room]
  obtain ⟨c, t, rfl, hb, hc⟩ := h
  rw [readAt, skip_cons rfl]
  dsimp only
  rw [if_neg (by decide), if_pos rfl, if_neg (Nat.succ_ne_zero room), hskip]
  split
  · next heq => exact absurd (List.head_eq_of_cons_eq heq) hc
  · rfl

theorem readAt_object (fuel room depth : Nat) (s : List Char) :
    readAt fs (fuel + 1) (room + 1) ('\x7b' :: (indent depth ++ '"' :: s)) =
      (readMembers fs fuel room (indent depth ++ '"' :: s)).map fun p =>
        (.object (build p.1), p.2) := by
  have hskip : skip (indent depth ++ '"' :: s) = '"' :: s := (skip_indent depth _).trans (skip_cons rfl s)
  have hsame : skip ('"' :: s) = skip (indent depth ++ '"' :: s) := (skip_indent depth _).symm
  rw [← readMembers_skip fs hsame fuel room, readAt, skip_cons rfl]
  dsimp only
  rw [if_neg (by decide), if_neg (by decide), if_pos rfl, if_neg (Nat.succ_ne_zero room), hskip]
  rfl

/-- A value is read back if its numbers have no fractions and its keys are in
order. -/
theorem readsBack {v : Value F} (ho : v.Ordered) (hw : v.whole = true) : ReadsBack fs v := by
  induction v using Value.parts with
  | null =>
      refine readsBack_leaf fs rfl (Nat.le_refl 1) fun fuel room depth r _ => ?_
      rw [readAt]
      rfl
  | bool b =>
      refine readsBack_leaf fs rfl (Nat.le_refl 1) fun fuel room depth r _ => ?_
      rw [readAt]
      cases b <;> rfl
  | number n =>
      cases n with
      | integer n h => exact readsBack_integer fs h
      | float f => cases hw
  | string s => exact readsBack_string fs s
  | array xs ih =>
      intro fuel room depth r hf hr
      have hxs : ∀ x ∈ xs, ReadsBack fs x := fun x hx =>
        ih x hx (orderedItems_iff.mp ho x hx) (wholeItems_iff.mp hw x hx)
      obtain ⟨fuel, rfl⟩ := Nat.exists_eq_add_of_le' (Nat.le_trans (Nat.le_add_left 1 _) hf)
      rw [nesting]
      cases room with
      | zero =>
          rw [if_neg (Nat.not_succ_le_zero _)]
          cases xs <;> exact readAt_full fs _ (.inl rfl) _
      | succ room =>
          cases xs with
          | nil =>
              rw [nestingItems, if_pos (Nat.succ_le_succ (Nat.zero_le room)), readAt]
              rfl
          | cons x xs =>
              have hx := begins_printAt fs (wholeItems_iff.mp hw x List.mem_cons_self) (depth + 1)
              have hread := readItems_print fs hxs fuel room depth r (Nat.le_of_succ_le_succ hf)
              rw [printAt, List.cons_append, List.append_assoc, List.append_assoc,
                readAt_array fs fuel room (depth + 1) (hx.append _), hread]
              by_cases hn : nestingItems (x :: xs) ≤ room
              · rw [if_pos hn, if_pos (Nat.succ_le_succ hn)]
                rfl
              · rw [if_neg hn, if_neg fun h => hn (Nat.le_of_succ_le_succ h)]
                rfl
  | object ms ih =>
      intro fuel room depth r hf hr
      have hms : ∀ m ∈ ms, ReadsBack fs m.2 := fun m hm =>
        ih m hm (orderedMembers_iff.mp ho.2 m hm) (wholeMembers_iff.mp hw m hm)
      obtain ⟨fuel, rfl⟩ := Nat.exists_eq_add_of_le' (Nat.le_trans (Nat.le_add_left 1 _) hf)
      rw [nesting]
      cases room with
      | zero =>
          rw [if_neg (Nat.not_succ_le_zero _)]
          cases ms <;> exact readAt_full fs _ (.inr rfl) _
      | succ room =>
          cases ms with
          | nil =>
              rw [nestingMembers, if_pos (Nat.succ_le_succ (Nat.zero_le room)), readAt]
              rfl
          | cons m ms =>
              obtain ⟨k, v⟩ := m
              have hread := readMembers_print fs hms fuel room depth r (Nat.le_of_succ_le_succ hf)
              have hobject := readAt_object fs fuel room (depth + 1)
              rw [printAt, List.cons_append, List.append_assoc]
              rw [printString] at hread ⊢
              simp only [List.append_assoc, List.cons_append] at hread ⊢
              rw [hobject, hread]
              by_cases hn : nestingMembers ((k, v) :: ms) ≤ room
              · rw [if_pos hn, if_pos (Nat.succ_le_succ hn), Option.map_some, build_eq_self ho.1]
              · rw [if_neg hn, if_neg fun h => hn (Nat.le_of_succ_le_succ h)]
                rfl

/-! ## Texts read back -/

/-- A value takes no more fuel than its text has characters. -/
theorem weight_le {v : Value F} (hw : v.whole = true) (depth : Nat) :
    weight v ≤ (printAt fs depth v).length := by
  induction v using Value.parts generalizing depth with
  | null => exact Nat.le_add_left 1 _
  | bool b => cases b <;> exact Nat.le_add_left 1 _
  | number n =>
      obtain ⟨c, r, hc, _⟩ := begins_printAt fs hw depth
      rw [hc]
      exact Nat.le_add_left 1 _
  | string s => exact Nat.le_add_left 1 _
  | array xs ih =>
      have hxs : ∀ x ∈ xs, weight x ≤ (printAt fs (depth + 1) x).length := fun x hx =>
        ih x hx (wholeItems_iff.mp hw x hx) (depth + 1)
      have hitems : weightItems xs + 1 ≤ (printItems fs depth xs).length := by
        clear hw ih
        induction xs with
        | nil => exact Nat.le_add_left 1 _
        | cons x xs ih =>
            have hx := hxs x List.mem_cons_self
            have hrest := ih fun y hy => hxs y (List.mem_cons_of_mem _ hy)
            rw [weightItems, printItems, List.length_cons, List.length_append, List.length_append]
            omega
      cases xs with
      | nil => exact Nat.le_add_left 1 _
      | cons x xs =>
          rw [printItems] at hitems
          exact hitems
  | object ms ih =>
      have hms : ∀ m ∈ ms, weight m.2 ≤ (printAt fs (depth + 1) m.2).length := fun m hm =>
        ih m hm (wholeMembers_iff.mp hw m hm) (depth + 1)
      have hmembers : weightMembers ms + 1 ≤ (printMembers fs depth ms).length := by
        clear hw ih
        induction ms with
        | nil => exact Nat.le_add_left 1 _
        | cons m ms ih =>
            have hm := hms m List.mem_cons_self
            have hrest := ih fun n hn => hms n (List.mem_cons_of_mem _ hn)
            rw [weightMembers, printMembers, List.length_cons, List.length_append,
              List.length_append, List.length_cons, List.length_cons, List.length_append]
            omega
      cases ms with
      | nil => exact Nat.le_add_left 1 _
      | cons m ms =>
          rw [printMembers] at hmembers
          exact hmembers

/-- What is printed is read back, if there is room for it. -/
theorem parse_print {v : Value F} (ho : v.Ordered) (hw : v.whole = true) (room : Nat)
    {r : List Char} (hr : ∀ c ∈ r, blank c = true) :
    parse fs room (print fs v ++ r) = if nesting v ≤ room then some v else none := by
  have hend : skip r = [] := by
    rw [skip]
    exact List.dropWhile_eq_nil_iff.mpr hr
  have hstops : Stops r := by
    cases r with
    | nil => trivial
    | cons c r =>
        have hc := hr c List.mem_cons_self
        simp only [blank, Bool.or_eq_true, decide_eq_true_eq] at hc
        rcases hc with ((rfl | rfl) | rfl) | rfl <;> exact ⟨rfl, by decide, by decide, by decide⟩
  have hfuel : weight v ≤ 2 * (print fs v ++ r).length + 2 := by
    have hw' : weight v ≤ (print fs v).length := weight_le fs hw 0
    rw [List.length_append]
    omega
  have hread : readAt fs _ room (print fs v ++ r) = _ := readsBack fs ho hw _ room 0 r hfuel hstops
  rw [parse, hread]
  by_cases hn : nesting v ≤ room
  · rw [if_pos hn, if_pos hn]
    dsimp only
    rw [hend]
    rfl
  · rw [if_neg hn, if_neg hn]

/-- Values of one text are one value. -/
theorem print_inj {v v' : Value F} (ho : v.Ordered) (hw : v.whole = true) (ho' : v'.Ordered)
    (hw' : v'.whole = true) (h : print fs v = print fs v') : v = v' := by
  have hp := parse_print fs ho hw (max (nesting v) (nesting v')) (r := []) fun c hc => by cases hc
  have hp' := parse_print fs ho' hw' (max (nesting v) (nesting v')) (r := []) fun c hc => by cases hc
  rw [if_pos (Nat.le_max_left _ _), h] at hp
  rw [if_pos (Nat.le_max_right _ _), hp] at hp'
  exact Option.some.inj hp'

/-! ## The order of insertions -/

mutual

/-- A value with its objects built member by member. -/
def kept : Value F → Value F
  | .array xs => .array (keptItems xs)
  | .object ms => .object (build (keptMembers ms))
  | v => v

def keptItems : List (Value F) → List (Value F)
  | [] => []
  | x :: xs => kept x :: keptItems xs

def keptMembers : List (String × Value F) → List (String × Value F)
  | [] => []
  | (k, v) :: ms => (k, kept v) :: keptMembers ms

end

/-- One value but for the order in which the members of its objects are put in. -/
inductive Reordered : Value F → Value F → Prop
  | refl (v : Value F) : Reordered v v
  | trans {u v w : Value F} : Reordered u v → Reordered v w → Reordered u w
  | item (xs ys : List (Value F)) {v w : Value F} : Reordered v w →
      Reordered (.array (xs ++ v :: ys)) (.array (xs ++ w :: ys))
  | member (ms ns : List (String × Value F)) (k : String) {v w : Value F} : Reordered v w →
      Reordered (.object (ms ++ (k, v) :: ns)) (.object (ms ++ (k, w) :: ns))
  | swap (ms ns : List (String × Value F)) {m n : String × Value F} (h : m.1 ≠ n.1) :
      Reordered (.object (ms ++ m :: n :: ns)) (.object (ms ++ n :: m :: ns))

theorem keptItems_append (xs ys : List (Value F)) :
    keptItems (xs ++ ys) = keptItems xs ++ keptItems ys := by
  induction xs with
  | nil => rfl
  | cons x xs ih => rw [List.cons_append, keptItems, keptItems, ih, List.cons_append]

theorem keptMembers_append (ms ns : List (String × Value F)) :
    keptMembers (ms ++ ns) = keptMembers ms ++ keptMembers ns := by
  induction ms with
  | nil => rfl
  | cons m ms ih => rw [List.cons_append, keptMembers, keptMembers, ih, List.cons_append]

theorem sorted_foldl_insert (ms : List (String × Value F)) {acc : Assoc String (Value F)}
    (h : Assoc.Sorted acc) : Assoc.Sorted (ms.foldl (fun m p => m.insert p.1 p.2) acc) := by
  induction ms generalizing acc with
  | nil => exact h
  | cons m ms ih => exact ih (h.insert m.1 m.2)

theorem insert_comm {m : Assoc String (Value F)} (h : Assoc.Sorted m) {k k' : String} (hk : k ≠ k')
    (v v' : Value F) : (m.insert k v).insert k' v' = (m.insert k' v').insert k v := by
  refine Assoc.Sorted.ext_get ((h.insert k v).insert k' v') ((h.insert k' v').insert k v) fun j => ?_
  rw [Assoc.get_insert, Assoc.get_insert, Assoc.get_insert, Assoc.get_insert]
  by_cases hj : j = k'
  · rw [if_pos hj, if_neg (hj ▸ hk.symm), if_pos hj]
  · rw [if_neg hj, if_neg hj]

/-- A map does not depend on the order of its insertions. -/
theorem kept_eq_of_reordered {v w : Value F} (h : Reordered v w) : kept v = kept w := by
  induction h with
  | refl v => rfl
  | trans _ _ ih ih' => exact ih.trans ih'
  | item xs ys _ ih => rw [kept, kept, keptItems_append, keptItems_append, keptItems, keptItems, ih]
  | member ms ns k _ ih =>
      rw [kept, kept, keptMembers_append, keptMembers_append, keptMembers, keptMembers, ih]
  | swap ms ns h =>
      rename_i m n
      obtain ⟨k, v⟩ := m
      obtain ⟨k', v'⟩ := n
      have hs := sorted_foldl_insert (keptMembers ms) (Assoc.Sorted.nil (α := String) (β := Value F))
      rw [kept, kept, keptMembers_append, keptMembers_append]
      simp only [keptMembers, build, List.foldl_append, List.foldl_cons]
      rw [insert_comm hs h]

theorem mem_foldl_insert {ms : List (String × Value F)} {acc : Assoc String (Value F)}
    {m : String × Value F} (h : m ∈ ms.foldl (fun m p => m.insert p.1 p.2) acc) :
    m ∈ acc ∨ m ∈ ms := by
  induction ms generalizing acc with
  | nil => exact .inl h
  | cons n ms ih =>
      rcases ih h with hm | hm
      · rcases Assoc.mem_insert_imp hm with rfl | hm
        · exact .inr List.mem_cons_self
        · exact .inl hm
      · exact .inr (List.mem_cons_of_mem _ hm)

theorem mem_keptItems {xs : List (Value F)} {x : Value F} (h : x ∈ keptItems xs) :
    ∃ y ∈ xs, x = kept y := by
  induction xs with
  | nil => cases h
  | cons y xs ih =>
      rw [keptItems] at h
      rcases List.mem_cons.mp h with rfl | h
      · exact ⟨y, List.mem_cons_self, rfl⟩
      · obtain ⟨z, hz, hx⟩ := ih h
        exact ⟨z, List.mem_cons_of_mem _ hz, hx⟩

theorem mem_keptMembers {ms : List (String × Value F)} {m : String × Value F}
    (h : m ∈ keptMembers ms) : ∃ n ∈ ms, m.2 = kept n.2 := by
  induction ms with
  | nil => cases h
  | cons n ms ih =>
      rw [keptMembers] at h
      rcases List.mem_cons.mp h with rfl | h
      · exact ⟨n, List.mem_cons_self, rfl⟩
      · obtain ⟨o, ho, hm⟩ := ih h
        exact ⟨o, List.mem_cons_of_mem _ ho, hm⟩

/-- What is kept is in order throughout. -/
theorem ordered_kept (v : Value F) : (kept v).Ordered := by
  induction v using Value.parts with
  | null => trivial
  | bool b => trivial
  | number n => trivial
  | string s => trivial
  | array xs ih =>
      rw [kept]
      refine orderedItems_iff.mpr fun x hx => ?_
      obtain ⟨y, hy, rfl⟩ := mem_keptItems hx
      exact ih y hy
  | object ms ih =>
      rw [kept]
      refine ⟨sorted_foldl_insert _ Assoc.Sorted.nil, orderedMembers_iff.mpr fun m hm => ?_⟩
      rcases mem_foldl_insert hm with hm | hm
      · cases hm
      · obtain ⟨n, hn, he⟩ := mem_keptMembers hm
        rw [he]
        exact ih n hn

/-! ## Maps of strings, on one line -/

def printPair (p : String × String) : List Char := printString p.1 ++ ':' :: printString p.2

/-- The pairs after the first, and the end. -/
def printPairs : List (String × String) → List Char
  | [] => ['\x7d']
  | p :: ps => ',' :: (printPair p ++ printPairs ps)

def printMap : Assoc String String → List Char
  | [] => ['\x7b', '\x7d']
  | p :: ps => '\x7b' :: (printPair p ++ printPairs ps)

/-- A string with its quotes, and what follows. -/
def readText (s : List Char) : Option (String × List Char) :=
  match skip s with
  | '"' :: r => (readString r).map fun p => (String.ofList p.1, p.2)
  | _ => none

/-- Pairs up to the end of their map. -/
def readPairs : Nat → List Char → Option (List (String × String) × List Char)
  | 0, _ => none
  | fuel + 1, s =>
      match readText s with
      | none => none
      | some (k, r) =>
          match skip r with
          | ':' :: r =>
              match readText r with
              | none => none
              | some (v, r) =>
                  match skip r with
                  | ',' :: r => (readPairs fuel r).map fun p => ((k, v) :: p.1, p.2)
                  | '\x7d' :: r => some ([(k, v)], r)
                  | _ => none
          | _ => none

/-- A text that is one map of strings and nothing more; a later value for an
earlier one of the same key. -/
def readMap (s : List Char) : Option (Assoc String String) :=
  match skip s with
  | '\x7b' :: r =>
      match skip r with
      | '\x7d' :: r => if (skip r).isEmpty then some [] else none
      | r =>
          match readPairs (r.length + 1) r with
          | some (ps, r) =>
              if (skip r).isEmpty then some (ps.foldl (fun m p => m.insert p.1 p.2) []) else none
          | none => none
  | _ => none

theorem readText_print (s : String) (r : List Char) :
    readText (printString s ++ r) = some (s, r) := by
  have h := readString_print s.toList r
  rw [readText, printString, List.cons_append, List.cons_append, skip_cons rfl]
  simp only [List.append_assoc, List.singleton_append, h, Option.map_some, String.ofList_toList]

theorem readPairs_print (p : String × String) (ps : List (String × String)) {fuel : Nat}
    (hf : ps.length < fuel) (r : List Char) :
    readPairs fuel (printPair p ++ (printPairs ps ++ r)) = some (p :: ps, r) := by
  induction ps generalizing p fuel with
  | nil =>
      obtain ⟨fuel, rfl⟩ := Nat.exists_eq_succ_of_ne_zero (Nat.ne_of_gt hf)
      rw [readPairs, printPair, List.append_assoc, readText_print]
      simp only [List.cons_append, skip_cons (rfl : blank ':' = false), readText_print, printPairs,
        skip_cons (rfl : blank '\x7d' = false), List.nil_append]
  | cons q ps ih =>
      obtain ⟨fuel, rfl⟩ := Nat.exists_eq_succ_of_ne_zero (Nat.ne_of_gt (Nat.zero_lt_of_lt hf))
      have h := ih q (Nat.lt_of_succ_lt_succ hf)
      rw [readPairs, printPair, List.append_assoc, readText_print]
      simp only [List.cons_append, skip_cons (rfl : blank ':' = false), readText_print, printPairs,
        skip_cons (rfl : blank ',' = false), List.append_assoc, h, Option.map_some]

theorem length_printPairs (ps : List (String × String)) : ps.length < (printPairs ps).length := by
  induction ps with
  | nil => exact Nat.zero_lt_one
  | cons p ps ih =>
      simp only [printPairs, List.length_cons, List.length_append]
      omega

/-- **A map of strings is read back.** -/
theorem readMap_print {m : Assoc String String} (h : Assoc.Sorted m) :
    readMap (printMap m) = some m := by
  cases m with
  | nil => rfl
  | cons p ps =>
      have hlen := length_printPairs ps
      have hread : readPairs ((printPair p ++ printPairs ps).length + 1)
          (printPair p ++ (printPairs ps ++ [])) = some (p :: ps, []) :=
        readPairs_print p ps (by rw [List.length_append]; omega) []
      rw [List.append_nil] at hread
      have hbrace : skip (printPair p ++ printPairs ps) = printPair p ++ printPairs ps := skip_cons rfl _
      rw [readMap, printMap, skip_cons rfl]
      simp only [hbrace]
      split
      · next r heq => exact absurd heq (by simp [printPair, printString])
      · rw [hread]
        exact congrArg some h.foldl_insert

end Rescind.Lib.Json
