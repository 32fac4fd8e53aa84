/-
# `Rescind.Lib.Text` — texts as lists of characters

Cutting, splitting and joining, by structural recursion, so that a text is
taken apart the same way by a proof and by evaluation.  Bytes are the UTF-8
encoding; `lossy` reads bytes back with each ill-formed sequence replaced.
-/
import Mathlib.Data.List.Basic
import Mathlib.Data.String.Basic

namespace Rescind.Lib

/-- The bytes of a file. -/
abbrev Bytes := List UInt8

namespace Text

/-- The part before the first `c` and the part after it. -/
def cut (c : Char) : List Char → Option (List Char × List Char)
  | [] => none
  | x :: xs =>
      if x = c then some ([], xs)
      else (cut c xs).map fun p => (x :: p.1, p.2)

/-- What is left after a prefix. -/
def dropPrefix : List Char → List Char → Option (List Char)
  | [], xs => some xs
  | _ :: _, [] => none
  | p :: ps, x :: xs => if p = x then dropPrefix ps xs else none

theorem dropPrefix_eq_some {p xs ys : List Char} (h : dropPrefix p xs = some ys) :
    xs = p ++ ys := by
  induction p generalizing xs with
  | nil => exact Option.some.inj h
  | cons c p ih =>
      cases xs with
      | nil => cases h
      | cons x xs =>
          unfold dropPrefix at h
          split at h
          · rename_i hc
            rw [hc, List.cons_append, ← ih h]
          · cases h

/-- The part before the first occurrence of `pat`, and the rest from there. -/
def cutAt (pat : List Char) : List Char → Option (List Char × List Char)
  | [] => if pat.isEmpty then some ([], []) else none
  | x :: xs =>
      if (dropPrefix pat (x :: xs)).isSome then some ([], x :: xs)
      else (cutAt pat xs).map fun p => (x :: p.1, p.2)

/-- The pieces between occurrences of `c`; at least one. -/
def split (c : Char) : List Char → List (List Char)
  | [] => [[]]
  | x :: xs =>
      if x = c then [] :: split c xs
      else match split c xs with
        | [] => [[x]]
        | p :: ps => (x :: p) :: ps

/-- Unicode `White_Space`. -/
def isWhite (c : Char) : Bool :=
  let n := c.toNat
  (0x9 ≤ n && n ≤ 0xD) || n = 0x20 || n = 0x85 || n = 0xA0 || n = 0x1680 ||
    (0x2000 ≤ n && n ≤ 0x200A) || n = 0x2028 || n = 0x2029 || n = 0x202F || n = 0x205F ||
    n = 0x3000

def trim (s : List Char) : List Char :=
  ((s.dropWhile isWhite).reverse.dropWhile isWhite).reverse

/-- A line that ended in a newline, without the carriage return before it. -/
def dropCr (line : List Char) : List Char :=
  match line.reverse with
  | '\x0d' :: rest => rest.reverse
  | _ => line

/-- The lines of a text: a final newline starts no further line, and `\r\n`
ends one as `\n` does. -/
def linesFrom : List Char → List Char → List (List Char)
  | acc, [] => if acc.isEmpty then [] else [acc.reverse]
  | acc, x :: xs =>
      if x = '\n' then dropCr acc.reverse :: linesFrom [] xs
      else linesFrom (x :: acc) xs

def lines (s : List Char) : List (List Char) := linesFrom [] s

/-- Lines put back together, each with its newline. -/
def unlines (ls : List (List Char)) : List Char := ls.flatMap fun l => l ++ ['\n']

/-- Texts joined by a separator. -/
def join (sep : String) (xs : List String) : String := sep.intercalate xs

/-! ## Lines -/

theorem dropCr_concat {c : Char} (h : c ≠ '\x0d') (s : List Char) : dropCr (s ++ [c]) = s ++ [c] := by
  unfold dropCr
  rw [List.reverse_append]
  show (match c :: s.reverse with | '\x0d' :: rest => rest.reverse | _ => s ++ [c]) = s ++ [c]
  split
  next heq =>
    injection heq with heq
    exact absurd heq h
  next => rfl

theorem linesFrom_line {l : List Char} (h : '\n' ∉ l) (acc s : List Char) :
    linesFrom acc (l ++ '\n' :: s) = dropCr (acc.reverse ++ l) :: lines s := by
  induction l generalizing acc with
  | nil => simp [linesFrom, lines]
  | cons x l ih =>
      have hx : x ≠ '\n' := fun hx => h (by simp [hx])
      have hl : '\n' ∉ l := fun hl => h (List.mem_cons_of_mem _ hl)
      simp [linesFrom, hx, ih hl]

theorem linesFrom_last {l : List Char} (h : '\n' ∉ l) (acc : List Char) (hne : acc ≠ [] ∨ l ≠ []) :
    linesFrom acc l = [acc.reverse ++ l] := by
  induction l generalizing acc with
  | nil =>
      have hacc : acc ≠ [] := hne.resolve_right fun h => h rfl
      simp [linesFrom, hacc]
  | cons x l ih =>
      have hx : x ≠ '\n' := fun hx => h (by simp [hx])
      have hl : '\n' ∉ l := fun hl => h (List.mem_cons_of_mem _ hl)
      simp [linesFrom, hx, ih hl]

/-- A line with its newline is the first line. -/
theorem lines_line {l : List Char} (h : '\n' ∉ l) (s : List Char) :
    lines (l ++ '\n' :: s) = dropCr l :: lines s := linesFrom_line h [] s

/-- A last line may have no newline. -/
theorem lines_last {l : List Char} (h : '\n' ∉ l) (hne : l ≠ []) : lines l = [l] :=
  linesFrom_last h [] (.inr hne)

end Text

/-! ## UTF-8 -/

namespace Bytes

/-- The UTF-8 encoding of a text. -/
def ofText (s : List Char) : Bytes := s.flatMap String.utf8EncodeChar

/-- The bytes of a string. -/
def ofString (s : String) : Bytes := ofText s.toList

/-- A continuation byte within bounds. -/
def cont (lo hi : Nat) (b : UInt8) : Bool := lo ≤ b.toNat && b.toNat ≤ hi

/-- U+FFFD, what an ill-formed sequence reads as. -/
def replacement : Char := Char.ofNat 0xFFFD

/-- One character off the front of a non-empty byte list, and how many bytes
after the first it took.  An ill-formed sequence takes its longest prefix that
could have begun a character and reads as U+FFFD. -/
def decodeOne (b : UInt8) (rest : Bytes) : Char × Nat :=
  let n := b.toNat
  if n < 0x80 then (Char.ofNat n, 0)
  else if 0xC2 ≤ n ∧ n ≤ 0xDF then
    match rest with
    | c :: _ => if cont 0x80 0xBF c then
        (Char.ofNat ((n - 0xC0) * 64 + (c.toNat - 0x80)), 1) else (replacement, 0)
    | [] => (replacement, 0)
  else if 0xE0 ≤ n ∧ n ≤ 0xEF then
    let lo := if n = 0xE0 then 0xA0 else 0x80
    let hi := if n = 0xED then 0x9F else 0xBF
    match rest with
    | c :: d :: _ =>
        if cont lo hi c then
          if cont 0x80 0xBF d then
            (Char.ofNat ((n - 0xE0) * 4096 + (c.toNat - 0x80) * 64 + (d.toNat - 0x80)), 2)
          else (replacement, 1)
        else (replacement, 0)
    | [c] => if cont lo hi c then (replacement, 1) else (replacement, 0)
    | [] => (replacement, 0)
  else if 0xF0 ≤ n ∧ n ≤ 0xF4 then
    let lo := if n = 0xF0 then 0x90 else 0x80
    let hi := if n = 0xF4 then 0x8F else 0xBF
    match rest with
    | c :: d :: e :: _ =>
        if cont lo hi c then
          if cont 0x80 0xBF d then
            if cont 0x80 0xBF e then
              (Char.ofNat ((n - 0xF0) * 262144 + (c.toNat - 0x80) * 4096 +
                (d.toNat - 0x80) * 64 + (e.toNat - 0x80)), 3)
            else (replacement, 2)
          else (replacement, 1)
        else (replacement, 0)
    | [c, d] =>
        if cont lo hi c then if cont 0x80 0xBF d then (replacement, 2) else (replacement, 1)
        else (replacement, 0)
    | [c] => if cont lo hi c then (replacement, 1) else (replacement, 0)
    | [] => (replacement, 0)
  else (replacement, 0)

/-- The text of a byte list, `skip` of whose first bytes were already taken. -/
def lossyFrom : Nat → Bytes → List Char
  | _, [] => []
  | skip + 1, _ :: bs => lossyFrom skip bs
  | 0, b :: bs =>
      let r := decodeOne b bs
      r.1 :: lossyFrom r.2 bs

/-- The text of a byte list, every ill-formed sequence replaced. -/
def lossy (bs : Bytes) : List Char := lossyFrom 0 bs

/-- The text of a byte list that is well-formed UTF-8. -/
def text? (bs : Bytes) : Option (List Char) :=
  let t := lossy bs
  if ofText t = bs then some t else none

theorem toNat_bounds (c : Char) : c.toNat < 0xD800 ∨ (0xE000 ≤ c.toNat ∧ c.toNat < 0x110000) := by
  have := c.valid
  simp only [UInt32.isValidChar, Nat.isValidChar] at this
  rcases this with h | ⟨h, h'⟩
  · exact .inl h
  · exact .inr ⟨by show 0xE000 ≤ c.val.toNat; omega, h'⟩

theorem toNat_byte {n : Nat} (h : n < 256) : (UInt8.ofNat n).toNat = n := by
  rw [UInt8.toNat_ofNat']
  exact Nat.mod_eq_of_lt h

theorem ofNat_eq {c : Char} {n : Nat} (h : n = c.toNat) : Char.ofNat n = c := by
  rw [h]
  exact Char.ofNat_toNat c

theorem decodeOne_one {c : Char} (h : c.toNat ≤ 0x7f) (r : Bytes) :
    decodeOne (UInt8.ofNat c.toNat) r = (c, 0) := by
  have hb : (UInt8.ofNat c.toNat).toNat = c.toNat := toNat_byte (by omega)
  unfold decodeOne
  simp only [hb]
  rw [if_pos (by omega), Char.ofNat_toNat]

theorem decodeOne_two {c : Char} (h : 0x7f < c.toNat) (h' : c.toNat ≤ 0x7ff) (r : Bytes) :
    decodeOne (UInt8.ofNat (c.toNat / 64 % 32 + 192)) (UInt8.ofNat (c.toNat % 64 + 128) :: r) =
      (c, 1) := by
  have hb : (UInt8.ofNat (c.toNat / 64 % 32 + 192)).toNat = c.toNat / 64 + 192 := by
    rw [toNat_byte (by omega)]
    omega
  have hb' : (UInt8.ofNat (c.toNat % 64 + 128)).toNat = c.toNat % 64 + 128 := toNat_byte (by omega)
  unfold decodeOne
  simp only [hb, hb', cont]
  rw [if_neg (by omega), if_pos (by omega), if_pos (by simp; omega),
    ofNat_eq (show _ = c.toNat by omega)]

theorem decodeOne_three {c : Char} (h : 0x7ff < c.toNat) (h' : c.toNat ≤ 0xffff) (r : Bytes) :
    decodeOne (UInt8.ofNat (c.toNat / 4096 % 16 + 224)) (UInt8.ofNat (c.toNat / 64 % 64 + 128) ::
      UInt8.ofNat (c.toNat % 64 + 128) :: r) = (c, 2) := by
  have hv := toNat_bounds c
  have hb : (UInt8.ofNat (c.toNat / 4096 % 16 + 224)).toNat = c.toNat / 4096 + 224 := by
    rw [toNat_byte (by omega)]
    omega
  have hb' : (UInt8.ofNat (c.toNat / 64 % 64 + 128)).toNat = c.toNat / 64 % 64 + 128 :=
    toNat_byte (by omega)
  have hb'' : (UInt8.ofNat (c.toNat % 64 + 128)).toNat = c.toNat % 64 + 128 := toNat_byte (by omega)
  have hlo : (if c.toNat / 4096 + 224 = 0xE0 then 0xA0 else 0x80) ≤ c.toNat / 64 % 64 + 128 := by
    split <;> omega
  have hhi : c.toNat / 64 % 64 + 128 ≤ (if c.toNat / 4096 + 224 = 0xED then 0x9F else 0xBF) := by
    split <;> omega
  unfold decodeOne
  simp only [hb, hb', hb'', cont]
  rw [if_neg (by omega), if_neg (by omega), if_pos (by omega),
    if_pos (by simp only [hlo, hhi, decide_true, Bool.and_self]), if_pos (by simp; omega),
    ofNat_eq (show _ = c.toNat by omega)]

theorem decodeOne_four {c : Char} (h : 0xffff < c.toNat) (r : Bytes) :
    decodeOne (UInt8.ofNat (c.toNat / 262144 % 8 + 240)) (UInt8.ofNat (c.toNat / 4096 % 64 + 128) ::
      UInt8.ofNat (c.toNat / 64 % 64 + 128) :: UInt8.ofNat (c.toNat % 64 + 128) :: r) = (c, 3) := by
  have hv := toNat_bounds c
  have hb : (UInt8.ofNat (c.toNat / 262144 % 8 + 240)).toNat = c.toNat / 262144 + 240 := by
    rw [toNat_byte (by omega)]
    omega
  have hb' : (UInt8.ofNat (c.toNat / 4096 % 64 + 128)).toNat = c.toNat / 4096 % 64 + 128 :=
    toNat_byte (by omega)
  have hb'' : (UInt8.ofNat (c.toNat / 64 % 64 + 128)).toNat = c.toNat / 64 % 64 + 128 :=
    toNat_byte (by omega)
  have hb3 : (UInt8.ofNat (c.toNat % 64 + 128)).toNat = c.toNat % 64 + 128 := toNat_byte (by omega)
  have hlo : (if c.toNat / 262144 + 240 = 0xF0 then 0x90 else 0x80) ≤ c.toNat / 4096 % 64 + 128 := by
    split <;> omega
  have hhi : c.toNat / 4096 % 64 + 128 ≤ (if c.toNat / 262144 + 240 = 0xF4 then 0x8F else 0xBF) := by
    split <;> omega
  unfold decodeOne
  simp only [hb, hb', hb'', hb3, cont]
  rw [if_neg (by omega), if_neg (by omega), if_neg (by omega), if_pos (by omega),
    if_pos (by simp only [hlo, hhi, decide_true, Bool.and_self]), if_pos (by simp; omega),
    if_pos (by simp; omega), ofNat_eq (show _ = c.toNat by omega)]

theorem lossyFrom_char (c : Char) (r : Bytes) :
    lossyFrom 0 (String.utf8EncodeChar c ++ r) = c :: lossyFrom 0 r := by
  have hv : c.val.toNat = c.toNat := rfl
  unfold String.utf8EncodeChar
  simp only [hv]
  split
  next h => simp only [List.cons_append, List.nil_append, lossyFrom, decodeOne_one h]
  next h =>
    split
    next h' => simp only [List.cons_append, List.nil_append, lossyFrom, decodeOne_two (by omega) h']
    next h' =>
      split
      next h'' => simp only [List.cons_append, List.nil_append, lossyFrom, decodeOne_three (by omega) h'']
      next h'' => simp only [List.cons_append, List.nil_append, lossyFrom, decodeOne_four (by omega : 0xffff < c.toNat)]

/-- Bytes that begin with the encoding of a text read as that text first. -/
theorem lossy_append (s : List Char) (r : Bytes) : lossy (ofText s ++ r) = s ++ lossy r := by
  induction s with
  | nil => rfl
  | cons c s ih =>
      have h := lossyFrom_char c (ofText s ++ r)
      rw [← List.append_assoc] at h
      show lossyFrom 0 (ofText (c :: s) ++ r) = c :: (s ++ lossy r)
      rw [← ih]
      exact h

theorem ofText_append (s t : List Char) : ofText (s ++ t) = ofText s ++ ofText t := List.flatMap_append

theorem lossy_ofText (s : List Char) : lossy (ofText s) = s := by
  have h := lossy_append s []
  rw [List.append_nil] at h
  rw [h]
  exact List.append_nil s

theorem text?_ofText (s : List Char) : text? (ofText s) = some s := by
  simp [text?, lossy_ofText]

theorem ofText_of_text? {bs : Bytes} {s : List Char} (h : text? bs = some s) : ofText s = bs := by
  simp only [text?] at h
  split at h
  next heq =>
    injection h with h
    rwa [h] at heq
  next => cases h

theorem lossy_ne_nil {bs : Bytes} (h : bs ≠ []) : lossy bs ≠ [] := by
  cases bs with
  | nil => exact absurd rfl h
  | cons b bs => exact List.cons_ne_nil _ _

/-- After a text, what follows decides whether the whole is well-formed. -/
theorem text?_append (s : List Char) (r : Bytes) : text? (ofText s ++ r) = (text? r).map (s ++ ·) := by
  simp only [text?, lossy_append, ofText_append, List.append_cancel_left_eq]
  split <;> rfl

end Bytes

end Rescind.Lib
