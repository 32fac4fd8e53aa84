/-
# `Rescind.Lib.Codec` — encodings that can be told apart

An encoding into bytes is *delimited* when the encoding of a value, followed by
anything, is that of no other value followed by anything else: what a reader of
a length-prefixed format relies on.  Delimited encodings are injective, and are
closed under sequence and under counted lists.

    a fixed width is delimited                          (`Delimited.width`)
    one after the other                                 (`Delimited.both`)
    as many as was said before                          (`Delimited.counted`)
    nothing, or one thing                               (`Delimited.optional`)

Delimited is the same as injective with no encoding at the start of another's
(`Delimited.prefix_eq`).
-/
import Mathlib.Algebra.Group.Nat.Defs
import Mathlib.Data.List.Basic

namespace Rescind.Lib

variable {α β : Type}

/-- The end of an encoded value can be told from its start. -/
structure Delimited (enc : α → List UInt8) : Prop where
  cut : ∀ {a b : α} {r s : List UInt8}, enc a ++ r = enc b ++ s → a = b ∧ r = s

namespace Delimited

variable {enc : α → List UInt8} {enc' : β → List UInt8}

theorem injective (h : Delimited enc) {a b : α} (he : enc a = enc b) : a = b := by
  have : enc a ++ [] = enc b ++ [] := by rw [he]
  exact (h.cut this).1

/-- Encodings of one width. -/
theorem width {w : Nat} (hw : ∀ a, (enc a).length = w) (hi : ∀ a b, enc a = enc b → a = b) :
    Delimited enc := by
  constructor
  intro a b r s h
  obtain ⟨he, hr⟩ := List.append_inj h ((hw a).trans (hw b).symm)
  exact ⟨hi a b he, hr⟩

/-- What comes first of the two is told first. -/
theorem both (h : Delimited enc) (h' : Delimited enc') :
    Delimited fun p : α × β => enc p.1 ++ enc' p.2 := by
  constructor
  intro p q r s he
  rw [List.append_assoc, List.append_assoc] at he
  obtain ⟨h₁, he⟩ := h.cut he
  obtain ⟨h₂, he⟩ := h'.cut he
  exact ⟨Prod.ext h₁ h₂, he⟩

/-- The same bytes before every encoding. -/
theorem after (h : Delimited enc) (t : List UInt8) : Delimited fun a => t ++ enc a := by
  constructor
  intro a b r s he
  rw [List.append_assoc, List.append_assoc] at he
  exact h.cut (List.append_cancel_left he)

/-- Values of an injective image. -/
theorem comap {f : β → α} (h : Delimited enc) (hf : ∀ a b, f a = f b → a = b) :
    Delimited fun b => enc (f b) := by
  constructor
  intro a b r s he
  obtain ⟨hab, hr⟩ := h.cut he
  exact ⟨hf a b hab, hr⟩

/-- As many as the other list has. -/
theorem sameCount (h : Delimited enc) {xs ys : List α} {r s : List UInt8}
    (hl : xs.length = ys.length) (he : xs.flatMap enc ++ r = ys.flatMap enc ++ s) :
    xs = ys ∧ r = s := by
  induction xs generalizing ys with
  | nil =>
      obtain rfl := List.length_eq_zero_iff.mp hl.symm
      exact ⟨rfl, he⟩
  | cons x xs ih =>
      cases ys with
      | nil => cases hl
      | cons y ys =>
          rw [List.flatMap_cons, List.flatMap_cons, List.append_assoc, List.append_assoc] at he
          obtain ⟨hxy, he⟩ := h.cut he
          obtain ⟨hl', hr⟩ := ih (Nat.succ.inj hl) he
          exact ⟨by rw [hxy, hl'], hr⟩

/-- Lists behind the number of their elements. -/
theorem counted {count : Nat → List UInt8} {bound : Nat} {items : β → List α}
    (hc : ∀ {n m : Nat} {r s : List UInt8}, n < bound → m < bound →
      count n ++ r = count m ++ s → n = m ∧ r = s)
    (h : Delimited enc) (hb : ∀ b, (items b).length < bound)
    (hi : ∀ a b, items a = items b → a = b) :
    Delimited fun b => count (items b).length ++ (items b).flatMap enc := by
  constructor
  intro a b r s he
  rw [List.append_assoc, List.append_assoc] at he
  obtain ⟨hn, he⟩ := hc (hb a) (hb b) he
  obtain ⟨hab, hr⟩ := h.sameCount hn he
  exact ⟨hi a b hab, hr⟩

/-- No encoding is at the start of another. -/
theorem prefix_eq (h : Delimited enc) {a b : α} (hp : enc a <+: enc b) : a = b := by
  obtain ⟨r, hr⟩ := hp
  rw [← List.append_nil (enc b)] at hr
  exact (h.cut hr).1

/-- Nothing, or one thing, behind different first bytes. -/
theorem optional {t u : UInt8} (htu : t ≠ u) (h : Delimited enc) :
    Delimited fun o : Option α => match o with
      | none => [t]
      | some a => u :: enc a := by
  constructor
  intro a b r s he
  cases a with
  | none =>
      cases b with
      | none => exact ⟨rfl, (List.cons.inj he).2⟩
      | some b => exact absurd (List.cons.inj he).1 htu
  | some a =>
      cases b with
      | none => exact absurd (List.cons.inj he).1 htu.symm
      | some b =>
          obtain ⟨hab, hr⟩ := h.cut (List.cons.inj he).2
          exact ⟨congrArg some hab, hr⟩

end Delimited

/-! ## Numbers, the most significant byte first -/

/-- A number in `w` bytes. -/
def beBytes : Nat → Nat → List UInt8
  | 0, _ => []
  | w + 1, n => beBytes w (n / 256) ++ [UInt8.ofNat n]

@[simp] theorem length_beBytes (w n : Nat) : (beBytes w n).length = w := by
  induction w generalizing n with
  | zero => rfl
  | succ w ih => simp [beBytes, ih]

theorem beBytes_inj {w n m : Nat} (hn : n < 256 ^ w) (hm : m < 256 ^ w)
    (h : beBytes w n = beBytes w m) : n = m := by
  induction w generalizing n m with
  | zero =>
      rw [Nat.pow_zero] at hn hm
      omega
  | succ w ih =>
      obtain ⟨hd, hl⟩ := List.append_inj' h rfl
      have hq := ih (Nat.div_lt_of_lt_mul (by rw [Nat.mul_comm]; exact hn))
        (Nat.div_lt_of_lt_mul (by rw [Nat.mul_comm]; exact hm)) hd
      have hmod : n % 256 = m % 256 := by
        have := congrArg UInt8.toNat (List.cons.inj hl).1
        simpa using this
      omega

theorem cut_beBytes {w n m : Nat} {r s : List UInt8} (hn : n < 256 ^ w) (hm : m < 256 ^ w)
    (h : beBytes w n ++ r = beBytes w m ++ s) : n = m ∧ r = s := by
  obtain ⟨he, hr⟩ := List.append_inj h (by simp)
  exact ⟨beBytes_inj hn hm he, hr⟩

end Rescind.Lib
