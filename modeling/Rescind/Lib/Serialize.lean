/-
# `Rescind.Lib.Serialize` — types that are written as JSON

A type is written as JSON by a value for each of its own, two of them apart, the
keys of every object in order and every number an integer.  A `Field` may be null,
as an absent one is; what an `Option` is of is not.

    texts, flags, numbers, lists, options      (the instances)
    a type written as another is               (`Serialize.comap`)

A number past 64 bits, which no value that is written holds, is written as its digits.
-/
import Mathlib.Data.List.Basic
import Mathlib.Logic.Function.Basic
import Rescind.Lib.Json

namespace Rescind.Lib.Json

/-- Written as a value, that null may be.  Where a value is spelled out, constructor by
constructor, the rest is seen from it. -/
class Field (F α : Type) where
  toValue : α → Value F
  apart : ∀ a b, toValue a = toValue b → a = b := by
    intro a b h
    cases a <;> cases b <;> simp_all
  ordered : ∀ a, (toValue a).Ordered := by
    intro a
    cases a <;> simp [Value.Ordered, Value.OrderedMembers, Assoc.Sorted, -String.lt_iff_ltb] <;> decide
  whole : ∀ a, (toValue a).whole = true := by
    intro a
    cases a <;> simp [Value.whole, Value.wholeMembers]

/-- Written as a value that is never null. -/
class Serialize (F α : Type) extends Field F α where
  solid : ∀ a, toValue a ≠ .null := by
    intro a
    cases a <;> simp

export Field (toValue)

section
variable {F α : Type} [Field F α] {a b : α}

@[simp] theorem toValue_inj : toValue (F := F) a = toValue b ↔ a = b :=
  ⟨Field.apart a b, congrArg toValue⟩

@[simp] theorem ordered_toValue : (toValue (F := F) a).Ordered := Field.ordered a

@[simp] theorem whole_toValue : (toValue (F := F) a).whole = true := Field.whole a

end

@[simp] theorem toValue_ne_null {F α : Type} [Serialize F α] {a : α} :
    toValue (F := F) a ≠ .null := Serialize.solid a

variable {F α β : Type}

instance : Serialize F String where
  toValue s := .string s
  apart _ _ h := Value.string.inj h
  ordered _ := trivial
  whole _ := rfl
  solid _ h := nomatch h

instance : Serialize F Bool where
  toValue b := .bool b
  apart _ _ h := Value.bool.inj h
  ordered _ := trivial
  whole _ := rfl
  solid _ h := nomatch h

/-- A natural number. -/
def ofNat (n : Nat) : Value F :=
  if h : n < 2 ^ 64 then .number (.integer n ⟨by omega, by omega⟩)
  else .string (String.ofList (Nat.toDigits 10 n))

instance : Serialize F Nat where
  toValue := ofNat
  apart n m h := by
    unfold ofNat at h
    split at h <;> split at h
    · simpa using h
    · cases h
    · cases h
    · rw [← Nat.ofDigitChars_ten_toDigits (n := n), ← Nat.ofDigitChars_ten_toDigits (n := m),
        String.ofList_injective (Value.string.inj h)]
  ordered n := by
    unfold ofNat
    split <;> trivial
  whole n := by
    unfold ofNat
    split <;> rfl
  solid n h := by
    unfold ofNat at h
    split at h <;> cases h

theorem orderedItems_map [Field F α] (as : List α) : Value.OrderedItems (as.map (toValue (F := F))) := by
  induction as with
  | nil => trivial
  | cons a as ih => exact ⟨ordered_toValue, ih⟩

theorem wholeItems_map [Field F α] (as : List α) :
    Value.wholeItems (as.map (toValue (F := F))) = true := by
  induction as with
  | nil => rfl
  | cons a as ih => rw [List.map_cons, Value.wholeItems, whole_toValue, ih]; rfl

instance [Field F α] : Serialize F (List α) where
  toValue as := .array (as.map toValue)
  apart _ _ h := List.map_injective_iff.mpr (fun a b => Field.apart a b) (Value.array.inj h)
  ordered := orderedItems_map
  whole := wholeItems_map
  solid _ h := nomatch h

instance [Serialize F α] : Field F (Option α) where
  toValue x := x.elim .null toValue
  apart x y h := by
    cases x <;> cases y
    · rfl
    · exact absurd h.symm toValue_ne_null
    · exact absurd h toValue_ne_null
    · exact congrArg some (Field.apart _ _ h)
  ordered x := by cases x <;> simp [Value.Ordered]
  whole x := by cases x <;> simp [Value.whole]

/-- Written as what it is made of. -/
abbrev Serialize.comap [Serialize F β] (f : α → β) (hf : Function.Injective f) : Serialize F α where
  toValue a := toValue (f a)
  apart _ _ h := hf (Field.apart _ _ h)
  ordered _ := ordered_toValue
  whole _ := whole_toValue
  solid _ := toValue_ne_null

end Rescind.Lib.Json
