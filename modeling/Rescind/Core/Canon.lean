/-
# `Rescind.Core.Canon` — the canonical byte encoding for hashing

Length-prefixed, field-ordered, domain-separated.  The encoder appends; each
function here gives the bytes it appends.

    0x00                          none
    0x01 <value>                  some
    0x02 0x00|0x01                bool
    0x03 u64 big-endian           u64
    0x05 u64be(len) bytes         octets (UTF-8 text and raw bytes alike)
    0x06 u64be(count) elements    list
    0x07 u64be(count)             record, its fields follow
    enum    := octets(variant name) record(payload)
    message := octets(domain) value

A text or a vector of the source has fewer than 2^64 bytes or elements; `Str`
and `Vec` say so.

**Proved here.**

    every encoding is delimited           (`delimited_str`, `delimited_list`, …)
-/
import Rescind.Lib.Codec
import Mathlib.Algebra.Ring.Nat

namespace Rescind.Canon

open Lib

/-! ## Texts and vectors -/

/-- A `String` of the source. -/
structure Str where
  text : String
  fits : text.utf8ByteSize < 2 ^ 64
  deriving DecidableEq

/-- A `Vec` of the source. -/
structure Vec (α : Type) where
  items : List α
  fits : items.length < 2 ^ 64
  deriving DecidableEq

def Vec.empty {α : Type} : Vec α := ⟨[], Nat.two_pow_pos 64⟩

def utf8 (s : String) : List UInt8 := s.toByteArray.data.toList

theorem utf8_inj {s t : String} (h : utf8 s = utf8 t) : s = t := by
  refine String.toByteArray_inj.mp (ByteArray.ext ?_)
  exact Array.toList_inj.mp h

theorem length_utf8 (s : String) : (utf8 s).length = s.utf8ByteSize := by
  rw [utf8, Array.length_toList]
  rfl

/-! ## The encoder -/

def bool (b : Bool) : List UInt8 := [0x02, if b then 0x01 else 0x00]

def u64 (n : UInt64) : List UInt8 := 0x03 :: beBytes 8 n.toNat

/-- A `u32` is written as the `u64` it widens to. -/
def u32 (n : UInt32) : List UInt8 := u64 n.toUInt64

def octets (bytes : List UInt8) : List UInt8 := 0x05 :: (beBytes 8 bytes.length ++ bytes)

def str (s : Str) : List UInt8 := octets (utf8 s.text)

def list {α : Type} (canon : α → List UInt8) (v : Vec α) : List UInt8 :=
  0x06 :: (beBytes 8 v.items.length ++ v.items.flatMap canon)

def option {α : Type} (canon : α → List UInt8) : Option α → List UInt8
  | none => [0x00]
  | some x => 0x01 :: canon x

/-- A record of `count` fields; the caller then encodes each. -/
def record (count : Nat) : List UInt8 := 0x07 :: beBytes 8 count

/-- An enum: its variant name, then its payload as a record. -/
def variant (name : String) (fields : Nat) : List UInt8 := octets (utf8 name) ++ record fields

/-- A domain-separated message. -/
def message (domain : String) (value : List UInt8) : List UInt8 := octets (utf8 domain) ++ value

/-! ## Each is delimited -/

theorem delimited_bool : Delimited bool := by
  refine Delimited.width (w := 2) (fun _ => rfl) fun a b h => ?_
  cases a <;> cases b <;> first | rfl | cases h

/-- What fits a `u64` is told from its eight bytes. -/
theorem cut_be64 {n m : Nat} {r s : List UInt8} (hn : n < 2 ^ 64) (hm : m < 2 ^ 64)
    (h : beBytes 8 n ++ r = beBytes 8 m ++ s) : n = m ∧ r = s := by
  have hw : (2 : Nat) ^ 64 = 256 ^ 8 := rfl
  rw [hw] at hn hm
  exact cut_beBytes hn hm h

theorem delimited_u64 : Delimited u64 := by
  constructor
  intro a b r s h
  obtain ⟨hn, hr⟩ := cut_be64 a.toNat_lt b.toNat_lt (List.cons.inj h).2
  exact ⟨UInt64.toNat_inj.mp hn, hr⟩

theorem delimited_u32 : Delimited u32 := by
  refine delimited_u64.comap fun a b h => ?_
  have ht : a.toUInt64.toNat = b.toUInt64.toNat := by rw [h]
  rw [UInt32.toNat_toUInt64, UInt32.toNat_toUInt64] at ht
  exact UInt32.toNat_inj.mp ht

theorem delimited_list {α : Type} {canon : α → List UInt8} (h : Delimited canon) :
    Delimited (list canon) := by
  refine (Delimited.counted cut_be64 h Vec.fits fun a b hab => ?_).after [0x06]
  cases a
  cases b
  cases hab
  rfl

theorem delimited_option {α : Type} {canon : α → List UInt8} (h : Delimited canon) :
    Delimited (option canon) := by
  have hd := h.optional (t := 0x00) (u := 0x01) (by decide)
  constructor
  intro a b r s he
  refine hd.cut (r := r) (s := s) ?_
  cases a <;> cases b <;> exact he

/-- Octets of a length that fits. -/
theorem cut_octets {xs ys r s : List UInt8} (hx : xs.length < 2 ^ 64) (hy : ys.length < 2 ^ 64)
    (h : octets xs ++ r = octets ys ++ s) : xs = ys ∧ r = s := by
  have hc : beBytes 8 xs.length ++ xs ++ r = beBytes 8 ys.length ++ ys ++ s := (List.cons.inj h).2
  rw [List.append_assoc, List.append_assoc] at hc
  obtain ⟨hl, he⟩ := cut_be64 hx hy hc
  exact List.append_inj he hl

/-- A text that fits. -/
theorem cut_utf8 {s t : String} {r r' : List UInt8} (hs : s.utf8ByteSize < 2 ^ 64)
    (ht : t.utf8ByteSize < 2 ^ 64) (h : octets (utf8 s) ++ r = octets (utf8 t) ++ r') :
    s = t ∧ r = r' := by
  rw [← length_utf8] at hs ht
  obtain ⟨he, hr⟩ := cut_octets hs ht h
  exact ⟨utf8_inj he, hr⟩

theorem delimited_str : Delimited str := by
  constructor
  intro a b r s h
  obtain ⟨ht, hr⟩ := cut_utf8 a.fits b.fits h
  cases a
  cases b
  cases ht
  exact ⟨rfl, hr⟩

end Rescind.Canon
