/-
# `Rescind.Safety.Encodings` — the canonical encoding tells values apart

Every type the journal and the request digest hash is coded here (`Coded`), with
its values and its canonical bytes, vectors and options of coded types included.
Each encoding is delimited, so it is injective, none is at the start of another,
and fields written one after the other are told apart again.

Nothing is assumed.  What is hashed of the bytes, and what that hash tells, is in
`Rescind.Safety.Bindings` and `Rescind.Safety.Tampering`.

**Proved here.**

    every encoding is delimited                          (`Coded.delimited`)
    so is a record's worth of fields                     (`Coded.delimited_fields`)
    the canonical encoding tells values apart            (`canon_tells`)
-/
import Rescind.Core.Request

namespace Rescind

open Lib Canon

/-- The types with a canonical encoding. -/
inductive Coded where
  | u64 | u32 | bool | str | hash | scope | event | body | request | scopedMsg
  | vec (t : Coded)
  | option (t : Coded)

namespace Coded

/-- The values of a type. -/
abbrev Value : Coded → Type
  | .u64 => UInt64
  | .u32 => UInt32
  | .bool => Bool
  | .str => Str
  | .hash => Journal.Hash
  | .scope => Journal.Scope
  | .event => Journal.Event
  | .body => Journal.Body
  | .request => Digest.Request
  | .scopedMsg => Digest.Scoped
  | .vec t => Vec t.Value
  | .option t => Option t.Value

/-- The canonical bytes of a value. -/
def canon : (t : Coded) → t.Value → List UInt8
  | .u64, n => Canon.u64 n
  | .u32, n => Canon.u32 n
  | .bool, b => Canon.bool b
  | .str, s => Canon.str s
  | .hash, h => Journal.Hash.canon h
  | .scope, s => Journal.Scope.canon s
  | .event, e => Journal.Event.canon e
  | .body, b => Journal.Body.canon b
  | .request, r => Digest.Request.canon r
  | .scopedMsg, s => Digest.Scoped.canon s
  | .vec t, v => Canon.list t.canon v
  | .option t, o => Canon.option t.canon o

theorem delimited (t : Coded) : Delimited t.canon := by
  induction t with
  | u64 => exact delimited_u64
  | u32 => exact delimited_u32
  | bool => exact delimited_bool
  | str => exact delimited_str
  | hash => exact Journal.delimited_hash
  | scope => exact Journal.delimited_scope
  | event => exact Journal.delimited_event
  | body => exact Journal.delimited_body
  | request => exact Digest.delimited_request
  | scopedMsg => exact Digest.delimited_scoped
  | vec t ih => exact delimited_list ih
  | option t ih => exact delimited_option ih

/-! ## Fields, one after the other -/

/-- A value of each type. -/
abbrev Values : List Coded → Type
  | [] => Unit
  | t :: ts => t.Value × Values ts

/-- Their canonical bytes, one after the other. -/
def canonAll : (ts : List Coded) → Values ts → List UInt8
  | [], _ => []
  | t :: ts, (v, vs) => t.canon v ++ canonAll ts vs

theorem delimited_fields (ts : List Coded) : Delimited (canonAll ts) := by
  induction ts with
  | nil => exact ⟨fun h => ⟨rfl, h⟩⟩
  | cons t ts ih => exact t.delimited.both ih

end Coded

/-- **The canonical encoding tells values apart.**  Values of one type that are
encoded alike are the same, no value's encoding is at the start of another's, and
neither are the fields of two records. -/
theorem canon_tells :
    (∀ (t : Coded) (a b : t.Value), t.canon a = t.canon b → a = b) ∧
    (∀ (t : Coded) (a b : t.Value), t.canon a <+: t.canon b → t.canon a = t.canon b) ∧
    ∀ (ts : List Coded) (vs ws : Coded.Values ts),
      Coded.canonAll ts vs <+: Coded.canonAll ts ws → vs = ws := by
  refine ⟨fun t a b h => t.delimited.injective h, fun t a b h => ?_, fun ts vs ws h => ?_⟩
  · rw [t.delimited.prefix_eq h]
  · exact (Coded.delimited_fields ts).prefix_eq h

end Rescind
