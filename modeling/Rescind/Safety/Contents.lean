/-
# `Rescind.Safety.Contents` — canonical JSON as an identity

The canonical text of a value does not depend on the order its maps were built in,
tells it from every other value, and is read back as long as the value is no deeper
than `serde_json` reads.  What the request's digest holds of its parameters, gate
and plan therefore tells them apart, as far as SHA-256 tells their texts.

The depth is not hypothetical: 128 arrays inside one another are written, and their
text is refused (`too_deep`).

That the contents' own serialization reads back is assumed (`Derived`); a gate and a
plan as `Core.Serialized` writes them are such contents (`plans_identified`).
-/
import Rescind.Core.Canonical
import Rescind.Core.Serialized

namespace Rescind.Contents

open Lib Lib.Json Canonical

/-! ## Too deep to read -/

/-- Arrays inside one another. -/
def nested (n : Nat) : Json.Value Empty := (fun v => .array [v])^[n] .null

theorem nested_succ (n : Nat) : nested (n + 1) = .array [nested n] :=
  Function.iterate_succ_apply' _ n _

theorem ordered_nested (n : Nat) : (nested n).Ordered := by
  induction n with
  | zero => trivial
  | succ n ih =>
      rw [nested_succ]
      exact ⟨ih, trivial⟩

theorem whole_nested (n : Nat) : (nested n).whole = true := by
  induction n with
  | zero => rfl
  | succ n ih =>
      rw [nested_succ, Json.Value.whole, Json.Value.wholeItems, ih]
      rfl

theorem nesting_nested (n : Nat) : nesting (nested n) = n := by
  induction n with
  | zero => rfl
  | succ n ih =>
      rw [nested_succ, nesting, nestingItems, nestingItems, ih, Nat.max_zero]

/-- There are no fractions. -/
def fractionless : Floats Empty := ⟨Empty.elim, fun _ => none⟩

theorem too_deep : ¬∀ (v : Held Empty) (t : Bytes), encode fractionless v = .ok t →
    fromSlice fractionless t = some v.1 := by
  intro h
  have ht : encode fractionless ⟨nested 128, ordered_nested 128⟩ = .ok _ :=
    encode_eq_ok.mpr ⟨whole_nested 128, rfl⟩
  have hread := (fromSlice_encode ht).symm.trans (h _ _ ht)
  rw [nesting_nested, if_neg (by decide)] at hread
  cases hread

/-! ## One text, one value -/

/-- A value whose maps were filled in some order. -/
def hold {F : Type} (v : Json.Value F) : Held F := ⟨kept v, ordered_kept v⟩

/-- What a request holds of contents with derived serialization tells them apart. -/
def Identifies {F : Type} (fs : Floats F) (sha256 : Bytes → Journal.Hash) {α : Type} (d : Derived F α) :
    Prop :=
  ∀ a b, Apart fs sha256 (d.toValue a) (d.toValue b) →
    hashOr fs sha256 (d.toValue a) = hashOr fs sha256 (d.toValue b) → a = b

theorem canonical_identity {F G P : Type} (fs : Floats F) (sha256 : Bytes → Journal.Hash)
    (gates : Derived F (Option G)) (plans : Derived F P) :
    (∀ v w : Json.Value F, Reordered v w → encode fs (hold v) = encode fs (hold w)) ∧
      (∀ v t, encode fs v = .ok t → ∀ w, encode fs w = .ok t ↔ w = v) ∧
      (∀ v t, encode fs v = .ok t →
        fromSlice fs t = if nesting v.1 ≤ 127 then some v.1 else none) ∧
      (∀ v, (∃ t, encode fs v = .ok t) ↔ ¬∃ path f, At v.1 path (.number (.float f))) ∧
      Identifies fs sha256 ofParams ∧ Identifies fs sha256 gates ∧ Identifies fs sha256 plans := by
  refine ⟨?order, ?apart, ?back, fun v => encode_isOk, ?_, ?_, ?_⟩
  case order =>
    intro v w h
    have hk : hold v = hold w := Subtype.ext (kept_eq_of_reordered h)
    rw [hk]
  case apart =>
    intro v t h w
    constructor
    · exact fun h' => encode_inj h' h
    · rintro rfl
      exact h
  case back => exact fun v t h => fromSlice_encode h
  all_goals exact fun a b ha h => Derived.hash_inj _ ha h

/-! ## Gates and plans -/

/-- What is written as JSON is read back as what it was written for. -/
noncomputable def written (F α : Type) [Json.Field F α] : Derived F α where
  toValue a := ⟨Json.toValue a, Json.ordered_toValue⟩
  ofValue v := by
    classical
    exact if h : ∃ a : α, Json.toValue a = v.1 then some h.choose else none
  back a := by
    have h : ∃ b : α, Json.toValue (F := F) b = Json.toValue a := ⟨a, rfl⟩
    rw [dif_pos h]
    exact congrArg some (Json.toValue_inj.mp h.choose_spec)
  integers _ := Json.whole_toValue

/-- The first 32 bytes, and noughts where there are fewer. -/
def head32 (bs : Bytes) : Journal.Hash := ⟨(bs ++ List.replicate 32 0).take 32, by simp⟩

theorem plans_identified : Identifies fractionless head32 ofParams ∧
    Identifies fractionless head32 (written Empty (Option PlanGate)) ∧
    Identifies fractionless head32 (written Empty Plan) :=
  (canonical_identity fractionless head32 (written Empty (Option PlanGate)) (written Empty Plan)).2.2.2.2

end Rescind.Contents
