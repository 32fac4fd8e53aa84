/-
# `Rescind.Core.Canonical` — canonical JSON and the hashes of contents

A value is written canonically if every number in it is held as an integer; the
text is the pretty form and a newline.  It is read by a reader that stops at a
depth.  How `serde_json` makes a value of a gate or a plan is a parameter; a map
of parameters is an object of strings.

**Proved here.**

    what is refused has a number that is no integer, at the path of the refusal
                                                      (`encode_error`)
    a canonical text is read back up to the reader's depth
                                                      (`fromSlice_encode`)
    canonical texts tell values apart                 (`encode_inj`)
    and so do the hashes, where SHA-256 does          (`hashJson_inj`)
-/
import Rescind.Core.Journal
import Rescind.Lib.Json

namespace Rescind.Canonical

open Lib Lib.Json

variable {F : Type}

/-! ## Canonical text -/

/-- A value as `serde_json` holds it: its maps are in key order. -/
abbrev Held (F : Type) := { v : Json.Value F // v.Ordered }

inductive CanonicalError where
  /-- A number that is not an integer, at the given path (`$.a[2].b`). -/
  | nonInteger (path : List Char)
  deriving DecidableEq

def index (i : Nat) : List Char := '[' :: Nat.toDigits 10 i ++ [']']

mutual

def checkIntegers (path : List Char) : Json.Value F → Except CanonicalError Unit
  | .number (.float _) => .error (.nonInteger path)
  | .array items => checkItems path 0 items
  | .object map => checkMembers path map
  | _ => .ok ()

def checkItems (path : List Char) (i : Nat) : List (Json.Value F) → Except CanonicalError Unit
  | [] => .ok ()
  | item :: items => do
      checkIntegers (path ++ index i) item
      checkItems path (i + 1) items

def checkMembers (path : List Char) : List (String × Json.Value F) → Except CanonicalError Unit
  | [] => .ok ()
  | (k, v) :: map => do
      checkIntegers (path ++ '.' :: k.toList) v
      checkMembers path map

end

section
variable (fs : Floats F)

/-- Encode a value canonically, or say why it cannot be. -/
def encode (value : Held F) : Except CanonicalError Bytes := do
  checkIntegers ['$'] value.1
  pure (Bytes.ofText (print fs value.1 ++ ['\n']))

/-- How deep `serde_json` reads. -/
def depth : Nat := 127

def fromSlice (bytes : Bytes) : Option (Json.Value F) := do
  let text ← Bytes.text? bytes
  parse fs depth text

/-! ## Hashes -/

variable (sha256 : Bytes → Journal.Hash)

/-- SHA-256 of a value's canonical JSON, for `params_hash`, `gate_hash` and
`plan_content_hash`. -/
def hashJson (v : Held F) : Except CanonicalError Journal.Hash := (encode fs v).map sha256

/-- The digest of what is written canonically, else zero. -/
def hashOr (v : Held F) : Journal.Hash :=
  match hashJson fs sha256 v with
  | .ok h => h
  | .error _ => Journal.Hash.zero

/-- SHA-256 tells the texts of two values apart, if they have any. -/
def Apart (v w : Held F) : Prop :=
  ∀ t t', encode fs v = .ok t → encode fs w = .ok t' → sha256 t = sha256 t' → t = t'

end

/-- A type with derived serialization: its values are read back, and their numbers
are integers. -/
structure Derived (F α : Type) where
  toValue : α → Held F
  ofValue : Held F → Option α
  back : ∀ a, ofValue (toValue a) = some a
  integers : ∀ a, (toValue a).1.whole = true

/-- Named texts, in the order of their names. -/
abbrev Params := { m : Assoc String String // Assoc.Sorted m }

def members (m : Assoc String String) : List (String × Json.Value F) := m.map fun kv => (kv.1, .string kv.2)

def textOf : Json.Value F → Option String
  | .string s => some s
  | _ => none

def texts (ms : List (String × Json.Value F)) : Assoc String String :=
  ms.filterMap fun m => (textOf m.2).map fun s => (m.1, s)

def readParams : Json.Value F → Option Params
  | .object ms =>
      if h : (texts ms).Pairwise fun (a b : String × String) => a.1 < b.1 then some ⟨texts ms, h⟩ else none
  | _ => none

theorem ordered_members (m : Assoc String String) : Json.Value.OrderedMembers (members (F := F) m) := by
  induction m with
  | nil => trivial
  | cons kv m ih => exact ⟨trivial, ih⟩

theorem whole_members (m : Assoc String String) :
    Json.Value.wholeMembers (members (F := F) m) = true := by
  induction m with
  | nil => rfl
  | cons kv m ih => exact ih

theorem texts_members (m : Assoc String String) : texts (members (F := F) m) = m := by
  induction m with
  | nil => rfl
  | cons kv m ih => exact congrArg (kv :: ·) ih

/-- A map of texts is written as an object of strings. -/
def ofParams : Derived F Params where
  toValue m := ⟨.object (members m.1), List.pairwise_map.mpr m.2, ordered_members m.1⟩
  ofValue v := readParams v.1
  back m := by
    have ht := texts_members (F := F) m.1
    have hs : (texts (members (F := F) m.1)).Pairwise fun a b => a.1 < b.1 := ht.symm ▸ m.2
    rw [readParams, dif_pos hs]
    exact congrArg some (Subtype.ext ht)
  integers m := whole_members m.1

/-! ## Refusals -/

theorem checkIntegers_iff {v : Json.Value F} (path : List Char) :
    checkIntegers path v = .ok () ↔ v.whole = true := by
  induction v using Json.Value.parts generalizing path with
  | null => exact iff_of_true rfl rfl
  | bool b => exact iff_of_true rfl rfl
  | number n =>
      cases n with
      | integer n h => exact iff_of_true rfl rfl
      | float f => exact iff_of_false (fun h => by cases h) Bool.false_ne_true
  | string s => exact iff_of_true rfl rfl
  | array xs ih =>
      have hitems : ∀ i, checkItems path i xs = .ok () ↔ Json.Value.wholeItems xs = true := by
        induction xs with
        | nil => exact fun i => iff_of_true rfl rfl
        | cons x xs ih' =>
            intro i
            have hx := ih x List.mem_cons_self (path ++ index i)
            have hxs := ih' (fun y hy => ih y (List.mem_cons_of_mem _ hy)) (i + 1)
            rw [checkItems, Json.Value.wholeItems, Bool.and_eq_true, ← hx, ← hxs]
            cases checkIntegers (path ++ index i) x with
            | error e => exact iff_of_false (fun h => by cases h) fun h => by cases h.1
            | ok u => exact ⟨fun h => ⟨rfl, h⟩, And.right⟩
      exact hitems 0
  | object ms ih =>
      have hmembers : checkMembers path ms = .ok () ↔ Json.Value.wholeMembers ms = true := by
        induction ms with
        | nil => exact iff_of_true rfl rfl
        | cons m ms ih' =>
            obtain ⟨k, v⟩ := m
            have hv := ih (k, v) List.mem_cons_self (path ++ '.' :: k.toList)
            have hms := ih' fun n hn => ih n (List.mem_cons_of_mem _ hn)
            rw [checkMembers, Json.Value.wholeMembers, Bool.and_eq_true, ← hv, ← hms]
            cases checkIntegers (path ++ '.' :: k.toList) v with
            | error e => exact iff_of_false (fun h => by cases h) fun h => by cases h.1
            | ok u => exact ⟨fun h => ⟨rfl, h⟩, And.right⟩
      exact hmembers

/-- A part of a value, and its path. -/
inductive At : Json.Value F → List Char → Json.Value F → Prop
  | here (v : Json.Value F) : At v [] v
  | item {xs : List (Json.Value F)} {i : Nat} {x w : Json.Value F} {path : List Char} (h : xs[i]? = some x)
      (rest : At x path w) : At (.array xs) (index i ++ path) w
  | member {ms : List (String × Json.Value F)} {k : String} {x w : Json.Value F} {path : List Char}
      (h : (k, x) ∈ ms) (rest : At x path w) : At (.object ms) ('.' :: k.toList ++ path) w

/-- What is refused has a number that is no integer, at the path of the refusal. -/
theorem checkIntegers_error {v : Json.Value F} {path : List Char} {e : CanonicalError}
    (h : checkIntegers path v = .error e) :
    ∃ p f, e = .nonInteger (path ++ p) ∧ At v p (.number (.float f)) := by
  induction v using Json.Value.parts generalizing path with
  | null => cases h
  | bool b => cases h
  | number n =>
      cases n with
      | integer n h' => cases h
      | float f =>
          cases h
          exact ⟨[], f, congrArg CanonicalError.nonInteger (List.append_nil path).symm, .here _⟩
  | string s => cases h
  | array xs ih =>
      have hitems : ∀ (ys : List (Json.Value F)) i, (∀ j, ys[j]? = xs[i + j]?) →
          checkItems path i ys = .error e →
            ∃ p f, e = .nonInteger (path ++ p) ∧ At (.array xs) p (.number (.float f)) := by
        intro ys
        induction ys with
        | nil =>
            intro i _ h
            cases h
        | cons y ys ih' =>
            intro i hys h
            have hy : xs[i]? = some y := (hys 0).symm
            rw [checkItems] at h
            cases hc : checkIntegers (path ++ index i) y with
            | error e' =>
                rw [hc] at h
                cases h
                obtain ⟨p, f, he, hat⟩ := ih y (List.mem_of_getElem? hy) hc
                exact ⟨index i ++ p, f, by rw [he, List.append_assoc], .item hy hat⟩
            | ok u =>
                rw [hc] at h
                refine ih' (i + 1) (fun j => ?_) h
                rw [← List.getElem?_cons_succ (a := y), hys (j + 1)]
                congr 1
                omega
      exact hitems xs 0 (fun j => by rw [Nat.zero_add]) h
  | object ms ih =>
      have hmembers : ∀ ns : List (String × Json.Value F), (∀ n ∈ ns, n ∈ ms) →
          checkMembers path ns = .error e →
            ∃ p f, e = .nonInteger (path ++ p) ∧ At (.object ms) p (.number (.float f)) := by
        intro ns
        induction ns with
        | nil =>
            intro _ h
            cases h
        | cons n ns ih' =>
            intro hns h
            obtain ⟨k, v⟩ := n
            have hn := hns (k, v) List.mem_cons_self
            rw [checkMembers] at h
            cases hc : checkIntegers (path ++ '.' :: k.toList) v with
            | error e' =>
                rw [hc] at h
                cases h
                obtain ⟨p, f, he, hat⟩ := ih (k, v) hn hc
                exact ⟨'.' :: k.toList ++ p, f, by rw [he, List.append_assoc], .member hn hat⟩
            | ok u =>
                rw [hc] at h
                exact ih' (fun n hn => hns n (List.mem_cons_of_mem _ hn)) h
      exact hmembers ms (fun _ h => h) h

theorem whole_of_at {v w : Json.Value F} {path : List Char} (h : At v path w) (hv : v.whole = true) :
    w.whole = true := by
  induction h with
  | here v => exact hv
  | item h _ ih => exact ih (wholeItems_iff.mp hv _ (List.mem_of_getElem? h))
  | member h _ ih => exact ih (wholeMembers_iff.mp hv _ h)

section
variable {fs : Floats F}

theorem encode_eq_ok {v : Held F} {t : Bytes} :
    encode fs v = .ok t ↔ v.1.whole = true ∧ t = Bytes.ofText (print fs v.1 ++ ['\n']) := by
  rw [← checkIntegers_iff ['$'], encode]
  cases checkIntegers ['$'] v.1 with
  | error e => exact iff_of_false (fun h => by cases h) fun h => by cases h.1
  | ok u =>
      constructor
      · intro h
        cases h
        exact ⟨rfl, rfl⟩
      · rintro ⟨_, rfl⟩
        rfl

/-- What is refused has a number that is no integer, at the path of the refusal. -/
theorem encode_error {v : Held F} {e : CanonicalError} (h : encode fs v = .error e) :
    ∃ p f, e = .nonInteger ('$' :: p) ∧ At v.1 p (.number (.float f)) := by
  rw [encode] at h
  cases hc : checkIntegers ['$'] v.1 with
  | error e' =>
      rw [hc] at h
      cases h
      exact checkIntegers_error hc
  | ok u =>
      rw [hc] at h
      cases h

theorem encode_isOk {v : Held F} :
    (∃ t, encode fs v = .ok t) ↔ ¬∃ p f, At v.1 p (.number (.float f)) := by
  constructor
  · rintro ⟨t, ht⟩ ⟨p, f, hat⟩
    cases whole_of_at hat (encode_eq_ok.mp ht).1
  · intro h
    cases he : encode fs v with
    | ok t => exact ⟨t, rfl⟩
    | error e =>
        obtain ⟨p, f, _, hat⟩ := encode_error he
        exact absurd ⟨p, f, hat⟩ h

/-- A canonical text is read back up to the reader's depth. -/
theorem fromSlice_encode {v : Held F} {t : Bytes} (h : encode fs v = .ok t) :
    fromSlice fs t = if nesting v.1 ≤ depth then some v.1 else none := by
  obtain ⟨hw, rfl⟩ := encode_eq_ok.mp h
  rw [fromSlice, Bytes.text?_ofText]
  refine parse_print fs v.2 hw depth fun c hc => ?_
  rw [List.mem_singleton.mp hc]
  rfl

/-- Canonical texts tell values apart. -/
theorem encode_inj {v w : Held F} {t : Bytes} (h : encode fs v = .ok t) (h' : encode fs w = .ok t) :
    v = w := by
  obtain ⟨hw, rfl⟩ := encode_eq_ok.mp h
  obtain ⟨hw', ht⟩ := encode_eq_ok.mp h'
  have htext := congrArg Bytes.text? ht
  rw [Bytes.text?_ofText, Bytes.text?_ofText, Option.some.injEq] at htext
  exact Subtype.ext (print_inj fs v.2 hw w.2 hw' (List.append_cancel_right htext))

variable {sha256 : Bytes → Journal.Hash}

theorem hashJson_inj {v w : Held F} {h : Journal.Hash} (ha : Apart fs sha256 v w)
    (hv : hashJson fs sha256 v = .ok h) (hw : hashJson fs sha256 w = .ok h) : v = w := by
  rw [hashJson] at hv hw
  cases he : encode fs v with
  | error e =>
      rw [he] at hv
      cases hv
  | ok t =>
      cases he' : encode fs w with
      | error e =>
          rw [he'] at hw
          cases hw
      | ok t' =>
          rw [he] at hv
          rw [he'] at hw
          have hsame : sha256 t = sha256 t' := Except.ok.inj (hv.trans hw.symm)
          obtain rfl := ha t t' he he' hsame
          exact encode_inj he he'

/-- What has only integers is hashed, and never by zero for want of a text. -/
theorem hashOr_eq {v : Held F} (hw : v.1.whole = true) :
    hashJson fs sha256 v = .ok (hashOr fs sha256 v) := by
  have he : encode fs v = .ok _ := encode_eq_ok.mpr ⟨hw, rfl⟩
  rw [hashOr, hashJson, he]
  rfl

/-- A hash tells contents apart, where SHA-256 tells their texts. -/
theorem Derived.hash_inj {α : Type} (d : Derived F α) {a b : α}
    (ha : Apart fs sha256 (d.toValue a) (d.toValue b))
    (h : hashOr fs sha256 (d.toValue a) = hashOr fs sha256 (d.toValue b)) : a = b := by
  have hv : hashJson fs sha256 _ = .ok _ := hashOr_eq (d.integers a)
  have hw : hashJson fs sha256 _ = .ok _ := hashOr_eq (d.integers b)
  rw [← h] at hw
  have hsame := congrArg d.ofValue (hashJson_inj ha hv hw)
  rw [d.back, d.back] at hsame
  exact Option.some.inj hsame

end

end Rescind.Canonical
