/-
# `Rescind.Safety.Tampering` — the last hash commits to the whole journal

In a chain that `verify` accepts each entry's hash is taken of its previous
hash and of the canonical bytes of its body, which are delimited.  So where no
two of the byte strings hashed collide, equal hashes have equal bodies, and equal
bodies have equal previous hashes: going backwards from the head, two chains of
the same head are the same throughout.

SHA-256 as a whole cannot be injective, so what is asked of it is asked of the
two chains at hand (`CollisionFree`).

**Proved here.**

    an appended chain verifies                                (`linked_appended`)
    the same head, the same bodies                            (`bodies_of_head`)
    the same head, the same length                            (`length_of_head`)
-/
import Mathlib.Data.List.Induction
import Rescind.Core.Journal

namespace Rescind.Journal

open Lib Canon

variable {sha256 : List UInt8 → Hash}

/-- The bytes an entry's hash is taken of. -/
def hashed (e : Entry) : List UInt8 := e.prevHash.bytes ++ bodyBytes e

/-- No two byte strings hashed for the two chains collide. -/
def CollisionFree (sha256 : List UInt8 → Hash) (c c' : List Entry) : Prop :=
  ∀ e ∈ c, ∀ e' ∈ c', sha256 (hashed e) = sha256 (hashed e') → hashed e = hashed e'

/-- The hash of the last entry. -/
def headHash (c : List Entry) : Option Hash := c.getLast?.map Entry.hash

/-- A chain extended by entries about these notes, in order. -/
def appended (sha256 : List UInt8 → Hash) (chain : List Entry) (notes : List Note) : List Entry :=
  notes.foldl (fun c n => c ++ [append sha256 c n]) chain

theorem linked_appended {chain : List Entry} (h : Linked sha256 none chain) (notes : List Note) :
    Linked sha256 none (appended sha256 chain notes) := by
  induction notes generalizing chain with
  | nil => exact h
  | cons n notes ih => exact ih (linked_snoc h (follows_append chain n))

/-! ## Backwards from the head -/

theorem hashed_inj {e e' : Entry} (h : hashed e = hashed e') : e.body = e'.body := by
  obtain ⟨-, hb⟩ := List.append_inj h (e.prevHash.size.trans e'.prevHash.size.symm)
  exact bodyBytes_inj hb

/-- Entries of one hash have one body. -/
theorem body_of_hash {p p' : Option Entry} {e e' : Entry} (h : Follows sha256 p e)
    (h' : Follows sha256 p' e') (he : e.hash = e'.hash)
    (hf : sha256 (hashed e) = sha256 (hashed e') → hashed e = hashed e') : e.body = e'.body := by
  refine hashed_inj (hf ?_)
  have hs : sha256 (hashed e) = e.hash := h.hash
  have hs' : sha256 (hashed e') = e'.hash := h'.hash
  rw [hs, hs', he]

theorem CollisionFree.tail {a b : Entry} {c c' : List Entry}
    (h : CollisionFree sha256 (a :: c) (b :: c')) : CollisionFree sha256 c c' :=
  fun e he e' he' => h e (List.mem_cons_of_mem _ he) e' (List.mem_cons_of_mem _ he')

theorem bodies_of_head {p p' : Option Entry} {c c' : List Entry} (h : Linked sha256 p c)
    (h' : Linked sha256 p' c') (hl : c.length = c'.length) (hh : headHash c = headHash c')
    (hf : CollisionFree sha256 c c') : c.map Entry.body = c'.map Entry.body := by
  induction c generalizing c' p p' with
  | nil =>
      obtain rfl := List.length_eq_zero_iff.mp hl.symm
      rfl
  | cons a c ih =>
      cases c' with
      | nil => cases hl
      | cons b c' =>
          have hab : a.hash = b.hash → a.body = b.body := fun he =>
            body_of_hash h.1 h'.1 he (hf a List.mem_cons_self b List.mem_cons_self)
          cases c with
          | nil =>
              obtain rfl := List.length_eq_zero_iff.mp (Nat.succ.inj hl).symm
              have he : a.hash = b.hash := Option.some.inj hh
              simp [hab he]
          | cons a₂ c =>
              cases c' with
              | nil => cases hl
              | cons b₂ c' =>
                  have hh' : headHash (a₂ :: c) = headHash (b₂ :: c') := by
                    simpa [headHash, List.getLast?_cons_cons] using hh
                  have hrest := ih h.2 h'.2 (Nat.succ.inj hl) hh' hf.tail
                  -- the second entries have one body, so one previous hash: the first entries' hashes
                  have hprev : a₂.prevHash = b₂.prevHash :=
                    congrArg Body.prevHash (List.cons.inj hrest).1
                  have he : a.hash = b.hash := by
                    rw [← show a₂.prevHash = a.hash from h.2.1.prevHash,
                      ← show b₂.prevHash = b.hash from h'.2.1.prevHash, hprev]
                  exact congrArg₂ List.cons (hab he) hrest

/-! ## The length of a chain -/

/-- Sequence numbers count the entries. -/
theorem seq_of_last {c : List Entry} {e : Entry} (h : Linked sha256 none (c ++ [e])) :
    e.seq = UInt64.ofNat (c.length + 1) := by
  induction c using List.reverseRecOn generalizing e with
  | nil => exact h.1.seq
  | append_singleton c d ih =>
      obtain ⟨hc, he⟩ := linked_append.mp h
      have hd := ih hc
      have hs := he.1.seq
      rw [List.getLast?_concat, Option.some_or, Option.map_some, Option.getD_some, hd] at hs
      rw [hs, List.length_append, List.length_singleton]
      simp [UInt64.ofNat_add]

theorem length_of_head {c c' : List Entry} (h : Linked sha256 none c) (h' : Linked sha256 none c')
    (hh : headHash c = headHash c') (hf : CollisionFree sha256 c c') (hc : c.length < 2 ^ 64)
    (hc' : c'.length < 2 ^ 64) : c.length = c'.length := by
  induction c using List.reverseRecOn with
  | nil =>
      cases c' using List.reverseRecOn with
      | nil => rfl
      | append_singleton c' e' => simp [headHash] at hh
  | append_singleton c e =>
      cases c' using List.reverseRecOn with
      | nil => simp [headHash] at hh
      | append_singleton c' e' =>
          have he : e.hash = e'.hash := by simpa [headHash] using hh
          have hb := body_of_hash (linked_append.mp h).2.1 (linked_append.mp h').2.1 he
            (hf e (by simp) e' (by simp))
          have hs : e.seq = e'.seq := congrArg Body.seq hb
          rw [seq_of_last h, seq_of_last h'] at hs
          rw [List.length_append, List.length_singleton] at hc hc' ⊢
          have hn := congrArg UInt64.toNat hs
          rw [UInt64.toNat_ofNat', UInt64.toNat_ofNat', Nat.mod_eq_of_lt hc, Nat.mod_eq_of_lt hc'] at hn
          rw [hn, List.length_append, List.length_singleton]

/-- **The journal shows tampering.**  Events appended in order to the empty
journal, or to a chain that verifies, give a chain that verifies; and of two
chains that verify with the same last hash, among whose hashed bytes nothing
collides, the entries have the same bodies throughout when they are as many,
and they are as many. -/
theorem tampering_shows (sha256 : List UInt8 → Hash) :
    (∀ notes, verify sha256 (appended sha256 [] notes) = .ok ()) ∧
      (∀ chain notes, verify sha256 chain = .ok () →
        verify sha256 (appended sha256 chain notes) = .ok ()) ∧
      ∀ c c', verify sha256 c = .ok () → verify sha256 c' = .ok () →
        headHash c = headHash c' → CollisionFree sha256 c c' →
        (c.length = c'.length → c.map Entry.body = c'.map Entry.body) ∧
          (c.length < 2 ^ 64 → c'.length < 2 ^ 64 → c.length = c'.length) := by
  refine ⟨fun notes => verify_iff.mpr (linked_appended (show Linked sha256 none [] from trivial) notes),
    fun chain notes h => verify_iff.mpr (linked_appended (verify_iff.mp h) notes), ?_⟩
  intro c c' h h' hh hf
  have hl := verify_iff.mp h
  have hl' := verify_iff.mp h'
  exact ⟨fun hlen => bodies_of_head hl hl' hlen hh hf, length_of_head hl hl' hh hf⟩

/-! ## A journal of two entries, and the same signed -/

namespace TwoEntries

def checked : Note :=
  { at_ := 1, plan := ⟨"p", by decide⟩, inst := ⟨"p.web.00000000", by decide⟩
    host := ⟨"web", by decide⟩, event := ⟨.checked, ()⟩, secretLabels := .empty }

def requested : Note := { checked with at_ := 2, event := ⟨.requested, ()⟩ }

def bodyOf (seq : UInt64) (prevHash : Hash) (n : Note) : Body :=
  ⟨seq, prevHash, n.at_, n.plan, n.inst, n.host, n.event, n.secretLabels⟩

def first : Hash :=
  ⟨[0x6f, 0x3d, 0x9d, 0x13, 0x53, 0xfa, 0x30, 0xbb, 0x4c, 0x4f, 0x21, 0xf3,
    0x43, 0x25, 0x7c, 0x0c, 0x8e, 0xd8, 0xbf, 0x31, 0x3a, 0xeb, 0x14, 0x2d,
    0x70, 0xd8, 0x31, 0xde, 0x37, 0x11, 0xfc, 0xdb], rfl⟩

def second : Hash :=
  ⟨[0xd2, 0xe1, 0xcc, 0x94, 0x4c, 0x8c, 0x68, 0x87, 0x27, 0xe9, 0x63, 0xf9,
    0xb8, 0x1f, 0x35, 0x75, 0x2d, 0x45, 0xc9, 0x95, 0x29, 0xa5, 0x9e, 0xb8,
    0x5d, 0x41, 0xe2, 0xb0, 0xe6, 0x82, 0x61, 0x98], rfl⟩

/-- SHA-256 of the two byte strings hashed here. -/
def digest (bytes : List UInt8) : Hash :=
  if bytes = Hash.zero.bytes ++ message domain (bodyOf 1 Hash.zero checked).canon then first
  else if bytes = first.bytes ++ message domain (bodyOf 2 first requested).canon then second
  else Hash.zero

def chain : List Entry := appended digest [] [checked, requested]

def signed : List Entry :=
  chain.map fun e => { e with sig := some ⟨⟨"rue-journal", by decide⟩, ⟨"00", by decide⟩⟩ }

theorem signed_same : verify digest chain = .ok () ∧ verify digest signed = .ok () ∧
    CollisionFree digest chain signed ∧ chain.map Entry.body = signed.map Entry.body := by
  have hv : verify digest chain = .ok () := by decide +kernel
  have hs : verify digest signed = .ok () := by decide +kernel
  have hf : CollisionFree digest chain signed := by
    unfold CollisionFree
    decide +kernel
  have hh : headHash chain = headHash signed := by decide +kernel
  have hl : chain.length = signed.length := by simp [signed]
  exact ⟨hv, hs, hf, ((tampering_shows digest).2.2 chain signed hv hs hh hf).1 hl⟩

end TwoEntries

end Rescind.Journal
