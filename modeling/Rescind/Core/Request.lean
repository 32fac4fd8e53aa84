/-
# `Rescind.Core.Request` — the request digest and its scoped forms

A proof binds to a digest of the request, and outside plan entry to a digest of
the scope, the request's digest and the step.  SHA-256 is a parameter, and what
is asked of it is asked of the byte strings at hand (`CollisionFree`).

**Proved here.**

    the canonical bytes of a request are delimited          (`delimited_request`)
    so are those of a scoped digest's message               (`delimited_scoped`)
    requests and scopes of one scoped digest are alike      (`scopedDigest_inj`)
-/
import Rescind.Core.Journal

namespace Rescind.Digest

open Lib Canon
open Rescind.Journal (Hash Scope delimited_hash)

/-! ## Requests -/

def domain : String := "rue-request"

structure Request where
  /-- 32 bytes from the engine's CSPRNG. -/
  nonce : { bytes : List UInt8 // bytes.length = 32 }
  planId : Str
  inst : Str
  ownerHost : Str
  paramsHash : Hash
  hostContractHash : Hash
  /-- In seconds. -/
  wane : Option UInt64
  requestedAt : UInt64
  gateHash : Hash
  planContentHash : Hash
  deriving DecidableEq

def Request.canon (r : Request) : List UInt8 :=
  record 10 ++ (octets r.nonce.1 ++ (str r.planId ++ (str r.inst ++ (str r.ownerHost ++
    (r.paramsHash.canon ++ (r.hostContractHash.canon ++ (option u64 r.wane ++
      (u64 r.requestedAt ++ (r.gateHash.canon ++ r.planContentHash.canon)))))))))

/-- What a step's or an acknowledgement's digest is over: the scope's name, the
request's digest and the step. -/
structure Scoped where
  request : Hash
  name : Str
  n : UInt32

def Scoped.canon (s : Scoped) : List UInt8 :=
  record 3 ++ (str s.name ++ (s.request.canon ++ u32 s.n))

def step : Str := ⟨"step", by decide⟩

def ack : Str := ⟨"ack", by decide⟩

section
variable (sha256 : List UInt8 → Hash)

/-- `H(canonical(request))`, domain-separated. -/
def requestDigest (r : Request) : Hash := sha256 (message domain r.canon)

/-- The digest a proof binds to in a scope: the request's own for plan entry, so
that a proof for one step or scope verifies for no other. -/
def scopedDigest (request : Hash) : Scope → Hash
  | .plan => request
  | .step n => sha256 (message domain (Scoped.canon ⟨request, step, n⟩))
  | .ack n => sha256 (message domain (Scoped.canon ⟨request, ack, n⟩))

end

/-! ## Both are delimited -/

theorem delimited_request : Delimited Request.canon := by
  constructor
  intro a b r s h
  have fits : ∀ q : Request, q.nonce.1.length < 2 ^ 64 := fun q => by
    rw [q.nonce.2]
    decide
  simp only [Request.canon, List.append_assoc] at h
  obtain ⟨hnonce, h⟩ := cut_octets (fits a) (fits b) (List.append_cancel_left h)
  obtain ⟨hplan, h⟩ := delimited_str.cut h
  obtain ⟨hinst, h⟩ := delimited_str.cut h
  obtain ⟨howner, h⟩ := delimited_str.cut h
  obtain ⟨hparams, h⟩ := delimited_hash.cut h
  obtain ⟨hcontract, h⟩ := delimited_hash.cut h
  obtain ⟨hwane, h⟩ := (delimited_option delimited_u64).cut h
  obtain ⟨hat, h⟩ := delimited_u64.cut h
  obtain ⟨hgate, h⟩ := delimited_hash.cut h
  obtain ⟨hcontent, hr⟩ := delimited_hash.cut h
  have hnonce : a.nonce = b.nonce := Subtype.ext hnonce
  refine ⟨?_, hr⟩
  cases a
  cases b
  simp_all

theorem delimited_scoped : Delimited Scoped.canon := by
  constructor
  intro a b r s h
  simp only [Scoped.canon, List.append_assoc] at h
  obtain ⟨hname, h⟩ := delimited_str.cut (List.append_cancel_left h)
  obtain ⟨hreq, h⟩ := delimited_hash.cut h
  obtain ⟨hn, hr⟩ := delimited_u32.cut h
  refine ⟨?_, hr⟩
  cases a
  cases b
  simp_all

/-- A request is not written like a scoped digest's message. -/
theorem canon_request_ne_scoped (r : Request) (s : Scoped) : r.canon ≠ s.canon := by
  intro h
  have hb : beBytes 8 10 = beBytes 8 3 := (List.append_inj (List.cons.inj h).2 (by simp)).1
  exact absurd hb (by decide)

/-! ## One digest, one request and one scope -/

section
variable {sha256 : List UInt8 → Hash}

theorem message_inj {a b : List UInt8} (h : message domain a = message domain b) : a = b :=
  List.append_cancel_left h

/-- The message a scoped digest is over, outside plan entry. -/
def scopedOf (request : Hash) : Scope → Option Scoped
  | .plan => none
  | .step n => some ⟨request, step, n⟩
  | .ack n => some ⟨request, ack, n⟩

theorem scopedDigest_of_some {request : Hash} {scope : Scope} {m : Scoped}
    (h : scopedOf request scope = some m) :
    scopedDigest sha256 request scope = sha256 (message domain m.canon) := by
  cases scope with
  | plan => cases h
  | step n | ack n =>
      cases h
      rfl

/-- A message tells its scope and its request. -/
theorem scopedOf_inj {h₁ h₂ : Hash} {s₁ s₂ : Scope} {m : Scoped} (h : scopedOf h₁ s₁ = some m)
    (h' : scopedOf h₂ s₂ = some m) : s₁ = s₂ ∧ h₁ = h₂ := by
  have hne : step ≠ ack := by decide
  cases s₁ with
  | plan => cases h
  | step n =>
      cases h
      cases s₂ with
      | plan => cases h'
      | step k =>
          cases h'
          exact ⟨rfl, rfl⟩
      | ack k => exact absurd (congrArg Scoped.name (Option.some.inj h')).symm hne
  | ack n =>
      cases h
      cases s₂ with
      | plan => cases h'
      | step k => exact absurd (congrArg Scoped.name (Option.some.inj h')) hne
      | ack k =>
          cases h'
          exact ⟨rfl, rfl⟩

theorem plan_of_scopedOf {request : Hash} {scope : Scope} (h : scopedOf request scope = none) :
    scope = .plan := by
  cases scope with
  | plan => rfl
  | step n | ack n => cases h

/-- The bytes hashed for a request's digest in a scope. -/
def hashedFor (sha256 : List UInt8 → Hash) (r : Request) (scope : Scope) : List (List UInt8) :=
  message domain r.canon ::
    ((scopedOf (requestDigest sha256 r) scope).map fun m => message domain m.canon).toList

/-- No two byte strings hashed for the two collide. -/
def CollisionFree (sha256 : List UInt8 → Hash) (r₁ r₂ : Request) (s₁ s₂ : Scope) : Prop :=
  ∀ a ∈ hashedFor sha256 r₁ s₁, ∀ b ∈ hashedFor sha256 r₂ s₂, sha256 a = sha256 b → a = b

theorem mem_hashedFor_request (sha256 : List UInt8 → Hash) (r : Request) (scope : Scope) :
    message domain r.canon ∈ hashedFor sha256 r scope := List.mem_cons_self

theorem mem_hashedFor_scoped {r : Request} {scope : Scope} {m : Scoped}
    (h : scopedOf (requestDigest sha256 r) scope = some m) :
    message domain m.canon ∈ hashedFor sha256 r scope := by
  unfold hashedFor
  rw [h]
  exact List.mem_cons_of_mem _ List.mem_cons_self

/-- One digest, one request and one scope. -/
theorem scopedDigest_inj {r₁ r₂ : Request} {s₁ s₂ : Scope} (hf : CollisionFree sha256 r₁ r₂ s₁ s₂)
    (h : scopedDigest sha256 (requestDigest sha256 r₁) s₁ =
      scopedDigest sha256 (requestDigest sha256 r₂) s₂) : s₁ = s₂ ∧ r₁ = r₂ := by
  have hr₁ := mem_hashedFor_request sha256 r₁ s₁
  have hr₂ := mem_hashedFor_request sha256 r₂ s₂
  have requests : requestDigest sha256 r₁ = requestDigest sha256 r₂ → r₁ = r₂ :=
    fun h => delimited_request.injective (message_inj (hf _ hr₁ _ hr₂ h))
  cases hm₁ : scopedOf (requestDigest sha256 r₁) s₁ with
  | none =>
      obtain rfl := plan_of_scopedOf hm₁
      cases hm₂ : scopedOf (requestDigest sha256 r₂) s₂ with
      | none =>
          obtain rfl := plan_of_scopedOf hm₂
          exact ⟨rfl, requests h⟩
      | some m =>
          rw [scopedDigest_of_some hm₂] at h
          have he := message_inj (hf _ hr₁ _ (mem_hashedFor_scoped hm₂) h)
          exact absurd he (canon_request_ne_scoped r₁ m)
  | some m₁ =>
      rw [scopedDigest_of_some hm₁] at h
      have hs₁ := mem_hashedFor_scoped hm₁
      cases hm₂ : scopedOf (requestDigest sha256 r₂) s₂ with
      | none =>
          obtain rfl := plan_of_scopedOf hm₂
          have he := message_inj (hf _ hs₁ _ hr₂ h)
          exact absurd he.symm (canon_request_ne_scoped r₂ m₁)
      | some m₂ =>
          rw [scopedDigest_of_some hm₂] at h
          have he := message_inj (hf _ hs₁ _ (mem_hashedFor_scoped hm₂) h)
          obtain rfl := delimited_scoped.injective he
          obtain ⟨hs, hd⟩ := scopedOf_inj hm₁ hm₂
          exact ⟨hs, requests hd⟩

end

end Rescind.Digest
