/-
# `Rescind.Safety.Bindings` — a proof binds to one request and one scope

The digest a proof is verified for tells the request and the scope
(`Digest.scopedDigest_inj`).  In a run of the engine, what is counted at a gate
was verified for the instance, the scope and the digest it is counted for, and
did not fall since: the record was neither begun anew nor refused for its host
contract.

SHA-256 is a parameter, of which only the texts at hand are asked not to collide.  What
makes a proof verify is the binding's, and not modelled.

**Proved here.**

    one digest, one request and one scope; and what is counted was verified for
    what it is counted for                                  (`proofs_bind`)
-/
import Rescind.Core.Request
import Rescind.Safety.Handings
import Rescind.Turn.Seals

namespace Rescind

open Lib

variable {σ : Type} {E : Setting σ}

/-- A proof of this authenticator was verified for this digest and scope of the
instance, and did not fall since. -/
structure BoundTo (E : Setting σ) (id : String) (scope : Scope) (au : String) (d : Hash)
    (acts : List Act) : Prop where
  verified : VerifiesFor E id scope au d
  proved : ∃ newer older, acts = newer ++ .proved id scope au d :: older ∧
    Act.fresh id ∉ newer ∧ Act.fell id ∉ newer

section
variable {id au : String} {scope : Scope} {d : Hash} {acts : List Act}

theorem proved_of_provedFor (h : provedFor id scope au d acts = true) :
    ∃ newer older, acts = newer ++ .proved id scope au d :: older ∧
      Act.fresh id ∉ newer ∧ Act.fell id ∉ newer := by
  induction acts with
  | nil => cases h
  | cons act acts ih =>
      have skip : provedFor id scope au d acts = true → act ≠ .fresh id → act ≠ .fell id →
          ∃ newer older, act :: acts = newer ++ .proved id scope au d :: older ∧
            Act.fresh id ∉ newer ∧ Act.fell id ∉ newer := by
        intro h hf hl
        obtain ⟨newer, older, rfl, hf', hl'⟩ := ih h
        exact ⟨act :: newer, older, rfl, by simp [hf.symm, hf'], by simp [hl.symm, hl']⟩
      cases act with
      | proved j sc b x =>
          simp only [provedFor, Bool.or_eq_true, Bool.and_eq_true, decide_eq_true_eq] at h
          rcases h with ⟨⟨⟨rfl, rfl⟩, rfl⟩, rfl⟩ | h
          · exact ⟨[], acts, rfl, List.not_mem_nil, List.not_mem_nil⟩
          · exact skip h (fun he => by cases he) (fun he => by cases he)
      | fresh j =>
          simp only [provedFor, Bool.and_eq_true, Bool.not_eq_true', decide_eq_false_iff_not] at h
          exact skip h.2 (fun he => h.1 (Act.fresh.inj he)) (fun he => by cases he)
      | fell j =>
          simp only [provedFor, Bool.and_eq_true, Bool.not_eq_true', decide_eq_false_iff_not] at h
          exact skip h.2 (fun he => by cases he) fun he => h.1 (Act.fell.inj he)
      | _ => exact skip h (fun he => by cases he) (fun he => by cases he)

/-- What is noted of a proof in a justified history was verified. -/
theorem Chronicled.boundTo {older : List Act} (hc : Chronicled E acts) (hs : older <:+ acts)
    (h : provedFor id scope au d older = true) : BoundTo E id scope au d older := by
  obtain ⟨newer, oldest, rfl, hf, hl⟩ := proved_of_provedFor h
  exact ⟨hc.justified ((List.suffix_append _ _).trans hs), newer, oldest, rfl, hf, hl⟩

end

/-- **A proof binds to one request and one scope.**  Where no two byte strings hashed
for them collide, two requests and scopes of one digest are alike.  In every run,
what a gate counts is what a record of the instance holds for the scope, and each
of it was verified for that instance, scope and digest, and did not fall since. -/
theorem proofs_bind :
    (∀ (sha256 : List UInt8 → Journal.Hash) (r₁ r₂ : Digest.Request) (s₁ s₂ : Journal.Scope),
      Digest.CollisionFree sha256 r₁ r₂ s₁ s₂ →
      Digest.scopedDigest sha256 (Digest.requestDigest sha256 r₁) s₁ =
        Digest.scopedDigest sha256 (Digest.requestDigest sha256 r₂) s₂ → s₁ = s₂ ∧ r₁ = r₂) ∧
    ∀ {σ : Type} {E : Setting σ} {w : World σ}, Run E w →
      ∀ (id : String) (scope : Scope) (aus : List String) (d : Hash) (older : List Act),
        (Act.counted id scope aus d :: older) <:+ w.acts →
        Tallied E id scope aus d ∧ ∀ au ∈ aus, BoundTo E id scope au d older := by
  refine ⟨fun _ _ _ _ _ hf h => Digest.scopedDigest_inj hf h, ?_⟩
  intro σ E w h id scope aus d older hs
  obtain ⟨htallied, hproved⟩ := (audited h).told.counted hs
  exact ⟨htallied, fun au hau =>
    (chronicle h).chron.boundTo ((List.suffix_cons _ _).trans hs) (hproved au hau)⟩

/-! ## A proof counted -/

/-- The scopes, authenticators and digests counted for an instance. -/
def countedFor (id : String) (acts : List Act) : List (Scope × List String × Hash) :=
  acts.filterMap fun
    | .counted j scope aus d => if j = id then some (scope, aus, d) else none
    | _ => none

theorem counted_of_countedFor {id : String} {scope : Scope} {aus : List String} {d : Hash}
    {acts : List Act} (h : (scope, aus, d) ∈ countedFor id acts) :
    ∃ older, (Act.counted id scope aus d :: older) <:+ acts := by
  obtain ⟨act, hmem, hact⟩ := List.mem_filterMap.mp h
  cases act with
  | counted j sc as x =>
      have hact : (if j = id then some (sc, as, x) else none) = some (scope, aus, d) := hact
      obtain ⟨rfl, he⟩ := Option.ite_none_right_eq_some.mp hact
      cases he
      obtain ⟨newer, older, rfl⟩ := List.append_of_mem hmem
      exact ⟨older, List.suffix_append _ _⟩
  | _ => cases hact

namespace OneRequest

/-- A digest that tells the lengths of the messages at hand apart. -/
def lengths (bytes : List UInt8) : Journal.Hash :=
  ⟨UInt8.ofNat bytes.length :: List.replicate 31 0, rfl⟩

theorem fits_plan : "p".utf8ByteSize < 2 ^ 64 := by decide

theorem fits_inst : "p.web.00000000".utf8ByteSize < 2 ^ 64 := by decide

theorem fits_host : "web".utf8ByteSize < 2 ^ 64 := by decide

def request : Digest.Request where
  nonce := ⟨List.replicate 32 7, rfl⟩
  planId := ⟨"p", fits_plan⟩
  inst := ⟨"p.web.00000000", fits_inst⟩
  ownerHost := ⟨"web", fits_host⟩
  paramsHash := .zero
  hostContractHash := .zero
  wane := some 3600
  requestedAt := 0
  gateHash := .zero
  planContentHash := .zero

theorem apart : Digest.CollisionFree lengths request request (.step 1) (.ack 1) := by
  unfold Digest.CollisionFree
  decide +kernel

theorem told_proved : UpFront.asked.up = true ∧
    (Scope.step 1, ["alice"], "") ∈ countedFor "p.web.00000000" UpFront.proved.acts := by
  decide +kernel

theorem run_proved : Run UpFront.site UpFront.proved := by
  have h : Run UpFront.site UpFront.asked :=
    Run.exec (.start (begins_smallWorld _) trivial) (.apply UpFront.gated [] {}) rfl
  exact h.exec (.approveProof "p.web.00000000" (.step 1) "alice" "token" "ops") told_proved.1

/-- A proof for a step does not verify for the acknowledgement of that step, and the
proof that opens the step's gate was verified for it. -/
theorem binds_gated :
    Digest.scopedDigest lengths (Digest.requestDigest lengths request) (.step 1) ≠
        Digest.scopedDigest lengths (Digest.requestDigest lengths request) (.ack 1) ∧
      ∃ d older, (Act.counted "p.web.00000000" (.step 1) ["alice"] d :: older) <:+
          UpFront.proved.acts ∧
        BoundTo UpFront.site "p.web.00000000" (.step 1) "alice" d older := by
  refine ⟨fun h => ?_, ?_⟩
  · cases (proofs_bind.1 lengths request request _ _ apart h).1
  · obtain ⟨older, hs⟩ := counted_of_countedFor told_proved.2
    exact ⟨"", older, hs, (proofs_bind.2 run_proved _ _ _ _ _ hs).2 "alice" List.mem_cons_self⟩

end OneRequest

end Rescind
