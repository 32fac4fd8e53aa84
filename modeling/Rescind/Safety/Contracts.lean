/-
# `Rescind.Safety.Contracts` — no run on a changed host contract

What the history says of an instance's host contract: the request froze one
(`froze`), the engine derived it again before a walk (`compared`), and refused the
instance, every proof falling with it, where the two differed (`fell`).

What a host answers is believed: a change it does not show is none.

**Proved here.**

    a `do` is handed over only in a walk that set out on the contract its request
    froze, and no proof from before a refusal for a changed contract is counted
    after it                                                (`contract_kept`)
    a proof given before a change that nobody looked at is counted after it
                                                            (`TwoMen.counts_after_change`)
-/
import Rescind.Safety.Bindings
import Rescind.Turn.Contracts

namespace Rescind

open Lib

variable {σ : Type} {E : Setting σ}

/-- **A walk sets out on the contract its request froze.**  In every run, every `do`
was handed over in a walk at whose outset the host contract was derived and had
the hash its request froze; and what a gate counts was proved since the instance
was last refused for a changed contract. -/
theorem contract_kept {w : World σ} (h : Run E w) :
    (∀ (id : String) (a : AppliedStep) (as : List AppliedStep) (older : List Act),
      (Act.did id a as :: older) <:+ w.acts → Departed E id older) ∧
    ∀ (id : String) (scope : Scope) (aus : List String) (d : Hash) (older : List Act),
      (Act.counted id scope aus d :: older) <:+ w.acts → ∀ au ∈ aus, ∃ newer oldest,
        older = newer ++ .proved id scope au d :: oldest ∧ Act.fell id ∉ newer := by
  refine ⟨fun id a as older hs => (departed h).told.departed hs, ?_⟩
  intro id scope aus d older hs au hau
  obtain ⟨newer, oldest, hacts, -, hl⟩ := proved_of_provedFor (((audited h).told.counted hs).2 au hau)
  exact ⟨newer, oldest, hacts, hl⟩

/-! ## A change nobody looked at -/

/-- The host contract as it would be derived now is not what the record's request
froze. -/
def Differs (E : Setting σ) (w : World σ) (r : InstanceRecord) : Prop :=
  ∃ c w', hostContract E { w with hand := r } = (.ok c, w') ∧
    r.hostContract ≠ some (E.contractHash c)

def differs (E : Setting σ) (w : World σ) (r : InstanceRecord) : Bool :=
  match (hostContract E { w with hand := r }).1 with
  | .ok c => decide (r.hostContract ≠ some (E.contractHash c))
  | _ => false

theorem differs_of {w : World σ} {r : InstanceRecord} (h : differs E w r = true) :
    Differs E w r := by
  unfold differs at h
  split at h
  next c hc => exact ⟨c, _, Prod.ext hc rfl, of_decide_eq_true h⟩
  next => cases h

/-- What was noted since. -/
def World.since (w w' : World σ) : List Act := w'.acts.take (w'.acts.length - w.acts.length)

/-- No proof given before the contract differs is counted after it. -/
def ProofsFall (E : Setting σ) : Prop :=
  ∀ (w w' : World σ) (r : InstanceRecord), Run E w → Later E w w' →
    w.instances.read r.id = some r → r.rehearsal = false → Differs E w r →
    ∀ scope aus d, Act.counted r.id scope aus d ∈ w.since w' →
      ∀ au ∈ aus, ∃ d', Act.proved r.id scope au d' ∈ w.since w'

namespace TwoMen

/-- A site whose binding publishes two authenticators, and whose contracts tell the
operating systems of its hosts. -/
def site : Setting Nat :=
  { UpFront.site with contractHash := fun c => String.join (c.hosts.map fun h => h.2.os) }

/-- A step that both are asked for. -/
def step : Item :=
  .step {
    op := {
      id := "put"
      footprint := [{ kind := .owned, shape := "file:/a" }]
      do_ := [.write ⟨"file:/a", none⟩ (.lit "x")] }
    gate := some (.thresh 2 [.auth "alice" 1, .auth "bob" 1])
    window := some ⟨600⟩ }

def plan : PlanIr where
  site := { smallSite ["web"] with
    authenticators := [⟨"alice", true⟩, ⟨"bob", true⟩], approval := some "totp" }
  requester := "ops"
  plan := { id := "p", owner := "web", wane := some ⟨3600⟩, body := [step] }

def asked : World Nat := (exec site (.apply plan [] {}) (smallWorld ["web"])).2

def half : World Nat :=
  (exec site (.approveProof "p.web.00000000" (.step 1) "alice" "token" "ops") asked).2

/-- The host was reinstalled. -/
def changed : World Nat :=
  { half with hosts := [("web", { smallHost "web" with
      record := ⟨"web", "freebsd", ["local"], true, true, none⟩ })] }

def both : World Nat :=
  (exec site (.approveProof "p.web.00000000" (.step 1) "bob" "token" "ops") changed).2

theorem up_half : asked.up = true ∧ half.up = true ∧ changed.up = true := by decide +kernel

theorem run_half : Run site half := by
  have h : Run site asked :=
    Run.exec (.start (begins_smallWorld _) trivial) (.apply plan [] {}) rfl
  exact h.exec (.approveProof "p.web.00000000" (.step 1) "alice" "token" "ops") up_half.1

theorem run_changed : Run site changed := .inventory run_half _ up_half.2.1 trivial

theorem later_both : Later site changed both :=
  (Later.refl changed).exec (.approveProof "p.web.00000000" (.step 1) "bob" "token" "ops")
    up_half.2.2

/-- The record in the store, waiting for the second proof. -/
def record : InstanceRecord := (changed.instances.read "p.web.00000000").getD noRecord

/-- Whether the entry is a proof of the first. -/
def ofAlice : Act → Bool
  | .proved _ _ au _ => au = "alice"
  | _ => false

/-- The record is stored and its contract differs; both proofs are counted since the
change, and the first was not given again. -/
theorem told_both :
    checkClean plan = true ∧ (changed.instances.read "p.web.00000000").isSome = true ∧
      record.rehearsal = false ∧ differs site changed record = true ∧
      (Scope.step 1, ["alice", "bob"], "") ∈ countedFor record.id (changed.since both) ∧
      (changed.since both).any ofAlice = false := by decide +kernel

theorem stored_record : changed.instances.read record.id = some record := by
  obtain ⟨r, hr⟩ := Option.isSome_iff_exists.mp told_both.2.1
  have he : record = r := by rw [record, hr, Option.getD_some]
  rw [he, Store.id_of_read hr, hr]

/-- The first proof is counted though the contract differed when the second was
given: while an instance waits nobody looks. -/
theorem counts_after_change : checkClean plan = true ∧ ¬ProofsFall site := by
  obtain ⟨hclean, -, hlive, hdiffers, hcount, hnone⟩ := told_both
  refine ⟨hclean, fun hfall => ?_⟩
  obtain ⟨older, hs⟩ := counted_of_countedFor hcount
  obtain ⟨d, hd⟩ := hfall changed both record run_changed later_both stored_record
    hlive (differs_of hdiffers) _ _ _ (hs.subset List.mem_cons_self) "alice" List.mem_cons_self
  rw [List.any_eq_false] at hnone
  exact hnone _ hd rfl

/-! A walk that set out on its contract. -/

def resumed : World Nat :=
  (exec site (.approveProof "p.web.00000000" (.step 1) "bob" "token" "ops") half).2

theorem run_resumed : Run site resumed :=
  run_half.exec (.approveProof "p.web.00000000" (.step 1) "bob" "token" "ops") up_half.2.1

theorem told_resumed : handedOver "p.web.00000000" resumed.acts ≠ [] ∧
    (Scope.step 1, ["alice", "bob"], "") ∈ countedFor "p.web.00000000" resumed.acts := by
  decide +kernel

/-- Where nothing changed the step is handed over, in a walk that departed, and both
proofs are counted. -/
theorem kept_resumed :
    (∃ a as older, (Act.did "p.web.00000000" a as :: older) <:+ resumed.acts ∧
      Departed site "p.web.00000000" older) ∧
    ∃ older newer oldest, (Act.counted "p.web.00000000" (.step 1) ["alice", "bob"] "" :: older) <:+
        resumed.acts ∧ older = newer ++ .proved "p.web.00000000" (.step 1) "alice" "" :: oldest ∧
      Act.fell "p.web.00000000" ∉ newer := by
  obtain ⟨a, ha⟩ := List.exists_mem_of_ne_nil _ told_resumed.1
  obtain ⟨as, older, hs⟩ := did_of_handedOver ha
  obtain ⟨older', hs'⟩ := counted_of_countedFor told_resumed.2
  obtain ⟨newer, oldest, hacts, hl⟩ :=
    (contract_kept run_resumed).2 _ _ _ _ _ hs' "alice" List.mem_cons_self
  exact ⟨⟨a, as, older, hs, (contract_kept run_resumed).1 _ _ _ _ hs⟩,
    older', newer, oldest, hs', hacts, hl⟩

end TwoMen

end Rescind
