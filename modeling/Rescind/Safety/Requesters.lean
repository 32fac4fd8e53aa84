/-
# `Rescind.Safety.Requesters` — the requester and the gates of its own plan

That the requester's own proof opens no gate is decided by the check, over the
authenticators the site lists.  The engine asks the approval binding for a list
of its own and counts every proof in it.  The two differ exactly where the
binding publishes the requester as a human and `humans()` may be met through it
alone.

**Proved here.**

    a path through the requester is one the gate counts   (`counts_of_mem_path`)
    a gate whose open paths spare the requester never minds its proof, and one that
      never minds it spares it                     (`Spared.congr`, `spared_of_congr`)
    so an answer depends on the requester exactly where
      some open path cannot spare it                      (`requester_ignored_iff`)
-/
import Mathlib.Data.Fintype.EquivFin
import Rescind.Core.Thresholds
import Rescind.Engine.Script

namespace Rescind

open Lib Lib.Prog

/-! ## What the check says of a gate -/

/-- The gate asked for in a scope. -/
def gateFor (r : InstanceRecord) : Scope → Option GateExpr
  | .plan => r.plan.gate.map PlanGate.expr
  | .step n => (r.stepAt n).bind StepI.gate
  | .ack n => ackGate r n

/-- The requester is no authenticator of a gate the check passes. -/
theorem counts_of_gateChecks {site : Site} {requester : String} {p : Plan} {n : Option Nat}
    {g : GateExpr} {z : Bool} (h : gateChecks site requester p n g z = []) :
    countsRequester site.authenticators requester g = false := by
  simp only [gateChecks, List.append_eq_nil_iff, flag_eq_nil] at h
  exact h.1.1.2

/-- A plan the check passes counts its requester in no gate of its own or of a
step. -/
theorem counts_of_checkClean {r : InstanceRecord} (hc : checkClean r.ir = true) {scope : Scope}
    (hs : ∀ n, scope ≠ .ack n) {g : GateExpr} (hg : gateFor r scope = some g) :
    countsRequester r.ir.site.authenticators r.ir.requester g = false := by
  have hd := gateDiagnostics_of_checkClean hc
  simp only [gateDiagnostics, List.append_eq_nil_iff, List.flatMap_eq_nil_iff] at hd
  cases scope with
  | plan =>
      obtain ⟨pg, hp, rfl⟩ := Option.map_eq_some_iff.mp hg
      have hp' : r.ir.plan.gate = some pg := hp
      have h := hd.1.1.1
      rw [hp'] at h
      exact counts_of_gateChecks h
  | step n =>
      obtain ⟨s, hs', hg'⟩ := Option.bind_eq_some_iff.mp hg
      obtain ⟨it, hl, hi⟩ := Option.bind_eq_some_iff.mp hs'
      have h := hd.1.1.2 (n, it) (mem_of_leafAt hl)
      dsimp only at h
      rw [hi, Option.bind_some, hg'] at h
      exact counts_of_gateChecks h
  | ack n => exact absurd rfl (hs n)

/-! ## Paths through the requester -/

variable {requester : String}

mutual

/-- Knowing the requester for a human only adds to what counts it. -/
theorem factorCounts_mono : ∀ (f : Factor), factorCountsRequester requester false f = true →
    factorCountsRequester requester true f = true
  | .auth _ _, h => h
  | .humans _, _ => rfl
  | .group expr _, h => gateCounts_mono expr h
  | .wait _ _, h => h

theorem factorsCount_mono : ∀ (fs : List Factor), factorsCountRequester requester false fs = true →
    factorsCountRequester requester true fs = true
  | [], h => h
  | f :: fs, h => by
      simp only [factorsCountRequester, Bool.or_eq_true] at h ⊢
      exact h.imp (factorCounts_mono f) (factorsCount_mono fs)

theorem gateCounts_mono : ∀ (g : GateExpr), gateCountsRequester requester false g = true →
    gateCountsRequester requester true g = true
  | .single f, h => factorCounts_mono f h
  | .thresh _ fs, h => factorsCount_mono fs h

end

/-- The binding publishes the requester as a human. -/
def publishesHuman (auths : List Authenticator) (requester : String) : Bool :=
  auths.any fun a => a.id = requester && a.human

/-- Where the check did not count the requester, only a binding that publishes
it as a human does. -/
theorem published_of_counts {site auths : List Authenticator} {g : GateExpr}
    (hn : countsRequester site requester g = false)
    (hc : countsRequester auths requester g = true) : publishesHuman auths requester = true := by
  cases hp : publishesHuman auths requester with
  | true => rfl
  | false =>
      have hc' : gateCountsRequester requester false g = true := hp ▸ hc
      unfold countsRequester at hn
      cases hs : site.any fun a => a.id = requester && a.human with
      | true => rw [hs, gateCounts_mono g hc'] at hn; exact hn.symm
      | false => rw [hs, hc'] at hn; exact hn.symm

/-- An authenticator on a path of a threshold is on a path of a factor. -/
theorem factor_of_mem_threshold {n : Nat} {fs : List (Nat × List GatePath)} {p : GatePath} {a : String}
    (hp : p ∈ thresholdPaths n fs) (ha : a ∈ p.auths) :
    ∃ f ∈ fs, ∃ q ∈ f.2, a ∈ q.auths := by
  obtain ⟨s, hs, -, ps, hps, rfl⟩ := mem_thresholdPaths.mp hp
  suffices h : ∃ f ∈ s, ∃ q ∈ f.2, a ∈ q.auths by
    obtain ⟨f, hf, hq⟩ := h
    exact ⟨f, hs.subset hf, hq⟩
  clear hp hs
  induction hps with
  | nil => cases ha
  | @cons f q s ps hq _ ih =>
      rcases List.mem_append.mp (mem_nub.mp ha) with h | h
      · exact ⟨f, List.mem_cons_self, q, hq, h⟩
      · obtain ⟨f', hf', hx⟩ := ih h
        exact ⟨f', List.mem_cons_of_mem _ hf', hx⟩

variable {auths : List Authenticator}

mutual

theorem counts_of_mem_factorPaths : ∀ (f : Factor) (p : GatePath), p ∈ factorPaths auths f →
    requester ∈ p.auths →
    factorCountsRequester requester (publishesHuman auths requester) f = true
  | .auth id _, p, hp, ha => by
      rw [factorPaths] at hp
      split at hp
      · rw [List.mem_singleton.mp hp] at ha
        exact decide_eq_true (List.mem_singleton.mp ha).symm
      · cases hp
  | .humans _, p, hp, ha => by
      rw [factorPaths] at hp
      obtain ⟨a, hm, rfl⟩ := List.mem_map.mp hp
      obtain ⟨hm, hh⟩ := List.mem_filter.mp hm
      refine List.any_eq_true.mpr ⟨a, hm, ?_⟩
      simp [hh, (List.mem_singleton.mp ha).symm]
  | .group expr _, p, hp, ha => by
      rw [factorPaths] at hp
      exact counts_of_mem_path expr p hp ha
  | .wait _ _, p, hp, ha => by
      rw [factorPaths, List.mem_singleton] at hp
      rw [hp] at ha
      cases ha

theorem counts_of_mem_factorsPaths : ∀ (fs : List Factor) (q : Nat × List GatePath),
    q ∈ factorsPaths auths fs → ∀ p ∈ q.2, requester ∈ p.auths →
    factorsCountRequester requester (publishesHuman auths requester) fs = true
  | [], q, hq, _, _, _ => by
      rw [factorsPaths] at hq
      cases hq
  | f :: fs, q, hq, p, hp, ha => by
      rw [factorsPaths] at hq
      rw [factorsCountRequester, Bool.or_eq_true]
      rcases List.mem_cons.mp hq with rfl | hq
      · exact .inl (counts_of_mem_factorPaths f p hp ha)
      · exact .inr (counts_of_mem_factorsPaths fs q hq p hp ha)

/-- A path through the requester is one the gate counts. -/
theorem counts_of_mem_path : ∀ (g : GateExpr) (p : GatePath), p ∈ satisfyingPaths auths g →
    requester ∈ p.auths → countsRequester auths requester g = true
  | .single f, p, hp, ha => by
      rw [satisfyingPaths] at hp
      exact counts_of_mem_factorPaths f p hp ha
  | .thresh n fs, p, hp, ha => by
      rw [satisfyingPaths] at hp
      obtain ⟨q, hq, p', hp', ha'⟩ := factor_of_mem_threshold hp ha
      exact counts_of_mem_factorsPaths fs q hq p' hp' ha'

end

/-! ## The same proofs but for the requester's -/

/-- Two lists agree on every authenticator but the requester. -/
def SameBut (requester : String) (xs ys : List String) : Prop :=
  ∀ id, id ≠ requester → (id ∈ xs ↔ id ∈ ys)

theorem SameBut.symm {xs ys : List String} (h : SameBut requester xs ys) :
    SameBut requester ys xs := fun id hne => (h id hne).symm

/-- The wait of a path is over. -/
def GatePath.waited (p : GatePath) (elapsed : Duration) : Bool :=
  match p.wait with
  | none => true
  | some w => w.seconds ≤ elapsed.seconds

/-- Every open path through the requester can spare it: what the others on it
prove is enough along another. -/
def Spared (auths : List Authenticator) (requester : String) (g : GateExpr)
    (elapsed : Duration) : Prop :=
  ∀ p ∈ satisfyingPaths auths g, p.waited elapsed = true → requester ∈ p.auths →
    ∃ q ∈ satisfyingPaths auths g, q.waited elapsed = true ∧ requester ∉ q.auths ∧
      ∀ id ∈ q.auths, id ∈ p.auths

theorem gateSatisfiedBy_iff {g : GateExpr} {xs : List String} {elapsed : Duration} :
    gateSatisfiedBy auths g xs elapsed = true ↔
      ∃ p ∈ satisfyingPaths auths g, (∀ id ∈ p.auths, id ∈ xs) ∧ p.waited elapsed = true := by
  simp only [gateSatisfiedBy, List.any_eq_true, Bool.and_eq_true, List.all_eq_true,
    List.contains_iff_mem]
  rfl

/-- What is satisfied with the requester's proof is satisfied without it. -/
theorem Spared.satisfied {g : GateExpr} {elapsed : Duration} {xs ys : List String}
    (h : Spared auths requester g elapsed) (hs : SameBut requester xs ys)
    (hx : gateSatisfiedBy auths g xs elapsed = true) :
    gateSatisfiedBy auths g ys elapsed = true := by
  obtain ⟨p, hp, hsub, hw⟩ := gateSatisfiedBy_iff.mp hx
  have without : ∀ q ∈ satisfyingPaths auths g, q.waited elapsed = true → requester ∉ q.auths →
      (∀ id ∈ q.auths, id ∈ p.auths) → gateSatisfiedBy auths g ys elapsed = true := by
    intro q hq hqw hn hqp
    refine gateSatisfiedBy_iff.mpr ⟨q, hq, ?_, hqw⟩
    intro id hid
    exact (hs id fun he => hn (he ▸ hid)).mp (hsub id (hqp id hid))
  by_cases hr : requester ∈ p.auths
  · obtain ⟨q, hq, hqw, hn, hqp⟩ := h p hp hw hr
    exact without q hq hqw hn hqp
  · exact without p hp hw hr fun _ hid => hid

theorem Spared.congr {g : GateExpr} {elapsed : Duration} {xs ys : List String}
    (h : Spared auths requester g elapsed) (hs : SameBut requester xs ys) :
    gateSatisfiedBy auths g xs elapsed = gateSatisfiedBy auths g ys elapsed :=
  Bool.eq_iff_iff.mpr ⟨h.satisfied hs, h.satisfied hs.symm⟩

/-- Some name is on no path. -/
theorem exists_stranger (ps : List GatePath) : ∃ z, ∀ p ∈ ps, z ∉ p.auths := by
  obtain ⟨z, hz⟩ := Infinite.exists_notMem_finset (ps.flatMap GatePath.auths).toFinset
  refine ⟨z, fun p hp ha => hz ?_⟩
  exact List.mem_toFinset.mpr (List.mem_flatMap.mpr ⟨p, hp, ha⟩)

/-- A gate that never minds the requester's proof spares it, also where every
list ends in a name of no path. -/
theorem spared_of_congr {g : GateExpr} {elapsed : Duration} {z : String}
    (hz : ∀ p ∈ satisfyingPaths auths g, z ∉ p.auths)
    (h : ∀ xs ys, SameBut requester xs ys → gateSatisfiedBy auths g (xs ++ [z]) elapsed =
      gateSatisfiedBy auths g (ys ++ [z]) elapsed) : Spared auths requester g elapsed := by
  intro p hp hw hr
  have hsame : SameBut requester p.auths (p.auths.filter (· ≠ requester)) := by
    intro id hne
    simp [hne]
  have hx : gateSatisfiedBy auths g (p.auths ++ [z]) elapsed = true :=
    gateSatisfiedBy_iff.mpr ⟨p, hp, fun _ hid => List.mem_append_left _ hid, hw⟩
  rw [h _ _ hsame] at hx
  obtain ⟨q, hq, hsub, hqw⟩ := gateSatisfiedBy_iff.mp hx
  have hmem : ∀ id ∈ q.auths, id ∈ p.auths ∧ id ≠ requester := by
    intro id hid
    rcases List.mem_append.mp (hsub id hid) with hm | hm
    · simpa using hm
    · exact absurd (List.mem_singleton.mp hm ▸ hid) (hz q hq)
  exact ⟨q, hq, hqw, fun hn => (hmem _ hn).2 rfl, fun id hid => (hmem id hid).1⟩

/-! ## The engine's answer -/

variable {σ : Type} (E : Setting σ)

/-- The engine's answer on the gate of a scope; an acknowledgement is asked for
with a proof just verified. -/
def gateAnswer (scope : Scope) (g : GateExpr) (au : String) : Eng σ Bool :=
  match scope with
  | .ack n => ackOpens E n g au
  | scope => gateSatisfied E scope g

/-- The authenticators the answer counts. -/
def counted (r : InstanceRecord) (scope : Scope) (au : String) : List String :=
  match scope with
  | .ack n => proofsFor r (.ack n) ++ [au]
  | scope => proofsFor r scope

/-- The list the binding publishes and the time. -/
def published : Eng σ (List Authenticator × Instant) := do
  let auths ← authenticators E
  let now ← ask E .now
  return (auths, now)

/-- A world whose docket holds these proofs. -/
def World.proving (w : World σ) (ps : List Proof) : World σ :=
  { w with hand := { w.hand with proofs := ps } }

theorem published_bind {α : Type} (f : List Authenticator × Instant → Eng σ α) :
    (published E >>= f) = authenticators E >>= fun auths => ask E .now >>= fun now =>
      f (auths, now) := by
  unfold published
  rw [Prog.bind_assoc]
  refine congrArg (authenticators E >>= ·) (funext fun auths => ?_)
  rw [Prog.bind_assoc]
  rfl

theorem gateAnswer_eq (scope : Scope) (g : GateExpr) (au : String) :
    gateAnswer E scope g au = hand >>= fun r => published E >>= fun x =>
      note (.counted r.id scope (counted r scope au) (scopeDigest E r scope)) >>= fun _ =>
      Pure.pure (E.approval = some true ||
        gateSatisfiedBy x.1 g (counted r scope au) (elapsedSince r x.2)) := by
  have hplain : ∀ s, gateSatisfied E s g = hand >>= fun r => published E >>= fun x =>
      note (.counted r.id s (proofsFor r s) (scopeDigest E r s)) >>= fun _ =>
      Pure.pure (E.approval = some true ||
        gateSatisfiedBy x.1 g (proofsFor r s) (elapsedSince r x.2)) := by
    intro s
    unfold gateSatisfied
    refine congrArg (hand >>= ·) (funext fun r => ?_)
    rw [published_bind]
    refine congrArg (authenticators E >>= ·) (funext fun auths => ?_)
    refine congrArg (ask E .now >>= ·) (funext fun now => ?_)
    by_cases ho : E.approval = some true <;> simp [ho]
  cases scope with
  | plan => exact hplain .plan
  | step n => exact hplain (.step n)
  | ack n =>
      refine congrArg (hand >>= ·) (funext fun r => ?_)
      rw [published_bind]
      rfl

/-- What is published is not read off the docket. -/
theorem same_published :
    Same (fun w v : World σ => v.out = w.out) (published E) := by
  have hask : ∀ q, Same (fun w v : World σ => v.out = w.out) (ask E q : Eng σ (Reply q)) := by
    intro q w v h
    unfold ask
    rw [h]
    split <;> exact ⟨rfl, rfl⟩
  refine Same.bind ?_ fun auths => Same.bind (hask _) fun now => Same.pure _
  unfold authenticators
  split
  · exact Same.pure _
  · refine Same.bind (hask _) fun x => ?_
    split <;> exact Same.pure _

/-- What is asked, beside what it is asked of. -/
theorem gateAnswer_fst (w : World σ) (scope : Scope) (g : GateExpr) (au : String) :
    (gateAnswer E scope g au w).1 = match (published E w).1 with
      | .ok x => .ok (E.approval = some true ||
          gateSatisfiedBy x.1 g (counted w.hand scope au) (elapsedSince w.hand x.2))
      | .err e => .err e
      | .died => .died := by
  rw [gateAnswer_eq, Prog.bind_ok (show (hand : Eng σ _) w = (.ok w.hand, w) from rfl), Prog.bind_eq]
  match published E w with
  | (.ok x, w') => rfl
  | (.err e, w') => rfl
  | (.died, w') => rfl

/-! ## Whose proof matters -/

/-- The answer on a gate is the same whether or not the requester has proved. -/
def Ignored (w : World σ) (scope : Scope) (g : GateExpr) : Prop :=
  ∀ (ps qs : List Proof) (au bu : String),
    SameBut w.hand.ir.requester (counted (w.proving ps).hand scope au)
      (counted (w.proving qs).hand scope bu) →
    (gateAnswer E scope g au (w.proving ps)).1 = (gateAnswer E scope g bu (w.proving qs)).1

/-- The requester has no say under the list the binding publishes now: it is no
human of that list, or every open path through it can spare it. -/
def NoSay (w : World σ) (g : GateExpr) : Prop :=
  E.approval ≠ some true → ∀ auths now, (published E w).1 = .ok (auths, now) →
    publishesHuman auths w.hand.ir.requester = true →
      Spared auths w.hand.ir.requester g (elapsedSince w.hand now)

variable {E} {w : World σ} {scope : Scope} {g : GateExpr}

theorem published_fst (ps : List Proof) :
    (published E (w.proving ps)).1 = (published E w).1 :=
  (same_published E w (w.proving ps) rfl).1.symm

theorem ignored_of_spared
    (h : E.approval ≠ some true → ∀ auths now, (published E w).1 = .ok (auths, now) →
      Spared auths w.hand.ir.requester g (elapsedSince w.hand now)) : Ignored E w scope g := by
  intro ps qs au bu hs
  rw [gateAnswer_fst, gateAnswer_fst, published_fst, published_fst]
  cases hp : (published E w).1 with
  | err e => rfl
  | died => rfl
  | ok x =>
      by_cases ho : E.approval = some true
      · simp [ho]
      · have hc := (h ho x.1 x.2 hp).congr hs
        simp only [ho, decide_false, Bool.false_or]
        exact congrArg Res.ok hc

/-- Any list may be what a docket counts, with a last name also the one an
acknowledgement comes with. -/
theorem exists_counted (w : World σ) (scope : Scope) (xs : List String) (z : String) :
    ∃ ps, counted (w.proving ps).hand scope z = xs ++ [z] := by
  have hfor : ∀ ys, proofsFor (w.proving (ys.map fun y => ⟨scope, y, "", ⟨0⟩⟩)).hand scope = ys := by
    intro ys
    simp [proofsFor, World.proving, List.filter_map, Function.comp_def]
  cases scope with
  | plan => exact ⟨_, hfor _⟩
  | step n => exact ⟨_, hfor _⟩
  | ack n => exact ⟨_, congrArg (· ++ [z]) (hfor xs)⟩

theorem spared_of_ignored (h : Ignored E w scope g) (ho : E.approval ≠ some true)
    {auths : List Authenticator} {now : Instant} (hp : (published E w).1 = .ok (auths, now)) :
    Spared auths w.hand.ir.requester g (elapsedSince w.hand now) := by
  obtain ⟨z, hz⟩ := exists_stranger (satisfyingPaths auths g)
  refine spared_of_congr hz fun xs ys hs => ?_
  obtain ⟨ps, hps⟩ := exists_counted w scope xs z
  obtain ⟨qs, hqs⟩ := exists_counted w scope ys z
  have hs' : SameBut w.hand.ir.requester (xs ++ [z]) (ys ++ [z]) := by
    intro id hne
    simp only [List.mem_append, hs id hne]
  have ha := h ps qs z z (by rw [hps, hqs]; exact hs')
  rw [gateAnswer_fst, gateAnswer_fst, published_fst, published_fst, hp, hps, hqs] at ha
  simp only [ho, decide_false, Bool.false_or, Res.ok.injEq] at ha
  exact ha

/-- A gate the check did not count the requester in spares it under a list that
does not publish it as a human. -/
theorem spared_of_unpublished {site auths : List Authenticator} {elapsed : Duration}
    (hn : countsRequester site requester g = false)
    (hp : publishesHuman auths requester = false) : Spared auths requester g elapsed := by
  intro p hm _ hr
  rw [published_of_counts hn (counts_of_mem_path g p hm hr)] at hp
  cases hp

/-- **The requester and the gates of its plan.**  For every docket of a plan the
check passes, none of whose acknowledgements counts the requester either, the
engine's answer on a gate is the same whether or not the requester has proved
exactly where the binding's list leaves the requester no say. -/
theorem requester_ignored_iff (E : Setting σ) (w : World σ) (hc : checkClean w.hand.ir = true)
    (ha : ∀ n g, gateFor w.hand (.ack n) = some g →
      countsRequester w.hand.ir.site.authenticators w.hand.ir.requester g = false)
    (scope : Scope) (g : GateExpr) (hg : gateFor w.hand scope = some g) :
    Ignored E w scope g ↔ NoSay E w g := by
  have hn : countsRequester w.hand.ir.site.authenticators w.hand.ir.requester g = false := by
    cases scope with
    | plan => exact counts_of_checkClean hc (fun _ => Scope.noConfusion) hg
    | step n => exact counts_of_checkClean hc (fun _ => Scope.noConfusion) hg
    | ack n => exact ha n g hg
  constructor
  · intro h ho auths now hp _
    exact spared_of_ignored h ho hp
  · intro h
    refine ignored_of_spared fun ho auths now hp => ?_
    cases hh : publishesHuman auths w.hand.ir.requester with
    | true => exact h ho auths now hp hh
    | false => exact spared_of_unpublished hn hh

/-! ## A binding of its own -/

namespace Publishing

/-- The binding publishes these authenticators. -/
def bound (auths : List Authenticator) : Setting Nat :=
  { Script.setting {} with
    outside := { answer := fun n q => match q with
      | .authenticators => (some (.ok auths), n)
      | q => (Script.answer {} n q, n) }
    approval := some false }

/-- One plan-entry gate, open to any human; the site lists `alice`. -/
def gated : PlanIr :=
  { smallPlan "motd" "web" [ownFile "/etc/motd"] with
    site := { smallSite ["web"] with authenticators := [⟨"alice", true⟩], approval := some "hook" }
    plan := { (smallPlan "motd" "web" [ownFile "/etc/motd"]).plan with
      gate := some ⟨.thresh 1 [.humans 1], some ⟨600⟩, false⟩ } }

/-- A world with the plan's docket, requested and pending. -/
def world : World Nat :=
  { smallWorld ["web"] with
    hand := { noRecord with
      id := "motd.web.00000000", ir := gated, state := .pending, requestedAt := some ⟨0⟩ } }

/-- `alice` alone, as the site has it. -/
def agreed : List Authenticator := [⟨"alice", true⟩]

/-- The requester as well. -/
def widened : List Authenticator := [⟨"alice", true⟩, ⟨"ops", true⟩]

theorem clean : checkClean world.hand.ir = true := by decide +kernel

/-- The plan acknowledges nothing. -/
theorem no_acks (n : Nat) (g : GateExpr) : gateFor world.hand (.ack n) ≠ some g := by
  intro h
  have ho : (world.hand.opAt n).map Op.refusal = none ∨
      (world.hand.opAt n).map Op.refusal = some .revert := by
    unfold InstanceRecord.opAt
    cases hl : leafAt world.hand.plan.body n with
    | none => exact .inl rfl
    | some it =>
        cases List.mem_singleton.mp (mem_of_leafAt hl)
        exact .inr rfl
  simp only [gateFor, ackGate] at h
  rcases ho with ho | ho <;> rw [ho] at h <;> cases h

/-- The gate asks for one human. -/
theorem asked : gateFor world.hand .plan = some (.thresh 1 [.humans 1]) := rfl

/-- Where the binding publishes what the site lists, the requester's proof is
ignored. -/
theorem ignored_agreed : Ignored (bound agreed) world .plan (.thresh 1 [.humans 1]) := by
  refine (requester_ignored_iff (bound agreed) world clean (fun n g h => absurd h (no_acks n g))
    .plan _ asked).mpr ?_
  intro _ auths now hp hh
  obtain rfl : agreed = auths := congrArg Prod.fst (Res.ok.inj hp)
  exact absurd hh (by decide)

/-- The world once the plan is requested. -/
def requested (auths : List Authenticator) : World Nat :=
  (exec (bound auths) (.apply gated [] {}) (smallWorld ["web"])).2

/-- The world once the requester has approved its own plan. -/
def approved (auths : List Authenticator) : World Nat :=
  (exec (bound auths) (.approveProof world.hand.id .plan "ops" "" "ops") (requested auths)).2

/-- Where it publishes the requester too, the requester's own proof opens the
gate of its plan. -/
theorem counted_widened :
    checkClean world.hand.ir = true ∧
      (∀ n g, gateFor world.hand (.ack n) = some g →
        countsRequester world.hand.ir.site.authenticators world.hand.ir.requester g = false) ∧
      gateFor world.hand .plan = some (.thresh 1 [.humans 1]) ∧
      ¬Ignored (bound widened) world .plan (.thresh 1 [.humans 1]) ∧
      (approved agreed).hand.state = .pending ∧ (approved widened).hand.state = .applied := by
  refine ⟨clean, fun n g h => absurd h (no_acks n g), asked, fun h => ?_, by decide +kernel,
    by decide +kernel⟩
  have hs : SameBut world.hand.ir.requester ["ops"] [] := by
    intro id hne
    simp only [List.mem_singleton, List.not_mem_nil, iff_false]
    exact hne
  have ha := h [⟨.plan, "ops", "ops", ⟨0⟩⟩] [] "" "" hs
  rw [gateAnswer_fst, gateAnswer_fst] at ha
  exact absurd (Res.ok.inj ha) (by decide +kernel)

end Publishing

end Rescind
