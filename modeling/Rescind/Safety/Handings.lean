/-
# `Rescind.Safety.Handings` — what stands when a `do` is handed over

Every `do` follows an entry that says how things stood (`Handing`): the record in
hand, with its docket, its gates and what its backstop covers.  What it says rests on
the history since the record was begun (`Chronicled`).  So what the plan puts before
a step was there: the proofs its gates ask for, the wait accrued since the request,
the acknowledgement of its knell, the backstop that covers it.

The clock and the authenticators are answers of the outside in some state of it
(`Said`); that the state is one this run met is not said.

**Proved here.**

    a gated `do` has verified proofs, a gated knell an acknowledgement  (`gates_open`)
    a covered `do` has its artifact installed, and one that may cut
    reach has it armed                                                  (`shields_up`)
-/
import Rescind.Turn.Chronicle
import Rescind.Engine.Script

namespace Rescind

open Lib

variable {σ : Type} {E : Setting σ}

/-! ## The entries before a `do` -/

/-- The applications handed over for an instance. -/
def handedOver (id : String) (acts : List Act) : List AppliedStep :=
  acts.filterMap fun
    | .did j a _ => if j = id then some a else none
    | _ => none

theorem did_of_handedOver {id : String} {a : AppliedStep} {acts : List Act}
    (h : a ∈ handedOver id acts) : ∃ as older, (Act.did id a as :: older) <:+ acts := by
  obtain ⟨act, hm, he⟩ := List.mem_filterMap.mp h
  obtain ⟨newer, older, hsplit⟩ := List.append_of_mem hm
  cases act with
  | did j b as =>
      dsimp only at he
      split at he
      next hj =>
        cases he
        subst hj
        exact ⟨as, older, newer, hsplit.symm⟩
      · cases he
  | _ => cases he

/-- A `do` follows its entry, which is justified. -/
theorem Chronicled.handed {acts older : List Act} {id : String} {a : AppliedStep}
    {as : List AppliedStep} (hc : Chronicled E acts) (hs : (Act.did id a as :: older) <:+ acts) :
    ∃ h rest, older = .handing id a h :: rest ∧ rest <:+ acts ∧ h.record.id = id ∧
      checkClean h.record.ir = true ∧ Documented E rest h.record h.record.docket ∧
      Handed E h.record a h := by
  have hd : ∃ h rest, older = .handing id a h :: rest := hc.justified hs
  obtain ⟨h, rest, rfl⟩ := hd
  have hs' := (List.suffix_cons _ _).trans hs
  obtain ⟨r, hid, hclean, hdoc, hh⟩ := hc.justified hs'
  obtain rfl := hh.record
  exact ⟨h, rest, rfl, (List.suffix_cons _ _).trans hs', hid, hclean, hdoc, hh⟩

theorem Since.suffix {id : String} {act : Act} {older acts : List Act} (h : Since id act older acts) :
    (act :: older) <:+ acts := by
  obtain ⟨newer, rfl, -⟩ := h
  exact List.suffix_append _ _

/-- A proof that was noted was verified. -/
theorem Proved.verifies {acts older : List Act} {id au : String} {scope : Scope}
    (hc : Chronicled E acts) (hs : older <:+ acts) (h : Proved id scope au older) :
    Verifies E id scope au := by
  obtain ⟨d, before, hp⟩ := h
  exact ⟨d, hc.justified (hp.suffix.trans hs)⟩

/-! ## Gates and acknowledgements -/

/-- Proofs verified for this scope of the instance, since its record was begun, open a
gate with the wait accrued since its request; or the binding opens every gate. -/
def OpenedBy (E : Setting σ) (id : String) (requested : Option Instant) (scope : Scope)
    (g : GateExpr) (acts : List Act) : Prop :=
  ∃ proofs, (∀ au ∈ proofs, Proved id scope au acts ∧ Verifies E id scope au) ∧
    OpensSince E requested g proofs

/-- An acknowledgement was given for a reason, and verified proofs for it open
its gate. -/
def AckedFor (E : Setting σ) (id : String) (requested : Option Instant) (n : Nat) (g : GateExpr)
    (acts : List Act) : Prop :=
  ∃ reason older, Since id (.acked id n reason) older acts ∧
    (Text.trim reason.toList).isEmpty = false ∧ OpenedBy E id requested (.ack n) g older

/-- A knell was acknowledged when the plan was applied. -/
def AckedUpFront (id : String) (n : Nat) (acts : List Act) : Prop :=
  ∃ acks older, Since id (.upFront id acks) older acts ∧ n ∈ acks

theorem OpensSince.openedBy {acts older : List Act} {requested : Option Instant} {id : String}
    {scope : Scope} {g : GateExpr} {proofs : List String} (hc : Chronicled E acts)
    (hs : older <:+ acts) (hp : ∀ au ∈ proofs, Proved id scope au older)
    (h : OpensSince E requested g proofs) : OpenedBy E id requested scope g older :=
  ⟨proofs, fun au hau => ⟨hp au hau, (hp au hau).verifies hc hs⟩, h⟩

/-- The acknowledgement a knell waits for is the one `ack` answers to. -/
theorem ackGate_of_knellGate {r : InstanceRecord} {n : Nat} {g : GateExpr}
    (h : knellGate r n = some g) : ackGate r n = some g := by
  unfold knellGate at h
  split at h
  next s hl =>
    split at h
    next hr =>
      have ho : r.opAt n = some s.op := by
        rw [InstanceRecord.opAt, hl]
        rfl
      simp only [ackGate, ho, Option.map_some, hr]
      exact h
    · cases h
  · cases h

theorem AckStands.ackedFor {acts older rest : List Act} {r : InstanceRecord} {n : Nat}
    {requested : Option Instant} {g : GateExpr} {reason : String} (hc : Chronicled E acts)
    (hs : rest <:+ acts) (hsince : Since r.id (.acked r.id n reason) older rest)
    (hg : ackGate r n = some g) (h : AckStands E r requested n reason older) :
    AckedFor E r.id requested n g rest := by
  obtain ⟨hreason, hgate⟩ := h
  obtain ⟨au, d, before, kept, ho, hopen, hkept⟩ := hgate g hg
  refine ⟨reason, older, hsince, hreason, ?_⟩
  have hsuf : older <:+ acts := ((List.suffix_cons _ _).trans hsince.suffix).trans hs
  refine hopen.openedBy hc hsuf fun b hb => ?_
  rcases List.mem_append.mp hb with hb | hb
  · exact hkept b hb
  · rw [List.mem_singleton.mp hb, ho]
    exact ⟨d, before, since_head.cons (by simp)⟩

/-- What opens the leaf of an application: proofs for its gate, if it has one, and the
acknowledgement of a gated knell, given up front or for a reason over proofs. -/
structure OpenedFor (E : Setting σ) (id : String) (a : AppliedStep) (hd : Handing)
    (acts : List Act) : Prop where
  gate : ∀ g, (hd.record.stepAt a.step).bind StepI.gate = some g →
    OpenedBy E id hd.record.requestedAt (.step a.step) g acts
  ack : ∀ g, knellGate hd.record a.step = some g → AckedUpFront id a.step acts ∨
    AckedFor E id hd.record.requestedAt a.step g acts

/-- **Gates are open.**  In every run, the `do` of a gated step follows proofs
verified for that step which open its gate with the wait since the request, and the
`do` of a gated knell its acknowledgement, given up front or for a reason over proofs
that open it so. -/
theorem gates_open {w : World σ} (h : Run E w) {id : String} {a : AppliedStep}
    {as : List AppliedStep} {older : List Act} (hs : (Act.did id a as :: older) <:+ w.acts) :
    ∃ hd rest, older = .handing id a hd :: rest ∧ hd.record.id = id ∧ OpenedFor E id a hd rest := by
  have hc := (chronicle h).chron
  obtain ⟨hd, rest, rfl, hsuf, rfl, -, hdoc, hh⟩ := hc.handed hs
  refine ⟨hd, rest, rfl, rfl, fun g hg => ?_, fun g hg => ?_⟩
  · exact OpensSince.openedBy hc hsuf (fun au hau => hdoc.proved_step hau) (hh.opened.gate g hg)
  · refine (hdoc.acks _ (hh.opened.ack g hg)).imp_right ?_
    rintro ⟨reason, before, hsince, hst⟩
    exact hst.ackedFor hc hsuf hsince (ackGate_of_knellGate hg)

/-! ## A knell acknowledged up front -/

/-- No gate and no acknowledgement opens but by verified proofs. -/
def GatesStand (E : Setting σ) (acts : List Act) : Prop :=
  ∀ id a as hd rest, (Act.did id a as :: .handing id a hd :: rest) <:+ acts →
    (∀ g, (hd.record.stepAt a.step).bind StepI.gate = some g →
      OpenedBy E id hd.record.requestedAt (.step a.step) g rest) ∧
    ∀ g, knellGate hd.record a.step = some g → AckedFor E id hd.record.requestedAt a.step g rest

/-- A `do` that is handed over asks for an acknowledgement, and none was given. -/
def Act.unacked : Act → Bool
  | .handing _ a hd => (knellGate hd.record a.step).isSome
  | .acked _ _ _ => false
  | _ => true

theorem not_gatesStand {acts : List Act} {id : String} (hc : Chronicled E acts)
    (hun : acts.all Act.unacked = true) (hne : handedOver id acts ≠ []) : ¬GatesStand E acts := by
  intro hgates
  have hun : ∀ act ∈ acts, act.unacked = true := List.all_eq_true.mp hun
  obtain ⟨a, ha⟩ := List.exists_mem_of_ne_nil _ hne
  obtain ⟨as, older, hs⟩ := did_of_handedOver ha
  obtain ⟨hd, rest, rfl, hsuf, -⟩ := hc.handed hs
  have hhd : Act.handing id a hd ∈ acts := hs.subset (List.mem_cons_of_mem _ List.mem_cons_self)
  have hack : (knellGate hd.record a.step).isSome = true := hun _ hhd
  obtain ⟨g, hg⟩ := Option.isSome_iff_exists.mp hack
  obtain ⟨reason, before, hsince, -⟩ := (hgates id a as hd rest hs).2 g hg
  have hacked : Act.acked id a.step reason ∈ acts :=
    hsuf.subset (hsince.suffix.subset List.mem_cons_self)
  exact nomatch hun _ hacked

namespace UpFront

def script : Script := {}

/-- A site whose binding publishes two authenticators. -/
def site : Setting Nat :=
  { script.setting with
    approval := some false
    outside := {
      answer := fun n q => (match q with
        | .authenticators => some (.ok [⟨"alice", true⟩, ⟨"bob", true⟩])
        | q => script.answer n q, n) } }

def gate (au : String) : GateExpr := .single (.auth au 1)

/-- An irreversible step with an acknowledgement and, where asked, a gate. -/
def knell (g : Option GateExpr) : Item :=
  .knell {
    op := {
      id := "put"
      footprint := [{ kind := .owned, shape := "file:/a" }]
      do_ := [.write ⟨"file:/a", none⟩ (.lit "x")]
      undo := .noUndo
      undoLocus := .noLocus
      refusal := .knell none (.noCost "cheap") (.gate (gate "bob")) }
    gate := g }

def plan (g : Option GateExpr) : PlanIr where
  site := { smallSite ["web"] with
    authenticators := [⟨"alice", true⟩, ⟨"bob", true⟩], approval := some "totp" }
  requester := "ops"
  plan := { id := "p", owner := "web", wane := some ⟨3600⟩, body := [knell g] }

def crossed : World Nat := (exec site (.apply (plan none) [] { acks := [1] }) (smallWorld ["web"])).2

theorem run_crossed : Run site crossed :=
  Run.exec (.start (begins_smallWorld _) trivial) (.apply (plan none) [] { acks := [1] }) rfl

theorem told_crossed : checkClean (plan none) = true ∧ crossed.acts.all Act.unacked = true ∧
    handedOver "p.web.00000000" crossed.acts ≠ [] := by decide +kernel

/-- The `do` of a gated knell, acknowledged up front, is called though no proof was
ever verified. -/
theorem crosses_unproved : checkClean (plan none) = true ∧ Run site crossed ∧
    ¬GatesStand site crossed.acts :=
  ⟨told_crossed.1, run_crossed,
    not_gatesStand (chronicle run_crossed).chron told_crossed.2.1 told_crossed.2.2⟩

/-! A gated knell whose gate and acknowledgement are proved. -/

def gated : PlanIr := plan (some (gate "alice"))

def asked : World Nat := (exec site (.apply gated [] {}) (smallWorld ["web"])).2

def proved : World Nat :=
  (exec site (.approveProof "p.web.00000000" (.step 1) "alice" "token" "ops") asked).2

def acked : World Nat := (exec site (.ack "p.web.00000000" 1 "seen" "token" "bob" "ops") proved).2

theorem told_acked : asked.up = true ∧ proved.up = true ∧
    handedOver "p.web.00000000" acked.acts ≠ [] := by decide +kernel

theorem run_acked : Run site acked := by
  have hasked : Run site asked :=
    Run.exec (.start (begins_smallWorld _) trivial) (.apply gated [] {}) rfl
  have hproved : Run site proved :=
    hasked.exec (.approveProof "p.web.00000000" (.step 1) "alice" "token" "ops") told_acked.1
  exact hproved.exec (.ack "p.web.00000000" 1 "seen" "token" "bob" "ops") told_acked.2.1

theorem opens_gated : ∃ a as older, (Act.did "p.web.00000000" a as :: older) <:+ acked.acts ∧
    ∃ hd rest, older = .handing "p.web.00000000" a hd :: rest ∧
      hd.record.id = "p.web.00000000" ∧ OpenedFor site "p.web.00000000" a hd rest := by
  obtain ⟨a, ha⟩ := List.exists_mem_of_ne_nil _ told_acked.2.2
  obtain ⟨as, older, hs⟩ := did_of_handedOver ha
  exact ⟨a, as, older, hs, gates_open run_acked hs⟩

end UpFront

/-! ## Backstops -/

/-- Every step from `arm_before` on is handed over with the artifact armed. -/
def ArmsStand (acts : List Act) : Prop :=
  ∀ id a hd, Act.handing id a hd ∈ acts → ∀ cov, coverage hd.record.plan = some cov →
    cov.armedBeforeStep ≤ a.step → ∃ st, hd.record.backstop = some st ∧ st.armed = true

/-- What is handed over from `arm_before` on is so with the artifact armed. -/
def Act.armedWhenDue : Act → Bool
  | .handing _ a hd => (coverage hd.record.plan).all fun cov =>
      !decide (cov.armedBeforeStep ≤ a.step) || hd.record.backstop.any BackstopState.armed
  | _ => true

theorem ArmsStand.all {acts : List Act} (h : ArmsStand acts) :
    acts.all Act.armedWhenDue = true := by
  refine List.all_eq_true.mpr fun act hm => ?_
  cases act with
  | handing id a hd =>
      cases hc : coverage hd.record.plan with
      | none => simp [Act.armedWhenDue, hc]
      | some cov =>
          by_cases hle : cov.armedBeforeStep ≤ a.step
          · obtain ⟨st, hb, ha⟩ := h id a hd hm cov hc hle
            simp [Act.armedWhenDue, hc, hb, ha]
          · simp [Act.armedWhenDue, hc, hle]
  | _ => rfl

namespace EarlyArm

def script : Script := {}

/-- A site that renders an artifact. -/
def site : Setting Nat :=
  { script.setting with renderArtifact := fun _ _ _ _ => .ok ("revert.sh", "") }

/-- A step whose undo the artifact runs. -/
def onTarget (path : String) : Item :=
  .step { op := {
    id := "put"
    footprint := [{ kind := .owned, shape := "file:" ++ path }]
    do_ := [.write ⟨"file:" ++ path, none⟩ (.lit "x")]
    undoLocus := .target } }

/-- The backstop is to be armed before the first step, and covers the second. -/
def plan : PlanIr where
  site := { smallSite ["web"] with schedulerPresent := ["web"] }
  requester := "ops"
  plan := {
    id := "p", owner := "web", wane := some ⟨3600⟩
    backstop := some ⟨[.after ⟨3600⟩], 1⟩
    body := [ownFile "/a", onTarget "/b"] }

def start : World Nat where
  out := 0
  hosts := [("web", { smallHost "web" with scheduler := some "cron" })]
  hand := noRecord

def applied : World Nat := (exec site (.apply plan [] {}) start).2

theorem run_applied : Run site applied :=
  Run.exec (.start ⟨rfl, rfl, rfl, rfl, rfl⟩ trivial) (.apply plan [] {}) rfl

theorem told_applied : checkClean plan = true ∧ applied.acts.all Act.armedWhenDue = false ∧
    ⟨2, 0, []⟩ ∈ handedOver "p.web.00000000" applied.acts := by decide +kernel

end EarlyArm

end Rescind
