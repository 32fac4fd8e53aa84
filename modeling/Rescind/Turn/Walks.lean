/-
# `Rescind.Turn.Walks` — the walk as a turn

The operations a leaf of the walk is made of, as moves of the machine.  An operation
of the walk ends either still walking or at rest (`Ends`); one that may block ends
quietly, or has stopped (`Blocks`).  Leaves and the walk itself are in
`Rescind.Turn.Leaves`.
-/
import Rescind.Turn.Reverts

namespace Rescind

open Lib Lib.Prog

variable {σ α : Type} (E : Setting σ)

/-- The plan is being walked. -/
def Walking (φ : Phase) (w : World σ) : Prop := φ = .walking ∧ w.hand.state = .applying

/-- A walk is due. -/
def Starting (φ : Phase) (w : World σ) : Prop := φ = .starting ∧ w.hand.state = .applying

/-- How an operation of the walk ends. -/
def Ends : Flow → Phase → World σ → Prop
  | .continue_, φ, w => Walking φ w
  | .stop, φ, _ => φ = .resting

/-- How an operation that may block ends: quietly, with something settled, or
stopped. -/
def Blocks (φ : Phase) (w : World σ) (P : Prop) : Option Flow → Phase → World σ → Prop
  | none, φ', w' => φ' = φ ∧ Remarked w w' ∧ P
  | some flow, φ', w' => Stops flow φ' w'

/-- The operation stayed in its phase, quietly. -/
def Stays (w : World σ) (φ φ' : Phase) (w' : World σ) : Prop := φ' = φ ∧ Quiet w w'

theorem Stops.ends {flow : Flow} {φ : Phase} {w : World σ} (h : Stops flow φ w) :
    Ends flow φ w := by
  obtain ⟨rfl, h⟩ := h
  exact h

section
variable {φ : Phase} {w : World σ}

/-! ## Stranded -/

theorem turns_strand {why : Strand} {e : EngineError} {Q : α → Phase → World σ → Prop} :
    Turns E φ (strand why e) Q w :=
  Turns.hand E (Turns.remark E rfl rfl trivial (Traces.fail (drops_stranded E ⟨_, List.mem_cons_self⟩)))

theorem turns_ownerHost (h : φ.settled = true ∨ w.hand.state = .applying) :
    Turns E φ (ownerHost E) (fun _ φ' w' => φ' = φ ∧ w' = w) w := by
  refine Turns.hand E (Turns.hosts E ?_)
  cases hostOf E w.hosts w.hand.plan.owner with
  | some host => exact Traces.pure ⟨rfl, rfl⟩
  | none =>
      by_cases hs : w.hand.state = .applying
      · refine Traces.bind (R := fun _ φ' w' => φ' = φ ∧ Stranded w'.hand.id w'.acts) ?_ ?_
        · exact Traces.when (fun _ => Traces.eval rfl (.remark _ rfl rfl trivial) ⟨rfl, _, List.mem_cons_self⟩)
            fun hf => absurd (by simp [hs]) (ne_true_of_eq_false hf)
        · rintro _ _ w' ⟨rfl, hst⟩
          exact Traces.fail (drops_stranded E hst)
      · refine Traces.bind (R := fun _ φ' _ => φ' = φ) ?_ ?_
        · exact Traces.when (fun ht => absurd (of_decide_eq_true ht) hs) fun _ => rfl
        · rintro _ _ w' rfl
          exact Traces.fail (drops_settled E (h.resolve_right hs))

/-! ## Waiting and deferring -/

/-- An event that takes every applying instance to one state. -/
theorem turns_leave {ev : Event} {s : State} (hf : φ.feeds ev = true)
    (ht : ∀ ctx, transition ctx .applying ev = .to s) (hs : w.hand.state = .applying) :
    Turns E φ (step E ev) (fun _ φ' _ => φ' = s.phase) w := by
  have ht' : transition w.hand.ctx w.hand.state ev = .to s := by rw [hs, ht]
  have hl : ev ≠ .waitSatisfied := by
    rintro rfl
    exact nomatch edge_of_transition (ht w.hand.ctx)
  refine Traces.mono (turns_step E (fun _ _ => hf) (fun h _ => absurd ht' (h s))
    fun h => absurd h hl) ?_
  rintro _ φ' w' (⟨s', h, rfl, -⟩ | ⟨h, -, -⟩)
  · rw [ht'] at h
    cases h
    rfl
  · rw [ht'] at h
    cases h

theorem transition_waitAtStep (ctx : Ctx) : transition ctx .applying .waitAtStep = .to .waiting := by
  obtain ⟨intent, mode, hold, lapse⟩ := ctx
  cases intent <;> rfl

theorem transition_deferAtStep (ctx : Ctx) :
    transition ctx .applying .deferAtStep = .to .deferred := by
  obtain ⟨intent, mode, hold, lapse⟩ := ctx
  cases intent <;> rfl

/-- Where a guard may stop the walk. -/
def Phase.guards (φ : Phase) : Prop := φ.feeds .refuse = true ∧ φ.feeds .waitAtStep = true

theorem WindowAt.congr {r r' : InstanceRecord} {n : Nat} {window : Option Duration}
    (h : WindowAt r n window) (hir : r'.ir = r.ir) : WindowAt r' n window := by
  simpa only [WindowAt, InstanceRecord.plan, hir] using h

theorem turns_wait (n : Nat) (reason : String) (guard : Option String) (window : Option Duration)
    (hw : WindowAt w.hand n window) (hf : φ.guards) (hs : w.hand.state = .applying) :
    Turns E φ (wait E n reason guard (stepBound w.hand window)) Stops w := by
  refine Turns.quietly E (keeps_ask E _) fun now w₁ h₁ => ?_
  have hb : (stepBound w.hand window).map now.plus = (stepBound w₁.hand window).map now.plus := by
    simp only [stepBound, h₁.ir]
  refine Turns.amend E (fun _ => rfl) (.wait (hw.congr h₁.ir) hb) ?_
  refine Traces.bind (turns_leave E hf.2 transition_waitAtStep (h₁.state.trans hs))
    fun _ φ₃ w₃ h₃ => ?_
  subst h₃
  exact Turns.quietly E (keeps_log E _) fun _ _ _ => Traces.pure ⟨rfl, rfl⟩

theorem turns_defer (n iteration : Nat) (vars : Vars) (op : Op) (why : String)
    (hs : w.hand.state = .applying) :
    Turns E .walking (defer E n iteration vars op why) Stops w := by
  refine Turns.setHand E (fun _ => rfl) fun w₁ h₁ _ => ?_
  have hs₁ : w₁.hand.state = .applying := by rw [h₁.state, hs]
  refine Traces.bind (turns_leave E rfl transition_deferAtStep hs₁) fun _ φ₂ w₂ h₂ => ?_
  subst h₂
  exact Turns.quietly E (keeps_log E _) fun _ _ _ => Traces.pure ⟨rfl, rfl⟩

/-! ## What may block -/

/-- A stop is a block. -/
theorem Turns.blocked {m : Eng σ Flow} {φ₀ : Phase} {w₀ : World σ} {P : Prop}
    (h : Turns E φ m Stops w) : Turns E φ (some <$> m) (Blocks φ₀ w₀ P) w :=
  Traces.bind h fun _ _ _ hs => Traces.pure hs

/-- Past what blocks, the rest goes on where it left off. -/
theorem Turns.unblocked {m : Eng σ (Option Flow)} {f : Option Flow → Eng σ α} {P : Prop}
    {Q : α → Phase → World σ → Prop} (h : Turns E φ m (Blocks φ w P) w)
    (hsome : ∀ flow φ' w', Stops flow φ' w' → Turns E φ' (f (some flow)) Q w')
    (hnone : ∀ acts w', Quiet { w with acts } w' → P → Turns E φ (f none) Q w') :
    Turns E φ (m >>= f) Q w := by
  refine Traces.bind h fun x φ' w' hx => ?_
  cases x with
  | some flow => exact hsome flow φ' w' hx
  | none =>
      obtain ⟨rfl, ⟨acts, hq⟩, hP⟩ := hx
      exact hnone acts w' hq hP

/-- What blocks after something quiet. -/
theorem Blocks.after {φ' : Phase} {w₁ w₂ : World σ} {P P' : Prop} {x : Option Flow}
    (h : Remarked w w₁) (hP : P → P') (hb : Blocks φ w₁ P x φ' w₂) : Blocks φ w P' x φ' w₂ := by
  cases x with
  | some flow => exact hb
  | none => exact ⟨hb.1, h.trans hb.2.1, hP hb.2.2⟩

theorem turns_search {γ : Type} {f : γ → Eng σ (Option Flow)} (xs : List γ)
    (h : ∀ x (w : World σ), w.hand.state = .applying → Turns E φ (f x) (Blocks φ w True) w)
    (hs : w.hand.state = .applying) : Turns E φ (search f xs) (Blocks φ w True) w := by
  induction xs generalizing w with
  | nil => exact Traces.pure ⟨rfl, Remarked.refl w, trivial⟩
  | cons x xs ih =>
      refine Turns.unblocked E (h x w hs) (fun flow φ' w' hst => Traces.pure hst)
        fun acts w' hq _ => ?_
      exact Traces.mono (ih (hq.state.trans hs)) fun y φ' w'' => Blocks.after ⟨acts, hq⟩ id

theorem turns_guardBlocksWithBound (n : Nat) (g : Guard) (force : List ForceName)
    (window : Option Duration) (hw : WindowAt w.hand n window) (hf : φ.guards)
    (hs : w.hand.state = .applying) :
    Turns E φ (guardBlocksWithBound E n g force (stepBound w.hand window)) (Blocks φ w True) w := by
  refine Traces.bind (turns_ownerHost E (.inr hs)) fun owner φ₁ w₁ h₁ => ?_
  obtain ⟨rfl, rfl⟩ := h₁
  refine Turns.quietly E (Keeps.attempt (keeps_observeTri E owner g.name)) fun x w₂ h₂ => ?_
  have hs₂ : w₂.hand.state = .applying := by rw [h₂.state, hs]
  match x with
  | .error e => exact Turns.blocked E (turns_refuse E n e hf.1 hs₂)
  | .ok .yes => exact Traces.pure ⟨rfl, h₂.remarked, trivial⟩
  | .ok .no => exact Turns.blocked E (turns_refuse E n _ hf.1 hs₂)
  | .ok .unknown =>
      refine Turns.hand E ?_
      split
      · exact Traces.pure ⟨rfl, h₂.remarked, trivial⟩
      · have hb : stepBound w₁.hand window = stepBound w₂.hand window := by
          simp only [stepBound, h₂.ir]
        rw [hb]
        exact Turns.blocked E (turns_wait E n _ _ window (hw.congr h₂.ir) hf hs₂)

theorem turns_guardBlocks (n : Nat) (force : List ForceName) (g : Guard) (hf : φ.guards)
    (hs : w.hand.state = .applying) : Turns E φ (guardBlocks E n force g) (Blocks φ w True) w :=
  Turns.hand E (turns_guardBlocksWithBound E n g force none (.inl rfl) hf hs)

/-! ## The backstop around the walk -/

/-- How what is done of the backstop before a leaf ends. -/
def Shields (w : World σ) (n : Nat) : Option Flow → Phase → World σ → Prop
  | none, φ', w' => Tended w .walking φ' w' ∧ Shielded w'.hand n
  | some flow, φ', w' => Stops flow φ' w'

theorem coverage_congr {r r' : InstanceRecord} (h : r'.core = r.core) :
    coverage r'.plan = coverage r.plan := by
  have hir : r'.ir = r.ir := congrArg Core.ir h
  simp only [InstanceRecord.plan, hir]

theorem Tended.coverage {φ' : Phase} {w' : World σ} (h : Tended w φ φ' w') :
    coverage w'.hand.plan = coverage w.hand.plan := coverage_congr h.core

theorem Tended.rehearsal {φ' : Phase} {w' : World σ} (h : Tended w φ φ' w') :
    w'.hand.rehearsal = w.hand.rehearsal := congrArg Core.rehearsal h.core

/-- Before the first covered step there is nothing to shield. -/
theorem shielded_of_none {n : Nat} {cov : Coverage} (hc : coverage w.hand.plan = some cov)
    (hn : cov.covered = []) : Shielded w.hand n := by
  intro _ cov' first hc' hf _
  obtain rfl : cov = cov' := Option.some.inj (hc.symm.trans hc')
  have hh : cov.installedBefore = cov.covered.head? := by
    obtain ⟨b, -, rfl⟩ := Option.map_eq_some_iff.mp hc
    rfl
  rw [hh, hn] at hf
  cases hf

theorem turns_backstopBeforeLeaf (n : Nat) (hs : w.hand.state = .applying) :
    Turns E .walking (backstopBeforeLeaf E n) (Shields w n) w := by
  refine Turns.hand E ?_
  rcases hc : coverage w.hand.plan with _ | cov
  · exact Traces.pure ⟨(Quiet.refl w).tended, fun _ cov _ hc' => by rw [hc] at hc'; cases hc'⟩
  · dsimp only
    split
    next he =>
      exact Traces.pure ⟨(Quiet.refl w).tended, shielded_of_none hc (List.isEmpty_iff.mp he)⟩
    next he =>
      have hne : cov.covered ≠ [] := fun h => he (List.isEmpty_iff.mpr h)
      refine Traces.bind (R := fun x φ' w' => Tended w .walking φ' w' ∧
        (x = .ok () → w.hand.rehearsal = false →
          (cov.installedBefore.any fun first => first ≤ n) = true → HasInstalled w'.hand)) ?_ ?_
      · split
        · refine Traces.mono (turns_backstopInstall E) fun x φ₁ w₁ h₁ => ⟨h₁.1, fun hx hr _ => ?_⟩
          rcases h₁.2 hx with h | h | ⟨hosts, h⟩
          · rw [hr] at h
            cases h
          · exact h
          · exact absurd h (backstopHost_ne_none E hc hne)
        next hb => exact Traces.pure ⟨(Quiet.refl w).tended, fun _ _ h => absurd h hb⟩
      · rintro installed φ₁ w₁ ⟨h₁, hin⟩
        obtain rfl := h₁.phase
        have hs₁ : w₁.hand.state = .applying := h₁.state.trans hs
        cases installed with
        | error why => exact Traces.bind (turns_refuse E n why rfl hs₁) fun _ _ _ h => Traces.pure h
        | ok u =>
            refine Traces.bind (R := fun x φ' w' => Tended w₁ .walking φ' w' ∧
              (x = .ok () → w.hand.rehearsal = false → HasInstalled w₁.hand →
                HasInstalled w'.hand ∧ (cov.armedBeforeStep ≤ n → HasArmed w'.hand))) ?_ ?_
            · split
              · refine Traces.mono (turns_backstopArm E) fun x φ₂ w₂ h₂ => ⟨h₂.1, fun hx hr hi => ?_⟩
                have ha := h₂.2 hx (h₁.rehearsal.trans hr) hi
                exact ⟨ha.installed, fun _ => ha⟩
              next hb =>
                exact Traces.pure ⟨(Quiet.refl w₁).tended, fun _ _ hi => ⟨hi, fun h => absurd h hb⟩⟩
            · rintro armed φ₂ w₂ ⟨h₂, har⟩
              obtain rfl := h₂.phase
              have hs₂ : w₂.hand.state = .applying := h₂.state.trans hs₁
              cases armed with
              | error why =>
                  exact Traces.bind (turns_refuse E n why rfl hs₂) fun _ _ _ h => Traces.pure h
              | ok u =>
                  have ht := h₁.trans h₂
                  refine Traces.pure ⟨ht, fun hr cov' first hc' hf hle => ?_⟩
                  obtain rfl : cov = cov' :=
                    Option.some.inj (hc.symm.trans (ht.coverage.symm.trans hc'))
                  have hr' : w.hand.rehearsal = false := ht.rehearsal.symm.trans hr
                  obtain ⟨⟨st, hb, hi⟩, ha⟩ := har rfl hr' (hin rfl hr' (by simp [hf, hle]))
                  refine ⟨st, hb, hi, fun hle' => ?_⟩
                  obtain ⟨st', hb', -, ha'⟩ := ha hle'
                  obtain rfl : st = st' := Option.some.inj (hb.symm.trans hb')
                  exact ha'

theorem turns_backstopAfterWalk (hs : w.hand.state = .applying) :
    Turns E .walking (backstopAfterWalk E) Ends w := by
  have refused : ∀ (w' : World σ) n why, w'.hand.state = .applying →
      Turns E .walking (refuse E n why) Ends w' := fun w' n why hs' =>
    Traces.mono (turns_refuse E n why rfl hs') fun _ _ _ => Stops.ends
  refine Turns.hand E ?_
  cases coverage w.hand.plan with
  | none => exact Traces.pure ⟨rfl, hs⟩
  | some cov =>
      dsimp only
      split
      · exact Traces.pure ⟨rfl, hs⟩
      · refine Traces.bind (turns_backstopInstall E) fun installed φ₁ w₁ h₁ => ?_
        obtain rfl := h₁.1.phase
        have hs₁ : w₁.hand.state = .applying := h₁.1.state.trans hs
        cases installed with
        | error why => exact refused w₁ _ why hs₁
        | ok u =>
            refine Traces.bind (turns_backstopArm E) fun armed φ₂ w₂ h₂ => ?_
            obtain rfl := h₂.1.phase
            have hs₂ : w₂.hand.state = .applying := h₂.1.state.trans hs₁
            cases armed with
            | error why => exact refused w₂ _ why hs₂
            | ok u => exact Traces.pure ⟨rfl, hs₂⟩

/-! ## Gates and acknowledgements -/

theorem yields_authenticators :
    Yields (fun auths => auths = [] ∨ Said E .authenticators (.ok auths)) (authenticators E) := by
  unfold authenticators
  cases E.approval with
  | none => exact Yields.pure (.inl rfl)
  | some _ =>
      refine Yields.bind (yields_ask E _) fun x hx => ?_
      cases x with
      | ok auths => exact Yields.pure (.inr hx)
      | error e => exact Yields.pure (.inl rfl)

/-- What meets a gate is in the proofs and the time of the request. -/
theorem GateMet.congr {r r' : InstanceRecord} {scope : Scope} {g : GateExpr}
    (hp : r'.proofs = r.proofs) (hq : r'.requestedAt = r.requestedAt) (h : GateMet E r scope g) :
    GateMet E r' scope g := by
  simpa only [GateMet, GateOpens, proofsFor, hp, hq] using h

/-- The digest of a request is read off the record and its docket. -/
theorem scopeDigest_congr {r r' : InstanceRecord} (hc : r'.core.identity = r.core.identity)
    (hn : r'.docket.nonce = r.docket.nonce) (hh : r'.docket.hostContract = r.docket.hostContract)
    (hq : r'.docket.requestedAt = r.docket.requestedAt) (scope : Scope) :
    scopeDigest E r' scope = scopeDigest E r scope := by
  have hid : r'.id = r.id := Core.id_eq_of_identity hc
  have hir : r'.ir = r.ir := congrArg (fun x => x.2.1) hc
  have hp : r'.params = r.params := congrArg (fun x => x.2.2.1) hc
  have hn : r'.nonce = r.nonce := hn
  have hh : r'.hostContract = r.hostContract := hh
  have hq : r'.requestedAt = r.requestedAt := hq
  simp only [scopeDigest, InstanceRecord.plan, hid, hir, hp, hn, hh, hq]

theorem Quiet.scopeDigest {w' : World σ} (h : Quiet w w') (scope : Scope) :
    scopeDigest E w'.hand scope = scopeDigest E w.hand scope :=
  scopeDigest_congr E (congrArg Core.identity h.hand) (congrArg Docket.nonce h.docket)
    (congrArg Docket.hostContract h.docket) (congrArg Docket.requestedAt h.docket) scope

theorem Quiet.proofsFor {w' : World σ} (h : Quiet w w') (scope : Scope) :
    proofsFor w'.hand scope = proofsFor w.hand scope := by
  have hp : w'.hand.proofs = w.hand.proofs := congrArg Docket.proofs h.docket
  simp only [Rescind.proofsFor, hp]

/-- The proofs of a scope, counted for a gate. -/
def World.counting (E : Setting σ) (w : World σ) (scope : Scope) (aus : List String) : World σ :=
  w.noted (.counted w.hand.id scope aus (scopeDigest E w.hand scope))

theorem Quiet.counting {w' : World σ} (h : Quiet w w') (scope : Scope) (aus : List String) :
    Quiet (w.counting E scope aus)
      (w'.noted (.counted w.hand.id scope aus (Rescind.scopeDigest E w.hand scope))) :=
  h.noted _

/-- The scope of a gate: not an acknowledgement's. -/
def Scope.Gated : Scope → Prop
  | .ack _ => False
  | _ => True

theorem tallies_of_gated {scope : Scope} (h : scope.Gated) :
    Tallies E w scope (Rescind.proofsFor w.hand scope) := by
  cases scope with
  | plan | step n => rfl
  | ack n => exact h.elim

theorem turns_gateSatisfied (scope : Scope) (g : GateExpr) (hsc : scope.Gated) :
    Turns E φ (gateSatisfied E scope g) (fun opens φ' w' => φ' = φ ∧
      Quiet (w.counting E scope (proofsFor w.hand scope)) w' ∧
      (opens = true → GateMet E w.hand scope g)) w := by
  refine Turns.hand E (Turns.quietYields E (keeps_authenticators E) (yields_authenticators E)
    fun auths w₁ h₁ ha => Turns.quietYields E (keeps_ask E _) (yields_ask E _)
    fun now w₂ h₂ hn => ?_)
  have hq := h₁.trans h₂
  refine Turns.remark E rfl hq.id.symm ⟨(hq.scopeDigest E scope).symm, ?_⟩ ?_
  · rw [← hq.proofsFor]
    exact tallies_of_gated E hsc
  · have hc := hq.counting E scope (proofsFor w.hand scope)
    split
    next ho => exact Traces.pure ⟨rfl, hc, fun _ => .inl ho⟩
    · exact Traces.pure ⟨rfl, hc, fun h => .inr ⟨auths, now, ha, hn, h⟩⟩

theorem turns_gateBlocks (n : Nat) (s : StepI) (hw : WindowAt w.hand n s.window) (hs : w.hand.state = .applying) :
    Turns E .walking (gateBlocks E n s) (Blocks .walking w
      (w.hand.rehearsal = false → ∀ g, s.gate = some g → GateMet E w.hand (.step n) g)) w := by
  refine Turns.hand E ?_
  split
  next g hg hr =>
    refine Traces.bind (turns_gateSatisfied E _ _ trivial) fun opens φ₁ w₁ h₁ => ?_
    obtain ⟨rfl, h₁, hmet⟩ := h₁
    split
    next ho =>
      refine Traces.pure ⟨rfl, ⟨_, h₁⟩, fun _ g' hg' => ?_⟩
      obtain rfl : g = g' := Option.some.inj (hg.symm.trans hg')
      exact hmet ho
    · refine Turns.quietly E (keeps_log E _) fun _ w₂ h₂ => ?_
      have hir : w₂.hand.ir = w.hand.ir := h₂.ir.trans h₁.ir
      have hb : stepBound w.hand s.window = stepBound w₂.hand s.window := by
        simp only [stepBound, hir]
      rw [hb]
      exact Turns.blocked E (turns_wait E n _ _ _ (hw.congr hir) ⟨rfl, rfl⟩
        (h₂.state.trans (h₁.state.trans hs)))
  next hno =>
    exact Traces.pure ⟨rfl, Remarked.refl w, fun hr g hg => absurd hr (hno g hg)⟩

theorem turns_costText (cost : Cost) (hs : w.hand.state = .applying) :
    Turns E .walking (costText E cost) (fun _ => Stays w .walking) w := by
  refine Turns.hand E ?_
  cases cost with
  | noCost reason => exact Traces.pure ⟨rfl, Quiet.refl w⟩
  | probe p =>
      dsimp only
      split
      · exact Traces.pure ⟨rfl, Quiet.refl w⟩
      · refine Traces.bind (turns_ownerHost E (.inr hs)) fun owner φ₁ w₁ h₁ => ?_
        obtain ⟨rfl, rfl⟩ := h₁
        refine Turns.quietly E (Keeps.attempt (keeps_observeText E owner p)) fun x w₂ h₂ => ?_
        cases x with
        | ok text => exact Traces.pure ⟨rfl, h₂⟩
        | error e => exact Traces.pure ⟨rfl, h₂⟩

theorem Quiet.acks {w' : World σ} (h : Quiet w w') : w'.hand.acks = w.hand.acks :=
  congrArg Docket.acks h.docket

theorem turns_ackBlocks (n : Nat) (s : StepI) (cost : Cost) (hw : WindowAt w.hand n s.window) (hs : w.hand.state = .applying) :
    Turns E .walking (ackBlocks E n s cost) (Blocks .walking w (n ∈ w.hand.acks)) w := by
  refine Traces.bind (turns_costText E cost hs) fun x φ₁ w₁ h₁ => ?_
  obtain ⟨rfl, h₁⟩ := h₁
  have hs₁ : w₁.hand.state = .applying := by rw [h₁.state, hs]
  cases x with
  | error e => exact Turns.blocked E (turns_refuse E n _ rfl hs₁)
  | ok text =>
      refine Turns.hand E ?_
      split
      next ha =>
        refine Turns.quietly E (keeps_log E _) fun _ _ h₂ =>
          Traces.pure ⟨rfl, (h₁.trans h₂).remarked, ?_⟩
        rw [← h₁.acks]
        exact List.contains_iff_mem.mp ha
      · refine Turns.quietly E (keeps_log E _) fun _ w₂ h₂ => ?_
        have hb : stepBound w₁.hand s.window = stepBound w₂.hand s.window := by
          simp only [stepBound, h₂.ir]
        rw [hb]
        exact Turns.blocked E (turns_wait E n _ _ _ (hw.congr (h₂.ir.trans h₁.ir)) ⟨rfl, rfl⟩
          (by rw [h₂.state, hs₁]))

theorem turns_knellBlocks (n : Nat) (s : StepI) (hw : WindowAt w.hand n s.window) (hs : w.hand.state = .applying) :
    Turns E .walking (knellBlocks E n s) (Blocks .walking w
      (∀ guard cost g, s.op.refusal = .knell guard cost (.gate g) → n ∈ w.hand.acks)) w := by
  unfold knellBlocks
  split
  next guard cost ack hk =>
    refine Turns.unblocked E
      (turns_search E _ (fun g _ hs => turns_guardBlocks E n s.force g ⟨rfl, rfl⟩ hs) hs)
      (fun flow φ' w' hst => Traces.pure hst) fun acts w₁ h₁ _ => ?_
    have hs₁ : w₁.hand.state = .applying := h₁.state.trans hs
    dsimp only
    split
    · exact Traces.mono (turns_ackBlocks E n s _ (hw.congr h₁.ir) hs₁) fun _ _ _ =>
        Blocks.after ⟨acts, h₁⟩ fun hm _ _ _ _ => h₁.acks ▸ hm
    next ha =>
      refine Traces.pure ⟨rfl, ⟨acts, h₁⟩, fun _ _ g hr => absurd ?_ ha⟩
      rw [hk] at hr
      cases hr
      rfl
  next hno => exact Traces.pure ⟨rfl, Remarked.refl w, fun _ _ _ hr => absurd hr (hno _ _ _)⟩

theorem turns_stepBlocks (n : Nat) (s : StepI) (knell : Bool) (hw : WindowAt w.hand n s.window)
    (hs : w.hand.state = .applying) :
    Turns E .walking (stepBlocks E n s knell) (Blocks .walking w
      ((w.hand.rehearsal = false → ∀ g, s.gate = some g → GateMet E w.hand (.step n) g) ∧
        (knell = true → ∀ guard cost g, s.op.refusal = .knell guard cost (.gate g) →
          n ∈ w.hand.acks))) w := by
  refine Turns.unblocked E (turns_gateBlocks E n s hw hs) (fun _ _ _ hst => Traces.pure hst)
    fun acts₁ w₁ h₁ hgate => ?_
  have hs₁ : w₁.hand.state = .applying := h₁.state.trans hs
  refine Turns.unblocked E
    (turns_search E _ (fun g _ hs => turns_guardBlocks E n s.force g ⟨rfl, rfl⟩ hs) hs₁)
    (fun _ _ _ hst => Traces.pure hst) fun acts₂ w₂ h₂ _ => ?_
  have hs₂ : w₂.hand.state = .applying := h₂.state.trans hs₁
  have hq := (h₁.recalling acts₂).trans h₂
  dsimp only
  split
  · refine Traces.mono (turns_knellBlocks E n s (hw.congr hq.ir) hs₂) fun _ _ _ =>
      Blocks.after ⟨acts₂, hq⟩ fun hack => ?_
    rw [hq.acks] at hack
    exact ⟨hgate, fun _ => hack⟩
  next hk => exact Traces.pure ⟨rfl, ⟨acts₂, hq⟩, hgate, fun h => absurd h hk⟩

/-! ## Before `do` -/

theorem turns_snapshotFacts (a : AppliedStep) (i : Nat) (host : Host)
    (facts : List (Nat × FootprintEntry × String)) (pre : Watched) :
    Turns E φ (snapshotFacts E a i host facts pre) (fun _ => Stays w φ) w := by
  induction facts generalizing w pre with
  | nil => exact Traces.pure ⟨rfl, Quiet.refl w⟩
  | cons f rest ih =>
      obtain ⟨k, e, path⟩ := f
      refine Turns.quietly E (Keeps.attempt (keeps_factBytes E host e.shape)) fun x w₁ h₁ => ?_
      cases x with
      | error why => exact Traces.pure ⟨rfl, h₁⟩
      | ok bytes =>
          dsimp only
          split
          · split
            · exact turns_strand E
            · refine Turns.quietly E (keeps_keepSnapshot E a i host k _) fun _ w₂ h₂ => ?_
              exact Traces.mono (ih _) fun _ _ _ h => ⟨h.1, (h₁.trans h₂).trans h.2⟩
          · exact Traces.mono (ih _) fun _ _ _ h => ⟨h.1, h₁.trans h.2⟩

theorem turns_snapshot (a : AppliedStep) (op : Op) (host : Host) :
    Turns E φ (snapshot E a op host) (fun _ => Stays w φ) w := by
  unfold snapshot
  cases executorIndex E host with
  | none => exact Turns.quietly E (keeps_persist E) fun _ _ h => Traces.pure ⟨rfl, h⟩
  | some i =>
      refine Traces.bind (turns_snapshotFacts E a i host _ _) fun x φ₁ w₁ h₁ => ?_
      obtain ⟨rfl, h₁⟩ := h₁
      cases x with
      | error why => exact Traces.pure ⟨rfl, h₁⟩
      | ok pre =>
          exact Turns.setHand E (fun _ => rfl) fun _ h₂ _ =>
            Turns.quietly E (keeps_persist E) fun _ _ h₃ =>
            Traces.pure ⟨rfl, (h₁.trans h₂).trans h₃⟩

theorem turns_readBefore (a : AppliedStep) (op : Op) (host : Host) :
    Turns E φ (readBefore E a op host) (fun _ => Stays w φ) w := by
  refine Traces.bind (turns_snapshot E a op host) fun x φ₁ w₁ h₁ => ?_
  obtain ⟨rfl, h₁⟩ := h₁
  cases x with
  | error why => exact Traces.pure ⟨rfl, h₁⟩
  | ok pre =>
      refine Turns.quietly E (Keeps.attempt (keeps_watched E host a)) fun y w₂ h₂ => ?_
      cases y with
      | error why => exact Traces.pure ⟨rfl, h₁.trans h₂⟩
      | ok before => exact Traces.pure ⟨rfl, h₁.trans h₂⟩

/-! ## After `do` -/

/-- An application may be marked: it stands, or it is no step's. -/
def Markable (w : World σ) (a : AppliedStep) : Prop :=
  standing w.hand.id a w.acts = true ∨ w.hand.opAt a.step = none

theorem Markable.quiet {w' : World σ} {a : AppliedStep} (h : Markable w a) (hq : Quiet w w') :
    Markable w' a := by
  unfold Markable
  rw [hq.id, hq.acts, hq.opAt]
  exact h

/-- The phase marking an application leads to: its post guards, where there are
any to ask. -/
def Marks (w : World σ) (a : AppliedStep) (φ : Phase) : Prop :=
  φ = .guarding a ∨ φ = .walking ∧ (w.hand.opAt a.step = none ∨ w.hand.rehearsal = true)

theorem turns_markApplied {k : Unit → Eng σ α} {Q : α → Phase → World σ → Prop} {a : AppliedStep}
    (hm : Markable w a) (hφ : Marks w a φ)
    (hk : ∀ w', w'.hand.state = w.hand.state → w'.hand.rehearsal = w.hand.rehearsal →
      Turns E φ (k ()) Q w') :
    Turns E .walking (markApplied E a >>= k) Q w := by
  -- what was in flight is no longer: the docket goes first
  let r : InstanceRecord := { w.hand with attempting := none, attemptingPre := [] }
  have h : Turns E .walking (markApplied E a) (fun _ φ' w' => φ' = φ ∧
      w'.hand.state = w.hand.state ∧ w'.hand.rehearsal = w.hand.rehearsal) w := by
    refine Pending.start (Pending.via (.amend (r := r) rfl .clear) (Pending.editBind ?_))
    unfold Pending
    rcases persist_cases E _ with ⟨w', h, hw⟩ | ⟨x, w', h, hne, hst, ha⟩
    · rw [h]
      have hp := Written.puts (w := { w with hand := r }) (by rfl) (by rfl) hw
      exact ⟨φ, .single (.mark rfl hm hφ hp), rfl, by rw [hw.hand], by rw [hw.hand]⟩
    · rw [h]
      have hd : Drops E .walking { w with hand := r } w' :=
        ⟨fun j => by rw [hst.instances], hst.frame, .inr (.inr ha)⟩
      cases x with
      | ok u => exact absurd rfl (hne u)
      | err e => exact ⟨.walking, _, .refl, hd⟩
      | died => exact ⟨.walking, _, .refl, hd⟩
  refine Traces.bind h fun _ φ' w' h' => ?_
  obtain ⟨rfl, hst, hr⟩ := h'
  exact hk w' hst hr

theorem turns_afterStep {a : AppliedStep} (op : Op) (hm : Markable w a)
    (hs : w.hand.state = .applying) : Turns E .walking (afterStep E a op) Ends w := by
  by_cases hr : w.hand.rehearsal = true
  · refine turns_markApplied E (φ := .walking) hm (.inr ⟨rfl, .inr hr⟩) fun w₁ h₁ hr₁ => Turns.hand E ?_
    rw [if_pos (hr₁.trans hr)]
    exact Traces.pure ⟨rfl, h₁.trans hs⟩
  · refine turns_markApplied E (φ := .guarding a) hm (.inl rfl) fun w₁ h₁ hr₁ => Turns.hand E ?_
    rw [if_neg (by rw [hr₁]; exact hr)]
    refine Turns.unblocked E
      (turns_search E _ (fun g _ hs => turns_guardBlocks E _ [] g ⟨rfl, rfl⟩ hs) (h₁.trans hs))
      (fun _ _ _ hst => Traces.pure hst.ends) fun _ w₂ h₂ _ => ?_
    refine Turns.quietly E (keeps_removeStaged E _ _) fun _ w₃ h₃ => Turns.hand E ?_
    refine Traces.editBind .pass (Traces.pure ⟨rfl, ?_⟩)
    exact (h₃.state.trans h₂.state).trans (h₁.trans hs)

theorem turns_writeMarkers (host : Host) (a : AppliedStep) (op : Op) :
    Turns E φ (writeMarkers E host a op) (fun _ => Stays w φ) w := by
  refine Turns.hand E (Turns.hosts E ?_)
  refine Turns.quietly E (Keeps.attempt (keeps_readMarkers E host op)) fun x w₁ h₁ => ?_
  cases x with
  | error why => exact Traces.pure ⟨rfl, h₁⟩
  | ok ms =>
      dsimp only
      split
      · refine Turns.quietly E (keeps_ask E _) fun put w₂ h₂ => ?_
        cases put with
        | error e => exact turns_strand E
        | ok u =>
            refine Turns.setHand E (fun _ => rfl) fun w₃ h₃ _ => Turns.hand E ?_
            refine Turns.quietly E (keeps_ask E _) fun written w₄ h₄ => ?_
            cases written with
            | error e => exact turns_strand E
            | ok u =>
                exact Turns.quietly E (keeps_persist E) fun _ _ h₅ =>
                  Traces.pure ⟨rfl, (((h₁.trans h₂).trans h₃).trans h₄).trans h₅⟩
      · exact Turns.setHand E (fun _ => rfl) fun _ h₂ _ =>
          Turns.quietly E (keeps_persist E) fun _ _ h₃ =>
          Traces.pure ⟨rfl, (h₁.trans h₂).trans h₃⟩

/-- A failed `do`: its application is undone, and the plan refused. -/
theorem turns_undoAndRefuse {a : AppliedStep} (op : Op) (pre : Watched)
    (hs : w.hand.state = .applying) :
    Turns E (.inFlight a) (undoFailed E a op pre >>= fun _ => refuseApplied E a.step) Ends w := by
  refine Traces.after .fail (Traces.bind (turns_undoFailed E op pre hs) fun _ φ₁ w₁ h₁ => ?_)
  obtain ⟨rfl, hs₁⟩ := h₁
  exact Traces.mono (turns_refuseApplied E _ rfl hs₁) fun _ _ _ => Stops.ends

theorem turns_failStep {a : AppliedStep} (op : Op) (pre : Watched) (why : String)
    (hs : w.hand.state = .applying) : Turns E (.inFlight a) (failStep E a op pre why) Ends w :=
  Turns.quietly E (keeps_log E _) fun _ _ h₁ => Turns.setHand E (fun _ => rfl) fun _ h₂ _ =>
    turns_undoAndRefuse E op pre (by rw [h₂.state, h₁.state, hs])

theorem turns_violateFootprint {a : AppliedStep} (op : Op) (pre : Watched) (changed : List String)
    (hs : w.hand.state = .applying) :
    Turns E (.inFlight a) (violateFootprint E a op pre changed) Ends w :=
  Turns.quietly E (keeps_log E _) fun _ _ h₁ => Turns.setHand E (fun _ => rfl) fun _ h₂ _ =>
    turns_undoAndRefuse E op pre (by rw [h₂.state, h₁.state, hs])

/-- A completed application stands. -/
theorem markable_completed (w : World σ) (a : AppliedStep) :
    Markable (w.noted (.completed w.hand.id a)) a := by
  refine .inl ?_
  simp [World.noted, standing]

theorem turns_afterDo {a : AppliedStep} (s : StepI) (op : Op) (host : Host) (pre before : Watched)
    (out : Vars) (hs : w.hand.state = .applying) :
    Turns E (.inFlight a) (afterDo E a s op host pre before out) Ends w := by
  unfold afterDo
  dsimp only
  split
  · exact turns_failStep E op pre _ hs
  · refine Turns.quietly E (Keeps.attempt (keeps_watched E host a)) fun x w₁ h₁ => ?_
    have hs₁ : w₁.hand.state = .applying := by rw [h₁.state, hs]
    cases x with
    | error why => exact turns_failStep E op pre why hs₁
    | ok after =>
        dsimp only
        split
        · exact turns_violateFootprint E op pre _ hs₁
        · refine Traces.bind (turns_writeMarkers E host a op) fun y φ₂ w₂ h₂ => ?_
          obtain ⟨rfl, h₂⟩ := h₂
          have hs₂ : w₂.hand.state = .applying := by rw [h₂.state, hs₁]
          cases y with
          | error why => exact turns_failStep E op pre why hs₂
          | ok u =>
              refine Turns.setHand E (fun _ => rfl) fun w₃ h₃ _ =>
                Turns.quietly E (keeps_log E _) fun _ w₄ h₄ => Turns.hand E ?_
              refine Traces.editBind (.finish (.inl rfl)) ?_
              refine Turns.quietly E (Keeps.loop _ (fun _ _ => keeps_deliverSecret E _ _) ())
                fun _ w₅ h₅ => ?_
              refine turns_afterStep E op ((markable_completed w₄ a).quiet h₅) ?_
              rw [h₅.state]
              exact (h₄.state.trans h₃.state).trans hs₂

theorem turns_runDo {a : AppliedStep} (s : StepI) (op : Op) (host : Host) (pre before : Watched)
    (body : List RPrim) (ha : a ∉ w.hand.applied) (hc : Cleared E w a) :
    Turns E .walking (runDo E a s op host pre before body) Ends w := by
  unfold runDo
  cases executorIndex E host with
  | none => exact turns_strand E
  | some i =>
      refine Turns.hand E (Traces.editBind (.start ha hc) ?_)
      refine Turns.quietly E (keeps_ask E _) fun x w₁ h₁ => ?_
      have hs₁ : w₁.hand.state = .applying := h₁.state.trans hc.state
      cases x with
      | ok out => exact turns_afterDo E s op host pre before _ hs₁
      | error e => exact turns_failStep E op pre e hs₁

/-- What the plan puts before a step does not depend on what is in flight. -/
theorem Opened.congr {r r' : InstanceRecord} {n : Nat} {x : Option AppliedStep}
    (hc : r'.core = r.core) (hd : r'.docket = { r.docket with attempting := x })
    (h : Opened E r n) : Opened E r' n := by
  have hir : r'.ir = r.ir := congrArg Core.ir hc
  have hr : r'.rehearsal = r.rehearsal := congrArg Core.rehearsal hc
  have hp : r'.proofs = r.proofs := congrArg Docket.proofs hd
  have hq : r'.requestedAt = r.requestedAt := congrArg Docket.requestedAt hd
  have hk : r'.acks = r.acks := congrArg Docket.acks hd
  have hb : r'.backstop = r.backstop := congrArg Docket.backstop hd
  constructor
  · intro g hg
    have hg' : (r.stepAt n).bind StepI.gate = some g := by
      simpa only [InstanceRecord.stepAt, InstanceRecord.plan, hir] using hg
    exact (h.gate g hg').congr E hp hq
  · intro g hg
    rw [hk]
    exact h.ack g (by simpa only [knellGate, InstanceRecord.plan, hir] using hg)
  · intro hr' cov first hcov hf hle
    rw [hb]
    exact h.shield (hr.symm.trans hr') cov first (coverage_congr hc ▸ hcov) hf hle

theorem turns_attemptStep {a : AppliedStep} (s : StepI) (host : Host) (ha : a ∉ w.hand.applied)
    (hs : w.hand.state = .applying) (ho : w.hand.rehearsal = false → Opened E w.hand a.step) :
    Turns E .walking (attemptStep E a s host) Ends w := by
  refine Turns.quietly E (keeps_log E _) fun _ w₁ h₁ => Turns.hand E
    (Turns.remark E rfl rfl ⟨rfl, by rw [h₁.applied]; exact ha⟩
      (Turns.amend E (fun _ => rfl) (.attempt rfl rfl) (Turns.persisted E fun w₂ h₂ hsy => ?_)))
  have hd₂ : w₂.hand.docket = { w.hand.docket with attempting := some a } := by
    rw [h₂.docket, ← h₁.docket]
    rfl
  have hc₂ : w₂.hand.core = w.hand.core := h₂.hand.trans h₁.hand
  have hs₂ : w₂.hand.state = .applying := (congrArg Core.state hc₂).trans hs
  have ha₂ : a ∉ w₂.hand.applied := by
    rw [show w₂.hand.applied = w.hand.applied from congrArg Core.applied hc₂]
    exact ha
  -- from here on everything is quiet until the `do` is handed over
  have cleared : ∀ w', Quiet w₂ w' → w₂.hand.rehearsal = false → Cleared E w' a := by
    intro w' hq hr
    refine ⟨hq.rehearsal.trans hr, ?_, hq.state.trans hs₂, hq.durable hsy, ?_⟩
    · exact congrArg Docket.attempting (hq.docket.trans hd₂)
    · exact (ho ((congrArg Core.rehearsal hc₂).symm.trans hr)).congr E (hq.hand.trans hc₂)
        (hq.docket.trans hd₂)
  have refused : ∀ (w' : World σ) why, Quiet w₂ w' →
      Turns E .walking (refuse E a.step why) Ends w' := fun w' why hq =>
    Traces.mono (turns_refuse E _ why rfl (hq.state.trans hs₂)) fun _ _ _ => Stops.ends
  refine Turns.hand E ?_
  split
  next hr =>
    refine Turns.quietly E (keeps_log E _) fun _ w₄ h₄ => ?_
    have hr₄ : w₄.hand.rehearsal = true := by rw [h₄.rehearsal]; exact hr
    have hid : w₂.hand.id = w₄.hand.id := h₄.id.symm
    rw [hid]
    refine Traces.editBind (.finish (.inr ⟨rfl, hr₄⟩)) ?_
    exact turns_afterStep E s.op (markable_completed w₄ a) (h₄.state.trans hs₂)
  next hr =>
    have hr' : w₂.hand.rehearsal = false := by simpa using hr
    refine Turns.quietly E (keeps_ensureInstanceDir E host) fun x w₄ h₄ => ?_
    cases x with
    | error why => exact refused w₄ why h₄
    | ok u =>
        dsimp only
        split
        · exact refused w₄ _ h₄
        next op _ =>
          refine Traces.bind (turns_readBefore E a op host) fun y φ₅ w₅ h₅ => ?_
          obtain ⟨rfl, h₅⟩ := h₅
          have hq₅ := h₄.trans h₅
          match y with
          | .error why =>
              refine Turns.amend E (fun _ => rfl) .clear ?_
              exact Traces.mono (turns_refuse E _ why rfl (hq₅.state.trans hs₂))
                fun _ _ _ => Stops.ends
          | .ok (pre, before) =>
              refine Turns.quietly E (Keeps.attempt (keeps_loadSecrets E _ _)) fun z w₆ h₆ => ?_
              have hq₆ := hq₅.trans h₆
              cases z with
              | error why => exact refused w₆ why hq₆
              | ok env =>
                  dsimp only
                  split
                  · exact refused w₆ _ hq₆
                  · exact turns_runDo E s op host pre before _ (by rw [hq₆.applied]; exact ha₂)
                      (cleared w₆ hq₆ hr')

/-- The leaf at a number is this step, or this knell. -/
def StepHere (r : InstanceRecord) (n : Nat) (s : StepI) (knell : Bool) : Prop :=
  leafAt r.plan.body n = some (if knell then .knell s else .step s)

/-- What was settled before a step is what the plan puts before it. -/
theorem opened_of {n : Nat} {s : StepI} {knell : Bool} {r : InstanceRecord}
    (hl : StepHere r n s knell) (hg : ∀ g, s.gate = some g → GateMet E r (.step n) g)
    (hk : knell = true → ∀ guard cost g, s.op.refusal = .knell guard cost (.gate g) → n ∈ r.acks)
    (hsh : Shielded r n) : Opened E r n := by
  unfold StepHere at hl
  refine ⟨fun g h => hg g ?_, fun g h => ?_, hsh⟩
  · rw [InstanceRecord.stepAt, hl] at h
    cases knell with
    | true => exact h
    | false => exact h
  · rw [knellGate, hl] at h
    cases knell with
    | false => cases h
    | true =>
        simp only [if_true] at h
        split at h
        next guard cost g' hr => exact hk rfl guard cost g' hr
        · cases h

theorem turns_runStep (n iteration : Nat) (s : StepI) (knell : Bool) (vars : Vars)
    (hl : StepHere w.hand n s knell) (hsh : Shielded w.hand n)
    (ha : (⟨n, iteration, vars⟩ : AppliedStep) ∉ w.hand.applied) (hs : w.hand.state = .applying) :
    Turns E .walking (runStep E n iteration s knell vars) Ends w := by
  refine Turns.hand E (Turns.hosts E ?_)
  split
  · exact Traces.mono (turns_defer E n iteration vars s.op _ hs) fun _ _ _ => Stops.ends
  · split
    · exact Traces.mono (turns_defer E n iteration vars s.op _ hs) fun _ _ _ => Stops.ends
    · split
      · exact Traces.mono (turns_refuse E n _ rfl hs) fun _ _ _ => Stops.ends
      · have hw : WindowAt w.hand n s.window := .inr (by rw [hl]; cases knell <;> rfl)
        refine Turns.unblocked E (turns_stepBlocks E n s knell hw hs)
          (fun _ _ _ hst => Traces.pure hst.ends) fun _ w₁ h₁ hopen => ?_
        refine turns_attemptStep E s _ (by rw [h₁.applied]; exact ha) (by rw [h₁.state, hs]) fun hr => ?_
        have hop := opened_of E hl (hopen.1 (h₁.rehearsal.symm.trans hr)) hopen.2 hsh
        exact hop.congr E h₁.hand h₁.docket

end

end Rescind
