/-
# `Rescind.Turn.Verbs` — every verb, the passes and boot as turns

From a record just loaded, or a fresh one in the case of `apply`, every verb
and every pass over one instance is a path of the machine that ends at rest.
-/
import Rescind.Turn.Leaves

namespace Rescind

open Lib Lib.Prog

variable {σ α : Type} (E : Setting σ)

/-- The turn is over. -/
def Over {α : Type} (_ : α) (φ : Phase) (_w : World σ) : Prop := φ = .resting

section
variable {φ : Phase} {w : World σ}

/-! ## Events of a record at rest -/

theorem Ready.quiet {w' : World σ} (h : Ready φ w) (hq : Quiet w w') : Ready φ w' := by
  rcases h with ⟨rfl, hs⟩ | ⟨hφ, hs⟩
  · exact .inl ⟨rfl, by rw [hq.state, hs]⟩
  · exact .inr ⟨hφ, by rw [hq.state]; exact hs⟩

/-- The events after which a revert runs. -/
def Event.reverts : Event → Bool
  | .recant | .forceDrift | .retry => true
  | _ => false

theorem transition_reverts {ctx : Ctx} {s s' : State} {ev : Event} (hev : ev.reverts = true)
    (h : transition ctx s ev = .to s') : s' = .reverting := by
  cases edge_of_transition h <;> first | rfl | cases hev

theorem transition_reverts_stay {ctx : Ctx} {s : State} {ev : Event} (hev : ev.reverts = true) :
    transition ctx s ev ≠ .stay := by
  intro h
  cases observed_of_transition h <;> cases hev

theorem transition_starts_stay {ctx : Ctx} {s : State} {ev : Event} (hev : ev.starts = true) :
    transition ctx s ev ≠ .stay := by
  intro h
  cases observed_of_transition h <;> cases hev

theorem transition_starts {ctx : Ctx} {s s' : State} {ev : Event} (hev : ev.starts = true)
    (h : transition ctx s ev = .to s') : s' = .applying := by
  cases edge_of_transition h <;> first | rfl | cases hev

/-- A wait ends as satisfied only with a cause. -/
def Caused (w : World σ) (ev : Event) : Prop :=
  ev = .waitSatisfied → ∃ cause acts, w.acts = .woke w.hand.id w.hand.waiting cause :: acts

/-- An event of a record at rest: one it does not take is refused. -/
theorem turns_restStep {ev : Event} (hf : Phase.resting.feeds ev = true) (hl : Caused w ev) :
    Turns E .resting (step E ev) (fun _ => Stepped w ev .resting) w :=
  turns_step E (fun _ _ => hf) (fun _ _ => .inl rfl) hl

/-- A record at rest starts to revert. -/
theorem turns_startRevert {ev : Event} (hf : Phase.resting.feeds ev = true)
    (hev : ev.reverts = true) :
    Turns E .resting (step E ev) (fun _ φ' _ => φ' = .undoing) w := by
  refine Traces.mono (turns_restStep E hf (by rintro rfl; cases hev)) ?_
  rintro _ φ' w' (⟨s, ht, rfl, -⟩ | ⟨ht, -, -⟩)
  · rw [transition_reverts hev ht]
    rfl
  · exact absurd ht (transition_reverts_stay hev)

/-- A record at rest starts to be walked. -/
theorem turns_startWalk {ev : Event} (hf : Phase.resting.feeds ev = true)
    (hev : ev.starts = true) (hl : Caused w ev) :
    Turns E .resting (step E ev) (fun _ => Starting) w := by
  refine Traces.mono (turns_restStep E hf hl) ?_
  rintro _ φ' w' (⟨s, ht, rfl, hw⟩ | ⟨ht, -, -⟩)
  · obtain rfl := transition_starts hev ht
    exact ⟨rfl, by rw [hw]⟩
  · exact absurd ht (transition_starts_stay hev)

/-- A record at rest is ended. -/
theorem turns_startClosing {ev : Event} (hf : Phase.resting.feeds ev = true)
    (hev : ev.ends = true) : Turns E .resting (step E ev) (fun _ φ' _ => φ' = .closing) w :=
  Traces.mono (turns_restStep E hf (by rintro rfl; cases hev)) fun _ _ _ h => (h.closing hev).1

/-! ## Walking on -/

theorem turns_approve (hs : w.hand.state ≠ .applying) :
    Turns E .resting (approve E) (fun _ => Ready) w := by
  refine Traces.bind (Traces.withPath (turns_refuseOnContractChange E (.inr rfl)))
    fun refused φ₁ w₁ h₁ => ?_
  obtain ⟨h₁, hm⟩ := h₁
  cases refused with
  | true =>
      obtain rfl : φ₁ = .resting := h₁
      exact Traces.pure (.inr ⟨rfl, Moves.coherent hm (fun _ => hs) rfl⟩)
  | false =>
      obtain ⟨rfl, -⟩ : φ₁ = .resting ∧ Agreed E w w₁ := h₁
      refine Turns.quietly E (keeps_ask E _) fun now w₂ h₂ => Turns.setHand E (fun _ => rfl)
        fun w₃ h₃ _ => Traces.bind (turns_startWalk E rfl rfl nofun) fun _ φ₄ w₄ h₄ => ?_
      exact Turns.hand E (Turns.quietEnd E (keeps_log E _) fun _ _ hq' => Ready.quiet (.inl h₄) hq')

/-- Written, and walked. -/
theorem turns_persistWalk (h : Ready φ w) :
    Turns E φ (persist E >>= fun _ => walk E) Over w :=
  Turns.quietly E (keeps_persist E) fun _ _ hq => turns_walk E (h.quiet hq)

theorem turns_approveAndWalk (hs : w.hand.state ≠ .applying) :
    Turns E .resting (approveAndWalk E) Over w :=
  Traces.bind (turns_approve E hs) fun _ _ _ h => turns_persistWalk E h

theorem turns_endWait (cause : Cause) (hs : w.hand.state = .waiting) (hc : Wakes E w cause) :
    Turns E .resting (endWait E cause) (fun _ => Starting) w := by
  refine Turns.hand E (Turns.remark E rfl rfl ⟨rfl, hs, rfl, hc⟩ ?_)
  refine Traces.bind (turns_startWalk E rfl rfl fun _ => ⟨cause, w.acts, rfl⟩) fun _ φ₁ w₁ h₁ => ?_
  obtain ⟨rfl, hs⟩ := h₁
  exact Traces.eval rfl (.amend rfl .unwait) ⟨rfl, hs⟩

theorem turns_walkOn (n : Nat) (cause : Cause) (hs : w.hand.state = .waiting)
    (hc : Wakes E w cause) : Turns E .resting (walkOn E n cause) Over w :=
  Traces.bind (turns_endWait E cause hs hc) fun _ _ _ h => Turns.quietly E (keeps_log E _)
    fun _ _ hq => turns_persistWalk E (Ready.quiet (.inl h) hq)

/-! ## Proofs and acknowledgements -/

theorem keeps_verify (r : ProofRequest) : Keeps Quiet True (¬Accepts E) (verify E r) := by
  refine Keeps.bind (keeps_ask E _) fun x => ?_
  cases x with
  | ok v => exact Keeps.pure v
  | error e => exact Keeps.fail _

theorem yields_verify (r : ProofRequest) :
    Yields (fun v => Said E (.verify r) (.ok v)) (verify E r) := by
  refine Yields.bind (yields_ask E _) fun x hx => ?_
  cases x with
  | ok v => exact Yields.pure hx
  | error e => exact Yields.fail _

/-- In a settled phase a quiet operation may fail; its values are known. -/
theorem Turns.settledYields {β : Type} {m : Eng σ β} {f : β → Eng σ α} {P : β → Prop}
    {Q : α → Phase → World σ → Prop} (hφ : φ.settled = true) (h : Keeps Quiet True (¬Accepts E) m)
    (hy : Yields P m) (hf : ∀ b w', Quiet w w' → P b → Turns E φ (f b) Q w') :
    Turns E φ (m >>= f) Q w := by
  refine Traces.bind (Traces.yields (Traces.ofKeeps h (fun _ _ => Move.quiet)
    (fun _ _ _ => drops_settled E hφ) fun hF _ => drops_refused E hF) hy) fun b φ' w' hq => ?_
  obtain ⟨⟨rfl, hq⟩, hP⟩ := hq
  exact hf b w' hq hP

theorem JustProved.quiet {scope : Scope} {au : String} {w' : World σ} (h : JustProved E w scope au)
    (hq : Quiet w w') : JustProved E w' scope au := by
  obtain ⟨acts, ha⟩ := h
  refine ⟨acts, ?_⟩
  rw [hq.acts, hq.id, hq.scopeDigest E]
  exact ha

theorem turns_afterProof (scope : Scope) (au : String) (hp : JustProved E w scope au) :
    Turns E .resting (afterProof E scope) Over w := by
  refine Turns.hand E ?_
  split
  next hst =>
    split
    · exact Traces.pure rfl
    · refine Traces.bind (turns_gateSatisfied E _ _ trivial) fun opens φ₁ w₁ h₁ => ?_
      obtain ⟨rfl, h₁, -⟩ := h₁
      have hs₁ : w₁.hand.state = .pending := h₁.state.trans hst
      exact Traces.when (fun _ => turns_approveAndWalk E (by rw [hs₁]; exact nofun)) fun _ => rfl
  next n hst =>
    split
    · exact Traces.pure rfl
    next g hg =>
      refine Traces.bind (turns_gateSatisfied E _ _ trivial) fun opens φ₁ w₁ h₁ => ?_
      obtain ⟨rfl, h₁, hmet⟩ := h₁
      obtain ⟨acts, ha⟩ := hp
      have hproofs : w₁.hand.proofs = w.hand.proofs := congrArg Docket.proofs h₁.docket
      refine Traces.when (fun ho => turns_walkOn E _ _ (h₁.state.trans hst) ⟨au, scopeDigest E w.hand (.step n), acts, g,
        ?_, ?_, ?_⟩) fun _ => rfl
      · have hid : w₁.hand.id = w.hand.id := h₁.id
        rw [h₁.acts, hid, show proofsFor w₁.hand (.step n) = proofsFor w.hand (.step n) by
          rw [proofsFor, proofsFor, hproofs]]
        exact congrArg _ ha
      · rw [InstanceRecord.stepAt, InstanceRecord.plan, h₁.ir]
        exact hg
      · exact (hmet ho).congr E hproofs (congrArg Docket.requestedAt h₁.docket)
  · exact Traces.pure rfl

/-- A proof just verified vouches for itself. -/
theorem JustProved.vouched {p : Proof} (h : JustProved E w p.scope p.authenticator) :
    Vouched E w p := by
  obtain ⟨acts, ha⟩ := h
  refine .inl ?_
  rw [ha]
  simp [provedFor]

theorem turns_acceptProof (scope : Scope) (au by_ : String) (hp : JustProved E w scope au) :
    Turns E .resting (acceptProof E scope au by_) Over w := by
  refine Turns.quietly E (keeps_ask E _) fun at_ w₁ h₁ => ?_
  have hp₁ := hp.quiet E h₁
  refine Turns.amendOr E ?_ (Turns.quietly E (keeps_log E _) fun _ w₂ h₂ =>
    Turns.quietly E (keeps_persist E) fun _ w₃ h₃ => turns_afterProof E scope au ?_)
  · split
    · exact .inl rfl
    · exact .inr ⟨rfl, .prove (JustProved.vouched E (p := ⟨scope, au, by_, at_⟩) hp₁) rfl⟩
  · refine JustProved.quiet E (JustProved.quiet E ?_ h₂) h₃
    obtain ⟨acts, ha⟩ := hp₁
    refine ⟨acts, ?_⟩
    dsimp only
    split
    · exact ha
    · exact ha

/-- What a verb reports is read off the record in hand. -/
theorem turns_report {m : Eng σ Unit} (h : Turns E φ m Over w) :
    Turns E φ (m >>= fun _ => report) Over w :=
  Traces.bind h fun _ _ _ hφ => Traces.readBind (f := Pure.pure) (Traces.pure hφ)

/-- A verb that loads the record under `id`, and whose turn that is. -/
def Loaded (E : Setting σ) (id : String) (m : Eng σ Outcome) : Prop :=
  ∃ k, m = (load E id >>= fun _ => k) ∧ ∀ w, Durable w → Turns E .resting k Over w

theorem loaded_approveProof (id : String) (scope : Scope) (au proof by_ : String) :
    Loaded E id (approveProof E id scope au proof by_) := by
  refine ⟨_, rfl, fun w _ => Traces.bind (turns_refuseOnContractChange E (.inr rfl))
    fun refused φ₁ w₁ h₁ => ?_⟩
  cases refused with
  | true => exact Traces.readBind (f := Pure.pure) (Traces.pure h₁)
  | false =>
      obtain ⟨rfl, -⟩ : φ₁ = .resting ∧ Agreed E w w₁ := h₁
      refine Turns.hand E ?_
      split
      · exact Traces.fail (drops_settled E rfl)
      · refine Turns.settledYields E rfl (keeps_verify E _) (yields_verify E _) fun v w₂ h₂ hv => ?_
        split
        · exact Turns.quietly E (keeps_log E _) fun _ _ _ => Traces.fail (drops_settled E rfl)
        next hver =>
          have hdig := h₂.scopeDigest E scope
          refine Turns.remark E rfl h₂.id.symm
            ⟨hdig.symm, _, v, rfl, rfl, rfl, rfl, hv, by simpa using hver⟩ ?_
          refine turns_report E (turns_acceptProof E scope au by_ ⟨w₂.acts, ?_⟩)
          show _ = Act.proved w₂.hand.id scope au (scopeDigest E w₂.hand scope) :: w₂.acts
          rw [hdig, h₂.id]
          rfl

theorem keeps_verifyAck (r : ProofRequest) : Keeps Quiet True (¬Accepts E) (verifyAck E r) := by
  unfold verifyAck
  split
  · exact Keeps.pure _
  · exact keeps_verify E r

theorem yields_verifyAck (r : ProofRequest) :
    Yields (fun v => v.verified = true → Said E (.verify r) (.ok v)) (verifyAck E r) := by
  unfold verifyAck
  split
  · exact Yields.pure nofun
  · exact fun w v w' hm _ => yields_verify E r w v w' hm

theorem Calm.ackGate {w' : World σ} (h : Calm w w') (n : Nat) :
    ackGate w'.hand n = ackGate w.hand n := by
  simp only [Rescind.ackGate, h.opAt]

/-- An acknowledgement's gate opens with the proof just verified. -/
def AckMet (E : Setting σ) (w : World σ) (n : Nat) (au : String) : Prop :=
  ∀ g, ackGate w.hand n = some g →
    (∃ d acts, w.acts = .counted w.hand.id (.ack n) (proofsFor w.hand (.ack n) ++ [au]) d ::
        .proved w.hand.id (.ack n) au d :: acts ∧ d = scopeDigest E w.hand (.ack n)) ∧
      GateOpens E w.hand g (proofsFor w.hand (.ack n) ++ [au])

theorem turns_ackOpens (n : Nat) (g : GateExpr) (au : String) (hg : ackGate w.hand n = some g)
    (hp : JustProved E w (.ack n) au) :
    Turns E φ (ackOpens E n g au) (fun opens φ' w' => φ' = φ ∧
      Quiet (w.counting E (.ack n) (proofsFor w.hand (.ack n) ++ [au])) w' ∧
      (opens = true → GateOpens E w.hand g (proofsFor w.hand (.ack n) ++ [au]))) w := by
  refine Turns.hand E (Turns.quietYields E (keeps_authenticators E) (yields_authenticators E)
    fun auths w₁ h₁ ha => Turns.quietYields E (keeps_ask E _) (yields_ask E _)
    fun now w₂ h₂ hn => ?_)
  have hq := h₁.trans h₂
  refine Turns.remark E rfl hq.id.symm ⟨(hq.scopeDigest E _).symm, ?_, au, hp.quiet E hq, ?_⟩
    (Traces.pure ⟨rfl, hq.counting E _ _, fun h => ?_⟩)
  · rw [hq.ackGate, hg]
    exact nofun
  · rw [hq.proofsFor]
  · simp only [Bool.or_eq_true, decide_eq_true_eq] at h
    exact h.imp_right fun h => ⟨auths, now, ha, hn, h⟩

theorem Quiet.requestedAt {w' : World σ} (h : Quiet w w') :
    w'.hand.requestedAt = w.hand.requestedAt := congrArg Docket.requestedAt h.docket

/-- Why the proof of an acknowledgement may be kept. -/
def AckVouched (E : Setting σ) (w : World σ) (n : Nat) (au : String) : Prop :=
  provedFor w.hand.id (.ack n) au (scopeDigest E w.hand (.ack n)) w.acts = true ∨
    ackGate w.hand n = none

/-- A proof of an acknowledgement is kept, and the rest follows. -/
theorem Turns.keepAckProof {n : Nat} {au by_ : String} {k : Unit → Eng σ α}
    {Q : α → Phase → World σ → Prop} (hv : AckVouched E w n au)
    (hk : ∀ w', w'.hand.core = w.hand.core → w'.hand.waiting = w.hand.waiting →
      Turns E .resting (k ()) Q w') :
    Turns E .resting (Rescind.keepAckProof E n au by_ >>= k) Q w := by
  refine Traces.bind (R := fun _ φ' w' => φ' = .resting ∧ w'.hand.core = w.hand.core ∧
    w'.hand.waiting = w.hand.waiting) ?_ ?_
  · refine Turns.quietly E (keeps_ask E _) fun at_ w₁ h₁ => ?_
    have hv₁ : Vouched E w₁ ⟨.ack n, au, by_, at_⟩ := by
      refine hv.imp (fun h => ?_) fun h => ⟨n, rfl, ?_⟩
      · rw [h₁.id, h₁.acts, h₁.scopeDigest E]
        exact h
      · rw [ackGate, h₁.opAt]
        exact h
    exact Traces.eval rfl (.amend rfl (.prove hv₁ rfl))
      ⟨rfl, h₁.hand, congrArg Docket.waiting h₁.docket⟩
  · rintro _ _ w' ⟨rfl, hc, hw⟩
    exact hk w' hc hw

/-- A proof counted for an acknowledgement vouches for itself. -/
theorem ackVouched_of_counted {n : Nat} {au : String} {aus : List String} {acts : List Act}
    (h : w.acts = .counted w.hand.id (.ack n) aus (scopeDigest E w.hand (.ack n)) ::
      .proved w.hand.id (.ack n) au (scopeDigest E w.hand (.ack n)) :: acts) :
    AckVouched E w n au := by
  refine .inl ?_
  rw [h]
  simp [provedFor]

theorem turns_keepAckPending (n : Nat) (au by_ : String) (hv : AckVouched E w n au) :
    Turns E .resting (keepAckPending E n au by_) Over w :=
  Turns.keepAckProof E hv fun _ _ _ => Turns.quietly E (keeps_log E _) fun _ _ _ =>
    Turns.quietEnd E (keeps_persist E) fun _ _ _ => rfl

/-- Whether an acknowledgement stands: then its gate opened. -/
def Admits (E : Setting σ) (n : Nat) (au : String) (stands : Bool) (φ : Phase) (w : World σ) : Prop :=
  φ = .resting ∧ (stands = true → AckMet E w n au)

theorem turns_ackAdmitted (n : Nat) (reason proof au by_ : String) :
    Turns E .resting (ackAdmitted E n reason proof au by_) (Admits E n au) w := by
  refine Turns.hand E ?_
  split
  next hn => exact Traces.pure ⟨rfl, fun _ g hg => by rw [hn] at hg; cases hg⟩
  next g hg =>
    refine Turns.settledYields E rfl (keeps_verifyAck E _) (yields_verifyAck E _)
      fun v w₁ h₁ hv => ?_
    split
    · exact Turns.quietly E (keeps_log E _) fun _ _ _ => Traces.fail (drops_settled E rfl)
    next hver =>
      have hver' : v.verified = true := by simpa using hver
      have hdig := h₁.scopeDigest E (.ack n)
      have hg₁ : ackGate w₁.hand n = some g := (h₁.ackGate n).trans hg
      refine Turns.remark E rfl h₁.id.symm
        ⟨hdig.symm, _, v, rfl, rfl, rfl, rfl, hv hver', hver'⟩ ?_
      have hp₁ : JustProved E (w₁.noted (.proved w.hand.id (.ack n) au
          (scopeDigest E w.hand (.ack n)))) (.ack n) au := by
        refine ⟨w₁.acts, ?_⟩
        rw [← hdig, ← h₁.id]
        rfl
      refine Traces.bind (turns_ackOpens E n g au hg₁ hp₁) fun opens φ₂ w₂ h₂ => ?_
      obtain ⟨acts₁, ha₁⟩ := hp₁
      obtain ⟨rfl, h₂, hopen⟩ := h₂
      have hid₂ : w₂.hand.id = w₁.hand.id := h₂.id
      have hdig₂ : scopeDigest E w₂.hand (.ack n) = scopeDigest E w₁.hand (.ack n) :=
        h₂.scopeDigest E _
      have hp₂ : proofsFor w₂.hand (.ack n) = proofsFor w₁.hand (.ack n) := h₂.proofsFor _
      have hacts : w₂.acts = .counted w₂.hand.id (.ack n) (proofsFor w₂.hand (.ack n) ++ [au])
          (scopeDigest E w₂.hand (.ack n)) :: .proved w₂.hand.id (.ack n) au
          (scopeDigest E w₂.hand (.ack n)) :: acts₁ := by
        rw [hid₂, hdig₂, hp₂, h₂.acts]
        exact congrArg _ ha₁
      cases opens with
      | false =>
          exact Traces.bind (turns_keepAckPending E n au by_ (ackVouched_of_counted E hacts))
            fun _ _ _ h => Traces.pure ⟨h, nofun⟩
      | true =>
          refine Traces.pure ⟨rfl, fun _ g' hg' => ⟨⟨_, acts₁, hacts, rfl⟩, ?_⟩⟩
          have hk : ackGate w₂.hand n = ackGate w₁.hand n := h₂.ackGate n
          obtain rfl : g = g' := Option.some.inj (hg₁.symm.trans (hk.symm.trans hg'))
          unfold GateOpens
          rw [hp₂, show w₂.hand.requestedAt = _ from h₂.requestedAt]
          exact hopen rfl

/-- An acknowledgement is kept once. -/
theorem Turns.ackOnce {n : Nat} {reason : String} {acts : List Act} {k : Unit → Eng σ α}
    {Q : α → Phase → World σ → Prop} (h : w.acts = .acked w.hand.id n reason :: acts)
    (hj : Acknowledged E { w with acts } n reason) (hφ : φ = .resting)
    (hk : ∀ r ns, r.core = w.hand.core → r.docket = { w.hand.docket with acks := ns } →
      Turns E φ (k ()) Q { w with hand := r }) :
    Turns E φ (Rescind.setHand (fun r => { r with
      acks := if r.acks.contains n then r.acks else r.acks ++ [n] }) >>= k) Q w := by
  refine Turns.amendOr E ?_ (hk _ _ rfl rfl)
  by_cases hc : w.hand.acks.contains n = true
  · refine .inl ?_
    simp only [if_pos hc]
  · simp only [if_neg hc]
    exact .inr ⟨rfl, .ack h hj hφ⟩

theorem turns_acknowledge (n : Nat) (reason au by_ : String)
    (hr : (Text.trim reason.toList).isEmpty = false) (hm : AckMet E w n au) :
    Turns E .resting (acknowledge E n reason au by_) Over w := by
  have hj : Acknowledged E w n reason := by
    refine ⟨hr, fun g hg => ?_⟩
    obtain ⟨⟨d, acts, ha, -⟩, hopen⟩ := hm g hg
    exact ⟨au, d, acts, ha, hopen⟩
  refine Turns.hand E (Turns.remark E rfl rfl hj (Turns.ackOnce E rfl hj rfl
    fun r ns hc hdk => Turns.keepAckProof E ?_ fun w₂ hc₂ hw₂ => Turns.hand E ?_))
  · have hg' : ackGate r n = ackGate w.hand n := (calm_hand (w := w) hc).ackGate n
    rcases hg : ackGate w.hand n with _ | g
    · exact .inr (hg'.trans hg)
    · obtain ⟨⟨d, acts, ha, hd⟩, -⟩ := hm g hg
      have hid : r.id = w.hand.id := congrArg Core.id hc
      have hdig : scopeDigest E r (.ack n) = d := by
        rw [hd]
        exact scopeDigest_congr E (congrArg Core.identity hc) ((congrArg Docket.nonce hdk).trans rfl)
          ((congrArg Docket.hostContract hdk).trans rfl)
          ((congrArg Docket.requestedAt hdk).trans rfl) _
      refine .inl ?_
      simp [World.noted, ha, provedFor, hid, hdig]
  · refine Turns.quietly E (keeps_log E _) fun _ w₃ h₃ => Turns.quietly E (keeps_persist E)
      fun _ w₄ h₄ => Traces.when (fun hwait => ?_) fun _ => rfl
    simp only [Bool.and_eq_true, decide_eq_true_eq] at hwait
    have hs₄ : w₄.hand.state = w₂.hand.state := (h₃.trans h₄).state
    refine Traces.bind (turns_endWait E _ (hs₄.trans hwait.1) ?_) fun _ _ _ h =>
      turns_persistWalk E (.inl h)
    have hw₄ : w₄.hand.waiting = w₂.hand.waiting := congrArg Docket.waiting (h₃.trans h₄).docket
    show (w₄.hand.waiting.map fun x => (x.step, x.reason)) = some (n, "ack")
    rw [hw₄]
    exact hwait.2

theorem loaded_ack (id : String) (n : Nat) (reason proof au by_ : String) :
    Loaded E id (ack E id n reason proof au by_) := by
  refine ⟨_, rfl, fun w _ => Traces.bind (R := fun _ φ' _ => φ' = .resting ∧
      (Text.trim reason.toList).isEmpty = false)
    (Traces.failIf (fun _ => drops_settled E rfl) fun h => ⟨rfl, h⟩) ?_⟩
  rintro _ _ w₁ ⟨rfl, hr⟩
  refine Traces.bind (turns_ackAdmitted E n reason proof au by_) fun stands φ₂ w₂ h₂ => ?_
  obtain ⟨rfl, hm⟩ := h₂
  exact turns_report E (Traces.when (fun hst => turns_acknowledge E n reason au by_ hr (hm hst))
    fun _ => rfl)

/-! ## Verbs on a running instance -/

theorem turns_recantStep (force : List ForceName) :
    Turns E .resting (recantStep E force) (fun _ φ' _ => φ' = .undoing) w := by
  refine Turns.hand E ?_
  split
  · refine Traces.bind (turns_startRevert E rfl rfl) fun _ φ₁ w₁ h₁ => ?_
    subst h₁
    exact Turns.quietEnd E (keeps_setHand fun _ => rfl) fun _ _ _ => rfl
  · exact turns_startRevert E rfl rfl

theorem loaded_recant (id : String) (force : List ForceName) :
    Loaded E id (recant E id force) := by
  refine ⟨_, rfl, fun w _ => Traces.bind (turns_recantStep E force) fun _ φ₁ w₁ h₁ => ?_⟩
  subst h₁
  exact Turns.setHand E (fun _ => rfl) fun _ _ _ => Turns.quietly E (keeps_log E _) fun _ _ _ =>
    turns_report E (turns_revert E)

theorem transition_renew_to {ctx : Ctx} {s s' : State} : transition ctx s .renew ≠ .to s' :=
  fun h => nomatch edge_of_transition h

/-- An event that never moves a record. -/
theorem turns_watch {ev : Event} (h : ∀ ctx s s', transition ctx s ev ≠ .to s')
    (hl : Caused w ev) :
    Turns E .resting (step E ev) (fun _ φ' w' => φ' = .resting ∧ w' = w) w := by
  refine Traces.mono (turns_step E (fun s ht => absurd ht (h _ _ s)) (fun _ _ => .inl rfl) hl) ?_
  rintro _ φ' w' (⟨s, ht, -, -⟩ | ⟨-, rfl, rfl⟩)
  · exact absurd ht (h _ _ s)
  · exact ⟨rfl, rfl⟩

theorem turns_renewTo (d : Instant) : Turns E .resting (renewTo E d) Over w := by
  refine Traces.bind (turns_backstopRearm E d) fun x φ₁ w₁ h₁ => ?_
  obtain rfl := h₁.phase
  cases x with
  | error why => exact Turns.quietly E (keeps_log E _) fun _ _ _ => Traces.fail (drops_settled E rfl)
  | ok u =>
      exact Turns.setHand E (fun _ => rfl) fun _ _ _ => Turns.quietly E (keeps_log E _) fun _ _ _ =>
        Turns.quietEnd E (keeps_persist E) fun _ _ _ => rfl

theorem loaded_renew (id : String) (d : Duration) : Loaded E id (renew E id d) := by
  refine ⟨_, rfl, fun w _ => Traces.bind (turns_watch E (fun _ _ _ => transition_renew_to) nofun)
    fun _ φ₁ w₁ h₁ => ?_⟩
  obtain ⟨rfl, -⟩ := h₁
  refine Turns.hand E ?_
  split
  · exact Traces.fail (drops_settled E rfl)
  · exact Traces.fail (drops_settled E rfl)
  · refine Turns.quietly E (keeps_ask E _) fun now w₂ _ => ?_
    split
    · exact Traces.fail (drops_settled E rfl)
    · exact turns_report E (turns_renewTo E _)

theorem loaded_confirm (id : String) : Loaded E id (confirm E id) := by
  refine ⟨_, rfl, fun w _ => Traces.bind (turns_watch E (fun _ _ _ => transition_confirm_to) nofun)
    fun _ φ₁ w₁ h₁ => ?_⟩
  obtain ⟨rfl, -⟩ := h₁
  refine Traces.bind (turns_backstopDisarm E _) fun x φ₂ w₂ h₂ => ?_
  obtain rfl := h₂.phase
  cases x with
  | error why => exact Traces.fail (drops_settled E rfl)
  | ok u =>
      exact Turns.quietly E (keeps_log E _) fun _ _ _ =>
        turns_report E (Turns.quietEnd E (keeps_persist E) fun _ _ _ => rfl)

/-- The ledger entries go, and the rest follows at rest. -/
theorem Turns.releaseBind {Q : α → Phase → World σ → Prop} {k : Unit → Eng σ α}
    (hk : ∀ w', Turns E .resting (k ()) Q w') : Turns E .closing (release E >>= k) Q w := by
  refine Traces.bind (turns_release E) fun _ φ₁ w₁ h₁ => ?_
  subst h₁
  exact hk w₁

theorem turns_persistReport : Turns E .resting (persist E >>= fun _ => report) Over w :=
  turns_report E (Turns.quietEnd E (keeps_persist E) fun _ _ _ => rfl)

theorem loaded_commit (id by_ reason : String) : Loaded E id (commit E id by_ reason) := by
  refine ⟨_, rfl, fun w _ => Traces.bind (turns_startClosing E rfl rfl) fun _ φ₁ w₁ h₁ => ?_⟩
  subst h₁
  refine Turns.quietly E (keeps_log E _) fun _ _ _ => Turns.releaseBind E fun _ =>
    Traces.bind (turns_removeDirs E) fun _ φ₂ w₂ h₂ => ?_
  obtain rfl := h₂.phase
  exact turns_persistReport E

theorem loaded_resume (id by_ : String) : Loaded E id (resume E id by_) := by
  refine ⟨_, rfl, fun w _ => Turns.hand E <| Traces.bind (turns_startWalk E rfl rfl nofun)
    fun _ φ₁ w₁ h₁ => ?_⟩
  refine Turns.setHand E (fun _ => rfl) fun w₂ h₂ _ => Turns.quietly E (keeps_log E _)
    fun _ w₃ h₃ => turns_report E (turns_walk E ?_)
  exact (Ready.quiet (.inl h₁) h₂).quiet h₃

theorem turns_takeHandoff (d : DeferredAt) (by_ : String) :
    Turns E .resting (takeHandoff E d by_) (fun _ => Starting) w := by
  refine Traces.bind (turns_startWalk E rfl rfl nofun) fun _ φ₁ w₁ h₁ => ?_
  obtain ⟨rfl, hs⟩ := h₁
  refine Pending.start (Pending.editBind (Pending.keepsBind (R := Still) (keeps_log E _)
    (fun _ w₂ h₂ => ?_) fun ha _ w₂ h₂ => ?_))
  · refine Pending.persistBind E h₂.instances h₂.frame fun w₃ h₃ => ?_
    have hw : Written { w₁ with hand := w₂.hand } w₃ :=
      ⟨h₃.hand, by rw [h₃.instances, h₂.instances], h₃.frame.trans h₂.frame⟩
    have hp := hw.puts (by rw [h₂.hand]) (by rw [h₂.hand]; rfl)
    have hc : w₂.hand.core = w₁.hand.core.having (w₁.hand.applied ++ [⟨d.step, d.iteration, d.vars⟩]) := by
      rw [h₂.hand]
      rfl
    have hid : w₃.hand.id = w₁.hand.id := by rw [h₃.hand, h₂.hand]
    have hacts : w₃.acts = w₁.acts := congrArg Frame.acts hp.frame
    refine Pending.edit (.handOff (a := ⟨d.step, d.iteration, d.vars⟩)
      ⟨hp.hand.trans hc, hp.docket, hp.others, hp.own.trans (by rw [hc]), ?_⟩)
      ⟨rfl, by rw [← hs]; exact congrArg Core.state (hp.hand.trans hc)⟩
    show w₃.frame.telling (.handedOff w₃.hand.id _ :: w₃.acts) = _
    rw [hp.frame, hid, hacts]
  · exact ⟨fun j => by rw [h₂.instances], h₂.frame, .inr (.inr ha)⟩

theorem loaded_handoffDone (id : String) (n : Nat) (by_ : String) :
    Loaded E id (handoffDone E id n by_) := by
  refine ⟨_, rfl, fun w _ => Turns.hand E ?_⟩
  split
  · exact Traces.fail (drops_settled E rfl)
  · split
    · exact Traces.fail (drops_settled E rfl)
    · exact Traces.bind (turns_takeHandoff E _ by_) fun _ φ₁ w₁ h₁ =>
        turns_report E (turns_walk E (.inl h₁))

theorem turns_disarmAbandoned : Turns E φ (disarmAbandoned E) (fun _ => Tended w φ) w := by
  refine Turns.hand E ?_
  split
  · refine Traces.bind (turns_backstopDisarm E _) fun x φ₁ w₁ h₁ => ?_
    cases x with
    | error why => exact Traces.pure h₁
    | ok u => exact Traces.pure h₁
  · exact Traces.pure (Quiet.refl w).tended

theorem loaded_abandon (id by_ reason : String) : Loaded E id (abandon E id by_ reason) := by
  refine ⟨_, rfl, fun w _ => Traces.bind (turns_startClosing E rfl rfl) fun _ φ₁ w₁ h₁ => ?_⟩
  subst h₁
  refine Turns.hand E <| Traces.bind (turns_disarmAbandoned E) fun left φ₂ w₂ h₂ => ?_
  obtain rfl := h₂.phase
  refine Turns.quietly E (keeps_log E _) fun _ w₃ _ => Turns.setHand E (fun _ => rfl) fun w₄ _ _ =>
    Turns.quietly E (keeps_dropSecrets E _) fun _ w₅ _ => Turns.quietly E (keeps_log E _)
    fun _ w₆ _ => ?_
  exact Turns.releaseBind E fun _ => turns_persistReport E

theorem loaded_cancel (id : String) : Loaded E id (cancel E id) := by
  refine ⟨_, rfl, fun w _ => Traces.bind (turns_startClosing E rfl rfl) fun _ φ₁ w₁ h₁ => ?_⟩
  subst h₁
  refine Turns.quietly E (keeps_log E _) fun _ w₂ _ => Turns.quietly E (keeps_dropSecrets E _)
    fun _ w₃ _ => Turns.setHand E (fun _ => rfl) fun w₄ _ _ => Turns.quietly E (keeps_log E _)
    fun _ w₅ _ => ?_
  exact Turns.releaseBind E fun _ => turns_persistReport E

end

end Rescind
