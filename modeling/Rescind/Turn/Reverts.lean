/-
# `Rescind.Turn.Reverts` — reverts and refusals as turns

    a revert undoes and pops until it closes, is stuck or is held   (`turns_revert`)
    a refusal ends at rest                                          (`turns_refuse`)
    a failed `do` ends refused: spared, undone or recorded again    (`turns_undoFailed`)
    a closed record lets go of its ledger entries                   (`turns_release`)
-/
import Rescind.Turn.Backstops

namespace Rescind

open Lib Lib.Prog

variable {σ α : Type} (E : Setting σ)

/-! ## Where events lead -/

/-- The events by which an instance is applied. -/
def Event.starts : Event → Bool
  | .approve | .waitSatisfied | .handoffDone | .resume => true
  | _ => false

/-- The events after which a record rests. -/
def Event.rests : Event → Bool
  | .undoFailed | .driftOnDefer | .allStepsDone | .waitAtStep | .deferAtStep
  | .approvalWindowLapses | .suspend | .reestablish => true
  | _ => false

theorem transition_rests {ctx : Ctx} {s s' : State} {ev : Event} (hev : ev.rests = true)
    (h : transition ctx s ev = .to s') : s'.phase = .resting := by
  cases edge_of_transition h <;> first | rfl | cases hev

theorem transition_rests_stay {ctx : Ctx} {s : State} {ev : Event} (hev : ev.rests = true) :
    transition ctx s ev ≠ .stay := by
  intro h
  cases observed_of_transition h <;> cases hev

theorem Stepped.rests {w w' : World σ} {ev : Event} {φ φ' : Phase} (h : Stepped w ev φ φ' w')
    (hev : ev.rests = true) : φ' = .resting := by
  rcases h with ⟨s, ht, rfl, -⟩ | ⟨ht, -, -⟩
  · exact transition_rests hev ht
  · exact absurd ht (transition_rests_stay hev)

/-- The events a revert feeds. -/
def Event.undoes : Event → Bool
  | .undoClean | .undoFailed | .driftOnDefer => true
  | _ => false

/-- A revert leaves neither a wait nor a walk. -/
theorem turned_of_undoes {r : InstanceRecord} {ev : Event} {s : State} (hev : ev.undoes = true)
    (h : transition r.ctx r.state ev = .to s) : turned r ev s = [] := by
  have hs : r.state ≠ .waiting ∧ r.state ≠ .applying ∧ s ≠ .applying := by
    generalize r.state = t at h
    cases edge_of_transition h with
    | undoClean hs | undoFailed hs | driftOnDefer hs => rcases hs with rfl | rfl <;> simp
    | _ => cases hev
  exact turned_eq_nil hs.1 hs.2.1 hs.2.2

/-- The events that end an instance. -/
def Event.ends : Event → Bool
  | .undoClean | .commitItem | .commitVerb | .abandon | .cancel | .hostContractChanged => true
  | _ => false

theorem transition_ends {ctx : Ctx} {s s' : State} {ev : Event} (hev : ev.ends = true)
    (h : transition ctx s ev = .to s') : terminal s' = true := by
  cases edge_of_transition h <;> first | rfl | cases hev

theorem transition_ends_stay {ctx : Ctx} {s : State} {ev : Event} (hev : ev.ends = true) :
    transition ctx s ev ≠ .stay := by
  intro h
  cases observed_of_transition h <;> cases hev

theorem State.phase_of_terminal {s : State} (h : terminal s = true) : s.phase = .closing := by
  cases s <;> first | rfl | cases h

/-- An event that ends an instance starts the closing. -/
theorem Stepped.closing {w w' : World σ} {ev : Event} {φ φ' : Phase} (h : Stepped w ev φ φ' w')
    (hev : ev.ends = true) : φ' = .closing ∧ terminal w'.hand.state = true := by
  rcases h with ⟨s, ht, rfl, hw⟩ | ⟨ht, -, -⟩
  · have hs := transition_ends hev ht
    exact ⟨State.phase_of_terminal hs, by rw [hw]; exact hs⟩
  · exact absurd ht (transition_ends_stay hev)

theorem transition_refuse {ctx : Ctx} :
    transition ctx .applying .refuse = .to (if ctx.earlierHold then .held else .reverting) := by
  obtain ⟨intent, mode, hold, lapse⟩ := ctx
  cases intent <;> cases hold <;> rfl

/-! ## The ledger entries of a closed record -/

section
variable {φ : Phase} {w : World σ}

theorem turns_release : Turns E .closing (release E) (fun _ φ' _ => φ' = .resting) w := by
  refine Traces.editBind .release (Traces.bind (R := fun _ φ' _ => φ' = .agreed) ?_ ?_)
  · exact Turns.quietly E (keeps_writeOk E _) fun _ w' _ => Traces.eval rfl .released rfl
  · rintro _ _ w' rfl
    exact Traces.eval rfl .closeGap rfl

/-! ## One application undone -/

/-- How an operation that fails with a text ends: the text is all that is new,
and the record in hand is as it was. -/
def Fails (E : Setting σ) (φ₀ : Phase) (r : InstanceRecord) :
    Option String → Phase → World σ → World σ → Prop
  | some _, φ, w, w' => w' = w ∧ φ = φ₀ ∧ w.hand = r
  | none, φ, w, w' => Drops E φ w w'

/-- A still operation, then the rest. -/
theorem Tries.stilly {β : Type} {r : InstanceRecord} {m : Try σ β} {f : β → Try σ α}
    {Q : α → Phase → World σ → Prop} (hw : w.hand = r) (h : Keeps Still True (¬Accepts E) m)
    (hf : ∀ b w', w'.hand = r → Traces (Move E) (Fails E φ r) φ (f b) Q w') :
    Traces (Move E) (Fails E φ r) φ (m >>= f) Q w := by
  have hk := h w
  unfold Traces
  rw [bind_eq]
  match hm : m w with
  | (.ok b, w') =>
      rw [hm] at hk
      exact Pending.land (Move.quiet hk.1.quiet) (hf b w' (by rw [hk.1.hand, hw]))
  | (.err e, w') =>
      rw [hm] at hk
      exact ⟨φ, w', .single (Move.quiet hk.1.quiet), rfl, rfl, by rw [hk.1.hand, hw]⟩
  | (.died, w') =>
      rw [hm] at hk
      exact ⟨φ, w', .single (Move.quiet hk.1.quiet), drops_refused E hk.2⟩

/-- The application was undone in the phase this leads to, or is held. -/
def Undid (r : InstanceRecord) (φ φ' : Phase) (rep : UndoReport) (φ₁ : Phase) (w₁ : World σ) :
    Prop :=
  φ₁ = (if rep.held.isEmpty then φ' else φ) ∧ w₁.hand = r

theorem tries_runUndo {r : InstanceRecord} {i : Nat} {host : Host} {id : String} {a : AppliedStep}
    {body : List RPrim} (hw : w.hand = r) (hid : id = r.id) :
    Traces (Move E) (Fails E φ r) φ (runUndo E i host id a body)
      (fun _ φ' w' => φ' = φ ∧ w'.hand = r) w :=
  Traces.editBind (.remark _ rfl (by rw [hw]; exact hid) trivial) <|
    Tries.stilly E (w := w.noted _) hw (keeps_ask E _) fun _ _ hw' =>
    Tries.stilly E hw' (keeps_orElse _ _) fun _ _ hw'' => Traces.pure ⟨rfl, hw''⟩

theorem tries_undoStep {φ' : Phase} {a : AppliedStep} {op : Op}
    (hM : ∀ w : World σ, Move E (φ, w) (φ', w.noted (.undone w.hand.id a))) :
    Traces (Move E) (Fails E φ w.hand) φ (undoStep E a op) (Undid w.hand φ φ') w := by
  -- the last note of an undo that went through
  have done : ∀ (rep : UndoReport) (w₁ : World σ), w₁.hand = w.hand → rep.held = [] →
      Traces (Move E) (Fails E φ w.hand) φ (note (.undone w.hand.id a) >>= fun _ => Pure.pure rep)
        (Undid w.hand φ φ') w₁ := by
    intro rep w₁ hw hrep
    have := hM w₁
    rw [hw] at this
    exact Traces.editBind this (Traces.pure ⟨by simp [hrep], hw⟩)
  unfold undoStep
  refine Traces.readBind (g := World.hand) ?_
  split
  · exact done {} w rfl rfl
  · refine Traces.readBind (g := World.hosts) ?_
    refine Tries.stilly E rfl (Keeps.ofExcept _) fun host w₁ h₁ =>
      Tries.stilly E h₁ (keeps_orElse _ _) fun op w₂ h₂ => ?_
    cases executorIndex E host with
    | none => exact Traces.fail ⟨rfl, rfl, h₂⟩
    | some i =>
        refine Tries.stilly E h₂ (Keeps.when (Keeps.bind (keeps_ask E _) fun _ => keeps_orElse _ _))
          fun _ w₃ h₃ => Tries.stilly E h₃ (keeps_judgeFacts E _ _ _ _ _) fun found w₄ h₄ => ?_
        by_cases hh : found.1.held = []
        · rw [if_neg (by simp [hh])]
          refine Tries.stilly E h₄ (Keeps.ofExcept _) fun _ w₅ h₅ =>
            Tries.stilly E h₅ (Keeps.ofExcept _) fun body w₆ h₆ => ?_
          refine Traces.bind (R := fun _ φ₁ w₇ => φ₁ = φ ∧ w₇.hand = w.hand) ?_ ?_
          · exact Traces.when (fun _ => tries_runUndo E h₆ rfl) fun _ => ⟨rfl, h₆⟩
          · rintro _ _ w₇ ⟨rfl, h₇⟩
            exact Tries.stilly E h₇ (Keeps.when (Keeps.bind (keeps_ask E _) fun _ => Keeps.pure ()))
              fun _ w₈ h₈ => done found.1 w₈ h₈ hh
        · rw [if_pos (by simp [hh])]
          exact Traces.pure ⟨by simp [hh], h₄⟩

/-- An undo whose failure is a value. -/
theorem turns_tryUndo {φ' : Phase} {a : AppliedStep} {op : Op}
    (hM : ∀ w : World σ, Move E (φ, w) (φ', w.noted (.undone w.hand.id a))) :
    Turns E φ (undoStep E a op).attempt
      (Caught (Undid w.hand φ φ') fun _ φ₁ w₁ => φ₁ = φ ∧ w₁.hand = w.hand) w :=
  Traces.attempt (tries_undoStep E hM) (fun _ _ _ _ h => h) fun _ _ _ h => h

/-! ## The revert -/

theorem turns_revertLoop (as : List AppliedStep) :
    Turns E .undoing (revertLoop E as)
      (fun clean φ' _ => if clean then φ' = .undoing else φ' = .resting) w := by
  induction as generalizing w with
  | nil => exact Traces.pure rfl
  | cons a rest ih =>
      unfold revertLoop
      refine Turns.hand E ?_
      cases w.hand.opAt a.step with
      | none => exact Turns.put E rfl rfl (fun _ h => .pop h) fun _ _ => ih
      | some op =>
          refine Traces.bind (turns_tryUndo E fun _ => .undo) fun x φ₁ w₁ h => ?_
          cases x with
          | error why =>
              obtain ⟨rfl, -⟩ := h
              refine Turns.setHand E (fun _ => rfl) fun w₂ _ _ =>
                Turns.quietly E (keeps_log E _) fun _ w₃ _ =>
                Traces.bind (turns_step E (fun _ _ => rfl) (fun _ _ => .inl rfl) nofun) fun _ φ₄ w₄ h₄ => ?_
              have hs := h₄.rests rfl
              exact Turns.hand E (Turns.quietly E (keeps_log E _) fun _ _ _ => Traces.pure hs)
          | ok rep =>
              obtain ⟨hφ, -⟩ := h
              obtain rfl : φ₁ = .undoing := by rw [hφ]; split <;> rfl
              by_cases hh : (!rep.held.isEmpty) = true
              · simp only [hh, if_true]
                refine Turns.setHand E (fun _ => rfl) fun w₂ _ _ =>
                  Turns.quietly E (keeps_log E _) fun _ w₃ _ =>
                  Traces.bind (turns_step E (fun _ _ => rfl) (fun _ _ => .inl rfl) nofun) fun _ φ₄ w₄ h₄ => ?_
                exact Traces.pure (h₄.rests rfl)
              · simp only [if_neg hh]
                refine Turns.quietly E (Keeps.when (keeps_log E _)) fun _ w₂ _ => ?_
                exact Turns.put E rfl rfl (fun _ h => .pop h) fun _ _ => ih

theorem turns_closeReverted :
    Turns E .undoing (closeReverted E) (fun _ φ' _ => φ' = .resting) w := by
  refine Traces.bind (turns_step E (fun _ _ => rfl) (fun _ _ => .inl rfl) nofun) fun _ φ₁ w₁ h₁ => ?_
  obtain ⟨rfl, -⟩ := h₁.closing rfl
  refine Turns.quietly E (keeps_log E _) fun _ w₂ _ => Turns.hand E <|
    Turns.setHand E (fun _ => rfl) fun w₃ _ _ => Turns.quietly E (keeps_log E _) fun _ w₄ _ =>
    Turns.quietly E (keeps_dropSecrets E _) fun _ w₅ _ =>
    Traces.bind (turns_release E) fun _ φ₂ w₆ h₂ => ?_
  subst h₂
  refine Traces.bind (turns_removeDirs E) fun _ φ₃ w₇ h₃ => ?_
  obtain rfl := h₃.phase
  exact Turns.quietEnd E (keeps_persist E) fun _ _ _ => rfl

theorem turns_revert : Turns E .undoing (revert E) (fun _ φ' _ => φ' = .resting) w := by
  refine Turns.hand E <| Turns.quietly E (keeps_log E _) fun _ w₁ _ =>
    Turns.setHand E (fun _ => rfl) fun w₂ _ _ =>
    Traces.bind (turns_revertLoop E _) fun clean φ₁ w₃ h => ?_
  cases clean with
  | true =>
      obtain rfl : φ₁ = .undoing := h
      exact turns_closeReverted E
  | false => exact Traces.pure h

/-! ## Refusals -/

/-- A flow that stopped, the record at rest. -/
def Stops (flow : Flow) (φ : Phase) (_w : World σ) : Prop := flow = .stop ∧ φ = .resting

theorem turns_refuseApplied (n : Nat) (hf : φ.feeds .refuse = true)
    (hs : w.hand.state = .applying) : Turns E φ (refuseApplied E n) Stops w := by
  refine Traces.bind (turns_step E (fun _ _ => hf) (fun h _ => absurd (hs ▸ transition_refuse) (h _)) nofun)
    fun _ φ₁ w₁ h₁ => ?_
  rcases h₁ with ⟨s, ht, rfl, hw⟩ | ⟨ht, -, -⟩
  · rw [hs, transition_refuse] at ht
    refine Turns.hand E ?_
    have hst : w₁.hand.state = s := by rw [hw]
    by_cases hh : s = .held
    · subst hh
      rw [if_pos hst]
      exact Turns.setHand E (fun _ => rfl) fun _ _ _ => Turns.quietly E (keeps_persist E) fun _ _ _ =>
        Turns.quietly E (keeps_log E _) fun _ _ _ => Traces.pure ⟨rfl, rfl⟩
    · rw [if_neg (by rw [hst]; exact hh)]
      obtain rfl : s = .reverting := by
        simp only [Verdict.to.injEq] at ht
        split at ht
        · exact absurd ht.symm hh
        · exact ht.symm
      exact Traces.bind (turns_revert E) fun _ _ _ h => Traces.pure ⟨rfl, h⟩
  · rw [hs, transition_refuse] at ht
    cases ht

theorem turns_refuse (n : Nat) (reason : String) (hf : φ.feeds .refuse = true)
    (hs : w.hand.state = .applying) : Turns E φ (refuse E n reason) Stops w :=
  Turns.setHand E (fun _ => rfl) fun _ hq _ => Turns.quietly E (keeps_log E _) fun _ _ hq' =>
    turns_refuseApplied E n hf (by rw [hq'.state, hq.state, hs])

/-! ## A failed `do` -/

/-- Unfinished, and put back among the applied ones. -/
theorem turns_rerecord {a : AppliedStep} (hφ : φ = .failing a ∨ φ = .resting ∧
    w.hand.state = .applying ∧ ∃ acts, w.acts = .found w.hand.id a :: acts) :
    Turns E φ (rerecord a)
      (fun _ φ' w' => φ' = .refusing ∧ w'.hand.state = w.hand.state) w :=
  Traces.eval rfl (.rerecord (r := { w.hand with applied := w.hand.applied ++ [a] }) hφ rfl rfl)
    ⟨rfl, rfl⟩

/-- A refusal is due, of an instance that is applying. -/
def Refusing (φ : Phase) (w : World σ) : Prop := φ = .refusing ∧ w.hand.state = .applying

theorem turns_undoFailed {a : AppliedStep} (op : Op) (pre : Watched)
    (hs : w.hand.state = .applying) :
    Turns E (.failing a) (undoFailed E a op pre) (fun _ => Refusing) w := by
  have keep : ∀ w' : World σ, w'.hand.state = .applying →
      Turns E .refusing (persist E) (fun _ => Refusing) w' := fun w' hs' =>
    Turns.quietEnd E (keeps_persist E) fun _ _ hq => ⟨rfl, by rw [hq.state, hs']⟩
  refine Turns.amend E (fun _ => rfl) .clear ?_
  refine Turns.quietly E (Keeps.ite (Keeps.pure _) (keeps_untouched E op pre)) fun same w₂ h₂ => ?_
  have hs₂ : w₂.hand.state = .applying := h₂.state.trans hs
  cases same with
  | true =>
      refine Turns.quietly E (keeps_log E _) fun _ w₃ h₃ => Turns.hand E (Turns.remark E rfl rfl trivial ?_)
      exact Traces.after .forget (keep _ (by rw [← hs₂, ← h₃.state]; rfl))
  | false =>
      refine Traces.bind (turns_tryUndo E fun _ => .unmake) fun x φ₁ w₃ h => ?_
      cases x with
      | ok rep =>
          obtain ⟨hφ, hw⟩ := h
          have hs₃ : w₃.hand.state = .applying := by rw [hw, hs₂]
          split at hφ
          · subst hφ
            exact keep w₃ hs₃
          · subst hφ
            exact Traces.after .forget (keep w₃ hs₃)
      | error why =>
          obtain ⟨rfl, hw⟩ := h
          refine Traces.bind (turns_rerecord E (.inl rfl)) fun _ φ₄ w₄ h₄ => ?_
          obtain ⟨rfl, h₄⟩ := h₄
          refine Turns.quietly E (keeps_log E _) fun _ w₅ h₅ => keep w₅ ?_
          rw [h₅.state, h₄, hw, hs₂]

/-! ## Refusals give and take no proof -/

/-- The record in hand has the proofs it had. -/
def SameProofs (w w' : World σ) : Prop := w'.hand.proofs = w.hand.proofs

theorem Quiet.sameProofs {w w' : World σ} (h : Quiet w w') : SameProofs w w' :=
  congrArg Docket.proofs h.docket

instance : Coarse (SameProofs (σ := σ)) where
  refl _ := rfl
  trans _ _ _ h h' := Eq.trans h' h
  still h := h.quiet.sameProofs

theorem sameProofs_quiet {ε : Type} {X F : Prop} {m : Prog (World σ) ε α} (h : Keeps Quiet X F m) :
    Keeps SameProofs True True m :=
  Keeps.ofState fun w => (h w).1.sameProofs

theorem sameProofs_step (ev : Event) : Keeps SameProofs True True (step E ev) := by
  refine Keeps.bind keeps_hand fun r => ?_
  split
  · exact Keeps.bind (Keeps.edit fun _ => rfl) fun _ => Keeps.bind (sameProofs_quiet (keeps_persist E))
      fun _ => Keeps.edit fun _ => rfl
  · exact Keeps.pure ()
  · exact Keeps.fail _
  · exact Keeps.fail _

theorem sameProofs_log (ev : J) : Keeps SameProofs True True (log E ev) := (keeps_log E ev).anyEnd

theorem sameProofs_runUndo (i : Nat) (host : Host) (id : String) (a : AppliedStep)
    (body : List RPrim) : Keeps SameProofs True True (runUndo E i host id a body) :=
  Keeps.bind (Keeps.edit fun _ => rfl) fun _ => Keeps.bind (keeps_ask E (X := True) _).anyEnd
    fun _ => Keeps.bind (keeps_orElse _ _) fun _ => Keeps.pure ()

theorem sameProofs_undoStep (a : AppliedStep) (op : Op) :
    Keeps SameProofs True True (undoStep E a op) := by
  refine Keeps.bind keeps_hand fun r => Keeps.ite
    (Keeps.bind (Keeps.edit fun _ => rfl) fun _ => Keeps.pure _) ?_
  refine Keeps.bind keeps_hostsNow fun hosts => Keeps.bind (Keeps.ofExcept _) fun host =>
    Keeps.bind (keeps_orElse _ _) fun op => ?_
  split
  · exact Keeps.fail _
  · refine Keeps.bind (Keeps.when (Keeps.bind (keeps_ask E (X := True) _).anyEnd
        fun _ => keeps_orElse _ _)) fun _ => Keeps.bind (keeps_judgeFacts E _ _ _ _ _).anyEnd fun found =>
      Keeps.ite (Keeps.pure _) ?_
    refine Keeps.bind (Keeps.ofExcept _) fun _ => Keeps.bind (Keeps.ofExcept _) fun body =>
      Keeps.bind (Keeps.when (sameProofs_runUndo E _ _ _ _ _)) fun _ => ?_
    exact Keeps.bind (Keeps.when (Keeps.bind (keeps_ask E (X := True) _).anyEnd fun _ => Keeps.pure ()))
      fun _ => Keeps.bind (Keeps.edit fun _ => rfl) fun _ => Keeps.pure _

theorem sameProofs_revertLoop (as : List AppliedStep) :
    Keeps SameProofs True True (revertLoop E as) := by
  induction as with
  | nil => exact Keeps.pure true
  | cons a rest ih =>
      have pop : ∀ f : InstanceRecord → InstanceRecord, (∀ r, (f r).proofs = r.proofs) →
          Keeps SameProofs True True (setHand f >>= fun _ => persist E >>= fun _ => revertLoop E rest) :=
        fun f hf => Keeps.bind (Keeps.edit fun _ => hf _) fun _ =>
          Keeps.bind (sameProofs_quiet (keeps_persist E)) fun _ => ih
      refine Keeps.bind keeps_hand fun r => ?_
      split
      · exact pop _ fun _ => rfl
      · refine Keeps.bind (Keeps.attempt (sameProofs_undoStep E a _)) fun x => ?_
        cases x with
        | error why =>
            refine Keeps.bind (Keeps.edit fun _ => rfl) fun _ => Keeps.bind (sameProofs_log E _) fun _ =>
              Keeps.bind (sameProofs_step E _) fun _ => Keeps.bind keeps_hand fun _ =>
              Keeps.bind (sameProofs_log E _) fun _ => Keeps.pure _
        | ok rep =>
            refine Keeps.ite ?_ (Keeps.bind (Keeps.when (sameProofs_log E _)) fun _ =>
              pop _ fun _ => rfl)
            exact Keeps.bind (Keeps.edit fun _ => rfl) fun _ => Keeps.bind (sameProofs_log E _) fun _ =>
              Keeps.bind (sameProofs_step E _) fun _ => Keeps.pure _

theorem sameProofs_release : Keeps SameProofs True True (release E) :=
  Keeps.bind (Keeps.edit fun _ => rfl) fun _ => Keeps.bind
    (Keeps.bind (keeps_writeOk E _).anyEnd fun _ => Keeps.edit fun _ => rfl) fun _ =>
    Keeps.edit fun _ => rfl

theorem sameProofs_backstopDisarm (which : Disarm) :
    Keeps SameProofs True True (backstopDisarm E which) := by
  refine Keeps.bind keeps_hand fun r => ?_
  split
  · exact Keeps.pure _
  · refine Keeps.ite (Keeps.pure _) (Keeps.bind keeps_hostsNow fun hosts => ?_)
    split
    · exact Keeps.pure _
    · refine Keeps.bind (Keeps.attempt (keeps_disarmArtifact E _ _ _ _).anyEnd) fun x => ?_
      cases x with
      | error why => exact Keeps.pure _
      | ok u =>
          exact Keeps.bind (Keeps.edit fun _ => rfl) fun _ =>
            Keeps.bind (sameProofs_quiet (keeps_persist E)) fun _ => Keeps.pure _

theorem sameProofs_removeDirs : Keeps SameProofs True True (removeDirs E) :=
  Keeps.bind (sameProofs_backstopDisarm E _) fun x => Keeps.bind (keeps_orLog E x).anyEnd fun _ =>
    Keeps.bind keeps_hand fun r => Keeps.bind (Keeps.loop r.dirs (fun name _ =>
      keeps_onHost E (X := True) name fun i host => keeps_ask E (.dirRemove i host r.id)) ()).anyEnd
    fun _ =>
    Keeps.bind (Keeps.edit fun _ => rfl) fun _ => sameProofs_quiet (keeps_persist E)

theorem sameProofs_closeReverted : Keeps SameProofs True True (closeReverted E) :=
  Keeps.bind (sameProofs_step E _) fun _ => Keeps.bind (sameProofs_log E _) fun _ =>
    Keeps.bind keeps_hand fun _ => Keeps.bind (Keeps.edit fun _ => rfl) fun _ =>
    Keeps.bind (sameProofs_log E _) fun _ => Keeps.bind (keeps_dropSecrets E _).anyEnd fun _ =>
    Keeps.bind (sameProofs_release E) fun _ => Keeps.bind (sameProofs_removeDirs E) fun _ =>
    sameProofs_quiet (keeps_persist E)

theorem sameProofs_refuse (n : Nat) (reason : String) :
    Keeps SameProofs True True (refuse E n reason) := by
  have hrevert : Keeps SameProofs True True (revert E) :=
    Keeps.bind keeps_hand fun _ => Keeps.bind (sameProofs_log E _) fun _ =>
      Keeps.bind (Keeps.edit fun _ => rfl) fun _ => Keeps.bind (sameProofs_revertLoop E _) fun _ =>
      Keeps.when (sameProofs_closeReverted E)
  refine Keeps.bind (Keeps.edit fun _ => rfl) fun _ => Keeps.bind (sameProofs_log E _) fun _ =>
    Keeps.bind (sameProofs_step E _) fun _ => Keeps.bind keeps_hand fun r => Keeps.ite ?_ ?_
  · exact Keeps.bind (Keeps.edit fun _ => rfl) fun _ =>
      Keeps.bind (sameProofs_quiet (keeps_persist E)) fun _ =>
      Keeps.bind (sameProofs_log E _) fun _ => Keeps.pure _
  · exact Keeps.bind hrevert fun _ => Keeps.pure _

theorem sameProofs_closeOnContract : Keeps SameProofs True True (closeOnContract E) :=
  Keeps.bind (Keeps.edit fun _ => rfl) fun _ => Keeps.bind (sameProofs_step E _) fun _ =>
    Keeps.bind (sameProofs_log E _) fun _ => Keeps.bind keeps_hand fun _ =>
    Keeps.bind (Keeps.when (Keeps.bind (Keeps.edit fun _ => rfl) fun _ =>
      Keeps.bind (sameProofs_log E _) fun _ => sameProofs_release E)) fun _ =>
    sameProofs_quiet (keeps_persist E)

/-! ## The host contract -/

theorem transition_hostContractChanged {ctx : Ctx} {s s' : State}
    (h : transition ctx s .hostContractChanged = .to s') : s' = .closed := by
  cases edge_of_transition h
  rfl

theorem turns_closeOnContract :
    Turns E .resting (closeOnContract E) (fun _ φ' w' => φ' = .resting ∧ Durable w') w := by
  refine Turns.setHand E (fun _ => rfl) fun w₁ _ _ =>
    Traces.bind (turns_step E (fun _ _ => rfl) (fun _ _ => .inl rfl) nofun) fun _ φ₂ w₂ h₂ => ?_
  rcases h₂ with ⟨s, ht, rfl, hw₂⟩ | ⟨ht, -, -⟩
  · obtain rfl := transition_hostContractChanged ht
    refine Turns.quietly E (keeps_log E _) fun _ w₃ h₃ => Turns.hand E ?_
    have hc : w₃.hand.state = .closed := by rw [h₃.state, hw₂]
    refine Traces.bind (R := fun _ φ' _ => φ' = .resting) (Traces.when (fun _ => ?_)
      fun hn => absurd (decide_eq_true hc) (ne_true_of_eq_false hn)) ?_
    · exact Turns.setHand E (fun _ => rfl) fun _ _ _ => Turns.quietly E (keeps_log E _)
        fun _ _ _ => turns_release E
    · rintro _ φ' w' rfl
      exact Traces.mono (turns_persist E) fun _ _ _ h => ⟨h.1, h.2.2⟩
  · exact absurd ht (transition_ends_stay rfl)

/-- The contract derived now is what the request froze, if it froze one, and
nothing else was noted since. -/
def Agreed (E : Setting σ) (w w' : World σ) : Prop :=
  Quiet w w' ∧ (w.hand.rehearsal = true ∨ w.hand.hostContract = none ∨ w.hand.state = .waiting) ∨
    ∃ c, w.hand.hostContract = some (E.contractHash c) ∧
      Quiet (w.noted (.compared w.hand.id (E.contractHash c) c)) w'

/-- Whether the contract refused the instance: then it is at rest. -/
def Contracted (E : Setting σ) (w : World σ) (φ : Phase) (refused : Bool) (φ' : Phase)
    (w' : World σ) : Prop :=
  if refused then φ' = .resting else φ' = φ ∧ Agreed E w w'

theorem Agreed.remarked {w' : World σ} (h : Agreed E w w') : Remarked w w' := by
  rcases h with ⟨hq, -⟩ | ⟨c, -, hq⟩
  · exact hq.remarked
  · exact ⟨_, hq⟩

theorem Agreed.departs {w' : World σ} (h : Agreed E w w') (hs : w.hand.state = .applying) :
    Departs E w' := by
  rcases h with ⟨hq, hr | hn | hw⟩ | ⟨c, hc, hq⟩
  · exact .inl (hq.rehearsal.trans hr)
  · exact .inr (.inl ((congrArg Docket.hostContract hq.docket).trans hn))
  · rw [hs] at hw
    cases hw
  · have hid : w'.hand.id = w.hand.id := hq.id
    refine .inr (.inr ⟨c, w.acts, (congrArg Docket.hostContract hq.docket).trans hc, ?_⟩)
    rw [hq.acts, hid]
    rfl

/-- The contract, held against what the request froze. -/
theorem turns_contractChanged :
    Turns E φ (contractChanged E) (fun x φ' w' => φ' = φ ∧ match x with
      | none => Quiet w w' ∧ w.hand.hostContract = none ∨ ∃ c,
          w.hand.hostContract = some (E.contractHash c) ∧
            Quiet (w.noted (.compared w.hand.id (E.contractHash c) c)) w'
      | some _ => Remarked w w') w := by
  refine Turns.hand E ?_
  cases hc : w.hand.hostContract with
  | none => exact Traces.pure ⟨rfl, .inl ⟨Quiet.refl w, rfl⟩⟩
  | some expected =>
      refine Turns.quietly E (keeps_hostContract E) fun c w₁ h₁ => ?_
      have hc₁ : w₁.hand.hostContract = some expected :=
        (congrArg Docket.hostContract h₁.docket).trans hc
      have hq : Quiet (w.noted (.compared w.hand.id expected c))
          (w₁.noted (.compared w.hand.id expected c)) := h₁.noted _
      refine Turns.remark E rfl h₁.id.symm hc₁ ?_
      dsimp only
      split
      next he =>
        subst he
        exact Traces.pure ⟨rfl, .inr ⟨c, rfl, hq⟩⟩
      · exact Traces.pure ⟨rfl, _, hq⟩

/-- A refusal for the contract is told once it is durable. -/
theorem Turns.fell {m : Eng σ Unit} (hk : Keeps SameProofs True True m)
    (hm : Turns E φ m (fun _ φ' w' => φ' = .resting ∧ Durable w') w) (hp : w.hand.proofs = [])
    {Q : Bool → Phase → World σ → Prop} (hQ : ∀ w', Q true .resting w') {id : String}
    (hid : id = w.hand.id) :
    Turns E φ (m >>= fun _ => note (.fell id) >>= fun _ => Pure.pure true) Q w := by
  refine Traces.bind (Traces.keeping (Traces.withPath hm) hk) fun _ φ' w' h => ?_
  obtain ⟨⟨⟨rfl, hd⟩, hpath⟩, hsame⟩ := h
  have hid' : w'.hand.id = w.hand.id := Moves.id hpath
  exact Turns.remark E rfl (hid.trans hid'.symm) ⟨hsame.trans hp, hd⟩ (Traces.pure (hQ _))

theorem turns_refuseOnContractChange
    (h : (φ = .starting ∧ w.hand.state = .applying) ∨ φ = .resting) :
    Turns E φ (refuseOnContractChange E) (Contracted E w φ) w := by
  refine Turns.hand E ?_
  split
  next hex =>
    simp only [Bool.or_eq_true, Option.isNone_iff_eq_none, decide_eq_true_eq, or_assoc] at hex
    exact Traces.pure ⟨rfl, .inl ⟨Quiet.refl w, hex⟩⟩
  · refine Traces.bind (turns_contractChanged E) fun x φ₁ w₁ h₁ => ?_
    obtain ⟨rfl, h₁⟩ := h₁
    match x with
    | none => exact Traces.pure ⟨rfl, h₁.imp_left fun h => ⟨h.1, .inr (.inl h.2)⟩⟩
    | some (expected, observed) =>
        obtain ⟨acts, h₁⟩ := h₁
        refine Turns.quietly E (keeps_log E _) fun _ w₂ h₂ =>
          Turns.amend E (fun _ => rfl) .unprove (Turns.hand E ?_)
        have hst : w₂.hand.state = w.hand.state := h₂.state.trans h₁.state
        by_cases ha : w₂.hand.state = .applying
        · rw [if_pos ha]
          have hf : φ₁.feeds .refuse = true := by
            rcases h with ⟨rfl, -⟩ | rfl
            · rfl
            · rfl
          rw [← bind_assoc (refuse E _ _)]
          refine Turns.fell E (Keeps.bind (sameProofs_refuse E _ _) fun _ =>
            sameProofs_quiet (keeps_persist E)) ?_ rfl (fun _ => rfl) rfl
          refine Traces.bind (turns_refuse E _ _ hf ha) fun _ φ' w' hs => ?_
          obtain ⟨-, rfl⟩ := hs
          exact Traces.mono (turns_persist E) fun _ _ _ h => ⟨h.1, h.2.2⟩
        · rw [if_neg ha]
          obtain rfl : φ₁ = .resting := by
            rcases h with ⟨-, hs⟩ | rfl
            · exact absurd (hst.trans hs) ha
            · rfl
          exact Turns.fell E (sameProofs_closeOnContract E) (turns_closeOnContract E) rfl
            (fun _ => rfl) rfl

/-! ## Firings -/

/-- At rest, with the record in hand in step with the stored one. -/
def AtRest (φ : Phase) (w : World σ) : Prop := φ = .resting ∧ Durable w

theorem AtRest.quiet {w w' : World σ} (h : Quiet w w') (hs : Durable w) : AtRest .resting w' :=
  ⟨rfl, h.durable hs⟩

theorem turns_backstopReadFired (hs : Durable w) :
    Turns E .resting (backstopReadFired E) (fun _ => AtRest) w := by
  have at_ : AtRest .resting w := ⟨rfl, hs⟩
  refine Turns.hand E ?_
  cases w.hand.backstop with
  | none => exact Traces.pure at_
  | some st =>
      dsimp only
      split
      · exact Traces.pure at_
      · refine Turns.hosts E ?_
        cases hostOf E w.hosts st.host with
        | none => exact Traces.pure at_
        | some host =>
            dsimp only
            cases executorIndex E host with
            | none => exact Traces.pure at_
            | some i =>
                refine Turns.quietly E (keeps_hasFile E i host _ _) fun has w₁ h₁ => ?_
                split
                · exact Traces.pure (AtRest.quiet h₁ hs)
                · refine Turns.quietly E (keeps_undoneByArtifact E i host _) fun gone w₂ h₂ =>
                    Turns.quietly E (keeps_hasFile E i host _ _) fun _ w₃ h₃ =>
                    Turns.quietly E (keeps_hasFile E i host _ _) fun _ w₄ h₄ =>
                    Turns.quietly E (Keeps.loop gone (fun _ _ => keeps_log E _) ()) fun _ w₅ h₅ =>
                    Turns.quietly E (Keeps.when (keeps_log E _)) fun _ w₆ h₆ =>
                    Turns.quietly E (Keeps.when (keeps_log E _)) fun _ w₇ h₇ => ?_
                  have hq : Quiet w w₇ :=
                    (((((h₁.trans h₂).trans h₃).trans h₄).trans h₅).trans h₆).trans h₇
                  -- the docket first: the artifact is spent
                  let r : InstanceRecord := { w₇.hand with
                    backstop := w₇.hand.backstop.map fun b => { b with fired := true, armed := false } }
                  refine Pending.start (Pending.via (.amend (r := r) rfl (.ease eases_fired))
                    (Pending.editBind (Pending.persistBind E rfl rfl fun w₈ h₈ => Pending.editBind ?_)))
                  have hp := Written.puts (w := { w₇ with hand := r }) (by rfl) (by rfl) h₈
                  refine Pending.land (@Move.fired _ _ _ _ gone
                    ⟨hp.hand, hp.docket, hp.others, hp.own, ?_⟩) (Traces.pure ⟨rfl, ?_⟩)
                  · have ha : w₈.acts = w₇.acts := acts_of_frame hp.frame
                    rw [← hq.applied, ← hq.id, ← hp.frame, ← ha]
                    rfl
                  · exact hp.durable rfl

end

end Rescind
