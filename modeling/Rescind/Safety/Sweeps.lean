/-
# `Rescind.Safety.Sweeps` — what a reap pass leaves behind

Bounds are looked at by the reap pass and nowhere else: an approval window, a wait's
bound, a plan's wane, an undo that was cut short.  So the pass is what keeps them.
Where it returns, and boot is not settling, it has been at every instance it found, and
none whose time had come is left where it was.  While boot settles it fires no wane and
tries no undo again; nothing is said of such a pass here, nor of the sealed outputs the
pass expires first.

**Proved here.**

    a revert that returns has closed its instance, or says why not   (`finishes_revert`)
    what a pass that returns leaves of an instance whose time had come
                                                                     (`swept`)
-/
import Rescind.Lib.Finishes
import Rescind.Safety.Expiries
import Rescind.Safety.Reversal
import Rescind.Turn.Chronicle
import Rescind.Engine.Script

namespace Rescind

open Lib
open Lib.Prog

variable {σ α : Type} {E : Setting σ}

/-! ## Where an instance stands -/

/-- What the bounds of a record are read off. -/
def InstanceRecord.times (r : InstanceRecord) :
    State × Bool × Option Instant × Option Instant × Option Wait :=
  (r.state, r.permanent, r.deadline, r.approvalDeadline, r.waiting)

/-- The record in hand stands where it did, and boot is settling if it was. -/
def SameTimes (w w' : World σ) : Prop := (w'.hand.times, w'.settling) = (w.hand.times, w.settling)

instance : Coarse (SameTimes (σ := σ)) where
  refl _ := rfl
  trans _ _ _ h h' := Eq.trans h' h
  still h := Prod.ext (congrArg InstanceRecord.times h.hand) (congrArg Frame.settling h.frame)

theorem SameTimes.times {w w' : World σ} (h : SameTimes w w') : w'.hand.times = w.hand.times :=
  congrArg Prod.fst h

theorem SameTimes.state {w w' : World σ} (h : SameTimes w w') : w'.hand.state = w.hand.state :=
  congrArg Prod.fst h.times

/-- It is being reverted. -/
def State.undoes (s : State) : Prop := s = .reverting ∨ s = .expired

/-- A revert of it is over, with or without success. -/
def State.undone (s : State) : Prop := s = .closed ∨ s = .stuck ∨ s = .driftHeld

section
variable {w w' : World σ}

theorem sameTimes_log (ev : J) : Keeps SameTimes True True (log E ev) := (keeps_log E ev).anyEnd

theorem sameTimes_persist : Keeps SameTimes True True (persist E) :=
  Keeps.bind keeps_hand fun _ => Keeps.bind (keeps_writeOk E _).anyEnd fun _ => Keeps.edit fun _ => rfl

theorem sameTimes_setHand {f : InstanceRecord → InstanceRecord} (h : ∀ r, (f r).times = r.times) :
    Keeps SameTimes True True (setHand f : Eng σ Unit) :=
  Keeps.edit fun _ => Prod.ext (h _) rfl

theorem sameTimes_contractChanged : Keeps SameTimes True True (contractChanged E) := by
  refine Keeps.bind keeps_hand fun r => ?_
  cases r.hostContract with
  | none => exact Keeps.pure none
  | some expected =>
      exact Keeps.bind (keeps_hostContract E).anyEnd fun c => Keeps.bind (Keeps.edit fun _ => rfl)
        fun _ => Keeps.ite (Keeps.pure _) (Keeps.pure _)

theorem sameTimes_release : Keeps SameTimes True True (release E) :=
  Keeps.bind (Keeps.edit fun _ => rfl) fun _ => Keeps.bind
    (Keeps.bind (keeps_writeOk E _).anyEnd fun _ => Keeps.edit fun _ => rfl) fun _ =>
    Keeps.edit fun _ => rfl

theorem sameTimes_backstopDisarm (which : Disarm) :
    Keeps SameTimes True True (backstopDisarm E which) := by
  refine Keeps.bind keeps_hand fun r => ?_
  split
  · exact Keeps.pure _
  · refine Keeps.ite (Keeps.pure _) (Keeps.bind keeps_hostsNow fun hosts => ?_)
    split
    · exact Keeps.pure _
    · refine Keeps.bind (Keeps.attempt (keeps_disarmArtifact E _ _ _ _).anyEnd) fun x => ?_
      cases x with
      | error why => exact Keeps.pure _
      | ok u =>
          exact Keeps.bind (Keeps.edit fun _ => rfl) fun _ => Keeps.bind sameTimes_persist
            fun _ => Keeps.pure _

theorem sameTimes_removeDirs : Keeps SameTimes True True (removeDirs E) :=
  Keeps.bind (sameTimes_backstopDisarm _) fun x => Keeps.bind (keeps_orLog E x).anyEnd fun _ =>
    Keeps.bind keeps_hand fun r => Keeps.bind (Keeps.loop r.dirs (fun name _ =>
      keeps_onHost E (X := True) name fun i host => keeps_ask E (.dirRemove i host r.id)) ()).anyEnd
    fun _ => Keeps.bind (Keeps.edit fun _ => rfl) fun _ => sameTimes_persist

theorem sameTimes_backstopReadFired : Keeps SameTimes True True (backstopReadFired E) := by
  refine Keeps.bind keeps_hand fun r => ?_
  split
  · exact Keeps.pure _
  · refine Keeps.ite (Keeps.pure _) (Keeps.bind keeps_hostsNow fun hosts => ?_)
    split
    · exact Keeps.pure _
    · split
      · exact Keeps.pure _
      · refine Keeps.bind (keeps_hasFile E (X := True) _ _ _ _).anyEnd fun there =>
          Keeps.ite (Keeps.pure _) ?_
        refine Keeps.bind (keeps_undoneByArtifact E (X := True) _ _ _).anyEnd fun gone =>
          Keeps.bind (keeps_hasFile E (X := True) _ _ _ _).anyEnd fun drift =>
          Keeps.bind (keeps_hasFile E (X := True) _ _ _ _).anyEnd fun clobbered => ?_
        refine Keeps.bind (Keeps.loop gone (fun _ _ => sameTimes_log _) ()) fun _ =>
          Keeps.bind (Keeps.when (sameTimes_log _)) fun _ =>
          Keeps.bind (Keeps.when (sameTimes_log _)) fun _ =>
          Keeps.bind (sameTimes_setHand fun _ => rfl) fun _ => Keeps.bind sameTimes_persist fun _ => ?_
        exact Keeps.bind (Keeps.edit fun _ => rfl) fun _ => Keeps.pure _

/-! ## A step of the machine -/

/-- A step that returns took the machine where its table says. -/
theorem finishes_step {ev : Event} {Q : Unit → World σ → Prop}
    (h : ∀ s w', transition w.hand.ctx w.hand.state ev = .to s →
      w'.hand = { w.hand with state := s } → Q () w')
    (hs : transition w.hand.ctx w.hand.state ev = .stay → Q () w) : Finishes (step E ev) Q w := by
  intro u w' hm
  cases u
  have hp : Post (step E ev) (fun x w' => x = .ok () → Q () w') w :=
    post_step E (fun s w₁ ht hw _ => h s _ ht hw.hand) (fun s x w₁ _ _ hne _ hx => absurd hx (hne ()))
      (fun ht _ => hs ht) (fun e _ _ he => by cases he)
  unfold Post at hp
  rw [hm] at hp
  exact hp rfl

/-! ## Reverts -/

theorem transition_undo {ctx : Ctx} {s : State} (hs : s.undoes) :
    transition ctx s .undoClean = .to .closed ∧ transition ctx s .undoFailed = .to .stuck ∧
      transition ctx s .driftOnDefer = .to .driftHeld := by
  rcases hs with rfl | rfl <;> refine ⟨?_, ?_, ?_⟩ <;> simp [transition, terminal]

/-- The undo of one application is nothing to the record in hand. -/
theorem sameHand_tryUndo {a : AppliedStep} {op : Op} {x : Except String UndoReport}
    (hop : w.hand.opAt a.step = some op)
    (h : ((undoStep E a op).attempt : Eng σ (Except String UndoReport)) w = (.ok x, w')) :
    w'.hand = w.hand := by
  have hp : Post ((undoStep E a op).attempt : Eng σ (Except String UndoReport)) (UndoTried a w) w :=
    Post.attempt (post_undoStep E hop) (fun _ _ h => h) (fun _ _ h => h) fun _ h => h
  unfold Post at hp
  rw [h] at hp
  cases x with
  | ok rep => exact Tried.hand hp
  | error why => exact Tried.hand hp

/-- A pass over the applied steps goes through, or leaves the instance stuck or its
drift held. -/
theorem finishes_revertLoop (as : List AppliedStep) (hs : w.hand.state.undoes) :
    Finishes (revertLoop E as) (fun clean w' =>
      if clean then w'.hand.state.undoes else w'.hand.state.undone) w := by
  induction as generalizing w with
  | nil => exact Finishes.pure hs
  | cons a rest ih =>
      have pop : ∀ (f : InstanceRecord → InstanceRecord) (w₁ : World σ), (∀ r, (f r).times = r.times) →
          w₁.hand.state.undoes → Finishes (setHand f >>= fun _ => persist E >>= fun _ => revertLoop E rest)
            (fun clean w' => if clean then w'.hand.state.undoes else w'.hand.state.undone) w₁ :=
        fun f w₁ hf h₁ => Finishes.keepsBind (sameTimes_setHand hf) fun _ w₂ h₂ =>
          Finishes.keepsBind sameTimes_persist fun _ w₃ h₃ => ih (h₃.state ▸ h₂.state ▸ h₁)
      unfold revertLoop
      refine Finishes.readBind ?_
      cases hop : w.hand.opAt a.step with
      | none => exact pop _ w (fun _ => rfl) hs
      | some op =>
          refine Finishes.bind (P := fun _ w₁ => w₁.hand = w.hand) (fun _ _ h => sameHand_tryUndo hop h)
            fun x w₁ h₁ => ?_
          have hs₁ : w₁.hand.state.undoes := h₁ ▸ hs
          cases x with
          | error why =>
              refine Finishes.keepsBind (sameTimes_setHand fun _ => rfl) fun _ w₂ h₂ =>
                Finishes.keepsBind (sameTimes_log _) fun _ w₃ h₃ => ?_
              have hs₃ : w₃.hand.state.undoes := h₃.state ▸ h₂.state ▸ hs₁
              refine Finishes.bind (P := fun _ w₄ => w₄.hand.state = .stuck) (finishes_step ?_ ?_) fun _ w₄ h₄ => ?_
              · intro s w₄ ht hw
                rw [(transition_undo hs₃).2.1] at ht
                cases ht
                rw [hw]
              · intro ht
                rw [(transition_undo hs₃).2.1] at ht
                cases ht
              · exact Finishes.readBind (Finishes.keepsBind (sameTimes_log _) fun _ w₅ h₅ =>
                  Finishes.pure (.inr (.inl (h₅.state.trans h₄))))
          | ok rep =>
              refine Finishes.ite (fun _ => ?_) fun _ => ?_
              · refine Finishes.keepsBind (sameTimes_setHand fun _ => rfl) fun _ w₂ h₂ =>
                  Finishes.keepsBind (sameTimes_log _) fun _ w₃ h₃ => ?_
                have hs₃ : w₃.hand.state.undoes := h₃.state ▸ h₂.state ▸ hs₁
                refine Finishes.bind (P := fun _ w₄ => w₄.hand.state = .driftHeld) (finishes_step ?_ ?_)
                  fun _ w₄ h₄ => Finishes.pure (.inr (.inr h₄))
                · intro s w₄ ht hw
                  rw [(transition_undo hs₃).2.2] at ht
                  cases ht
                  rw [hw]
                · intro ht
                  rw [(transition_undo hs₃).2.2] at ht
                  cases ht
              · exact Finishes.keepsBind (Keeps.when (sameTimes_log _)) fun _ w₂ h₂ =>
                  pop _ w₂ (fun _ => rfl) (h₂.state ▸ hs₁)

theorem finishes_closeReverted (hs : w.hand.state.undoes) :
    Finishes (closeReverted E) (fun _ w' => w'.hand.state = .closed) w := by
  refine Finishes.bind (P := fun _ w₁ => w₁.hand.state = .closed) (finishes_step ?_ ?_) fun _ w₁ h₁ => ?_
  · intro s w₁ ht hw
    rw [(transition_undo hs).1] at ht
    cases ht
    rw [hw]
  · intro ht
    rw [(transition_undo hs).1] at ht
    cases ht
  · refine Finishes.keepsBind (sameTimes_log _) fun _ w₂ h₂ => Finishes.readBind ?_
    refine Finishes.keepsBind (sameTimes_setHand fun _ => rfl) fun _ w₃ h₃ =>
      Finishes.keepsBind (sameTimes_log _) fun _ w₄ h₄ =>
      Finishes.keepsBind (keeps_dropSecrets (R := SameTimes) E _) fun _ w₅ h₅ =>
      Finishes.keepsBind sameTimes_release fun _ w₆ h₆ =>
      Finishes.keepsBind sameTimes_removeDirs fun _ w₇ h₇ =>
      Finishes.keeps sameTimes_persist fun _ w₈ h₈ => ?_
    exact h₈.state.trans <| h₇.state.trans <| h₆.state.trans <| h₅.state.trans <| h₄.state.trans <|
      h₃.state.trans <| h₂.state.trans h₁

/-- **A revert that returns is over**: the instance is closed, stuck or its drift is
held. -/
theorem finishes_revert (hs : w.hand.state.undoes) :
    Finishes (revert E) (fun _ w' => w'.hand.state.undone) w := by
  refine Finishes.readBind <| Finishes.keepsBind (sameTimes_log _) fun _ w₁ h₁ =>
    Finishes.keepsBind (sameTimes_setHand fun _ => rfl) fun _ w₂ h₂ => ?_
  refine Finishes.bind (finishes_revertLoop _ (h₂.state ▸ h₁.state ▸ hs)) fun clean w₃ h₃ => ?_
  cases clean with
  | true => exact Finishes.mono (finishes_closeReverted h₃) fun _ _ h => .inl h
  | false => exact Finishes.pure h₃

/-! ## What the pass does to one instance -/

/-- The states the wane of a temporary plan ends. -/
def State.waning : State → Bool
  | .applying | .waiting | .deferred | .held | .applied | .suspended | .reverting => true
  | _ => false

/-- A temporary plan past its deadline. -/
def Waned (now : Instant) (r : InstanceRecord) : Prop :=
  r.permanent = false ∧ (r.deadline.any fun d => expired now d) = true

/-- The state a pass leaves an instance in, if its time had come.  An undo that was cut
short or failed is tried again; drift that is held waits for an operator. -/
def Swept (now : Instant) (r : InstanceRecord) (s : State) : Prop :=
  match r.state with
  | .pending => (r.approvalDeadline.any fun d => expired now d) = true → s ≠ .pending
  | .approvalExpired => s = .closed
  | .reverting | .expired | .stuck => s.undone
  | .driftHeld => s = .driftHeld
  | .waiting => (Waned now r → s.undone) ∧
      (((r.waiting.bind Wait.bound).any fun b => expired now b) = true → s.undone ∨ s = .held)
  | .applying | .deferred | .held | .applied | .suspended => Waned now r → s.undone
  | _ => True

theorem Swept.congr {now : Instant} {r r' : InstanceRecord} {s : State} (ht : r'.times = r.times)
    (h : Swept now r' s) : Swept now r s := by
  obtain ⟨hs, hp, hd, ha, hw⟩ : r'.state = r.state ∧ r'.permanent = r.permanent ∧
      r'.deadline = r.deadline ∧ r'.approvalDeadline = r.approvalDeadline ∧ r'.waiting = r.waiting := by
    simpa [InstanceRecord.times] using ht
  simpa only [Swept, Waned, hs, hp, hd, ha, hw] using h

theorem transition_wane {r : InstanceRecord} (hs : r.state.waning = true) (hp : r.permanent = false) :
    transition r.ctx r.state .waneElapses = .to .expired := by
  have hi : r.ctx.intent = .temporary := by
    show (if r.permanent then Intent.permanent else .temporary) = _
    rw [hp]
    rfl
  cases hr : r.state <;> rw [hr] at hs <;> simp only [State.waning, Bool.false_eq_true] at hs <;>
    simp [transition, terminal, waneOutcome, hi]

theorem finishes_wane (h : transition w.hand.ctx w.hand.state .waneElapses = .to .expired) :
    Finishes (wane E) (fun _ w' => w'.hand.state.undone) w := by
  refine Finishes.bind (P := fun _ w₁ => w₁.hand.state.undoes) (finishes_step ?_ ?_) fun _ w₁ h₁ => ?_
  · intro s w₁ ht hw
    rw [h] at ht
    cases ht
    rw [hw]
    exact .inr rfl
  · intro ht
    rw [h] at ht
    cases ht
  · exact Finishes.keepsBind (sameTimes_log _) fun _ w₂ h₂ =>
      Finishes.keepsBind (sameTimes_setHand fun _ => rfl) fun _ w₃ h₃ =>
      finishes_revert (h₃.state ▸ h₂.state ▸ h₁)

theorem finishes_lapseWait (x : Wait) : Finishes (lapseWait E x)
    (fun _ w' => w'.hand.state.undone ∨ w'.hand.state = .held) w := by
  refine Finishes.keepsBind (sameTimes_log _) fun _ w₁ _ => ?_
  refine Finishes.bind (P := fun _ w₂ => w₂.hand.state = .held ∨ w₂.hand.state = .reverting)
    (finishes_step ?_ ?_) fun _ w₂ h₂ => ?_
  · intro s w₂ ht hw
    rw [hw]
    exact transition_boundLapses ht
  · intro ht
    exact absurd ht transition_boundLapses_stay
  · refine Finishes.editBind (Finishes.readBind (Finishes.ite (fun hh => ?_) fun hh => ?_))
    · refine Finishes.keepsBind (sameTimes_setHand fun _ => rfl) fun _ w₃ h₃ =>
        Finishes.keepsBind (sameTimes_log _) fun _ w₄ h₄ =>
        Finishes.keeps sameTimes_persist fun _ w₅ h₅ => .inr ?_
      exact h₅.state.trans <| h₄.state.trans <| h₃.state.trans hh
    · refine Finishes.keepsBind (sameTimes_setHand fun _ => rfl) fun _ w₃ h₃ => ?_
      have hr : w₂.hand.state = .reverting := h₂.resolve_left hh
      exact Finishes.mono (finishes_revert (h₃.state ▸ .inl hr)) fun _ _ h => .inl h

theorem finishes_reapWaiting (now : Instant)
    (hx : ((w.hand.waiting.bind Wait.bound).any fun b => expired now b) = true) :
    Finishes (reapWaiting E now) (fun _ w' => w'.hand.state.undone ∨ w'.hand.state = .held) w := by
  refine Finishes.readBind (Finishes.ite (fun _ => finishes_lapseWait _) fun hn => ?_)
  cases hw : w.hand.waiting with
  | none => rw [hw] at hx; cases hx
  | some x =>
      rw [hw] at hx hn
      exact absurd hx hn

theorem Swept.of_undone {now : Instant} {r : InstanceRecord} {s : State} (hp : r.state ≠ .pending)
    (ha : r.state ≠ .approvalExpired) (hd : r.state ≠ .driftHeld) (h : s.undone) : Swept now r s := by
  unfold Swept
  split
  next hs => exact absurd hs hp
  next hs => exact absurd hs ha
  next => exact h
  next => exact h
  next => exact h
  next hs => exact absurd hs hd
  next => exact ⟨fun _ => h, fun _ => .inl h⟩
  all_goals first | exact fun _ => h | exact trivial

/-- Where neither wane nor an undo is due, only a wait may be. -/
theorem Swept.of_unwaned {now : Instant} {r : InstanceRecord} {s : State} (hp : r.state ≠ .pending)
    (ha : r.state ≠ .approvalExpired) (hu : ¬r.state.undoes) (hs : r.state ≠ .stuck)
    (hd : r.state = .driftHeld → s = .driftHeld) (hn : r.state.waning = true → ¬Waned now r)
    (hw : r.state = .waiting → ((r.waiting.bind Wait.bound).any fun b => expired now b) = true →
      s.undone ∨ s = .held) : Swept now r s := by
  unfold Swept
  split
  next hs => exact absurd hs hp
  next hs => exact absurd hs ha
  next hr => exact absurd (.inl hr) hu
  next hr => exact absurd (.inr hr) hu
  next hr => exact absurd hr hs
  next hr => exact hd hr
  next hr => exact ⟨fun h => absurd h (hn (by rw [hr]; rfl)), hw hr⟩
  all_goals first
    | exact trivial
    | (rename_i hr; exact fun h => absurd h (hn (by rw [hr]; rfl)))

/-- An undo that failed is tried again. -/
theorem finishes_retry (hs : w.hand.state = .stuck) :
    Finishes (step E .retry >>= fun _ => revert E) (fun _ w' => w'.hand.state.undone) w := by
  have ht : transition w.hand.ctx w.hand.state .retry = .to .reverting := by
    rw [hs]
    simp [transition, terminal]
  refine Finishes.bind (P := fun _ w₁ => w₁.hand.state.undoes) (finishes_step ?_ ?_) fun _ w₁ h₁ =>
    finishes_revert h₁
  · intro s w₁ hs hw
    rw [ht] at hs
    cases hs
    rw [hw]
    exact .inl rfl
  · intro hs
    rw [ht] at hs
    cases hs

theorem driftHeld_stays {ctx : Ctx} : transition ctx .driftHeld .waneElapses ≠ .to .expired := by
  unfold transition waneOutcome
  cases ctx.intent <;> simp [terminal]

/-- What the bounds of an instance ask for is done. -/
theorem finishes_reapBounded (now : Instant) (hp : w.hand.state ≠ .pending)
    (ha : w.hand.state ≠ .approvalExpired) :
    Finishes (reapBounded E now) (fun _ w' => Swept now w.hand w'.hand.state) w := by
  refine Finishes.readBind (Finishes.ite (fun h => ?_) fun hn => ?_)
  · rw [Bool.and_eq_true, decide_eq_true_eq] at h
    refine Finishes.mono (finishes_wane h.2) fun _ _ => .of_undone hp ha fun hd => ?_
    rw [hd] at h
    exact driftHeld_stays h.2
  -- from here on wane asks for nothing
  have hwane : w.hand.state.waning = true → ¬Waned now w.hand := by
    rintro hs ⟨hperm, hd⟩
    rw [transition_wane hs hperm, hd] at hn
    exact hn rfl
  refine Finishes.bind (P := fun _ w₁ => w₁ = w) (Finishes.when (fun h => ?_) fun _ => rfl) ?_
  · rw [Bool.and_eq_true, decide_eq_true_eq] at h
    refine finishes_step (fun s w₁ ht _ => ?_) fun _ => rfl
    rw [h.2] at ht
    cases ht
  intro _ w₁ h₁
  rw [h₁]
  refine Finishes.ite (fun h => ?_) fun h => ?_
  · rw [Bool.or_eq_true, decide_eq_true_eq, decide_eq_true_eq] at h
    refine Finishes.mono (finishes_revert h) fun _ _ => .of_undone hp ha fun hd => ?_
    rw [hd] at h
    exact h.elim nofun nofun
  rw [Bool.or_eq_true, decide_eq_true_eq, decide_eq_true_eq] at h
  by_cases hs : w.hand.state = .stuck
  · refine Finishes.readBind ?_
    rw [hs]
    exact Finishes.mono (finishes_retry hs) fun _ _ =>
      .of_undone hp ha fun hd => absurd (hs.symm.trans hd) nofun
  by_cases hd : w.hand.state = .driftHeld
  · refine Finishes.readBind ?_
    rw [hd]
    exact Finishes.pure (.of_unwaned hp ha h hs (fun _ => hd) hwane fun hw =>
      absurd (hd.symm.trans hw) nofun)
  by_cases hw : w.hand.state = .waiting ∧
      ((w.hand.waiting.bind Wait.bound).any fun b => expired now b) = true
  · refine Finishes.readBind ?_
    rw [hw.1]
    exact Finishes.mono (finishes_reapWaiting now hw.2) fun _ _ hend =>
      .of_unwaned hp ha h hs (fun h => absurd h hd) hwane fun _ _ => hend
  · exact fun _ _ _ => .of_unwaned hp ha h hs (fun h => absurd h hd) hwane fun hs hb =>
      absurd ⟨hs, hb⟩ hw

/-! ## Requests whose window is over -/

/-- The events that end a request lead to one state only. -/
def Event.settles : Event → Option State
  | .cancel | .hostContractChanged => some .closed
  | .approve => some .applying
  | _ => none

theorem target_of_transition {ctx : Ctx} {st s s' : State} {ev : Event}
    (ht : transition ctx st ev = .to s) (he : ev.settles = some s') : s = s' := by
  cases edge_of_transition ht <;> cases he <;> rfl

theorem no_stay {ctx : Ctx} {st s' : State} {ev : Event} (ht : transition ctx st ev = .stay)
    (he : ev.settles = some s') : False := by
  cases observed_of_transition ht <;> cases he

/-- A step with such an event leads there. -/
theorem finishes_settles {ev : Event} {s : State} (he : ev.settles = some s) :
    Finishes (step E ev) (fun _ w' => w'.hand.state = s) w :=
  finishes_step (fun s' w₁ ht hw => by rw [hw]; exact target_of_transition ht he)
    fun ht => (no_stay ht he).elim

theorem finishes_closeLapsed : Finishes (closeLapsed E) (fun _ w' => w'.hand.state = .closed) w := by
  refine Finishes.bind (finishes_settles rfl) fun _ w₁ h₁ => ?_
  refine Finishes.keepsBind (sameTimes_setHand fun _ => rfl) fun _ w₂ h₂ =>
    Finishes.keepsBind (sameTimes_log _) fun _ w₃ h₃ =>
    Finishes.keepsBind sameTimes_release fun _ w₄ h₄ =>
    Finishes.keeps sameTimes_persist fun _ w₅ h₅ => ?_
  exact h₅.state.trans <| h₄.state.trans <| h₃.state.trans <| h₂.state.trans h₁

theorem finishes_lapsePending {now : Instant}
    (hd : (w.hand.approvalDeadline.any fun d => expired now d) = true) :
    Finishes (lapsePending E now) (fun _ w' => w'.hand.state = .closed) w := by
  refine Finishes.readBind (Finishes.when (fun _ => ?_) fun h => absurd (hd.symm.trans h) nofun)
  exact Finishes.bind (P := fun _ _ => True) (fun _ _ _ => trivial) fun _ w₁ _ =>
    Finishes.keepsBind (sameTimes_log _) fun _ w₂ _ => finishes_closeLapsed

theorem finishes_closeOnContract :
    Finishes (closeOnContract E) (fun _ w' => w'.hand.state = .closed) w := by
  refine Finishes.editBind (Finishes.bind (finishes_settles rfl) fun _ w₁ h₁ => ?_)
  refine Finishes.keepsBind (sameTimes_log _) fun _ w₂ h₂ => Finishes.readBind ?_
  refine Finishes.keepsBind (R := SameTimes) (X := True) (F := True) ?_ fun _ w₃ h₃ =>
    Finishes.keeps sameTimes_persist fun _ w₄ h₄ => ?_
  · exact Keeps.when (Keeps.bind (sameTimes_setHand fun _ => rfl) fun _ =>
      Keeps.bind (sameTimes_log _) fun _ => sameTimes_release)
  · exact h₄.state.trans <| h₃.state.trans <| h₂.state.trans h₁

/-- A request whose contract changed is closed. -/
theorem finishes_refuseOnContractChange (hs : w.hand.state = .pending) :
    Finishes (refuseOnContractChange E)
      (fun refused w' => refused = true → w'.hand.state = .closed) w := by
  refine Finishes.readBind (Finishes.ite (fun _ => Finishes.pure nofun) fun _ => ?_)
  refine Finishes.keepsBind sameTimes_contractChanged fun x w₁ h₁ => ?_
  cases x with
  | none => exact Finishes.pure nofun
  | some found =>
      refine Finishes.keepsBind (sameTimes_log _) fun _ w₂ h₂ => Finishes.editBind
        (Finishes.readBind (Finishes.ite (fun ha => ?_) fun _ => ?_))
      · have ha : w₂.hand.state = .applying := ha
        exact absurd (ha.symm.trans (h₂.state.trans (h₁.state.trans hs))) nofun
      · exact Finishes.bind finishes_closeOnContract fun _ w₃ h₃ =>
          Finishes.editBind (Finishes.pure fun _ => h₃)

/-- An approval that returns leaves no request pending. -/
theorem finishes_approve (hs : w.hand.state = .pending) :
    Finishes (approve E) (fun _ w' => w'.hand.state ≠ .pending) w := by
  refine Finishes.bind (finishes_refuseOnContractChange hs) fun refused w₁ h₁ => ?_
  refine Finishes.ite (fun hr => Finishes.pure ?_) fun _ => ?_
  · rw [h₁ hr]
    nofun
  · refine Finishes.keepsBind (keeps_ask (R := SameTimes) (X := True) E _) fun now w₂ _ =>
      Finishes.editBind (Finishes.bind (finishes_settles rfl) fun _ w₃ h₃ => ?_)
    refine Finishes.readBind (Finishes.keeps (sameTimes_log _) fun _ w₄ h₄ => ?_)
    rw [h₄.state, h₃]
    nofun

end

/-! ## What a turn leaves in the store -/

/-- Phases of a request. -/
def Phase.asks : Phase → Bool
  | .beginning | .requesting | .reserving | .reserved => true
  | _ => false

section
variable {p p' : Phase × World σ}

theorem request_of_pending {ctx : Ctx} {s : State} {ev : Event}
    (ht : transition ctx s ev = .to .pending) : ev = .request := by
  cases edge_of_transition ht
  rfl

/-- A turn that asks for nothing leaves nothing pending that was not. -/
theorem Move.not_pending (hm : Move E p p') (h : p.1.asks = false ∧ p.2.hand.state ≠ .pending) :
    p'.1.asks = false ∧ p'.2.hand.state ≠ .pending := by
  obtain ⟨hφ, hs⟩ := h
  cases hm with
  | check | reserve | reserved | request => cases hφ
  | quiet hq => exact ⟨hφ, Core.state_ne hq.hand hs⟩
  | amend hc => exact ⟨hφ, Core.state_ne hc hs⟩
  | remark => exact ⟨hφ, hs⟩
  | @transit φ _ _ ev s hf ht _ hp =>
      refine ⟨by cases s <;> rfl, Core.state_ne hp.hand ?_⟩
      rintro rfl
      obtain rfl := request_of_pending ht
      cases φ <;> cases hf
  | mark _ _ hφ' hp =>
      refine ⟨?_, Core.state_ne hp.hand hs⟩
      rcases hφ' with rfl | ⟨rfl, -⟩ <;> rfl
  | handOff hp | choose _ hp | pop hp | fired hp => exact ⟨rfl, Core.state_ne hp.hand hs⟩
  | rerecord _ hr => exact ⟨rfl, Core.state_ne hr hs⟩
  | reload _ hk => exact ⟨rfl, Core.state_ne (InstanceRecord.core_of_kern hk) hs⟩
  | _ => exact ⟨rfl, hs⟩

/-- What is stored of the record in hand is in its state. -/
def StateStored (w : World σ) : Prop :=
  (w.instances.read w.hand.id).map InstanceRecord.state = some w.hand.state

theorem stateStored_of_kern {w w' : World σ} (hid : w'.hand.id = w.hand.id)
    (h : (w'.instances.read w.hand.id).map InstanceRecord.kern = some w'.hand.kern) : StateStored w' := by
  obtain ⟨r, hr, hk⟩ := Option.map_eq_some_iff.mp h
  rw [StateStored, hid, hr]
  exact congrArg (fun k : Core × Docket => some k.1.state) hk

theorem Durable.stateStored {w : World σ} (h : Durable w) : StateStored w := stateStored_of_kern rfl h

theorem Move.stateStored (hm : Move E p p') (h : StateStored p.2) : StateStored p'.2 := by
  have kept : p'.2.instances.read p.2.hand.id = p.2.instances.read p.2.hand.id →
      p'.2.hand.state = p.2.hand.state → StateStored p'.2 := by
    intro hr hs
    rw [StateStored, hm.id, hr, hs]
    exact h
  cases hm with
  | quiet hq =>
      rcases hq.kept with he | hk
      · exact kept he (congrArg Core.state hq.hand)
      · exact stateStored_of_kern (congrArg Core.id hq.hand) (by rw [hk, hq.kern])
  | check _ _ hp | request _ hp | transit _ _ _ hp | mark _ _ _ hp | handOff hp | choose _ hp
  | pop hp | fired hp => exact stateStored_of_kern (congrArg Core.id hp.hand) hp.kern
  | amend hc => exact kept rfl (congrArg Core.state hc)
  | rerecord _ hr => exact kept rfl (congrArg Core.state hr)
  | reload _ hk => exact kept rfl (congrArg Core.state (InstanceRecord.core_of_kern hk))
  | _ => exact kept rfl rfl

/-- Whether boot is settling is not a turn's to say. -/
theorem Move.settling (hm : Move E p p') : p'.2.settling = p.2.settling := by
  have framed : ∀ {w' : World σ} {f : Frame}, w'.frame = f → f.settling = p.2.settling →
      w'.settling = p.2.settling := fun hf h => (congrArg Frame.settling hf).trans h
  cases hm with
  | quiet hq => exact framed hq.frame rfl
  | check _ _ hp | request _ hp | transit _ _ _ hp | mark _ _ _ hp | handOff hp | choose _ hp
  | pop hp | fired hp => exact framed hp.frame rfl
  | _ => rfl

/-- A turn that returns went along the machine. -/
theorem finishes_turn {φ : Phase} {m : Eng σ α} {Q : α → Phase → World σ → Prop} {w : World σ}
    (h : Turns E φ m Q w) :
    Finishes m (fun a w' => ∃ φ', Moves E (φ, w) (φ', w') ∧ Q a φ' w') w := by
  intro a w' hm
  unfold Turns Traces at h
  rw [hm] at h
  exact h

/-- Approved, an instance is walked, and not asked for again. -/
theorem finishes_approveAndWalk {w : World σ} (hs : w.hand.state = .pending) :
    Finishes (approveAndWalk E) (fun _ w' => w'.hand.state ≠ .pending) w := by
  have ht : Turns E .resting (approve E) (fun _ => Ready) w :=
    turns_approve E (by rw [hs]; exact nofun)
  refine Finishes.bind ((finishes_approve hs).and (finishes_turn ht)) ?_
  rintro _ w₁ ⟨h₁, φ₁, -, hr⟩
  refine Finishes.mono (finishes_turn (turns_persistWalk E hr)) ?_
  rintro _ w₂ ⟨φ₂, hm, -⟩
  have hφ : φ₁.asks = false := by rcases hr with ⟨rfl, -⟩ | ⟨rfl, -⟩ <;> rfl
  exact (path_invariant hm (fun _ _ hI hM => Move.not_pending hM hI) ⟨hφ, h₁⟩).2

end

/-! ## The pass -/

section
variable {w w' : World σ}

theorem swept_terminal {now : Instant} {r : InstanceRecord} {s : State} (h : terminal r.state = true) :
    Swept now r s := by
  cases hs : r.state <;> rw [hs] at h <;> simp [terminal] at h <;> simp [Swept, hs]

theorem sameTimes_gateOpened : Keeps SameTimes True True (gateOpened E) := by
  refine Keeps.bind keeps_hand fun r => ?_
  split
  · exact Keeps.bind keeps_hand fun _ => Keeps.bind (keeps_authenticators E).anyEnd fun _ =>
      Keeps.bind (keeps_ask E (X := True) _).anyEnd fun _ => Keeps.bind (Keeps.edit fun _ => rfl)
        fun _ => Keeps.ite (Keeps.pure _) (Keeps.pure _)
  · exact Keeps.pure _

/-- What the pass does to one instance it finds. -/
theorem finishes_reapInstance (now : Instant) (hsettle : w.settling = false) :
    Finishes (reapInstance E now) (fun _ w' => Swept now w.hand w'.hand.state) w := by
  refine Finishes.readBind (Finishes.ite (fun ht _ _ _ => swept_terminal ht) fun _ =>
    Finishes.ite (fun hp => ?_) fun hp => Finishes.ite (fun ha => ?_) fun ha => ?_)
  · refine Finishes.keepsBind sameTimes_gateOpened fun opened w₁ h₁ => ?_
    have hp₁ : w₁.hand.state = .pending := h₁.state.trans hp
    have settled : ∀ {s : State}, ((w₁.hand.approvalDeadline.any fun d => expired now d) = true →
        s ≠ .pending) → Swept now w.hand s := fun h => by
      refine Swept.congr h₁.times ?_
      unfold Swept
      rw [hp₁]
      exact h
    refine Finishes.ite (fun _ => ?_) fun _ => ?_
    · exact Finishes.mono (finishes_approveAndWalk hp₁) fun _ _ h => settled fun _ => h
    · intro _ w' hm
      refine settled fun hd => ?_
      rw [finishes_lapsePending hd _ w' hm]
      nofun
  · refine Finishes.mono finishes_closeLapsed fun _ w₁ h₁ => ?_
    unfold Swept
    rw [ha]
    exact h₁
  · refine Finishes.keepsBind sameTimes_backstopReadFired fun _ w₁ h₁ => ?_
    refine Finishes.keepsBind (R := SameTimes) (X := True) (F := True) ?_ fun _ w₂ h₂ => Finishes.readBind ?_
    · exact Keeps.bind keeps_hand fun _ => Keeps.when
        (Keeps.bind (keeps_ask E (X := True) _).anyEnd fun _ => Keeps.pure _)
    · have hsettle₂ : w₂.settling = false :=
        (congrArg Prod.snd h₂).trans ((congrArg Prod.snd h₁).trans hsettle)
      have hst : w₂.hand.state = w.hand.state := h₂.state.trans h₁.state
      rw [hsettle₂]
      exact Finishes.mono (finishes_reapBounded now (hst ▸ hp) (hst ▸ ha)) fun _ _ h =>
        Swept.congr (h₂.times.trans h₁.times) h

/-- The body of the pass. -/
abbrev sweep (E : Setting σ) (now : Instant) (r : InstanceRecord) : Eng σ Unit :=
  takeUp r >>= fun _ => reapInstance E now

/-- The record is stored as it was found, or as the pass left it, and boot is not
settling. -/
abbrev Found (r : InstanceRecord) (w : World σ) : Prop :=
  w.instances.read r.id = some r ∧ w.settling = false

abbrev Left (now : Instant) (r : InstanceRecord) (w : World σ) : Prop :=
  ∃ r', w.instances.read r.id = some r' ∧ Swept now r r'.state

/-- At the record it takes up the pass does its work, and it leaves every other as it
was. -/
theorem finishes_sweep (now : Instant) {r : InstanceRecord} (h : Found r w) :
    Finishes (sweep E now r) (fun _ w' => Left now r w' ∧
      ∀ s : InstanceRecord, s.id ≠ r.id → (Found s w → Found s w') ∧ (Left now s w → Left now s w')) w := by
  refine Finishes.editBind ?_
  have hd : Durable { w with hand := r } := durable_of_read h.1
  have hmoves := finishes_turn (turns_reapInstance E now hd)
  refine Finishes.mono (Finishes.and (finishes_reapInstance now h.2) hmoves) ?_
  rintro _ w' ⟨hs, φ', hm, -⟩
  have hst : StateStored w' :=
    path_invariant (I := fun p => StateStored p.2) hm (fun _ _ hI hM => Move.stateStored hM hI) hd.stateStored
  have hsettle : w'.settling = false := path_invariant (I := fun p => p.2.settling = false) hm
    (fun _ _ hI hM => (Move.settling hM).trans hI) h.2
  have hid : w'.hand.id = r.id := Moves.id hm
  refine ⟨?_, fun s hne => ⟨fun hf => ⟨?_, hsettle⟩, fun ⟨s', hs', hsw⟩ => ⟨s', ?_, hsw⟩⟩⟩
  · rw [StateStored, hid] at hst
    obtain ⟨r', hr', he⟩ := Option.map_eq_some_iff.mp hst
    exact ⟨r', hr', he ▸ hs⟩
  · exact (Moves.others hm s.id hne).trans hf.1
  · exact (Moves.others hm s.id hne).trans hs'

theorem finishes_allInstances :
    Finishes (allInstances E) (fun rs w' => rs = w.instances.records ∧ Still w w') w := by
  refine Finishes.keepsBind (keeps_readOk (R := Still) E _) fun _ w₁ h₁ => Finishes.readBind ?_
  refine Finishes.keepsBind (Keeps.loop _ (fun _ _ => keeps_readOk (R := Still) E _) ())
    fun _ w₂ h₂ => Finishes.pure ⟨by rw [h₁.instances], h₁.trans h₂⟩

theorem finishes_pass (now : Instant) (hsettle : w.settling = false) :
    Finishes (allInstances E >>= fun rs => Prog.loop (fun r (_ : Unit) => sweep E now r) rs ())
      (fun _ w' => ∀ j r, w.instances.read j = some r →
        ∃ r', w'.instances.read j = some r' ∧ Swept now r r'.state) w := by
  refine Finishes.bind finishes_allInstances ?_
  rintro _ w₁ ⟨rfl, h₁⟩
  have found : ∀ r ∈ w.instances.records, Found r w₁ := fun r hr =>
    ⟨by rw [h₁.instances]; exact Store.read_of_mem hr, (congrArg Frame.settling h₁.frame).trans hsettle⟩
  refine Finishes.mono (Finishes.visits (P := Found) (D := Left now) (fun _ _ _ hx => finishes_sweep now hx)
    (Store.records_nodup w.instances) () found) fun _ w' h j r hr => ?_
  have hid : r.id = j := Store.id_of_read hr
  obtain ⟨r', hr', hs⟩ := h r (List.mem_map_of_mem (f := Prod.snd) (Assoc.mem_of_get hr))
  exact ⟨r', hid ▸ hr', hs⟩

theorem answer_of_ask {q : Query} {x : Reply q} (h : (ask E q : Eng σ (Reply q)) w = (.ok x, w')) :
    (E.outside.answer w.out q).1 = some x := by
  unfold ask at h
  rcases hq : E.outside.answer w.out q with ⟨_ | y, o⟩ <;> rw [hq] at h <;> cases h
  rfl

/-- **A reap pass that returns has been everywhere.**  Whatever the store, the hosts and
the probes answered, where boot is not settling each instance it found is left in a
state its bounds allow: no temporary plan past its wane but closed, stuck or with its
drift held; no wait past its bound; no undo half done, be it one that was stuck; no
request past its window. -/
theorem swept (h : reap E w = (.ok (), w')) (hsettle : w.settling = false) :
    ∃ now, (E.outside.answer w.out .now).1 = some now ∧ ∀ j r, w.instances.read j = some r →
      ∃ r', w'.instances.read j = some r' ∧ Swept now r r'.state := by
  obtain ⟨now, w₁, hnow, h⟩ := bind_ok_inv h
  obtain ⟨_, w₂, hsec, h⟩ := bind_ok_inv h
  have h₁ : Still w w₁ := (keeps_ask (R := Still) (X := True) E _).ran hnow
  have h₂ : Still w w₂ := h₁.trans ((keeps_expireSecrets (R := Still) E).ran hsec)
  refine ⟨now, answer_of_ask hnow, fun j r hr => ?_⟩
  have hs₂ : w₂.settling = false := (congrArg Frame.settling h₂.frame).trans hsettle
  exact finishes_pass now hs₂ () w' h j r (h₂.instances ▸ hr)

end

/-! ## A plan past its wane -/

namespace PastWane

/-- A thousand seconds pass between two readings of the clock. -/
def site : Setting Nat :=
  { ({} : Script).setting with
    outside := {
      answer := fun n q => (match q with
        | .now => some (⟨1000 * n⟩ : Instant)
        | q => ({} : Script).answer n q, match q with
        | .now => n + 1
        | _ => n) } }

def plan : PlanIr where
  site := smallSite ["web"]
  requester := "ops"
  plan := { id := "p", owner := "web", wane := some ⟨1500⟩, body := [ownFile "/a"] }

def applied : World Nat := (exec site (.apply plan [] {}) (smallWorld ["web"])).2

def reaped : World Nat := (reap site applied).2

/-- The state, whether time bounds it, and its deadline. -/
def stands (w : World Nat) : Option (State × Bool × Option Instant) :=
  (w.instances.read "p.web.00000000").map fun r => (r.state, r.permanent, r.deadline)

/-- The next reading of the clock. -/
def clock (w : World Nat) : Option Instant := (site.outside.answer w.out .now).1

/-- It returned. -/
def returned : Res EngineError Unit → Bool
  | .ok () => true
  | _ => false

theorem told_applied : stands applied = some (.applied, false, some ⟨4500⟩) ∧
    applied.settling = false ∧ returned (reap site applied).1 = true ∧
    clock applied = some ⟨8000⟩ := by
  decide +kernel

theorem run_reaped : reap site applied = (.ok (), reaped) := by
  refine eq_of_fst ?_
  have h := told_applied.2.2.1
  unfold returned at h
  split at h
  next he => exact he
  next => cases h

/-- The pass reverts it. -/
theorem swept_reaped : ∃ r r', applied.instances.read "p.web.00000000" = some r ∧
    r.state = .applied ∧ reaped.instances.read "p.web.00000000" = some r' ∧ r'.state.undone := by
  obtain ⟨hstands, hsettle, -, hclock⟩ := told_applied
  obtain ⟨r, hr, he⟩ := Option.map_eq_some_iff.mp hstands
  obtain ⟨hs, hp, hd⟩ : r.state = .applied ∧ r.permanent = false ∧ r.deadline = some ⟨4500⟩ := by
    simpa using he
  obtain ⟨now, hnow, hswept⟩ := swept run_reaped hsettle
  obtain ⟨r', hr', hsw⟩ := hswept _ r hr
  have hnow : now = ⟨8000⟩ := Option.some.inj (hnow.symm.trans hclock)
  refine ⟨r, r', hr, hs, hr', ?_⟩
  unfold Swept at hsw
  rw [hs] at hsw
  refine hsw ⟨hp, ?_⟩
  rw [hd, hnow]
  rfl

end PastWane

end Rescind
