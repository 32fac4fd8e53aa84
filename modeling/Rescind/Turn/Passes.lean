/-
# `Rescind.Turn.Passes` — the reap pass, the heartbeat, boot and `apply` as turns

What a pass does to one instance, and what `apply` does to a fresh record, are
paths of the machine that end at rest.
-/
import Rescind.Turn.Verbs

namespace Rescind

open Lib Lib.Prog

variable {σ α : Type} (E : Setting σ)

section
variable {φ : Phase} {w : World σ}

/-! ## Reading a record -/

theorem turns_readInstance (id : String) (hφ : φ.settled = true) :
    Turns E φ (readInstance E id)
      (fun x φ' w' => φ' = φ ∧ Still w w' ∧ x = w'.instances.read id) w := by
  refine Traces.bind (Traces.ofKeeps (keeps_readOk E (R := Still) _)
    (fun _ _ h => Move.quiet h.quiet) (fun _ _ _ => drops_settled E hφ)
    fun hF _ => drops_refused E hF) ?_
  rintro _ _ w₁ ⟨rfl, h₁⟩
  exact Traces.readBind (f := Pure.pure) (Traces.pure ⟨rfl, h₁, rfl⟩)

/-- The turn of a verb that loads the record in hand again. -/
theorem Loaded.turns {id : String} {m : Eng σ Outcome} (h : Loaded E id m) (hs : Durable w)
    (hid : id = w.hand.id) : Turns E .resting m Over w := by
  obtain ⟨k, rfl, hk⟩ := h
  refine Traces.bind (R := fun _ φ' w' => φ' = .resting ∧ Durable w') ?_ ?_
  · refine Traces.bind (turns_readInstance E id rfl) ?_
    rintro x _ w₁ ⟨rfl, h₁, rfl⟩
    have hs₁ : Durable w₁ := h₁.quiet.durable hs
    have hid₁ : id = w₁.hand.id := by rw [hid, h₁.hand]
    obtain ⟨r, hr, hc⟩ := Option.map_eq_some_iff.mp hs₁
    rw [hid₁, hr]
    have hrid : r.id = w₁.hand.id := Store.id_of_read hr
    refine Traces.eval rfl (.reload (hrid ▸ hr) hc) ⟨rfl, ?_⟩
    show (w₁.instances.read r.id).map InstanceRecord.kern = some r.kern
    rw [hrid, hr]
    rfl
  · rintro _ _ w₁ ⟨rfl, h₁⟩
    exact hk w₁ h₁

/-! ## The reap pass -/

theorem turns_closeLapsed : Turns E .resting (closeLapsed E) Over w := by
  refine Traces.bind (turns_startClosing E rfl rfl) fun _ φ₁ w₁ h₁ => ?_
  subst h₁
  exact Turns.setHand E (fun _ => rfl) fun _ _ _ => Turns.quietly E (keeps_log E _) fun _ _ _ =>
    Turns.releaseBind E fun _ => Turns.quietEnd E (keeps_persist E) fun _ _ _ => rfl

theorem turns_lapsePending (now : Instant) : Turns E .resting (lapsePending E now) Over w := by
  refine Turns.hand E <| Traces.when (fun _ => ?_) fun _ => rfl
  refine Traces.bind (turns_restStep E rfl nofun) fun _ φ₁ w₁ h₁ => ?_
  obtain rfl := h₁.rests rfl
  exact Turns.quietly E (keeps_log E _) fun _ _ _ => turns_closeLapsed E

theorem turns_gateOpened :
    Turns E φ (gateOpened E) (fun _ φ' w' => φ' = φ ∧ Remarked w w') w := by
  refine Turns.hand E ?_
  split
  · exact Traces.mono (turns_gateSatisfied E _ _ trivial) fun _ _ _ h => ⟨h.1, _, h.2.1⟩
  · exact Traces.pure ⟨rfl, Remarked.refl w⟩

theorem turns_reapPending (now : Instant) (hs : w.hand.state = .pending) :
    Turns E .resting (reapPending E now) Over w := by
  refine Traces.bind (turns_gateOpened E) fun opened φ₁ w₁ h₁ => ?_
  obtain ⟨rfl, acts, h₁⟩ := h₁
  have hs₁ : w₁.hand.state = .pending := h₁.state.trans hs
  split
  · exact turns_approveAndWalk E (by rw [hs₁]; exact nofun)
  · exact turns_lapsePending E now

theorem keeps_renotify : Keeps Quiet (¬Accepts E) (¬Accepts E) (renotify E) :=
  Keeps.bind keeps_hand fun _ => Keeps.when (Keeps.bind (keeps_ask E _) fun _ => Keeps.pure _)

theorem transition_boundLapses {ctx : Ctx} {s s' : State}
    (h : transition ctx s .boundLapses = .to s') : s' = .held ∨ s' = .reverting := by
  cases edge_of_transition h with
  | lapseHold => exact .inl rfl
  | lapse => exact .inr rfl

theorem transition_boundLapses_stay {ctx : Ctx} {s : State} :
    transition ctx s .boundLapses ≠ .stay :=
  fun h => nomatch observed_of_transition h

theorem turns_lapseWait (x : Wait) : Turns E .resting (lapseWait E x) Over w := by
  refine Turns.quietly E (keeps_log E _) fun _ w₁ _ =>
    Traces.bind (turns_restStep E rfl nofun) fun _ φ₂ w₂ h₂ => ?_
  rcases h₂ with ⟨s, ht, rfl, hw₂⟩ | ⟨ht, -, -⟩
  · refine Turns.amend E (fun _ => rfl) .unwait (Turns.hand E ?_)
    have hs₃ : w₂.hand.state = s := by rw [hw₂]
    rcases transition_boundLapses ht with rfl | rfl
    · rw [if_pos hs₃]
      exact Turns.setHand E (fun _ => rfl) fun _ _ _ => Turns.quietly E (keeps_log E _)
        fun _ _ _ => Turns.quietEnd E (keeps_persist E) fun _ _ _ => rfl
    · rw [if_neg (by rw [hs₃]; exact nofun)]
      exact Turns.setHand E (fun _ => rfl) fun _ _ _ => turns_revert E
  · exact absurd ht transition_boundLapses_stay

theorem turns_recheckGuard (x : Wait) (g : String) (hs : w.hand.state = .waiting)
    (hx : w.hand.waiting.bind Wait.guard = some g) :
    Turns E .resting (recheckGuard E x g) Over w := by
  refine Traces.bind (turns_ownerHost E (.inl rfl)) ?_
  rintro owner _ _ ⟨rfl, rfl⟩
  refine Turns.quietly E (Keeps.attempt (keeps_observeTri E owner g)) fun tri w₁ h₁ => ?_
  have hx₁ : w₁.hand.waiting.bind Wait.guard = some g := by
    rw [show w₁.hand.waiting = _ from congrArg Docket.waiting h₁.docket]
    exact hx
  have hs₁ : w₁.hand.state = .waiting := h₁.state.trans hs
  split
  · exact turns_walkOn E _ _ hs₁ ⟨hx₁, nofun⟩
  · refine Traces.bind (turns_endWait E _ hs₁ ⟨hx₁, nofun⟩) fun _ φ₂ w₂ h₂ => ?_
    obtain ⟨rfl, hs₂⟩ := h₂
    exact Traces.bind (turns_refuse E _ _ rfl hs₂) fun _ _ _ h => Traces.pure h.2
  · exact Traces.pure rfl

theorem turns_reapWaiting (now : Instant) (hs : w.hand.state = .waiting) :
    Turns E .resting (reapWaiting E now) Over w := by
  refine Turns.hand E ?_
  dsimp only
  split
  · exact turns_lapseWait E _
  · split
    next g hg =>
      refine turns_recheckGuard E _ g hs ?_
      rcases hw : w.hand.waiting with _ | x
      · rw [hw] at hg
        cases hg
      · rw [hw] at hg
        exact hg
    · exact Traces.pure rfl

theorem turns_reapDeferred (hs : Durable w) : Turns E .resting (reapDeferred E) Over w := by
  refine Turns.hand E ?_
  split
  · exact Traces.pure rfl
  · refine Traces.bind (turns_ownerHost E (.inl rfl)) ?_
    rintro owner _ _ ⟨rfl, rfl⟩
    refine Turns.quietly E (Keeps.attempt (keeps_observeTri E owner _)) fun tri w₁ h₁ => ?_
    split
    · exact Traces.bind (Loaded.turns E (loaded_handoffDone E _ _ _) (h₁.durable hs) h₁.id.symm)
        fun _ _ _ h => Traces.pure h
    · exact Traces.pure rfl

theorem turns_reapState (now : Instant) (hs : Durable w) :
    Turns E .resting (reapState E now) Over w := by
  refine Turns.hand E ?_
  split
  next hst => exact turns_reapWaiting E now hst
  · refine Traces.bind (turns_startRevert E rfl rfl) fun _ φ₁ w₁ h₁ => ?_
    subst h₁
    exact turns_revert E
  · exact turns_reapDeferred E hs
  · exact Traces.pure rfl

theorem turns_wane (ht : transition w.hand.ctx w.hand.state .waneElapses = .to .expired) :
    Turns E .resting (wane E) Over w := by
  refine Traces.bind (turns_restStep E rfl nofun) fun _ φ₁ w₁ h₁ => ?_
  rcases h₁ with ⟨s, hs, rfl, -⟩ | ⟨hs, -, -⟩
  · rw [ht] at hs
    cases hs
    exact Turns.quietly E (keeps_log E _) fun _ _ _ => Turns.setHand E (fun _ => rfl)
      fun _ _ _ => turns_revert E
  · rw [ht] at hs
    cases hs

theorem turns_reapBounded (now : Instant) (hs : Durable w) :
    Turns E .resting (reapBounded E now) Over w := by
  refine Turns.hand E ?_
  dsimp only
  split
  next h =>
    rw [Bool.and_eq_true, decide_eq_true_eq] at h
    exact turns_wane E h.2
  · refine Traces.bind (R := fun _ φ' w' => φ' = .resting ∧ w' = w) ?_ ?_
    · refine Traces.when (fun hw => ?_) fun _ => ⟨rfl, rfl⟩
      rw [Bool.and_eq_true, decide_eq_true_eq] at hw
      refine Traces.mono (turns_restStep E rfl nofun) ?_
      rintro _ φ₁ w₁ (⟨s, ht, -, -⟩ | ⟨-, rfl, rfl⟩)
      · rw [hw.2] at ht
        cases ht
      · exact ⟨rfl, rfl⟩
    · rintro _ _ _ ⟨rfl, rfl⟩
      split
      next h =>
        rw [Bool.or_eq_true, decide_eq_true_eq, decide_eq_true_eq] at h
        exact Traces.after (.reenter h hs.synced) (turns_revert E)
      · exact turns_reapState E now hs

/-- One instance of the reap pass is a turn. -/
theorem turns_reapInstance (now : Instant) (hs : Durable w) :
    Turns E .resting (reapInstance E now) Over w := by
  refine Turns.hand E ?_
  split
  · exact Traces.mono (turns_backstopFiredAfterAbandon E) fun _ _ _ h => h.phase
  · split
    next h => exact turns_reapPending E now (by simpa using h)
    · split
      · exact turns_closeLapsed E
      · refine Traces.bind (turns_backstopReadFired E hs) fun _ φ₁ w₁ h₁ => ?_
        obtain ⟨rfl, hs₁⟩ := h₁
        refine Turns.quietly E (keeps_renotify E) fun _ w₂ h₂ => ?_
        exact Traces.readBind <| Traces.when (fun _ => turns_reapBounded E now (h₂.durable hs₁))
          fun _ => rfl

/-! ## The heartbeat -/

/-- One instance of the heartbeat is a turn. -/
theorem turns_heartbeatInstance (now : Instant) :
    Turns E .resting (heartbeatInstance E now) Over w := by
  refine Turns.hand E ?_
  split
  · exact Traces.pure rfl
  · split
    · exact Traces.pure rfl
    · refine Turns.hosts E ?_
      split
      · exact Traces.pure rfl
      · split
        · exact Traces.pure rfl
        · refine Turns.quietly E (keeps_ask E _) fun x w₁ h₁ => ?_
          split
          · exact Traces.pure rfl
          · exact Turns.amend E (fun _ => rfl) (.ease ⟨fun _ => rfl, fun _ => id, fun _ => id⟩)
              (Turns.quietEnd E (keeps_persist E) fun _ _ _ => rfl)

/-! ## Boot -/

theorem keeps_neverTook (a : AppliedStep) (pre : Watched) :
    Keeps Quiet (¬Accepts E) (¬Accepts E) (neverTook E a pre) := by
  refine Keeps.bind keeps_hand fun r => Keeps.bind keeps_hostsNow fun hosts => ?_
  split
  · exact Keeps.pure _
  · exact Keeps.ite (Keeps.pure _) (keeps_untouched E _ _)

/-- An attempt left by a process that died is done with: a refusal is due. -/
def Recovered (φ : Phase) (w : World σ) : Prop :=
  φ.feeds .refuse = true ∧ w.hand.state = .applying

theorem turns_recoverAttempt (hs : w.hand.state = .applying) :
    Turns E .resting (recoverAttempt E) (fun _ => Recovered) w := by
  refine Turns.hand E ?_
  split
  · exact Traces.pure ⟨rfl, hs⟩
  next a hat =>
    refine Turns.remark E rfl rfl ⟨rfl, hat⟩ (Turns.amend E (fun _ => rfl) .clear ?_)
    split
    · exact Traces.pure ⟨rfl, hs⟩
    · refine Turns.quietly E (keeps_neverTook E _ _) fun took w₂ h₂ => ?_
      have hs₂ : w₂.hand.state = .applying := h₂.state.trans hs
      split
      · refine Turns.quietly E (keeps_log E _) fun _ w₃ h₃ => ?_
        exact Traces.eval rfl (.remark _ rfl (h₃.id.trans h₂.id).symm trivial)
          ⟨rfl, h₃.state.trans hs₂⟩
      · refine Traces.mono (turns_rerecord E (.inr ⟨rfl, hs₂, w.acts, ?_⟩)) fun _ _ _ h => ?_
        · rw [h₂.acts, h₂.id]
          rfl
        · obtain ⟨rfl, h⟩ := h
          exact ⟨rfl, h.trans hs₂⟩

theorem turns_bootApplying (hs : w.hand.state = .applying) :
    Turns E .resting (bootApplying E) Over w := by
  refine Traces.bind (turns_recoverAttempt E hs) fun _ φ₁ w₁ h₁ => ?_
  obtain ⟨hf, hs₁⟩ := h₁
  refine Turns.setHand E (fun _ => rfl) fun w₂ h₂ _ => ?_
  have hs₂ : w₂.hand.state = .applying := by rw [h₂.state, hs₁]
  refine Traces.bind (turns_step E (fun _ _ => hf)
    (fun h _ => absurd (hs₂ ▸ transition_refuse) (h _)) nofun) fun _ φ₃ w₃ h₃ => Turns.hand E ?_
  rcases h₃ with ⟨s, ht, rfl, hw₃⟩ | ⟨ht, -, -⟩
  · rw [hs₂, transition_refuse] at ht
    have hs₃ : w₃.hand.state = s := by rw [hw₃]
    split
    next hh =>
      rw [hs₃] at hh
      subst hh
      exact Turns.setHand E (fun _ => rfl) fun _ _ _ => Turns.quietly E (keeps_log E _)
        fun _ _ _ => Turns.quietEnd E (keeps_persist E) fun _ _ _ => rfl
    next hh =>
      rw [hs₃] at hh
      cases hc : w₂.hand.ctx.earlierHold with
      | true =>
          rw [hc] at ht
          cases ht
          exact absurd rfl hh
      | false =>
          rw [hc] at ht
          cases ht
          exact turns_revert E
  · rw [hs₂, transition_refuse] at ht
    cases ht

theorem keeps_runBody (a : AppliedStep) (op : Op) (body : Body) :
    Keeps Quiet True (¬Accepts E) (runBody E a op body) := by
  refine Keeps.bind keeps_hand fun r => Keeps.bind keeps_hostsNow fun hosts =>
    Keeps.bind (Keeps.ofExcept _) fun host => Keeps.bind (Keeps.ofExcept _) fun body => ?_
  split
  · exact Keeps.fail _
  · exact Keeps.bind (keeps_ask E _) fun _ => Keeps.bind (keeps_orElse _ _) fun _ => Keeps.pure ()

theorem keeps_reestablished (a : AppliedStep) (op : Op) :
    Keeps Quiet (¬Accepts E) (¬Accepts E) (reestablished E a op) := by
  unfold reestablished
  split
  · exact Keeps.pure _
  · refine Keeps.bind (Keeps.attempt (keeps_runBody E a op _)) fun x => ?_
    split
    · exact Keeps.pure _
    · exact Keeps.pure _

theorem turns_bootHeld (a : AppliedStep) :
    Turns E .resting (bootHeld E a) (fun _ φ' _ => φ' = .resting) w := by
  refine Turns.hand E ?_
  split
  · exact Traces.pure rfl
  · split
    · exact Traces.pure rfl
    · refine Turns.quietly E (keeps_reestablished E a _) fun again w₁ _ => ?_
      split
      · refine Traces.bind (R := fun _ φ' _ => φ' = .resting) (Traces.when (fun _ =>
          Traces.mono (turns_restStep E rfl nofun) fun _ _ _ h => h.rests rfl) fun _ => rfl) ?_
        rintro _ _ w₂ rfl
        exact Turns.quietEnd E (keeps_log E _) fun _ _ _ => rfl
      · refine Traces.when (fun _ => ?_) fun _ => rfl
        refine Traces.bind (turns_restStep E rfl nofun) fun _ φ₂ w₂ h₂ => ?_
        obtain rfl := h₂.rests rfl
        exact Turns.quietEnd E (keeps_log E _) fun _ _ _ => rfl

theorem keeps_reobserve (a : AppliedStep) :
    Keeps Quiet (¬Accepts E) (¬Accepts E) (reobserve E a) := by
  refine Keeps.bind keeps_hand fun r => ?_
  split
  · exact Keeps.pure ()
  · refine Keeps.bind keeps_hostsNow fun hosts => ?_
    split
    · exact Keeps.pure ()
    · split
      · exact Keeps.pure ()
      · exact Keeps.loop _ (fun _ _ => Keeps.bind (keeps_ask E _) fun _ => Keeps.pure ()) ()

/-- One instance of boot is a turn. -/
theorem turns_bootInstance : Turns E .resting (bootInstance E) Over w := by
  refine Turns.hand E ?_
  split
  next hs => exact turns_bootApplying E hs
  · split
    · exact Traces.pure rfl
    · refine Turns.quietly E (keeps_removeStaged E _ _) fun _ w₁ _ => ?_
      refine Traces.bind (Traces.loop (I := fun φ _ => φ = .resting) _ ?_ () rfl) ?_
      · rintro a - _ _ w₂ rfl
        exact turns_bootHeld E a
      · rintro _ _ w₂ rfl
        exact Turns.quietEnd E (Keeps.loop _ (fun a _ => keeps_reobserve E a) ()) fun _ _ _ => rfl

/-! ## Apply -/

theorem transition_check (ctx : Ctx) : transition ctx .unchecked .check = .to .checked := by
  obtain ⟨intent, mode, hold, lapse⟩ := ctx
  cases intent <;> rfl

theorem transition_request (ctx : Ctx) : transition ctx .checked .request = .to .pending := by
  obtain ⟨intent, mode, hold, lapse⟩ := ctx
  cases intent <;> rfl

/-- The first durable write of a fresh record, and its entry. -/
theorem turns_begin {k : Unit → Eng σ α} {Q : α → Phase → World σ → Prop} (hb : w.hand.Blank)
    (hu : Unblocked w)
    (hk : ∀ w', w'.hand.state = .checked → Turns E .requesting (k ()) Q w') :
    Turns E .beginning (step E .check >>= fun _ => note (.fresh w.hand.id) >>= fun _ =>
      note (.upFront w.hand.id w.hand.acks) >>= k) Q w := by
  refine Pending.start (Pending.stepBind E rfl rfl (by rw [hb.state, transition_check]) rfl
    (turned_eq_nil (s := .checked) (by rw [hb.state]; exact nofun) (by rw [hb.state]; exact nofun) nofun)
    fun w₁ h₁ => Pending.editBind (Pending.editBind ?_))
  refine Pending.land (.check hb hu ⟨h₁.hand, h₁.docket, h₁.others, h₁.own, ?_⟩)
    (hk _ (congrArg Core.state h₁.hand))
  show w₁.frame.telling (.upFront w.hand.id w.hand.acks :: .fresh w.hand.id :: w₁.acts) = _
  rw [h₁.frame, acts_of_frame h₁.frame]
  rfl

theorem turns_reserve : Turns E .requesting (reserve E)
    (fun _ φ' w' => φ' = .reserved ∧ w'.hand.state = w.hand.state) w := by
  refine Turns.hand E <| Traces.readBind ?_
  split
  · exact Traces.fail (drops_settled E rfl)
  next l h =>
    refine Traces.editBind (.reserve h) ?_
    exact Turns.quietly E (keeps_writeOk E _) fun _ w' hq =>
      Traces.eval rfl .reserved ⟨rfl, hq.state⟩

theorem turns_freeze : Turns E .reserved (freeze E)
    (fun _ φ' w' => φ' = .reserved ∧ w'.hand.state = w.hand.state ∧ Frozen w'.hand) w := by
  refine Turns.hand E (Traces.when (fun _ => ?_) fun hr => ⟨rfl, rfl, .inl (by simpa using hr)⟩)
  refine Turns.quietly E (keeps_hostContract E) fun c w₁ h₁ => ?_
  have head : Act.froze w.hand.id c :: w₁.acts = .froze w₁.hand.id c :: w₁.acts := by rw [h₁.id]
  exact Turns.remark E rfl h₁.id.symm rfl
    (Traces.eval rfl (.amend rfl (.freeze head rfl)) ⟨rfl, h₁.state, .inr rfl⟩)

theorem turns_request (now : Instant) (hs : w.hand.state = .checked) :
    Turns E .requesting (request E now)
      (fun _ φ' w' => φ' = .resting ∧ w'.hand.state = .pending) w := by
  refine Traces.bind (turns_reserve E) fun _ φ₁ w₁ h₁ => ?_
  obtain ⟨rfl, hs₁⟩ := h₁
  refine Turns.amend E (fun _ => rfl) (.request rfl) (Traces.bind (turns_freeze E)
    fun _ φ₃ w₃ h₃ => ?_)
  obtain ⟨rfl, hs₃, hf⟩ := h₃
  have hs₃ : w₃.hand.state = .checked := hs₃.trans (hs₁.trans hs)
  refine Pending.start (Pending.stepBind E rfl rfl (by rw [hs₃, transition_request]) rfl
    (turned_eq_nil (s := .pending) (by rw [hs₃]; exact nofun) (by rw [hs₃]; exact nofun) nofun)
    fun w₄ h₄ => Pending.land (.request hf h₄) (Traces.editBind .closeGap ?_))
  exact Turns.quietEnd E (keeps_log E _) fun _ _ hq =>
    ⟨rfl, hq.state.trans (congrArg Core.state h₄.hand)⟩

theorem turns_holdPending (now : Instant) :
    Turns E φ (holdPending E now) (fun _ φ' w' => φ' = φ ∧ Remarked w w') w := by
  refine Turns.hand E ?_
  split
  · refine Traces.bind (turns_gateSatisfied E _ _ trivial) fun opens φ₁ w₁ h₁ => ?_
    obtain ⟨rfl, h₁, -⟩ := h₁
    split
    · exact Traces.pure ⟨rfl, _, h₁⟩
    · exact Turns.setHand E (fun _ => rfl) fun w₂ h₂ _ => Turns.quietly E (keeps_persist E)
        fun _ _ h₃ => Traces.pure ⟨rfl, _, (h₁.trans h₂).trans h₃⟩
  · exact Traces.pure ⟨rfl, Remarked.refl w⟩

/-- What `apply` does with the record it has taken up. -/
theorem turns_applyFresh (now : Instant) (hs : w.hand.state = .checked) :
    Turns E .requesting (do
      request E now
      let pending ← holdPending E now
      Prog.when (!pending) (approveAndWalk E)
      report : Eng σ Outcome) Over w := by
  refine Traces.bind (turns_request E now hs) fun _ φ₁ w₁ h₁ => ?_
  obtain ⟨rfl, hs₁⟩ := h₁
  refine Traces.bind (turns_holdPending E now) fun pending φ₂ w₂ h₂ => ?_
  obtain ⟨rfl, acts, h₂⟩ := h₂
  have hs₂ : w₂.hand.state = .pending := h₂.state.trans hs₁
  exact turns_report E (Traces.when (fun _ => turns_approveAndWalk E (by rw [hs₂]; exact nofun))
    fun _ => rfl)

end

end Rescind
