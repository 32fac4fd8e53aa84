/-
# `Rescind.Turn.Rules` — how a turn is followed through the code

The rules by which an engine operation is shown to be a turn: reading the
record in hand, quiet operations, a change of the record written at once, and
one event of the state machine.
-/
import Rescind.Turn.Quiet

namespace Rescind

open Lib Lib.Prog

variable {σ α β : Type} (E : Setting σ)

/-! ## What quiet keeps -/

section
variable {w w' : World σ}

theorem Calm.state (h : Calm w w') : w'.hand.state = w.hand.state := congrArg Core.state h.hand

theorem Calm.applied (h : Calm w w') : w'.hand.applied = w.hand.applied :=
  congrArg Core.applied h.hand

theorem Calm.ir (h : Calm w w') : w'.hand.ir = w.hand.ir := congrArg Core.ir h.hand

theorem Calm.rehearsal (h : Calm w w') : w'.hand.rehearsal = w.hand.rehearsal :=
  congrArg Core.rehearsal h.hand

theorem Calm.choices (h : Calm w w') : w'.hand.choices = w.hand.choices :=
  congrArg Core.choices h.hand

theorem Calm.acts (h : Calm w w') : w'.acts = w.acts := congrArg Frame.acts h.frame

theorem Calm.opAt (h : Calm w w') (n : Nat) : w'.hand.opAt n = w.hand.opAt n := by
  simp only [InstanceRecord.opAt, InstanceRecord.plan, h.ir]

theorem Calm.ownCore (h : Calm w w') :
    w'.ownCore = w.ownCore ∨ w'.ownCore = some w.hand.core := by
  unfold World.ownCore
  rw [h.id]
  exact h.own.imp_left (congrArg _)

theorem Puts.durable {c : Core} {f : Frame} (h : Puts c f w w') (hc : c.id = w.hand.id) :
    Durable w' := by
  have hid : w'.hand.id = w.hand.id := (congrArg Core.id h.hand).trans hc
  unfold Durable
  rw [hid, h.own, InstanceRecord.kern, h.hand, h.docket]

theorem Puts.synced {c : Core} {f : Frame} (h : Puts c f w w') (hc : c.id = w.hand.id) : Synced w' :=
  (h.durable hc).synced

theorem Puts.ownCore {c : Core} {f : Frame} (h : Puts c f w w') (hc : c.id = w.hand.id) :
    w'.ownCore = some c := by
  rw [← h.hand]
  exact h.synced hc

end

/-! ## Failures -/

section
variable {φ : Phase} {w w' : World σ}

theorem drops_refused (h : ¬Accepts E) : Drops E φ w w := ⟨fun _ => rfl, rfl, .inr (.inr h)⟩

theorem drops_settled (h : φ.settled = true) : Drops E φ w w := ⟨fun _ => rfl, rfl, .inl h⟩

theorem drops_stranded (h : Stranded w.hand.id w.acts) : Drops E φ w w :=
  ⟨fun _ => rfl, rfl, .inr (.inl h)⟩

end

/-! ## Rules -/

section
variable {φ : Phase} {w : World σ} {Q : α → Phase → World σ → Prop}

theorem Turns.hand {f : InstanceRecord → Eng σ α} (h : Turns E φ (f w.hand) Q w) :
    Turns E φ (hand >>= f) Q w := h

theorem Turns.hosts {f : Assoc String Host → Eng σ α} (h : Turns E φ (f w.hosts) Q w) :
    Turns E φ (hostsNow >>= f) Q w := h

theorem turns_quiet {m : Eng σ α} (h : Keeps Quiet (¬Accepts E) (¬Accepts E) m) :
    Turns E φ m (fun _ φ' w' => φ' = φ ∧ Quiet w w') w :=
  Traces.ofKeeps h (fun _ _ => Move.quiet) (fun hF _ _ => drops_refused E hF)
    fun hF _ => drops_refused E hF

/-- A quiet operation, then the rest. -/
theorem Turns.quietly {m : Eng σ β} {f : β → Eng σ α}
    (h : Keeps Quiet (¬Accepts E) (¬Accepts E) m)
    (hf : ∀ b w', Quiet w w' → Turns E φ (f b) Q w') : Turns E φ (m >>= f) Q w := by
  refine Traces.bind (turns_quiet E h) fun b φ' w' hq => ?_
  obtain ⟨rfl, hq⟩ := hq
  exact hf b w' hq

/-- A quiet operation whose values are known to satisfy something. -/
theorem Turns.quietYields {m : Eng σ β} {f : β → Eng σ α} {P : β → Prop}
    (h : Keeps Quiet (¬Accepts E) (¬Accepts E) m) (hy : Yields P m)
    (hf : ∀ b w', Quiet w w' → P b → Turns E φ (f b) Q w') : Turns E φ (m >>= f) Q w := by
  refine Traces.bind (Traces.yields (turns_quiet E h) hy) fun b φ' w' hq => ?_
  obtain ⟨⟨rfl, hq⟩, hP⟩ := hq
  exact hf b w' hq hP

/-- A quiet operation at the end. -/
theorem Turns.quietEnd {m : Eng σ α} (h : Keeps Quiet (¬Accepts E) (¬Accepts E) m)
    (hQ : ∀ a w', Quiet w w' → Q a φ w') : Turns E φ m Q w := by
  refine Traces.mono (turns_quiet E h) fun a φ' w' hq => ?_
  obtain ⟨rfl, hq⟩ := hq
  exact hQ a w' hq

/-- A change of parts of the record in hand that are neither of its core nor of
its docket. -/
theorem Turns.setHand {f : InstanceRecord → InstanceRecord} {k : Unit → Eng σ α}
    (h : ∀ r, (f r).kern = r.kern)
    (hk : ∀ w', Quiet w w' → w'.hand = f w.hand → Turns E φ (k ()) Q w') :
    Turns E φ (setHand f >>= k) Q w :=
  Traces.editBind (.quiet (quiet_hand (h w.hand))) (hk _ (quiet_hand (h w.hand)) rfl)

/-- A change of the docket. -/
theorem Turns.amend {f : InstanceRecord → InstanceRecord} {k : Unit → Eng σ α}
    (h : ∀ r, (f r).core = r.core) (ha : Amends E φ w (f w.hand).docket)
    (hk : Turns E φ (k ()) Q { w with hand := f w.hand }) :
    Turns E φ (Rescind.setHand f >>= k) Q w :=
  Traces.editBind (.amend (h w.hand) ha) hk

/-- A change of the docket, or none. -/
theorem Turns.amendOr {f : InstanceRecord → InstanceRecord} {k : Unit → Eng σ α}
    (h : f w.hand = w.hand ∨ (f w.hand).core = w.hand.core ∧ Amends E φ w (f w.hand).docket)
    (hk : Turns E φ (k ()) Q { w with hand := f w.hand }) :
    Turns E φ (Rescind.setHand f >>= k) Q w := by
  rcases h with h | ⟨hc, ha⟩
  · exact Traces.editBind (.quiet (quiet_hand (by rw [h]))) hk
  · exact Traces.editBind (.amend hc ha) hk

/-- A note that says nothing of whether an application stands. -/
theorem Turns.remark {a : Act} {k : Unit → Eng σ α} (h : a.idle = true) (hi : a.inst = w.hand.id)
    (hp : Permits E φ w a) (hk : Turns E φ (k ()) Q (w.noted a)) :
    Turns E φ (note a >>= k) Q w :=
  Traces.editBind (.remark a h hi hp) hk

end

/-! ## Writing the record -/

section
variable {φ : Phase} {w : World σ} {Q : α → Phase → World σ → Prop}

/-- The record in hand was written, and nothing else happened. -/
structure Written (w w' : World σ) : Prop where
  hand : w'.hand = w.hand
  instances : w'.instances = w.instances.write w.hand
  frame : w'.frame = w.frame

/-- A write goes through, or is refused with nothing changed. -/
theorem persist_cases (w : World σ) :
    (∃ w', persist E w = (.ok (), w') ∧ Written w w') ∨
      (∃ r w', persist E w = (r, w') ∧ (∀ u, r ≠ .ok u) ∧ Still w w' ∧ ¬Accepts E) := by
  have hk := keeps_writeOk E (R := Still) (.instance_ w.hand.id) w
  have hp : persist E w = (writeOk E (.instance_ w.hand.id) >>= fun _ =>
      Prog.edit fun w => { w with instances := w.instances.write w.hand }) w := rfl
  rw [hp, bind_eq]
  match hw : writeOk E (.instance_ w.hand.id) w with
  | (.ok u, w₁) =>
      rw [hw] at hk
      refine .inl ⟨_, rfl, hk.1.hand, ?_, hk.1.frame⟩
      show w₁.instances.write w₁.hand = _
      rw [hk.1.instances, hk.1.hand]
  | (.err e, w₁) => rw [hw] at hk; exact .inr ⟨_, _, rfl, fun _ => nofun, hk.1, hk.2⟩
  | (.died, w₁) => rw [hw] at hk; exact .inr ⟨_, _, rfl, fun _ => nofun, hk.1, hk.2⟩

theorem Written.quiet {w' : World σ} (h : Written w w') : Quiet w w' := by
  refine .of (by rw [h.hand]) (fun j hj => ?_) (.inr ?_) h.frame
  · rw [h.instances]
    exact Store.read_write_ne _ _ hj
  · rw [h.instances, Store.read_write_self, Option.map_some]

theorem Written.durable {w' : World σ} (h : Written w w') : Durable w' := by
  unfold Durable
  rw [h.hand, h.instances, Store.read_write_self, Option.map_some]

/-- From where the machine is, the record in hand differs and is written. -/
theorem Pending.persistBind {p : Phase × World σ} {k : Unit → Eng σ α}
    (hr : w.instances = p.2.instances) (hf : w.frame = p.2.frame)
    (hk : ∀ w', Written w w' → Pending (Move E) (fun _ => Drops E) p (k ()) Q w') :
    Pending (Move E) (fun _ => Drops E) p (persist E >>= k) Q w := by
  unfold Pending
  rw [bind_eq]
  rcases persist_cases E w with ⟨w', h, hw⟩ | ⟨r, w', h, hne, hs, ha⟩
  · rw [h]
    exact hk w' hw
  · rw [h]
    have hd : Drops E p.1 p.2 w' :=
      ⟨fun j => by rw [hs.instances, hr], by rw [hs.frame, hf], .inr (.inr ha)⟩
    match r with
    | .ok u => exact absurd rfl (hne u)
    | .err e => exact ⟨p.1, p.2, .refl, hd⟩
    | .died => exact ⟨p.1, p.2, .refl, hd⟩

/-- The record in hand is written as it is. -/
theorem turns_persist : Turns E φ (persist E) (fun _ φ' w' => φ' = φ ∧ Quiet w w' ∧ Durable w') w := by
  unfold Turns Traces
  rcases persist_cases E w with ⟨w', h, hw⟩ | ⟨r, w', h, hne, hs, ha⟩
  · rw [h]
    exact ⟨φ, .single (.quiet hw.quiet), rfl, hw.quiet, hw.durable⟩
  · rw [h]
    have hd : Drops E φ w w' := ⟨fun j => by rw [hs.instances], hs.frame, .inr (.inr ha)⟩
    match r with
    | .ok u => exact absurd rfl (hne u)
    | .err e => exact ⟨φ, w, .refl, hd⟩
    | .died => exact ⟨φ, w, .refl, hd⟩

/-- It is written, then the rest. -/
theorem Turns.persisted {k : Unit → Eng σ α}
    (hk : ∀ w', Quiet w w' → Durable w' → Turns E φ (k ()) Q w') :
    Turns E φ (persist E >>= k) Q w := by
  refine Traces.bind (turns_persist E) fun _ φ' w' h => ?_
  obtain ⟨rfl, hq, hd⟩ := h
  exact hk w' hq hd

/-- The record in hand changed to `r` and was written. -/
theorem Written.puts {r : InstanceRecord} {w' : World σ} (hid : r.id = w.hand.id)
    (hd : r.docket = w.hand.docket) (h : Written { w with hand := r } w') :
    Puts r.core w.frame w w' where
  hand := by rw [h.hand]
  docket := by rw [h.hand]; exact hd
  others := fun j hj => by
    rw [h.instances]
    exact Store.read_write_ne _ _ (by rw [hid]; exact hj)
  own := by
    rw [h.instances, ← hid, ← hd]
    simp [InstanceRecord.kern]
  frame := h.frame

/-- Change the record in hand and write it: one move. -/
theorem Turns.put {f : InstanceRecord → InstanceRecord} {k : Unit → Eng σ α} {φ' : Phase}
    (hid : (f w.hand).id = w.hand.id) (hd : (f w.hand).docket = w.hand.docket)
    (hM : ∀ w', Puts (f w.hand).core w.frame w w' → Move E (φ, w) (φ', w'))
    (hk : ∀ w', w'.hand = f w.hand → Turns E φ' (k ()) Q w') :
    Turns E φ (Rescind.setHand f >>= fun _ => persist E >>= k) Q w := by
  refine Pending.start (Pending.editBind (Pending.persistBind E rfl rfl fun w' hw => ?_))
  exact Pending.land (hM w' (hw.puts hid hd)) (hk w' hw.hand)

end

/-! ## One event -/

section
variable {φ : Phase} {w : World σ}

/-- The record in hand in another state. -/
abbrev World.inState (w : World σ) (s : State) : World σ :=
  { w with hand := { w.hand with state := s } }

/-- What one event ends with. -/
theorem post_step {ev : Event} {Q : Res EngineError Unit → World σ → Prop}
    (hok : ∀ s w', transition w.hand.ctx w.hand.state ev = .to s → Written (w.inState s) w' →
      Q (.ok ()) { w' with
        gap := gapAfter s w.hand w'.gap, acts := turned w.hand ev s ++ w'.acts })
    (hfail : ∀ s x w', transition w.hand.ctx w.hand.state ev = .to s → Still (w.inState s) w' →
      (∀ u, x ≠ .ok u) → ¬Accepts E → Q x w')
    (hstay : transition w.hand.ctx w.hand.state ev = .stay → Q (.ok ()) w)
    (hrefuse : ∀ e, (∀ s, transition w.hand.ctx w.hand.state ev ≠ .to s) →
      transition w.hand.ctx w.hand.state ev ≠ .stay → Q (.err e) w) : Post (step E ev) Q w := by
  unfold Post step
  rw [bind_ok (m := hand) (show hand w = (.ok w.hand, w) from rfl)]
  rcases ht : transition w.hand.ctx w.hand.state ev with s | _ | code | _
  · show Post (persist E >>= _) Q (w.inState s)
    unfold Post
    rw [bind_eq]
    rcases persist_cases E (w.inState s) with ⟨w', h, hw⟩ | ⟨x, w', h, hne, hst, ha⟩
    · rw [h]
      exact hok s w' ht hw
    · rw [h]
      cases x with
      | ok u => exact absurd rfl (hne u)
      | err e => exact hfail s _ w' ht hst (fun _ => nofun) ha
      | died => exact hfail s _ w' ht hst (fun _ => nofun) ha
  · exact hstay ht
  · exact hrefuse _ (by simp [ht]) (by simp [ht])
  · exact hrefuse _ (by simp [ht]) (by simp [ht])

/-- Where an event took the record. -/
def Stepped (w : World σ) (ev : Event) (φ φ' : Phase) (w' : World σ) : Prop :=
  (∃ s, transition w.hand.ctx w.hand.state ev = .to s ∧ φ' = s.phase ∧
      w'.hand = { w.hand with state := s }) ∨
    (transition w.hand.ctx w.hand.state ev = .stay ∧ φ' = φ ∧ w' = w)

/-- The move of a record written in another state. -/
theorem Written.transit {ev : Event} {s : State} {w' : World σ} (hf : φ.feeds ev = true)
    (ht : transition w.hand.ctx w.hand.state ev = .to s)
    (hl : ev = .waitSatisfied → ∃ cause acts,
      w.acts = .woke w.hand.id w.hand.waiting cause :: acts) (hw : Written (w.inState s) w') :
    Move E (φ, w) (s.phase, { w' with
      gap := gapAfter s w.hand w'.gap, acts := turned w.hand ev s ++ w'.acts }) := by
  have hp : Puts (w.hand.core.inState s) w.frame w w' :=
    Written.puts (r := { w.hand with state := s }) rfl rfl hw
  refine .transit hf ht hl ⟨hp.hand, hp.docket, hp.others, hp.own, ?_⟩
  show (w'.frame.gapped (gapAfter s w.hand w'.gap)).telling (turned w.hand ev s ++ w'.acts) = _
  rw [hp.frame, show w'.gap = w.gap from congrArg Frame.gap hp.frame,
    show w'.acts = w.acts from congrArg Frame.acts hp.frame]

/-- An event is a move where its phase feeds it; one the machine does not take
must leave a settled or a stranded instance. -/
theorem turns_step {ev : Event}
    (hf : ∀ s, transition w.hand.ctx w.hand.state ev = .to s → φ.feeds ev = true)
    (hx : (∀ s, transition w.hand.ctx w.hand.state ev ≠ .to s) →
      transition w.hand.ctx w.hand.state ev ≠ .stay →
      φ.settled = true ∨ Stranded w.hand.id w.acts)
    (hl : ev = .waitSatisfied → ∃ cause acts,
      w.acts = .woke w.hand.id w.hand.waiting cause :: acts) :
    Turns E φ (step E ev) (fun _ => Stepped w ev φ) w := by
  have hs : Post (step E ev) (fun x w' => x.Either
      (fun _ => ∃ φ', Moves E (φ, w) (φ', w') ∧ Stepped w ev φ φ' w') (Drops E φ w w')) w := by
    refine post_step E (fun s w' ht hw => ?_) (fun s x w' ht hst hne ha => ?_)
      (fun ht => ⟨φ, .refl, .inr ⟨ht, rfl, rfl⟩⟩) fun e h₁ h₂ => ?_
    · exact ⟨s.phase, .single (hw.transit E (hf s ht) ht hl), .inl ⟨s, ht, rfl, hw.hand⟩⟩
    · have hd : Drops E φ w w' := ⟨fun j => by rw [hst.instances], hst.frame, .inr (.inr ha)⟩
      cases x with
      | ok u => exact absurd rfl (hne u)
      | err e => exact hd
      | died => exact hd
    · rcases hx h₁ h₂ with h | h
      · exact drops_settled E h
      · exact drops_stranded E h
  unfold Post at hs
  unfold Turns Traces
  rcases hm : step E ev w with ⟨_ | _ | _, w'⟩
  · rw [hm] at hs; exact hs
  · rw [hm] at hs; exact ⟨φ, w, .refl, hs⟩
  · rw [hm] at hs; exact ⟨φ, w, .refl, hs⟩

/-- The history a first check adds to: a fresh record leaves nothing. -/
theorem turned_eq_nil {r : InstanceRecord} {ev : Event} {s : State} (hw : r.state ≠ .waiting)
    (ha : r.state ≠ .applying) (hs : s ≠ .applying) : turned r ev s = [] := by
  simp [turned, hw, ha, hs]

/-- An event the machine takes along with what follows. -/
theorem Pending.stepBind {p : Phase × World σ} {Q : α → Phase → World σ → Prop} {ev : Event}
    {s : State} {k : Unit → Eng σ α} (hr : w.instances = p.2.instances) (hf : w.frame = p.2.frame)
    (ht : transition w.hand.ctx w.hand.state ev = .to s) (hs : terminal s = false)
    (hn : turned w.hand ev s = [])
    (hk : ∀ w', Puts (w.hand.core.inState s) w.frame w w' →
      Pending (Move E) (fun _ => Drops E) p (k ()) Q w') :
    Pending (Move E) (fun _ => Drops E) p (step E ev >>= k) Q w := by
  have hpost : Post (step E ev) (fun x w' => x.Either
      (fun _ => Puts (w.hand.core.inState s) w.frame w w') (Drops E p.1 p.2 w')) w := by
    refine post_step E (fun s' w' ht' hw => ?_) (fun s' x w' ht' hst hne ha => ?_)
      (fun ht' => nomatch ht.symm.trans ht') fun e h₁ _ => absurd ht (h₁ s)
    · obtain rfl : s = s' := Verdict.to.inj (ht.symm.trans ht')
      have hg : gapAfter s w.hand w'.gap = w'.gap := by simp [gapAfter, hs]
      rw [hg, hn]
      exact Written.puts (r := { w.hand with state := s }) rfl rfl hw
    · have hd : Drops E p.1 p.2 w' :=
        ⟨fun j => by rw [hst.instances, ← hr], by rw [hst.frame, ← hf]; rfl, .inr (.inr ha)⟩
      cases x with
      | ok u => exact absurd rfl (hne u)
      | err e => exact hd
      | died => exact hd
  unfold Post at hpost
  unfold Pending
  rw [bind_eq]
  rcases hm : step E ev w with ⟨_ | _ | _, w'⟩
  · rw [hm] at hpost; exact hk w' hpost
  · rw [hm] at hpost; exact ⟨p.1, p.2, .refl, hpost⟩
  · rw [hm] at hpost; exact ⟨p.1, p.2, .refl, hpost⟩

end

end Rescind
