/-
# `Rescind.Safety.Lifecycles` — what becomes of an instance over a run

Time ends a temporary plan and never a permanent one: the check decides from the plan
which of the two it is, and the record keeps the answer.  An instance whose walk is
over stays out of it until `apply` begins its id anew, and what it has applied only
shrinks.  While it is walked, the store knows of every `do` before the executor does.

Nothing is asked of the store, the journal and the executors: it is so whichever of
their calls fail.

**Proved here.**

    every record of a run is lawful                         (`records_lawful`)
    past its walk an instance is never walked again         (`past_the_walk`)
    the store says what is in flight before it flies        (`written_ahead`)
-/
import Rescind.Safety.Handings

namespace Rescind

open Lib Lib.Prog

variable {σ : Type} {E : Setting σ}

/-! ## Lawful records -/

/-- Nothing of the plan was walked yet. -/
def State.early : State → Bool
  | .unchecked | .checked | .pending | .approvalExpired => true
  | _ => false

/-- What every record of a run says of itself: whether time bounds it is what its plan
says, and before its approval it has applied nothing and chosen no arm. -/
structure Lawful (c : Core) : Prop where
  intent : c.permanent = decide (inferIntent c.ir.plan = some .permanent)
  permanent : c.permanent = true → c.state ≠ .expired ∧ c.state ≠ .applied ∧ c.state ≠ .suspended
  temporary : c.permanent = false → c.state ≠ .committed
  early : c.state.early = true → c.applied = [] ∧ c.choices = []

/-- A phase that is not settled walks an instance that is applying, and a request is of
one that was checked. -/
structure Underway (p : Phase × World σ) : Prop where
  walking : p.1.settled = false → p.2.hand.state = .applying
  asking : p.1 = .requesting ∨ p.1 = .reserving ∨ p.1 = .reserved → p.2.hand.state = .checked

section
variable {p p' : Phase × World σ}

theorem Move.underway (hm : Move E p p') (h : Underway p) : Underway p' := by
  have walks : ∀ {φ : Phase} {w : World σ}, w.hand.state = .applying →
      ¬(φ = .requesting ∨ φ = .reserving ∨ φ = .reserved) → Underway (φ, w) :=
    fun hs hn => ⟨fun _ => hs, fun hφ => absurd hφ hn⟩
  have rests : ∀ {φ : Phase} {w : World σ}, φ.settled = true →
      ¬(φ = .requesting ∨ φ = .reserving ∨ φ = .reserved) → Underway (φ, w) :=
    fun hs hn => ⟨fun hφ => absurd (hs.symm.trans hφ) nofun, fun hφ => absurd hφ hn⟩
  cases hm with
  | quiet hq => exact ⟨fun hφ => hq.state.trans (h.walking hφ), fun hφ => hq.state.trans (h.asking hφ)⟩
  | amend hc =>
      exact ⟨fun hφ => (congrArg Core.state hc).trans (h.walking hφ),
        fun hφ => (congrArg Core.state hc).trans (h.asking hφ)⟩
  | remark => exact ⟨h.walking, h.asking⟩
  | check _ _ hp => exact ⟨nofun, fun _ => congrArg Core.state hp.hand⟩
  | reserve => exact ⟨nofun, fun _ => h.asking (.inl rfl)⟩
  | reserved => exact ⟨nofun, fun _ => h.asking (.inr (.inl rfl))⟩
  | @transit _ _ _ _ s _ _ _ hp =>
      refine ⟨fun hφ => (congrArg Core.state hp.hand).trans ?_, fun hφ => ?_⟩
      · by_contra hs
        exact absurd ((State.phase_settled_iff s).mpr hs) (by rw [hφ]; exact nofun)
      · cases s <;> simp [State.phase] at hφ
  | depart | skip | start | finish | pass | recollect | fail | forget | unmake =>
      exact walks (h.walking (by first | rfl | (rcases ‹_ ∨ _› with rfl | ⟨rfl, -⟩ <;> rfl))) (by simp)
  | mark _ _ hφ hp =>
      refine walks ((congrArg Core.state hp.hand).trans (h.walking rfl)) ?_
      rcases hφ with rfl | ⟨rfl, -⟩ <;> simp
  | handOff hp => exact walks ((congrArg Core.state hp.hand).trans (h.walking rfl)) (by simp)
  | choose _ hp => exact walks ((congrArg Core.state hp.hand).trans (h.walking rfl)) (by simp)
  | rerecord hφ hr =>
      refine walks ((congrArg Core.state hr).trans ?_) (by simp)
      rcases hφ with rfl | ⟨-, hs, -⟩
      · exact h.walking rfl
      · exact hs
  | request | closeGap | reenter | undo | pop | fired | release | released | reload =>
      exact rests rfl (by simp)

/-! ## Every move keeps records lawful -/

theorem intent_permanent {r : InstanceRecord} : r.ctx.intent = .permanent ↔ r.permanent = true := by
  show (if r.permanent then Intent.permanent else .temporary) = _ ↔ _
  cases r.permanent <;> simp

/-- Where an edge leads a lawful record is lawful: time ends only what is temporary,
and nothing leads back before the approval. -/
theorem Lawful.edge {r : InstanceRecord} {ev : Event} {s : State} (h : Lawful r.core)
    (he : Edge r.ctx r.state ev s) : Lawful (r.core.inState s) := by
  have temp : r.ctx.intent = .temporary → r.permanent = true → False := by
    intro ht hp
    rw [intent_permanent.mpr hp] at ht
    cases ht
  have perm : r.ctx.intent = .permanent → r.permanent = false → False := by
    intro hi hp
    rw [intent_permanent.mp hi] at hp
    cases hp
  have stays : s ≠ .expired → s ≠ .applied → s ≠ .suspended → s ≠ .committed →
      (s.early = true → r.state.early = true) → Lawful (r.core.inState s) :=
    fun h₁ h₂ h₃ h₄ h₅ => ⟨h.intent, fun _ => ⟨h₁, h₂, h₃⟩, fun _ => h₄, fun hs => h.early (h₅ hs)⟩
  generalize hs : r.state = st at he
  cases he with
  | allStepsDone hi | waneElapses hi =>
      exact ⟨h.intent, fun hp => (temp hi hp).elim, fun _ => nofun, nofun⟩
  | commitItem hi | commitVerb hi =>
      exact ⟨h.intent, fun _ => ⟨nofun, nofun, nofun⟩, fun hp => (perm hi hp).elim, nofun⟩
  | suspend => exact ⟨h.intent, fun hp => absurd hs (h.permanent hp).2.1, fun _ => nofun, nofun⟩
  | reestablish => exact ⟨h.intent, fun hp => absurd hs (h.permanent hp).2.2, fun _ => nofun, nofun⟩
  | check | request | approvalLapses => exact stays nofun nofun nofun nofun fun _ => by rw [hs]; rfl
  | _ => exact stays nofun nofun nofun nofun nofun

/-- A record that is walked may apply and choose what it will. -/
theorem Lawful.walked {c c' : Core} (h : Lawful c) (hs : c.state = .applying)
    (hi : c'.identity = c.identity) (hs' : c'.state = c.state) : Lawful c' := by
  have hir : c'.ir = c.ir := congrArg (fun i => i.2.1) hi
  have hpe : c'.permanent = c.permanent := congrArg (fun i => i.2.2.2.1) hi
  refine ⟨by rw [hpe, hir]; exact h.intent, fun _ => ?_, fun _ => ?_, fun he => ?_⟩
  · rw [hs', hs]
    exact ⟨nofun, nofun, nofun⟩
  · rw [hs', hs]
    nofun
  · rw [hs', hs] at he
    cases he

/-- A record may be left with less than it had applied. -/
theorem Lawful.less {c : Core} {as : List AppliedStep} (h : Lawful c)
    (hl : as.Sublist c.applied) : Lawful (c.having as) := by
  refine ⟨h.intent, h.permanent, h.temporary, fun he => ⟨?_, (h.early he).2⟩⟩
  rw [(h.early he).1] at hl
  exact List.sublist_nil.mp hl

abbrev Lawfuls : Phase × World σ → Prop :=
  Stands (fun _ => True) (fun _ r => Lawful r.core) Underway

theorem Lawfuls.hand_move (hm : Move E p p') (h : Lawfuls p) : Lawful p'.2.hand.core := by
  have hhand : Lawful p.2.hand.core := h.hand
  have huw := h.phase
  cases hm with
  | quiet hq => exact hq.hand ▸ hhand
  | amend hc => exact hc ▸ hhand
  | check hb _ hp =>
      rw [hp.hand]
      exact ⟨hhand.intent, fun _ => ⟨nofun, nofun, nofun⟩, fun _ => nofun,
        fun _ => ⟨hb.applied, hb.choices⟩⟩
  | @request w _ _ hp =>
      rw [hp.hand]
      have hedge : Edge w.hand.ctx w.hand.state .request .pending := by
        rw [huw.asking (.inr (.inr rfl))]
        exact .request
      exact hhand.edge hedge
  | transit _ ht _ hp => exact hp.hand ▸ hhand.edge (edge_of_transition ht)
  | mark _ _ _ hp | handOff hp | choose _ hp =>
      exact hp.hand ▸ hhand.walked (huw.walking rfl) rfl rfl
  | rerecord hφ hr =>
      refine hr ▸ hhand.walked ?_ rfl rfl
      rcases hφ with rfl | ⟨-, hs, -⟩
      · exact huw.walking rfl
      · exact hs
  | pop hp => exact hp.hand ▸ hhand.less (List.dropLast_sublist _)
  | fired hp => exact hp.hand ▸ hhand.less List.filter_sublist
  | reload _ hk => exact InstanceRecord.core_of_kern hk ▸ hhand
  | reserve | release => exact ⟨hhand.intent, hhand.permanent, hhand.temporary, hhand.early⟩
  | remark | reserved | closeGap | depart | skip | start | finish | pass | recollect | fail | forget
  | unmake | reenter | undo | released => exact hhand

theorem Lawfuls.own_move (hm : Move E p p') (h : Lawfuls p) {r : InstanceRecord}
    (hr : p'.2.instances.read p'.2.hand.id = some r) : Lawful r.core := by
  have hhand := h.hand_move hm
  rw [hm.id] at hr
  have put : (p'.2.instances.read p.2.hand.id).map InstanceRecord.kern = some p'.2.hand.kern →
      Lawful r.core := by
    intro hk
    rw [hr] at hk
    rw [InstanceRecord.core_of_kern (Option.some.inj hk)]
    exact hhand
  rcases hm.docketed with ⟨-, hb⟩ | hd
  · exact put hb.own
  · rcases hd.own with he | hk
    · exact h.own r (he ▸ hr)
    · exact put hk

theorem Lawfuls.move (hm : Move E p p') (h : Lawfuls p) : Lawfuls p' where
  told := trivial
  others := h.others_move hm fun h _ => h
  own _ := h.own_move hm
  hand := h.hand_move hm
  phase := hm.underway h.phase

end

theorem underway_resting (w : World σ) : Underway (.resting, w) := ⟨nofun, nofun⟩

theorem underway_beginning (w : World σ) : Underway (.beginning, w) := ⟨nofun, nofun⟩

/-- The invariant of all runs. -/
def lawfulInvariant (E : Setting σ) : Invariant E (fun _ => True) fun _ => True :=
  .ofRecords underway_resting
    (fun _ _ _ _ _ _ => ⟨⟨rfl, fun _ => ⟨nofun, nofun, nofun⟩, fun _ => nofun, fun _ => ⟨rfl, rfl⟩⟩,
      underway_beginning _⟩)
    Lawfuls.move

/-- **Every record of a run is lawful.** -/
theorem records_lawful {w : World σ} (h : Run E w) {j : String} {r : InstanceRecord}
    (hr : w.instances.read j = some r) : Lawful r.core :=
  StandsStored.records ((lawfulInvariant E).run (fun _ hw _ => standsStored_begins hw trivial) h) j r hr

/-! ## Past the walk -/

/-- Entries of a walk. -/
def Act.ofWalk : Act → Bool
  | .did _ _ _ | .completed _ _ | .handedOff _ _ | .skipped _ _ | .rerecorded _ _ _
  | .chose _ _ _ _ _ _ | .ahead _ _ | .handing _ _ _ | .setOut _ _ | .passed _ _ => true
  | _ => false

/-- Phases in which no plan is walked nor asked for. -/
def Phase.apart : Phase → Bool
  | .beginning | .undoing | .closing | .releasing | .agreed | .resting => true
  | _ => false

/-- The walk is over, or has not begun, and nothing was applied besides. -/
structure Spent (as : List AppliedStep) (r : InstanceRecord) : Prop where
  state : r.state = .unchecked ∨ r.state.walkable = false
  applied : r.applied.Sublist as

theorem Spent.core {as : List AppliedStep} {r r' : InstanceRecord} (h : Spent as r)
    (hs : r'.core.state = r.core.state) (ha : r'.core.applied.Sublist r.core.applied) : Spent as r' := by
  refine ⟨?_, ha.trans h.applied⟩
  rw [show r'.state = r.state from hs]
  exact h.state

theorem Spent.not_applying {as : List AppliedStep} {r : InstanceRecord} (h : Spent as r) :
    r.state ≠ .applying := by
  intro hs
  rcases h.state with he | he <;> rw [hs] at he <;> cases he

theorem Phase.apart_of_state {s : State} (h : s.walkable = false) : s.phase.apart = true := by
  cases s <;> first | rfl | cases h

/-- Past the walk a turn begins the record anew, or leaves it past the walk and tells
of none. -/
theorem Move.spent {p p' : Phase × World σ} {as : List AppliedStep} (hm : Move E p p')
    (hs : Spent as p.2.hand) (hφ : p.1.apart = true) : Begun p.2 p'.2 ∨
      (p'.1.apart = true ∧ Spent as p'.2.hand) ∧
        ∃ new, p'.2.acts = new ++ p.2.acts ∧ ∀ act ∈ new, act.ofWalk = false := by
  have quiet_ : ∀ {φ : Phase} {w' : World σ}, φ.apart = true → w'.hand.core.state = p.2.hand.core.state →
      w'.hand.core.applied.Sublist p.2.hand.core.applied → w'.acts = p.2.acts →
      (φ.apart = true ∧ Spent as w'.hand) ∧
        ∃ new, w'.acts = new ++ p.2.acts ∧ ∀ act ∈ new, act.ofWalk = false :=
    fun hφ hst hap hac => ⟨⟨hφ, hs.core hst hap⟩, [], hac, fun _ h => by cases h⟩
  cases hm with
  | check hb _ hp => exact .inl ⟨hb, acts_of_frame hp.frame, hp.docket, hp.kern⟩
  | quiet hq =>
      refine .inr (quiet_ hφ (congrArg Core.state hq.hand) ?_ (acts_of_frame hq.frame))
      rw [hq.hand]
  | amend hc => exact .inr (quiet_ hφ (congrArg Core.state hc) (by rw [hc]) rfl)
  | @remark φ w a hi hin hp =>
      refine .inr ⟨⟨hφ, hs⟩, [a], rfl, fun act hact => ?_⟩
      rw [List.mem_singleton.mp hact]
      cases a with
      | ahead =>
          rw [show φ = .walking from hp.1] at hφ
          cases hφ
      | handing | setOut | passed => exact hp.elim
      | did | completed | handedOff | skipped | rerecorded | chose => cases hi
      | _ => rfl
  | @transit φ w w' ev s hf ht _ hp =>
      have hev : ev ≠ .check := by
        rintro rfl
        cases φ <;> cases hf
      have hpast : w.hand.state.walkable = false :=
        hs.state.resolve_left (checked_of_transition ht hev)
      have hs' : s.walkable = false := transition_past ht hpast
      refine .inr ⟨⟨Phase.apart_of_state hs', .inr ?_, ?_⟩, _, acts_of_frame hp.frame, ?_⟩
      · rw [show w'.hand.state = s from congrArg Core.state hp.hand]
        exact hs'
      · rw [show w'.hand.applied = w.hand.applied from congrArg Core.applied hp.hand]
        exact hs.applied
      · intro act hact
        have hne : s ≠ .applying := by
          rintro rfl
          cases hs'
        simp only [turned, if_neg hne, List.append_nil, List.mem_append] at hact
        rcases hact with hact | hact <;> split at hact <;> simp at hact <;> subst hact <;> rfl
  | undo => exact .inr ⟨⟨hφ, hs⟩, [_], rfl, by simp [Act.ofWalk]⟩
  | pop hp =>
      refine .inr (quiet_ rfl (by rw [hp.hand]; rfl) ?_ (acts_of_frame hp.frame))
      rw [hp.hand]
      exact List.dropLast_sublist _
  | fired hp =>
      refine .inr ⟨⟨rfl, hs.core (by rw [hp.hand]; rfl) ?_⟩, _, acts_of_frame hp.frame, ?_⟩
      · rw [hp.hand]
        exact List.filter_sublist
      · intro act hact
        obtain ⟨b, -, rfl⟩ := List.mem_map.mp hact
        rfl
  | reload _ hk =>
      have hc := InstanceRecord.core_of_kern hk
      exact .inr (quiet_ rfl (congrArg Core.state hc) (by rw [hc]) rfl)
  | rerecord hφ' =>
      rcases hφ' with rfl | ⟨-, ha, -⟩
      · cases hφ
      · exact absurd ha hs.not_applying
  | closeGap | release | released | reenter => exact .inr (quiet_ rfl rfl (List.Sublist.refl _) rfl)
  | mark _ _ _ | depart | skip | start | finish | pass | handOff | recollect | choose | fail | forget
  | unmake | reserve | reserved | request =>
      first | cases hφ | (rcases ‹_ ∨ _› with rfl | ⟨rfl, -⟩ <;> cases hφ)

/-- Its record was begun anew since. -/
def Renewed (id : String) (before acts : List Act) : Prop :=
  ∃ new, acts = new ++ before ∧ Act.fresh id ∈ new

theorem Renewed.grow {id : String} {before acts new : List Act} (h : Renewed id before acts) :
    Renewed id before (new ++ acts) := by
  obtain ⟨since, rfl, hf⟩ := h
  exact ⟨new ++ since, (List.append_assoc _ _ _).symm, List.mem_append_right _ hf⟩

/-- What was told since: the record was begun anew, or nothing is of a walk. -/
def NotWalked (id : String) (before acts : List Act) : Prop :=
  ∃ new, acts = new ++ before ∧
    (Act.fresh id ∈ new ∨ ∀ act ∈ new, act.inst = id → act.ofWalk = false)

abbrev Spends (id : String) (as : List AppliedStep) (before : List Act) : Phase × World σ → Prop :=
  Stands (NotWalked id before) (fun acts r => r.id = id → Renewed id before acts ∨ Spent as r)
    fun p => p.2.hand.id = id → Renewed id before p.2.acts ∨ p.1.apart = true

section
variable {p p' : Phase × World σ} {id : String} {as : List AppliedStep} {before : List Act}

/-- What a move leaves of the instance in hand, if it is the one. -/
theorem Spends.kept_move (hm : Move E p p') (h : Spends id as before p) (hid : p.2.hand.id = id) :
    Renewed id before p'.2.acts ∨ (p'.1.apart = true ∧ Spent as p'.2.hand) ∧
      ∃ new, p'.2.acts = new ++ p.2.acts ∧ ∀ act ∈ new, act.ofWalk = false := by
  have grown : Renewed id before p.2.acts → Renewed id before p'.2.acts := by
    intro hr
    obtain ⟨new, hnew, -⟩ := hm.told
    rw [hnew]
    exact hr.grow
  rcases h.hand hid with hr | hs
  · exact .inl (grown hr)
  rcases h.phase hid with hr | hφ
  · exact .inl (grown hr)
  refine (hm.spent hs hφ).imp (fun hb => ?_) fun hk => hk
  obtain ⟨since, hsince, -⟩ := h.told
  refine ⟨.upFront p.2.hand.id p.2.hand.acks :: .fresh p.2.hand.id :: since, ?_, ?_⟩
  · rw [hb.acts, hsince]
    rfl
  · rw [hid]
    simp

theorem Spends.told_move (hm : Move E p p') (h : Spends id as before p) :
    NotWalked id before p'.2.acts := by
  obtain ⟨since, hsince, hn⟩ := h.told
  have told : ∀ {new : List Act}, p'.2.acts = new ++ p.2.acts →
      (∀ act ∈ new, act.inst = id → act.ofWalk = false) → NotWalked id before p'.2.acts := by
    intro new hnew hw
    refine ⟨new ++ since, by rw [hnew, hsince, List.append_assoc], hn.imp ?_ fun hn act hact => ?_⟩
    · exact List.mem_append_right _
    · exact (List.mem_append.mp hact).elim (hw act) (hn act)
  by_cases hid : p.2.hand.id = id
  · rcases h.kept_move hm hid with ⟨new, hnew, hf⟩ | ⟨-, new, hnew, hw⟩
    · exact ⟨new, hnew, .inl hf⟩
    · exact told hnew fun act hact _ => hw act hact
  · obtain ⟨new, hnew, hi⟩ := hm.told
    exact told hnew fun act hact he => absurd ((hi act hact).symm.trans he) hid

theorem Spends.own_move (hm : Move E p p') (h : Spends id as before p) {r : InstanceRecord}
    (hr : p'.2.instances.read p'.2.hand.id = some r) (hid : r.id = id) :
    Renewed id before p'.2.acts ∨ Spent as r := by
  have hrid : p.2.hand.id = id := by rw [← hid, Store.id_of_read hr, hm.id]
  rw [hm.id] at hr
  have put : (p'.2.instances.read p.2.hand.id).map InstanceRecord.kern = some p'.2.hand.kern →
      Renewed id before p'.2.acts ∨ Spent as r := by
    intro hk
    rw [hr] at hk
    have hc := InstanceRecord.core_of_kern (Option.some.inj hk)
    exact (h.kept_move hm hrid).imp_right fun hs => hs.1.2.core (by rw [hc]) (by rw [hc])
  rcases hm.docketed with ⟨-, hb⟩ | hd
  · exact put hb.own
  · rcases hd.own with he | hk
    · obtain ⟨new, hnew, -⟩ := hm.told
      rw [hnew]
      exact (h.own r (he ▸ hr) hid).imp_left Renewed.grow
    · exact put hk

theorem Spends.move (hm : Move E p p') (h : Spends id as before p) : Spends id as before p' where
  told := h.told_move hm
  others := h.others_move hm fun h _ hid => (h hid).imp_left Renewed.grow
  own _ hr hid := h.own_move hm hr hid
  hand hid := (h.kept_move hm (hm.id.symm.trans hid)).imp_right fun hs => hs.1.2
  phase hid := (h.kept_move hm (hm.id.symm.trans hid)).imp_right fun hs => hs.1.1

end

/-- The invariant of the runs from a world in which the instance is past its walk. -/
def spentInvariant (E : Setting σ) (id : String) (as : List AppliedStep) (before : List Act) :
    Invariant E (fun _ => True) fun _ => True :=
  .ofRecords (fun _ _ => .inr rfl)
    (fun _ _ _ _ _ _ => ⟨fun _ => .inr ⟨.inl rfl, List.nil_sublist _⟩, fun _ => .inr rfl⟩)
    fun hm (h : Spends id as before _) => h.move hm

/-- **Past its walk an instance is never walked again**, whatever is asked of it,
however often the process dies: unless `apply` began its id anew, no entry since is
of a walk of it, it is not applying, and what it has applied is what it had, less
what was undone. -/
theorem past_the_walk {w w' : World σ} (h : Later E w w') {id : String} {r : InstanceRecord}
    (hr : w.instances.read id = some r) (hs : r.state.walkable = false) :
    ∃ new, w'.acts = new ++ w.acts ∧ (Act.fresh id ∈ new ∨
      (∀ act ∈ new, act.inst = id → act.ofWalk = false) ∧
        ∀ r', w'.instances.read id = some r' →
          (r'.state = .unchecked ∨ r'.state.walkable = false) ∧ r'.applied.Sublist r.applied) := by
  have hk := (spentInvariant E id r.applied w.acts).run (S := (· = w)) (fun w₁ hw _ => ?_) h
  · obtain ⟨new, hnew, hn⟩ := StandsStored.told hk
    refine ⟨new, hnew, ?_⟩
    by_cases hf : Act.fresh id ∈ new
    · exact .inl hf
    · refine .inr ⟨hn.resolve_left hf, fun r' hr' => ?_⟩
      rcases StandsStored.records hk id r' hr' (Store.id_of_read hr') with ⟨new', hnew', hf'⟩ | hsp
      · rw [hnew, List.append_cancel_right_eq] at hnew'
        exact absurd (hnew' ▸ hf') hf
      · exact ⟨hsp.state, hsp.applied⟩
  · rw [hw]
    refine ⟨⟨[], rfl, .inr fun _ h => by cases h⟩, fun j r' hr' hid => .inr ?_⟩
    rw [← Store.id_of_read hr', hid, hr] at hr'
    cases hr'
    exact ⟨.inr hs, List.Sublist.refl _⟩

/-! ## Written ahead -/

/-- What the store said when a `do` was handed over: the instance is applying, and
this application is in flight; since its record began the write-ahead entry was
noted. -/
structure WrittenAhead (id : String) (a : AppliedStep) (older : List Act) : Prop where
  durable : ∃ h rest d, older = .handing id a h :: rest ∧ h.stored = some (.applying, d) ∧
    d.attempting = some a
  noted : ∃ oldest, Since id (.ahead id a) oldest older

/-- **The store says what is in flight before it flies**, and of nothing else: in
every run, whatever dies where, every `do` handed over was so written ahead, and an
application a stored record says is in flight was noted ahead since its record
began. -/
theorem written_ahead {w : World σ} (h : Run E w) :
    (∀ (id : String) (a : AppliedStep) (as : List AppliedStep) (older : List Act),
      (Act.did id a as :: older) <:+ w.acts → WrittenAhead id a older) ∧
    ∀ (j : String) (r : InstanceRecord) (a : AppliedStep), w.instances.read j = some r →
      r.state ≠ .unchecked → r.attempting = some a →
        ∃ older, Since r.id (.ahead r.id a) older w.acts := by
  have hst := chronicle h
  refine ⟨fun id a as older hs => ?_, fun j r a hr hu ha => ?_⟩
  · obtain ⟨x, rest, rfl⟩ := hst.chron.justified hs
    have hrest : (Act.handing id a x :: rest) <:+ w.acts := (List.suffix_cons _ _).trans hs
    obtain ⟨r, rfl, -, hdoc, hx⟩ := hst.chron.justified hrest
    obtain ⟨oldest, hsince⟩ := hdoc.flight a hx.flight
    exact ⟨⟨x, rest, r.docket, rfl, hx.stored, hx.flight⟩, oldest, hsince.cons nofun⟩
  · exact ((hst.records j r hr).documented hu).flight a ha

/-! ## A plan applied and recanted -/

namespace Recanted

def site : Setting Nat := ({} : Script).setting

def applied : World Nat :=
  (exec site (.apply (smallPlan "p" "web" [ownFile "/a"]) [] {}) (smallWorld ["web"])).2

def recanted : World Nat := (exec site (.recant "p.web.00000000" []) applied).2

def resumed : World Nat := (exec site (.resume "p.web.00000000" "ops") recanted).2

theorem run_applied : Run site applied :=
  Run.exec (.start (begins_smallWorld _) trivial) (.apply (smallPlan "p" "web" [ownFile "/a"]) [] {}) rfl

/-- The state and the number of applications stored. -/
def stored (w : World Nat) : Option (State × Nat) :=
  (w.instances.read "p.web.00000000").map fun r => (r.state, r.applied.length)

theorem told : applied.up = true ∧ recanted.up = true ∧ stored applied = some (.applied, 1) ∧
    stored recanted = some (.closed, 0) ∧ stored resumed = some (.closed, 0) := by
  decide +kernel

theorem read_of_stored {w : World Nat} {s : State} {n : Nat} (h : stored w = some (s, n)) :
    ∃ r, w.instances.read "p.web.00000000" = some r ∧ r.state = s ∧ r.applied.length = n := by
  obtain ⟨r, hr, he⟩ := Option.map_eq_some_iff.mp h
  cases he
  exact ⟨r, hr, rfl, rfl⟩

theorem later_resumed : Later site recanted resumed :=
  (Later.refl recanted).exec (.resume "p.web.00000000" "ops") told.2.1

/-- The record of the plan applied is lawful. -/
theorem lawful_applied : ∃ r, applied.instances.read "p.web.00000000" = some r ∧
    r.state = .applied ∧ r.applied.length = 1 ∧ Lawful r.core := by
  obtain ⟨r, hr, hs, hn⟩ := read_of_stored told.2.2.1
  exact ⟨r, hr, hs, hn, records_lawful run_applied hr⟩

/-- Recanted it stays closed when it is asked to resume. -/
theorem past_recanted : ∃ r r', recanted.instances.read "p.web.00000000" = some r ∧
    resumed.instances.read "p.web.00000000" = some r' ∧ r.state = .closed ∧ r'.state = .closed ∧
    ∃ new, resumed.acts = new ++ recanted.acts ∧ (Act.fresh "p.web.00000000" ∈ new ∨
      (∀ act ∈ new, act.inst = "p.web.00000000" → act.ofWalk = false) ∧
        r'.applied.Sublist r.applied) := by
  obtain ⟨-, -, -, hrec, hres⟩ := told
  obtain ⟨r, hr, hs, -⟩ := read_of_stored hrec
  obtain ⟨r', hr', hs', -⟩ := read_of_stored hres
  obtain ⟨new, hnew, hn⟩ := past_the_walk later_resumed hr (by rw [hs]; rfl)
  exact ⟨r, r', hr, hr', hs, hs', new, hnew, hn.imp_right fun h => ⟨h.1, (h.2 r' hr').2⟩⟩

/-- Its one `do` was written ahead. -/
theorem ahead_applied : ∃ a as older, (Act.did "p.web.00000000" a as :: older) <:+ applied.acts ∧
    WrittenAhead "p.web.00000000" a older := by
  have hne : handedOver "p.web.00000000" applied.acts ≠ [] := by decide +kernel
  obtain ⟨a, ha⟩ := List.exists_mem_of_ne_nil _ hne
  obtain ⟨as, older, hs⟩ := did_of_handedOver ha
  exact ⟨a, as, older, hs, (written_ahead run_applied).1 _ _ _ _ hs⟩

end Recanted

end Rescind
