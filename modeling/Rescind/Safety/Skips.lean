/-
# `Rescind.Safety.Skips` — what the walk skips and what it runs again

The walk is run from the top after every wait, hold, resume and restart, and
decides from `applied` alone what to skip.  An application *stands* when its
`do` completed, or was handed off, and it was not undone since (`standing`).

The invariant: in a record a walk can still reach, every application of a step
stands.  The one way out is a refusal under way, whose record is still
`Applying` while an unfinished application is already back in `applied`; that
record goes on to `Reverting`, unless it has a `:hold` application.  Then it is
`Held`, and a resume skips the application that never finished.

**Proved here.**

    every move keeps the invariant, while nothing unfinished is put back into
    a record with a `:hold` application                          (`SkipHeld.move`)
    so in every such run the walk is sound                       (`walk_sound`)
-/
import Rescind.Turn.Runs
import Rescind.Engine.Script

namespace Rescind

open Lib Lib.Prog

variable {σ : Type} {E : Setting σ}

/-! ## Sound histories -/

/-- A skipped application stands; a `do` is for an application that is not in
`applied`. -/
def soundAct : Act → List Act → Bool
  | .skipped id a, before => standing id a before
  | .did _ a applied, _ => !applied.contains a
  | _, _ => true

/-- Every skip and every `do` of a history was sound when it happened. -/
def walkSound : List Act → Bool
  | [] => true
  | act :: before => soundAct act before && walkSound before

/-- No unfinished application was put back into a record with a `:hold`
application. -/
def NoneHeldBack (acts : List Act) : Prop := ∀ id a, Act.rerecorded id a true ∉ acts

/-- The entry puts nothing unfinished beside a `:hold` application. -/
def Act.sparesHold : Act → Bool
  | .rerecorded _ _ hold => !hold
  | _ => true

theorem NoneHeldBack.of_all {acts : List Act} (h : acts.all Act.sparesHold = true) :
    NoneHeldBack acts :=
  fun _ _ hm => Bool.noConfusion (List.all_eq_true.mp h _ hm)

theorem NoneHeldBack.suffix {acts acts' : List Act} (h : NoneHeldBack acts') (hs : acts <:+ acts') :
    NoneHeldBack acts :=
  fun id a hm => h id a (hs.subset hm)

/-- The entries after which an application no longer stands. -/
def Act.breaks (id : String) (a : AppliedStep) : Act → Bool
  | .undone j b => j = id && b = a
  | .fresh j => j = id
  | _ => false

theorem standing_cons {id : String} {a : AppliedStep} {act : Act} {acts : List Act}
    (h : standing id a acts = true) (hb : act.breaks id a = false) :
    standing id a (act :: acts) = true := by
  cases act with
  | undone j b =>
      rw [standing, h, show (decide (j = id) && decide (b = a)) = false from hb]
      rfl
  | fresh j =>
      rw [standing, h, show decide (j = id) = false from hb]
      rfl
  | _ => simp [standing, h]

theorem standing_append {id : String} {a : AppliedStep} {acts before : List Act}
    (h : standing id a before = true) (hb : ∀ act ∈ acts, act.breaks id a = false) :
    standing id a (acts ++ before) = true := by
  induction acts with
  | nil => exact h
  | cons act acts ih =>
      exact standing_cons (ih fun x hx => hb x (List.mem_cons_of_mem _ hx))
        (hb act List.mem_cons_self)

/-! ## Records -/

namespace Core

def opAt (c : Core) (n : Nat) : Option Op := (leafAt c.ir.plan.body n).bind opOf

def holds (c : Core) (a : AppliedStep) : Bool :=
  match c.opAt a.step with
  | some o => o.refusal.isHold
  | none => false

/-- Every application of a step stands. -/
def Standing (c : Core) (acts : List Act) : Prop :=
  ∀ a ∈ c.applied, (c.opAt a.step).isSome = true → standing c.id a acts = true

/-- A record in which a walk would skip nothing unfinished. -/
def Fine (c : Core) (acts : List Act) : Prop :=
  c.state.walkable = true →
    c.Standing acts ∨ (c.state = .applying ∧ c.applied.any c.holds = false)

end Core

theorem core_earlierHold (r : InstanceRecord) : r.earlierHold = r.core.applied.any r.core.holds := rfl

theorem Core.Standing.mono {c : Core} {acts acts' : List Act} (h : c.Standing acts)
    (hb : ∀ a ∈ c.applied, standing c.id a acts = true → standing c.id a acts' = true) :
    c.Standing acts' :=
  fun a ha ho => hb a ha (h a ha ho)

theorem Core.Fine.mono {c : Core} {acts acts' : List Act} (h : c.Fine acts)
    (hb : ∀ a ∈ c.applied, standing c.id a acts = true → standing c.id a acts' = true) :
    c.Fine acts' :=
  fun hw => (h hw).imp_left fun hs => hs.mono hb

theorem Core.Standing.fine {c : Core} {acts : List Act} (h : c.Standing acts) : c.Fine acts :=
  fun _ => .inl h

theorem Core.fine_of_past {c : Core} {acts : List Act} (h : c.state.walkable = false) :
    c.Fine acts :=
  fun hw => by rw [h] at hw; cases hw

/-- A refusal or a lapse of a record that is being applied takes it past the
walk, if nothing holds. -/
theorem transition_applying_rest {ctx : Ctx} {s : State} {ev : Event}
    (hf : Phase.resting.feeds ev = true ∨ ev = .refuse)
    (h : transition ctx .applying ev = .to s) (hh : ctx.earlierHold = false) :
    s.walkable = false := by
  cases edge_of_transition h with
  | refuseHold he => rw [hh] at he; cases he
  | waitAtStep | deferAtStep => rcases hf with he | he <;> cases he
  | _ => rfl

/-- An event keeps a record fine; one that starts a walk has every application
standing. -/
theorem Core.Fine.inState {w : World σ} {s : State} {ev : Event} {acts : List Act}
    (h : w.hand.core.Fine acts) (hf : Phase.resting.feeds ev = true ∨ ev = .refuse)
    (ht : transition w.hand.ctx w.hand.state ev = .to s) :
    (w.hand.core.inState s).Fine acts ∧ (s = .applying → w.hand.core.Standing acts) := by
  by_cases hw : w.hand.state.walkable = true
  · rcases h hw with hs | ⟨ha, hh⟩
    · exact ⟨fun _ => .inl hs, fun _ => hs⟩
    · have hst : w.hand.state = .applying := ha
      rw [hst] at ht
      have hpast := transition_applying_rest hf ht hh
      refine ⟨fine_of_past hpast, fun he => ?_⟩
      rw [he] at hpast
      cases hpast
  · have hpast := transition_past ht (by simpa using hw)
    refine ⟨fine_of_past hpast, fun he => ?_⟩
    rw [he] at hpast
    cases hpast

/-! ## The invariant -/

/-- Every stored record but the one in hand is fine. -/
def OthersFine (w : World σ) : Prop :=
  ∀ j r, j ≠ w.hand.id → w.instances.read j = some r → r.core.Fine w.acts

/-- What is stored under the id in hand is fine. -/
def OwnFine (w : World σ) : Prop := ∀ c, w.ownCore = some c → c.Fine w.acts

/-- What is stored under the id in hand is past the walk. -/
def OwnPast (w : World σ) : Prop := ∀ c, w.ownCore = some c → c.state.walkable = false

/-- What holds of the record in hand, by the phase of the turn. -/
def HandFine (φ : Phase) (w : World σ) : Prop :=
  match φ with
  | .beginning | .requesting | .reserving | .reserved => w.hand.core.Standing w.acts ∧ OwnFine w
  | .starting | .walking | .guarding _ =>
      w.hand.core.Standing w.acts ∧ Synced w ∧ w.hand.state = .applying
  | .inFlight a | .failing a =>
      w.hand.core.Standing w.acts ∧ Synced w ∧ w.hand.state = .applying ∧ a ∉ w.hand.applied
  | .undoing => w.hand.state.walkable = false ∧ OwnPast w
  | _ => w.hand.core.Fine w.acts ∧ OwnFine w

/-- The invariant inside a turn. -/
def SkipHeld (p : Phase × World σ) : Prop :=
  NoneHeldBack p.2.acts → walkSound p.2.acts = true ∧ OthersFine p.2 ∧ HandFine p.1 p.2

/-- The invariant between two turns. -/
def SkipKept (w : World σ) : Prop :=
  NoneHeldBack w.acts → walkSound w.acts = true ∧
    ∀ j r, w.instances.read j = some r → r.core.Fine w.acts

/-! ## One move -/

theorem Act.breaks_of_idle {act : Act} (h : act.idle = true) (id : String) (a : AppliedStep) :
    act.breaks id a = false := by
  cases act <;> first | rfl | cases h

theorem soundAct_of_idle {act : Act} (h : act.idle = true) (before : List Act) :
    soundAct act before = true := by
  cases act <;> first | rfl | cases h

theorem breaks_undone_ne {i j : String} {a b : AppliedStep} (h : i ≠ j ∨ a ≠ b) :
    (Act.undone i a).breaks j b = false := by
  unfold Act.breaks
  rw [Bool.and_eq_false_iff]
  exact h.imp (decide_eq_false ·) (decide_eq_false ·)

theorem Act.breaks_of_inst_ne {act : Act} {id : String} (h : act.inst ≠ id) (a : AppliedStep) :
    act.breaks id a = false := by
  cases act with
  | undone j b => exact breaks_undone_ne (.inl h)
  | fresh j => exact decide_eq_false h
  | _ => rfl

theorem OthersFine.move {p p' : Phase × World σ} (hm : Move E p p') (h : OthersFine p.2) :
    OthersFine p'.2 := by
  intro j r hj hr
  rw [hm.id] at hj
  rw [hm.others j hj] at hr
  obtain ⟨new, hnew, hb⟩ := hm.told
  have hid : r.core.id = j := Store.id_of_read hr
  rw [hnew]
  refine (h j r hj hr).mono fun a _ hs => standing_append hs fun act hact =>
    Act.breaks_of_inst_ne ?_ a
  rw [hb act hact, hid]
  exact hj.symm

theorem walkSound_append {acts before : List Act} (h : walkSound before = true)
    (ha : ∀ act ∈ acts, ∀ before, soundAct act before = true) :
    walkSound (acts ++ before) = true := by
  induction acts with
  | nil => exact h
  | cons act acts ih =>
      exact Bool.and_eq_true_iff.mpr ⟨ha act List.mem_cons_self _,
        ih fun x hx => ha x (List.mem_cons_of_mem _ hx)⟩

/-- A move keeps the history sound: what is skipped stands, and what is run is
not in `applied`. -/
theorem walkSound_move {p p' : Phase × World σ} (hm : Move E p p') (hs : walkSound p.2.acts = true)
    (hf : HandFine p.1 p.2) : walkSound p'.2.acts = true := by
  have entry : ∀ {act : Act} {acts : List Act}, soundAct act acts = true →
      walkSound acts = true → walkSound (act :: acts) = true :=
    fun h hs => Bool.and_eq_true_iff.mpr ⟨h, hs⟩
  cases hm with
  | quiet h => rw [h.acts]; exact hs
  | remark a hi => exact entry (soundAct_of_idle hi _) hs
  | check _ _ h =>
      rw [acts_of_frame h.frame]
      exact entry rfl (entry rfl hs)
  | handOff h | choose _ h =>
      rw [acts_of_frame h.frame]
      exact entry rfl hs
  | request _ h | mark _ _ _ h | pop h => rw [acts_of_frame h.frame]; exact hs
  | transit _ _ _ h =>
      rw [acts_of_frame h.frame]
      exact walkSound_append hs fun act hact _ => soundAct_of_idle (of_mem_turned hact).2 _
  | fired h =>
      rw [acts_of_frame h.frame]
      refine walkSound_append hs fun act hact _ => ?_
      obtain ⟨a, -, rfl⟩ := List.mem_map.mp hact
      rfl
  | skip ha ho => exact entry (hf.1 _ ha ho) hs
  | start ha => exact entry (by simpa [soundAct] using ha) (entry rfl hs)
  | finish | recollect | rerecord | unmake | undo | pass => exact entry rfl hs
  | amend | reserve | reserved | closeGap | depart | fail | forget | reenter | release | released
  | reload => exact hs

/-! ## The record in hand -/

section
variable {w w' : World σ} {φ : Phase} {c : Core} {f : Frame}

theorem OwnFine.calm (h : Calm w w') (hf : w.hand.core.Fine w.acts) (ho : OwnFine w) :
    OwnFine w' := by
  intro c hc
  rw [acts_of_frame h.frame]
  rcases h.ownCore with hq | hq
  · exact ho c (hq ▸ hc)
  · rw [hq] at hc
    exact Option.some.inj hc ▸ hf

theorem HandFine.calm (h : Calm w w') (hf : HandFine φ w) : HandFine φ w' := by
  have ha : w'.acts = w.acts := acts_of_frame h.frame
  have hst : w.hand.core.Standing w.acts → w'.hand.core.Standing w'.acts := by
    rw [h.hand, ha]; exact id
  have hfi : w.hand.core.Fine w.acts → w'.hand.core.Fine w'.acts := by
    rw [h.hand, ha]; exact id
  have hs : w'.hand.state = w.hand.state := congrArg Core.state h.hand
  cases φ with
  | beginning | requesting | reserving | reserved =>
      exact ⟨hst hf.1, hf.2.calm h hf.1.fine⟩
  | starting | walking | guarding _ => exact ⟨hst hf.1, h.synced hf.2.1, hs.trans hf.2.2⟩
  | inFlight a | failing a =>
      refine ⟨hst hf.1, h.synced hf.2.1, hs.trans hf.2.2.1, ?_⟩
      rw [show w'.hand.applied = w.hand.applied from congrArg Core.applied h.hand]
      exact hf.2.2.2
  | undoing =>
      refine ⟨by rw [hs]; exact hf.1, fun c hc => ?_⟩
      rcases h.ownCore with hq | hq
      · exact hf.2 c (hq ▸ hc)
      · rw [hq] at hc
        exact Option.some.inj hc ▸ hf.1
  | _ => exact ⟨hfi hf.1, hf.2.calm h hf.1⟩

/-- A record that was written and is fine. -/
theorem Puts.fine (h : Puts c f w w') (hc : c.id = w.hand.id) (hf : c.Fine f.acts) :
    w'.hand.core.Fine w'.acts ∧ OwnFine w' := by
  have ha : w'.acts = f.acts := acts_of_frame h.frame
  rw [h.hand, ha]
  refine ⟨hf, fun c' hc' => ?_⟩
  rw [h.ownCore hc] at hc'
  rw [ha]
  exact Option.some.inj hc' ▸ hf

/-- The phase after an event. -/
theorem Puts.handFine {s : State} (h : Puts (w.hand.core.inState s) f w w')
    (hf : (w.hand.core.inState s).Fine f.acts)
    (hs : s = .applying → w.hand.core.Standing f.acts) : HandFine s.phase w' := by
  have past : ∀ {s : State}, Puts (w.hand.core.inState s) f w w' → s.walkable = false →
      HandFine .undoing w' := fun h hw =>
    ⟨(congrArg (fun c => c.state.walkable) h.hand).trans hw, fun c hc => by
      rw [h.ownCore rfl] at hc
      exact Option.some.inj hc ▸ hw⟩
  have default_ := h.fine rfl hf
  cases s with
  | applying =>
      refine ⟨?_, h.synced rfl, congrArg Core.state h.hand⟩
      rw [h.hand, acts_of_frame h.frame]
      exact hs rfl
  | reverting | expired => exact past h rfl
  | _ => exact default_

/-- More history that breaks nothing of the record in hand. -/
theorem Core.Standing.note {act : Act} (h : c.Standing w.acts)
    (hb : ∀ a ∈ c.applied, act.breaks c.id a = false) : c.Standing (w.noted act).acts :=
  h.mono fun a ha hs => standing_cons hs (hb a ha)

theorem Core.Fine.note {act : Act} (h : c.Fine w.acts)
    (hb : ∀ a ∈ c.applied, act.breaks c.id a = false) : c.Fine (w.noted act).acts :=
  h.mono fun a ha hs => standing_cons hs (hb a ha)

theorem OwnFine.note {act : Act} (h : OwnFine w)
    (hb : ∀ c a, w.ownCore = some c → a ∈ c.applied → act.breaks c.id a = false) :
    OwnFine (w.noted act) :=
  fun c hc => (h c hc).note fun a ha => hb c a hc ha

theorem Synced.ownFine (h : Synced w) (hf : w.hand.core.Fine w.acts) : OwnFine w := by
  intro c hc
  unfold Synced at h
  rw [h] at hc
  exact Option.some.inj hc ▸ hf

/-- An entry that breaks nothing at all. -/
theorem HandFine.note {act : Act} (hb : ∀ id a, act.breaks id a = false) (h : HandFine φ w) :
    HandFine φ (w.noted act) := by
  cases φ with
  | beginning | requesting | reserving | reserved =>
      exact ⟨h.1.note fun a _ => hb _ a, h.2.note fun c a _ _ => hb _ a⟩
  | starting | walking | guarding _ => exact ⟨h.1.note fun a _ => hb _ a, h.2⟩
  | inFlight a | failing a => exact ⟨h.1.note fun a _ => hb _ a, h.2⟩
  | undoing => exact h
  | _ => exact ⟨h.1.note fun a _ => hb _ a, h.2.note fun c a _ _ => hb _ a⟩

/-- An application added to the record, which stands or is of no step. -/
theorem Core.Standing.having {acts acts' : List Act} {a : AppliedStep} (h : c.Standing acts)
    (hold : ∀ b ∈ c.applied, standing c.id b acts = true → standing c.id b acts' = true)
    (ha : (c.opAt a.step).isSome = true → standing c.id a acts' = true) :
    (c.having (c.applied ++ [a])).Standing acts' := by
  intro b hb ho
  rcases List.mem_append.mp hb with hb | hb
  · exact hold b hb (h b hb ho)
  · obtain rfl := List.mem_singleton.mp hb
    exact ha ho

/-- Applications undone from outside leave the others standing. -/
theorem Core.Fine.fired {acts : List Act} {gone : List Nat} (h : c.Fine acts) :
    (c.having (c.applied.filter fun a => !gone.contains a.step)).Fine
      ((c.applied.filter fun a => gone.contains a.step).map (.undone c.id) ++ acts) := by
  intro hw
  rcases h hw with hs | ⟨hst, hh⟩
  · refine .inl fun b hb ho => ?_
    obtain ⟨hb, hkeep⟩ := List.mem_filter.mp hb
    refine standing_append (hs b hb ho) fun act hact => ?_
    obtain ⟨a, ha, rfl⟩ := List.mem_map.mp hact
    refine breaks_undone_ne (.inr ?_)
    rintro rfl
    rw [(List.mem_filter.mp ha).2] at hkeep
    cases hkeep
  · refine .inr ⟨hst, List.any_eq_false.mpr fun a ha => ?_⟩
    exact List.any_eq_false.mp hh a (List.mem_filter.mp ha).1

end

/-- An event of whichever phase feeds it. -/
theorem HandFine.transit {φ : Phase} {w w' : World σ} {ev : Event} {s : State}
    (hf : φ.feeds ev = true) (ht : transition w.hand.ctx w.hand.state ev = .to s)
    (h : Puts (w.hand.core.inState s)
      ((w.frame.gapped (gapAfter s w.hand w.gap)).telling (turned w.hand ev s ++ w.acts)) w w')
    (hφ : HandFine φ w) : HandFine s.phase w' := by
  have told : ∀ {id : String} {a : AppliedStep}, standing id a w.acts = true →
      standing id a (turned w.hand ev s ++ w.acts) = true := fun hs =>
    standing_append hs fun act hact => Act.breaks_of_idle (of_mem_turned hact).2 _ _
  have rest : w.hand.core.Fine w.acts → Phase.resting.feeds ev = true ∨ ev = .refuse →
      HandFine s.phase w' := fun hw hev =>
    h.handFine ((hw.inState hev ht).1.mono fun _ _ => told) fun he =>
      ((hw.inState hev ht).2 he).mono fun _ _ => told
  cases φ with
  | starting | walking | guarding _ =>
      have hs := hφ.1.mono fun _ _ => told
      exact h.handFine (fun _ => .inl hs) fun _ => hs
  | refusing =>
      refine rest hφ.1 (.inr ?_)
      cases ev <;> first | rfl | cases hf
  | undoing =>
      have hpast := transition_past ht hφ.1
      refine h.handFine (Core.fine_of_past hpast) fun he => ?_
      rw [he] at hpast
      cases hpast
  | resting => exact rest hφ.1 (.inl hf)
  | _ => cases hf

theorem HandFine.move {p p' : Phase × World σ} (hm : Move E p p') (hn : NoneHeldBack p'.2.acts)
    (h : HandFine p.1 p.2) : HandFine p'.1 p'.2 := by
  cases hm with
  | quiet hq => exact h.calm hq.toCalm
  | amend hc => exact h.calm (calm_hand hc)
  | remark a hi => exact h.note (Act.breaks_of_idle hi)
  | @check w w' hb _ hp =>
      have hs : ∀ acts, (w.hand.core.inState .checked).Standing acts := by
        intro acts a ha
        rw [show (w.hand.core.inState .checked).applied = [] from hb.applied] at ha
        cases ha
      refine ⟨?_, (hp.fine rfl (hs _).fine).2⟩
      rw [hp.hand]
      exact hs _
  | reserve | reserved | closeGap | depart | release | released => exact h
  | request _ hp => exact hp.fine rfl fun _ => .inl h.1
  | transit hf ht _ hp => exact h.transit hf ht hp
  | skip | recollect => exact h.note fun _ _ => rfl
  | pass => exact HandFine.note (φ := .walking) (fun _ _ => rfl) h
  | @start w a ha =>
      exact ⟨(h.1.note fun _ _ => rfl).note (w := w.noted _) fun _ _ => rfl, h.2.1, h.2.2, ha⟩
  | finish hf =>
      rcases hf with rfl | ⟨rfl, -⟩
      · exact ⟨h.1.note fun _ _ => rfl, h.2.1, h.2.2.1⟩
      · exact HandFine.note (φ := .walking) (fun _ _ => rfl) h
  | @mark w w' a _ _ ho hφ hp =>
      have hw : HandFine .walking w' := by
        refine ⟨?_, hp.synced rfl, (congrArg Core.state hp.hand).trans h.2.2⟩
        rw [hp.hand, acts_of_frame hp.frame]
        refine h.1.having (fun _ _ hs => hs) fun hop => ho.resolve_right fun hno => ?_
        rw [show w.hand.core.opAt a.step = none from hno] at hop
        cases hop
      rcases hφ with rfl | ⟨rfl, -⟩ <;> exact hw
  | @handOff w w' a hp =>
      refine ⟨?_, hp.synced rfl, (congrArg Core.state hp.hand).trans h.2.2⟩
      rw [hp.hand, acts_of_frame hp.frame]
      refine h.1.having (fun _ _ hs => standing_cons hs rfl) fun _ => ?_
      simp [standing, Frame.telling, InstanceRecord.core]
  | choose _ hp =>
      refine ⟨?_, hp.synced rfl, (congrArg Core.state hp.hand).trans h.2.2⟩
      rw [hp.hand, acts_of_frame hp.frame]
      exact h.1.mono fun _ _ hs => standing_cons hs rfl
  | fail => exact h
  | forget => exact ⟨h.1.fine, h.2.1.ownFine h.1.fine⟩
  | @unmake w a =>
      have hb : ∀ b ∈ w.hand.core.applied, (Act.undone w.hand.id a).breaks w.hand.core.id b = false :=
        fun b hb => breaks_undone_ne (.inr fun he => h.2.2.2 (he ▸ hb))
      have hf : w.hand.core.Fine (w.noted (.undone w.hand.id a)).acts := h.1.fine.note hb
      exact ⟨hf, Synced.ownFine (w := w.noted _) h.2.1 hf⟩
  | @rerecord φ w a r hφ hr =>
      have hhold : r.core.applied.any r.core.holds = false := by
        by_contra hh
        rw [Bool.not_eq_false, ← core_earlierHold] at hh
        refine hn r.id a ?_
        rw [← hh]
        exact List.mem_cons_self
      have hown : w.hand.state = .applying ∧ OwnFine w := by
        rcases hφ with rfl | ⟨rfl, hs, -⟩
        · exact ⟨h.2.2.1, h.2.1.ownFine h.1.fine⟩
        · exact ⟨hs, h.2⟩
      refine ⟨fun _ => .inr ⟨(congrArg Core.state hr).trans hown.1, hhold⟩, fun c hc => ?_⟩
      have hid : r.id = w.hand.id := congrArg Core.id hr
      refine (hown.2 c ?_).mono fun b _ hs => standing_cons hs rfl
      rw [← hc]
      unfold World.ownCore
      rw [hid]
  | @reenter w hs hy =>
      have hw : w.hand.state.walkable = false := by
        rcases hs with hs | hs <;> rw [hs] <;> rfl
      refine ⟨hw, fun c hc => ?_⟩
      rw [hy] at hc
      exact Option.some.inj hc ▸ hw
  | undo => exact h
  | pop hp =>
      refine ⟨(congrArg (fun c => c.state.walkable) hp.hand).trans h.1, fun c hc => ?_⟩
      rw [hp.ownCore rfl] at hc
      exact Option.some.inj hc ▸ h.1
  | fired hp => exact hp.fine rfl h.1.fired
  | reload _ hc => exact h.calm (calm_hand (InstanceRecord.core_of_kern hc))

theorem SkipHeld.move {p p' : Phase × World σ} (hm : Move E p p') (h : SkipHeld p) :
    SkipHeld p' := by
  intro hn
  obtain ⟨hs, ho, hf⟩ := h (hn.suffix hm.acts)
  exact ⟨walkSound_move hm hs hf, ho.move hm, hf.move hm hn⟩

/-! ## Runs -/

theorem HandFine.ownFine {φ : Phase} {w : World σ} (h : HandFine φ w) : OwnFine w := by
  cases φ with
  | starting | walking | guarding _ | inFlight a | failing a => exact h.2.1.ownFine h.1.fine
  | undoing => exact fun c hc => Core.fine_of_past (h.2 c hc)
  | _ => exact h.2

/-- Where a turn ends, however it ends. -/
theorem SkipHeld.kept {φ : Phase} {w : World σ} (h : SkipHeld (φ, w)) : SkipKept w := by
  intro hn
  obtain ⟨hs, ho, hf⟩ := h hn
  refine ⟨hs, fun j r hr => ?_⟩
  by_cases hj : j = w.hand.id
  · refine hf.ownFine r.core ?_
    unfold World.ownCore
    rw [← hj, hr]
    rfl
  · exact ho j r hj hr

theorem SkipKept.congr {w w' : World σ} (h : SkipKept w)
    (hr : ∀ j, w'.instances.read j = w.instances.read j) (ha : w'.acts = w.acts) : SkipKept w' := by
  intro hn
  rw [ha] at hn ⊢
  refine ⟨(h hn).1, fun j r hj => (h hn).2 j r ?_⟩
  rw [← hr j]
  exact hj

/-- The invariant of all runs. -/
def skipInvariant (E : Setting σ) : Invariant E (fun _ => True) fun _ => True where
  Kept := SkipKept
  Held := SkipHeld
  between hb h := h.congr hb.records hb.acts
  condition _ _ := trivial
  take {w r} h hr hn := by
    obtain ⟨hs, hall⟩ := h hn
    refine ⟨hs, fun j r' _ hr' => hall j r' hr', hall r.id r hr, fun c hc => ?_⟩
    obtain ⟨r', hr', rfl⟩ := Option.map_eq_some_iff.mp hc
    exact hall r.id r' hr'
  fresh {w ir params opts nonce} h _ _ _ hn := by
    obtain ⟨hs, hall⟩ := h hn
    refine ⟨hs, fun j r' _ hr' => hall j r' hr', nofun, fun c hc => ?_⟩
    obtain ⟨r', hr', rfl⟩ := Option.map_eq_some_iff.mp hc
    exact hall _ r' hr'
  move hm h := h.move hm
  leave h := h.kept
  drop h hd _ := h.kept.congr hd.records (acts_of_frame hd.frame)

/-- **The walk is sound.**  In every run in which no unfinished application is
put back into a record with a `:hold` application, the walk never runs a `do`
for an application in `applied`, and skips only applications that stand. -/
theorem walk_sound {E : Setting σ} {w : World σ} (h : Run E w) (hn : NoneHeldBack w.acts) :
    walkSound w.acts = true :=
  ((skipInvariant E).run (fun w hw _ _ => by
    rw [hw.acts]
    exact ⟨rfl, fun j r hr => by rw [hw.instances] at hr; cases hr⟩) h hn).1

/-! ## An instance that died inside a `do` and was resumed -/

namespace HeldBack

/-- The first run goes through; the process dies inside the second, which had
written its file. -/
def script : Script where
  run n := if n = 1 then none else some (.ok ⟨[]⟩)
  fact n shape :=
    if shape = "file:/a" ∧ 1 ≤ n ∨ shape = "file:/b" ∧ 2 ≤ n then some [120] else none

abbrev site : Setting Nat := script.setting

/-- A `:hold` step and one more. -/
def plan : PlanIr := smallPlan "p" "web" [ownFile "/a" (.hold none), ownFile "/b"]

def died : World Nat := (exec site (.apply plan [] {}) (smallWorld ["web"])).2

def booted : World Nat := restart site (smallWorld ["web"]).hosts died

def resumed : World Nat := (exec site (.resume "p.web.00000000" "ops") booted).2

theorem run_died : Run site died :=
  Run.exec (.start (begins_smallWorld _) trivial) (.apply plan [] {}) rfl

/-- Boot goes through; no `:hold` application was passed over before it, and the walk
is not sound after it. -/
theorem told_resumed : booted.up = true ∧ died.acts.all Act.sparesHold = true ∧
    walkSound resumed.acts = false := by decide +kernel

theorem run_resumed : Run site resumed :=
  ((run_died.restart (smallWorld ["web"]).hosts).exec (.resume "p.web.00000000" "ops") told_resumed.1)

/-- The resumed walk skips the second step, whose `do` never finished. -/
theorem skips_unfinished : Run site resumed ∧ walkSound resumed.acts = false :=
  ⟨run_resumed, told_resumed.2.2⟩

theorem sound_before_restart : NoneHeldBack died.acts ∧ walkSound died.acts = true :=
  have hn : NoneHeldBack died.acts := .of_all told_resumed.2.1
  ⟨hn, walk_sound run_died hn⟩

end HeldBack

end Rescind
