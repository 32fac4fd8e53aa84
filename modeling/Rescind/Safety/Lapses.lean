/-
# `Rescind.Safety.Lapses` — where an instance goes when its wait lapses

A wait that outlives its bound lapses as the plan declares: into `Held` where the
item it waits at says so and somebody is there to resume it, and else into a
revert.  The check reads the declaration off every kind of item that waits; the
record's context reads it off steps and knells alone.

    where a lapsed wait goes                          (`lapse_target`)
    it goes where its item says, unless an item that
      is no step declares a hold                      (`lapse_policy_iff`)

The run may begin in any world, and in it no verb begins an instance anew.
-/
import Rescind.Turn.Chronicle
import Rescind.Engine.Script

namespace Rescind

open Lib

variable {σ : Type} {E : Setting σ}

/-! ## Where a lapse goes -/

/-- Where the plan has a wait at its leaf `n` lapse to. -/
def lapsePolicy (p : Plan) (n : Nat) : State :=
  if p.mode = .manual ∧ (leafAt p.body n).any lapseHold = true then .held else .reverting

/-- A leaf that is no step declares a hold that a manual plan would honour. -/
def HoldUnseen (p : Plan) (n : Nat) : Prop :=
  p.mode = .manual ∧ ∃ it, leafAt p.body n = some it ∧ lapseHold it = true ∧ stepOf it = none

/-- Where the engine has it lapse to. -/
def lapseTarget (p : Plan) (n : Nat) : State :=
  if p.mode = .manual ∧ ((leafAt p.body n).bind stepOf).any (fun s => s.onLapse = .hold) = true then
    .held
  else .reverting

theorem lapse_target {r : InstanceRecord} {x : Wait} {s : State} (hx : r.waiting = some x)
    (hs : r.state = .waiting) (ht : transition r.ctx r.state .boundLapses = .to s) :
    s = lapseTarget r.plan x.step := by
  have hctx : r.ctx.onLapse = .hold ↔
      ((leafAt r.plan.body x.step).bind stepOf).any (fun s => s.onLapse = .hold) = true := by
    show (((r.waiting.bind fun w => (leafAt r.plan.body w.step).bind stepOf).map
      StepI.onLapse).getD .revert = .hold) ↔ _
    rw [hx, Option.bind_some]
    generalize (leafAt r.plan.body x.step).bind stepOf = st
    cases st with
    | none => simp
    | some st => simp
  have hmode : r.ctx.mode ≠ .auto ↔ r.plan.mode = .manual := by
    show r.plan.mode ≠ .auto ↔ _
    cases r.plan.mode <;> simp
  have he := edge_of_transition ht
  rw [hs] at he
  cases he with
  | lapseHold h => exact (if_pos ⟨hmode.mp h.1, hctx.mp h.2⟩).symm
  | lapse h => exact (if_neg fun hn => h ⟨hmode.mpr hn.1, hctx.mpr hn.2⟩).symm

theorem target_eq_policy_iff (p : Plan) (n : Nat) :
    lapseTarget p n = lapsePolicy p n ↔ ¬HoldUnseen p n := by
  unfold lapseTarget lapsePolicy HoldUnseen
  cases hl : leafAt p.body n with
  | none => simp
  | some it =>
      cases hm : p.mode with
      | auto => simp
      | manual =>
          cases it with
          | step s | knell s => simp [stepOf, lapseHold]
          | assert g wd o | when_ g wd o t e => cases o <;> simp [stepOf, lapseHold]
          | par | slot | confirm | commit | preflight | observe | repeat_ => simp [stepOf, lapseHold]

/-! ## The history of a run -/

/-- What the history may say of a lapse, by the records as they were. -/
def Abides (records : Store) : Act → Prop
  | .left id (some x) .boundLapses s => ∃ r, records.read id = some r ∧ s = lapseTarget r.plan x.step
  | _ => True

section
variable {p p' : Phase × World σ}

/-- What a move tells of a lapse is where the record in hand has it go. -/
theorem Move.lapses (h : Move E p p') :
    ∃ new, p'.2.acts = new ++ p.2.acts ∧ ∀ id x s, Act.left id (some x) .boundLapses s ∈ new →
      id = p.2.hand.id ∧ s = lapseTarget p.2.hand.plan x.step := by
  have none_ : ∀ {w' : World σ}, w'.acts = p.2.acts → ∃ new, w'.acts = new ++ p.2.acts ∧
      ∀ id x s, Act.left id (some x) .boundLapses s ∈ new →
        id = p.2.hand.id ∧ s = lapseTarget p.2.hand.plan x.step :=
    fun h => ⟨[], h, fun _ _ _ hm => by cases hm⟩
  cases h with
  | quiet h => exact none_ (acts_of_frame h.frame)
  | remark a _ _ hp =>
      refine ⟨[a], rfl, fun id x s hm => ?_⟩
      rw [← List.mem_singleton.mp hm] at hp
      cases hp
  | transit _ ht _ h =>
      refine ⟨_, acts_of_frame h.frame, fun id x s hm => ?_⟩
      simp only [turned, List.mem_append] at hm
      rcases hm with (hm | hm) | hm
      · split at hm
        next hs =>
          obtain ⟨hid, hx, rfl, rfl⟩ := Act.left.inj (List.mem_singleton.mp hm)
          exact ⟨hid, lapse_target hx.symm hs ht⟩
        next => cases hm
      · split at hm
        · cases List.mem_singleton.mp hm
        · cases hm
      · split at hm
        · cases List.mem_singleton.mp hm
        · cases hm
  | check _ _ h => exact ⟨[_, _], acts_of_frame h.frame, fun _ _ _ hm => by simp at hm⟩
  | handOff h | choose _ h => exact ⟨[_], acts_of_frame h.frame, fun _ _ _ hm => by simp at hm⟩
  | request _ h | mark _ _ _ h | pop h => exact none_ (acts_of_frame h.frame)
  | fired h =>
      refine ⟨_, acts_of_frame h.frame, fun _ _ _ hm => ?_⟩
      obtain ⟨b, -, hb⟩ := List.mem_map.mp hm
      cases hb
  | rerecord | skip | finish | recollect | unmake | undo | pass =>
      exact ⟨[_], rfl, fun _ _ _ hm => by simp at hm⟩
  | start => exact ⟨[_, _], rfl, fun _ _ _ hm => by simp at hm⟩
  | amend | reserve | reserved | closeGap | depart | fail | forget | reenter | release | released
  | reload => exact none_ rfl

/-- Every lapse told since goes where the plan of its record has it go. -/
def ToldSince (records : Store) (before acts : List Act) : Prop :=
  ∃ new, acts = new ++ before ∧ ∀ act ∈ new, Abides records act

/-- A record is of the plan there was under its id. -/
def OfPlan (records : Store) (r : InstanceRecord) : Prop :=
  (records.read r.id).map InstanceRecord.ir = some r.ir

theorem OfPlan.congr {records : Store} {r r' : InstanceRecord} (h : OfPlan records r)
    (hc : r'.core.identity = r.core.identity) : OfPlan records r' := by
  have hid : r'.id = r.id := congrArg Prod.fst hc
  have hir : r'.ir = r.ir := congrArg (fun i => i.2.1) hc
  rwa [OfPlan, hid, hir]

abbrev Following (records : Store) (before : List Act) : Phase × World σ → Prop :=
  Stands (ToldSince records before) (fun _ => OfPlan records) fun _ => True

theorem Following.move {records : Store} {before : List Act} (hm : Move E p p')
    (h : Following records before p) : Following records before p' where
  told := by
    obtain ⟨new, hnew, hl⟩ := hm.lapses
    obtain ⟨since, hsince, ha⟩ := h.told
    refine ⟨new ++ since, by rw [hnew, hsince, List.append_assoc], fun act hact => ?_⟩
    rcases List.mem_append.mp hact with hact | hact
    · cases act with
      | left id wait ev s =>
          cases wait with
          | none => trivial
          | some x =>
              cases ev with
              | boundLapses =>
                  obtain ⟨rfl, rfl⟩ := hl id x s hact
                  obtain ⟨r, hr, hir⟩ := Option.map_eq_some_iff.mp h.hand
                  refine ⟨r, hr, ?_⟩
                  rw [InstanceRecord.plan, InstanceRecord.plan, hir]
              | _ => trivial
      | _ => trivial
    · exact ha act hact
  others := h.others_move hm fun h _ => h
  own r hr := by
    rw [hm.id] at hr
    have put : (p'.2.instances.read p.2.hand.id).map InstanceRecord.kern = some p'.2.hand.kern →
        OfPlan records r := by
      intro hk
      rw [hr] at hk
      have hc : r.core = p'.2.hand.core := InstanceRecord.core_of_kern (Option.some.inj hk)
      exact h.hand.congr ((congrArg Core.identity hc).trans hm.identity)
    rcases hm.docketed with ⟨-, hb⟩ | hd
    · exact put hb.own
    · rcases hd.own with he | hk
      · exact h.own r (he ▸ hr)
      · exact put hk
  hand := h.hand.congr hm.identity
  phase := trivial

end

/-! ## Runs -/

/-- The verb begins no instance. -/
def Verb.beginsNone : Verb → Prop
  | .apply _ _ _ => False
  | _ => True

/-- The invariant of the runs from a world in which no plan is applied. -/
def followingInvariant (E : Setting σ) (w₀ : World σ) :
    Invariant E Verb.beginsNone fun _ => True where
  Kept := StandsStored (ToldSince w₀.instances w₀.acts) fun _ => OfPlan w₀.instances
  Held := Following w₀.instances w₀.acts
  between hb h := h.congr hb.records hb.acts
  condition _ _ := trivial
  take {_ r} h hr :=
    ⟨h.told, fun j r' _ hr' => h.records j r' hr', fun r' hr' => h.records _ r' hr',
      h.records _ r hr, trivial⟩
  fresh _ hv := hv.elim
  move hm h := h.move hm
  leave h := h.stored
  drop h hd _ := h.stored.congr hd.records (congrArg Frame.acts hd.frame)

theorem toldSince {w w' : World σ} (h : RunOf E (· = w) Verb.beginsNone (fun _ => True) w') :
    ToldSince w.instances w.acts w'.acts := by
  have hk : StandsStored (ToldSince w.instances w.acts) (fun _ => OfPlan w.instances) w' := by
    refine (followingInvariant E w).run (fun w₁ hw _ => ?_) h
    rw [hw]
    refine ⟨⟨[], rfl, fun _ hm => by cases hm⟩, fun j r hr => ?_⟩
    rw [OfPlan, Store.id_of_read hr, hr]
    rfl
  exact hk.told

/-- **A lapsed wait goes where its item says** in every run, unless the plan is
manual and the item is no step and declares a hold: then it does not. -/
theorem lapse_policy_iff {w w' : World σ}
    (h : RunOf E (· = w) Verb.beginsNone (fun _ => True) w') {id : String} {x : Wait} {s : State}
    {newer older : List Act}
    (hl : w'.acts = newer ++ .left id (some x) .boundLapses s :: (older ++ w.acts)) :
    ∃ r, w.instances.read id = some r ∧
      (s = lapsePolicy r.plan x.step ↔ ¬HoldUnseen r.plan x.step) := by
  obtain ⟨new, hnew, ha⟩ := toldSince h
  have hmem : Act.left id (some x) .boundLapses s ∈ new := by
    rw [hl, ← List.cons_append, ← List.append_assoc, List.append_cancel_right_eq] at hnew
    rw [← hnew]
    exact List.mem_append_right _ List.mem_cons_self
  obtain ⟨r, hr, rfl⟩ := ha _ hmem
  exact ⟨r, hr, target_eq_policy_iff r.plan x.step⟩

namespace UnseenHold

/-- Every guard is unknown, and a thousand seconds pass between two readings of the
clock. -/
def script : Script where
  probe _ _ := .unknown

def site : Setting Nat :=
  { script.setting with
    outside := {
      answer := fun n q => (match q with
        | .now => some (⟨1000 * n⟩ : Instant)
        | q => script.answer n q, match q with
        | .now => n + 1
        | _ => n) } }

/-- An assertion that waits ten minutes and declares what then. -/
def plan (onLapse : OnLapse) : PlanIr where
  site := smallSite ["web"]
  requester := "ops"
  plan := {
    id := "p", owner := "web", wane := some ⟨1000000⟩
    probes := [⟨"ready", .target, [.run [.lit "true"] [] none], [], false, none⟩]
    body := [.assert ⟨"ready", .unknown, false⟩ (some ⟨600⟩) onLapse] }

def waited (onLapse : OnLapse) : World Nat :=
  (exec site (.apply (plan onLapse) [] {}) (smallWorld ["web"])).2

def reaped (onLapse : OnLapse) : World Nat := (exec site .reap (waited onLapse)).2

def wait : Wait where
  step := 1
  reason := "unknown guard ready"
  since := ⟨5000⟩
  bound := some ⟨5600⟩
  guard := some "ready"

/-- The last thing told, if it is a wait left. -/
def lastLeft : List Act → Option (String × Option Wait × Event × State)
  | .left id wait ev s :: _ => some (id, wait, ev, s)
  | _ => none

theorem eq_of_lastLeft {acts before new : List Act} {id : String} {wait : Option Wait} {ev : Event}
    {s : State} (h : acts = new ++ before) (hlen : acts.length = before.length + 1)
    (hl : lastLeft acts = some (id, wait, ev, s)) :
    acts = [] ++ .left id wait ev s :: ([] ++ before) := by
  subst h
  have hnew : new.length = 1 := by
    rw [List.length_append] at hlen
    omega
  obtain ⟨a, rfl⟩ := List.length_eq_one_iff.mp hnew
  cases a with
  | left =>
      cases Option.some.inj hl
      rfl
  | _ => cases hl

theorem told_lapsed (onLapse : OnLapse) : (waited onLapse).up = true ∧
    (reaped onLapse).acts.length = (waited onLapse).acts.length + 1 ∧
    lastLeft (reaped onLapse).acts =
      some ("p.web.00000000", some wait, .boundLapses, .reverting) := by
  cases onLapse <;> decide +kernel

theorem run_reaped (onLapse : OnLapse) : Run site (reaped onLapse) := by
  have h : Run site (waited onLapse) :=
    Run.exec (.start (begins_smallWorld _) trivial) (.apply (plan onLapse) [] {}) rfl
  exact h.exec .reap (told_lapsed onLapse).1

theorem later_reaped (onLapse : OnLapse) :
    RunOf site (· = waited onLapse) Verb.beginsNone (fun _ => True) (reaped onLapse) := by
  have h : RunOf site (· = waited onLapse) Verb.beginsNone (fun _ => True) (waited onLapse) :=
    .start rfl trivial
  exact h.verb .reap trivial (told_lapsed onLapse).1 trivial

/-- The pass finds the wait lapsed, and reverts. -/
theorem acts_reaped (onLapse : OnLapse) : (reaped onLapse).acts =
    [] ++ .left "p.web.00000000" (some wait) .boundLapses .reverting :: ([] ++ (waited onLapse).acts) := by
  obtain ⟨new, hnew, -⟩ := toldSince (later_reaped onLapse)
  exact eq_of_lastLeft hnew (told_lapsed onLapse).2.1 (told_lapsed onLapse).2.2

/-- It reverts where the assertion declares a hold and the plan is manual. -/
theorem hold_reverts : Run site (reaped .hold) ∧ checkClean (plan .hold) = true ∧
    Act.left "p.web.00000000" (some wait) .boundLapses .reverting ∈ (reaped .hold).acts ∧
    lapsePolicy (plan .hold).plan wait.step = .held := by
  refine ⟨run_reaped .hold, by decide +kernel, ?_, by decide⟩
  rw [acts_reaped]
  exact List.mem_cons_self

/-- And as declared where it declares none. -/
theorem revert_reverts : ∃ r, (waited .revert).instances.read "p.web.00000000" = some r ∧
    (State.reverting = lapsePolicy r.plan wait.step ↔ ¬HoldUnseen r.plan wait.step) :=
  lapse_policy_iff (later_reaped .revert) (acts_reaped .revert)

end UnseenHold

end Rescind
