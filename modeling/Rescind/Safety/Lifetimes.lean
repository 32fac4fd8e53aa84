/-
# `Rescind.Safety.Lifetimes` — the artifact's deadline and the plan's

A plan's triggers are read twice: `effectiveWane` takes the first
`unless_confirmed:` as the wane of a plan that fires by construction, and anchors
it at the approval; `schedule` takes the last, and anchors it where the artifact is
armed.  `Expiry` is what an instance has of it from its approval on, and a life is
what approvals, armings, renewals and disarmings make of it in any order, those
included that were refused halfway.  A deadline is a word of the machine; what its
triggers declare is the exact sum.  A life is over when the artifact fires: of what
comes after nothing is said.

    the two readings agree                          (`agree_iff`)
    an arming keeps the plan's deadline             (`armed_iff`)
    and so does any other shift                     (`shift_iff`)
    a life whose shifts are timely keeps it         (`enforced_of_life`)
-/
import Mathlib.Data.List.Induction
import Rescind.Safety.Deadlines

namespace Rescind

open Lib

/-! ## Triggers -/

/-- The bound a trigger declares for an arming: a recorded wane stands for
`after:`. -/
def declared (now : Instant) (wane : Option Instant) : Trigger → Option Instant
  | .after d => some (wane.getD (now.plus d))
  | .unlessConfirmed d => some (now.plus d)
  | .unlessHeartbeat _ _ => none

/-- The durations of the `unless_confirmed:` triggers. -/
def confirms (ts : List Trigger) : List Duration :=
  ts.filterMap fun
    | .unlessConfirmed d => some d
    | _ => none

/-- Every one of them is a word. -/
def Sized (p : Plan) : Prop := ∀ d ∈ confirms (triggersOf p), d.seconds < 2 ^ 64

section

variable {o : Overflow} {now : Instant} {wane : Option Instant} {ts : List Trigger} {s : Schedule}

/-- A schedule takes its triggers one after the other. -/
theorem schedule_concat (ts : List Trigger) (t : Trigger) (now : Instant) (wane : Option Instant) :
    Words.schedule o (ts ++ [t]) now wane =
      (Words.schedule o ts now wane).bind fun s => Words.scheduled o now wane s t := by
  rw [Words.schedule, List.foldlM_append]
  refine congrArg _ (funext fun s => ?_)
  rw [List.foldlM_cons]
  exact bind_pure _

theorem confirms_concat (ts : List Trigger) (t : Trigger) :
    confirms (ts ++ [t]) = confirms ts ++ confirms [t] := List.filterMap_append ..

/-- Without `after:` the schedule's deadline is the last confirmation's. -/
theorem schedule_confirms (h : ∀ d, .after d ∉ ts) (hs : Words.schedule o ts now wane = some s) :
    match (confirms ts).getLast? with
    | none => s.deadline = none
    | some d => ∃ i, Words.plus o now d = some i ∧ s.deadline = some i := by
  induction ts using List.reverseRecOn generalizing s with
  | nil =>
      obtain rfl := Option.some.inj hs
      rfl
  | append_singleton ts t ih =>
      rw [schedule_concat] at hs
      obtain ⟨s₀, h₀, hs⟩ := Option.bind_eq_some_iff.mp hs
      have ih := ih (fun d hd => h d (List.mem_append_left _ hd)) h₀
      rw [confirms_concat]
      cases t with
      | after d => exact absurd (List.mem_append_right _ List.mem_cons_self) (h d)
      | unlessConfirmed d =>
          obtain ⟨i, hi, rfl⟩ := Option.map_eq_some_iff.mp hs
          rw [show confirms [Trigger.unlessConfirmed d] = [d] from rfl, List.getLast?_concat]
          exact ⟨i, hi, rfl⟩
      | unlessHeartbeat d i =>
          obtain rfl := Option.some.inj hs
          rw [show confirms [Trigger.unlessHeartbeat d i] = [] from rfl, List.append_nil]
          exact ih

/-- With `after:` alone it is the recorded wane. -/
theorem schedule_after {w : Instant} (h : confirms ts = []) (ha : ∃ d, .after d ∈ ts)
    (hs : Words.schedule o ts now (some w) = some s) : s.deadline = some w := by
  induction ts using List.reverseRecOn generalizing s with
  | nil =>
      obtain ⟨d, hd⟩ := ha
      cases hd
  | append_singleton ts t ih =>
      rw [schedule_concat] at hs
      obtain ⟨s₀, h₀, hs⟩ := Option.bind_eq_some_iff.mp hs
      rw [confirms_concat, List.append_eq_nil_iff] at h
      cases t with
      | after d =>
          obtain rfl := Option.some.inj hs
          rfl
      | unlessConfirmed d => cases h.2
      | unlessHeartbeat d i =>
          obtain rfl := Option.some.inj hs
          obtain ⟨e, he⟩ := ha
          show s₀.deadline = some w
          refine ih h.1 ⟨e, ?_⟩ h₀
          rcases List.mem_append.mp he with he | he
          · exact he
          · cases List.mem_singleton.mp he

end

/-! ## What the check leaves -/

section Clean

variable {ir : PlanIr} {b : Backstop}

theorem triggerViolations_of_checkClean (h : checkClean ir = true) {i : Intent}
    (hi : inferIntent ir.plan = some i) : triggerViolations i ir.plan = [] := by
  rw [checkClean, List.isEmpty_iff] at h
  delta check at h
  simp only [List.append_eq_nil_iff, hi,
    List.map_eq_nil_iff] at h
  exact h.1.1.1.1.1.2

theorem intent_of_checkClean (h : checkClean ir = true) : ∃ i, inferIntent ir.plan = some i := by
  have hf : flag (inferIntent ir.plan).isNone .e0501 none = [] := by
    rw [checkClean, List.isEmpty_iff] at h
    delta check at h
    simp only [List.append_eq_nil_iff] at h
    exact h.1.1.1.1.2
  cases hi : inferIntent ir.plan with
  | some i => exact ⟨i, rfl⟩
  | none =>
      rw [hi] at hf
      cases hf

/-- A temporary plan whose backstop does not fire by construction expires by
`after:` alone, at its wane. -/
structure Dated (p : Plan) (ts : List Trigger) : Prop where
  wane : ∀ d, .after d ∈ ts → effectiveWane p = some d
  unconfirmed : confirms ts = []
  after : ∃ d, .after d ∈ ts

theorem dated_of_checkClean (h : checkClean ir = true) (hi : inferIntent ir.plan = some .temporary)
    (hf : ir.plan.firesByConstruction = false) (hb : ir.plan.backstop = some b) :
    Dated ir.plan b.triggers := by
  have ht := triggerViolations_of_checkClean h hi
  simp only [triggerViolations, hb, hf, Bool.false_eq_true, if_false, List.append_eq_nil_iff,
    List.map_eq_nil_iff, List.filter_eq_nil_iff] at ht
  obtain ⟨⟨hwane, hconf⟩, hafter⟩ := ht
  refine ⟨?_, ?_, ?_⟩
  · intro d hd
    have hw : ¬decide (some d ≠ effectiveWane ir.plan) = true := hwane _ hd
    by_contra hne
    exact hw (decide_eq_true (Ne.symm hne))
  · rw [confirms, List.filterMap_eq_nil_iff]
    intro t ht
    have hc := hconf t ht
    cases t with
    | unlessConfirmed d => simp [Trigger.isUnlessConfirmed] at hc
    | after d => rfl
    | unlessHeartbeat d i => rfl
  · by_contra hn
    push Not at hn
    have hnil : b.triggers.filter Trigger.isAfter = [] := by
      rw [List.filter_eq_nil_iff]
      intro t ht
      cases t with
      | after d => exact absurd ht (hn d)
      | unlessConfirmed d => simp [Trigger.isAfter]
      | unlessHeartbeat d i => simp [Trigger.isAfter]
    rw [hnil] at hafter
    cases hafter

/-- Any other plan has no `after:`. -/
theorem no_after_of_checkClean (h : checkClean ir = true)
    (hi : inferIntent ir.plan = some .temporary → ir.plan.firesByConstruction = true) (d : Duration) :
    .after d ∉ triggersOf ir.plan := by
  intro hd
  cases hb : ir.plan.backstop with
  | none => simp [triggersOf, hb] at hd
  | some b =>
      rw [triggersOf, hb, Option.map_some, Option.getD_some] at hd
      have hm : .after d ∈ b.triggers.filter Trigger.isAfter := List.mem_filter.mpr ⟨hd, rfl⟩
      obtain ⟨i, hint⟩ := intent_of_checkClean h
      have ht := triggerViolations_of_checkClean h hint
      have hnil : b.triggers.filter Trigger.isAfter = [] := by
        cases i with
        | temporary => simpa [triggerViolations, hb, hi hint] using ht
        | permanent =>
            simp only [triggerViolations, hb, List.append_eq_nil_iff, List.map_eq_nil_iff] at ht
            exact ht.1
      rw [hnil] at hm
      cases hm

end Clean

/-! ## The life of an expiry -/

/-- What an instance has of its expiry: its wane deadline, whether its record has
the artifact armed, the deadline the artifact reads on its target, and the bounds its
triggers declare. -/
structure Expiry where
  deadline : Option Instant
  armed : Bool := false
  file : Option Instant := none
  bounds : List Instant := []
  deriving DecidableEq, Repr

/-- What becomes of it. -/
inductive Shift where
  /-- An arming writes the deadline; one that is not `recorded` is refused after that. -/
  | arm (now : Instant) (sched : Schedule) (recorded : Bool)
  | renew (d : Instant)
  /-- A renewal writes the deadline, and is refused after that. -/
  | slip (d : Instant)
  /-- The deadline is taken away; the record may go on having the artifact armed. -/
  | disarm (armed : Bool)

/-- A renewal moves the deadline, and of an armed artifact every bound. -/
def Expiry.by_ (p : Plan) (x : Expiry) : Shift → Expiry
  | .arm now sched recorded =>
      { x with
        armed := recorded
        file := sched.deadline.or x.file
        bounds := (triggersOf p).filterMap (declared now x.deadline) }
  | .renew d =>
      if x.armed then { deadline := some d, armed := true, file := some d, bounds := [d] }
      else { x with deadline := some d }
  | .slip d => { x with file := some d }
  | .disarm armed => { x with armed := x.armed && armed, file := none, bounds := [] }

/-- The deadline an approval gives: a temporary plan wanes. -/
def wanesAt (o : Overflow) (p : Plan) (now : Instant) : Option (Option Instant) :=
  if inferIntent p = some .permanent then some none else Words.later o now (effectiveWane p)

/-- A renewal to this deadline is admitted. -/
inductive Renewable (o : Overflow) (p : Plan) (x : Expiry) (d : Instant) : Prop where
  | intro {now deadline : Instant} {within wane : Duration} (expires : x.deadline = some deadline)
      (renewable : p.renewWithin = some within)
      (opens : Words.renewAt o now deadline within wane = some (.ok d))

/-- Where a shift may happen. -/
inductive Able (o : Overflow) (p : Plan) (x : Expiry) : Shift → Prop where
  | arm {now : Instant} {sched : Schedule} {recorded : Bool} (backstop : p.backstop.isSome = true)
      (unarmed : x.armed = false) (clock : now.unixS < 2 ^ 64)
      (derived : Words.schedule o (triggersOf p) now x.deadline = some sched) :
      Able o p x (.arm now sched recorded)
  | renew {d : Instant} (h : Renewable o p x d) : Able o p x (.renew d)
  | slip {d : Instant} (armed : x.armed = true) (h : Renewable o p x d) : Able o p x (.slip d)
  | disarm {armed : Bool} : Able o p x (.disarm armed)

/-- An instance's life from its approval on, every shift of which is as `C` says. -/
inductive Life (o : Overflow) (p : Plan) (C : Expiry → Shift → Prop) : Expiry → Prop where
  | approve {now : Instant} {deadline : Option Instant} (h : wanesAt o p now = some deadline) :
      Life o p C { deadline := deadline }
  | shift {x : Expiry} {m : Shift} (h : Life o p C x) (able : Able o p x m) (hc : C x m) :
      Life o p C (x.by_ p m)

/-- The earliest of the bounds, and none only where there is none. -/
def Earliest (bounds : List Instant) : Option Instant → Prop
  | none => bounds = []
  | some e => e ∈ bounds ∧ ∀ b ∈ bounds, e.unixS ≤ b.unixS

/-- The artifact enforces the earliest bound, for a temporary plan not later than
its wane deadline. -/
structure Enforced (p : Plan) (x : Expiry) : Prop where
  waning : inferIntent p = some .temporary → ∀ e, x.file = some e →
    ∃ d, x.deadline = some d ∧ e.unixS ≤ d.unixS
  earliest : Earliest x.bounds x.file

/-- At any instant the schedule derives from a temporary plan's triggers the
deadline its effective wane does. -/
def Agrees (o : Overflow) (p : Plan) : Prop :=
  inferIntent p = some .temporary → p.backstop.isSome = true → ∀ now wane sched,
    Words.later o now (effectiveWane p) = some wane →
    Words.schedule o (triggersOf p) now wane = some sched → sched.deadline = wane

/-- The last `unless_confirmed:` is the first. -/
def SameConfirm (p : Plan) : Prop :=
  inferIntent p = some .temporary →
    (confirms (triggersOf p)).head? = (confirms (triggersOf p)).getLast?

/-- The last `unless_confirmed:` is the shortest, from the arming it counts to an
instant of the machine's, and for a temporary plan to none after its wane deadline. -/
def Prompt (p : Plan) (now : Instant) (x : Expiry) : Prop :=
  ∀ d, (confirms (triggersOf p)).getLast? = some d →
    (∀ d' ∈ confirms (triggersOf p), d.seconds ≤ d'.seconds) ∧ now.unixS + d.seconds < 2 ^ 64 ∧
    (inferIntent p = some .temporary →
      ∃ e, x.deadline = some e ∧ now.unixS + d.seconds ≤ e.unixS)

/-- An arming is prompt; a renewal that does not reach the artifact leaves it no
deadline after the new one; and one that is refused leaves it the one it had. -/
def Timely (p : Plan) (x : Expiry) : Shift → Prop
  | .arm now _ _ => Prompt p now x
  | .renew d => x.armed = false → ∀ e, x.file = some e → e.unixS ≤ d.unixS
  | .slip d => x.file = some d
  | .disarm _ => True

/-! ## The bounds of a clean plan -/

section

variable {o : Overflow} {ir : PlanIr} {p : Plan} {ts : List Trigger} {x : Expiry} {now : Instant}

/-- Without `after:` the bounds are the confirmations'. -/
theorem bounds_confirms (h : ∀ d, .after d ∉ ts) (now : Instant) (wane : Option Instant) :
    ts.filterMap (declared now wane) = (confirms ts).map now.plus := by
  induction ts with
  | nil => rfl
  | cons t ts ih =>
      have ih := ih fun d hd => h d (List.mem_cons_of_mem _ hd)
      cases t with
      | after d => exact absurd List.mem_cons_self (h d)
      | unlessConfirmed d => exact congrArg (now.plus d :: ·) ih
      | unlessHeartbeat d i => exact ih

/-- Where the plan is dated they are all at the wane deadline, and there is one. -/
theorem bounds_dated (h : Dated p ts) (now d : Instant) :
    Earliest (ts.filterMap (declared now (some d))) (some d) := by
  constructor
  · obtain ⟨e, he⟩ := h.after
    exact List.mem_filterMap.mpr ⟨_, he, rfl⟩
  · intro b hb
    obtain ⟨t, ht, hd⟩ := List.mem_filterMap.mp hb
    cases t with
    | after e =>
        obtain rfl : d = b := Option.some.inj hd
        exact Nat.le_refl _
    | unlessConfirmed e =>
        have hm : e ∈ confirms ts := List.mem_filterMap.mpr ⟨_, ht, rfl⟩
        rw [h.unconfirmed] at hm
        cases hm
    | unlessHeartbeat e i => cases hd

/-- The wane of a plan that fires by construction is its first confirmation's. -/
theorem effectiveWane_confirms (hi : inferIntent p = some .temporary)
    (hf : p.firesByConstruction = true) : effectiveWane p = (confirms (triggersOf p)).head? := by
  have hw : p.wane = none := by
    cases hw : p.wane with
    | none => rfl
    | some d => simp [inferIntent, hf, hw] at hi
  rw [effectiveWane, hw, if_pos hf, triggersOf, confirms]
  cases p.backstop with
  | none => rfl
  | some b => exact (List.head?_filterMap).symm

/-- A clean temporary plan with a backstop is dated, or its confirmations are its
triggers and its wane the first. -/
theorem dated_or_confirms (h : checkClean ir = true) (hi : inferIntent ir.plan = some .temporary)
    (hb : ir.plan.backstop.isSome = true) :
    Dated ir.plan (triggersOf ir.plan) ∨
      (∀ d, .after d ∉ triggersOf ir.plan) ∧
        effectiveWane ir.plan = (confirms (triggersOf ir.plan)).head? := by
  cases hf : ir.plan.firesByConstruction with
  | true => exact .inr ⟨no_after_of_checkClean h fun _ => hf, effectiveWane_confirms hi hf⟩
  | false =>
      obtain ⟨b, hb⟩ := Option.isSome_iff_exists.mp hb
      rw [triggersOf, hb]
      exact .inl (dated_of_checkClean h hi hf hb)

/-! ## Agreement -/

theorem plus_injective (now : Instant) : Function.Injective now.plus := by
  intro d e h
  have hs : now.unixS + d.seconds = now.unixS + e.seconds := congrArg Instant.unixS h
  cases d
  cases e
  congr
  exact Nat.add_left_cancel hs

/-- **The two readings of the triggers agree exactly where the first and the last
`unless_confirmed:` are the same.** -/
theorem agree_iff (h : checkClean ir = true) (hz : Sized ir.plan) :
    Agrees o ir.plan ↔ SameConfirm ir.plan := by
  by_cases hi : inferIntent ir.plan = some .temporary
  swap
  · exact iff_of_true (fun hn => absurd hn hi) fun hn => absurd hn hi
  by_cases hb : ir.plan.backstop.isSome = true
  swap
  · have hts : triggersOf ir.plan = [] := by
      rw [triggersOf, Option.not_isSome_iff_eq_none.mp hb]
      rfl
    exact iff_of_true (fun _ hn => absurd hn hb) fun _ => by rw [hts]; rfl
  rcases dated_or_confirms h hi hb with hd | ⟨ha, hw⟩
  · obtain ⟨d, hm⟩ := hd.after
    refine iff_of_true ?_ fun _ => by rw [hd.unconfirmed]; rfl
    intro _ _ now wane sched hl hs
    rw [hd.wane d hm, Words.later] at hl
    obtain ⟨i, -, rfl⟩ := Option.map_eq_some_iff.mp hl
    exact schedule_after hd.unconfirmed hd.after hs
  constructor
  · intro hg _
    -- at the first instant every sum fits
    have hfits : ∀ d ∈ confirms (triggersOf ir.plan), (⟨0⟩ : Instant).unixS + d.seconds < 2 ^ 64 := by
      intro d hd
      rw [Nat.zero_add]
      exact hz d hd
    have hlater : Words.later o ⟨0⟩ (effectiveWane ir.plan) =
        some ((effectiveWane ir.plan).map (⟨0⟩ : Instant).plus) := by
      refine Deadline.later_fits fun d hd => hfits d ?_
      rw [hw, Option.mem_toList] at hd
      exact List.mem_of_head? hd
    have htriggers : ∀ t ∈ triggersOf ir.plan,
        Deadline.TriggerFits ⟨0⟩ ((effectiveWane ir.plan).map (⟨0⟩ : Instant).plus) t := by
      intro t ht d hd
      cases t with
      | after e => exact absurd ht (ha e)
      | unlessConfirmed e =>
          obtain rfl := Option.some.inj hd
          exact hfits _ (List.mem_filterMap.mpr ⟨_, ht, rfl⟩)
      | unlessHeartbeat e i => cases hd
    have hsched := Deadline.schedule_fits (o := o) htriggers
    have he := hg hi hb ⟨0⟩ _ _ hlater hsched
    have hlast := schedule_confirms ha hsched
    cases hl : (confirms (triggersOf ir.plan)).getLast? with
    | none =>
        rw [List.getLast?_eq_none_iff.mp hl]
        rfl
    | some d =>
        simp only [hl] at hlast
        obtain ⟨i, hp, hs⟩ := hlast
        rw [Deadline.plus_fits (hfits d (List.mem_of_getLast? hl))] at hp
        obtain rfl := Option.some.inj hp
        rw [hs, hw] at he
        exact Option.map_injective (plus_injective ⟨0⟩) he.symm
  · intro hs _ _ now wane sched hl hsched
    have hlast := schedule_confirms ha hsched
    rw [hw, hs hi] at hl
    cases hc : (confirms (triggersOf ir.plan)).getLast? with
    | none =>
        simp only [hc] at hlast
        rw [hc] at hl
        rw [hlast]
        exact Option.some.inj hl
    | some d =>
        simp only [hc] at hlast
        obtain ⟨i, hp, hd⟩ := hlast
        rw [hc, Words.later, hp] at hl
        rw [hd]
        exact Option.some.inj hl

/-! ## What a life rests on -/

/-- A trigger declares a bound. -/
def Timed (p : Plan) : Prop := ∃ t ∈ triggersOf p, t.isHeartbeat = false

theorem timed_of_schedule {wane : Option Instant} {s : Schedule} {e : Instant}
    (h : Words.schedule o ts now wane = some s) (he : s.deadline = some e) :
    ∃ t ∈ ts, t.isHeartbeat = false := by
  induction ts using List.reverseRecOn generalizing s with
  | nil =>
      obtain rfl := Option.some.inj h
      cases he
  | append_singleton ts t ih =>
      rw [schedule_concat] at h
      obtain ⟨s₀, h₀, hs⟩ := Option.bind_eq_some_iff.mp h
      cases t with
      | after d | unlessConfirmed d =>
          exact ⟨_, List.mem_append_right _ List.mem_cons_self, rfl⟩
      | unlessHeartbeat d i =>
          obtain rfl := Option.some.inj hs
          obtain ⟨t, ht, hb⟩ := ih h₀ he
          exact ⟨t, List.mem_append_left _ ht, hb⟩

theorem not_timed (ha : ∀ d, .after d ∉ triggersOf p) (hc : confirms (triggersOf p) = []) :
    ¬Timed p := by
  intro h
  obtain ⟨t, ht, hb⟩ := h
  cases t with
  | after d => exact ha d ht
  | unlessConfirmed d =>
      have hm : d ∈ confirms (triggersOf p) := List.mem_filterMap.mpr ⟨_, ht, rfl⟩
      rw [hc] at hm
      cases hm
  | unlessHeartbeat d i => cases hb

theorem timed_of_wane (h : checkClean ir = true) (hi : inferIntent ir.plan = some .temporary)
    (hb : ir.plan.backstop.isSome = true) (hw : (effectiveWane ir.plan).isSome = true) :
    Timed ir.plan := by
  rcases dated_or_confirms h hi hb with hd | ⟨-, he⟩
  · obtain ⟨d, hd⟩ := hd.after
    exact ⟨_, hd, rfl⟩
  · rw [he] at hw
    obtain ⟨d, hd⟩ := Option.isSome_iff_exists.mp hw
    obtain ⟨t, ht, hd⟩ := List.mem_filterMap.mp (List.mem_of_head? hd)
    cases t with
    | unlessConfirmed d => exact ⟨_, ht, rfl⟩
    | after d | unlessHeartbeat d i => cases hd

/-- A plan with a wane has a deadline from its approval on, and an artifact has one
only of a plan that declares a bound. -/
structure Founded (p : Plan) (x : Expiry) : Prop where
  dated : x.deadline.isSome = true ↔
    inferIntent p ≠ some .permanent ∧ (effectiveWane p).isSome = true
  backed : x.armed = true → p.backstop.isSome = true
  filed : ∀ e, x.file = some e → Timed p

theorem founded_approved {deadline : Option Instant} (h : wanesAt o p now = some deadline) :
    Founded p { deadline := deadline } where
  dated := by
    rw [wanesAt] at h
    split at h
    next hp =>
      obtain rfl := Option.some.inj h
      simp [hp]
    next hp =>
      cases hw : effectiveWane p with
      | none =>
          rw [hw] at h
          obtain rfl := Option.some.inj h
          simp
      | some d =>
          rw [hw] at h
          obtain ⟨i, -, rfl⟩ := Option.map_eq_some_iff.mp h
          simp [hp]
  backed h := by cases h
  filed e he := by cases he

theorem Founded.temporary (h : checkClean ir = true) (hx : Founded ir.plan x)
    (hs : x.deadline.isSome = true) : inferIntent ir.plan = some .temporary := by
  obtain ⟨i, hi⟩ := intent_of_checkClean h
  cases i with
  | temporary => exact hi
  | permanent => exact absurd hi (hx.dated.mp hs).1

theorem Renewable.isSome {d : Instant} (h : Renewable o p x d) : x.deadline.isSome = true := by
  cases h with
  | intro expires => rw [expires]; rfl

/-- An artifact is renewed only of a plan that declares a bound. -/
theorem Founded.timed (h : checkClean ir = true) (hx : Founded ir.plan x) (ha : x.armed = true)
    (hs : x.deadline.isSome = true) : Timed ir.plan :=
  timed_of_wane h (hx.temporary h hs) (hx.backed ha) (hx.dated.mp hs).2

theorem founded_by {m : Shift} (h : checkClean ir = true) (hx : Founded ir.plan x)
    (able : Able o ir.plan x m) : Founded ir.plan (x.by_ ir.plan m) := by
  cases able with
  | @arm now sched recorded backstop unarmed clock derived =>
      refine ⟨hx.dated, fun _ => backstop, fun e he => ?_⟩
      rcases Option.or_eq_some_iff.mp he with hs | ⟨-, hf⟩
      · exact timed_of_schedule derived hs
      · exact hx.filed e hf
  | @renew d hr =>
      have hs := hr.isSome
      cases ha : x.armed with
      | true =>
          simp only [Expiry.by_, ha, if_true]
          exact ⟨iff_of_true rfl (hx.dated.mp hs), fun _ => hx.backed ha,
            fun _ _ => hx.timed h ha hs⟩
      | false =>
          simp only [Expiry.by_, ha, Bool.false_eq_true, if_false]
          refine ⟨iff_of_true rfl (hx.dated.mp hs), fun hn => ?_, hx.filed⟩
          cases hn
  | slip ha hr => exact ⟨hx.dated, hx.backed, fun _ _ => hx.timed h ha hr.isSome⟩
  | disarm =>
      refine ⟨hx.dated, fun ha => hx.backed ?_, fun e he => by cases he⟩
      exact (Bool.and_eq_true_iff.mp ha).1

/-! ## Armings -/

theorem earliest_some {bs : List Instant} {e : Instant} :
    Earliest bs (some e) ↔ e ∈ bs ∧ ∀ b ∈ bs, e.unixS ≤ b.unixS := Iff.rfl

/-- A list of bounds has one earliest. -/
theorem Earliest.unique {bs : List Instant} {e d : Instant} (he : Earliest bs (some e))
    (hd : Earliest bs (some d)) : e = d := by
  have hle : e.unixS = d.unixS := Nat.le_antisymm (he.2 d hd.1) (hd.2 e he.1)
  cases e
  cases d
  congr

section

variable {s : Schedule} {recorded : Bool}

/-- An arming of a dated plan is at its wane deadline. -/
theorem armed_dated {d : Instant} (hd : Dated p (triggersOf p)) (hx : x.deadline = some d)
    (hs : Words.schedule o (triggersOf p) now x.deadline = some s) :
    Enforced p (x.by_ p (.arm now s recorded)) := by
  have hb := bounds_dated hd now d
  rw [hx] at hs
  have hfile : (x.by_ p (.arm now s recorded)).file = some d := by
    rw [Expiry.by_, schedule_after hd.unconfirmed hd.after hs]
    rfl
  refine ⟨fun _ e he => ?_, ?_⟩
  · obtain rfl := Option.some.inj (hfile.symm.trans he)
    exact ⟨d, hx, Nat.le_refl _⟩
  · rw [hfile]
    show Earliest ((triggersOf p).filterMap (declared now x.deadline)) (some d)
    rw [hx]
    exact hb

/-- An arming by confirmations is as prompt as they are: one whose sum does not fit
is before the clock, and so before every bound. -/
theorem armed_confirms (ha : ∀ d, .after d ∉ triggersOf p) (hz : Sized p) (hn : now.unixS < 2 ^ 64)
    (hx : Founded p x) (hs : Words.schedule o (triggersOf p) now x.deadline = some s) :
    Enforced p (x.by_ p (.arm now s recorded)) ↔ Prompt p now x := by
  have hbounds : (x.by_ p (.arm now s recorded)).bounds = (confirms (triggersOf p)).map now.plus :=
    bounds_confirms ha now x.deadline
  have hfile : (x.by_ p (.arm now s recorded)).file = s.deadline.or x.file := rfl
  have hlast := schedule_confirms ha hs
  cases hl : (confirms (triggersOf p)).getLast? with
  | none =>
      have hnil := List.getLast?_eq_none_iff.mp hl
      simp only [hl] at hlast
      have hnone : x.file = none := by
        cases hf : x.file with
        | none => rfl
        | some e => exact absurd (hx.filed e hf) (not_timed ha hnil)
      rw [hlast, hnone] at hfile
      refine iff_of_true ⟨fun _ e he => ?_, ?_⟩ ?_
      · cases hfile.symm.trans he
      · rw [hfile, hbounds, hnil]
        rfl
      · intro d hd
        rw [hl] at hd
        cases hd
  | some d =>
      simp only [hl] at hlast
      obtain ⟨i, hp, hi⟩ := hlast
      have hmem := List.mem_of_getLast? hl
      rw [hi, Option.some_or] at hfile
      by_cases hfits : now.unixS + d.seconds < 2 ^ 64
      · rw [Deadline.plus_fits hfits] at hp
        obtain rfl := Option.some.inj hp
        have hearliest : Earliest (x.by_ p (.arm now s recorded)).bounds (some (now.plus d)) ↔
            ∀ d' ∈ confirms (triggersOf p), d.seconds ≤ d'.seconds := by
          rw [hbounds, earliest_some, and_iff_right (List.mem_map.mpr ⟨d, hmem, rfl⟩),
            List.forall_mem_map]
          exact forall₂_congr fun d' _ => Nat.add_le_add_iff_left
        constructor
        · intro h e he
          obtain rfl := Option.some.inj (hl.symm.trans he)
          have he := h.earliest
          rw [hfile] at he
          exact ⟨hearliest.mp he, hfits, fun hi => h.waning hi _ hfile⟩
        · intro h
          obtain ⟨hleast, -, hwane⟩ := h d hl
          refine ⟨fun hi e he => ?_, ?_⟩
          · obtain rfl := Option.some.inj (hfile.symm.trans he)
            exact hwane hi
          · rw [hfile]
            exact hearliest.mpr hleast
      · have hpast := (Deadline.plus_past hn (hz d hmem) hfits hp).2
        refine iff_of_false ?_ fun h => hfits (h d hl).2.1
        intro h
        have he := h.earliest
        rw [hfile, hbounds] at he
        obtain ⟨d', -, rfl⟩ := List.mem_map.mp he.1
        exact absurd hpast (Nat.not_lt.mpr (Nat.le_add_right _ _))

/-- **An arming enforces what the plan declares exactly where it is prompt.** -/
theorem armed_iff (h : checkClean ir = true) (hz : Sized ir.plan) (hn : now.unixS < 2 ^ 64)
    (hx : Founded ir.plan x) (hb : ir.plan.backstop.isSome = true)
    (hs : Words.schedule o (triggersOf ir.plan) now x.deadline = some s) :
    Enforced ir.plan (x.by_ ir.plan (.arm now s recorded)) ↔ Prompt ir.plan now x := by
  by_cases hi : inferIntent ir.plan = some .temporary
  · rcases dated_or_confirms h hi hb with hd | ⟨ha, -⟩
    · obtain ⟨d, hm⟩ := hd.after
      have hx : x.deadline.isSome = true := by
        refine hx.dated.mpr ⟨by rw [hi]; simp, ?_⟩
        rw [hd.wane d hm]
        rfl
      obtain ⟨e, he⟩ := Option.isSome_iff_exists.mp hx
      refine iff_of_true (armed_dated hd he hs) fun d hl => ?_
      rw [hd.unconfirmed] at hl
      cases hl
    · exact armed_confirms ha hz hn hx hs
  · exact armed_confirms (no_after_of_checkClean h fun hn => absurd hn hi) hz hn hx hs

end

/-! ## Lives -/

variable {C : Expiry → Shift → Prop}

theorem founded (h : checkClean ir = true) (hl : Life o ir.plan C x) : Founded ir.plan x := by
  induction hl with
  | approve ha => exact founded_approved ha
  | shift _ able _ ih => exact founded_by h ih able

/-- Once the wane has moved, what the artifact enforces is kept where it is moved
with it, or is earlier. -/
theorem renewed_iff {d : Instant} (h : checkClean ir = true) (hx : Founded ir.plan x)
    (he : Enforced ir.plan x) (hr : Renewable o ir.plan x d) :
    Enforced ir.plan (x.by_ ir.plan (.renew d)) ↔ Timely ir.plan x (.renew d) := by
  have hi := hx.temporary h hr.isSome
  cases ha : x.armed with
  | true =>
      simp only [Expiry.by_, ha, if_true]
      refine iff_of_true ⟨fun _ e he => ?_, ?_⟩ fun hn => by rw [ha] at hn; cases hn
      · obtain rfl := Option.some.inj he
        exact ⟨d, rfl, Nat.le_refl _⟩
      · refine ⟨List.mem_singleton.mpr rfl, fun b hb => ?_⟩
        obtain rfl := List.mem_singleton.mp hb
        exact Nat.le_refl _
  | false =>
      simp only [Expiry.by_, ha, Bool.false_eq_true, if_false]
      constructor
      · intro hk _ e hf
        obtain ⟨d', hd, hle⟩ := hk.waning hi e hf
        obtain rfl := Option.some.inj hd
        exact hle
      · intro ht
        exact ⟨fun _ e hf => ⟨d, rfl, ht ha e hf⟩, he.earliest⟩

/-- A deadline that is moved alone is no longer what is declared. -/
theorem slipped_iff {d : Instant} (he : Enforced p x) :
    Enforced p (x.by_ p (.slip d)) ↔ Timely p x (.slip d) := by
  constructor
  · intro hk
    have hd : Earliest x.bounds (some d) := hk.earliest
    cases hf : x.file with
    | none =>
        have hnil := he.earliest
        rw [hf] at hnil
        rw [show x.bounds = [] from hnil] at hd
        cases hd.1
    | some e =>
        have hfile := he.earliest
        rw [hf] at hfile
        rw [Timely, hf, hfile.unique hd]
  · intro hf
    have hsame : x.by_ p (.slip d) = x := by
      rw [Expiry.by_, ← show x.file = some d from hf]
    rwa [hsame]

/-- **What the artifact enforces is kept by a shift exactly where it is timely.** -/
theorem shift_iff {m : Shift} (h : checkClean ir = true) (hz : Sized ir.plan)
    (hl : Life o ir.plan C x) (he : Enforced ir.plan x) (able : Able o ir.plan x m) :
    Enforced ir.plan (x.by_ ir.plan m) ↔ Timely ir.plan x m := by
  have hx := founded h hl
  cases able with
  | arm backstop _ clock derived => exact armed_iff h hz clock hx backstop derived
  | renew hr => exact renewed_iff h hx he hr
  | slip => exact slipped_iff he
  | disarm =>
      refine iff_of_true ⟨fun _ e hf => ?_, rfl⟩ trivial
      cases hf

/-- And a life of timely shifts keeps it throughout. -/
theorem enforced_of_life (h : checkClean ir = true) (hz : Sized ir.plan)
    (hl : Life o ir.plan (Timely ir.plan) x) : Enforced ir.plan x := by
  induction hl with
  | approve =>
      refine ⟨fun _ e hf => ?_, rfl⟩
      cases hf
  | shift hl able hc ih => exact (shift_iff h hz hl ih able).mpr hc

end

end Rescind
