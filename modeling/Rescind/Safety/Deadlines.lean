/-
# `Rescind.Safety.Deadlines` — when the machine's bounds are the exact ones

A bound is a reading of the clock and a duration added to it, and durations are
any 64-bit count: a plan's text, the site and a renewal may each carry one.
Where a sum or a product does not fit the word, a build with overflow checks
stops in the verb and one without them goes on with an instant before the
clock's reading.

    a sum that does not fit is in the past or stops    (`plus_past`)
    bounds, durations and the heartbeat's check are
      exact where every result fits, and only there    (`deadline_arithmetic_iff`)

When the bounds are looked at is another matter (`Rescind.Safety.Sweeps`).
-/
import Rescind.Engine.Words

namespace Rescind

open Lib

/-! ## Bounds -/

/-- A bound the engine computes, with what it is computed from. -/
inductive Deadline where
  /-- How long an approval is waited for. -/
  | approval (r : InstanceRecord) (g : PlanGate)
  /-- When a plan's effects end, from its approval. -/
  | wane (r : InstanceRecord)
  | wait (r : InstanceRecord) (window : Option Duration)
  /-- When an armed backstop fires. -/
  | arm (r : InstanceRecord)
  /-- When a heartbeat is due. -/
  | heartbeat (st : BackstopState)
  | hold (r : InstanceRecord)
  /-- How long a secret is kept in memory. -/
  | keep (h : Hold) (until_ : Option Instant)
  | renewal (deadline : Instant) (renewWithin length : Duration)

/-- The last heartbeat and the interval the next is due after, where one is
written at all. -/
def awaitedHeartbeat (st : BackstopState) : Option (Instant × Duration) :=
  if st.armed && !st.fired then
    match st.lastHeartbeat, st.intervalS with
    | some last, some interval => some (last, ⟨interval⟩)
    | _, _ => none
  else none

namespace Deadline

/-- As the machine computes it; a refused renewal has none. -/
def run (o : Overflow) (now : Instant) : Deadline → Option (Option Instant)
  | approval r g => Words.approvalDeadline o r g now
  | wane r => Words.waneDeadline o r now
  | wait r window => Words.waitBound o r window now
  | arm r => (Words.schedule o (triggersOf r.plan) now r.deadline).map Schedule.deadline
  | heartbeat st => Words.heartbeatAt o st
  | hold r => Words.holdBound o r now
  | keep h until_ => Words.keptBound o h.duration now until_
  | renewal deadline renewWithin length =>
      (Words.renewAt o now deadline renewWithin length).map Except.toOption

/-- The exact one. -/
def exact (now : Instant) : Deadline → Option Instant
  | approval r g => (g.window.or r.ir.site.maxWait).map now.plus
  | wane r => if r.permanent then r.deadline else (effectiveWane r.plan).map now.plus
  | wait r window => (stepBound r window).map now.plus
  | arm r => (schedule (triggersOf r.plan) now r.deadline).deadline
  | heartbeat st => (awaitedHeartbeat st).map fun h => h.1.plus h.2
  | hold r => if r.permanent then r.ir.site.maxWait.map now.plus else r.deadline
  | keep h until_ => h.bound now until_
  | renewal deadline renewWithin length => (renewAt now deadline renewWithin length).toOption

/-- The instant it counts from: the clock's reading, or the last heartbeat. -/
def base (now : Instant) : Deadline → Instant
  | heartbeat st => ((awaitedHeartbeat st).map Prod.fst).getD now
  | _ => now

/-- What a trigger adds to the clock. -/
def added (wane : Option Instant) : Trigger → Option Duration
  | .after d => if wane.isSome then none else some d
  | .unlessConfirmed d => some d
  | .unlessHeartbeat _ _ => none

/-- The durations it adds. -/
def durations (now : Instant) : Deadline → List Duration
  | approval r g => (g.window.or r.ir.site.maxWait).toList
  | wane r => if r.permanent then [] else (effectiveWane r.plan).toList
  | wait r window => (stepBound r window).toList
  | arm r => (triggersOf r.plan).filterMap (added r.deadline)
  | heartbeat st => ((awaitedHeartbeat st).map Prod.snd).toList
  | hold r => if r.permanent then r.ir.site.maxWait.toList else []
  | keep h _ => h.duration.toList
  | renewal deadline renewWithin length =>
      if expired now deadline || now.unixS < deadline.unixS - renewWithin.seconds then []
      else [length]

/-- The bounds it takes over as they are recorded. -/
def given : Deadline → List Instant
  | wane r | arm r | hold r => r.deadline.toList
  | keep _ until_ => until_.toList
  | _ => []

/-- Every sum it takes fits the word. -/
def Fits (now : Instant) (x : Deadline) : Prop :=
  ∀ d ∈ x.durations now, (x.base now).unixS + d.seconds < 2 ^ 64

/-- A bound taken over, or not before what it is counted from. -/
def Onward (x : Deadline) (now i : Instant) : Prop :=
  i ∈ x.given ∨ (x.base now).unixS ≤ i.unixS

/-- The machine computes the exact bound, and no bound in the past. -/
structure Sound (o : Overflow) (now : Instant) (x : Deadline) : Prop where
  exact : x.run o now = some (x.exact now)
  onward : ∀ i, x.run o now = some (some i) → x.Onward now i

/-! ## One sum -/

variable {o : Overflow} {now : Instant} {d : Duration}

theorem plus_fits (h : now.unixS + d.seconds < 2 ^ 64) : Words.plus o now d = some (now.plus d) := by
  rw [Words.plus, Overflow.word_of_lt h]
  rfl

theorem plus_stops (h : ¬now.unixS + d.seconds < 2 ^ 64) : Words.plus .stops now d = none := by
  rw [Words.plus, Overflow.word_stops (Nat.not_lt.mp h)]
  rfl

/-- **A sum that does not fit stops the verb, or is in the past.** -/
theorem plus_past {i : Instant} (hn : now.unixS < 2 ^ 64) (hd : d.seconds < 2 ^ 64)
    (h : ¬now.unixS + d.seconds < 2 ^ 64) (hi : Words.plus o now d = some i) :
    o = .wraps ∧ i.unixS < now.unixS := by
  cases o with
  | stops =>
      rw [plus_stops h] at hi
      cases hi
  | wraps =>
      obtain ⟨n, hw, rfl⟩ := Option.map_eq_some_iff.mp hi
      exact ⟨rfl, (Overflow.word_add_lt hn hd (Nat.not_lt.mp h) hw).1⟩

variable {x : Option Duration}

theorem later_fits (h : ∀ d ∈ x.toList, now.unixS + d.seconds < 2 ^ 64) :
    Words.later o now x = some (x.map now.plus) := by
  cases x with
  | none => rfl
  | some d =>
      rw [Words.later, plus_fits (h d (by simp))]
      rfl

theorem later_stops (h : ¬∀ d ∈ x.toList, now.unixS + d.seconds < 2 ^ 64) :
    Words.later .stops now x = none := by
  cases x with
  | none => simp at h
  | some d =>
      rw [Option.toList_some, List.forall_mem_singleton] at h
      rw [Words.later, plus_stops h]
      rfl

/-! ## A schedule -/

/-- One trigger's sum fits. -/
def TriggerFits (now : Instant) (wane : Option Instant) (t : Trigger) : Prop :=
  ∀ d ∈ added wane t, now.unixS + d.seconds < 2 ^ 64

/-- What one trigger does to the exact schedule. -/
def scheduleStep (now : Instant) (wane : Option Instant) (s : Schedule) : Trigger → Schedule
  | .after d => { s with deadline := some (wane.getD (now.plus d)) }
  | .unlessConfirmed d => { s with deadline := some (now.plus d) }
  | .unlessHeartbeat deadline interval =>
      { s with
        heartbeatS := some deadline.seconds
        intervalS := some ((interval.map Duration.seconds).getD (deadline.seconds / 3)) }

theorem schedule_eq (ts : List Trigger) (now : Instant) (wane : Option Instant) :
    schedule ts now wane = ts.foldl (scheduleStep now wane) {} := rfl

variable {wane : Option Instant}

theorem scheduled_fits (s : Schedule) (t : Trigger) (h : TriggerFits now wane t) :
    Words.scheduled o now wane s t = some (scheduleStep now wane s t) := by
  cases t with
  | after d =>
      cases wane with
      | some w => rfl
      | none =>
          have hp := plus_fits (o := o) (h d rfl)
          rw [Words.scheduled, hp]
          rfl
  | unlessConfirmed d =>
      have hp := plus_fits (o := o) (h d rfl)
      rw [Words.scheduled, hp]
      rfl
  | unlessHeartbeat deadline interval => rfl

theorem scheduled_stops (s : Schedule) (t : Trigger) (h : ¬TriggerFits now wane t) :
    Words.scheduled .stops now wane s t = none := by
  rw [TriggerFits] at h
  push Not at h
  obtain ⟨d, hd, hlt⟩ := h
  have hp := plus_stops (Nat.not_lt.mpr hlt)
  cases t with
  | after e =>
      cases wane with
      | some w => cases hd
      | none =>
          obtain rfl := Option.some.inj hd
          rw [Words.scheduled, hp]
          rfl
  | unlessConfirmed e =>
      obtain rfl := Option.some.inj hd
      rw [Words.scheduled, hp]
      rfl
  | unlessHeartbeat deadline interval => cases hd

variable {ts : List Trigger}

theorem schedule_fits (h : ∀ t ∈ ts, TriggerFits now wane t) :
    Words.schedule o ts now wane = some (schedule ts now wane) := by
  rw [schedule_eq, Words.schedule, foldlM_fits scheduled_fits h]

theorem schedule_stops (h : ¬∀ t ∈ ts, TriggerFits now wane t) :
    Words.schedule .stops ts now wane = none := by
  push Not at h
  exact foldlM_stops scheduled_stops h

theorem fits_arm {r : InstanceRecord} :
    (arm r).Fits now ↔ ∀ t ∈ triggersOf r.plan, TriggerFits now r.deadline t := by
  constructor
  · intro h t ht d hd
    exact h d (List.mem_filterMap.mpr ⟨t, ht, hd⟩)
  · intro h d hd
    obtain ⟨t, ht, hd⟩ := List.mem_filterMap.mp hd
    exact h t ht d hd

/-! ## Every bound -/

theorem heartbeatAt_eq (st : BackstopState) :
    Words.heartbeatAt o st = match awaitedHeartbeat st with
      | none => some none
      | some w => (Words.plus o w.1 w.2).map some := by
  rw [Words.heartbeatAt, awaitedHeartbeat]
  split
  · cases st.intervalS <;> cases st.lastHeartbeat <;> rfl
  · rfl

/-- What fits is exact, in every build. -/
theorem run_fits {x : Deadline} (h : x.Fits now) : x.run o now = some (x.exact now) := by
  cases x with
  | approval r g => exact later_fits h
  | wane r =>
      simp only [run, exact, Words.waneDeadline]
      rw [Fits, durations] at h
      split
      · rfl
      · next hp =>
          rw [if_neg hp] at h
          exact later_fits h
  | wait r window => exact later_fits h
  | arm r =>
      rw [run, schedule_fits (fits_arm.mp h)]
      rfl
  | heartbeat st =>
      rw [Fits, durations, base] at h
      simp only [run, exact, heartbeatAt_eq]
      cases hw : awaitedHeartbeat st with
      | none => rfl
      | some w =>
          rw [hw] at h
          have hp : Words.plus o w.1 w.2 = some (w.1.plus w.2) :=
            plus_fits (h w.2 (List.mem_singleton.mpr rfl))
          simp only [hp]
          rfl
  | hold r =>
      simp only [run, exact, Words.holdBound]
      rw [Fits, durations] at h
      split
      · next hp =>
          rw [if_pos hp] at h
          exact later_fits h
      · rfl
  | keep k until_ =>
      have hl : Words.later o now k.duration = some (k.duration.map now.plus) := later_fits h
      rw [run, Words.keptBound, hl]
      rfl
  | renewal deadline renewWithin length =>
      simp only [run, exact, Words.renewAt, renewAt]
      rw [Fits, durations] at h
      by_cases he : expired now deadline = true
      · rw [if_pos he, if_pos he]
        rfl
      · rw [if_neg he, if_neg he]
        by_cases hw : now.unixS < deadline.unixS - renewWithin.seconds
        · rw [if_pos hw, if_pos hw]
          rfl
        · have hp : Words.plus o now length = some (now.plus length) :=
            plus_fits (h length (by simp [he, hw]))
          rw [if_neg hw, if_neg hw, hp]
          rfl

/-- What does not fit stops a build that checks. -/
theorem run_stops {x : Deadline} (h : ¬x.Fits now) : x.run .stops now = none := by
  cases x with
  | approval r g => exact later_stops h
  | wane r =>
      simp only [run, Words.waneDeadline]
      rw [Fits, durations] at h
      split
      · next hp => simp [hp] at h
      · next hp =>
          rw [if_neg hp] at h
          exact later_stops h
  | wait r window => exact later_stops h
  | arm r =>
      rw [run, schedule_stops (fun hf => h (fits_arm.mpr hf))]
      rfl
  | heartbeat st =>
      rw [Fits, durations, base] at h
      simp only [run, heartbeatAt_eq]
      cases hw : awaitedHeartbeat st with
      | none => simp [hw] at h
      | some w =>
          rw [hw] at h
          have hp : Words.plus .stops w.1 w.2 = none :=
            plus_stops fun hf => h (List.forall_mem_singleton.mpr hf)
          simp only [hp]
          rfl
  | hold r =>
      simp only [run, Words.holdBound]
      rw [Fits, durations] at h
      split
      · next hp =>
          rw [if_pos hp] at h
          exact later_stops h
      · next hp => simp [hp] at h
  | keep k until_ =>
      have hl : Words.later .stops now k.duration = none := later_stops h
      rw [run, Words.keptBound, hl]
      rfl
  | renewal deadline renewWithin length =>
      simp only [run, Words.renewAt]
      rw [Fits, durations] at h
      by_cases he : expired now deadline = true
      · simp [he] at h
      · rw [if_neg he]
        by_cases hw : now.unixS < deadline.unixS - renewWithin.seconds
        · simp [hw] at h
        · have hp : Words.plus .stops now length = none :=
            plus_stops fun hf => h (by simpa [he, hw, base] using hf)
          rw [if_neg hw, hp]
          rfl


/-! ## Nothing before the clock -/

theorem plus_onward {x : Deadline} (hb : x.base now = now) : x.Onward now (now.plus d) :=
  .inr (by rw [hb]; exact Nat.le_add_right _ _)

theorem map_onward {x : Deadline} {y : Option Duration} {i : Instant} (hb : x.base now = now)
    (hi : y.map now.plus = some i) : x.Onward now i := by
  obtain ⟨d, _, rfl⟩ := Option.map_eq_some_iff.mp hi
  exact plus_onward hb

theorem schedule_onward {r : InstanceRecord} {s : Schedule}
    (hs : ∀ i, s.deadline = some i → (arm r).Onward now i) (t : Trigger) :
    ∀ i, (scheduleStep now r.deadline s t).deadline = some i → (arm r).Onward now i := by
  intro i hi
  cases t with
  | after d =>
      obtain rfl := Option.some.inj hi
      cases hd : r.deadline with
      | none => exact plus_onward rfl
      | some w => exact .inl (by simp [given, hd])
  | unlessConfirmed d =>
      obtain rfl := Option.some.inj hi
      exact plus_onward rfl
  | unlessHeartbeat deadline interval => exact hs i hi

theorem keep_onward {h : Hold} {until_ : Option Instant} {i : Instant}
    (hi : h.bound now until_ = some i) : (keep h until_).Onward now i := by
  unfold Hold.bound at hi
  split at hi
  · next a b hd =>
      obtain rfl := Option.some.inj hi
      have ha : (keep h (some b)).Onward now a := map_onward rfl hd
      rcases Nat.le_total a.unixS b.unixS with hl | hl
      · rw [Nat.min_eq_left hl]
        exact ha
      · rw [Nat.min_eq_right hl]
        exact .inl (List.mem_singleton.mpr rfl)
  · exact map_onward rfl hi
  · exact .inl (by rw [given, hi]; exact List.mem_singleton.mpr rfl)

theorem exact_onward {x : Deadline} {i : Instant} (hi : x.exact now = some i) :
    x.Onward now i := by
  cases x with
  | approval r g => exact map_onward rfl hi
  | wane r =>
      rw [exact] at hi
      split at hi
      · exact .inl (by rw [given, hi]; exact List.mem_singleton.mpr rfl)
      · exact map_onward rfl hi
  | wait r window => exact map_onward rfl hi
  | arm r =>
      rw [exact, schedule_eq] at hi
      have run : ∀ (ts : List Trigger) (s : Schedule),
          (∀ i, s.deadline = some i → (arm r).Onward now i) →
          ∀ i, (ts.foldl (scheduleStep now r.deadline) s).deadline = some i →
            (arm r).Onward now i := by
        intro ts
        induction ts with
        | nil => intro s hs; exact hs
        | cons t ts ih => intro s hs; exact ih _ (schedule_onward hs t)
      exact run _ {} (by intro i hi; cases hi) i hi
  | heartbeat st =>
      obtain ⟨w, hw, rfl⟩ := Option.map_eq_some_iff.mp hi
      refine .inr ?_
      rw [base, hw]
      exact Nat.le_add_right _ _
  | hold r =>
      rw [exact] at hi
      split at hi
      · exact map_onward rfl hi
      · exact .inl (by rw [given, hi]; exact List.mem_singleton.mpr rfl)
  | keep h until_ => exact keep_onward hi
  | renewal deadline renewWithin length =>
      simp only [exact, renewAt] at hi
      split at hi
      · cases hi
      · split at hi
        · cases hi
        · obtain rfl := Option.some.inj hi
          exact plus_onward rfl

/-- A bound is sound in every build exactly when its sums fit. -/
theorem sound_iff {x : Deadline} : (∀ o, x.Sound o now) ↔ x.Fits now := by
  constructor
  · intro h
    by_contra hn
    have hs := (h .stops).exact
    rw [run_stops hn] at hs
    cases hs
  · intro h o
    refine ⟨run_fits h, ?_⟩
    intro i hi
    rw [run_fits h] at hi
    exact exact_onward (Option.some.inj hi)

end Deadline

/-! ## Durations of a plan text -/

inductive DurationUnit where
  | ms | s | m | h | d
  deriving DecidableEq, Repr

namespace DurationUnit

def text : DurationUnit → List Char
  | ms => ['m', 's']
  | s => ['s']
  | m => ['m']
  | h => ['h']
  | d => ['d']

/-- The seconds of `n` units; of milliseconds, the whole ones. -/
def seconds (n : Nat) : DurationUnit → Nat
  | ms => n / 1000
  | s => n
  | m => n * 60
  | h => n * 3600
  | d => n * 86400

end DurationUnit

/-- A duration as the lexer admits it: digits and a unit. -/
structure DurationText where
  digits : List Char
  unit : DurationUnit
  written : digits ≠ []
  plain : ∀ c ∈ digits, c.isDigit = true

namespace DurationText

def text (l : DurationText) : List Char := l.digits ++ l.unit.text

/-- The exact count. -/
def seconds (l : DurationText) : Nat := l.unit.seconds (Words.numeral l.digits)

/-- The numeral fits, and so does its count of seconds. -/
def Fits (l : DurationText) : Prop :=
  Words.numeral l.digits < 2 ^ 64 ∧ l.seconds < 2 ^ 64

theorem takeWhile_text (l : DurationText) : l.text.takeWhile Char.isDigit = l.digits := by
  rw [text, List.takeWhile_append_of_pos l.plain]
  cases l.unit <;> simp [DurationUnit.text]

theorem parseWord_fits {l : DurationText} (h : Words.numeral l.digits < 2 ^ 64) :
    Words.parseWord l.digits = some (Words.numeral l.digits) := by
  rw [Words.parseWord, if_neg (by simpa using l.written), if_pos h]

theorem parseWord_over {l : DurationText} (h : ¬Words.numeral l.digits < 2 ^ 64) :
    Words.parseWord l.digits = none := by
  rw [Words.parseWord, if_neg (by simpa using l.written), if_neg h]

theorem parseWord_lt (l : DurationText) : (Words.parseWord l.digits).getD 0 < 2 ^ 64 := by
  by_cases hn : Words.numeral l.digits < 2 ^ 64
  · rw [parseWord_fits hn]
    exact hn
  · rw [parseWord_over hn]
    exact Nat.two_pow_pos 64

/-- What the machine reads: the numeral, zero for one that does not parse, in
seconds. -/
theorem durationSeconds_eq (o : Overflow) (l : DurationText) :
    Words.durationSeconds o l.text =
      o.word (l.unit.seconds ((Words.parseWord l.digits).getD 0)) := by
  have hlt := parseWord_lt l
  rw [Words.durationSeconds, takeWhile_text, text, List.drop_left]
  generalize (Words.parseWord l.digits).getD 0 = n at hlt ⊢
  cases l.unit with
  | ms =>
      rw [DurationUnit.seconds, Overflow.word_of_lt (Nat.lt_of_le_of_lt (Nat.div_le_self _ _) hlt)]
      rfl
  | s =>
      rw [DurationUnit.seconds, Overflow.word_of_lt hlt]
      rfl
  | m => simp [DurationUnit.text, DurationUnit.seconds]
  | h => simp [DurationUnit.text, DurationUnit.seconds]
  | d => simp [DurationUnit.text, DurationUnit.seconds]

theorem seconds_ne_zero {u : DurationUnit} {n : Nat} (h : 2 ^ 64 ≤ n) : u.seconds n ≠ 0 := by
  cases u with
  | ms =>
      have : 0 < n / 1000 := Nat.div_pos (by omega) (by decide)
      exact Nat.ne_of_gt this
  | s | m | h | d =>
      simp only [DurationUnit.seconds]
      omega

/-- A duration is read as it is exactly where it fits. -/
theorem durationSeconds_exact {o : Overflow} {l : DurationText} :
    Words.durationSeconds o l.text = some l.seconds ↔ l.Fits := by
  rw [durationSeconds_eq]
  by_cases hn : Words.numeral l.digits < 2 ^ 64
  · rw [parseWord_fits hn, Option.getD_some]
    exact Overflow.word_eq_self.trans ⟨fun h => ⟨hn, h⟩, And.right⟩
  · rw [parseWord_over hn, Option.getD_none]
    have hz : l.unit.seconds 0 = 0 := by cases l.unit <;> rfl
    rw [hz, Overflow.word_of_lt (Nat.two_pow_pos 64)]
    constructor
    · intro h
      exact absurd (Option.some.inj h).symm (seconds_ne_zero (Nat.not_lt.mp hn))
    · intro h
      exact absurd h.1 hn

end DurationText

theorem added_exact {o : Overflow} {a b : Duration} :
    Words.added o a b = some ⟨a.seconds + b.seconds⟩ ↔ a.seconds + b.seconds < 2 ^ 64 := by
  rw [Words.added, ← Overflow.word_eq_self (o := o), Option.map_eq_some_iff]
  constructor
  · intro h
    obtain ⟨n, hn, he⟩ := h
    rw [hn]
    exact congrArg (fun d : Duration => some d.seconds) he
  · intro h
    exact ⟨_, h, rfl⟩

/-! ## Heartbeat intervals -/

/-- The interval a trigger declares of a heartbeat. -/
def intervalOf : Trigger → Option Duration
  | .unlessHeartbeat _ interval => interval
  | _ => none

def IntervalFits (t : Trigger) : Prop :=
  ∀ i ∈ intervalOf t, i.seconds * 3 < 2 ^ 64

/-- Whether its interval is above a third of its deadline. -/
def slow : Trigger → Bool
  | .unlessHeartbeat deadline (some i) => deadline.seconds < i.seconds * 3
  | _ => false

section Intervals

variable {o : Overflow} {t : Trigger}

theorem tooSlow_fits (h : IntervalFits t) : Words.tooSlow o t = some (slow t) := by
  cases t with
  | after d => rfl
  | unlessConfirmed d => rfl
  | unlessHeartbeat deadline interval =>
      cases interval with
      | none => rfl
      | some i =>
          rw [Words.tooSlow, Overflow.word_of_lt (h i rfl)]
          rfl

theorem tooSlow_stops (h : ¬IntervalFits t) : Words.tooSlow .stops t = none := by
  rw [IntervalFits] at h
  push Not at h
  obtain ⟨i, hi, hlt⟩ := h
  cases t with
  | after d => cases hi
  | unlessConfirmed d => cases hi
  | unlessHeartbeat deadline interval =>
      obtain rfl : interval = some i := hi
      rw [Words.tooSlow, Overflow.word_stops hlt]
      rfl

theorem count_slow (ts : List Trigger) (n : Nat) :
    ts.foldl (fun n t => n + (slow t).toNat) n = n + (ts.filter slow).length := by
  induction ts generalizing n with
  | nil => rfl
  | cons t ts ih =>
      rw [List.foldl_cons, ih, List.filter_cons]
      cases slow t with
      | false => rfl
      | true =>
          rw [if_pos rfl, List.length_cons, Bool.toNat_true]
          omega

theorem heartbeatViolations_eq {p : Plan} {b : Backstop} (hb : p.backstop = some b) :
    heartbeatViolations p = b.triggers.foldl (fun n t => n + (slow t).toNat) 0 := by
  rw [count_slow, Nat.zero_add, heartbeatViolations, hb]
  rfl

/-- The check of the intervals is the exact one in every build exactly when each
product fits. -/
theorem heartbeatViolations_exact {p : Plan} :
    (∀ o, Words.heartbeatViolations o p = some (heartbeatViolations p)) ↔
      ∀ t ∈ triggersOf p, IntervalFits t := by
  rw [triggersOf]
  cases hb : p.backstop with
  | none => simp [Words.heartbeatViolations, heartbeatViolations, hb]
  | some b =>
      simp only [heartbeatViolations_eq hb, Words.heartbeatViolations, hb, Option.map_some,
        Option.getD_some]
      constructor
      · intro h
        by_contra hn
        push Not at hn
        have hs : b.triggers.foldlM (fun n t => (Words.tooSlow .stops t).map fun s => n + s.toNat) 0
            = none := by
          refine foldlM_stops ?_ hn
          intro n t ht
          rw [tooSlow_stops ht]
          rfl
        have h := h .stops
        rw [hs] at h
        cases h
      · intro h o
        refine foldlM_fits ?_ h
        intro n t ht
        rw [tooSlow_fits ht]
        rfl

end Intervals

/-! ## Deadline arithmetic -/

/-- **Deadline arithmetic is exact where every sum and product fits the word, and
only there**: for every reading of the clock and every bound the engine computes
from it, every duration a plan text writes, every sum of two, and every check of
a plan's heartbeats.  Elsewhere a build either stops in the verb or computes
another instant. -/
theorem deadline_arithmetic_iff (now : Instant) (x : Deadline) (l : DurationText)
    (a b : Duration) (p : Plan) :
    ((∀ o, x.Sound o now) ↔ x.Fits now) ∧
    ((∀ o, Words.durationSeconds o l.text = some l.seconds) ↔ l.Fits) ∧
    ((∀ o, Words.added o a b = some ⟨a.seconds + b.seconds⟩) ↔ a.seconds + b.seconds < 2 ^ 64) ∧
    ((∀ o, Words.heartbeatViolations o p = some (heartbeatViolations p)) ↔
      ∀ t ∈ triggersOf p, IntervalFits t) := by
  refine ⟨Deadline.sound_iff, ?_, ?_, heartbeatViolations_exact⟩
  · constructor
    · intro h
      exact DurationText.durationSeconds_exact.mp (h .stops)
    · intro h o
      exact DurationText.durationSeconds_exact.mpr h
  · constructor
    · intro h
      exact added_exact.mp (h .stops)
    · intro h o
      exact added_exact.mpr h

namespace PastRenewal

def now : Instant := ⟨1700000000⟩

/-- A renewal by a length that no clock can be moved by. -/
def asked : Deadline := .renewal ⟨1700000600⟩ ⟨3600⟩ ⟨2 ^ 64 - 1000000000⟩

/-- A build without checks accepts it, with a deadline in the past; one with
checks stops. -/
theorem renewed_into_past :
    asked.run .wraps now = some (some ⟨700000000⟩) ∧ asked.run .stops now = none ∧
      ¬∀ (now : Instant) (x : Deadline) (o : Overflow), x.Sound o now := by
  refine ⟨by decide +kernel, by decide +kernel, ?_⟩
  intro h
  have hs := (h now asked .stops).exact
  have hn : asked.run .stops now = none := by decide +kernel
  rw [hn] at hs
  cases hs

end PastRenewal

end Rescind
