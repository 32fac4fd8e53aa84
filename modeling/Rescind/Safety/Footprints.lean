/-
# `Rescind.Safety.Footprints` — what a step must leave alone

A `do` is watched: every fact on its host that is another leaf's, or held by an
application with variables of its own, is read before it and after it
(`Foreign`, `watched_reads`).  A fact that does not read as it did is a
violation, and the application is not recorded as applied.

    the watch reads every foreign fact                        (`watched_reads`)
    a failed application is spared, undone or put back        (`undoFailed_fate`)
    a foreign fact that reads differently is journaled, and
    the application meets one of these                        (`violation_caught`)

An application whose shapes name parameters and that has no variables is not
watched; nothing is said of its facts here.
-/
import Rescind.Engine.Script
import Rescind.Turn.Attempts

namespace Rescind

open Lib
open Lib.Prog (Keeps bind_ok bind_ok_inv)

section

variable {σ : Type} (E : Setting σ)

/-! ## The facts of others -/

/-- A fact some other part of the plan holds on the host: one of another leaf,
named by no placeholder, or one of an application with variables. -/
inductive HeldByOther (hosts : Assoc String Host) (r : InstanceRecord) (host : Host)
    (a : AppliedStep) (shape : String) : Prop
  | leaf (m : Nat) (it : Item) (o : Op) (f : Nat × FootprintEntry × String)
      (there : (m, it) ∈ numbered r.plan.body) (other : m ≠ a.step) (runs : opOf it = some o)
      (here : onThisHost E hosts r host o = true) (observed : f ∈ observedFacts o.footprint)
      (named : f.2.1.shape = shape) (static : runtimeBound shape = false)
  | application (b : AppliedStep) (applied : b ∈ r.applied) (vars : b.vars ≠ [])
      (held : shape ∈ factsOf E hosts r host b)

/-- A fact an application must leave alone. -/
structure Foreign (hosts : Assoc String Host) (r : InstanceRecord) (host : Host)
    (a : AppliedStep) (shape : String) : Prop where
  held : HeldByOther E hosts r host a shape
  own : shape ∉ factsOf E hosts r host a

variable {E}

theorem Foreign.mem {hosts : Assoc String Host} {r : InstanceRecord} {host : Host}
    {a : AppliedStep} {shape : String} (h : Foreign E hosts r host a shape) :
    shape ∈ watchedShapes E hosts r host a := by
  unfold watchedShapes
  cases h.held with
  | leaf m it o f there other runs here observed named static =>
      refine List.mem_append_left _ (List.mem_flatMap.mpr ⟨(m, it), there, ?_⟩)
      rw [if_neg other, runs]
      simp only [here, Bool.not_true, Bool.false_eq_true, if_false]
      exact List.mem_filter.mpr ⟨List.mem_map.mpr ⟨f, observed, named⟩, by rw [static]; rfl⟩
  | application b applied vars held =>
      refine List.mem_append_right _ (List.mem_flatMap.mpr ⟨b, applied, ?_⟩)
      have hne : ¬ (b.step = a.step ∧ b.vars = a.vars) := by
        rintro ⟨hs, hv⟩
        refine h.own ?_
        have hsame : factsOf E hosts r host a = factsOf E hosts r host b := by
          unfold factsOf
          rw [hs, hv]
        rw [hsame]
        exact held
      rw [if_pos (by simpa [vars] using not_and_or.mp hne)]
      exact held

/-- What facts are worked out from decides which they are. -/
theorem factsOf_congr {w w' : World σ} (h : SameFacts w w') (host : Host) (a : AppliedStep) :
    factsOf E w'.hosts w'.hand host a = factsOf E w.hosts w.hand host a := by
  have hh : w'.hosts = w.hosts := congrArg Grounds.hosts h
  have hi : w'.hand.ir = w.hand.ir := congrArg Grounds.ir h
  have hp : w'.hand.params = w.hand.params := congrArg Grounds.params h
  have ho : w'.hand.outputs = w.hand.outputs := congrArg Grounds.outputs h
  unfold factsOf onThisHost stepHost envFor InstanceRecord.opAt InstanceRecord.plan
  rw [hh, hi, hp, ho]

theorem Foreign.congr {w w' : World σ} (h : SameFacts w w') {host : Host} {a : AppliedStep}
    {shape : String} (hf : Foreign E w.hosts w.hand host a shape) :
    Foreign E w'.hosts w'.hand host a shape := by
  have hh : w'.hosts = w.hosts := congrArg Grounds.hosts h
  have hi : w'.hand.ir = w.hand.ir := congrArg Grounds.ir h
  have ha : w'.hand.applied = w.hand.applied := congrArg Grounds.applied h
  refine ⟨?_, by rw [factsOf_congr h]; exact hf.own⟩
  cases hf.held with
  | leaf m it o f there other runs here observed named static =>
      refine .leaf m it o f ?_ other runs ?_ observed named static
      · unfold InstanceRecord.plan at there ⊢
        rw [hi]
        exact there
      · unfold onThisHost stepHost InstanceRecord.plan at here ⊢
        rw [hh, hi]
        exact here
  | application b applied vars held =>
      exact .application b (by rw [ha]; exact applied) vars (by rw [factsOf_congr h]; exact held)

/-! ## The watch -/

/-- A fact's digest, as it was read in some world. -/
def ReadAs (E : Setting σ) (host : Host) (shape digest : String) (u : World σ) : Prop :=
  ∃ bytes u', factBytes E host shape u = (.ok bytes, u') ∧ digest = digestOf E.sha256 bytes

/-- Every digest of a watch was read since `w`. -/
def ReadSince (E : Setting σ) (host : Host) (w : World σ) (m : Watched) : Prop :=
  ∀ shape d, m.get shape = some d → ∃ u, Still w u ∧ ReadAs E host shape d u

/-- One shape of the watch. -/
def watchOne (E : Setting σ) (host : Host) (own : List String) (shape : String) (m : Watched) :
    Try σ Watched :=
  if own.contains shape || m.contains shape then pure m
  else do
    let bytes ← factBytes E host shape
    pure (m.insert shape (digestOf E.sha256 bytes))

/-- A shape that is not the application's own is in the watch, read now or read
already; what was in it stays. -/
theorem watchOne_ok {host : Host} {own : List String} {shape : String} {m m' : Watched}
    {w₀ w w' : World σ} (h : watchOne E host own shape m w = (.ok m', w')) (hw : Still w₀ w) :
    Still w₀ w' ∧ (ReadSince E host w₀ m → ReadSince E host w₀ m') ∧
      (∀ k, m.contains k = true → m'.contains k = true) ∧
      (shape ∉ own → m'.contains shape = true) := by
  unfold watchOne at h
  split at h
  next hc =>
    cases h
    refine ⟨hw, id, fun _ => id, fun hn => ?_⟩
    rcases Bool.or_eq_true_iff.mp hc with ho | hm
    · exact absurd (List.contains_iff_mem.mp ho) hn
    · exact hm
  next hc =>
    obtain ⟨bytes, u, hb, h⟩ := bind_ok_inv h
    cases h
    refine ⟨hw.trans ((keeps_factBytes E host shape).ran hb), fun hr k d hk => ?_, fun k hk => ?_,
      fun _ => ?_⟩
    · by_cases he : k = shape
      · subst he
        rw [Assoc.get_insert_self] at hk
        cases hk
        exact ⟨w, hw, bytes, w', hb, rfl⟩
      · rw [Assoc.get_insert_ne _ _ he] at hk
        exact hr k d hk
    · unfold Assoc.contains at hk ⊢
      rw [Assoc.get_insert]
      split
      · rfl
      · exact hk
    · rw [Assoc.contains, Assoc.get_insert_self]
      rfl

theorem watchAll_ok {host : Host} {own : List String} {shapes : List String} {m m' : Watched}
    {w₀ w w' : World σ} (h : Prog.loop (watchOne E host own) shapes m w = (.ok m', w'))
    (hw : Still w₀ w) (hr : ReadSince E host w₀ m) :
    ReadSince E host w₀ m' ∧ (∀ k, m.contains k = true → m'.contains k = true) ∧
      ∀ shape ∈ shapes, shape ∉ own → m'.contains shape = true := by
  induction shapes generalizing m w with
  | nil =>
      cases h
      exact ⟨hr, fun _ => id, fun shape hs => absurd hs List.not_mem_nil⟩
  | cons shape shapes ih =>
      obtain ⟨m₁, w₁, h₁, h⟩ := bind_ok_inv h
      obtain ⟨hw₁, hr₁, hold, hnew⟩ := watchOne_ok h₁ hw
      obtain ⟨hr', hold', hnew'⟩ := ih h hw₁ (hr₁ hr)
      refine ⟨hr', fun k hk => hold' k (hold k hk), fun x hx hn => ?_⟩
      rcases List.mem_cons.mp hx with rfl | hx
      · exact hold' x (hnew hn)
      · exact hnew' x hx hn

/-- **The watch** has every fact that is not the application's own, as it was
read. -/
theorem watched_reads {host : Host} {a : AppliedStep} {i : Nat} {m : Watched} {w w' : World σ}
    (h : watched E host a w = (.ok m, w')) (hl : w.hand.rehearsal = false)
    (hi : executorIndex E host = some i) {shape : String}
    (hf : Foreign E w.hosts w.hand host a shape) :
    ∃ d, m.get shape = some d ∧ ∃ u, Still w u ∧ ReadAs E host shape d u := by
  obtain ⟨r, w₁, hr, h⟩ := bind_ok_inv h
  cases hr
  obtain ⟨hosts, w₂, hh, h⟩ := bind_ok_inv h
  cases hh
  have hgo : ¬ ((w.hand.rehearsal || (executorIndex E host).isNone) = true) := by simp [hl, hi]
  rw [if_neg hgo] at h
  have hloop : Prog.loop (watchOne E host (factsOf E w.hosts w.hand host a))
      (watchedShapes E w.hosts w.hand host a) [] w = (.ok m, w') := h
  obtain ⟨hread, -, hall⟩ := watchAll_ok hloop (Still.refl w) (fun k d hk => by cases hk)
  obtain ⟨d, hd⟩ := Option.isSome_iff_exists.mp (hall shape hf.mem hf.own)
  exact ⟨d, hd, hread shape d hd⟩

/-! ## An application whose `do` is refused -/

/-- What becomes of it: nothing it observes had changed and it is let be, its
undo step is run, or its undo failed and it is put back for the revert. -/
inductive Fate (E : Setting σ) (a : AppliedStep) (op : Op) (pre : Watched) (v u : World σ) : Prop
  | spared (t t' : World σ) (near : SameFacts v t) (observed : pre ≠ [])
      (same : untouched E op pre t = (.ok true, t')) (left : u.hand.applied = v.hand.applied)
  | undone (t t' : World σ) (near : SameFacts v t) (report : UndoReport)
      (ran : undoStep E a op t = (.ok report, t')) (left : u.hand.applied = v.hand.applied)
  | putBack (t t' : World σ) (near : SameFacts v t) (why : String)
      (failed : undoStep E a op t = (.err why, t')) (back : u.hand.applied = v.hand.applied ++ [a])

/-- An undo step, whichever way it ends, leaves the record in hand as it is. -/
theorem hand_of_undoStep {a : AppliedStep} {op : Op} {x : Except String UndoReport}
    {w w' : World σ}
    (h : ((undoStep E a op).attempt : Eng σ (Except String UndoReport)) w = (.ok x, w')) :
    w'.hand = w.hand := by
  have ht : Turns E (.failing a) (undoStep E a op).attempt _ w := turns_tryUndo E fun _ => .unmake
  unfold Turns Prog.Traces at ht
  rw [h] at ht
  obtain ⟨φ', -, hq⟩ := ht
  cases x with
  | ok report => exact hq.2
  | error why => exact hq.2

theorem undoFailed_fate {a : AppliedStep} {op : Op} {pre : Watched} {v u : World σ}
    (h : undoFailed E a op pre v = (.ok (), u)) : Fate E a op pre v u := by
  have kept : ∀ {t t' : World σ}, persist E t = (.ok (), t') → t'.hand.applied = t.hand.applied :=
    fun hp => congrArg Grounds.applied ((sameFacts_persist E).ran hp)
  have logged : ∀ {t t' : World σ} {ev : J}, log E ev t = (.ok (), t') → t'.hand = t.hand :=
    fun hl => ((keeps_log E _).ran hl : Still _ _).hand
  obtain ⟨_, v₁, hv, h⟩ := bind_ok_inv h
  obtain rfl : { v with hand := { v.hand with attempting := none, attemptingPre := [] } } = v₁ :=
    (Prod.mk.inj hv).2
  obtain ⟨same, t, hs, h⟩ := bind_ok_inv h
  have hstill : Still _ t := (Keeps.ite (Keeps.pure false) (keeps_untouched E op pre)).ran hs
  have near : SameFacts v t := by
    have : SameFacts _ t := Coarse.still hstill
    exact this
  have happ : t.hand.applied = v.hand.applied := congrArg Grounds.applied near
  cases same with
  | true =>
      obtain ⟨_, t₁, hlog, h⟩ := bind_ok_inv h
      obtain ⟨r, t₂, hr, h⟩ := bind_ok_inv h
      cases hr
      obtain ⟨_, t₃, hn, hp⟩ := bind_ok_inv h
      cases hn
      have hleft : u.hand.applied = v.hand.applied := by
        rw [kept hp]
        exact (congrArg InstanceRecord.applied (logged hlog)).trans happ
      split at hs
      next => cases hs
      next hne =>
        exact .spared { v with hand := { v.hand with attempting := none, attemptingPre := [] } } t rfl
          (by simpa using hne) hs hleft
  | false =>
      obtain ⟨x, t₁, hu, h⟩ := bind_ok_inv h
      have hhand := hand_of_undoStep hu
      cases x with
      | ok report =>
          refine .undone t t₁ near report (Prog.attempt_ok_inv hu) ?_
          rw [kept h, hhand, happ]
      | error why =>
          obtain ⟨_, t₂, hre, h⟩ := bind_ok_inv h
          obtain ⟨_, t₃, hlog, hp⟩ := bind_ok_inv h
          cases hre
          refine .putBack t t₁ near why (Prog.attempt_err_inv hu) ?_
          rw [kept hp, logged hlog]
          show t₁.hand.applied ++ [a] = _
          rw [hhand, happ]

/-! ## Violations -/

theorem journal_of_ask {ε : Type} {q : Query} {w w' : World σ} {x : Reply q}
    (h : (ask E q : Prog (World σ) ε (Reply q)) w = (.ok x, w')) : w'.journal = w.journal := by
  unfold ask at h
  split at h
  · cases h; rfl
  · cases h

theorem journal_of_keepEntry {e : Entry} {w w' : World σ} (h : keepEntry E e w = (.ok (), w')) :
    w'.journal = w.journal ++ [e] := by
  obtain ⟨x, w₁, hs, h⟩ := bind_ok_inv h
  cases x with
  | error why => cases h
  | ok u =>
      obtain ⟨y, w₂, hw, h⟩ := bind_ok_inv h
      cases y with
      | error why => cases h
      | ok u =>
          cases h
          show w₂.journal ++ [e] = _
          rw [journal_of_ask hw, journal_of_ask hs]

/-- An event that could be journaled is the last entry of the journal. -/
theorem journal_of_log {ev : J} {w w' : World σ} (h : log E ev w = (.ok (), w')) :
    ∃ at_, w'.journal = w.journal ++ [⟨at_, w.hand.plan.id, w.hand.id, w.hand.plan.owner, ev⟩] := by
  obtain ⟨r, w₁, hr, h⟩ := bind_ok_inv h
  cases hr
  obtain ⟨at_, w₂, ha, h⟩ := bind_ok_inv h
  obtain ⟨_, w₃, hk, h⟩ := bind_ok_inv h
  obtain ⟨refusals, w₄, hd, h⟩ := bind_ok_inv h
  refine ⟨at_, ?_⟩
  split at h
  · cases h
    rw [journal_of_ask hd, journal_of_keepEntry hk, journal_of_ask ha]
  · obtain ⟨_, w₅, -, h⟩ := bind_ok_inv h
    obtain ⟨_, w₆, -, h⟩ := bind_ok_inv h
    cases h

/-- The violation of these facts was journaled, and then the application met its
fate and the plan was refused. -/
def Violated (E : Setting σ) (a : AppliedStep) (op : Op) (pre : Watched) (changed : List String)
    (v w' : World σ) : Prop :=
  (∃ at_ later, w'.journal = v.journal ++
    ⟨at_, v.hand.plan.id, v.hand.id, v.hand.plan.owner, .footprintViolation a.step changed⟩ :: later) ∧
  ∃ t u, SameFacts v t ∧ Fate E a op pre t u ∧ ∃ flow, refuseApplied E a.step u = (.ok flow, w')

theorem violated_of_return {a : AppliedStep} {op : Op} {pre : Watched} {changed : List String}
    {flow : Flow} {v w' : World σ} (h : violateFootprint E a op pre changed v = (.ok flow, w')) :
    Violated E a op pre changed v w' := by
  obtain ⟨_, v₁, hlog, h⟩ := bind_ok_inv h
  obtain ⟨_, v₂, hset, h⟩ := bind_ok_inv h
  obtain ⟨_, u, hundo, href⟩ := bind_ok_inv h
  cases hset
  have hu : Grown _ u := (onward_undoFailed E (fun _ _ _ _ => asks_grown E _) a op pre).ran hundo
  have hw : Grown u w' := (farther_refuseApplied E (asks_grown E) a.step).ran href
  refine ⟨?_, _, u, ?_, undoFailed_fate hundo, flow, href⟩
  · obtain ⟨at_, hj⟩ := journal_of_log hlog
    obtain ⟨later, hlater⟩ : v₁.journal <+: w'.journal := List.IsPrefix.trans hu hw
    exact ⟨at_, later, by rw [← hlater, hj, List.append_assoc]; rfl⟩
  · have hs : SameFacts v v₁ := Coarse.still ((keeps_log E _).ran hlog)
    exact hs

/-- A foreign fact whose digest is another after than before is changed. -/
theorem mem_changedFacts {before after : Watched} {shape d : String}
    (hb : before.get shape = some d) (hne : after.get shape ≠ before.get shape) :
    shape ∈ changedFacts before after := by
  refine List.mem_map.mpr ⟨(shape, d), List.mem_filter.mpr ⟨Assoc.mem_of_get hb, ?_⟩, rfl⟩
  rw [hb] at hne
  exact decide_eq_true hne

/-- The rest of a `do` that came back with its outputs, where something it must
leave alone has changed. -/
theorem afterDo_of_changed {a : AppliedStep} {s : StepI} {op : Op} {host : Host}
    {pre before after : Watched} {out : Vars} {v v' : World σ}
    (hout : ∀ o ∈ op.outputs, out.contains o.name = true)
    (hafter : watched E host a v = (.ok after, v')) (hne : changedFacts before after ≠ []) :
    afterDo E a s op host pre before out v =
      violateFootprint E a op pre (changedFacts before after) v' := by
  have hmissing : op.outputs.filter (fun o => !out.contains o.name) = [] :=
    List.filter_eq_nil_iff.mpr fun o ho => by simp [hout o ho]
  unfold afterDo
  simp only [hmissing, List.map_nil, List.isEmpty_nil, Bool.not_true, Bool.false_eq_true, if_false]
  refine (bind_ok (Prog.attempt_ok hafter)).trans ?_
  simp only [List.isEmpty_eq_false_iff.mpr hne, Bool.not_false, if_true]

/-- **Violations are caught.**  Where a `do` came back with its outputs and the
facts it must leave alone could be read before it and after it, each of them
was; and if one does not read as it did, the step goes on as a violation that
names it: once that has returned it is journaled, and the application was
spared, undone, or put back for the revert. -/
theorem violation_caught {a : AppliedStep} {s : StepI} {host : Host} {w v v' : World σ} {op : Op}
    {pre before after : Watched} {i : Nat} {out : ExecOutput} {shape : String}
    (hat : Attempt E a s host w op pre before i (.ok out) v)
    (hout : ∀ o ∈ op.outputs, out.outputs.contains o.name = true)
    (hafter : watched E host a v = (.ok after, v'))
    (hf : Foreign E w.hosts w.hand host a shape) :
    (∃ d, before.get shape = some d ∧ ∃ u, SameFacts w u ∧ ReadAs E host shape d u) ∧
      (∃ d, after.get shape = some d ∧ ∃ u, SameFacts v u ∧ ReadAs E host shape d u) ∧
      (after.get shape ≠ before.get shape → ∃ changed, shape ∈ changed ∧
        attemptStep E a s host w = violateFootprint E a op pre changed v' ∧
        ∀ flow w', attemptStep E a s host w = (.ok flow, w') →
          Violated E a op pre changed v' w' ∧ v'.hand.applied = w.hand.applied) := by
  obtain ⟨hv, hlive, hi, t, t', ht, hbefore⟩ := hat.sameFacts
  have htlive : t.hand.rehearsal = false := by
    have : t.hand.rehearsal = v.hand.rehearsal :=
      (congrArg Grounds.rehearsal ht).trans (congrArg Grounds.rehearsal hv).symm
    rw [this, hlive]
  obtain ⟨d, hd, u, htu, hread⟩ := watched_reads hbefore htlive hi (hf.congr ht)
  obtain ⟨d', hd', u', hvu, hread'⟩ := watched_reads hafter hlive hi (hf.congr hv)
  refine ⟨⟨d, hd, u, ht.trans (Coarse.still htu), hread⟩,
    ⟨d', hd', u', Coarse.still hvu, hread'⟩, fun hne => ?_⟩
  have hmem := mem_changedFacts hd hne
  have hgo : attemptStep E a s host w =
      violateFootprint E a op pre (changedFacts before after) v' := by
    rw [hat.attemptStep_eq]
    exact afterDo_of_changed hout hafter (List.ne_nil_of_mem hmem)
  refine ⟨_, hmem, hgo, fun flow w' hw => ⟨violated_of_return (hgo ▸ hw), ?_⟩⟩
  have hsame : SameFacts v v' := (keeps_watched E host a).ran hafter
  exact congrArg Grounds.applied (hv.trans hsame)

end

/-! ## A violation whose undo fails -/

namespace Trespass

/-- Both files are there once a `do` has run, and nothing runs after it. -/
def script : Script where
  run n := some (if n = 0 then .ok ⟨[]⟩ else .error "busy")
  fact n _ := if n = 0 then none else some [1]

def site : Setting Nat := script.setting

def web : Host := smallHost "web"

/-- A step that owns one file, and undoes itself by removing it. -/
def put (path : String) : StepI := { op := {
  id := "put"
  footprint := [{ kind := .owned, shape := "file:" ++ path }]
  do_ := [.write ⟨"file:" ++ path, none⟩ (.lit "x")]
  undo := .restore } }

def first : AppliedStep := ⟨1, 0, []⟩

/-- Two such steps, the first about to run. -/
def begun : World Nat := { smallWorld ["web"] with
  hand := { noRecord with
    id := "p.web.00000000"
    ir := smallPlan "p" "web" [.step (put "/x"), .step (put "/y")]
    state := .applying } }

/-- On the way to its `do`. -/
def ahead : World Nat := (setOut site first (put "/x") begun).2

def housed : World Nat := (ensureInstanceDir site web ahead).2

def observed : World Nat := (readBefore site first (put "/x").op web housed).2

def body : List RPrim := [.write "file:/x" ⟨"x", false⟩]

/-- The first `do` has run, and has written both files. -/
def ran : World Nat :=
  ((handOver first >>= fun _ => ask site (.run 0 web observed.hand.id body) : Eng Nat _) observed).2

def seen : World Nat := (watched site web first ran).2

/-- What the first run is answered. -/
theorem handed_first {w : World Nat} (h : w.out = 0) :
    ((handOver first >>= fun _ => ask site (.run 0 web w.hand.id body) : Eng Nat _) w).1 =
      .ok (.ok ⟨[]⟩) := by
  obtain ⟨_⟩ := w
  cases h
  rfl

theorem attempt_ran : Attempt site first (put "/x") web begun (put "/x").op
    [("file:/x", missing)] [("file:/y", missing)] 0 (.ok ⟨[]⟩) ran :=
  .intro ahead housed observed observed (envFor ahead.hand []) body
    (Prog.eq_of_fst (by decide +kernel)) (by decide +kernel) (Prog.eq_of_fst (by decide +kernel)) rfl
    (Prog.eq_of_fst (by decide +kernel)) rfl rfl (by decide +kernel)
    (Prog.eq_of_fst (handed_first (by decide +kernel)))

theorem watched_ran : watched site web first ran = (.ok [("file:/y", "\x01")], seen) :=
  Prog.eq_of_fst (by decide +kernel)

theorem foreign_begun : Foreign site begun.hosts begun.hand web first "file:/y" where
  held := .leaf 2 (.step (put "/y")) (put "/y").op (0, { kind := .owned, shape := "file:/y" }, "/y")
    (List.mem_of_getElem? (i := 1) rfl) (by decide) rfl (by decide +kernel) (by decide +kernel) rfl
    (by decide +kernel)
  own := by decide +kernel

/-- The second step's file is watched, and found changed. -/
theorem violation_seen : ∃ changed, "file:/y" ∈ changed ∧
    attemptStep site first (put "/x") web begun =
      violateFootprint site first (put "/x").op [("file:/x", missing)] changed seen := by
  obtain ⟨-, -, h⟩ := violation_caught attempt_ran (by decide) watched_ran foreign_begun
  obtain ⟨changed, hm, hgo, -⟩ := h (by decide)
  exact ⟨changed, hm, hgo⟩

/-- The undo fails and fails again: the application stays. -/
theorem violation_kept :
    ¬ ∀ (E : Setting Nat) (a : AppliedStep) (s : StepI) (host : Host) (w v v' w' : World Nat)
        (op : Op) (pre before after : Watched) (i : Nat) (out : ExecOutput) (shape : String)
        (flow : Flow),
      Attempt E a s host w op pre before i (.ok out) v →
      (∀ o ∈ op.outputs, out.outputs.contains o.name = true) →
      watched E host a v = (.ok after, v') → Foreign E w.hosts w.hand host a shape →
      after.get shape ≠ before.get shape → attemptStep E a s host w = (.ok flow, w') →
      (∃ e ∈ w'.journal, ∃ changed, shape ∈ changed ∧
        e.event = .footprintViolation a.step changed) ∧ a ∉ w'.hand.applied := by
  intro h
  have hkept := (h site first (put "/x") web begun ran seen
    (attemptStep site first (put "/x") web begun).2 (put "/x").op _ _ _ 0 ⟨[]⟩ "file:/y" .stop
    attempt_ran (by decide) watched_ran foreign_begun (by decide)
    (Prog.eq_of_fst (by decide +kernel))).2
  exact hkept (by decide +kernel)

end Trespass

end Rescind
