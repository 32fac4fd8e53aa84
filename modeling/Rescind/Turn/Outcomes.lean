/-
# `Rescind.Turn.Outcomes` — how an answered `do` ends

Once the executor has answered, a step either is done and comes to its post
guards (`Completed`), or is refused (`Refuses`): it failed, was silent, changed
what it must leave alone, or one of its post guards refused.  A refusal that
finds no step to hold and whose undos all run clean closes the instance
(`Clean`).

    a `do` is done, or refused                  (`answered_cases`)
    a done step is passed, waits or is refused  (`settleStep_cases`)
    a refusal closes the instance, or does not  (`refuseApplied_ends`)
    and so does boot's                          (`bootApplying_ends`)
-/
import Rescind.Engine.Verbs
import Rescind.Turn.Attempts

namespace Rescind

open Lib
open Lib.Prog (Keeps bind_ok bind_ok_inv)

variable {σ : Type} (E : Setting σ)

/-! ## Parts of a step -/

/-- A failed step, up to the refusal. -/
def failing (a : AppliedStep) (op : Op) (pre : Watched) (why : String) : Eng σ Unit := do
  log E (.stepFailed a.step why)
  setHand fun r => { r with refusal := some (atStep a.step why) }
  undoFailed E a op pre

/-- A violation, up to the refusal. -/
def violating (a : AppliedStep) (op : Op) (pre : Watched) (changed : List String) : Eng σ Unit := do
  log E (.footprintViolation a.step changed)
  setHand fun r => { r with
    refusal := some (atStep a.step ("R0201: footprint violation: " ++ Text.join ", " changed)) }
  undoFailed E a op pre

/-- A refusal of a step, up to the refusal proper. -/
def refusing (n : Nat) (reason : String) : Eng σ Unit := do
  setHand fun r => { r with refusal := some (atStep n reason) }
  log E (.refused (atStep n reason))

/-- What a step that is done leaves, up to its post guards. -/
def completing (a : AppliedStep) (s : StepI) (op : Op) (host : Host) (out : Vars) : Eng σ Unit := do
  setHand (takeOutputs host a.step (s.alias_.getD op.id) op out)
  log E (.stepDone a.step)
  note (.completed (← hand).id a)
  Prog.loop (fun kv (_ : Unit) => deliverSecret E kv.1 kv.2)
    (outputsOf (s.alias_.getD op.id) op out true) ()
  markApplied E a

/-- The post guards of a step that is done, and what follows them. -/
def settleStep (a : AppliedStep) (op : Op) : Eng σ Flow := do
  match ← Prog.search (guardBlocks E a.step []) op.post with
  | some flow => pure flow
  | none => do
      removeStaged E (some a.step) "step done"
      note (.passed (← hand).id a)
      pure .continue_

/-- The undos of a revert. -/
def reverting : Eng σ Bool := do
  let r ← hand
  log E (.reverting (stepsBack r.applied))
  setHand fun r => { r with stuck := [] }
  revertLoop E r.applied.reverse

/-- What a hold leaves. -/
def holding (n : Nat) : Eng σ Flow := do
  setHand fun r => { r with heldAt := some n }
  persist E
  log E (.held n)
  pure .stop

/-- The declared outputs that did not come back. -/
def missingOutputs (op : Op) (out : Vars) : List String :=
  (op.outputs.filter fun o => !out.contains o.name).map Output.name

/-- What follows the writing of the markers. -/
def afterMarkers (a : AppliedStep) (s : StepI) (op : Op) (host : Host) (pre : Watched) (out : Vars) :
    Except String Unit → Eng σ Flow
  | .error why => failStep E a op pre why
  | .ok () => do
      completing E a s op host out
      if (← hand).rehearsal then pure .continue_ else settleStep E a op

/-- What follows the reading of what a step must leave alone. -/
def afterWatched (a : AppliedStep) (s : StepI) (op : Op) (host : Host) (pre before : Watched)
    (out : Vars) : Except String Watched → Eng σ Flow
  | .error why => failStep E a op pre why
  | .ok after =>
      if changedFacts before after = [] then do
        afterMarkers E a s op host pre out (← writeMarkers E host a op)
      else violateFootprint E a op pre (changedFacts before after)

theorem failStep_eq (a : AppliedStep) (op : Op) (pre : Watched) (why : String) :
    failStep E a op pre why = failing E a op pre why >>= fun _ => refuseApplied E a.step := by
  simp only [failStep, failing, Prog.bind_assoc]

theorem violateFootprint_eq (a : AppliedStep) (op : Op) (pre : Watched) (changed : List String) :
    violateFootprint E a op pre changed =
      violating E a op pre changed >>= fun _ => refuseApplied E a.step := by
  simp only [violateFootprint, violating, Prog.bind_assoc]

theorem refuse_eq (n : Nat) (reason : String) :
    refuse E n reason = refusing E n reason >>= fun _ => refuseApplied E n := by
  simp only [refuse, refusing, Prog.bind_assoc]

theorem revert_eq : revert E = reverting E >>= fun clean => .when clean (closeReverted E) := by
  simp only [revert, reverting, Prog.bind_assoc]

/-- The rest of a step in its parts. -/
theorem afterDo_eq (a : AppliedStep) (s : StepI) (op : Op) (host : Host) (pre before : Watched)
    (out : Vars) : afterDo E a s op host pre before out =
      if missingOutputs op out = [] then
        (watched E host a).attempt >>= afterWatched E a s op host pre before out
      else failStep E a op pre ("silent: no output for " ++ Text.join ", " (missingOutputs op out)) := by
  unfold afterDo
  by_cases hm : missingOutputs op out = []
  · have hs : (!(missingOutputs op out).isEmpty) ≠ true := by simp [hm]
    rw [if_pos hm]
    refine (if_neg hs).trans (congrArg (fun f => (watched E host a).attempt >>= f) (funext fun x => ?_))
    cases x with
    | error why => rfl
    | ok after =>
        by_cases hc : changedFacts before after = []
        · have hn : (!(changedFacts before after).isEmpty) ≠ true := by simp [hc]
          rw [afterWatched, if_pos hc]
          refine (if_neg hn).trans (congrArg (fun f => writeMarkers E host a op >>= f)
            (funext fun y => ?_))
          cases y with
          | error why => rfl
          | ok _ =>
              simp only [afterMarkers, completing, Prog.bind_assoc]
              rfl
        · have hn : (!(changedFacts before after).isEmpty) = true := by simp [hc]
          rw [afterWatched, if_neg hc]
          exact if_pos hn
  · have hs : (!(missingOutputs op out).isEmpty) = true := by simp [hm]
    rw [if_neg hm]
    exact if_pos hs

section
variable {R : World σ → World σ → Prop} [Onward E R]

theorem onward_refusing (n : Nat) (reason : String) : Keeps R True True (refusing E n reason) :=
  Keeps.bind (onward_setHand E fun _ => ⟨rfl, rfl, rfl, rfl⟩) fun _ => onward_log E _

theorem onward_holding (n : Nat) : Keeps R True True (holding E n) :=
  Keeps.bind (onward_setHand E fun _ => ⟨rfl, rfl, rfl, rfl⟩) fun _ =>
    Keeps.bind (onward_persist E) fun _ => Keeps.bind (onward_log E _) fun _ => Keeps.pure _

/-- All that completing a step does after it took the outputs. -/
theorem onward_completing {a : AppliedStep} {s : StepI} {op : Op} {host : Host} {out : Vars}
    {v v' : World σ} (h : completing E a s op host out v = (.ok (), v')) :
    R { v with hand := takeOutputs host a.step (s.alias_.getD op.id) op out v.hand } v' := by
  obtain ⟨_, v₁, htake, h⟩ := bind_ok_inv h
  cases htake
  refine Keeps.ran (R := R) (X := True) (F := True) ?_ h
  exact Keeps.bind (onward_log E _) fun _ => Keeps.bind (Keeps.read _) fun _ =>
    Keeps.bind (onward_note E _) fun _ =>
    Keeps.bind (Keeps.loop _ (fun _ _ => onward_deliverSecret E _ _) _) fun _ =>
    onward_markApplied E a

variable (hm : AsksMarkers E R)
include hm

theorem onward_failing (a : AppliedStep) (op : Op) (pre : Watched) (why : String) :
    Keeps R True True (failing E a op pre why) :=
  Keeps.bind (onward_log E _) fun _ => Keeps.bind (onward_setHand E fun _ => ⟨rfl, rfl, rfl, rfl⟩)
    fun _ => onward_undoFailed E hm a op pre

theorem onward_violating (a : AppliedStep) (op : Op) (pre : Watched) (changed : List String) :
    Keeps R True True (violating E a op pre changed) :=
  Keeps.bind (onward_log E _) fun _ => Keeps.bind (onward_setHand E fun _ => ⟨rfl, rfl, rfl, rfl⟩)
    fun _ => onward_undoFailed E hm a op pre

theorem onward_reverting : Keeps R True True (reverting E) :=
  Keeps.bind (Keeps.read _) fun _ => Keeps.bind (onward_log E _) fun _ =>
    Keeps.bind (onward_setHand E fun _ => ⟨rfl, rfl, rfl, rfl⟩) fun _ => onward_revertLoop E hm _

end

/-! ## Ways an answered `do` ends -/

/-- The `do` came back with its outputs, left alone what it must, and its markers
were written: in `v'` its post guards are to be asked. -/
inductive Completed (a : AppliedStep) (s : StepI) (op : Op) (host : Host) (before : Watched)
    (out : ExecOutput) (v v' : World σ) : Prop
  | intro (after : Watched) (v₁ v₂ : World σ) (spoke : missingOutputs op out.outputs = [])
      (read : watched E host a v = (.ok after, v₁)) (same : changedFacts before after = [])
      (marked : writeMarkers E host a op v₁ = (.ok (.ok ()), v₂))
      (done : completing E a s op host out.outputs v₂ = (.ok (), v'))

/-- Why an observation refuses, where it does. -/
def refusalOf (g : Guard) : Except String Tri → Option String
  | .error e => some e
  | .ok .no => some ("guard " ++ g.name ++ " is no")
  | .ok _ => none

/-- A guard asked in `v` refuses, the refusal proper to follow in `u`. -/
inductive GuardRefuses (n : Nat) (g : Guard) (v u : World σ) : Prop
  | intro (owner : Host) (x : Except String Tri) (why : String) (v₁ v₂ : World σ)
      (found : ownerHost E v = (.ok owner, v₁))
      (asked : ((observeTri E owner g.name).attempt : Eng σ _) v₁ = (.ok x, v₂))
      (refuses : refusalOf g x = some why) (told : refusing E n why v₂ = (.ok (), u))

/-- The step is refused, the refusal proper to follow in `u`. -/
inductive Refuses (a : AppliedStep) (s : StepI) (op : Op) (host : Host) (pre before : Watched) :
    Except String ExecOutput → World σ → World σ → Prop
  | failed (e : String) (v u : World σ) (h : failing E a op pre e v = (.ok (), u)) :
      Refuses a s op host pre before (.error e) v u
  | silent (out : ExecOutput) (v u : World σ) (hm : missingOutputs op out.outputs ≠ [])
      (h : failing E a op pre ("silent: no output for " ++
        Text.join ", " (missingOutputs op out.outputs)) v = (.ok (), u)) :
      Refuses a s op host pre before (.ok out) v u
  | unread (out : ExecOutput) (why : String) (v v₁ u : World σ)
      (hm : missingOutputs op out.outputs = []) (hw : watched E host a v = (.err why, v₁))
      (h : failing E a op pre why v₁ = (.ok (), u)) : Refuses a s op host pre before (.ok out) v u
  | violated (out : ExecOutput) (after : Watched) (v v₁ u : World σ)
      (hm : missingOutputs op out.outputs = []) (hw : watched E host a v = (.ok after, v₁))
      (hc : changedFacts before after ≠ [])
      (h : violating E a op pre (changedFacts before after) v₁ = (.ok (), u)) :
      Refuses a s op host pre before (.ok out) v u
  | unmarked (out : ExecOutput) (after : Watched) (why : String) (v v₁ v₂ u : World σ)
      (hm : missingOutputs op out.outputs = []) (hw : watched E host a v = (.ok after, v₁))
      (hc : changedFacts before after = [])
      (hk : writeMarkers E host a op v₁ = (.ok (.error why), v₂))
      (h : failing E a op pre why v₂ = (.ok (), u)) : Refuses a s op host pre before (.ok out) v u
  | guarded (out : ExecOutput) (v v₁ v₂ u : World σ) (gs gs' : List Guard) (g : Guard)
      (hd : Completed E a s op host before out v v₁) (hg : op.post = gs ++ g :: gs')
      (hp : Prog.search (guardBlocks E a.step []) gs v₁ = (.ok none, v₂))
      (hr : GuardRefuses E a.step g v₂ u) : Refuses a s op host pre before (.ok out) v u

/-- A refusal in `u` that finds no step to hold and undoes all that is applied: it
closes the instance. -/
inductive Clean (u : World σ) : Prop
  | intro (u₁ u₂ : World σ) (refused : step E .refuse u = (.ok (), u₁))
      (unheld : u₁.hand.state ≠ .held) (undone : reverting E u₁ = (.ok true, u₂))

variable {E} {a : AppliedStep} {s : StepI} {op : Op} {host : Host} {pre before : Watched}
  {flow : Flow} {v w' : World σ}

/-! ## Guards -/

theorem ownerHost_ok {owner : Host} (h : ownerHost E v = (.ok owner, w')) : w' = v := by
  obtain ⟨r, v₁, hr, h⟩ := bind_ok_inv h
  cases hr
  obtain ⟨hosts, v₂, hh, h⟩ := bind_ok_inv h
  cases hh
  cases hf : hostOf E v.hosts v.hand.plan.owner with
  | some found =>
      rw [hf] at h
      cases h
      rfl
  | none =>
      rw [hf] at h
      obtain ⟨_, t, -, h⟩ := bind_ok_inv h
      cases h

section

variable {R : World σ → World σ → Prop}
  (hobs : ∀ owner probe, Keeps R True True (observeTri E owner probe))
include hobs

theorem ran_of_observed {owner : Host} {g : Guard} {x : Except String Tri} {v₁ v₂ : World σ}
    (ho : ownerHost E v = (.ok owner, v₁))
    (hx : ((observeTri E owner g.name).attempt : Eng σ _) v₁ = (.ok x, v₂)) : R v v₂ := by
  rw [ownerHost_ok ho] at hx
  exact Keeps.ran (Keeps.attempt (hobs owner g.name) : Keeps R True True _) hx

/-- A guard that passed was only observed. -/
theorem ran_of_passed {n : Nat} {force : List ForceName} {g : Guard}
    (h : guardBlocks E n force g v = (.ok none, w')) : R v w' := by
  obtain ⟨r, v₀, hr, h⟩ := bind_ok_inv h
  cases hr
  obtain ⟨owner, v₁, ho, h⟩ := bind_ok_inv h
  obtain ⟨x, v₂, hx, h⟩ := bind_ok_inv h
  have hv₂ : R v v₂ := ran_of_observed hobs ho hx
  match x with
  | .error e =>
      obtain ⟨_, t, -, h⟩ := bind_ok_inv h
      cases h
  | .ok .yes =>
      cases h
      exact hv₂
  | .ok .no =>
      obtain ⟨_, t, -, h⟩ := bind_ok_inv h
      cases h
  | .ok .unknown =>
      obtain ⟨r, t, hr, h⟩ := bind_ok_inv h
      cases hr
      split at h
      · cases h
        exact hv₂
      · obtain ⟨_, t, -, h⟩ := bind_ok_inv h
        cases h

theorem ran_of_search [Std.Refl R] [IsTrans (World σ) R] {n : Nat} {force : List ForceName} {gs : List Guard}
    (h : Prog.search (guardBlocks E n force) gs v = (.ok none, w')) : R v w' := by
  induction gs generalizing v with
  | nil =>
      cases h
      exact Std.Refl.refl _
  | cons g gs ih =>
      obtain ⟨r, v₁, hg, h⟩ := bind_ok_inv h
      cases r with
      | some flow => cases h
      | none => exact IsTrans.trans _ _ _ (ran_of_passed hobs hg) (ih h)

/-- A guard that blocks refuses the step, or has it wait. -/
theorem guardBlocks_cases {n : Nat} {g : Guard}
    (h : guardBlocks E n [] g v = (.ok (some flow), w')) :
    (∃ u, GuardRefuses E n g v u ∧ refuseApplied E n u = (.ok flow, w')) ∨
      ∃ t bound, R v t ∧
        wait E n ("unknown guard " ++ g.name) (some g.name) bound t = (.ok flow, w') := by
  obtain ⟨r, v₀, hr, h⟩ := bind_ok_inv h
  cases hr
  obtain ⟨owner, v₁, ho, h⟩ := bind_ok_inv h
  obtain ⟨x, v₂, hx, h⟩ := bind_ok_inv h
  -- a refusal of either kind goes the same way
  have refused : ∀ why, refusalOf g x = some why →
      (some <$> refuse E n why : Eng σ _) v₂ = (.ok (some flow), w') →
      ∃ u, GuardRefuses E n g v u ∧ refuseApplied E n u = (.ok flow, w') := by
    intro why hwhy hr
    obtain ⟨flow', t, hr, ht⟩ := bind_ok_inv hr
    cases ht
    rw [refuse_eq] at hr
    obtain ⟨_, u, hu, hr⟩ := bind_ok_inv hr
    exact ⟨u, .intro owner x why v₁ v₂ ho hx hwhy hu, hr⟩
  match x with
  | .error e => exact .inl (refused e rfl h)
  | .ok .yes => cases h
  | .ok .no => exact .inl (refused _ rfl h)
  | .ok .unknown =>
      obtain ⟨r, t, hr, h⟩ := bind_ok_inv h
      cases hr
      split at h
      · cases h
      · obtain ⟨flow', t, hw, ht⟩ := bind_ok_inv h
        cases ht
        exact .inr ⟨v₂, _, ran_of_observed hobs ho hx, hw⟩

/-- A step that is done is passed, or one of its post guards refuses it or has it
wait. -/
theorem settleStep_cases [Std.Refl R] [IsTrans (World σ) R] (h : settleStep E a op v = (.ok flow, w')) :
    (∃ v₁, Prog.search (guardBlocks E a.step []) op.post v = (.ok none, v₁)) ∨
      (∃ gs g gs' v₁ u, op.post = gs ++ g :: gs' ∧
        Prog.search (guardBlocks E a.step []) gs v = (.ok none, v₁) ∧
        GuardRefuses E a.step g v₁ u ∧ refuseApplied E a.step u = (.ok flow, w')) ∨
      ∃ t reason guard bound, R v t ∧ wait E a.step reason guard bound t = (.ok flow, w') := by
  obtain ⟨r, v₁, hs, h⟩ := bind_ok_inv h
  cases r with
  | none => exact .inl ⟨v₁, hs⟩
  | some flow' =>
      cases h
      obtain ⟨gs, g, gs', t, hg, hgs, hb⟩ := Prog.search_some_inv hs
      rcases guardBlocks_cases hobs hb with ⟨u, hu, hr⟩ | ⟨t', bound, ht, hw⟩
      · exact .inr (.inl ⟨gs, g, gs', t, u, hg, hgs, hu, hr⟩)
      · exact .inr (.inr ⟨t', _, _, bound, IsTrans.trans _ _ _ (ran_of_search hobs hgs) ht, hw⟩)

end

/-- A guard that refuses blocks. -/
theorem GuardRefuses.blocks {n : Nat} {g : Guard} {u : World σ} (h : GuardRefuses E n g v u) :
    guardBlocks E n [] g v = (some <$> refuseApplied E n : Eng σ _) u := by
  obtain ⟨owner, x, why, v₁, v₂, found, asked, refuses, told⟩ := h
  have hrefuse : (some <$> refuse E n why : Eng σ _) v₂ = (some <$> refuseApplied E n : Eng σ _) u := by
    rw [refuse_eq]
    exact (congrFun (Prog.bind_assoc _ _ _) v₂).trans (bind_ok told)
  refine (bind_ok found).trans ((bind_ok asked).trans ?_)
  match x with
  | .error e => cases refuses; exact hrefuse
  | .ok .yes => cases refuses
  | .ok .no => cases refuses; exact hrefuse
  | .ok .unknown => cases refuses

/-! ## A step that is done -/

/-- The post guards of a completed step are asked next. -/
theorem Completed.afterDo_eq {out : ExecOutput} (h : Completed E a s op host before out v w')
    (hl : w'.hand.rehearsal = false) :
    afterDo E a s op host pre before out.outputs v = settleStep E a op w' := by
  obtain ⟨after, v₁, v₂, spoke, read, same, marked, done⟩ := h
  rw [Rescind.afterDo_eq, if_pos spoke]
  refine (bind_ok (Prog.attempt_ok read)).trans ?_
  rw [afterWatched, if_pos same]
  refine (bind_ok marked).trans ((bind_ok done).trans ?_)
  exact congrFun (if_neg (by rw [hl]; exact Bool.false_ne_true)) w'

/-- The record lives where it lived, its staged files with those of the step. -/
theorem Completed.here {out : ExecOutput} (h : Completed E a s op host before out v w') :
    w'.here = { v.here with staged := v.here.staged ++ stagedBy host a.step op.do_ } := by
  obtain ⟨after, v₁, v₂, spoke, read, same, marked, done⟩ := h
  have hread : SameHere v v₁ := Keeps.ran (onward_watched E host a) read
  have hmarked : SameHere v₁ v₂ := Keeps.ran (onward_writeMarkers E host a op) marked
  have hdone : SameHere _ w' := onward_completing E done
  have hbefore : v₂.here = v.here := IsTrans.trans (r := SameHere) _ _ _ hread hmarked
  rw [← hbefore]
  exact hdone

/-- A `do` that came back is completed, or refused. -/
theorem afterDo_cases {out : ExecOutput}
    (h : afterDo E a s op host pre before out.outputs v = (.ok flow, w')) :
    (∃ v₁, Completed E a s op host before out v v₁) ∨
      ∃ u, Refuses E a s op host pre before (.ok out) v u ∧
        refuseApplied E a.step u = (.ok flow, w') := by
  have failed : ∀ {why t}, failStep E a op pre why t = (.ok flow, w') →
      ∃ u, failing E a op pre why t = (.ok (), u) ∧ refuseApplied E a.step u = (.ok flow, w') := by
    intro why t hf
    rw [failStep_eq] at hf
    obtain ⟨_, u, hu, hr⟩ := bind_ok_inv hf
    exact ⟨u, hu, hr⟩
  rw [afterDo_eq] at h
  split at h
  next spoke =>
    obtain ⟨x, v₁, hx, h⟩ := bind_ok_inv h
    cases x with
    | error why =>
        obtain ⟨u, hu, hr⟩ := failed h
        exact .inr ⟨u, .unread out why v v₁ u spoke (Prog.attempt_err_inv hx) hu, hr⟩
    | ok after =>
        have read := Prog.attempt_ok_inv hx
        rw [afterWatched] at h
        split at h
        next same =>
          obtain ⟨y, v₂, marked, h⟩ := bind_ok_inv h
          cases y with
          | error why =>
              obtain ⟨u, hu, hr⟩ := failed h
              exact .inr ⟨u, .unmarked out after why v v₁ v₂ u spoke read same marked hu, hr⟩
          | ok _ =>
              obtain ⟨_, v₃, done, h⟩ := bind_ok_inv h
              exact .inl ⟨v₃, .intro after v₁ v₂ spoke read same marked done⟩
        next changed =>
          rw [violateFootprint_eq] at h
          obtain ⟨_, u, hu, hr⟩ := bind_ok_inv h
          exact .inr ⟨u, .violated out after v v₁ u spoke read changed hu, hr⟩
  next silent =>
    obtain ⟨u, hu, hr⟩ := failed h
    exact .inr ⟨u, .silent out v u silent hu, hr⟩

/-- **An answered `do`** is completed, or the step is refused. -/
theorem answered_cases {x : Except String ExecOutput}
    (h : answered E a s op host pre before x v = (.ok flow, w')) :
    (∃ out v₁, x = .ok out ∧ Completed E a s op host before out v v₁) ∨
      ∃ u, Refuses E a s op host pre before x v u ∧ refuseApplied E a.step u = (.ok flow, w') := by
  cases x with
  | error e =>
      rw [answered, failStep_eq] at h
      obtain ⟨_, u, hu, hr⟩ := bind_ok_inv h
      exact .inr ⟨u, .failed e v u hu, hr⟩
  | ok out =>
      rcases afterDo_cases h with ⟨v₁, h₁⟩ | h
      · exact .inl ⟨out, v₁, rfl, h₁⟩
      · exact .inr h

/-- The refusal proper follows. -/
theorem Refuses.answered_ok {x : Except String ExecOutput} {u : World σ}
    (h : Refuses E a s op host pre before x v u) (hl : ∀ out v₁, x = .ok out →
      Completed E a s op host before out v v₁ → v₁.hand.rehearsal = false)
    (ha : answered E a s op host pre before x v = (.ok flow, w')) :
    refuseApplied E a.step u = (.ok flow, w') := by
  have failed : ∀ {why t}, failing E a op pre why t = (.ok (), u) →
      failStep E a op pre why t = (.ok flow, w') → refuseApplied E a.step u = (.ok flow, w') := by
    intro why t hf hs
    rw [failStep_eq] at hs
    exact (bind_ok hf).symm.trans hs
  -- the outputs are back, and what is to be left alone was read
  have spoken : ∀ {out : ExecOutput} {y : Except String Watched} {t},
      missingOutputs op out.outputs = [] → ((watched E host a).attempt : Eng σ _) v = (.ok y, t) →
      afterDo E a s op host pre before out.outputs v = (.ok flow, w') →
      afterWatched E a s op host pre before out.outputs y t = (.ok flow, w') := by
    intro out y t hm hy hd
    rw [afterDo_eq, if_pos hm] at hd
    exact (bind_ok hy).symm.trans hd
  cases h with
  | failed e v u h => exact failed h ha
  | silent out v u hm h => exact failed h (by rwa [answered, afterDo_eq, if_neg hm] at ha)
  | unread out why v v₁ u hm hw h => exact failed h (spoken hm (Prog.attempt_err hw) ha)
  | violated out after v v₁ u hm hw hc h =>
      have hd := spoken hm (Prog.attempt_ok hw) ha
      rw [afterWatched, if_neg hc, violateFootprint_eq] at hd
      exact (bind_ok h).symm.trans hd
  | unmarked out after why v v₁ v₂ u hm hw hc hk h =>
      have hd := spoken hm (Prog.attempt_ok hw) ha
      rw [afterWatched, if_pos hc] at hd
      exact failed h ((bind_ok hk).symm.trans hd)
  | guarded out v v₁ v₂ u gs gs' g hd hg hp hr =>
      rw [answered, hd.afterDo_eq (hl out v₁ rfl hd)] at ha
      obtain ⟨r, t, hs, ha⟩ := bind_ok_inv ha
      rw [hg, Prog.search_append hp] at hs
      obtain ⟨r', t', hb, hs⟩ := bind_ok_inv hs
      rw [hr.blocks] at hb
      obtain ⟨flow', t'', hf, hb⟩ := bind_ok_inv hb
      cases hb
      cases hs
      cases ha
      exact hf

/-! ## The refusal proper -/

theorem revert_cases {u : World σ} (h : revert E u = (.ok (), w')) :
    (∃ u', reverting E u = (.ok true, u') ∧ closeReverted E u' = (.ok (), w')) ∨
      reverting E u = (.ok false, w') := by
  rw [revert_eq] at h
  obtain ⟨clean, u', hc, h⟩ := bind_ok_inv h
  cases clean with
  | true => exact .inl ⟨u', hc, h⟩
  | false =>
      cases h
      exact .inr hc

/-- How a refusal ends: it closes the instance, holds it, or its revert stops on
the way. -/
inductive RefusalEnds (E : Setting σ) (hold : World σ → World σ → Prop) (u w' : World σ) : Prop
  | closes (u₁ u₂ : World σ) (refused : step E .refuse u = (.ok (), u₁))
      (unheld : u₁.hand.state ≠ .held) (undone : reverting E u₁ = (.ok true, u₂))
      (closed : closeReverted E u₂ = (.ok (), w'))
  | holds (u₁ : World σ) (refused : step E .refuse u = (.ok (), u₁))
      (held : u₁.hand.state = .held) (kept : hold u₁ w')
  | stops (u₁ : World σ) (refused : step E .refuse u = (.ok (), u₁))
      (stuck : reverting E u₁ = (.ok false, w'))

theorem refuseApplied_ends {n : Nat} {u : World σ} (h : refuseApplied E n u = (.ok flow, w')) :
    RefusalEnds E (fun u₁ w' => holding E n u₁ = (.ok flow, w')) u w' := by
  obtain ⟨_, u₁, hs, h⟩ := bind_ok_inv h
  obtain ⟨r, t, hr, h⟩ := bind_ok_inv h
  cases hr
  split at h
  next hh => exact .holds u₁ hs hh h
  next hh =>
    obtain ⟨_, t, hv, h⟩ := bind_ok_inv h
    cases h
    rcases revert_cases hv with ⟨u₂, hr, hc⟩ | hr
    · exact .closes u₁ u₂ hs hh hr hc
    · exact .stops u₁ hs hr

/-- What boot leaves of an instance that was applying, up to the refusal. -/
def recovering (E : Setting σ) : Eng σ Unit := do
  recoverAttempt E
  setHand fun r => { r with refusal := some "the engine restarted while applying" }

/-- What a hold at boot leaves. -/
def bootHolding (E : Setting σ) : Eng σ Unit := do
  let r ← hand
  setHand fun r => { r with heldAt := (r.applied.getLast?).map AppliedStep.step }
  log E (.held (((r.applied.getLast?).map AppliedStep.step).getD 0))
  persist E

/-- Boot refuses an instance that was applying. -/
theorem bootApplying_ends {u : World σ} (h : bootApplying E u = (.ok (), w')) :
    ∃ t, recovering E u = (.ok (), t) ∧
      RefusalEnds E (fun u₁ w' => bootHolding E u₁ = (.ok (), w')) t w' := by
  obtain ⟨_, t₁, hrec, h⟩ := bind_ok_inv h
  obtain ⟨_, t₂, hset, h⟩ := bind_ok_inv h
  obtain ⟨_, u₁, hs, h⟩ := bind_ok_inv h
  obtain ⟨r, t, hr, h⟩ := bind_ok_inv h
  cases hr
  refine ⟨t₂, (bind_ok hrec).trans hset, ?_⟩
  split at h
  next hh => exact .holds u₁ hs hh h
  next hh =>
    rcases revert_cases h with ⟨u₂, hr, hc⟩ | hr
    · exact .closes u₁ u₂ hs hh hr hc
    · exact .stops u₁ hs hr

section
variable (E) {R : World σ → World σ → Prop} [Onward E R]

theorem onward_bootHolding : Keeps R True True (bootHolding E) :=
  Keeps.bind (Keeps.read _) fun _ => Keeps.bind (onward_setHand E fun _ => ⟨rfl, rfl, rfl, rfl⟩)
    fun _ => Keeps.bind (onward_log E _) fun _ => onward_persist E

theorem onward_recovering : Keeps R True True (recovering E) := by
  refine Keeps.bind (Keeps.bind (Keeps.read _) fun r => ?_) fun _ =>
    onward_setHand E fun _ => ⟨rfl, rfl, rfl, rfl⟩
  cases r.attempting with
  | none => exact Keeps.pure ()
  | some a =>
      refine Keeps.bind (onward_note E _) fun _ =>
        Keeps.bind (onward_setHand E fun _ => ⟨rfl, rfl, rfl, rfl⟩) fun _ =>
        Keeps.ite (Keeps.pure ()) (Keeps.bind ?_ fun took => Keeps.ite ?_ ?_)
      · refine Keeps.bind (Keeps.read _) fun r => Keeps.bind (Keeps.read _) fun hosts => ?_
        cases attemptedOp E hosts r a with
        | none => exact Keeps.pure false
        | some o => exact Keeps.ite (Keeps.pure false) (onward_untouched E o _)
      · exact Keeps.bind (onward_log E _) fun _ => onward_note E _
      · exact Keeps.bind (onward_setHand E fun _ => ⟨rfl, rfl, rfl, rfl⟩) fun _ =>
          Keeps.bind (Keeps.read _) fun _ => onward_note E _

end

end Rescind
