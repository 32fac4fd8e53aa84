/-
# `Rescind.Safety.Believed` — what the engine believes of a firing

Having fired, the artifact has left markers, and the engine drops from its record the
applications of the covered steps whose markers are gone.  Neither side asks the other:
what the engine believes undone is what the artifact's runs, killed ones included, undid.

The engine takes a file it cannot get for one that is not there.  So this is about a
target of which it gets every file there is (`Keeping`), as over `local()`; over a
connection that breaks while the markers are read it may believe more.

    the steps of a rendered artifact               (`steps_rendered`)
    the record after a firing was read             (`believed`)
-/
import Rescind.Engine.Script
import Rescind.Lib.Results
import Rescind.Safety.Targets

namespace Rescind.Render

open Lib Lib.Cmd
open Lib.Prog (Keeps bind_ok_inv)

/-! ## The steps of an artifact -/

/-- The covered steps of a plan. -/
def coveredSteps (p : Plan) : List Nat := ((coverage p).map Coverage.covered).getD []

theorem numbers_of_mapM {α : Type} {f : α → Except RenderError Step} {n : α → Nat}
    (hf : ∀ x s, f x = .ok s → s.n = n x) {xs : List α} {ss : List Step} (h : xs.mapM f = .ok ss) :
    ss.map Step.n = xs.map n := by
  induction xs generalizing ss with
  | nil =>
      cases h
      rfl
  | cons x xs ih =>
      rw [List.mapM_cons] at h
      obtain ⟨s, hs, h⟩ := ok_of_bind h
      obtain ⟨rest, hrest, h⟩ := ok_of_bind h
      cases h
      rw [List.map_cons, List.map_cons, hf x s hs, ih hrest]

theorem number_of_stepActions {n : Nat} {o : Op} {shell : Shell} {host : HostRecord} {b : Bindings} {s : Step}
    (h : stepActions n o shell host b = .ok s) : s.n = n := by
  obtain ⟨actions, -, h⟩ := ok_of_bind h
  cases h
  rfl

/-- The steps of a rendered artifact are the plan's covered steps, the last of them
first, and it is rendered for the instance. -/
theorem steps_rendered {site : Site} {p : Plan} {host : String} {inst : Instance} {b : Bindings} {a : Artifact}
    (h : render site p host inst b = .ok a) :
    a.context.steps.map Step.n = (coveredSteps p).reverse ∧ a.context.inst = inst := by
  unfold render at h
  split at h
  next bs cov hbs hcov =>
    split at h
    · cases h
    · split at h
      · cases h
      · split at h
        · obtain ⟨ss, hss, h⟩ := ok_of_bind h
          obtain ⟨quotations, -, h⟩ := ok_of_bind h
          cases h
          have hcovered : coveredSteps p = targetUndoSteps p.body := by
            unfold coveredSteps coverage
            rw [hbs]
            rfl
          refine ⟨?_, rfl⟩
          rw [numbers_of_mapM (fun _ _ hs => number_of_stepActions hs) hss, hcovered, ← coveredOps_fst, List.map_reverse]
        · cases h
  next => cases h

/-! ## Reading what was left -/

section
variable {σ : Type} {E : Setting σ} {c : Context} {host : Host} {look : σ → Tree} {w w' : World σ}
  {i : Nat} {r : InstanceRecord}

/-- The markers of some steps, read one by one. -/
theorem read_markers (hk : Keeping E c host look) {ns acc out : List Nat}
    (h : Prog.loop (fun n (undone : List Nat) => do
      if ← hasFile E i host c.inst.id ("markers/" ++ toString n) then pure undone
      else pure (undone ++ [n])) ns acc w = (.ok out, w')) :
    out = acc ++ ns.filter (fun n => (look w.out (c.marker n)).isNone) ∧ Beside look w w' := by
  induction ns generalizing acc w with
  | nil =>
      cases h
      exact ⟨(List.append_nil _).symm, refl_of (Beside look) _⟩
  | cons n ns ih =>
      obtain ⟨undone, w₁, hone, hrest⟩ := bind_ok_inv (m := _ >>= _) h
      obtain ⟨there, w₂, hfile, hone⟩ := bind_ok_inv hone
      obtain ⟨hb, hbeside⟩ := hk.hasFile hfile
      have hstep : undone = acc ++ (if (look w.out (c.marker n)).isNone then [n] else []) ∧ w₁ = w₂ := by
        have hb : there = (look w.out (c.marker n)).isSome := hb
        cases hn : look w.out (c.marker n) with
        | none =>
            rw [hb, hn] at hone
            cases hone
            exact ⟨rfl, rfl⟩
        | some t =>
            rw [hb, hn] at hone
            cases hone
            exact ⟨(List.append_nil acc).symm, rfl⟩
      obtain ⟨rfl, rfl⟩ := hstep
      obtain ⟨rfl, hlater⟩ := ih hrest
      refine ⟨?_, trans_of (Beside look) hbeside hlater⟩
      rw [hbeside.files, List.append_assoc, List.filter_cons]
      split <;> rfl

/-- The applied, covered steps whose markers are gone. -/
def goneSteps (c : Context) (r : InstanceRecord) (f : Tree) : List Nat :=
  ((coveredSteps r.plan).filter fun n => (appliedSteps r).contains n).filter fun n => (f (c.marker n)).isNone

theorem mem_goneSteps {f : Tree} {a : AppliedStep} (ha : a ∈ r.applied) :
    a.step ∈ goneSteps c r f ↔ a.step ∈ coveredSteps r.plan ∧ f (c.marker a.step) = none := by
  have happ : (appliedSteps r).contains a.step = true :=
    List.contains_iff_mem.mpr (List.mem_map_of_mem ha)
  simp only [goneSteps, List.mem_filter, happ, and_true, Option.isNone_iff_eq_none]

theorem undoneByArtifact_ok (hk : Keeping E c host look) (hid : r.id = c.inst.id) {out : List Nat}
    (h : undoneByArtifact E i host r w = (.ok out, w')) :
    out = goneSteps c r (look w.out) ∧ Beside look w w' := by
  unfold undoneByArtifact at h
  rw [hid] at h
  exact read_markers hk h

/-- What a firing that was read makes of the record. -/
theorem readFired_ok (hk : Keeping E c host look) {st : BackstopState} (hid : w.hand.id = c.inst.id)
    (hst : w.hand.backstop = some st) (hhost : hostOf E w.hosts st.host = some host)
    (h : backstopReadFired E w = (.ok true, w')) :
    w'.hand.applied = w.hand.applied.filter fun a => !(goneSteps c w.hand (look w.out)).contains a.step := by
  unfold backstopReadFired at h
  obtain ⟨r, w₀, hr, h⟩ := bind_ok_inv h
  cases hr
  rw [hst] at h
  dsimp only at h
  by_cases hout : (!st.installed || st.fired || w.hand.rehearsal) = true
  · rw [if_pos hout] at h
    cases h
  · rw [if_neg hout] at h
    obtain ⟨hosts, w₁, hh, h⟩ := bind_ok_inv h
    cases hh
    rw [hhost] at h
    dsimp only at h
    cases hi : executorIndex E host with
    | none =>
        rw [hi] at h
        cases h
    | some i =>
        rw [hi] at h
        obtain ⟨fired, w₂, hfired, h⟩ := bind_ok_inv h
        rw [hid] at hfired
        obtain ⟨-, hb₂⟩ := hk.hasFile hfired
        cases fired with
        | false => cases h
        | true =>
            obtain ⟨undone, w₃, hundone, h⟩ := bind_ok_inv h
            obtain ⟨rfl, hb₃⟩ := undoneByArtifact_ok hk hid hundone
            rw [hid] at h
            obtain ⟨drift, w₄, hdrift, h⟩ := bind_ok_inv h
            obtain ⟨-, hb₄⟩ := hk.hasFile hdrift
            obtain ⟨clobbered, w₅, hclob, h⟩ := bind_ok_inv h
            obtain ⟨-, hb₅⟩ := hk.hasFile hclob
            obtain ⟨_, w₆, hlogs, h⟩ := bind_ok_inv h
            have hb₆ : Beside look w₅ w₆ := (Keeps.loop _ (fun n _ => keeps_log hk _) ()).ran hlogs
            obtain ⟨_, w₇, hclog, h⟩ := bind_ok_inv h
            have hb₇ : Beside look w₆ w₇ := (Keeps.when (keeps_log hk _)).ran hclog
            obtain ⟨_, w₈, hdlog, h⟩ := bind_ok_inv h
            have hb₈ : Beside look w₇ w₈ := (Keeps.when (keeps_log hk _)).ran hdlog
            obtain ⟨_, w₉, hset, h⟩ := bind_ok_inv h
            cases hset
            obtain ⟨_, w₁₀, hper, h⟩ := bind_ok_inv h
            have hb₁₀ := (keeps_persist hk).ran hper
            obtain ⟨_, w₁₁, hnote, h⟩ := bind_ok_inv h
            cases hnote
            cases h
            have hhand : w₈.hand = w.hand := hb₈.hand.trans (hb₇.hand.trans (hb₆.hand.trans (hb₅.hand.trans
              (hb₄.hand.trans (hb₃.hand.trans hb₂.hand)))))
            show w₁₀.hand.applied = _
            rw [hb₁₀.hand]
            show w₈.hand.applied.filter _ = _
            rw [hhand, hb₂.files]

/-- **What the engine believes.**  From when the markers of the applied covered steps were
on the target, let the artifact run any number of times and be killed wherever, and let
the engine then read that it has fired.  An application of a covered step is dropped
where the step's marker is gone, and then the marker went in one of the runs, behind the
whole of the step's section; every other application stays. -/
theorem believed {m : Machine} {st : BackstopState} {site : Site} {name : String} {inst : Instance}
    {b : Bindings} {a : Artifact} {f : Tree} (ha : render site w.hand.plan name inst b = .ok a)
    (hk : Keeping E a.context host look) (hh : Housed m a.context) (hid : w.hand.id = inst.id)
    (hst : w.hand.backstop = some st) (hhost : hostOf E w.hosts st.host = some host)
    (hist : Relation.ReflTransGen (Happens m a.context) f (look w.out))
    (hmarked : ∀ x ∈ w.hand.applied, x.step ∈ coveredSteps w.hand.plan →
      (f (a.context.marker x.step)).isSome = true)
    (h : backstopReadFired E w = (.ok true, w')) :
    w'.hand.applied.Sublist w.hand.applied ∧ ∀ x ∈ w.hand.applied,
      (x ∈ w'.hand.applied ∧
        (x.step ∈ coveredSteps w.hand.plan → (look w.out (a.context.marker x.step)).isSome = true)) ∨
      x ∉ w'.hand.applied ∧ x.step ∈ coveredSteps w.hand.plan ∧
        ∃ s f₁ g₁, s.n = x.step ∧ Relation.ReflTransGen (Happens m a.context) f f₁ ∧
          Went m a.context s f₁ g₁ ∧ Relation.ReflTransGen (Happens m a.context) g₁ (look w.out) := by
  obtain ⟨hsteps, hinst⟩ := steps_rendered ha
  have hcov : ∀ n ∈ coveredSteps w.hand.plan, ∃ s ∈ a.context.steps, s.n = n := by
    intro n hn
    rw [← List.mem_reverse, ← hsteps] at hn
    exact List.mem_map.mp hn
  rw [readFired_ok hk (hid.trans (congrArg Instance.id hinst.symm)) hst hhost h]
  refine ⟨List.filter_sublist, fun x hx => ?_⟩
  rw [List.mem_filter, Bool.not_eq_true', ← Bool.not_eq_true, List.contains_iff_mem, mem_goneSteps hx]
  by_cases hgone : x.step ∈ coveredSteps w.hand.plan ∧ look w.out (a.context.marker x.step) = none
  · obtain ⟨hc, hnone⟩ := hgone
    obtain ⟨s, hs, hn⟩ := hcov _ hc
    have hf : (f (a.context.marker s.n)).isSome = true := by
      rw [hn]
      exact hmarked x hx hc
    obtain ⟨f₁, g₁, hf₁, hwent, hg₁⟩ := marker_went hh hs hist hf (by rw [hn]; exact hnone)
    exact Or.inr ⟨fun h => h.2 ⟨hc, hnone⟩, hc, s, f₁, g₁, hn, hf₁, hwent, hg₁⟩
  · refine Or.inl ⟨⟨hx, hgone⟩, fun hc => ?_⟩
    rw [Option.isSome_iff_ne_none]
    exact fun hnone => hgone ⟨hc, hnone⟩

end

/-! ## One file, read back -/

namespace OneFile

/-- An outside whose state is the files of the target. -/
def setting : Setting Tree :=
  { ({} : Script).setting with
    outside := {
      answer := fun k q => (match q with
        | .getFile _ _ _ rel =>
            some (match k ((context .clobber).file rel) with
              | some t => .ok (Bytes.ofText t)
              | none => .error "no such file")
        | q => ({} : Script).answer 0 q, match q with
        | .replaceFile _ _ _ rel bytes =>
            Function.update k ((context .clobber).file rel) (some (Bytes.lossy bytes))
        | _ => k) } }

theorem keeping (host : Host) : Keeping setting (context .clobber) host id where
  replaced h := by
    cases h
    rfl
  refused h := by cases h
  got {k k' i rel a} h := by
    cases h
    refine ⟨rfl, ?_⟩
    show Option.isSome (Except.toOption (match k ((context .clobber).file rel) with | some t => _ | none => _)) =
      (k ((context .clobber).file rel)).isSome
    cases k ((context .clobber).file rel) <;> rfl
  home {k q} hq := by cases q <;> first | rfl | cases hq

def op : Op where
  id := "put"
  footprint := [{ kind := .modified, shape := "file:/etc/f" }]
  drift := some .clobber
  undoLocus := .target

def plan : PlanIr where
  site := smallSite ["web"]
  requester := "ops"
  plan := { id := "p", owner := "web", wane := some ⟨3600⟩, backstop := some ⟨[.after ⟨3600⟩], 1⟩
            body := [.step { op }] }

/-- The step was applied, and the artifact has fired. -/
def fired : World Tree where
  out := (firing machine (context .clobber) 9 .held).after (files "new")
  hosts := [("web", smallHost "web")]
  hand := { id := "i", ir := plan, params := [], state := .applied, permanent := false, rehearsal := false
            applied := [⟨1, 0, []⟩]
            backstop := some { host := "web", artifact := "artifact.sh", scheduler := "cron", installed := true
                               armed := true, deadline := some ⟨5⟩, heartbeatS := none, intervalS := none
                               lastHeartbeat := none, confirmed := false, fired := false } }

def readBack : World Tree := (backstopReadFired setting fired).2

theorem context_rendered : ∃ a, render plan.site plan.plan "web" ⟨"i", some "/r"⟩ (bindings [] (smallHost "web")) = .ok a ∧
    a.context = context .clobber := by
  have h : (render plan.site plan.plan "web" ⟨"i", some "/r"⟩ (bindings [] (smallHost "web"))).toOption.map Artifact.context =
      some (context .clobber) := by
    decide +kernel
  cases hr : render plan.site plan.plan "web" ⟨"i", some "/r"⟩ (bindings [] (smallHost "web")) with
  | error e =>
      rw [hr] at h
      cases h
  | ok a =>
      rw [hr] at h
      exact ⟨a, rfl, Option.some.inj h⟩

/-- Whether a firing was read. -/
def wasRead : Res EngineError Bool → Bool
  | .ok b => b
  | _ => false

theorem told_readBack : wasRead (backstopReadFired setting fired).1 = true ∧ readBack.hand.applied = [] := by
  decide +kernel

theorem run_readBack : backstopReadFired setting fired = (.ok true, readBack) := by
  refine Prog.eq_of_fst ?_
  have h := told_readBack.1
  unfold wasRead at h
  split at h
  next b he => rw [he, h]
  next => cases h

theorem believed_restored : ∃ s f₁ g₁, s.n = 1 ∧
    Relation.ReflTransGen (Happens machine (context .clobber)) (files "new") f₁ ∧
    Went machine (context .clobber) s f₁ g₁ ∧
    Relation.ReflTransGen (Happens machine (context .clobber)) g₁ fired.out := by
  obtain ⟨a, ha, hc⟩ := context_rendered
  have hkeeping : Keeping setting a.context (smallHost "web") id := hc ▸ keeping _
  have hb := believed (w := fired) (f := files "new") (m := machine) ha hkeeping (hc ▸ housed .clobber)
    rfl rfl (by decide)
    (hc ▸ .single (Or.inl ⟨9, .held, Cut.whole _ _⟩))
    (fun x hx _ => by
      rw [hc, List.mem_singleton.mp hx]
      decide +kernel) run_readBack
  rcases hb.2 ⟨1, 0, []⟩ List.mem_cons_self with ⟨h, -⟩ | ⟨-, -, h⟩
  · rw [told_readBack.2] at h
    cases h
  · rwa [hc] at h

end OneFile

end Rescind.Render
