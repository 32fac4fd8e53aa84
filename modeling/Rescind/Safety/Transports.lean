/-
# `Rescind.Safety.Transports` — the verdict and the engine on what is reached

Which transport reaches a host is decided three times: where the verdict lists
its deferred steps, where the checker judges a body by the transport it would be
sent over, and where the engine picks an executor.  For an engine that is the
site's (`Equipped`) the three agree on a step exactly where its host is judged
as it is served (`Judged`).

Whether a transport that is declared works is not asked.

**Proved here.**

    the engine's executor serves the first transport reached   (`servedBy_eq`)
    a step not deferred goes on to its blocks                  (`runStep_eq`)
    a host is judged as it is served                           (`hostAgrees_iff`)
    so the two agree exactly where every host is               (`reach_agrees_iff`)
-/
import Rescind.Core.Numbering
import Rescind.Lib.Results
import Rescind.Engine.Script

namespace Rescind

open Lib Lib.Prog

/-! ## What the checker reads off a host's record -/

/-- A transport the site declares reaches the host. -/
def declaredReach (site : Site) (h : String) : Bool :=
  match hostRecord site h with
  | none => false
  | some r => r.reach.any fun t => site.transports.contains t

/-- The transport the checker selects for the host. -/
def recordTransport (site : Site) (h : String) : Option String :=
  (hostRecord site h).bind fun r => selectedTransport site r.reach

/-- The verdict lists the step as deferred. -/
def listed (site : Site) (p : Plan) (o : Op) : Bool :=
  match checkStepHost p o with
  | .error _ => true
  | .ok h => h ≠ p.owner && !declaredReach site h

theorem mem_deferredSteps (site : Site) {p : Plan} {n : Nat} {it : Item} {o : Op}
    (hm : (n, it) ∈ numbered p.body) (ho : opOf it = some o) :
    n ∈ deferredSteps site p ↔ listed site p o = true := by
  constructor
  · intro h
    obtain ⟨q, hq, he⟩ := List.mem_filterMap.mp h
    dsimp only at he
    cases hop : opOf q.2 with
    | none =>
        rw [hop] at he
        cases he
    | some o' =>
        rw [hop] at he
        dsimp only at he
        have hl : listed site p o' = true ∧ q.1 = n := by
          unfold listed
          rcases hh : checkStepHost p o' with b | h
          · rw [hh] at he
            exact ⟨rfl, Option.some.inj he⟩
          · rw [hh] at he
            have he : (if (h ≠ p.owner && !declaredReach site h) = true then some q.1 else none) =
              some n := he
            split at he
            next hd => exact ⟨hd, Option.some.inj he⟩
            · cases he
        obtain ⟨hl, rfl⟩ := hl
        have hi := (leafAt_of_mem hq).symm.trans (leafAt_of_mem hm)
        rw [Option.some.inj hi, ho] at hop
        cases hop
        exact hl
  · intro h
    refine List.mem_filterMap.mpr ⟨(n, it), hm, ?_⟩
    dsimp only
    rw [ho]
    dsimp only
    unfold listed at h
    rcases hh : checkStepHost p o with b | name
    · rfl
    · rw [hh] at h
      exact if_pos h

theorem selected_of_declared {site : Site} {h : String} (hd : declaredReach site h = true) :
    (recordTransport site h).isSome = true := by
  unfold declaredReach at hd
  unfold recordTransport
  cases hr : hostRecord site h with
  | none =>
      rw [hr] at hd
      cases hd
  | some r =>
      rw [hr] at hd
      obtain ⟨t, ht, hc⟩ := List.any_eq_true.mp hd
      rw [Option.bind_some, selectedTransport, List.find?_isSome]
      exact ⟨t, ht, by rw [hc, Bool.or_true]⟩

/-! ## What the engine selects -/

section
variable {σ : Type} (E : Setting σ)

/-- The transport of the executor the engine selects for a host. -/
def servedBy (host : Host) : Option String :=
  (executorIndex E host).bind fun i => (E.executors[i]?).map fun e => e.1.transport

/-- Why the engine defers a step before anything else is asked of it: its host is
bound at runtime or not known, or no transport reaches it. -/
def unreached (hosts : Assoc String Host) (r : InstanceRecord) (o : Op) : Option String :=
  match stepHost E hosts r o with
  | .error from_ => some from_
  | .ok host =>
      if host.name ≠ "controller" && (executorIndex E host).isNone then
        some ("no transport reaches " ++ host.name)
      else none

/-- What blocks a step, then its attempt. -/
def blocksThenAttempt (n iteration : Nat) (s : StepI) (knell : Bool) (vars : Vars) (host : Host) :
    Eng σ Flow := do
  match ← stepBlocks E n s knell with
  | some flow => Pure.pure flow
  | none => attemptStep E ⟨n, iteration, vars⟩ s host

/-- A step on a host that is reached. -/
def runReached (n iteration : Nat) (s : StepI) (knell : Bool) (vars : Vars) (host : Host) :
    Eng σ Flow :=
  if s.op.undoLocus = .target && !(capsOf E host).filesystem then refuse E n (noFilesystemFor host)
  else blocksThenAttempt E n iteration s knell vars host

/-- **The engine defers a step** exactly when it is not reached. -/
theorem runStep_eq (n iteration : Nat) (s : StepI) (knell : Bool) (vars : Vars) {w : World σ}
    (hr : w.hand.rehearsal = false) :
    (∀ why, unreached E w.hosts w.hand s.op = some why →
      runStep E n iteration s knell vars w = defer E n iteration vars s.op why w) ∧
    (unreached E w.hosts w.hand s.op = none → ∃ host, stepHost E w.hosts w.hand s.op = .ok host ∧
      runStep E n iteration s knell vars w = runReached E n iteration s knell vars host w) := by
  unfold unreached runStep
  rw [bind_ok (show hand w = (.ok w.hand, w) from rfl),
    bind_ok (show (hostsNow : Eng σ _) w = (.ok w.hosts, w) from rfl)]
  rcases stepHost E w.hosts w.hand s.op with from_ | host
  · refine ⟨fun why h => ?_, fun h => by cases h⟩
    cases h
    rfl
  · simp only [hr, Bool.not_false, Bool.true_and, Bool.and_true]
    by_cases hc : (decide (host.name ≠ "controller") && (executorIndex E host).isNone) = true
    · rw [if_pos hc, if_pos hc]
      refine ⟨fun why h => ?_, fun h => by cases h⟩
      cases h
      rfl
    · rw [if_neg hc, if_neg hc]
      refine ⟨fun why h => ?_, fun _ => ⟨host, rfl, rfl⟩⟩
      cases h

/-- The engine is the site's: an executor for every transport it declares and
`local()`, and the hosts of its inventory. -/
structure Equipped (hosts : Assoc String Host) (site : Site) : Prop where
  executors : ∀ t, (∃ e ∈ E.executors, e.1.transport = t) ↔ t = "local" ∨ t ∈ site.transports
  hosts : ∀ h, (hosts.get h).map Host.record = hostRecord site h

variable {hosts : Assoc String Host} {site : Site}

theorem findIdx_isSome (h : Equipped E hosts site) (t : String) :
    (E.executors.findIdx? fun e => e.1.transport = t).isSome =
      (t = "local" || site.transports.contains t) := by
  rw [List.findIdx?_isSome, Bool.eq_iff_iff, List.any_eq_true]
  simp only [Bool.or_eq_true, decide_eq_true_eq, List.contains_iff_mem]
  exact h.executors t

/-- The engine's executor serves the first transport the site reaches. -/
theorem servedBy_eq (h : Equipped E hosts site) (host : Host) :
    servedBy E host =
      selectedTransport site (if host.name = "controller" then controllerReach else host.record.reach) := by
  unfold servedBy executorIndex
  dsimp only
  induction (if host.name = "controller" then controllerReach else host.record.reach) with
  | nil => rfl
  | cons t ts ih =>
      rw [List.findSome?_cons, selectedTransport, List.find?_cons, ← findIdx_isSome E h t]
      cases hi : E.executors.findIdx? fun e => e.1.transport = t with
      | none => exact ih
      | some i =>
          obtain ⟨hlt, ht, -⟩ := List.findIdx?_eq_some_iff_getElem.mp hi
          rw [Option.bind_some, List.getElem?_eq_getElem hlt]
          exact congrArg some (of_decide_eq_true ht)

/-! ## One host -/

/-- The host of a name, as the engine finds it. -/
theorem hostOf_record (h : Equipped E hosts site) {name : String} (hn : name ≠ "controller") :
    (hostOf E hosts name).map Host.record = hostRecord site name := by
  rw [hostOf, if_neg hn]
  exact h.hosts name

theorem name_of_hostRecord {name : String} {rec : HostRecord}
    (h : hostRecord site name = some rec) : rec.name = name :=
  of_decide_eq_true (List.find?_some (p := fun r : HostRecord => decide (r.name = name)) h)

/-- The transport a host of this name is served by. -/
theorem servedBy_hostOf (h : Equipped E hosts site) (name : String) :
    (hostOf E hosts name).bind (servedBy E) =
      if name = "controller" then selectedTransport site controllerReach
      else recordTransport site name := by
  by_cases hn : name = "controller"
  · rw [if_pos hn, hostOf, if_pos hn, Option.bind_some, servedBy_eq E h]
    rfl
  · rw [if_neg hn, recordTransport]
    have hr := hostOf_record E h hn
    cases hh : hostOf E hosts name with
    | none =>
        rw [hh] at hr
        rw [← hr]
        rfl
    | some host =>
        rw [hh] at hr
        rw [← hr, Option.map_some, Option.bind_some, Option.bind_some, servedBy_eq E h]
        have hname : host.name = name := name_of_hostRecord hr.symm
        rw [hname, if_neg hn]

/-- The engine defers what is done on the host: it does not know it, or nothing
serves it. -/
def deferredOn (hosts : Assoc String Host) (name : String) : Bool :=
  match hostOf E hosts name with
  | none => true
  | some host => host.name ≠ "controller" && (executorIndex E host).isNone

theorem servedBy_isNone (host : Host) : (servedBy E host).isNone = (executorIndex E host).isNone := by
  unfold servedBy
  cases hi : executorIndex E host with
  | none => rfl
  | some i =>
      -- an executor's place is one of the list's
      have hlt : i < E.executors.length := by
        unfold executorIndex at hi
        obtain ⟨_, _, hf⟩ := List.exists_of_findSome?_eq_some hi
        exact (List.findIdx?_eq_some_iff_getElem.mp hf).1
      rw [Option.bind_some, List.getElem?_eq_getElem hlt]
      rfl

theorem deferredOn_eq (h : Equipped E hosts site) (name : String) :
    deferredOn E hosts name = (name ≠ "controller" && (recordTransport site name).isNone) := by
  by_cases hn : name = "controller"
  · rw [deferredOn, hostOf, if_pos hn, hn]
    rfl
  · have hs := servedBy_hostOf E h name
    rw [if_neg hn] at hs
    rw [← hs, deferredOn, decide_eq_true hn, Bool.true_and]
    have hr := hostOf_record E h hn
    cases hh : hostOf E hosts name with
    | none => rfl
    | some host =>
        rw [hh] at hr
        have hname : host.name = name := name_of_hostRecord hr.symm
        dsimp only
        rw [Option.bind_some, servedBy_isNone, hname, decide_eq_true (p := name ≠ "controller") hn,
          Bool.true_and]

/-- A host is judged as it is served.  The controller's name in another locus is
the owner's, or a declared transport reaches the record of that name, and what
the record selects is the controller's own; something serves the owner; what
serves another host, a declared transport does too. -/
def HostJudged (site : Site) (owner name : String) : Prop :=
  if name = "controller" then
    (name = owner ∨ declaredReach site name = true) ∧
      recordTransport site name = selectedTransport site controllerReach
  else if name = owner then (recordTransport site name).isSome = true
  else (recordTransport site name).isSome = true → declaredReach site name = true

/-- The verdict defers what is done on the host as the engine does, and what it
does not defer is served by the transport the checker selects. -/
structure HostAgrees (hosts : Assoc String Host) (site : Site) (owner name : String) : Prop where
  deferred : (name ≠ owner && !declaredReach site name) = deferredOn E hosts name
  served : (name ≠ owner && !declaredReach site name) = false →
    (hostOf E hosts name).bind (servedBy E) = recordTransport site name

theorem hostAgrees_iff (h : Equipped E hosts site) (owner name : String) :
    HostAgrees E hosts site owner name ↔ HostJudged site owner name := by
  have hd := deferredOn_eq E h name
  have hs := servedBy_hostOf E h name
  by_cases hn : name = "controller"
  · rw [if_pos hn] at hs
    rw [HostJudged, if_pos hn]
    have hd : deferredOn E hosts name = false := by
      rw [hd, hn]
      rfl
    constructor
    · rintro ⟨h₁, h₂⟩
      rw [hd] at h₁
      refine ⟨?_, (h₂ h₁).symm.trans hs⟩
      by_cases ho : name = owner
      · exact .inl ho
      · rw [decide_eq_true (p := name ≠ owner) ho, Bool.true_and] at h₁
        exact .inr (by simpa using h₁)
    · rintro ⟨h₁, h₂⟩
      refine ⟨?_, fun _ => hs.trans h₂.symm⟩
      rw [hd]
      rcases h₁ with rfl | h₁
      · simp
      · simp [h₁]
  · rw [if_neg hn] at hs
    rw [decide_eq_true (p := name ≠ "controller") hn, Bool.true_and] at hd
    rw [HostJudged, if_neg hn]
    by_cases ho : name = owner
    · rw [if_pos ho]
      have hl : (decide (name ≠ owner) && !declaredReach site name) = false := by simp [ho]
      constructor
      · rintro ⟨h₁, -⟩
        rw [hl, hd] at h₁
        exact Option.isNone_eq_false_iff.mp h₁.symm
      · intro hsome
        refine ⟨?_, fun _ => hs⟩
        rw [hl, hd, Option.isNone_eq_false_iff.mpr hsome]
    · rw [if_neg ho]
      have hl : (decide (name ≠ owner) && !declaredReach site name) = !declaredReach site name := by
        simp [ho]
      constructor
      · rintro ⟨h₁, -⟩ hsome
        rw [hl, hd, Option.isNone_eq_false_iff.mpr hsome] at h₁
        simpa using h₁
      · intro himp
        refine ⟨?_, fun _ => hs⟩
        rw [hl, hd]
        cases hdec : declaredReach site name with
        | true => rw [Option.isNone_eq_false_iff.mpr (selected_of_declared hdec)]; rfl
        | false =>
            cases ht : (recordTransport site name).isNone with
            | true => rfl
            | false =>
                rw [himp (Option.isNone_eq_false_iff.mp ht)] at hdec
                cases hdec

/-! ## One step -/

/-- A step's host is judged as it is served. -/
def Judged (site : Site) (p : Plan) (o : Op) : Prop :=
  match o.locus with
  | .controller | .host (.bound _) => True
  | .target => HostJudged site p.owner p.owner
  | .host (.static h) => HostJudged site p.owner h

/-- The verdict defers the step as the engine does, and otherwise the executor
the engine selects serves the transport the checker judged it by. -/
structure StepAgrees (hosts : Assoc String Host) (r : InstanceRecord) (o : Op) : Prop where
  deferred : listed r.ir.site r.plan o = (unreached E hosts r o).isSome
  served : listed r.ir.site r.plan o = false → ∃ host, stepHost E hosts r o = .ok host ∧
    servedBy E host = stepTransport r.ir.site r.plan o

/-- A step on a host of some name agrees where the host does. -/
theorem stepAgrees_named {r : InstanceRecord} {o : Op} {name : String}
    (hc : checkStepHost r.plan o = .ok name)
    (ht : stepTransport r.ir.site r.plan o = recordTransport r.ir.site name)
    (hs : ∀ host, stepHost E hosts r o = .ok host ↔ hostOf E hosts name = some host) :
    StepAgrees E hosts r o ↔ HostAgrees E hosts r.ir.site r.plan.owner name := by
  have hl : listed r.ir.site r.plan o =
      (name ≠ r.plan.owner && !declaredReach r.ir.site name) := by
    rw [listed, hc]
  have hu : (unreached E hosts r o).isSome = deferredOn E hosts name := by
    unfold unreached deferredOn
    cases hh : hostOf E hosts name with
    | none =>
        cases hst : stepHost E hosts r o with
        | error why => rfl
        | ok host =>
            rw [(hs host).mp hst] at hh
            cases hh
    | some host =>
        rw [(hs host).mpr hh]
        dsimp only
        cases hd : (decide (host.name ≠ "controller") && (executorIndex E host).isNone) with
        | true => rw [if_pos rfl]; rfl
        | false => rw [if_neg (by simp)]; rfl
  constructor
  · rintro ⟨h₁, h₂⟩
    rw [hl, hu] at h₁
    refine ⟨h₁, fun h => ?_⟩
    obtain ⟨host, hok, hv⟩ := h₂ (hl.trans h)
    rw [(hs host).mp hok, Option.bind_some]
    exact hv.trans ht
  · rintro ⟨h₁, h₂⟩
    refine ⟨by rw [hl, hu]; exact h₁, fun h => ?_⟩
    rw [hl] at h
    have hd := h₁.symm.trans h
    have hv := h₂ h
    cases hh : hostOf E hosts name with
    | none =>
        rw [deferredOn, hh] at hd
        cases hd
    | some host =>
        rw [hh] at hv
        exact ⟨host, (hs host).mpr hh, hv.trans ht.symm⟩

/-- A host known by name is the step's. -/
theorem stepHost_named {r : InstanceRecord} {o : Op} {name : String}
    (hl : o.locus = .host (.static name) ∨ o.locus = .target ∧ r.plan.owner = name) (host : Host) :
    stepHost E hosts r o = .ok host ↔ hostOf E hosts name = some host := by
  unfold stepHost
  rcases hl with hl | ⟨hl, rfl⟩
  · rw [hl]
    dsimp only
    cases hostOf E hosts name with
    | none => simp
    | some h => simp
  · rw [hl]
    dsimp only
    cases hostOf E hosts r.plan.owner with
    | none => simp
    | some h => simp

theorem stepAgrees_iff {r : InstanceRecord} (h : Equipped E hosts r.ir.site) (o : Op) :
    StepAgrees E hosts r o ↔ Judged r.ir.site r.plan o := by
  rcases hl : o.locus with _ | _ | host
  · have hj : Judged r.ir.site r.plan o := by
      rw [Judged, hl]
      trivial
    refine iff_of_true ⟨?_, fun _ => ⟨controllerHost E, ?_, ?_⟩⟩ hj
    · simp [listed, checkStepHost, hl, unreached, stepHost, controllerHost, Host.name]
    · simp [stepHost, hl]
    · rw [servedBy_eq E h, stepTransport, hl]
      rfl
  · rw [Judged, hl]
    exact (stepAgrees_named E (by rw [checkStepHost, hl]) (by rw [stepTransport, hl, checkStepHost, hl]; rfl)
      (stepHost_named E (.inr ⟨hl, rfl⟩))).trans (hostAgrees_iff E h _ _)
  · cases host with
    | static name =>
        rw [Judged, hl]
        exact (stepAgrees_named E (by rw [checkStepHost, hl])
          (by rw [stepTransport, hl, checkStepHost, hl]; rfl) (stepHost_named E (.inl hl))).trans
          (hostAgrees_iff E h _ _)
    | bound name =>
        have hj : Judged r.ir.site r.plan o := by
          rw [Judged, hl]
          trivial
        refine iff_of_true ⟨?_, fun hf => ?_⟩ hj
        · simp [listed, checkStepHost, hl, unreached, stepHost]
        · simp [listed, checkStepHost, hl] at hf

/-! ## Probes -/

/-- The text of the plan has no body of its own for the probe, so the checker
asks who answers it by name. -/
def answeredByName (p : Plan) (name : String) : Bool :=
  !((p.probes.find? fun d => d.name = name || d.produces.contains name).map
    fun d => d.body.any Prim.isRun).getD false

/-- The probe is observed at the controller. -/
def atController (p : Plan) (name : String) : Bool :=
  (p.probes.find? fun d => d.name = name || d.produces.contains name).map ProbeDecl.locus =
    some .controller

/-- The transport the checker judges a probe by. -/
def probeTransport (site : Site) (p : Plan) (name : String) : Option String :=
  selectedTransport site (if atController p name then controllerReach
    else ((hostRecord site p.owner).map HostRecord.reach).getD [])

/-- The host the engine observes a probe on. -/
def probeHost (hosts : Assoc String Host) (p : Plan) (name : String) : Option Host :=
  if atController p name then some (controllerHost E) else hostOf E hosts p.owner

/-- A probe is observed where the engine runs it. -/
theorem probeRun_host {r : InstanceRecord} {host : Host} {name : String}
    {run : Host × String × List RPrim} (hh : hostOf E hosts r.plan.owner = some host)
    (h : probeRun E r host name = .ok run) : probeHost E hosts r.plan name = some run.1 := by
  unfold probeRun at h
  unfold probeHost atController
  cases hd : r.plan.probes.find? fun d => d.name = name || d.produces.contains name with
  | none =>
      rw [hd] at h
      cases h
      rw [if_neg (by simp), hh]
  | some d =>
      rw [hd] at h
      obtain ⟨body, -, h⟩ := ok_of_bind h
      cases h
      by_cases hl : d.locus = .controller
      · rw [if_pos hl, if_pos (by simp [hl])]
      · rw [if_neg hl, if_neg (by simp [hl]), hh]

/-- The owner is judged as it is served, where a probe is observed on it. -/
def ProbeJudged (site : Site) (p : Plan) (name : String) : Prop :=
  atController p name = true ∨ p.owner ≠ "controller" ∨
    recordTransport site p.owner = selectedTransport site controllerReach

theorem probeTransport_owner {p : Plan} {name : String} (h : atController p name = false) :
    probeTransport site p name = recordTransport site p.owner := by
  rw [probeTransport, h, if_neg (by simp), recordTransport]
  cases hostRecord site p.owner with
  | none => rfl
  | some r => rfl

theorem probeAgrees_iff (h : Equipped E hosts site) (p : Plan) (name : String) :
    (probeHost E hosts p name).bind (servedBy E) = probeTransport site p name ↔
      ProbeJudged site p name := by
  unfold ProbeJudged
  cases hc : atController p name with
  | true =>
      rw [probeHost, probeTransport, hc, if_pos rfl, if_pos rfl, Option.bind_some, servedBy_eq E h]
      exact iff_of_true rfl (.inl rfl)
  | false =>
      rw [probeHost, hc, if_neg (by simp), servedBy_hostOf E h, probeTransport_owner hc]
      by_cases ho : p.owner = "controller"
      · rw [if_pos ho]
        simp [ho, eq_comm]
      · rw [if_neg ho]
        simp [ho]

/-- A body with a hook's action is judged by a hook's transport. -/
theorem hook_of_executorDiagnostics {p : Plan} {n : Nat} {o : Op} {t : String}
    (h : executorDiagnostics site p n o = []) (hb : ∃ b ∈ bodies o, b.any Prim.isHook = true)
    (ht : stepTransport site p o = some t) : isHookTransport t = true := by
  obtain ⟨b, hb, hh⟩ := hb
  rw [executorDiagnostics, ht] at h
  dsimp only at h
  split at h
  next hk => exact hk
  next =>
    rw [List.map_eq_nil_iff, List.filter_eq_nil_iff] at h
    exact absurd hh (h b hb)

theorem mem_firstByName {xs : List (Option Nat × String)} {q : Option Nat × String} (h : q ∈ xs)
    (seen : List String) (hs : q.2 ∉ seen) : ∃ n, (n, q.2) ∈ firstByName xs seen := by
  induction xs generalizing seen with
  | nil => cases h
  | cons x xs ih =>
      obtain ⟨n, name⟩ := x
      rw [firstByName]
      split
      next hc =>
        rcases List.mem_cons.mp h with rfl | h
        · exact absurd (List.contains_iff_mem.mp hc) hs
        · exact ih h _ hs
      next =>
        by_cases he : q.2 = name
        · exact ⟨n, he ▸ List.mem_cons_self⟩
        · rcases List.mem_cons.mp h with rfl | h
          · exact absurd rfl he
          · obtain ⟨m, hm⟩ := ih h (name :: seen) (by simp [he, hs])
            exact ⟨m, List.mem_cons_of_mem _ hm⟩

/-- A probe asked for by name is judged by a hook's transport. -/
theorem hook_of_probeDiagnostics {p : Plan} {q : Option Nat × String} {t : String}
    (h : probeDiagnostics site p = []) (hq : q ∈ observedProbes p)
    (hn : answeredByName p q.2 = true) (ht : probeTransport site p q.2 = some t) :
    isHookTransport t = true := by
  obtain ⟨n, hm⟩ := mem_firstByName hq [] List.not_mem_nil
  have h := List.flatMap_eq_nil_iff.mp h (n, q.2) hm
  dsimp only at h
  unfold answeredByName at hn
  rw [if_neg (by simpa using hn)] at h
  rw [probeTransport] at ht
  unfold atController at ht
  cases hd : (p.probes.find? fun d => d.name = q.2 || d.produces.contains q.2).map
      ProbeDecl.locus with
  | none =>
      rw [hd] at h ht
      rw [if_neg (by simp)] at ht
      rw [ht] at h
      simpa [flag] using h
  | some l =>
      rw [hd] at h ht
      by_cases hl : l = .controller
      · subst hl
        rw [if_pos (by simp)] at ht
        rw [ht] at h
        simpa [flag] using h
      · rw [if_neg (by simp [hl])] at ht
        cases l with
        | controller => exact absurd rfl hl
        | target | host l =>
            rw [ht] at h
            simpa [flag] using h

/-! ## The verdict and the engine -/

/-- The verdict and the engine agree on what is reached, and by what. -/
structure ReachAgrees (w : World σ) : Prop where
  steps : ∀ n it o, (n, it) ∈ numbered w.hand.plan.body → opOf it = some o →
    (n ∈ deferredSteps w.hand.ir.site w.hand.plan ↔ (unreached E w.hosts w.hand o).isSome = true) ∧
    (n ∉ deferredSteps w.hand.ir.site w.hand.plan → ∃ host,
      stepHost E w.hosts w.hand o = .ok host ∧
        servedBy E host = stepTransport w.hand.ir.site w.hand.plan o)
  probes : ∀ q ∈ observedProbes w.hand.plan, answeredByName w.hand.plan q.2 = true →
    (probeHost E w.hosts w.hand.plan q.2).bind (servedBy E) =
      probeTransport w.hand.ir.site w.hand.plan q.2

/-- Every host a step or a probe of the plan uses is judged as it is served. -/
structure ReachJudged (site : Site) (p : Plan) : Prop where
  steps : ∀ n it o, (n, it) ∈ numbered p.body → opOf it = some o → Judged site p o
  probes : ∀ q ∈ observedProbes p, answeredByName p q.2 = true → ProbeJudged site p q.2

/-- A hook's action and a probe known by name are never sent to `local()` or
`ssh()`. -/
structure HooksKept (w : World σ) : Prop where
  actions : ∀ n it o, (n, it) ∈ numbered w.hand.plan.body → opOf it = some o →
    n ∉ deferredSteps w.hand.ir.site w.hand.plan → (∃ b ∈ bodies o, b.any Prim.isHook = true) →
    ∀ host t, stepHost E w.hosts w.hand o = .ok host → servedBy E host = some t →
      isHookTransport t = true
  probes : ∀ q ∈ observedProbes w.hand.plan, answeredByName w.hand.plan q.2 = true →
    ∀ host run t, hostOf E w.hosts w.hand.plan.owner = some host →
      probeRun E w.hand host q.2 = .ok run → servedBy E run.1 = some t → isHookTransport t = true

variable {w : World σ}

theorem reachAgrees_iff_judged (h : Equipped E w.hosts w.hand.ir.site) :
    ReachAgrees E w ↔ ReachJudged w.hand.ir.site w.hand.plan := by
  constructor
  · intro ha
    refine ⟨fun n it o hm ho => ?_, fun q hq hn => (probeAgrees_iff E h _ _).mp (ha.probes q hq hn)⟩
    obtain ⟨h₁, h₂⟩ := ha.steps n it o hm ho
    have hl := mem_deferredSteps w.hand.ir.site hm ho
    refine (stepAgrees_iff E h o).mp ⟨?_, fun hf => h₂ ?_⟩
    · rw [Bool.eq_iff_iff, ← hl, h₁]
    · rw [hl, hf]
      exact Bool.false_ne_true
  · intro hj
    refine ⟨fun n it o hm ho => ?_, fun q hq hn => (probeAgrees_iff E h _ _).mpr (hj.probes q hq hn)⟩
    obtain ⟨h₁, h₂⟩ := (stepAgrees_iff E h o).mpr (hj.steps n it o hm ho)
    have hl := mem_deferredSteps w.hand.ir.site hm ho
    refine ⟨by rw [hl, h₁], fun hn => h₂ ?_⟩
    rw [hl] at hn
    simpa using hn

/-- Where the two agree on a plan the check passes, hooks are kept to. -/
theorem hooksKept_of_agrees (hc : checkClean w.hand.ir = true) (ha : ReachAgrees E w) :
    HooksKept E w := by
  refine ⟨fun n it o hm ho hn hb host t hs ht => ?_, fun q hq hn host run t hh hrun ht => ?_⟩
  · obtain ⟨host', hs', hv⟩ := (ha.steps n it o hm ho).2 hn
    cases hs.symm.trans hs'
    exact hook_of_executorDiagnostics (executorDiagnostics_of_checkClean hc hm ho) hb
      (hv.symm.trans ht)
  · have hp := ha.probes q hq hn
    rw [probeRun_host E hh hrun, Option.bind_some, ht] at hp
    exact hook_of_probeDiagnostics (probeDiagnostics_of_checkClean hc) hq hn hp.symm

end

/-- **The verdict and the engine agree on reach** exactly where every host is
judged as it is served.  The engine is the site's and the plan passes its check;
a step the engine finds unreached is deferred, any other goes on to its blocks on
the host found. -/
theorem reach_agrees_iff {σ : Type} (E : Setting σ) {w : World σ}
    (h : Equipped E w.hosts w.hand.ir.site) (hc : checkClean w.hand.ir = true) :
    (ReachAgrees E w ∧ HooksKept E w ↔ ReachJudged w.hand.ir.site w.hand.plan) ∧
      ∀ n iteration s knell vars, w.hand.rehearsal = false →
        (∀ why, unreached E w.hosts w.hand s.op = some why →
          runStep E n iteration s knell vars w = defer E n iteration vars s.op why w) ∧
        (unreached E w.hosts w.hand s.op = none →
          ∃ host, stepHost E w.hosts w.hand s.op = .ok host ∧
            runStep E n iteration s knell vars w = runReached E n iteration s knell vars host w) := by
  refine ⟨⟨fun ha => (reachAgrees_iff_judged E h).mp ha.1, fun hj => ?_⟩,
    fun n iteration s knell vars hr => runStep_eq E n iteration s knell vars hr⟩
  have ha := (reachAgrees_iff_judged E h).mpr hj
  exact ⟨ha, hooksKept_of_agrees E hc ha⟩

/-! ## A host only `local()` reaches -/

namespace LocalOnly

/-- The site declares `ssh()`; the engine has `local()` beside it. -/
def equipment : Setting Nat :=
  { Script.setting {} with executors := [(.local_, ⟨true, true⟩), (.ssh, ⟨true, true⟩)] }

/-- `web` is reached by `ssh()`, `db` by one other transport. -/
def site (t : String) : Site :=
  { smallSite [] with
    hosts := [⟨"web", "linux", ["ssh"], true, true, none⟩, ⟨"db", "linux", [t], true, true, none⟩]
    transports := ["ssh"] }

/-- A step on `db` in a plan of `web`'s. -/
def put : Op :=
  { id := "put"
    locus := .host (.static "db")
    footprint := [{ kind := .owned, shape := "file:/etc/motd" }]
    do_ := [.write ⟨"file:/etc/motd", none⟩ (.lit "x")] }

def plan (t : String) : PlanIr :=
  { smallPlan "motd" "web" [.step { op := put }] with site := site t }

def world (t : String) : World Nat :=
  { smallWorld [] with
    hosts := (site t).hosts.map fun r => (r.name, ⟨r, "10.0.0.1", none, none, []⟩)
    hand := { noRecord with ir := plan t } }

theorem equipped (t : String) :
    Equipped equipment (world t).hosts (world t).hand.ir.site where
  executors t := by
    constructor
    · rintro ⟨e, he, rfl⟩
      rcases List.mem_cons.mp he with rfl | he
      · exact .inl rfl
      · rcases List.mem_cons.mp he with rfl | he
        · exact .inr List.mem_cons_self
        · cases he
    · rintro (rfl | h)
      · exact ⟨_, List.mem_cons_self, rfl⟩
      · exact ⟨_, List.mem_cons_of_mem _ List.mem_cons_self, (List.mem_singleton.mp h).symm⟩
  hosts h := by
    by_cases hw : "web" = h
    · subst hw
      rfl
    · by_cases hd : "db" = h
      · subst hd
        rfl
      · simp [world, plan, site, hostRecord, Assoc.get, hw, hd, Ne.symm hw, Ne.symm hd]

theorem clean_ssh : checkClean (plan "ssh") = true := by decide +kernel

theorem clean_local : checkClean (plan "local") = true := by decide +kernel

/-- Reached by the transport the site declares, the step is judged as it is
served. -/
theorem judged_ssh : ReachJudged (site "ssh") (plan "ssh").plan where
  steps n it o hm ho := by
    cases List.mem_singleton.mp hm
    cases ho
    exact fun _ => rfl
  probes q hq := by cases hq

theorem agrees_ssh : ReachAgrees equipment (world "ssh") ∧ HooksKept equipment (world "ssh") :=
  (reach_agrees_iff equipment (equipped "ssh") clean_ssh).1.mpr judged_ssh

/-- The verdict lists the step as deferred; the engine runs it over
`local()`. -/
theorem disagrees_local :
    Equipped equipment (world "local").hosts (world "local").hand.ir.site ∧
      checkClean (world "local").hand.ir = true ∧ ¬ReachAgrees equipment (world "local") := by
  refine ⟨equipped "local", clean_local, fun ha => ?_⟩
  have h := (ha.steps 1 _ put List.mem_cons_self rfl).1
  exact absurd (h.mp (by decide +kernel)) (by decide +kernel)

end LocalOnly

end Rescind
