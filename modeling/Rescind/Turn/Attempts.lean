/-
# `Rescind.Turn.Attempts` — an application whose `do` was answered

An attempt is the run of an application from its write-ahead entry to the answer
of the executor its `do` was handed to.  What an application's facts are worked
out from stays as it was all the way (`SameFacts`), and the instance directory
is there (`Attempt.housed`).
-/
import Rescind.Turn.Onward
import Rescind.Turn.Reverts

namespace Rescind

open Lib Lib.Prog

variable {σ ε α : Type} (E : Setting σ)

/-! ## What facts are worked out from -/

/-- What the facts of an application are worked out from, and the applications
that hold some. -/
structure Grounds where
  hosts : Assoc String Host
  ir : PlanIr
  params : Vars
  outputs : Vars
  rehearsal : Bool
  applied : List AppliedStep

def World.grounds (w : World σ) : Grounds :=
  ⟨w.hosts, w.hand.ir, w.hand.params, w.hand.outputs, w.hand.rehearsal, w.hand.applied⟩

def SameFacts (w w' : World σ) : Prop := w'.grounds = w.grounds

instance : Coarse (SameFacts (σ := σ)) where
  refl _ := rfl
  trans _ _ _ h h' := Eq.trans h' h
  still {w w'} h := by
    have hh : w'.hosts = w.hosts := congrArg Frame.hosts h.frame
    unfold SameFacts World.grounds
    rw [h.hand, hh]

theorem SameFacts.trans {w w' w'' : World σ} (h : SameFacts w w') (h' : SameFacts w' w'') :
    SameFacts w w'' := Eq.trans h' h

theorem sameFacts_persist : Keeps SameFacts True True (persist E) :=
  Keeps.bind keeps_hand fun _ => Keeps.bind (keeps_writeOk E _).anyEnd fun _ =>
    Keeps.edit fun _ => rfl

theorem sameFacts_snapshotFacts (a : AppliedStep) (i : Nat) (host : Host)
    (facts : List (Nat × FootprintEntry × String)) (pre : Watched) :
    Keeps SameFacts True True (snapshotFacts E a i host facts pre) := by
  induction facts generalizing pre with
  | nil => exact Keeps.pure _
  | cons f rest ih =>
      refine Keeps.bind (Keeps.attempt (keeps_factBytes E host f.2.1.shape).anyEnd) fun x => ?_
      cases x with
      | error why => exact Keeps.pure _
      | ok bytes =>
          dsimp only
          split
          · refine Keeps.ite (Keeps.bind keeps_hand fun _ => Keeps.bind (Keeps.edit fun _ => rfl)
              fun _ => Keeps.fail _) (Keeps.bind ?_ fun _ => ih _)
            exact Keeps.bind keeps_hand fun _ => Keeps.bind (Keeps.when
              (Keeps.bind (keeps_ask E (X := True) _).anyEnd fun _ => Keeps.pure ())) fun _ =>
              Keeps.edit fun _ => rfl
          · exact ih _

theorem sameFacts_snapshot (a : AppliedStep) (op : Op) (host : Host) :
    Keeps SameFacts True True (snapshot E a op host) := by
  unfold snapshot
  cases executorIndex E host with
  | none => exact Keeps.bind (sameFacts_persist E) fun _ => Keeps.pure _
  | some i =>
      refine Keeps.bind (sameFacts_snapshotFacts E a i host _ _) fun x => ?_
      cases x with
      | error why => exact Keeps.pure _
      | ok pre =>
          exact Keeps.bind (Keeps.edit fun _ => rfl) fun _ =>
            Keeps.bind (sameFacts_persist E) fun _ => Keeps.pure _

/-- The own facts are read first, then those to leave alone. -/
theorem readBefore_ok {a : AppliedStep} {op : Op} {host : Host} {pre before : Watched}
    {w w' : World σ} (h : readBefore E a op host w = (.ok (.ok (pre, before)), w')) :
    ∃ u, snapshot E a op host w = (.ok (.ok pre), u) ∧ watched E host a u = (.ok before, w') := by
  obtain ⟨x, u, hs, h⟩ := bind_ok_inv h
  cases x with
  | error why => cases h
  | ok pre' =>
      obtain ⟨y, u', hw, h⟩ := bind_ok_inv h
      cases y with
      | error why => cases h
      | ok before' =>
          cases h
          exact ⟨u, hs, attempt_ok_inv hw⟩

/-! ## The instance directory -/

/-- The directory is there, or the host's executor has none to make. -/
theorem ensured {host : Host} {w w' : World σ}
    (h : ensureInstanceDir E host w = (.ok (.ok ()), w')) :
    SameFacts w w' ∧ (w.hand.rehearsal = false → (capsOf E host).filesystem = true →
      (executorIndex E host).isSome = true → host.name ∈ w'.hand.dirs) := by
  obtain ⟨r, w₁, hr, h⟩ := bind_ok_inv h
  cases hr
  split at h
  next hc =>
    cases h
    refine ⟨rfl, fun hl hf _ => ?_⟩
    simpa [hl, hf] using hc
  next hc =>
    cases hi : executorIndex E host with
    | none =>
        rw [hi] at h
        cases h
        exact ⟨rfl, fun _ _ hs => absurd hs (by simp)⟩
    | some i =>
        rw [hi] at h
        obtain ⟨x, w₂, hx, h⟩ := bind_ok_inv h
        have hk : Still w w₂ :=
          (Keeps.attempt (keeps_createDir E i host _) : Keeps Still True _ _).ran hx
        cases x with
        | error why => cases h
        | ok u =>
            obtain ⟨_, w₃, hw₃, h⟩ := bind_ok_inv h
            cases hw₃
            obtain ⟨_, w₄, hp, h⟩ := bind_ok_inv h
            cases h
            have hf : SameFacts { w₂ with hand := { w₂.hand with dirs := w₂.hand.dirs ++ [host.name] } }
              w' := (sameFacts_persist E).ran hp
            have hh : SameHere _ w' := (onward_persist E).ran hp
            refine ⟨IsTrans.trans _ _ _ (Coarse.still hk) (Eq.trans hf rfl), fun _ _ _ => ?_⟩
            rw [show w'.hand.dirs = w₂.hand.dirs ++ [host.name] from congrArg Here.dirs hh]
            exact List.mem_append_right _ (List.mem_singleton_self _)

/-! ## An attempt -/

/-- The write-ahead entry, and the record that says which application is in
flight. -/
def setOut (a : AppliedStep) (s : StepI) : Eng σ Unit := do
  log E (.applying a.step (undoLine s.op))
  note (.ahead (← hand).id a)
  setHand fun r => { r with attempting := some a }
  persist E

/-- What follows the executor's answer. -/
def answered (a : AppliedStep) (s : StepI) (op : Op) (host : Host) (pre before : Watched) :
    Except String ExecOutput → Eng σ Flow
  | .ok out => afterDo E a s op host pre before out.outputs
  | .error e => failStep E a op pre e

/-- From `w` the `do` of an application came to be handed over and the executor
answered `x`, in `v`: the op made concrete, what its facts read before, and what
it must leave alone read before. -/
inductive Attempt (a : AppliedStep) (s : StepI) (host : Host) (w : World σ) (op : Op)
    (pre before : Watched) (i : Nat) (x : Except String ExecOutput) (v : World σ) : Prop
  | intro (w₀ w₁ w₂ w₃ : World σ) (env : Env) (body : List RPrim)
      (began : setOut E a s w = (.ok (), w₀)) (live : w₀.hand.rehearsal = false)
      (housed : ensureInstanceDir E host w₀ = (.ok (.ok ()), w₁))
      (concrete : concreteOp s.op host (envFor w₀.hand a.vars) = .ok op)
      (observed : readBefore E a op host w₁ = (.ok (.ok (pre, before)), w₂))
      (loaded : ((loadSecrets E (envFor w₀.hand a.vars) op.do_).attempt : Eng σ _) w₂ =
        (.ok (.ok env), w₃))
      (resolved : resolveBody op.do_ host env = .ok body)
      (reached : executorIndex E host = some i)
      (handed : (handOver a >>= fun _ => ask E (.run i host w₃.hand.id body)) w₃ = (.ok x, v))

namespace Attempt

variable {E} {a : AppliedStep} {s : StepI} {host : Host} {w v : World σ} {op : Op}
  {pre before : Watched} {i : Nat} {x : Except String ExecOutput}

/-- The rest of the step is what follows the answer. -/
theorem attemptStep_eq (h : Attempt E a s host w op pre before i x v) :
    attemptStep E a s host w = answered E a s op host pre before x v := by
  obtain ⟨w₀, w₁, w₂, w₃, env, body, began, live, housed, concrete, observed, loaded, resolved,
    reached, handed⟩ := h
  obtain ⟨_, u₁, hlog, began⟩ := bind_ok_inv began
  obtain ⟨_, u₂, hread, began⟩ := bind_ok_inv began
  obtain ⟨_, u₃, hnote, began⟩ := bind_ok_inv began
  obtain ⟨_, u₄, hset, hkeep⟩ := bind_ok_inv began
  have hhand : ∀ u : World σ, (hand : Eng σ InstanceRecord) u = (.ok u.hand, u) := fun _ => rfl
  refine (bind_ok hlog).trans ((bind_ok hread).trans ((bind_ok hnote).trans
    ((bind_ok hset).trans ((bind_ok hkeep).trans ((bind_ok (hhand w₀)).trans ?_)))))
  rw [if_neg (by rw [live]; exact Bool.false_ne_true)]
  refine (bind_ok housed).trans ?_
  simp only [concrete]
  refine (bind_ok observed).trans ((bind_ok loaded).trans ?_)
  simp only [resolved, runDo, reached]
  obtain ⟨_, u₅, hover, hask⟩ := bind_ok_inv handed
  refine (bind_ok (hhand w₃)).trans ((bind_ok hover).trans ((bind_ok hask).trans ?_))
  cases x with
  | ok out => rfl
  | error e => rfl

/-- What its facts are worked out from is as it was, when its own facts and
those it must leave alone had been read and at the end. -/
theorem sameFacts (h : Attempt E a s host w op pre before i x v) :
    SameFacts w v ∧ v.hand.rehearsal = false ∧ executorIndex E host = some i ∧
      ∃ u u', SameFacts w u ∧ watched E host a u = (.ok before, u') := by
  obtain ⟨w₀, w₁, w₂, w₃, env, body, began, live, housed, concrete, observed, loaded, resolved,
    reached, handed⟩ := h
  have hset : Keeps SameFacts True True (setOut E a s) :=
    Keeps.bind (keeps_log E _).anyEnd fun _ => Keeps.bind keeps_hand fun _ =>
      Keeps.bind (Keeps.edit fun _ => rfl) fun _ => Keeps.bind (Keeps.edit fun _ => rfl) fun _ =>
      sameFacts_persist E
  have hrun : Keeps SameFacts True True
      (handOver a >>= fun _ => (ask E (.run i host w₃.hand.id body) : Eng σ _)) :=
    Keeps.bind (Keeps.edit fun _ => rfl) fun _ => (keeps_ask E (X := True) _).anyEnd
  have hload : SameFacts w₂ w₃ :=
    (Keeps.attempt (keeps_loadSecrets E _ _) : Keeps SameFacts True _ _).ran loaded
  obtain ⟨u, hsnap, hwatch⟩ := readBefore_ok E observed
  have hu : SameFacts w₀ u :=
    (ensured E housed).1.trans ((sameFacts_snapshot E a op host).ran hsnap)
  have hw : SameFacts u w₂ := (keeps_watched E host a).ran hwatch
  have hv : SameFacts w₀ v := hu.trans (hw.trans (hload.trans (hrun.ran handed)))
  have hl : v.hand.rehearsal = w₀.hand.rehearsal := congrArg Grounds.rehearsal hv
  exact ⟨(hset.ran began).trans hv, hl.trans live, reached, u, w₂, (hset.ran began).trans hu, hwatch⟩

/-- The instance directory is there by the time its `do` is handed over. -/
theorem housed (h : Attempt E a s host w op pre before i x v)
    (hf : (capsOf E host).filesystem = true) : host.name ∈ v.hand.dirs := by
  obtain ⟨w₀, w₁, w₂, w₃, env, body, began, live, housed, concrete, observed, loaded, resolved,
    reached, handed⟩ := h
  have hdir : host.name ∈ w₁.hand.dirs := (ensured E housed).2 live hf (by rw [reached]; rfl)
  have hrun : Keeps SameHere True True
      (handOver a >>= fun _ => (ask E (.run i host w₃.hand.id body) : Eng σ _)) :=
    Keeps.bind (Keeps.edit fun _ => rfl) fun _ => onward_ask' E rfl
  have hread : SameHere w₁ w₂ := Keeps.ran (onward_readBefore E a op host) observed
  have hload : SameHere w₂ w₃ :=
    (Keeps.attempt (onward_loadSecrets E _ _) : Keeps SameHere True True _).ran loaded
  have hhere : v.here = w₁.here := (Keeps.ran hrun handed).trans (hload.trans hread)
  rw [show v.hand.dirs = w₁.hand.dirs from congrArg Here.dirs hhere]
  exact hdir

end Attempt

end Rescind
