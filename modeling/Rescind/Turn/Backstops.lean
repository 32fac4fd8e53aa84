/-
# `Rescind.Turn.Backstops` — the backstop's operations as turns

Each of them leaves the core of the record in hand alone, and of its docket
changes the backstop only (`Tended`).

    an installation that went through leaves the record saying so   (`turns_backstopInstall`)
    so does an arming                                               (`turns_backstopArm`)
-/
import Rescind.Turn.Rules

namespace Rescind

open Lib Lib.Prog

variable {σ ε α : Type} (E : Setting σ)

/-- A docket without its backstop. -/
def Docket.bare (d : Docket) : Docket := { d with backstop := none }

/-- The operation stayed in its phase; of core and docket only the backstop
changed. -/
structure Tended (w : World σ) (φ φ' : Phase) (w' : World σ) : Prop where
  phase : φ' = φ
  core : w'.hand.core = w.hand.core
  bare : w'.hand.docket.bare = w.hand.docket.bare

/-- The record says a backstop is installed. -/
def HasInstalled (r : InstanceRecord) : Prop := ∃ st, r.backstop = some st ∧ st.installed = true

/-- And armed. -/
def HasArmed (r : InstanceRecord) : Prop :=
  ∃ st, r.backstop = some st ∧ st.installed = true ∧ st.armed = true

theorem HasArmed.installed {r : InstanceRecord} (h : HasArmed r) : HasInstalled r :=
  h.imp fun _ hst => ⟨hst.1, hst.2.1⟩

/-! ## What went through -/

theorem yields_ask (q : Query) : Yields (Said E q) (ask E q : Prog (World σ) ε (Reply q)) := by
  intro w x w' h
  unfold ask at h
  rcases hq : E.outside.answer w.out q with ⟨_ | y, o⟩
  · rw [hq] at h
    cases h
  · rw [hq] at h
    cases h
    exact ⟨w.out, by rw [hq]⟩

theorem yields_orElse (x : Except String α) (msg : String → ε) :
    Yields (fun a => x = .ok a) (orElse x msg : Prog (World σ) ε α) := by
  cases x with
  | ok a => exact Yields.pure rfl
  | error e => exact Yields.fail _

theorem yields_installArtifact (r : InstanceRecord) (host : Host) :
    Yields (Places E r host) (installArtifact E r host) := by
  refine Yields.bind (yields_orElse _ _) fun ft hft => ?_
  obtain ⟨fileName, text⟩ := ft
  cases host.scheduler with
  | none => exact Yields.fail _
  | some sched =>
      dsimp only
      rcases hi : executorIndex E host with _ | i
      · exact Yields.fail _
      · refine Yields.after fun _ => Yields.after fun _ => ?_
        refine Yields.bind (yields_ask E _) fun put hput => Yields.bind (yields_orElse put _) ?_
        rintro u rfl
        refine Yields.after fun _ => Yields.bind (yields_ask E _) fun entry hentry =>
          Yields.bind (yields_orElse entry _) ?_
        rintro u' rfl
        refine Yields.bind (yields_ask E _) fun there hthere => ?_
        match there with
        | .ok .absent => exact Yields.fail _
        | .error e => exact Yields.fail _
        | .ok .present =>
            exact Yields.pure
              ⟨⟨rfl, rfl⟩, rfl, i, text, hi, hft, hput, hentry, .present, nofun, hthere⟩
        | .ok .unknown =>
            exact Yields.pure
              ⟨⟨rfl, rfl⟩, rfl, i, text, hi, hft, hput, hentry, .unknown, nofun, hthere⟩

theorem yields_when {P : Prop} {c : Bool} {m : Prog (World σ) ε Unit} (h : Yields (fun _ => P) m) :
    Yields (fun _ => c = true → P) (when c m) := by
  cases c with
  | true => exact fun s a s' hm _ => h s a s' hm
  | false => exact Yields.pure nofun

theorem yields_armArtifact (r : InstanceRecord) (st : BackstopState) (host : Host) (now : Instant)
    (sched : Schedule) :
    Yields (fun _ => Writes E r st host now sched) (armArtifact E r st host now sched) := by
  unfold armArtifact
  rcases hi : executorIndex E host with _ | i
  · exact Yields.fail _
  · refine Yields.bind (yields_ask E _) fun list hlist => Yields.bind (yields_orElse list _) ?_
    rintro dirs rfl
    refine Yields.bind (Yields.failIf _ _) fun _ hmodes =>
      Yields.bind (yields_ask E _) fun time htime => Yields.bind (yields_orElse time _) ?_
    rintro clock rfl
    refine Yields.bind (Yields.ofExcept _) fun _ hskew =>
      Yields.bind (yields_when (P := Said E (.replaceFile i host r.id "deadline"
        (epochText (sched.deadline.getD now))) (.ok ())) ?_) fun _ hdeadline =>
      Yields.bind (yields_when (P := Said E (.replaceFile i host r.id "heartbeat"
        (epochText now)) (.ok ())) ?_) fun _ hbeat =>
      Yields.after fun _ => Yields.bind (yields_ask E _) fun arm harm => ?_
    · refine Yields.bind (yields_ask E _) fun x hx => ?_
      cases x with
      | ok u => exact Yields.pure hx
      | error e => exact Yields.fail _
    · refine Yields.bind (yields_ask E _) fun x hx => ?_
      cases x with
      | ok u => exact Yields.pure hx
      | error e => exact Yields.fail _
    · cases arm with
      | error e => exact Yields.fail _
      | ok u =>
          refine Yields.pure ⟨i, dirs, clock, hi, hlist, hmodes, htime, hskew, ?_, hbeat, harm⟩
          intro d hd
          rw [hd] at hdeadline
          exact hdeadline rfl

/-! ## Install and arm -/

section
variable {φ : Phase} {w : World σ}

theorem Quiet.tended {w' : World σ} (h : Quiet w w') : Tended w φ φ w' :=
  ⟨rfl, h.hand, by rw [h.docket]⟩

theorem Tended.trans {φ₁ φ₂ : Phase} {w₁ w₂ : World σ} (h : Tended w φ φ₁ w₁)
    (h' : Tended w₁ φ₁ φ₂ w₂) : Tended w φ φ₂ w₂ :=
  ⟨h'.phase.trans h.phase, h'.core.trans h.core, h'.bare.trans h.bare⟩

theorem Tended.state {φ' : Phase} {w' : World σ} (h : Tended w φ φ' w') :
    w'.hand.state = w.hand.state := congrArg Core.state h.core

/-- A change of the backstop, written at once. -/
theorem turns_recorded {f : InstanceRecord → InstanceRecord} {x : α}
    (hc : ∀ r, (f r).core = r.core) (hb : ∀ r, (f r).docket.bare = r.docket.bare)
    (ha : Amends E φ w (f w.hand).docket) :
    Turns E φ (do setHand f; persist E; Pure.pure x : Eng σ α)
      (fun y φ' w' => y = x ∧ Tended w φ φ' w' ∧ w'.hand.backstop = (f w.hand).backstop) w := by
  refine Turns.amend E hc ha (Turns.quietly E (keeps_persist E) fun _ w' h => Traces.pure ⟨rfl, ?_, ?_⟩)
  · exact ⟨rfl, h.hand.trans (hc _), (congrArg Docket.bare h.docket).trans (hb _)⟩
  · exact congrArg Docket.backstop h.docket

/-- A quiet operation whose error is a value, then the rest. -/
theorem Turns.tried {β : Type} {m : Try σ β} {P : β → Prop} {k : Except String β → Eng σ α}
    {Q : α → Phase → World σ → Prop} (hm : Keeps Quiet True (¬Accepts E) m) (hy : Yields P m)
    (hok : ∀ b w', Quiet w w' → P b → Turns E φ (k (.ok b)) Q w')
    (herr : ∀ e w', Quiet w w' → Turns E φ (k (.error e)) Q w') :
    Turns E φ (m.attempt >>= k) Q w := by
  refine Traces.bind (Traces.yields (turns_quiet E (Keeps.attempt hm)) (Yields.attempt hy))
    fun x φ' w' h => ?_
  obtain ⟨⟨rfl, hq⟩, hP⟩ := h
  cases x with
  | ok b => exact hok b w' hq (hP b rfl)
  | error e => exact herr e w' hq

/-- The record in hand is read first. -/
theorem Turns.handTry {β : Type} {f : InstanceRecord → Try σ β} {k : Except String β → Eng σ α}
    {Q : α → Phase → World σ → Prop} (h : Turns E φ ((f w.hand).attempt >>= k) Q w) :
    Turns E φ ((Rescind.hand >>= f).attempt >>= k) Q w := h

/-- How an installation ends. -/
def Installing (E : Setting σ) (w : World σ) (φ : Phase) (x : Except String Unit) (φ' : Phase)
    (w' : World σ) : Prop :=
  Tended w φ φ' w' ∧ (x = .ok () → w.hand.rehearsal = true ∨ HasInstalled w'.hand ∨
    ∃ hosts, backstopHost E hosts w.hand = .ok none)

theorem backstopHost_of_ir {hosts : Assoc String Host} {r r' : InstanceRecord} (h : r'.ir = r.ir) :
    backstopHost E hosts r' = backstopHost E hosts r := by
  simp only [backstopHost, stepHost, InstanceRecord.opAt, InstanceRecord.plan, h]

/-- A host found among the covered steps stays found. -/
theorem foldlM_found {γ δ ε : Type} {f : Option γ → δ → Except ε (Option γ)}
    (h : ∀ c d x, f (some c) d = .ok x → x ≠ none) (ds : List δ) (c : γ) {x : Option γ}
    (hx : ds.foldlM f (some c) = .ok x) : x ≠ none := by
  induction ds generalizing c with
  | nil => cases hx; exact nofun
  | cons d ds ih =>
      rw [List.foldlM_cons] at hx
      rcases hd : f (some c) d with e | y
      · rw [hd] at hx
        cases hx
      · rw [hd] at hx
        rcases y with _ | c'
        · exact absurd rfl (h c d none hd)
        · exact ih c' hx

/-- A backstop that covers a step has a host. -/
theorem backstopHost_ne_none {hosts : Assoc String Host} {r : InstanceRecord} {cov : Coverage}
    (hc : coverage r.plan = some cov) (hn : cov.covered ≠ []) :
    backstopHost E hosts r ≠ .ok none := by
  intro h
  unfold backstopHost at h
  rw [hc] at h
  dsimp only at h
  have hop : ∀ n ∈ cov.covered, (r.opAt n).isSome = true := by
    obtain ⟨b, -, rfl⟩ := Option.map_eq_some_iff.mp hc
    exact fun n hm => op_of_targetUndo hm
  rcases hcov : cov.covered with _ | ⟨n, ns⟩
  · exact hn hcov
  · obtain ⟨op, ho⟩ := Option.isSome_iff_exists.mp (hop n (by rw [hcov]; exact List.mem_cons_self))
    rw [hcov, List.foldlM_cons, ho] at h
    dsimp only at h
    rcases hh : stepHost E hosts r op with e | host
    · rw [hh] at h
      cases h
    · rw [hh] at h
      refine foldlM_found (fun c d x hx => ?_) ns host h rfl
      dsimp only at hx
      split at hx
      · cases hx
        exact nofun
      next op' _ =>
        rcases hh' : stepHost E hosts r op' with e | host'
        · rw [hh'] at hx
          cases hx
        · rw [hh'] at hx
          simp only [Bind.bind, Except.bind] at hx
          split at hx <;> cases hx
          exact nofun

theorem Places.congr {r r' : InstanceRecord} {host : Host} {st : BackstopState}
    (hi : r'.core.identity = r.core.identity) (h : Places E r host st) : Places E r' host st := by
  have hid : r'.id = r.id := congrArg Prod.fst hi
  have hir : r'.ir = r.ir := congrArg (fun x => x.2.1) hi
  have hparams : r'.params = r.params := congrArg (fun x => x.2.2.1) hi
  refine ⟨h.state, h.name, ?_⟩
  rw [hir, hparams, hid]
  exact h.placed

theorem turns_backstopInstall : Turns E φ (backstopInstall E) (Installing E w φ) w := by
  have idle : Tended w φ φ w := (Quiet.refl w).tended
  refine Turns.hand E ?_
  split
  next hr =>
    refine Traces.pure ⟨idle, fun _ => ?_⟩
    rcases (Bool.or_eq_true _ _).mp hr with hr | hr
    · exact .inl hr
    · rcases hb : w.hand.backstop with _ | st
      · simp [hb] at hr
      · exact .inr (.inl ⟨st, hb, by simpa [hb] using hr⟩)
  · refine Turns.hosts E ?_
    rcases hb : backstopHost E w.hosts w.hand with why | _ | host
    · exact Traces.pure ⟨idle, nofun⟩
    · exact Traces.pure ⟨idle, fun _ => .inr (.inr ⟨_, hb⟩)⟩
    · refine Turns.quietly E (keeps_ensureInstanceDir E host) fun x w₁ h₁ => ?_
      cases x with
      | error why => exact Traces.pure ⟨h₁.tended, nofun⟩
      | ok u =>
          refine Turns.handTry E (Turns.tried E (keeps_installArtifact E _ host) (yields_installArtifact E _ host)
            (fun st w₂ h₂ hst => ?_) fun why w₂ h₂ => Traces.pure ⟨(h₁.trans h₂).tended, nofun⟩)
          have hq := h₁.trans h₂
          have hhosts : w₂.hosts = w.hosts := congrArg Frame.hosts hq.frame
          have hin : Installs E w₂.hosts w₂.hand st := by
            refine ⟨host, by rw [hhosts, backstopHost_of_ir E hq.ir, hb], ?_⟩
            exact hst.congr E (congrArg Core.identity h₂.hand)
          rw [← hq.id]
          refine Turns.hosts E (Turns.remark E rfl rfl ⟨rfl, hin⟩ (Traces.mono (turns_recorded E
            (fun _ => rfl) (fun _ => rfl) (.install rfl hin)) fun x φ₃ w₃ h₃ => ?_))
          obtain ⟨-, ht, hs⟩ := h₃
          exact ⟨hq.tended.trans ⟨ht.phase, ht.core, ht.bare⟩, fun _ => .inr (.inl ⟨st, hs, hst.state.1⟩)⟩

/-- How an arming ends. -/
def Arming (w : World σ) (φ : Phase) (x : Except String Unit) (φ' : Phase) (w' : World σ) : Prop :=
  Tended w φ φ' w' ∧
    (x = .ok () → w.hand.rehearsal = false → HasInstalled w.hand → HasArmed w'.hand)

theorem turns_backstopArm : Turns E φ (backstopArm E) (Arming w φ) w := by
  have idle : Tended w φ φ w := (Quiet.refl w).tended
  refine Turns.hand E ?_
  rcases hb : w.hand.backstop with _ | st
  · exact Traces.pure ⟨idle, fun _ _ h => by obtain ⟨st, hs, -⟩ := h; rw [hb] at hs; cases hs⟩
  · dsimp only
    split
    next hc =>
      refine Traces.pure ⟨idle, fun _ hr h => ?_⟩
      obtain ⟨st', hs, hi⟩ := h
      obtain rfl : st = st' := Option.some.inj (hb.symm.trans hs)
      exact ⟨st, hb, hi, by simpa [hr, hi] using hc⟩
    next hc =>
      have hi : st.installed = true := by
        simp only [Bool.or_eq_true, not_or, Bool.not_eq_true, Bool.not_eq_false'] at hc
        exact hc.2
      refine Turns.hosts E ?_
      rcases hh : hostOf E w.hosts st.host with _ | host
      · exact Traces.pure ⟨idle, nofun⟩
      · refine Turns.quietYields E (keeps_ask E _) (yields_ask E _) fun now w₁ h₁ hnow => ?_
        refine Turns.tried E (keeps_armArtifact E _ st host now _) (yields_armArtifact E _ st host now _)
          (fun _ w₂ h₂ hwr => ?_) fun why w₂ h₂ => Traces.pure ⟨(h₁.trans h₂).tended, nofun⟩
        have hq := h₁.trans h₂
        rw [← hq.id]
        have hb₂ : w₂.hand.backstop = some st := (congrArg Docket.backstop hq.docket).trans hb
        have hplan : w₂.hand.plan = w.hand.plan := congrArg PlanIr.plan hq.ir
        have hhosts : w₂.hosts = w.hosts := congrArg Frame.hosts hq.frame
        have harms : Arms E w₂.hosts now w.hand.deadline w₂.hand
            (st.armedAs now (schedule (triggersOf w.hand.plan) now w.hand.deadline)) := by
          refine ⟨rfl, hnow, host, hhosts ▸ hh, ?_⟩
          rw [hplan]
          refine ⟨rfl, rfl, ?_⟩
          unfold Writes
          rw [hq.id]
          exact hwr
        refine Turns.hosts E (Turns.remark E rfl rfl ⟨rfl, harms⟩ (Traces.mono (turns_recorded E
          (fun _ => rfl) (fun _ => rfl) (.arm rfl harms ⟨st, hb₂, hi, hi, rfl, rfl, rfl⟩))
          fun x φ₃ w₃ h₃ => ?_))
        obtain ⟨-, ht, hs⟩ := h₃
        exact ⟨hq.tended.trans ⟨ht.phase, ht.core, ht.bare⟩, fun _ _ _ => ⟨_, hs, hi, rfl⟩⟩

/-! ## Rearm and disarm -/

/-- A change that neither installs nor arms, written at once. -/
theorem turns_eased {f : BackstopState → BackstopState} {x : α} (hf : Eases f) :
    Turns E φ (do setHand fun r => { r with backstop := r.backstop.map f }; persist E; Pure.pure x
      : Eng σ α) (fun _ => Tended w φ) w :=
  Traces.mono (turns_recorded E (fun _ => rfl) (fun _ => rfl) (.ease hf)) fun _ _ _ h => h.2.1

theorem turns_backstopRearm (d : Instant) :
    Turns E φ (backstopRearm E d) (fun _ => Tended w φ) w := by
  have idle : Tended w φ φ w := (Quiet.refl w).tended
  refine Turns.hand E ?_
  cases w.hand.backstop with
  | none => exact Traces.pure idle
  | some st =>
      dsimp only
      split
      · exact Traces.pure idle
      · refine Turns.hosts E ?_
        cases hostOf E w.hosts st.host with
        | none => exact Traces.pure idle
        | some host =>
            refine Turns.quietly E (Keeps.attempt (keeps_rearmArtifact E _ st host d)) fun x w₁ h₁ => ?_
            cases x with
            | error why => exact Traces.pure h₁.tended
            | ok u =>
                exact Traces.mono (turns_eased E ⟨fun _ => rfl, fun _ => id, fun _ => id⟩)
                  fun _ _ _ h => h₁.tended.trans h

/-- What a disarming records. -/
theorem eases_disarmed (whole : Bool) :
    Eases fun b => if whole then { b with confirmed := true, armed := false, installed := false }
      else { b with confirmed := true } := by
  cases whole with
  | true =>
      have hoff : ∀ b : Bool, false = true → b = true := fun _ h => absurd h Bool.false_ne_true
      exact ⟨fun _ => rfl, fun _ => hoff _, fun _ => hoff _⟩
  | false => exact ⟨fun _ => rfl, fun _ => id, fun _ => id⟩

theorem turns_backstopDisarm (which : Disarm) :
    Turns E φ (backstopDisarm E which) (fun _ => Tended w φ) w := by
  have idle : Tended w φ φ w := (Quiet.refl w).tended
  refine Turns.hand E ?_
  cases w.hand.backstop with
  | none => exact Traces.pure idle
  | some st =>
      dsimp only
      split
      · exact Traces.pure idle
      · refine Turns.hosts E ?_
        cases hostOf E w.hosts st.host with
        | none => exact Traces.pure idle
        | some host =>
            refine Turns.quietly E (Keeps.attempt (keeps_disarmArtifact E _ st host _))
              fun x w₁ h₁ => ?_
            cases x with
            | error why => exact Traces.pure h₁.tended
            | ok u =>
                exact Traces.mono (turns_eased E (eases_disarmed _)) fun _ _ _ h => h₁.tended.trans h

theorem turns_removeDirs : Turns E φ (removeDirs E) (fun _ => Tended w φ) w := by
  refine Traces.bind (turns_backstopDisarm E _) fun x φ₁ w₁ h₁ => ?_
  refine Turns.quietly E (keeps_orLog E x) fun _ w₂ h₂ => Turns.hand E ?_
  refine Turns.quietly E (Keeps.loop w₂.hand.dirs
      (fun name _ => keeps_onHost E name fun i host => keeps_ask E (.dirRemove i host w₂.hand.id)) ())
    fun _ w₃ h₃ => Turns.setHand E (fun _ => rfl) fun w₄ h₄ _ =>
    Turns.quietEnd E (keeps_persist E) fun _ w₅ h₅ => ?_
  exact h₁.trans (((h₂.trans h₃).trans h₄).trans h₅).tended

/-! ## Firings and heartbeats -/

/-- What a firing leaves in the record. -/
theorem eases_fired : Eases fun b => { b with fired := true, armed := false } where
  host _ := rfl
  installed _ h := h
  armed _ h := absurd h Bool.false_ne_true

theorem turns_backstopFiredAfterAbandon :
    Turns E φ (backstopFiredAfterAbandon E) (fun _ => Tended w φ) w := by
  have idle : Tended w φ φ w := (Quiet.refl w).tended
  refine Turns.hand E ?_
  cases w.hand.backstop with
  | none => exact Traces.pure idle
  | some st =>
      dsimp only
      split
      · exact Traces.pure idle
      · refine Turns.hosts E ?_
        cases hostOf E w.hosts st.host with
        | none => exact Traces.pure idle
        | some host =>
            dsimp only
            cases executorIndex E host with
            | none => exact Traces.pure idle
            | some i =>
                refine Turns.quietly E (keeps_hasFile E i host _ _) fun has w₁ h₁ => ?_
                split
                · exact Traces.pure h₁.tended
                · refine Turns.quietly E (keeps_log E _) fun _ w₂ h₂ => ?_
                  refine Turns.amend E (fun _ => rfl) (.ease eases_fired)
                    (Turns.quietEnd E (keeps_persist E) fun _ w₃ h₃ => ?_)
                  exact (h₁.trans h₂).tended.trans ⟨rfl, h₃.hand, by rw [h₃.docket]; rfl⟩

end

end Rescind
