/-
# `Rescind.Safety.Spared` — what reconciliation removes, and what it spares

The outside is heard: beside what it answers it keeps what it was asked.  Before a
directory is removed at boot the host has listed it, and the last thing asked of it
is who stamped it.

A host may answer anything, and what it answers is what is known.

**Proved here.**

    what is removed at boot is no living instance's, nor armed and unfired, and no
    stamp of another controller was read; what is reclaimed while armed is forced,
    with a reason                                                         (`spared`)
    a stamp that is not read, a directory that is reclaimed, a firing that was not
    read before boot                                        (`Removed.not_spared`)
-/
import Rescind.Engine.Verbs
import Rescind.Engine.Script

namespace Rescind

open Lib Lib.Prog

/-! ## The outside, heard -/

/-- A question and its answer. -/
abbrev Asked := Sigma fun q : Query => Option (Reply q)

structure Heard (σ : Type) where
  state : σ
  asked : List Asked := []

/-- It answers as it does, and keeps what it was asked. -/
def Outside.heard {σ : Type} (O : Outside σ) : Outside (Heard σ) where
  answer s q := ((O.answer s.state q).1,
    ⟨(O.answer s.state q).2, s.asked ++ [⟨q, (O.answer s.state q).1⟩]⟩)

def Setting.heard {σ : Type} (E : Setting σ) : Setting (Heard σ) :=
  { E with outside := E.outside.heard }

variable {σ : Type} {E : Setting σ} {ε α : Type}

/-- The controller a stamp names, if it is read and is not ours. -/
def stamp (ours : String) : Except String Bytes → Option String
  | .error _ => none
  | .ok bytes =>
      match Bytes.text? bytes with
      | none => none
      | some t =>
          let id := String.ofList (Text.trim t)
          if id = "" || id = ours then none else some id

/-- The host listed the directory so. -/
def Listed (asked : List Asked) (i : Nat) (host : Host) (d : InstanceDirState) : Prop :=
  ∃ dirs, (⟨.dirList i host, some (.ok dirs)⟩ : Asked) ∈ asked ∧ d ∈ dirs

/-- What was found of a directory before it is removed at boot. -/
structure Warranted (ours : String) (living : List String) (asked : List Asked) (i : Nat)
    (host : Host) (inst : String) : Prop where
  unknown : inst ∉ living
  listed : ∃ d, Listed asked i host d ∧ d.inst = inst ∧ ¬(d.armed = true ∧ d.fired = false)
  stamp : ∃ pre x, asked = pre ++ [(⟨.getFile i host inst "controller", some x⟩ : Asked)] ∧
    Rescind.stamp ours x = none

/-- A directory that is reclaimed: the one named, as the host listed it; while it is
armed, forced and with a reason. -/
structure Reclaimed (name : String) (force : Bool) (reason : String) (asked : List Asked) (i : Nat)
    (host : Host) (inst : String) : Prop where
  named : inst = name
  listed : ∃ d, Listed asked i host d ∧ d.inst = inst ∧ (d.armed = true → d.fired = false →
    force = true ∧ Text.trim reason.toList ≠ [])

/-- Each removal is warranted by what was asked before. -/
structure Fair (W : List Asked → Nat → Host → String → Prop) (w w' : World (Heard σ)) : Prop where
  instances : w'.instances = w.instances
  asked : ∃ l, w'.out.asked = w.out.asked ++ l ∧ ∀ pre i host inst r post,
    l = pre ++ (⟨.dirRemove i host inst, r⟩ : Asked) :: post →
      W (w.out.asked ++ pre) i host inst

section
variable {W : List Asked → Nat → Host → String → Prop} {living : List String}
  {w w' w'' : World (Heard σ)} {i : Nat} {host : Host} {inst : String}

theorem Listed.mono {asked : List Asked} {d : InstanceDirState} (h : Listed asked i host d)
    (l : List Asked) : Listed (asked ++ l) i host d := by
  obtain ⟨dirs, hm, hd⟩ := h
  exact ⟨dirs, List.mem_append_left _ hm, hd⟩

theorem Fair.refl (w : World (Heard σ)) : Fair W w w :=
  ⟨rfl, [], (List.append_nil _).symm, fun pre i host inst r post h => by
    cases pre <;> cases h⟩

theorem Fair.trans (h : Fair W w w') (h' : Fair W w' w'') :
    Fair W w w'' := by
  obtain ⟨l, hl, hw⟩ := h.asked
  obtain ⟨l', hl', hw'⟩ := h'.asked
  refine ⟨h'.instances.trans h.instances, l ++ l', by rw [hl', hl, List.append_assoc], ?_⟩
  intro pre i host inst r post he
  rcases List.append_eq_append_iff.mp he with ⟨m, hpre, hrest⟩ | ⟨m, hl'', hrest⟩
  · have h := hw' m i host inst r post hrest
    rwa [hl, List.append_assoc, ← hpre] at h
  · cases m with
    | nil =>
        rw [List.append_nil] at hl''
        have h := hw' [] i host inst r post hrest.symm
        rwa [hl, List.append_nil, hl''] at h
    | cons x m =>
        obtain ⟨rfl, -⟩ := List.cons.inj hrest
        exact hw pre i host inst r m hl''

instance : Std.Refl (Fair (σ := σ) W) := ⟨Fair.refl⟩

instance : IsTrans (World (Heard σ)) (Fair W) := ⟨fun _ _ _ => Fair.trans⟩

/-! ## Questions -/

/-- A question is added to what was asked. -/
theorem ask_heard (E : Setting σ) (q : Query) (w : World (Heard σ)) :
    Post (ask E.heard q : Prog (World (Heard σ)) ε (Reply q)) (fun x w' =>
      w'.instances = w.instances ∧ (∀ e, x ≠ .err e) ∧
        ∃ r, w'.out.asked = w.out.asked ++ [⟨q, r⟩] ∧ ∀ a, x = .ok a → r = some a) w := by
  unfold Post ask
  rcases hq : E.outside.answer w.out.state q with ⟨_ | x, o⟩
  · have h : E.heard.outside.answer w.out q = (none, ⟨o, w.out.asked ++ [⟨q, none⟩]⟩) := by
      show ((E.outside.answer w.out.state q).1, _) = _
      rw [hq]
    rw [h]
    exact ⟨rfl, fun e he => (nomatch he), none, rfl, fun a ha => nomatch ha⟩
  · have h : E.heard.outside.answer w.out q = (some x, ⟨o, w.out.asked ++ [⟨q, some x⟩]⟩) := by
      show ((E.outside.answer w.out.state q).1, _) = _
      rw [hq]
    rw [h]
    exact ⟨rfl, fun e he => (nomatch he), some x, rfl, fun a ha => congrArg some (Res.ok.inj ha)⟩

/-- One more question, warranted if it removes. -/
theorem Fair.of_asked {q : Query} {r : Option (Reply q)} (hi : w'.instances = w.instances)
    (ha : w'.out.asked = w.out.asked ++ [⟨q, r⟩])
    (hw : ∀ i host inst, q = .dirRemove i host inst →
      W w.out.asked i host inst) : Fair W w w' := by
  refine ⟨hi, _, ha, fun pre i host inst x post h => ?_⟩
  cases pre with
  | nil =>
      obtain ⟨hq, -⟩ := List.cons.inj h
      rw [List.append_nil]
      exact hw i host inst (congrArg Sigma.fst hq)
  | cons y pre =>
      have h := congrArg List.length h
      simp at h

/-- It removes nothing. -/
def Query.spares : Query → Bool
  | .dirRemove .. => false
  | _ => true

theorem fair_ask {q : Query} (hq : q.spares = true) :
    Keeps (Fair W) True True (ask E.heard q : Prog (World (Heard σ)) ε (Reply q)) := by
  refine Keeps.ofState fun w => ?_
  obtain ⟨hi, -, r, ha, -⟩ := ask_heard (ε := ε) E q w
  refine .of_asked hi ha fun i host inst he => ?_
  rw [he] at hq
  cases hq

theorem fair_readOk (s : Slot) : Keeps (Fair W) True True (readOk E.heard s) := by
  refine Keeps.bind (fair_ask rfl) fun x => ?_
  cases x with
  | ok u => exact Keeps.pure ()
  | error e => exact Keeps.fail _

theorem Fair.of_still (hi : w'.instances = w.instances) (ho : w'.out = w.out) :
    Fair W w w' :=
  ⟨hi, [], by rw [ho, List.append_nil], fun pre i host inst r post h => by cases pre <;> cases h⟩

theorem fair_keepEntry (e : Entry) : Keeps (Fair W) True True (keepEntry E.heard e) := by
  refine Keeps.bind (fair_ask rfl) fun x => ?_
  cases x with
  | error why => exact Keeps.fail _
  | ok u =>
      refine Keeps.bind (fair_ask rfl) fun y => ?_
      cases y with
      | error why => exact Keeps.fail _
      | ok u => exact Keeps.edit fun w => .of_still rfl rfl

theorem fair_journalSiteEvent (ev : J) :
    Keeps (Fair W) True True (journalSiteEvent E.heard ev) := by
  refine Keeps.bind (fair_ask rfl) fun at_ => Keeps.bind (fair_keepEntry _) fun _ =>
    Keeps.bind (fair_ask rfl) fun refusals => ?_
  split
  · exact Keeps.pure ()
  · exact Keeps.bind (fair_keepEntry _) fun _ => Keeps.bind (fair_ask rfl) fun _ => Keeps.fail _

/-! ## Reconciliation -/

/-- What is asked of a directory's stamp, and what is made of the answer. -/
theorem foreignController_eq (i : Nat) (host : Host) (inst : String) :
    foreignController E i host inst = (ask E (.getFile i host inst "controller") >>= fun x =>
      Pure.pure (stamp E.controllerId x)) := by
  unfold foreignController
  congr 1
  funext x
  cases x with
  | error e => rfl
  | ok bytes =>
      simp only [stamp]
      cases bytes.text? with
      | none => rfl
      | some t =>
          dsimp only
          split <;> rfl

/-- The stamp is read: nothing is removed, and the question is the last. -/
theorem read_stamp (i : Nat) (host : Host) (inst : String) (w : World (Heard σ)) :
    Post ((foreignController E.heard i host inst).attempt :
        Eng (Heard σ) (Except String (Option String))) (fun x w' =>
      Fair W w w' ∧ ∀ a, x = Res.ok a →
        ∃ s, a = .ok s ∧ ∃ pre y, w'.out.asked =
          pre ++ [(⟨.getFile i host inst "controller", some y⟩ : Asked)] ∧
          stamp E.controllerId y = s) w := by
  rw [foreignController_eq]
  refine Post.attempt (P := fun x w' => Fair W w w' ∧ (∀ e, x ≠ .err e) ∧ ∀ s, x = .ok s →
    ∃ pre y, w'.out.asked = pre ++ [(⟨.getFile i host inst "controller", some y⟩ : Asked)] ∧
      stamp E.controllerId y = s) ?_ ?_ ?_ ?_
  · refine Post.bind (ask_heard E _ w) ?_ ?_ ?_
    · rintro y w' ⟨hi, -, r, ha, hr⟩
      have hr := hr y rfl
      subst hr
      refine ⟨.of_asked hi ha fun i host inst he => (nomatch he), fun e he => (nomatch he), ?_⟩
      intro s hs
      exact ⟨_, y, ha, Res.ok.inj hs⟩
    · rintro e w' ⟨-, he, -⟩
      exact absurd rfl (he e)
    · rintro w' ⟨hi, -, r, ha, -⟩
      exact ⟨.of_asked hi ha fun i host inst he => (nomatch he), fun e he => (nomatch he),
        fun s hs => nomatch hs⟩
  · rintro s w' ⟨hf, -, hs⟩
    exact ⟨hf, fun a ha => ⟨s, (Res.ok.inj ha).symm, hs s rfl⟩⟩
  · rintro e w' ⟨-, he, -⟩
    exact absurd rfl (he e)
  · rintro w' ⟨hf, -, -⟩
    exact ⟨hf, fun a ha => nomatch ha⟩

/-- A directory that is no living instance's, as the host listed it. -/
theorem fair_reconcileDir {d : InstanceDirState} (hk : d.inst ∉ living)
    (hl : Listed w.out.asked i host d) :
    Fair (Warranted E.controllerId living) w (reconcileDir E.heard i host d w).2 := by
  refine Post.bind (Q := fun _ w' => Fair (Warranted E.controllerId living) w w') (read_stamp i host d.inst w)
    ?_ (fun e w' h => h.1) fun w' h => h.1
  rintro a w₁ ⟨h₁, ha⟩
  obtain ⟨s, rfl, pre, y, hlast, hs⟩ := ha a rfl
  cases s with
  | some other => exact h₁.trans ((fair_journalSiteEvent _) w₁).1
  | none =>
      show Fair _ w ((if (d.armed && !d.fired) = true then _ else _ : Eng (Heard σ) Unit) w₁).2
      split
      · exact h₁.trans ((fair_journalSiteEvent _) w₁).1
      next hd =>
        have hw : Warranted E.controllerId living w₁.out.asked i host d.inst := by
          refine ⟨hk, ⟨d, ?_, rfl, fun h => hd (by simp [h])⟩, pre, y, hlast, hs⟩
          obtain ⟨l, hl', -⟩ := h₁.asked
          rw [hl']
          exact hl.mono l
        refine Post.bind (Q := fun _ w' => Fair (Warranted E.controllerId living) w w')
          (P := fun _ w' => Fair (Warranted E.controllerId living) w w') ?_ ?_ (fun e w' h => h) fun w' h => h
        · obtain ⟨hi, -, r, ha, -⟩ := ask_heard (ε := EngineError) E (.dirRemove i host d.inst) w₁
          refine h₁.trans (.of_asked hi ha fun i' host' inst' he => ?_)
          obtain ⟨rfl, rfl, rfl⟩ := Query.dirRemove.inj he
          exact hw
        · intro x w₂ h₂
          cases x with
          | ok u => exact h₂.trans ((fair_journalSiteEvent _) w₂).1
          | error e => exact h₂

theorem fair_dirs (ds : List InstanceDirState) (hl : ∀ d ∈ ds, Listed w.out.asked i host d) :
    Fair (Warranted E.controllerId living) w (Prog.loop (fun d (_ : Unit) =>
      if living.contains d.inst then Pure.pure () else reconcileDir E.heard i host d) ds () w).2 := by
  induction ds generalizing w with
  | nil => exact .refl w
  | cons d ds ih =>
      have hd : Fair (Warranted E.controllerId living) w ((if living.contains d.inst then Pure.pure ()
          else reconcileDir E.heard i host d : Eng (Heard σ) Unit) w).2 := by
        split
        · exact .refl w
        next hk =>
          exact fair_reconcileDir (by simpa using hk) (hl d List.mem_cons_self)
      refine Post.bind (Q := fun _ w' => Fair (Warranted E.controllerId living) w w')
        (P := fun _ w' => Fair (Warranted E.controllerId living) w w') hd ?_ (fun e w' h => h) fun w' h => h
      intro _ w₁ h₁
      refine h₁.trans (ih fun d' hd' => ?_)
      obtain ⟨l, hl', -⟩ := h₁.asked
      rw [hl']
      exact (hl d' (List.mem_cons_of_mem _ hd')).mono l

theorem fair_reconcileHost (living : List String) (host : Host) :
    Keeps (Fair (Warranted E.controllerId living)) True True (reconcileHost E.heard living host) := by
  unfold reconcileHost
  split
  · exact Keeps.pure ()
  next i _ =>
    refine Keeps.ite (Keeps.pure ()) (Keeps.ofState fun w => ?_)
    refine Post.bind (Q := fun _ w' => Fair (Warranted E.controllerId living) w w')
      (ask_heard (ε := EngineError) E (.dirList i host) w) ?_ ?_ ?_
    · rintro x w₁ ⟨hi, -, r, ha, hr⟩
      have h₁ : Fair (Warranted E.controllerId living) w w₁ :=
        .of_asked hi ha fun i host inst he => nomatch he
      have hr := hr x rfl
      subst hr
      cases x with
      | error e => exact h₁
      | ok dirs =>
          refine h₁.trans (fair_dirs dirs fun d hd => ⟨dirs, ?_, hd⟩)
          rw [ha]
          exact List.mem_append_right _ (List.mem_singleton_self _)
    · rintro e w₁ ⟨-, he, -⟩
      exact absurd rfl (he e)
    · rintro w₁ ⟨hi, -, r, ha, -⟩
      exact .of_asked hi ha fun i host inst he => nomatch he

end

/-- The instances that are not terminal. -/
def World.living (w : World σ) : List String :=
  (w.instances.records.filter fun r => !terminal r.state).map InstanceRecord.id

theorem read_living (w : World (Heard σ)) (W : List Asked → Nat → Host → String → Prop) :
    Post (allInstances E.heard) (fun x w' => Fair W w w' ∧
      ∀ rs, x = .ok rs → rs = w.instances.records) w := by
  refine Post.keepsBind (fair_readOk (W := W) Slot.ids) ?_ ?_ ?_
  · intro _ w₁ h₁
    refine Post.readBind (Post.keepsBind (R := Fair W) (X := True) (F := True)
      (Keeps.loop _ (fun _ _ => fair_readOk _) ()) ?_ ?_ ?_)
    · intro _ w₂ h₂
      refine ⟨h₁.trans h₂, fun rs he => ?_⟩
      rw [← Res.ok.inj he, h₁.instances]
    · exact fun e w₂ h₂ => ⟨h₁.trans h₂, fun rs he => nomatch he⟩
    · exact fun w₂ h₂ => ⟨h₁.trans h₂, fun rs he => nomatch he⟩
  · exact fun e w₁ h₁ => ⟨h₁, fun rs he => nomatch he⟩
  · exact fun w₁ h₁ => ⟨h₁, fun rs he => nomatch he⟩

/-- Reconciliation removes nothing that is not warranted. -/
theorem fair_reconcile (w : World (Heard σ)) :
    Fair (Warranted E.controllerId w.living) w (reconcile E.heard w).2 := by
  refine Post.bind (Q := fun _ w' => Fair (Warranted E.controllerId w.living) w w')
    (read_living w _) ?_ (fun e w' h => h.1) fun w' h => h.1
  rintro rs w₁ ⟨h₁, hrs⟩
  obtain rfl := hrs rs rfl
  refine Post.readBind ?_
  have hloop : Keeps (Fair (Warranted E.controllerId w.living)) True True
      (Prog.loop (fun (h : String × Host) (_ : Unit) => reconcileHost E.heard w.living h.2) w₁.hosts ()) :=
    Keeps.loop _ (fun (h : String × Host) _ => fair_reconcileHost _ h.2) ()
  exact h₁.trans (hloop w₁).1

/-! ## Reclaiming -/

theorem fair_reclaimable {W : List Asked → Nat → Host → String → Prop} (host : Host)
    (hostName inst : String) (d : InstanceDirState) (force : Bool) (reason : String) :
    Keeps (Fair W) True True (reclaimable E.heard host hostName inst d force reason) := by
  have hentry : Keeps (Fair W) True True (entryPresence E.heard host inst) := by
    unfold entryPresence
    split
    · exact Keeps.pure _
    · split
      · exact Keeps.pure _
      · refine Keeps.ite (Keeps.pure _) (Keeps.bind (fair_ask rfl) fun x => ?_)
        cases x with
        | ok p => exact Keeps.pure p
        | error e => exact Keeps.pure _
  unfold reclaimable
  refine Keeps.ite (Keeps.bind hentry fun entry => ?_) (Keeps.pure ())
  exact Keeps.ite (Keeps.fail _) (Keeps.ite (Keeps.fail _) (Keeps.pure ()))

/-- What is not refused while it is armed is forced, with a reason. -/
theorem forced_of_reclaimable {host : Host} {hostName inst : String} {d : InstanceDirState}
    {force : Bool} {reason : String} (w : World (Heard σ)) :
    Post (reclaimable E.heard host hostName inst d force reason) (fun x _ => x = .ok () →
      d.armed = true → d.fired = false → force = true ∧ Text.trim reason.toList ≠ []) w := by
  unfold reclaimable
  split
  next hd =>
    refine Post.bind (P := fun _ _ => True) trivial ?_ (fun e w' _ h => nomatch h)
      fun w' _ h => nomatch h
    intro entry w' _
    split
    · intro h
      cases h
    next hf =>
      split
      · intro h
        cases h
      next hr =>
        intro _ _ _
        exact ⟨by simpa using hf, fun h => hr (by rw [h]; rfl)⟩
  next hd =>
    intro _ ha hf
    exact absurd (by simp [ha, hf]) hd

/-- A directory the host listed is removed, unless it is refused. -/
theorem fair_taken {i : Nat} {host : Host} {hostName name : String} {d : InstanceDirState}
    {force : Bool} {reason : String} {w : World (Heard σ)} {msg : String → EngineError} {ev : J}
    {said : String} (hl : Listed w.out.asked i host d) (hd : d.inst = name) :
    Fair (Reclaimed name force reason) w ((do
      reclaimable E.heard host hostName name d force reason
      orElse (← ask E.heard (.dirRemove i host name)) msg
      journalSiteEvent E.heard ev
      Pure.pure said : Eng (Heard σ) String) w).2 := by
  have hjournal := fair_journalSiteEvent (E := E) (W := Reclaimed name force reason) ev
  refine Post.bind (Q := fun _ w' => Fair (Reclaimed name force reason) w w')
    (Post.and (Q := fun _ w' => Fair (Reclaimed name force reason) w w')
      (fair_reclaimable host hostName name d force reason w).1 (forced_of_reclaimable w))
    ?_ (fun e w' h => h.1) fun w' h => h.1
  rintro _ w₁ ⟨h₁, hforce⟩
  have hw : Reclaimed name force reason w₁.out.asked i host name := by
    obtain ⟨l, hl', -⟩ := h₁.asked
    exact ⟨rfl, d, by rw [hl']; exact hl.mono l, hd, hforce rfl⟩
  refine Post.bind (Q := fun _ w' => Fair (Reclaimed name force reason) w w')
    (P := fun _ w' => Fair (Reclaimed name force reason) w w') ?_ ?_ (fun e w' h => h) fun w' h => h
  · obtain ⟨hi, -, r, ha, -⟩ := ask_heard (ε := EngineError) E (.dirRemove i host name) w₁
    refine h₁.trans (.of_asked hi ha fun i' host' inst' he => ?_)
    obtain ⟨rfl, rfl, rfl⟩ := Query.dirRemove.inj he
    exact hw
  · intro x w₂ h₂
    cases x with
    | error e => exact h₂
    | ok u => exact h₂.trans ((Keeps.bind hjournal fun _ => Keeps.pure said) w₂).1

theorem fair_reclaim (hostName name : String) (force : Bool) (reason : String)
    (w : World (Heard σ)) :
    Fair (Reclaimed name force reason) w (reclaim E.heard hostName name force reason w).2 := by
  refine Post.readBind (Q := fun _ w' => Fair (Reclaimed name force reason) w w') ?_
  split
  · exact .refl w
  next host _ =>
    split
    · exact .refl w
    next i _ =>
      refine Post.bind (Q := fun _ w' => Fair (Reclaimed name force reason) w w')
        (ask_heard (ε := EngineError) E (.dirList i host) w) ?_ ?_ ?_
      · rintro x w₁ ⟨hi, -, r, ha, hr⟩
        have h₁ : Fair (Reclaimed name force reason) w w₁ :=
          .of_asked hi ha fun i host inst he => nomatch he
        have hr := hr x rfl
        subst hr
        cases x with
        | error e => exact h₁
        | ok dirs =>
            refine Post.bind (Q := fun _ w' => Fair (Reclaimed name force reason) w w')
              (P := fun x w' => w' = w₁ ∧ x = .ok dirs) ⟨rfl, rfl⟩ ?_ (fun e w' h => nomatch h.2)
              fun w' h => nomatch h.2
            rintro _ w' ⟨rfl, he⟩
            cases he
            split
            · exact h₁
            next d hd =>
              have hlist : Listed w'.out.asked i host d :=
                ⟨dirs, by rw [ha]; exact List.mem_append_right _ (List.mem_singleton_self _),
                  List.mem_of_find?_eq_some hd⟩
              exact h₁.trans (fair_taken hlist (by simpa using List.find?_some hd))
      · rintro e w₁ ⟨-, he, -⟩
        exact absurd rfl (he e)
      · rintro w₁ ⟨hi, -, r, ha, -⟩
        exact .of_asked hi ha fun i host inst he => nomatch he

/-! ## What is removed -/

/-- The world, with an outside that is heard from here on. -/
def World.heard (w : World σ) : World (Heard σ) := { w with out := ⟨w.out, []⟩ }

theorem Fair.removes {W : List Asked → Nat → Host → String → Prop} {w : World σ}
    {w' : World (Heard σ)} {pre post : List Asked} {i : Nat} {host : Host} {inst : String}
    {r : Option (Reply (.dirRemove i host inst))} (h : Fair W w.heard w')
    (ha : w'.out.asked = pre ++ ⟨.dirRemove i host inst, r⟩ :: post) : W pre i host inst := by
  obtain ⟨l, hl, hw⟩ := h.asked
  exact hw pre i host inst r post (hl.symm.trans ha)

/-- However the outside answers: a directory is removed at boot only if no living
instance of the store is its own, it was not listed as armed and unfired, and its
stamp, asked for last, did not read as another controller's; and reclaimed only if it
is the one named, and if it was listed as armed and unfired, with force and a reason. -/
theorem spared (E : Setting σ) (w : World σ) :
    (∀ pre post i host inst r, (reconcile E.heard w.heard).2.out.asked =
        pre ++ (⟨.dirRemove i host inst, r⟩ : Asked) :: post →
      Warranted E.controllerId w.living pre i host inst) ∧
    ∀ hostName name force reason pre post i host inst r,
      (reclaim E.heard hostName name force reason w.heard).2.out.asked =
        pre ++ (⟨.dirRemove i host inst, r⟩ : Asked) :: post →
      Reclaimed name force reason pre i host inst :=
  ⟨fun _ _ _ _ _ _ h => (fair_reconcile w.heard).removes h,
    fun _ _ _ _ _ _ _ _ _ _ h => (fair_reclaim _ _ _ _ w.heard).removes h⟩

namespace Removed

/-- A host with one directory, whose stamp is of another controller, and cannot be read
the first time. -/
def outside (d : InstanceDirState) : Outside Nat where
  answer n q := match q with
    | .dirList .. => (some (.ok [d]), n)
    | .getFile _ _ _ rel =>
        (if n = 0 then some (.error "timed out")
          else if rel = "controller" then some (.ok (Bytes.ofString "other"))
          else some (.error "no such file"), n + 1)
    | q => (({} : Script).answer n q, n)

def site (d : InstanceDirState) : Setting Nat :=
  { Script.setting {} with outside := outside d }

/-- A record of the store. -/
def record (state : State) : InstanceRecord :=
  { noRecord with
    id := "p.web.00000000", ir := smallPlan "p" "web" [ownFile "/etc/motd"], state
    backstop := some ⟨"web", "artifact.sh", "cron", true, true, none, none, none, none, false, false⟩ }

def world (state : State) : World Nat :=
  { smallWorld ["web"] with instances := Store.empty.write (record state) }

/-- Whether a directory was removed. -/
def gone (w : World (Heard Nat)) (inst : String) : Bool :=
  w.out.asked.any fun x => match x.1 with
    | .dirRemove _ _ name => name = inst
    | _ => false

def told (w : World (Heard Nat)) : Bool :=
  w.journal.any fun e => match e.event with
    | .backstopFiredAfterAbandon .. => true
    | _ => false

def spent (inst : String) : InstanceDirState := ⟨inst, false, true, true⟩

def armed (inst : String) : InstanceDirState := ⟨inst, true, false, true⟩

/-- Another controller's directory goes at boot, its stamp not being read, and is
reclaimed while it is armed; a living instance's is reclaimed; and that of an abandoned
instance goes at boot before its firing is journaled. -/
theorem not_spared :
    ((outside (spent "x")).answer 1 (.getFile 0 (smallHost "web") "x" "controller")).1 =
      some (.ok (Bytes.ofString "other")) ∧
    stamp "site" (.ok (Bytes.ofString "other")) = some "other" ∧
    gone (reconcile (site (spent "x")).heard (world .applied).heard).2 "x" = true ∧
    gone (reclaim (site (armed "x")).heard "web" "x" true "read it" (world .applied).heard).2 "x" =
      true ∧
    terminal .applied = false ∧
    gone (reclaim (site (spent "p.web.00000000")).heard "web" "p.web.00000000" false ""
      (world .applied).heard).2 "p.web.00000000" = true ∧
    gone (boot (site (spent "p.web.00000000")).heard (world .closed).heard).2 "p.web.00000000" =
      true ∧
    told (boot (site (spent "p.web.00000000")).heard (world .closed).heard).2 = false := by
  refine ⟨rfl, ?_⟩
  decide +kernel

end Removed

end Rescind
