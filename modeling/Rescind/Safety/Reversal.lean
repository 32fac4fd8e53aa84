/-
# `Rescind.Safety.Reversal` — the order of a revert

A revert undoes applications last in, first out.  Its calls of the executor are
the `undoRun` entries of the history, what it finished the `undone` ones; the
history has the newest first, so a sublist of `applied` there is a subsequence
of it in reverse order of application.

Nothing is assumed of the executor: whatever it answers, and wherever the revert stops,
the calls made are those of the history.

**Proved here.**

    one undo: at most one call, its own body, and nothing else changes
                                                              (`post_undoStep`)
    a pass over the applications of a record                  (`post_revertLoop`)
    a whole revert                                            (`revert_reverses`)
-/
import Rescind.Turn.Runs

namespace Rescind

open Lib Lib.Prog

variable {σ α : Type}

/-! ## Reading the history -/

/-- The undo calls of a stretch of the history. -/
def undoCalls : List Act → List (AppliedStep × List RPrim) :=
  List.filterMap fun
    | .undoRun _ a body => some (a, body)
    | _ => none

/-- The applications undone in a stretch of the history. -/
def undoneIn : List Act → List AppliedStep :=
  List.filterMap fun
    | .undone _ a => some a
    | _ => none

/-- The body is the undo of the application's own step, resolved with the
application's own variables. -/
def OwnUndo (r : InstanceRecord) (a : AppliedStep) (body : List RPrim) : Prop :=
  ∃ op op' host wholes base, r.opAt a.step = some op ∧
    concreteOp op host (envFor r a.vars) = .ok op' ∧ undoBodyOf r a op' host = .ok base ∧
    restoreWholes r a op' wholes base = .ok body

/-- What an undo's body is made from. -/
def InstanceRecord.undoParts (r : InstanceRecord) :
    PlanIr × Vars × Vars × Assoc (StepKey × Nat) String :=
  (r.ir, r.params, r.outputs, r.snapshots)

theorem restoreWholes_congr {r r' : InstanceRecord} (h : r.snapshots = r'.snapshots)
    (a : AppliedStep) (op : Op) (ks : List Nat) (body : List RPrim) :
    restoreWholes r a op ks body = restoreWholes r' a op ks body := by
  induction ks generalizing body with
  | nil => rfl
  | cons k ks ih =>
      unfold restoreWholes
      rw [h]
      cases r'.snapshots.get (a.key, k) with
      | none => rfl
      | some s => exact ih _

theorem OwnUndo.congr {r r' : InstanceRecord} (h : r.undoParts = r'.undoParts) {a : AppliedStep}
    {body : List RPrim} (ho : OwnUndo r a body) : OwnUndo r' a body := by
  obtain ⟨op, op', host, wholes, base, h₁, h₂, h₃, h₄⟩ := ho
  have hir : r.ir = r'.ir := congrArg Prod.fst h
  have hp : r.params = r'.params := congrArg (fun x => x.2.1) h
  have ho' : r.outputs = r'.outputs := congrArg (fun x => x.2.2.1) h
  have hs : r.snapshots = r'.snapshots := congrArg (fun x => x.2.2.2) h
  have henv : envFor r a.vars = envFor r' a.vars := by unfold envFor; rw [hp, ho']
  refine ⟨op, op', host, wholes, base, ?_, henv ▸ h₂, ?_, restoreWholes_congr hs a op' _ _ ▸ h₄⟩
  · rw [← h₁]
    unfold InstanceRecord.opAt InstanceRecord.plan
    rw [hir]
  · rw [← h₃]
    unfold undoBodyOf
    rw [henv, hs]

/-! ## One undo -/

variable (E : Setting σ)

/-- One undo ran: the application was called at most once, with its own body,
and it was undone or it was not. -/
structure Tried (a : AppliedStep) (undone : Bool) (w w' : World σ) : Prop where
  hand : w'.hand = w.hand
  instances : w'.instances = w.instances
  calls : ∃ d, w'.acts = d ++ w.acts ∧ ((undoCalls d).map Prod.fst).Sublist [a] ∧
    (∀ c ∈ undoCalls d, OwnUndo w.hand c.1 c.2) ∧ undoneIn d = if undone then [a] else []

theorem Still.tried {a : AppliedStep} {w w' : World σ} (h : Still w w') : Tried a false w w' where
  hand := h.hand
  instances := h.instances
  calls := ⟨[], congrArg Frame.acts h.frame, List.nil_sublist _, nofun, rfl⟩

theorem Tried.still {a : AppliedStep} {b : Bool} {w w' w'' : World σ} (h : Tried a b w w')
    (h' : Still w' w'') : Tried a b w w'' where
  hand := h'.hand.trans h.hand
  instances := h'.instances.trans h.instances
  calls := by
    rw [show w''.acts = w'.acts from congrArg Frame.acts h'.frame]
    exact h.calls

/-- The call of the executor. -/
theorem Still.tried_call {a : AppliedStep} {body : List RPrim} {w w' : World σ} (h : Still w w')
    (ho : OwnUndo w.hand a body) : Tried a false w (w'.noted (.undoRun w.hand.id a body)) where
  hand := h.hand
  instances := h.instances
  calls := ⟨[.undoRun w.hand.id a body],
    congrArg (Act.undoRun w.hand.id a body :: ·) (congrArg Frame.acts h.frame), .refl _,
    fun c hc => by rw [List.mem_singleton.mp hc]; exact ho, rfl⟩

/-- The end of an undo that went through. -/
theorem Tried.undone {a : AppliedStep} {w w' : World σ} (h : Tried a false w w') :
    Tried a true w (w'.noted (.undone w.hand.id a)) where
  hand := h.hand
  instances := h.instances
  calls := by
    obtain ⟨d, hd, hc, ho, hu⟩ := h.calls
    exact ⟨.undone w.hand.id a :: d, congrArg (Act.undone w.hand.id a :: ·) hd, hc, ho,
      congrArg (a :: ·) hu⟩

/-- An undo that found something held did not go through. -/
def Undoes (a : AppliedStep) (w : World σ) : Res String UndoReport → World σ → Prop
  | .ok rep, w' => Tried a rep.held.isEmpty w w'
  | _, w' => Tried a false w w'

/-- The same, its error being kept as a value. -/
def UndoTried (a : AppliedStep) (w : World σ) :
    Res EngineError (Except String UndoReport) → World σ → Prop
  | .ok (.ok rep), w' => Tried a rep.held.isEmpty w w'
  | _, w' => Tried a false w w'

/-- A part of an undo that only asks. -/
theorem Undoes.stilly {β : Type} {a : AppliedStep} {w w₁ : World σ} {m : Try σ β}
    {f : β → Try σ UndoReport} (hw : Tried a false w w₁) (h : Keeps Still True (¬Accepts E) m)
    (hf : ∀ b w₂, Still w₁ w₂ → Post (f b) (Undoes a w) w₂) :
    Post (m >>= f) (Undoes a w) w₁ :=
  Post.keepsBind h hf (fun _ _ hs => hw.still hs) fun _ hs => hw.still hs

theorem post_orElse {β : Type} {x : Except String β} {msg : String → String}
    {f : β → Try σ UndoReport} {Q : Res String UndoReport → World σ → Prop} {w : World σ}
    (hok : ∀ b, x = .ok b → Post (f b) Q w) (herr : ∀ e, Q (.err e) w) :
    Post (orElse x msg >>= f) Q w := by
  cases x with
  | ok b => exact hok b rfl
  | error e => exact herr _

theorem post_undoStep {a : AppliedStep} {op : Op} {w : World σ}
    (hop : w.hand.opAt a.step = some op) : Post (undoStep E a op) (Undoes a w) w := by
  unfold undoStep
  show Post (if _ then _ else _) _ w
  split
  · exact (Still.refl w).tried.undone
  · refine Post.ofExceptBind (fun host _ => ?_) fun _ _ => (Still.refl w).tried
    refine post_orElse (fun op' hop' => ?_) fun _ => (Still.refl w).tried
    cases executorIndex E host with
    | none => exact (Still.refl w).tried
    | some i =>
        refine Undoes.stilly E (Still.refl w).tried
          (Keeps.when (Keeps.bind (keeps_ask E _) fun _ => keeps_orElse _ _)) fun _ w₁ h₁ =>
          Undoes.stilly E h₁.tried (keeps_judgeFacts E _ _ _ _ _) fun found w₂ h₂ => ?_
        have hs : Still w w₂ := h₁.trans h₂
        split
        next hh =>
          show Tried a found.1.held.isEmpty w w₂
          rw [show found.1.held.isEmpty = false by simpa using hh]
          exact hs.tried
        next hh =>
          refine Post.ofExceptBind (fun base hbase => ?_) fun _ _ => hs.tried
          refine Post.ofExceptBind (fun body hbody => ?_) fun _ _ => hs.tried
          have own : OwnUndo w.hand a body := ⟨op, op', host, found.2, base, hop, hop', hbase, hbody⟩
          refine Post.bind (P := fun _ w₃ => Tried a false w w₃) ?_ (fun _ w₃ h₃ => ?_)
            (fun _ _ h => h) fun _ h => h
          · unfold Prog.when
            split
            · exact Post.keeps (s := w₂.noted (.undoRun w.hand.id a body))
                (Keeps.bind (R := Still) (keeps_ask E _) fun _ => Keeps.bind (keeps_orElse _ _)
                  fun _ => Keeps.pure ()) fun _ _ hst => (hs.tried_call own).still hst
            · exact hs.tried
          · refine Undoes.stilly E h₃ (Keeps.when (Keeps.bind (keeps_ask E _) fun _ => Keeps.pure ()))
              fun _ w₄ h₄ => ?_
            show Tried a found.1.held.isEmpty w (w₄.noted (.undone w.hand.id a))
            rw [show found.1.held.isEmpty = true by simpa using hh]
            exact (h₃.still h₄).undone

/-! ## A pass -/

/-- Whether a revert has something to undo for an application. -/
def InstanceRecord.hasOp (r : InstanceRecord) (a : AppliedStep) : Bool := (r.opAt a.step).isSome

/-- The pass returned. -/
def Returned {ε α : Type} : Res ε α → Prop
  | .ok _ => True
  | _ => False

/-- What a revert pass did from `w` on, `d` being what it added to the history:
its calls are of applications of the record, in reverse order, each with its
own undo; what is left in `applied` is what was not undone.  Only a pass cut
short can have undone one more, the last that is left. -/
structure Reverses (w : World σ) {α : Type} (x : Res EngineError α) (w' : World σ)
    (d : List Act) : Prop where
  acts : w'.acts = d ++ w.acts
  order : ((undoCalls d).map Prod.fst).Sublist w.hand.applied
  own : ∀ c ∈ undoCalls d, OwnUndo w.hand c.1 c.2
  left : ∃ us more, w.hand.applied = w'.hand.applied ++ us ∧
    undoneIn d = more ++ us.filter w.hand.hasOp ∧
    (more = [] ∨ ¬Returned x ∧ ∃ a, w'.hand.applied.getLast? = some a ∧ more = [a])

/-- Nothing was closed. -/
structure StaysOpen (w w' : World σ) : Prop where
  id : w'.hand.id = w.hand.id
  parts : w'.hand.undoParts = w.hand.undoParts
  hand : w.hand.state ≠ .closed → w'.hand.state ≠ .closed
  stored : w.hand.state ≠ .closed → ∀ r, w'.instances.read w.hand.id = some r →
    w.instances.read w.hand.id = some r ∨ r.state ≠ .closed

theorem StaysOpen.refl (w : World σ) : StaysOpen w w := ⟨rfl, rfl, fun h => h, fun _ _ => .inl⟩

theorem StaysOpen.trans {w w' w'' : World σ} (h : StaysOpen w w') (h' : StaysOpen w' w'') :
    StaysOpen w w'' where
  id := h'.id.trans h.id
  parts := h'.parts.trans h.parts
  hand := fun hw => h'.hand (h.hand hw)
  stored := fun hw r hr => by
    rw [← h.id] at hr
    rcases h'.stored (h.hand hw) r hr with hr' | hr'
    · rw [h.id] at hr'
      exact h.stored hw r hr'
    · exact .inr hr'

theorem Still.staysOpen {w w' : World σ} (h : Still w w') : StaysOpen w w' where
  id := by rw [h.hand]
  parts := by rw [h.hand]
  hand := fun hw => by rw [h.hand]; exact hw
  stored := fun _ r hr => .inl (by rw [← h.instances]; exact hr)

/-- The record in hand changed, then was written. -/
theorem Written.staysOpen {w w' : World σ} {r : InstanceRecord} (hid : r.id = w.hand.id)
    (hp : r.undoParts = w.hand.undoParts) (hs : w.hand.state ≠ .closed → r.state ≠ .closed)
    (h : Written { w with hand := r } w') : StaysOpen w w' where
  id := by rw [h.hand]; exact hid
  parts := by rw [h.hand]; exact hp
  hand := fun hw => by rw [h.hand]; exact hs hw
  stored := fun hw d hd => by
    rw [h.instances, ← hid] at hd
    simp only [Store.read_write_self, Option.some.injEq] at hd
    exact .inr (hd ▸ hs hw)

/-- What a pass does besides undoing: `applied` and the history stay. -/
structure Aside (w w' : World σ) : Prop extends StaysOpen w w' where
  acts : w'.acts = w.acts
  applied : w'.hand.applied = w.hand.applied

instance : Coarse (Aside (σ := σ)) where
  refl w := ⟨.refl w, rfl, rfl⟩
  trans _ _ _ h h' := ⟨h.toStaysOpen.trans h'.toStaysOpen, h'.acts.trans h.acts,
    h'.applied.trans h.applied⟩
  still h := ⟨h.staysOpen, congrArg Frame.acts h.frame, by rw [h.hand]⟩

theorem keeps_setHand_aside {X F : Prop} {f : InstanceRecord → InstanceRecord}
    (h : ∀ r, (f r).id = r.id ∧ (f r).undoParts = r.undoParts ∧ (f r).state = r.state ∧
      (f r).applied = r.applied) : Keeps Aside X F (setHand f : Eng σ Unit) :=
  Keeps.edit fun w => by
    obtain ⟨hi, hp, hs, ha⟩ := h w.hand
    exact ⟨⟨hi, hp, fun hw => by rw [← hs] at hw; exact hw, fun _ _ => .inl⟩, rfl, ha⟩

/-- An event after which the record rests. -/
theorem keeps_step_aside {ev : Event} (hev : ev.rests = true) (hu : ev.undoes = true) :
    Keeps Aside True True (step E ev) := by
  intro w
  have open_ : ∀ s, transition w.hand.ctx w.hand.state ev = .to s → s ≠ .closed := by
    rintro _ ht rfl
    exact nomatch transition_rests hev ht
  refine post_step E (Q := fun x w' => Aside w w' ∧ Excused True True x) (fun s w' ht hw => ?_)
    (fun s x w' ht hst _ _ => ?_) (fun _ => ⟨Std.Refl.refl w, trivial⟩)
    fun _ _ _ => ⟨Std.Refl.refl w, trivial⟩
  · have ho : StaysOpen w w' := Written.staysOpen (r := { w.hand with state := s }) rfl rfl
      (fun _ => open_ s ht) hw
    rw [turned_of_undoes hu ht]
    refine ⟨⟨⟨ho.id, ho.parts, ho.hand, ho.stored⟩, congrArg Frame.acts hw.frame, ?_⟩, trivial⟩
    show w'.hand.applied = _
    rw [hw.hand]
  · refine ⟨⟨⟨by rw [hst.hand], by rw [hst.hand]; rfl, fun _ => ?_, fun _ r hr => ?_⟩,
      congrArg Frame.acts hst.frame, by rw [hst.hand]⟩, ?_⟩
    · rw [hst.hand]
      exact open_ s ht
    · rw [hst.instances] at hr
      exact .inl hr
    · cases x <;> trivial

/-- An event written is in the store. -/
theorem post_step_aside {ev : Event} (hev : ev.rests = true) (hu : ev.undoes = true) (w : World σ) :
    Post (step E ev) (fun x w' => Aside w w' ∧ (Returned x → Synced w')) w := by
  refine Post.and (Post.keeps (keeps_step_aside E hev hu) fun _ _ h => h) ?_
  refine post_step E (fun s w' ht hw _ => ?_) (fun s x w' _ _ hne _ hx => ?_)
    (fun ht => absurd ht (transition_rests_stay hev)) fun _ _ _ => False.elim
  · exact (Written.puts (r := { w.hand with state := s }) rfl rfl hw).synced rfl
  · match x with
    | .ok u => exact absurd rfl (hne u)

/-- What a pass over the applications of a record ends with. -/
structure Passes (w : World σ) (x : Res EngineError Bool) (w' : World σ) : Prop where
  reverses : ∃ d, Reverses w x w' d
  open_ : StaysOpen w w'
  clean : x = .ok true → w'.hand.applied = []
  stopped : x = .ok false → w'.hand.applied ≠ [] ∧ Synced w'

theorem undoCalls_append (d d' : List Act) : undoCalls (d ++ d') = undoCalls d ++ undoCalls d' :=
  List.filterMap_append

theorem undoneIn_append (d d' : List Act) : undoneIn (d ++ d') = undoneIn d ++ undoneIn d' :=
  List.filterMap_append

theorem StaysOpen.hasOp {w w' : World σ} (h : StaysOpen w w') : w'.hand.hasOp = w.hand.hasOp := by
  have hir : w'.hand.ir = w.hand.ir := congrArg Prod.fst h.parts
  funext a
  unfold InstanceRecord.hasOp InstanceRecord.opAt InstanceRecord.plan
  rw [hir]

/-- A pass that stops at the last application. -/
theorem Tried.stops {a : AppliedStep} {w w₁ w' : World σ} {x : Res EngineError Bool}
    (h : Tried a false w w₁) (hl : w.hand.applied.getLast? = some a) (h' : Aside w₁ w')
    (hx : Returned x → Synced w') (hne : x ≠ .ok true) : Passes w x w' := by
  have happ : w'.hand.applied = w.hand.applied := by rw [h'.applied, h.hand]
  have hmem : a ∈ w.hand.applied := List.mem_of_getLast? hl
  obtain ⟨d, hd, hc, ho, hu⟩ := h.calls
  refine ⟨⟨d, by rw [h'.acts, hd], hc.trans (List.singleton_sublist.mpr hmem), ho,
    [], [], by simp [happ], by simpa using hu, .inl rfl⟩, ?_, fun hx' => absurd hx' hne,
    fun hx' => ⟨?_, hx (hx' ▸ trivial)⟩⟩
  · have : StaysOpen w w₁ := ⟨by rw [h.hand], by rw [h.hand], fun hw => by rw [h.hand]; exact hw,
      fun _ r hr => .inl (by rw [← h.instances]; exact hr)⟩
    exact this.trans h'.toStaysOpen
  · rw [happ]
    exact List.ne_nil_of_mem hmem

/-- A pass stops: the reason is noted in the record, journaled, and an event
fed. -/
theorem post_stop {a : AppliedStep} {w w₁ : World σ} {f : InstanceRecord → InstanceRecord} {j : J}
    {ev : Event} {k : Eng σ Bool} (h : Tried a false w w₁)
    (hl : w.hand.applied.getLast? = some a)
    (hf : ∀ r, (f r).id = r.id ∧ (f r).undoParts = r.undoParts ∧ (f r).state = r.state ∧
      (f r).applied = r.applied) (hev : ev.rests = true) (hu : ev.undoes = true)
    (hk : ∀ w, Post k (fun x w' => Still w w' ∧ x ≠ .ok true) w) :
    Post (setHand f >>= fun _ => log E j >>= fun _ => step E ev >>= fun _ => k) (Passes w) w₁ := by
  have cut : ∀ (x : Res EngineError Bool) (w' : World σ), ¬Returned x → Aside w₁ w' →
      Passes w x w' := fun x w' hx ha =>
    h.stops hl ha (fun hr => absurd hr hx) fun he => hx (he ▸ trivial)
  refine Post.keepsBind (keeps_setHand_aside (F := True) (X := True) hf) (fun _ w₂ h₂ => ?_)
    (fun _ _ h => cut _ _ id h) fun _ h => cut _ _ id h
  refine Post.keepsBind (R := Aside) (keeps_log E j) (fun _ w₃ h₃ => ?_)
    (fun _ _ h => cut _ _ id (IsTrans.trans _ _ _ h₂ h))
    fun _ h => cut _ _ id (IsTrans.trans _ _ _ h₂ h)
  have h₂₃ : Aside w₁ w₃ := IsTrans.trans _ _ _ h₂ h₃
  refine Post.bind (post_step_aside E hev hu w₃) (fun _ w₄ h₄ => ?_)
    (fun _ _ h => cut _ _ id (IsTrans.trans _ _ _ h₂₃ h.1))
    fun _ h => cut _ _ id (IsTrans.trans _ _ _ h₂₃ h.1)
  refine Post.mono (hk w₄) fun x w₅ h₅ => h.stops hl ?_ (fun _ => ?_) h₅.2
  · exact IsTrans.trans _ _ _ h₂₃ (IsTrans.trans _ _ _ h₄.1 (Coarse.still h₅.1))
  · exact h₅.1.quiet.synced (h₄.2 trivial)

/-- The last application went from `applied`. -/
structure Pops (a : AppliedStep) (w w' : World σ) (d : List Act) : Prop where
  acts : w'.acts = d ++ w.acts
  order : ((undoCalls d).map Prod.fst).Sublist [a]
  own : ∀ c ∈ undoCalls d, OwnUndo w.hand c.1 c.2
  undone : undoneIn d = [a].filter w.hand.hasOp
  applied : w.hand.applied = w'.hand.applied ++ [a]
  open_ : StaysOpen w w'

/-- … and nothing more happened. -/
theorem Pops.cut {a : AppliedStep} {w w' : World σ} {d : List Act} {x : Res EngineError Bool}
    (h : Pops a w w' d) (hx : ¬Returned x) : Passes w x w' where
  reverses := ⟨d, h.acts, h.order.trans (by rw [h.applied]; exact List.sublist_append_right _ _),
    h.own, [a], [], h.applied, by simpa using h.undone, .inl rfl⟩
  open_ := h.open_
  clean := fun hx' => absurd (hx' ▸ trivial) hx
  stopped := fun hx' => absurd (hx' ▸ trivial) hx

/-- … and the pass went on. -/
theorem Pops.then {a : AppliedStep} {w w₁ w' : World σ} {d : List Act} {x : Res EngineError Bool}
    (h : Pops a w w₁ d) (h' : Passes w₁ x w') : Passes w x w' := by
  obtain ⟨d', hr⟩ := h'.reverses
  obtain ⟨us, more, hus, hu, hm⟩ := hr.left
  refine ⟨⟨d' ++ d, by rw [hr.acts, h.acts, List.append_assoc], ?_, ?_, us ++ [a], more, ?_, ?_, hm⟩,
    h.open_.trans h'.open_, h'.clean, h'.stopped⟩
  · rw [undoCalls_append, List.map_append, h.applied]
    exact hr.order.append h.order
  · intro c hc
    rw [undoCalls_append, List.mem_append] at hc
    rcases hc with hc | hc
    · exact (hr.own c hc).congr h.open_.parts
    · exact h.own c hc
  · rw [h.applied, hus, List.append_assoc]
  · rw [undoneIn_append, hu, h.undone, List.filter_append, h.open_.hasOp, List.append_assoc]

theorem Pops.aside {a : AppliedStep} {w w₁ w' : World σ} {d : List Act} (h : Pops a w w₁ d)
    (h' : Aside w₁ w') : Pops a w w' d where
  acts := h'.acts.trans h.acts
  order := h.order
  own := h.own
  undone := h.undone
  applied := by rw [h'.applied]; exact h.applied
  open_ := h.open_.trans h'.toStaysOpen

theorem Written.aside {w w' : World σ} (h : Written w w') : Aside w w' where
  toStaysOpen := Written.staysOpen (r := w.hand) rfl rfl (fun hs => hs) h
  acts := congrArg Frame.acts h.frame
  applied := by rw [h.hand]

/-- Take the last application from `applied`, write the record, go on. -/
theorem post_pop {a : AppliedStep} {w w₁ : World σ} {d : List Act}
    {f : InstanceRecord → InstanceRecord} {k : Eng σ Bool}
    (h : Pops a w { w₁ with hand := f w₁.hand } d)
    (hk : ∀ w', w'.hand = f w₁.hand → Post k (Passes w') w') :
    Post (setHand f >>= fun _ => persist E >>= fun _ => k) (Passes w) w₁ := by
  show Post (persist E >>= fun _ => k) (Passes w) { w₁ with hand := f w₁.hand }
  unfold Post
  rw [bind_eq]
  rcases persist_cases E { w₁ with hand := f w₁.hand } with ⟨w', hp, hw⟩ | ⟨x, w', hp, hne, hst, -⟩
  · rw [hp]
    exact (h.aside hw.aside).then (hk w' hw.hand)
  · rw [hp]
    have hc := h.aside (Coarse.still hst)
    match x with
    | .ok u => exact absurd rfl (hne u)
    | .err e => exact hc.cut id
    | .died => exact hc.cut id

theorem dropLast_of_reverse {a : AppliedStep} {rest l : List AppliedStep}
    (h : l = (a :: rest).reverse) : l.getLast? = some a ∧ l.dropLast = rest.reverse ∧
      l = l.dropLast ++ [a] := by
  subst h
  simp

theorem Tried.pops {a : AppliedStep} {op : Op} {w w₁ : World σ}
    {f : InstanceRecord → InstanceRecord} (hop : w.hand.opAt a.step = some op)
    (h : Tried a true w w₁)
    (hf : (f w.hand).id = w.hand.id ∧ (f w.hand).undoParts = w.hand.undoParts ∧
      (f w.hand).state = w.hand.state ∧ w.hand.applied = (f w.hand).applied ++ [a]) :
    ∃ d, Pops a w { w₁ with hand := f w₁.hand } d := by
  obtain ⟨d, hd, hc, ho, hu⟩ := h.calls
  obtain ⟨hid, hparts, hst, happ⟩ := hf
  rw [← h.hand] at hid hparts hst happ
  refine ⟨d, hd, hc, ho, by simp [hu, InstanceRecord.hasOp, hop], ?_, ?_, ?_, ?_, ?_⟩
  · rw [← h.hand]; exact happ
  · rw [← h.hand]; exact hid
  · rw [← h.hand]; exact hparts
  · rw [← h.hand]; exact fun hs => hst ▸ hs
  · exact fun _ r hr => .inl (by rw [← h.instances]; exact hr)

/-- The undo went through and a journal refusal cut the pass. -/
theorem Tried.cut {a : AppliedStep} {w w' : World σ} {x : Res EngineError Bool}
    (h : Tried a true w w') (hl : w.hand.applied.getLast? = some a) (hx : ¬Returned x) : Passes w x w' := by
  obtain ⟨d, hd, hc, ho, hu⟩ := h.calls
  have hmem : a ∈ w.hand.applied := List.mem_of_getLast? hl
  refine ⟨⟨d, hd, hc.trans (List.singleton_sublist.mpr hmem), ho, [], [a], by simp [h.hand],
    by simpa using hu, .inr ⟨hx, a, by rw [h.hand]; exact hl, rfl⟩⟩, ?_,
    fun hx' => absurd (hx' ▸ trivial) hx, fun hx' => absurd (hx' ▸ trivial) hx⟩
  exact ⟨by rw [h.hand], by rw [h.hand], fun hw => by rw [h.hand]; exact hw,
    fun _ r hr => .inl (by rw [← h.instances]; exact hr)⟩

theorem post_revertLoop (as : List AppliedStep) (w : World σ) (h : w.hand.applied = as.reverse) :
    Post (revertLoop E as) (Passes w) w := by
  induction as generalizing w with
  | nil =>
      refine ⟨⟨[], rfl, List.nil_sublist _, (fun _ hm => by cases hm), [], [], ?_, rfl, .inl rfl⟩, .refl w,
        fun _ => h, fun hf => by cases hf⟩
      exact (List.append_nil _).symm
  | cons a rest ih =>
      obtain ⟨hlast, hdrop, happ⟩ := dropLast_of_reverse h
      unfold revertLoop
      refine Post.readBind ?_
      cases hop : w.hand.opAt a.step with
      | none =>
          have hp : Pops a w { w with hand := popApplied w.hand } [] :=
            ⟨rfl, List.nil_sublist _, (fun _ hm => by cases hm), by simp [undoneIn, InstanceRecord.hasOp, hop], happ,
              ⟨rfl, rfl, fun hs => hs, fun _ _ => .inl⟩⟩
          exact post_pop E hp fun w' hw' => ih w' (by rw [hw']; exact hdrop)
      | some op =>
          refine Post.bind (Post.attempt (Q := UndoTried a w) (post_undoStep E hop)
            (fun _ _ h => h) (fun _ _ h => h) fun _ h => h) (fun x w₁ h₁ => ?_)
            (fun _ w₁ h₁ => ?_) fun w₁ h₁ => ?_
          · cases x with
            | error why =>
                refine post_stop E (j := .stepFailed a.step _) h₁ hlast
                  (fun _ => ⟨rfl, rfl, rfl, rfl⟩) rfl rfl fun w₂ => ?_
                exact Post.keepsBind (Q := fun x w' => Still w₂ w' ∧ x ≠ .ok true)
                  (m := log E (.stuck w₂.hand.stuck)) (keeps_log E (R := Still) _)
                  (fun _ _ h => ⟨h, by simp⟩) (fun _ _ h => ⟨h, by simp⟩) fun _ h => ⟨h, by simp⟩
            | ok rep =>
                replace h₁ : Tried a rep.held.isEmpty w w₁ := h₁
                dsimp only
                split
                next hh =>
                  rw [show rep.held.isEmpty = false by simpa using hh] at h₁
                  exact post_stop E h₁ hlast (fun _ => ⟨rfl, rfl, rfl, rfl⟩)
                    rfl rfl fun w₂ => ⟨.refl w₂, by simp⟩
                next hh =>
                  rw [show rep.held.isEmpty = true by simpa using hh] at h₁
                  refine Post.keepsBind (R := Still) (Keeps.when (keeps_log E _)) (fun _ w₂ h₂ => ?_)
                    (fun _ _ hs => (h₁.still hs).cut hlast id)
                    fun _ hs => (h₁.still hs).cut hlast id
                  obtain ⟨d, hp⟩ := (h₁.still h₂).pops
                    (f := fun r => { popApplied r with markers := r.markers.erase a.key }) hop
                    ⟨rfl, rfl, rfl, happ⟩
                  refine post_pop E hp fun w' hw' => ih w' ?_
                  rw [hw', h₂.hand, h₁.hand]
                  exact hdrop
          · exact h₁.stops hlast (Coarse.still (.refl w₁)) (by simp [Returned]) (by simp)
          · exact h₁.stops hlast (Coarse.still (.refl w₁)) (by simp [Returned]) (by simp)

/-! ## The revert -/

/-- What closing keeps: the applications of the record, and of what is written
of it. -/
structure Winds (w w' : World σ) : Prop where
  acts : w'.acts = w.acts
  id : w'.hand.id = w.hand.id
  applied : w'.hand.applied = w.hand.applied
  stored : ∀ r, w'.instances.read w.hand.id = some r →
    w.instances.read w.hand.id = some r ∨ r.applied = w.hand.applied

theorem Calm.winds {w w' : World σ} (h : Calm w w') : Winds w w' where
  acts := h.acts
  id := h.id
  applied := h.applied
  stored := fun r hr => by
    rcases h.own with ho | ho
    · exact .inl (ho ▸ hr)
    · rw [hr] at ho
      exact .inr (congrArg Core.applied (Option.some.inj ho))

instance : Coarse (Winds (σ := σ)) where
  refl w := (Quiet.refl w).winds
  trans _ _ _ h h' :=
    { acts := h'.acts.trans h.acts
      id := h'.id.trans h.id
      applied := h'.applied.trans h.applied
      stored := fun r hr => by
        rcases h'.stored r (h.id ▸ hr) with hr' | hr'
        · exact h.stored r (h.id ▸ hr')
        · exact .inr (hr'.trans h.applied) }
  still h := h.quiet.winds

theorem keeps_winds {m : Eng σ α} {X F : Prop} (h : Keeps Quiet X F m) : Keeps Winds True True m :=
  Keeps.anyEnd (Keeps.mono h (fun _ _ hq => hq.winds) id)

theorem keeps_setHand_winds {f : InstanceRecord → InstanceRecord} (h : ∀ r, (f r).core = r.core) :
    Keeps Winds True True (setHand f : Eng σ Unit) :=
  Keeps.edit fun w => (calm_hand (h w.hand)).winds

theorem keeps_backstopDisarm_winds (which : Disarm) :
    Keeps Winds True True (backstopDisarm E which) := by
  refine Keeps.bind keeps_hand fun r => ?_
  split
  · exact Keeps.pure _
  · refine Keeps.ite (Keeps.pure _) (Keeps.bind keeps_hostsNow fun hosts => ?_)
    split
    · exact Keeps.pure _
    · refine Keeps.bind (Keeps.anyEnd (X := True) (Keeps.attempt (keeps_disarmArtifact E _ _ _ _))) fun x => ?_
      split
      · exact Keeps.pure _
      · exact Keeps.bind (keeps_setHand_winds fun _ => rfl) fun _ =>
          Keeps.bind (keeps_winds (keeps_persist E)) fun _ => Keeps.pure _

theorem keeps_removeDirs_winds : Keeps Winds True True (removeDirs E) :=
  Keeps.bind (keeps_backstopDisarm_winds E _) fun x => Keeps.bind (Keeps.anyEnd (keeps_orLog E x))
    fun _ => Keeps.bind keeps_hand fun r => Keeps.bind (Keeps.loop r.dirs
      (fun name _ => Keeps.anyEnd (keeps_onHost E (X := True) name fun i host =>
        keeps_ask E (.dirRemove i host r.id))) ()) fun _ =>
    Keeps.bind (keeps_setHand_winds fun _ => rfl) fun _ => keeps_winds (keeps_persist E)

theorem keeps_step_winds {ev : Event} (hu : ev.undoes = true) :
    Keeps Winds True True (step E ev) := by
  intro w
  refine post_step E (Q := fun x w' => Winds w w' ∧ Excused True True x) (fun s w' ht hw => ?_)
    (fun s x w' _ hst _ _ => ?_) (fun _ => ⟨Std.Refl.refl w, trivial⟩)
    fun _ _ _ => ⟨Std.Refl.refl w, trivial⟩
  · rw [turned_of_undoes hu ht]
    refine ⟨⟨congrArg Frame.acts hw.frame, ?_, ?_, fun r hr => .inr ?_⟩, trivial⟩
    · show w'.hand.id = _
      rw [hw.hand]
    · show w'.hand.applied = _
      rw [hw.hand]
    · replace hr : w'.instances.read w.hand.id = some r := hr
      rw [hw.instances] at hr
      have : (w.inState s).hand = r := by simpa [Store.read_write] using hr
      rw [← this]
  · refine ⟨⟨congrArg Frame.acts hst.frame, by rw [hst.hand], by rw [hst.hand], fun r hr => .inl ?_⟩,
      ?_⟩
    · rw [hst.instances] at hr
      exact hr
    · cases x <;> trivial

theorem keeps_release_winds : Keeps Winds True True (release E) :=
  Keeps.bind (Keeps.edit fun _ => ⟨rfl, rfl, rfl, fun _ => .inl⟩) fun _ =>
    Keeps.bind (Keeps.bind (Keeps.anyEnd (keeps_writeOk E _)) fun _ =>
      Keeps.edit fun _ => ⟨rfl, rfl, rfl, fun _ => .inl⟩) fun _ =>
    Keeps.edit fun _ => ⟨rfl, rfl, rfl, fun _ => .inl⟩

theorem keeps_closeReverted_winds : Keeps Winds True True (closeReverted E) :=
  Keeps.bind (keeps_step_winds E rfl) fun _ => Keeps.bind (keeps_winds (keeps_log E _)) fun _ =>
    Keeps.bind keeps_hand fun _ => Keeps.bind (keeps_winds (keeps_setHand (F := True) (X := True)
      fun _ => rfl)) fun _ => Keeps.bind (keeps_winds (keeps_log E _)) fun _ =>
    Keeps.bind (keeps_winds (keeps_dropSecrets E _)) fun _ => Keeps.bind (keeps_release_winds E)
    fun _ => Keeps.bind (keeps_removeDirs_winds E) fun _ => keeps_winds (keeps_persist E)

/-- The record is closed with nothing left to undo. -/
structure ClosedEmpty (w w' : World σ) : Prop where
  hand : w'.hand.state = .closed → w'.hand.applied = []
  stored : ∀ r, w'.instances.read w.hand.id = some r → r.state = .closed →
    w.instances.read w.hand.id = some r ∨ r.applied = []

theorem Reverses.winds {β : Type} {w w₁ w' : World σ} {x : Res EngineError α}
    {y : Res EngineError β} {d : List Act} (h : Reverses w x w₁ d) (hx : Returned x)
    (h' : Winds w₁ w') : Reverses w y w' d where
  acts := h'.acts.trans h.acts
  order := h.order
  own := h.own
  left := by
    obtain ⟨us, more, hus, hu, hm⟩ := h.left
    rw [h'.applied]
    exact ⟨us, more, hus, hu, .inl (hm.resolve_right fun hm' => hm'.1 hx)⟩

theorem Aside.reverses {w w₁ w' : World σ} {x : Res EngineError α} {d : List Act}
    (h : Aside w w₁) (h' : Reverses w₁ x w' d) : Reverses w x w' d where
  acts := by rw [h'.acts, h.acts]
  order := by rw [← h.applied]; exact h'.order
  own := fun c hc => (h'.own c hc).congr h.parts
  left := by rw [← h.applied, ← h.toStaysOpen.hasOp]; exact h'.left

theorem Reverses.none (w : World σ) (x : Res EngineError α) : Reverses w x w [] where
  acts := rfl
  order := List.nil_sublist _
  own := nofun
  left := ⟨[], [], (List.append_nil _).symm, rfl, .inl rfl⟩

theorem StaysOpen.closedEmpty {w w' : World σ} (h : StaysOpen w w') (hw : w.hand.state ≠ .closed) :
    ClosedEmpty w w' where
  hand := fun hc => absurd hc (h.hand hw)
  stored := fun r hr hc => .inl ((h.stored hw r hr).resolve_right fun hne => hne hc)

/-- A clean pass, and then the closing. -/
theorem Passes.closedEmpty {w w₁ w₂ w' : World σ} {x : Res EngineError Bool} (h : StaysOpen w w₁)
    (hp : Passes w₁ x w₂) (hx : x = .ok true) (h' : Winds w₂ w') (hw : w.hand.state ≠ .closed) :
    ClosedEmpty w w' where
  hand := fun _ => h'.applied.trans (hp.clean hx)
  stored := fun r hr hc => by
    have ho : StaysOpen w w₂ := h.trans hp.open_
    rw [← ho.id] at hr
    rcases h'.stored r hr with hr' | hr'
    · rw [ho.id] at hr'
      exact .inl ((ho.stored hw r hr').resolve_right fun hne => hne hc)
    · exact .inr (hr'.trans (hp.clean hx))

/-- What a revert ends with. -/
def Reverted (w : World σ) (x : Res EngineError Unit) (w' : World σ) : Prop :=
  ∃ d, Reverses w x w' d ∧ (x = .ok () → w'.hand.applied ≠ [] → Synced w') ∧
    (w.hand.state ≠ .closed → ClosedEmpty w w')

theorem Aside.reverted {w w' : World σ} {x : Res EngineError Unit} (h : Aside w w')
    (hx : ¬Returned x) : Reverted w x w' :=
  ⟨[], h.reverses (.none w' x), fun hx' => absurd (hx' ▸ trivial) hx, h.toStaysOpen.closedEmpty⟩

theorem post_revert (w : World σ) : Post (revert E) (Reverted w) w := by
  refine Post.keepsBind (m := log E (.reverting (stepsBack w.hand.applied)))
    (keeps_log E (R := Aside) _) (fun _ w₁ h₁ => ?_) (fun _ _ h => h.reverted id)
    fun _ h => h.reverted id
  refine Post.keepsBind (R := Aside) (keeps_setHand_aside (F := True) (X := True)
    fun _ => ⟨rfl, rfl, rfl, rfl⟩) (fun _ w₂ h₂ => ?_)
    (fun _ _ h => Aside.reverted (IsTrans.trans _ _ _ h₁ h) id)
    fun _ h => Aside.reverted (IsTrans.trans _ _ _ h₁ h) id
  have h₁₂ : Aside w w₂ := IsTrans.trans _ _ _ h₁ h₂
  -- a pass cut short, whose end the revert's is
  have cut : ∀ (x : Res EngineError Bool) (y : Res EngineError Unit) w', Passes w₂ x w' →
      ¬Returned x → ¬Returned y → Reverted w y w' := by
    intro x y w' hp hx hy
    obtain ⟨d, hr⟩ := hp.reverses
    have hr' := h₁₂.reverses hr
    obtain ⟨us, more, hus, hu, hm⟩ := hr'.left
    exact ⟨d, ⟨hr'.acts, hr'.order, hr'.own, us, more, hus, hu, hm.imp_right fun h => ⟨hy, h.2⟩⟩,
      fun hy' => absurd (hy' ▸ trivial) hy, (h₁₂.toStaysOpen.trans hp.open_).closedEmpty⟩
  refine Post.bind (post_revertLoop E _ w₂ (by rw [h₁₂.applied, List.reverse_reverse]))
    (fun clean w₃ h₃ => ?_) (fun e w' h => cut _ _ w' h id id) fun w' h => cut _ _ w' h id id
  obtain ⟨d, hr⟩ := h₃.reverses
  cases clean with
  | true =>
      refine Post.keeps (keeps_closeReverted_winds E) fun x w₄ h₄ =>
        ⟨d, h₁₂.reverses (hr.winds trivial h₄), fun _ hne => absurd ?_ hne,
          h₃.closedEmpty h₁₂.toStaysOpen rfl h₄⟩
      rw [h₄.applied]
      exact h₃.clean rfl
  | false =>
      exact ⟨d, h₁₂.reverses (hr.winds trivial (Std.Refl.refl w₃)), fun _ _ => (h₃.stopped rfl).2,
        (h₁₂.toStaysOpen.trans h₃.open_).closedEmpty⟩

/-- **A revert reverses the applications of its record.**  Its calls are of
applications in `applied`, each at most once, in reverse order of application
and with the application's own variables; what is left in `applied` is the
prefix that was not undone, in the store too when the pass stopped early; and
the record is closed only with nothing left. -/
theorem revert_reverses (w : World σ) :
    ∃ d, Reverses w (revert E w).1 (revert E w).2 d ∧
      ((revert E w).1 = .ok () → (revert E w).2.hand.applied ≠ [] → Synced (revert E w).2) ∧
      (w.hand.state ≠ .closed → ClosedEmpty w (revert E w).2) :=
  post_revert E w

end Rescind
