/-
# `Rescind.Turn.Quiet` — what leaves the order of a turn alone

One lemma per operation of the engine that is quiet in every run, however it
ends.  An operation that asks and journals only is *still* (`Still`): not even
the record in hand changes.  A still operation is quiet, so each of its lemmas
is stated for every coarser relation (`Coarse`).

An engine operation among them raises an error, or dies, only where the world
does not accept; one that fails with a text may do so at any time, and its
caller judges it.
-/
import Rescind.Turn.Machine

namespace Rescind

open Lib Lib.Prog

variable {σ ε α : Type}

/-! ## Still and quiet -/

/-- Only the outside and the journal have moved. -/
structure Still (w w' : World σ) : Prop where
  hand : w'.hand = w.hand
  instances : w'.instances = w.instances
  frame : w'.frame = w.frame

/-- A preorder that allows what is still. -/
class Coarse (R : World σ → World σ → Prop) : Prop extends Std.Refl R, IsTrans (World σ) R where
  still : ∀ {w w' : World σ}, Still w w' → R w w'

theorem Still.refl (w : World σ) : Still w w := ⟨rfl, rfl, rfl⟩

theorem Still.trans {w w' w'' : World σ} (h : Still w w') (h' : Still w' w'') : Still w w'' :=
  ⟨h'.hand.trans h.hand, h'.instances.trans h.instances, h'.frame.trans h.frame⟩

/-- Quiet, from what it is to show. -/
theorem Quiet.of {w w' : World σ} (hk : w'.hand.kern = w.hand.kern) (ho : SameOthers w w')
    (hr : w'.instances.read w.hand.id = w.instances.read w.hand.id ∨
      (w'.instances.read w.hand.id).map InstanceRecord.kern = some w.hand.kern)
    (hf : w'.frame = w.frame) : Quiet w w' where
  hand := InstanceRecord.core_of_kern hk
  others := ho
  own := by
    refine hr.imp_right fun h => ?_
    obtain ⟨r, hr, hk⟩ := Option.map_eq_some_iff.mp h
    rw [hr, Option.map_some, InstanceRecord.core_of_kern hk]
  frame := hf
  docket := InstanceRecord.docket_of_kern hk
  kept := hr

theorem Quiet.kern {w w' : World σ} (h : Quiet w w') : w'.hand.kern = w.hand.kern :=
  Prod.ext h.hand h.docket

theorem Still.quiet {w w' : World σ} (h : Still w w') : Quiet w w' :=
  .of (by rw [h.hand]) (fun j _ => by rw [h.instances]) (.inl (by rw [h.instances])) h.frame

theorem Quiet.refl (w : World σ) : Quiet w w := (Still.refl w).quiet

theorem Calm.id {w w' : World σ} (h : Calm w w') : w'.hand.id = w.hand.id :=
  congrArg Core.id h.hand

theorem Quiet.id {w w' : World σ} (h : Quiet w w') : w'.hand.id = w.hand.id := h.toCalm.id

theorem Quiet.trans {w w' w'' : World σ} (h : Quiet w w') (h' : Quiet w' w'') : Quiet w w'' := by
  refine .of (h'.kern.trans h.kern)
    (fun j hj => by rw [h'.others j (by rw [h.id]; exact hj), h.others j hj]) ?_
    (h'.frame.trans h.frame)
  have h'kept := h'.kept
  rw [h.id, h.kern] at h'kept
  rcases h'kept with hr | hr
  · rw [hr]; exact h.kept
  · exact .inr hr

instance : Coarse (Still (σ := σ)) where
  refl := Still.refl
  trans _ _ _ := Still.trans
  still := id

instance : Coarse (Quiet (σ := σ)) where
  refl := Quiet.refl
  trans _ _ _ := Quiet.trans
  still := Still.quiet

/-- What is stored under the id in hand has the core of the record in hand. -/
def Synced (w : World σ) : Prop := w.ownCore = some w.hand.core

/-- And its docket. -/
def Durable (w : World σ) : Prop :=
  (w.instances.read w.hand.id).map InstanceRecord.kern = some w.hand.kern

theorem Durable.synced {w : World σ} (h : Durable w) : Synced w := by
  obtain ⟨r, hr, hk⟩ := Option.map_eq_some_iff.mp h
  rw [Synced, World.ownCore, hr, Option.map_some, InstanceRecord.core_of_kern hk]

theorem Calm.synced {w w' : World σ} (h : Calm w w') (hs : Synced w) : Synced w' := by
  unfold Synced World.ownCore at *
  rw [h.id, h.hand]
  rcases h.own with hr | hr
  · rw [hr]; exact hs
  · exact hr

theorem Quiet.durable {w w' : World σ} (h : Quiet w w') (hs : Durable w) : Durable w' := by
  unfold Durable at *
  rw [h.id, h.kern]
  rcases h.kept with hr | hr
  · rw [hr]; exact hs
  · exact hr

/-- Quiet, but for what was noted. -/
def Remarked (w w' : World σ) : Prop := ∃ acts, Quiet { w with acts } w'

theorem Quiet.recalling {w w' : World σ} (h : Quiet w w') (acts : List Act) :
    Quiet { w with acts } { w' with acts } :=
  .of h.kern h.others h.kept (congrArg (fun f : Frame => f.telling acts) h.frame)

theorem Quiet.remarked {w w' : World σ} (h : Quiet w w') : Remarked w w' := ⟨w.acts, h⟩

theorem Remarked.refl (w : World σ) : Remarked w w := (Quiet.refl w).remarked

theorem Remarked.trans {w w' w'' : World σ} (h : Remarked w w') (h' : Remarked w' w'') :
    Remarked w w'' := by
  obtain ⟨_, h⟩ := h
  obtain ⟨acts, h'⟩ := h'
  exact ⟨acts, (h.recalling acts).trans h'⟩

/-- What was noted last, after something quiet. -/
theorem Quiet.noted {w w' : World σ} (h : Quiet w w') (a : Act) :
    Quiet (w.noted a) (w'.noted a) := by
  have hacts : w'.acts = w.acts := congrArg Frame.acts h.frame
  unfold World.noted
  rw [hacts]
  exact h.recalling _

/-! ## Asking -/

section
variable (E : Setting σ) {R : World σ → World σ → Prop} [Coarse R] {X : Prop}

theorem still_ask (w : World σ) (o : σ) (up : Bool) : Still w { w with out := o, up } :=
  ⟨rfl, rfl, rfl⟩

/-- After an answer, the rest may use that it is one. -/
theorem keeps_askBind {β : Type} {q : Query} {f : Reply q → Prog (World σ) ε β}
    (h : ∀ x o, (E.outside.answer o q).1 = some x → Keeps R X (¬Accepts E) (f x)) :
    Keeps R X (¬Accepts E) (ask E q >>= f) := by
  intro w
  rw [bind_eq]
  unfold ask
  rcases hq : E.outside.answer w.out q with ⟨_ | x, o⟩
  · refine ⟨Coarse.still (still_ask w o false), fun ha => ?_⟩
    have := ha.alive w.out q
    simp [hq] at this
  · have hx := h x w.out (by rw [hq]) { w with out := o }
    exact ⟨IsTrans.trans _ _ _ (Coarse.still (still_ask w o w.up)) hx.1, hx.2⟩

theorem keeps_ask (q : Query) : Keeps R X (¬Accepts E) (ask E q : Prog (World σ) ε (Reply q)) := by
  intro w
  unfold ask
  rcases hq : E.outside.answer w.out q with ⟨_ | x, o⟩
  · refine ⟨Coarse.still (still_ask w o false), fun ha => ?_⟩
    have := ha.alive w.out q
    simp [hq] at this
  · exact ⟨Coarse.still (still_ask w o w.up), trivial⟩

theorem keeps_hand {F : Prop} : Keeps R X F (hand : Prog (World σ) ε InstanceRecord) := Keeps.read _

theorem keeps_hostsNow {F : Prop} :
    Keeps R X F (hostsNow : Prog (World σ) ε (Assoc String Host)) := Keeps.read _

theorem keeps_orElse {F : Prop} (x : Except String α) (msg : String → ε) :
    Keeps R True F (orElse x msg : Prog (World σ) ε α) := by
  cases x with
  | ok a => exact Keeps.pure a
  | error e => exact Keeps.fail _

theorem keeps_writeOk (s : Slot) : Keeps R (¬Accepts E) (¬Accepts E) (writeOk E s) := by
  refine keeps_askBind E fun x o hx => ?_
  cases x with
  | ok u => exact Keeps.pure ()
  | error e => exact fun w => ⟨Std.Refl.refl w, fun ha => nomatch ha.write o s _ hx⟩

theorem keeps_readOk (s : Slot) : Keeps R True (¬Accepts E) (readOk E s) := by
  refine keeps_askBind E fun x _ _ => ?_
  cases x with
  | ok u => exact Keeps.pure ()
  | error e => exact Keeps.fail _

theorem keeps_readInstance (id : String) : Keeps R True (¬Accepts E) (readInstance E id) :=
  Keeps.bind (keeps_readOk E _) fun _ => Keeps.read _

theorem keeps_allInstances : Keeps R True (¬Accepts E) (allInstances E) :=
  Keeps.bind (keeps_readOk E _) fun _ => Keeps.bind (Keeps.read _) fun rs =>
    Keeps.bind (Keeps.loop rs (fun _ _ => keeps_readOk E _) ()) fun _ => Keeps.pure rs

/-! ## The journal -/

theorem keeps_keepEntry (e : Entry) : Keeps R (¬Accepts E) (¬Accepts E) (keepEntry E e) := by
  refine keeps_askBind E fun x o hx => ?_
  cases x with
  | error why => exact fun w => ⟨Std.Refl.refl w, fun ha => nomatch ha.sign o e _ hx⟩
  | ok u =>
      refine keeps_askBind E fun y o' hy => ?_
      cases y with
      | error why => exact fun w => ⟨Std.Refl.refl w, fun ha => nomatch ha.write o' .journal _ hy⟩
      | ok u => exact Keeps.edit fun w => Coarse.still ⟨rfl, rfl, rfl⟩

theorem keeps_recordEntry (e : Entry) : Keeps R (¬Accepts E) (¬Accepts E) (recordEntry E e) := by
  refine Keeps.bind (keeps_keepEntry E e) fun _ => keeps_askBind E fun refusals o hr => ?_
  by_cases hn : refusals.isEmpty = true
  · rw [if_pos hn]
    exact Keeps.pure ()
  · rw [if_neg hn]
    refine Keeps.bind (keeps_keepEntry E _) fun _ => Keeps.bind (keeps_ask E _) fun _ => ?_
    refine fun w => ⟨Std.Refl.refl w, fun ha => hn ?_⟩
    rw [ha.deliver o e _ hr]
    rfl

theorem keeps_logAbout (r : InstanceRecord) (ev : J) :
    Keeps R (¬Accepts E) (¬Accepts E) (logAbout E r ev) :=
  Keeps.bind (keeps_ask E _) fun _ => keeps_recordEntry E _

theorem keeps_log (ev : J) : Keeps R (¬Accepts E) (¬Accepts E) (log E ev) :=
  Keeps.bind keeps_hand fun r => keeps_logAbout E r ev

theorem keeps_journalSiteEvent (ev : J) :
    Keeps R (¬Accepts E) (¬Accepts E) (journalSiteEvent E ev) :=
  Keeps.bind (keeps_ask E _) fun _ => keeps_recordEntry E _

/-! ## Facts, probes and secrets -/

theorem keeps_factBytes (host : Host) (shape : String) :
    Keeps R True (¬Accepts E) (factBytes E host shape) := by
  refine Keeps.bind keeps_hand fun r => Keeps.bind (Keeps.ofExcept _) fun reader => ?_
  cases executorIndex E host with
  | none => exact Keeps.fail _
  | some i =>
      cases reader with
      | none => exact Keeps.bind (keeps_ask E _) fun _ => keeps_orElse _ _
      | some nb =>
          refine Keeps.bind (keeps_ask E _) fun _ => Keeps.bind (keeps_orElse _ _) fun o => ?_
          cases o.asTri with
          | yes => exact Keeps.pure _
          | no => exact Keeps.pure _
          | unknown => exact Keeps.fail _

theorem keeps_observeRaw (host : Host) (probe : String) :
    Keeps R True (¬Accepts E) (observeRaw E host probe) := by
  refine Keeps.bind keeps_hand fun r => Keeps.bind (Keeps.ofExcept _) fun run => ?_
  cases executorIndex E run.1 with
  | none => exact Keeps.fail _
  | some i => exact Keeps.bind (keeps_ask E _) fun _ => keeps_orElse _ _

theorem keeps_observeTri (host : Host) (probe : String) :
    Keeps R True (¬Accepts E) (observeTri E host probe) :=
  Keeps.bind (keeps_observeRaw E host probe) fun _ => Keeps.pure _

theorem keeps_observeText (host : Host) (probe : String) :
    Keeps R True (¬Accepts E) (observeText E host probe) :=
  Keeps.bind (keeps_observeRaw E host probe) fun _ => Keeps.pure _

theorem keeps_loadSecrets (env : Env) (b : Body) :
    Keeps R True (¬Accepts E) (loadSecrets E env b) := by
  refine Keeps.ite (Keeps.pure _) (Keeps.ite (Keeps.fail _) (Keeps.loop _ (fun _ _ => ?_) _))
  exact Keeps.bind (keeps_ask E _) fun _ => Keeps.bind (keeps_orElse _ _) fun _ => Keeps.pure _

theorem keeps_offerSecret (label value : String) (now : Instant) (until_ : Option Instant)
    (acceptors : List (String × Nat)) :
    Keeps R (¬Accepts E) (¬Accepts E) (offerSecret E label value now until_ acceptors) := by
  induction acceptors with
  | nil => exact Keeps.pure none
  | cons ni rest ih =>
      refine Keeps.bind keeps_hand fun r => Keeps.bind (keeps_ask E _) fun x => ?_
      match x with
      | .ok true => exact Keeps.pure _
      | .ok false => exact ih
      | .error e => exact Keeps.bind (keeps_log E _) fun _ => ih

theorem keeps_holdBound (permanent : Bool) (maxWait : Option Duration) (d : Option Instant) :
    Keeps R (¬Accepts E) (¬Accepts E) (holdBound E permanent maxWait d) :=
  Keeps.ite (Keeps.bind (keeps_ask E _) fun _ => Keeps.pure _) (Keeps.pure _)

theorem keeps_gather {β : Type} {f : Nat → Eng σ (List β)}
    (h : ∀ i, Keeps R X (¬Accepts E) (f i)) : Keeps R X (¬Accepts E) (gather E f) :=
  Keeps.loop _ (fun i _ => Keeps.bind (h i) fun _ => Keeps.pure _) _

theorem keeps_dropSecrets (reason : String) :
    Keeps R (¬Accepts E) (¬Accepts E) (dropSecrets E reason) :=
  Keeps.bind keeps_hand fun _ => Keeps.bind (keeps_gather E fun _ => keeps_ask E _) fun gone =>
    Keeps.loop gone (fun _ _ => keeps_log E _) ()

theorem keeps_journalDropped (gone : List (String × String)) (reason : String) :
    Keeps R (¬Accepts E) (¬Accepts E) (journalDropped E gone reason) := by
  refine Keeps.loop gone (fun g _ => ?_) ()
  refine Keeps.bind (Keeps.attempt (keeps_readInstance E g.1)) fun x => ?_
  match x with
  | .ok (some r) => exact keeps_logAbout E r _
  | .ok none => exact Keeps.pure ()
  | .error e => exact Keeps.pure ()

theorem keeps_expireSecrets : Keeps R (¬Accepts E) (¬Accepts E) (expireSecrets E) :=
  Keeps.bind (keeps_ask E _) fun _ => Keeps.bind (keeps_gather E fun _ => keeps_ask E _) fun _ =>
    keeps_journalDropped E _ _

theorem keeps_dropSecretsAtBoot : Keeps R (¬Accepts E) (¬Accepts E) (dropSecretsAtBoot E) :=
  Keeps.bind (keeps_gather E fun _ => keeps_ask E _) fun _ => keeps_journalDropped E _ _

/-! ## The record in hand -/

omit [Coarse R] in
theorem quiet_hand {w : World σ} {r : InstanceRecord} (h : r.kern = w.hand.kern) :
    Quiet w { w with hand := r } := .of h (fun _ _ => rfl) (.inl rfl) rfl

omit [Coarse R] in
theorem keeps_setHand {F : Prop} {f : InstanceRecord → InstanceRecord}
    (h : ∀ r, (f r).kern = r.kern) :
    Keeps Quiet X F (setHand f : Prog (World σ) ε Unit) :=
  Keeps.edit fun w => quiet_hand (h w.hand)

theorem quiet_write (w : World σ) : Quiet w { w with instances := w.instances.write w.hand } :=
  .of rfl (fun _ hj => Store.read_write_ne _ _ hj) (.inr (by simp)) rfl

theorem keeps_persist : Keeps Quiet (¬Accepts E) (¬Accepts E) (persist E) :=
  Keeps.bind keeps_hand fun _ => Keeps.bind (keeps_writeOk E _) fun _ => Keeps.edit quiet_write

theorem keeps_deliverSecret (label value : String) :
    Keeps Quiet (¬Accepts E) (¬Accepts E) (deliverSecret E label value) := by
  refine Keeps.bind keeps_hand fun r => ?_
  split
  · exact Keeps.bind (keeps_log E _) fun _ => keeps_setHand fun _ => rfl
  · refine Keeps.bind (keeps_holdBound E _ _ _) fun _ => Keeps.bind (keeps_ask E _) fun _ =>
      Keeps.bind (keeps_offerSecret E _ _ _ _ _) fun taken => ?_
    cases taken with
    | some acceptor => exact keeps_log E _
    | none =>
        exact Keeps.bind (keeps_log E _) fun _ => Keeps.bind (keeps_setHand fun _ => rfl) fun _ =>
          keeps_persist E

/-! ## Instance directories -/

theorem keeps_foreignController (i : Nat) (host : Host) (inst : String) :
    Keeps R True (¬Accepts E) (foreignController E i host inst) := by
  refine Keeps.bind (keeps_ask E _) fun x => ?_
  cases x with
  | error e => exact Keeps.pure _
  | ok bytes =>
      dsimp only
      split
      · exact Keeps.pure _
      · exact Keeps.ite (Keeps.pure _) (Keeps.pure _)

theorem keeps_createDir (i : Nat) (host : Host) (id : String) :
    Keeps R True (¬Accepts E) (createDir E i host id) := by
  refine Keeps.bind (keeps_ask E _) fun _ => Keeps.bind (keeps_orElse _ _) fun _ =>
    Keeps.bind (Keeps.failIf _ _) fun _ => Keeps.bind (keeps_ask E _) fun _ =>
    Keeps.bind (keeps_orElse _ _) fun dirs => Keeps.bind (Keeps.loop dirs (fun d _ => ?_) ()) fun _ =>
    Keeps.bind (keeps_ask E _) fun _ => Keeps.bind (keeps_orElse _ _) fun _ =>
    Keeps.bind (keeps_ask E _) fun _ => keeps_orElse _ _
  refine Keeps.ite (Keeps.pure ()) (Keeps.bind (keeps_foreignController E i host d.inst) fun x => ?_)
  cases x with
  | some other => exact Keeps.fail _
  | none => exact Keeps.pure ()

theorem keeps_ensureInstanceDir (host : Host) :
    Keeps Quiet (¬Accepts E) (¬Accepts E) (ensureInstanceDir E host) := by
  refine Keeps.bind keeps_hand fun r => Keeps.ite (Keeps.pure _) ?_
  cases executorIndex E host with
  | none => exact Keeps.pure _
  | some i =>
      refine Keeps.bind (Keeps.attempt (keeps_createDir E i host r.id)) fun x => ?_
      cases x with
      | error why => exact Keeps.pure _
      | ok u =>
          exact Keeps.bind (keeps_setHand fun _ => rfl) fun _ => Keeps.bind (keeps_persist E) fun _ =>
            Keeps.pure _

theorem keeps_onHost {β : Type} (name : String) {f : Nat → Host → Eng σ β}
    (h : ∀ i host, Keeps R X (¬Accepts E) (f i host)) : Keeps R X (¬Accepts E) (onHost E name f) := by
  refine Keeps.bind keeps_hostsNow fun hosts => ?_
  cases hostOf E hosts name with
  | none => exact Keeps.pure ()
  | some host =>
      dsimp only
      cases executorIndex E host with
      | none => exact Keeps.pure ()
      | some i => exact Keeps.bind (h i host) fun _ => Keeps.pure ()

theorem keeps_removeStaged (step : Option Nat) (reason : String) :
    Keeps Quiet (¬Accepts E) (¬Accepts E) (removeStaged E step reason) := by
  refine Keeps.bind keeps_hand fun r => Keeps.ite (Keeps.pure ()) ?_
  refine Keeps.bind (Keeps.loop _ (fun s _ => ?_) ()) fun _ =>
    Keeps.bind (keeps_setHand fun _ => rfl) fun _ => keeps_persist E
  exact Keeps.bind (keeps_onHost E _ fun _ _ => keeps_ask E _) fun _ => keeps_log E _

/-! ## Install, arm, rearm, disarm -/

theorem keeps_installArtifact (r : InstanceRecord) (host : Host) :
    Keeps R True (¬Accepts E) (installArtifact E r host) := by
  refine Keeps.bind (keeps_orElse _ _) fun ft => ?_
  cases host.scheduler with
  | none => exact Keeps.fail _
  | some sched =>
      dsimp only
      cases executorIndex E host with
      | none => exact Keeps.fail _
      | some i =>
          refine Keeps.bind (keeps_ask E _) fun _ => Keeps.bind (Keeps.ofExcept _) fun _ =>
            Keeps.bind (keeps_ask E _) fun _ => Keeps.bind (keeps_orElse _ _) fun _ =>
            Keeps.bind (Keeps.failIf _ _) fun _ => Keeps.bind (keeps_ask E _) fun _ =>
            Keeps.bind (keeps_orElse _ _) fun _ => Keeps.bind (keeps_ask E _) fun x => ?_
          match x with
          | .ok .absent => exact Keeps.fail _
          | .error e => exact Keeps.fail _
          | .ok .present => exact Keeps.pure _
          | .ok .unknown => exact Keeps.pure _

theorem keeps_armArtifact (r : InstanceRecord) (st : BackstopState) (host : Host) (now : Instant)
    (sched : Schedule) : Keeps R True (¬Accepts E) (armArtifact E r st host now sched) := by
  unfold armArtifact
  cases executorIndex E host with
  | none => exact Keeps.fail _
  | some i =>
      exact Keeps.bind (keeps_ask E _) fun _ => Keeps.bind (keeps_orElse _ _) fun _ =>
        Keeps.bind (Keeps.failIf _ _) fun _ => Keeps.bind (keeps_ask E _) fun _ =>
        Keeps.bind (keeps_orElse _ _) fun _ => Keeps.bind (Keeps.ofExcept _) fun _ =>
        Keeps.bind (Keeps.when (Keeps.bind (keeps_ask E _) fun _ => keeps_orElse _ _)) fun _ =>
        Keeps.bind (Keeps.when (Keeps.bind (keeps_ask E _) fun _ => keeps_orElse _ _)) fun _ =>
        Keeps.bind (Keeps.failIf _ _) fun _ => Keeps.bind (keeps_ask E _) fun _ => keeps_orElse _ _

theorem keeps_rearmArtifact (r : InstanceRecord) (st : BackstopState) (host : Host) (d : Instant) :
    Keeps R True (¬Accepts E) (rearmArtifact E r st host d) := by
  unfold rearmArtifact
  cases executorIndex E host with
  | none => exact Keeps.fail _
  | some i =>
      exact Keeps.bind (keeps_ask E _) fun _ => Keeps.bind (keeps_orElse _ _) fun _ =>
        Keeps.bind (Keeps.failIf _ _) fun _ => Keeps.bind (keeps_ask E _) fun _ => keeps_orElse _ _

theorem keeps_disarmArtifact (r : InstanceRecord) (st : BackstopState) (host : Host)
    (whole : Bool) : Keeps R True (¬Accepts E) (disarmArtifact E r st host whole) := by
  unfold disarmArtifact
  cases executorIndex E host with
  | none => exact Keeps.fail _
  | some i =>
      refine Keeps.bind (keeps_ask E _) fun _ => Keeps.bind (keeps_orElse _ _) fun _ => Keeps.when ?_
      exact Keeps.bind (Keeps.failIf _ _) fun _ => Keeps.bind (keeps_ask E _) fun _ =>
        Keeps.bind (keeps_orElse _ _) fun _ => Keeps.bind (keeps_ask E _) fun _ => keeps_orElse _ _

theorem keeps_orLog (x : Except String Unit) : Keeps R (¬Accepts E) (¬Accepts E) (orLog E x) := by
  cases x with
  | error why => exact keeps_log E _
  | ok u => exact Keeps.pure ()

/-! ## Firings and reconciliation -/

theorem keeps_hasFile (i : Nat) (host : Host) (inst rel : String) :
    Keeps R X (¬Accepts E) (hasFile E i host inst rel) := by
  refine Keeps.bind (keeps_ask E _) fun x => ?_
  cases x with
  | ok b => exact Keeps.pure _
  | error e => exact Keeps.pure _

theorem keeps_undoneByArtifact (i : Nat) (host : Host) (r : InstanceRecord) :
    Keeps R X (¬Accepts E) (undoneByArtifact E i host r) :=
  Keeps.loop _ (fun _ _ => Keeps.bind (keeps_hasFile E i host _ _) fun _ =>
    Keeps.ite (Keeps.pure _) (Keeps.pure _)) _

theorem keeps_reconcileDir (i : Nat) (host : Host) (d : InstanceDirState) :
    Keeps R (¬Accepts E) (¬Accepts E) (reconcileDir E i host d) := by
  refine Keeps.bind (Keeps.attempt (keeps_foreignController E i host d.inst)) fun x => ?_
  split
  · exact keeps_journalSiteEvent E _
  · refine Keeps.ite (keeps_journalSiteEvent E _) (Keeps.bind (keeps_ask E _) fun y => ?_)
    cases y with
    | ok u => exact keeps_journalSiteEvent E _
    | error e => exact Keeps.pure ()

theorem keeps_reconcileHost (known : List String) (host : Host) :
    Keeps R (¬Accepts E) (¬Accepts E) (reconcileHost E known host) := by
  unfold reconcileHost
  cases executorIndex E host with
  | none => exact Keeps.pure ()
  | some i =>
      refine Keeps.ite (Keeps.pure ()) (Keeps.bind (keeps_ask E _) fun x => ?_)
      cases x with
      | error e => exact Keeps.pure ()
      | ok dirs =>
          exact Keeps.loop dirs (fun d _ => Keeps.ite (Keeps.pure ()) (keeps_reconcileDir E i host d)) ()

theorem keeps_reconcile : Keeps R True (¬Accepts E) (reconcile E) :=
  Keeps.bind (keeps_allInstances E) fun _ => Keeps.bind keeps_hostsNow fun hosts =>
    Keeps.loop hosts (fun h _ => (keeps_reconcileHost E _ h.2).mono (fun _ _ h => h)
      fun _ => trivial) ()

/-! ## Before and after `do`, and gates -/

theorem keeps_judgeFacts (r : InstanceRecord) (host : Host) (policy : Drift) (ms : List Marker)
    (facts : List (Nat × FootprintEntry × String)) :
    Keeps R True (¬Accepts E) (judgeFacts E r host policy ms facts) :=
  Keeps.loop facts (fun _ _ => Keeps.bind (keeps_factBytes E host _) fun _ =>
    Keeps.bind (Keeps.read _) fun _ => Keeps.pure _) _

theorem keeps_untouchedOn (host : Host) (pre : Watched) :
    Keeps R (¬Accepts E) (¬Accepts E) (untouched.untouchedOn E host pre) := by
  induction pre with
  | nil => exact Keeps.pure _
  | cons sw rest ih =>
      refine Keeps.bind (Keeps.attempt (keeps_factBytes E host sw.1)) fun x => ?_
      cases x with
      | ok now => exact Keeps.ite ih (Keeps.pure _)
      | error e => exact Keeps.pure _

theorem keeps_untouched (op : Op) (pre : Watched) :
    Keeps R (¬Accepts E) (¬Accepts E) (untouched E op pre) := by
  refine Keeps.bind keeps_hand fun r => Keeps.bind keeps_hostsNow fun hosts => ?_
  cases stepHost E hosts r op with
  | error e => exact Keeps.pure _
  | ok host => exact keeps_untouchedOn E host pre

theorem keeps_measure (owner : Host) (probe : String) :
    Keeps R (¬Accepts E) (¬Accepts E) (measure E owner probe) := by
  refine Keeps.bind (Keeps.attempt (keeps_observeRaw E owner probe)) fun x => ?_
  cases x with
  | ok o => exact Keeps.pure _
  | error e => exact Keeps.pure _

theorem keeps_hostContract : Keeps R (¬Accepts E) (¬Accepts E) (hostContract E) := by
  refine Keeps.bind keeps_hand fun r => Keeps.bind keeps_hostsNow fun hosts =>
    Keeps.ite (Keeps.pure _) ?_
  cases hostOf E hosts r.plan.owner with
  | none => exact Keeps.pure _
  | some owner =>
      exact Keeps.bind (Keeps.loop _ (fun _ _ => Keeps.bind (keeps_measure E owner _) fun _ =>
        Keeps.pure _) _) fun _ => Keeps.pure _

theorem keeps_authenticators : Keeps R (¬Accepts E) (¬Accepts E) (authenticators E) := by
  unfold authenticators
  cases E.approval with
  | none => exact Keeps.pure _
  | some b =>
      refine Keeps.bind (keeps_ask E _) fun x => ?_
      cases x with
      | ok as => exact Keeps.pure _
      | error e => exact Keeps.pure _

theorem keeps_watched (host : Host) (a : AppliedStep) :
    Keeps R True (¬Accepts E) (watched E host a) := by
  refine Keeps.bind keeps_hand fun r => Keeps.bind keeps_hostsNow fun hosts =>
    Keeps.ite (Keeps.pure _) (Keeps.loop _ (fun _ _ => ?_) _)
  exact Keeps.ite (Keeps.pure _) (Keeps.bind (keeps_factBytes E host _) fun _ => Keeps.pure _)

theorem keeps_readMarkers (host : Host) (op : Op) :
    Keeps R True (¬Accepts E) (readMarkers E host op) :=
  Keeps.ite (Keeps.pure _) (Keeps.loop _ (fun _ _ =>
    Keeps.bind (keeps_factBytes E host _) fun _ => Keeps.pure _) _)

theorem keeps_keepSnapshot (a : AppliedStep) (i : Nat) (host : Host) (k : Nat) (bytes : Bytes) :
    Keeps Quiet (¬Accepts E) (¬Accepts E) (keepSnapshot E a i host k bytes) :=
  Keeps.bind keeps_hand fun _ =>
    Keeps.bind (Keeps.when (Keeps.bind (keeps_ask E _) fun _ => Keeps.pure ())) fun _ =>
    keeps_setHand fun _ => rfl

end

end Rescind
