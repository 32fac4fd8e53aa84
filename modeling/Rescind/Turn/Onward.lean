/-
# `Rescind.Turn.Onward` — what a walk only ever adds to

A relation is *onward* when it goes along with asking for anything that takes
nothing away from a host, with journaling, and with any change to the rest but
where the record in hand lives (`Here`).  It is *farther* when where the record
lives may change too: closing an instance forgets its directories.  Whether it
goes along with a removal (`Asks`) is asked of it where one is made.

    `Grown`      the journal only grows            farther, and any removal
    `SameHere`   the record lives where it lived   onward, and any removal

One lemma per operation a walk can come to, from before a step's `do` to the
end of the refusal that follows it; each is proved once for all such relations.
-/
import Rescind.Turn.Quiet
import Rescind.Engine.Walk

namespace Rescind

open Lib Lib.Prog

variable {σ ε α : Type}

/-- Where a record lives: the inventory, its id, whether it rehearses, its
directories, and the files staged there. -/
structure Here where
  hosts : Assoc String Host
  id : String
  rehearsal : Bool
  dirs : List String
  staged : List Staged

def World.here (w : World σ) : Here :=
  ⟨w.hosts, w.hand.id, w.hand.rehearsal, w.hand.dirs, w.hand.staged⟩

/-- A query that takes something away from a host. -/
def Query.removes : Query → Bool
  | .removeFile .. | .dirRemove .. => true
  | _ => false

/-- The relation goes along with a query, whatever is answered. -/
def Asks (E : Setting σ) (R : World σ → World σ → Prop) (q : Query) : Prop :=
  ∀ (w : World σ) (up : Bool), R w { w with out := (E.outside.answer w.out q).2, up }

class Onward (E : Setting σ) (R : World σ → World σ → Prop) : Prop
    extends Std.Refl R, IsTrans (World σ) R where
  asks : ∀ q, q.removes = false → Asks E R q
  entered : ∀ (w : World σ) (e : Entry), R w { w with journal := w.journal ++ [e] }
  within : ∀ {w w' : World σ}, w'.out = w.out → w'.journal = w.journal → w'.here = w.here →
    R w w'

class Farther (E : Setting σ) (R : World σ → World σ → Prop) : Prop extends Onward E R where
  beyond : ∀ {w w' : World σ}, w'.out = w.out → w'.journal = w.journal → R w w'

/-- The journal only grows. -/
def Grown (w w' : World σ) : Prop := w.journal <+: w'.journal

theorem grown_of_eq {w w' : World σ} (h : w'.journal = w.journal) : Grown w w' := by
  unfold Grown
  exact ⟨[], by rw [List.append_nil, h]⟩

instance (E : Setting σ) : Farther E (Grown (σ := σ)) where
  refl w := List.prefix_refl w.journal
  trans _ _ _ h h' := List.IsPrefix.trans h h'
  asks _ _ w _ := List.prefix_refl w.journal
  entered w e := List.prefix_append w.journal [e]
  within _ hj _ := grown_of_eq hj
  beyond _ hj := grown_of_eq hj

theorem asks_grown (E : Setting σ) (q : Query) : Asks E Grown q :=
  fun w _ => List.prefix_refl w.journal

/-- The record lives where it lived. -/
def SameHere (w w' : World σ) : Prop := w'.here = w.here

instance : Std.Refl (SameHere (σ := σ)) := ⟨fun _ => rfl⟩

instance : IsTrans (World σ) SameHere := ⟨fun _ _ _ h h' => Eq.trans h' h⟩

instance (E : Setting σ) : Onward E (SameHere (σ := σ)) where
  asks _ _ _ _ := rfl
  entered _ _ := rfl
  within _ _ h := h

section
variable (E : Setting σ) {R : World σ → World σ → Prop} [Onward E R]

/-! ## Asking and journaling -/

omit [Onward E R] in
theorem onward_ask {q : Query} (hq : Asks E R q) :
    Keeps R True True (ask E q : Prog (World σ) ε (Reply q)) := by
  refine Keeps.ofState fun w => ?_
  have h := fun up => hq w up
  unfold ask
  match ha : E.outside.answer w.out q with
  | (some _, _) => rw [ha] at h; exact h w.up
  | (none, _) => rw [ha] at h; exact h false

/-- Nothing is taken away by it. -/
theorem onward_ask' {q : Query} (hq : q.removes = false) :
    Keeps R True True (ask E q : Prog (World σ) ε (Reply q)) :=
  onward_ask E (Onward.asks q hq)

omit [Onward E R] in
theorem onward_orElse [Std.Refl R] (x : Except String α) (msg : String → ε) :
    Keeps R True True (orElse x msg : Prog (World σ) ε α) := by
  cases x with
  | ok a => exact Keeps.pure a
  | error e => exact Keeps.fail _

theorem onward_writeOk (sl : Slot) : Keeps R True True (writeOk E sl) := by
  refine Keeps.bind (onward_ask' E rfl) fun x => ?_
  cases x with
  | ok u => exact Keeps.pure ()
  | error e => exact Keeps.fail _

theorem onward_persist : Keeps R True True (persist E) :=
  Keeps.bind (Keeps.read _) fun _ => Keeps.bind (onward_writeOk E _) fun _ =>
    Keeps.edit fun _ => Onward.within (E := E) rfl rfl rfl

theorem onward_keepEntry (e : Entry) : Keeps R True True (keepEntry E e) := by
  refine Keeps.bind (onward_ask' E rfl) fun x => ?_
  cases x with
  | error why => exact Keeps.fail _
  | ok u =>
      refine Keeps.bind (onward_ask' E rfl) fun y => ?_
      cases y with
      | error why => exact Keeps.fail _
      | ok u => exact Keeps.edit fun w => Onward.entered (E := E) w e

theorem onward_logAbout (r : InstanceRecord) (ev : J) : Keeps R True True (logAbout E r ev) := by
  refine Keeps.bind (onward_ask' E rfl) fun at_ => Keeps.bind (onward_keepEntry E _) fun _ =>
    Keeps.bind (onward_ask' E rfl) fun refusals => Keeps.ite (Keeps.pure ()) ?_
  exact Keeps.bind (onward_keepEntry E _) fun _ => Keeps.bind (onward_ask' E rfl) fun _ =>
    Keeps.fail _

theorem onward_log (ev : J) : Keeps R True True (log E ev) :=
  Keeps.bind (Keeps.read _) fun r => onward_logAbout E r ev

include E in
/-- A change to the record in hand that leaves it where it lives. -/
theorem onward_setHand {f : InstanceRecord → InstanceRecord}
    (h : ∀ r, (f r).id = r.id ∧ (f r).rehearsal = r.rehearsal ∧ (f r).dirs = r.dirs ∧
      (f r).staged = r.staged) :
    Keeps R True True (setHand f : Prog (World σ) ε Unit) := by
  refine Keeps.edit fun w => Onward.within (E := E) rfl rfl ?_
  obtain ⟨hi, hr, hd, hs⟩ := h w.hand
  simp only [World.here, hi, hr, hd, hs]

include E in
theorem onward_note (a : Act) : Keeps R True True (note a : Prog (World σ) ε Unit) :=
  Keeps.edit fun _ => Onward.within (E := E) rfl rfl rfl

theorem onward_step (ev : Event) : Keeps R True True (step E ev) := by
  refine Keeps.bind (Keeps.read _) fun r => ?_
  split
  · exact Keeps.bind (onward_setHand E fun _ => ⟨rfl, rfl, rfl, rfl⟩) fun _ =>
      Keeps.bind (onward_persist E) fun _ => Keeps.edit fun _ =>
      Onward.within (E := E) rfl rfl rfl
  · exact Keeps.pure ()
  · exact Keeps.fail _
  · exact Keeps.fail _

/-! ## Facts, probes and secrets -/

theorem onward_factBytes (host : Host) (shape : String) :
    Keeps R True True (factBytes E host shape) := by
  refine Keeps.bind (Keeps.read _) fun r => Keeps.bind (Keeps.ofExcept _) fun reader => ?_
  cases executorIndex E host with
  | none => exact Keeps.fail _
  | some i =>
      cases reader with
      | none => exact Keeps.bind (onward_ask' E rfl) fun _ => onward_orElse _ _
      | some nb =>
          refine Keeps.bind (onward_ask' E rfl) fun _ => Keeps.bind (onward_orElse _ _) fun o => ?_
          cases o.asTri with
          | yes => exact Keeps.pure _
          | no => exact Keeps.pure _
          | unknown => exact Keeps.fail _

theorem onward_observeTri (host : Host) (probe : String) :
    Keeps R True True (observeTri E host probe) := by
  refine Keeps.bind (Keeps.bind (Keeps.read _) fun r => Keeps.bind (Keeps.ofExcept _) fun run => ?_)
    fun _ => Keeps.pure _
  cases executorIndex E run.1 with
  | none => exact Keeps.fail _
  | some i => exact Keeps.bind (onward_ask' E rfl) fun _ => onward_orElse _ _

theorem onward_offerSecret (label value : String) (now : Instant) (until_ : Option Instant)
    (acceptors : List (String × Nat)) :
    Keeps R True True (offerSecret E label value now until_ acceptors) := by
  induction acceptors with
  | nil => exact Keeps.pure none
  | cons ni rest ih =>
      refine Keeps.bind (Keeps.read _) fun r => Keeps.bind (onward_ask' E rfl) fun x => ?_
      match x with
      | .ok true => exact Keeps.pure _
      | .ok false => exact ih
      | .error e => exact Keeps.bind (onward_log E _) fun _ => ih

theorem onward_deliverSecret (label value : String) :
    Keeps R True True (deliverSecret E label value) := by
  refine Keeps.bind (Keeps.read _) fun r => ?_
  split
  · exact Keeps.bind (onward_log E _) fun _ => onward_setHand E fun _ => ⟨rfl, rfl, rfl, rfl⟩
  · refine Keeps.bind (Keeps.ite (Keeps.bind (onward_ask' E rfl) fun _ => Keeps.pure _)
        (Keeps.pure _)) fun _ => Keeps.bind (onward_ask' E rfl) fun _ =>
      Keeps.bind (onward_offerSecret E _ _ _ _ _) fun taken => ?_
    cases taken with
    | some acceptor => exact onward_log E _
    | none =>
        exact Keeps.bind (onward_log E _) fun _ =>
          Keeps.bind (onward_setHand E fun _ => ⟨rfl, rfl, rfl, rfl⟩) fun _ => onward_persist E

theorem onward_dropSecrets (reason : String) : Keeps R True True (dropSecrets E reason) :=
  Keeps.bind (Keeps.read _) fun _ => Keeps.bind
    (Keeps.loop _ (fun _ _ => Keeps.bind (onward_ask' E rfl) fun _ => Keeps.pure _) _) fun gone =>
    Keeps.loop gone (fun _ _ => onward_log E _) ()

theorem onward_loadSecrets (env : Env) (b : Body) : Keeps R True True (loadSecrets E env b) := by
  refine Keeps.ite (Keeps.pure _) (Keeps.ite (Keeps.fail _) (Keeps.loop _ (fun _ _ => ?_) _))
  exact Keeps.bind (onward_ask' E rfl) fun _ => Keeps.bind (onward_orElse _ _) fun _ => Keeps.pure _

theorem onward_watched (host : Host) (a : AppliedStep) : Keeps R True True (watched E host a) := by
  refine Keeps.bind (Keeps.read _) fun r => Keeps.bind (Keeps.read _) fun hosts =>
    Keeps.ite (Keeps.pure _) (Keeps.loop _ (fun _ _ => ?_) _)
  exact Keeps.ite (Keeps.pure _) (Keeps.bind (onward_factBytes E host _) fun _ => Keeps.pure _)

/-! ## Before and after `do` -/

include E in
theorem onward_strand (why : Strand) (e : EngineError) :
    Keeps R True True (strand why e : Eng σ α) :=
  Keeps.bind (Keeps.read _) fun _ => Keeps.bind (onward_note E _) fun _ => Keeps.fail _

theorem onward_snapshotFacts (a : AppliedStep) (i : Nat) (host : Host)
    (facts : List (Nat × FootprintEntry × String)) (pre : Watched) :
    Keeps R True True (snapshotFacts E a i host facts pre) := by
  induction facts generalizing pre with
  | nil => exact Keeps.pure _
  | cons f rest ih =>
      refine Keeps.bind (Keeps.attempt (onward_factBytes E host f.2.1.shape)) fun x => ?_
      cases x with
      | error why => exact Keeps.pure _
      | ok bytes =>
          dsimp only
          split
          · refine Keeps.ite (Keeps.bind (Keeps.read _) fun _ => Keeps.bind (onward_note E _) fun _ =>
              Keeps.fail _) (Keeps.bind ?_ fun _ => ih _)
            exact Keeps.bind (Keeps.read _) fun _ => Keeps.bind (Keeps.when
              (Keeps.bind (onward_ask' E rfl) fun _ => Keeps.pure ())) fun _ =>
              onward_setHand E fun _ => ⟨rfl, rfl, rfl, rfl⟩
          · exact ih _

theorem onward_readBefore (a : AppliedStep) (op : Op) (host : Host) :
    Keeps R True True (readBefore E a op host) := by
  have hs : Keeps R True True (snapshot E a op host) := by
    unfold snapshot
    cases executorIndex E host with
    | none => exact Keeps.bind (onward_persist E) fun _ => Keeps.pure _
    | some i =>
        refine Keeps.bind (onward_snapshotFacts E a i host _ _) fun x => ?_
        cases x with
        | error why => exact Keeps.pure _
        | ok pre =>
            exact Keeps.bind (onward_setHand E fun _ => ⟨rfl, rfl, rfl, rfl⟩) fun _ =>
              Keeps.bind (onward_persist E) fun _ => Keeps.pure _
  refine Keeps.bind hs fun x => ?_
  cases x with
  | error why => exact Keeps.pure _
  | ok pre =>
      refine Keeps.bind (Keeps.attempt (onward_watched E host a)) fun y => ?_
      cases y with
      | error why => exact Keeps.pure _
      | ok before => exact Keeps.pure _

theorem onward_writeMarkers (host : Host) (a : AppliedStep) (op : Op) :
    Keeps R True True (writeMarkers E host a op) := by
  have hread : Keeps R True True (readMarkers E host op) :=
    Keeps.ite (Keeps.pure _) (Keeps.loop _ (fun _ _ =>
      Keeps.bind (onward_factBytes E host _) fun _ => Keeps.pure _) _)
  refine Keeps.bind (Keeps.read _) fun r => Keeps.bind (Keeps.read _) fun hosts =>
    Keeps.bind (Keeps.attempt hread) fun x => ?_
  cases x with
  | error why => exact Keeps.pure _
  | ok ms =>
      dsimp only
      split
      · refine Keeps.bind (onward_ask' E rfl) fun put => ?_
        cases put with
        | error e => exact onward_strand E _ _
        | ok u =>
            refine Keeps.bind (onward_setHand E fun _ => ⟨rfl, rfl, rfl, rfl⟩) fun _ =>
              Keeps.bind (Keeps.read _) fun r' => Keeps.bind (onward_ask' E rfl) fun written => ?_
            cases written with
            | error e => exact onward_strand E _ _
            | ok u => exact Keeps.bind (onward_persist E) fun _ => Keeps.pure _
      · exact Keeps.bind (onward_setHand E fun _ => ⟨rfl, rfl, rfl, rfl⟩) fun _ =>
          Keeps.bind (onward_persist E) fun _ => Keeps.pure _

theorem onward_markApplied (a : AppliedStep) : Keeps R True True (markApplied E a) :=
  Keeps.bind (onward_setHand E fun _ => ⟨rfl, rfl, rfl, rfl⟩) fun _ => onward_persist E

theorem onward_wait (n : Nat) (reason : String) (guard : Option String) (bound : Option Duration) :
    Keeps R True True (wait E n reason guard bound) :=
  Keeps.bind (onward_ask' E rfl) fun _ => Keeps.bind (onward_setHand E fun _ => ⟨rfl, rfl, rfl, rfl⟩)
    fun _ => Keeps.bind (onward_step E _) fun _ => Keeps.bind (onward_log E _) fun _ => Keeps.pure _

theorem onward_untouched (op : Op) (pre : Watched) : Keeps R True True (untouched E op pre) := by
  refine Keeps.bind (Keeps.read _) fun r => Keeps.bind (Keeps.read _) fun hosts => ?_
  cases stepHost E hosts r op with
  | error e => exact Keeps.pure _
  | ok host =>
      dsimp only
      induction pre with
      | nil => exact Keeps.pure _
      | cons sw rest ih =>
          refine Keeps.bind (Keeps.attempt (onward_factBytes E host sw.1)) fun x => ?_
          cases x with
          | ok now => exact Keeps.ite ih (Keeps.pure _)
          | error e => exact Keeps.pure _

/-! ## Undoing -/

/-- The marker of an undone step is taken away. -/
def AsksMarkers (E : Setting σ) (R : World σ → World σ → Prop) : Prop :=
  ∀ i host id (n : Nat), Asks E R (.removeFile i host id ("markers/" ++ toString n))

variable (hm : AsksMarkers E R)
include hm

theorem onward_undoStep (a : AppliedStep) (op : Op) : Keeps R True True (undoStep E a op) := by
  refine Keeps.bind (Keeps.read _) fun r => Keeps.ite
    (Keeps.bind (onward_note E _) fun _ => Keeps.pure _) ?_
  refine Keeps.bind (Keeps.read _) fun hosts => Keeps.bind (Keeps.ofExcept _) fun host =>
    Keeps.bind (onward_orElse _ _) fun op => ?_
  split
  · exact Keeps.fail _
  · refine Keeps.bind (Keeps.when (Keeps.bind (onward_ask' E rfl) fun _ => onward_orElse _ _))
      fun _ => Keeps.bind (Keeps.loop _ (fun _ _ => Keeps.bind (onward_factBytes E _ _) fun _ =>
        Keeps.bind (Keeps.read _) fun _ => Keeps.pure _) _) fun found => Keeps.ite (Keeps.pure _) ?_
    refine Keeps.bind (Keeps.ofExcept _) fun _ => Keeps.bind (Keeps.ofExcept _) fun body =>
      Keeps.bind (Keeps.when (Keeps.bind (onward_note E _) fun _ =>
        Keeps.bind (onward_ask' E rfl) fun _ => Keeps.bind (onward_orElse _ _) fun _ =>
        Keeps.pure ())) fun _ => ?_
    exact Keeps.bind (Keeps.when (Keeps.bind (onward_ask E (hm _ _ _ _)) fun _ => Keeps.pure ()))
      fun _ => Keeps.bind (onward_note E _) fun _ => Keeps.pure _

theorem onward_undoFailed (a : AppliedStep) (op : Op) (pre : Watched) :
    Keeps R True True (undoFailed E a op pre) := by
  refine Keeps.bind (onward_setHand E fun _ => ⟨rfl, rfl, rfl, rfl⟩) fun _ =>
    Keeps.bind (Keeps.ite (Keeps.pure _) (onward_untouched E op pre)) fun same => Keeps.ite ?_ ?_
  · exact Keeps.bind (onward_log E _) fun _ => Keeps.bind (Keeps.read _) fun _ =>
      Keeps.bind (onward_note E _) fun _ => onward_persist E
  · refine Keeps.bind (Keeps.attempt (onward_undoStep E hm a op)) fun x => ?_
    cases x with
    | ok report => exact onward_persist E
    | error why =>
        refine Keeps.bind (Keeps.bind (onward_setHand E fun _ => ⟨rfl, rfl, rfl, rfl⟩) fun _ =>
          Keeps.bind (Keeps.read _) fun _ => onward_note E _) fun _ => ?_
        exact Keeps.bind (onward_log E _) fun _ => onward_persist E

theorem onward_revertLoop (as : List AppliedStep) : Keeps R True True (revertLoop E as) := by
  induction as with
  | nil => exact Keeps.pure true
  | cons a rest ih =>
      have pop : ∀ f : InstanceRecord → InstanceRecord,
          (∀ r, (f r).id = r.id ∧ (f r).rehearsal = r.rehearsal ∧ (f r).dirs = r.dirs ∧
      (f r).staged = r.staged) →
          Keeps R True True (setHand f >>= fun _ => persist E >>= fun _ => revertLoop E rest) :=
        fun f hf => Keeps.bind (onward_setHand E hf) fun _ =>
          Keeps.bind (onward_persist E) fun _ => ih
      refine Keeps.bind (Keeps.read _) fun r => ?_
      split
      · exact pop _ fun _ => ⟨rfl, rfl, rfl, rfl⟩
      · refine Keeps.bind (Keeps.attempt (onward_undoStep E hm a _)) fun x => ?_
        cases x with
        | error why =>
            refine Keeps.bind (onward_setHand E fun _ => ⟨rfl, rfl, rfl, rfl⟩) fun _ =>
              Keeps.bind (onward_log E _) fun _ => Keeps.bind (onward_step E _) fun _ =>
              Keeps.bind (Keeps.read _) fun _ => Keeps.bind (onward_log E _) fun _ => Keeps.pure _
        | ok rep =>
            refine Keeps.ite ?_ (Keeps.bind (Keeps.when (onward_log E _)) fun _ =>
              pop _ fun _ => ⟨rfl, rfl, rfl, rfl⟩)
            exact Keeps.bind (onward_setHand E fun _ => ⟨rfl, rfl, rfl, rfl⟩) fun _ =>
              Keeps.bind (onward_log E _) fun _ => Keeps.bind (onward_step E _) fun _ => Keeps.pure _

end

/-! ## Closing -/

section
variable (E : Setting σ) {R : World σ → World σ → Prop} [Onward E R]

theorem onward_release : Keeps R True True (release E) := by
  refine Keeps.bind (Keeps.edit fun _ => Onward.within (E := E) rfl rfl rfl) fun _ => ?_
  refine Keeps.bind (Keeps.bind (onward_writeOk E _) fun _ => Keeps.edit fun _ => ?_) fun _ =>
    Keeps.edit fun _ => ?_
  · exact Onward.within (E := E) rfl rfl rfl
  · exact Onward.within (E := E) rfl rfl rfl

theorem onward_orLog (x : Except String Unit) : Keeps R True True (orLog E x) := by
  cases x with
  | error why => exact onward_log E _
  | ok u => exact Keeps.pure ()

/-- What is asked of the executor that reaches a host. -/
theorem onward_onHost {β : Type} {name : String} {f : Nat → Host → Eng σ β}
    (hf : ∀ i host, Keeps R True True (f i host)) : Keeps R True True (onHost E name f) := by
  refine Keeps.bind (Keeps.read _) fun hosts => ?_
  cases hostOf E hosts name with
  | none => exact Keeps.pure ()
  | some host =>
      dsimp only
      cases executorIndex E host with
      | none => exact Keeps.pure ()
      | some i => exact Keeps.bind (hf i host) fun _ => Keeps.pure ()

variable (hr : ∀ q, Asks E R q)
include hr

theorem onward_backstopDisarm (which : Disarm) : Keeps R True True (backstopDisarm E which) := by
  have hdis : ∀ r st host whole, Keeps R True True (disarmArtifact E r st host whole) := by
    intro r st host whole
    unfold disarmArtifact
    cases executorIndex E host with
    | none => exact Keeps.fail _
    | some i =>
        refine Keeps.bind (onward_ask E (hr _)) fun _ => Keeps.bind (onward_orElse _ _) fun _ =>
          Keeps.when ?_
        exact Keeps.bind (Keeps.failIf _ _) fun _ => Keeps.bind (onward_ask E (hr _)) fun _ =>
          Keeps.bind (onward_orElse _ _) fun _ => Keeps.bind (onward_ask E (hr _)) fun _ =>
          onward_orElse _ _
  refine Keeps.bind (Keeps.read _) fun r => ?_
  split
  · exact Keeps.pure _
  · refine Keeps.ite (Keeps.pure _) (Keeps.bind (Keeps.read _) fun hosts => ?_)
    split
    · exact Keeps.pure _
    · refine Keeps.bind (Keeps.attempt (hdis _ _ _ _)) fun x => ?_
      cases x with
      | error why => exact Keeps.pure _
      | ok u =>
          exact Keeps.bind (onward_setHand E fun _ => ⟨rfl, rfl, rfl, rfl⟩) fun _ =>
            Keeps.bind (onward_persist E) fun _ => Keeps.pure _

end

section
variable (E : Setting σ) {R : World σ → World σ → Prop} [Farther E R] (hr : ∀ q, Asks E R q)
include hr

theorem farther_removeDirs : Keeps R True True (removeDirs E) := by
  refine Keeps.bind (onward_backstopDisarm E hr _) fun x => Keeps.bind (onward_orLog E x) fun _ =>
    Keeps.bind (Keeps.read _) fun r => Keeps.bind (Keeps.loop r.dirs (fun name _ => ?_) ()) fun _ =>
    Keeps.bind (Keeps.edit fun _ => Farther.beyond (E := E) rfl rfl) fun _ => onward_persist E
  exact onward_onHost E fun i host => onward_ask E (hr (.dirRemove i host r.id))

theorem farther_closeReverted : Keeps R True True (closeReverted E) :=
  Keeps.bind (onward_step E _) fun _ => Keeps.bind (onward_log E _) fun _ =>
    Keeps.bind (Keeps.read _) fun _ => Keeps.bind (onward_setHand E fun _ => ⟨rfl, rfl, rfl, rfl⟩) fun _ =>
    Keeps.bind (onward_log E _) fun _ => Keeps.bind (onward_dropSecrets E _) fun _ =>
    Keeps.bind (onward_release E) fun _ => Keeps.bind (farther_removeDirs E hr) fun _ =>
    onward_persist E

theorem farther_refuseApplied (n : Nat) : Keeps R True True (refuseApplied E n) := by
  have hrevert : Keeps R True True (revert E) :=
    Keeps.bind (Keeps.read _) fun _ => Keeps.bind (onward_log E _) fun _ =>
      Keeps.bind (onward_setHand E fun _ => ⟨rfl, rfl, rfl, rfl⟩) fun _ =>
      Keeps.bind (onward_revertLoop E (fun _ _ _ _ => hr _) _) fun _ =>
      Keeps.when (farther_closeReverted E hr)
  refine Keeps.bind (onward_step E _) fun _ => Keeps.bind (Keeps.read _) fun r => Keeps.ite ?_ ?_
  · exact Keeps.bind (onward_setHand E fun _ => ⟨rfl, rfl, rfl, rfl⟩) fun _ =>
      Keeps.bind (onward_persist E) fun _ => Keeps.bind (onward_log E _) fun _ => Keeps.pure _
  · exact Keeps.bind hrevert fun _ => Keeps.pure _

end

end Rescind
