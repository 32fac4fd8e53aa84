/-
# `Rescind.Safety.Renewals` — when a renewal is atomic

A renewal moves three deadlines: the one the artifact reads on its target, the
one the record has of the backstop, and the instance's own.  It replaces the
file, has the scheduler rearm, writes the record, journals, and writes the
record again.  The outside keeps the files (`filing`); a replacement it refuses leaves the
file, as a write and a rename do.  The new deadline is a word of the machine; every
other sum of this verb is of none.

    what is refused before the file is replaced changes nothing,
    and what goes through changes all three
    a failure after that leaves a mixture, and a deadline that
    does not fit its word another than was asked for     (`renewal_atomic_iff`)
-/
import Rescind.Engine.Script
import Rescind.Engine.Words
import Rescind.Turn.Quiet

namespace Rescind

open Lib
open Lib.Prog (Keeps Post bind_ok bind_ok_inv)

/-! ## Files of the instance directories -/

/-- Files by host, instance and name. -/
abbrev Files := String → String → String → Option Bytes

/-- What becomes of the files when a query is answered: one that is refused
leaves them as they are. -/
def Files.after (f : Files) : (q : Query) → Option (Reply q) → Files
  | .putFile _ host inst rel bytes _, some (.ok _) | .replaceFile _ host inst rel bytes, some (.ok _) =>
      fun h i n => if h = host.name ∧ i = inst ∧ n = rel then some bytes else f h i n
  | .removeFile _ host inst rel, some (.ok _) =>
      fun h i n => if h = host.name ∧ i = inst ∧ n = rel then none else f h i n
  | .dirRemove _ host inst, some (.ok _) =>
      fun h i n => if h = host.name ∧ i = inst then none else f h i n
  | _, _ => f

/-- An outside that keeps the files of its hosts. -/
def filing {τ : Type} (O : Outside τ) : Outside (τ × Files) where
  answer k q :=
    let a := O.answer k.1 q
    (a.1, a.2, k.2.after q a.1)

/-- A query about no file of an instance directory. -/
def Query.aside : Query → Bool
  | .putFile .. | .replaceFile .. | .removeFile .. | .dirRemove .. => false
  | _ => true

section

variable {τ : Type} {O : Outside τ} {ov : Overflow} {E : Setting (τ × Files)}
variable {w w' : World (τ × Files)} {d : Instant} {r : InstanceRecord} {st : BackstopState}

/-- The record, the store, the inventory and the files are as they were. -/
structure Apart (w w' : World (τ × Files)) : Prop extends Still w w' where
  files : w'.out.2 = w.out.2

theorem Apart.refl (w : World (τ × Files)) : Apart w w := ⟨Still.refl w, rfl⟩

theorem Apart.trans {w'' : World (τ × Files)} (h : Apart w w') (h' : Apart w' w'') : Apart w w'' :=
  ⟨h.toStill.trans h'.toStill, h'.files.trans h.files⟩

instance : Std.Refl (Apart (τ := τ)) := ⟨Apart.refl⟩

instance : IsTrans (World (τ × Files)) Apart := ⟨fun _ _ _ => Apart.trans⟩

namespace Renewal

/-! ## What is asked of the outside -/

variable (E) in
/-- The entry is stamped, signed, kept and delivered to every sink. -/
inductive Journaled (r : InstanceRecord) (ev : J) : τ × Files → τ × Files → Prop where
  | intro {o o₁ o₂ o₃ o₄ : τ × Files} {t : Instant}
      (clock : E.outside.answer o .now = (some t, o₁))
      (signed : E.outside.answer o₁ (.sign ⟨t, r.plan.id, r.id, r.plan.owner, ev⟩) =
        (some (.ok ()), o₂))
      (kept : E.outside.answer o₂ (.write .journal) = (some (.ok ()), o₃))
      (delivered : E.outside.answer o₃ (.deliver ⟨t, r.plan.id, r.id, r.plan.owner, ev⟩) =
        (some [], o₄)) :
      Journaled r ev o o₄

variable (E) in
/-- The deadline file is replaced. -/
def Replaced (r : InstanceRecord) (i : Nat) (host : Host) (d : Instant) (o o' : τ × Files) : Prop :=
  E.outside.answer o (.replaceFile i host r.id "deadline" (epochText d)) = (some (.ok ()), o')

variable (E) in
/-- There is a scheduler of the name, it rearms, and the record is written. -/
def Rearmed (r : InstanceRecord) (st : BackstopState) (i : Nat) (host : Host) (d : Instant)
    (o o' : τ × Files) : Prop :=
  E.schedulers.contains st.scheduler = true ∧ ∃ o₁,
    E.outside.answer o (.schedRearm st.scheduler i host (jobOf host r.id st.artifact) d) =
      (some (.ok ()), o₁) ∧
    E.outside.answer o₁ (.write (.instance_ r.id)) = (some (.ok ()), o')

variable (E) in
/-- The renewal is journaled, and the record is written. -/
def Concluded (r : InstanceRecord) (o o' : τ × Files) : Prop :=
  ∃ o₁, Journaled E r .renewed o o₁ ∧
    E.outside.answer o₁ (.write (.instance_ r.id)) = (some (.ok ()), o')

theorem Concluded.congr {r' : InstanceRecord} {o o' : τ × Files} (hir : r'.ir = r.ir)
    (hid : r'.id = r.id) (h : Concluded E r' o o') : Concluded E r o o' := by
  obtain ⟨o₁, hj, hw⟩ := h
  rw [hid] at hw
  refine ⟨o₁, ?_, hw⟩
  obtain ⟨clock, signed, kept, delivered⟩ := hj
  rw [InstanceRecord.plan, hid, hir] at signed delivered
  exact .intro clock signed kept delivered

/-! ## Asking and journaling -/

theorem hand_ok {σ ε : Type} (w : World σ) :
    (hand : Prog (World σ) ε InstanceRecord) w = (.ok w.hand, w) := rfl

theorem ask_ok {ε : Type} {q : Query} {a : Reply q}
    (h : (ask E q : Prog (World (τ × Files)) ε (Reply q)) w = (.ok a, w')) :
    E.outside.answer w.out q = (some a, w'.out) ∧ w' = { w with out := w'.out } := by
  unfold ask at h
  split at h
  next r o ha =>
    cases h
    exact ⟨ha, rfl⟩
  next => cases h

theorem ask_of_answer {ε : Type} {q : Query} {a : Reply q} {o : τ × Files}
    (h : E.outside.answer w.out q = (some a, o)) :
    (ask E q : Prog (World (τ × Files)) ε (Reply q)) w = (.ok a, { w with out := o }) := by
  unfold ask
  rw [h]

theorem keepEntry_ok {e : Entry} (h : keepEntry E e w = (.ok (), w')) :
    ∃ o, E.outside.answer w.out (.sign e) = (some (.ok ()), o) ∧
      E.outside.answer o (.write .journal) = (some (.ok ()), w'.out) := by
  obtain ⟨signed, w₁, h₁, h⟩ := bind_ok_inv h
  cases signed with
  | error why => cases h
  | ok u =>
      obtain ⟨kept, w₂, h₂, h⟩ := bind_ok_inv h
      cases kept with
      | error why => cases h
      | ok u' =>
          cases h
          exact ⟨w₁.out, (ask_ok h₁).1, (ask_ok h₂).1⟩

theorem keepEntry_of_answer {e : Entry} {o o' : τ × Files}
    (hs : E.outside.answer w.out (.sign e) = (some (.ok ()), o))
    (hk : E.outside.answer o (.write .journal) = (some (.ok ()), o')) :
    ∃ w₁, keepEntry E e w = (.ok (), w₁) ∧ w₁.out = o' := by
  have hk : (ask E (.write .journal) : Eng _ _) { w with out := o } =
      (.ok (.ok ()), { w with out := o' }) := ask_of_answer hk
  exact ⟨_, (bind_ok (ask_of_answer hs)).trans (bind_ok hk), rfl⟩

/-- What was journaled was stamped, signed, kept and delivered. -/
theorem log_ok {ev : J} (h : log E ev w = (.ok (), w')) : Journaled E w.hand ev w.out w'.out := by
  obtain ⟨r, w₀, h₀, h⟩ := bind_ok_inv h
  cases h₀
  obtain ⟨t, w₁, h₁, h⟩ := bind_ok_inv h
  obtain ⟨_, w₂, h₂, h⟩ := bind_ok_inv h
  obtain ⟨o, signed, kept⟩ := keepEntry_ok h₂
  obtain ⟨refusals, w₃, h₃, h⟩ := bind_ok_inv h
  split at h
  next hn =>
    cases h
    rw [List.isEmpty_iff.mp hn] at h₃
    exact .intro (ask_ok h₁).1 signed kept (ask_ok h₃).1
  next =>
    obtain ⟨_, _, _, h⟩ := bind_ok_inv h
    obtain ⟨_, _, _, h⟩ := bind_ok_inv h
    cases h

/-- And what goes through is journaled. -/
theorem log_of_journaled {ev : J} {o : τ × Files} (h : Journaled E w.hand ev w.out o) :
    ∃ w₁, log E ev w = (.ok (), w₁) ∧ w₁.out = o := by
  cases h with
  | intro clock signed kept delivered =>
      obtain ⟨w₂, hk, ho⟩ := keepEntry_of_answer (w := { w with out := _ }) signed kept
      refine ⟨{ w₂ with out := o }, ?_, rfl⟩
      refine (bind_ok (ask_of_answer clock)).trans ((bind_ok hk).trans ?_)
      exact bind_ok (ask_of_answer (by rw [ho]; exact delivered))

/-- The store was asked and took the record, or it refused it. -/
theorem persist_cases {x : Res EngineError Unit} (h : persist E w = (x, w')) :
    (x = .ok () ∧ E.outside.answer w.out (.write (.instance_ w.hand.id)) = (some (.ok ()), w'.out) ∧
      w' = { w with out := w'.out, instances := w.instances.write w.hand }) ∨
    (∃ e, x = .err (.store e) ∧
      E.outside.answer w.out (.write (.instance_ w.hand.id)) = (some (.error e), w'.out) ∧
      w' = { w with out := w'.out }) ∨
    (x = .died ∧ E.outside.answer w.out (.write (.instance_ w.hand.id)) = (none, w'.out) ∧
      w'.instances = w.instances) := by
  unfold persist hand writeOk at h
  rw [Prog.bind_eq] at h
  simp only [Prog.read_apply] at h
  rw [Prog.bind_assoc] at h
  rcases ha : E.outside.answer w.out (.write (.instance_ w.hand.id)) with ⟨_ | a, o⟩
  · rw [ask_bind_none E ha] at h
    cases h
    exact .inr (.inr ⟨rfl, rfl, rfl⟩)
  · rw [ask_bind_some E ha] at h
    cases a with
    | error e =>
        cases h
        exact .inr (.inl ⟨e, rfl, rfl, rfl⟩)
    | ok u =>
        cases h
        exact .inl ⟨rfl, rfl, rfl⟩

variable (hE : E.outside = filing O)
include hE

theorem files_answer {q : Query} (hq : q.aside = true) (o : τ × Files) :
    (E.outside.answer o q).2.2 = o.2 := by
  rw [hE]
  cases q <;> first | rfl | cases hq

theorem files_of_answer {q : Query} {a : Option (Reply q)} {o o' : τ × Files} (hq : q.aside = true)
    (h : E.outside.answer o q = (a, o')) : o'.2 = o.2 := by
  have hf := files_answer hE hq o
  rwa [h] at hf

theorem apart_ask {ε : Type} {q : Query} (hq : q.aside = true) :
    Keeps Apart True True (ask E q : Prog (World (τ × Files)) ε (Reply q)) := by
  refine Keeps.ofState fun w => ?_
  have hfiles := files_answer hE hq w.out
  unfold ask
  split
  next o ha =>
    rw [ha] at hfiles
    exact ⟨still_ask w o w.up, hfiles⟩
  next o ha =>
    rw [ha] at hfiles
    exact ⟨still_ask w o false, hfiles⟩

theorem apart_keepEntry (e : Entry) : Keeps Apart True True (keepEntry E e) := by
  refine Keeps.bind (apart_ask hE rfl) fun signed => ?_
  cases signed with
  | error why => exact Keeps.fail _
  | ok u =>
      refine Keeps.bind (apart_ask hE rfl) fun kept => ?_
      cases kept with
      | error why => exact Keeps.fail _
      | ok u => exact Keeps.edit fun w => ⟨⟨rfl, rfl, rfl⟩, rfl⟩

theorem apart_log (ev : J) : Keeps Apart True True (log E ev) := by
  refine Keeps.bind (Keeps.read _) fun r => Keeps.bind (apart_ask hE rfl) fun t =>
    Keeps.bind (apart_keepEntry hE _) fun _ => Keeps.bind (apart_ask hE rfl) fun refusals => ?_
  refine Keeps.ite (Keeps.pure ()) ?_
  exact Keeps.bind (apart_keepEntry hE _) fun _ => Keeps.bind (apart_ask hE rfl) fun _ => Keeps.fail _

/-- The renewal is journaled and the record is written, or one of it is refused. -/
theorem conclude_cases {x : Res EngineError Unit}
    (h : (do log E .renewed; persist E : Eng _ Unit) w = (x, w')) :
    x = .died ∨ w'.hosts = w.hosts ∧ w'.out.2 = w.out.2 ∧
      ((x = .ok () ∧ Concluded E w.hand w.out w'.out ∧
          w'.instances = w.instances.write w.hand) ∨
        ((∃ e, x = .err e) ∧ (¬∃ o, Concluded E w.hand w.out o) ∧ w'.instances = w.instances)) := by
  rw [Prog.bind_eq] at h
  rcases hl : log E .renewed w with ⟨a | e | _, w₁⟩
  · rw [hl] at h
    have ha : Apart w w₁ := (apart_log hE _).ran hl
    have hj := log_ok hl
    have hhosts : w₁.hosts = w.hosts := congrArg Frame.hosts ha.frame
    rcases persist_cases h with ⟨rfl, hw, hw'⟩ | ⟨e, rfl, hw, hw'⟩ | ⟨rfl, -, -⟩
    · rw [ha.hand] at hw
      refine .inr ⟨?_, (files_of_answer hE rfl hw).trans ha.files, .inl ⟨rfl, ⟨_, hj, hw⟩, ?_⟩⟩
      · rw [hw']
        exact hhosts
      · rw [hw', ha.hand, ha.instances]
    · rw [ha.hand] at hw
      refine .inr ⟨?_, (files_of_answer hE rfl hw).trans ha.files, .inr ⟨⟨_, rfl⟩, ?_, ?_⟩⟩
      · rw [hw']
        exact hhosts
      · intro hc
        obtain ⟨o, o₁, hj', hw''⟩ := hc
        obtain ⟨w₂, hl', rfl⟩ := log_of_journaled hj'
        obtain rfl : w₁ = w₂ := (Prod.mk.inj (hl.symm.trans hl')).2
        cases hw.symm.trans hw''
      · rw [hw', ha.instances]
    · exact .inl rfl
  · rw [hl] at h
    cases h
    have ha : Apart w w' := (apart_log hE _).ran hl
    refine .inr ⟨congrArg Frame.hosts ha.frame, ha.files, .inr ⟨⟨e, rfl⟩, ?_, ha.instances⟩⟩
    intro hc
    obtain ⟨o, o₁, hj, -⟩ := hc
    obtain ⟨w₂, hl', -⟩ := log_of_journaled hj
    cases hl.symm.trans hl'
  · rw [hl] at h
    cases h
    exact .inl rfl

/-! ## The target -/

theorem files_replaced {i : Nat} {host : Host} {o o' : τ × Files} (h : Replaced E r i host d o o') :
    ∀ name, o'.2 name r.id "deadline" =
      if name = host.name then some (epochText d) else o.2 name r.id "deadline" := by
  intro name
  have ho : o'.2 = o.2.after (.replaceFile i host r.id "deadline" (epochText d)) (some (.ok ())) := by
    rw [Replaced, hE] at h
    obtain ⟨ha, rfl⟩ := Prod.mk.inj h
    rw [← ha]
  rw [ho]
  simp [Files.after]

theorem files_refused {i : Nat} {host : Host} {o o' : τ × Files} {e : String}
    (h : E.outside.answer o (.replaceFile i host r.id "deadline" (epochText d)) =
      (some (.error e), o')) : o'.2 = o.2 := by
  rw [hE] at h
  obtain ⟨ha, rfl⟩ := Prod.mk.inj h
  show o.2.after _ (O.answer o.1 _).1 = o.2
  rw [ha]
  rfl

/-- The file is replaced and the scheduler rearms; or the file stays; or it is
replaced, and there is no scheduler or it refuses. -/
theorem rearmArtifact_cases {i : Nat} {host : Host} {x : Res String Unit}
    (hi : executorIndex E host = some i) (h : rearmArtifact E r st host d w = (x, w')) :
    x = .died ∨ Still w w' ∧
      ((x = .ok () ∧ ∃ o, Replaced E r i host d w.out o ∧ w'.out.2 = o.2 ∧
          E.schedulers.contains st.scheduler = true ∧
          E.outside.answer o (.schedRearm st.scheduler i host (jobOf host r.id st.artifact) d) =
            (some (.ok ()), w'.out)) ∨
        ((∃ e, x = .err e) ∧ (¬∃ o, Replaced E r i host d w.out o) ∧ w'.out.2 = w.out.2) ∨
        ((∃ e, x = .err e) ∧ ∃ o, Replaced E r i host d w.out o ∧ w'.out.2 = o.2 ∧
          ¬∃ o', Rearmed E r st i host d o o')) := by
  unfold rearmArtifact at h
  simp only [hi] at h
  rcases hf : E.outside.answer w.out (.replaceFile i host r.id "deadline" (epochText d)) with ⟨_ | a, o⟩
  · rw [ask_bind_none E hf] at h
    cases h
    exact .inl rfl
  rw [ask_bind_some E hf] at h
  cases a with
  | error e =>
      cases h
      refine .inr ⟨⟨rfl, rfl, rfl⟩, .inr (.inl ⟨⟨_, rfl⟩, ?_, files_refused hE hf⟩)⟩
      intro hr
      obtain ⟨o', hr⟩ := hr
      cases hf.symm.trans hr
  | ok u =>
      cases hs : E.schedulers.contains st.scheduler with
      | false =>
          rw [hs] at h
          cases h
          refine .inr ⟨⟨rfl, rfl, rfl⟩, .inr (.inr ⟨⟨_, rfl⟩, o, hf, rfl, ?_⟩)⟩
          intro hr
          obtain ⟨o', hs', -⟩ := hr
          cases hs.symm.trans hs'
      | true =>
          rw [hs] at h
          rcases hr : E.outside.answer o (.schedRearm st.scheduler i host (jobOf host r.id st.artifact) d)
            with ⟨_ | a, o₂⟩
          · have h := (ask_bind_none E hr _).symm.trans h
            cases h
            exact .inl rfl
          · have hfiles : o₂.2 = o.2 := files_of_answer hE rfl hr
            have h := (ask_bind_some E hr _).symm.trans h
            cases a with
            | error e =>
                cases h
                refine .inr ⟨⟨rfl, rfl, rfl⟩, .inr (.inr ⟨⟨_, rfl⟩, o, hf, hfiles, ?_⟩)⟩
                intro hr'
                obtain ⟨o', -, o₃, hr', -⟩ := hr'
                cases hr.symm.trans hr'
            | ok u =>
                cases h
                exact .inr ⟨⟨rfl, rfl, rfl⟩, .inl ⟨rfl, o, hf, hfiles, rfl, hr⟩⟩

/-! ## Moving the deadline -/

omit hE

variable (E) in
/-- The record in hand has an armed artifact on a host that is reached. -/
structure Target (w : World (τ × Files)) (st : BackstopState) (i : Nat) (host : Host) : Prop where
  recorded : w.hand.backstop = some st
  armed : st.armed = true
  real : w.hand.rehearsal = false
  known : hostOf E w.hosts st.host = some host
  reached : executorIndex E host = some i

/-- The record with the backstop's deadline moved. -/
def moved (r : InstanceRecord) (d : Instant) : InstanceRecord :=
  { r with backstop := r.backstop.map fun b => { b with deadline := some d } }

/-- There is no armed artifact to move the deadline of. -/
def Bare (r : InstanceRecord) : Prop :=
  ∀ st, r.backstop = some st → r.rehearsal = false → st.armed = false

omit hE in
theorem Target.notBare {i : Nat} {host : Host} (h : Target E w st i host) : ¬Bare w.hand := by
  intro hb
  have hn := hb st h.recorded h.real
  rw [h.armed] at hn
  cases hn

variable (E) in
/-- How moving the deadline of the record in hand may end, with what was asked
until then. -/
inductive Ended (d : Instant) (w : World (τ × Files)) :
    Res EngineError Unit → World (τ × Files) → Prop where
  | died {w' : World (τ × Files)} : Ended d w .died w'
  | bare {w' : World (τ × Files)} {o₁ : τ × Files} (hb : Bare w.hand) (h : Concluded E w.hand w.out o₁)
      (hosts : w'.hosts = w.hosts) (files : w'.out.2 = w.out.2)
      (stored : w'.instances = w.instances.write { w.hand with deadline := some d }) :
      Ended d w (.ok ()) w'
  | kept {e : EngineError} {w' : World (τ × Files)} (hb : Bare w.hand)
      (h : ¬∃ o, Concluded E w.hand w.out o)
      (files : w'.out.2 = w.out.2) (stored : w'.instances = w.instances) : Ended d w (.err e) w'
  | refused {e : EngineError} {w' : World (τ × Files)} (hb : ¬Bare w.hand)
      (h : ∀ st i host, Target E w st i host → ¬∃ o, Replaced E w.hand i host d w.out o)
      (files : w'.out.2 = w.out.2) (stored : w'.instances = w.instances) : Ended d w (.err e) w'
  | done {w' : World (τ × Files)} {st : BackstopState} {i : Nat} {host : Host} {o₁ o₂ o₃ : τ × Files}
      (ht : Target E w st i host) (h₁ : Replaced E w.hand i host d w.out o₁)
      (h₂ : Rearmed E w.hand st i host d o₁ o₂) (h₃ : Concluded E w.hand o₂ o₃)
      (hosts : w'.hosts = w.hosts) (files : w'.out.2 = o₁.2)
      (stored : w'.instances = (w.instances.write (moved w.hand d)).write
        { moved w.hand d with deadline := some d }) :
      Ended d w (.ok ()) w'
  | unmoved {e : EngineError} {w' : World (τ × Files)} {st : BackstopState} {i : Nat} {host : Host}
      {o₁ : τ × Files} (ht : Target E w st i host) (h₁ : Replaced E w.hand i host d w.out o₁)
      (h₂ : ¬∃ o₂, Rearmed E w.hand st i host d o₁ o₂)
      (files : w'.out.2 = o₁.2) (stored : w'.instances = w.instances) : Ended d w (.err e) w'
  | torn {e : EngineError} {w' : World (τ × Files)} {st : BackstopState} {i : Nat} {host : Host}
      {o₁ o₂ : τ × Files} (ht : Target E w st i host) (h₁ : Replaced E w.hand i host d w.out o₁)
      (h₂ : Rearmed E w.hand st i host d o₁ o₂) (h₃ : ¬∃ o₃, Concluded E w.hand o₂ o₃)
      (files : w'.out.2 = o₁.2) (stored : w'.instances = w.instances.write (moved w.hand d)) :
      Ended d w (.err e) w'

include hE

/-- A refused renewal says so in the journal, and fails. -/
theorem refuse_cases {why : String} {x : Res EngineError Unit}
    (h : (do log E (.refused why); Prog.fail (.runtime why) : Eng _ Unit) w = (x, w')) :
    x = .died ∨ (∃ e, x = .err e) ∧ Apart w w' := by
  have ha : Apart w w' :=
    (Keeps.bind (apart_log hE _) fun _ => Keeps.fail (F := True) (EngineError.runtime why)).ran h
  rw [Prog.bind_eq] at h
  rcases hl : log E (.refused why) w with ⟨a | e | _, w₁⟩ <;> rw [hl] at h <;> cases h
  · exact .inr ⟨⟨_, rfl⟩, ha⟩
  · exact .inr ⟨⟨_, rfl⟩, ha⟩
  · exact .inl rfl

/-- Without an armed artifact the record is all there is to move. -/
theorem renewTo_bare {x : Res EngineError Unit} (hb : Bare w.hand)
    (h : renewTo E d w = (x, w')) : Ended E d w x w' := by
  have hr : backstopRearm E d w = (.ok (.ok ()), w) := by
    rw [backstopRearm, bind_ok (hand_ok w)]
    cases hst : w.hand.backstop with
    | none => rfl
    | some st =>
        have hc : (!st.armed || w.hand.rehearsal) = true := by
          cases hre : w.hand.rehearsal with
          | true => simp
          | false => simp [hb st hst hre]
        simp only [hc]
        rfl
  have h := (bind_ok hr).symm.trans h
  rcases conclude_cases hE (w := { w with hand := { w.hand with deadline := some d } }) h with
    rfl | ⟨hhosts, hfiles, ⟨rfl, hc, hstored⟩ | ⟨⟨e, rfl⟩, hc, hstored⟩⟩
  · exact .died
  · have hc : Concluded E { w.hand with deadline := some d } w.out w'.out := hc
    refine .bare hb (hc.congr ?_ ?_) hhosts hfiles hstored
    · rfl
    · rfl
  · refine .kept hb ?_ hfiles hstored
    intro hc'
    obtain ⟨o, hc'⟩ := hc'
    have hc' : Concluded E { w.hand with deadline := some d } w.out o := by
      refine hc'.congr ?_ ?_
      · rfl
      · rfl
    exact hc ⟨o, hc'⟩

omit hE in
theorem backstopRearm_unknown (hst : w.hand.backstop = some st) (hreal : w.hand.rehearsal = false)
    (harmed : st.armed = true) (hh : hostOf E w.hosts st.host = none) :
    backstopRearm E d w =
      (.ok (.error ("R0404: " ++ st.host ++ " is not a host of the site")), w) := by
  unfold backstopRearm hand hostsNow
  rw [Prog.bind_eq]
  simp only [Prog.read_apply, hst, hreal, harmed, Bool.not_true, Bool.or_self, Bool.false_eq_true,
    if_false]
  rw [Prog.bind_eq]
  simp only [Prog.read_apply, hh, Prog.pure_apply]

omit hE in
/-- What rearming an armed artifact runs. -/
theorem backstopRearm_armed (hst : w.hand.backstop = some st) (hreal : w.hand.rehearsal = false)
    (harmed : st.armed = true) {host : Host} (hh : hostOf E w.hosts st.host = some host) :
    backstopRearm E d w = ((rearmArtifact E w.hand st host d).attempt >>= fun a => match a with
      | .error why => (pure (.error why) : Eng (τ × Files) (Except String Unit))
      | .ok () => do
          setHand fun r => moved r d
          persist E
          pure (.ok ())) w := by
  unfold backstopRearm hand hostsNow
  rw [Prog.bind_eq]
  simp only [Prog.read_apply, hst, hreal, harmed, Bool.not_true, Bool.or_self, Bool.false_eq_true,
    if_false]
  rw [Prog.bind_eq]
  simp only [Prog.read_apply, hh]
  rfl

/-- With an armed artifact: the file, the scheduler, the record, the journal, the
record, in this order. -/
theorem renewTo_armed {i : Nat} {host : Host} {x : Res EngineError Unit}
    (ht : Target E w st i host) (h : renewTo E d w = (x, w')) : Ended E d w x w' := by
  have hr := backstopRearm_armed (d := d) ht.recorded ht.real ht.armed ht.known
  have only : ∀ st' i' host', Target E w st' i' host' → st' = st ∧ i' = i ∧ host' = host := by
    intro st' i' host' ht'
    obtain rfl := Option.some.inj (ht'.recorded.symm.trans ht.recorded)
    obtain rfl := Option.some.inj (ht'.known.symm.trans ht.known)
    exact ⟨rfl, Option.some.inj (ht'.reached.symm.trans ht.reached), rfl⟩
  rcases hx : rearmArtifact E w.hand st host d w with ⟨y, w₁⟩
  rcases rearmArtifact_cases hE ht.reached hx with
    rfl | ⟨hs, ⟨rfl, o₁, h₁, hfiles, hsched, hrearm⟩ | ⟨⟨e, rfl⟩, h₁, hfiles⟩ |
      ⟨⟨e, rfl⟩, o₁, h₁, hfiles, h₂⟩⟩
  · have hd : backstopRearm E d w = (.died, w₁) := by
      rw [hr, Prog.bind_eq]
      unfold Prog.attempt
      rw [hx]
    have hm : renewTo E d w = (.died, w₁) := by
      unfold renewTo
      rw [Prog.bind_eq, hd]
    cases hm.symm.trans h
    exact .died
  · rcases hp : persist E { w₁ with hand := moved w₁.hand d } with ⟨z, w₂⟩
    have hk : backstopRearm E d w = (persist E >>= fun _ => pure (.ok ()) : Eng (τ × Files) _)
        { w₁ with hand := moved w₁.hand d } :=
      hr.trans (bind_ok (Prog.attempt_ok hx))
    have hhand : w₁.hand = w.hand := hs.hand
    have hhosts : w₁.hosts = w.hosts := congrArg Frame.hosts hs.frame
    rcases persist_cases hp with ⟨rfl, hw, hw₂⟩ | ⟨e, rfl, hw, hw₂⟩ | ⟨rfl, -, -⟩
    · have hd : backstopRearm E d w = (.ok (.ok ()), w₂) := hk.trans (bind_ok hp)
      have h := (bind_ok hd).symm.trans h
      have h₂ : Rearmed E w.hand st i host d o₁ w₂.out := by
        refine ⟨hsched, w₁.out, hrearm, ?_⟩
        rw [← hhand]
        exact hw
      have hfiles₂ : w₂.out.2 = o₁.2 := (files_of_answer hE rfl hw).trans hfiles
      have hhand₂ : w₂.hand = moved w.hand d := by rw [hw₂, hhand]
      have hir₂ : w₂.hand.ir = w.hand.ir := by rw [hhand₂, moved]
      have hid₂ : w₂.hand.id = w.hand.id := by rw [hhand₂, moved]
      have hhosts₂ : w₂.hosts = w.hosts := by rw [hw₂, hhosts]
      have hstored₂ : w₂.instances = w.instances.write (moved w.hand d) := by
        rw [hw₂, hhand, hs.instances]
      rcases conclude_cases hE (w := { w₂ with hand := { w₂.hand with deadline := some d } }) h with
        rfl | ⟨hhosts₃, hfiles₃, ⟨rfl, h₃, hstored⟩ | ⟨⟨e, rfl⟩, h₃, hstored⟩⟩
      · exact .died
      · have h₃ : Concluded E { w₂.hand with deadline := some d } w₂.out w'.out := h₃
        refine .done ht h₁ h₂ (h₃.congr ?_ ?_) (hhosts₃.trans hhosts₂) (hfiles₃.trans hfiles₂) ?_
        · exact hir₂
        · exact hid₂
        rw [hstored, hhand₂, hstored₂]
      · refine .torn ht h₁ h₂ ?_ (hfiles₃.trans hfiles₂) (hstored.trans hstored₂)
        intro hc
        obtain ⟨o₃, hc⟩ := hc
        refine h₃ ⟨o₃, hc.congr ?_ ?_⟩
        · exact hir₂.symm
        · exact hid₂.symm
    · have hd : backstopRearm E d w = (.err (.store e), w₂) := by
        rw [hk, Prog.bind_eq, hp]
      have hm : renewTo E d w = (.err (.store e), w₂) := by
        unfold renewTo
        rw [Prog.bind_eq, hd]
      cases hm.symm.trans h
      refine .unmoved ht h₁ ?_ ((files_of_answer hE rfl hw).trans hfiles) ?_
      · intro hr'
        obtain ⟨o₂, -, o₃, hr', hw'⟩ := hr'
        obtain rfl := (Prod.mk.inj (hrearm.symm.trans hr')).2
        rw [← hhand] at hw'
        cases hw.symm.trans hw'
      · rw [hw₂]
        exact hs.instances
    · have hd : backstopRearm E d w = (.died, w₂) := by
        rw [hk, Prog.bind_eq, hp]
      have hm : renewTo E d w = (.died, w₂) := by
        unfold renewTo
        rw [Prog.bind_eq, hd]
      cases hm.symm.trans h
      exact .died
  · have h := (bind_ok (hr.trans (bind_ok (Prog.attempt_err hx)))).symm.trans h
    rcases refuse_cases hE h with rfl | ⟨⟨e, rfl⟩, ha⟩
    · exact .died
    · refine .refused ht.notBare ?_ (ha.files.trans hfiles) (ha.instances.trans hs.instances)
      intro st' i' host' ht'
      obtain ⟨rfl, rfl, rfl⟩ := only _ _ _ ht'
      exact h₁
  · have h := (bind_ok (hr.trans (bind_ok (Prog.attempt_err hx)))).symm.trans h
    rcases refuse_cases hE h with rfl | ⟨⟨e, rfl⟩, ha⟩
    · exact .died
    · exact .unmoved ht h₁ h₂ (ha.files.trans hfiles) (ha.instances.trans hs.instances)

theorem renewTo_cases {x : Res EngineError Unit} (h : renewTo E d w = (x, w')) :
    Ended E d w x w' := by
  by_cases hb : Bare w.hand
  · exact renewTo_bare hE hb h
  have hn := hb
  simp only [Bare, not_forall] at hn
  obtain ⟨st, hst, hreal, harmed⟩ := hn
  have harmed : st.armed = true := by simpa using harmed
  cases hh : hostOf E w.hosts st.host with
  | none =>
      have h := (bind_ok (backstopRearm_unknown hst hreal harmed hh)).symm.trans h
      rcases refuse_cases hE h with rfl | ⟨⟨e, rfl⟩, ha⟩
      · exact .died
      · refine .refused hb ?_ ha.files ha.instances
        intro st' i host ht
        obtain rfl := Option.some.inj (hst.symm.trans ht.recorded)
        cases hh.symm.trans ht.known
  | some host =>
      have hr := backstopRearm_armed (d := d) hst hreal harmed hh
      cases hi : executorIndex E host with
      | none =>
          have hf : rearmArtifact E w.hand st host d w =
              (.err ("R0404: no transport reaches " ++ host.name), w) := by
            simp only [rearmArtifact, hi]
            rfl
          have h := (bind_ok (hr.trans (bind_ok (Prog.attempt_err hf)))).symm.trans h
          rcases refuse_cases hE h with rfl | ⟨⟨e, rfl⟩, ha⟩
          · exact .died
          · refine .refused hb ?_ ha.files ha.instances
            intro st' i host' ht
            obtain rfl := Option.some.inj (hst.symm.trans ht.recorded)
            obtain rfl := Option.some.inj (hh.symm.trans ht.known)
            cases hi.symm.trans ht.reached
      | some i => exact renewTo_armed hE ⟨hst, harmed, hreal, hh, hi⟩ h

/-! ## The verb -/

variable (ov E) in
/-- The plan declares a window, and the clock is in it. -/
structure Opens (wane : Duration) (r : InstanceRecord) (now : Instant) (o o' : τ × Files)
    (deadline : Instant) (within : Duration) (d : Instant) : Prop where
  expires : r.deadline = some deadline
  renewable : r.plan.renewWithin = some within
  clock : E.outside.answer o .now = (some now, o')
  opens : Words.renewAt ov now deadline within wane = some (.ok d)

variable (ov E) in
/-- A renewal that is admitted: the record is read, its state allows it, and the
clock is in the window. -/
inductive Admitted (id : String) (wane : Duration) (w : World (τ × Files)) :
    InstanceRecord → Instant → Instant → τ × Files → Prop where
  | intro {r : InstanceRecord} {now deadline d : Instant} {within : Duration} {o₀ o : τ × Files}
      (read : E.outside.answer w.out (.read (.instance_ id)) = (some (.ok ()), o₀))
      (stored : w.instances.read id = some r)
      (stays : transition r.ctx r.state .renew = .stay)
      (opens : Opens ov E wane r now o₀ o deadline within d) :
      Admitted id wane w r now d o

/-- A record is read and taken up, or it is not. -/
theorem load_cases {id : String} {x : Res EngineError Unit} (h : load E id w = (x, w')) :
    x = .died ∨
    (∃ r, x = .ok () ∧ E.outside.answer w.out (.read (.instance_ id)) = (some (.ok ()), w'.out) ∧
      w.instances.read id = some r ∧ w' = { w with out := w'.out, hand := r }) ∨
    ((∃ e, x = .err e) ∧ w' = { w with out := w'.out } ∧ w'.out.2 = w.out.2 ∧
      ¬∃ o r, E.outside.answer w.out (.read (.instance_ id)) = (some (.ok ()), o) ∧
        w.instances.read id = some r) := by
  rcases ha : E.outside.answer w.out (.read (.instance_ id)) with ⟨_ | a, o⟩
  · unfold load readInstance readOk at h
    rw [Prog.bind_assoc, Prog.bind_assoc, ask_bind_none E ha] at h
    cases h
    exact .inl rfl
  have hfiles : o.2 = w.out.2 := files_of_answer hE rfl ha
  cases a with
  | error e =>
      unfold load readInstance readOk at h
      rw [Prog.bind_assoc, Prog.bind_assoc, ask_bind_some E ha] at h
      cases h
      refine .inr (.inr ⟨⟨_, rfl⟩, rfl, hfiles, ?_⟩)
      intro hr
      obtain ⟨o', r, hr, -⟩ := hr
      cases hr
  | ok u =>
      have hread : readInstance E id w = (.ok (w.instances.read id), { w with out := o }) := by
        unfold readInstance readOk
        rw [Prog.bind_assoc, ask_bind_some E ha]
        rfl
      rw [load, bind_ok hread] at h
      cases hs : w.instances.read id with
      | none =>
          rw [hs] at h
          cases h
          refine .inr (.inr ⟨⟨_, rfl⟩, rfl, hfiles, ?_⟩)
          intro hr
          obtain ⟨o', r, -, hr⟩ := hr
          cases hr
      | some r =>
          rw [hs] at h
          cases h
          exact .inr (.inl ⟨r, rfl, rfl, rfl, rfl⟩)

omit hE in
/-- The machine lets a renewal stay where it is, or refuses it. -/
theorem step_renew {x : Res EngineError Unit} (h : step E .renew w = (x, w')) :
    w' = w ∧ ((x = .ok () ∧ transition w.hand.ctx w.hand.state .renew = .stay) ∨
      ((∃ e, x = .err e) ∧ transition w.hand.ctx w.hand.state .renew ≠ .stay)) := by
  rw [step, bind_ok (hand_ok w)] at h
  rcases ht : transition w.hand.ctx w.hand.state .renew with s | _ | code | _
  · have he := edge_of_transition ht
    generalize w.hand.state = st at he
    cases he
  · rw [ht] at h
    cases h
    exact ⟨rfl, .inl ⟨rfl, rfl⟩⟩
  · rw [ht] at h
    cases h
    exact ⟨rfl, .inr ⟨⟨_, rfl⟩, by simp⟩⟩
  · rw [ht] at h
    cases h
    exact ⟨rfl, .inr ⟨⟨_, rfl⟩, by simp⟩⟩

/-- What renews the record in hand. -/
theorem opened_cases {wane : Duration} {x : Res EngineError Outcome}
    (h : (do
      let r ← hand
      match r.deadline, r.plan.renewWithin with
      | none, _ => .fail (.internal "a temporary plan with no deadline")
      | some _, none => .fail (.notAdmitted .r0102 "the plan declares no renew_within")
      | some deadline, some within => do
          let now ← ask E .now
          match Words.renewAt ov now deadline within wane with
          | none => .die
          | some (.error why) => .fail (renewRefused why)
          | some (.ok d) => do
              renewTo E d
              report : Eng (τ × Files) Outcome) w = (x, w')) :
    x = .died ∨
    (∃ now deadline within d o y, Opens ov E wane w.hand now w.out o deadline within d ∧
      Ended E d { w with out := o } y w' ∧
      ((y = .ok () ∧ ∃ a, x = .ok a) ∨ ∃ e, y = .err e ∧ x = .err e)) ∨
    ((∃ e, x = .err e) ∧
      (¬∃ now deadline within d o, Opens ov E wane w.hand now w.out o deadline within d) ∧
      w'.instances = w.instances ∧ w'.out.2 = w.out.2) := by
  have h : (match w.hand.deadline, w.hand.plan.renewWithin with
      | none, _ => (Prog.fail (.internal "a temporary plan with no deadline") : Eng (τ × Files) Outcome)
      | some _, none => .fail (.notAdmitted .r0102 "the plan declares no renew_within")
      | some deadline, some within => do
          let now ← ask E .now
          match Words.renewAt ov now deadline within wane with
          | none => .die
          | some (.error why) => .fail (renewRefused why)
          | some (.ok d) => do
              renewTo E d
              report) w = (x, w') := h
  have none_ : ∀ {v : World (τ × Files)}, v.instances = w.instances → v.out.2 = w.out.2 →
      (∀ now deadline within d o, ¬Opens ov E wane w.hand now w.out o deadline within d) →
      ((¬∃ now deadline within d o, Opens ov E wane w.hand now w.out o deadline within d) ∧
        v.instances = w.instances ∧ v.out.2 = w.out.2) := by
    intro v hi hf hn
    refine ⟨?_, hi, hf⟩
    intro ho
    obtain ⟨now, deadline, within, d, o, ho⟩ := ho
    exact hn now deadline within d o ho
  cases hd : w.hand.deadline with
  | none =>
      rw [hd] at h
      cases h
      refine .inr (.inr ⟨⟨_, rfl⟩, none_ rfl rfl ?_⟩)
      intro now deadline within d o ho
      cases hd.symm.trans ho.expires
  | some deadline =>
      cases hw : w.hand.plan.renewWithin with
      | none =>
          rw [hd, hw] at h
          cases h
          refine .inr (.inr ⟨⟨_, rfl⟩, none_ rfl rfl ?_⟩)
          intro now deadline within d o ho
          cases hw.symm.trans ho.renewable
      | some within =>
          rw [hd, hw] at h
          have h : (ask E .now >>= fun now => match Words.renewAt ov now deadline within wane with
              | none => (Prog.die : Eng (τ × Files) Outcome)
              | some (.error why) => .fail (renewRefused why)
              | some (.ok d) => do
                  renewTo E d
                  report) w = (x, w') := h
          rcases ha : E.outside.answer w.out .now with ⟨_ | now, o⟩
          · rw [ask_bind_none E ha] at h
            cases h
            exact .inl rfl
          rw [ask_bind_some E ha] at h
          rcases hopens : Words.renewAt ov now deadline within wane with _ | why | d
          · rw [hopens] at h
            cases h
            exact .inl rfl
          case some.error =>
              rw [hopens] at h
              cases h
              refine .inr (.inr ⟨⟨_, rfl⟩, none_ rfl (files_of_answer hE rfl ha) ?_⟩)
              intro now' deadline' within' d o' ho
              obtain rfl := Option.some.inj (hd.symm.trans ho.expires)
              obtain rfl := Option.some.inj (hw.symm.trans ho.renewable)
              obtain rfl := Option.some.inj (Prod.mk.inj (ha.symm.trans ho.clock)).1
              cases hopens.symm.trans ho.opens
          case some.ok =>
              rw [hopens] at h
              have ho : Opens ov E wane w.hand now w.out o deadline within d := ⟨hd, hw, ha, hopens⟩
              have h : (renewTo E d >>= fun _ => report) { w with out := o } = (x, w') := h
              rw [Prog.bind_eq] at h
              rcases hr : renewTo E d { w with out := o } with ⟨y, w₁⟩
              have he := renewTo_cases hE hr
              rw [hr] at h
              cases y with
              | ok u =>
                  cases h
                  exact .inr (.inl ⟨now, deadline, within, d, o, _, ho, he, .inl ⟨rfl, _, rfl⟩⟩)
              | err e =>
                  cases h
                  exact .inr (.inl ⟨now, deadline, within, d, o, _, ho, he, .inr ⟨e, rfl, rfl⟩⟩)
              | died =>
                  cases h
                  exact .inl rfl

/-- An admitted renewal moves the deadline; any other is refused and changes
nothing. -/
theorem renew_cases {id : String} {wane : Duration} {x : Res EngineError Outcome}
    (h : Words.renew ov E id wane w = (x, w')) :
    x = .died ∨
    (∃ r now d o y, Admitted ov E id wane w r now d o ∧ Ended E d { w with out := o, hand := r } y w' ∧
      ((y = .ok () ∧ ∃ a, x = .ok a) ∨ ∃ e, y = .err e ∧ x = .err e)) ∨
    ((∃ e, x = .err e) ∧ (¬∃ r now d o, Admitted ov E id wane w r now d o) ∧
      w'.instances = w.instances ∧ w'.out.2 = w.out.2) := by
  unfold Words.renew at h
  rw [Prog.bind_eq] at h
  rcases hl : load E id w with ⟨y, w₁⟩
  rw [hl] at h
  rcases load_cases hE hl with rfl | ⟨r, rfl, hread, hstored, hw₁⟩ | ⟨⟨e, rfl⟩, hw₁, hfiles, hn⟩
  · cases h
    exact .inl rfl
  · have hfiles : w₁.out.2 = w.out.2 := files_of_answer hE rfl hread
    -- an admission is of the record that was read
    have only : ∀ {r' now d o}, Admitted ov E id wane w r' now d o →
        transition r.ctx r.state .renew = .stay ∧ ∃ deadline within, Opens ov E wane r now w₁.out o deadline within d := by
      intro r' now d o ha
      cases ha with
      | intro read stored stays opens =>
          obtain rfl := Option.some.inj (hstored.symm.trans stored)
          obtain rfl := (Prod.mk.inj (hread.symm.trans read)).2
          exact ⟨stays, _, _, opens⟩
    dsimp only at h
    rw [Prog.bind_eq] at h
    rcases hst : step E .renew w₁ with ⟨y, w₂⟩
    have hhand : w₁.hand = r := by rw [hw₁]
    have hinst : w₁.instances = w.instances := by rw [hw₁]
    rw [hst] at h
    obtain ⟨rfl, ⟨rfl, hstay⟩ | ⟨⟨e, rfl⟩, hstay⟩⟩ := step_renew hst
    · rw [hhand] at hstay
      rcases opened_cases hE h with rfl | ⟨now, deadline, within, d, o, y, ho, he, hx⟩ |
        ⟨hx, hn, hi, hf⟩
      · exact .inl rfl
      · rw [hhand] at ho
        refine .inr (.inl ⟨r, now, d, o, y, .intro hread hstored hstay ho, ?_, hx⟩)
        rw [hw₁] at he
        exact he
      · refine .inr (.inr ⟨hx, ?_, hi.trans hinst, hf.trans hfiles⟩)
        intro ha
        obtain ⟨r', now, d, o, ha⟩ := ha
        obtain ⟨-, deadline, within, ho⟩ := only ha
        rw [hhand] at hn
        exact hn ⟨now, deadline, within, d, o, ho⟩
    · cases h
      rw [hhand] at hstay
      refine .inr (.inr ⟨⟨e, rfl⟩, ?_, hinst, hfiles⟩)
      intro ha
      obtain ⟨r', now, d, o, ha⟩ := ha
      exact hstay (only ha).1
  · cases h
    refine .inr (.inr ⟨⟨e, rfl⟩, ?_, by rw [hw₁], hfiles⟩)
    intro ha
    obtain ⟨r, now, d, o, ha⟩ := ha
    cases ha with
    | intro read stored => exact hn ⟨_, r, read, stored⟩

/-! ## Atomicity -/

omit hE

/-- What a record has: its deadline, and its backstop's. -/
def deadlines (r : InstanceRecord) : Option Instant × Option (Option Instant) :=
  (r.deadline, r.backstop.map BackstopState.deadline)

/-- The record's deadlines and the files the artifact reads are as they were. -/
structure Unchanged (id : String) (w w' : World (τ × Files)) : Prop where
  record : (w'.instances.read id).map deadlines = (w.instances.read id).map deadlines
  files : ∀ name, w'.out.2 name id "deadline" = w.out.2 name id "deadline"

/-- The stored record and, where it has an armed artifact, the backstop's deadline
and the file on its host are at `d`. -/
structure At (E : Setting (τ × Files)) (id : String) (d : Instant) (w : World (τ × Files))
    (r : InstanceRecord) : Prop where
  stored : w.instances.read id = some r
  deadline : r.deadline = some d
  backstop : ∀ st, r.backstop = some st → r.rehearsal = false → st.armed = true →
    st.deadline = some d ∧ ∃ host, hostOf E w.hosts st.host = some host ∧
      w.out.2 host.name id "deadline" = some (epochText d)

variable (E) in
/-- The clock was in the window, before the expiry, and every deadline is the
clock's reading and the wane. -/
def RenewedBy (id : String) (wane : Duration) (w w' : World (τ × Files)) : Prop :=
  ∃ r r' now deadline within o o',
    E.outside.answer w.out (.read (.instance_ id)) = (some (.ok ()), o) ∧
    w.instances.read id = some r ∧ E.outside.answer o .now = (some now, o') ∧
    r.deadline = some deadline ∧ r.plan.renewWithin = some within ∧
    deadline.unixS - within.seconds ≤ now.unixS ∧ now.unixS < deadline.unixS ∧
    At E id (now.plus wane) w' r'

variable (E) in
/-- It succeeded, in the window, and everything is moved; or it was refused, and
everything is as it was. -/
def Atomic (id : String) (wane : Duration) (w w' : World (τ × Files))
    (x : Res EngineError Outcome) : Prop :=
  (∀ a, x = .ok a → RenewedBy E id wane w w') ∧ ∀ e, x = .err e → Unchanged id w w'

variable (ov E) in
/-- The file is replaced and says another instant than before, and not everything
after it goes through; or the record is written with another deadline of the
backstop, and not everything after it goes through. -/
inductive Torn (id : String) (wane : Duration) (w : World (τ × Files)) : Prop where
  | file {r : InstanceRecord} {st : BackstopState} {i : Nat} {host : Host} {now d : Instant}
      {o o₁ : τ × Files} (ha : Admitted ov E id wane w r now d o)
      (ht : Target E { w with hand := r } st i host) (h₁ : Replaced E r i host d o o₁)
      (moves : w.out.2 host.name id "deadline" ≠ some (epochText d))
      (fails : ¬∃ o₂ o₃, Rearmed E r st i host d o₁ o₂ ∧ Concluded E r o₂ o₃) : Torn id wane w
  | record {r : InstanceRecord} {st : BackstopState} {i : Nat} {host : Host} {now d : Instant}
      {o o₁ o₂ : τ × Files} (ha : Admitted ov E id wane w r now d o)
      (ht : Target E { w with hand := r } st i host) (h₁ : Replaced E r i host d o o₁)
      (h₂ : Rearmed E r st i host d o₁ o₂) (moves : st.deadline ≠ some d)
      (fails : ¬∃ o₃, Concluded E r o₂ o₃) : Torn id wane w

variable (ov E) in
/-- The new deadline does not fit its word, and everything goes through. -/
inductive Wrapped (id : String) (wane : Duration) (w : World (τ × Files)) : Prop where
  | bare {r : InstanceRecord} {now d : Instant} {o o₁ : τ × Files}
      (ha : Admitted ov E id wane w r now d o) (hb : Bare r) (h : Concluded E r o o₁)
      (beyond : 2 ^ 64 ≤ now.unixS + wane.seconds) : Wrapped id wane w
  | armed {r : InstanceRecord} {st : BackstopState} {i : Nat} {host : Host} {now d : Instant}
      {o o₁ o₂ o₃ : τ × Files} (ha : Admitted ov E id wane w r now d o)
      (ht : Target E { w with hand := r } st i host) (h₁ : Replaced E r i host d o o₁)
      (h₂ : Rearmed E r st i host d o₁ o₂) (h₃ : Concluded E r o₂ o₃)
      (beyond : 2 ^ 64 ≤ now.unixS + wane.seconds) : Wrapped id wane w

theorem Admitted.unique {id : String} {wane : Duration} {r r' : InstanceRecord} {now now' d d' : Instant}
    {o o' : τ × Files} (h : Admitted ov E id wane w r now d o)
    (h' : Admitted ov E id wane w r' now' d' o') : r' = r ∧ now' = now ∧ d' = d ∧ o' = o := by
  cases h with
  | intro read stored _ opens =>
      cases h' with
      | intro read' stored' _ opens' =>
          obtain rfl := Option.some.inj (stored.symm.trans stored')
          obtain rfl := (Prod.mk.inj (read.symm.trans read')).2
          obtain ⟨hnow, rfl⟩ := Prod.mk.inj (opens.clock.symm.trans opens'.clock)
          obtain rfl := Option.some.inj hnow
          obtain rfl := Option.some.inj (opens.expires.symm.trans opens'.expires)
          obtain rfl := Option.some.inj (opens.renewable.symm.trans opens'.renewable)
          exact ⟨rfl, rfl, (Except.ok.inj (Option.some.inj (opens.opens.symm.trans opens'.opens))).symm, rfl⟩

theorem Target.unique {st st' : BackstopState} {i i' : Nat} {host host' : Host}
    (h : Target E w st i host) (h' : Target E w st' i' host') :
    st' = st ∧ i' = i ∧ host' = host := by
  obtain rfl := Option.some.inj (h.recorded.symm.trans h'.recorded)
  obtain rfl := Option.some.inj (h.known.symm.trans h'.known)
  exact ⟨rfl, (Option.some.inj (h.reached.symm.trans h'.reached)).symm, rfl⟩

theorem Rearmed.unique {i : Nat} {host : Host} {o o₁ o₂ : τ × Files}
    (h : Rearmed E r st i host d o o₁) (h' : Rearmed E r st i host d o o₂) : o₂ = o₁ := by
  obtain ⟨-, o₃, hr, hw⟩ := h
  obtain ⟨-, o₄, hr', hw'⟩ := h'
  obtain rfl := (Prod.mk.inj (hr.symm.trans hr')).2
  exact (Prod.mk.inj (hw.symm.trans hw')).2.symm

theorem renewAt_ok {now deadline : Instant} {within wane : Duration}
    (h : Words.renewAt ov now deadline within wane = some (.ok d)) :
    Words.plus ov now wane = some d ∧ deadline.unixS - within.seconds ≤ now.unixS ∧
      now.unixS < deadline.unixS := by
  by_cases he : expired now deadline = true
  · rw [Words.renewAt, if_pos he] at h
    cases h
  · rw [Words.renewAt, if_neg he] at h
    by_cases ho : now.unixS < deadline.unixS - within.seconds
    · rw [if_pos ho] at h
      cases h
    · rw [if_neg ho] at h
      rw [expired, decide_eq_true_iff] at he
      obtain ⟨i, hi, hd⟩ := Option.map_eq_some_iff.mp h
      cases hd
      exact ⟨hi, Nat.not_lt.mp ho, Nat.not_le.mp he⟩

/-- The machine's sum is the exact one just where it fits. -/
theorem plus_eq_iff {now : Instant} {wane : Duration} (h : Words.plus ov now wane = some d) :
    d = now.plus wane ↔ now.unixS + wane.seconds < 2 ^ 64 := by
  obtain ⟨n, hn, rfl⟩ := Option.map_eq_some_iff.mp h
  rw [← Overflow.word_eq_self (o := ov), hn, Option.some_inj, Instant.plus, Instant.mk.injEq]

theorem Admitted.renewedBy {id : String} {wane : Duration} {now : Instant} {r' : InstanceRecord}
    {o : τ × Files} (ha : Admitted ov E id wane w r now d o)
    (hn : now.unixS + wane.seconds < 2 ^ 64) (h : At E id d w' r') : RenewedBy E id wane w w' := by
  cases ha with
  | intro read stored _ opens =>
      obtain ⟨hd, hfrom, hto⟩ := renewAt_ok opens.opens
      rw [(plus_eq_iff hd).mpr hn] at h
      exact ⟨r, r', _, _, _, _, _, read, stored, opens.clock, opens.expires, opens.renewable,
        hfrom, hto, h⟩

/-- What is renewed by the wane has a deadline that fits. -/
theorem Admitted.fits {id : String} {wane : Duration} {now : Instant} {r' : InstanceRecord}
    {o : τ × Files} (ha : Admitted ov E id wane w r now d o) (h : At E id d w' r')
    (hr : RenewedBy E id wane w w') : now.unixS + wane.seconds < 2 ^ 64 := by
  cases ha with
  | intro read stored _ opens =>
      obtain ⟨r₁, r₂, now', _, _, o₁, o₂, read', -, clock', -, -, -, -, h'⟩ := hr
      obtain rfl := (Prod.mk.inj (read.symm.trans read')).2
      obtain rfl := Option.some.inj (Prod.mk.inj (opens.clock.symm.trans clock')).1
      obtain rfl := Option.some.inj (h.stored.symm.trans h'.stored)
      exact (plus_eq_iff (renewAt_ok opens.opens).1).mp
        (Option.some.inj (h.deadline.symm.trans h'.deadline))

theorem Admitted.stored {id : String} {wane : Duration} {now : Instant} {o : τ × Files}
    (ha : Admitted ov E id wane w r now d o) : w.instances.read id = some r := by
  cases ha with
  | intro _ stored => exact stored

theorem Admitted.files (hE : E.outside = filing O) {id : String} {wane : Duration} {now : Instant}
    {o : τ × Files}
    (ha : Admitted ov E id wane w r now d o) : o.2 = w.out.2 := by
  cases ha with
  | intro read _ _ opens =>
      exact (files_of_answer hE rfl opens.clock).trans (files_of_answer hE rfl read)

/-- Where nothing is replaced nothing is torn. -/
theorem not_torn {id : String} {wane : Duration} {r : InstanceRecord} {now : Instant} {o : τ × Files}
    (ha : Admitted ov E id wane w r now d o)
    (h : ∀ st i host, Target E { w with hand := r } st i host → ¬∃ o₁, Replaced E r i host d o o₁) :
    ¬Torn ov E id wane w := by
  intro ht
  cases ht with
  | file ha' ht h₁ =>
      obtain ⟨rfl, rfl, rfl, rfl⟩ := ha.unique ha'
      exact h _ _ _ ht ⟨_, h₁⟩
  | record ha' ht h₁ =>
      obtain ⟨rfl, rfl, rfl, rfl⟩ := ha.unique ha'
      exact h _ _ _ ht ⟨_, h₁⟩

/-- A renewal with a target is torn as its file and its record are. -/
theorem torn_iff {id : String} {wane : Duration} {i : Nat} {host : Host} {now : Instant}
    {o o₁ : τ × Files}
    (ha : Admitted ov E id wane w r now d o) (ht : Target E { w with hand := r } st i host)
    (h₁ : Replaced E r i host d o o₁) :
    Torn ov E id wane w ↔
      (w.out.2 host.name id "deadline" ≠ some (epochText d) ∧
        ¬∃ o₂ o₃, Rearmed E r st i host d o₁ o₂ ∧ Concluded E r o₂ o₃) ∨
      (st.deadline ≠ some d ∧
        ∃ o₂, Rearmed E r st i host d o₁ o₂ ∧ ¬∃ o₃, Concluded E r o₂ o₃) := by
  constructor
  · intro htorn
    cases htorn with
    | file ha' ht' h₁' moves fails =>
        obtain ⟨rfl, rfl, rfl, rfl⟩ := ha.unique ha'
        obtain ⟨rfl, rfl, rfl⟩ := ht.unique ht'
        obtain rfl := (Prod.mk.inj (h₁.symm.trans h₁')).2
        exact .inl ⟨moves, fails⟩
    | record ha' ht' h₁' h₂ moves fails =>
        obtain ⟨rfl, rfl, rfl, rfl⟩ := ha.unique ha'
        obtain ⟨rfl, rfl, rfl⟩ := ht.unique ht'
        obtain rfl := (Prod.mk.inj (h₁.symm.trans h₁')).2
        exact .inr ⟨moves, _, h₂, fails⟩
  · intro h
    rcases h with ⟨moves, fails⟩ | ⟨moves, o₂, h₂, fails⟩
    · exact .file ha ht h₁ moves fails
    · exact .record ha ht h₁ h₂ moves fails

/-! ### Ends -/

variable {id : String} {wane : Duration} {o : τ × Files} {x : Res EngineError Outcome}

theorem atomic_ok {a : Outcome} (h : RenewedBy E id wane w w') : Atomic E id wane w w' (.ok a) :=
  ⟨fun _ _ => h, fun _ he => by cases he⟩

theorem atomic_err_iff {e : EngineError} :
    Atomic E id wane w w' (.err e) ↔ Unchanged id w w' := by
  constructor
  · intro h
    exact h.2 e rfl
  · intro h
    refine ⟨fun _ ha => ?_, fun _ _ => h⟩
    cases ha

theorem unchanged_of_same (hi : w'.instances = w.instances) (hf : w'.out.2 = w.out.2) :
    Unchanged id w w' :=
  ⟨by rw [hi], fun name => by rw [hf]⟩

/-- A replaced file is as it was where it said the same. -/
theorem files_same_iff (hE : E.outside = filing O) {i : Nat} {host : Host} {o₁ : τ × Files}
    (h₁ : Replaced E r i host d o o₁) :
    (∀ name, o₁.2 name r.id "deadline" = o.2 name r.id "deadline") ↔
      o.2 host.name r.id "deadline" = some (epochText d) := by
  constructor
  · intro h
    rw [← h host.name, files_replaced hE h₁ host.name, if_pos rfl]
  · intro h name
    rw [files_replaced hE h₁ name]
    split
    next hn => rw [hn, h]
    next => rfl

/-- What is moved, is everywhere. -/
theorem at_done (hE : E.outside = filing O) {i : Nat} {host : Host} {o₁ : τ × Files}
    (hid : r.id = id) (ht : Target E { w with hand := r } st i host)
    (h₁ : Replaced E r i host d o o₁) (hosts : w'.hosts = w.hosts) (files : w'.out.2 = o₁.2)
    (stored : w'.instances =
      (w.instances.write (moved r d)).write { moved r d with deadline := some d }) :
    At E id d w' { moved r d with deadline := some d } where
  stored := by
    rw [stored, ← hid]
    exact Store.read_write_self _ { moved r d with deadline := some d }
  deadline := rfl
  backstop st' hst _ _ := by
    obtain ⟨b, hb, rfl⟩ := Option.map_eq_some_iff.mp hst
    obtain rfl := Option.some.inj (ht.recorded.symm.trans hb)
    refine ⟨rfl, host, ?_, ?_⟩
    · rw [hosts]
      exact ht.known
    · rw [files, ← hid, files_replaced hE h₁ host.name, if_pos rfl]

theorem at_bare (hid : r.id = id) (hb : Bare r)
    (stored : w'.instances = w.instances.write { r with deadline := some d }) :
    At E id d w' { r with deadline := some d } where
  stored := by
    rw [stored, ← hid]
    exact Store.read_write_self _ { r with deadline := some d }
  deadline := rfl
  backstop st hst hreal harmed := by
    rw [hb st hst hreal] at harmed
    cases harmed

/-- A renewal that fails has not gone through. -/
theorem not_wrapped {now : Instant} (ha : Admitted ov E id wane w r now d o)
    (hb : Bare r → ¬∃ o₁, Concluded E r o o₁)
    (ht : ∀ st i host o₁ o₂ o₃, Target E { w with hand := r } st i host → Replaced E r i host d o o₁ →
      Rearmed E r st i host d o₁ o₂ → ¬Concluded E r o₂ o₃) : ¬Wrapped ov E id wane w := by
  intro hw
  cases hw with
  | bare ha' hb' h =>
      obtain ⟨rfl, rfl, rfl, rfl⟩ := ha.unique ha'
      exact hb hb' ⟨_, h⟩
  | armed ha' ht' h₁ h₂ h₃ =>
      obtain ⟨rfl, rfl, rfl, rfl⟩ := ha.unique ha'
      exact ht _ _ _ _ _ _ ht' h₁ h₂ h₃

/-- One that goes through is renewed by the wane just where the deadline fits. -/
theorem through_iff {now : Instant} {r' : InstanceRecord} {a : Outcome}
    (ha : Admitted ov E id wane w r now d o) (h : At E id d w' r') (ht : ¬Torn ov E id wane w)
    (hw : 2 ^ 64 ≤ now.unixS + wane.seconds → Wrapped ov E id wane w) :
    Atomic E id wane w w' (.ok a) ↔ ¬Torn ov E id wane w ∧ ¬Wrapped ov E id wane w := by
  constructor
  · intro hat
    have hn := ha.fits h (hat.1 a rfl)
    refine ⟨ht, fun hwr => ?_⟩
    cases hwr with
    | bare ha' _ _ beyond | armed ha' _ _ _ _ beyond =>
        obtain ⟨rfl, rfl, rfl, rfl⟩ := ha.unique ha'
        exact absurd hn (Nat.not_lt.mpr beyond)
  · rintro ⟨-, hn⟩
    exact atomic_ok (ha.renewedBy (Nat.not_le.mp fun beyond => hn (hw beyond)) h)

/-- An end of an admitted renewal is atomic exactly when it is neither torn nor
wrapped. -/
theorem ended_iff (hE : E.outside = filing O) {now : Instant} {y : Res EngineError Unit}
    (ha : Admitted ov E id wane w r now d o) (he : Ended E d { w with out := o, hand := r } y w')
    (hx : (y = .ok () ∧ ∃ a, x = .ok a) ∨ ∃ e, y = .err e ∧ x = .err e) :
    Atomic E id wane w w' x ↔ ¬Torn ov E id wane w ∧ ¬Wrapped ov E id wane w := by
  have hid : r.id = id := Store.id_of_read ha.stored
  have hfiles := ha.files hE
  cases he with
  | died => rcases hx with ⟨h, -⟩ | ⟨e, h, -⟩ <;> cases h
  | bare hb hc hosts files stored =>
      rcases hx with ⟨-, a, rfl⟩ | ⟨e, h, -⟩
      · exact through_iff ha (at_bare hid hb stored) (not_torn ha fun _ _ _ ht => absurd hb ht.notBare)
          fun beyond => .bare ha hb hc beyond
      · cases h
  | kept hb hc files stored =>
      rcases hx with ⟨h, -⟩ | ⟨e, -, rfl⟩
      · cases h
      · refine iff_of_true (atomic_err_iff.mpr (unchanged_of_same stored (files.trans hfiles)))
          ⟨not_torn ha fun _ _ _ ht => absurd hb ht.notBare, ?_⟩
        exact not_wrapped ha (fun _ => hc) fun _ _ _ _ _ _ ht => absurd hb ht.notBare
  | refused hb h files stored =>
      rcases hx with ⟨h, -⟩ | ⟨e, -, rfl⟩
      · cases h
      · have hn : ∀ st i host, Target E { w with hand := r } st i host →
            ¬∃ o₁, Replaced E r i host d o o₁ := fun st i host ht =>
          h st i host ⟨ht.recorded, ht.armed, ht.real, ht.known, ht.reached⟩
        refine iff_of_true (atomic_err_iff.mpr (unchanged_of_same stored (files.trans hfiles)))
          ⟨not_torn ha hn, ?_⟩
        exact not_wrapped ha (fun hb' => absurd hb' hb) fun _ _ _ _ _ _ ht h₁ =>
          absurd ⟨_, h₁⟩ (hn _ _ _ ht)
  | @done _ st i host o₁ o₂ o₃ ht h₁ h₂ h₃ hosts files stored =>
      have ht : Target E { w with hand := r } st i host :=
        ⟨ht.recorded, ht.armed, ht.real, ht.known, ht.reached⟩
      rcases hx with ⟨-, a, rfl⟩ | ⟨e, h, -⟩
      · refine through_iff ha (at_done hE hid ht h₁ hosts files stored) ?_
          fun beyond => .armed ha ht h₁ h₂ h₃ beyond
        rw [torn_iff ha ht h₁]
        rintro (⟨-, hn⟩ | ⟨-, o', h₂', hn⟩)
        · exact hn ⟨o₂, o₃, h₂, h₃⟩
        · obtain rfl := h₂.unique h₂'
          exact hn ⟨o₃, h₃⟩
      · cases h
  | @unmoved e _ st i host o₁ ht h₁ h₂ files stored =>
      have ht : Target E { w with hand := r } st i host :=
        ⟨ht.recorded, ht.armed, ht.real, ht.known, ht.reached⟩
      rcases hx with ⟨h, -⟩ | ⟨e, -, rfl⟩
      · cases h
      · have hsame := files_same_iff hE h₁
        rw [hid, hfiles] at hsame
        have hw : ¬Wrapped ov E id wane w := by
          refine not_wrapped ha (fun hb => absurd hb ht.notBare) fun _ _ _ _ _ _ ht' h₁' h₂' _ => ?_
          obtain ⟨rfl, rfl, rfl⟩ := ht.unique ht'
          obtain rfl := (Prod.mk.inj (h₁.symm.trans h₁')).2
          exact h₂ ⟨_, h₂'⟩
        rw [atomic_err_iff, and_iff_left hw, torn_iff ha ht h₁]
        constructor
        · intro hu
          have hf := hsame.mp fun name => by rw [← hu.files name, files]
          rintro (⟨moves, -⟩ | ⟨-, o', h₂', -⟩)
          · exact moves hf
          · exact h₂ ⟨o', h₂'⟩
        · intro hn
          have hf : w.out.2 host.name id "deadline" = some (epochText d) := by
            by_contra moves
            refine hn (.inl ⟨moves, ?_⟩)
            intro h
            obtain ⟨o₂, -, h, -⟩ := h
            exact h₂ ⟨o₂, h⟩
          refine ⟨by rw [stored], fun name => ?_⟩
          rw [files]
          exact hsame.mpr hf name
  | @torn e _ st i host o₁ o₂ ht h₁ h₂ h₃ files stored =>
      have ht : Target E { w with hand := r } st i host :=
        ⟨ht.recorded, ht.armed, ht.real, ht.known, ht.reached⟩
      rcases hx with ⟨h, -⟩ | ⟨e, -, rfl⟩
      · cases h
      · have hsame := files_same_iff hE h₁
        rw [hid, hfiles] at hsame
        have hread : w'.instances.read id = some (moved r d) := by
          rw [stored, ← hid]
          exact Store.read_write_self _ (moved r d)
        have hrec : (w'.instances.read id).map deadlines = (w.instances.read id).map deadlines ↔
            st.deadline = some d := by
          rw [hread, ha.stored, Option.map_some, Option.map_some, Option.some.injEq, deadlines,
            deadlines, moved, ht.recorded]
          simp [eq_comm]
        have hw : ¬Wrapped ov E id wane w := by
          refine not_wrapped ha (fun hb => absurd hb ht.notBare) fun _ _ _ _ _ _ ht' h₁' h₂' hc => ?_
          obtain ⟨rfl, rfl, rfl⟩ := ht.unique ht'
          obtain rfl := (Prod.mk.inj (h₁.symm.trans h₁')).2
          obtain rfl := h₂.unique h₂'
          exact h₃ ⟨_, hc⟩
        rw [atomic_err_iff, and_iff_left hw, torn_iff ha ht h₁]
        constructor
        · intro hu
          have hf := hsame.mp fun name => by rw [← hu.files name, files]
          rintro (⟨moves, -⟩ | ⟨moves, -⟩)
          · exact moves hf
          · exact moves (hrec.mp hu.record)
        · intro hn
          have hf : w.out.2 host.name id "deadline" = some (epochText d) := by
            by_contra moves
            refine hn (.inl ⟨moves, ?_⟩)
            intro h
            obtain ⟨o₂', o₃, h₂', h⟩ := h
            obtain rfl := h₂.unique h₂'
            exact h₃ ⟨o₃, h⟩
          have hd : st.deadline = some d := by
            by_contra moves
            exact hn (.inr ⟨moves, o₂, h₂, h₃⟩)
          refine ⟨hrec.mpr hd, fun name => ?_⟩
          rw [files]
          exact hsame.mpr hf name

/-- **A renewal is atomic exactly when it is neither torn nor wrapped**: it succeeds
in the window and moves the record's deadline, the backstop's and the file to the
clock's reading and the wane, or it is refused and leaves them, unless the file or
the backstop's deadline is moved and what follows is refused, or everything goes
through and the deadline did not fit its word. -/
theorem renewal_atomic_iff (hE : E.outside = filing O) (h : Words.renew ov E id wane w = (x, w'))
    (hx : x ≠ .died) :
    Atomic E id wane w w' x ↔ ¬Torn ov E id wane w ∧ ¬Wrapped ov E id wane w := by
  rcases renew_cases hE h with rfl | ⟨r, now, d, o, y, ha, he, hend⟩ | ⟨⟨e, rfl⟩, hn, hi, hf⟩
  · exact absurd rfl hx
  · exact ended_iff hE ha he hend
  · refine iff_of_true (atomic_err_iff.mpr (unchanged_of_same hi hf)) ⟨fun ht => ?_, fun hw => ?_⟩
    · cases ht with
      | file ha | record ha => exact hn ⟨_, _, _, _, ha⟩
    · cases hw with
      | bare ha | armed ha => exact hn ⟨_, _, _, _, ha⟩

end Renewal

end

namespace LateRefusal

/-- A sink that may refuse the entry of a renewal. -/
def script (full : Bool) : Script where
  refuses e := match e.event with
    | .renewed => full
    | _ => false

def site (full : Bool) : Setting (Nat × Files) :=
  { (script full).setting with outside := filing (script full).outside }

def web : Host := smallHost "web"

def backstop : BackstopState where
  host := "web"
  artifact := "backstop.sh"
  scheduler := "cron"
  installed := true
  armed := true
  deadline := some ⟨100⟩
  heartbeatS := none
  intervalS := none
  lastHeartbeat := none
  confirmed := false
  fired := false

/-- An instance with its artifact armed, in the window of its renewal. -/
def record : InstanceRecord :=
  let ir := smallPlan "p" "web" [ownFile "/etc/motd"]
  { noRecord with
    id := "p.web.00000000"
    ir := { ir with plan := { ir.plan with wane := some ⟨100⟩, renewWithin := some ⟨200⟩ } }
    state := .applied
    deadline := some ⟨100⟩
    backstop := some backstop }

def files : Files := fun host inst name =>
  if host = "web" ∧ inst = "p.web.00000000" ∧ name = "deadline" then some (epochText ⟨100⟩) else none

def applied : World (Nat × Files) :=
  { out := (0, files), hosts := [("web", web)], instances := Store.empty.write record,
    hand := noRecord }

def renewed (full : Bool) : Res EngineError Outcome × World (Nat × Files) :=
  Words.renew .wraps (site full) "p.web.00000000" ⟨1000⟩ applied

/-- The record's deadline, its backstop's, and the file. -/
def seen (w : World (Nat × Files)) : Option (Option Instant × Option (Option Instant)) × Option Bytes :=
  ((w.instances.read "p.web.00000000").map Renewal.deadlines,
    w.out.2 "web" "p.web.00000000" "deadline")

theorem file_of_unchanged {w w' : World (Nat × Files)} (h : Renewal.Unchanged "p.web.00000000" w w') :
    (seen w').2 = (seen w).2 :=
  h.files "web"

/-- The journal refuses: the renewal is refused, and the artifact and the record of
it are at the new deadline all the same. -/
theorem refused_moved :
    (∃ e, (renewed true).1 = .err e) ∧
      seen applied = (some (some ⟨100⟩, some (some ⟨100⟩)), some (epochText ⟨100⟩)) ∧
      seen (renewed true).2 = (some (some ⟨100⟩, some (some ⟨1000⟩)), some (epochText ⟨1000⟩)) ∧
      ¬ ∀ (E : Setting (Nat × Files)) (O : Outside Nat) (id : String) (wane : Duration)
        (w w' : World (Nat × Files)) (x : Res EngineError Outcome), E.outside = filing O →
        Words.renew .wraps E id wane w = (x, w') → x ≠ .died → Renewal.Atomic E id wane w w' x := by
  have hseen : seen (renewed true).2 =
      (some (some ⟨100⟩, some (some ⟨1000⟩)), some (epochText ⟨1000⟩)) := by decide +kernel
  have hrefused : ∃ e, (renewed true).1 = .err e := by
    refine ⟨.journal (.sinkRefused [("sink", "full")]), ?_⟩
    decide +kernel
  have hbefore : seen applied = (some (some ⟨100⟩, some (some ⟨100⟩)), some (epochText ⟨100⟩)) := by
    decide +kernel
  refine ⟨hrefused, hbefore, hseen, ?_⟩
  intro h
  obtain ⟨e, he⟩ := hrefused
  have hx : (renewed true).1 ≠ .died := by
    rw [he]
    simp
  have hu := (h (site true) (script true).outside "p.web.00000000" ⟨1000⟩ applied (renewed true).2
    (renewed true).1 rfl rfl hx).2 e he
  have hf := file_of_unchanged hu
  rw [hseen, hbefore] at hf
  exact absurd hf (by decide +kernel)

/-- Where the sink takes the entry the renewal is atomic. -/
theorem accepted_atomic :
    Renewal.Atomic (site false) "p.web.00000000" ⟨1000⟩ applied (renewed false).2 (renewed false).1 ↔
      ¬Renewal.Torn .wraps (site false) "p.web.00000000" ⟨1000⟩ applied ∧
        ¬Renewal.Wrapped .wraps (site false) "p.web.00000000" ⟨1000⟩ applied :=
  Renewal.renewal_atomic_iff (O := (script false).outside) rfl rfl (by decide +kernel)

end LateRefusal

end Rescind
