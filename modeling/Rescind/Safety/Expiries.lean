/-
# `Rescind.Safety.Expiries` — the engine's verbs and an expiry

What a verb of the engine does to the deadline of an instance, to its record of the
artifact and to the file the artifact reads, is one shift of its expiry or none,
whatever the verb returns, and where the process dies in it: half an arming and half a
renewal are shifts of their own.  The outside keeps the files (`filing`) and reads its
clock in a word.  A course is an approval and any verbs after it, with anything between
them that moves none of the three; of what comes after a firing nothing is said.

    an approval begins a life                             (`post_approve`)
    an arming, a disarming and a renewal are shifts of it (`verb_shifts`)
    a course shows a life                                 (`life_of_course`)
    what the artifact enforces is the plan's exactly
      where every shift is timely                         (`artifact_deadline_iff`)
-/
import Rescind.Safety.Lifetimes
import Rescind.Safety.Renewals
import Rescind.Turn.Onward

namespace Rescind

open Lib
open Lib.Prog (Keeps Post bind_ok_inv)

/-! ## What shows an expiry -/

/-- What a record has of its expiry. -/
def InstanceRecord.expiring (r : InstanceRecord) :
    String × PlanIr × Bool × Option Instant × Option Instant × Option BackstopState :=
  (r.id, r.ir, r.rehearsal, r.approvedAt, r.deadline, r.backstop)

namespace Expiring

/-- The record in hand is the stored one, as far as that goes. -/
def Held {σ : Type} (id : String) (w : World σ) : Prop :=
  (w.instances.read id).map InstanceRecord.expiring = some w.hand.expiring

section

variable {τ : Type} {O : Outside τ} {o : Overflow} {E : Setting (τ × Files)}
variable {hosts : Assoc String Host} {ir : PlanIr} {id : String}
variable {w w' : World (τ × Files)} {x : Expiry} {r : InstanceRecord} {st : BackstopState} {host : Host}

variable (E hosts ir id) in
/-- A real instance's deadline, whether it has the artifact armed, and the deadline
file on the artifact's host are the expiry's; it has an artifact only of a plan with a
backstop. -/
structure Shows (f : Files) (r : InstanceRecord) (x : Expiry) : Prop where
  plan : r.ir = ir
  real : r.rehearsal = false
  approved : r.approvedAt.isSome = true
  deadline : r.deadline = x.deadline
  backed : r.backstop.isSome = true → ir.plan.backstop.isSome = true
  armed : (r.backstop.map BackstopState.armed).getD false = x.armed
  file : ∀ st host, r.backstop = some st → hostOf E hosts st.host = some host →
    f host.name id "deadline" = x.file.map epochText

variable (E hosts ir id) in
/-- The stored record does. -/
inductive Shown (w : World (τ × Files)) (x : Expiry) : Prop where
  | intro {r : InstanceRecord} (stored : w.instances.read id = some r)
      (shows : Shows E hosts ir id w.out.2 r x)

theorem Shows.congr {r' : InstanceRecord} {f f' : Files} (h : Shows E hosts ir id f r x)
    (hr : r'.expiring = r.expiring) (hf : ∀ n, f' n id "deadline" = f n id "deadline") :
    Shows E hosts ir id f' r' x := by
  simp only [InstanceRecord.expiring, Prod.mk.injEq] at hr
  obtain ⟨-, hir, hreal, happroved, hd, hb⟩ := hr
  refine ⟨hir.trans h.plan, hreal.trans h.real, happroved ▸ h.approved, hd.trans h.deadline,
    hb ▸ h.backed, hb ▸ h.armed, fun st host hst hh => ?_⟩
  rw [hf]
  exact h.file st host (hb ▸ hst) hh

theorem Shown.congr (h : Shown E hosts ir id w x)
    (hi : w'.instances.read id = w.instances.read id)
    (hf : ∀ n, w'.out.2 n id "deadline" = w.out.2 n id "deadline") : Shown E hosts ir id w' x := by
  obtain ⟨stored, shows⟩ := h
  exact ⟨hi.trans stored, shows.congr rfl hf⟩

/-- The record in hand shows what the stored one does. -/
theorem Held.shows (hh : Held id w) (h : Shown E hosts ir id w x) :
    w.hand.id = id ∧ Shows E hosts ir id w.out.2 w.hand x := by
  obtain ⟨stored, shows⟩ := h
  rw [Held, stored, Option.map_some, Option.some.injEq] at hh
  exact ⟨(congrArg Prod.fst hh.symm).trans (Store.id_of_read stored),
    shows.congr hh.symm fun _ => rfl⟩

/-! ## Deadline files -/

/-- On this host the deadline file may now be this; it is what it was on any other. -/
def Redates (name id : String) (t : Option Bytes) (w w' : World (τ × Files)) : Prop :=
  ∀ n, w'.out.2 n id "deadline" = w.out.2 n id "deadline" ∨ n = name ∧ w'.out.2 n id "deadline" = t

variable {name : String} {t : Option Bytes}

instance : Std.Refl (Redates (τ := τ) name id t) := ⟨fun _ _ => .inl rfl⟩

instance : IsTrans (World (τ × Files)) (Redates name id t) where
  trans _ _ _ h h' n := by
    rcases h' n with h' | h'
    · rw [h']
      exact h n
    · exact .inr h'

theorem Redates.at (h : Redates name id t w w') (ht : w.out.2 name id "deadline" = t) :
    w'.out.2 name id "deadline" = t := by
  rcases h name with h | h
  · rw [h, ht]
  · exact h.2

section
variable (hE : E.outside = filing O)
include hE

theorem redates_ask {ε : Type} {q : Query}
    (h : ∀ (f : Files) a n, f.after q a n id "deadline" = f n id "deadline" ∨
      n = name ∧ f.after q a n id "deadline" = t) :
    Keeps (Redates name id t) True True (ask E q : Prog (World (τ × Files)) ε (Reply q)) := by
  refine Keeps.ofState fun w n => ?_
  have hq := h w.out.2 (O.answer w.out.1 q).1 n
  unfold ask
  split
  next s ha =>
    rw [hE] at ha
    obtain ⟨hr, rfl⟩ := Prod.mk.inj ha
    exact hq
  next s ha =>
    rw [hE] at ha
    obtain ⟨hr, rfl⟩ := Prod.mk.inj ha
    exact hq

theorem redates_aside {ε : Type} {q : Query} (hq : q.aside = true) :
    Keeps (Redates name id t) True True (ask E q : Prog (World (τ × Files)) ε (Reply q)) := by
  refine redates_ask hE fun f a n => .inl ?_
  cases q <;> first | rfl | cases hq

/-- Another file of the instance directory is replaced or removed. -/
theorem redates_other {ε : Type} {i : Nat} {rel : String} {bytes : Bytes} (hrel : "deadline" ≠ rel) :
    Keeps (Redates name id t) True True
      (ask E (.replaceFile i host id rel bytes) : Prog (World (τ × Files)) ε _) := by
  refine redates_ask hE fun f a n => .inl ?_
  match a with
  | some (.ok u) => simp [Files.after, hrel]
  | some (.error e) => rfl
  | none => rfl

theorem redates_removed {ε : Type} {i : Nat} {rel : String} :
    Keeps (Redates host.name id none) True True
      (ask E (.removeFile i host id rel) : Prog (World (τ × Files)) ε _) := by
  refine redates_ask hE fun f a n => ?_
  match a with
  | some (.error e) => exact .inl rfl
  | none => exact .inl rfl
  | some (.ok u) =>
      by_cases hn : n = host.name ∧ "deadline" = rel
      · exact .inr ⟨hn.1, by simp [Files.after, hn]⟩
      · exact .inl (by simp only [Files.after, true_and, if_neg hn])

theorem redates_replaced {ε : Type} {i : Nat} {bytes : Bytes} :
    Keeps (Redates host.name id (some bytes)) True True
      (ask E (.replaceFile i host id "deadline" bytes) : Prog (World (τ × Files)) ε _) := by
  refine redates_ask hE fun f a n => ?_
  match a with
  | some (.error e) => exact .inl rfl
  | none => exact .inl rfl
  | some (.ok u) =>
      by_cases hn : n = host.name
      · exact .inr ⟨hn, by simp [Files.after, hn]⟩
      · exact .inl (by simp [Files.after, hn])

/-! ## Arming -/

variable {now : Instant} {sched : Schedule}

/-- What an arming runs once the deadline is written. -/
theorem redates_armed (i : Nat) :
    Keeps (Redates name r.id t) True True (do
      .when sched.heartbeatS.isSome do
        orElse (← ask E (.replaceFile i host r.id "heartbeat" (epochText now))) fun e =>
          "the heartbeat on " ++ host.name ++ ": " ++ e
      .failIf (!E.schedulers.contains st.scheduler)
        ("R0401: no scheduler binding named " ++ st.scheduler ++ " for " ++ host.name)
      orElse (← ask E (.schedArm st.scheduler i host (jobOf host r.id st.artifact)
        (sched.deadline.getD now))) fun e => "R0401: arming on " ++ host.name ++ ": " ++ e
      : Try (τ × Files) Unit) :=
  Keeps.bind (Keeps.when (Keeps.bind (redates_other hE (by decide)) fun _ => onward_orElse _ _))
    fun _ => Keeps.bind (Keeps.failIf _ _) fun _ => Keeps.bind (redates_aside hE rfl) fun _ =>
      onward_orElse _ _

/-- An arming writes the schedule's deadline or leaves the file. -/
theorem redates_armArtifact (ht : ∀ d, sched.deadline = some d → t = some (epochText d)) :
    Keeps (Redates host.name r.id t) True True (armArtifact E r st host now sched) := by
  unfold armArtifact
  cases executorIndex E host with
  | none => exact Keeps.fail _
  | some i =>
      refine Keeps.bind (redates_aside hE rfl) fun _ => Keeps.bind (onward_orElse _ _) fun _ =>
        Keeps.bind (Keeps.failIf _ _) fun _ => Keeps.bind (redates_aside hE rfl) fun _ =>
        Keeps.bind (onward_orElse _ _) fun _ => Keeps.bind (Keeps.ofExcept _) fun _ =>
        Keeps.bind ?_ fun _ => redates_armed hE i
      cases hd : sched.deadline with
      | none => exact Keeps.pure ()
      | some d =>
          rw [ht d hd]
          exact Keeps.when (Keeps.bind (redates_replaced hE) fun _ => onward_orElse _ _)

/-- One that goes through has written it. -/
theorem dated_of_armArtifact {d : Instant} (hd : sched.deadline = some d)
    (h : armArtifact E r st host now sched w = (.ok (), w')) :
    w'.out.2 host.name r.id "deadline" = some (epochText d) := by
  unfold armArtifact at h
  cases hi : executorIndex E host with
  | none =>
      rw [hi] at h
      cases h
  | some i =>
      rw [hi] at h
      obtain ⟨_, w₁, -, h⟩ := bind_ok_inv h
      obtain ⟨_, w₂, -, h⟩ := bind_ok_inv h
      obtain ⟨_, w₃, -, h⟩ := bind_ok_inv h
      obtain ⟨_, w₄, -, h⟩ := bind_ok_inv h
      obtain ⟨_, w₅, -, h⟩ := bind_ok_inv h
      obtain ⟨_, w₆, -, h⟩ := bind_ok_inv h
      obtain ⟨_, w₇, h₇, h⟩ := bind_ok_inv h
      refine ((redates_armed hE i).ran h).at ?_
      rw [hd] at h₇
      obtain ⟨y, w₈, h₈, h₇⟩ := bind_ok_inv h₇
      cases y with
      | error e => cases h₇
      | ok u =>
          cases h₇
          have hr : Renewal.Replaced E r i host d _ _ := (Renewal.ask_ok h₈).1
          rw [Renewal.files_replaced hE hr host.name, if_pos rfl]

/-! ## Disarming -/

/-- A disarming takes the file away or leaves it. -/
theorem redates_disarmArtifact (whole : Bool) :
    Keeps (Redates host.name r.id none) True True (disarmArtifact E r st host whole) := by
  unfold disarmArtifact
  cases executorIndex E host with
  | none => exact Keeps.fail _
  | some i =>
      exact Keeps.bind (redates_removed hE) fun _ => Keeps.bind (onward_orElse _ _) fun _ =>
        Keeps.when (Keeps.bind (Keeps.failIf _ _) fun _ => Keeps.bind (redates_aside hE rfl) fun _ =>
        Keeps.bind (onward_orElse _ _) fun _ => Keeps.bind (redates_removed hE) fun _ =>
        onward_orElse _ _)

/-- One that goes through has taken it away. -/
theorem bare_of_disarmArtifact {whole : Bool}
    (h : disarmArtifact E r st host whole w = (.ok (), w')) :
    w'.out.2 host.name r.id "deadline" = none := by
  unfold disarmArtifact at h
  cases hi : executorIndex E host with
  | none =>
      rw [hi] at h
      cases h
  | some i =>
      rw [hi] at h
      obtain ⟨y, w₁, h₁, h⟩ := bind_ok_inv h
      obtain ⟨_, w₂, h₂, h⟩ := bind_ok_inv h
      have rest : Keeps (Redates host.name r.id none) True True (Prog.when whole (do
          .failIf (!E.schedulers.contains st.scheduler)
            ("no scheduler binding named " ++ st.scheduler)
          orElse (← ask E (.schedDisarm st.scheduler i host (jobOf host r.id st.artifact))) fun e =>
            "disarming on " ++ host.name ++ ": " ++ e
          orElse (← ask E (.removeFile i host r.id st.artifact)) fun e =>
            "the artifact on " ++ host.name ++ ": " ++ e : Try (τ × Files) Unit)) :=
        Keeps.when (Keeps.bind (Keeps.failIf _ _) fun _ => Keeps.bind (redates_aside hE rfl) fun _ =>
          Keeps.bind (onward_orElse _ _) fun _ => Keeps.bind (redates_removed hE) fun _ =>
          onward_orElse _ _)
      refine (rest.ran h).at ?_
      cases y with
      | error e => cases h₂
      | ok u =>
          cases h₂
          have ha := (Renewal.ask_ok h₁).1
          rw [hE] at ha
          obtain ⟨ha, hout⟩ := Prod.mk.inj ha
          rw [← hout]
          show Files.after w.out.2 _ (O.answer w.out.1 _).1 host.name r.id "deadline" = none
          rw [ha]
          simp [Files.after]

/-! ## Shifts -/

variable (o E hosts ir id) in
/-- The instance shows what it did, or what one shift makes of it. -/
def Shifted (x : Expiry) (w' : World (τ × Files)) : Prop :=
  Shown E hosts ir id w' x ∨
    ∃ m, Able o ir.plan x m ∧ Shown E hosts ir id w' (x.by_ ir.plan m)

omit hE

/-- A verb that stops before it writes the record has moved the file or has not. -/
theorem Shown.redated {y : Expiry} (hx : Shown E hosts ir id w x) (held : Held id w)
    (hst : w.hand.backstop = some st) (hh : hostOf E hosts st.host = some host)
    (hi : w'.instances = w.instances) (hm : Redates host.name id (y.file.map epochText) w w')
    (hd : y.deadline = x.deadline) (ha : y.armed = x.armed) :
    Shown E hosts ir id w' x ∨ Shown E hosts ir id w' y := by
  have hb := (held.shows hx).2
  obtain ⟨stored, shows⟩ := hx
  rw [Held, stored, Option.map_some, Option.some.injEq] at held
  simp only [InstanceRecord.expiring, Prod.mk.injEq] at held
  rcases hm host.name with hsame | ⟨-, ht⟩
  · refine .inl (Shown.congr ⟨stored, shows⟩ (by rw [hi]) fun n => ?_)
    rcases hm n with h | ⟨rfl, -⟩
    · exact h
    · exact hsame
  · refine .inr ⟨hi ▸ stored, shows.plan, shows.real, shows.approved, shows.deadline.trans hd.symm,
      shows.backed, shows.armed.trans ha.symm, fun st' host' hst' hh' => ?_⟩
    obtain rfl := Option.some.inj (hst'.symm.trans (held.2.2.2.2.2.trans hst))
    obtain rfl := Option.some.inj (hh'.symm.trans hh)
    exact ht

/-- One that writes it shows what the file and the record say. -/
theorem Shown.written {s : BackstopState} {y : Expiry} (hx : Shown E hosts ir id w x)
    (held : Held id w) (hst : w.hand.backstop = some st) (hh : hostOf E hosts st.host = some host)
    (hhost : s.host = st.host)
    (hi : w'.instances.read id = some { w.hand with backstop := some s })
    (hf : w'.out.2 host.name id "deadline" = y.file.map epochText) (hd : y.deadline = x.deadline)
    (ha : s.armed = y.armed) : Shown E hosts ir id w' y := by
  have hb := (held.shows hx).2
  refine ⟨hi, hb.plan, hb.real, hb.approved, hb.deadline.trans hd.symm, fun _ => hb.backed ?_, ha,
    fun st₁ host₁ hst₁ hh₁ => ?_⟩
  · rw [hst]
    rfl
  · obtain rfl := Option.some.inj hst₁
    rw [hhost] at hh₁
    obtain rfl := Option.some.inj (hh₁.symm.trans hh)
    exact hf

include hE

/-- The record in hand is written, or it is not. -/
theorem post_persist :
    Post (persist E) (fun y w' => w'.out.2 = w.out.2 ∧
      (y = .ok () ∧ w'.hand = w.hand ∧ w'.instances = w.instances.write w.hand ∨
        y ≠ .ok () ∧ w'.instances = w.instances)) w := by
  rcases hp : persist E w with ⟨y, w₁⟩
  unfold Post
  rw [hp]
  rcases Renewal.persist_cases hp with ⟨rfl, ha, hw⟩ | ⟨e, rfl, ha, hw⟩ | ⟨rfl, ha, hi⟩
  · have hh := congrArg World.hand hw
    have hi := congrArg World.instances hw
    exact ⟨Renewal.files_of_answer hE rfl ha, .inl ⟨rfl, hh, hi⟩⟩
  · have hi := congrArg World.instances hw
    exact ⟨Renewal.files_of_answer hE rfl ha, .inr ⟨by simp, hi⟩⟩
  · exact ⟨Renewal.files_of_answer hE rfl ha, .inr ⟨by simp, hi⟩⟩

/-- The record in hand is changed and written, or it is not written. -/
theorem post_recorded {β : Type} {f : InstanceRecord → InstanceRecord} {k : Eng (τ × Files) β}
    {Q : Res EngineError β → World (τ × Files) → Prop}
    (hok : ∀ w', w'.out.2 = w.out.2 → w'.hand = f w.hand →
      w'.instances = w.instances.write (f w.hand) → Post k Q w')
    (hno : ∀ y w', (∀ b, y ≠ .ok b) → w'.out.2 = w.out.2 → w'.instances = w.instances → Q y w') :
    Post (do setHand f; persist E; k) Q w := by
  refine Post.bind (P := fun y w₁ => y = .ok () ∧ w₁ = { w with hand := f w.hand }) ⟨rfl, rfl⟩
    (fun _ w₁ h => ?_) (fun _ _ h => by cases h.1) fun _ h => by cases h.1
  obtain ⟨-, rfl⟩ := h
  refine Post.bind (post_persist hE) (fun _ w' h => ?_) (fun e w' h => ?_) fun w' h => ?_
  · rcases h with ⟨ho, ⟨-, hh, hi⟩ | ⟨hn, -⟩⟩
    · exact hok w' ho hh hi
    · exact absurd rfl hn
  · rcases h with ⟨ho, ⟨h, -⟩ | ⟨-, hi⟩⟩
    · cases h
    · exact hno _ w' (fun b => by simp) ho hi
  · rcases h with ⟨ho, ⟨h, -⟩ | ⟨-, hi⟩⟩
    · cases h
    · exact hno _ w' (fun b => by simp) ho hi

theorem post_armAs (hx : Shown E hosts ir id w x) (held : Held id w)
    (hst : w.hand.backstop = some st) (hh : hostOf E hosts st.host = some host)
    (hu : x.armed = false) (able : ∀ recorded, Able o ir.plan x (.arm now sched recorded)) :
    Post (armAs E w.hand st host now sched) (fun _ w' => Shifted o E hosts ir id x w') w := by
  obtain ⟨hid, shows⟩ := held.shows hx
  have moves : Keeps (Redates host.name id ((sched.deadline.or x.file).map epochText)) True True
      (armArtifact E w.hand st host now sched) := by
    rw [← hid]
    exact redates_armArtifact hE fun d hd => by rw [hd]; rfl
  have hpost : Post (armArtifact E w.hand st host now sched) (fun y w₁ => Still w w₁ ∧
      Redates host.name id ((sched.deadline.or x.file).map epochText) w w₁ ∧
      (y = .ok () → w₁.out.2 host.name id "deadline" =
        (sched.deadline.or x.file).map epochText)) w := by
    refine ⟨((keeps_armArtifact E w.hand st host now sched) w).1, (moves w).1, fun hy => ?_⟩
    cases hd : sched.deadline with
    | none =>
        have hm := (moves w).1
        rw [hd] at hm
        exact hm.at (shows.file st host hst hh)
    | some d =>
        rw [← hid]
        exact dated_of_armArtifact hE hd (Prog.eq_of_fst hy)
  -- refused, it may have written the deadline all the same
  have half : ∀ w₁ : World (τ × Files), w₁.instances = w.instances →
      Redates host.name id ((sched.deadline.or x.file).map epochText) w w₁ →
      Shifted o E hosts ir id x w₁ := by
    intro w₁ hi hm
    rcases hx.redated (y := x.by_ ir.plan (.arm now sched false)) held hst hh hi hm rfl hu.symm with
      h | h
    · exact .inl h
    · exact .inr ⟨_, able false, h⟩
  refine Post.bind (P := fun y w₁ => Still w w₁ ∧
      Redates host.name id ((sched.deadline.or x.file).map epochText) w w₁ ∧
      (y = .ok (.ok ()) → w₁.out.2 host.name id "deadline" =
        (sched.deadline.or x.file).map epochText))
    (Post.attempt hpost (fun _ _ h => ⟨h.1, h.2.1, fun _ => h.2.2 rfl⟩)
      (fun _ _ h => ⟨h.1, h.2.1, by simp⟩) fun _ h => ⟨h.1, h.2.1, by simp⟩)
    (fun y w₁ h => ?_) (fun _ w₁ h => half w₁ h.1.instances h.2.1)
    fun w₁ h => half w₁ h.1.instances h.2.1
  obtain ⟨hs, hm, hf⟩ := h
  cases y with
  | error why => exact half w₁ hs.instances hm
  | ok u =>
      have hf := hf rfl
      have hhand : w₁.hand = w.hand := hs.hand
      refine Post.readBind (g := World.hosts) ?_
      refine Post.bind (P := fun y w₂ => y = .ok () ∧ w₂.out = w₁.out ∧
        w₂.instances = w₁.instances ∧ w₂.hand = w₁.hand) ⟨rfl, rfl, rfl, rfl⟩ (fun _ w₂ h₂ => ?_)
        (fun _ _ h => by cases h.1) fun _ h => by cases h.1
      obtain ⟨-, ho, hi, hh₂⟩ := h₂
      refine post_recorded hE (fun w₃ ho₃ _ hi₃ => ?_) fun _ w₃ _ ho₃ hi₃ => ?_
      · show Shifted o E hosts ir id x w₃
        refine .inr ⟨_, able true, hx.written held hst hh (s := st.armedAs now sched) rfl ?_ ?_ rfl
          rfl⟩
        · rw [hi₃, hh₂, hhand, ← hid]
          exact Store.read_write_self _ _
        · rw [ho₃, ho]
          exact hf
      · refine half w₃ (hi₃.trans (hi.trans hs.instances)) fun n => ?_
        rw [ho₃, ho]
        exact hm n

variable (E) in
omit hE in
/-- The clock reads a word. -/
def Clocked : Prop :=
  ∀ s now s', E.outside.answer s .now = (some now, s') → now.unixS < 2 ^ 64

omit hE in
theorem Held.congr (h : Held id w) (hh : w'.hand = w.hand) (hi : w'.instances = w.instances) :
    Held id w' := by
  rw [Held, hi, hh]
  exact h

/-- **An arming is a shift of the expiry or none.** -/
theorem post_backstopArm (hc : Clocked E) (hk : w.hosts = hosts) (hx : Shown E hosts ir id w x)
    (held : Held id w) :
    Post (Words.backstopArm o E) (fun _ w' => Shifted o E hosts ir id x w') w := by
  obtain ⟨-, shows⟩ := held.shows hx
  refine Post.readBind (g := World.hand) ?_
  cases hst : w.hand.backstop with
  | none => exact .inl hx
  | some st =>
      dsimp only
      split
      · exact .inl hx
      next hn =>
        refine Post.readBind (g := World.hosts) ?_
        rw [hk]
        cases hh : hostOf E hosts st.host with
        | none => exact .inl hx
        | some host =>
            have hidle : ∀ w₁, Apart w w₁ → Shifted o E hosts ir id x w₁ := fun w₁ h =>
              .inl (hx.congr (by rw [h.instances]) fun n => by rw [h.files])
            refine Post.bind (P := fun y w₁ => Apart w w₁ ∧ ∀ now, y = .ok now → now.unixS < 2 ^ 64)
              ⟨(Renewal.apart_ask hE rfl w).1, fun now hy =>
                hc _ _ _ (Renewal.ask_ok (Prog.eq_of_fst hy)).1⟩
              (fun now w₁ h => ?_) (fun _ w₁ h => hidle w₁ h.1) fun w₁ h => hidle w₁ h.1
            obtain ⟨hap, hclock⟩ := h
            cases hs : Words.schedule o (triggersOf w.hand.plan) now w.hand.deadline with
            | none => exact hidle w₁ hap
            | some sched =>
                have hu : x.armed = false := by
                  rw [← shows.armed, hst]
                  simp only [Bool.or_eq_true, not_or, Bool.not_eq_true] at hn
                  exact hn.1.2
                have harm := post_armAs hE (w := w₁)
                  (hx.congr (by rw [hap.instances]) fun n => by rw [hap.files])
                  (held.congr hap.hand hap.instances) (by rw [hap.hand]; exact hst) hh hu
                  fun recorded => .arm (shows.backed (by rw [hst]; rfl)) hu (hclock now rfl) (o := o) (by
                    rw [← shows.plan, ← shows.deadline]
                    exact hs)
                rw [hap.hand] at harm
                exact harm

/-- **And so is a disarming.** -/
theorem post_backstopDisarm (which : Disarm) (hk : w.hosts = hosts) (hx : Shown E hosts ir id w x)
    (held : Held id w) :
    Post (backstopDisarm E which) (fun _ w' => Shifted o E hosts ir id x w') w := by
  obtain ⟨hid, shows⟩ := held.shows hx
  refine Post.readBind (g := World.hand) ?_
  cases hst : w.hand.backstop with
  | none => exact .inl hx
  | some st =>
      dsimp only
      split
      · exact .inl hx
      refine Post.readBind (g := World.hosts) ?_
      rw [hk]
      cases hh : hostOf E hosts st.host with
      | none => exact .inl hx
      | some host =>
          dsimp only
          generalize (decide (which = Disarm.all) || !(triggersOf w.hand.plan).any Trigger.isHeartbeat) = whole
          have moves : Keeps (Redates host.name id none) True True
              (disarmArtifact E w.hand st host whole) := by
            rw [← hid]
            exact redates_disarmArtifact hE whole
          have half : ∀ w₁ : World (τ × Files), w₁.instances = w.instances →
              Redates host.name id none w w₁ → Shifted o E hosts ir id x w₁ := by
            intro w₁ hi hm
            rcases hx.redated (y := x.by_ ir.plan (.disarm true)) held hst hh hi hm rfl
              (Bool.and_true _) with h | h
            · exact .inl h
            · exact .inr ⟨_, .disarm, h⟩
          have hpost : Post (disarmArtifact E w.hand st host whole) (fun y w₁ => Still w w₁ ∧
              Redates host.name id none w w₁ ∧
              (y = .ok () → w₁.out.2 host.name id "deadline" = none)) w := by
            refine ⟨((keeps_disarmArtifact E w.hand st host whole) w).1, (moves w).1, fun hy => ?_⟩
            rw [← hid]
            exact bare_of_disarmArtifact hE (Prog.eq_of_fst hy)
          refine Post.bind (P := fun y w₁ => Still w w₁ ∧ Redates host.name id none w w₁ ∧
              (y = .ok (.ok ()) → w₁.out.2 host.name id "deadline" = none))
            (Post.attempt hpost (fun _ _ h => ⟨h.1, h.2.1, fun _ => h.2.2 rfl⟩)
              (fun _ _ h => ⟨h.1, h.2.1, by simp⟩) fun _ h => ⟨h.1, h.2.1, by simp⟩)
            (fun y w₁ h => ?_) (fun _ w₁ h => half w₁ h.1.instances h.2.1)
            fun w₁ h => half w₁ h.1.instances h.2.1
          obtain ⟨hs, hm, hf⟩ := h
          cases y with
          | error why => exact half w₁ hs.instances hm
          | ok u =>
              have hf := hf rfl
              have hhand : w₁.hand = w.hand := hs.hand
              refine post_recorded hE (fun w₂ ho _ hi => ?_) fun _ w₂ _ ho hi => ?_
              · show Shifted o E hosts ir id x w₂
                refine .inr ⟨.disarm (!whole), .disarm, hx.written held hst hh
                  (s := if whole then { st with confirmed := true, armed := false, installed := false }
                    else { st with confirmed := true }) ?_ ?_ ?_ rfl ?_⟩
                · cases whole <;> rfl
                · rw [hi, hhand, hst, ← hid]
                  exact Store.read_write_self _ _
                · rw [ho]
                  exact hf
                · have ha := shows.armed
                  rw [hst] at ha
                  have ha : st.armed = x.armed := ha
                  cases whole with
                  | true => exact (Bool.and_false _).symm
                  | false => exact ha.trans (Bool.and_true _).symm
              · refine half w₂ (hi.trans hs.instances) fun n => ?_
                rw [ho]
                exact hm n

omit hE in
/-- What a renewal leaves of a record that keeps its artifact. -/
theorem Shows.renewed {r' : InstanceRecord} {f f' : Files} {x' : Expiry} {d : Option Instant}
    {g : BackstopState → BackstopState} (h : Shows E hosts ir id f r x)
    (hr : r'.expiring = (r.id, r.ir, r.rehearsal, r.approvedAt, d, r.backstop.map g))
    (hd : d = x'.deadline) (ha : x'.armed = x.armed) (harmed : ∀ st, (g st).armed = st.armed)
    (hhost : ∀ st, (g st).host = st.host)
    (hf : ∀ st host, r.backstop = some st → hostOf E hosts st.host = some host →
      f' host.name id "deadline" = x'.file.map epochText) : Shows E hosts ir id f' r' x' := by
  simp only [InstanceRecord.expiring, Prod.mk.injEq] at hr
  obtain ⟨-, hir, hreal, happroved, hdeadline, hb⟩ := hr
  refine ⟨hir.trans h.plan, hreal.trans h.real, happroved ▸ h.approved, hdeadline.trans hd, ?_, ?_,
    fun st host hst hh => ?_⟩
  · rw [hb, Option.isSome_map]
    exact h.backed
  · rw [hb, ha, ← h.armed, Option.map_map]
    cases r.backstop with
    | none => rfl
    | some st => exact harmed st
  · rw [hb] at hst
    obtain ⟨st₀, hst₀, rfl⟩ := Option.map_eq_some_iff.mp hst
    rw [hhost] at hh
    exact hf st₀ host hst₀ hh

omit hE in
theorem Shifted.congr (h : Shifted o E hosts ir id x w) (hi : w'.instances = w.instances)
    (hf : w'.out.2 = w.out.2) : Shifted o E hosts ir id x w' := by
  rcases h with h | ⟨m, able, h⟩
  · exact .inl (h.congr (by rw [hi]) fun n => by rw [hf])
  · exact .inr ⟨m, able, h.congr (by rw [hi]) fun n => by rw [hf]⟩

/-- A rearming writes the new deadline or leaves the file. -/
theorem redates_rearmArtifact (d : Instant) :
    Keeps (Redates host.name r.id (some (epochText d))) True True (rearmArtifact E r st host d) := by
  unfold rearmArtifact
  cases executorIndex E host with
  | none => exact Keeps.fail _
  | some i =>
      exact Keeps.bind (redates_replaced hE) fun _ => Keeps.bind (onward_orElse _ _) fun _ =>
        Keeps.bind (Keeps.failIf _ _) fun _ => Keeps.bind (redates_aside hE rfl) fun _ =>
        onward_orElse _ _

/-- One that goes through has written it. -/
theorem dated_of_rearmArtifact {d : Instant} (h : rearmArtifact E r st host d w = (.ok (), w')) :
    w'.out.2 host.name r.id "deadline" = some (epochText d) := by
  cases hi : executorIndex E host with
  | none =>
      rw [rearmArtifact, hi] at h
      cases h
  | some i =>
      rcases Renewal.rearmArtifact_cases hE hi h with
        h | ⟨-, ⟨-, o₁, h₁, hf, -⟩ | ⟨⟨e, h⟩, -⟩ | ⟨⟨e, h⟩, -⟩⟩
      · cases h
      · rw [hf, Renewal.files_replaced hE h₁ host.name, if_pos rfl]
      · cases h
      · cases h

variable {d : Instant}

/-- What a rearming leaves, and what the record, given the new deadline, then shows. -/
theorem post_backstopRearm (hk : w.hosts = hosts) (hx : Shown E hosts ir id w x) (held : Held id w)
    (hr : Renewable o ir.plan x d) :
    Post (backstopRearm E d) (fun y w₁ => Shifted o E hosts ir id x w₁ ∧
      (y = .ok (.ok ()) → ∀ w₂, w₂.out.2 = w₁.out.2 →
        w₂.instances = w₁.instances.write { w₁.hand with deadline := some d } →
        Shifted o E hosts ir id x w₂)) w := by
  obtain ⟨hid, shows⟩ := held.shows hx
  -- with no armed artifact the record is all there is to move
  have bare : x.armed = false → ∀ w₂, w₂.out.2 = w.out.2 →
      w₂.instances = w.instances.write { w.hand with deadline := some d } →
      Shifted o E hosts ir id x w₂ := by
    intro hu w₂ hf hi
    refine .inr ⟨.renew d, .renew hr, .intro (r := { w.hand with deadline := some d }) ?_ ?_⟩
    · rw [hi, ← hid]
      exact Store.read_write_self _ { w.hand with deadline := some d }
    · rw [Expiry.by_, hu]
      refine shows.renewed (g := fun st => st) ?_ rfl hu.symm (fun _ => rfl) (fun _ => rfl) ?_
      · simp [InstanceRecord.expiring]
      · rw [hf]
        exact shows.file
  refine Post.readBind (g := World.hand) ?_
  cases hst : w.hand.backstop with
  | none =>
      refine ⟨.inl hx, fun _ => bare ?_⟩
      rw [← shows.armed, hst]
      rfl
  | some st =>
      have ha : st.armed = x.armed := by
        rw [← shows.armed, hst]
        rfl
      dsimp only
      split
      next hn =>
        refine ⟨.inl hx, fun _ => bare ?_⟩
        rw [shows.real, Bool.or_false, Bool.not_eq_true'] at hn
        exact ha ▸ hn
      next hn =>
        refine Post.readBind (g := World.hosts) ?_
        rw [hk]
        cases hh : hostOf E hosts st.host with
        | none => exact ⟨.inl hx, fun h => by cases h⟩
        | some host =>
            dsimp only
            have harmed : x.armed = true := by
              rw [shows.real, Bool.or_false, Bool.not_eq_true', Bool.not_eq_false] at hn
              exact ha ▸ hn
            have moves : Keeps (Redates host.name id (some (epochText d))) True True
                (rearmArtifact E w.hand st host d) := by
              rw [← hid]
              exact redates_rearmArtifact hE d
            have half : ∀ w₁ : World (τ × Files), w₁.instances = w.instances →
                Redates host.name id (some (epochText d)) w w₁ → Shifted o E hosts ir id x w₁ := by
              intro w₁ hi hm
              rcases hx.redated (y := x.by_ ir.plan (.slip d)) held hst hh hi hm rfl rfl with h | h
              · exact .inl h
              · exact .inr ⟨_, .slip harmed hr, h⟩
            have hpost : Post (rearmArtifact E w.hand st host d) (fun y w₁ => Still w w₁ ∧
                Redates host.name id (some (epochText d)) w w₁ ∧
                (y = .ok () → w₁.out.2 host.name id "deadline" = some (epochText d))) w := by
              refine ⟨((keeps_rearmArtifact E w.hand st host d) w).1, (moves w).1, fun hy => ?_⟩
              rw [← hid]
              exact dated_of_rearmArtifact hE (Prog.eq_of_fst hy)
            refine Post.bind (P := fun y w₁ => Still w w₁ ∧
                Redates host.name id (some (epochText d)) w w₁ ∧
                (y = .ok (.ok ()) → w₁.out.2 host.name id "deadline" = some (epochText d)))
              (hpost.attempt (fun _ _ h => ⟨h.1, h.2.1, fun _ => h.2.2 rfl⟩)
                (fun _ _ h => ⟨h.1, h.2.1, by simp⟩) fun _ h => ⟨h.1, h.2.1, by simp⟩)
              (fun y w₁ h => ?_) (fun _ w₁ h => .intro (half w₁ h.1.instances h.2.1) (by simp))
              fun w₁ h => .intro (half w₁ h.1.instances h.2.1) (by simp)
            obtain ⟨hs, hm, hf⟩ := h
            cases y with
            | error why => exact ⟨half w₁ hs.instances hm, fun h => by cases h⟩
            | ok u =>
                have hf := hf rfl
                have hhand : w₁.hand = w.hand := hs.hand
                have file : ∀ (w₂ : World (τ × Files)) st' host', w₂.out.2 = w₁.out.2 →
                    w.hand.backstop = some st' → hostOf E hosts st'.host = some host' →
                    w₂.out.2 host'.name id "deadline" = (some d).map epochText := by
                  intro w₂ st' host' ho hst' hh'
                  obtain rfl := Option.some.inj (hst'.symm.trans hst)
                  obtain rfl := Option.some.inj (hh'.symm.trans hh)
                  rw [ho]
                  exact hf
                refine post_recorded hE (fun w₂ ho₂ hh₂ hi₂ => ?_)
                  fun y w₂ hy ho₂ hi₂ => ⟨?_, fun h => absurd h (hy _)⟩
                · show Shifted o E hosts ir id x w₂ ∧ (_ → ∀ w₃, w₃.out.2 = w₂.out.2 →
                    w₃.instances = w₂.instances.write { w₂.hand with deadline := some d } →
                    Shifted o E hosts ir id x w₃)
                  refine ⟨?_, fun _ w₃ ho₃ hi₃ => ?_⟩
                  · refine .inr ⟨.slip d, .slip harmed hr, .intro (r := Renewal.moved w.hand d) ?_ ?_⟩
                    · rw [hi₂, hhand, ← hid]
                      exact Store.read_write_self _ (Renewal.moved w.hand d)
                    · exact shows.renewed (g := fun st => { st with deadline := some d }) rfl
                        shows.deadline rfl (fun _ => rfl) (fun _ => rfl)
                        fun st' host' => file w₂ st' host' ho₂
                  · refine .inr ⟨.renew d, .renew hr,
                      .intro (r := { Renewal.moved w.hand d with deadline := some d }) ?_ ?_⟩
                    · rw [hi₃, hh₂, hhand, ← hid]
                      exact Store.read_write_self _ { Renewal.moved w.hand d with deadline := some d }
                    · rw [Expiry.by_, harmed]
                      exact shows.renewed (g := fun st => { st with deadline := some d }) rfl rfl
                        harmed.symm (fun _ => rfl) (fun _ => rfl)
                        fun st' host' => file w₃ st' host' (ho₃.trans ho₂)
                · exact half w₂ (hi₂.trans hs.instances) fun n => by
                    rw [ho₂]
                    exact hm n

theorem post_renewTo (hk : w.hosts = hosts) (hx : Shown E hosts ir id w x) (held : Held id w)
    (hr : Renewable o ir.plan x d) :
    Post (renewTo E d) (fun _ w' => Shifted o E hosts ir id x w') w := by
  refine Post.bind (post_backstopRearm hE hk hx held hr) (fun y w₁ h => ?_) (fun _ _ h => h.1)
    fun _ h => h.1
  obtain ⟨shifted, recorded⟩ := h
  cases y with
  | error why =>
      exact Post.keeps (R := Apart) (Keeps.bind (Renewal.apart_log hE _) fun _ => Keeps.fail _)
        fun _ w₂ ha => shifted.congr ha.instances ha.files
  | ok u =>
      refine Post.bind (P := fun y w₂ => y = .ok () ∧
          w₂ = { w₁ with hand := { w₁.hand with deadline := some d } })
        ⟨rfl, rfl⟩ (fun _ w₂ h₂ => ?_) (fun _ _ h => by cases h.1) fun _ h => by cases h.1
      obtain ⟨-, rfl⟩ := h₂
      refine Post.keepsBind (R := Apart) (Renewal.apart_log hE _) (fun _ w₂ ha => ?_)
        (fun _ w₂ ha => shifted.congr ha.instances ha.files)
        fun w₂ ha => shifted.congr ha.instances ha.files
      refine (post_persist hE).mono fun _ w₃ h => ?_
      rcases h with ⟨ho, ⟨-, -, hi⟩ | ⟨-, hi⟩⟩
      · refine recorded rfl w₃ (ho.trans ha.files) ?_
        rw [hi, ha.hand, ha.instances]
      · exact shifted.congr (hi.trans ha.instances) (ho.trans ha.files)

theorem apart_readOk (slot : Slot) : Keeps Apart True True (readOk E slot) := by
  refine Keeps.bind (Renewal.apart_ask hE rfl) fun a => ?_
  cases a with
  | ok u => exact Keeps.pure ()
  | error e => exact Keeps.fail _

/-- A record that is taken up is the stored one. -/
theorem post_load :
    Post (load E id) (fun y w₁ => (w₁.hosts = w.hosts ∧ w₁.instances = w.instances ∧
      w₁.out.2 = w.out.2) ∧ (y = .ok () → Held id w₁)) w := by
  refine Post.bind
    (P := fun y w₁ => Apart w w₁ ∧ ∀ r, y = .ok (some r) → w.instances.read id = some r)
    (Post.keepsBind (R := Apart) (apart_readOk hE _) (fun _ w₁ h => ⟨h, fun r hr => ?_⟩)
      (fun _ _ h => ⟨h, by simp⟩) fun _ h => ⟨h, by simp⟩)
    (fun found w₁ h => ?_)
    (fun _ w₁ h => ⟨⟨congrArg Frame.hosts h.1.frame, h.1.instances, h.1.files⟩, by simp⟩)
    fun w₁ h => ⟨⟨congrArg Frame.hosts h.1.frame, h.1.instances, h.1.files⟩, by simp⟩
  · rw [← h.instances]
    exact Res.ok.inj hr
  obtain ⟨ha, hfound⟩ := h
  cases found with
  | none => exact ⟨⟨congrArg Frame.hosts ha.frame, ha.instances, ha.files⟩, by simp⟩
  | some r =>
      refine ⟨⟨congrArg Frame.hosts ha.frame, ha.instances, ha.files⟩, fun _ => ?_⟩
      show (w₁.instances.read id).map InstanceRecord.expiring = some r.expiring
      rw [ha.instances, hfound r rfl]
      rfl

/-- **And so is a renewal.** -/
theorem post_renew (wane : Duration) (hk : w.hosts = hosts) (hx : Shown E hosts ir id w x) :
    Post (Words.renew o E id wane) (fun _ w' => Shifted o E hosts ir id x w') w := by
  have idle : ∀ w₁ : World (τ × Files), w₁.instances = w.instances → w₁.out.2 = w.out.2 →
      Shifted o E hosts ir id x w₁ := fun w₁ hi hf => Shifted.congr (.inl hx) hi hf
  refine Post.bind (post_load hE) (fun _ w₁ h₁ => ?_) (fun _ w₁ h => idle w₁ h.1.2.1 h.1.2.2)
    fun w₁ h => idle w₁ h.1.2.1 h.1.2.2
  obtain ⟨⟨hh₁, hi₁, hf₁⟩, held₁⟩ := h₁
  have held₁ := held₁ rfl
  refine Post.bind (P := fun _ w₂ => w₂ = w₁) ?_ (fun _ w₂ h₂ => ?_)
    (fun _ w₂ h₂ => h₂ ▸ idle w₁ hi₁ hf₁) fun w₂ h₂ => h₂ ▸ idle w₁ hi₁ hf₁
  · exact (Renewal.step_renew rfl).1
  subst h₂
  refine Post.readBind (g := World.hand) ?_
  have hx₂ : Shown E hosts ir id w₂ x := hx.congr (by rw [hi₁]) fun n => by rw [hf₁]
  obtain ⟨-, shows⟩ := held₁.shows hx₂
  cases hd : w₂.hand.deadline with
  | none => exact idle w₂ hi₁ hf₁
  | some deadline =>
      cases hw : w₂.hand.plan.renewWithin with
      | none => exact idle w₂ hi₁ hf₁
      | some within =>
          dsimp only
          refine Post.keepsBind (R := Apart) (Renewal.apart_ask hE rfl) (fun now w₃ ha => ?_)
            (fun _ w₃ ha => idle w₃ (ha.instances.trans hi₁) (ha.files.trans hf₁))
            fun w₃ ha => idle w₃ (ha.instances.trans hi₁) (ha.files.trans hf₁)
          have hidle := idle w₃ (ha.instances.trans hi₁) (ha.files.trans hf₁)
          rcases hn : Words.renewAt o now deadline within wane with _ | why | d
          · exact hidle
          · exact hidle
          · refine Post.bind (post_renewTo hE ((congrArg Frame.hosts ha.frame).trans (hh₁.trans hk))
              (hx₂.congr (by rw [ha.instances]) fun n => by rw [ha.files])
              (held₁.congr ha.hand ha.instances) ?_) (fun _ w₄ h₄ => h₄) (fun _ _ h => h) fun _ h => h
            have hwithin : w₂.hand.ir.plan.renewWithin = some within := hw
            rw [shows.plan] at hwithin
            exact .intro (shows.deadline.symm.trans hd) hwithin hn

end

/-! ## Approvals -/

variable (id) in
/-- A record in hand that is the stored one stays so, and as it was. -/
def Steady (w w' : World (τ × Files)) : Prop :=
  Held id w → Held id w' ∧ w'.hand.expiring = w.hand.expiring

instance : Coarse (Steady (τ := τ) id) where
  refl _ h := ⟨h, rfl⟩
  trans _ _ _ h h' held :=
    ⟨(h' (h held).1).1, (h' (h held).1).2.trans (h held).2⟩
  still h held := ⟨held.congr h.hand h.instances, by rw [h.hand]⟩

theorem steady_setHand {f : InstanceRecord → InstanceRecord}
    (h : ∀ r, (f r).expiring = r.expiring) :
    Keeps (Steady id) True True (setHand f : Eng (τ × Files) Unit) :=
  Keeps.edit fun w held => ⟨held.trans (congrArg some (h w.hand).symm), h w.hand⟩

theorem id_of_held (h : Held id w) : w.hand.id = id := by
  obtain ⟨r, hr, he⟩ := Option.map_eq_some_iff.mp h
  exact (congrArg Prod.fst he.symm).trans (Store.id_of_read hr)

theorem steady_persist : Keeps (Steady id) True True (persist E) := by
  refine Keeps.bind keeps_hand fun _ => Keeps.bind (keeps_writeOk E _).anyEnd fun _ =>
    Keeps.edit fun w held => ⟨?_, rfl⟩
  have hread := Store.read_write_self w.instances w.hand
  rw [id_of_held held] at hread
  exact congrArg (Option.map InstanceRecord.expiring) hread

theorem steady_step (ev : Event) : Keeps (Steady id) True True (step E ev) := by
  refine Keeps.bind keeps_hand fun r => ?_
  split
  · exact Keeps.bind (steady_setHand fun _ => rfl) fun _ => Keeps.bind steady_persist fun _ =>
      Keeps.edit fun _ held => ⟨held, rfl⟩
  · exact Keeps.pure ()
  · exact Keeps.fail _
  · exact Keeps.fail _

theorem steady_release : Keeps (Steady id) True True (release E) :=
  Keeps.bind (Keeps.edit fun _ held => ⟨held, rfl⟩) fun _ => Keeps.bind
    (Keeps.bind (keeps_writeOk E _).anyEnd fun _ => Keeps.edit fun _ held => ⟨held, rfl⟩) fun _ =>
    Keeps.edit fun _ held => ⟨held, rfl⟩

theorem steady_closeOnContract : Keeps (Steady id) True True (closeOnContract E) :=
  Keeps.bind (steady_setHand fun _ => rfl) fun _ => Keeps.bind (steady_step _) fun _ =>
    Keeps.bind (keeps_log E _).anyEnd fun _ => Keeps.bind keeps_hand fun _ =>
    Keeps.bind (Keeps.when (Keeps.bind (steady_setHand fun _ => rfl) fun _ =>
      Keeps.bind (keeps_log E _).anyEnd fun _ => steady_release)) fun _ => steady_persist

/-- The record in hand and the stored ones are as they were. -/
def SameHand (w w' : World (τ × Files)) : Prop := w'.hand = w.hand ∧ w'.instances = w.instances

instance : Coarse (SameHand (τ := τ)) where
  refl _ := ⟨rfl, rfl⟩
  trans _ _ _ h h' := ⟨h'.1.trans h.1, h'.2.trans h.2⟩
  still h := ⟨h.hand, h.instances⟩

theorem SameHand.steady (h : SameHand w w') : Steady id w w' :=
  fun held => ⟨held.congr h.1 h.2, by rw [h.1]⟩

theorem sameHand_contractChanged : Keeps SameHand True True (contractChanged E) := by
  refine Keeps.bind keeps_hand fun r => ?_
  cases r.hostContract with
  | none => exact Keeps.pure none
  | some expected =>
      exact Keeps.bind (keeps_hostContract E).anyEnd fun c =>
        Keeps.bind (Keeps.edit fun _ => ⟨rfl, rfl⟩) fun _ => Keeps.ite (Keeps.pure _) (Keeps.pure _)

/-- A change of the host contract closes a pending instance, or leaves it in hand. -/
theorem post_refuseOnContractChange (pending : w.hand.state = .pending) :
    Post (refuseOnContractChange E)
      (fun y w' => Steady id w w' ∧ (y = .ok false → SameHand w w')) w := by
  refine Post.readBind (g := World.hand) ?_
  split
  · exact ⟨Std.Refl.refl w, fun _ => ⟨rfl, rfl⟩⟩
  refine Post.keepsBind sameHand_contractChanged (fun y w₁ hs => ?_)
    (fun _ w₁ hs => ⟨hs.steady, by simp⟩) fun w₁ hs => ⟨hs.steady, by simp⟩
  cases y with
  | none => exact ⟨hs.steady, fun _ => hs⟩
  | some p =>
      obtain ⟨expected, observed⟩ := p
      refine Post.keepsBind (R := SameHand) (keeps_log E (.hostContractChanged expected observed))
        (fun _ w₂ h₂ => ?_) (fun _ w₂ h₂ => ?_) fun w₂ h₂ => ?_
      · have hs₂ := IsTrans.trans _ _ _ hs h₂
        have hset : Keeps (fun w w' : World (τ × Files) => Steady id w w' ∧
            w'.hand.state = w.hand.state) True True
            (setHand fun r => { r with proofs := [] } : Eng (τ × Files) Unit) :=
          Keeps.edit fun w => ⟨fun held => ⟨held, rfl⟩, rfl⟩
        refine Post.keepsBind hset (fun _ w₃ h₃ => ?_)
          (fun _ w₃ h₃ => ⟨IsTrans.trans _ _ _ hs₂.steady h₃.1, by simp⟩)
          fun w₃ h₃ => ⟨IsTrans.trans _ _ _ hs₂.steady h₃.1, by simp⟩
        have hs₃ : Steady id w w₃ := IsTrans.trans _ _ _ hs₂.steady h₃.1
        refine Post.readBind (g := World.hand) ?_
        rw [if_neg (by rw [h₃.2, hs₂.1, pending]; decide)]
        refine Post.keepsBind steady_closeOnContract (fun _ w₄ h₄ => ?_)
          (fun _ w₄ h₄ => ⟨IsTrans.trans _ _ _ hs₃ h₄, by simp⟩)
          fun w₄ h₄ => ⟨IsTrans.trans _ _ _ hs₃ h₄, by simp⟩
        have hs₄ : Steady id w w₄ := IsTrans.trans _ _ _ hs₃ h₄
        exact ⟨fun held => hs₄ held, by simp [note, Prog.bind_eq]⟩
      · exact ⟨(IsTrans.trans _ _ _ hs h₂).steady, by simp⟩
      · exact ⟨(IsTrans.trans _ _ _ hs h₂).steady, by simp⟩

/-- What is stored is as it was, or shows the expiry an approval gives. -/
def Begun (o : Overflow) (E : Setting (τ × Files)) (hosts : Assoc String Host) (ir : PlanIr)
    (id : String) (w w' : World (τ × Files)) : Prop :=
  (w'.instances.read id).map InstanceRecord.expiring =
      (w.instances.read id).map InstanceRecord.expiring ∨
    ∃ now deadline, wanesAt o ir.plan now = some deadline ∧
      Shown E hosts ir id w' { deadline := deadline }

variable (ir id) in
/-- An instance in hand that is pending, as it was requested. -/
structure Pending (w : World (τ × Files)) : Prop where
  held : Held id w
  state : w.hand.state = .pending
  plan : w.hand.ir = ir
  real : w.hand.rehearsal = false
  undated : w.hand.deadline = none
  bare : w.hand.backstop = none
  intent : w.hand.permanent = decide (inferIntent ir.plan = some .permanent)

theorem Begun.congr {w₀ : World (τ × Files)} (h : Begun o E hosts ir id w₀ w)
    (hi : w'.instances = w.instances) (hf : w'.out.2 = w.out.2) : Begun o E hosts ir id w₀ w' := by
  rcases h with h | ⟨now, deadline, hw, hx⟩
  · exact .inl (by rw [hi]; exact h)
  · exact .inr ⟨now, deadline, hw, hx.congr (by rw [hi]) fun n => by rw [hf]⟩

theorem Steady.begun (h : Steady id w w') (held : Held id w) : Begun o E hosts ir id w w' := by
  obtain ⟨held', he⟩ := h held
  exact .inl (held'.trans ((congrArg some he).trans held.symm))

/-- **An approval begins the life of an expiry, or nothing.** -/
theorem post_approve (hE : E.outside = filing O) (hp : Pending ir id w) :
    Post (Words.approve o E) (fun _ w' => Begun o E hosts ir id w w') w := by
  refine Post.bind (post_refuseOnContractChange hp.state) (fun refused w₁ h₁ => ?_)
    (fun _ w₁ h₁ => h₁.1.begun hp.held) fun w₁ h₁ => h₁.1.begun hp.held
  cases refused with
  | true => exact h₁.1.begun hp.held
  | false =>
      have hs₁ := h₁.2 rfl
      refine Post.keepsBind (R := SameHand) (keeps_ask E (X := True) .now) (fun now w₂ h₂ => ?_)
        (fun _ w₂ h₂ => ?_) fun w₂ h₂ => ?_
      · have hs₂ : SameHand w w₂ := IsTrans.trans _ _ _ hs₁ h₂
        refine Post.readBind (g := World.hand) ?_
        cases hd : Words.waneDeadline o w₂.hand now with
        | none => exact hs₂.steady.begun hp.held
        | some deadline =>
            have hwanes : wanesAt o ir.plan now = some deadline := by
              rw [hs₂.1] at hd
              unfold Words.waneDeadline at hd
              rw [hp.intent, hp.undated, InstanceRecord.plan, hp.plan] at hd
              simpa only [wanesAt, decide_eq_true_eq] using hd
            have hsame : ∀ w' : World (τ × Files), w'.instances = w₂.instances →
                Begun o E hosts ir id w w' := fun w' hi => .inl (by rw [hi, hs₂.2])
            refine Post.bind (P := fun y w₃ => y = .ok () ∧ w₃ = { w₂ with
                hand := { w₂.hand with approvedAt := some now, deadline := deadline } })
              ⟨rfl, rfl⟩ (fun _ w₃ h₃ => ?_) (fun _ _ h => by cases h.1) fun _ h => by cases h.1
            obtain ⟨-, rfl⟩ := h₃
            refine Post.bind (P := fun _ w' => Begun o E hosts ir id w w') ?_ (fun _ w₄ h₄ => ?_)
              (fun _ _ h => h) fun _ h => h
            · refine Post.readBind (g := World.hand) ?_
              split
              next s _ =>
                refine post_recorded hE (fun w₄ _ _ hi => ?_) fun _ w₄ _ _ hi => hsame w₄ hi
                refine Begun.congr (w := w₄) (.inr ⟨now, deadline, hwanes, .intro
                  (r := { w.hand with approvedAt := some now, deadline := deadline, state := s })
                  ?_ ?_⟩) rfl rfl
                · rw [hi, hs₂.1, ← id_of_held hp.held]
                  exact Store.read_write_self _ _
                · refine ⟨hp.plan, hp.real, rfl, rfl, ?_, ?_, ?_⟩
                  · simp [hp.bare]
                  · simp [hp.bare]
                  · simp [hp.bare]
              next => exact hsame _ rfl
              next => exact hsame _ rfl
              next => exact hsame _ rfl
            · exact Post.keeps (Keeps.bind (Keeps.read World.hand) fun r => Renewal.apart_log hE _)
                fun _ w₅ h₅ => h₄.congr h₅.instances h₅.files
      · exact (IsTrans.trans _ _ _ hs₁ h₂ : SameHand w w₂).steady.begun hp.held
      · exact (IsTrans.trans _ _ _ hs₁ h₂ : SameHand w w₂).steady.begun hp.held

/-! ## Courses -/

variable (o E hosts id) in
/-- A verb on the instance, and what it leaves: an arming or a disarming however it
ends, or a renewal that returns. -/
inductive Verb (w w' : World (τ × Files)) : Prop where
  | arm (known : w.hosts = hosts) (held : Held id w) (run : (Words.backstopArm o E w).2 = w')
  | disarm (which : Disarm) (known : w.hosts = hosts) (held : Held id w)
      (run : (backstopDisarm E which w).2 = w')
  | renew (wane : Duration) (known : w.hosts = hosts) (run : (Words.renew o E id wane w).2 = w')

/-- **Every verb is a shift of the expiry or none.** -/
theorem verb_shifts (hE : E.outside = filing O) (hc : Clocked E) (hx : Shown E hosts ir id w x)
    (hv : Verb o E hosts id w w') : Shifted o E hosts ir id x w' := by
  cases hv with
  | arm known held run =>
      subst run
      exact post_backstopArm hE hc known hx held
  | disarm which known held run =>
      subst run
      exact post_backstopDisarm hE which known hx held
  | renew wane known run =>
      subst run
      exact post_renew hE wane known hx

variable (o E hosts ir id) in
/-- An instance from its approval on: verbs, and whatever leaves its record's expiry
and its deadline files. -/
inductive Course : World (τ × Files) → Prop where
  | approve {w w' : World (τ × Files)} (pending : Pending ir id w)
      (run : (Words.approve o E w).2 = w')
      (begun : (w'.instances.read id).map InstanceRecord.expiring ≠
        (w.instances.read id).map InstanceRecord.expiring) : Course w'
  | verb {w w' : World (τ × Files)} (h : Course w) (v : Verb o E hosts id w w') : Course w'
  | rest {w w' : World (τ × Files)} (h : Course w)
      (record : (w'.instances.read id).map InstanceRecord.expiring =
        (w.instances.read id).map InstanceRecord.expiring)
      (files : ∀ n, w'.out.2 n id "deadline" = w.out.2 n id "deadline") : Course w'

theorem Shown.rest (h : Shown E hosts ir id w x)
    (hr : (w'.instances.read id).map InstanceRecord.expiring =
      (w.instances.read id).map InstanceRecord.expiring)
    (hf : ∀ n, w'.out.2 n id "deadline" = w.out.2 n id "deadline") : Shown E hosts ir id w' x := by
  obtain ⟨stored, shows⟩ := h
  rw [stored, Option.map_some, Option.map_eq_some_iff] at hr
  obtain ⟨r', hr', he⟩ := hr
  exact ⟨hr', shows.congr he hf⟩

/-- **Whatever happens to an instance, its record and its deadline file show a life.** -/
theorem life_of_course (hE : E.outside = filing O) (hc : Clocked E)
    (h : Course o E hosts ir id w) :
    ∃ x, Life o ir.plan (fun _ _ => True) x ∧ Shown E hosts ir id w x := by
  induction h with
  | approve pending run begun =>
      subst run
      rcases post_approve hE pending with h | ⟨now, deadline, hw, hx⟩
      · exact absurd h begun
      · exact ⟨_, .approve hw, hx⟩
  | verb _ v ih =>
      obtain ⟨x, hl, hx⟩ := ih
      rcases verb_shifts hE hc hx v with h | ⟨m, able, h⟩
      · exact ⟨x, hl, h⟩
      · exact ⟨_, .shift hl able trivial, h⟩
  | rest _ record files ih =>
      obtain ⟨x, hl, hx⟩ := ih
      exact ⟨x, hl, hx.rest record files⟩

end

end Expiring

/-- **The artifact's deadline is the plan's exactly where every shift is timely**: for a
clean plan the effective wane and the schedule agree exactly where the first and the
last `unless_confirmed:` do; of an instance whose artifact enforces the earliest bound,
none later than the wane deadline, a shift keeps it so exactly where it is timely; so
does a life of timely shifts; and what the engine's verbs make of an instance, in any
order and with any answers, is a life, each verb a shift or none. -/
theorem artifact_deadline_iff {o : Overflow} {ir : PlanIr} (h : checkClean ir = true)
    (hz : Sized ir.plan) :
    (Agrees o ir.plan ↔ SameConfirm ir.plan) ∧
    (∀ x m, Life o ir.plan (fun _ _ => True) x → Enforced ir.plan x → Able o ir.plan x m →
      (Enforced ir.plan (x.by_ ir.plan m) ↔ Timely ir.plan x m)) ∧
    (∀ x, Life o ir.plan (Timely ir.plan) x → Enforced ir.plan x) ∧
    ∀ (τ : Type) (O : Outside τ) (E : Setting (τ × Files)) (hosts : Assoc String Host) (id : String)
      (w : World (τ × Files)), E.outside = filing O → Expiring.Clocked E →
      (Expiring.Course o E hosts ir id w →
        ∃ x, Life o ir.plan (fun _ _ => True) x ∧ Expiring.Shown E hosts ir id w x) ∧
      ∀ x w', Expiring.Shown E hosts ir id w x → Expiring.Verb o E hosts id w w' →
        Expiring.Shifted o E hosts ir id x w' :=
  ⟨agree_iff h hz, fun _ _ hl he able => shift_iff h hz hl he able,
    fun _ hl => enforced_of_life h hz hl,
    fun _ _ _ _ _ _ hE hc => ⟨Expiring.life_of_course hE hc, fun _ _ => Expiring.verb_shifts hE hc⟩⟩

namespace Confirming

/-- A plan that fires by construction, with the durations of its confirmations. -/
def plan (ds : List Duration) : PlanIr :=
  let ir := smallPlan "p" "web" [ownFile "/etc/motd"]
  { ir with
    site := { ir.site with schedulerPresent := ["web"] }
    plan := { ir.plan with
      wane := none
      renewWithin := some ⟨200⟩
      firesByConstruction := true
      backstop := some ⟨ds.map .unlessConfirmed, 1⟩ } }

theorem sized : Sized (plan [⟨600⟩]).plan := by
  intro d hd
  obtain rfl := List.mem_singleton.mp (show d ∈ [(⟨600⟩ : Duration)] from hd)
  decide

/-- Approved at 0 and armed at 100. -/
def armed (ds : List Duration) (deadline : Instant) (sched : Schedule) : Expiry :=
  Expiry.by_ (plan ds).plan { deadline := some deadline } (.arm ⟨100⟩ sched true)

def sched (d : Instant) : Schedule := { deadline := some d }

theorem life : Life .wraps (plan [⟨600⟩]).plan (fun _ _ => True) (armed [⟨600⟩] ⟨600⟩ (sched ⟨700⟩)) :=
  .shift (@Life.approve _ _ _ ⟨0⟩ _ (by decide +kernel))
    (.arm (by decide) rfl (by decide) (by decide +kernel)) trivial

/-- Armed where it was approved. -/
def prompt : Expiry :=
  Expiry.by_ (plan [⟨600⟩]).plan { deadline := some ⟨600⟩ } (.arm ⟨0⟩ (sched ⟨600⟩) true)

/-- It is a life, whatever is asked of an arming that is met here. -/
theorem prompt_life {C : Expiry → Shift → Prop}
    (h : C { deadline := some ⟨600⟩ } (.arm ⟨0⟩ (sched ⟨600⟩) true)) :
    Life .stops (plan [⟨600⟩]).plan C prompt :=
  .shift (@Life.approve _ _ _ ⟨0⟩ _ (by decide +kernel))
    (.arm (by decide) rfl (by decide) (by decide +kernel)) h

theorem lived : Life .stops (plan [⟨600⟩]).plan (fun _ _ => True) prompt := prompt_life trivial

theorem timely : Life .stops (plan [⟨600⟩]).plan (Timely (plan [⟨600⟩]).plan) prompt := by
  refine prompt_life fun d hd => ?_
  obtain rfl : d = ⟨600⟩ := (Option.some.inj (show some (⟨600⟩ : Duration) = some d from hd)).symm
  exact ⟨by decide +kernel, by decide, fun _ => ⟨⟨600⟩, rfl, by decide⟩⟩

/-- Armed later than approved, the artifact outlives the wane deadline; and of two
confirmations the wane is the first and the artifact's bound the last, be it the
longest. -/
theorem outlives :
    checkClean (plan [⟨600⟩]) = true ∧
      armed [⟨600⟩] ⟨600⟩ (sched ⟨700⟩) = ⟨some ⟨600⟩, true, some ⟨700⟩, [⟨700⟩]⟩ ∧
      checkClean (plan [⟨600⟩, ⟨1200⟩]) = true ∧ ¬Agrees .wraps (plan [⟨600⟩, ⟨1200⟩]).plan ∧
      ¬∀ ir : PlanIr, checkClean ir = true → Sized ir.plan → Agrees .wraps ir.plan ∧
        ∀ x, Life .wraps ir.plan (fun _ _ => True) x → Enforced ir.plan x := by
  have hone : checkClean (plan [⟨600⟩]) = true := by decide +kernel
  have htwo : checkClean (plan [⟨600⟩, ⟨1200⟩]) = true := by decide +kernel
  have harmed : armed [⟨600⟩] ⟨600⟩ (sched ⟨700⟩) = ⟨some ⟨600⟩, true, some ⟨700⟩, [⟨700⟩]⟩ := by
    decide +kernel
  refine ⟨hone, harmed, htwo, ?_, ?_⟩
  · intro h
    have hsame := h (by decide +kernel) rfl ⟨0⟩ (some ⟨600⟩) (sched ⟨1200⟩) (by decide +kernel)
      (by decide +kernel)
    exact absurd hsame (by decide +kernel)
  · intro h
    obtain ⟨d, hd, hle⟩ := ((h _ hone sized).2 _ life).waning (by decide +kernel) ⟨700⟩
      (by rw [harmed])
    rw [harmed] at hd
    obtain rfl := Option.some.inj hd
    exact absurd hle (by decide)

/-- With one confirmation the readings agree; and armed when approved, and renewed
later, the artifact keeps the wane deadline. -/
theorem one_confirmation :
    (Agrees .stops (plan [⟨600⟩]).plan ↔ SameConfirm (plan [⟨600⟩]).plan) ∧
      (Enforced (plan [⟨600⟩]).plan prompt ∧
        (Enforced (plan [⟨600⟩]).plan (prompt.by_ (plan [⟨600⟩]).plan (.renew ⟨900⟩)) ↔
          Timely (plan [⟨600⟩]).plan prompt (.renew ⟨900⟩))) :=
  have h := @artifact_deadline_iff .stops (plan [⟨600⟩]) (by decide +kernel) sized
  have he := h.2.2.1 prompt timely
  ⟨h.1, he, h.2.1 prompt _ lived he
    (.renew (@Renewable.intro _ _ _ _ ⟨500⟩ _ ⟨200⟩ ⟨400⟩ rfl rfl (by decide +kernel)))⟩

end Confirming

end Rescind
