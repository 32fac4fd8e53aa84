/-
# `Rescind.Turn.Chronicle` — what a docket rests on

Everything a record's docket says was once noted: a proof that it was verified,
an acknowledgement that it was given, a backstop that it was installed and
armed, an application in flight that its write-ahead entry was acknowledged.
What was noted of its waits holds of the record itself, its plan and its request.
`Documented` says so, of the history since the record was begun; `Justified`
says of one entry what stood when it was noted.  What the outside answered is known
as an answer of some state of it (`Said`), not as one of this run.

**Proved here.**

    a record stays documented while its history grows      (`Documented.grow`)
    what a move notes of waits is so of the record in hand (`NotedOfWaits.tells`)
    every move keeps records documented and entries justified
                                                           (`Storied.move`)
    so in every run                                        (`chronicle`)
-/
import Rescind.Turn.Runs

namespace Rescind

open Lib Lib.Prog

variable {σ : Type} {E : Setting σ}

/-! ## Since a record was begun -/

/-- An entry noted over `older`, the instance's record not having been begun
since. -/
def Since (id : String) (act : Act) (older acts : List Act) : Prop :=
  ∃ newer, acts = newer ++ act :: older ∧ Act.fresh id ∉ newer

section
variable {id : String} {act act' : Act} {older acts : List Act}

theorem since_head : Since id act acts (act :: acts) := ⟨[], rfl, by simp⟩

theorem Since.grow {new : List Act} (h : Since id act older acts) (hn : Act.fresh id ∉ new) :
    Since id act older (new ++ acts) := by
  obtain ⟨newer, rfl, hf⟩ := h
  refine ⟨new ++ newer, (List.append_assoc _ _ _).symm, ?_⟩
  rw [List.mem_append]
  exact fun h => h.elim hn hf

theorem Since.cons (h : Since id act older acts) (hn : act' ≠ .fresh id) :
    Since id act older (act' :: acts) :=
  show Since id act older ([act'] ++ acts) from h.grow (by simpa using hn.symm)

/-- Another entry was noted last. -/
theorem Since.tail (h : Since id act older (act' :: acts)) (hne : act' ≠ act) :
    Since id act older acts := by
  obtain ⟨newer, he, hf⟩ := h
  cases newer with
  | nil => exact absurd (List.cons.inj he).1 hne
  | cons x newer =>
      exact ⟨newer, (List.cons.inj he).2, fun h => hf (List.mem_cons_of_mem _ h)⟩

/-- It is among what was noted last, or was noted before. -/
theorem Since.split {new : List Act} (h : Since id act older (new ++ acts)) :
    (∃ newer mid, new = newer ++ act :: mid ∧ older = mid ++ acts) ∨ Since id act older acts := by
  obtain ⟨newer, he, hf⟩ := h
  rcases List.append_eq_append_iff.mp he with ⟨rest, rfl, ha⟩ | ⟨rest, rfl, ha⟩
  · exact .inr ⟨rest, ha, fun hm => hf (List.mem_append_right _ hm)⟩
  · cases rest with
    | nil => exact .inr ⟨[], by simpa using ha.symm, by simp⟩
    | cons x rest =>
        obtain ⟨rfl, rfl⟩ := List.cons.inj ha
        exact .inl ⟨newer, rest, rfl, rfl⟩

theorem since_of_provedFor {scope : Scope} {au : String} {d : Hash}
    (h : provedFor id scope au d acts = true) :
    ∃ older, Since id (.proved id scope au d) older acts := by
  induction acts with
  | nil => cases h
  | cons act acts ih =>
      have skip : provedFor id scope au d acts = true → act ≠ .fresh id →
          ∃ older, Since id (.proved id scope au d) older (act :: acts) := by
        intro h hn
        obtain ⟨older, hs⟩ := ih h
        exact ⟨older, hs.cons hn⟩
      cases act with
      | proved j sc b x =>
          simp only [provedFor, Bool.or_eq_true, Bool.and_eq_true, decide_eq_true_eq] at h
          rcases h with ⟨⟨⟨rfl, rfl⟩, rfl⟩, rfl⟩ | h
          · exact ⟨acts, since_head⟩
          · exact skip h (by simp)
      | fresh j =>
          simp only [provedFor, Bool.and_eq_true, Bool.not_eq_true', decide_eq_false_iff_not] at h
          exact skip h.2 (by simpa using h.1)
      | fell j =>
          simp only [provedFor, Bool.and_eq_true] at h
          exact skip h.2 (by simp)
      | _ => exact skip h (by simp)

end

/-! ## What is documented -/

/-- The record as it stood at some time since it was begun. -/
def SameRecord (r r' : InstanceRecord) : Prop := r'.core.identity = r.core.identity

/-- A proof was verified for a scope of the instance. -/
def Proved (id : String) (scope : Scope) (au : String) (acts : List Act) : Prop :=
  ∃ d older, Since id (.proved id scope au d) older acts

/-- An acknowledgement stood over `older`: a reason was given, and the knell's
gate opened, since this request, with the proof just verified and those verified
before. -/
def AckStands (E : Setting σ) (r : InstanceRecord) (requested : Option Instant) (n : Nat)
    (reason : String) (older : List Act) : Prop :=
  (Text.trim reason.toList).isEmpty = false ∧
    ∀ g, ackGate r n = some g → ∃ au d rest kept,
      older = .counted r.id (.ack n) (kept ++ [au]) d :: .proved r.id (.ack n) au d :: rest ∧
      OpensSince E requested g (kept ++ [au]) ∧ ∀ b ∈ kept, Proved r.id (.ack n) b older

/-- A wait ends, at the latest, its own window after it began: the window of the
leaf it waits at, or the site's. -/
def BoundedFrom (r : InstanceRecord) (x : Wait) : Prop :=
  ∃ window, WindowAt r x.step window ∧ x.bound = (stepBound r window).map x.since.plus

/-- What ended a wait: a proof for a step of the record, whose gate the proofs counted
with it open since this request; the acknowledgement it waited for; an answer of its
guard. -/
def Woken (E : Setting σ) (r : InstanceRecord) (requested : Option Instant) (wait : Option Wait)
    (older : List Act) : Cause → Prop
  | .proof n => ∃ au aus d rest g,
      older = .counted r.id (.step n) aus d :: .proved r.id (.step n) au d :: rest ∧
      (r.stepAt n).bind StepI.gate = some g ∧ OpensSince E requested g aus ∧
      ∀ b ∈ aus, Proved r.id (.step n) b older
  | .ack n => (wait.map fun x => (x.step, x.reason)) = some (n, "ack")
  | .guard g answer => wait.bind Wait.guard = some g ∧ answer ≠ .unknown

/-- Why, and under which bound, a wait was left. -/
structure LeftFor (E : Setting σ) (r : InstanceRecord) (requested : Option Instant)
    (wait : Option Wait) (ev : Event) (s : State) (older : List Act) : Prop where
  bounded : ∀ x, wait = some x → BoundedFrom r x
  event : (s = .applying ∧ ev = .waitSatisfied ∧ ∃ as cause rest,
      older = .setOut r.id as :: .woke r.id wait cause :: rest ∧
        Woken E r requested wait rest cause) ∨
    (s ≠ .applying ∧ (ev = .boundLapses ∨ ev = .waneElapses ∨ ev = .recant))

/-- What an entry tells of a wait of the record. -/
def Bears (E : Setting σ) (r : InstanceRecord) (requested : Option Instant) :
    Act → List Act → Prop
  | .woke _ wait cause, older => Woken E r requested wait older cause
  | .left _ wait ev s, older => LeftFor E r requested wait ev s older
  | _, _ => True

/-- Entries that tell of a wait. -/
def Act.stays : Act → Bool
  | .woke _ _ _ | .left _ _ _ _ => true
  | _ => false

/-- Everything a docket of a record says was noted since the record was begun, and the
waits it left were left for a cause. -/
structure Documented (E : Setting σ) (acts : List Act) (r : InstanceRecord) (d : Docket) : Prop where
  flight : ∀ a, d.attempting = some a → ∃ older, Since r.id (.ahead r.id a) older acts
  waiting : ∀ x, d.waiting = some x → BoundedFrom r x
  stays : ∀ act older, Since r.id act older acts → act.inst = r.id →
    Bears E r d.requestedAt act older
  proofs : ∀ p ∈ d.proofs, Proved r.id p.scope p.authenticator acts ∨
    ∃ n, p.scope = .ack n ∧ ackGate r n = none
  acks : ∀ n ∈ d.acks, (∃ acks older, Since r.id (.upFront r.id acks) older acts ∧ n ∈ acks) ∨
    ∃ reason older, Since r.id (.acked r.id n reason) older acts ∧
      AckStands E r d.requestedAt n reason older
  installed : ∀ st, d.backstop = some st → st.installed = true →
    ∃ st' hosts older, Since r.id (.installed r.id hosts st') older acts ∧ st'.host = st.host ∧
      Installs E hosts r st'
  armed : ∀ st, d.backstop = some st → st.armed = true →
    ∃ st' hosts now deadline older, Since r.id (.armed r.id hosts now deadline st') older acts ∧
      st'.host = st.host ∧ Arms E hosts now deadline r st' ∧
      ∃ st₀ hosts₀ older₀, Since r.id (.installed r.id hosts₀ st₀) older₀ older ∧
        st₀.host = st'.host ∧ Installs E hosts₀ r st₀

section
variable {acts new : List Act} {r r' : InstanceRecord} {d : Docket}

theorem Proved.grow {id au : String} {scope : Scope} (h : Proved id scope au acts)
    (hn : Act.fresh id ∉ new) : Proved id scope au (new ++ acts) := by
  obtain ⟨d, older, hs⟩ := h
  exact ⟨d, older, hs.grow hn⟩

theorem Documented.grow (h : Documented E acts r d) (hn : Act.fresh r.id ∉ new)
    (ht : ∀ newer act mid, new = newer ++ act :: mid → act.inst = r.id →
      Bears E r d.requestedAt act (mid ++ acts)) : Documented E (new ++ acts) r d where
  flight a ha := by
    obtain ⟨older, hs⟩ := h.flight a ha
    exact ⟨older, hs.grow hn⟩
  waiting := h.waiting
  stays act older hs hi := by
    rcases hs.split with ⟨newer, mid, he, rfl⟩ | hs
    · exact ht newer act mid he hi
    · exact h.stays act older hs hi
  proofs p hp := (h.proofs p hp).imp_left fun h => h.grow hn
  acks n hm := by
    rcases h.acks n hm with ⟨acks, older, hs, hmem⟩ | ⟨reason, older, hs, hst⟩
    · exact .inl ⟨acks, older, hs.grow hn, hmem⟩
    · exact .inr ⟨reason, older, hs.grow hn, hst⟩
  installed st hb hi := by
    obtain ⟨st', hosts, older, hs, hrest⟩ := h.installed st hb hi
    exact ⟨st', hosts, older, hs.grow hn, hrest⟩
  armed st hb ha := by
    obtain ⟨st', hosts, now, deadline, older, hs, hrest⟩ := h.armed st hb ha
    exact ⟨st', hosts, now, deadline, older, hs.grow hn, hrest⟩

theorem tells_of_not_stays {requested : Option Instant} {act : Act} {older : List Act}
    (h : act.stays = false) : Bears E r requested act older := by
  cases act with
  | woke | left => cases h
  | _ => trivial

theorem ackGate_congr (h : r'.ir = r.ir) (n : Nat) : ackGate r' n = ackGate r n := by
  simp only [ackGate, InstanceRecord.opAt, InstanceRecord.plan, h]

section
variable {requested : Option Instant} (hi : SameRecord r r')
include hi

theorem AckStands.congr {n : Nat} {reason : String} (h : AckStands E r requested n reason acts) :
    AckStands E r' requested n reason acts := by
  have hid : r'.id = r.id := congrArg Prod.fst hi
  have hir : r'.ir = r.ir := congrArg (fun x => x.2.1) hi
  refine ⟨h.1, fun g hg => ?_⟩
  rw [hid]
  exact h.2 g ((ackGate_congr hir n).symm.trans hg)

theorem BoundedFrom.congr {x : Wait} (h : BoundedFrom r x) : BoundedFrom r' x := by
  have hir : r'.ir = r.ir := congrArg (fun x => x.2.1) hi
  simpa only [BoundedFrom, WindowAt, InstanceRecord.plan, stepBound, hir] using h

theorem Woken.congr {wait : Option Wait} {cause : Cause} (h : Woken E r requested wait acts cause) :
    Woken E r' requested wait acts cause := by
  have hid : r'.id = r.id := congrArg Prod.fst hi
  have hir : r'.ir = r.ir := congrArg (fun x => x.2.1) hi
  cases cause with
  | proof n => simpa only [Woken, InstanceRecord.stepAt, InstanceRecord.plan, hid, hir] using h
  | ack n => exact h
  | guard g answer => exact h

theorem Bears.congr {act : Act} (h : Bears E r requested act acts) :
    Bears E r' requested act acts := by
  have hid : r'.id = r.id := congrArg Prod.fst hi
  cases act with
  | woke _ wait cause => exact Woken.congr hi h
  | left _ wait ev s =>
      have hl : LeftFor E r requested wait ev s acts := h
      refine ⟨fun x hx => (hl.bounded x hx).congr hi, hl.event.imp_left ?_⟩
      rintro ⟨hs, hev, as, cause, rest, he, hw⟩
      exact ⟨hs, hev, as, cause, rest, by rw [hid]; exact he, hw.congr hi⟩
  | _ => trivial

theorem Installs.congr {hosts : Assoc String Host} {st : BackstopState} (h : Installs E hosts r st) :
    Installs E hosts r' st := by
  have hir : r'.ir = r.ir := congrArg (fun x => x.2.1) hi
  obtain ⟨host, hh, hp⟩ := h
  exact ⟨host, (backstopHost_of_ir E hir).trans hh, hp.congr E hi⟩

theorem Arms.congr {hosts : Assoc String Host} {now : Instant} {deadline : Option Instant}
    {st : BackstopState} (h : Arms E hosts now deadline r st) : Arms E hosts now deadline r' st := by
  have hid : r'.id = r.id := congrArg Prod.fst hi
  have hir : r'.ir = r.ir := congrArg (fun x => x.2.1) hi
  have hplan : r'.plan = r.plan := congrArg PlanIr.plan hir
  obtain ⟨host, hh, hd, hb, hw⟩ := h.written
  unfold Writes at hw
  rw [← hplan] at hd hb hw
  rw [← hid] at hw
  exact ⟨h.armed, h.clock, host, hh, hd, hb, hw⟩

theorem Documented.congr (h : Documented E acts r d) : Documented E acts r' d := by
  have hid : r'.id = r.id := congrArg Prod.fst hi
  have hir : r'.ir = r.ir := congrArg (fun x => x.2.1) hi
  constructor
  · rw [hid]
    exact h.flight
  · exact fun x hx => (h.waiting x hx).congr hi
  · rw [hid]
    exact fun act older hs ha => (h.stays act older hs ha).congr hi
  · intro p hp
    rw [hid]
    refine (h.proofs p hp).imp_right ?_
    rintro ⟨n, hs, hg⟩
    exact ⟨n, hs, (ackGate_congr hir n).trans hg⟩
  · intro n hn
    rw [hid]
    refine (h.acks n hn).imp_right ?_
    rintro ⟨reason, older, hs, hst⟩
    exact ⟨reason, older, hs, hst.congr hi⟩
  · intro st hb his
    obtain ⟨st', hosts, older, hs, hh, hin⟩ := h.installed st hb his
    exact ⟨st', hosts, older, hid ▸ hs, hh, hin.congr hi⟩
  · intro st hb has
    obtain ⟨st', hosts, now, deadline, older, hs, hh, har, st₀, hosts₀, older₀, hs₀, hh₀, hin⟩ :=
      h.armed st hb has
    exact ⟨st', hosts, now, deadline, older, hid ▸ hs, hh, har.congr hi, st₀, hosts₀, older₀,
      hid ▸ hs₀, hh₀, hin.congr hi⟩

end

/-- The proofs a documented docket keeps for the acknowledgement of a gated
knell were verified. -/
theorem Documented.proved_ack {n : Nat} {g : GateExpr} (h : Documented E acts r r.docket)
    (hg : ackGate r n = some g) {b : String} (hb : b ∈ proofsFor r (.ack n)) :
    Proved r.id (.ack n) b acts := by
  obtain ⟨p, hp, rfl⟩ := List.mem_map.mp hb
  obtain ⟨hp, hs⟩ := List.mem_filter.mp hp
  have hs : p.scope = .ack n := by simpa using hs
  rcases h.proofs p hp with hv | ⟨m, hm, hnone⟩
  · rwa [hs] at hv
  · rw [hs] at hm
    cases hm
    rw [hnone] at hg
    cases hg

/-- The proofs a documented docket keeps for the gate of a step were
verified. -/
theorem Documented.proved_step {n : Nat} (h : Documented E acts r r.docket) {b : String}
    (hb : b ∈ proofsFor r (.step n)) : Proved r.id (.step n) b acts := by
  obtain ⟨p, hp, rfl⟩ := List.mem_map.mp hb
  obtain ⟨hp, hs⟩ := List.mem_filter.mp hp
  have hs : p.scope = .step n := by simpa using hs
  rcases h.proofs p hp with hv | ⟨m, hm, -⟩
  · rwa [hs] at hv
  · rw [hs] at hm
    cases hm

end

/-! ## Amendments -/

section
variable {w : World σ} {φ : Phase} {d : Docket}

theorem Acknowledged.stands {acts : List Act} {n : Nat} {reason : String}
    (hd : Documented E w.acts w.hand w.hand.docket)
    (hw : w.acts = .acked w.hand.id n reason :: acts)
    (ha : Acknowledged E { w with acts } n reason) :
    AckStands E w.hand w.hand.requestedAt n reason acts := by
  refine ⟨ha.reason, fun g hg => ?_⟩
  obtain ⟨au, d, rest, hacts, hopen⟩ := ha.gate g hg
  refine ⟨au, d, rest, proofsFor w.hand (.ack n), hacts, hopen, fun b hb => ?_⟩
  obtain ⟨d', older, hs⟩ := hd.proved_ack hg hb
  rw [hw] at hs
  exact ⟨d', older, hs.tail (by simp)⟩

/-- Nothing was acknowledged yet but up front, and no wait was left. -/
structure Unasked (w : World σ) : Prop where
  acks : ∀ n ∈ w.hand.docket.acks, ∃ acks older,
    Since w.hand.id (.upFront w.hand.id acks) older w.acts ∧ n ∈ acks
  stays : ∀ act older, Since w.hand.id act older w.acts → act.stays = false

/-- An amended docket is documented. -/
theorem Documented.amend (h : Amends E φ w d) (hu : φ = .reserved → Unasked w)
    (hd : Documented E w.acts w.hand w.hand.docket) : Documented E w.acts w.hand d := by
  cases h with
  | @attempt a acts hacts =>
      refine { hd with flight := fun b hb => ?_ }
      rw [← Option.some.inj hb, hacts]
      exact ⟨acts, since_head⟩
  | clear => exact { hd with flight := fun _ h => by cases h }
  | @wait x window hw hb =>
      refine { hd with waiting := fun y hy => ⟨window, ?_⟩ }
      rw [← Option.some.inj hy]
      exact ⟨hw, hb⟩
  | unwait => exact { hd with waiting := fun _ h => by cases h }
  | request hφ =>
      exact { hd with
        stays := fun act older hs _ => tells_of_not_stays ((hu hφ).stays act older hs)
        acks := fun n hn => .inl ((hu hφ).acks n hn) }
  | freeze => exact { hd with }
  | @prove p hv =>
      refine { hd with proofs := fun q hq => ?_ }
      rcases List.mem_append.mp hq with hq | hq
      · exact hd.proofs q hq
      · rw [List.mem_singleton.mp hq]
        exact hv.imp_left fun h => ⟨_, since_of_provedFor h⟩
  | unprove => exact { hd with proofs := fun _ h => by cases h }
  | @ack n reason acts hacts hj =>
      refine { hd with acks := fun m hm => ?_ }
      rcases List.mem_append.mp hm with hm | hm
      · exact hd.acks m hm
      · rw [List.mem_singleton.mp hm]
        refine .inr ⟨reason, acts, ?_, hj.stands hd hacts⟩
        rw [hacts]
        exact since_head
  | @install st acts hacts hj =>
      refine { hd with installed := fun st' hs _ => ?_, armed := fun st' hs ha => ?_ }
      · cases Option.some.inj hs
        refine ⟨st, w.hosts, acts, ?_, rfl, hj⟩
        rw [hacts]
        exact since_head
      · cases Option.some.inj hs
        obtain ⟨host, -, hp⟩ := hj
        rw [hp.state.2] at ha
        cases ha
  | @arm st now deadline acts hacts hj hi =>
      obtain ⟨st₀, hb, hi, -, hh, -⟩ := hi
      obtain ⟨st₁, hosts, older, hsince, hhost, hin⟩ := hd.installed st₀ hb hi
      refine { hd with installed := fun st' hs _ => ?_, armed := fun st' hs _ => ?_ }
      · cases Option.some.inj hs
        exact ⟨st₁, hosts, older, hsince, hhost.trans hh.symm, hin⟩
      · cases Option.some.inj hs
        rw [hacts] at hsince ⊢
        exact ⟨st, w.hosts, now, deadline, acts, since_head, rfl, hj, st₁, hosts, older,
          hsince.tail (by simp), hhost.trans hh.symm, hin⟩
  | @ease f hf =>
      refine { hd with installed := fun st' hs hi => ?_, armed := fun st' hs ha => ?_ }
      · obtain ⟨st, hb, rfl⟩ := Option.map_eq_some_iff.mp hs
        obtain ⟨st', hosts, older, hsince, hhost, hrest⟩ := hd.installed st hb (hf.installed st hi)
        exact ⟨st', hosts, older, hsince, hhost.trans (hf.host st).symm, hrest⟩
      · obtain ⟨st, hb, rfl⟩ := Option.map_eq_some_iff.mp hs
        obtain ⟨st', hosts, now, deadline, older, hsince, hhost, hrest⟩ :=
          hd.armed st hb (hf.armed st ha)
        exact ⟨st', hosts, now, deadline, older, hsince, hhost.trans (hf.host st).symm, hrest⟩

end

/-! ## What a move does to dockets -/

/-- A record was begun. -/
structure Begun (w w' : World σ) : Prop where
  blank : w.hand.Blank
  acts : w'.acts = .upFront w.hand.id w.hand.acks :: .fresh w.hand.id :: w.acts
  docket : w'.hand.docket = w.hand.docket
  own : (w'.instances.read w.hand.id).map InstanceRecord.kern = some w'.hand.kern

/-- The docket of the record in hand was kept, or amended with nothing noted; what
is stored of it was kept, or is what is in hand. -/
structure Docketed (E : Setting σ) (p p' : Phase × World σ) : Prop where
  told : ∃ new, p'.2.acts = new ++ p.2.acts ∧ Act.fresh p.2.hand.id ∉ new
  docket : p'.2.hand.docket = p.2.hand.docket ∨
    p'.2.acts = p.2.acts ∧ Amends E p.1 p.2 p'.2.hand.docket
  own : p'.2.instances.read p.2.hand.id = p.2.instances.read p.2.hand.id ∨
    (p'.2.instances.read p.2.hand.id).map InstanceRecord.kern = some p'.2.hand.kern
  checked : p'.2.hand.state = p.2.hand.state ∨ p.1 = .reserved ∨ p.2.hand.state ≠ .unchecked

section
variable {p p' : Phase × World σ}

theorem Puts.kern {c : Core} {f : Frame} {w w' : World σ} (h : Puts c f w w') :
    (w'.instances.read w.hand.id).map InstanceRecord.kern = some w'.hand.kern := by
  rw [h.own, InstanceRecord.kern, h.hand, h.docket]

theorem Docketed.puts {φ φ' : Phase} {c : Core} {f : Frame} {w w' : World σ} {new : List Act}
    (h : Puts c f w w') (ha : f.acts = new ++ w.acts) (hn : Act.fresh w.hand.id ∉ new)
    (hs : c.state = w.hand.state ∨ φ = .reserved ∨ w.hand.state ≠ .unchecked) :
    Docketed E (φ, w) (φ', w') :=
  ⟨⟨new, (acts_of_frame h.frame).trans ha, hn⟩, .inl h.docket, .inr h.kern,
    hs.imp_left ((congrArg Core.state h.hand).trans ·)⟩

/-- Only the history changed. -/
theorem Docketed.noted {φ φ' : Phase} {w w' : World σ} (new : List Act) (ha : w'.acts = new ++ w.acts)
    (hn : Act.fresh w.hand.id ∉ new) (hd : w'.hand.docket = w.hand.docket)
    (hi : w'.instances = w.instances) (hs : w'.hand.state = w.hand.state) :
    Docketed E (φ, w) (φ', w') :=
  ⟨⟨new, ha, hn⟩, .inl hd, .inl (by rw [hi]), .inl hs⟩

theorem checked_of_transition {ctx : Ctx} {st st' : State} {ev : Event}
    (h : transition ctx st ev = .to st') (hne : ev ≠ .check) : st ≠ .unchecked := by
  rintro rfl
  have he := edge_of_transition h
  clear h
  cases he with
  | check => exact hne rfl
  | cancel h => rcases h with h | h <;> cases h
  | commitVerb _ h => rcases h with h | h <;> cases h
  | recant h => rcases h with h | h | h | h | h <;> cases h
  | undoClean h | undoFailed h | driftOnDefer h | abandon h => rcases h with h | h <;> cases h
  | waneElapses _ _ h => cases h

theorem Move.docketed (hm : Move E p p') :
    p.1 = .beginning ∧ Begun p.2 p'.2 ∨ Docketed E p p' := by
  cases hm with
  | quiet h =>
      refine .inr ⟨⟨[], acts_of_frame h.frame, by simp⟩, .inl h.docket, h.kept.imp_right fun hk => ?_,
        .inl (congrArg Core.state h.hand)⟩
      rw [hk, InstanceRecord.kern, InstanceRecord.kern, h.hand, h.docket]
  | amend hc h => exact .inr ⟨⟨[], rfl, by simp⟩, .inr ⟨rfl, h⟩, .inl rfl, .inl (congrArg Core.state hc)⟩
  | remark a h =>
      refine .inr (.noted [a] rfl (fun hf => ?_) rfl rfl rfl)
      rw [← List.mem_singleton.mp hf] at h
      cases h
  | check hb _ h => exact .inl ⟨rfl, hb, acts_of_frame h.frame, h.docket, h.kern⟩
  | @transit φ _ _ ev _ hf ht _ h =>
      refine .inr (.puts h rfl (fun hm => ?_) (.inr (.inr (checked_of_transition ht ?_))))
      · have := (of_mem_turned hm).2
        cases this
      · rintro rfl
        cases φ <;> cases hf
  | request _ h => exact .inr (.puts h (List.nil_append _).symm (by simp) (.inr (.inl rfl)))
  | mark _ _ _ h | pop h => exact .inr (.puts h (List.nil_append _).symm (by simp) (.inl rfl))
  | handOff h | choose _ h => exact .inr (.puts h (List.singleton_append).symm (by simp) (.inl rfl))
  | fired h =>
      refine .inr (.puts h rfl (fun hf => ?_) (.inl rfl))
      obtain ⟨b, -, he⟩ := List.mem_map.mp hf
      cases he
  | rerecord _ hr hd =>
      exact .inr ⟨⟨[_], rfl, by simp⟩, .inl hd, .inl rfl, .inl (congrArg Core.state hr)⟩
  | skip | finish | recollect | unmake | undo | pass =>
      exact .inr (.noted [_] rfl (by simp) rfl rfl rfl)
  | start => exact .inr (.noted [_, _] rfl (by simp) rfl rfl rfl)
  | reload hr hc =>
      exact .inr ⟨⟨[], rfl, by simp⟩, .inl (InstanceRecord.docket_of_kern hc), .inl rfl,
        .inl (congrArg Core.state (InstanceRecord.core_of_kern hc))⟩
  | reserve | reserved | closeGap | depart | fail | forget | reenter | release | released =>
      exact .inr (.noted [] rfl (by simp) rfl rfl rfl)

end

/-! ## What a move notes of waits -/

/-- What a move notes of waits: nothing; what ended one, by a record at rest; or that one
was left, as the state machine has it. -/
def NotedOfWaits (E : Setting σ) (φ : Phase) (w : World σ) (new : List Act) : Prop :=
  (∀ act ∈ new, act.stays = false) ∨
  (∃ cause, φ = .resting ∧ w.hand.state = .waiting ∧
    new = [.woke w.hand.id w.hand.waiting cause] ∧ Wakes E w cause) ∨
  ∃ ev s, φ.feeds ev = true ∧ transition w.hand.ctx w.hand.state ev = .to s ∧
    (ev = .waitSatisfied → ∃ cause acts, w.acts = .woke w.hand.id w.hand.waiting cause :: acts) ∧
    new = turned w.hand ev s

theorem Move.waits {p p' : Phase × World σ} (hm : Move E p p') :
    ∃ new, p'.2.acts = new ++ p.2.acts ∧ NotedOfWaits E p.1 p.2 new := by
  have plain : ∀ {l : List Act}, p'.2.acts = l ++ p.2.acts →
      (∀ act ∈ l, act.stays = false) →
      ∃ new, p'.2.acts = new ++ p.2.acts ∧ NotedOfWaits E p.1 p.2 new := fun h hn => ⟨_, h, .inl hn⟩
  have single : ∀ {a : Act}, p'.2.acts = a :: p.2.acts → a.stays = false →
      ∃ new, p'.2.acts = new ++ p.2.acts ∧ NotedOfWaits E p.1 p.2 new := fun h hn =>
    plain (l := [_]) h (by simpa using hn)
  have none_ : p'.2.acts = p.2.acts →
      ∃ new, p'.2.acts = new ++ p.2.acts ∧ NotedOfWaits E p.1 p.2 new := fun h =>
    plain (l := []) h (by simp)
  cases hm with
  | quiet h => exact none_ (acts_of_frame h.frame)
  | @remark φ w a _ hi hp =>
      cases a with
      | woke id wait cause =>
          obtain ⟨hφ, hs, rfl, hw⟩ := hp
          obtain rfl : id = w.hand.id := hi
          exact ⟨[_], rfl, .inr (.inl ⟨cause, hφ, hs, rfl, hw⟩)⟩
      | left => exact hp.elim
      | _ => exact single rfl rfl
  | check _ _ h => exact plain (l := [_, _]) (acts_of_frame h.frame) (by simp [Act.stays])
  | transit hf ht hl h => exact ⟨_, acts_of_frame h.frame, .inr (.inr ⟨_, _, hf, ht, hl, rfl⟩)⟩
  | request _ h | mark _ _ _ h | pop h => exact none_ (acts_of_frame h.frame)
  | handOff h | choose _ h => exact single (acts_of_frame h.frame) rfl
  | fired h =>
      refine plain (acts_of_frame h.frame) fun act hact => ?_
      obtain ⟨b, -, rfl⟩ := List.mem_map.mp hact
      rfl
  | skip | finish | recollect | unmake | undo | pass | rerecord => exact single rfl rfl
  | start => exact plain (l := [_, _]) rfl (by simp [Act.stays])
  | amend | reserve | reserved | closeGap | depart | fail | forget | reenter | release | released
  | reload => exact none_ rfl

/-- What the end of a state tells is of a wait first. -/
theorem turned_stays {r : InstanceRecord} {ev : Event} {s : State} {newer mid : List Act} {act : Act}
    (he : turned r ev s = newer ++ act :: mid) (hs : act.stays = true) :
    r.state = .waiting ∧ act = .left r.id r.waiting ev s ∧
      (s = .applying → ∃ as, mid = [.setOut r.id as]) ∧ (s ≠ .applying → mid = []) := by
  unfold turned at he
  by_cases hw : r.state = .waiting
  · rw [if_pos hw, if_neg (by rw [hw]; exact nofun), List.append_nil, List.singleton_append] at he
    cases newer with
    | nil =>
        obtain ⟨rfl, rfl⟩ := List.cons.inj he
        refine ⟨hw, rfl, fun ha => ⟨_, if_pos ha⟩, fun ha => if_neg ha⟩
    | cons x newer =>
        have hrest := (List.cons.inj he).2
        have hm : act ∈ (if s = State.applying then
            [Act.setOut r.id (r.applied.filter fun a => (r.opAt a.step).isSome)] else []) := by
          rw [hrest]
          exact List.mem_append_right _ List.mem_cons_self
        split at hm
        · rw [List.mem_singleton.mp hm] at hs
          cases hs
        · cases hm
  · have hm : act ∈ newer ++ act :: mid := by simp
    rw [← he, if_neg hw, List.nil_append, List.mem_append] at hm
    rcases hm with hm | hm <;> split at hm
    · rw [List.mem_singleton.mp hm] at hs
      cases hs
    · cases hm
    · rw [List.mem_singleton.mp hm] at hs
      cases hs
    · cases hm

/-- A wait of a documented record is left for a cause. -/
theorem tells_turned {w : World σ} {ev : Event} {s : State}
    (ht : transition w.hand.ctx w.hand.state ev = .to s)
    (hl : ev = .waitSatisfied → ∃ cause acts, w.acts = .woke w.hand.id w.hand.waiting cause :: acts)
    (hd : Documented E w.acts w.hand w.hand.docket) {newer mid : List Act} {act : Act}
    (he : turned w.hand ev s = newer ++ act :: mid) :
    Bears E w.hand w.hand.requestedAt act (mid ++ w.acts) := by
  cases hs : act.stays with
  | false => exact tells_of_not_stays hs
  | true =>
      obtain ⟨hw, rfl, hset, hnil⟩ := turned_stays he hs
      refine ⟨hd.waiting, ?_⟩
      have hedge := edge_of_transition ht
      rw [hw] at hedge
      cases hedge with
      | waitSatisfied =>
          obtain ⟨cause, acts, hacts⟩ := hl rfl
          obtain ⟨as, rfl⟩ := hset rfl
          have hwoke : Woken E w.hand w.hand.requestedAt w.hand.waiting acts cause :=
            hd.stays (.woke w.hand.id w.hand.waiting cause) acts (hacts ▸ since_head) rfl
          exact .inl ⟨rfl, rfl, as, cause, acts, congrArg _ hacts, hwoke⟩
      | lapseHold | lapse => exact .inr ⟨nofun, .inl rfl⟩
      | waneElapses => exact .inr ⟨nofun, .inr (.inl rfl)⟩
      | recant => exact .inr ⟨nofun, .inr (.inr rfl)⟩
      | cancel h => rcases h with h | h <;> cases h
      | commitVerb _ h => rcases h with h | h <;> cases h
      | undoClean h | undoFailed h | driftOnDefer h | abandon h => rcases h with h | h <;> cases h

/-- What ends a wait of a documented record is told as it is. -/
theorem Wakes.woken {w : World σ} {cause : Cause} (h : Wakes E w cause)
    (hd : Documented E w.acts w.hand w.hand.docket) :
    Woken E w.hand w.hand.requestedAt w.hand.waiting w.acts cause := by
  cases cause with
  | proof n =>
      obtain ⟨au, d, acts, g, hacts, hg, hmet⟩ := h
      exact ⟨au, _, d, acts, g, hacts, hg, hmet, fun b hb => hd.proved_step hb⟩
  | ack n => exact h
  | guard g answer => exact h

/-- What a move notes of waits is so of the record in hand. -/
theorem NotedOfWaits.tells {φ : Phase} {w : World σ} {new newer mid : List Act} {act : Act}
    (h : NotedOfWaits E φ w new) (hd : Documented E w.acts w.hand w.hand.docket)
    (he : new = newer ++ act :: mid) : Bears E w.hand w.hand.requestedAt act (mid ++ w.acts) := by
  rcases h with hn | ⟨cause, -, -, rfl, hw⟩ | ⟨ev, s, -, ht, hl, rfl⟩
  · exact tells_of_not_stays (hn act (by rw [he]; simp))
  · obtain ⟨rfl, rfl, rfl⟩ : newer = [] ∧ .woke w.hand.id w.hand.waiting cause = act ∧ mid = [] := by
      cases newer with
      | nil => simpa [eq_comm] using he
      | cons x newer => simp at he
    exact hw.woken hd
  · exact tells_turned ht hl hd he

theorem asked_of_feeds {φ : Phase} {ev : Event} (h : φ.feeds ev = true) : φ.asked = true := by
  cases φ with
  | beginning | requesting | reserving | reserved => cases h
  | _ => rfl

/-- It notes something only of a record that was asked for. -/
theorem NotedOfWaits.asked {φ : Phase} {w : World σ} {new : List Act} (h : NotedOfWaits E φ w new) :
    (∀ act ∈ new, act.stays = false) ∨ φ.asked = true ∧ w.hand.state ≠ .unchecked := by
  rcases h with hn | ⟨cause, rfl, hs, -⟩ | ⟨ev, s, hf, ht, -⟩
  · exact .inl hn
  · exact .inr ⟨rfl, by rw [hs]; exact nofun⟩
  · refine .inr ⟨asked_of_feeds hf, checked_of_transition ht ?_⟩
    rintro rfl
    cases φ <;> cases hf

/-! ## What an entry rests on -/

/-- How things stood when a `do` was handed over. -/
structure Handed (E : Setting σ) (r : InstanceRecord) (a : AppliedStep) (h : Handing) : Prop where
  record : h.record = r
  real : r.rehearsal = false
  flight : r.docket.attempting = some a
  stored : h.stored = some (.applying, r.docket)
  opened : Opened E r a.step

/-- What stood when an entry was noted. -/
def Justified (E : Setting σ) : Act → List Act → Prop
  | .proved id scope au d, _ => VerifiesFor E id scope au d
  | .handing id a h, older =>
      ∃ r, r.id = id ∧ checkClean r.ir = true ∧ Documented E older r r.docket ∧ Handed E r a h
  | .did id a _, older => ∃ h rest, older = .handing id a h :: rest
  | _, _ => True

/-- Every entry of a history is justified. -/
def Chronicled (E : Setting σ) : List Act → Prop
  | [] => True
  | act :: older => Justified E act older ∧ Chronicled E older

theorem Chronicled.justified {act : Act} {older acts : List Act} (h : Chronicled E acts)
    (hs : (act :: older) <:+ acts) : Justified E act older := by
  induction acts with
  | nil => simp at hs
  | cons x acts ih =>
      rcases List.suffix_cons_iff.mp hs with he | hs
      · obtain ⟨rfl, rfl⟩ := List.cons.inj he
        exact h.1
      · exact ih h.2 hs

/-! ## Every move keeps it -/

/-- A record is of a plan that passes the check, and documented once it was
checked. -/
structure Recorded (E : Setting σ) (acts : List Act) (r : InstanceRecord) : Prop where
  clean : checkClean r.ir = true
  documented : r.state ≠ .unchecked → Documented E acts r r.docket

/-- A record is being asked for. -/
def Asking (φ : Phase) : Prop := φ = .requesting ∨ φ = .reserving ∨ φ = .reserved

/-- The history is justified, and every record rests on it; once the record in hand was
asked for, what is stored of it is the same record of the same request. -/
structure Storied (E : Setting σ) (p : Phase × World σ) : Prop where
  chron : Chronicled E p.2.acts
  others : ∀ j r, j ≠ p.2.hand.id → p.2.instances.read j = some r → Recorded E p.2.acts r
  own : ∀ r, p.2.instances.read p.2.hand.id = some r → Recorded E p.2.acts r
  hand : Recorded E p.2.acts p.2.hand
  checked : Asking p.1 → p.2.hand.state ≠ .unchecked
  unasked : Asking p.1 → Unasked p.2
  agreed : p.1.asked = true → ∀ r, p.2.instances.read p.2.hand.id = some r →
    SameRecord p.2.hand r ∧ r.requestedAt = p.2.hand.requestedAt

section
variable {p p' : Phase × World σ}

theorem Recorded.grow {acts new : List Act} {r : InstanceRecord} (h : Recorded E acts r)
    (hn : Act.fresh r.id ∉ new)
    (ht : ∀ newer act mid, new = newer ++ act :: mid → act.inst = r.id → r.state ≠ .unchecked →
      Bears E r r.requestedAt act (mid ++ acts)) : Recorded E (new ++ acts) r :=
  ⟨h.clean, fun hs => (h.documented hs).grow hn fun newer act mid he ha => ht newer act mid he ha hs⟩

/-- A record of the same core and docket. -/
theorem Recorded.kern {acts : List Act} {r r' : InstanceRecord} (hk : r'.kern = r.kern)
    (h : Recorded E acts r) : Recorded E acts r' := by
  have hc : r'.core = r.core := InstanceRecord.core_of_kern hk
  have hst : r'.state = r.state := congrArg Core.state hc
  have hir : r'.ir = r.ir := congrArg Core.ir hc
  refine ⟨hir ▸ h.clean, fun hs => ?_⟩
  rw [hst] at hs
  rw [InstanceRecord.docket_of_kern hk]
  exact (h.documented hs).congr (congrArg Core.identity hc)

/-- Since a record was begun, only its acknowledgements up front were noted. -/
theorem since_begun {id : String} {acks : List Nat} {act : Act} {acts older : List Act}
    (h : Since id act older (.upFront id acks :: .fresh id :: acts)) : act.stays = false := by
  obtain ⟨newer, he, hf⟩ := h
  match newer with
  | [] => rw [← (List.cons.inj he).1]; rfl
  | [_] => rw [← (List.cons.inj (List.cons.inj he).2).1]; rfl
  | _ :: _ :: _ =>
      have := (List.cons.inj (List.cons.inj he).2).1
      exact absurd (by rw [← this]; simp) hf

/-- A record just begun says only what is acknowledged up front. -/
theorem Begun.documented {w w' : World σ} (hb : Begun w w') (hi : SameRecord w.hand w'.hand) :
    Documented E w'.acts w'.hand w'.hand.docket := by
  have hid : w'.hand.id = w.hand.id := congrArg Prod.fst hi
  rw [hb.docket, hb.blank.docket, hb.acts]
  have hup : Since w'.hand.id (.upFront w'.hand.id w.hand.acks) (.fresh w.hand.id :: w.acts)
      (.upFront w.hand.id w.hand.acks :: .fresh w.hand.id :: w.acts) := by
    rw [hid]
    exact since_head
  refine ⟨?_, ?_, fun act older hs _ => ?_, ?_, fun n hn => .inl ⟨w.hand.acks, _, hup, hn⟩, ?_, ?_⟩
  · intro a ha
    cases ha
  · intro x hx
    cases hx
  · rw [hid] at hs
    exact tells_of_not_stays (since_begun hs)
  · intro p hp
    cases hp
  · intro st hst
    cases hst
  · intro st hst
    cases hst

theorem Begun.unasked {w w' : World σ} (hb : Begun w w') (hi : SameRecord w.hand w'.hand) :
    Unasked w' := by
  have hid : w'.hand.id = w.hand.id := congrArg Prod.fst hi
  have hacks : w'.hand.docket.acks = w.hand.acks := by rw [hb.docket]; rfl
  refine ⟨fun n hn => ⟨w.hand.acks, .fresh w.hand.id :: w.acts, ?_, hacks ▸ hn⟩, fun act older hs => ?_⟩
  · rw [hid, hb.acts]
    exact since_head
  · rw [hid, hb.acts] at hs
    exact since_begun hs

theorem Storied.checked_move (hm : Move E p p') (h : Storied E p) (hφ : Asking p'.1) :
    p'.2.hand.state ≠ .unchecked := by
  have ha := h.checked
  cases hm with
  | quiet hq => exact Core.state_ne hq.hand (ha hφ)
  | amend hc => exact Core.state_ne hc (ha hφ)
  | remark => exact ha hφ
  | check _ _ hp => exact Core.state_ne hp.hand nofun
  | reserve | reserved => exact ha (by simp [Asking])
  | @transit _ _ _ _ s => cases s <;> simp [State.phase, Asking] at hφ
  | mark _ _ hf => rcases hf with rfl | ⟨rfl, -⟩ <;> simp [Asking] at hφ
  | _ => simp [Asking] at hφ

/-- The record in hand as it stood before a move was documented, unless it was begun. -/
theorem Storied.documented (hd : Docketed E p p') (h : Storied E p)
    (hs : p'.2.hand.state ≠ .unchecked) : Documented E p.2.acts p.2.hand p.2.hand.docket := by
  refine h.hand.documented ?_
  rcases hd.checked with he | he | he
  · rwa [he] at hs
  · exact h.checked (.inr (.inr he))
  · exact he

theorem Storied.hand_move (hm : Move E p p') (h : Storied E p) : Recorded E p'.2.acts p'.2.hand := by
  have hir : p'.2.hand.ir = p.2.hand.ir := congrArg (fun x => x.2.1) hm.identity
  refine ⟨hir ▸ h.hand.clean, fun hs => ?_⟩
  rcases hm.docketed with ⟨-, hb⟩ | hd
  · exact hb.documented hm.identity
  · have hdoc := h.documented hd hs
    refine Documented.congr hm.identity ?_
    rcases hd.docket with he | ⟨ha, he⟩
    · obtain ⟨new, hnew, hn⟩ := hd.told
      obtain ⟨new', hnew', hw⟩ := hm.waits
      obtain rfl : new = new' := List.append_cancel_right (hnew.symm.trans hnew')
      rw [he, hnew]
      exact hdoc.grow hn fun newer act mid hsplit _ => hw.tells hdoc hsplit
    · rw [ha]
      exact Documented.amend he (fun hφ => h.unasked (.inr (.inr hφ))) hdoc

theorem Storied.own_move (hm : Move E p p') (h : Storied E p) {r : InstanceRecord}
    (hr : p'.2.instances.read p'.2.hand.id = some r) : Recorded E p'.2.acts r := by
  have hhand := h.hand_move hm
  rw [hm.id] at hr
  have put : (p'.2.instances.read p.2.hand.id).map InstanceRecord.kern = some p'.2.hand.kern →
      Recorded E p'.2.acts r := by
    intro hk
    rw [hr] at hk
    exact hhand.kern (Option.some.inj hk)
  rcases hm.docketed with ⟨-, hb⟩ | hd
  · have hk := hb.own
    exact put hk
  · rcases hd.own with he | hk
    · obtain ⟨new, hnew, hn⟩ := hd.told
      obtain ⟨new', hnew', hw⟩ := hm.waits
      obtain rfl : new = new' := List.append_cancel_right (hnew.symm.trans hnew')
      rw [he] at hr
      rw [hnew]
      refine (h.own r hr).grow (by rwa [Store.id_of_read hr]) fun newer act mid hsplit _ hs => ?_
      rcases hw.asked with hplain | hasked
      · exact tells_of_not_stays (hplain act (by rw [hsplit]; simp))
      · obtain ⟨hi, hq⟩ := h.agreed hasked.1 r hr
        rw [hq]
        exact (hw.tells (h.hand.documented hasked.2) hsplit).congr hi
    · exact put hk

theorem Storied.others_move (hm : Move E p p') (h : Storied E p) {j : String} {r : InstanceRecord}
    (hj : j ≠ p'.2.hand.id) (hr : p'.2.instances.read j = some r) : Recorded E p'.2.acts r := by
  rw [hm.id] at hj
  rw [hm.others j hj] at hr
  obtain ⟨new, hnew, hinst⟩ := hm.told
  have hid : r.id = j := Store.id_of_read hr
  rw [hnew]
  refine (h.others j r hj hr).grow (fun hf => hj ?_) fun newer act mid hsplit ha _ => absurd ?_ hj
  · rw [← hid]
    exact hinst _ hf
  · rw [← hid, ← ha]
    exact hinst act (by rw [hsplit]; simp)

/-- What the state machine's move is told as is justified. -/
theorem chronicled_turned {r : InstanceRecord} {ev : Event} {s : State} {acts : List Act}
    (hc : Chronicled E acts) : Chronicled E (turned r ev s ++ acts) := by
  have one : ∀ {p : Prop} [Decidable p] {a : Act} {as : List Act}, (∀ l, Justified E a l) →
      Chronicled E as → Chronicled E ((if p then [a] else []) ++ as) := by
    intro p _ a as ha has
    split
    · exact ⟨ha as, has⟩
    · exact has
  unfold turned
  rw [List.append_assoc, List.append_assoc]
  exact one (fun _ => trivial) (one (fun _ => trivial) (one (fun _ => trivial) hc))

/-- A `do` is handed over as the machine asks. -/
theorem Cleared.handed {w : World σ} {a : AppliedStep} (h : Cleared E w a) :
    Handed E w.hand a w.handing := by
  refine ⟨rfl, h.real, h.flight, ?_, h.opened⟩
  obtain ⟨r, hr, hk⟩ := Option.map_eq_some_iff.mp h.stored
  have hs : r.state = w.hand.state := congrArg Core.state (InstanceRecord.core_of_kern hk)
  simp only [World.handing, hr, Option.map_some, hs, h.state, InstanceRecord.docket_of_kern hk]

theorem Storied.chron_move (hm : Move E p p') (h : Storied E p) : Chronicled E p'.2.acts := by
  have hc := h.chron
  cases hm with
  | quiet hq =>
      rw [acts_of_frame hq.frame]
      exact hc
  | @remark φ w a _ hi hp =>
      refine ⟨?_, hc⟩
      cases a with
      | proved id scope au d => exact hp.2
      | left | handing => exact hp.elim
      | _ => trivial
  | check _ _ hp =>
      rw [acts_of_frame hp.frame]
      exact ⟨trivial, trivial, hc⟩
  | transit _ _ _ hp =>
      rw [acts_of_frame hp.frame]
      exact chronicled_turned hc
  | request _ hp | mark _ _ _ hp | pop hp =>
      rw [acts_of_frame hp.frame]
      exact hc
  | handOff hp | choose _ hp =>
      rw [acts_of_frame hp.frame]
      exact ⟨trivial, hc⟩
  | fired hp =>
      rw [acts_of_frame hp.frame]
      show Chronicled E (List.map _ _ ++ _)
      refine List.rec hc (fun a as ih => ⟨trivial, ih⟩) (List.filter _ _)
  | @start w a _ hcl =>
      refine ⟨⟨_, _, rfl⟩, ⟨w.hand, rfl, h.hand.clean, h.hand.documented ?_, hcl.handed⟩, hc⟩
      rw [show w.hand.state = .applying from hcl.state]
      exact nofun
  | skip | finish | recollect | unmake | undo | pass | rerecord => exact ⟨trivial, hc⟩
  | amend | reserve | reserved | closeGap | depart | fail | forget | reenter | release | released
  | reload => exact hc

/-- Nothing was noted, and no more is acknowledged. -/
theorem Unasked.kept {w w' : World σ} (h : Unasked w) (hid : w'.hand.id = w.hand.id)
    (ha : w'.acts = w.acts) (hd : w'.hand.docket.acks = w.hand.docket.acks) : Unasked w' := by
  constructor
  · rw [hid, ha, hd]
    exact h.acks
  · rw [hid, ha]
    exact h.stays

/-- An amendment while a record is asked for acknowledges nothing. -/
theorem Amends.acks {φ : Phase} {w : World σ} {d : Docket} (h : Amends E φ w d) (hφ : Asking φ) :
    d.acks = w.hand.docket.acks := by
  cases h with
  | ack _ _ hr =>
      subst hr
      simp [Asking] at hφ
  | _ => rfl

theorem Storied.unasked_move (hm : Move E p p') (h : Storied E p) (hφ : Asking p'.1) :
    Unasked p'.2 := by
  have hu := h.unasked
  have hid := hm.id
  have hident := hm.identity
  cases hm with
  | quiet hq => exact (hu hφ).kept hid (acts_of_frame hq.frame) (congrArg Docket.acks hq.docket)
  | amend _ ha => exact (hu hφ).kept hid rfl (ha.acks hφ)
  | @remark φ w a hi ha hp =>
      have hstays : a.stays = false := by
        cases a with
        | woke =>
            obtain ⟨rfl, -⟩ := hp
            simp [Asking] at hφ
        | left => exact hp.elim
        | _ => rfl
      have hne : a ≠ .fresh w.hand.id := fun he => by rw [he] at hi; cases hi
      refine ⟨fun n hn => ?_, fun act older hs => ?_⟩
      · obtain ⟨acks, older, hs, hm⟩ := (hu hφ).acks n hn
        exact ⟨acks, older, hs.cons hne, hm⟩
      · by_cases he : a = act
        · exact he ▸ hstays
        · exact (hu hφ).stays act older (Since.tail hs he)
  | check hb _ hp =>
      exact Begun.unasked ⟨hb, acts_of_frame hp.frame, hp.docket, hp.kern⟩ hident
  | reserve | reserved => exact (hu (by simp [Asking])).kept hid rfl rfl
  | @transit _ _ _ _ s => cases s <;> simp [State.phase, Asking] at hφ
  | mark _ _ hf => rcases hf with rfl | ⟨rfl, -⟩ <;> simp [Asking] at hφ
  | _ => simp [Asking] at hφ

theorem Amends.requestedAt {φ : Phase} {w : World σ} {d : Docket} (h : Amends E φ w d)
    (hφ : φ.asked = true) : d.requestedAt = w.hand.requestedAt := by
  cases h with
  | request hr =>
      subst hr
      cases hφ
  | _ => rfl

/-- A record is asked for once its request is durable. -/
theorem Move.asked (hm : Move E p p') (hφ : p'.1.asked = true) : p.1.asked = true ∨
    (p'.2.instances.read p.2.hand.id).map InstanceRecord.kern = some p'.2.hand.kern := by
  cases hm with
  | quiet | amend | remark => exact .inl hφ
  | request _ h => exact .inr h.kern
  | transit hf => exact .inl (asked_of_feeds hf)
  | finish h => rcases h with rfl | ⟨rfl, -⟩ <;> exact .inl rfl
  | rerecord h => rcases h with rfl | ⟨rfl, -⟩ <;> exact .inl rfl
  | check | reserve | reserved => cases hφ
  | _ => exact .inl rfl

theorem Storied.agreed_move (hm : Move E p p') (h : Storied E p) (hφ : p'.1.asked = true)
    {r : InstanceRecord} (hr : p'.2.instances.read p'.2.hand.id = some r) :
    SameRecord p'.2.hand r ∧ r.requestedAt = p'.2.hand.requestedAt := by
  have put : (p'.2.instances.read p.2.hand.id).map InstanceRecord.kern = some p'.2.hand.kern →
      SameRecord p'.2.hand r ∧ r.requestedAt = p'.2.hand.requestedAt := by
    intro hk
    rw [← hm.id, hr] at hk
    have hk : r.kern = p'.2.hand.kern := Option.some.inj hk
    exact ⟨congrArg Core.identity (InstanceRecord.core_of_kern hk),
      congrArg Docket.requestedAt (InstanceRecord.docket_of_kern hk)⟩
  rcases hm.docketed with ⟨-, hb⟩ | hd
  · exact put hb.own
  · rcases hm.asked hφ with hasked | hk
    · rcases hd.own with he | hk
      case inr => exact put hk
      rw [hm.id, he] at hr
      obtain ⟨hi, hq⟩ := h.agreed hasked r hr
      refine ⟨hi.trans hm.identity.symm, hq.trans ?_⟩
      rcases hd.docket with hk | ⟨-, ha⟩
      · exact (congrArg Docket.requestedAt hk).symm
      · exact (ha.requestedAt hasked).symm
    · exact put hk

theorem Storied.move (hm : Move E p p') (h : Storied E p) : Storied E p' where
  chron := h.chron_move hm
  others _ _ := h.others_move hm
  own _ := h.own_move hm
  hand := h.hand_move hm
  checked := h.checked_move hm
  unasked := h.unasked_move hm
  agreed hφ _ := h.agreed_move hm hφ

end

/-! ## Runs -/

/-- The history is justified, and every stored record rests on it. -/
structure StoriedStore (E : Setting σ) (w : World σ) : Prop where
  chron : Chronicled E w.acts
  records : ∀ j r, w.instances.read j = some r → Recorded E w.acts r

/-- The invariant of all runs. -/
def storiedInvariant (E : Setting σ) : Invariant E (fun _ => True) fun _ => True where
  Kept := StoriedStore E
  Held := Storied E
  between hb h := ⟨hb.acts ▸ h.chron, fun j r hr => hb.acts ▸ h.records j r (hb.records j ▸ hr)⟩
  condition _ _ := trivial
  take {w r} h hr :=
    ⟨h.chron, fun j r' _ hr' => h.records j r' hr', fun r' hr' => h.records _ r' hr',
      h.records _ r hr, by simp [Asking], by simp [Asking], fun _ r' hr' => by
        obtain rfl : r = r' := Option.some.inj (hr.symm.trans hr')
        exact ⟨rfl, rfl⟩⟩
  fresh {w ir params opts nonce} h _ hc _ :=
    ⟨h.chron, fun j r' _ hr' => h.records j r' hr', fun r' hr' => h.records _ r' hr',
      ⟨hc, fun hs => absurd rfl hs⟩, by simp [Asking], by simp [Asking], nofun⟩
  move := Storied.move
  leave {w} h := by
    refine ⟨h.chron, fun j r hr => ?_⟩
    by_cases hj : j = w.hand.id
    · exact h.own r (hj ▸ hr)
    · exact h.others j r hj hr
  drop {φ w w'} h hd _ := by
    have ha : w'.acts = w.acts := congrArg Frame.acts hd.frame
    refine ⟨ha ▸ h.chron, fun j r hr => ?_⟩
    rw [hd.records j] at hr
    rw [ha]
    by_cases hj : j = w.hand.id
    · exact h.own r (hj ▸ hr)
    · exact h.others j r hj hr

/-- **Every history is justified**, and every stored record rests on it. -/
theorem chronicle {w : World σ} (h : Run E w) : StoriedStore E w :=
  (storiedInvariant E).run (fun w hw _ => by
    refine ⟨?_, fun j r hr => ?_⟩
    · rw [hw.acts]
      trivial
    · rw [hw.instances] at hr
      cases hr) h

-- a run on fixed inputs is not to be evaluated for what `Chronicled` says of it
attribute [irreducible] Chronicled

end Rescind
