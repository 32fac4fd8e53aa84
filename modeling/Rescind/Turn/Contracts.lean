/-
# `Rescind.Turn.Contracts` — a walk sets out on the contract its request froze

A request freezes the host contract (`Bonded`), and a walk starts only when the
contract was just derived again and found the same (`Departs.departed`).  So since the
walk last set out the history has a derivation that agreed (`Departed`), and every
`do` was handed over after one.

**Proved here.**

    every move keeps it                                     (`Bonds.move`)
    so in every run                                         (`departed`)
-/
import Rescind.Turn.Seals

namespace Rescind

open Lib Lib.Prog

variable {σ : Type} {E : Setting σ}

/-! ## What a walk sets out on -/

/-- Since the walk last set out the host contract was derived, and found as the
request of the record froze it. -/
def Departed (E : Setting σ) (id : String) (acts : List Act) : Prop :=
  ∃ c newer older, acts = newer ++ .compared id (E.contractHash c) c :: older ∧
    (∀ as, Act.setOut id as ∉ newer) ∧
    ∃ c₀ oldest, Since id (.froze id c₀) oldest older ∧ E.contractHash c₀ = E.contractHash c

/-- Every `do` was handed over in a walk that so departed. -/
def Outset (E : Setting σ) : List Act → Prop
  | [] => True
  | .did id _ _ :: acts => Departed E id acts ∧ Outset E acts
  | _ :: acts => Outset E acts

/-- An instance that was requested has frozen its contract, and what it has frozen
was noted since its record began. -/
structure Bonded (E : Setting σ) (acts : List Act) (r : InstanceRecord) : Prop where
  frozen : r.state = .unchecked ∨ r.state = .checked ∨ r.state = .closed ∨ Frozen r
  froze : ∀ h, r.docket.hostContract = some h →
    ∃ c older, Since r.id (.froze r.id c) older acts ∧ E.contractHash c = h

/-- The plan is being walked. -/
def Phase.walks : Phase → Bool
  | .walking | .inFlight _ | .guarding _ => true
  | _ => false

/-- A walk that is due is of an instance that is applying; one under way departed. -/
structure Departing (E : Setting σ) (p : Phase × World σ) : Prop where
  due : p.1 = .starting → p.2.hand.state = .applying
  under : p.1.walks = true → p.2.hand.rehearsal = true ∨ Departed E p.2.hand.id p.2.acts

section
variable {acts new : List Act} {r r' : InstanceRecord} {id : String}

theorem Departed.grow (h : Departed E id acts) (hn : ∀ as, Act.setOut id as ∉ new) :
    Departed E id (new ++ acts) := by
  obtain ⟨c, newer, older, rfl, hset, hfroze⟩ := h
  refine ⟨c, new ++ newer, older, (List.append_assoc _ _ _).symm, fun as hm => ?_, hfroze⟩
  rcases List.mem_append.mp hm with hm | hm
  · exact hn as hm
  · exact hset as hm

theorem Departed.cons {act : Act} (h : Departed E id acts) (hn : ∀ as, act ≠ .setOut id as) :
    Departed E id (act :: acts) :=
  show Departed E id ([act] ++ acts) from h.grow fun as hm => hn as (List.mem_singleton.mp hm).symm

theorem Outset.departed {a : AppliedStep} {as : List AppliedStep} {older : List Act}
    (h : Outset E acts) (hs : (Act.did id a as :: older) <:+ acts) : Departed E id older := by
  induction acts with
  | nil => simp at hs
  | cons act acts ih =>
      rcases List.suffix_cons_iff.mp hs with he | hs
      · obtain ⟨rfl, rfl⟩ := List.cons.inj he
        exact h.1
      · refine ih ?_ hs
        cases act with
        | did => exact h.2
        | _ => exact h

theorem Outset.grow (h : Outset E acts) (hn : ∀ act ∈ new, ∀ id a as, act ≠ .did id a as) :
    Outset E (new ++ acts) := by
  induction new with
  | nil => exact h
  | cons act new ih =>
      have hrest : Outset E (new ++ acts) := ih fun x hx => hn x (List.mem_cons_of_mem _ hx)
      cases act with
      | did id a as => exact absurd rfl (hn _ List.mem_cons_self id a as)
      | _ => exact hrest

theorem Bonded.grow (h : Bonded E acts r) (hn : Act.fresh r.id ∉ new) : Bonded E (new ++ acts) r := by
  refine ⟨h.frozen, fun x hx => ?_⟩
  obtain ⟨c, older, hs, hc⟩ := h.froze x hx
  exact ⟨c, older, hs.grow hn, hc⟩

/-- A record of the same identity, contract and state. -/
theorem Bonded.congr (hi : SameRecord r r') (hs : r'.state = r.state)
    (hh : r'.docket.hostContract = r.docket.hostContract) (h : Bonded E acts r) :
    Bonded E acts r' := by
  have hid : r'.id = r.id := congrArg Prod.fst hi
  have hre : r'.rehearsal = r.rehearsal := congrArg (fun x => x.2.2.2.2) hi
  have hho : r'.hostContract = r.hostContract := hh
  refine ⟨?_, ?_⟩
  · rw [hs, Frozen, hre, hho]
    exact h.frozen
  · rw [hh, hid]
    exact h.froze

theorem Bonded.kern (hk : r'.kern = r.kern) (h : Bonded E acts r) : Bonded E acts r' :=
  h.congr (congrArg Core.identity (InstanceRecord.core_of_kern hk))
    (congrArg Core.state (InstanceRecord.core_of_kern hk))
    (congrArg Docket.hostContract (InstanceRecord.docket_of_kern hk))

end

/-! ## Every move keeps it -/

/-- What is walked departed, and every record is bonded. -/
abbrev Bonds (E : Setting σ) (p : Phase × World σ) : Prop := Stands (Outset E) (Bonded E) (Departing E) p

section
variable {p p' : Phase × World σ}

theorem did_of_mem_turned {r : InstanceRecord} {ev : Event} {s : State} {act : Act}
    (h : act ∈ turned r ev s) (id : String) (a : AppliedStep) (as : List AppliedStep) :
    act ≠ .did id a as := by
  rintro rfl
  have := (of_mem_turned h).2
  cases this

/-- A move hands a `do` over, or tells of none. -/
theorem Move.handing (hm : Move E p p') :
    (∃ w a, p = (.walking, w) ∧ Cleared E w a ∧
        p'.2.acts = .did w.hand.id a w.hand.applied :: .handing w.hand.id a w.handing :: w.acts) ∨
      ∃ new, p'.2.acts = new ++ p.2.acts ∧ ∀ act ∈ new, ∀ id a as, act ≠ .did id a as := by
  have none_ : ∀ {w' : World σ}, w'.acts = p.2.acts → ∃ new, w'.acts = new ++ p.2.acts ∧
      ∀ act ∈ new, ∀ id a as, act ≠ .did id a as := fun h => ⟨[], h, fun _ hm => by cases hm⟩
  cases hm with
  | start _ hc => exact .inl ⟨_, _, rfl, hc, rfl⟩
  | remark a hi =>
      refine .inr ⟨[a], rfl, fun act hact id b as he => ?_⟩
      rw [List.mem_singleton.mp hact] at he
      rw [he] at hi
      cases hi
  | quiet h => exact .inr (none_ (acts_of_frame h.frame))
  | check _ _ h => exact .inr ⟨[_, _], acts_of_frame h.frame, by simp⟩
  | handOff h | choose _ h => exact .inr ⟨[_], acts_of_frame h.frame, by simp⟩
  | request _ h | mark _ _ _ h | pop h => exact .inr (none_ (acts_of_frame h.frame))
  | transit _ _ _ h =>
      exact .inr ⟨_, acts_of_frame h.frame, fun _ hact => did_of_mem_turned hact⟩
  | fired h =>
      refine .inr ⟨_, acts_of_frame h.frame, fun act hact => ?_⟩
      obtain ⟨b, -, rfl⟩ := List.mem_map.mp hact
      exact fun _ _ _ => nofun
  | rerecord => exact .inr ⟨[_], rfl, by simp⟩
  | skip | finish | recollect | unmake | undo | pass => exact .inr ⟨[_], rfl, by simp⟩
  | amend | reserve | reserved | closeGap | depart | fail | forget | reenter | release | released
  | reload => exact .inr (none_ rfl)

theorem Bonds.told_move (hm : Move E p p') (h : Bonds E p) : Outset E p'.2.acts := by
  rcases hm.handing with ⟨w, a, rfl, hc, hacts⟩ | ⟨new, hnew, hn⟩
  · rw [hacts]
    refine ⟨?_, h.told⟩
    rcases h.phase.under rfl with hr | hd
    · exact absurd (hc.real.symm.trans hr) nofun
    · exact hd.cons fun _ => nofun
  · rw [hnew]
    exact h.told.grow hn

/-- Only a request leads out of `Checked`, and nothing out of `Closed`. -/
theorem early_of_edge {ctx : Ctx} {st s : State} {ev : Event} (he : Edge ctx st ev s)
    (hs : st = .checked ∨ st = .closed) : ev = .request := by
  cases he with
  | request => rfl
  | cancel h | commitVerb _ h | recant h | undoClean h | undoFailed h | driftOnDefer h
  | abandon h => rcases hs with rfl | rfl <;> simp at h
  | waneElapses _ ht h =>
      rcases hs with rfl | rfl
      · cases h
      · exact absurd rfl ht
  | _ => rcases hs with hs | hs <;> cases hs

/-- The machine moves only an instance that was requested, so has frozen its
contract. -/
theorem Bonded.frozen_of_feeds {w : World σ} {ev : Event} {s : State} {φ : Phase}
    (h : Bonded E w.acts w.hand) (hf : φ.feeds ev = true)
    (ht : transition w.hand.ctx w.hand.state ev = .to s) : Frozen w.hand := by
  have hne : ev ≠ .check ∧ ev ≠ .request := by
    constructor <;> rintro rfl <;> cases φ <;> cases hf
  rcases h.frozen with hs | hs | hs | hs
  · exact absurd hs (checked_of_transition ht hne.1)
  · exact absurd (early_of_edge (edge_of_transition ht) (.inl hs)) hne.2
  · exact absurd (early_of_edge (edge_of_transition ht) (.inr hs)) hne.2
  · exact hs

/-- An amended contract is the one just noted. -/
theorem Bonded.amend {w : World σ} {φ : Phase} {r : InstanceRecord} (hc : r.core = w.hand.core)
    (ha : Amends E φ w r.docket) (h : Bonded E w.acts w.hand) : Bonded E w.acts r := by
  have hi : SameRecord w.hand r := congrArg Core.identity hc
  have hs : r.state = w.hand.state := congrArg Core.state hc
  have hid : r.id = w.hand.id := congrArg Prod.fst hi
  have hre : r.rehearsal = w.hand.rehearsal := congrArg (fun x => x.2.2.2.2) hi
  by_cases hh : r.docket.hostContract = w.hand.docket.hostContract
  · exact h.congr hi hs hh
  · have froze : ∃ c acts, w.acts = .froze w.hand.id c :: acts ∧
        r.docket.hostContract = some (E.contractHash c) := by
      generalize r.docket = d at ha hh
      cases ha with
      | freeze hacts => exact ⟨_, _, hacts, rfl⟩
      | _ => exact absurd rfl hh
    obtain ⟨c, acts, hacts, hd⟩ := froze
    refine ⟨.inr (.inr (.inr (.inr ?_))), fun x hx => ?_⟩
    · show r.docket.hostContract.isSome = true
      rw [hd]
      rfl
    · refine ⟨c, acts, ?_, Option.some.inj (hd.symm.trans hx)⟩
      rw [hid, hacts]
      exact since_head

/-- What a move leaves in hand is bonded by the history as it was. -/
theorem Bonds.kept_move (hm : Move E p p') (h : Bonds E p) : Bonded E p.2.acts p'.2.hand := by
  have put : ∀ {c : Core} {f : Frame} {w w' : World σ}, Puts c f w w' →
      c.identity = w.hand.core.identity → c.state = w.hand.state ∨ Frozen w.hand →
      Bonded E w.acts w.hand → Bonded E w.acts w'.hand := by
    intro c f w w' hp hi hs hw
    have hi' : SameRecord w.hand w'.hand := (congrArg Core.identity hp.hand).trans hi
    have hh : w'.hand.docket.hostContract = w.hand.docket.hostContract :=
      congrArg Docket.hostContract hp.docket
    rcases hs with hs | hs
    · exact hw.congr hi' ((congrArg Core.state hp.hand).trans hs) hh
    · have hid : w'.hand.id = w.hand.id := congrArg Prod.fst hi'
      have hre : w'.hand.rehearsal = w.hand.rehearsal := congrArg (fun x => x.2.2.2.2) hi'
      have hho : w'.hand.hostContract = w.hand.hostContract := hh
      refine ⟨.inr (.inr (.inr ?_)), ?_⟩
      · rw [Frozen, hre, hho]
        exact hs
      · rw [hh, hid]
        exact hw.froze
  have hhand := h.hand
  cases hm with
  | quiet hq =>
      exact hhand.congr (congrArg Core.identity hq.hand) (congrArg Core.state hq.hand)
        (congrArg Docket.hostContract hq.docket)
  | amend hc ha => exact hhand.amend hc ha
  | @check w w' hb _ hp =>
      have hs : w'.hand.state = .checked := congrArg Core.state hp.hand
      refine ⟨.inr (.inl hs), fun x hx => ?_⟩
      rw [show w'.hand.docket = _ from hp.docket.trans hb.docket] at hx
      cases hx
  | request hf hp => exact put hp rfl (.inr hf) hhand
  | transit hf ht _ hp => exact put hp rfl (.inr (hhand.frozen_of_feeds hf ht)) hhand
  | mark _ _ _ hp | pop hp | handOff hp | choose _ hp | fired hp => exact put hp rfl (.inl rfl) hhand
  | @rerecord _ w a r _ hr hd =>
      have hi : r.core.identity = w.hand.core.identity := by
        rw [hr]
        rfl
      have hs : r.state = w.hand.state := congrArg Core.state hr
      exact hhand.congr hi hs (congrArg Docket.hostContract hd)
  | reload _ hc => exact hhand.kern hc
  | reserve | release => refine Bonded.congr ?_ ?_ ?_ hhand <;> rfl
  | remark | reserved | closeGap | depart | skip | start | finish | pass | recollect | fail | forget
  | unmake | reenter | undo | released => exact hhand

theorem Bonds.hand_move (hm : Move E p p') (h : Bonds E p) : Bonded E p'.2.acts p'.2.hand := by
  have hk := h.kept_move hm
  rcases hm.docketed with ⟨-, hb⟩ | hd
  · refine ⟨hk.frozen, fun x hx => ?_⟩
    rw [hb.docket, hb.blank.docket] at hx
    cases hx
  · obtain ⟨new, hnew, hfresh⟩ := hd.told
    rw [hnew]
    exact hk.grow (by rwa [hm.id])

theorem Bonds.own_move (hm : Move E p p') (h : Bonds E p) {r : InstanceRecord}
    (hr : p'.2.instances.read p'.2.hand.id = some r) : Bonded E p'.2.acts r := by
  have hhand := h.hand_move hm
  rw [hm.id] at hr
  have put : (p'.2.instances.read p.2.hand.id).map InstanceRecord.kern = some p'.2.hand.kern →
      Bonded E p'.2.acts r := by
    intro hk
    rw [hr] at hk
    exact hhand.kern (Option.some.inj hk)
  rcases hm.docketed with ⟨-, hb⟩ | hd
  · have hk := hb.own
    exact put hk
  · rcases hd.own with he | hk
    · obtain ⟨new, hnew, hfresh⟩ := hd.told
      rw [he] at hr
      rw [hnew]
      exact (h.own r hr).grow (by rwa [Store.id_of_read hr])
    · exact put hk

/-- A walk departs on the contract its request froze. -/
theorem Departs.departed {w : World σ} (hd : Departs E w) (hs : w.hand.state = .applying)
    (h : Bonded E w.acts w.hand) : w.hand.rehearsal = true ∨ Departed E w.hand.id w.acts := by
  rcases hd with hr | hn | ⟨c, acts, hc, hacts⟩
  · exact .inl hr
  · rcases h.frozen with hf | hf | hf | hf | hf
    · exact absurd (hs.symm.trans hf) nofun
    · exact absurd (hs.symm.trans hf) nofun
    · exact absurd (hs.symm.trans hf) nofun
    · exact .inl hf
    · rw [hn] at hf
      cases hf
  · obtain ⟨c₀, oldest, hsince, heq⟩ := h.froze _ hc
    rw [hacts] at hsince
    exact .inr ⟨c, [], acts, hacts, by simp, c₀, oldest, hsince.tail nofun, heq⟩

/-- Within a walk no other sets out. -/
theorem Departing.stays (new : List Act) (hm : Move E p p') (h : Departing E p) (hw : p.1.walks = true)
    (hnew : p'.2.acts = new ++ p.2.acts) (hn : ∀ act ∈ new, ∀ as, act ≠ .setOut p.2.hand.id as) :
    p'.2.hand.rehearsal = true ∨ Departed E p'.2.hand.id p'.2.acts := by
  have hre : p'.2.hand.rehearsal = p.2.hand.rehearsal :=
    congrArg (fun x => x.2.2.2.2) hm.identity
  rw [hre, hm.id, hnew]
  exact (h.under hw).imp_right fun hd => hd.grow fun as hmem => hn _ hmem as rfl

theorem Bonds.phase_move (hm : Move E p p') (h : Bonds E p) : Departing E p' := by
  have hb := h.phase
  have stays := fun new => @Departing.stays σ E p p' new hm h.phase
  cases hm with
  | quiet hq =>
      exact ⟨fun hφ => hq.state.trans (hb.due hφ), fun hφ =>
        stays [] hφ (acts_of_frame hq.frame) (by simp)⟩
  | amend hc ha =>
      exact ⟨fun hφ => (congrArg Core.state hc).trans (hb.due hφ), fun hφ =>
        stays [] hφ rfl (by simp)⟩
  | remark a hi hin hp =>
      refine ⟨hb.due, fun hφ => stays [a] hφ rfl ?_⟩
      rintro act hact as rfl
      rw [← List.mem_singleton.mp hact] at hp
      exact hp
  | @transit _ _ _ _ s _ _ _ hp =>
      refine ⟨fun hφ => (congrArg Core.state hp.hand).trans ?_, fun hφ => ?_⟩
      · cases s <;> first | rfl | cases hφ
      · cases s <;> cases hφ
  | handOff hp => exact ⟨fun _ => (congrArg Core.state hp.hand).trans (hb.due rfl), nofun⟩
  | depart hd => exact ⟨nofun, fun _ => hd.departed (hb.due rfl) h.hand⟩
  | skip | recollect | pass => exact ⟨nofun, fun _ => stays [_] rfl rfl (by simp)⟩
  | start => exact ⟨nofun, fun _ => stays [_, _] rfl rfl (by simp)⟩
  | choose _ hp => exact ⟨nofun, fun _ => stays [_] rfl (acts_of_frame hp.frame) (by simp)⟩
  | finish hφ =>
      refine ⟨nofun, fun _ => stays [_] ?_ rfl (by simp)⟩
      rcases hφ with rfl | ⟨rfl, -⟩ <;> rfl
  | mark _ _ hφ hp =>
      refine ⟨fun hs => ?_, fun _ => stays [] rfl (acts_of_frame hp.frame) (by simp)⟩
      rcases hφ with rfl | ⟨rfl, -⟩ <;> cases hs
  | check | reserve | reserved | request | closeGap | fail | forget | unmake | rerecord | reenter
  | undo | pop | fired | release | released | reload => exact ⟨nofun, nofun⟩

theorem Bonds.move (hm : Move E p p') (h : Bonds E p) : Bonds E p' where
  told := h.told_move hm
  others := h.others_move hm fun hb hn => hb.grow fun hf => hn _ hf rfl
  own _ := h.own_move hm
  hand := h.hand_move hm
  phase := h.phase_move hm

end

/-! ## Runs -/

/-- The invariant of all runs. -/
def bondedInvariant (E : Setting σ) : Invariant E (fun _ => True) fun _ => True :=
  .ofRecords (fun _ => ⟨nofun, nofun⟩) (fun _ _ _ _ _ _ => ⟨⟨.inl rfl, nofun⟩, nofun, nofun⟩)
    Bonds.move

/-- **Every walk departs on the contract its request froze.** -/
theorem departed {w : World σ} (h : Run E w) : StandsStored (Outset E) (Bonded E) w :=
  (bondedInvariant E).run (fun _ hw _ => standsStored_begins hw trivial) h

-- a run on fixed inputs is not to be evaluated for what `Outset` says of it
attribute [irreducible] Outset

end Rescind
