/-
# `Rescind.Safety.Choices` — a `when` is decided once

The plan is walked from its start every time, so a `when` is come to again and again:
in the rounds of a loop, after a wait, after a crash.  The arm its guard's
observation names is stored under its leaf number before it is walked, and taken from
there ever after.

The guard may answer differently each time it is asked.  An id that is begun anew has
its arms to choose again.

**Proved here.**

    every move keeps what is stored the arms that were taken   (`Decides.move`)
    an arm is asked for once, and is the same ever after       (`chosen_once`)
-/
import Rescind.Safety.Lifecycles

namespace Rescind

open Lib Lib.Prog

variable {σ : Type} {E : Setting σ}

/-! ## The arm that was taken -/

/-- The arm last taken under a leaf number since the record was begun. -/
def taken (id : String) (leaf : Nat) : List Act → Option Bool
  | [] => none
  | .chose j n _ _ _ c :: acts => if j = id ∧ n = leaf then some c else taken id leaf acts
  | .fresh j :: acts => if j = id then none else taken id leaf acts
  | _ :: acts => taken id leaf acts

/-- Every arm was asked for when none had been taken, or is the one that had. -/
def Steady : List Act → Prop
  | [] => True
  | .chose id leaf _ _ asked c :: acts =>
      taken id leaf acts = (if asked.isSome then none else some c) ∧ Steady acts
  | _ :: acts => Steady acts

/-- Entries that begin a record or take an arm. -/
def Act.decides : Act → Bool
  | .fresh _ | .chose _ _ _ _ _ _ => true
  | _ => false

/-- What is stored of the arms is what the history says of them. -/
def Decided (acts : List Act) (r : InstanceRecord) : Prop :=
  r.state = .unchecked ∨ ∀ leaf, r.choices.get leaf = taken r.id leaf acts

section
variable {id : String} {leaf : Nat} {acts new : List Act}

theorem taken_grow (h : ∀ act ∈ new, act.decides = true → act.inst ≠ id) :
    taken id leaf (new ++ acts) = taken id leaf acts := by
  induction new with
  | nil => rfl
  | cons act new ih =>
      have ih := ih fun a ha => h a (List.mem_cons_of_mem _ ha)
      have hact := h act List.mem_cons_self
      cases act with
      | fresh j => exact (if_neg (hact rfl)).trans ih
      | chose j n => exact (if_neg fun hj => hact rfl hj.1).trans ih
      | _ => exact ih

theorem Steady.grow (h : Steady acts) (hn : ∀ act ∈ new, act.decides = false) :
    Steady (new ++ acts) := by
  induction new with
  | nil => exact h
  | cons act new ih =>
      have ih := ih fun a ha => hn a (List.mem_cons_of_mem _ ha)
      have hact := hn act List.mem_cons_self
      cases act with
      | chose => cases hact
      | _ => exact ih

theorem Steady.suffix {act : Act} {older : List Act} (h : Steady acts) (hs : (act :: older) <:+ acts) :
    Steady (act :: older) := by
  induction acts with
  | nil => simp at hs
  | cons x acts ih =>
      rcases List.suffix_cons_iff.mp hs with he | hs
      · rw [he]
        exact h
      · refine ih ?_ hs
        cases x with
        | chose => exact h.2
        | _ => exact h

/-- Whatever arm was taken since the record was begun is the one last taken. -/
theorem Steady.taken_eq {i : Nat} {vars : Vars} {asked : Option Tri} {c : Bool} {oldest : List Act}
    (h : Steady acts) (hs : Since id (.chose id leaf i vars asked c) oldest acts) :
    taken id leaf acts = some c := by
  obtain ⟨newer, rfl, hf⟩ := hs
  induction newer with
  | nil => exact if_pos ⟨rfl, rfl⟩
  | cons act newer ih =>
      have hf' : Act.fresh id ∉ newer := fun hm => hf (List.mem_cons_of_mem _ hm)
      cases act with
      | chose j n _ _ a d =>
          have ih := ih hf' h.2
          by_cases hj : j = id ∧ n = leaf
          · obtain ⟨rfl, rfl⟩ := hj
            have hd := ih.symm.trans h.1
            cases a with
            | some tri => cases hd
            | none => exact (if_pos ⟨rfl, rfl⟩).trans hd.symm
          · exact (if_neg hj).trans ih
      | fresh j =>
          have hj : j ≠ id := by
            rintro rfl
            exact hf List.mem_cons_self
          exact (if_neg hj).trans (ih hf' h)
      | _ => exact ih hf' h

/-- An arm that was taken was once asked for. -/
theorem Steady.asked {c : Bool} (h : Steady acts) (ht : taken id leaf acts = some c) :
    ∃ i vars tri oldest, Since id (.chose id leaf i vars (some tri) c) oldest acts := by
  induction acts with
  | nil => cases ht
  | cons act acts ih =>
      have skip : Steady acts → taken id leaf acts = some c → act ≠ .fresh id →
          ∃ i vars tri oldest, Since id (.chose id leaf i vars (some tri) c) oldest (act :: acts) := by
        intro hst ht hn
        obtain ⟨i, vars, tri, oldest, hs⟩ := ih hst ht
        exact ⟨i, vars, tri, oldest, hs.cons hn⟩
      cases act with
      | chose j n i vars a d =>
          by_cases hj : j = id ∧ n = leaf
          · obtain ⟨rfl, rfl⟩ := hj
            have hd : d = c := Option.some.inj ((if_pos ⟨rfl, rfl⟩).symm.trans ht)
            cases a with
            | some tri =>
                rw [hd]
                exact ⟨i, vars, tri, acts, since_head⟩
            | none => exact skip h.2 (h.1.trans (congrArg some hd)) nofun
          · exact skip h.2 ((if_neg hj).symm.trans ht) nofun
      | fresh j =>
          by_cases hj : j = id
          · cases (if_pos hj).symm.trans ht
          · exact skip h ((if_neg hj).symm.trans ht) fun he => hj (Act.fresh.inj he)
      | _ => exact skip h ht nofun

end

/-! ## Every move keeps it -/

/-- What a move tells of the arms: the record is begun, or an arm is taken, or
nothing. -/
inductive Choosing (p p' : Phase × World σ) : Prop where
  | begun (h : Begun p.2 p'.2) (hc : p'.2.hand.choices = p.2.hand.choices)
  | again {leaf i : Nat} {vars : Vars} {c : Bool}
      (ht : p'.2.acts = .chose p.2.hand.id leaf i vars none c :: p.2.acts) (hφ : p.1 = .walking)
      (hg : p.2.hand.choices.get leaf = some c) (hc : p'.2.hand.choices = p.2.hand.choices)
  | asks {leaf i : Nat} {vars : Vars} {tri : Tri} {c : Bool}
      (ht : p'.2.acts = .chose p.2.hand.id leaf i vars (some tri) c :: p.2.acts)
      (hφ : p.1 = .walking) (hg : p.2.hand.choices.get leaf = none)
      (hc : p'.2.hand.choices = p.2.hand.choices.insert leaf c)
      (ho : (p'.2.instances.read p.2.hand.id).map InstanceRecord.kern = some p'.2.hand.kern)
  | apart {new : List Act} (ht : p'.2.acts = new ++ p.2.acts)
      (hn : ∀ act ∈ new, act.decides = false) (hc : p'.2.hand.choices = p.2.hand.choices)

/-- The arms are stored as the history tells them, and a walk is under way. -/
abbrev Decides : Phase × World σ → Prop := Stands Steady Decided Underway

section
variable {p p' : Phase × World σ}

theorem decides_of_idle {act : Act} (h : act.idle = true) : act.decides = false := by
  cases act <;> first | rfl | cases h

theorem Move.choosing (hm : Move E p p') : Choosing p p' := by
  have kept : ∀ {w' : World σ} {c : Core}, w'.hand.core = c → c.choices = p.2.hand.choices →
      w'.hand.choices = p.2.hand.choices := fun hc h => (congrArg Core.choices hc).trans h
  have apart : ∀ {φ : Phase} {w' : World σ} (new : List Act), w'.acts = new ++ p.2.acts →
      (∀ act ∈ new, act.decides = false) → w'.hand.choices = p.2.hand.choices →
      Choosing p (φ, w') := fun _ ht hn hc => .apart ht hn hc
  have still : ∀ {φ : Phase} {w' : World σ}, w'.acts = p.2.acts →
      w'.hand.choices = p.2.hand.choices → Choosing p (φ, w') :=
    fun ht hc => apart [] ht (fun _ h => by cases h) hc
  cases hm with
  | check hb _ hp =>
      exact .begun ⟨hb, acts_of_frame hp.frame, hp.docket, hp.kern⟩ (kept hp.hand rfl)
  | recollect h => exact .again rfl rfl h rfl
  | choose hn hp =>
      exact .asks (acts_of_frame hp.frame) rfl hn (congrArg Core.choices hp.hand) hp.kern
  | quiet hq => exact still (acts_of_frame hq.frame) (kept hq.hand rfl)
  | amend hc => exact still rfl (kept hc rfl)
  | remark a hi =>
      refine apart [a] rfl (fun act hact => ?_) rfl
      rw [List.mem_singleton.mp hact]
      exact decides_of_idle hi
  | transit _ _ _ hp =>
      exact apart _ (acts_of_frame hp.frame) (fun act hact => decides_of_idle (of_mem_turned hact).2)
        (kept hp.hand rfl)
  | request _ hp | mark _ _ _ hp | pop hp =>
      exact still (acts_of_frame hp.frame) (kept hp.hand rfl)
  | handOff hp => exact apart [_] (acts_of_frame hp.frame) (by simp [Act.decides]) (kept hp.hand rfl)
  | fired hp =>
      refine apart _ (acts_of_frame hp.frame) (fun act hact => ?_) (kept hp.hand rfl)
      obtain ⟨b, -, rfl⟩ := List.mem_map.mp hact
      rfl
  | rerecord _ hr => exact apart [_] rfl (by simp [Act.decides]) (kept hr rfl)
  | reload _ hk => exact still rfl (kept (InstanceRecord.core_of_kern hk) rfl)
  | skip | finish | unmake | undo | pass => exact apart [_] rfl (by simp [Act.decides]) rfl
  | start => exact apart [_, _] rfl (by simp [Act.decides]) rfl
  | reserve | reserved | closeGap | depart | fail | forget | reenter | release | released =>
      exact still rfl rfl

theorem Decided.kern {acts : List Act} {r r' : InstanceRecord} (hk : r'.kern = r.kern)
    (h : Decided acts r) : Decided acts r' := by
  have hc := InstanceRecord.core_of_kern hk
  have hst : r'.state = r.state := congrArg Core.state hc
  have hid : r'.id = r.id := congrArg Core.id hc
  have hch : r'.choices = r.choices := congrArg Core.choices hc
  rw [Decided, hst, hid, hch]
  exact h

/-- What is walked was checked. -/
theorem Decides.stored (h : Decides p) (hφ : p.1 = .walking) (leaf : Nat) :
    p.2.hand.choices.get leaf = taken p.2.hand.id leaf p.2.acts := by
  refine (h.hand.resolve_left fun hu => ?_) leaf
  have hs := h.phase.walking (by rw [hφ]; rfl)
  exact absurd (hs.symm.trans hu) nofun

theorem Decides.told_move (hm : Move E p p') (h : Decides p) : Steady p'.2.acts := by
  cases hm.choosing with
  | begun hb =>
      rw [hb.acts]
      exact h.told
  | again ht hφ hg =>
      rw [ht]
      exact ⟨(h.stored hφ _).symm.trans hg, h.told⟩
  | asks ht hφ hg =>
      rw [ht]
      exact ⟨(h.stored hφ _).symm.trans hg, h.told⟩
  | apart ht hn =>
      rw [ht]
      exact h.told.grow hn

/-- Taken from where it is stored, an arm is the one that was. -/
theorem taken_again {id : String} {leaf n i : Nat} {vars : Vars} {c : Bool} {acts : List Act}
    (h : taken id n acts = some c) :
    taken id leaf (.chose id n i vars none c :: acts) = taken id leaf acts := by
  by_cases hn : n = leaf
  · rw [← hn, h]
    exact if_pos ⟨rfl, rfl⟩
  · exact if_neg fun hj => hn hj.2

/-- A record not yet checked is begun, or left so. -/
theorem Decides.unchecked (hm : Move E p p') (h : Decides p) (hu : p.2.hand.state = .unchecked) :
    Begun p.2 p'.2 ∨ p'.2.hand.state = .unchecked := by
  rcases hm.docketed with ⟨-, hb⟩ | hd
  · exact .inl hb
  · rcases hd.checked with he | he | he
    · exact .inr (he.trans hu)
    · exact absurd ((h.phase.asking (.inr (.inr he))).symm.trans hu) nofun
    · exact absurd hu he

theorem Decides.hand_move (hm : Move E p p') (h : Decides p) : Decided p'.2.acts p'.2.hand := by
  have begun : Begun p.2 p'.2 → p'.2.hand.choices = p.2.hand.choices → Decided p'.2.acts p'.2.hand := by
    intro hb hc
    refine .inr fun leaf => ?_
    rw [hc, hb.blank.choices, hb.acts, hm.id]
    exact (if_pos rfl).symm
  cases hm.choosing with
  | begun hb hc => exact begun hb hc
  | again ht hφ hg hc =>
      refine .inr fun leaf => ?_
      rw [hm.id, ht, hc, h.stored hφ]
      exact (taken_again ((h.stored hφ _).symm.trans hg)).symm
  | @asks n _ _ _ c ht hφ _ hc =>
      refine .inr fun leaf => ?_
      rw [hm.id, ht, hc, Assoc.get_insert]
      by_cases hn : leaf = n
      · rw [if_pos hn]
        exact (if_pos ⟨rfl, hn.symm⟩).symm
      · rw [if_neg hn, h.stored hφ]
        exact (if_neg fun hj => hn hj.2.symm).symm
  | apart ht hn hc =>
      by_cases hu : p.2.hand.state = .unchecked
      · rcases h.unchecked hm hu with hb | hu'
        · exact begun hb hc
        · exact .inl hu'
      · refine .inr fun leaf => ?_
        rw [hm.id, ht, hc, h.hand.resolve_left hu leaf]
        exact (taken_grow fun act hact hd => absurd ((hn act hact).symm.trans hd) nofun).symm

theorem Decides.own_move (hm : Move E p p') (h : Decides p) {r : InstanceRecord}
    (hr : p'.2.instances.read p'.2.hand.id = some r) : Decided p'.2.acts r := by
  have hhand := h.hand_move hm
  rw [hm.id] at hr
  have put : (p'.2.instances.read p.2.hand.id).map InstanceRecord.kern = some p'.2.hand.kern →
      Decided p'.2.acts r := by
    intro hk
    rw [hr] at hk
    exact hhand.kern (Option.some.inj hk)
  rcases hm.docketed with ⟨-, hb⟩ | hd
  · exact put hb.own
  rcases hd.own with he | hk
  · have hold := h.own r (he ▸ hr)
    have hid : r.id = p.2.hand.id := Store.id_of_read hr
    cases hm.choosing with
    | begun hb => exact put hb.own
    | again ht hφ hg =>
        refine hold.imp_right fun hst leaf => ?_
        rw [ht, hst leaf, hid]
        exact (taken_again ((h.stored hφ _).symm.trans hg)).symm
    | asks _ _ _ _ ho => exact put ho
    | apart ht hn =>
        refine hold.imp_right fun hst leaf => ?_
        rw [ht, hst leaf]
        exact (taken_grow fun act hact hd => absurd ((hn act hact).symm.trans hd) nofun).symm
  · exact put hk

theorem Decides.move (hm : Move E p p') (h : Decides p) : Decides p' where
  told := h.told_move hm
  others := h.others_move hm fun h hn => h.imp_right fun hst leaf =>
    (hst leaf).trans (taken_grow fun act hact _ => hn act hact).symm
  own _ := h.own_move hm
  hand := h.hand_move hm
  phase := hm.underway h.phase

end

/-! ## Runs -/

/-- The invariant of all runs. -/
def decidedInvariant (E : Setting σ) : Invariant E (fun _ => True) fun _ => True :=
  .ofRecords underway_resting (fun _ _ _ _ _ _ => ⟨.inl rfl, underway_beginning _⟩) Decides.move

theorem decided {w : World σ} (h : Run E w) : StandsStored Steady Decided w :=
  (decidedInvariant E).run (fun _ hw _ => standsStored_begins hw trivial) h

/-- **A `when` is decided once.**  In every run, whatever waits, resumes and crashes
lie between: where an arm is taken under a leaf number, every arm taken there since
the record was begun is the same; its guard was asked if none was; and if it was not,
the arm is the one its guard's answer named when it was. -/
theorem chosen_once {w : World σ} (h : Run E w) {id : String} {leaf i : Nat} {vars : Vars}
    {asked : Option Tri} {c : Bool} {older : List Act}
    (hs : (Act.chose id leaf i vars asked c :: older) <:+ w.acts) :
    (∀ i' vars' asked' c' oldest, Since id (.chose id leaf i' vars' asked' c') oldest older →
      c' = c ∧ asked = none) ∧
    (asked = none → ∃ i' vars' tri oldest,
      Since id (.chose id leaf i' vars' (some tri) c) oldest older) := by
  obtain ⟨ht, hst⟩ := (decided h).told.suffix hs
  refine ⟨fun i' vars' asked' c' oldest hsince => ?_, fun ha => ?_⟩
  · have heq := (hst.taken_eq hsince).symm.trans ht
    cases asked with
    | some tri => cases heq
    | none => exact ⟨Option.some.inj heq, rfl⟩
  · rw [ha] at ht
    exact hst.asked ht

-- a run on fixed inputs is not to be evaluated for what `Steady` says of it
attribute [irreducible] Steady

/-! ## A `when` in a loop -/

namespace InLoop

def site : Setting Nat := ({} : Script).setting

/-- A file for each of two rounds, where the guard holds. -/
def plan : PlanIr where
  site := smallSite ["web"]
  requester := "ops"
  plan := {
    id := "p", owner := "web", wane := some ⟨3600⟩
    probes := [⟨"ready", .target, [.run [.lit "true"] [] none], [], false, none⟩]
    body := [.repeat_ (.count 2) "i" [.when_ ⟨"ready", .yes, false⟩ none .revert [ownFile "/a-{i}"] []]] }

def walked : World Nat := (exec site (.apply plan [] {}) (smallWorld ["web"])).2

theorem run_walked : Run site walked :=
  Run.exec (.start (begins_smallWorld _) trivial) (.apply plan [] {}) rfl

/-- The arms of an instance that were not asked for. -/
def unasked (id : String) (acts : List Act) : List (Nat × Bool) :=
  acts.filterMap fun
    | .chose j n _ _ none c => if j = id then some (n, c) else none
    | _ => none

theorem chose_of_unasked {id : String} {n : Nat} {c : Bool} {acts : List Act}
    (h : (n, c) ∈ unasked id acts) :
    ∃ i vars older, (Act.chose id n i vars none c :: older) <:+ acts := by
  obtain ⟨act, hm, he⟩ := List.mem_filterMap.mp h
  obtain ⟨newer, older, hsplit⟩ := List.append_of_mem hm
  split at he
  next j n' i vars c' =>
    split at he
    next hj =>
      cases he
      subst hj
      exact ⟨i, vars, older, newer, hsplit.symm⟩
    next => cases he
  next => cases he

theorem told_walked : checkClean plan = true ∧ (1, true) ∈ unasked "p.web.00000000" walked.acts := by
  decide +kernel

/-- The second round takes the arm that was asked for in the first. -/
theorem chosen_walked : ∃ i vars older,
    (Act.chose "p.web.00000000" 1 i vars none true :: older) <:+ walked.acts ∧
      ∃ i' vars' tri oldest,
        Since "p.web.00000000" (.chose "p.web.00000000" 1 i' vars' (some tri) true) oldest older := by
  obtain ⟨i, vars, older, hs⟩ := chose_of_unasked told_walked.2
  exact ⟨i, vars, older, hs, (chosen_once run_walked hs).2 rfl⟩

end InLoop

end Rescind
