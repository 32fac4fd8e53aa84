/-
# `Rescind.Safety.Admission` — what a refused request leaves behind

`apply` writes its record in `Checked` before it asks the ledger.  When the
ledger refuses, that record stays; no event leads out of `Checked` but the
request itself, which only `apply` feeds, and `apply` refuses an id whose
record is not terminal.

Nothing is asked of what the engine talks to.  A record that is still under way when
the request is made keeps its place, and of that request nothing is said.

**Proved here.**

    a rehearsal's id is no other instance's                   (`instanceId_rehearsal_ne`)
    a record left in `Checked` stays there, in every run      (`checked_stays`)
    so the same request is never admitted again               (`refused_never_admitted`)
-/
import Rescind.Turn.Runs
import Rescind.Engine.Script

namespace Rescind

open Lib Lib.Prog

variable {σ α β : Type} (E : Setting σ)

/-! ## Ids -/

theorem toList_instanceId (ir : PlanIr) (params : Vars) :
    (instanceId E ir params false).toList =
      ir.plan.id.toList ++ ('.' :: (ir.plan.owner.toList ++ ('.' :: (E.paramsDigest params).1))) := by
  simp [instanceId]

theorem toList_instanceId_rehearsal (ir : PlanIr) (params : Vars) :
    (instanceId E ir params true).toList =
      (instanceId E ir params false).toList ++ ".rehearsal".toList := by
  simp [instanceId]

/-- The ninth character from the end. -/
def ninth (s : String) : Option Char := s.toList.reverse[8]?

theorem ninth_instanceId (ir : PlanIr) (params : Vars) :
    ninth (instanceId E ir params false) = some '.' := by
  have hlen : (E.paramsDigest params).1.reverse.length = 8 := by
    rw [List.length_reverse]
    exact (E.paramsDigest params).2
  unfold ninth
  rw [toList_instanceId]
  simp only [List.reverse_append, List.reverse_cons, List.append_assoc]
  rw [List.getElem?_append_right (by omega), hlen]
  rfl

theorem ninth_instanceId_rehearsal (ir : PlanIr) (params : Vars) :
    ninth (instanceId E ir params true) = some 'r' := by
  unfold ninth
  rw [toList_instanceId_rehearsal, List.reverse_append,
    List.getElem?_append_left (by simp)]
  decide

/-- A rehearsal's id is no other instance's. -/
theorem instanceId_rehearsal_ne (ir ir' : PlanIr) (params params' : Vars) :
    instanceId E ir params true ≠ instanceId E ir' params' false := by
  intro h
  have h' := congrArg ninth h
  rw [ninth_instanceId, ninth_instanceId_rehearsal] at h'
  simp at h'

/-! ## A record left in `Checked` -/

/-- The record under this id is in `Checked`. -/
def CheckedAt (id : String) (w : World σ) : Prop :=
  ∃ r, w.instances.read id = some r ∧ r.state = .checked

theorem transition_checked {ctx : Ctx} {s : State} {ev : Event}
    (h : transition ctx .checked ev = .to s) : ev = .request := by
  cases edge_of_transition h with
  | request => rfl
  | cancel hs | commitVerb _ hs | recant hs | undoClean hs | undoFailed hs | driftOnDefer hs
  | abandon hs => simp at hs
  | waneElapses _ _ hs => cases hs

/-- Inside a turn: the record of another id, or this one at rest. -/
def CheckedHeld (id : String) (p : Phase × World σ) : Prop :=
  (p.2.hand.id ≠ id ∧ CheckedAt id p.2) ∨
    (p.2.hand.id = id ∧ p.1 = .resting ∧ p.2.hand.state = .checked ∧ Synced p.2)

theorem CheckedAt.congr {id : String} {w w' : World σ} (h : CheckedAt id w)
    (hr : w'.instances.read id = w.instances.read id) : CheckedAt id w' := by
  unfold CheckedAt
  rw [hr]
  exact h

theorem CheckedAt.of_synced {w : World σ} (hs : w.hand.state = .checked) (hy : Synced w) :
    CheckedAt w.hand.id w := by
  obtain ⟨r, hr, hc⟩ := Option.map_eq_some_iff.mp hy
  exact ⟨r, hr, (congrArg Core.state hc).trans hs⟩

variable {E} in
theorem CheckedHeld.move {id : String} {p p' : Phase × World σ} (hm : Move E p p')
    (h : CheckedHeld id p) : CheckedHeld id p' := by
  rcases h with ⟨hne, hc⟩ | ⟨hid, hφ, hs, hy⟩
  · exact .inl ⟨by rw [hm.id]; exact hne, hc.congr (hm.others id (Ne.symm hne))⟩
  · refine .inr ⟨by rw [hm.id]; exact hid, ?_⟩
    cases hm with
    | quiet hq => exact ⟨hφ, hq.state.trans hs, hq.synced hy⟩
    | amend hc => exact ⟨hφ, (calm_hand hc).state.trans hs, (calm_hand hc).synced hy⟩
    | remark => exact ⟨hφ, hs, hy⟩
    | transit hf ht =>
        simp only at hφ hs
        subst hφ
        rw [hs] at ht
        rw [transition_checked ht] at hf
        cases hf
    | rerecord hr =>
        simp only at hφ hs
        subst hφ
        rcases hr with hr | hr
        · cases hr
        · rw [hr.2.1] at hs
          cases hs
    | reenter hr =>
        simp only at hs
        rw [hs] at hr
        rcases hr with hr | hr <;> cases hr
    | fired hp => exact ⟨rfl, (congrArg Core.state hp.hand).trans hs, hp.synced rfl⟩
    | reload hr hc =>
        exact ⟨rfl, (congrArg Core.state (InstanceRecord.core_of_kern hc)).trans hs, synced_of_read hr⟩
    | finish hf =>
        simp only at hφ
        subst hφ
        rcases hf with hf | hf
        · cases hf
        · cases hf.1
    | check | reserve | reserved | request | closeGap | depart | skip | start | mark | handOff | recollect
    | choose | pass | fail | forget | unmake | undo | pop | release | released => cases hφ

/-- A record in `Checked` stays there, unless it is a rehearsal's. -/
def checkedInvariant (id : String) (hid : ∀ ir params, instanceId E ir params true ≠ id) :
    Invariant E (fun _ => True) fun _ => True where
  Kept := CheckedAt id
  Held := CheckedHeld id
  between hb h := h.congr (hb.records id)
  condition _ _ := trivial
  take {w r} h hr := by
    by_cases hi : r.id = id
    · obtain ⟨r', hr', hs⟩ := h
      rw [hi, hr'] at hr
      obtain rfl := Option.some.inj hr
      refine .inr ⟨hi, rfl, hs, synced_of_read ?_⟩
      rw [hi]
      exact hr'
    · exact .inl ⟨hi, h⟩
  fresh {w ir params opts nonce} h _ _ hu := by
    refine .inl ⟨fun hi => ?_, h⟩
    obtain ⟨r, hr, hs⟩ := h
    rcases hu with hu | hu
    · refine hid (underMode ir opts.mode) params ?_
      rw [← hi]
      show instanceId E (underMode ir opts.mode) params true =
        instanceId E (underMode ir opts.mode) params opts.rehearsal
      rw [show opts.rehearsal = true from hu]
    · have ht := hu r (by rw [← hi] at hr; exact hr)
      rw [hs] at ht
      cases ht
  move hm h := h.move hm
  leave {w} h := by
    rcases h with ⟨-, hc⟩ | ⟨hid, -, hs, hy⟩
    · exact hc
    · exact hid ▸ CheckedAt.of_synced hs hy
  drop {φ w w'} h hd _ := by
    rcases h with ⟨-, hc⟩ | ⟨hid, -, hs, hy⟩
    · exact hc.congr (hd.records id)
    · exact (hid ▸ CheckedAt.of_synced hs hy : CheckedAt id w).congr (hd.records id)

theorem checked_stays {id : String} (hid : ∀ ir params, instanceId E ir params true ≠ id)
    {w w' : World σ} (h : CheckedAt id w) (hl : Later E w w') : CheckedAt id w' :=
  (checkedInvariant E id hid).run (fun w₀ (hw : w₀ = w) _ => hw ▸ h) hl

/-! ## Where a ledger refusal comes from -/

/-- A refusal of the ledger's. -/
def EngineError.isLedger : EngineError → Bool
  | .ledger _ _ => true
  | _ => false

/-- An operation that never ends in a refusal of the ledger's. -/
def Spares (m : Eng σ α) : Prop := ∀ w e, (m w).1 = .err e → e.isLedger = false

section
variable {E}

theorem Spares.bind {m : Eng σ α} {f : α → Eng σ β} (hm : Spares m) (hf : ∀ a, Spares (f a)) :
    Spares (m >>= f) := by
  intro w e he
  have h := hm w
  rw [bind_eq] at he
  match hs : m w with
  | (.ok a, w') =>
      rw [hs] at he
      exact hf a w' e he
  | (.err e', w') =>
      rw [hs] at he h
      cases he
      exact h e rfl
  | (.died, w') =>
      rw [hs] at he
      cases he

theorem Spares.ok {m : Eng σ α} (h : ∀ w, ∃ a, (m w).1 = .ok a) : Spares m := by
  intro w e he
  obtain ⟨a, ha⟩ := h w
  rw [ha] at he
  cases he

theorem Spares.pure (a : α) : Spares (Pure.pure a : Eng σ α) := Spares.ok fun _ => ⟨a, rfl⟩

theorem Spares.edit (f : World σ → World σ) : Spares (Prog.edit f : Eng σ Unit) :=
  Spares.ok fun _ => ⟨(), rfl⟩

theorem Spares.hand : Spares (hand : Eng σ InstanceRecord) := Spares.ok fun w => ⟨w.hand, rfl⟩

theorem Spares.fail {e : EngineError} (h : e.isLedger = false) :
    Spares (Prog.fail e : Eng σ α) := by
  intro w e' he
  cases he
  exact h

theorem Spares.ask (q : Query) : Spares (ask E q) := by
  intro w e he
  unfold Rescind.ask at he
  split at he <;> cases he

theorem Spares.writeOk (s : Slot) : Spares (writeOk E s) := by
  refine Spares.bind (Spares.ask _) fun x => ?_
  cases x with
  | ok u => exact Spares.pure ()
  | error e => exact Spares.fail rfl

theorem Spares.keepEntry (e : Entry) : Spares (keepEntry E e) := by
  refine Spares.bind (Spares.ask _) fun x => ?_
  cases x with
  | error why => exact Spares.fail rfl
  | ok u =>
      refine Spares.bind (Spares.ask _) fun y => ?_
      cases y with
      | error why => exact Spares.fail rfl
      | ok u => exact Spares.edit _

theorem Spares.log (j : J) : Spares (log E j) := by
  refine Spares.bind Spares.hand fun r => Spares.bind (Spares.ask _) fun _ =>
    Spares.bind (Spares.keepEntry _) fun _ => Spares.bind (Spares.ask _) fun refusals => ?_
  split
  · exact Spares.pure ()
  · exact Spares.bind (Spares.keepEntry _) fun _ => Spares.bind (Spares.ask _) fun _ =>
      Spares.fail rfl

theorem Spares.step (ev : Event) : Spares (step E ev) := by
  refine Spares.bind Spares.hand fun r => ?_
  split
  · exact Spares.bind (Spares.edit _) fun _ => Spares.bind (Spares.bind Spares.hand fun _ =>
      Spares.bind (Spares.writeOk _) fun _ => Spares.edit _) fun _ => Spares.edit _
  · exact Spares.pure ()
  · exact Spares.fail rfl
  · exact Spares.fail rfl

end

/-! ## The refused request -/

/-- The id of a request. -/
def requestId (ir : PlanIr) (params : Vars) (opts : ApplyOptions) : String :=
  instanceId E (underMode ir opts.mode) params opts.rehearsal

/-- A ledger refuses a request: a live instance holds an overlapping umbra or
the same exclusivity class. -/
def LedgerRefuses (ir : PlanIr) (params : Vars) (opts : ApplyOptions) (l : Ledger) : Prop :=
  ∃ e, reserveAll (blankRecord E (underMode ir opts.mode) params opts "")
    (umbras (underMode ir opts.mode).plan) l = .error e

theorem reserveAll_congr {r r' : InstanceRecord} (hid : r.id = r'.id) (hp : r.plan = r'.plan)
    (hr : r.rehearsal = r'.rehearsal) (us : Assoc String (List Fact)) (l : Ledger) :
    reserveAll r us l = reserveAll r' us l := by
  induction us generalizing l with
  | nil => rfl
  | cons u us ih =>
      unfold reserveAll
      rw [hid, hp, hr]
      exact congrArg _ (funext ih)

/-- What a request the ledger refused leaves behind. -/
structure LeftChecked (id : String) (w w' : World σ) : Prop where
  checked : CheckedAt id w'
  others : ∀ j, j ≠ id → w'.instances.read j = w.instances.read j
  ledger : w'.ledger = w.ledger
  stored : w'.stored = w.stored

/-- What holds after a refusal of the ledger's. -/
def AfterRefusal (P : World σ → Prop) (x : Res EngineError α) (w' : World σ) : Prop :=
  ∀ e, x = .err e → e.isLedger = true → P w'

/-- What holds after a return, which no refusal of the ledger's is. -/
def Unrefused (P : World σ → Prop) (x : Res EngineError α) (w' : World σ) : Prop :=
  match x with
  | .ok _ => P w'
  | .err e => e.isLedger = false
  | .died => True

theorem Spares.unrefused {P : World σ → Prop} {m : Eng σ α} {w : World σ} (hs : Spares m)
    (h : Post m (fun x w' => ∀ a, x = .ok a → P w') w) : Post m (Unrefused P) w := by
  have he := hs w
  unfold Post at h ⊢
  match hm : m w with
  | (.ok a, w') => rw [hm] at h; exact h a rfl
  | (.err e, w') => rw [hm] at he; exact he e rfl
  | (.died, w') => trivial

theorem Unrefused.keeps {R : World σ → World σ → Prop} {X F : Prop} {m : Eng σ α}
    (hk : Keeps R X F m) (hs : Spares m) (w : World σ) : Post m (Unrefused (R w)) w :=
  hs.unrefused fun _ _ => (hk w).1

theorem AfterRefusal.bind {P Q : World σ → Prop} {m : Eng σ α} {f : α → Eng σ β} {w : World σ}
    (hm : Post m (Unrefused Q) w) (hf : ∀ a w', Q w' → Post (f a) (AfterRefusal P) w') :
    Post (m >>= f) (AfterRefusal P) w := by
  refine Post.bind hm hf (fun e w' h e' he hl => ?_) fun _ _ e he => nomatch he
  cases he
  rw [show e.isLedger = false from h] at hl
  cases hl

/-- A free id is not refused. -/
theorem post_refuseTaken {id : String} {rehearsal : Bool} {w : World σ}
    (hfree : ∀ d, w.instances.read id = some d → terminal d.state = true) :
    Post (refuseTaken E id rehearsal) (Unrefused (Still w)) w := by
  unfold refuseTaken
  split
  · exact Still.refl w
  · have hs : Spares (readOk E (.instance_ id)) := by
      refine Spares.bind (Spares.ask _) fun x => ?_
      cases x with
      | ok u => exact Spares.pure ()
      | error e => exact Spares.fail rfl
    unfold readInstance
    rw [bind_assoc]
    refine Post.bind (Unrefused.keeps (keeps_readOk E (R := Still) _) hs w) (fun _ w₁ h₁ => ?_)
      (fun _ _ h => h) fun _ h => h
    refine Post.readBind ?_
    split
    next r hr =>
      rw [show w₁.instances = w.instances from h₁.instances] at hr
      rw [hfree r hr]
      exact h₁
    · exact h₁

/-- The request of a record written in `Checked`, where the ledger refuses. -/
theorem post_reserve {id : String} {w w₁ : World σ} (h : LeftChecked id w w₁)
    (hr : ∃ e, reserveAll w₁.hand (umbras w₁.hand.plan) w₁.ledger = .error e) :
    Post (reserve E) (fun x w' => (∀ u, x ≠ .ok u) ∧ AfterRefusal (LeftChecked id w) x w') w₁ := by
  obtain ⟨e, he⟩ := hr
  unfold reserve
  refine Post.readBind (g := World.hand) (Post.readBind (g := World.ledger) ?_)
  rw [he]
  exact ⟨fun _ => nofun, fun _ _ _ => h⟩

/-- The first write of a fresh record. -/
theorem post_check {w : World σ} (hr : w.hand.state = .unchecked) :
    Post (step E .check) (Unrefused fun w' => Written (w.inState .checked) w') w := by
  refine (Spares.step .check).unrefused (post_step E (fun s w' ht hw _ _ => ?_)
    (fun s x w' _ _ hne _ u hu => absurd hu (hne u)) (fun ht => ?_) fun e h _ => ?_)
  · rw [hr, transition_check] at ht
    cases ht
    rw [turned_eq_nil (s := .checked) (by rw [hr]; exact nofun) (by rw [hr]; exact nofun) nofun]
    exact ⟨hw.hand, hw.instances, hw.frame⟩
  · rw [hr, transition_check] at ht
    cases ht
  · exact absurd (transition_check _) (hr ▸ h .checked)

/-- A refusal at the reservation leaves the record in `Checked`. -/
theorem post_apply {ir : PlanIr} {params : Vars} {opts : ApplyOptions} {w : World σ}
    (hfree : ∀ d, w.instances.read (requestId E ir params opts) = some d → terminal d.state = true)
    (hl : LedgerRefuses E ir params opts w.ledger) :
    Post (apply E ir params opts) (AfterRefusal (LeftChecked (requestId E ir params opts) w)) w := by
  unfold apply
  dsimp only
  by_cases hc : checkClean (underMode ir opts.mode) = true
  · rw [if_neg (by rw [hc]; exact nofun)]
    refine AfterRefusal.bind (Unrefused.keeps (keeps_ask E (R := Still) (X := True) _)
      (Spares.ask _) _) fun now w₁ h₁ => AfterRefusal.bind (Unrefused.keeps
      (keeps_ask E (R := Still) (X := True) _) (Spares.ask _) _) fun nonce w₂ h₂ => ?_
    have h₁₂ : Still w w₂ := h₁.trans h₂
    refine AfterRefusal.bind (post_refuseTaken E (by rw [h₁₂.instances]; exact hfree))
      fun _ w₃ h₃ => ?_
    have hs : Still w w₃ := h₁₂.trans h₃
    unfold begin_
    rw [bind_assoc, bind_assoc, bind_assoc]
    -- from here on the fresh record is in hand
    refine AfterRefusal.bind (m := takeUp _) (Q := fun w₄ => w₄ = { w₃ with
      hand := blankRecord E (underMode ir opts.mode) params opts nonce }) rfl fun _ w₄ h₄ => ?_
    subst h₄
    refine AfterRefusal.bind (post_check E rfl) fun _ w₅ h₅ => AfterRefusal.bind (m := note _)
      (Q := fun w₆ => w₆ = w₅.noted (.fresh (requestId E ir params opts))) rfl fun _ w₆ h₆ => ?_
    subst h₆
    refine AfterRefusal.bind (Unrefused.keeps (keeps_log E (R := Still) _) (Spares.log _) _)
      fun _ w₇ h₇ => ?_
    have hi : w₇.instances = w.instances.write w₅.hand := by
      rw [h₇.instances]
      show w₅.instances = _
      rw [h₅.instances, h₅.hand]
      show w₃.instances.write _ = _
      rw [hs.instances]
    have hh : w₅.hand.id = requestId E ir params opts := by rw [h₅.hand]; rfl
    have hled : w₇.ledger = w.ledger := by
      rw [show w₇.ledger = w₅.ledger from congrArg Frame.ledger h₇.frame,
        show w₅.ledger = w₃.ledger from congrArg Frame.ledger h₅.frame]
      exact congrArg Frame.ledger hs.frame
    have hsto : w₇.stored = w.stored := by
      rw [show w₇.stored = w₅.stored from congrArg Frame.stored h₇.frame,
        show w₅.stored = w₃.stored from congrArg Frame.stored h₅.frame]
      exact congrArg Frame.stored hs.frame
    have left : LeftChecked (requestId E ir params opts) w w₇ := by
      refine ⟨⟨w₅.hand, ?_, by rw [h₅.hand]⟩, fun j hj => ?_, hled, hsto⟩
      · rw [hi, ← hh]
        simp
      · rw [hi, Store.read_write_ne _ _ (by rw [hh]; exact hj)]
    have hw₇ : w₇.hand = w₅.hand := h₇.hand
    have hrefuse : ∃ e, reserveAll w₇.hand (umbras w₇.hand.plan) w₇.ledger = .error e := by
      obtain ⟨e, he⟩ := hl
      refine ⟨e, ?_⟩
      rw [hw₇, hled, h₅.hand, ← he]
      refine reserveAll_congr ?_ ?_ ?_ _ _ <;> rfl
    unfold request
    rw [Prog.bind_assoc]
    refine Post.bind (post_reserve E left hrefuse) (fun u _ h => absurd rfl (h.1 u)) ?_
      fun _ _ e he => nomatch he
    intro e w' h e' he hle
    cases he
    exact h.2 e rfl hle
  · rw [if_pos (by simpa using hc)]
    intro e he hle
    cases he
    cases hle

/-- A rehearsal is admitted by every ledger. -/
theorem reserveAll_rehearsal {r : InstanceRecord} (hr : r.rehearsal = true)
    (us : Assoc String (List Fact)) (l : Ledger) : reserveAll r us l = .ok l := by
  induction us with
  | nil => rfl
  | cons u us ih =>
      unfold reserveAll
      simp only [Ledger.request, hr, if_true]
      exact ih

theorem LedgerRefuses.of_isNone {ir : PlanIr} {params : Vars} {opts : ApplyOptions} {l : Ledger}
    (h : (reserveAll (blankRecord E (underMode ir opts.mode) params opts "")
      (umbras (underMode ir opts.mode).plan) l).toOption.isNone = true) :
    LedgerRefuses E ir params opts l := by
  unfold LedgerRefuses
  cases hr : reserveAll (blankRecord E (underMode ir opts.mode) params opts "")
      (umbras (underMode ir opts.mode).plan) l with
  | error e => exact ⟨e, rfl⟩
  | ok l' =>
      rw [hr] at h
      cases h

theorem LedgerRefuses.notRehearsal {ir : PlanIr} {params : Vars} {opts : ApplyOptions} {l : Ledger}
    (hl : LedgerRefuses E ir params opts l) : opts.rehearsal = false := by
  obtain ⟨e, he⟩ := hl
  by_contra hr
  rw [reserveAll_rehearsal (by simpa [blankRecord] using hr)] at he
  cases he

/-- A taken id is refused. -/
theorem apply_taken {ir : PlanIr} {params : Vars} {opts : ApplyOptions} {w : World σ}
    (hr : opts.rehearsal = false) (h : CheckedAt (requestId E ir params opts) w) :
    Post (apply E ir params opts) (fun x _ => ∀ o, x ≠ .ok o) w := by
  unfold apply
  dsimp only
  by_cases hc : checkClean (underMode ir opts.mode) = true
  · rw [if_neg (by rw [hc]; exact nofun)]
    refine Post.keepsBind (R := Still) (keeps_ask E (X := True) _) (fun now w₁ h₁ => ?_)
      (fun _ _ _ _ => nofun) fun _ _ _ => nofun
    refine Post.keepsBind (R := Still) (keeps_ask E (X := True) _) (fun nonce w₂ h₂ => ?_)
      (fun _ _ _ _ => nofun) fun _ _ _ => nofun
    have hk : CheckedAt (requestId E ir params opts) w₂ := h.congr (by rw [(h₁.trans h₂).instances])
    refine Post.bind (P := fun x _ => ∀ u, x ≠ .ok u) ?_ (fun u _ hu => absurd rfl (hu u))
      (fun _ _ _ _ => nofun) fun _ _ _ => nofun
    unfold refuseTaken
    rw [if_neg (by rw [hr]; exact nofun)]
    unfold readInstance
    rw [Prog.bind_assoc]
    refine Post.keepsBind (R := Still) (keeps_readOk E _) (fun _ w₃ h₃ => ?_)
      (fun _ _ _ _ => nofun) fun _ _ _ => nofun
    obtain ⟨r, hread, hst⟩ := hk.congr (congrArg (Store.read · _) h₃.instances)
    refine Post.readBind ?_
    rw [show w₃.instances.read (instanceId E (underMode ir opts.mode) params opts.rehearsal) = some r
      from hread]
    simp only [hst]
    exact fun _ => nofun
  · rw [if_pos (by simpa using hc)]
    exact fun _ => nofun

/-- **The same request is never admitted again.**  Once the ledger refused it,
every other record and the ledger are as they were; but whatever happens later,
`apply` with the same arguments does not return an outcome. -/
theorem refused_never_admitted {ir : PlanIr} {params : Vars} {opts : ApplyOptions} {w w₁ : World σ}
    {e : EngineError} (hl : LedgerRefuses E ir params opts w.ledger)
    (hfree : ∀ d, w.instances.read (requestId E ir params opts) = some d → terminal d.state = true)
    (hx : exec E (.apply ir params opts) w = (.err e, w₁)) (he : e.isLedger = true) :
    (∀ j, j ≠ requestId E ir params opts → w₁.instances.read j = w.instances.read j) ∧
      w₁.ledger = w.ledger ∧ w₁.stored = w.stored ∧
      ∀ w₂, Later E w₁ w₂ → ∀ o w₃, exec E (.apply ir params opts) w₂ ≠ (.ok o, w₃) := by
  have hr := hl.notRehearsal
  have hid : ∀ ir' params', instanceId E ir' params' true ≠ requestId E ir params opts := by
    intro ir' params'
    unfold requestId
    rw [hr]
    exact instanceId_rehearsal_ne E _ _ _ _
  have hpost : Post (exec E (.apply ir params opts))
      (AfterRefusal (LeftChecked (requestId E ir params opts) w)) w := by
    refine Post.bind (post_apply E hfree hl) (fun _ _ _ e he => nomatch he)
      (fun e w' h e' he' => ?_) fun _ _ e he => nomatch he
    cases he'
    exact h e rfl
  unfold Post at hpost
  rw [hx] at hpost
  have left := hpost e rfl he
  refine ⟨left.others, left.ledger, left.stored, fun w₂ hlater o w₃ ho => ?_⟩
  have hk := checked_stays E hid left.checked hlater
  have hne : Post (exec E (.apply ir params opts)) (fun x _ => ∀ o, x ≠ .ok o) w₂ :=
    Post.bind (apply_taken E hr hk) (fun o _ h => absurd rfl (h o)) (fun _ _ _ _ => nofun)
      fun _ _ _ => nofun
  unfold Post at hne
  rw [ho] at hne
  exact hne o rfl

/-! ## Two plans for one file -/

namespace TwoPlans

abbrev site : Setting Nat := ({} : Script).setting

def first : PlanIr := smallPlan "first" "web" [ownFile "/etc/motd"]

def second : PlanIr := smallPlan "second" "web" [ownFile "/etc/motd"]

/-- The first plan is applied, … -/
def holding : World Nat := (exec site (.apply first [] {}) (smallWorld ["web"])).2

/-- … the second is refused, … -/
def refused : World Nat := (exec site (.apply second [] {}) holding).2

/-- … and the first is recanted. -/
def released : World Nat := (exec site (.recant "first.web.00000000" []) refused).2

theorem run_holding : Run site holding :=
  Run.exec (.start (begins_smallWorld _) trivial) (.apply first [] {}) rfl

/-- The second plan is refused for the first one's reservation, with no record of its
own. -/
theorem told_refused : refused.up = true ∧
    (exec site (.apply second [] {}) holding).1 =
      .err (.ledger .r0203 "umbra overlaps first.web.00000000@web") ∧
    (reserveAll (blankRecord site (underMode second none) [] {} "")
      (umbras (underMode second none).plan) holding.ledger).toOption.isNone = true ∧
    (holding.instances.read (requestId site second [] {})).isNone = true := by decide +kernel

theorem later_released : Later site refused released :=
  (Later.refl refused).exec (.recant "first.web.00000000" []) told_refused.1

theorem second_refused : (exec site (.apply second [] {}) holding).1 =
    .err (.ledger .r0203 "umbra overlaps first.web.00000000@web") := told_refused.2.1

theorem exec_second : exec site (.apply second [] {}) holding =
    (.err (.ledger .r0203 "umbra overlaps first.web.00000000@web"), refused) := by
  rw [← second_refused]
  unfold refused
  exact Prod.mk.eta.symm

theorem ledgerRefuses_second : LedgerRefuses site second [] {} holding.ledger :=
  .of_isNone site told_refused.2.2.1

/-- Nothing is reserved after the recant, and the second plan is refused for its own
record. -/
theorem told_released :
    released.ledger.held.isEmpty = true ∧ released.stored.held.isEmpty = true ∧
      (exec site (.apply second [] {}) released).1 =
        .err (.ledger .r0101 "instance second.web.00000000 is already Checked") := by
  decide +kernel

/-- The conflicting instance has released its footprint, and the same request
is refused because of the record the first refusal left. -/
theorem still_refused_after_release :
    Run site holding ∧
      (exec site (.apply second [] {}) holding).1 =
        .err (.ledger .r0203 "umbra overlaps first.web.00000000@web") ∧
      Later site refused released ∧
      released.ledger.held.isEmpty = true ∧ released.stored.held.isEmpty = true ∧
      (exec site (.apply second [] {}) released).1 =
        .err (.ledger .r0101 "instance second.web.00000000 is already Checked") :=
  ⟨run_holding, second_refused, later_released, told_released⟩

theorem free_second (d : InstanceRecord)
    (hd : holding.instances.read (requestId site second [] {}) = some d) :
    terminal d.state = true := by
  have h := told_refused.2.2.2
  rw [hd] at h
  cases h

theorem never_admitted_after_refusal :
    LedgerRefuses site second [] {} holding.ledger ∧
      ∀ o w₃, exec site (.apply second [] {}) released ≠ (.ok o, w₃) :=
  ⟨ledgerRefuses_second, (refused_never_admitted site ledgerRefuses_second free_second
    exec_second rfl).2.2.2 released later_released⟩

end TwoPlans

end Rescind
