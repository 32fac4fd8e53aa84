/-
# `Rescind.Turn.Seals` — what is counted was verified

A proof is kept with its scope and its authenticator, not with the digest it was
verified for.  That the digest is still the request's is an invariant: the
digest of a record in hand changes only while its request is being made, when it
has no proofs, and every proof falls with a changed host contract.  So a record
is `Sealed` by its history, and what is counted at a gate was verified for the
digest it is counted for (`Audited`).

**Proved here.**

    what else a move tells than it is a remark              (`Move.telling`)
    every move keeps records sealed and counts audited      (`Certified.move`)
    so in every run                                         (`audited`)
-/
import Rescind.Turn.Chronicle

namespace Rescind

open Lib Lib.Prog

variable {σ : Type} {E : Setting σ}

/-! ## Remarks -/

/-- Entries that are noted besides the moves, never by one. -/
def Act.remarked : Act → Bool
  | .ahead _ _ | .found _ _ | .woke _ _ _ | .proved _ _ _ _ | .counted _ _ _ _ | .froze _ _
  | .compared _ _ _ | .fell _ | .acked _ _ _ | .installed _ _ _ | .armed _ _ _ _ _ => true
  | _ => false

section
variable {p p' : Phase × World σ}

theorem remarked_of_mem_turned {r : InstanceRecord} {ev : Event} {s : State} {act : Act}
    (h : act ∈ turned r ev s) : act.remarked = false := by
  simp only [turned, List.mem_append] at h
  rcases h with (h | h) | h <;> split at h <;> simp at h <;> subst h <;> rfl

/-- A move is a remark, or tells nothing that only a remark tells. -/
theorem Move.telling (hm : Move E p p') :
    (∃ φ w a, p = (φ, w) ∧ p' = (φ, w.noted a) ∧ a.inst = w.hand.id ∧ Permits E φ w a) ∨
      ∃ new, p'.2.acts = new ++ p.2.acts ∧ ∀ act ∈ new, act.remarked = false := by
  have none_ : ∀ {w' : World σ}, w'.acts = p.2.acts → ∃ new, w'.acts = new ++ p.2.acts ∧
      ∀ act ∈ new, act.remarked = false := fun h => ⟨[], h, fun _ hm => by cases hm⟩
  cases hm with
  | remark a _ hi hp => exact .inl ⟨_, _, a, rfl, rfl, hi, hp⟩
  | quiet h => exact .inr (none_ (acts_of_frame h.frame))
  | check _ _ h => exact .inr ⟨[_, _], acts_of_frame h.frame, by simp [Act.remarked]⟩
  | handOff h | choose _ h =>
      exact .inr ⟨[_], acts_of_frame h.frame, by simp [Act.remarked]⟩
  | request _ h | mark _ _ _ h | pop h => exact .inr (none_ (acts_of_frame h.frame))
  | transit _ _ _ h =>
      exact .inr ⟨_, acts_of_frame h.frame, fun _ hact => remarked_of_mem_turned hact⟩
  | fired h =>
      refine .inr ⟨_, acts_of_frame h.frame, fun act hact => ?_⟩
      obtain ⟨b, -, rfl⟩ := List.mem_map.mp hact
      rfl
  | rerecord => exact .inr ⟨[_], rfl, by simp [Act.remarked]⟩
  | skip | finish | recollect | unmake | undo | pass =>
      exact .inr ⟨[_], rfl, by simp [Act.remarked]⟩
  | start => exact .inr ⟨[_, _], rfl, by simp [Act.remarked]⟩
  | amend | reserve | reserved | closeGap | depart | fail | forget | reenter | release | released
  | reload => exact .inr (none_ rfl)

end

/-! ## Sealed records -/

/-- The proofs of a record were verified for its digest as it is now, or are for
the acknowledgement of a step that asks for none. -/
def Sealed (E : Setting σ) (acts : List Act) (r : InstanceRecord) : Prop :=
  ∀ p ∈ r.proofs, provedFor r.id p.scope p.authenticator (scopeDigest E r p.scope) acts = true ∨
    ∃ n, p.scope = .ack n ∧ ackGate r n = none

/-- What was counted is what a record of this digest holds for the scope, and at
most the proof just given. -/
def Tallied (E : Setting σ) (id : String) (scope : Scope) (aus : List String) (d : Hash) : Prop :=
  ∃ (r : InstanceRecord) (last : List String), r.id = id ∧ d = scopeDigest E r scope ∧
    aus = proofsFor r scope ++ last ∧ last.length ≤ 1

/-- What is counted is a record's, and was verified for its digest. -/
def Audited (E : Setting σ) : List Act → Prop
  | [] => True
  | .counted id scope aus d :: acts =>
      (Tallied E id scope aus d ∧ ∀ au ∈ aus, provedFor id scope au d acts = true) ∧ Audited E acts
  | _ :: acts => Audited E acts

section
variable {acts new older : List Act} {r r' : InstanceRecord} {id au : String} {scope : Scope}
  {d : Hash}

theorem Audited.counted {aus : List String} (h : Audited E acts)
    (hs : (.counted id scope aus d :: older) <:+ acts) :
    Tallied E id scope aus d ∧ ∀ au ∈ aus, provedFor id scope au d older = true := by
  induction acts with
  | nil => simp at hs
  | cons act acts ih =>
      rcases List.suffix_cons_iff.mp hs with he | hs
      · obtain ⟨rfl, rfl⟩ := List.cons.inj he
        exact h.1
      · refine ih ?_ hs
        cases act with
        | counted => exact h.2
        | _ => exact h

/-- A history goes on auditing what it did, whatever but a count is told. -/
theorem Audited.cons {act : Act} (hr : act.remarked = false) (h : Audited E acts) :
    Audited E (act :: acts) := by
  cases act with
  | counted => cases hr
  | _ => exact h

theorem Audited.grow (h : Audited E acts) (hn : ∀ act ∈ new, act.remarked = false) :
    Audited E (new ++ acts) := by
  induction new with
  | nil => exact h
  | cons act new ih =>
      exact .cons (hn act List.mem_cons_self) (ih fun a ha => hn a (List.mem_cons_of_mem _ ha))

theorem provedFor_grow (h : provedFor id scope au d acts = true) (hf : Act.fresh id ∉ new)
    (hl : Act.fell id ∉ new) : provedFor id scope au d (new ++ acts) = true := by
  induction new with
  | nil => exact h
  | cons act new ih =>
      simp only [List.mem_cons, not_or] at hf hl
      have hrest := ih hf.2 hl.2
      cases act with
      | proved j sc b x => simp [provedFor, hrest]
      | fresh j =>
          have hj : j ≠ id := fun h => hf.1 (h ▸ rfl)
          simpa [provedFor, hj] using hrest
      | fell j =>
          have hj : j ≠ id := fun h => hl.1 (h ▸ rfl)
          simpa [provedFor, hj] using hrest
      | _ => exact hrest

theorem Sealed.bare (h : r.proofs = []) : Sealed E acts r := by
  intro p hp
  rw [h] at hp
  cases hp

theorem Sealed.grow (h : Sealed E acts r) (hf : Act.fresh r.id ∉ new) (hl : Act.fell r.id ∉ new) :
    Sealed E (new ++ acts) r :=
  fun p hp => (h p hp).imp_left fun hv => provedFor_grow hv hf hl

/-- What a record's seals are of. -/
structure SameSeals (r r' : InstanceRecord) : Prop where
  identity : SameRecord r r'
  nonce : r'.docket.nonce = r.docket.nonce
  contract : r'.docket.hostContract = r.docket.hostContract
  requested : r'.docket.requestedAt = r.docket.requestedAt

theorem SameSeals.of_docket (hi : SameRecord r r') (hd : r'.docket = r.docket) : SameSeals r r' :=
  ⟨hi, congrArg Docket.nonce hd, congrArg Docket.hostContract hd, congrArg Docket.requestedAt hd⟩

theorem SameSeals.of_kern (hk : r'.kern = r.kern) : SameSeals r r' :=
  .of_docket (congrArg Core.identity (InstanceRecord.core_of_kern hk))
    (InstanceRecord.docket_of_kern hk)

theorem Sealed.congr (hs : SameSeals r r') (hp : ∀ p ∈ r'.proofs, p ∈ r.proofs)
    (h : Sealed E acts r) : Sealed E acts r' := by
  intro p hmem
  have hid : r'.id = r.id := congrArg Prod.fst hs.identity
  have hir : r'.ir = r.ir := congrArg (fun x => x.2.1) hs.identity
  rw [hid, scopeDigest_congr E hs.identity hs.nonce hs.contract hs.requested]
  refine (h p (hp p hmem)).imp_right ?_
  rintro ⟨n, hsc, hg⟩
  exact ⟨n, hsc, (ackGate_congr hir n).trans hg⟩

theorem proofs_of_docket (hd : r'.docket = r.docket) : r'.proofs = r.proofs :=
  congrArg Docket.proofs hd

theorem Sealed.kern (hk : r'.kern = r.kern) (h : Sealed E acts r) : Sealed E acts r' := by
  refine h.congr (.of_kern hk) fun p hp => ?_
  rwa [proofs_of_docket (InstanceRecord.docket_of_kern hk)] at hp

end

/-! ## Every move keeps it -/

/-- A request is being made: its proofs are all still to come. -/
def Phase.asking : Phase → Bool
  | .beginning | .requesting | .reserving | .reserved => true
  | _ => false

/-- While its request is being made the record in hand has no proofs. -/
def Bare (p : Phase × World σ) : Prop := p.1.asking = true → p.2.hand.proofs = []

/-- What is counted was verified, and every record is sealed. -/
abbrev Certified (E : Setting σ) (p : Phase × World σ) : Prop := Stands (Audited E) (Sealed E) Bare p

section
variable {p p' : Phase × World σ} {φ : Phase} {w : World σ} {d : Docket}

/-- The proofs of an amended docket are the record's, one more that is vouched
for, or none. -/
theorem Sealed.amend {r : InstanceRecord} (hi : SameRecord w.hand r) (ha : Amends E φ w r.docket)
    (hb : φ.asking = true → w.hand.proofs = []) (h : Sealed E w.acts w.hand) :
    Sealed E w.acts r := by
  have same : r.docket.nonce = w.hand.docket.nonce →
      r.docket.hostContract = w.hand.docket.hostContract →
      r.docket.requestedAt = w.hand.docket.requestedAt →
      (∀ p ∈ r.proofs, p ∈ w.hand.proofs) → Sealed E w.acts r :=
    fun hn hh hq hp => h.congr ⟨hi, hn, hh, hq⟩ hp
  have hproofs : r.proofs = r.docket.proofs := rfl
  generalize hd : r.docket = d at ha hproofs same
  cases ha with
  | attempt | clear | wait | unwait | ack | install | arm | ease =>
      exact same rfl rfl rfl (hproofs ▸ fun _ hp => hp)
  | request hφ | freeze _ hφ => exact .bare (hproofs.trans (hb (by rw [hφ]; rfl)))
  | unprove => exact .bare hproofs
  | @prove q hv =>
      have hs : SameSeals w.hand r :=
        ⟨hi, by rw [hd], by rw [hd], by rw [hd]⟩
      have hid : r.id = w.hand.id := congrArg Prod.fst hi
      have hir : r.ir = w.hand.ir := congrArg (fun x => x.2.1) hi
      intro p hp
      rw [hproofs] at hp
      rw [hid, scopeDigest_congr E hs.identity hs.nonce hs.contract hs.requested]
      have kept : provedFor w.hand.id p.scope p.authenticator (scopeDigest E w.hand p.scope)
          w.acts = true ∨ ∃ n, p.scope = .ack n ∧ ackGate w.hand n = none := by
        rcases List.mem_append.mp hp with hp | hp
        · exact h p hp
        · rw [List.mem_singleton.mp hp]
          exact hv
      refine kept.imp_right ?_
      rintro ⟨n, hsc, hg⟩
      exact ⟨n, hsc, (ackGate_congr hir n).trans hg⟩

/-- What a sealed record counts for a scope was verified for it. -/
theorem Sealed.tallies {scope : Scope} {aus : List String} (h : Sealed E w.acts w.hand)
    (ht : Tallies E w scope aus) :
    ∀ au ∈ aus, provedFor w.hand.id scope au (scopeDigest E w.hand scope) w.acts = true := by
  have kept : (∀ n, scope = .ack n → ackGate w.hand n ≠ none) →
      ∀ au ∈ proofsFor w.hand scope,
        provedFor w.hand.id scope au (scopeDigest E w.hand scope) w.acts = true := by
    intro hg au hau
    obtain ⟨p, hp, rfl⟩ := List.mem_map.mp hau
    obtain ⟨hmem, hs⟩ := List.mem_filter.mp hp
    obtain rfl : p.scope = scope := by simpa using hs
    rcases h p hmem with hv | ⟨n, hn, hnone⟩
    · exact hv
    · exact absurd hnone (hg n hn)
  cases scope with
  | plan =>
      obtain rfl : aus = proofsFor w.hand .plan := ht
      exact kept nofun
  | step n =>
      obtain rfl : aus = proofsFor w.hand (.step n) := ht
      exact kept nofun
  | ack n =>
      obtain ⟨hg, au, ⟨acts, hacts⟩, rfl⟩ := ht
      intro b hb
      rcases List.mem_append.mp hb with hb | hb
      · exact kept (fun m hm => Scope.ack.inj hm ▸ hg) b hb
      · rw [List.mem_singleton.mp hb, hacts]
        simp [provedFor]

theorem Tallies.tallied {scope : Scope} {aus : List String} (ht : Tallies E w scope aus) :
    Tallied E w.hand.id scope aus (scopeDigest E w.hand scope) := by
  cases scope with
  | plan | step n => exact ⟨w.hand, [], rfl, rfl, ht.trans (List.append_nil _).symm, Nat.zero_le _⟩
  | ack n =>
      obtain ⟨-, au, -, rfl⟩ := ht
      exact ⟨w.hand, [au], rfl, rfl, rfl, Nat.le_refl _⟩

theorem Certified.told_move (hm : Move E p p') (h : Certified E p) : Audited E p'.2.acts := by
  rcases hm.telling with ⟨φ, w, a, rfl, rfl, hi, hp⟩ | ⟨new, hnew, hn⟩
  · show Audited E (a :: w.acts)
    cases a with
    | counted id scope aus d =>
        obtain ⟨rfl, ht⟩ := hp
        rw [show id = w.hand.id from hi]
        exact ⟨⟨ht.tallied, h.hand.tallies ht⟩, h.told⟩
    | _ => exact h.told
  · rw [hnew]
    exact h.told.grow hn

/-- Where every proof falls, the record in hand has none and is stored so. -/
theorem Move.falls (hm : Move E p p') :
    (p'.2.hand.proofs = [] ∧
      (p'.2.instances.read p.2.hand.id).map InstanceRecord.kern = some p'.2.hand.kern) ∨
      ∀ new, p'.2.acts = new ++ p.2.acts → Act.fell p.2.hand.id ∉ new := by
  rcases hm.telling with ⟨φ, w, a, rfl, rfl, hi, hp⟩ | ⟨new, hnew, hn⟩
  · by_cases ha : a = .fell w.hand.id
    · subst ha
      exact .inl hp
    · refine .inr fun new hnew => ?_
      obtain rfl : [a] = new := List.append_cancel_right (show [a] ++ w.acts = new ++ w.acts from hnew)
      simpa using Ne.symm ha
  · refine .inr fun new' hnew' hf => ?_
    obtain rfl := List.append_cancel_right (hnew.symm.trans hnew')
    cases hn _ hf

theorem Certified.phase_move (hm : Move E p p') (h : Certified E p) : Bare p' := by
  intro hφ
  have hb : Bare p := h.phase
  cases hm with
  | quiet hq => exact (congrArg Docket.proofs hq.docket).trans (hb hφ)
  | @amend φ w r hc ha =>
      have hproofs : r.proofs = r.docket.proofs := rfl
      rw [hproofs]
      generalize r.docket = d at ha
      cases ha with
      | prove _ hr =>
          rw [hr] at hφ
          cases hφ
      | unprove => rfl
      | _ => exact hb hφ
  | remark => exact hb hφ
  | check _ _ hp => exact (congrArg Docket.proofs hp.docket).trans (hb rfl)
  | reserve | reserved => exact hb rfl
  | @transit _ _ _ _ s => cases s <;> cases hφ
  | mark _ _ hf => rcases hf with rfl | ⟨rfl, -⟩ <;> cases hφ
  | _ => cases hφ

theorem Certified.hand_move (hm : Move E p p') (h : Certified E p) :
    Sealed E p'.2.acts p'.2.hand := by
  rcases hm.docketed with ⟨hφ, hb⟩ | hd
  · exact .bare ((congrArg Docket.proofs hb.docket).trans (h.phase (by rw [hφ]; rfl)))
  · rcases hm.falls with ⟨hbare, -⟩ | hfell
    · exact .bare hbare
    · obtain ⟨new, hnew, hfresh⟩ := hd.told
      rcases hd.docket with he | ⟨ha, he⟩
      · rw [hnew]
        refine Sealed.grow (h.hand.congr (.of_docket hm.identity he) fun p hp => ?_) ?_ ?_
        · rwa [proofs_of_docket he] at hp
        · rwa [hm.id]
        · rw [hm.id]
          exact hfell new hnew
      · rw [ha]
        exact h.hand.amend hm.identity he h.phase

theorem Certified.own_move (hm : Move E p p') (h : Certified E p) {r : InstanceRecord}
    (hr : p'.2.instances.read p'.2.hand.id = some r) : Sealed E p'.2.acts r := by
  have hhand := h.hand_move hm
  rw [hm.id] at hr
  have put : (p'.2.instances.read p.2.hand.id).map InstanceRecord.kern = some p'.2.hand.kern →
      Sealed E p'.2.acts r := by
    intro hk
    rw [hr] at hk
    exact hhand.kern (Option.some.inj hk)
  rcases hm.docketed with ⟨-, hb⟩ | hd
  · have hk := hb.own
    exact put hk
  · rcases hd.own with he | hk
    · rcases hm.falls with ⟨-, hk⟩ | hfell
      · exact put hk
      · obtain ⟨new, hnew, hfresh⟩ := hd.told
        rw [he] at hr
        have hid : r.id = p.2.hand.id := Store.id_of_read hr
        rw [hnew]
        exact (h.own r hr).grow (hid ▸ hfresh) (hid ▸ hfell new hnew)
    · exact put hk

theorem Certified.move (hm : Move E p p') (h : Certified E p) : Certified E p' where
  told := h.told_move hm
  others := h.others_move hm fun hs hn =>
    hs.grow (fun hf => hn _ hf rfl) fun hl => hn _ hl rfl
  own _ := h.own_move hm
  hand := h.hand_move hm
  phase := h.phase_move hm

end

/-! ## Runs -/

/-- The invariant of all runs. -/
def certifiedInvariant (E : Setting σ) : Invariant E (fun _ => True) fun _ => True :=
  .ofRecords (fun _ => nofun) (fun _ _ _ _ _ _ => ⟨.bare rfl, fun _ => rfl⟩) Certified.move

/-- **What is counted was verified for what it is counted for**, and every stored
record is sealed. -/
theorem audited {w : World σ} (h : Run E w) : StandsStored (Audited E) (Sealed E) w :=
  (certifiedInvariant E).run (fun _ hw _ => standsStored_begins hw trivial) h

-- a run on fixed inputs is not to be evaluated for what `Audited` says of it
attribute [irreducible] Audited

end Rescind
