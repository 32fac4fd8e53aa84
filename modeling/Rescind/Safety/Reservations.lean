/-
# `Rescind.Safety.Reservations` — the ledger and the records agree

An instance that is not a rehearsal reserves the umbra of its plan on every
host the plan writes on, from its request to its end.  Its record and the
ledger are two durable writes.  A request writes the ledger first and the
record after it, an end the record first and the ledger after it, and boot
skips terminal records: a turn that stops between the two writes leaves a
reservation nobody holds, or one nobody can take.

The invariant: while no turn stopped in between, the ledger, in memory and in
the store, has exactly the holdings of the instances that reserve.

The hosts a plan writes on have names a ledger id can be cut at.  What comes of a gap is
said nowhere: the runs here have none.

**Proved here.**

    reserving adds the holdings of one instance          (`mem_reserveAll`)
    releasing drops them, and no other instance's        (`mem_releaseAll`, `lid_inj`)
    every move keeps the account                         (`LedgerHeld.move`)
    so in every such run the ledger is exact             (`ledger_exact`)
-/
import Rescind.Safety.Admission

namespace Rescind

open Lib Lib.Prog

variable {σ : Type} {E : Setting σ}

/-! ## Who reserves what -/

/-- Not terminal, and past the request. -/
def State.reserves (s : State) : Bool := !terminal s && s ≠ .unchecked && s ≠ .checked

namespace Core

/-- The holdings of a plan's instance, one for each host: none for a
rehearsal. -/
def holdings (c : Core) : List Holding :=
  if c.rehearsal then []
  else (umbras c.ir.plan).map fun u =>
    { id := lid c.id u.1, host := u.1, umbra := u.2, exclusivity := c.ir.plan.exclusivity
      rehearsal := false }

def lids (c : Core) : List String := c.holdings.map Holding.id

/-- The instance reserves: it is no rehearsal, and its state is non-terminal
from `Pending` on. -/
def reserving (c : Core) : Bool := !c.rehearsal && c.state.reserves

end Core

/-- Some instance holds it. -/
def Reserved (w : World σ) (h : Holding) : Prop :=
  ∃ j r, w.instances.read j = some r ∧ r.core.reserving = true ∧ h ∈ r.core.holdings

/-- A ledger holds entries for exactly the instances that reserve. -/
def LedgerExact (w : World σ) (l : Ledger) : Prop := ∀ h, h ∈ l.held ↔ Reserved w h

theorem core_lids (r : InstanceRecord) : lidsOf r = r.core.lids := by
  unfold lidsOf Core.lids Core.holdings
  cases h : r.rehearsal <;> simp [InstanceRecord.core, InstanceRecord.plan, h]

theorem Core.lids_isEmpty (c : Core) : c.lids.isEmpty = c.holdings.isEmpty := List.isEmpty_map ..

theorem Core.holdings_congr {c c' : Core} (h : c'.identity = c.identity) :
    c'.holdings = c.holdings := by
  simp only [Core.identity, Prod.mk.injEq] at h
  unfold Core.holdings
  rw [h.1, h.2.1, h.2.2.2.2]

theorem Core.lids_congr {c c' : Core} (h : c'.identity = c.identity) : c'.lids = c.lids :=
  congrArg (List.map Holding.id) (Core.holdings_congr h)

theorem Core.reserving_congr {c c' : Core} (h : c'.identity = c.identity)
    (hs : c'.state.reserves = c.state.reserves) : c'.reserving = c.reserving := by
  simp only [Core.identity, Prod.mk.injEq] at h
  unfold Core.reserving
  rw [hs, h.2.2.2.2]

theorem Core.holdings_of_rehearsal {c : Core} (h : c.rehearsal = true) : c.holdings = [] := by
  unfold Core.holdings
  rw [h]
  rfl

/-! ## Ledger ids -/

theorem append_cons_inj_of_notMem {α : Type} {a a' b b' : List α} {c : α} (hb : c ∉ b)
    (hb' : c ∉ b') (h : a ++ c :: b = a' ++ c :: b') : a = a' := by
  induction a generalizing a' with
  | nil =>
      cases a' with
      | nil => rfl
      | cons x a' =>
          obtain ⟨-, rfl⟩ := List.cons.inj h
          exact absurd (List.mem_append_right _ List.mem_cons_self) hb
  | cons x a ih =>
      cases a' with
      | nil =>
          obtain ⟨-, rfl⟩ := List.cons.inj h
          exact absurd (List.mem_append_right _ List.mem_cons_self) hb'
      | cons y a' =>
          obtain ⟨rfl, ht⟩ := List.cons.inj h
          rw [ih ht]

/-- A host name that a ledger id can be cut at. -/
def PlainHost (host : String) : Prop := '@' ∉ host.toList

/-- A ledger id names one instance. -/
theorem lid_inj {i j host host' : String} (h : PlainHost host) (h' : PlainHost host')
    (he : lid i host = lid j host') : i = j := by
  have hl := congrArg String.toList he
  simp only [lid, String.toList_append, List.append_assoc] at hl
  exact String.toList_injective (append_cons_inj_of_notMem h h' hl)

/-! ## Reserving and releasing -/

theorem mem_reserveAll {r : InstanceRecord} {us : Assoc String (List Fact)} {l l' : Ledger}
    (h : reserveAll r us l = .ok l') (x : Holding) :
    x ∈ l'.held ↔ x ∈ l.held ∨ (r.rehearsal = false ∧ x ∈ us.map fun u =>
      ({ id := lid r.id u.1, host := u.1, umbra := u.2, exclusivity := r.plan.exclusivity
         rehearsal := false } : Holding)) := by
  induction us generalizing l with
  | nil =>
      cases h
      simp
  | cons u us ih =>
      obtain ⟨host, umbra⟩ := u
      unfold reserveAll at h
      cases hq : l.request ⟨lid r.id host, host, umbra, r.plan.exclusivity, r.rehearsal⟩ with
      | error e => rw [hq] at h; cases h
      | ok l₁ =>
          rw [hq] at h
          rw [ih h]
          rcases Ledger.request_ok hq with ⟨hr, rfl⟩ | ⟨hr, hl⟩
          · have hr' : r.rehearsal = true := hr
            simp [hr']
          · have hr' : r.rehearsal = false := hr
            rw [hl, hr']
            simp only [List.mem_cons, List.map_cons, true_and]
            tauto

theorem mem_reserve {r : InstanceRecord} {l l' : Ledger}
    (h : reserveAll r (umbras r.plan) l = .ok l') (x : Holding) :
    x ∈ l'.held ↔ x ∈ l.held ∨ x ∈ r.core.holdings := by
  rw [mem_reserveAll h]
  unfold Core.holdings
  cases hr : r.rehearsal <;> simp [InstanceRecord.core, InstanceRecord.plan, hr]

theorem mem_releaseAll (ids : List String) (l : Ledger) (x : Holding) :
    x ∈ (ids.foldl Ledger.release l).held ↔ x ∈ l.held ∧ x.id ∉ ids := by
  induction ids generalizing l with
  | nil => simp
  | cons i ids ih =>
      rw [List.foldl_cons, ih, Ledger.mem_release]
      simp only [List.mem_cons, not_or, and_assoc]

/-! ## Records -/

/-- What every record of a run has from its first write on. -/
structure Core.Named (E : Setting σ) (c : Core) : Prop where
  name : c.id = instanceId E c.ir c.params c.rehearsal
  hosts : ∀ u ∈ umbras c.ir.plan, PlainHost u.1

/-- A record past its request knows the ledger ids it has to release. -/
def Core.Entered (c : Core) : Prop := c.state.reserves = true → c.ledgerIds = c.lids

/-- A record as a run stores it. -/
structure Core.Kept (E : Setting σ) (c : Core) : Prop where
  named : c.Named E
  entered : c.Entered

theorem Core.Named.congr {c c' : Core} (h : c.Named E) (hi : c'.identity = c.identity) :
    c'.Named E := by
  simp only [Core.identity, Prod.mk.injEq] at hi
  obtain ⟨h₁, h₂, h₃, -, h₅⟩ := hi
  exact ⟨by rw [h₁, h₂, h₃, h₅]; exact h.name, by rw [h₂]; exact h.hosts⟩

theorem Core.Entered.congr {c c' : Core} (h : c.Entered) (hi : c'.identity = c.identity)
    (hs : c'.state.reserves = c.state.reserves) (hl : c'.ledgerIds = c.ledgerIds) :
    c'.Entered := by
  intro hr
  rw [hl, Core.lids_congr hi]
  exact h (hs ▸ hr)

theorem Core.Named.host_of_mem {c : Core} (h : c.Named E) {x : Holding} (hx : x ∈ c.holdings) :
    ∃ host, PlainHost host ∧ x.id = lid c.id host := by
  unfold Core.holdings at hx
  split at hx
  · cases hx
  · obtain ⟨u, hu, rfl⟩ := List.mem_map.mp hx
    exact ⟨u.1, h.hosts u hu, rfl⟩

/-- Two instances have no ledger id in common. -/
theorem Core.Named.id_eq {c c' : Core} (h : c.Named E) (h' : c'.Named E) {x : Holding}
    (hx : x ∈ c.holdings) (hm : x.id ∈ c'.lids) : c.id = c'.id := by
  obtain ⟨y, hy, he⟩ := List.mem_map.mp hm
  obtain ⟨host, hh, hid⟩ := h.host_of_mem hx
  obtain ⟨host', hh', hid'⟩ := h'.host_of_mem hy
  exact lid_inj hh hh' (by rw [← hid, ← hid', he])

/-- A rehearsal and an instance that is none have different ids. -/
theorem Core.Named.rehearsal_eq {c c' : Core} (h : c.Named E) (h' : c'.Named E)
    (hi : c.id = c'.id) : c.rehearsal = c'.rehearsal := by
  have hn := h.name
  have hn' := h'.name
  rw [hi, hn'] at hn
  cases hc : c.rehearsal <;> cases hc' : c'.rehearsal
  · rfl
  · rw [hc, hc'] at hn
    exact absurd hn (instanceId_rehearsal_ne E _ _ _ _)
  · rw [hc, hc'] at hn
    exact absurd hn.symm (instanceId_rehearsal_ne E _ _ _ _)
  · rfl

/-! ## The account of a turn -/

/-- Some instance other than the one in hand holds it. -/
def OthersReserved (w : World σ) (h : Holding) : Prop :=
  ∃ j r, j ≠ w.hand.id ∧ w.instances.read j = some r ∧ r.core.reserving = true ∧
    h ∈ r.core.holdings

/-- A ledger holds what the other instances hold, and with `own` what the one
in hand does. -/
def Accounts (w : World σ) (l : Ledger) (own : Bool) : Prop :=
  ∀ h, h ∈ l.held ↔ OthersReserved w h ∨ (own = true ∧ h ∈ w.hand.core.holdings)

/-- What is stored under the id in hand reserves if the record in hand does. -/
structure OwnKept (E : Setting σ) (w : World σ) : Prop where
  kept : ∀ c, w.ownCore = some c → c.Kept E
  same : ∀ c, w.ownCore = some c → c.reserving = true →
    w.hand.core.reserving = true ∧ c.holdings = w.hand.core.holdings
  present : w.hand.core.reserving = true → ∃ c, w.ownCore = some c ∧ c.reserving = true

/-- The turn is marked as between two writes, unless there is nothing to
write. -/
def GapOpen (w : World σ) : Prop := w.gap ≠ none ∨ w.hand.core.holdings = []

/-- The ledgers, in memory and in the store, by the phase of the turn. -/
def PhaseHeld (φ : Phase) (w : World σ) : Prop :=
  match φ with
  | .reserving =>
      GapOpen w ∧ w.hand.core.ledgerIds = w.hand.core.lids ∧
        Accounts w w.ledger true ∧ Accounts w w.stored w.hand.core.reserving
  | .reserved =>
      GapOpen w ∧ w.hand.core.ledgerIds = w.hand.core.lids ∧
        Accounts w w.ledger true ∧ Accounts w w.stored true
  | .closing =>
      GapOpen w ∧ w.hand.core.ledgerIds = w.hand.core.lids ∧
        w.hand.core.state.reserves = false ∧ Accounts w w.ledger true ∧ Accounts w w.stored true
  | .releasing =>
      GapOpen w ∧ w.hand.core.state.reserves = false ∧
        Accounts w w.ledger false ∧ Accounts w w.stored true
  | .agreed =>
      Accounts w w.ledger w.hand.core.reserving ∧ Accounts w w.stored w.hand.core.reserving
  | _ =>
      w.gap = none ∧
        Accounts w w.ledger w.hand.core.reserving ∧ Accounts w w.stored w.hand.core.reserving

/-- The invariant inside a turn. -/
structure LedgerHeld (E : Setting σ) (p : Phase × World σ) : Prop where
  others : ∀ j r, j ≠ p.2.hand.id → p.2.instances.read j = some r → r.core.Kept E
  hand : p.2.hand.core.Kept E
  own : OwnKept E p.2
  phase : PhaseHeld p.1 p.2

/-- The invariant between two turns. -/
structure LedgerKept (E : Setting σ) (w : World σ) : Prop where
  records : ∀ j r, w.instances.read j = some r → r.core.Kept E
  memory : LedgerExact w w.ledger
  stored : LedgerExact w w.stored
  gap : w.gap = none

section
variable {w w' : World σ} {φ : Phase} {l : Ledger} {own : Bool}

theorem reserved_iff (h : OwnKept E w) (x : Holding) :
    Reserved w x ↔
      OthersReserved w x ∨ (w.hand.core.reserving = true ∧ x ∈ w.hand.core.holdings) := by
  constructor
  · rintro ⟨j, r, hr, hres, hx⟩
    by_cases hj : j = w.hand.id
    · have ho : w.ownCore = some r.core := by rw [World.ownCore, ← hj, hr]; rfl
      obtain ⟨hb, hh⟩ := h.same _ ho hres
      exact .inr ⟨hb, hh ▸ hx⟩
    · exact .inl ⟨j, r, hj, hr, hres, hx⟩
  · rintro (⟨j, r, -, hr, hres, hx⟩ | ⟨hb, hx⟩)
    · exact ⟨j, r, hr, hres, hx⟩
    · obtain ⟨c, hc, hres⟩ := h.present hb
      obtain ⟨r, hr, rfl⟩ := Option.map_eq_some_iff.mp hc
      exact ⟨_, r, hr, hres, (h.same _ hc hres).2 ▸ hx⟩

theorem Accounts.exact (h : Accounts w l w.hand.core.reserving) (ho : OwnKept E w) :
    LedgerExact w l :=
  fun x => (h x).trans (reserved_iff ho x).symm

theorem Accounts.of_exact (h : LedgerExact w l) (ho : OwnKept E w) :
    Accounts w l w.hand.core.reserving :=
  fun x => (h x).trans (reserved_iff ho x)

/-- Where there is nothing to reserve it does not matter. -/
theorem Accounts.of_empty {own' : Bool} (h : Accounts w l own) (he : w.hand.core.holdings = []) :
    Accounts w l own' := by
  intro x
  rw [h x, he]
  simp

theorem Accounts.congr (h : Accounts w l own) (hi : w'.hand.core.identity = w.hand.core.identity)
    (ho : SameOthers w w') : Accounts w' l own := by
  intro x
  have hid : w'.hand.id = w.hand.id := Core.id_eq_of_identity hi
  rw [h x, Core.holdings_congr hi]
  refine or_congr_left (exists_congr fun j => exists_congr fun r => ?_)
  rw [hid]
  refine and_congr_right fun hj => ?_
  rw [ho j hj]

theorem PhaseHeld.congr (h : PhaseHeld φ w) (hi : w'.hand.core.identity = w.hand.core.identity)
    (hs : w'.hand.core.state.reserves = w.hand.core.state.reserves)
    (hl : w'.hand.core.ledgerIds = w.hand.core.ledgerIds) (ho : SameOthers w w')
    (hm : w'.ledger = w.ledger) (hd : w'.stored = w.stored) (hg : w'.gap = w.gap) :
    PhaseHeld φ w' := by
  have hb := Core.reserving_congr hi hs
  have hh := Core.holdings_congr hi
  have hls := Core.lids_congr hi
  have ha : ∀ {l own}, Accounts w l own → Accounts w' l own := fun h => h.congr hi ho
  unfold PhaseHeld GapOpen at *
  rw [hb, hs, hh, hl, hls, hm, hd, hg]
  cases φ with
  | reserving | reserved => exact ⟨h.1, h.2.1, ha h.2.2.1, ha h.2.2.2⟩
  | closing => exact ⟨h.1, h.2.1, h.2.2.1, ha h.2.2.2.1, ha h.2.2.2.2⟩
  | releasing => exact ⟨h.1, h.2.1, ha h.2.2.1, ha h.2.2.2⟩
  | agreed => exact ⟨ha h.1, ha h.2⟩
  | _ => exact ⟨h.1, ha h.2.1, ha h.2.2⟩

/-- What is stored under the id in hand is as it was, or is the record in
hand. -/
def OwnSteady (w w' : World σ) : Prop :=
  w'.ownCore = w.ownCore ∨ w'.ownCore = some w'.hand.core

theorem OwnKept.written (h : w'.ownCore = some w'.hand.core) (hk : w'.hand.core.Kept E) :
    OwnKept E w' := by
  constructor
  · intro c hc
    rw [h] at hc
    exact Option.some.inj hc ▸ hk
  · intro c hc hr
    rw [h] at hc
    obtain rfl := Option.some.inj hc
    exact ⟨hr, rfl⟩
  · exact fun hr => ⟨_, h, hr⟩

theorem OwnKept.steady (h : OwnKept E w) (hi : w'.hand.core.identity = w.hand.core.identity)
    (hb : w'.hand.core.reserving = w.hand.core.reserving) (ho : OwnSteady w w')
    (hk : w'.hand.core.Kept E) : OwnKept E w' := by
  rcases ho with ho | ho
  · constructor
    · rw [ho]; exact h.kept
    · rw [ho, hb, Core.holdings_congr hi]; exact h.same
    · rw [ho, hb]; exact h.present
  · exact .written ho hk

theorem Core.Kept.congr {c c' : Core} (h : c.Kept E) (hi : c'.identity = c.identity)
    (hs : c'.state.reserves = c.state.reserves) (hl : c'.ledgerIds = c.ledgerIds) : c'.Kept E :=
  ⟨h.named.congr hi, h.entered.congr hi hs hl⟩

theorem LedgerHeld.othersKept (h : LedgerHeld E (φ, w)) (hid : w'.hand.id = w.hand.id)
    (ho : SameOthers w w') :
    ∀ j r, j ≠ w'.hand.id → w'.instances.read j = some r → r.core.Kept E := by
  intro j r hj hr
  rw [hid] at hj
  rw [ho j hj] at hr
  exact h.others j r hj hr

/-- A move that leaves the account alone. -/
theorem LedgerHeld.steady {φ' : Phase} (h : LedgerHeld E (φ, w))
    (hi : w'.hand.core.identity = w.hand.core.identity)
    (hs : w'.hand.core.state.reserves = w.hand.core.state.reserves)
    (hl : w'.hand.core.ledgerIds = w.hand.core.ledgerIds) (ho : SameOthers w w')
    (hown : OwnSteady w w') (hm : w'.ledger = w.ledger) (hd : w'.stored = w.stored)
    (hg : w'.gap = w.gap) (hφ : PhaseHeld φ w → PhaseHeld φ' w) : LedgerHeld E (φ', w') where
  others := h.othersKept (Core.id_eq_of_identity hi) ho
  hand := h.hand.congr hi hs hl
  own := h.own.steady hi (Core.reserving_congr hi hs) hown (h.hand.congr hi hs hl)
  phase := (hφ h.phase).congr hi hs hl ho hm hd hg

end

/-! ## One move -/

section
variable {w w' : World σ} {φ φ' : Phase} {c : Core} {f : Frame}

/-- A record that was written, with the account as it was. -/
theorem LedgerHeld.puts (h : LedgerHeld E (φ, w)) (hp : Puts c f w w')
    (hi : c.identity = w.hand.core.identity) (hs : c.state.reserves = w.hand.core.state.reserves)
    (hl : c.ledgerIds = w.hand.core.ledgerIds) (hm : f.ledger = w.ledger)
    (hd : f.stored = w.stored) (hg : f.gap = w.gap) (hφ : PhaseHeld φ w → PhaseHeld φ' w) :
    LedgerHeld E (φ', w') := by
  refine h.steady ?_ ?_ ?_ hp.others ?_ ?_ ?_ ?_ hφ
  · rw [hp.hand]; exact hi
  · rw [hp.hand]; exact hs
  · rw [hp.hand]; exact hl
  · refine .inr ?_
    rw [hp.hand]
    exact hp.ownCore (Core.id_eq_of_identity hi)
  · exact (congrArg Frame.ledger hp.frame).trans hm
  · exact (congrArg Frame.stored hp.frame).trans hd
  · exact (congrArg Frame.gap hp.frame).trans hg

theorem transition_of_unreserved {ctx : Ctx} {s s' : State} {ev : Event}
    (h : transition ctx s ev = .to s') (hs : s.reserves = false) : ev = .check ∨ ev = .request := by
  cases edge_of_transition h with
  | check => exact .inl rfl
  | request => exact .inr rfl
  | cancel he | commitVerb _ he | undoClean he | undoFailed he | driftOnDefer he | abandon he =>
      rcases he with rfl | rfl <;> cases hs
  | recant he => rcases he with rfl | rfl | rfl | rfl | rfl <;> cases hs
  | waneElapses _ ht he => cases s <;> simp [State.reserves, terminal, waneOutcome] at hs ht he
  | _ => cases hs

theorem transition_to_checked {ctx : Ctx} {s : State} {ev : Event}
    (h : transition ctx s ev = .to .checked) : ev = .check := by
  cases edge_of_transition h
  rfl

theorem transition_to_unchecked {ctx : Ctx} {s : State} {ev : Event} :
    transition ctx s ev ≠ .to .unchecked :=
  fun h => nomatch edge_of_transition h

/-- Past the request, an event leads to a state that reserves or ends the
instance. -/
theorem transition_reserves {ctx : Ctx} {s s' : State} {ev : Event}
    (h : transition ctx s ev = .to s') (hc : ev ≠ .check) (hr : ev ≠ .request) :
    s.reserves = true ∧ (s'.reserves = true ∨ terminal s' = true ∧ s'.reserves = false) := by
  constructor
  · by_contra hs
    exact (transition_of_unreserved h (by simpa using hs)).elim hc hr
  · cases s' with
    | unchecked => exact absurd h transition_to_unchecked
    | checked => exact absurd (transition_to_checked h) hc
    | closed | committed => exact .inr ⟨rfl, rfl⟩
    | _ => exact .inl rfl

theorem Phase.feeds_ne {ev : Event} (h : φ.feeds ev = true) : ev ≠ .check ∧ ev ≠ .request := by
  constructor <;> rintro rfl <;> cases φ <;> cases h

theorem PhaseHeld.of_feeds {ev : Event} (hf : φ.feeds ev = true) (h : PhaseHeld φ w) :
    PhaseHeld .resting w := by
  cases φ <;> first | exact h | cases hf

theorem State.phaseHeld {s : State} (hs : s.reserves = true) (h : PhaseHeld .resting w) :
    PhaseHeld s.phase w := by
  cases s <;> first | exact h | cases hs

/-- A record in a reserving state has its holdings in both ledgers. -/
theorem Accounts.reserves {l : Ledger} (h : Accounts w l w.hand.core.reserving)
    (hs : w.hand.core.state.reserves = true) : Accounts w l true := by
  cases hr : w.hand.core.rehearsal with
  | true => exact h.of_empty (Core.holdings_of_rehearsal hr)
  | false =>
      have hb : w.hand.core.reserving = true := by
        unfold Core.reserving
        rw [hr, hs]
        rfl
      rw [hb] at h
      exact h

theorem LedgerHeld.transit {ev : Event} {s : State} (h : LedgerHeld E (φ, w))
    (hf : φ.feeds ev = true) (ht : transition w.hand.ctx w.hand.state ev = .to s)
    (hp : Puts (w.hand.core.inState s)
      ((w.frame.gapped (gapAfter s w.hand w.gap)).telling (turned w.hand ev s ++ w.acts)) w w') :
    LedgerHeld E (s.phase, w') := by
  obtain ⟨hev, hev'⟩ := Phase.feeds_ne hf
  obtain ⟨hs, hs' | ⟨hs', hn⟩⟩ := transition_reserves ht hev hev'
  · refine h.puts hp rfl (hs'.trans hs.symm) rfl rfl rfl ?_ fun h =>
      State.phaseHeld hs' (h.of_feeds hf)
    have hnt : terminal s = false := by
      cases s <;> first | rfl | cases hs'
    show gapAfter s w.hand w.gap = w.gap
    unfold gapAfter
    rw [hnt]
    rfl
  · have hids : w.hand.core.ledgerIds = w.hand.core.lids := h.hand.entered hs
    obtain ⟨-, hmem, hsto⟩ := h.phase.of_feeds hf
    have hi : w'.hand.core.identity = w.hand.core.identity := by rw [hp.hand]; rfl
    have hk : w'.hand.core.Kept E :=
      ⟨h.hand.named.congr hi, fun hr => by
        rw [hp.hand] at hr
        exact Bool.noConfusion (hr.symm.trans hn)⟩
    refine ⟨h.othersKept (Core.id_eq_of_identity hi) hp.others, hk,
      .written (by rw [hp.hand]; exact hp.ownCore rfl) hk, ?_⟩
    rw [State.phase_of_terminal hs']
    refine ⟨?_, ?_, ?_, ?_, ?_⟩
    · have hg : w'.gap = gapAfter s w.hand w.gap := congrArg Frame.gap hp.frame
      unfold GapOpen
      rw [hg, gapAfter, hs', Core.holdings_congr hi, show w.hand.ledgerIds = w.hand.core.lids from hids,
        Core.lids_isEmpty]
      cases hh : w.hand.core.holdings with
      | nil => exact .inr rfl
      | cons x xs => exact .inl (Option.some_ne_none _)
    · rw [Core.lids_congr hi, ← hids, hp.hand]
      rfl
    · rw [hp.hand]; exact hn
    · rw [show w'.ledger = w.ledger from congrArg Frame.ledger hp.frame]
      exact (hmem.reserves hs).congr hi hp.others
    · rw [show w'.stored = w.stored from congrArg Frame.stored hp.frame]
      exact (hsto.reserves hs).congr hi hp.others

theorem LedgerHeld.reserve {l : Ledger} (h : LedgerHeld E (.requesting, w))
    (hl : reserveAll w.hand (umbras w.hand.plan) w.ledger = .ok l) :
    LedgerHeld E (.reserving, { w with
      ledger := l
      hand := { w.hand with ledgerIds := lidsOf w.hand }
      gap := if (lidsOf w.hand).isEmpty then w.gap else some w.hand.id }) := by
  obtain ⟨-, hmem, hsto⟩ := h.phase
  have hk : (InstanceRecord.core { w.hand with ledgerIds := lidsOf w.hand }).Kept E :=
    ⟨h.hand.named.congr rfl, fun _ => core_lids w.hand⟩
  refine ⟨h.others, hk, h.own.steady rfl rfl (.inl rfl) hk, ?_, core_lids w.hand, fun x => ?_,
    hsto.congr rfl fun _ _ => rfl⟩
  · unfold GapOpen
    rw [core_lids, Core.lids_isEmpty]
    cases hh : w.hand.core.holdings with
    | nil => exact .inr hh
    | cons y ys => exact .inl nofun
  · rw [mem_reserve hl, hmem x]
    constructor
    · rintro ((ho | ⟨-, hx⟩) | hx)
      · exact .inl ho
      · exact .inr ⟨rfl, hx⟩
      · exact .inr ⟨rfl, hx⟩
    · rintro (ho | ⟨-, hx⟩)
      · exact .inl (.inl ho)
      · exact .inr hx

theorem LedgerHeld.request (h : LedgerHeld E (.reserved, w))
    (hp : Puts (w.hand.core.inState .pending) w.frame w w') : LedgerHeld E (.agreed, w') := by
  obtain ⟨-, hids, hmem, hsto⟩ := h.phase
  have hi : w'.hand.core.identity = w.hand.core.identity := by rw [hp.hand]; rfl
  have hk : w'.hand.core.Kept E := by
    refine ⟨h.hand.named.congr hi, fun _ => ?_⟩
    rw [Core.lids_congr hi, ← hids, hp.hand]
    rfl
  have hacc : ∀ {l}, Accounts w l true → Accounts w' l w'.hand.core.reserving := by
    intro l ha
    have ha' := ha.congr hi hp.others
    cases hr : w'.hand.core.rehearsal with
    | true => exact ha'.of_empty (Core.holdings_of_rehearsal hr)
    | false =>
        have hb : w'.hand.core.reserving = true := by
          unfold Core.reserving
          rw [hr, hp.hand]
          rfl
        rw [hb]
        exact ha'
  refine ⟨h.othersKept (Core.id_eq_of_identity hi) hp.others, hk,
    .written (by rw [hp.hand]; exact hp.ownCore rfl) hk, ?_, ?_⟩
  · rw [show w'.ledger = w.ledger from congrArg Frame.ledger hp.frame]
    exact hacc hmem
  · rw [show w'.stored = w.stored from congrArg Frame.stored hp.frame]
    exact hacc hsto

theorem LedgerHeld.release (h : LedgerHeld E (.closing, w)) :
    LedgerHeld E (.releasing, { w with
      ledger := w.hand.ledgerIds.foldl Ledger.release w.ledger
      hand := { w.hand with ledgerIds := [] } }) := by
  obtain ⟨hgap, hids, hs, hmem, hsto⟩ := h.phase
  have hk : (InstanceRecord.core { w.hand with ledgerIds := [] }).Kept E :=
    ⟨h.hand.named.congr rfl, fun hr => absurd (hr.symm.trans hs) nofun⟩
  refine ⟨h.others, hk, h.own.steady rfl rfl (.inl rfl) hk, hgap, hs, fun x => ?_,
    hsto.congr rfl fun _ _ => rfl⟩
  rw [mem_releaseAll, hmem x, show w.hand.ledgerIds = w.hand.core.lids from hids]
  constructor
  · rintro ⟨ho | ⟨-, hx⟩, hn⟩
    · exact .inl ho
    · exact absurd (List.mem_map_of_mem hx) hn
  · rintro (ho | ⟨hf, -⟩)
    · refine ⟨.inl ho, fun hm => ?_⟩
      obtain ⟨j, r, hj, hr, -, hx⟩ := ho
      have hid : r.id = w.hand.id := (h.others j r hj hr).named.id_eq h.hand.named hx hm
      exact hj ((Store.id_of_read hr).symm.trans hid)
    · cases hf

theorem LedgerHeld.calm (h : LedgerHeld E (φ, w)) (hq : Calm w w') : LedgerHeld E (φ, w') := by
  have hown : OwnSteady w w' := by
    unfold OwnSteady
    rw [hq.hand]
    exact hq.ownCore
  exact h.steady (congrArg _ hq.hand) (by rw [hq.hand]) (congrArg _ hq.hand) hq.others hown
    (congrArg Frame.ledger hq.frame) (congrArg Frame.stored hq.frame)
    (congrArg Frame.gap hq.frame) fun h => h

theorem LedgerHeld.move {p p' : Phase × World σ} (hm : Move E p p') (h : LedgerHeld E p) :
    LedgerHeld E p' := by
  cases hm with
  | quiet hq => exact h.calm hq.toCalm
  | amend hc => exact h.calm (calm_hand hc)
  | @check w w' hb _ hp =>
      refine h.puts hp rfl ?_ rfl rfl rfl rfl fun h => h
      rw [show w.hand.core.state = .unchecked from hb.state]
      rfl
  | reserve hl => exact h.reserve hl
  | reserved =>
      obtain ⟨hgap, hids, hmem, -⟩ := h.phase
      exact ⟨h.others, h.hand, h.own.steady rfl rfl (.inl rfl) h.hand, hgap, hids, hmem, hmem⟩
  | request _ hp => exact h.request hp
  | closeGap =>
      exact ⟨h.others, h.hand, h.own.steady rfl rfl (.inl rfl) h.hand, rfl, h.phase⟩
  | transit hf ht _ hp => exact h.transit hf ht hp
  | mark _ _ hφ hp =>
      refine h.puts hp rfl rfl rfl rfl rfl rfl fun h => ?_
      rcases hφ with rfl | ⟨rfl, -⟩ <;> exact h
  | handOff hp | choose _ hp | pop hp | fired hp =>
      exact h.puts hp rfl rfl rfl rfl rfl rfl fun h => h
  | remark | depart | skip | start | pass | fail | forget | unmake | reenter | undo | recollect =>
      exact h.steady rfl rfl rfl (fun _ _ => rfl) (.inl rfl) rfl rfl rfl fun h => h
  | finish hφ =>
      refine h.steady rfl rfl rfl (fun _ _ => rfl) (.inl rfl) rfl rfl rfl fun h => ?_
      rcases hφ with rfl | ⟨rfl, -⟩ <;> exact h
  | @rerecord φ w a r hφ hr =>
      have hown : OwnSteady w { w with
          hand := r, acts := .rerecorded r.id a r.earlierHold :: w.acts } := by
        refine .inl ?_
        unfold World.ownCore
        rw [show r.id = w.hand.id from congrArg Core.id hr]
      refine h.steady ((congrArg Core.identity hr).trans rfl)
        ((congrArg (fun c => c.state.reserves) hr).trans rfl)
        ((congrArg Core.ledgerIds hr).trans rfl) (fun _ _ => rfl) hown rfl rfl rfl fun h => ?_
      rcases hφ with rfl | ⟨rfl, -⟩ <;> exact h
  | release => exact h.release
  | @released w =>
      obtain ⟨-, hs, hmem, -⟩ := h.phase
      have hb : w.hand.core.reserving = false := by
        unfold Core.reserving
        rw [hs, Bool.and_false]
      refine ⟨h.others, h.hand, h.own.steady rfl rfl (.inl rfl) h.hand, ?_⟩
      unfold PhaseHeld
      simp only
      rw [hb]
      exact ⟨hmem, hmem⟩
  | reload _ hc => exact h.calm (calm_hand (InstanceRecord.core_of_kern hc))

end

/-! ## Runs -/

/-- The plan writes only on hosts whose names a ledger id can be cut at. -/
def Verb.plainHosts : Verb → Prop
  | .apply ir _ _ => ∀ u ∈ umbras ir.plan, PlainHost u.1
  | _ => True

/-- No turn stopped between the two writes. -/
def Ungapped (w : World σ) : Prop := w.gap = none

/-- Where a turn ends with no gap open. -/
theorem LedgerHeld.kept {φ : Phase} {w : World σ} (h : LedgerHeld E (φ, w)) (hg : Ungapped w) :
    LedgerKept E w := by
  have hacc : Accounts w w.ledger w.hand.core.reserving ∧ Accounts w w.stored w.hand.core.reserving := by
    have hp := h.phase
    have closed : GapOpen w → w.hand.core.holdings = [] := fun ho => ho.resolve_left fun hn => hn hg
    cases φ with
    | reserving | reserved =>
        have he := closed hp.1
        exact ⟨hp.2.2.1.of_empty he, hp.2.2.2.of_empty he⟩
    | closing =>
        have he := closed hp.1
        exact ⟨hp.2.2.2.1.of_empty he, hp.2.2.2.2.of_empty he⟩
    | releasing =>
        have he := closed hp.1
        exact ⟨hp.2.2.1.of_empty he, hp.2.2.2.of_empty he⟩
    | agreed => exact hp
    | _ => exact hp.2
  refine ⟨fun j r hr => ?_, hacc.1.exact h.own, hacc.2.exact h.own, hg⟩
  by_cases hj : j = w.hand.id
  · refine h.own.kept r.core ?_
    rw [World.ownCore, ← hj, hr]
    rfl
  · exact h.others j r hj hr

theorem LedgerKept.congr {w w' : World σ} (h : LedgerKept E w)
    (hr : ∀ j, w'.instances.read j = w.instances.read j) (hs : w'.stored = w.stored)
    (hl : w'.ledger = w.ledger ∨ w'.ledger = w.stored) (hg : w'.gap = w.gap) : LedgerKept E w' := by
  have hres : ∀ x, Reserved w' x ↔ Reserved w x := fun x => by
    unfold Reserved
    simp only [hr]
  refine ⟨fun j r hj => h.records j r (hr j ▸ hj), fun x => ?_, fun x => ?_, hg.trans h.gap⟩
  · rw [hres]
    rcases hl with hl | hl
    · rw [hl]; exact h.memory x
    · rw [hl]; exact h.stored x
  · rw [hres, hs]
    exact h.stored x

theorem LedgerKept.take {w : World σ} {r : InstanceRecord} (h : LedgerKept E w)
    (hr : w.instances.read r.id = some r) :
    LedgerHeld E (.resting, { w with hand := r }) := by
  have ho : OwnKept E { w with hand := r } := by
    refine .written ?_ (h.records _ r hr)
    show (w.instances.read r.id).map InstanceRecord.core = some r.core
    rw [hr]
    rfl
  exact ⟨fun j r' _ hr' => h.records j r' hr', h.records _ r hr, ho, h.gap,
    .of_exact (w := { w with hand := r }) h.memory ho, .of_exact (w := { w with hand := r }) h.stored ho⟩

theorem LedgerKept.fresh {w : World σ} {ir : PlanIr} {params : Vars} {opts : ApplyOptions}
    {nonce : String} (h : LedgerKept E w) (hv : ∀ u ∈ umbras ir.plan, PlainHost u.1)
    (hu : Unblocked { w with hand := blankRecord E ir params opts nonce }) :
    LedgerHeld E (.beginning, { w with hand := blankRecord E ir params opts nonce }) := by
  have hn : (blankRecord E ir params opts nonce).core.Named E := ⟨rfl, hv⟩
  have hb : (blankRecord E ir params opts nonce).core.reserving = false := Bool.and_false _
  have hfree : ∀ r, w.instances.read (blankRecord E ir params opts nonce).id = some r →
      r.core.reserving = false := by
    intro r hr
    have hid : r.core.id = (blankRecord E ir params opts nonce).core.id := Store.id_of_read hr
    have hreh := (h.records _ r hr).named.rehearsal_eq hn hid
    unfold Core.reserving State.reserves
    rcases hu with hu | hu
    · rw [hreh, show (blankRecord E ir params opts nonce).core.rehearsal = true from hu]
      rfl
    · rw [show terminal r.core.state = true from hu r hr]
      exact Bool.and_false _
  have ho : OwnKept E { w with hand := blankRecord E ir params opts nonce } := by
    constructor
    · intro c hc
      obtain ⟨r, hr, rfl⟩ := Option.map_eq_some_iff.mp hc
      exact h.records _ r hr
    · intro c hc hres
      obtain ⟨r, hr, rfl⟩ := Option.map_eq_some_iff.mp hc
      rw [hfree r hr] at hres
      cases hres
    · intro hres
      rw [show _ = false from hb] at hres
      cases hres
  exact ⟨fun j r' _ hr' => h.records j r' hr', ⟨hn, nofun⟩, ho, h.gap,
    .of_exact (w := { w with hand := blankRecord E ir params opts nonce }) h.memory ho,
    .of_exact (w := { w with hand := blankRecord E ir params opts nonce }) h.stored ho⟩

theorem umbras_underMode (ir : PlanIr) (mode : Option Mode) :
    umbras (underMode ir mode).plan = umbras ir.plan := rfl

/-- The invariant of the runs without gaps. -/
def ledgerInvariant (E : Setting σ) : Invariant E Verb.plainHosts Ungapped where
  Kept := LedgerKept E
  Held := LedgerHeld E
  between hb h := h.congr hb.records hb.stored hb.ledger hb.gap
  condition hb h := hb.gap.symm.trans h
  take h hr := h.take hr
  fresh {w ir params opts nonce} h hv _ hu := h.fresh (by rw [umbras_underMode]; exact hv) hu
  move hm h := h.move hm
  leave h := h.kept h.phase.1
  drop {φ w w'} h hd hc := by
    have hg : w'.gap = w.gap := congrArg Frame.gap hd.frame
    exact (h.kept (hg.symm.trans hc)).congr hd.records (congrArg Frame.stored hd.frame)
      (.inl (congrArg Frame.ledger hd.frame)) hg

/-- **The ledger is exact.**  In every run in which no turn stops between the
two writes, the ledger, in memory and in the store, holds entries for exactly
the instances that are no rehearsals and whose states are non-terminal from
`Pending` on. -/
theorem ledger_exact {E : Setting σ} {w : World σ}
    (h : RunOf E World.Begins Verb.plainHosts Ungapped w) :
    LedgerExact w w.ledger ∧ LedgerExact w w.stored := by
  have hk : LedgerKept E w := (ledgerInvariant E).run (fun w hw hg => by
    have none_ : ∀ x, ¬Reserved w x := by
      rintro x ⟨j, r, hr, -⟩
      rw [hw.instances] at hr
      cases hr
    refine ⟨fun j r hr => ?_, fun x => ?_, fun x => ?_, hg⟩
    · rw [hw.instances] at hr
      cases hr
    · rw [hw.ledger]
      exact ⟨nofun, fun h => absurd h (none_ x)⟩
    · rw [hw.stored]
      exact ⟨nofun, fun h => absurd h (none_ x)⟩) h
  exact ⟨hk.memory, hk.stored⟩

/-! ## A sink that refuses the last entry of an instance -/

/-- An exact ledger with entries has an instance that reserves. -/
theorem LedgerExact.reserving {w : World σ} {l : Ledger} (h : LedgerExact w l)
    (hl : l.held.isEmpty = false) : (w.instances.records.any fun r => r.core.reserving) = true := by
  obtain ⟨x, hx⟩ : ∃ x, x ∈ l.held := List.exists_mem_of_ne_nil _ fun he => by
    rw [he] at hl
    cases hl
  obtain ⟨j, r, hr, hres, -⟩ := (h x).mp hx
  exact List.any_eq_true.mpr ⟨r, List.mem_map_of_mem (Assoc.mem_of_get hr), hres⟩

namespace SinkRefuses

/-- The sink refuses to hear that an instance is closed. -/
def script : Script where
  refuses e := match e.event with
    | .closed _ => true
    | _ => false

abbrev site : Setting Nat := script.setting

def plan : PlanIr := smallPlan "p" "web" [ownFile "/etc/motd"]

def applied : World Nat := (exec site (.apply plan [] {}) (smallWorld ["web"])).2

def recanted : World Nat := (exec site (.recant "p.web.00000000" []) applied).2

def booted : World Nat := restart site (smallWorld ["web"]).hosts recanted

theorem told_booted : applied.up = true ∧ booted.up = true ∧
    (booted.instances.records.any fun r => r.core.reserving) = false ∧
    booted.ledger.held.isEmpty = false ∧ booted.stored.held.isEmpty = false := by decide +kernel

theorem run_booted : Run site booted := by
  have h : Run site applied :=
    Run.exec (.start (begins_smallWorld _) trivial) (.apply plan [] {}) rfl
  exact (h.exec (.recant "p.web.00000000" []) told_booted.1).restart _

/-- The instance is closed, boot went through, and the ledger still has its
reservation. -/
theorem keeps_reservation : Run site booted ∧ booted.up = true ∧
    ¬LedgerExact booted booted.ledger ∧ ¬LedgerExact booted booted.stored := by
  obtain ⟨-, hup, hn, hmemory, hstored⟩ := told_booted
  refine ⟨run_booted, hup, fun h => ?_, fun h => ?_⟩
  · exact absurd ((h.reserving hmemory).symm.trans hn) nofun
  · exact absurd ((h.reserving hstored).symm.trans hn) nofun

theorem plain_plan : Verb.plainHosts (.apply plan [] {}) := by
  show ∀ u ∈ umbras plan.plan, '@' ∉ u.1.toList
  decide +kernel

theorem ungapped_applied : Ungapped applied := by
  unfold Ungapped
  decide +kernel

theorem run_start : RunOf site World.Begins Verb.plainHosts Ungapped (smallWorld ["web"]) :=
  .start (begins_smallWorld _) rfl

theorem run_applied : RunOf site World.Begins Verb.plainHosts Ungapped applied :=
  RunOf.verb run_start (.apply plan [] {}) plain_plan rfl ungapped_applied

theorem exact_while_applied : RunOf site World.Begins Verb.plainHosts Ungapped applied ∧
    LedgerExact applied applied.ledger ∧ LedgerExact applied applied.stored :=
  ⟨run_applied, ledger_exact run_applied⟩

end SinkRefuses

end Rescind
