/-
# `Rescind.Safety.Drills` — what a drill attests to

A drill that attests has read, before the plan was applied and again after it was
recanted, every fact that an entry of a footprint names outright, and both reads
agree.  An entry with a placeholder is not read: the facts are listed before the
plan runs, with neither the parameters nor the values of the run put in.  A fact that
only such entries name is not attested to, though its name was known.

Hosts are told apart by their names.  What the probes of the site read is not
assumed.

**Proved here.**

    a listing reads every fact that is named outright          (`Listing.drillFacts`)
    neither the application nor the recant changes the hosts   (`hosts_apply`, `hosts_recant`)
    an attestation is true of what is named outright, and of
    the whole application exactly where all of it is           (`attests_iff`)
    a fact that is named by a parameter is not read, and the
    drill attests nevertheless                                 (`Blind.attests_unread`)
-/
import Rescind.Engine.Drill
import Rescind.Engine.Script
import Rescind.Turn.Runs

namespace Rescind

open Lib
open Lib.Prog (Keeps bind_ok_inv)

/-! ## The inventory over a turn -/

section
variable {σ α : Type} {E : Setting σ}

theorem Move.hosts {p p' : Phase × World σ} (h : Move E p p') : p'.2.hosts = p.2.hosts := by
  have framed : ∀ {w w' : World σ} {f : Frame}, w'.frame = f → f.hosts = w.hosts →
      w'.hosts = w.hosts := fun hf hw => (congrArg Frame.hosts hf).trans hw
  cases h with
  | quiet h => exact framed h.frame rfl
  | check _ _ h | request _ h | transit _ _ _ h | mark _ _ _ h | handOff h | choose _ h | pop h
  | fired h => exact framed h.frame rfl
  | _ => rfl

theorem Moves.hosts {p p' : Phase × World σ} (h : Moves E p p') : p'.2.hosts = p.2.hosts := by
  induction h with
  | refl => rfl
  | tail _ h ih => rw [h.hosts, ih]

/-- The moves of a turn that returns. -/
theorem moves_turn {φ : Phase} {m : Eng σ α} {Q : α → Phase → World σ → Prop} {w w' : World σ}
    {a : α} (h : Turns E φ m Q w) (hm : m w = (.ok a, w')) : ∃ φ', Moves E (φ, w) (φ', w') := by
  unfold Turns Prog.Traces at h
  rw [hm] at h
  obtain ⟨φ', hmoves, -⟩ := h
  exact ⟨φ', hmoves⟩

/-- It leaves the inventory as it was. -/
theorem hosts_turn {φ : Phase} {m : Eng σ α} {Q : α → Phase → World σ → Prop} {w w' : World σ}
    {a : α} (h : Turns E φ m Q w) (hm : m w = (.ok a, w')) : w'.hosts = w.hosts := by
  obtain ⟨_, hmoves⟩ := moves_turn h hm
  exact Moves.hosts hmoves

/-- The inventory is as it was. -/
def SameHosts (w w' : World σ) : Prop := w'.hosts = w.hosts

instance : Coarse (SameHosts (σ := σ)) where
  refl _ := rfl
  trans _ _ _ h h' := Eq.trans h' h
  still h := congrArg Frame.hosts h.frame

theorem readInstance_ok {id : String} {w w' : World σ} {x : Option InstanceRecord}
    (h : readInstance E id w = (.ok x, w')) : SameHosts w w' ∧ x = w'.instances.read id := by
  obtain ⟨_, w₁, hr, h⟩ := bind_ok_inv h
  cases h
  exact ⟨(keeps_readOk E (R := SameHosts) _).ran hr, rfl⟩

theorem hosts_loaded {id : String} {m : Eng σ Outcome} (h : Loaded E id m) {w w' : World σ}
    {out : Outcome} (hm : m w = (.ok out, w')) : w'.hosts = w.hosts := by
  obtain ⟨k, rfl, hturns⟩ := h
  obtain ⟨_, w₁, hload, hk⟩ := bind_ok_inv hm
  obtain ⟨x, w₂, hread, hload⟩ := bind_ok_inv hload
  obtain ⟨hsame, rfl⟩ := readInstance_ok hread
  match hr : w₂.instances.read id with
  | none =>
      rw [hr] at hload
      cases hload
  | some r =>
      rw [hr] at hload
      cases hload
      have hid : r.id = id := Store.id_of_read hr
      exact (hosts_turn (hturns _ (durable_of_read (hid ▸ hr))) hk).trans hsame

theorem hosts_recant {id : String} {force : List ForceName} {w w' : World σ} {out : Outcome}
    (h : recant E id force w = (.ok out, w')) : w'.hosts = w.hosts :=
  hosts_loaded (loaded_recant E id force) h

/-- What is left of an id that was not refused is dead. -/
theorem refuseTaken_ok {id : String} {rehearsal : Bool} {w w' : World σ}
    (h : refuseTaken E id rehearsal w = (.ok (), w')) : SameHosts w w' ∧
      (rehearsal = true ∨ ∀ d, w'.instances.read id = some d → terminal d.state = true) := by
  cases rehearsal with
  | true =>
      cases h
      exact ⟨rfl, .inl rfl⟩
  | false =>
      obtain ⟨x, w₁, hread, h⟩ := bind_ok_inv h
      obtain ⟨hsame, rfl⟩ := readInstance_ok hread
      match hr : w₁.instances.read id with
      | none =>
          rw [hr] at h
          cases h
          exact ⟨hsame, .inr fun d hd => by rw [hr] at hd; cases hd⟩
      | some r =>
          rw [hr] at h
          by_cases ht : terminal r.state = true
          · simp only [ht, Bool.not_true, Prog.failIf, Bool.false_eq_true, if_false] at h
            cases h
            refine ⟨hsame, .inr fun d hd => ?_⟩
            rw [hr] at hd
            cases hd
            exact ht
          · simp only [ht, Bool.not_false, Prog.failIf, if_true] at h
            cases h

theorem takeUp_bind {r : InstanceRecord} {k : Unit → Eng σ α} {w : World σ} :
    (takeUp r >>= k) w = k () { w with hand := r } := rfl

/-- An application that returns is a turn of a blank record. -/
theorem moves_apply {ir : PlanIr} {params : Vars} {opts : ApplyOptions} {w w' : World σ}
    {out : Outcome} (h : apply E ir params opts w = (.ok out, w')) :
    ∃ nonce w₁ φ, w₁.hosts = w.hosts ∧
      w₁.hand = blankRecord E (underMode ir opts.mode) params opts nonce ∧
      Moves E (.beginning, w₁) (φ, w') := by
  unfold apply at h
  split at h
  · cases h
  · obtain ⟨now, w₁, hnow, h⟩ := bind_ok_inv h
    obtain ⟨nonce, w₂, hnonce, h⟩ := bind_ok_inv h
    obtain ⟨_, w₃, hfree, h⟩ := bind_ok_inv h
    obtain ⟨hsame, hu⟩ := refuseTaken_ok hfree
    have h₁ : w₁.hosts = w.hosts := (keeps_ask E (R := SameHosts) (X := True) _).ran hnow
    have h₂ : w₂.hosts = w₁.hosts := (keeps_ask E (R := SameHosts) (X := True) _).ran hnonce
    unfold begin_ at h
    rw [Prog.bind_assoc, Prog.bind_assoc, Prog.bind_assoc, Prog.bind_assoc, takeUp_bind] at h
    obtain ⟨φ, hmoves⟩ := moves_turn (φ := .beginning) (Q := Over)
      (w := { w₃ with hand := blankRecord E (underMode ir opts.mode) params opts nonce })
      (turns_begin E ⟨rfl, rfl, rfl, rfl, rfl⟩ hu fun w₄ hs =>
        Turns.quietly E (keeps_log E _) fun _ _ hq => turns_applyFresh E now (hq.state.trans hs)) h
    exact ⟨nonce, { w₃ with hand := blankRecord E (underMode ir opts.mode) params opts nonce }, φ,
      hsame.trans (h₂.trans h₁), rfl, hmoves⟩

theorem hosts_apply {ir : PlanIr} {params : Vars} {opts : ApplyOptions} {w w' : World σ}
    {out : Outcome} (h : apply E ir params opts w = (.ok out, w')) : w'.hosts = w.hosts := by
  obtain ⟨nonce, w₁, φ, hhosts, -, hmoves⟩ := moves_apply h
  exact (Moves.hosts hmoves).trans hhosts

/-- The record it leaves in hand is of the plan it was given. -/
theorem hand_apply {ir : PlanIr} {params : Vars} {opts : ApplyOptions} {w w' : World σ}
    {out : Outcome} (h : apply E ir params opts w = (.ok out, w')) :
    w'.hand.ir = underMode ir opts.mode ∧ w'.hand.params = params := by
  obtain ⟨nonce, w₁, φ, -, hhand, hmoves⟩ := moves_apply h
  have hi := Moves.identity hmoves
  rw [hhand] at hi
  exact ⟨congrArg (fun x => x.2.1) hi, congrArg (fun x => x.2.2.1) hi⟩

end

namespace Drill

variable {σ : Type} {E : Setting σ}

/-! ## Reads -/

/-- Reads of facts, one after another. -/
inductive Reads (E : Setting σ) : World σ → World σ → Prop
  | done (w : World σ) : Reads E w w
  | read {w w₁ w' : World σ} {host : Host} {shape : String} {x : Res String (Option Bytes)}
      (h : factBytes E host shape w = (x, w₁)) (rest : Reads E w₁ w') : Reads E w w'

theorem Reads.trans {w w₁ w' : World σ} (h : Reads E w w₁) (h' : Reads E w₁ w') :
    Reads E w w' := by
  induction h with
  | done => exact h'
  | read hr _ ih => exact .read hr (ih h')

/-- Reads leave the inventory as it was. -/
theorem Reads.hosts {w w' : World σ} (h : Reads E w w') : w'.hosts = w.hosts := by
  induction h with
  | done => rfl
  | read hr _ ih => rw [ih, (keeps_factBytes E (R := SameHosts) _ _).ran hr]

/-- Among these reads the fact was read on the host of this name: by digest, or it was
not there. -/
def ReadAmong (E : Setting σ) (w w' : World σ) (name shape : String) (d : Option String) : Prop :=
  ∃ host u bytes u', host.name = name ∧ Reads E w u ∧
    factBytes E host shape u = (.ok bytes, u') ∧ Reads E u' w' ∧ d = bytes.map E.sha256

theorem ReadAmong.more {w w₁ w' : World σ} {name shape : String} {d : Option String}
    (h : ReadAmong E w w₁ name shape d) (hr : Reads E w₁ w') : ReadAmong E w w' name shape d := by
  obtain ⟨host, u, bytes, u', hn, hu, hb, hu', hd⟩ := h
  exact ⟨host, u, bytes, u', hn, hu, hb, hu'.trans hr, hd⟩

/-! ## A listing -/

/-- A listing of facts: made by reads alone, it has every fact of the list that is named
outright and no other, and what it says was read was. -/
structure Listing (E : Setting σ) (facts : List (Host × FootprintEntry)) (w w' : World σ)
    (out : List DrilledFact) : Prop where
  reads : Reads E w w'
  entries : ∀ f ∈ out, f.unread = none → ReadAmong E w w' f.host f.shape f.before
  covers : ∀ p ∈ facts, runtimeBound p.2.shape = false →
    ∃ f ∈ out, f.isOf p.1.name p.2.shape = true
  outright : ∀ f ∈ out, ∃ p ∈ facts, runtimeBound p.2.shape = false ∧
    f.isOf p.1.name p.2.shape = true

theorem isOf_iff {host shape : String} {f : DrilledFact} :
    f.isOf host shape = true ↔ f.host = host ∧ f.shape = shape := by
  unfold DrilledFact.isOf
  rw [Bool.and_eq_true, decide_eq_true_eq, decide_eq_true_eq]

theorem Listing.nil (w : World σ) : Listing E [] w w [] where
  reads := .done w
  entries _ hf := absurd hf List.not_mem_nil
  covers _ hp := absurd hp List.not_mem_nil
  outright _ hf := absurd hf List.not_mem_nil

/-- One more entry, read or not. -/
theorem Listing.append {facts : List (Host × FootprintEntry)} {w w₁ w' : World σ}
    {out : List DrilledFact} (h : Listing E facts w w₁ out) {host : Host} {e : FootprintEntry}
    {f : DrilledFact} (hr : Reads E w₁ w') (hf : f.isOf host.name e.shape = true)
    (hstatic : runtimeBound e.shape = false)
    (hread : f.unread = none → ReadAmong E w w' f.host f.shape f.before) :
    Listing E (facts ++ [(host, e)]) w w' (out ++ [f]) where
  reads := h.reads.trans hr
  entries g hg hu := by
    rcases List.mem_append.mp hg with hg | hg
    · exact (h.entries g hg hu).more hr
    · cases List.mem_singleton.mp hg
      exact hread hu
  covers p hp hs := by
    rcases List.mem_append.mp hp with hp | hp
    · obtain ⟨g, hg, he⟩ := h.covers p hp hs
      exact ⟨g, List.mem_append_left _ hg, he⟩
    · cases List.mem_singleton.mp hp
      exact ⟨f, List.mem_append_right _ (List.mem_singleton_self f), hf⟩
  outright g hg := by
    rcases List.mem_append.mp hg with hg | hg
    · obtain ⟨p, hp, h⟩ := h.outright g hg
      exact ⟨p, List.mem_append_left _ hp, h⟩
    · cases List.mem_singleton.mp hg
      exact ⟨(host, e), List.mem_append_right _ (List.mem_singleton_self _), hstatic, hf⟩

/-- What one round of the loop adds. -/
theorem Listing.drillFact {facts : List (Host × FootprintEntry)} {w w₁ w' : World σ}
    {out out' : List DrilledFact} (h : Listing E facts w w₁ out) {p : Host × FootprintEntry}
    (hm : Rescind.drillFact E p out w₁ = (.ok out', w')) : Listing E (facts ++ [p]) w w' out' := by
  obtain ⟨host, e⟩ := p
  unfold Rescind.drillFact at hm
  simp only at hm
  split at hm
  next hskip =>
    -- Nothing is read: the shape names no fact yet, or the fact is listed.
    cases hm
    refine ⟨h.reads, h.entries, fun q hq hs => ?_, fun g hg => ?_⟩
    · rcases List.mem_append.mp hq with hq | hq
      · exact h.covers q hq hs
      · cases List.mem_singleton.mp hq
        rw [hs, Bool.false_or, List.any_eq_true] at hskip
        exact hskip
    · obtain ⟨q, hq, h⟩ := h.outright g hg
      exact ⟨q, List.mem_append_left _ hq, h⟩
  next hnew =>
    have hstatic : runtimeBound e.shape = false := by
      rw [Bool.or_eq_true, not_or] at hnew
      exact Bool.eq_false_of_not_eq_true hnew.1
    obtain ⟨x, w₂, hread, hm⟩ := bind_ok_inv hm
    have hself : ∀ f : DrilledFact, f.host = host.name → f.shape = e.shape →
        f.isOf host.name e.shape = true := fun f hh hs => isOf_iff.mpr ⟨hh, hs⟩
    cases x with
    | ok bytes =>
        cases hm
        have hb := Prog.attempt_ok_inv hread
        exact h.append (.read hb (.done _)) (hself _ rfl rfl) hstatic fun _ =>
          ⟨host, w₁, bytes, _, rfl, h.reads, hb, .done _, by cases bytes <;> rfl⟩
    | error why =>
        cases hm
        have hb := Prog.attempt_err_inv hread
        exact h.append (.read hb (.done _)) (hself _ rfl rfl) hstatic fun hu => by cases hu

theorem Listing.loop {facts : List (Host × FootprintEntry)} {w w₁ w' : World σ}
    {out out' : List DrilledFact} (h : Listing E facts w w₁ out)
    (rest : List (Host × FootprintEntry))
    (hm : Prog.loop (Rescind.drillFact E) rest out w₁ = (.ok out', w')) :
    Listing E (facts ++ rest) w w' out' := by
  induction rest generalizing facts w₁ out with
  | nil =>
      cases hm
      rw [List.append_nil]
      exact h
  | cons p rest ih =>
      obtain ⟨out₁, w₂, hp, hm⟩ := bind_ok_inv hm
      have := ih (h.drillFact hp) hm
      rwa [List.append_assoc] at this

/-- **A listing** reads every fact that is named outright. -/
theorem Listing.drillFacts {r : InstanceRecord} {hosts : List Host} {w w' : World σ}
    {out : List DrilledFact} (hm : Rescind.drillFacts E r hosts w = (.ok out, w')) :
    Listing E (hosts.flatMap (factsOn E w.hosts r)) { w with hand := r } w' out :=
  (Listing.nil _).loop (hosts.flatMap (factsOn E w.hosts r)) hm

/-! ## Pairing two listings -/

/-- A pair is restored where both reads went well and agree. -/
theorem pairFact_restored {after : List DrilledFact} {b : DrilledFact}
    (h : (pairFact after b).restored = true) : b.unread = none ∧
      ∀ a, after.find? (DrilledFact.isOf b.host b.shape) = some a →
        a.unread = none ∧ a.before = b.before := by
  unfold DrilledFact.restored pairFact at h
  rw [Bool.and_eq_true, Option.isNone_iff_eq_none, decide_eq_true_eq] at h
  obtain ⟨hu, hsame⟩ := h
  obtain ⟨hb, ha⟩ := Option.or_eq_none_iff.mp hu
  refine ⟨hb, fun a hfind => ?_⟩
  rw [hfind] at ha hsame
  exact ⟨ha, hsame.symm⟩

/-- The listing says of the fact that it was read, and what: a digest, or that it was not
there. -/
def Lists (facts : List DrilledFact) (name shape : String) (d : Option String) : Prop :=
  ∃ f ∈ facts, f.isOf name shape = true ∧ f.unread = none ∧ f.before = d

/-- Where every pair is restored, every fact named outright was read twice, and the
same. -/
theorem read_twice {facts : List (Host × FootprintEntry)} {w w₁ w₂ w₃ : World σ}
    {before after : List DrilledFact} (hb : Listing E facts w w₁ before)
    (ha : Listing E facts w₂ w₃ after)
    (hr : (before.map (pairFact after)).all DrilledFact.restored = true)
    {p : Host × FootprintEntry} (hp : p ∈ facts) (hs : runtimeBound p.2.shape = false) :
    ∃ d, (Lists before p.1.name p.2.shape d ∧ ReadAmong E w w₁ p.1.name p.2.shape d) ∧
      Lists after p.1.name p.2.shape d ∧ ReadAmong E w₂ w₃ p.1.name p.2.shape d := by
  obtain ⟨b, hmem, hof⟩ := hb.covers p hp hs
  obtain ⟨hhost, hshape⟩ := isOf_iff.mp hof
  obtain ⟨hunread, hpair⟩ :=
    pairFact_restored (List.all_eq_true.mp hr _ (List.mem_map_of_mem hmem))
  obtain ⟨a, hfind⟩ : ∃ a, after.find? (DrilledFact.isOf b.host b.shape) = some a := by
    obtain ⟨g, hg, hgof⟩ := ha.covers p hp hs
    rw [hhost, hshape]
    exact Option.isSome_iff_exists.mp (List.find?_isSome.mpr ⟨g, hg, hgof⟩)
  obtain ⟨haunread, hsame⟩ := hpair a hfind
  obtain ⟨hahost, hashape⟩ := isOf_iff.mp (List.find?_some hfind)
  have hbread := hb.entries b hmem hunread
  have haread := ha.entries a (List.mem_of_find?_eq_some hfind) haunread
  rw [hhost, hshape] at hbread
  rw [hahost, hashape, hhost, hshape, hsame] at haread
  exact ⟨b.before, ⟨⟨b, hmem, hof, hunread, rfl⟩, hbread⟩,
    ⟨a, List.mem_of_find?_eq_some hfind,
      isOf_iff.mpr ⟨hahost.trans hhost, hashape.trans hshape⟩, haunread, hsame⟩, haread⟩

/-! ## The hosts of a drill -/

/-- Every step's host is among those found, by its name. -/
theorem namedHosts_covers {hosts : Assoc String Host} {r : InstanceRecord}
    {items : List (Nat × Item)} {found hs : List Host}
    (h : namedHosts E hosts r items found = .ok hs) : (∀ x ∈ found, x ∈ hs) ∧
      ∀ p ∈ items, ∀ op, opOf p.2 = some op →
        ∃ host, stepHost E hosts r op = .ok host ∧ ∃ x ∈ hs, x.name = host.name := by
  induction items generalizing found with
  | nil =>
      cases h
      exact ⟨fun _ => id, fun p hp => absurd hp List.not_mem_nil⟩
  | cons p items ih =>
      obtain ⟨n, it⟩ := p
      unfold namedHosts at h
      cases hop : opOf it with
      | none =>
          rw [hop] at h
          obtain ⟨hold, hnew⟩ := ih h
          refine ⟨hold, fun q hq op hqop => ?_⟩
          rcases List.mem_cons.mp hq with rfl | hq
          · rw [hop] at hqop
            cases hqop
          · exact hnew q hq op hqop
      | some o =>
          rw [hop] at h
          cases hhost : stepHost E hosts r o with
          | error b =>
              simp [hhost] at h
          | ok host =>
              simp only [hhost] at h
              obtain ⟨hold, hnew⟩ := ih h
              have hhere : ∃ x ∈ hs, x.name = host.name := by
                split at hold
                next hany =>
                  obtain ⟨x, hx, he⟩ := List.any_eq_true.mp hany
                  exact ⟨x, hold x hx, of_decide_eq_true he⟩
                next => exact ⟨host, hold host (List.mem_append_right _ (List.mem_singleton_self _)), rfl⟩
              refine ⟨fun x hx => hold x ?_, fun q hq op hqop => ?_⟩
              · split
                · exact hx
                · exact List.mem_append_left _ hx
              · rcases List.mem_cons.mp hq with rfl | hq
                · rw [hop] at hqop
                  cases hqop
                  exact ⟨host, hhost, hhere⟩
                · exact hnew q hq op hqop

/-- The hosts of a drill are canaries, and the hosts of its steps are among them. -/
theorem drillHosts_ok {hosts : Assoc String Host} {r : InstanceRecord} {hs : List Host}
    (h : drillHosts E hosts r = .ok hs) : (∀ x ∈ hs, x.canary = true) ∧
      ∀ p ∈ numbered r.plan.body, ∀ op, opOf p.2 = some op →
        ∃ host, stepHost E hosts r op = .ok host ∧ ∃ x ∈ hs, x.name = host.name := by
  unfold drillHosts at h
  cases hn : namedHosts E hosts r (numbered r.plan.body) [] with
  | error e =>
      rw [hn] at h
      cases h
  | ok found =>
      rw [hn] at h
      cases hf : found.find? fun h => !h.canary with
      | some x =>
          simp only [bind, Except.bind, hf] at h
          cases h
      | none =>
          simp only [bind, Except.bind, hf] at h
          cases h
          refine ⟨fun x hx => ?_, (namedHosts_covers hn).2⟩
          simpa using List.find?_eq_none.mp hf x hx

/-! ## A drill -/

/-- The hosts of a drill and its two listings, the worlds between its parts, and what it
was told of the two verbs. -/
structure Course (σ : Type) where
  hosts : List Host
  listing : World σ
  before : List DrilledFact
  applying : World σ
  out : Outcome
  applied : World σ
  recanted : Outcome
  gone : World σ
  after : List DrilledFact
  done : World σ

/-- The world the second listing begins in: the record in hand is the first one's. -/
def Course.relisting (c : Course σ) : World σ := { c.gone with hand := c.listing.hand }

/-- A drill that listed the facts, applied the plan, recanted it and listed them
again. -/
structure Ran (E : Setting σ) (ir : PlanIr) (params : Vars) (opts : ApplyOptions) (w : World σ)
    (c : Course σ) : Prop where
  begins : ∃ nonce w₁, (ask E .nonce : Eng σ String) w = (.ok nonce, w₁) ∧
    c.listing = { w₁ with hand := blankRecord E ir params opts nonce }
  canaries : drillHosts E w.hosts c.listing.hand = .ok c.hosts
  before : drillFacts E c.listing.hand c.hosts c.listing = (.ok c.before, c.applying)
  apply : Rescind.apply E ir params opts c.applying = (.ok c.out, c.applied)
  went : c.out.state = .applied
  recant : Rescind.recant E c.out.id [] c.applied = (.ok c.recanted, c.gone)
  closed : c.recanted.state = .closed
  after : drillFacts E c.listing.hand c.hosts c.relisting = (.ok c.after, c.done)

/-- A fact an application has: an observable entry of its op, with the application's
variables, the parameters and the outputs in its shape.  The entry as the plan has it
is `e`. -/
structure FactOf (E : Setting σ) (hosts : Assoc String Host) (r : InstanceRecord) (a : AppliedStep)
    (host : Host) (e : FootprintEntry) (shape : String) : Prop where
  named : ∃ o c f, r.opAt a.step = some o ∧ stepHost E hosts r o = .ok host ∧
    concreteOp o host (envFor r a.vars) = .ok c ∧ f ∈ observedFacts c.footprint ∧
    o.footprint[f.1]? = some e ∧ f.2.1.shape = shape

/-- The fact was read before the plan was applied and again after it was recanted, both
listings say so, and the reads agree. -/
def ReadTwice (E : Setting σ) (c : Course σ) (name shape : String) : Prop :=
  ∃ d, (Lists c.before name shape d ∧ ReadAmong E c.listing c.applying name shape d) ∧
    Lists c.after name shape d ∧ ReadAmong E c.relisting c.done name shape d

/-- Of every application of the plan, be it one that ran or not, every fact whose entry is
named outright was read twice. -/
def Attests (E : Setting σ) (ir : PlanIr) (w : World σ) (c : Course σ) : Prop :=
  ∀ r a host e shape, r.plan.body = ir.plan.body → r.plan.owner = ir.plan.owner →
    FactOf E w.hosts r a host e shape → runtimeBound e.shape = false →
    ReadTwice E c host.name shape

/-- Of every application that ran, every fact was read twice. -/
def Truthful (E : Setting σ) (w : World σ) (c : Course σ) : Prop :=
  ∀ a ∈ c.applied.hand.applied, ∀ host e shape,
    FactOf E w.hosts c.applied.hand a host e shape → ReadTwice E c host.name shape

/-- An entry of a step on the host of this name names the fact, without a placeholder. -/
def Outright (E : Setting σ) (w : World σ) (c : Course σ) (name shape : String) : Prop :=
  runtimeBound shape = false ∧
    ∃ p ∈ c.hosts.flatMap (factsOn E w.hosts c.listing.hand), p.1.name = name ∧ p.2.shape = shape

/-- Of every application that ran, every fact is named outright. -/
def Named (E : Setting σ) (w : World σ) (c : Course σ) : Prop :=
  ∀ a ∈ c.applied.hand.applied, ∀ host e shape,
    FactOf E w.hosts c.applied.hand a host e shape → Outright E w c host.name shape

theorem stepHost_owner {hosts : Assoc String Host} {r r' : InstanceRecord}
    (h : r.plan.owner = r'.plan.owner) (o : Op) : stepHost E hosts r o = stepHost E hosts r' o := by
  unfold stepHost
  rw [h]

/-- A fact named outright is on the list of what a drill reads. -/
theorem FactOf.listed {hosts : Assoc String Host} {r r' : InstanceRecord} {a : AppliedStep}
    {host : Host} {e : FootprintEntry} {shape : String} {hs : List Host}
    (h : FactOf E hosts r a host e shape) (hhosts : drillHosts E hosts r' = .ok hs)
    (hbody : r.plan.body = r'.plan.body) (howner : r.plan.owner = r'.plan.owner)
    (hstatic : runtimeBound e.shape = false) : e.shape = shape ∧
      ∃ x, x.name = host.name ∧ (x, e) ∈ hs.flatMap (factsOn E hosts r') := by
  obtain ⟨o, c, f, hop, hhost, hc, hf, he, hshape⟩ := h.named
  obtain ⟨hat, hother⟩ := entry_of_observedFacts hf
  have hsame : f.2.1 = e := Option.some.inj (hat.symm.trans (concreteOp_static hc he hstatic))
  obtain ⟨it, hnum, hit⟩ := mem_numbered_of_opAt hop
  rw [hbody] at hnum
  rw [stepHost_owner howner] at hhost
  obtain ⟨host', hhost', x, hx, hname⟩ := (drillHosts_ok hhosts).2 _ hnum o hit
  cases hhost.symm.trans hhost'
  refine ⟨by rw [← hshape, hsame], x, hname, List.mem_flatMap.mpr ⟨x, hx, ?_⟩⟩
  refine List.mem_flatMap.mpr ⟨(a.step, it), hnum, ?_⟩
  have hon : onThisHost E hosts r' x o = true := by
    unfold onThisHost
    rw [hhost]
    exact decide_eq_true hname.symm
  simp only [hit, hon, if_true]
  exact List.mem_map.mpr ⟨f, hother _ (by rw [he, hsame]), by rw [hsame]⟩

theorem attest_ok {a : Attested} {w w' : World σ} {att : Attestation}
    (h : attest E a w = (.ok att, w')) : att.facts = a.before.map (pairFact a.after) ∧
      att.restored = (decide (a.exit = 0) && !att.facts.isEmpty &&
        att.facts.all DrilledFact.restored && a.why.isNone) := by
  obtain ⟨_, w₁, -, h⟩ := bind_ok_inv h
  cases h
  exact ⟨rfl, rfl⟩

/-- **A drill's attestation is true** of every fact that is named outright; of every fact
of the applications that ran it is true exactly where each of them is. -/
theorem attests_iff {ir : PlanIr} {params : Vars} {opts : ApplyOptions} {w w' : World σ}
    {att : Attestation} (h : drill E ir params opts w = (.ok att, w')) (hr : att.restored = true) :
    att.facts ≠ [] ∧ ∃ c, Ran E ir params opts w c ∧ Attests E ir w c ∧
      (Truthful E w c ↔ Named E w c) := by
  obtain ⟨nonce, w₁, hnonce, h⟩ := bind_ok_inv h
  dsimp only at h
  split at h
  · cases h
  · obtain ⟨known, w₂, hknown, h⟩ := bind_ok_inv h
    cases hknown
    obtain ⟨hs, w₂, hhosts, h⟩ := bind_ok_inv h
    have hok := Prog.Yields.ofExcept _ _ _ _ hhosts
    rw [hok] at hhosts
    cases hhosts
    obtain ⟨before, w₃, hbefore, h⟩ := bind_ok_inv h
    obtain ⟨out, w₄, happly, h⟩ := bind_ok_inv h
    split at h
    · -- The plan did not apply: exit 3.
      rw [(attest_ok h).2] at hr
      simp at hr
    next hwent =>
      obtain ⟨recanted, w₅, hrecant, h⟩ := bind_ok_inv h
      obtain ⟨after, w₆, hafter, h⟩ := bind_ok_inv h
      split at h
      next hclosed =>
        have hrestored := (attest_ok h).2.symm.trans hr
        rw [Bool.and_eq_true, Bool.and_eq_true, Bool.and_eq_true] at hrestored
        obtain ⟨⟨⟨-, hsome⟩, hall⟩, -⟩ := hrestored
        rw [(attest_ok h).1] at hall
        have hb := Listing.drillFacts hbefore
        have ha := Listing.drillFacts hafter
        have h₁ : w₁.hosts = w.hosts := (keeps_ask E (R := SameHosts) (X := True) _).ran hnonce
        have h₃ : w₃.hosts = w₁.hosts := hb.reads.hosts
        have h₅ : w₅.hosts = w₁.hosts := by rw [hosts_recant hrecant, hosts_apply happly, h₃]
        have hsame : factsOn E w₅.hosts (blankRecord E ir params opts nonce) =
            factsOn E w₁.hosts (blankRecord E ir params opts nonce) := by rw [h₅]
        have hsame₁ : factsOn E w₁.hosts (blankRecord E ir params opts nonce) =
            factsOn E w.hosts (blankRecord E ir params opts nonce) := by rw [h₁]
        rw [hsame, hsame₁] at ha
        rw [hsame₁] at hb
        rw [h₁] at hok
        have hne : att.facts ≠ [] := fun hnil => by
          rw [hnil] at hsome
          cases hsome
        have htwice := fun {p} => @read_twice _ _ _ _ _ _ _ _ _ hb ha hall p
        refine ⟨hne, ⟨hs, _, before, w₃, out, w₄, recanted, w₅, after, w₆⟩,
          ⟨⟨nonce, w₁, hnonce, rfl⟩, hok, hbefore, happly, not_not.mp hwent, hrecant, hclosed, hafter⟩,
          fun r a host e shape hbody howner hfact hstatic => ?_, ?_, ?_⟩
        · obtain ⟨rfl, x, hname, hlisted⟩ := hfact.listed hok hbody howner hstatic
          rw [← hname]
          exact htwice hlisted hstatic
        · intro ht a hran host e shape hfact
          obtain ⟨d, ⟨⟨f, hf, hof, -⟩, -⟩, -⟩ := ht a hran host e shape hfact
          obtain ⟨p, hp, hstatic, hpof⟩ := hb.outright f hf
          obtain ⟨hhost, hshape⟩ := isOf_iff.mp hof
          obtain ⟨hphost, hpshape⟩ := isOf_iff.mp hpof
          rw [← hpshape, hshape] at hstatic
          exact ⟨hstatic, p, hp, hphost.symm.trans hhost, hpshape.symm.trans hshape⟩
        · intro hn a hran host e shape hfact
          obtain ⟨hstatic, p, hp, hname, rfl⟩ := hn a hran host e shape hfact
          rw [← hname]
          exact htwice hp hstatic
      next =>
        rw [(attest_ok h).2] at hr
        simp at hr

/-! ## What a scripted site reads -/

/-- A file reads as the script says, and a read moves nothing. -/
theorem factBytes_script {s : Script} {host : Host} {shape : String} {w : World Nat} :
    (factBytes s.setting host shape w).2 = w ∧
      ∀ bytes, (filePath shape).isSome = true →
        (factBytes s.setting host shape w).1 = .ok bytes → bytes = s.fact w.out shape := by
  cases hp : readingProbe s.setting w.hand host shape with
  | error e =>
      have hf : factBytes s.setting host shape w = (.err e, w) := by
        unfold factBytes
        simp only [hand, Prog.read, Prog.bind_eq, hp, Prog.ofExcept, Prog.fail]
      rw [hf]
      exact ⟨rfl, fun _ _ h => by cases h⟩
  | ok reader =>
      cases hi : executorIndex s.setting host with
      | none =>
          have hf : factBytes s.setting host shape w =
              (.err ("R0205: no executor reaches " ++ host.name ++ " to read " ++ shape), w) := by
            unfold factBytes
            simp only [hand, Prog.read, Prog.bind_eq, hp, Prog.ofExcept, hi, Prog.fail]
            rfl
          rw [hf]
          exact ⟨rfl, fun _ _ h => by cases h⟩
      | some i =>
          cases reader with
          | none =>
              have hf : factBytes s.setting host shape w = (.ok (s.fact w.out shape), w) := by
                unfold factBytes
                simp only [hand, Prog.read, Prog.bind_eq, hp, Prog.ofExcept, hi]
                rfl
              rw [hf]
              exact ⟨rfl, fun _ _ h => by cases h; rfl⟩
          | some nb =>
              obtain ⟨name, body⟩ := nb
              refine ⟨?_, fun bytes hfile => ?_⟩
              · have hask : (ask s.setting (.observe i host name body) : Try Nat _) w =
                  (.ok (.ok ⟨"", some (s.probe w.out name)⟩), w) := rfl
                unfold factBytes
                simp only [hand, Prog.read, Prog.bind_eq, hp, Prog.ofExcept, hi]
                refine (congrArg Prod.snd (Prog.bind_ok hask)).trans ?_
                cases s.probe w.out name <;> rfl
              · -- No probe reads a file.
                unfold readingProbe at hp
                rw [if_pos hfile] at hp
                cases hp

theorem Reads.eq {s : Script} {w w' : World Nat} (h : Reads s.setting w w') : w' = w := by
  induction h with
  | done => rfl
  | read hr _ ih => exact ih.trans ((congrArg Prod.snd hr).symm.trans factBytes_script.1)

/-- A file that was read reads so from the beginning. -/
theorem ReadAmong.fact {s : Script} {w w' : World Nat} {name shape : String} {d : Option String}
    (h : ReadAmong s.setting w w' name shape d) (hf : (filePath shape).isSome = true) :
    d = (s.fact w.out shape).map s.setting.sha256 := by
  obtain ⟨host, u, bytes, u', -, hu, hb, -, hd⟩ := h
  rw [hd, factBytes_script.2 bytes hf (congrArg Prod.fst hb), hu.eq]

end Drill

/-! ## A canary that did not come back -/

namespace Blind

open Drill

/-- What the second step wrote is there from then on. -/
def script : Script where
  fact n shape := if shape = "file:/srv/y" ∧ 2 ≤ n then some [120] else none

theorem fact_second {n : Nat} (h : 2 ≤ n) : script.fact n "file:/srv/y" = some [120] :=
  if_pos ⟨rfl, h⟩

abbrev site : Setting Nat := script.setting

def canary : Host := { smallHost "web" with facts := [("roles", "edge, canary")] }

/-- The file the second step owns is named by a parameter. -/
def owned : FootprintEntry := { kind := .owned, shape := "file:/srv/\x7bp\x7d" }

def second : Op where
  id := "put"
  footprint := [owned]
  do_ := [.write ⟨"file:/srv/\x7bp\x7d", none⟩ (.lit "x")]

def plan : PlanIr := smallPlan "p" "web" [ownFile "/etc/x", .step { op := second }]

def params : Vars := [("p", "y")]

def start : World Nat := { smallWorld ["web"] with hosts := [("web", canary)] }

/-- Where the first listing begins, and what the two verbs leave. -/
def listing : World Nat := { start with hand := blankRecord site plan params {} "" }

def applied : World Nat := (apply site plan params {} listing).2

def gone : World Nat := (recant site "p.web.00000000" [] applied).2

/-- What the drill reports. -/
def attestation : Attestation where
  plan := "p"
  inst := "p.web.00000000"
  hosts := ["web"]
  facts := [{ host := "web", shape := "file:/etc/x", before := none }]
  restored := true
  exit := 0

theorem told_drill : checkClean plan = true ∧
    (drill site plan params {} start).1 = .ok attestation ∧
    (apply site plan params {} listing).1 = .ok ⟨"p.web.00000000", .applied, 0⟩ ∧
    (⟨2, 0, []⟩ : AppliedStep) ∈ applied.hand.applied ∧ 2 ≤ gone.out := by decide +kernel

/-- The file of the second step, with the parameter in its name. -/
theorem factOf_second :
    FactOf site start.hosts applied.hand ⟨2, 0, []⟩ canary owned "file:/srv/y" := by
  obtain ⟨-, -, happly, -⟩ := told_drill
  obtain ⟨hir, hparams⟩ := hand_apply (Prog.eq_of_fst happly)
  have hshape : instantiate owned.shape canary (envFor applied.hand []) = .ok "file:/srv/y" := by
    rw [envFor, applied, hparams]
    decide +kernel
  have hop : concreteOp second canary (envFor applied.hand []) =
      .ok { second with footprint := [{ owned with shape := "file:/srv/y" }] } := by
    unfold concreteOp second
    simp only [mapE, hshape]
    rfl
  refine ⟨second, _, (0, { owned with shape := "file:/srv/y" }, "/srv/y"), ?_, ?_, hop,
    by decide +kernel, rfl, rfl⟩
  · rw [InstanceRecord.opAt, InstanceRecord.plan, applied, hir]
    rfl
  · rw [stepHost, InstanceRecord.plan, applied, hir]
    rfl

/-- The drill attests; the second step ran, and its file, whose name was known before it
did, was neither read nor put back. -/
theorem attests_unread : (drill site plan params {} start).1 = .ok attestation ∧
    attestation.restored = true ∧
    ¬ ∃ c, Ran site plan params {} start c ∧ Truthful site start c := by
  obtain ⟨-, hdrill, happly, hran, hout⟩ := told_drill
  refine ⟨hdrill, rfl, ?_⟩
  rintro ⟨c, hc, htrue⟩
  have hl : c.listing = listing := by
    obtain ⟨nonce, w₁, hnonce, hl⟩ := hc.begins
    cases hnonce
    exact hl
  have ha : c.applying = listing := (Listing.drillFacts hc.before).reads.eq.trans hl
  have happlied : c.applied = applied ∧ c.out.id = "p.web.00000000" := by
    have h := hc.apply
    rw [ha] at h
    have hid := (congrArg Prod.fst h).symm.trans happly
    exact ⟨(congrArg Prod.snd h).symm, congrArg Outcome.id (Res.ok.inj hid)⟩
  have hgone : c.gone = gone := by
    have h := hc.recant
    rw [happlied.1, happlied.2] at h
    exact (congrArg Prod.snd h).symm
  rw [Truthful, happlied.1] at htrue
  obtain ⟨d, ⟨-, hbefore⟩, -, hafter⟩ := htrue _ hran _ _ _ factOf_second
  have hb : d = none := by
    rw [hbefore.fact rfl, hl]
    rfl
  rw [hafter.fact rfl] at hb
  have hfact : script.fact c.relisting.out "file:/srv/y" = some [120] := by
    show script.fact c.gone.out "file:/srv/y" = some [120]
    rw [hgone]
    exact fact_second hout
  rw [hfact] at hb
  cases hb

/-! The same plan without the second step. -/

def plain : PlanIr := smallPlan "p" "web" [ownFile "/etc/x"]

theorem told_plain : (drill site plain [] {} start).1 = .ok attestation := by decide +kernel

theorem attests_plain : attestation.facts ≠ [] ∧ ∃ c, Ran site plain [] {} start c ∧
    Attests site plain start c ∧ (Truthful site start c ↔ Named site start c) :=
  attests_iff (Prog.eq_of_fst told_plain) rfl

end Blind

end Rescind
