/-
# `Rescind.Turn.Runs` — from moves to runs

An invariant of runs is given by what holds between two turns (`Kept`) and by
what holds inside one (`Held`).  It is enough that `Held` is kept by every move
of the machine, that a record taken up starts one, and that a turn that is over,
or was dropped, leaves `Kept` behind (`Invariant`).  Between two turns only the
outside, the inventory and what a process holds in memory change (`Between`).

**Proved here.**

    every verb, pass and restart keeps an invariant         (`Invariant.exec`, `Invariant.restart`)
    so every world a run reaches has it                     (`Invariant.run`)
    an invariant of the records is one                      (`Invariant.ofRecords`)
-/
import Rescind.Turn.Passes

namespace Rescind

open Lib Lib.Prog

variable {σ α β : Type}

/-! ## Between two turns -/

/-- What is durable, and the history, are as they were; the ledger in memory
is too, or was read again. -/
structure Between (w w' : World σ) : Prop where
  records : ∀ j, w'.instances.read j = w.instances.read j
  stored : w'.stored = w.stored
  ledger : w'.ledger = w.ledger ∨ w'.ledger = w.stored
  acts : w'.acts = w.acts
  gap : w'.gap = w.gap

theorem Between.refl (w : World σ) : Between w w := ⟨fun _ => rfl, rfl, .inl rfl, rfl, rfl⟩

theorem Between.trans {w w' w'' : World σ} (h : Between w w') (h' : Between w' w'') :
    Between w w'' where
  records := fun j => (h'.records j).trans (h.records j)
  stored := h'.stored.trans h.stored
  ledger := by
    rcases h'.ledger with hl | hl
    · rw [hl]; exact h.ledger
    · exact .inr (hl.trans h.stored)
  acts := h'.acts.trans h.acts
  gap := h'.gap.trans h.gap

theorem Between.of_frame {w w' : World σ} (hr : ∀ j, w'.instances.read j = w.instances.read j)
    (hf : w'.frame = w.frame) : Between w w' :=
  ⟨hr, congrArg Frame.stored hf, .inl (congrArg Frame.ledger hf), congrArg Frame.acts hf,
    congrArg Frame.gap hf⟩

instance : Coarse (Between (σ := σ)) where
  refl := Between.refl
  trans _ _ _ := Between.trans
  still h := .of_frame (fun j => by rw [h.instances]) h.frame

theorem durable_of_read {w : World σ} {r : InstanceRecord} (h : w.instances.read r.id = some r) :
    Durable { w with hand := r } := by
  show (w.instances.read r.id).map InstanceRecord.kern = some r.kern
  rw [h]
  rfl

theorem synced_of_read {w : World σ} {r : InstanceRecord} (h : w.instances.read r.id = some r) :
    Synced { w with hand := r } := (durable_of_read h).synced

/-! ## Invariants -/

/-- What is to be shown of an invariant of the runs whose verbs satisfy `V` and
whose worlds, between two turns, satisfy `C`. -/
structure Invariant (E : Setting σ) (V : Verb → Prop) (C : World σ → Prop) where
  Kept : World σ → Prop
  Held : Phase × World σ → Prop
  between : ∀ {w w'}, Between w w' → Kept w → Kept w'
  condition : ∀ {w w'}, Between w w' → C w' → C w
  take : ∀ {w r}, Kept w → w.instances.read r.id = some r → Held (.resting, { w with hand := r })
  fresh : ∀ {w ir params opts nonce}, Kept w → V (.apply ir params opts) →
    checkClean (underMode ir opts.mode) = true →
    Unblocked { w with hand := blankRecord E (underMode ir opts.mode) params opts nonce } →
    Held (.beginning, { w with hand := blankRecord E (underMode ir opts.mode) params opts nonce })
  move : ∀ {p p'}, Move E p p' → Held p → Held p'
  leave : ∀ {w}, Held (.resting, w) → Kept w
  drop : ∀ {φ w w'}, Held (φ, w) → Drops E φ w w' → C w' → Kept w'

namespace Invariant

variable {E : Setting σ} {V : Verb → Prop} {C : World σ → Prop} (I : Invariant E V C)

/-- The invariant outlives the program, which returned only with `Q`. -/
@[irreducible] def Outlives (m : Eng σ α) (Q : α → World σ → Prop) (w : World σ) : Prop :=
  match m w with
  | (.ok a, w') => I.Kept w' ∧ Q a w'
  | (.err _, w') => C w' → I.Kept w'
  | (.died, w') => C w' → I.Kept w'

variable {I} {w : World σ} {Q : α → World σ → Prop}

theorem Outlives.pure {a : α} (hk : I.Kept w) (hq : Q a w) :
    I.Outlives (Pure.pure a : Eng σ α) Q w := by
  unfold Outlives
  exact ⟨hk, hq⟩

theorem Outlives.read {f : World σ → α} (hk : I.Kept w) :
    I.Outlives (Prog.read f : Eng σ α) (fun a w' => a = f w ∧ w' = w) w := by
  unfold Outlives
  exact ⟨hk, rfl, rfl⟩

theorem Outlives.fail {e : EngineError} (hk : I.Kept w) :
    I.Outlives (Prog.fail e : Eng σ α) Q w := by
  unfold Outlives
  exact fun _ => hk

theorem Outlives.bind {m : Eng σ α} {f : α → Eng σ β} {R : α → World σ → Prop}
    {Q : β → World σ → Prop} (hm : I.Outlives m R w)
    (hf : ∀ a w', I.Kept w' → R a w' → I.Outlives (f a) Q w') : I.Outlives (m >>= f) Q w := by
  unfold Outlives at hm ⊢
  rw [bind_eq]
  match hs : m w with
  | (.ok a, w') =>
      simp only [hs] at hm
      have hfa := hf a w' hm.1 hm.2
      unfold Outlives at hfa
      exact hfa
  | (.err e, w') => simpa only [hs] using hm
  | (.died, w') => simpa only [hs] using hm

theorem Outlives.mono {m : Eng σ α} {R : α → World σ → Prop} (hm : I.Outlives m R w)
    (hQ : ∀ a w', R a w' → Q a w') : I.Outlives m Q w := by
  unfold Outlives at hm ⊢
  match hs : m w with
  | (.ok a, w') =>
      simp only [hs] at hm
      exact ⟨hm.1, hQ _ _ hm.2⟩
  | (.err e, w') => simpa only [hs] using hm
  | (.died, w') => simpa only [hs] using hm

/-- What happens between two turns. -/
theorem Outlives.aside {X F : Prop} {m : Eng σ α} (h : Keeps Between X F m) (hk : I.Kept w) :
    I.Outlives m (fun _ w' => Between w w') w := by
  have hw := h w
  unfold Outlives
  match hs : m w with
  | (.ok a, w') =>
      rw [hs] at hw
      exact ⟨I.between hw.1 hk, hw.1⟩
  | (.err e, w') => rw [hs] at hw; exact fun _ => I.between hw.1 hk
  | (.died, w') => rw [hs] at hw; exact fun _ => I.between hw.1 hk

theorem Outlives.asideBind {X F : Prop} {m : Eng σ α} {f : α → Eng σ β} {Q : β → World σ → Prop}
    (h : Keeps Between X F m) (hk : I.Kept w)
    (hf : ∀ a w', I.Kept w' → Between w w' → I.Outlives (f a) Q w') : I.Outlives (m >>= f) Q w :=
  Outlives.bind (Outlives.aside h hk) hf

theorem held_moves {p p' : Phase × World σ} (h : Moves E p p') (hp : I.Held p) : I.Held p' :=
  path_invariant h (fun _ _ hI hM => I.move hM hI) hp

/-- A turn: when it is over, every other record is as it was. -/
theorem Outlives.turn {φ : Phase} {m : Eng σ α} (h : Turns E φ m Over w) (hp : I.Held (φ, w)) :
    I.Outlives m (fun _ w' => SameOthers w w') w := by
  unfold Turns Traces at h
  unfold Outlives
  match hs : m w with
  | (.ok a, w') =>
      simp only [hs] at h
      obtain ⟨φ', hm, rfl⟩ := h
      exact ⟨I.leave (held_moves hm hp), Moves.others hm⟩
  | (.err e, w') =>
      simp only [hs] at h
      obtain ⟨φ', w₁, hm, hd⟩ := h
      exact I.drop (held_moves hm hp) hd
  | (.died, w') =>
      simp only [hs] at h
      obtain ⟨φ', w₁, hm, hd⟩ := h
      exact I.drop (held_moves hm hp) hd

/-! ## Verbs -/

theorem Outlives.take {r : InstanceRecord} {k : Unit → Eng σ α}
    (h : I.Outlives (k ()) Q { w with hand := r }) : I.Outlives (takeUp r >>= k) Q w := by
  unfold Outlives at h ⊢
  exact h

/-- The turn of a record taken up. -/
theorem Outlives.takeUp {r : InstanceRecord} {k : Unit → Eng σ α} (hk : I.Kept w)
    (hr : w.instances.read r.id = some r)
    (h : ∀ w', Durable w' → Turns E .resting (k ()) Over w') :
    I.Outlives (takeUp r >>= k) (fun _ w' => ∀ j, j ≠ r.id →
      w'.instances.read j = w.instances.read j) w :=
  Outlives.take (Outlives.turn (h _ (durable_of_read hr)) (I.take hk hr))

theorem Outlives.readInstance {id : String} (hk : I.Kept w) :
    I.Outlives (readInstance E id) (fun x w' => Between w w' ∧ x = w'.instances.read id) w :=
  Outlives.asideBind (keeps_readOk E _) hk fun _ _ hk₁ hb =>
    Outlives.mono (Outlives.read hk₁) fun _ _ h => by rw [h.2, h.1]; exact ⟨hb, rfl⟩

theorem Outlives.loaded {id : String} {m : Eng σ Outcome} (h : Loaded E id m) (hk : I.Kept w) :
    I.Outlives m (fun _ _ => True) w := by
  obtain ⟨k, rfl, ht⟩ := h
  unfold load
  rw [bind_assoc]
  refine Outlives.bind (Outlives.readInstance hk) fun x w₁ hk₁ hx => ?_
  obtain ⟨-, rfl⟩ := hx
  match hr : w₁.instances.read id with
  | none => exact Outlives.bind (R := fun _ _ => False) (Outlives.fail hk₁) fun _ _ _ h => h.elim
  | some r =>
      have hid : r.id = id := Store.id_of_read hr
      exact Outlives.mono (Outlives.takeUp (k := fun _ => k) hk₁ (hid ▸ hr) ht)
        fun _ _ _ => trivial

/-- A pass over every record, each as it was when the pass began. -/
theorem Outlives.pass {body : Eng σ Unit} (h : ∀ w, Durable w → Turns E .resting body Over w)
    (rs : List InstanceRecord) (hk : I.Kept w)
    (hr : ∀ r ∈ rs, w.instances.read r.id = some r) (hn : (rs.map InstanceRecord.id).Nodup) :
    I.Outlives (Prog.loop (fun r (_ : Unit) => Rescind.takeUp r >>= fun _ => body) rs ())
      (fun _ _ => True) w := by
  induction rs generalizing w with
  | nil => exact Outlives.pure hk trivial
  | cons r rs ih =>
      rw [List.map_cons, List.nodup_cons] at hn
      refine Outlives.bind (Outlives.takeUp hk (hr r List.mem_cons_self) h) fun _ w' hk' ho => ?_
      refine ih hk' (fun x hx => ?_) hn.2
      have hne : x.id ≠ r.id := fun he => hn.1 (he ▸ List.mem_map_of_mem hx)
      rw [ho x.id hne]
      exact hr x (List.mem_cons_of_mem _ hx)

/-- A pass over every record of the store. -/
theorem Outlives.passAll {body : Eng σ Unit} (h : ∀ w, Durable w → Turns E .resting body Over w)
    (hk : I.Kept w) :
    I.Outlives (allInstances E >>= fun rs =>
      Prog.loop (fun r (_ : Unit) => Rescind.takeUp r >>= fun _ => body) rs ())
      (fun _ _ => True) w := by
  unfold allInstances
  refine Outlives.bind (R := fun rs w' => ∃ w₁, rs = w₁.instances.records ∧ Between w₁ w') ?_ ?_
  · refine Outlives.asideBind (keeps_readOk E _) hk fun _ w₁ hk₁ _ => ?_
    exact Outlives.bind (Outlives.read hk₁) fun rs w₂ hk₂ h₂ =>
      Outlives.asideBind (Keeps.loop rs (fun _ _ => keeps_readOk E _) ()) hk₂
        fun _ w₃ hk₃ hb => Outlives.pure hk₃ ⟨w₁, h₂.1, h₂.2 ▸ hb⟩
  · rintro rs w' hk' ⟨w₁, rfl, hb⟩
    refine Outlives.pass h _ hk' (fun r hr => ?_) (Store.records_nodup _)
    rw [hb.records]
    exact Store.read_of_mem hr

theorem Outlives.refuseTaken {id : String} {rehearsal : Bool} (hk : I.Kept w) :
    I.Outlives (refuseTaken E id rehearsal)
      (fun _ w' => rehearsal = true ∨ ∀ d, w'.instances.read id = some d → terminal d.state = true)
      w := by
  unfold Rescind.refuseTaken
  cases rehearsal with
  | true => exact Outlives.pure hk (.inl rfl)
  | false =>
      refine Outlives.bind (Outlives.readInstance hk) fun x w₁ hk₁ hx => ?_
      obtain ⟨-, rfl⟩ := hx
      split
      next r hr =>
        by_cases ht : terminal r.state = true
        · rw [ht]
          refine Outlives.pure hk₁ (.inr fun d hd => ?_)
          rw [hr] at hd
          cases hd
          exact ht
        · rw [Bool.not_eq_true] at ht
          rw [ht]
          exact Outlives.fail hk₁
      next hr => exact Outlives.pure hk₁ (.inr fun d hd => nomatch hr.symm.trans hd)

theorem Outlives.apply {ir : PlanIr} {params : Vars} {opts : ApplyOptions} (hk : I.Kept w)
    (hv : V (.apply ir params opts)) :
    I.Outlives (apply E ir params opts) (fun _ _ => True) w := by
  unfold Rescind.apply
  by_cases hc : checkClean (underMode ir opts.mode) = true
  · rw [if_neg (by rw [hc]; exact nofun)]
    refine Outlives.asideBind (keeps_ask E (X := True) _) hk fun now w₁ hk₁ _ =>
      Outlives.asideBind (keeps_ask E (X := True) _) hk₁ fun nonce w₂ hk₂ _ =>
      Outlives.bind (Outlives.refuseTaken hk₂) fun _ w₃ hk₃ hu => ?_
    unfold begin_
    rw [bind_assoc, bind_assoc, bind_assoc, bind_assoc]
    refine Outlives.take (Outlives.mono (Outlives.turn (φ := .beginning) ?_
      (I.fresh hk₃ hv hc hu)) fun _ _ _ => trivial)
    exact turns_begin E ⟨rfl, rfl, rfl, rfl, rfl⟩ hu fun w₄ hs => Turns.quietly E (keeps_log E _)
      fun _ _ hq => turns_applyFresh E now (hq.state.trans hs)
  · rw [if_pos (by simpa using hc)]
    exact Outlives.fail hk

theorem Outlives.reap (hk : I.Kept w) : I.Outlives (reap E) (fun _ _ => True) w :=
  Outlives.asideBind (keeps_ask E (X := True) _) hk fun now _ hk₁ _ =>
    Outlives.asideBind (keeps_expireSecrets E) hk₁ fun _ _ hk₂ _ =>
    Outlives.passAll (fun _ => turns_reapInstance E now) hk₂

theorem Outlives.heartbeat (hk : I.Kept w) : I.Outlives (heartbeat E) (fun _ _ => True) w :=
  Outlives.asideBind (keeps_ask E (X := True) _) hk fun now _ hk₁ _ =>
    Outlives.passAll (fun _ _ => turns_heartbeatInstance E now) hk₁

/-- Forget what a program returned. -/
theorem Outlives.then {m : Eng σ α} {b : β} (h : I.Outlives m (fun _ _ => True) w) :
    I.Outlives (m >>= fun _ => Pure.pure b) (fun _ _ => True) w :=
  Outlives.bind h fun _ _ hk _ => Outlives.pure hk trivial

theorem Outlives.some {m : Eng σ α} (h : I.Outlives m (fun _ _ => True) w) :
    I.Outlives (m >>= fun a => Pure.pure (Option.some a)) (fun _ _ => True) w :=
  Outlives.bind h fun _ _ hk _ => Outlives.pure hk trivial

theorem Outlives.exec {v : Verb} (hk : I.Kept w) (hv : V v) :
    I.Outlives (exec E v) (fun _ _ => True) w := by
  cases v with
  | apply ir params opts => exact Outlives.some (Outlives.apply hk hv)
  | approveProof => exact Outlives.some (Outlives.loaded (loaded_approveProof E ..) hk)
  | ack => exact Outlives.some (Outlives.loaded (loaded_ack E ..) hk)
  | recant => exact Outlives.some (Outlives.loaded (loaded_recant E ..) hk)
  | renew => exact Outlives.some (Outlives.loaded (loaded_renew E ..) hk)
  | confirm => exact Outlives.some (Outlives.loaded (loaded_confirm E ..) hk)
  | commit => exact Outlives.some (Outlives.loaded (loaded_commit E ..) hk)
  | resume => exact Outlives.some (Outlives.loaded (loaded_resume E ..) hk)
  | handoffDone => exact Outlives.some (Outlives.loaded (loaded_handoffDone E ..) hk)
  | abandon => exact Outlives.some (Outlives.loaded (loaded_abandon E ..) hk)
  | cancel => exact Outlives.some (Outlives.loaded (loaded_cancel E ..) hk)
  | reap => exact Outlives.then (Outlives.reap hk)
  | heartbeat => exact Outlives.then (Outlives.heartbeat hk)

/-! ## Restarts -/

theorem keeps_setSettling (on : Bool) : Keeps Between (¬Accepts E) (¬Accepts E) (setSettling E on) :=
  Keeps.bind (Keeps.edit fun _ => ⟨fun _ => rfl, rfl, .inl rfl, rfl, rfl⟩) fun _ =>
    Keeps.bind (keeps_writeOk E _) fun _ =>
    Keeps.edit fun _ => ⟨fun _ => rfl, rfl, .inl rfl, rfl, rfl⟩

theorem keeps_journalMigrated : Keeps Between True (¬Accepts E) (journalMigrated E) := by
  refine Keeps.bind (keeps_readOk E _) fun _ => Keeps.bind (Keeps.read _) fun m => ?_
  split
  · exact Keeps.pure ()
  · exact Keeps.bind (Keeps.mono (keeps_journalSiteEvent E _) (fun _ _ h => h) fun _ => trivial)
      fun _ => Keeps.bind (Keeps.mono (keeps_writeOk E _) (fun _ _ h => h) fun _ => trivial)
      fun _ => Keeps.edit fun _ => ⟨fun _ => rfl, rfl, .inl rfl, rfl, rfl⟩

theorem keeps_reopen (hosts : Assoc String Host) :
    Keeps Between True (¬Accepts E) (reopen E hosts) := by
  refine Keeps.bind (keeps_readOk E _) fun _ => Keeps.bind ?_ fun _ =>
    Keeps.edit fun _ => ⟨fun _ => rfl, rfl, .inr rfl, rfl, rfl⟩
  refine Keeps.bind (keeps_ask E _) fun x => ?_
  cases x with
  | ok u => exact Keeps.read _
  | error e => exact Keeps.pure _

theorem Outlives.boot (hk : I.Kept w) : I.Outlives (boot E) (fun _ _ => True) w := by
  unfold Rescind.boot
  refine Outlives.asideBind (keeps_setSettling true) hk fun _ w₁ hk₁ _ =>
    Outlives.asideBind keeps_journalMigrated hk₁ fun _ w₂ hk₂ _ => ?_
  rw [← bind_assoc (allInstances E)]
  refine Outlives.bind (Outlives.passAll (fun _ _ => turns_bootInstance E) hk₂) fun _ w₃ hk₃ _ =>
    Outlives.asideBind (keeps_dropSecretsAtBoot E) hk₃ fun _ w₄ hk₄ _ =>
    Outlives.asideBind (keeps_reconcile E) hk₄ fun _ w₅ hk₅ _ => ?_
  exact Outlives.mono (Outlives.aside (keeps_setSettling false) hk₅) fun _ _ _ => trivial

variable (I)

theorem restart {hosts : Assoc String Host} (hk : I.Kept w) (hc : C (restart E hosts w)) :
    I.Kept (Rescind.restart E hosts w) := by
  have h : I.Outlives (do reopen E hosts; Rescind.boot E) (fun _ _ => True) w :=
    Outlives.asideBind (keeps_reopen hosts) hk fun _ _ hk₁ _ => Outlives.boot hk₁
  unfold Outlives at h
  have down : ∀ w' : World σ, Between w' { w' with up := false } :=
    fun w' => ⟨fun _ => rfl, rfl, .inl rfl, rfl, rfl⟩
  unfold Rescind.restart at hc ⊢
  match hm : (do reopen E hosts; Rescind.boot E : Eng σ Unit) w with
  | (.ok u, w') =>
      simp only [hm] at h hc ⊢
      exact h.1
  | (.err e, w') =>
      simp only [hm] at h hc ⊢
      exact I.between (down w') (h (I.condition (down w') hc))
  | (.died, w') =>
      simp only [hm] at h hc ⊢
      exact I.between (down w') (h (I.condition (down w') hc))

/-- **Every world a run reaches has the invariant.** -/
theorem run {S : World σ → Prop} (hs : ∀ w, S w → C w → I.Kept w) (h : RunOf E S V C w) :
    I.Kept w := by
  induction h with
  | start h c => exact hs _ h c
  | @verb w _ v hv _ c ih =>
      have hx := Outlives.exec (v := v) ih hv
      unfold Outlives at hx
      match hm : Rescind.exec E v w with
      | (.ok u, w') =>
          simp only [hm] at hx c ⊢
          exact hx.1
      | (.err e, w') =>
          simp only [hm] at hx c ⊢
          exact hx c
      | (.died, w') =>
          simp only [hm] at hx c ⊢
          exact hx c
  | @inventory w _ hosts _ _ ih =>
      exact I.between (w := w) ⟨fun _ => rfl, rfl, .inl rfl, rfl, rfl⟩ ih
  | restart _ hosts c ih => exact I.restart ih c

end Invariant

/-! ## Invariants of records -/

/-- A property of the history, one of each record under it, and one of the phase
and the record in hand. -/
structure Stands (A : List Act → Prop) (R : List Act → InstanceRecord → Prop)
    (B : Phase × World σ → Prop) (p : Phase × World σ) : Prop where
  told : A p.2.acts
  others : ∀ j r, j ≠ p.2.hand.id → p.2.instances.read j = some r → R p.2.acts r
  own : ∀ r, p.2.instances.read p.2.hand.id = some r → R p.2.acts r
  hand : R p.2.acts p.2.hand
  phase : B p

/-- Between two turns: the history has its property, and every stored record its
own. -/
structure StandsStored (A : List Act → Prop) (R : List Act → InstanceRecord → Prop)
    (w : World σ) : Prop where
  told : A w.acts
  records : ∀ j r, w.instances.read j = some r → R w.acts r

section
variable {E : Setting σ} {A : List Act → Prop} {R : List Act → InstanceRecord → Prop}
  {B : Phase × World σ → Prop}

theorem Stands.stored {φ : Phase} {w : World σ} (h : Stands A R B (φ, w)) : StandsStored A R w := by
  refine ⟨h.told, fun j r hr => ?_⟩
  by_cases hj : j = w.hand.id
  · exact h.own r (hj ▸ hr)
  · exact h.others j r hj hr

theorem StandsStored.congr {w w' : World σ} (h : StandsStored A R w)
    (hr : ∀ j, w'.instances.read j = w.instances.read j) (ha : w'.acts = w.acts) :
    StandsStored A R w' :=
  ⟨ha ▸ h.told, fun j r hj => ha ▸ h.records j r (hr j ▸ hj)⟩

/-- Other records keep theirs where what is told of another instance is nothing to
a record. -/
theorem Stands.others_move {p p' : Phase × World σ} (hm : Move E p p') (h : Stands A R B p)
    (grow : ∀ {acts new : List Act} {r : InstanceRecord}, R acts r →
      (∀ act ∈ new, act.inst ≠ r.id) → R (new ++ acts) r) :
    ∀ j r, j ≠ p'.2.hand.id → p'.2.instances.read j = some r → R p'.2.acts r := by
  intro j r hj hr
  rw [hm.id] at hj
  rw [hm.others j hj] at hr
  obtain ⟨new, hnew, hinst⟩ := hm.told
  rw [hnew]
  refine grow (h.others j r hj hr) fun act hact he => hj ?_
  rw [← Store.id_of_read hr, ← he]
  exact hinst act hact

/-- An invariant of records, from what every move does to the record in hand. -/
def Invariant.ofRecords (rest : ∀ w : World σ, B (.resting, w))
    (blank : ∀ (w : World σ) (ir : PlanIr) (params : Vars) (opts : ApplyOptions) (nonce : String),
      checkClean (underMode ir opts.mode) = true →
      R w.acts (blankRecord E (underMode ir opts.mode) params opts nonce) ∧
      B (.beginning,
        { w with hand := blankRecord E (underMode ir opts.mode) params opts nonce }))
    (move : ∀ {p p'}, Move E p p' → Stands A R B p → Stands A R B p') :
    Invariant E (fun _ => True) fun _ => True where
  Kept := StandsStored A R
  Held := Stands A R B
  between hb h := h.congr hb.records hb.acts
  condition _ _ := trivial
  take {_ r} h hr :=
    ⟨h.told, fun j r' _ hr' => h.records j r' hr', fun r' hr' => h.records _ r' hr',
      h.records _ r hr, rest _⟩
  fresh {_ ir params opts nonce} h _ hc _ :=
    ⟨h.told, fun j r' _ hr' => h.records j r' hr', fun r' hr' => h.records _ r' hr',
      (blank _ ir params opts nonce hc).1, (blank _ ir params opts nonce hc).2⟩
  move := move
  leave h := h.stored
  drop h hd _ := h.stored.congr hd.records (congrArg Frame.acts hd.frame)

/-- Where it begins there are no records. -/
theorem standsStored_begins {w : World σ} (hw : w.Begins) (ha : A []) : StandsStored A R w := by
  refine ⟨?_, fun j r hr => ?_⟩
  · rw [hw.acts]
    exact ha
  · rw [hw.instances] at hr
    cases hr

end

end Rescind
