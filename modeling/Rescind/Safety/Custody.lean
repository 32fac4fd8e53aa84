/-
# `Rescind.Safety.Custody` — what becomes of a secret `hold()` accepts

A run here is any order of the engine's dealings with the acceptors (a
delivery, `reveal`, a drop, the reap pass, boot) between anything else that
leaves the acceptors alone, and of restarts of the process.

The channels and the clock answer as they like.  A story in which a secret is kept where
another is, or taken after its bound, is not orderly.

**Proved here.**

    what is dropped is journaled                       (`Tidy.drop`)
    what is taken is journaled, and returned           (`reveal_obliged`)
    so every secret is accounted for, in every run
      whose story is orderly and whose journal obliges (`custody_of_runTended`)
-/
import Rescind.Engine.Script
import Rescind.Turn.Acceptors

namespace Rescind

open Lib Lib.Prog

variable {τ : Type} {base : Outside τ} {time : τ → Instant}

/-! ## A journal that takes its entries -/

/-- Outsides from which the clock answers, records are read and the journal takes
every entry. -/
structure Obliges (base : Outside τ) (P : τ → Prop) : Prop where
  now : ∀ {o}, P o → ∃ t o', base.answer o .now = (some t, o') ∧ P o'
  read : ∀ {o s}, P o → ∃ o', base.answer o (.read s) = (some (.ok ()), o') ∧ P o'
  write : ∀ {o}, P o → ∃ o', base.answer o (.write .journal) = (some (.ok ()), o') ∧ P o'
  sign : ∀ {o e}, P o → ∃ o', base.answer o (.sign e) = (some (.ok ()), o') ∧ P o'
  deliver : ∀ {o e}, P o → ∃ o', base.answer o (.deliver e) = (some [], o') ∧ P o'

/-- From here on the outside obliges. -/
def Obliging (base : Outside τ) (o : τ) : Prop := ∃ P, Obliges base P ∧ P o

/-- The rest of the outside as it is now. -/
def World.restAt (w : World (Keep τ)) (o : τ) : World (Keep τ) :=
  { w with out := { w.out with rest := o } }

/-- Entries that say a secret of a label was dropped. -/
def tellsDrop (x label : String) (e : Entry) : Bool :=
  e.inst = x && match e.event with
    | .secretDropped l _ => l = label
    | _ => false

/-- Entries that say `reveal` took one, from an acceptor of these names. -/
def tellsTake (names : List String) (x label : String) (e : Entry) : Bool :=
  e.inst = x && match e.event with
    | .secretRevealed l a => l = label && names.any fun name => name ++ " (revealed)" = a
    | _ => false

section
variable {E : Setting (Keep τ)} (hE : E.outside = keeping base time)
include hE

/-- A question the acceptors have no part in. -/
theorem ask_rest {ε : Type} {q : Query} {x : Reply q} {w : World (Keep τ)} {o : τ}
    (hq : (keeping base time).answer w.out q =
      ((base.answer w.out.rest q).1, { w.out with rest := (base.answer w.out.rest q).2 }))
    (h : base.answer w.out.rest q = (some x, o)) :
    (ask E q : Prog (World (Keep τ)) ε (Reply q)) w = (.ok x, w.restAt o) := by
  unfold ask
  rw [hE, hq, h]
  rfl

variable {P : τ → Prop} (hO : Obliges base P)
include hO

theorem keepEntry_obliged (e : Entry) {w : World (Keep τ)} (hP : P w.out.rest) :
    ∃ o, P o ∧ keepEntry E e w = (.ok (), { w.restAt o with journal := w.journal ++ [e] }) := by
  obtain ⟨o₁, h₁, hP₁⟩ := hO.sign (e := e) hP
  obtain ⟨o₂, h₂, hP₂⟩ := hO.write hP₁
  refine ⟨o₂, hP₂, ?_⟩
  refine (bind_ok (ask_rest hE rfl h₁)).trans ?_
  exact bind_ok (ask_rest hE (w := w.restAt o₁) rfl h₂)

theorem logAbout_obliged (r : InstanceRecord) (ev : J) {w : World (Keep τ)} (hP : P w.out.rest) :
    ∃ o e, P o ∧ e.inst = r.id ∧ e.event = ev ∧
      logAbout E r ev w = (.ok (), { w.restAt o with journal := w.journal ++ [e] }) := by
  obtain ⟨t, o₁, h₁, hP₁⟩ := hO.now hP
  obtain ⟨o₂, hP₂, h₂⟩ := keepEntry_obliged hE hO ⟨t, r.plan.id, r.id, r.plan.owner, ev⟩
    (w := w.restAt o₁) hP₁
  obtain ⟨o₃, h₃, hP₃⟩ := hO.deliver (e := ⟨t, r.plan.id, r.id, r.plan.owner, ev⟩) hP₂
  refine ⟨o₃, ⟨t, r.plan.id, r.id, r.plan.owner, ev⟩, hP₃, rfl, rfl, ?_⟩
  refine (bind_ok (ask_rest hE rfl h₁)).trans ((bind_ok h₂).trans ?_)
  exact bind_ok (ask_rest hE
    (w := { (w.restAt o₁).restAt o₂ with journal := w.journal ++ [_] }) rfl h₃)

theorem readInstance_obliged (id : String) {w : World (Keep τ)} (hP : P w.out.rest) :
    ∃ o, P o ∧ readInstance E id w = (.ok (w.instances.read id), w.restAt o) := by
  obtain ⟨o, h, hP⟩ := hO.read (s := .instance_ id) hP
  refine ⟨o, hP, ?_⟩
  have hr : readOk E (.instance_ id) w = (.ok (), w.restAt o) :=
    bind_ok (ask_rest hE rfl h)
  exact bind_ok hr

end

/-! ## What is dropped is journaled -/

/-- Every drop told is journaled, but for those still owed. -/
def Owing (owed : List (String × String)) (w : World (Keep τ)) : Prop :=
  ∀ x label, w.out.story.countP (Happening.isDrop x label) ≤
    w.journal.countP (tellsDrop x label) + owed.count (x, label)

theorem Happening.isDrop_dropped (i : Nat) (x y label : String) (k : Kept) :
    isDrop x label (.dropped i y k) = ((y, k.label) == (x, label)) := by
  refine Bool.eq_iff_iff.mpr ?_
  simp [isDrop]

theorem countP_told (i : Nat) (gone : List (String × Kept)) (x label : String) :
    (Keep.told i gone).countP (Happening.isDrop x label) = (Keep.labels gone).count (x, label) := by
  rw [Keep.told, Keep.labels, List.countP_map, List.count, List.countP_map]
  refine List.countP_congr fun kv _ => ?_
  exact Bool.eq_iff_iff.mp (Happening.isDrop_dropped i x kv.1 label kv.2)

theorem countP_dropFor (k : Keep τ) (i : Nat) (x y label : String) :
    (k.dropFor i x).2.story.countP (Happening.isDrop y label) ≤
      k.story.countP (Happening.isDrop y label) +
        ((k.dropFor i x).1.map fun l => (x, l)).count (y, label) ∧ (k.dropFor i x).2.rest = k.rest := by
  unfold Keep.dropFor
  split
  · exact ⟨Nat.le_add_right _ _, rfl⟩
  · split
    · next s _ =>
      refine ⟨?_, rfl⟩
      show (Happening.dropped i x s :: k.story).countP _ ≤ _
      rw [List.countP_cons, Happening.isDrop_dropped, List.map_singleton, List.count_singleton]
    · exact ⟨Nat.le_add_right _ _, rfl⟩
  · exact ⟨Nat.le_add_right _ _, rfl⟩

theorem countP_turn_told (k : Keep τ) (i : Nat) (a : Acceptor) (gone : List (String × Kept))
    (x label : String) : (k.turn i a (Keep.told i gone)).story.countP (Happening.isDrop x label) ≤
      k.story.countP (Happening.isDrop x label) + (Keep.labels gone).count (x, label) := by
  show (Keep.told i gone ++ k.story).countP _ ≤ _
  rw [List.countP_append, countP_told, Nat.add_comm]

theorem countP_expire (k : Keep τ) (i : Nat) (now : Instant) (x label : String) :
    (k.expire i now).2.story.countP (Happening.isDrop x label) ≤
      k.story.countP (Happening.isDrop x label) + (k.expire i now).1.count (x, label) ∧
      (k.expire i now).2.rest = k.rest := by
  unfold Keep.expire
  split
  · exact ⟨countP_turn_told k i _ _ x label, rfl⟩
  · exact ⟨Nat.le_add_right _ _, rfl⟩

theorem countP_dropAll (k : Keep τ) (i : Nat) (x label : String) :
    (k.dropAll i).2.story.countP (Happening.isDrop x label) ≤
      k.story.countP (Happening.isDrop x label) + (k.dropAll i).1.count (x, label) ∧
      (k.dropAll i).2.rest = k.rest := by
  unfold Keep.dropAll
  split
  · exact ⟨Nat.le_add_right _ _, rfl⟩
  · exact ⟨countP_turn_told k i _ _ x label, rfl⟩
  · exact ⟨Nat.le_add_right _ _, rfl⟩

/-- With this owed, in a world that obliges. -/
structure Settling (P : τ → Prop) (owed : List (String × String)) (w : World (Keep τ)) : Prop where
  owing : Owing owed w
  sound : Sound w
  rest : P w.out.rest

/-- What an answer gives up is owed. -/
theorem Settling.give {P : τ → Prop} {owed more : List (String × String)} {w w' : World (Keep τ)}
    (h : Settling P owed w) (hm : Minds Gives w w')
    (hc : ∀ x label, w'.out.story.countP (Happening.isDrop x label) ≤
      w.out.story.countP (Happening.isDrop x label) + more.count (x, label))
    (hr : w'.out.rest = w.out.rest) : Settling P (owed ++ more) w' where
  owing x label := by
    have h₁ := hc x label
    have h₂ := h.owing x label
    have h₃ := hm.journal.sublist.countP_le (p := tellsDrop x label)
    rw [List.count_append]
    omega
  sound := h.sound.minds hm fun e he key hk => by
    cases e <;> first | exact he.elim | exact .inr rfl
  rest := hr ▸ h.rest

/-- What is owed for an instance the store does not know is not owed. -/
theorem Settling.waive {P : τ → Prop} {owed : List (String × String)} {x label : String}
    {w : World (Keep τ)} (h : Settling P ((x, label) :: owed) w) (hn : w.instances.read x = none) :
    Settling P owed w := by
  refine ⟨fun y l => ?_, h.sound, h.rest⟩
  by_cases hy : (y, l) = (x, label)
  · cases hy
    have hz : w.out.story.countP (Happening.isDrop x label) = 0 := by
      refine List.countP_eq_zero.mpr fun e he hd => ?_
      cases e with
      | dropped i z k =>
          have hs := h.sound.stored _ he (i, z) rfl
          have hzx : z = x := by
            rw [Happening.isDrop_dropped] at hd
            exact congrArg Prod.fst (eq_of_beq hd)
          rw [hzx, hn] at hs
          cases hs
      | _ => cases hd
    omega
  · have ho := h.owing y l
    rwa [List.count_cons_of_ne fun he => hy he.symm] at ho

section
variable {E : Setting (Keep τ)} (hE : E.outside = keeping base time) {P : τ → Prop}
  (hO : Obliges base P)
include hE hO

/-- A drop journaled is owed no more. -/
theorem Settling.pay {owed : List (String × String)} {r : InstanceRecord} {label reason : String}
    {w : World (Keep τ)} (h : Settling P ((r.id, label) :: owed) w) :
    Returns (logAbout E r (.secretDropped label reason))
      (fun _ w' => Settling P owed w' ∧ w'.hand = w.hand) w := by
  obtain ⟨o, e, hP, hi, hev, hrun⟩ := logAbout_obliged hE hO r (.secretDropped label reason) h.rest
  refine ⟨(), _, hrun, ⟨fun y l => ?_, ⟨⟨h.sound.told.consistent, h.sound.told.held⟩, h.sound.stored⟩, hP⟩, rfl⟩
  have ho := h.owing y l
  show w.out.story.countP _ ≤ (w.journal ++ [e]).countP _ + _
  rw [List.countP_append, List.countP_singleton]
  by_cases hy : (y, l) = (r.id, label)
  · cases hy
    have ht : tellsDrop r.id label e = true := by simp [tellsDrop, hi, hev]
    rw [ht, if_pos rfl]
    rw [List.count_cons_self] at ho
    omega
  · rw [List.count_cons_of_ne fun he => hy he.symm] at ho
    omega

omit hE hO in
/-- What the acceptors give up, one after the other, is owed. -/
theorem settling_gather {α : Type} {g : α → String × String} {f : Nat → Eng (Keep τ) (List α)}
    {r : InstanceRecord} (hf : ∀ i acc w, Settling P (acc.map g) w → w.hand = r →
      Returns (f i) (fun more w' => Settling P ((acc ++ more).map g) w' ∧ w'.hand = r) w)
    {w : World (Keep τ)} (h : Settling P [] w) (hr : w.hand = r) :
    Returns (gather E f) (fun acc w' => Settling P (acc.map g) w' ∧ w'.hand = r) w := by
  refine Returns.loop (I := fun _ acc w' => Settling P (acc.map g) w' ∧ w'.hand = r)
    (fun i is acc w' hw => ?_) _ [] ⟨h, hr⟩
  exact Returns.bind (hf i acc w' hw.1 hw.2) fun more w'' hw' => Returns.pure hw'

omit hO in
/-- A question only the acceptors answer. -/
theorem ask_keep {ε : Type} {q : Query} {x : Reply q} {k : Keep τ} {w : World (Keep τ)}
    (h : (keeping base time).answer w.out q = (some x, k)) :
    (ask E q : Prog (World (Keep τ)) ε (Reply q)) w = (.ok x, { w with out := k }) := by
  unfold ask
  rw [hE, h]

theorem settling_dropSecrets (reason : String) {w : World (Keep τ)} (h : Settling P [] w) :
    Returns (dropSecrets E reason) (fun _ w' => Settling P [] w') w := by
  have hgather : Returns (gather E fun i => ask E (.dropFor i w.hand.id))
      (fun acc w' => Settling P (acc.map fun l => (w.hand.id, l)) w' ∧ w'.hand = w.hand) w := by
    refine settling_gather (fun i acc w' hw hh => ?_) h rfl
    refine ⟨_, _, ask_keep hE rfl, ?_, hh⟩
    have hm := (minds_ask (ε := EngineError) hE (q := .dropFor i w.hand.id) (P := Gives)
      (fun e he => by cases e <;> trivial) w').1
    rw [ask_keep hE rfl] at hm
    rw [List.map_append]
    exact hw.give hm (fun x label => (countP_dropFor w'.out i _ x label).1)
      (countP_dropFor w'.out i w.hand.id "" "").2
  refine Returns.bind (P := fun r w' => r = w.hand ∧ w' = w) ⟨w.hand, w, rfl, rfl, rfl⟩ ?_
  rintro r w' ⟨rfl, rfl⟩
  refine Returns.bind hgather fun dropped w₁ h₁ => ?_
  refine Returns.mono (Returns.loop (I := fun ls _ w₂ => Settling P (ls.map fun l => (w'.hand.id, l)) w₂ ∧
    w₂.hand = w'.hand) (fun l ls _ w₂ h₂ => ?_) dropped () h₁) fun _ w₂ h₂ => h₂.1
  refine Returns.bind (P := fun r w₃ => r = w'.hand ∧ w₃ = w₂) ⟨w₂.hand, w₂, rfl, h₂.2, rfl⟩ ?_
  rintro r w₃ ⟨rfl, rfl⟩
  exact (Settling.pay hE hO h₂.1).mono fun _ w₄ h₄ => ⟨h₄.1, h₄.2.trans h₂.2⟩

theorem settling_journalDropped (gone : List (String × String)) (reason : String)
    {w : World (Keep τ)} (h : Settling P gone w) :
    Returns (journalDropped E gone reason) (fun _ w' => Settling P [] w') w := by
  refine Returns.loop (I := fun gone _ w' => Settling P gone w') (fun g gone _ w' hw => ?_) gone () h
  obtain ⟨o, hP, hrun⟩ := readInstance_obliged hE hO g.1 hw.rest
  refine Returns.bind (P := fun x w₁ => x = .ok (w'.instances.read g.1) ∧ w₁ = w'.restAt o)
    (Returns.attempt (P := fun x w₁ => x = w'.instances.read g.1 ∧ w₁ = w'.restAt o)
      ⟨_, _, hrun, rfl, rfl⟩ fun a w₁ hx => ⟨congrArg Except.ok hx.1, hx.2⟩) ?_
  rintro x w₁ ⟨rfl, rfl⟩
  have hw₁ : Settling P (g :: gone) (w'.restAt o) :=
    ⟨hw.owing, ⟨⟨hw.sound.told.consistent, hw.sound.told.held⟩, hw.sound.stored⟩, hP⟩
  cases hr : w'.instances.read g.1 with
  | some r =>
      have hid : r.id = g.1 := Store.id_of_read hr
      have hw₂ : Settling P ((r.id, g.2) :: gone) (w'.restAt o) := hid ▸ hw₁
      exact (Settling.pay hE hO hw₂).mono fun _ w₂ h₂ => h₂.1
  | none => exact Returns.pure (Settling.waive (x := g.1) hw₁ hr)

theorem settling_expireSecrets {w : World (Keep τ)} (h : Settling P [] w) :
    Returns (expireSecrets E) (fun _ w' => Settling P [] w') w := by
  obtain ⟨now, o, hn, hP⟩ := hO.now h.rest
  refine Returns.bind (P := fun x w₁ => x = now ∧ w₁ = w.restAt o)
    ⟨_, _, ask_rest hE rfl hn, rfl, rfl⟩ ?_
  rintro x w₁ ⟨rfl, rfl⟩
  have hw₁ : Settling P [] (w.restAt o) :=
    ⟨h.owing, ⟨⟨h.sound.told.consistent, h.sound.told.held⟩, h.sound.stored⟩, hP⟩
  refine Returns.bind (settling_gather (g := id) (r := w.hand) (fun i acc w' hw hh => ?_) hw₁ rfl)
    fun gone w₂ h₂ => settling_journalDropped hE hO gone _ (by simpa using h₂.1)
  refine ⟨_, _, ask_keep hE rfl, ?_, hh⟩
  have hm := (minds_ask (ε := EngineError) hE (q := .expireHeld i x) (P := Gives)
    (fun e he => by cases e <;> trivial) w').1
  rw [ask_keep hE rfl] at hm
  rw [List.map_id] at hw ⊢
  exact hw.give hm (fun y label => (countP_expire w'.out i x y label).1)
    (countP_expire w'.out i x "" "").2

theorem settling_dropSecretsAtBoot {w : World (Keep τ)} (h : Settling P [] w) :
    Returns (dropSecretsAtBoot E) (fun _ w' => Settling P [] w') w := by
  refine Returns.bind (settling_gather (g := id) (r := w.hand) (fun i acc w' hw hh => ?_) h rfl)
    fun gone w₂ h₂ => settling_journalDropped hE hO gone _ (by simpa using h₂.1)
  refine ⟨_, _, ask_keep hE rfl, ?_, hh⟩
  have hm := (minds_ask (ε := EngineError) hE (q := .dropAll i) (P := Gives)
    (fun e he => by cases e <;> trivial) w').1
  rw [ask_keep hE rfl] at hm
  rw [List.map_id] at hw ⊢
  exact hw.give hm (fun y label => (countP_dropAll w'.out i y label).1)
    (countP_dropAll w'.out i "" "").2

end

/-! ## What is revealed is journaled -/

/-- Every secret taken is journaled, under the name of an acceptor. -/
def Revealed (names : List String) (w : World (Keep τ)) : Prop :=
  ∀ x label, w.out.story.countP (Happening.isTake x label) ≤
    w.journal.countP (tellsTake names x label)

/-- What `reveal` answers is what was taken for the instance, if anything was. -/
def Answers (id : String) (w : World (Keep τ)) (r : Option (String × String))
    (w' : World (Keep τ)) : Prop :=
  r = none ∧ w'.out.story = w.out.story ∨ ∃ i k at_, r = some (k.label, k.value) ∧
    w'.out.story = .taken i id k at_ :: w.out.story

section
variable {E : Setting (Keep τ)} (hE : E.outside = keeping base time) {P : τ → Prop}
  (hO : Obliges base P)
include hE hO

theorem takeFrom_obliged {name : String} (hn : name ∈ E.acceptors) (i : Nat) {w : World (Keep τ)}
    (h : Revealed E.acceptors w) (hP : P w.out.rest) :
    Returns (takeFrom E w.hand.id name i) (fun r w' => Revealed E.acceptors w' ∧ P w'.out.rest ∧
      w'.hand = w.hand ∧ Answers w.hand.id w r w') w := by
  have hask : (ask E (.take i w.hand.id) : Eng (Keep τ) _) w =
      (.ok (w.out.take (time w.out.rest) i w.hand.id).1,
        { w with out := (w.out.take (time w.out.rest) i w.hand.id).2 }) := ask_keep hE rfl
  have hnone : ∀ o : Option (String × String) × Keep τ, o = (none, w.out) →
      (ask E (.take i w.hand.id) : Eng (Keep τ) _) w = (.ok o.1, { w with out := o.2 }) →
      Returns (takeFrom E w.hand.id name i) (fun r w' => Revealed E.acceptors w' ∧ P w'.out.rest ∧
        w'.hand = w.hand ∧ Answers w.hand.id w r w') w := by
    rintro o rfl ho
    exact ⟨none, w, bind_ok ho, h, hP, rfl, .inl ⟨rfl, rfl⟩⟩
  unfold Keep.take at hask
  split at hask
  · next hd ha =>
    split at hask
    · next k hk =>
      obtain ⟨v, hv⟩ : ∃ v : World (Keep τ), v = { w with
          out := w.out.turn i (.hold (hd.remove w.hand.id)) [.taken i w.hand.id k (time w.out.rest)] } :=
        ⟨_, rfl⟩
      have hask : (ask E (.take i w.hand.id) : Eng (Keep τ) _) w = (.ok (some (k.label, k.value)), v) :=
        hask.trans (by rw [hv])
      have hstory : v.out.story = .taken i w.hand.id k (time w.out.rest) :: w.out.story := by rw [hv]; rfl
      have hhand : v.hand = w.hand := by rw [hv]
      have hrest : P v.out.rest := by rw [hv]; exact hP
      obtain ⟨o, e, hP', hi, hev, hrun⟩ := logAbout_obliged hE hO v.hand
        (.secretRevealed k.label (name ++ " (revealed)")) hrest
      refine ⟨some (k.label, k.value), _, (bind_ok hask).trans (bind_ok hrun), fun y label => ?_, hP',
        hhand, .inr ⟨i, k, time w.out.rest, rfl, hstory⟩⟩
      rw [hhand] at hi
      have hy := h y label
      show v.out.story.countP _ ≤ (v.journal ++ [e]).countP _
      rw [hstory, show v.journal = w.journal by rw [hv], List.countP_cons, List.countP_append,
        List.countP_singleton]
      have ht : Happening.isTake y label (.taken i w.hand.id k (time w.out.rest)) = true →
          tellsTake E.acceptors y label e = true := by
        intro ht
        simp only [Happening.isTake, Bool.and_eq_true, decide_eq_true_eq] at ht
        simp only [tellsTake, hi, hev, ht.1, ht.2, decide_true, Bool.true_and, List.any_eq_true]
        exact ⟨name, hn, decide_eq_true rfl⟩
      by_cases hc : Happening.isTake y label (.taken i w.hand.id k (time w.out.rest)) = true
      · rw [if_pos hc, if_pos (ht hc)]
        omega
      · rw [if_neg hc]
        omega
    · exact hnone _ rfl hask
  · exact hnone _ rfl hask

theorem search_obliged {acceptors : List (String × Nat)} (hn : ∀ a ∈ acceptors, a.1 ∈ E.acceptors)
    {w : World (Keep τ)} (h : Revealed E.acceptors w) (hP : P w.out.rest) :
    Returns (Prog.search (fun a => takeFrom E w.hand.id a.1 a.2) acceptors)
      (fun r w' => Revealed E.acceptors w' ∧ Answers w.hand.id w r w') w := by
  suffices hs : ∀ (acceptors : List (String × Nat)) (v : World (Keep τ)),
      (∀ a ∈ acceptors, a.1 ∈ E.acceptors) → Revealed E.acceptors v → P v.out.rest →
      v.hand = w.hand → v.out.story = w.out.story →
      Returns (Prog.search (fun a => takeFrom E w.hand.id a.1 a.2) acceptors)
        (fun r w' => Revealed E.acceptors w' ∧ Answers w.hand.id w r w') v from
    hs acceptors w hn h hP rfl rfl
  intro acceptors
  induction acceptors with
  | nil => intro v _ hv _ _ hs; exact Returns.pure ⟨hv, .inl ⟨rfl, hs⟩⟩
  | cons a acceptors ih =>
      intro v hn hv hP hh hs
      have hone := takeFrom_obliged hE hO (hn a List.mem_cons_self) a.2 hv hP
      rw [hh] at hone
      refine Returns.bind hone fun r v' hr => ?_
      obtain ⟨hv', hP', hh', ha⟩ := hr
      cases r with
      | some lv =>
          refine Returns.pure ⟨hv', ?_⟩
          rcases ha with ⟨hno, -⟩ | ⟨i, k, at_, he, hst⟩
          · cases hno
          · exact .inr ⟨i, k, at_, he, hst.trans (congrArg _ hs)⟩
      | none =>
          rcases ha with ⟨-, hst⟩ | ⟨i, k, at_, he, -⟩
          · exact ih v' (fun b hb => hn b (List.mem_cons_of_mem _ hb)) hv' hP' hh' (hst.trans hs)
          · cases he

/-- `reveal` returns what it took, and journals it. -/
theorem reveal_obliged {id : String} {r : InstanceRecord} {w : World (Keep τ)}
    (hr : w.instances.read id = some r) (h : Revealed E.acceptors w) (hP : P w.out.rest) :
    Returns (reveal E id) (fun r w' => Revealed E.acceptors w' ∧ Answers id w r w') w := by
  obtain ⟨o, hP', hrun⟩ := readInstance_obliged hE hO id hP
  have hload : load E id w = (.ok (), { w.restAt o with hand := r }) := by
    refine (bind_ok hrun).trans ?_
    rw [hr]
    rfl
  have hid : r.id = id := Store.id_of_read hr
  have hnames : ∀ a ∈ E.acceptors.zipIdx, a.1 ∈ E.acceptors :=
    fun a ha => (List.mem_zipIdx' ha).2 ▸ List.getElem_mem _
  have hs := search_obliged hE hO hnames
    (w := { w.restAt o with hand := r }) h hP'
  obtain ⟨a, w', hsr, hQ⟩ := hs
  subst hid
  exact ⟨a, w', (bind_ok hload).trans hsr, hQ⟩

/-- An instance the store does not know is not revealed. -/
theorem reveal_unknown {id : String} {w : World (Keep τ)} (hr : w.instances.read id = none)
    (hP : P w.out.rest) : ∃ o, reveal E id w = (.err (.noSuchInstance id), w.restAt o) := by
  obtain ⟨o, -, hrun⟩ := readInstance_obliged hE hO id hP
  refine ⟨o, ?_⟩
  have hload : load E id w = (.err (.noSuchInstance id), w.restAt o) := by
    refine (bind_ok hrun).trans ?_
    rw [hr]
    rfl
  unfold reveal
  rw [bind_eq, hload]

end

/-! ## Runs -/

/-- What the engine does with the acceptors. -/
inductive Tending where
  | deliver (label value : String)
  | reveal (id : String)
  | drop (reason : String)
  | expire
  | boot

def tend (E : Setting (Keep τ)) : Tending → Eng (Keep τ) Unit
  | .deliver label value => deliverSecret E label value
  | .reveal id => do
      let _ ← reveal E id
      return ()
  | .drop reason => dropSecrets E reason
  | .expire => expireSecrets E
  | .boot => dropSecretsAtBoot E

/-- Anything else: nothing kept is touched, and neither the store nor the journal
forgets. -/
structure Elsewhere (w w' : World (Keep τ)) : Prop where
  kept : ∀ i x, w'.out.kept i x = w.out.kept i x
  story : w'.out.story = w.out.story
  stored : ∀ j, (w.instances.read j).isSome = true → (w'.instances.read j).isSome = true
  journal : w.journal <+: w'.journal

/-- A delivery is of an instance the store knows; whatever else is done, the
journal takes its entries. -/
def Meets (base : Outside τ) (w : World (Keep τ)) : Tending → Prop
  | .deliver _ _ => (w.instances.read w.hand.id).isSome = true
  | _ => Obliging base w.out.rest

/-- The runs of a site whose journal takes what the engine tells of the
acceptors, and whose process ends only when nothing is kept. -/
inductive RunTended (E : Setting (Keep τ)) (base : Outside τ) : World (Keep τ) → Prop where
  | start {w} (h : w.out.Fresh) : RunTended E base w
  | tend {w} (h : RunTended E base w) (t : Tending) (c : Meets base w t) :
      RunTended E base (tend E t w).2
  | aside {w w'} (h : RunTended E base w) (ha : Elsewhere w w') : RunTended E base w'
  | restart {w} (h : RunTended E base w) (acceptors : List Acceptor)
      (c : ∀ i x, w.out.kept i x = none)
      (hf : ∀ i x, ({ w.out with acceptors } : Keep τ).kept i x = none) :
      RunTended E base { w with out := { w.out with acceptors }, up := true }

/-- The same outputs, but for the secret ones. -/
def Overt (op : Op) (out out' : Vars) : Prop :=
  ∀ o ∈ op.outputs, o.secret = false → out.get o.name = out'.get o.name

/-- What a step leaves in the record is the same whatever its secret outputs. -/
theorem takeOutputs_overt {op : Op} {out out' : Vars} (h : Overt op out out') (host : Host) (n : Nat)
    (alias_ : String) (r : InstanceRecord) :
    takeOutputs host n alias_ op out r = takeOutputs host n alias_ op out' r := by
  have ho : outputsOf alias_ op out false = outputsOf alias_ op out' false := by
    refine List.filterMap_congr fun o hm => ?_
    by_cases hs : o.secret = false
    · rw [if_pos hs, if_pos hs, h o hm hs]
    · rw [if_neg hs, if_neg hs]
  unfold takeOutputs
  rw [ho]

/-- Every secret a `hold()` accepted is accounted for. -/
structure Custody (E : Setting (Keep τ)) (base : Outside τ) (w : World (Keep τ)) : Prop where
  accounted : ∀ i x, Accounted i x w.out.story (w.out.kept i x)
  dropped : Owing [] w
  revealed : Revealed E.acceptors w
  delivered : ∀ label value, ∃ es, (deliverSecret E label value w).2.out.story =
    es ++ w.out.story ∧ Offering w.hand.id label 0 (offers es)
  answered : ∀ id, (w.instances.read id).isSome = true → Obliging base w.out.rest →
    Returns (reveal E id) (Answers id w) w
  undisclosed : ∀ label value, Undisclosed w (deliverSecret E label value w).2
  recorded : ∀ host n alias_ op out out' r, Overt op out out' →
    takeOutputs host n alias_ op out r = takeOutputs host n alias_ op out' r

/-- What holds between two steps of a run, whatever the order of happenings. -/
structure Tidy (E : Setting (Keep τ)) (w : World (Keep τ)) : Prop where
  sound : Sound w
  dropped : Owing [] w
  revealed : Revealed E.acceptors w

/-- The happenings told besides are no drops. -/
theorem Owing.minds {P : Happening → Prop} {w w' : World (Keep τ)} (h : Owing [] w)
    (hm : Minds P w w') (hP : ∀ e x label, P e → Happening.isDrop x label e = false) : Owing [] w' := by
  obtain ⟨es, hs, hes⟩ := hm.story
  intro x label
  have h₁ := h x label
  have h₂ := hm.journal.sublist.countP_le (p := tellsDrop x label)
  have h₃ : es.countP (Happening.isDrop x label) = 0 :=
    List.countP_eq_zero.mpr fun e he hd => Bool.false_ne_true ((hP e x label (hes e he)).symm.trans hd)
  rw [hs, List.countP_append]
  omega

/-- The happenings told besides are none of `reveal`'s. -/
theorem Revealed.minds {P : Happening → Prop} {names : List String} {w w' : World (Keep τ)}
    (h : Revealed names w) (hm : Minds P w w')
    (hP : ∀ e x label, P e → Happening.isTake x label e = false) : Revealed names w' := by
  obtain ⟨es, hs, hes⟩ := hm.story
  intro x label
  have h₁ := h x label
  have h₂ := hm.journal.sublist.countP_le (p := tellsTake names x label)
  have h₃ : es.countP (Happening.isTake x label) = 0 :=
    List.countP_eq_zero.mpr fun e he hd => Bool.false_ne_true ((hP e x label (hes e he)).symm.trans hd)
  rw [hs, List.countP_append]
  omega

theorem Elsewhere.minds {P : Happening → Prop} {w w' : World (Keep τ)} (h : Elsewhere w w') : Minds P w w' where
  told ht := ⟨h.story ▸ ht.consistent, fun i x => by rw [h.kept, h.story]; exact ht.held i x⟩
  story := ⟨[], h.story, by simp⟩
  stored := h.stored
  journal := h.journal

/-- Minding nothing told. -/
theorem Tidy.aside {E : Setting (Keep τ)} {w w' : World (Keep τ)} (h : Tidy E w)
    (hm : Minds (fun _ => False) w w') : Tidy E w' where
  sound := h.sound.minds hm fun _ => False.elim
  dropped := h.dropped.minds hm fun _ _ _ => False.elim
  revealed := h.revealed.minds hm fun _ _ _ => False.elim

section
variable {E : Setting (Keep τ)} (hE : E.outside = keeping base time)
include hE

theorem Tidy.deliver {w : World (Keep τ)} (h : Tidy E w) (label value : String)
    (hs : (w.instances.read w.hand.id).isSome = true) :
    Tidy E (deliverSecret E label value w).2 := by
  obtain ⟨hm, -⟩ := (mindsAt_deliverSecret hE w.hand.id label value w).1 rfl
  refine ⟨h.sound.minds hm fun e he key hk => ?_, h.dropped.minds hm fun e x l he => ?_,
    h.revealed.minds hm fun e x l he => ?_⟩
  · cases e with
    | kept i y k b =>
        cases hk
        have hy : y = w.hand.id := he
        exact .inl (hy ▸ hs)
    | offered i y l took => cases hk
    | taken => exact he.elim
    | dropped => exact he.elim
  · cases e <;> first | rfl | exact he.elim
  · cases e <;> first | rfl | exact he.elim

omit hE in
/-- What drops returns with nothing owed. -/
theorem Tidy.drop {w : World (Keep τ)} (h : Tidy E w) {m : Eng (Keep τ) Unit}
    (hm : Keeps (Minds Gives) True True m) (ho : Obliging base w.out.rest)
    (hs : ∀ P, Obliges base P → Settling P [] w → Returns m (fun _ w' => Settling P [] w') w) :
    Tidy E (m w).2 := by
  obtain ⟨P, hO, hP⟩ := ho
  obtain ⟨-, hset⟩ := (hs P hO ⟨h.dropped, h.sound, hP⟩).state
  refine ⟨hset.sound, hset.owing, h.revealed.minds (hm w).1 fun e x l he => ?_⟩
  cases e <;> first | rfl | exact he.elim

theorem Tidy.reveal {w : World (Keep τ)} (h : Tidy E w) (id : String)
    (ho : Obliging base w.out.rest) : Tidy E (reveal E id w).2 := by
  obtain ⟨P, hO, hP⟩ := ho
  have hm := (minds_reveal hE id w).1
  refine ⟨h.sound.minds hm fun e he key hk => ?_, h.dropped.minds hm fun e x l he => ?_, ?_⟩
  · cases e <;> first | exact he.elim | exact .inr rfl
  · cases e <;> first | rfl | exact he.elim
  · cases hr : w.instances.read id with
    | none =>
        obtain ⟨o, hrun⟩ := reveal_unknown hE hO hr hP
        rw [hrun]
        exact h.revealed
    | some r =>
        obtain ⟨-, hR, -⟩ := (reveal_obliged hE hO hr h.revealed hP).state
        exact hR

theorem tidy_of_runTended {w : World (Keep τ)} (h : RunTended E base w) : Tidy E w := by
  induction h with
  | start hf =>
      refine ⟨⟨hf.told, ?_⟩, fun x l => ?_, fun x l => ?_⟩
      · rw [hf.story]
        intro e he
        cases he
      · rw [hf.story]
        exact Nat.zero_le _
      · rw [hf.story]
        exact Nat.zero_le _
  | tend _ t c ih =>
      cases t with
      | deliver label value => exact ih.deliver hE label value c
      | reveal id =>
          have hb : ∀ w : World (Keep τ), (tend E (.reveal id) w).2 = (Rescind.reveal E id w).2 := by
            intro w
            show ((Rescind.reveal E id >>= fun _ => Pure.pure ()) w).2 = _
            rw [bind_eq]
            rcases Rescind.reveal E id w with ⟨r, w'⟩
            cases r <;> rfl
          rw [hb]
          exact ih.reveal hE id c
      | drop reason =>
          exact ih.drop (minds_dropSecrets hE reason) c fun P hO => settling_dropSecrets hE hO reason
      | expire => exact ih.drop (minds_expireSecrets hE) c fun P hO => settling_expireSecrets hE hO
      | boot =>
          exact ih.drop (minds_dropSecretsAtBoot hE) c fun P hO => settling_dropSecretsAtBoot hE hO
  | aside _ ha ih => exact ih.aside ha.minds
  | restart _ acceptors c hf ih =>
      refine ih.aside ⟨fun ht => ⟨ht.consistent, fun i x => ?_⟩, ⟨[], rfl, by simp⟩, fun _ hj => hj,
        List.prefix_refl _⟩
      exact (hf i x).trans ((c i x).symm.trans (ht.held i x))

end

/-- **What becomes of a secret.**  In every run whose journal takes its entries
and whose process ends only when nothing is kept: where each secret was kept
where none was, and taken before its bound, every secret a `hold()` accepted is
still kept, or was revealed once before its bound, or dropped, and what was
dropped or revealed is journaled.  A delivery stops at the first acceptor that
accepts, and writes nothing of the secret. -/
theorem custody_of_runTended (E : Setting (Keep τ)) (hE : E.outside = keeping base time)
    {w : World (Keep τ)} (h : RunTended E base w) (ho : ∀ e ∈ w.out.story, e.orderly = true) :
    Custody E base w := by
  have ht := tidy_of_runTended hE h
  refine ⟨fun i x => ?_, ht.dropped, ht.revealed, fun label value => ?_, fun id hs hb => ?_,
    fun label value => ?_, fun host n alias_ op out out' r hv => takeOutputs_overt hv host n alias_ r⟩
  · rw [ht.sound.told.held i x]
    exact accounted_of_consistent ht.sound.told.consistent ho
  · exact offering_deliverSecret hE label value w
  · obtain ⟨P, hO, hP⟩ := hb
    obtain ⟨r, hr⟩ := Option.isSome_iff_exists.mp hs
    exact (reveal_obliged hE hO hr ht.revealed hP).mono fun _ _ hQ => hQ.2
  · exact (undisclosed_deliverSecret label value w).1

/-! ## Two secrets of one instance -/

namespace TwoTokens

/-- The first run of a body yields one token, the next another. -/
def script : Script :=
  { run := fun n => some (.ok ⟨[("token", if n = 0 then "first" else "second")]⟩) }

/-- A site whose secrets go to one `hold()`. -/
def site : Setting (Keep Nat) :=
  { Script.setting script with
    outside := keeping script.outside fun _ => ⟨0⟩
    acceptors := ["hold"] }

/-- A `hold()` that keeps nothing yet. -/
def empty : Keep Nat := ⟨0, [.hold (Hold.new none)], []⟩

theorem fresh_empty : empty.Fresh := by
  refine ⟨rfl, fun i x => ?_⟩
  cases i <;> rfl

theorem obliging (n : Nat) : Obliging script.outside n :=
  ⟨fun _ => True, ⟨fun _ => ⟨_, _, rfl, trivial⟩, fun _ => ⟨_, rfl, trivial⟩,
    fun _ => ⟨_, rfl, trivial⟩, fun _ => ⟨_, rfl, trivial⟩, fun _ => ⟨_, rfl, trivial⟩⟩, trivial⟩

/-- An instance in hand, and stored. -/
def docket : InstanceRecord := { noRecord with id := "p.web.00000000", deadline := some ⟨3600⟩ }

def stored : World (Keep Nat) :=
  { out := empty, hosts := [], instances := Store.empty.write docket, hand := docket }

def delivered : World (Keep Nat) := (tend site (.deliver "a.token" "first") stored).2

def taken : World (Keep Nat) := (tend site (.reveal docket.id) delivered).2

/-- One secret, delivered and revealed. -/
theorem custody_taken : Custody site script.outside taken := by
  have hE : site.outside = keeping script.outside fun _ => ⟨0⟩ := rfl
  refine custody_of_runTended site hE (w := taken) ?_ (by decide +kernel)
  refine .tend (.tend (.start fresh_empty) (.deliver "a.token" "first") ?_) (.reveal docket.id)
    (obliging _)
  exact congrArg Option.isSome (Store.read_write_self Store.empty docket)

/-- A step that yields a secret. -/
def tokenStep (path : String) : Item :=
  .step { op := {
    id := path
    footprint := [{ kind := .owned, shape := "file:" ++ path }]
    do_ := [.write ⟨"file:" ++ path, none⟩ (.lit "x")]
    outputs := [⟨"token", true⟩] } }

def plan : PlanIr :=
  { smallPlan "p" "web" [tokenStep "/a", tokenStep "/b"] with
    site := { smallSite ["web"] with secretsDeliverTo := ["hold"] } }

def world : World (Keep Nat) :=
  { out := empty, hosts := [("web", smallHost "web")], hand := noRecord }

def applied : World (Keep Nat) := (exec site (.apply plan [] {}) world).2

/-- Both secrets of the run are accepted; the second is kept over the first,
which is neither revealed nor dropped. -/
theorem lost_first : checkClean plan = true ∧ Run site applied ∧ applied.hand.state = .applied ∧
    ¬∃ o, Accounted 0 applied.hand.id applied.out.story o := by
  refine ⟨by decide +kernel, Run.exec (.start ⟨rfl, rfl, rfl, rfl, rfl⟩ trivial) _ rfl,
    by decide +kernel, ?_⟩
  rintro ⟨o, h⟩
  have hb : ∃ e ∈ applied.out.story, e.key = some (0, applied.hand.id) ∧ e.orderly = false := by
    decide +kernel
  obtain ⟨e, he, hk, hno⟩ := hb
  rw [orderly_of_accounted h e he hk] at hno
  cases hno

end TwoTokens

end Rescind
