/-
# `Rescind.Turn.Leaves` — leaves, containers and the whole walk as turns

The walk's counter and the static numbering of leaves agree (`Placed`): the
record's op at the number a leaf is reached with is that leaf's own.  With it
every leaf, every container and the walk itself are moves of the machine.

    a leaf is skipped only as one of the applied ones, and its `do` is handed
    over only when it is none of them                        (`turns_walkLeaf`)
    the counter moves by the leaves of an item               (`turns_walkItem`)
    a walk ends at rest                                      (`turns_walk`)
-/
import Rescind.Turn.Walks

namespace Rescind

open Lib Lib.Prog

variable {σ α : Type} (E : Setting σ)

/-! ## Numbers of leaves -/

/-- The leaf of the record's plan at each number, from `leaf` on, is that
leaf. -/
def Placed (r : InstanceRecord) (xs : List Item) (leaf : Nat) : Prop :=
  ∀ i x, xs[i]? = some x → leafAt r.plan.body (leaf + i) = some x

theorem placed_body (r : InstanceRecord) : Placed r (leaves r.plan.body) 1 := by
  intro i x hx
  rw [leafAt_eq, hx]

theorem Placed.left {r : InstanceRecord} {xs ys : List Item} {leaf : Nat}
    (h : Placed r (xs ++ ys) leaf) : Placed r xs leaf := by
  intro i x hx
  refine h i x ?_
  rw [List.getElem?_append_left (List.getElem?_eq_some_iff.mp hx).1, hx]

theorem Placed.right {r : InstanceRecord} {xs ys : List Item} {leaf : Nat}
    (h : Placed r (xs ++ ys) leaf) : Placed r ys (leaf + xs.length) := by
  intro i x hx
  have := h (xs.length + i) x (by rw [List.getElem?_append_right (by omega)]; simpa using hx)
  rw [← this]
  congr 1
  omega

theorem Placed.moves {xs : List Item} {leaf : Nat} {p p' : Phase × World σ} (hm : Moves E p p')
    (h : Placed p.2.hand xs leaf) : Placed p'.2.hand xs leaf := by
  have hir : p'.2.hand.ir = p.2.hand.ir := congrArg (fun i => i.2.1) (Moves.identity hm)
  intro i x hx
  rw [← h i x hx]
  simp only [InstanceRecord.plan, hir]

/-- The record's op at the number of a leaf is that leaf's. -/
theorem opAt_of_leaf {r : InstanceRecord} {n : Nat} {it : Item}
    (h : leafAt r.plan.body n = some it) : r.opAt n = opOf it := by
  rw [InstanceRecord.opAt, h, Option.bind_some]

section
variable {φ : Phase} {w : World σ}

/-! ## Leaves -/

theorem transition_confirm_to {ctx : Ctx} {s s' : State} : transition ctx s .confirm ≠ .to s' :=
  fun h => nomatch edge_of_transition h

theorem Tended.opAt {φ' : Phase} {w' : World σ} (h : Tended w φ φ' w') (n : Nat) :
    w'.hand.opAt n = w.hand.opAt n := by
  have hir : w'.hand.ir = w.hand.ir := congrArg Core.ir h.core
  simp only [InstanceRecord.opAt, InstanceRecord.plan, hir]

/-- A leaf that is no step, marked: the walk goes on. -/
theorem turns_markLeaf {a : AppliedStep} (ho : w.hand.opAt a.step = none)
    (hs : w.hand.state = .applying) :
    Turns E .walking (do markApplied E a; Pure.pure .continue_ : Eng σ Flow) Ends w :=
  turns_markApplied E (.inr ho) (.inr ⟨rfl, .inl ho⟩) fun _ h _ => Traces.pure ⟨rfl, h.trans hs⟩

theorem turns_runConfirm {a : AppliedStep} (ho : w.hand.opAt a.step = none)
    (hs : w.hand.state = .applying) : Turns E .walking (runConfirm E a) Ends w := by
  refine Turns.hand E ?_
  -- a temporary plan has no `confirm()`: the event is refused
  refine Traces.bind (R := fun _ φ' w' => φ' = .walking ∧ w'.hand = w.hand ∧
    (w.hand.permanent = false → Stranded w'.hand.id w'.acts)) ?_ ?_
  · refine Traces.when (fun _ => Traces.eval rfl (.remark _ rfl rfl trivial) ⟨rfl, rfl, fun _ => ?_⟩)
      fun hp => ⟨rfl, rfl, fun hf => ?_⟩
    · exact ⟨_, List.mem_cons_self⟩
    · rw [hf] at hp
      cases hp
  · rintro _ _ w₁ ⟨rfl, hw₁, hst⟩
    refine Traces.bind (turns_step E (fun s ht => absurd ht transition_confirm_to) ?_ nofun)
      fun _ φ₂ w₂ h₂ => ?_
    · intro _ hstay
      refine .inr (hst ?_)
      by_contra hp
      refine hstay ?_
      have hp' : w.hand.permanent = true := by simpa using hp
      have hi : w₁.hand.ctx.intent = .permanent := by
        rw [hw₁]
        simp [InstanceRecord.ctx, InstanceRecord.intent, hp']
      rw [show w₁.hand.state = .applying by rw [hw₁, hs]]
      simp [transition, terminal, hi]
    · rcases h₂ with ⟨s, ht, -, -⟩ | ⟨-, rfl, rfl⟩
      · exact absurd ht transition_confirm_to
      · refine Traces.bind (turns_backstopDisarm E _) fun x φ₃ w₃ h₃ => ?_
        obtain rfl := h₃.phase
        have hs₃ : w₃.hand.state = .applying := by rw [h₃.state, hw₁, hs]
        cases x with
        | error why => exact Traces.mono (turns_refuse E _ why rfl hs₃) fun _ _ _ => Stops.ends
        | ok u =>
            refine Turns.quietly E (keeps_log E _) fun _ w₄ h₄ => ?_
            have ho₄ : w₄.hand.opAt a.step = none := by rw [h₄.opAt, h₃.opAt, hw₁, ho]
            exact turns_markLeaf E ho₄ (h₄.state.trans hs₃)

theorem turns_runCommit (hs : w.hand.state = .applying) : Turns E .walking (runCommit E) Ends w := by
  refine Turns.hand E ?_
  refine Traces.bind (R := fun _ φ' w' => φ' = .walking ∧ w'.hand = w.hand ∧
    (w.hand.permanent = false → Stranded w'.hand.id w'.acts)) ?_ ?_
  · refine Traces.when (fun _ => Traces.eval rfl (.remark _ rfl rfl trivial) ⟨rfl, rfl, fun _ => ?_⟩)
      fun hp => ⟨rfl, rfl, fun hf => ?_⟩
    · exact ⟨_, List.mem_cons_self⟩
    · rw [hf] at hp
      cases hp
  · rintro _ _ w₁ ⟨rfl, hw₁, hst⟩
    refine Traces.bind (turns_step E (fun _ _ => rfl) ?_ nofun) fun _ φ₂ w₂ h₂ => ?_
    · intro hto _
      refine .inr (hst ?_)
      by_contra hp
      refine absurd ?_ (hto .committed)
      have hp' : w.hand.permanent = true := by simpa using hp
      have hi : w₁.hand.ctx.intent = .permanent := by
        rw [hw₁]
        simp [InstanceRecord.ctx, InstanceRecord.intent, hp']
      rw [show w₁.hand.state = .applying by rw [hw₁, hs]]
      simp [transition, terminal, hi]
    · obtain ⟨rfl, -⟩ := h₂.closing rfl
      refine Turns.quietly E (keeps_log E _) fun _ w₃ _ =>
        Traces.bind (turns_release E) fun _ φ₄ w₄ h₄ => ?_
      subst h₄
      refine Traces.bind (turns_removeDirs E) fun _ φ₅ w₅ h₅ => ?_
      obtain rfl := h₅.phase
      exact Turns.quietly E (keeps_persist E) fun _ _ _ => Traces.pure rfl

theorem turns_runObserve {a : AppliedStep} (probe alias_ : String)
    (ho : w.hand.opAt a.step = none) (hs : w.hand.state = .applying) :
    Turns E .walking (runObserve E a probe alias_) Ends w := by
  refine Traces.bind (turns_ownerHost E (.inr hs)) fun owner φ₁ w₁ h₁ => ?_
  obtain ⟨rfl, rfl⟩ := h₁
  refine Turns.quietly E (Keeps.attempt (keeps_observeText E owner probe)) fun x w₂ h₂ => ?_
  cases x with
  | ok text =>
      refine Turns.setHand E (fun _ => rfl) fun w₃ h₃ _ => ?_
      have hq := h₂.trans h₃
      exact turns_markLeaf E (by rw [hq.opAt, ho]) (hq.state.trans hs)
  | error e =>
      exact Traces.mono (turns_refuse E _ e rfl (by rw [h₂.state, hs]))
        fun _ _ _ => Stops.ends

theorem turns_runGuards {a : AppliedStep} {blocks : Eng σ (Option Flow)}
    (hb : Turns E .walking blocks (Blocks .walking w True) w) (ho : w.hand.opAt a.step = none)
    (hs : w.hand.state = .applying) : Turns E .walking (runGuards E a blocks) Ends w :=
  Turns.unblocked E hb (fun _ _ _ hst => Traces.pure hst.ends) fun _ w₁ h₁ _ =>
    turns_markLeaf E (by rw [h₁.opAt, ho]) (h₁.state.trans hs)

theorem turns_runLeafItem {a : AppliedStep} (it : Item)
    (hl : leafAt w.hand.plan.body a.step = some it) (hsh : Shielded w.hand a.step)
    (ha : a ∉ w.hand.applied) (hs : w.hand.state = .applying) :
    Turns E .walking (runLeafItem E a it) Ends w := by
  have ho := opAt_of_leaf hl
  cases it with
  | step s => exact turns_runStep E _ _ s false _ hl hsh ha hs
  | knell s => exact turns_runStep E _ _ s true _ hl hsh ha hs
  | confirm => exact turns_runConfirm E ho hs
  | commit => exact turns_runCommit E hs
  | observe probe alias_ => exact turns_runObserve E probe alias_ ho hs
  | preflight guards =>
      exact turns_runGuards E
        (turns_search E _ (fun g _ hs => turns_guardBlocks E _ [] g ⟨rfl, rfl⟩ hs) hs) ho hs
  | assert guard window lapse =>
      exact turns_runGuards E
        (Turns.hand E (turns_guardBlocksWithBound E _ guard [] _ (.inr (by rw [hl]; rfl)) ⟨rfl, rfl⟩ hs))
        ho hs
  | slot name => exact turns_strand E
  | par children => exact turns_strand E
  | repeat_ form var body => exact turns_strand E
  | when_ guard window lapse then_ else_ => exact turns_strand E

theorem turns_runLeaf {a : AppliedStep} (it : Item)
    (hl : leafAt w.hand.plan.body a.step = some it) (ha : a ∉ w.hand.applied)
    (hs : w.hand.state = .applying) : Turns E .walking (runLeaf E a it) Ends w := by
  refine Traces.bind (turns_backstopBeforeLeaf E _ hs) fun x φ₁ w₁ h₁ => ?_
  cases x with
  | some flow => exact Traces.pure h₁.ends
  | none =>
      obtain ⟨ht, hsh⟩ := h₁
      obtain rfl := ht.phase
      have hir : w₁.hand.ir = w.hand.ir := congrArg Core.ir ht.core
      have hap : w₁.hand.applied = w.hand.applied := congrArg Core.applied ht.core
      refine turns_runLeafItem E it ?_ hsh (by rw [hap]; exact ha) (ht.state.trans hs)
      rw [InstanceRecord.plan, hir]
      exact hl

/-- How a part of the walk ends: where it goes on, with the counter at `n`. -/
def Counts (n : Nat) (x : Flow × Nat) (φ : Phase) (w : World σ) : Prop :=
  Ends x.1 φ w ∧ (x.1 = .continue_ → x.2 = n)

theorem turns_walkLeaf (it : Item) (a : AppliedStep)
    (hl : leafAt w.hand.plan.body a.step = some it) (hs : w.hand.state = .applying) :
    Turns E .walking (walkLeaf E it a) (Counts (a.step + 1)) w := by
  refine Turns.hand E ?_
  split
  next hap =>
    have ha : a ∈ w.hand.applied := (w.hand.isApplied_iff a).mp hap
    refine Traces.bind (R := fun _ => Walking) ?_ fun _ φ₁ w₁ h₁ => Traces.pure ⟨h₁, fun _ => rfl⟩
    exact Traces.when (fun hop => Traces.eval rfl (.skip ha (by rw [opAt_of_leaf hl]; exact hop)) ⟨rfl, hs⟩)
      fun _ => ⟨rfl, hs⟩
  next hap =>
    have ha : a ∉ w.hand.applied := fun h => hap ((w.hand.isApplied_iff a).mpr h)
    exact Traces.bind (turns_runLeaf E it hl ha hs) fun flow φ₁ w₁ h₁ =>
      Traces.pure ⟨h₁, fun _ => rfl⟩

/-! ## Containers -/

theorem turns_listValue (list : String) (vars : Vars) (hs : w.hand.state = .applying) :
    Turns E .walking (listValue E list vars) (fun _ => Stays w .walking) w := by
  refine Turns.hand E ?_
  split
  · exact Traces.pure ⟨rfl, Quiet.refl w⟩
  · refine Traces.bind (turns_ownerHost E (.inr hs)) fun owner φ₁ w₁ h₁ => ?_
    obtain ⟨rfl, rfl⟩ := h₁
    refine Turns.quietly E (Keeps.attempt (keeps_observeText E owner list)) fun x w₂ h₂ => ?_
    cases x with
    | ok text => exact Traces.pure ⟨rfl, h₂⟩
    | error e =>
        rw [show w₁.hand.id = w₂.hand.id from h₂.id.symm]
        exact Turns.remark E rfl rfl trivial (Traces.fail (drops_stranded E ⟨_, List.mem_cons_self⟩))

theorem turns_repeatValues (form : RepeatForm) (leaf : Nat) (vars : Vars)
    (hs : w.hand.state = .applying) :
    Turns E .walking (repeatValues E form leaf vars) (fun _ => Walking) w := by
  match form with
  | .count n => exact Traces.pure ⟨rfl, hs⟩
  | .over list max setValued =>
      refine Traces.bind (turns_listValue E list vars hs) fun values φ₁ w₁ h₁ => ?_
      obtain ⟨rfl, h₁⟩ := h₁
      exact Turns.hand E (Turns.remark E rfl rfl trivial (Traces.pure ⟨rfl, h₁.state.trans hs⟩))

theorem turns_repeatLoop {f : Nat → String → Eng σ Flow} {xs : List Item} {leaf : Nat}
    (h : ∀ i v (w : World σ), Placed w.hand xs leaf → w.hand.state = .applying →
      Turns E .walking (f i v) Ends w)
    (vs : List String) (i : Nat) (hp : Placed w.hand xs leaf) (hs : w.hand.state = .applying) :
    Turns E .walking (repeatLoop f vs i) Ends w := by
  induction vs generalizing w i with
  | nil => exact Traces.pure ⟨rfl, hs⟩
  | cons v vs ih =>
      refine Traces.bind (Traces.withPath (h i v w hp hs)) fun flow φ₁ w₁ h₁ => ?_
      obtain ⟨hend, hmoves⟩ := h₁
      cases flow with
      | stop => exact Traces.pure hend
      | continue_ =>
          obtain ⟨rfl, hs₁⟩ := hend
          exact ih (i + 1) (Placed.moves E hmoves hp) hs₁

/-- Whether a `when` took an arm. -/
def Chose : Option Bool → Phase → World σ → Prop
  | some _, φ, w => Walking φ w
  | none, φ, _ => φ = .resting

theorem turns_chooseArm (guard : Guard) (leaf iteration : Nat) (vars : Vars)
    (hs : w.hand.state = .applying) :
    Turns E .walking (chooseArm E guard leaf iteration vars) Chose w := by
  refine Turns.hand E ?_
  cases hc : w.hand.choices.get leaf with
  | some c => exact Traces.editBind (.recollect hc) (Traces.pure ⟨rfl, hs⟩)
  | none =>
      refine Traces.bind (turns_ownerHost E (.inr hs)) fun owner φ₁ w₁ h₁ => ?_
      obtain ⟨rfl, rfl⟩ := h₁
      refine Turns.quietly E (Keeps.attempt (keeps_observeTri E owner guard.name)) fun x w₂ h₂ => ?_
      have hs₂ : w₂.hand.state = .applying := by rw [h₂.state, hs]
      cases x with
      | error e =>
          exact Traces.bind (turns_refuse E _ _ rfl hs₂) fun _ _ _ hst => Traces.pure hst.2
      | ok tri =>
          refine Pending.start (Pending.editBind (Pending.persistBind E rfl rfl
            fun w₃ h₃ => Pending.editBind ?_))
          have hp := Written.puts (w := w₂) (by rfl) (by rfl) h₃
          have ha : w₃.acts = w₂.acts := acts_of_frame hp.frame
          refine Pending.land (@Move.choose _ _ _ _ leaf iteration vars tri (armOf guard tri)
            (by rw [h₂.choices]; exact hc)
            ⟨hp.hand, hp.docket, hp.others, hp.own, ?_⟩) (Traces.pure ⟨rfl, ?_⟩)
          · rw [← h₂.id, ← ha, ← hp.frame]
            rfl
          · exact (congrArg Core.state hp.hand).trans hs₂

/-! ## The walk -/

mutual

theorem turns_walkItem (it : Item) (iteration leaf : Nat) (vars : Vars) (w : World σ)
    (hp : Placed w.hand (leavesOf it) leaf) (hs : w.hand.state = .applying) :
    Turns E .walking (walkItem E it iteration leaf vars)
      (Counts (leaf + (leavesOf it).length)) w := by
  match it with
  | .par children =>
      simp only [walkItem, leavesOf] at hp ⊢
      exact turns_walkItems children iteration leaf vars w hp hs
  | .repeat_ form var body =>
      simp only [walkItem, leavesOf] at hp ⊢
      refine Traces.bind (Traces.withPath (turns_repeatValues E form leaf vars hs))
        fun values φ₁ w₁ h₁ => ?_
      obtain ⟨⟨rfl, hs₁⟩, hm⟩ := h₁
      refine Traces.bind (turns_repeatLoop E
        (fun i v w' hp' hs' => ?_) values 0 (Placed.moves E hm hp) hs₁) fun flow φ₂ w₂ h₂ => ?_
      · exact Traces.bind (turns_walkItems body i leaf (vars.insert var v) w' hp' hs')
          fun _ _ _ h => Traces.pure h.1
      · exact Traces.pure ⟨h₂, fun _ => by rw [leafCount_eq_length]⟩
  | .when_ guard window lapse then_ else_ =>
      simp only [walkItem, leavesOf] at hp ⊢
      refine Traces.bind (Traces.withPath (turns_chooseArm E guard leaf iteration vars hs))
        fun x φ₁ w₁ h₁ => ?_
      obtain ⟨hch, hm⟩ := h₁
      have hp₁ := Placed.moves E hm hp
      match x with
      | none => exact Traces.pure ⟨hch, nofun⟩
      | some true =>
          obtain ⟨rfl, hs₁⟩ := hch
          refine Traces.bind (turns_walkItems then_ iteration leaf vars w₁ hp₁.left hs₁)
            fun x φ₂ w₂ h₂ => Traces.pure ⟨h₂.1, fun hc => ?_⟩
          simp only [leafCount_eq_length, h₂.2 hc, List.length_append]
          omega
      | some false =>
          obtain ⟨rfl, hs₁⟩ := hch
          refine Traces.mono (turns_walkItems else_ iteration (leaf + leafCount then_) vars w₁
            (by rw [leafCount_eq_length]; exact hp₁.right) hs₁) fun x φ₂ w₂ h₂ => ⟨h₂.1, fun hc => ?_⟩
          simp only [h₂.2 hc, leafCount_eq_length, List.length_append]
          omega
  | .step s => exact turns_walkLeaf E (.step s) ⟨leaf, iteration, vars⟩ (hp 0 _ rfl) hs
  | .knell s => exact turns_walkLeaf E (.knell s) ⟨leaf, iteration, vars⟩ (hp 0 _ rfl) hs
  | .slot n => exact turns_walkLeaf E (.slot n) ⟨leaf, iteration, vars⟩ (hp 0 _ rfl) hs
  | .confirm => exact turns_walkLeaf E .confirm ⟨leaf, iteration, vars⟩ (hp 0 _ rfl) hs
  | .commit => exact turns_walkLeaf E .commit ⟨leaf, iteration, vars⟩ (hp 0 _ rfl) hs
  | .preflight gs => exact turns_walkLeaf E (.preflight gs) ⟨leaf, iteration, vars⟩ (hp 0 _ rfl) hs
  | .observe p al => exact turns_walkLeaf E (.observe p al) ⟨leaf, iteration, vars⟩ (hp 0 _ rfl) hs
  | .assert g b l => exact turns_walkLeaf E (.assert g b l) ⟨leaf, iteration, vars⟩ (hp 0 _ rfl) hs

theorem turns_walkItems (items : List Item) (iteration leaf : Nat) (vars : Vars) (w : World σ)
    (hp : Placed w.hand (leaves items) leaf) (hs : w.hand.state = .applying) :
    Turns E .walking (walkItems E items iteration leaf vars)
      (Counts (leaf + (leaves items).length)) w := by
  match items with
  | [] =>
      simp only [walkItems, leaves]
      exact Traces.pure ⟨⟨rfl, hs⟩, fun _ => rfl⟩
  | it :: items =>
      simp only [walkItems, leaves] at hp ⊢
      refine Traces.bind (Traces.withPath (turns_walkItem it iteration leaf vars w hp.left hs))
        fun x φ₁ w₁ h₁ => ?_
      obtain ⟨⟨hend, hcount⟩, hm⟩ := h₁
      match x with
      | (.stop, l) => exact Traces.pure ⟨hend, nofun⟩
      | (.continue_, l) =>
          obtain ⟨rfl, hs₁⟩ := hend
          obtain rfl : l = leaf + (leavesOf it).length := hcount rfl
          refine Traces.mono (turns_walkItems items iteration _ vars w₁ (Placed.moves E hm hp).right hs₁)
            fun x φ₂ w₂ h₂ => ⟨h₂.1, fun hc => ?_⟩
          rw [h₂.2 hc, List.length_append, Nat.add_assoc]

end

theorem turns_rest (hs : w.hand.state = .applying) :
    Turns E .walking (rest E) (fun _ φ' _ => φ' = .resting) w := by
  refine Turns.hand E ?_
  refine Traces.bind (R := fun _ φ' w' => φ' = .walking ∧ w'.hand = w.hand ∧
    (w.hand.permanent = true → Stranded w'.hand.id w'.acts)) ?_ ?_
  · refine Traces.when (fun _ => Traces.eval rfl (.remark _ rfl rfl trivial) ⟨rfl, rfl, fun _ => ?_⟩)
      fun hp => ⟨rfl, rfl, fun hf => ?_⟩
    · exact ⟨_, List.mem_cons_self⟩
    · rw [hf] at hp
      cases hp
  · rintro _ _ w₁ ⟨rfl, hw₁, hst⟩
    have hs₁ : w₁.hand.state = .applying := by rw [hw₁, hs]
    refine Traces.bind (turns_step E (fun _ _ => rfl) ?_ nofun) fun _ φ₂ w₂ h₂ => ?_
    · intro hto _
      refine .inr (hst ?_)
      by_contra hp
      refine absurd ?_ (hto .applied)
      have hp' : w.hand.permanent = false := by simpa using hp
      have hi : w₁.hand.ctx.intent = .temporary := by
        rw [hw₁]
        simp [InstanceRecord.ctx, InstanceRecord.intent, hp']
      rw [hs₁]
      simp [transition, terminal, hi]
    · exact Turns.quietEnd E (keeps_log E _) fun _ _ _ => h₂.rests rfl

theorem turns_whileApplying {flow : Flow} {m : Eng σ Flow} {Q : Flow → Phase → World σ → Prop}
    (he : Ends flow φ w) (hstop : φ = .resting → Q .stop φ w)
    (hm : w.hand.state = .applying → Turns E .walking m Q w) :
    Turns E φ (whileApplying flow m) Q w := by
  refine Turns.hand E ?_
  cases flow with
  | stop =>
      rw [if_neg (by simp)]
      exact Traces.pure (hstop he)
  | continue_ =>
      obtain ⟨rfl, hs⟩ := he
      rw [if_pos ⟨rfl, hs⟩]
      exact hm hs

/-- A record that is applying is about to be walked; any other is at rest. -/
def Ready (φ : Phase) (w : World σ) : Prop :=
  Starting φ w ∨ (φ = .resting ∧ w.hand.state ≠ .applying)

theorem turns_walk (h : Ready φ w) : Turns E φ (walk E) (fun _ φ' _ => φ' = .resting) w := by
  refine Turns.hand E ?_
  rcases h with ⟨rfl, hs⟩ | ⟨hφ, hs⟩
  · rw [if_neg (by simp [hs])]
    refine Traces.bind (turns_refuseOnContractChange E (.inl ⟨rfl, hs⟩)) fun refused φ₁ w₁ h₁ => ?_
    cases refused with
    | true => exact Traces.pure h₁
    | false =>
        obtain ⟨rfl, hag⟩ : φ₁ = .starting ∧ Agreed E w w₁ := h₁
        obtain ⟨_, hq⟩ := hag.remarked
        refine Traces.after (.depart (hag.departs E hs)) ?_
        have hp : Placed w₁.hand (leaves w.hand.plan.body) 1 := by
          intro i x hx
          rw [InstanceRecord.plan, hq.ir]
          exact placed_body w.hand i x hx
        refine Traces.bind (turns_walkItems E _ 0 1 [] w₁ hp (hq.state.trans hs))
          fun ended φ₂ w₂ h₂ => ?_
        refine Traces.bind (turns_whileApplying E h₂.1 id (turns_backstopAfterWalk E))
          fun flow φ₃ w₃ h₃ => ?_
        refine Traces.bind (turns_whileApplying E (Q := fun _ φ' _ => φ' = .resting) h₃ id
          fun hs₃ => ?_) fun _ φ₄ w₄ h₄ => Traces.pure h₄
        exact Traces.bind (turns_rest E hs₃) fun _ _ _ hset => Traces.pure hset
  · rw [if_pos hs]
    exact Traces.pure hφ

end

end Rescind
