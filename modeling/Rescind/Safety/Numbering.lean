/-
# `Rescind.Safety.Numbering` — every traversal numbers a leaf alike

The walk is generalised over what it does at a leaf and how it chooses an arm
(`walkItemsBy`).  It asks for either only at a place of the plan, so a walk whose
leaf action differs elsewhere is the same walk, whatever arms are taken and
however often a loop runs.

Nothing is assumed of the plan, nor of what the walk is answered.

**Proved here.**

    the walk is one of the generalised walks              (`walkItems_eq`)
    the counter moves by the leaves of an item            (`yields_walkItemsBy`)
    what it does elsewhere does not matter                (`walkItemsBy_congr`)
    one numbering                                         (`one_numbering`)
-/
import Rescind.Core.Numbering
import Rescind.Engine.Walk

namespace Rescind

open Lib

/-! ## The walk, whatever it does at a leaf -/

section
variable {σ : Type} (E : Setting σ)

/-- What a walk does: at a leaf, at a `when`, at a repeat. -/
structure Walker (σ : Type) where
  leaf : Item → AppliedStep → Eng σ (Flow × Nat)
  choose : Guard → Nat → Nat → Vars → Eng σ (Option Bool)
  values : RepeatForm → Nat → Vars → Eng σ (List String)

/-- The engine's. -/
def walker : Walker σ := ⟨walkLeaf E, chooseArm E, repeatValues E⟩

/-- A leaf, and the counter past it. -/
def Walker.pass (v : Walker σ) (it : Item) (a : AppliedStep) : Eng σ (Flow × Nat) := do
  let ended ← v.leaf it a
  pure (ended.1, a.step + 1)

mutual

def walkItemBy (v : Walker σ) : Item → Nat → Nat → Vars → Eng σ (Flow × Nat)
  | .par children, iteration, leaf, vars => walkItemsBy v children iteration leaf vars
  | .repeat_ form var body, _, leaf, vars => do
      let values ← v.values form leaf vars
      let flow ← repeatLoop (fun i x => do
        let ended ← walkItemsBy v body i leaf (vars.insert var x)
        pure ended.1) values 0
      pure (flow, leaf + leafCount body)
  | .when_ guard _ _ then_ else_, iteration, leaf, vars => do
      match ← v.choose guard leaf iteration vars with
      | none => pure (.stop, leaf)
      | some true => do
          let ended ← walkItemsBy v then_ iteration leaf vars
          pure (ended.1, ended.2 + leafCount else_)
      | some false => walkItemsBy v else_ iteration (leaf + leafCount then_) vars
  | it, iteration, leaf, vars => v.pass it ⟨leaf, iteration, vars⟩

def walkItemsBy (v : Walker σ) : List Item → Nat → Nat → Vars → Eng σ (Flow × Nat)
  | [], _, leaf, _ => pure (.continue_, leaf)
  | it :: items, iteration, leaf, vars => do
      match ← walkItemBy v it iteration leaf vars with
      | (.stop, leaf) => pure (.stop, leaf)
      | (.continue_, leaf) => walkItemsBy v items iteration leaf vars

end

open Lib.Prog

theorem yields_walkLeaf (it : Item) (a : AppliedStep) :
    Yields (fun ended => ended.2 = a.step + 1) (walkLeaf E it a) := by
  refine Yields.after fun r => ?_
  split
  · exact Yields.after fun _ => Yields.pure rfl
  · exact Yields.after fun flow => Yields.pure rfl

/-- The engine's leaf moves the counter past it already. -/
theorem pass_walker (it : Item) (a : AppliedStep) : (walker E).pass it a = walkLeaf E it a := by
  funext w
  show (walkLeaf E it a >>= fun ended => Pure.pure (ended.1, a.step + 1)) w = _
  rw [bind_eq]
  have hy := yields_walkLeaf E it a w
  match h : walkLeaf E it a w with
  | (.ok ended, w') =>
      obtain ⟨flow, n⟩ := ended
      obtain rfl : n = a.step + 1 := hy _ _ h
      rfl
  | (.err e, w') => rfl
  | (.died, w') => rfl

mutual

theorem walkItem_eq (it : Item) (iteration leaf : Nat) (vars : Vars) :
    walkItemBy (walker E) it iteration leaf vars = walkItem E it iteration leaf vars := by
  match it with
  | .par children => rw [walkItemBy, walkItem, walkItems_eq children]
  | .repeat_ form var body =>
      rw [walkItemBy, walkItem]
      simp only [walkItems_eq body]
      rfl
  | .when_ guard window onLapse then_ else_ =>
      rw [walkItemBy, walkItem]
      simp only [walkItems_eq then_, walkItems_eq else_]
      rfl
  | .step _ | .knell _ | .slot _ | .confirm | .commit | .preflight _ | .observe _ _
  | .assert _ _ _ => exact pass_walker E _ _

/-- The walk is the generalised one, at the engine's own leaves and arms. -/
theorem walkItems_eq (items : List Item) (iteration leaf : Nat) (vars : Vars) :
    walkItemsBy (walker E) items iteration leaf vars = walkItems E items iteration leaf vars := by
  match items with
  | [] => rfl
  | it :: items =>
      rw [walkItemsBy, walkItems, walkItem_eq it]
      refine congrArg (walkItem E it iteration leaf vars >>= ·) (funext fun ended => ?_)
      obtain ⟨flow, next⟩ := ended
      cases flow with
      | stop => rfl
      | continue_ => exact walkItems_eq items iteration next vars

end

/-! ## The walk keeps to the plan's places -/

/-- The number an operation of the walk went on to. -/
def Reaches (n : Nat) (ended : Flow × Nat) : Prop := ended.1 = .continue_ → ended.2 = n

mutual

theorem yields_walkItemBy (v : Walker σ) (it : Item) (iteration leaf : Nat) (vars : Vars) :
    Yields (Reaches (leaf + (leavesOf it).length)) (walkItemBy v it iteration leaf vars) := by
  match it with
  | .par children => exact yields_walkItemsBy v children iteration leaf vars
  | .repeat_ form var body =>
      rw [walkItemBy, leafCount_eq_length]
      exact Yields.after fun values => Yields.after fun flow => Yields.pure fun _ => rfl
  | .when_ guard window onLapse then_ else_ =>
      rw [walkItemBy, leavesOf, List.length_append]
      refine Yields.after fun arm => ?_
      match arm with
      | none => exact Yields.pure fun h => nomatch h
      | some true =>
          refine Yields.bind (yields_walkItemsBy v then_ iteration leaf vars) fun ended h =>
            Yields.pure fun hc => ?_
          rw [h hc, leafCount_eq_length, Nat.add_assoc]
      | some false =>
          have h := yields_walkItemsBy v else_ iteration (leaf + leafCount then_) vars
          rw [Nat.add_assoc, ← leafCount_eq_length else_] at h
          rw [← leafCount_eq_length, ← leafCount_eq_length]
          exact h
  | .step _ | .knell _ | .slot _ | .confirm | .commit | .preflight _ | .observe _ _
  | .assert _ _ _ => exact Yields.after fun ended => Yields.pure fun _ => rfl

/-- The counter moves by the leaves of a sequence, whatever arms are taken and
however often its loops run. -/
theorem yields_walkItemsBy (v : Walker σ) (items : List Item) (iteration leaf : Nat)
    (vars : Vars) :
    Yields (Reaches (leaf + (leaves items).length)) (walkItemsBy v items iteration leaf vars) := by
  match items with
  | [] => exact Yields.pure fun _ => rfl
  | it :: items =>
      rw [walkItemsBy, leaves, List.length_append, ← Nat.add_assoc]
      refine Yields.bind (yields_walkItemBy v it iteration leaf vars) fun ended h => ?_
      match ended with
      | (.stop, n) => exact Yields.pure fun h => nomatch h
      | (.continue_, n) =>
          obtain rfl : n = leaf + (leavesOf it).length := h rfl
          exact yields_walkItemsBy v items iteration _ vars

end

theorem yields_walkItem (it : Item) (iteration leaf : Nat) (vars : Vars) :
    Yields (Reaches (leaf + (leavesOf it).length)) (walkItem E it iteration leaf vars) :=
  walkItem_eq E it iteration leaf vars ▸ yields_walkItemBy (walker E) it iteration leaf vars

/-- Two walkers do the same at some places. -/
structure Agree (v u : Walker σ) (ps : List (Nat × Item)) : Prop where
  leaf : ∀ n it, (n, it) ∈ ps → it.isLeaf = true → ∀ iteration vars,
    v.leaf it ⟨n, iteration, vars⟩ = u.leaf it ⟨n, iteration, vars⟩
  choose : ∀ n guard window onLapse then_ else_,
    (n, .when_ guard window onLapse then_ else_) ∈ ps → ∀ iteration vars,
      v.choose guard n iteration vars = u.choose guard n iteration vars
  values : ∀ n form var body, (n, .repeat_ form var body) ∈ ps → ∀ vars,
    v.values form n vars = u.values form n vars

theorem Agree.sub {v u : Walker σ} {ps qs : List (Nat × Item)} (h : Agree v u ps)
    (hs : ∀ p ∈ qs, p ∈ ps) : Agree v u qs where
  leaf n it hm hl := h.leaf n it (hs _ hm) hl
  choose n guard window onLapse then_ else_ hm :=
    h.choose n guard window onLapse then_ else_ (hs _ hm)
  values n form var body hm := h.values n form var body (hs _ hm)

theorem Agree.left {v u : Walker σ} {ps qs : List (Nat × Item)} (h : Agree v u (ps ++ qs)) :
    Agree v u ps := h.sub fun _ => List.mem_append_left qs

theorem Agree.right {v u : Walker σ} {ps qs : List (Nat × Item)} (h : Agree v u (ps ++ qs)) :
    Agree v u qs := h.sub fun _ => List.mem_append_right ps

theorem Agree.inside {v u : Walker σ} {p : Nat × Item} {ps : List (Nat × Item)}
    (h : Agree v u (p :: ps)) : Agree v u ps := h.sub fun _ => List.mem_cons_of_mem p

mutual

theorem walkItemBy_congr {v u : Walker σ} (it : Item) (iteration leaf : Nat) (vars : Vars)
    (h : Agree v u (placesOf it leaf)) :
    walkItemBy v it iteration leaf vars = walkItemBy u it iteration leaf vars := by
  have atLeaf : it.isLeaf = true →
      v.pass it ⟨leaf, iteration, vars⟩ = u.pass it ⟨leaf, iteration, vars⟩ := by
    intro hl
    have hm : (leaf, it) ∈ placesOf it leaf := by
      rw [placesOf_leaf hl]
      exact List.mem_cons_self
    rw [Walker.pass, h.leaf leaf it hm hl]
    rfl
  match it with
  | .par children => exact walkItemsBy_congr children iteration leaf vars h.inside
  | .repeat_ form var body =>
      have hb : ∀ i x, walkItemsBy v body i leaf (vars.insert var x) =
          walkItemsBy u body i leaf (vars.insert var x) :=
        fun i x => walkItemsBy_congr body i leaf _ h.inside
      rw [walkItemBy, walkItemBy, h.values leaf form var body List.mem_cons_self]
      simp only [hb]
  | .when_ guard window onLapse then_ else_ =>
      have hi := h.inside
      rw [walkItemBy, walkItemBy, h.choose leaf guard window onLapse then_ else_ List.mem_cons_self,
        walkItemsBy_congr then_ iteration leaf vars hi.left,
        walkItemsBy_congr else_ iteration (leaf + leafCount then_) vars hi.right]
  | .step _ | .knell _ | .slot _ | .confirm | .commit | .preflight _ | .observe _ _
  | .assert _ _ _ => exact atLeaf rfl

/-- **The walk keeps to the plan's places.**  Walkers that do the same there walk
the same way. -/
theorem walkItemsBy_congr {v u : Walker σ} (items : List Item) (iteration leaf : Nat) (vars : Vars)
    (h : Agree v u (placesFrom items leaf)) :
    walkItemsBy v items iteration leaf vars = walkItemsBy u items iteration leaf vars := by
  match items with
  | [] => rfl
  | it :: items =>
      rw [walkItemsBy, walkItemsBy, walkItemBy_congr it iteration leaf vars h.left]
      -- the walk goes on from the number past the item
      refine Yields.bind_congr (yields_walkItemBy u it iteration leaf vars) fun ended he => ?_
      match ended with
      | (.stop, n) => rfl
      | (.continue_, n) =>
          obtain rfl : n = leaf + (leavesOf it).length := he rfl
          exact walkItemsBy_congr items iteration _ vars h.right

end

end

/-! ## One numbering -/

/-- Two walkers do the same at every leaf under its number, and at every `when`
and every repeat under the number of its first leaf. -/
structure AgreeOn {σ : Type} (v u : Walker σ) (items : List Item) : Prop where
  leaf : ∀ n it, (n, it) ∈ numbered items → ∀ iteration vars,
    v.leaf it ⟨n, iteration, vars⟩ = u.leaf it ⟨n, iteration, vars⟩
  choose : ∀ n guard window onLapse then_ else_,
    (n, .when_ guard window onLapse then_ else_) ∈ places items → ∀ iteration vars,
      v.choose guard n iteration vars = u.choose guard n iteration vars
  values : ∀ n form var body, (n, .repeat_ form var body) ∈ places items → ∀ vars,
    v.values form n vars = u.values form n vars

theorem numbered_eq (items : List Item) :
    numbered items = (places items).filter fun p => p.2.isLeaf := numberedFrom_eq items 1

/-- **One numbering.**  The places of a plan number its leaves from one on, in
execution order.  The steps of the interference query, the children of every
`par` and their siblings, and the probes the checker lists are read off them; the
walk runs a leaf under its number there and no other; and the record's lookups
find it. -/
theorem one_numbering {σ : Type} (E : Setting σ) (owner : String) (p : Plan) :
    (numbered p.body = (places p.body).filter (fun q => q.2.isLeaf) ∧
      (numbered p.body).map Prod.fst = List.range' 1 (leaves p.body).length) ∧
    (stepFacts owner p.body).map (fun l => (l.n, l.op)) = opsOf (numbered p.body) ∧
    (∀ grp, grp ∈ parChildren owner p.body ↔
      ∃ n cs, (n, .par cs) ∈ places p.body ∧ grp = (childrenAt cs n).map stepsAt) ∧
    (∀ n cs, (n, .par cs) ∈ places p.body → ∀ c ∈ childrenAt cs n, ∀ q ∈ stepsAt c,
      q ∈ opsOf (numbered p.body)) ∧
    (∀ a b, (a, b) ∈ parSiblings owner p.body ↔ ∃ n cs, (n, .par cs) ∈ places p.body ∧
      ∃ c d, (c, d) ∈ laterPairs (childrenAt cs n) ∧
        (∃ o, (a, o) ∈ stepsAt c) ∧ ∃ o, (b, o) ∈ stepsAt d) ∧
    (observedProbes p = ((p.probes.filter ProbeDecl.static_).map fun d => (none, d.name)) ++
      (places p.body).flatMap fun q => (probesAt q.2).map fun name => (some q.1, name)) ∧
    (walkItemsBy (walker E) p.body 0 1 [] = walkItems E p.body 0 1 [] ∧
      ∀ v u : Walker σ, AgreeOn v u p.body →
        walkItemsBy v p.body 0 1 [] = walkItemsBy u p.body 0 1 []) ∧
    (∀ (r : InstanceRecord) n it, (n, it) ∈ numbered r.plan.body →
      r.opAt n = opOf it ∧ r.stepAt n = stepOf it) ∧
    (∀ items, Interference.leafCount items = leafCount items) ∧
    ObservedProbes.go p.body 1 = (1 + leafCount p.body, observedProbesFrom p.body 1) := by
  refine ⟨⟨numbered_eq p.body, ?_⟩, stepFacts_eq owner p.body, mem_parChildren owner p.body,
    fun n cs h c hc q hq => steps_of_child h hc hq, mem_parSiblings owner p.body,
    ?_, ⟨walkItems_eq E p.body 0 1 [], fun v u h => ?_⟩, fun r n it h => ?_, fun items => ?_, ?_⟩
  · rw [numbered, List.map_map]
    exact List.zipIdx_map_snd 1 (leaves p.body)
  · rw [observedProbes, observedProbesFrom_eq]
    rfl
  · refine walkItemsBy_congr p.body 0 1 [] ⟨fun n it hm hl => h.leaf n it ?_, h.choose, h.values⟩
    rw [numbered_eq]
    exact List.mem_filter.mpr ⟨hm, hl⟩
  · have hl := leafAt_of_mem h
    rw [InstanceRecord.opAt, InstanceRecord.stepAt, hl]
    exact ⟨rfl, rfl⟩
  · rw [Interference.leafCount_eq, leafCount_eq_length]
  · rw [ObservedProbes.go_eq, leafCount_eq_length]

end Rescind
