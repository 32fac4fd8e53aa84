/-
# `Rescind.Safety.Collisions` — which applications share a key

The walk comes to a leaf once for every choice of rounds of the repeats around
it.  An application's key is its step and its variables: of each name, what the
innermost repeat that binds it bound.  The round is no part of it, so two
applications of one step share a key where no variable tells their rounds apart.

    the repeats around a visit are the leaf's          (`vars_of_visits`)
    keys are apart exactly where variables tell
      the rounds apart                                 (`keys_apart_iff`)
    names used once and lists that hold an element
      at one place do so                               (`tell_of_steady`)

That the walk runs leaves at its visits only is `walkItems_of_visits`.
-/
import Rescind.Engine.Keys
import Rescind.Engine.Script
import Rescind.Safety.Visits

namespace Rescind

open Lib

/-- The round of a repeat that a step of the way is. -/
def Fork.round : Fork → Option Lap
  | .lap t => some t
  | _ => none

/-- The rounds a leaf is reached in, outer first. -/
def Visit.rounds (a : Visit) : List Lap := a.path.filterMap Fork.round

/-- The key an application's markers and snapshots are kept under. -/
def Visit.key (a : Visit) : List Char := stepKey a.app.step a.app.vars

/-- The two are one application: the step in the same round of every repeat
around it. -/
def Visit.Same (a b : Visit) : Prop :=
  a.app.step = b.app.step ∧ a.rounds.map Lap.round = b.rounds.map Lap.round

@[simp] theorem Visit.rounds_lap (t : Lap) (a : Visit) : (a.under (.lap t)).rounds = t :: a.rounds := rfl

@[simp] theorem Visit.rounds_arm (b : Bool) (a : Visit) : (a.under (.arm b)).rounds = a.rounds := rfl

@[simp] theorem Visit.rounds_item (i : Nat) (a : Visit) : (a.under (.item i)).rounds = a.rounds := rfl

namespace Keys

variable {σ : Type} (E : Setting σ)

/-! ## The rounds around a visit -/

/-- Variables bound round by round. -/
def bindRounds (vars : Vars) (ts : List Lap) : Vars :=
  ts.foldl (fun m t => m.insert t.var t.value) vars

mutual

/-- Its variables are those of its rounds. -/
theorem vars_of_reachesItem (it : Item) {iteration leaf : Nat} {vars : Vars} {a : Visit}
    (h : ReachesItem it iteration leaf vars a) : a.app.vars = bindRounds vars a.rounds := by
  match it with
  | .par children => exact vars_of_reachesItems children h
  | .repeat_ form var body =>
      obtain ⟨i, x, b, hb, rfl⟩ := h
      simpa [bindRounds] using vars_of_reachesItems body hb
  | .when_ guard window onLapse then_ else_ =>
      rcases h with ⟨b, hb, rfl⟩ | ⟨b, hb, rfl⟩
      · simpa using vars_of_reachesItems then_ hb
      · simpa using vars_of_reachesItems else_ hb
  | .step _ | .knell _ | .slot _ | .confirm | .commit | .preflight _ | .observe _ _
  | .assert _ _ _ =>
      subst h
      rfl

theorem vars_of_reachesItems (items : List Item) {i iteration leaf : Nat} {vars : Vars} {a : Visit}
    (h : ReachesItems items i iteration leaf vars a) : a.app.vars = bindRounds vars a.rounds := by
  match items with
  | [] => cases h
  | it :: items =>
      rcases h with ⟨b, hb, rfl⟩ | h
      · simpa using vars_of_reachesItem it hb
      · exact vars_of_reachesItems items h

end

mutual

/-- The repeats around a step bind the same names in the same order, whenever it
is visited. -/
theorem names_of_reachesItem (it : Item) {i j leaf : Nat} {vars vars' : Vars} {a b : Visit}
    (ha : ReachesItem it i leaf vars a) (hb : ReachesItem it j leaf vars' b)
    (h : a.app.step = b.app.step) : a.rounds.map Lap.var = b.rounds.map Lap.var := by
  match it with
  | .par children => exact names_of_reachesItems children ha hb h
  | .repeat_ form var body =>
      obtain ⟨k, x, a, ha, rfl⟩ := ha
      obtain ⟨l, y, b, hb, rfl⟩ := hb
      exact congrArg (var :: ·) (names_of_reachesItems body ha hb h)
  | .when_ guard window onLapse then_ else_ =>
      have hthen : ∀ {i vars c}, ReachesItems then_ 0 i leaf vars c → c.app.step < leaf + leafCount then_ :=
        fun hc => leafCount_eq_length then_ ▸ (step_of_reachesItems then_ hc).2
      rcases ha with ⟨a, ha, rfl⟩ | ⟨a, ha, rfl⟩ <;> rcases hb with ⟨b, hb, rfl⟩ | ⟨b, hb, rfl⟩ <;>
        rw [Visit.app_under, Visit.app_under] at h
      · simpa using names_of_reachesItems then_ ha hb h
      · exact absurd h (Nat.ne_of_lt (Nat.lt_of_lt_of_le (hthen ha) (step_of_reachesItems else_ hb).1))
      · exact absurd h.symm
          (Nat.ne_of_lt (Nat.lt_of_lt_of_le (hthen hb) (step_of_reachesItems else_ ha).1))
      · simpa using names_of_reachesItems else_ ha hb h
  | .step _ | .knell _ | .slot _ | .confirm | .commit | .preflight _ | .observe _ _
  | .assert _ _ _ =>
      subst ha
      subst hb
      rfl

theorem names_of_reachesItems (items : List Item) {k i j leaf : Nat} {vars vars' : Vars} {a b : Visit}
    (ha : ReachesItems items k i leaf vars a) (hb : ReachesItems items k j leaf vars' b)
    (h : a.app.step = b.app.step) : a.rounds.map Lap.var = b.rounds.map Lap.var := by
  match items with
  | [] => cases ha
  | it :: items =>
      rcases ha with ⟨a, ha, rfl⟩ | ha <;> rcases hb with ⟨b, hb, rfl⟩ | hb
      · simpa using names_of_reachesItem it ha hb h
      · rw [Visit.app_under] at h
        exact absurd h (Nat.ne_of_lt (Nat.lt_of_lt_of_le (step_of_reachesItem it ha).2
          (step_of_reachesItems items hb).1))
      · rw [Visit.app_under] at h
        exact absurd h.symm (Nat.ne_of_lt (Nat.lt_of_lt_of_le (step_of_reachesItem it hb).2
          (step_of_reachesItems items ha).1))
      · exact names_of_reachesItems items ha hb h

end

/-! ## What tells rounds apart -/

/-- Some repeat runs the two under different elements, and no repeat further in
binds its variable again. -/
def Tell : List Lap → List Lap → Prop
  | t :: ts, u :: us => (t.value ≠ u.value ∧ t.var ∉ ts.map Lap.var) ∨ Tell ts us
  | _, _ => False

theorem bindRounds_cons (vars : Vars) (t : Lap) (ts : List Lap) :
    bindRounds vars (t :: ts) = bindRounds (vars.insert t.var t.value) ts := rfl

theorem sorted_bindRounds {vars : Vars} (h : Assoc.Sorted vars) (ts : List Lap) :
    Assoc.Sorted (bindRounds vars ts) := by
  induction ts generalizing vars with
  | nil => exact h
  | cons t ts ih => exact ih (h.insert t.var t.value)

/-- Rounds of the same repeats bind the same exactly where nothing tells them
apart, and what they do not bind was the same. -/
theorem bindRounds_eq_iff {ts us : List Lap} (hn : ts.map Lap.var = us.map Lap.var)
    {m m' : Vars} (hm : Assoc.Sorted m) (hm' : Assoc.Sorted m') :
    bindRounds m ts = bindRounds m' us ↔
      (∀ k, k ∉ ts.map Lap.var → m.get k = m'.get k) ∧ ¬ Tell ts us := by
  induction ts generalizing us m m' with
  | nil =>
      obtain rfl := List.map_eq_nil_iff.mp hn.symm
      constructor
      · intro h
        exact ⟨fun k _ => congrArg (Assoc.get · k) h, fun ht => ht⟩
      · rintro ⟨h, -⟩
        exact hm.ext_get hm' fun k => h k (List.not_mem_nil)
  | cons t ts ih =>
      cases us with
      | nil => cases hn
      | cons u us =>
          obtain ⟨hv, hns⟩ := List.cons.inj hn
          rw [bindRounds_cons, bindRounds_cons, ih hns (hm.insert _ _) (hm'.insert _ _), Tell, not_or]
          rw [← hv]
          constructor
          · rintro ⟨hg, ht⟩
            refine ⟨fun k hk => ?_, fun hd => ?_, ht⟩
            · rw [List.map_cons, List.mem_cons, not_or] at hk
              have := hg k hk.2
              rwa [Assoc.get_insert_ne _ _ hk.1, Assoc.get_insert_ne _ _ hk.1] at this
            · have := hg t.var hd.2
              rw [Assoc.get_insert_self, Assoc.get_insert_self] at this
              exact hd.1 (Option.some.inj this)
          · rintro ⟨hg, hd, ht⟩
            refine ⟨fun k hk => ?_, ht⟩
            rw [Assoc.get_insert, Assoc.get_insert]
            by_cases hkt : k = t.var
            · subst hkt
              rw [if_pos rfl, if_pos rfl]
              exact congrArg some (Classical.not_not.mp fun hne => hd ⟨hne, hk⟩)
            · rw [if_neg hkt, if_neg hkt]
              exact hg k (fun hm => (List.mem_cons.mp hm).elim hkt hk)

section
variable {E}
variable {items : List Item} {w w' : World σ} {a b : Visit}

theorem vars_of_visits (ha : a ∈ visits E items w) (hb : b ∈ visits E items w')
    (h : a.app.step = b.app.step) : a.app.vars = b.app.vars ↔ ¬ Tell a.rounds b.rounds := by
  have hra := reaches_visitItems E items 0 0 1 [] w ha
  have hrb := reaches_visitItems E items 0 0 1 [] w' hb
  rw [vars_of_reachesItems items hra, vars_of_reachesItems items hrb,
    bindRounds_eq_iff (names_of_reachesItems items hra hrb h) .nil .nil]
  exact ⟨fun h => h.2, fun h => ⟨fun _ _ => rfl, h⟩⟩

theorem sorted_of_visits (ha : a ∈ visits E items w) : Assoc.Sorted a.app.vars := by
  rw [vars_of_reachesItems items (reaches_visitItems E items 0 0 1 [] w ha)]
  exact sorted_bindRounds .nil a.rounds

/-- Two visits share a key where they are of one step and nothing tells their
rounds apart. -/
theorem key_eq_iff (ha : a ∈ visits E items w) (hb : b ∈ visits E items w') :
    a.key = b.key ↔ a.app.step = b.app.step ∧ ¬ Tell a.rounds b.rounds := by
  rw [Visit.key, Visit.key, stepKey_inj (sorted_of_visits ha) (sorted_of_visits hb)]
  exact ⟨fun h => ⟨h.1, (vars_of_visits ha hb h.1).mp h.2⟩,
    fun h => ⟨h.1, (vars_of_visits ha hb h.1).mpr h.2⟩⟩

end

/-! ## Keys in one execution -/

/-- In walks of one plan from these worlds, no two applications share a key. -/
def KeysApart (items : List Item) (walks : World σ → Prop) : Prop :=
  ∀ w w', walks w → walks w' → ∀ a ∈ visits E items w, ∀ b ∈ visits E items w',
    a.key = b.key → a.Same b

/-- In walks of one plan from these worlds, wherever one step is run in different
rounds, some variable tells them apart. -/
def RoundsTold (items : List Item) (walks : World σ → Prop) : Prop :=
  ∀ w w', walks w → walks w' → ∀ a ∈ visits E items w, ∀ b ∈ visits E items w',
    a.app.step = b.app.step → a.rounds.map Lap.round ≠ b.rounds.map Lap.round →
      Tell a.rounds b.rounds

theorem keysApart_iff {items : List Item} {walks : World σ → Prop} :
    KeysApart E items walks ↔ RoundsTold E items walks := by
  constructor
  · intro h w w' hw hw' a ha b hb hs hr
    by_contra ht
    exact hr (h w w' hw hw' a ha b hb ((key_eq_iff ha hb).mpr ⟨hs, ht⟩)).2
  · intro h w w' hw hw' a ha b hb hk
    obtain ⟨hs, ht⟩ := (key_eq_iff ha hb).mp hk
    refine ⟨hs, ?_⟩
    by_contra hr
    exact ht (h w w' hw hw' a ha b hb hs hr)

/-- An element stands at one place in what one repeat runs through under the same
variables, and no repeat binds a name of a repeat around it. -/
structure Steady (a b : Visit) : Prop where
  fresh : (a.rounds.map Lap.var).Nodup
  place {pre pre' ts us : List Lap} {t u : Lap} : a.rounds = pre ++ t :: ts →
    b.rounds = pre' ++ u :: us → pre.map Lap.value = pre'.map Lap.value →
      t.value = u.value → t.round = u.round

/-- Names used once and steady lists tell all rounds apart. -/
theorem tell_of_steady {a b : Visit} (h : Steady a b)
    (hn : a.rounds.map Lap.var = b.rounds.map Lap.var)
    (hr : a.rounds.map Lap.round ≠ b.rounds.map Lap.round) : Tell a.rounds b.rounds := by
  obtain ⟨hf, hp⟩ := h
  have go : ∀ (ts us pre pre' : List Lap), a.rounds = pre ++ ts → b.rounds = pre' ++ us →
      pre.map Lap.value = pre'.map Lap.value → ts.map Lap.var = us.map Lap.var →
      (ts.map Lap.var).Nodup → ts.map Lap.round ≠ us.map Lap.round → Tell ts us := by
    intro ts
    induction ts with
    | nil =>
        intro us pre pre' _ _ _ hn _ hr
        obtain rfl := List.map_eq_nil_iff.mp hn.symm
        exact absurd rfl hr
    | cons t ts ih =>
        intro us pre pre' ha hb hv hn hf hr
        cases us with
        | nil => cases hn
        | cons u us =>
            obtain ⟨-, hns⟩ := List.cons.inj hn
            rw [List.map_cons, List.nodup_cons] at hf
            by_cases hval : t.value = u.value
            · refine .inr (ih us (pre ++ [t]) (pre' ++ [u]) ?_ ?_ ?_ hns hf.2 fun he => hr ?_)
              · rw [ha, List.append_assoc, List.singleton_append]
              · rw [hb, List.append_assoc, List.singleton_append]
              · rw [List.map_append, List.map_append, hv, List.map_singleton, List.map_singleton, hval]
              · rw [List.map_cons, List.map_cons, hp ha hb hv hval, he]
            · exact .inl ⟨hval, hf.1⟩
  exact go a.rounds b.rounds [] [] rfl rfl rfl hn hf hr

/-- **Keys are read back, and are apart exactly where some variable tells rounds
apart**: of any two walks of one plan, the same one twice included. -/
theorem keys_apart_iff {σ : Type} (E : Setting σ) (items : List Item) (walks : World σ → Prop) :
    (∀ step vars, step < 2 ^ 32 → Assoc.Sorted vars →
      parseStepKey (stepKey step vars) = some (step, vars)) ∧
    (KeysApart E items walks ↔ RoundsTold E items walks) :=
  ⟨fun _ _ hn hv => parseStepKey_stepKey hn hv, keysApart_iff E⟩

def site : Setting Nat := ({} : Script).setting

/-- A step for every host of a list. -/
def eachHost : List Item := [.repeat_ (.over "hosts" 8 true) "h" [ownFile "/x"]]

/-- The list names one host twice. -/
def begun : World Nat := { smallWorld ["web"] with
  hand := { noRecord with
    id := "p.web.00000000"
    ir := smallPlan "p" "web" eachHost
    params := [("hosts", "a,a")]
    state := .applying } }

/-- The visit of a round. -/
def visitOf (i : Nat) : Visit :=
  ⟨[.item 0, .lap ⟨"h", i, "a"⟩, .item 0], ⟨1, i, [("h", "a")]⟩⟩

/-- Both rounds are run, and the second's markers stand where the first's did. -/
theorem shared_key : visits site eachHost begun = [visitOf 0, visitOf 1] ∧
    (walkItems site eachHost 0 1 [] begun).2.hand.applied = [(visitOf 0).app, (visitOf 1).app] ∧
    ((walkItems site eachHost 0 1 [] begun).2.hand.markers.map Prod.fst) = [(1, [("h", "a")])] ∧
    (visitOf 0).key = (visitOf 1).key ∧ ¬ KeysApart site eachHost fun w => w = begun := by
  have hv : visits site eachHost begun = [visitOf 0, visitOf 1] := by decide +kernel
  have hk : (visitOf 0).key = (visitOf 1).key := by decide +kernel
  refine ⟨hv, by decide +kernel, by decide +kernel, hk, fun h => ?_⟩
  have hsame := h begun begun rfl rfl (visitOf 0) (by rw [hv]; simp) (visitOf 1) (by rw [hv]; simp) hk
  exact absurd hsame.2 (by decide)

end Keys

end Rescind
