/-
# `Rescind.Safety.Openings` — when a gate opens

The enumeration of paths against what a gate means.

    a gate opens exactly where it holds                  (`any_opens`)
    an instant that is computed is the least there is    (`earliest_least`)
    a path takes the humans its proofs come from         (`GatePath.Sound`)

For gates the machine can count the four readings of a gate are exact
(`gate_exact`).  Where it opens by waiting alone the report is exact only for
some gates (`gate_alone_iff`): it counts the ways without a human, and one of
those may need the proof of an authenticator that is none, or nothing at all.

Authenticators have one id each, and a gate is one the machine can count
(`GateExpr.narrow`).  What the engine does with an answer is elsewhere
(`Rescind.Safety.Requesters`).
-/
import Mathlib.Data.List.Perm.Subperm
import Rescind.Core.Thresholds

namespace Rescind

open Lib

/-! ## The least of what there is -/

/-- The least thing with a property, or `none` where nothing has it. -/
def LeastOf {α : Type} (key : α → Nat) (P : α → Prop) : Option α → Prop
  | none => ∀ x, ¬ P x
  | some x => P x ∧ ∀ y, P y → key x ≤ key y

theorem LeastOf.congr {α : Type} {key : α → Nat} {P Q : α → Prop} {o : Option α}
    (h : ∀ x, P x ↔ Q x) : LeastOf key P o ↔ LeastOf key Q o := by
  rw [funext fun x => propext (h x)]

theorem min?_least {P : Nat → Prop} {ks : List Nat} (hin : ∀ k ∈ ks, P k)
    (hle : ∀ k, P k → ∃ j ∈ ks, j ≤ k) : LeastOf id P ks.min? := by
  rcases hm : ks.min? with _ | k
  · rw [List.min?_eq_none_iff] at hm
    intro k hk
    obtain ⟨j, hj, -⟩ := hle k hk
    rw [hm] at hj
    cases hj
  · obtain ⟨hk, hmin⟩ := List.min?_eq_some_iff.mp hm
    refine ⟨hin k hk, ?_⟩
    intro j hj
    obtain ⟨i, hi, hij⟩ := hle j hj
    exact (hmin i hi).trans hij

/-- The earliest of some instants is the first by which one of them has come. -/
theorem earliest_least (ds : List Duration) :
    LeastOf Duration.seconds (fun t => ∃ d ∈ ds, d.seconds ≤ t.seconds) (Gates.earliest ds) := by
  rw [Gates.earliest]
  rcases hm : (ds.map Duration.seconds).min? with _ | k
  · rw [List.min?_eq_none_iff, List.map_eq_nil_iff] at hm
    rintro t ⟨d, hd, -⟩
    rw [hm] at hd
    cases hd
  · obtain ⟨hk, hmin⟩ := List.min?_eq_some_iff.mp hm
    obtain ⟨d, hd, rfl⟩ := List.mem_map.mp hk
    refine ⟨⟨d, hd, Nat.le_refl _⟩, ?_⟩
    rintro t ⟨c, hc, hct⟩
    exact (hmin c.seconds (List.mem_map_of_mem hc)).trans hct

/-- The first instant from which something holds is the earliest of some
instants when and only when it holds from one of them on. -/
theorem earliest_least_iff {P : Duration → Prop} {ds : List Duration}
    (hup : ∀ t u : Duration, t.seconds ≤ u.seconds → P t → P u) :
    LeastOf Duration.seconds P (Gates.earliest ds) ↔
      ∀ t, P t ↔ ∃ d ∈ ds, d.seconds ≤ t.seconds := by
  have hds := earliest_least ds
  constructor
  · intro h t
    rcases he : Gates.earliest ds with _ | d
    · rw [he] at h hds
      exact iff_of_false (h t) (hds t)
    · rw [he] at h hds
      constructor
      · intro ht
        obtain ⟨c, hc, hcd⟩ := hds.1
        exact ⟨c, hc, hcd.trans (h.2 t ht)⟩
      · rintro ⟨c, hc, hct⟩
        exact hup d t ((hds.2 c ⟨c, hc, Nat.le_refl _⟩).trans hct) h.1
  · intro h
    exact (LeastOf.congr h).mpr hds

/-! ## Open paths -/

/-- Every authenticator of the path is proved, and its wait is over. -/
def GatePath.opens (proofs : List String) (elapsed : Duration) (p : GatePath) : Bool :=
  Gates.proved proofs p && decide ((p.wait.getD ⟨0⟩).seconds ≤ elapsed.seconds)

section

variable {auths : List Authenticator} {proofs : List String} {elapsed : Duration}

theorem opens_iff {p : GatePath} : p.opens proofs elapsed = true ↔
    (∀ id ∈ p.auths, id ∈ proofs) ∧ (p.wait.getD ⟨0⟩).seconds ≤ elapsed.seconds := by
  simp [GatePath.opens, Gates.proved]

theorem mergeWait_getD (v w : Option Duration) :
    ((mergeWait v w).getD ⟨0⟩).seconds = max (v.getD ⟨0⟩).seconds (w.getD ⟨0⟩).seconds := by
  cases v with
  | none => simp [mergeWait]
  | some v =>
      cases w with
      | none => simp [mergeWait]
      | some w => rfl

theorem opens_merge {p q : GatePath} : (p.merge q).opens proofs elapsed = true ↔
    p.opens proofs elapsed = true ∧ q.opens proofs elapsed = true := by
  simp only [opens_iff, GatePath.merge, mem_nub, List.mem_append, mergeWait_getD, max_le_iff]
  constructor
  · rintro ⟨ha, hp, hq⟩
    exact ⟨⟨fun id h => ha id (.inl h), hp⟩, ⟨fun id h => ha id (.inr h), hq⟩⟩
  · rintro ⟨⟨hap, hp⟩, ⟨haq, hq⟩⟩
    exact ⟨fun id h => h.elim (hap id) (haq id), hp, hq⟩

theorem opens_foldr {ps : List GatePath} :
    (ps.foldr GatePath.merge ⟨[], [], none⟩).opens proofs elapsed = true ↔
      ∀ p ∈ ps, p.opens proofs elapsed = true := by
  induction ps with
  | nil =>
      have h : (⟨[], [], none⟩ : GatePath).opens proofs elapsed = true :=
        opens_iff.mpr ⟨List.forall_mem_nil _, Nat.zero_le _⟩
      exact iff_of_true h (List.forall_mem_nil _)
  | cons p ps ih => rw [List.foldr_cons, opens_merge, ih, List.forall_mem_cons]

/-- A choice of factors opens when each of them does. -/
theorem merged_opens {s : List (Nat × List GatePath)} :
    (∃ p, Merged s p ∧ p.opens proofs elapsed = true) ↔
      ∀ f ∈ s, f.2.any (GatePath.opens proofs elapsed) = true := by
  constructor
  · rintro ⟨_, ⟨ps, hps, rfl⟩, ho⟩
    rw [opens_foldr] at ho
    induction hps with
    | nil => exact List.forall_mem_nil _
    | @cons f q s ps hq _ ih =>
        obtain ⟨hqo, hrest⟩ := List.forall_mem_cons.mp ho
        exact List.forall_mem_cons.mpr ⟨List.any_eq_true.mpr ⟨q, hq, hqo⟩, ih hrest⟩
  · intro h
    induction s with
    | nil => exact ⟨_, ⟨[], .nil, rfl⟩, opens_foldr.mpr (List.forall_mem_nil _)⟩
    | cons f s ih =>
        obtain ⟨hf, hrest⟩ := List.forall_mem_cons.mp h
        obtain ⟨q, hq, hqo⟩ := List.any_eq_true.mp hf
        obtain ⟨_, ⟨ps, hps, rfl⟩, ho⟩ := ih hrest
        exact ⟨_, ⟨q :: ps, .cons hq hps, rfl⟩, opens_merge.mpr ⟨hqo, ho⟩⟩

/-- **A threshold opens** when the weights of the factors that open reach it. -/
theorem threshold_opens {n : Nat} {xs : List (Nat × List GatePath)} :
    (thresholdPaths n xs).any (GatePath.opens proofs elapsed) = true ↔
      n ≤ total Prod.fst (xs.filter fun f => f.2.any (GatePath.opens proofs elapsed)) := by
  rw [← tight_holds_iff, List.any_eq_true]
  constructor
  · rintro ⟨p, hp, ho⟩
    obtain ⟨s, hs, ht, hm⟩ := mem_thresholdPaths.mp hp
    exact ⟨s, hs, ht, merged_opens.mp ⟨p, hm, ho⟩⟩
  · rintro ⟨s, hs, ht, hall⟩
    obtain ⟨p, hm, ho⟩ := merged_opens.mpr hall
    exact ⟨p, mem_thresholdPaths.mpr ⟨s, hs, ht, hm⟩, ho⟩

mutual

theorem factor_opens (f : Factor) :
    (factorPaths auths f).any (GatePath.opens proofs elapsed) = f.holds auths proofs elapsed := by
  match f with
  | .auth id _ =>
      have hfind : (auths.any fun a => decide (a.id = id)) =
          (auths.find? fun a => decide (a.id = id)).isSome := by
        rw [Bool.eq_iff_iff, List.any_eq_true, List.find?_isSome]
      rw [factorPaths, Factor.holds, hfind]
      cases auths.find? fun a => decide (a.id = id) with
      | none => rfl
      | some a => simp [GatePath.opens, Gates.proved]
  | .humans _ =>
      rw [factorPaths, Factor.holds, List.any_map, List.any_filter]
      congr 1
      funext a
      simp [GatePath.opens, Gates.proved]
  | .group expr _ => exact any_opens expr
  | .wait duration _ => simp [factorPaths, Factor.holds, GatePath.opens, Gates.proved]

theorem factors_open (fs : List Factor) :
    total Prod.fst ((factorsPaths auths fs).filter fun f =>
      f.2.any (GatePath.opens proofs elapsed)) = heldWeight auths proofs elapsed fs := by
  match fs with
  | [] => rfl
  | f :: fs =>
      rw [factorsPaths, heldWeight, List.filter_cons, factor_opens f]
      split
      · rw [total_cons, factors_open fs]
      · rw [factors_open fs, Nat.zero_add]

/-- **A gate opens** exactly where it holds. -/
theorem any_opens (g : GateExpr) :
    (satisfyingPaths auths g).any (GatePath.opens proofs elapsed) =
      g.holds auths proofs elapsed := by
  match g with
  | .single f => exact factor_opens f
  | .thresh n factors =>
      rw [satisfyingPaths, GateExpr.holds, Bool.eq_iff_iff, threshold_opens, factors_open factors,
        decide_eq_true_iff]

end

theorem holds_iff {g : GateExpr} : g.holds auths proofs elapsed = true ↔
    ∃ p ∈ satisfyingPaths auths g, (∀ id ∈ p.auths, id ∈ proofs) ∧
      (p.wait.getD ⟨0⟩).seconds ≤ elapsed.seconds := by
  rw [← any_opens, List.any_eq_true]
  simp only [opens_iff]

/-- A gate stays open. -/
theorem holds_mono {g : GateExpr} {more : List String} {later : Duration}
    (hp : proofs ⊆ more) (he : elapsed.seconds ≤ later.seconds)
    (h : g.holds auths proofs elapsed = true) : g.holds auths more later = true := by
  obtain ⟨p, hm, ha, hw⟩ := holds_iff.mp h
  exact holds_iff.mpr ⟨p, hm, fun id hid => hp (ha id hid), hw.trans he⟩

/-- The engine's answer on a gate is whether it holds. -/
theorem gateSatisfiedBy_eq (g : GateExpr) :
    gateSatisfiedBy auths g proofs elapsed = g.holds auths proofs elapsed := by
  refine Eq.trans (congrArg (List.any _) (funext fun p => ?_)) (any_opens g)
  rw [GatePath.opens]
  cases p.wait with
  | none => simp [Gates.proved]
  | some w => rfl

/-- What the machine says of a gate that fits. -/
theorem satisfied_of_fits {g : GateExpr} (hf : g.fits) :
    Gates.satisfied auths g proofs elapsed = some (g.holds auths proofs elapsed) := by
  rw [Gates.satisfied_unbounded hf, gateSatisfiedBy_eq]

end

/-! ## What every path has -/

/-- What the shortest paths have, and merging keeps. -/
structure PathRule (auths : List Authenticator) (R : GatePath → Prop) : Prop where
  empty : R ⟨[], [], none⟩
  auth : ∀ a ∈ auths, R ⟨[a.id], if a.human then [a.id] else [], none⟩
  wait : ∀ d, R ⟨[], [], some d⟩
  merge : ∀ p q, R p → R q → R (p.merge q)

namespace PathRule

variable {auths : List Authenticator} {R : GatePath → Prop}

theorem threshold (h : PathRule auths R) {n : Nat} {xs : List (Nat × List GatePath)}
    (hxs : ∀ f ∈ xs, ∀ p ∈ f.2, R p) : ∀ p ∈ thresholdPaths n xs, R p := by
  intro p hp
  obtain ⟨s, hs, -, ps, hps, rfl⟩ := mem_thresholdPaths.mp hp
  have hall : ∀ f ∈ s, ∀ p ∈ f.2, R p := fun f hf => hxs f (hs.subset hf)
  clear hs hp
  induction hps with
  | nil => exact h.empty
  | @cons f q s ps hq _ ih =>
      obtain ⟨hf, hrest⟩ := List.forall_mem_cons.mp hall
      exact h.merge q _ (hf q hq) (ih hrest)

mutual

theorem factor (h : PathRule auths R) (f : Factor) : ∀ p ∈ factorPaths auths f, R p := by
  match f with
  | .auth id _ =>
      intro p hp
      rw [factorPaths] at hp
      split at hp
      next a ha =>
        have hid : a.id = id := by simpa using List.find?_some ha
        rw [List.mem_singleton.mp hp, ← hid]
        exact h.auth a (List.mem_of_find?_eq_some ha)
      · cases hp
  | .humans _ =>
      intro p hp
      obtain ⟨a, ha, rfl⟩ := List.mem_map.mp hp
      obtain ⟨hin, hh⟩ := List.mem_filter.mp ha
      have := h.auth a hin
      rwa [if_pos hh] at this
  | .group expr _ => exact h.path expr
  | .wait _ _ =>
      intro p hp
      rw [List.mem_singleton.mp hp]
      exact h.wait _

theorem factors (h : PathRule auths R) (fs : List Factor) :
    ∀ f ∈ factorsPaths auths fs, ∀ p ∈ f.2, R p := by
  match fs with
  | [] => exact List.forall_mem_nil _
  | f :: fs => exact List.forall_mem_cons.mpr ⟨h.factor f, h.factors fs⟩

/-- **The rule for paths**: every path of a gate has what the rule gives. -/
theorem path (h : PathRule auths R) (g : GateExpr) : ∀ p ∈ satisfyingPaths auths g, R p := by
  match g with
  | .single f => exact h.factor f
  | .thresh n factors => exact h.threshold (h.factors factors)

end

end PathRule

/-! ## The humans of a path -/

theorem nodup_nub {α : Type} [DecidableEq α] (xs : List α) : (nub xs).Nodup := by
  have go : ∀ (xs out : List α), out.Nodup →
      (xs.foldl (fun out x => if x ∈ out then out else out ++ [x]) out).Nodup := by
    intro xs
    induction xs with
    | nil => exact fun _ h => h
    | cons x xs ih =>
        intro out h
        rw [List.foldl_cons]
        split
        · exact ih out h
        next hx =>
          have hc := h.concat hx
          rw [List.concat_eq_append] at hc
          exact ih _ hc
  exact go xs [] List.nodup_nil

/-- The names of the humans that are published. -/
def humanIds (auths : List Authenticator) : List String :=
  (auths.filter Authenticator.human).map Authenticator.id

/-- How many of the proofs are of humans. -/
def humanProofs (auths : List Authenticator) (proofs : List String) : Nat :=
  ((humanIds auths).filter fun id => proofs.contains id).length

/-- A path names each human once, and those of its authenticators that are
humans. -/
structure GatePath.Sound (auths : List Authenticator) (p : GatePath) : Prop where
  nodup : p.humans.Nodup
  mem : ∀ id, id ∈ p.humans ↔ id ∈ p.auths ∧ id ∈ humanIds auths

section

variable {auths : List Authenticator}

/-- With names told apart, an authenticator is a human as its name is. -/
theorem human_iff (hd : (auths.map Authenticator.id).Nodup) {a : Authenticator}
    (ha : a ∈ auths) : a.human = true ↔ a.id ∈ humanIds auths := by
  rw [humanIds, List.mem_map]
  constructor
  · intro h
    exact ⟨a, List.mem_filter.mpr ⟨ha, h⟩, rfl⟩
  · rintro ⟨b, hb, he⟩
    obtain ⟨hb, hh⟩ := List.mem_filter.mp hb
    rwa [List.inj_on_of_nodup_map hd hb ha he] at hh

theorem sound_rule (hd : (auths.map Authenticator.id).Nodup) :
    PathRule auths (GatePath.Sound auths) where
  empty := ⟨List.nodup_nil, by simp⟩
  wait := fun _ => ⟨List.nodup_nil, by simp⟩
  auth := by
    intro a ha
    have hh := human_iff hd ha
    cases hb : a.human with
    | false =>
        have hn : a.id ∉ humanIds auths := fun h => Bool.false_ne_true (hb.symm.trans (hh.mpr h))
        refine ⟨List.nodup_nil, fun id => iff_of_false List.not_mem_nil ?_⟩
        rintro ⟨hid, hin⟩
        exact hn (List.mem_singleton.mp hid ▸ hin)
    | true =>
        refine ⟨List.nodup_singleton _, fun id => ⟨fun hid => ⟨hid, ?_⟩, fun h => h.1⟩⟩
        rw [List.mem_singleton.mp hid]
        exact hh.mp hb
  merge := by
    intro p q hp hq
    refine ⟨nodup_nub _, fun id => ?_⟩
    simp only [GatePath.merge, mem_nub, List.mem_append, hp.mem, hq.mem]
    tauto

theorem nodup_humanIds (hd : (auths.map Authenticator.id).Nodup) : (humanIds auths).Nodup :=
  hd.sublist (List.filter_sublist.map _)

/-- The proofs a path asks for are of as many humans as it names. -/
theorem GatePath.Sound.length {p : GatePath} (hd : (auths.map Authenticator.id).Nodup)
    (hp : p.Sound auths) : humanProofs auths p.auths = p.humans.length := by
  refine List.Perm.length_eq ((List.perm_ext_iff_of_nodup ?_ hp.nodup).mpr ?_)
  · exact (nodup_humanIds hd).filter _
  · intro id
    rw [List.mem_filter, hp.mem, List.contains_iff_mem, and_comm]

/-- And no proofs that open it are of fewer. -/
theorem GatePath.Sound.le {p : GatePath} {proofs : List String} (hp : p.Sound auths)
    (h : ∀ id ∈ p.auths, id ∈ proofs) : p.humans.length ≤ humanProofs auths proofs := by
  refine (hp.nodup.subperm ?_).length_le
  intro id hid
  obtain ⟨ha, hh⟩ := (hp.mem id).mp hid
  exact List.mem_filter.mpr ⟨hh, List.contains_iff_mem.mpr (h id ha)⟩

/-- **The readings of a gate are exact**: whether it is satisfied, which stays
so; the first instant from which it is; the fewest humans that satisfy it. -/
theorem gate_exact (auths : List Authenticator) (g : GateExpr)
    (hd : (auths.map Authenticator.id).Nodup) (hn : g.narrow) :
    (∀ proofs elapsed,
      Gates.satisfied auths g proofs elapsed = some (g.holds auths proofs elapsed)) ∧
    (∀ proofs more elapsed later, proofs ⊆ more → elapsed.seconds ≤ later.seconds →
      Gates.satisfied auths g proofs elapsed = some true →
      Gates.satisfied auths g more later = some true) ∧
    (∀ proofs, ∃ at_, Gates.satisfiableAt auths g proofs = some at_ ∧
      LeastOf Duration.seconds (fun t => Gates.satisfied auths g proofs t = some true) at_) ∧
    ∃ r, Gates.report auths g = some r ∧
      LeastOf id (fun k => ∃ proofs elapsed, Gates.satisfied auths g proofs elapsed = some true ∧
        humanProofs auths proofs = k) r.minDistinctHumans := by
  have hf := GateExpr.fits_of_narrow hn
  have hs : ∀ proofs elapsed, Gates.satisfied auths g proofs elapsed = some true ↔
      g.holds auths proofs elapsed = true := by
    intro proofs elapsed
    rw [satisfied_of_fits hf, Option.some_inj]
  refine ⟨fun _ _ => satisfied_of_fits hf, ?_, ?_, ?_⟩
  · intro proofs more elapsed later hp he h
    exact (hs more later).mpr (holds_mono hp he ((hs proofs elapsed).mp h))
  · intro proofs
    refine ⟨_, by rw [Gates.satisfiableAt, Gates.satisfyingPaths_of_fits hf, Option.map_some], ?_⟩
    refine (LeastOf.congr fun t => ?_).mpr (earliest_least _)
    rw [hs, holds_iff]
    constructor
    · rintro ⟨p, hp, ha, hw⟩
      refine ⟨_, List.mem_map_of_mem (List.mem_filter.mpr ⟨hp, ?_⟩), hw⟩
      exact List.all_eq_true.mpr fun id hid => List.contains_iff_mem.mpr (ha id hid)
    · rintro ⟨d, hd, hw⟩
      obtain ⟨p, hp, rfl⟩ := List.mem_map.mp hd
      obtain ⟨hp, ha⟩ := List.mem_filter.mp hp
      exact ⟨p, hp, fun id hid => List.contains_iff_mem.mp (List.all_eq_true.mp ha id hid), hw⟩
  · refine ⟨_, by rw [Gates.report, Gates.satisfyingPaths_of_fits hf, Option.map_some], ?_⟩
    refine min?_least ?_ ?_
    · intro k hk
      obtain ⟨p, hp, rfl⟩ := List.mem_map.mp hk
      refine ⟨p.auths, p.wait.getD ⟨0⟩, ?_, ((sound_rule hd).path g p hp).length hd⟩
      exact (hs _ _).mpr (holds_iff.mpr ⟨p, hp, fun _ h => h, Nat.le_refl _⟩)
    · rintro k ⟨proofs, elapsed, ho, rfl⟩
      obtain ⟨p, hp, ha, -⟩ := holds_iff.mp ((hs proofs elapsed).mp ho)
      exact ⟨p.humans.length, List.mem_map_of_mem hp, ((sound_rule hd).path g p hp).le ha⟩

/-! ## Waiting alone -/

/-- A way to open a gate without a human: whether it takes the proof of an
authenticator that is none, and the longest wait it takes. -/
structure Way where
  proof : Bool
  wait : Option Duration
  deriving DecidableEq, Repr

def Way.join (v w : Way) : Way := ⟨v.proof || w.proof, mergeWait v.wait w.wait⟩

/-- The ways of a choice of factors: one of each. -/
def Joined (s : List (Nat × (Way → Prop))) (v : Way) : Prop :=
  ∃ vs, List.Forall₂ (fun f v => f.2 v) s vs ∧ v = vs.foldr Way.join ⟨false, none⟩

section

variable (auths : List Authenticator)

mutual

def Factor.ways : Factor → Way → Prop
  | .auth id _, v => (∃ a, auths.find? (fun a => a.id = id) = some a ∧ a.human = false) ∧
      v = ⟨true, none⟩
  | .humans _, _ => False
  | .group expr _, v => expr.ways v
  | .wait duration _, v => v = ⟨false, some duration⟩

def factorsWays : List Factor → List (Nat × (Way → Prop))
  | [] => []
  | f :: fs => (f.weight, f.ways) :: factorsWays fs

/-- The ways to open a gate without a human, by a tight choice at every
threshold. -/
def GateExpr.ways : GateExpr → Way → Prop
  | .single f, v => f.ways v
  | .thresh n factors, v =>
      ∃ s, s.Sublist (factorsWays factors) ∧ Tight Prod.fst n s ∧ Joined s v

end

end

/-- What a path without humans takes. -/
def GatePath.way (p : GatePath) : Way := ⟨!p.auths.isEmpty, p.wait⟩

/-- The ways among some paths. -/
def waysOf (ps : List GatePath) (v : Way) : Prop := ∃ p ∈ ps, p.humans = [] ∧ v = p.way

theorem nub_eq_nil {α : Type} [DecidableEq α] {xs : List α} : nub xs = [] ↔ xs = [] := by
  rw [List.eq_nil_iff_forall_not_mem, List.eq_nil_iff_forall_not_mem]
  simp only [mem_nub]

theorem way_merge (p q : GatePath) : (p.merge q).way = p.way.join q.way := by
  have h : (nub (p.auths ++ q.auths)).isEmpty = (p.auths.isEmpty && q.auths.isEmpty) := by
    rw [Bool.eq_iff_iff, Bool.and_eq_true, List.isEmpty_iff, List.isEmpty_iff, List.isEmpty_iff,
      nub_eq_nil, List.append_eq_nil_iff]
  rw [GatePath.way, GatePath.merge, h, Bool.not_and]
  rfl

theorem merge_humans (p q : GatePath) :
    (p.merge q).humans = [] ↔ p.humans = [] ∧ q.humans = [] := by
  rw [GatePath.merge, nub_eq_nil, List.append_eq_nil_iff]

/-- The ways of a choice are those of its merged paths. -/
theorem joined_iff {s : List (Nat × List GatePath)} {v : Way} :
    (∃ p, Merged s p ∧ p.humans = [] ∧ v = p.way) ↔
      Joined (s.map fun f => (f.1, waysOf f.2)) v := by
  constructor
  · rintro ⟨_, ⟨ps, hps, rfl⟩, hh, rfl⟩
    induction hps with
    | nil => exact ⟨[], .nil, rfl⟩
    | @cons f q s ps hq _ ih =>
        rw [List.foldr_cons] at hh ⊢
        obtain ⟨hqh, hrest⟩ := (merge_humans _ _).mp hh
        obtain ⟨vs, hvs, hv⟩ := ih hrest
        refine ⟨q.way :: vs, .cons ⟨q, hq, hqh, rfl⟩ hvs, ?_⟩
        rw [way_merge, hv, List.foldr_cons]
  · rintro ⟨vs, hvs, rfl⟩
    induction s generalizing vs with
    | nil =>
        cases hvs
        exact ⟨_, ⟨[], .nil, rfl⟩, rfl, rfl⟩
    | cons f s ih =>
        cases hvs with
        | @cons _ v _ vs hv hvs =>
          obtain ⟨q, hq, hqh, rfl⟩ := hv
          obtain ⟨_, ⟨ps, hps, rfl⟩, hh, hw⟩ := ih vs hvs
          refine ⟨_, ⟨q :: ps, .cons hq hps, rfl⟩, (merge_humans _ _).mpr ⟨hqh, hh⟩, ?_⟩
          rw [List.foldr_cons, List.foldr_cons, way_merge, hw]

theorem threshold_ways {n : Nat} {xs : List (Nat × List GatePath)} {v : Way} :
    waysOf (thresholdPaths n xs) v ↔ ∃ s, s.Sublist (xs.map fun f => (f.1, waysOf f.2)) ∧
      Tight Prod.fst n s ∧ Joined s v := by
  have hfst : ∀ s : List (Nat × List GatePath),
      (s.map fun f => (f.1, waysOf f.2)).map Prod.fst = s.map Prod.fst := by
    intro s
    rw [List.map_map]
    rfl
  constructor
  · rintro ⟨p, hp, hh, hv⟩
    obtain ⟨s, hs, ht, hm⟩ := mem_thresholdPaths.mp hp
    refine ⟨_, hs.map _, ?_, joined_iff.mp ⟨p, hm, hh, hv⟩⟩
    rwa [← tight_map, hfst, tight_map]
  · rintro ⟨_, hs, ht, hj⟩
    obtain ⟨s, hsub, rfl⟩ := List.sublist_map_iff.mp hs
    obtain ⟨p, hm, hh, hv⟩ := joined_iff.mpr hj
    rw [← tight_map, hfst, tight_map] at ht
    exact ⟨p, mem_thresholdPaths.mpr ⟨s, hsub, ht, hm⟩, hh, hv⟩

mutual

theorem factor_ways (f : Factor) : waysOf (factorPaths auths f) = f.ways auths := by
  match f with
  | .auth id _ =>
      funext v
      rw [Factor.ways, factorPaths]
      cases hf : auths.find? fun a => decide (a.id = id) with
      | none => simp [waysOf]
      | some a => cases ha : a.human <;> simp [waysOf, GatePath.way, ha]
  | .humans _ =>
      funext v
      simp [waysOf, factorPaths, Factor.ways]
  | .group expr _ => exact ways_eq expr
  | .wait duration _ =>
      funext v
      simp [waysOf, factorPaths, Factor.ways, GatePath.way]

theorem factors_ways (fs : List Factor) :
    (factorsPaths auths fs).map (fun f => (f.1, waysOf f.2)) = factorsWays auths fs := by
  match fs with
  | [] => rfl
  | f :: fs => rw [factorsPaths, List.map_cons, factorsWays, factor_ways f, factors_ways fs]

/-- The ways of a gate are those among its paths. -/
theorem ways_eq (g : GateExpr) : waysOf (satisfyingPaths auths g) = g.ways auths := by
  match g with
  | .single f => exact factor_ways f
  | .thresh n factors =>
      funext v
      rw [satisfyingPaths, GateExpr.ways, ← factors_ways factors, threshold_ways]

end

/-- A path without authenticators is without humans. -/
theorem humans_rule : PathRule auths fun p => p.auths = [] → p.humans = [] where
  empty := fun _ => rfl
  wait := fun _ _ => rfl
  auth := by
    intro a _ h
    cases h
  merge := by
    intro p q hp hq h
    rw [GatePath.merge, nub_eq_nil, List.append_eq_nil_iff] at h
    exact (merge_humans p q).mpr ⟨hp h.1, hq h.2⟩

/-- With no proof a gate holds from the shortest wait of a way that takes none. -/
theorem holds_nil_iff {g : GateExpr} {t : Duration} : g.holds auths [] t = true ↔
    ∃ w, g.ways auths ⟨false, w⟩ ∧ (w.getD ⟨0⟩).seconds ≤ t.seconds := by
  rw [holds_iff, ← ways_eq]
  constructor
  · rintro ⟨p, hp, ha, hw⟩
    have hnil : p.auths = [] :=
      List.eq_nil_iff_forall_not_mem.mpr fun id hid => List.not_mem_nil (ha id hid)
    refine ⟨p.wait, ⟨p, hp, humans_rule.path g p hp hnil, ?_⟩, hw⟩
    rw [GatePath.way, hnil]
    rfl
  · rintro ⟨w, ⟨p, hp, -, hv⟩, hw⟩
    obtain ⟨ha, rfl⟩ := Way.mk.inj hv
    have hnil : p.auths = [] := by simpa using ha.symm
    refine ⟨p, hp, fun id hid => ?_, hw⟩
    rw [hnil] at hid
    cases hid

/-- No way without a human that takes a wait needs a proof as well, unless a way
without any proof is as quick; and a gate that opens at once has a way that takes
a wait of no time. -/
def GateExpr.alone (auths : List Authenticator) (g : GateExpr) : Prop :=
  (∀ proof d, g.ways auths ⟨proof, some d⟩ →
    ∃ w, g.ways auths ⟨false, w⟩ ∧ (w.getD ⟨0⟩).seconds ≤ d.seconds) ∧
  (g.ways auths ⟨false, none⟩ → ∃ proof d, g.ways auths ⟨proof, some d⟩ ∧ d.seconds = 0)

theorem alone_iff {g : GateExpr} : g.alone auths ↔ ∀ t : Duration, g.holds auths [] t = true ↔
    ∃ proof d, g.ways auths ⟨proof, some d⟩ ∧ d.seconds ≤ t.seconds := by
  constructor
  · rintro ⟨hproof, honce⟩ t
    rw [holds_nil_iff]
    constructor
    · rintro ⟨w, hw, hwt⟩
      cases w with
      | some d => exact ⟨false, d, hw, hwt⟩
      | none =>
          obtain ⟨proof, d, hd, h0⟩ := honce hw
          exact ⟨proof, d, hd, by omega⟩
    · rintro ⟨proof, d, hd, hdt⟩
      obtain ⟨w, hw, hwd⟩ := hproof proof d hd
      exact ⟨w, hw, hwd.trans hdt⟩
  · intro h
    constructor
    · intro proof d hd
      exact holds_nil_iff.mp ((h d).mpr ⟨proof, d, hd, Nat.le_refl _⟩)
    · intro hn
      obtain ⟨proof, d, hd, h0⟩ := (h ⟨0⟩).mp (holds_nil_iff.mpr ⟨none, hn, Nat.le_refl _⟩)
      exact ⟨proof, d, hd, Nat.le_zero.mp h0⟩

/-- The waits of the paths without a human. -/
theorem mem_waits {g : GateExpr} {d : Duration} :
    d ∈ ((satisfyingPaths auths g).filter fun p => p.humans.isEmpty).filterMap GatePath.wait ↔
      ∃ proof, g.ways auths ⟨proof, some d⟩ := by
  rw [← ways_eq, List.mem_filterMap]
  constructor
  · rintro ⟨p, hp, hw⟩
    obtain ⟨hp, hh⟩ := List.mem_filter.mp hp
    refine ⟨!p.auths.isEmpty, p, hp, List.isEmpty_iff.mp hh, ?_⟩
    rw [GatePath.way, hw]
  · rintro ⟨proof, p, hp, hh, hv⟩
    exact ⟨p, List.mem_filter.mpr ⟨hp, List.isEmpty_iff.mpr hh⟩, (Way.mk.inj hv).2.symm⟩

/-- What is told by a report: the machine returns the threshold's value, and
says from when the gate is satisfied with no proof. -/
def Told (auths : List Authenticator) (g : GateExpr) : Prop :=
  (∀ proofs elapsed,
    Gates.satisfied auths g proofs elapsed = some (g.holds auths proofs elapsed)) ∧
  ∃ r, Gates.report auths g = some r ∧
    LeastOf Duration.seconds (fun t => Gates.satisfied auths g [] t = some true) r.waitAloneAt

/-- **Where the gate is counted, and what opens by waiting alone**: the machine
returns the threshold's value, and its report the first instant at which the gate
is satisfied with no proof. -/
theorem gate_alone_iff (auths : List Authenticator) (g : GateExpr) :
    Told auths g ↔ g.fits ∧ g.alone auths := by
  have alone : g.fits → ((∃ r, Gates.report auths g = some r ∧
      LeastOf Duration.seconds (fun t => Gates.satisfied auths g [] t = some true)
        r.waitAloneAt) ↔ g.alone auths) := by
    intro hf
    have hup : ∀ t u : Duration, t.seconds ≤ u.seconds → g.holds auths [] t = true →
        g.holds auths [] u = true := fun t u h => holds_mono (List.Subset.refl _) h
    have hs : (fun t => Gates.satisfied auths g [] t = some true) =
        fun t => g.holds auths [] t = true := by
      funext t
      rw [satisfied_of_fits hf, Option.some_inj]
    rw [hs, alone_iff, Gates.report, Gates.satisfyingPaths_of_fits hf, Option.map_some]
    simp only [Option.some_inj, exists_eq_left', earliest_least_iff hup, mem_waits]
    refine forall_congr' fun t => iff_congr Iff.rfl ?_
    constructor
    · rintro ⟨d, ⟨proof, hd⟩, hdt⟩
      exact ⟨proof, d, hd, hdt⟩
    · rintro ⟨proof, d, hd, hdt⟩
      exact ⟨d, ⟨proof, hd⟩, hdt⟩
  constructor
  · rintro ⟨hs, hr⟩
    have hf : g.fits := by
      refine (@Gates.satisfyingPaths_isSome auths g).mp ?_
      have h := hs [] ⟨0⟩
      rw [Gates.satisfied] at h
      obtain ⟨ps, hps, -⟩ := Option.map_eq_some_iff.mp h
      rw [hps]
      rfl
    exact ⟨hf, (alone hf).mp hr⟩
  · rintro ⟨hf, ha⟩
    exact ⟨fun _ _ => satisfied_of_fits hf, (alone hf).mpr ha⟩

end

/-! ## An operator and a robot -/

namespace Robot

def auths : List Authenticator := [⟨"ana", true⟩, ⟨"robot", false⟩]

/-- Ana, or five seconds. -/
def patient : GateExpr := .thresh 1 [.auth "ana" 1, .wait ⟨5⟩ 1]

/-- The robot, and five seconds. -/
def attended : GateExpr := .thresh 2 [.auth "robot" 1, .wait ⟨5⟩ 1]

theorem patient_exact :
    (auths.map Authenticator.id).Nodup ∧ patient.narrow ∧
      Gates.satisfied auths patient ["ana"] ⟨0⟩ = some true := by
  have hd : (auths.map Authenticator.id).Nodup := by decide
  have hn : patient.narrow := ⟨by decide, by decide, trivial, trivial, trivial⟩
  exact ⟨hd, hn, (gate_exact auths patient hd hn).1 ["ana"] ⟨0⟩⟩

/-- The report says that the gate opens after five seconds; it does not without
the robot's proof. -/
theorem attended_not_told : ¬ Told auths attended := by
  rintro ⟨-, r, hr, hleast⟩
  have hw : r.waitAloneAt = some ⟨5⟩ := by
    rw [← Option.some.inj hr]
    decide
  rw [hw] at hleast
  have hopen : Gates.satisfied auths attended [] ⟨5⟩ = some true := hleast.1
  revert hopen
  decide

end Robot

end Rescind
