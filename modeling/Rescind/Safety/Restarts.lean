/-
# `Rescind.Safety.Restarts` — an artifact that is cut short

The artifact keeps no log of what it has done within a section.  It can be run again
after a kill all the same where every action of it overwrites, with nothing or with
what was put by: what an action sets does not depend on what was there, and a section
that is behind has taken its marker along.

    killed any number of times, then run                 (`resumed`)

An append, an edit of a region and a command are no such actions.
-/
import Rescind.Safety.Firings

namespace Rescind.Render

open Lib Lib.Cmd

/-! ## Actions that overwrite -/

/-- The action overwrites its file or takes it away. -/
def Action.restores : Action → Bool
  | .remove _ | .restoreSnapshot _ _ | .write _ _ => true
  | _ => false

/-- What an action that overwrites sets, by the snapshots. -/
def Action.sets (m : Machine) (c : Context) (n : Nat) (f : Tree) : Action → List (String × Option (List Char))
  | .remove p => if m.writable p then [(p, none)] else []
  | .restoreSnapshot p k =>
      match f (c.snapshot n k) with
      | some t => if m.writable (tmpOf p) && m.writable p then [(p, some t)] else []
      | none => []
  | .write p content => if m.writable p then [(p, some content.toList)] else []
  | _ => []

/-- What others may do to the paths of `Z` is nothing to the artifact: they are neither
read nor undone.  The temporary names and the report of what was clobbered are among
them. -/
structure Spares (c : Context) (Z : Set String) : Prop where
  temporary : ∀ s ∈ c.steps, ∀ a ∈ s.actions, ∀ p, a.path = some p → tmpOf p ∈ Z
  report : c.file "clobbered" ∈ Z
  paths : ∀ s ∈ c.steps, ∀ a ∈ s.actions, ∀ p, a.path = some p → p ∉ Z
  plain : ∀ s ∈ c.steps, ∀ p ∈ s.plain, p ∉ Z
  own : ∀ p, Inside c p → p ≠ c.file "clobbered" → p ∉ Z

/-- Every action overwrites, and no step is held for its drift. -/
structure Restoring (c : Context) : Prop where
  actions : ∀ s ∈ c.steps, ∀ a ∈ s.actions, a.restores = true
  policy : ∀ s ∈ c.steps, s.drift = .clobber ∨ s.plain = []

section
variable {m : Machine} {c : Context} {l : Lock} {s : Step} {a : Action} {n : Nat} {Z : Set String} {f g : Tree}

theorem into_after {p : String} {old out : Tree → List Char} (hw : m.writable p = true) :
    (into m p old out).after f = Function.update f p (some (old f ++ out f)) := by
  show (if m.writable p then _ else _ : Bool × Tree).2 = _
  rw [if_pos hw]

theorem into_after_unwritable {p : String} {old out : Tree → List Char} (hw : m.writable p = false) :
    (into m p old out).after f = f := by
  show (if m.writable p then _ else _ : Bool × Tree).2 = _
  rw [hw, if_neg Bool.false_ne_true]

theorem rm_after_unwritable {p : String} (hw : m.writable p = false) : (rm m p).after f = f := by
  show (if m.writable p then _ else _ : Bool × Tree).2 = _
  rw [hw, if_neg Bool.false_ne_true]

theorem mv_after {p q : String} {t : List Char} (hp : f p = some t) (hw : (m.writable p && m.writable q) = true) :
    (mv m p q).after f = Function.update (Function.update f p none) q (some t) := by
  show (match f p with | some t => _ | none => _ : Bool × Tree).2 = _
  rw [hp]
  simp only [if_pos hw]

theorem mv_after_unwritable {p q : String} (hw : (m.writable p && m.writable q) = false) :
    (mv m p q).after f = f := by
  show (match f p with | some t => _ | none => _ : Bool × Tree).2 = _
  cases f p with
  | none => rfl
  | some t => simp only [hw, if_neg Bool.false_ne_true]

/-- What a killed `restore` has touched is the temporary file, unless it had ended. -/
theorem restore_cut {snapshot p : String} (h : (restore m snapshot p).Cut f g) :
    Only {tmpOf p} f g ∨ g = (restore m snapshot p).after f := by
  have hcp : (cp m snapshot (tmpOf p)).Within (Only {tmpOf p}) := Within.test.andThen (into_only rfl)
  rw [restore, andThen, after_cond]
  rcases h with h | h
  · exact Or.inl (hcp.cut h)
  · split at h
    next hok =>
      rw [if_pos hok]
      rcases h with rfl | h | rfl
      · exact Or.inl (hcp.after f)
      · exact h.elim
      · exact Or.inr rfl
    next hok =>
      rw [if_neg hok]
      exact Or.inr h

/-- A restore sets its file from the snapshot, and leaves at most a temporary file. -/
theorem restore_after {p : String} {k : Nat} (ht : tmpOf p ∈ Z) :
    Only Z (assign ((Action.restoreSnapshot p k).sets m c n f) f) ((restore m (c.snapshot n k) p).after f) := by
  rw [restore, andThen, after_cond, cp, andThen, status_cond, after_cond, status_test, after_test, Action.sets]
  cases hs : f (c.snapshot n k) with
  | none => exact refl_of (Only Z) f
  | some t =>
      rw [Option.isSome_some, if_pos rfl, if_pos rfl]
      cases hw : m.writable (tmpOf p) with
      | false =>
          have hst : (overwrite m (tmpOf p) fun f => (f (c.snapshot n k)).getD []).status f = false := by
            show (if m.writable (tmpOf p) then _ else _ : Bool × Tree).1 = _
            rw [hw, if_neg Bool.false_ne_true]
          rw [hst, overwrite, into_after_unwritable hw]
          exact refl_of (Only Z) f
      | true =>
          have hst : (overwrite m (tmpOf p) fun f => (f (c.snapshot n k)).getD []).status f = true := by
            show (if m.writable (tmpOf p) then _ else _ : Bool × Tree).1 = _
            rw [hw, if_pos rfl]
          rw [hst, if_pos rfl, overwrite, into_after hw, hs, List.nil_append, Option.getD_some]
          cases hp : m.writable p with
          | false =>
              rw [mv_after_unwritable (by rw [hw, hp]; rfl)]
              exact Only.update ht
          | true =>
              rw [mv_after (Function.update_self ..) (by rw [hw, hp]; rfl)]
              show Only Z (Function.update f p (some t)) _
              intro q hq
              have hne : q ≠ tmpOf p := fun h => hq (h ▸ ht)
              by_cases hqp : q = p
              · rw [hqp, Function.update_self, Function.update_self]
              · rw [Function.update_of_ne hqp, Function.update_of_ne hne, Function.update_of_ne hne,
                  Function.update_of_ne hqp]

/-- An action that overwrites does what it sets. -/
theorem Action.after_sets (hr : a.restores = true) (ht : ∀ p, a.path = some p → tmpOf p ∈ Z) :
    Only Z (assign (a.sets m c n f) f) ((a.cmd m c l s.drift n).after f) := by
  cases a with
  | remove p =>
      show Only Z (assign (if m.writable p then [(p, none)] else []) f) ((rm m p).after f)
      cases hw : m.writable p with
      | true =>
          rw [rm_after hw]
          exact refl_of (Only Z) _
      | false =>
          rw [rm_after_unwritable hw]
          exact refl_of (Only Z) _
  | restoreSnapshot p k => exact restore_after (ht p rfl)
  | write p content =>
      show Only Z (assign (if m.writable p then [(p, some content.toList)] else []) f)
        ((overwrite m p fun _ => content.toList).after f)
      cases hw : m.writable p with
      | true =>
          rw [overwrite, into_after hw]
          exact refl_of (Only Z) _
      | false =>
          rw [overwrite, into_after_unwritable hw]
          exact refl_of (Only Z) _
  | stripRegion p anchor k => cases hr
  | run command => cases hr
  | append p line => cases hr
  | regionSet p anchor content => cases hr
  | regionClear p anchor => cases hr

/-- And where it is killed it has touched no more. -/
theorem Action.cut_sets (hr : a.restores = true) (ht : ∀ p, a.path = some p → tmpOf p ∈ Z)
    (h : (a.cmd m c l s.drift n).Cut f g) : Only (Z ∪ keys (a.sets m c n f)) f g := by
  have hwhole : Only (Z ∪ keys (a.sets m c n f)) f ((a.cmd m c l s.drift n).after f) :=
    trans_of (Only _) ((only_assign _).mono Set.subset_union_right)
      ((Action.after_sets hr ht).mono Set.subset_union_left)
  cases a with
  | remove p =>
      rcases h with rfl | h | rfl
      · exact refl_of (Only _) _
      · exact h.elim
      · exact hwhole
  | restoreSnapshot p k =>
      rcases restore_cut h with h | rfl
      · refine h.mono fun q hq => Or.inl ?_
        have hq : q = tmpOf p := hq
        exact hq ▸ ht p rfl
      · exact hwhole
  | write p content =>
      rcases h with rfl | ⟨hw, w, -, rfl⟩ | rfl
      · exact refl_of (Only _) _
      · refine Only.update (Or.inr ⟨some content.toList, ?_⟩)
        show _ ∈ (if m.writable p then [(p, some content.toList)] else [])
        rw [if_pos hw]
        exact List.mem_cons_self
      · exact hwhole
  | stripRegion p anchor k => cases hr
  | run command => cases hr
  | append p line => cases hr
  | regionSet p anchor content => cases hr
  | regionClear p anchor => cases hr

theorem keys_sets {p : String} (h : p ∈ keys (a.sets m c n f)) : a.path = some p := by
  obtain ⟨v, hv⟩ := h
  cases a with
  | remove q =>
      simp only [Action.sets] at hv
      split at hv
      next => cases List.mem_singleton.mp hv; rfl
      next => cases hv
  | restoreSnapshot q k =>
      simp only [Action.sets] at hv
      split at hv
      next =>
        split at hv
        next => cases List.mem_singleton.mp hv; rfl
        next => cases hv
      next => cases hv
  | write q content =>
      simp only [Action.sets] at hv
      split at hv
      next => cases List.mem_singleton.mp hv; rfl
      next => cases hv
  | stripRegion q anchor k => cases hv
  | run command => cases hv
  | append q line => cases hv
  | regionSet q anchor content => cases hv
  | regionClear q anchor => cases hv

theorem sets_eq (h : ∀ k, g (c.snapshot n k) = f (c.snapshot n k)) : a.sets m c n g = a.sets m c n f := by
  cases a with
  | restoreSnapshot p k => simp only [Action.sets, h k]
  | _ => rfl

/-- What the actions set, each by the snapshots. -/
def touched (m : Machine) (c : Context) (n : Nat) (as : List Action) (f : Tree) : Set String :=
  { p | ∃ a ∈ as, p ∈ keys (a.sets m c n f) }

theorem snapshot_ne_clobbered {k : Nat} : c.snapshot n k ≠ c.file "clobbered" := by
  rw [Context.snapshot, Ne, file_inj]
  intro h
  have := congrArg (fun s : String => s.toList.head?) h
  simp at this

theorem touched_eq {as : List Action} (h : ∀ k, g (c.snapshot n k) = f (c.snapshot n k)) :
    touched m c n as g = touched m c n as f := by
  unfold touched
  simp only [sets_eq h]

variable (hh : Housed m c) (hz : Spares c Z) (hr : Restoring c)

include hh hz

/-- Snapshots are nobody's to change. -/
theorem snapshot_kept (hs : s ∈ c.steps) {as : List Action} (has : ∀ a ∈ as, a ∈ s.actions)
    (h : Only (Z ∪ touched m c s.n as f) f g) (k : Nat) : g (c.snapshot s.n k) = f (c.snapshot s.n k) := by
  refine h _ ?_
  rintro (hZ | ⟨a, ha, hk⟩)
  · exact hz.own _ inside_file snapshot_ne_clobbered hZ
  · exact (hh.paths s hs a (has a ha) _ (keys_sets hk)).1 inside_file

include hr

/-- Actions begun and made again from the first. -/
theorem actions_again (hs : s ∈ c.steps) {as : List Action} (has : ∀ a ∈ as, a ∈ s.actions)
    (h : Only (Z ∪ touched m c s.n as f) f g) :
    Only Z ((block (as.map (Action.cmd m c l s.drift s.n))).after f)
      ((block (as.map (Action.cmd m c l s.drift s.n))).after g) := by
  induction as generalizing f g with
  | nil => exact h.mono fun p hp => hp.elim id fun ⟨a, ha, _⟩ => (List.not_mem_nil ha).elim
  | cons a as ih =>
      have has' : ∀ b ∈ as, b ∈ s.actions := fun b hb => has b (List.mem_cons_of_mem _ hb)
      have ha := has a List.mem_cons_self
      have hafter : ∀ f, Only Z (assign (a.sets m c s.n f) f) ((a.cmd m c l s.drift s.n).after f) := fun f =>
        Action.after_sets (hr.actions s hs a ha) (hz.temporary s hs a ha)
      have hsets : a.sets m c s.n g = a.sets m c s.n f := sets_eq (snapshot_kept hh hz hs has h)
      have hmid : Only (Z ∪ touched m c s.n as f) (assign (a.sets m c s.n f) f) (assign (a.sets m c s.n f) g) := by
        refine assign_only (h.mono fun p hp => ?_)
        rcases hp with hp | ⟨b, hb, hk⟩
        · exact Or.inl (Or.inl hp)
        · rcases List.mem_cons.mp hb with rfl | hb
          · exact Or.inr hk
          · exact Or.inl (Or.inr ⟨b, hb, hk⟩)
      have hstep : Only (Z ∪ touched m c s.n as f) ((a.cmd m c l s.drift s.n).after f)
          ((a.cmd m c l s.drift s.n).after g) :=
        trans_of (Only _) ((hafter f).symm.mono Set.subset_union_left)
          (trans_of (Only _) hmid ((hsets ▸ hafter g).mono Set.subset_union_left))
      have hf : Only (Z ∪ touched m c s.n [a] f) f ((a.cmd m c l s.drift s.n).after f) := by
        refine (Action.cut_sets (hr.actions s hs a ha) (hz.temporary s hs a ha) (Cut.whole _ f)).mono ?_
        exact fun p hp => hp.imp id fun hp => ⟨a, List.mem_cons_self, hp⟩
      have hkept := snapshot_kept hh hz hs (fun b hb => List.mem_singleton.mp hb ▸ ha) hf
      exact ih has' (touched_eq hkept ▸ hstep)

/-- A kill among the actions leaves what they do not set. -/
theorem actions_cut (hs : s ∈ c.steps) {as : List Action} (has : ∀ a ∈ as, a ∈ s.actions)
    (h : (block (as.map (Action.cmd m c l s.drift s.n))).Cut f g) : Only (Z ∪ touched m c s.n as f) f g := by
  induction as generalizing f with
  | nil =>
      cases h
      exact refl_of (Only _) _
  | cons a as ih =>
      have ha := has a List.mem_cons_self
      have hhead : ∀ {f g}, (a.cmd m c l s.drift s.n).Cut f g →
          Only (Z ∪ touched m c s.n [a] f) f g := fun h =>
        (Action.cut_sets (hr.actions s hs a ha) (hz.temporary s hs a ha) h).mono
          fun p hp => hp.imp id fun hp => ⟨a, List.mem_cons_self, hp⟩
      have hsub : Z ∪ touched m c s.n [a] f ⊆ Z ∪ touched m c s.n (a :: as) f := by
        rintro p (hp | ⟨b, hb, hk⟩)
        · exact Or.inl hp
        · exact Or.inr ⟨b, List.mem_cons.mpr (Or.inl (List.mem_singleton.mp hb)), hk⟩
      rcases h with h | h
      · exact (hhead h).mono hsub
      · have hwhole := hhead (Cut.whole (a.cmd m c l s.drift s.n) f)
        have hkept := snapshot_kept hh hz hs (fun b hb => List.mem_singleton.mp hb ▸ ha) hwhole
        have hrest := ih (fun b hb => has b (List.mem_cons_of_mem _ hb)) h
        rw [touched_eq hkept] at hrest
        refine trans_of (Only _) (hwhole.mono hsub) (hrest.mono ?_)
        rintro p (hp | ⟨b, hb, hk⟩)
        · exact Or.inl hp
        · exact Or.inr ⟨b, List.mem_cons_of_mem _ hb, hk⟩

/-! ## Sections -/

omit hh hr in
theorem marker_spared (n : Nat) : c.marker n ∉ Z := hz.own _ inside_marker marker_ne_clobbered

omit hh hr in
theorem reports_spared : (s.reports m c).Within (Only Z) := reports_within hz.report

/-- The undo of a step, made again. -/
theorem undo_again (hs : s ∈ c.steps) (h : Only (Z ∪ touched m c s.n s.actions f) f g) :
    Only Z ((s.undo m c l).after f) ((s.undo m c l).after g) := by
  have hacts := actions_again (l := l) hh hz hr hs (fun _ ha => ha) h
  have hw := hh.writable _ (inside_marker (c := c) (n := s.n))
  rw [Step.undo, after_seq, after_seq, rm_after hw, rm_after hw]
  exact Only.assigned (hacts.mono Set.subset_union_left)

/-- Under the policies of an artifact that restores, a marked section is the undo. -/
theorem marked_after (hs : s ∈ c.steps) (hf : (f (c.marker s.n)).isSome = true) :
    Only Z ((s.undo m c l).after f) ((s.cmd m c l).after f) := by
  rw [Step.after_cmd hf]
  cases hd : s.drift with
  | clobber =>
      rw [Step.marked_clobber hd, after_seq]
      exact undo_again hh hz hr hs (((reports_spared hz).after f).mono Set.subset_union_left)
  | defer =>
      have hp : s.plain = [] := (hr.policy s hs).resolve_left fun h => by cases hd.symm.trans h
      have hany : s.plain.any (changedAt m c s.n f) = false := by rw [hp]; rfl
      rw [Step.marked_defer hd, after_cond, status_test, hany, if_neg Bool.false_ne_true, after_test]
      exact refl_of (Only Z) _

theorem section_alike (hs : s ∈ c.steps) (h : Only Z f g) :
    Only Z ((s.cmd m c l).after f) ((s.cmd m c l).after g) := by
  have hm : g (c.marker s.n) = f (c.marker s.n) := h _ (marker_spared hz s.n)
  cases hf : f (c.marker s.n) with
  | none => rwa [Step.after_cmd_none hf, Step.after_cmd_none (hm.trans hf)]
  | some t =>
      have hsome : (f (c.marker s.n)).isSome = true := by rw [hf]; rfl
      exact trans_of (Only Z) (marked_after hh hz hr hs hsome).symm
        (trans_of (Only Z) (undo_again hh hz hr hs (h.mono Set.subset_union_left))
          (marked_after hh hz hr hs (hm ▸ hsome)))

/-- A killed undo is behind, or it has touched what it will set again. -/
theorem undo_cut (hs : s ∈ c.steps) (h : (s.undo m c l).Cut f g) :
    Only (Z ∪ touched m c s.n s.actions f) f g ∨ g = (s.undo m c l).after f := by
  rcases h with h | rfl | h | rfl
  · exact Or.inl (actions_cut hh hz hr hs (fun _ ha => ha) h)
  · exact Or.inl (actions_cut hh hz hr hs (fun _ ha => ha) (Cut.whole _ f))
  · exact h.elim
  · exact Or.inr rfl

/-- So is a killed section. -/
theorem section_cut (hs : s ∈ c.steps) (h : (s.cmd m c l).Cut f g) :
    Only (Z ∪ touched m c s.n s.actions f) f g ∨ g = (s.cmd m c l).after f := by
  rw [Step.cmd, cut_test_cond] at h
  rcases h with rfl | h
  · exact Or.inl (refl_of (Only _) _)
  · split at h
    next hf =>
      rw [Step.after_cmd hf]
      cases hd : s.drift with
      | clobber =>
          have hrep : Only Z f ((s.reports m c).after f) := (reports_spared hz).after f
          rw [Step.marked_clobber hd] at h ⊢
          rcases h with h | h
          · exact Or.inl (((reports_spared hz).cut h).mono Set.subset_union_left)
          · rcases undo_cut hh hz hr hs h with h | rfl
            · have hkept := snapshot_kept hh hz hs (fun _ ha => ha) (hrep.mono Set.subset_union_left)
              rw [touched_eq hkept] at h
              exact Or.inl (trans_of (Only _) (hrep.mono Set.subset_union_left) h)
            · exact Or.inr rfl
      | defer =>
          have hp : s.plain = [] := (hr.policy s hs).resolve_left fun h => by cases hd.symm.trans h
          have hany : s.plain.any (changedAt m c s.n f) = false := by rw [hp]; rfl
          rw [Step.marked_defer hd, cut_test_cond, hany, if_neg Bool.false_ne_true] at h
          rw [Step.marked_defer hd, after_cond, status_test, hany, if_neg Bool.false_ne_true, after_test]
          rcases h with rfl | h
          · exact Or.inl (refl_of (Only _) _)
          · exact undo_cut hh hz hr hs h
    next =>
      cases h
      exact Or.inl (refl_of (Only _) _)

theorem cmd_gone (f : Tree) (hs : s ∈ c.steps) : (s.cmd m c l).after f (c.marker s.n) = none := by
  cases hf : f (c.marker s.n) with
  | none => rwa [Step.after_cmd_none hf]
  | some t =>
      have hsome : (f (c.marker s.n)).isSome = true := by rw [hf]; rfl
      rw [marked_after hh hz hr hs hsome _ (marker_spared hz s.n)]
      exact Step.undo_gone hh f

omit hr in
theorem marker_kept (hs : s ∈ c.steps) (h : Only (Z ∪ touched m c s.n s.actions f) f g) :
    g (c.marker s.n) = f (c.marker s.n) := by
  refine h _ ?_
  rintro (hZ | ⟨a, ha, hk⟩)
  · exact marker_spared hz s.n hZ
  · exact (hh.paths s hs a ha _ (keys_sets hk)).1 inside_marker

/-- A section that was killed is made again. -/
theorem section_resumes (hs : s ∈ c.steps) : (s.cmd m c l).Resumes (Only Z) := by
  intro f g h
  cases hf : f (c.marker s.n) with
  | none =>
      rw [Step.cmd, cut_test_cond, hf] at h
      rcases h with rfl | h
      · exact refl_of (Only Z) _
      · cases h
        exact refl_of (Only Z) _
  | some t =>
      have hsome : (f (c.marker s.n)).isSome = true := by rw [hf]; rfl
      rcases section_cut hh hz hr hs h with hcut | rfl
      · have hm := marker_kept hh hz hs hcut
        refine Only.symm ?_
        exact trans_of (Only Z) (marked_after hh hz hr hs hsome).symm
          (trans_of (Only Z) (undo_again hh hz hr hs hcut) (marked_after hh hz hr hs (hm ▸ hsome)))
      · rw [Step.after_cmd_none (cmd_gone hh hz hr f hs)]
        exact refl_of (Only Z) _

/-! ## The artifact -/

theorem sections_respect : (block (c.steps.map (Step.cmd m c l))).Respects (Only Z) :=
  Respects.block fun p hp => by
    obtain ⟨s, hs, rfl⟩ := List.mem_map.mp hp
    exact fun _ _ h => section_alike hh hz hr hs h

theorem sections_resume : (block (c.steps.map (Step.cmd m c l))).Resumes (Only Z) :=
  Resumes.block (e := fun s f => f (c.marker s.n) = none)
    (fun _ hs _ _ h => section_alike hh hz hr hs h) (fun _ hs => section_resumes hh hz hr hs)
    (fun _ hs f => cmd_gone hh hz hr f hs)
    (fun x _ y hy => (Step.cmd_fades (n := x.n) hh hy).mono fun _ _ h hx => h.elim (fun h => h.trans hx) id)
    fun x _ f hx => by
      rw [Step.after_cmd_none hx]
      exact refl_of (Only Z) f

/-- Behind the sections every marker is gone. -/
theorem all_gone (hs : s ∈ c.steps) (f : Tree) :
    (block (c.steps.map (Step.cmd m c l))).after f (c.marker s.n) = none := by
  obtain ⟨pre, post, he, -, hpost⟩ := steps_split hh hs
  have hlater := (sections_fades (l := l) (n := s.n) hh fun t ht => (hpost t ht).1).after
    ((s.cmd m c l).after ((block (pre.map (Step.cmd m c l))).after f))
  rw [he, List.map_append, List.map_cons, after_block_append, after_block_cons]
  exact hlater.elim (fun h => h.trans (cmd_gone hh hz hr _ hs)) id

omit hh hz hr in
theorem sections_idle {ss : List Step} (h : ∀ s ∈ ss, f (c.marker s.n) = none) :
    (block (ss.map (Step.cmd m c l))).after f = f := by
  induction ss with
  | nil => rfl
  | cons s ss ih =>
      rw [List.map_cons, after_block_cons, Step.after_cmd_none (h s List.mem_cons_self)]
      exact ih fun t ht => h t (List.mem_cons_of_mem _ ht)

omit hz hr in
theorem fired_after : (overwrite m (c.file "fired") fun _ => []).after f =
    Function.update f (c.file "fired") (some []) := into_after (hh.writable _ inside_file)

omit hz hr in
theorem fired_cut (h : (overwrite m (c.file "fired") fun _ => []).Cut f g) :
    g = f ∨ g = Function.update f (c.file "fired") (some []) := by
  rcases h with h | ⟨-, w, hw, rfl⟩ | rfl
  · exact Or.inl h
  · rw [List.prefix_nil.mp hw]
    exact Or.inr rfl
  · exact Or.inr (fired_after hh)

/-- The mark of having fired comes last, behind the sections. -/
theorem whole_resumes : (sections m c l).Resumes (Only Z) := by
  refine (sections_resume hh hz hr).seq (fun f g h => ?_) (fun f g h => ?_) fun f g h => ?_
  · rw [fired_after hh, fired_after hh]
    rcases fired_cut hh h with rfl | rfl
    · exact refl_of (Only Z) _
    · rw [Function.update_idem]
      exact refl_of (Only Z) _
  · rw [fired_after hh, fired_after hh]
    exact Only.assigned (h.mono Set.subset_union_left)
  · rw [sections_idle fun s hs => ?_]
    · exact refl_of (Only Z) g
    · have hgone := all_gone (l := l) hh hz hr hs f
      rcases fired_cut hh h with rfl | rfl
      · exact hgone
      · rwa [Function.update_of_ne marker_ne_fired]

theorem whole_respects : (sections m c l).Respects (Only Z) := by
  refine (sections_respect hh hz hr).seq fun f g h => ?_
  rw [fired_after hh, fired_after hh]
  exact Only.assigned (h.mono Set.subset_union_left)

end

/-- Where actions only overwrite, the lock makes no difference. -/
theorem sections_lock {m : Machine} {c : Context} (hr : Restoring c) (l l' : Lock) :
    sections m c l = sections m c l' := by
  have hcmd : ∀ s ∈ c.steps, s.cmd m c l = s.cmd m c l' := by
    intro s hs
    have hacts : s.actions.map (Action.cmd m c l s.drift s.n) =
        s.actions.map (Action.cmd m c l' s.drift s.n) := List.map_congr_left fun a ha => by
      have hra := hr.actions s hs a ha
      cases a with
      | stripRegion p anchor k => cases hra
      | _ => rfl
    unfold Step.cmd Step.marked Step.undo
    rw [hacts]
  unfold sections
  rw [List.map_congr_left hcmd]

/-- A file of the instance directory that is no report and no marker. -/
theorem sections_own {m : Machine} {c : Context} {l : Lock} (hh : Housed m c) {name : String}
    (hd : name ≠ "drift") (hc : name ≠ "clobbered") (hm : ∀ n, c.marker n ≠ c.file name) :
    (block (c.steps.map (Step.cmd m c l))).Within (Only {c.file name}ᶜ) :=
  Within.block fun p hp => by
    obtain ⟨s, hs, rfl⟩ := List.mem_map.mp hp
    refine (Step.cmd_only hh hs).mono fun f g h => h.mono fun q hq => ?_
    rintro rfl
    rcases hq with (hq | hq | hq) | hq
    · exact hq inside_file
    · exact hd (file_inj.mp hq)
    · exact hc (file_inj.mp hq)
    · exact hm s.n (Eq.symm hq)

/-- What the triggers read. -/
structure SameBounds (c : Context) (f g : Tree) : Prop where
  deadline : g (c.file "deadline") = f (c.file "deadline")
  heartbeat : g (c.file "heartbeat") = f (c.file "heartbeat")

theorem SameBounds.due {m : Machine} {c : Context} {now : Nat} {f g : Tree} (h : SameBounds c f g) :
    due m c now g = due m c now f := by
  unfold Render.due
  rw [h.deadline, h.heartbeat]

theorem SameBounds.trans {c : Context} {f g k : Tree} (h : SameBounds c f g) (h' : SameBounds c g k) :
    SameBounds c f k := ⟨h'.deadline.trans h.deadline, h'.heartbeat.trans h.heartbeat⟩

theorem SameBounds.cut {m : Machine} {c : Context} {l : Lock} (hh : Housed m c) {f g : Tree}
    (h : (sections m c l).Cut f g) : SameBounds c f g := by
  have hkept : ∀ name, name ≠ "drift" → name ≠ "clobbered" → name ≠ "fired" →
      (∀ n, c.marker n ≠ c.file name) → g (c.file name) = f (c.file name) := by
    intro name hd hc hf hm
    have hall : (sections m c l).Within (Only {c.file name}ᶜ) :=
      ⟨sections_own hh hd hc hm, into_only fun h => hf (file_inj.mp (Eq.symm h))⟩
    exact hall.cut h _ fun h => h rfl
  exact ⟨hkept "deadline" (by decide) (by decide) (by decide) fun _ => marker_ne_file (by simp),
    hkept "heartbeat" (by decide) (by decide) (by decide) fun _ => marker_ne_file (by simp)⟩

theorem SameBounds.others {c : Context} {Z : Set String} (hz : Spares c Z) {f g : Tree} (h : Only Z f g) :
    SameBounds c f g :=
  ⟨h _ (hz.own _ inside_file (by rw [Ne, file_inj]; decide)),
    h _ (hz.own _ inside_file (by rw [Ne, file_inj]; decide))⟩

/-- What a history of killed runs comes to: a run from where it ends is a run from where
it began, and one that has fired is behind. -/
structure Midway (m : Machine) (c : Context) (l : Lock) (Z : Set String) (f g : Tree) : Prop where
  bounds : SameBounds c f g
  again : Only Z ((sections m c l).after f) ((sections m c l).after g)
  behind : g (c.file "fired") ≠ none → Only Z ((sections m c l).after g) g

theorem Midway.cut {m : Machine} {c : Context} {l : Lock} {Z : Set String} {f g k : Tree} {now : Nat}
    {l' : Lock} (hh : Housed m c) (hz : Spares c Z) (hr : Restoring c) (h : Midway m c l Z f g)
    (hk : (firing m c now l').Cut g k) : Midway m c l Z f k := by
  rcases firing_cut hk with rfl | ⟨hf, -, -, hcut⟩
  · exact h
  · rw [sections_lock hr l' l] at hcut
    refine ⟨h.bounds.trans (.cut hh hcut), ?_, fun hfired => ?_⟩
    · exact trans_of (Only Z) h.again (whole_resumes hh hz hr g k hcut).symm
    · have hown : (block (c.steps.map (Step.cmd m c l))).Within (Only {c.file "fired"}ᶜ) :=
        sections_own hh (by decide) (by decide) fun _ => marker_ne_fired
      rcases hcut with hcut | hcut
      · exact absurd ((hown.cut hcut _ fun h => h rfl).trans hf) hfired
      · have hgone : ∀ s ∈ c.steps, k (c.marker s.n) = none := by
          intro s hs
          have := all_gone (l := l) hh hz hr hs g
          rcases fired_cut hh hcut with rfl | rfl
          · exact this
          · rwa [Function.update_of_ne marker_ne_fired]
        rcases fired_cut hh hcut with rfl | he
        · exact absurd ((hown.after g _ fun h => h rfl).trans hf) hfired
        · rw [sections, after_seq, sections_idle hgone, fired_after hh, he, Function.update_idem]
          exact refl_of (Only Z) _

theorem Midway.others {m : Machine} {c : Context} {l : Lock} {Z : Set String} {f g k : Tree}
    (hh : Housed m c) (hz : Spares c Z) (hr : Restoring c) (h : Midway m c l Z f g) (hk : Only Z g k) :
    Midway m c l Z f k where
  bounds := h.bounds.trans (.others hz hk)
  again := trans_of (Only Z) h.again (whole_respects hh hz hr g k hk)
  behind hfired := by
    have hkept : k (c.file "fired") = g (c.file "fired") :=
      hk _ (hz.own _ inside_file (by rw [Ne, file_inj]; decide))
    exact trans_of (Only Z) (whole_respects hh hz hr k g hk.symm)
      (trans_of (Only Z) (h.behind (hkept ▸ hfired)) hk)

/-- An artifact whose actions overwrite and none of whose steps is held for its drift may
be killed any number of times, at whatever times it is run.  A run that is due and has
the lock then leaves what it would have left had there been no run before it, off the
paths the artifact neither reads nor undoes, at which others may have done what they
liked. -/
theorem resumed {m : Machine} {c : Context} {l : Lock} {Z : Set String} {f g : Tree} {now : Nat}
    (hh : Housed m c) (hz : Spares c Z) (hr : Restoring c) (hf : f (c.file "fired") = none)
    (hdue : due m c now f = true) (hl : l ≠ .late)
    (h : Relation.ReflTransGen (fun f g => (∃ now l, (firing m c now l).Cut f g) ∨ Only Z f g) f g) :
    Only Z ((firing m c now l).after f) ((firing m c now l).after g) := by
  have hmid : Midway m c l Z f g := by
    induction h with
    | refl => exact ⟨⟨rfl, rfl⟩, refl_of (Only Z) _, fun h => absurd hf h⟩
    | tail _ hstep ih =>
        rcases hstep with ⟨now, l', hcut⟩ | hother
        · exact ih.cut hh hz hr hcut
        · exact ih.others hh hz hr hother
  rw [firing_after hf hdue hl]
  cases hfired : g (c.file "fired") with
  | none =>
      rw [firing_after hfired (hmid.bounds.due.trans hdue) hl]
      exact hmid.again
  | some t =>
      have hidle : (firing m c now l).after g = g := by
        rw [firing, after_cond, status_test, hfired]
        rfl
      rw [hidle]
      exact trans_of (Only Z) hmid.again (hmid.behind (by rw [hfired]; exact Option.some_ne_none t))

namespace OneFile

theorem spares : Spares (context .clobber) {p | p = "/etc/f.rescind-tmp" ∨ p = "/r/instances/i/clobbered"} where
  temporary s hs a ha p hp := by
    rw [List.mem_singleton.mp hs] at ha
    rw [List.mem_singleton.mp ha] at hp
    cases hp
    exact Or.inl (by decide)
  report := Or.inr (by decide)
  paths s hs a ha p hp := by
    rw [List.mem_singleton.mp hs] at ha
    rw [List.mem_singleton.mp ha] at hp
    cases hp
    rintro (h | h) <;> revert h <;> decide
  plain s hs p hp := by
    rw [List.mem_singleton.mp hs] at hp
    rw [List.mem_singleton.mp hp]
    rintro (h | h) <;> revert h <;> decide
  own p hp hne := by
    rintro (rfl | rfl)
    · revert hp
      unfold Inside
      decide
    · exact hne (by decide)

theorem restoring : Restoring (context .clobber) where
  actions s hs a ha := by
    rw [List.mem_singleton.mp hs] at ha
    rw [List.mem_singleton.mp ha]
    rfl
  policy s hs := Or.inl (List.mem_singleton.mp hs ▸ rfl)

/-- Killed while the snapshot was being copied. -/
def halfCopied : Tree := Function.update (files "new") "/etc/f.rescind-tmp" (some "ol".toList)

theorem killed_copying : (firing machine (context .clobber) 9 .held).Cut (files "new") halfCopied := by
  rw [firing, cut_test_cond, if_neg (by decide +kernel), cut_test_cond, if_pos (by decide +kernel)]
  refine Or.inr (Or.inr (Or.inl (Or.inl ?_)))
  rw [Step.cmd, cut_test_cond, if_pos (by decide +kernel), Step.marked_clobber rfl]
  have hrep : ((step .clobber).reports machine (context .clobber)).after (files "new") = files "new" := by
    show (Cmd.cond _ _ _).after _ = _
    rw [after_cond, if_pos (by decide +kernel)]
    rfl
  refine Or.inr (Or.inr (Or.inl (Or.inl (Or.inl ?_))))
  rw [hrep]
  refine Or.inr ?_
  rw [if_pos (by decide +kernel)]
  exact Or.inr (Or.inl ⟨rfl, "ol".toList, by decide +kernel, rfl⟩)

theorem resumed_copying : Only {p | p = "/etc/f.rescind-tmp" ∨ p = "/r/instances/i/clobbered"}
    ((firing machine (context .clobber) 9 .held).after (files "new"))
    ((firing machine (context .clobber) 9 .held).after halfCopied) :=
  resumed (housed .clobber) spares restoring (by decide +kernel) (by decide +kernel) (by decide)
    (.single (Or.inl ⟨9, .held, killed_copying⟩))

end OneFile

end Rescind.Render
