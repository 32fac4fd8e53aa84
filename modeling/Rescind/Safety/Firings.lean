/-
# `Rescind.Safety.Firings` — the marker that is gone and the one that stays

A scheduler runs the artifact again and again, and any of its runs may be killed.  What
the engine reads afterwards are the markers: one that is gone stands for an undone
step, one that is there for a step still to be undone.

    a marker goes only behind the whole of its section, and once     (`marker_went`, `undone_once`)
    what an ended run leaves is named in its report                   (`left_reported`)
    a step held for its drift is left to itself by every run          (`left_alone`)

No action and no command names a file of the instance directory, and it can be written
(`Housed`).  What else a command does, and how far it gets before a kill, is the
machine's.
-/
import Mathlib.Data.List.Nodup
import Rescind.Lib.Stores
import Rescind.Render.Firing
import Rescind.Safety.Manifests

namespace Rescind.Render

open Lib Lib.Cmd

/-! ## The instance directory -/

/-- A path within the instance directory. -/
def Inside (c : Context) (p : String) : Prop := (c.dir ++ "/").toList <+: p.toList

section
variable {c : Context} {a b : String} {n k : Nat}

theorem inside_file : Inside c (c.file a) := by
  refine ⟨a.toList, ?_⟩
  simp [Context.file, List.append_assoc]

theorem file_inj : c.file a = c.file b ↔ a = b := by
  simp [Context.file, ← String.toList_inj]

theorem inside_marker : Inside c (c.marker n) := inside_file

theorem toString_nat_inj {n k : Nat} (h : toString n = toString k) : n = k := by
  have hd : Nat.toDigits 10 n = Nat.toDigits 10 k := by
    simpa [toString, Nat.repr] using congrArg String.toList h
  rw [← Nat.ofDigitChars_ten_toDigits (n := n), hd, Nat.ofDigitChars_ten_toDigits]

theorem marker_inj : c.marker n = c.marker k ↔ n = k := by
  rw [Context.marker, Context.marker, file_inj, String.append_right_inj]
  exact ⟨toString_nat_inj, fun h => h ▸ rfl⟩

/-- A marker is none of the files whose name starts otherwise. -/
theorem marker_ne_file (h : ("markers/" ++ toString n).toList.head? ≠ a.toList.head?) :
    c.marker n ≠ c.file a := by
  intro he
  rw [Context.marker, file_inj] at he
  exact h (congrArg (fun s : String => s.toList.head?) he)

theorem clobbered_ne_drift : c.file "clobbered" ≠ c.file "drift" := by
  rw [Ne, file_inj]
  decide

@[simp] theorem marker_ne_drift : c.marker n ≠ c.file "drift" := marker_ne_file (by simp)

@[simp] theorem marker_ne_clobbered : c.marker n ≠ c.file "clobbered" := marker_ne_file (by simp)

@[simp] theorem marker_ne_fired : c.marker n ≠ c.file "fired" := marker_ne_file (by simp)

end

/-! ## What a command leaves alone -/

section
variable {X : Set String} {m : Machine} {c : Context} {p q : String} {n : Nat}

theorem into_only {old out : Tree → List Char} (hp : p ∈ X) : (into m p old out).Within (Only X) := by
  intro f
  refine ⟨?_, ?_⟩
  · dsimp only
    split
    · exact Only.update hp
    · exact refl_of (Only X) f
  · rintro g ⟨-, w, -, rfl⟩
    exact Only.update hp

theorem rm_only (hp : p ∈ X) : (rm m p).Within (Only X) := by
  intro f
  refine ⟨?_, fun g hg => hg.elim⟩
  dsimp only
  split
  · exact Only.update hp
  · exact refl_of (Only X) f

theorem mv_only (hp : p ∈ X) (hq : q ∈ X) : (mv m p q).Within (Only X) := by
  intro f
  refine ⟨?_, fun g hg => hg.elim⟩
  dsimp only
  split
  · split
    · exact trans_of (Only X) (Only.update hp) (Only.update hq)
    · exact refl_of (Only X) f
  · exact refl_of (Only X) f

theorem replace_only {out : Tree → List Char} (hp : p ∈ X) (ht : tmpOf p ∈ X) :
    (replace m p out).Within (Only X) := (into_only ht).andThen (mv_only ht hp)

theorem stripRegionOf_only {anchor : String} (hp : p ∈ X) (ht : tmpOf p ∈ X) :
    (stripRegionOf m p anchor).Within (Only X) := Within.test.andThen (replace_only hp ht)

theorem regionSetOf_only {anchor : String} {content : List Char} (hp : p ∈ X) (ht : tmpOf p ∈ X) :
    (regionSetOf m p anchor content).Within (Only X) :=
  ⟨stripRegionOf_only hp ht, replace_only hp ht⟩

theorem restore_only {snapshot : String} (hp : p ∈ X) (ht : tmpOf p ∈ X) :
    (restore m snapshot p).Within (Only X) := (Within.test.andThen (into_only ht)).andThen (mv_only ht hp)

theorem damaged_only {l : Lock} {drift : Drift} {k : Nat} (hd : c.file "drift" ∈ X)
    (hc : c.file "clobbered" ∈ X) (hp : p ∈ X) (ht : tmpOf p ∈ X) :
    (damaged m c l drift n k p).Within (Only X) := by
  cases drift with
  | clobber => exact ⟨Within.test, into_only hd, restore_only hp ht, into_only hc⟩
  | defer => exact into_only hd

end

/-- The file an action is about. -/
def Action.path : Action → Option String
  | .remove p | .stripRegion p _ _ | .restoreSnapshot p _ | .write p _ | .append p _ | .regionSet p _ _
  | .regionClear p _ => some p
  | .run _ => none

/-- Everything but the instance directory, and the reports in it. -/
def Outer (c : Context) : Set String :=
  { p | ¬Inside c p ∨ p = c.file "drift" ∨ p = c.file "clobbered" }

/-- The instance directory is the artifact's own: no action names a file of it, no
command touches one, and it can be written. -/
structure Housed (m : Machine) (c : Context) : Prop where
  paths : ∀ s ∈ c.steps, ∀ a ∈ s.actions, ∀ p, a.path = some p → ¬Inside c p ∧ ¬Inside c (tmpOf p)
  commands : ∀ cmd f p, Inside c p → m.command cmd f p = f p
  killed : ∀ cmd f g p, m.halfway cmd f g → Inside c p → g p = f p
  writable : ∀ p, Inside c p → m.writable p = true
  distinct : (c.steps.map Step.n).Nodup

section
variable {m : Machine} {c : Context} {l : Lock} {s x : Step} {n : Nat}

theorem Action.only (hh : Housed m c) (hs : s ∈ c.steps) {a : Action} (ha : a ∈ s.actions) :
    (a.cmd m c l s.drift s.n).Within (Only (Outer c)) := by
  have hout : ∀ p, a.path = some p → p ∈ Outer c ∧ tmpOf p ∈ Outer c := fun p hp =>
    ⟨Or.inl (hh.paths s hs a ha p hp).1, Or.inl (hh.paths s hs a ha p hp).2⟩
  have hd : c.file "drift" ∈ Outer c := Or.inr (Or.inl rfl)
  have hc : c.file "clobbered" ∈ Outer c := Or.inr (Or.inr rfl)
  cases a with
  | remove p => exact rm_only (hout p rfl).1
  | stripRegion p anchor k =>
      obtain ⟨hp, ht⟩ := hout p rfl
      exact (stripRegionOf_only hp ht).orElse (damaged_only hd hc hp ht)
  | restoreSnapshot p k => exact restore_only (hout p rfl).1 (hout p rfl).2
  | run command =>
      have hin : ∀ p, p ∉ Outer c → Inside c p := fun p hp => by
        by_contra h
        exact hp (Or.inl h)
      exact fun f => ⟨fun p hp => hh.commands command f p (hin p hp),
        fun g hg p hp => hh.killed command f g p hg (hin p hp)⟩
  | write p content => exact into_only (hout p rfl).1
  | append p line => exact into_only (hout p rfl).1
  | regionSet p anchor content => exact regionSetOf_only (hout p rfl).1 (hout p rfl).2
  | regionClear p anchor => exact (stripRegionOf_only (hout p rfl).1 (hout p rfl).2).orElse trivial

theorem actions_only (hh : Housed m c) (hs : s ∈ c.steps) :
    (block (s.actions.map (Action.cmd m c l s.drift s.n))).Within (Only (Outer c)) :=
  Within.block fun p hp => by
    obtain ⟨a, ha, rfl⟩ := List.mem_map.mp hp
    exact Action.only hh hs ha

/-- A marker is no part of what the actions touch. -/
theorem marker_not_outer : c.marker n ∉ Outer c := by
  rintro (h | h | h)
  · exact h inside_file
  · exact marker_ne_drift h
  · exact marker_ne_clobbered h

/-! ## Sections -/

/-- A marker may go; it neither changes nor comes back. -/
def Fades (c : Context) (n : Nat) (f g : Tree) : Prop := g (c.marker n) = f (c.marker n) ∨ g (c.marker n) = none

instance : Std.Refl (Fades c n) := ⟨fun _ => Or.inl rfl⟩

instance : IsTrans Tree (Fades c n) :=
  ⟨fun _ _ _ h h' => h'.elim (fun e => h.imp e.trans e.trans) Or.inr⟩

theorem fades_of {X : Set String} (hX : c.marker n ∉ X) {f g : Tree} (h : Only X f g) : Fades c n f g :=
  Or.inl (h _ hX)

theorem rm_fades {p : String} : (rm m p).Within (Fades c n) := by
  intro f
  refine ⟨?_, fun g hg => hg.elim⟩
  dsimp only
  split
  · by_cases hp : c.marker n = p
    · exact Or.inr (hp ▸ Function.update_self ..)
    · exact Or.inl (Function.update_of_ne hp ..)
  · exact refl_of (Fades c n) f

theorem actions_fades (hh : Housed m c) (hs : s ∈ c.steps) :
    (block (s.actions.map (Action.cmd m c l s.drift s.n))).Within (Fades c n) :=
  (actions_only hh hs).mono fun _ _ h => fades_of marker_not_outer h

theorem reports_within {X : Set String} (hX : c.file "clobbered" ∈ X) : (s.reports m c).Within (Only X) :=
  Within.block fun p hp => by
    obtain ⟨q, -, rfl⟩ := List.mem_map.mp hp
    exact Within.test.orElse (into_only hX)

theorem reports_only : (s.reports m c).Within (Only {c.file "clobbered"}) := reports_within rfl

theorem defer_only : (defer m c n).Within (Only {c.file "drift"}) := into_only rfl

theorem Step.marked_clobber (hd : s.drift = .clobber) :
    s.marked m c l = .seq (s.reports m c) (s.undo m c l) := by rw [Step.marked, hd]

theorem Step.marked_defer (hd : s.drift = .defer) : s.marked m c l =
    .cond (.test fun f => s.plain.any (changedAt m c s.n f)) (defer m c s.n) (s.undo m c l) := by
  rw [Step.marked, hd]

theorem Step.cmd_fades (hh : Housed m c) (hs : s ∈ c.steps) : (s.cmd m c l).Within (Fades c n) := by
  have hundo : (s.undo m c l).Within (Fades c n) := ⟨actions_fades hh hs, rm_fades⟩
  refine ⟨Within.test, ?_, trivial⟩
  unfold Step.marked
  cases s.drift with
  | clobber => exact ⟨reports_only.mono fun _ _ h => fades_of marker_ne_clobbered h, hundo⟩
  | defer => exact ⟨Within.test, defer_only.mono fun _ _ h => fades_of marker_ne_drift h, hundo⟩

/-- The section of a step ran to its end from `u`: its files were what the marker says,
or are undone all the same; its actions ran, one after the other; and the marker went. -/
structure Carried (m : Machine) (c : Context) (l : Lock) (x : Step) (u : Tree) : Prop where
  marked : (u (c.marker x.n)).isSome = true
  unchanged : x.drift = .defer → ∀ p ∈ x.plain, changedAt m c x.n u p = false
  ran : ∃ v, Only {c.file "clobbered"} u v ∧ (x.cmd m c l).after u = (x.undo m c l).after v
  gone : (x.cmd m c l).after u (c.marker x.n) = none

theorem rm_after {p : String} (hw : m.writable p = true) (f : Tree) :
    (rm m p).after f = Function.update f p none := by
  show (if m.writable p then _ else _ : Bool × Tree).2 = _
  rw [if_pos hw]

theorem Step.undo_gone (hh : Housed m c) (f : Tree) : (s.undo m c l).after f (c.marker s.n) = none := by
  rw [Step.undo, after_seq, rm_after (hh.writable _ inside_marker)]
  exact Function.update_self ..

/-- A killed undo has not touched the marker, or it had ended. -/
theorem Step.undo_cut (hh : Housed m c) (hs : s ∈ c.steps) {f g : Tree} (h : (s.undo m c l).Cut f g) :
    g (c.marker s.n) = f (c.marker s.n) ∨ g = (s.undo m c l).after f := by
  have hkept := actions_only (l := l) hh hs
  rcases h with h | rfl | h | rfl
  · exact Or.inl (hkept.cut h _ marker_not_outer)
  · exact Or.inl (hkept.after f _ marker_not_outer)
  · exact h.elim
  · exact Or.inr rfl

theorem Step.after_cmd {f : Tree} (hf : (f (c.marker s.n)).isSome = true) :
    (s.cmd m c l).after f = (s.marked m c l).after f := by
  rw [Step.cmd, after_cond, status_test, if_pos hf, after_test]

theorem Step.after_cmd_none {f : Tree} (hf : f (c.marker s.n) = none) : (s.cmd m c l).after f = f := by
  rw [Step.cmd, after_cond, status_test, hf]
  rfl

theorem Step.carried (hh : Housed m c) {f v : Tree} (hf : (f (c.marker s.n)).isSome = true)
    (hd : s.drift = .defer → ∀ p ∈ s.plain, changedAt m c s.n f p = false)
    (hv : Only {c.file "clobbered"} f v) (he : (s.marked m c l).after f = (s.undo m c l).after v) :
    Carried m c l s f where
  marked := hf
  unchanged := hd
  ran := ⟨v, hv, (Step.after_cmd hf).trans he⟩
  gone := by
    rw [Step.after_cmd hf, he]
    exact Step.undo_gone hh v

/-- What a whole section does. -/
theorem Step.cmd_after (hh : Housed m c) (f : Tree) :
    (f (c.marker s.n) = none ∧ (s.cmd m c l).after f = f) ∨
    ((f (c.marker s.n)).isSome = true ∧ s.drift = .defer ∧ (∃ p ∈ s.plain, changedAt m c s.n f p = true) ∧
      (s.cmd m c l).after f = (defer m c s.n).after f) ∨
    Carried m c l s f := by
  cases hf : f (c.marker s.n) with
  | none => exact Or.inl ⟨rfl, Step.after_cmd_none hf⟩
  | some t =>
      have hsome : (f (c.marker s.n)).isSome = true := by rw [hf]; rfl
      refine Or.inr ?_
      cases hd : s.drift with
      | clobber =>
          have hafter : (s.marked m c l).after f = (s.undo m c l).after ((s.reports m c).after f) := by
            rw [Step.marked_clobber hd, after_seq]
          exact Or.inr (Step.carried hh hsome (fun h => by cases hd.symm.trans h) (reports_only.after f) hafter)
      | defer =>
          have hafter : (s.marked m c l).after f =
              if s.plain.any (changedAt m c s.n f) then (defer m c s.n).after f else (s.undo m c l).after f := by
            rw [Step.marked_defer hd, after_cond, status_test, after_test]
          cases hp : s.plain.any (changedAt m c s.n f) with
          | true =>
              rw [hp, if_pos rfl] at hafter
              exact Or.inl ⟨rfl, rfl, List.any_eq_true.mp hp, (Step.after_cmd hsome).trans hafter⟩
          | false =>
              rw [hp, if_neg Bool.false_ne_true] at hafter
              exact Or.inr (Step.carried hh hsome (fun _ => by simpa using hp) (refl_of _ f) hafter)

/-- A killed section has not touched the marker, or it had ended. -/
theorem Step.cmd_cut (hh : Housed m c) (hs : s ∈ c.steps) {f g : Tree} (h : (s.cmd m c l).Cut f g) :
    g (c.marker s.n) = f (c.marker s.n) ∨ Carried m c l s f ∧ g = (s.cmd m c l).after f := by
  rw [Step.cmd, cut_test_cond] at h
  rcases h with rfl | h
  · exact Or.inl rfl
  · split at h
    next hf =>
      rw [Step.after_cmd hf]
      cases hd : s.drift with
      | clobber =>
          have hrep : Only {c.file "clobbered"} f ((s.reports m c).after f) := reports_only.after f
          rw [Step.marked_clobber hd] at h ⊢
          rcases h with h | h
          · exact Or.inl (reports_only.cut h _ marker_ne_clobbered)
          · rcases Step.undo_cut hh hs h with hm | rfl
            · exact Or.inl (hm.trans (hrep _ marker_ne_clobbered))
            · refine Or.inr ⟨Step.carried hh hf (fun h => by cases hd.symm.trans h) hrep ?_, rfl⟩
              rw [Step.marked_clobber hd, after_seq]
      | defer =>
          rw [Step.marked_defer hd, cut_test_cond] at h
          rcases h with rfl | h
          · exact Or.inl rfl
          · cases hp : s.plain.any (changedAt m c s.n f) with
            | true =>
                rw [hp, if_pos rfl] at h
                exact Or.inl (defer_only.cut h _ marker_ne_drift)
            | false =>
                have hafter : (s.marked m c l).after f = (s.undo m c l).after f := by
                  rw [Step.marked_defer hd, after_cond, status_test, hp, if_neg Bool.false_ne_true, after_test]
                rw [hp, if_neg Bool.false_ne_true] at h
                rcases Step.undo_cut hh hs h with hm | rfl
                · exact Or.inl hm
                · exact Or.inr ⟨Step.carried hh hf (fun _ => by simpa using hp) (refl_of _ f) hafter,
                    hafter.symm⟩
    next => exact Or.inl (h ▸ rfl)

theorem Step.cmd_only (hh : Housed m c) (hs : s ∈ c.steps) :
    (s.cmd m c l).Within (Only (Outer c ∪ {c.marker s.n})) := by
  have hundo : (s.undo m c l).Within (Only (Outer c ∪ {c.marker s.n})) :=
    ⟨(actions_only hh hs).mono fun _ _ h => h.mono Set.subset_union_left, rm_only (Or.inr rfl)⟩
  have hd : (defer m c s.n).Within (Only (Outer c ∪ {c.marker s.n})) := into_only (Or.inl (Or.inr (Or.inl rfl)))
  have hr : (s.reports m c).Within (Only (Outer c ∪ {c.marker s.n})) :=
    reports_within (Or.inl (Or.inr (Or.inr rfl)))
  refine ⟨Within.test, ?_, trivial⟩
  cases h : s.drift with
  | clobber =>
      rw [Step.marked_clobber h]
      exact ⟨hr, hundo⟩
  | defer =>
      rw [Step.marked_defer h]
      exact ⟨Within.test, hd, hundo⟩

/-! ## A run -/

theorem sections_fades (hh : Housed m c) {ss : List Step} (hss : ∀ s ∈ ss, s ∈ c.steps) :
    (block (ss.map (Step.cmd m c l))).Within (Fades c n) :=
  Within.block fun p hp => by
    obtain ⟨s, hs, rfl⟩ := List.mem_map.mp hp
    exact Step.cmd_fades hh (hss s hs)

/-- A marker is left as it is by the sections of other steps. -/
theorem sections_keep (hh : Housed m c) {ss : List Step} (hss : ∀ s ∈ ss, s ∈ c.steps)
    (hn : ∀ s ∈ ss, s.n ≠ n) :
    (block (ss.map (Step.cmd m c l))).Within (Only {c.marker n}ᶜ) :=
  Within.block fun p hp => by
    obtain ⟨s, hs, rfl⟩ := List.mem_map.mp hp
    refine (Step.cmd_only hh (hss s hs)).mono fun f g h => h.mono fun q hq => ?_
    rintro rfl
    rcases hq with hq | hq
    · exact marker_not_outer hq
    · exact hn s hs (marker_inj.mp hq).symm

theorem fired_only : (overwrite m (c.file "fired") fun _ => []).Within (Only {c.marker n}ᶜ) :=
  into_only fun h => marker_ne_fired (Eq.symm h)

/-- The run of one section among the others. -/
theorem steps_split (hh : Housed m c) (hx : x ∈ c.steps) : ∃ pre post, c.steps = pre ++ x :: post ∧
    (∀ s ∈ pre, s ∈ c.steps ∧ s.n ≠ x.n) ∧ ∀ s ∈ post, s ∈ c.steps ∧ s.n ≠ x.n := by
  obtain ⟨pre, post, he⟩ := List.append_of_mem hx
  have hnd := hh.distinct
  rw [he, List.map_append, List.map_cons, List.nodup_middle, List.nodup_cons, List.mem_append, not_or] at hnd
  refine ⟨pre, post, he, fun s hs => ⟨?_, fun h => ?_⟩, fun s hs => ⟨?_, fun h => ?_⟩⟩
  · exact he ▸ List.mem_append_left _ hs
  · exact hnd.1.1 (h ▸ List.mem_map_of_mem hs)
  · exact he ▸ List.mem_append_right _ (List.mem_cons_of_mem _ hs)
  · exact hnd.1.2 (h ▸ List.mem_map_of_mem hs)

/-- In a killed run that left a step without its marker, the step's section ran to its
end, after the whole sections before it, and the kill came later. -/
theorem whole_section (hh : Housed m c) (hx : x ∈ c.steps) {f g : Tree}
    (h : (sections m c l).Cut f g) (hf : (f (c.marker x.n)).isSome = true) (hg : g (c.marker x.n) = none) :
    ∃ pre post, c.steps = pre ++ x :: post ∧
      Carried m c l x ((block (pre.map (Step.cmd m c l))).after f) ∧
      (seq (block (post.map (Step.cmd m c l))) (overwrite m (c.file "fired") fun _ => [])).Cut
        ((x.cmd m c l).after ((block (pre.map (Step.cmd m c l))).after f)) g := by
  obtain ⟨pre, post, he, hpre, hpost⟩ := steps_split hh hx
  refine ⟨pre, post, he, ?_⟩
  have hkpre := sections_keep (l := l) hh (fun s hs => (hpre s hs).1) fun s hs => (hpre s hs).2
  have hkpost := sections_keep (l := l) hh (fun s hs => (hpost s hs).1) fun s hs => (hpost s hs).2
  have hu : (block (pre.map (Step.cmd m c l))).after f (c.marker x.n) = f (c.marker x.n) :=
    hkpre.after f _ fun h => h rfl
  have hne : g (c.marker x.n) ≠ f (c.marker x.n) := by
    intro h
    rw [← h, hg] at hf
    cases hf
  -- where the kill came: before the section, in it, or after it
  have hcut : (block (pre.map (Step.cmd m c l))).Cut f g ∨
      (x.cmd m c l).Cut ((block (pre.map (Step.cmd m c l))).after f) g ∨
      (seq (block (post.map (Step.cmd m c l))) (overwrite m (c.file "fired") fun _ => [])).Cut
        ((x.cmd m c l).after ((block (pre.map (Step.cmd m c l))).after f)) g := by
    unfold sections at h
    rw [he, List.map_append, List.map_cons] at h
    rcases h with h | h
    · rw [cut_block_append, cut_block_cons] at h
      exact h.imp_right fun h => h.imp_right Or.inl
    · rw [after_block_append, after_block_cons] at h
      exact Or.inr (Or.inr (Or.inr h))
  rcases hcut with h | h | h
  · exact absurd (hkpre.cut h _ fun h => h rfl) hne
  · rcases Step.cmd_cut hh hx h with hm | ⟨hcar, rfl⟩
    · exact absurd (hm.trans hu) hne
    · exact ⟨hcar, Cut.start _ _⟩
  · have hgone : (x.cmd m c l).after ((block (pre.map (Step.cmd m c l))).after f) (c.marker x.n) = none := by
      have hrest : (seq (block (post.map (Step.cmd m c l)))
          (overwrite m (c.file "fired") fun _ => [])).Within (Only {c.marker x.n}ᶜ) := ⟨hkpost, fired_only⟩
      rw [← hg]
      exact (hrest.cut h _ fun h => h rfl).symm
    refine ⟨?_, h⟩
    rcases Step.cmd_after (l := l) hh (s := x) ((block (pre.map (Step.cmd m c l))).after f) with
      ⟨hnone, -⟩ | ⟨-, -, -, hdef⟩ | hcar
    · rw [← hu, hnone] at hf
      cases hf
    · rw [hdef, defer_only.after _ _ marker_ne_drift, hu] at hgone
      rw [hgone] at hf
      cases hf
    · exact hcar

/-- A killed run did nothing, or it was due, had the lock, and was killed among the
sections. -/
theorem firing_cut {now : Nat} {f g : Tree} (h : (firing m c now l).Cut f g) :
    g = f ∨ f (c.file "fired") = none ∧ due m c now f = true ∧ l ≠ .late ∧ (sections m c l).Cut f g := by
  rw [firing, cut_test_cond, cut_test_cond] at h
  rcases h with rfl | h
  · exact Or.inl rfl
  · split at h
    next => exact Or.inl h
    next hf =>
      rcases h with rfl | h
      · exact Or.inl rfl
      · split at h
        next hdue =>
          split at h
          next => exact Or.inl h
          next hl => exact Or.inr ⟨by simpa using hf, hdue, hl, h⟩
        next => exact Or.inl h

/-- What a run does that is due and has the lock. -/
theorem firing_after {now : Nat} {f : Tree} (hf : f (c.file "fired") = none) (hdue : due m c now f = true)
    (hl : l ≠ .late) : (firing m c now l).after f = (sections m c l).after f := by
  rw [firing, after_cond, status_test, hf, Option.isSome_none, if_neg Bool.false_ne_true, after_test,
    after_cond, status_test, hdue, if_pos rfl, after_test, if_neg hl]

/-! ## A history -/

variable (m c) in
/-- What befalls the files: a run of the artifact, which may be killed, or what others
do, who leave the markers to it. -/
def Happens (f g : Tree) : Prop :=
  (∃ now l, (firing m c now l).Cut f g) ∨ ∀ n, g (c.marker n) = f (c.marker n)

theorem Happens.fades (hh : Housed m c) {f g : Tree} (h : Happens m c f g) : Fades c n f g := by
  rcases h with ⟨now, l, h⟩ | h
  · rcases firing_cut h with rfl | ⟨-, -, -, h⟩
    · exact refl_of (Fades c n) _
    · have hsec : (sections m c l).Within (Fades c n) :=
        ⟨sections_fades hh fun _ hs => hs, fired_only.mono fun _ _ h => Or.inl (h _ fun h => h rfl)⟩
      exact hsec.cut h
  · exact Or.inl (h n)

variable (m c) in
/-- In the run that began with `f` and left `g` the marker of the step went: its section
ran to its end, behind the whole sections of the steps before it. -/
def Went (x : Step) (f g : Tree) : Prop :=
  (f (c.marker x.n)).isSome = true ∧ g (c.marker x.n) = none ∧
    ∃ now l pre post, (firing m c now l).Cut f g ∧ c.steps = pre ++ x :: post ∧
      Carried m c l x ((block (pre.map (Step.cmd m c l))).after f)

/-- A marker that went, went in one of the runs. -/
theorem marker_went (hh : Housed m c) (hx : x ∈ c.steps) {f g : Tree}
    (h : Relation.ReflTransGen (Happens m c) f g) (hf : (f (c.marker x.n)).isSome = true)
    (hg : g (c.marker x.n) = none) : ∃ f₁ g₁, Relation.ReflTransGen (Happens m c) f f₁ ∧
      Went m c x f₁ g₁ ∧ Relation.ReflTransGen (Happens m c) g₁ g := by
  obtain ⟨f₁, g₁, hf₁, hstep, hg₁, hmark, hgone⟩ :=
    crosses (P := fun f => (f (c.marker x.n)).isSome = true) h hf (by rw [hg]; simp)
  rw [Option.not_isSome_iff_eq_none] at hgone
  rcases hstep with ⟨now, l, hcut⟩ | hother
  · rcases firing_cut hcut with rfl | ⟨-, -, -, hsec⟩
    · rw [hgone] at hmark
      cases hmark
    · obtain ⟨pre, post, he, hcar, -⟩ := whole_section hh hx hsec hmark hgone
      exact ⟨f₁, g₁, hf₁, ⟨hmark, hgone, now, l, pre, post, hcut, he, hcar⟩, hg₁⟩
  · rw [← hother, hgone] at hmark
    cases hmark

/-- A marker that went, went once: in one of the runs the section of its step ran to its
end, behind the whole sections of the steps before it.  After that the step is done, in
every later run. -/
theorem undone_once (hh : Housed m c) (hx : x ∈ c.steps) {f g : Tree}
    (h : Relation.ReflTransGen (Happens m c) f g) (hf : (f (c.marker x.n)).isSome = true)
    (hg : g (c.marker x.n) = none) :
    ∃ f₁ g₁ now l pre post, Relation.ReflTransGen (Happens m c) f f₁ ∧ (firing m c now l).Cut f₁ g₁ ∧
      Relation.ReflTransGen (Happens m c) g₁ g ∧ c.steps = pre ++ x :: post ∧
      Carried m c l x ((block (pre.map (Step.cmd m c l))).after f₁) ∧
      ∀ g₂, Relation.ReflTransGen (Happens m c) g₁ g₂ → ∀ l, (x.cmd m c l).after g₂ = g₂ := by
  obtain ⟨f₁, g₁, hf₁, ⟨-, hgone, now, l, pre, post, hcut, he, hcar⟩, hg₁⟩ := marker_went hh hx h hf hg
  refine ⟨f₁, g₁, now, l, pre, post, hf₁, hcut, hg₁, he, hcar, fun g₂ hg₂ l => ?_⟩
  refine Step.after_cmd_none ?_
  induction hg₂ with
  | refl => exact hgone
  | tail _ ht ih => exact (ht.fades (n := x.n) hh).elim (fun h => h.trans ih) id

/-! ## The report -/

/-- The drift report has grown by a line for each of `ns`. -/
def Reported (c : Context) (ns : List Nat) (f g : Tree) : Prop :=
  g (c.file "drift") =
    if ns = [] then f (c.file "drift") else some ((f (c.file "drift")).getD [] ++ ns.flatMap line)

theorem Reported.nil {f g : Tree} (h : g (c.file "drift") = f (c.file "drift")) : Reported c [] f g := h

theorem Reported.trans {ns ks : List Nat} {f g h : Tree} (hf : Reported c ns f g) (hg : Reported c ks g h) :
    Reported c (ns ++ ks) f h := by
  unfold Reported at *
  by_cases hn : ns = []
  · rw [if_pos hn] at hf
    rw [hg, hf, hn, List.nil_append]
  · rw [if_neg hn] at hf
    rw [hg, hf, if_neg (fun h => hn (List.append_eq_nil_iff.mp h).1)]
    split
    next hk => rw [hk, List.append_nil]
    next => rw [Option.getD_some, List.flatMap_append, List.append_assoc]

/-- A run of `p` reports nothing but the step, and perhaps more than once. -/
def Reports (c : Context) (n : Nat) (p : Cmd Tree) : Prop :=
  ∀ f, ∃ ns, (∀ k ∈ ns, k = n) ∧ Reported c ns f (p.after f)

theorem Reports.of_only {p : Cmd Tree} (h : p.Within (Only {c.file "drift"}ᶜ)) : Reports c n p :=
  fun f => ⟨[], fun _ h => (List.not_mem_nil h).elim, h.after f _ fun h => h rfl⟩

theorem Reports.seq {p q : Cmd Tree} (hp : Reports c n p) (hq : Reports c n q) : Reports c n (.seq p q) := by
  intro f
  obtain ⟨ns, hns, hr⟩ := hp f
  obtain ⟨ks, hks, hr'⟩ := hq (p.after f)
  refine ⟨ns ++ ks, fun k hk => ?_, hr.trans hr'⟩
  exact (List.mem_append.mp hk).elim (hns k) (hks k)

theorem Reports.cond {d p q : Cmd Tree} (hd : Reports c n d) (hp : Reports c n p) (hq : Reports c n q) :
    Reports c n (.cond d p q) := by
  intro f
  rw [after_cond]
  split
  · exact (hd.seq hp) f
  · exact (hd.seq hq) f

theorem Reports.test {d : Tree → Bool} : Reports c n (.test d) := Reports.of_only Within.test

theorem Reports.block {ps : List (Cmd Tree)} (h : ∀ p ∈ ps, Reports c n p) : Reports c n (.block ps) := by
  induction ps with
  | nil => exact Reports.of_only trivial
  | cons p ps ih => exact (h p List.mem_cons_self).seq (ih fun q hq => h q (List.mem_cons_of_mem _ hq))

theorem defer_reported (hh : Housed m c) (f : Tree) : Reported c [n] f ((defer m c n).after f) := by
  show (if m.writable _ then _ else _ : Bool × Tree).2 _ = _
  rw [if_pos (hh.writable _ inside_file)]
  simp

theorem Reports.defer (hh : Housed m c) : Reports c n (defer m c n) := fun f =>
  ⟨[n], fun _ hk => List.mem_singleton.mp hk, defer_reported hh f⟩

theorem Action.reports (hh : Housed m c) (hs : s ∈ c.steps) {a : Action} (ha : a ∈ s.actions) :
    Reports c s.n (a.cmd m c l s.drift s.n) := by
  have hne : ∀ p, a.path = some p → p ∈ ({c.file "drift"}ᶜ : Set String) ∧
      tmpOf p ∈ ({c.file "drift"}ᶜ : Set String) := by
    intro p hp
    obtain ⟨h, h'⟩ := hh.paths s hs a ha p hp
    exact ⟨fun he => h (he ▸ inside_file), fun he => h' (he ▸ inside_file)⟩
  have hc : c.file "clobbered" ∈ ({c.file "drift"}ᶜ : Set String) := clobbered_ne_drift
  cases a with
  | remove p => exact .of_only (rm_only (hne p rfl).1)
  | stripRegion p anchor k =>
      obtain ⟨hp, ht⟩ := hne p rfl
      refine (Reports.of_only (stripRegionOf_only hp ht)).cond (.of_only trivial) ?_
      cases s.drift with
      | clobber => exact Reports.test.cond (.defer hh) (.of_only ⟨restore_only hp ht, into_only hc⟩)
      | defer => exact .defer hh
  | restoreSnapshot p k => exact .of_only (restore_only (hne p rfl).1 (hne p rfl).2)
  | run command =>
      refine .of_only fun f => ⟨fun p hp => ?_, fun g hg p hp => ?_⟩
      · exact hh.commands command f p (not_not.mp hp ▸ inside_file)
      · exact hh.killed command f g p hg (not_not.mp hp ▸ inside_file)
  | write p content => exact .of_only (into_only (hne p rfl).1)
  | append p line => exact .of_only (into_only (hne p rfl).1)
  | regionSet p anchor content => exact .of_only (regionSetOf_only (hne p rfl).1 (hne p rfl).2)
  | regionClear p anchor => exact .of_only ((stripRegionOf_only (hne p rfl).1 (hne p rfl).2).orElse trivial)

theorem Step.reports_cmd (hh : Housed m c) (hs : s ∈ c.steps) : Reports c s.n (s.cmd m c l) := by
  have hundo : Reports c s.n (s.undo m c l) := by
    refine Reports.seq (Reports.block fun p hp => ?_) (.of_only (rm_only fun h => marker_ne_drift h))
    obtain ⟨a, ha, rfl⟩ := List.mem_map.mp hp
    exact Action.reports hh hs ha
  have hr : Reports c s.n (s.reports m c) := .of_only (reports_within clobbered_ne_drift)
  refine Reports.test.cond ?_ (.of_only trivial)
  cases h : s.drift with
  | clobber =>
      rw [Step.marked_clobber h]
      exact hr.seq hundo
  | defer =>
      rw [Step.marked_defer h]
      exact Reports.test.cond (.defer hh) hundo

/-- A section that is behind has taken its marker or reported its step. -/
theorem Step.settled (hh : Housed m c) (hs : s ∈ c.steps) (f : Tree) : ∃ ns, (∀ k ∈ ns, k = s.n) ∧
    Reported c ns f ((s.cmd m c l).after f) ∧
    ((s.cmd m c l).after f (c.marker s.n) = none ∨ s.n ∈ ns) := by
  rcases Step.cmd_after (l := l) hh (s := s) f with ⟨hnone, he⟩ | ⟨-, -, -, he⟩ | hcar
  · exact ⟨[], fun _ h => (List.not_mem_nil h).elim, .nil (by rw [he]), Or.inl (by rw [he, hnone])⟩
  · rw [he]
    exact ⟨[s.n], fun _ hk => List.mem_singleton.mp hk, defer_reported hh f, Or.inr List.mem_cons_self⟩
  · obtain ⟨ns, hns, hr⟩ := Step.reports_cmd (l := l) hh hs f
    exact ⟨ns, hns, hr, Or.inl hcar.gone⟩

theorem sections_settled (hh : Housed m c) {ss : List Step} (hss : ∀ s ∈ ss, s ∈ c.steps) (f : Tree) :
    ∃ ns, (∀ k ∈ ns, ∃ s ∈ ss, s.n = k) ∧
      Reported c ns f ((block (ss.map (Step.cmd m c l))).after f) ∧
      ∀ s ∈ ss, (block (ss.map (Step.cmd m c l))).after f (c.marker s.n) = none ∨ s.n ∈ ns := by
  induction ss generalizing f with
  | nil =>
      exact ⟨[], fun _ h => (List.not_mem_nil h).elim, .nil rfl, fun _ h => (List.not_mem_nil h).elim⟩
  | cons s ss ih =>
      obtain ⟨ns, hns, hr, hs⟩ := Step.settled (l := l) hh (hss s List.mem_cons_self) f
      obtain ⟨ks, hks, hr', hrest⟩ :=
        ih (fun t ht => hss t (List.mem_cons_of_mem _ ht)) ((s.cmd m c l).after f)
      refine ⟨ns ++ ks, fun k hk => ?_, hr.trans hr', fun t ht => ?_⟩
      · rcases List.mem_append.mp hk with hk | hk
        · exact ⟨s, List.mem_cons_self, (hns k hk).symm⟩
        · obtain ⟨t, ht, he⟩ := hks k hk
          exact ⟨t, List.mem_cons_of_mem _ ht, he⟩
      · rcases List.mem_cons.mp ht with rfl | ht
        · have hlater := (sections_fades (l := l) (n := t.n) hh fun u hu =>
            hss u (List.mem_cons_of_mem _ hu)).after ((t.cmd m c l).after f)
          exact hs.imp (fun hnone => hlater.elim (fun h => h.trans hnone) id) (List.mem_append_left _)
        · exact (hrest t ht).imp_right (List.mem_append_right _)

/-- A run that was due, had the lock and was not killed has settled every step: its
marker is gone or its number is in the drift report, which holds no other.  And it was
the last: no later run does anything. -/
theorem left_reported (hh : Housed m c) {now : Nat} {f : Tree} (hf : f (c.file "fired") = none)
    (hdue : due m c now f = true) (hl : l ≠ .late) :
    ∃ ns, (∀ k ∈ ns, ∃ s ∈ c.steps, s.n = k) ∧ Reported c ns f ((firing m c now l).after f) ∧
      (∀ s ∈ c.steps, (firing m c now l).after f (c.marker s.n) = none ∨ s.n ∈ ns) ∧
      ∀ now' l' g, (firing m c now' l').Cut ((firing m c now l).after f) g →
        g = (firing m c now l).after f := by
  rw [firing_after hf hdue hl]
  obtain ⟨ns, hns, hr, hs⟩ := sections_settled (l := l) hh (fun _ hs => hs) f
  have hlast : (sections m c l).after f (c.file "fired") = some [] := by
    show (if m.writable _ then _ else _ : Bool × Tree).2 _ = _
    rw [if_pos (hh.writable _ inside_file)]
    simp
  have hfired : (overwrite m (c.file "fired") fun _ => []).Within (Only {c.file "fired"}) := into_only rfl
  have hkept : ∀ p, p ≠ c.file "fired" → (sections m c l).after f p =
      (block (c.steps.map (Step.cmd m c l))).after f p := fun p hp => hfired.after _ p hp
  refine ⟨ns, hns, ?_, fun s hss => ?_, fun now' l' g hg => ?_⟩
  · rw [Reported, hkept _ (by rw [Ne, file_inj]; decide)]
    exact hr
  · rw [hkept _ marker_ne_fired]
    exact hs s hss
  · rcases firing_cut hg with he | ⟨hnone, -⟩
    · exact he
    · rw [hlast] at hnone
      cases hnone

/-! ## A step held for its drift -/

/-- A file of the step is no other step's business. -/
structure Alone (m : Machine) (c : Context) (x : Step) (p : String) : Prop where
  mine : p ∈ x.plain
  outside : ¬Inside c p
  paths : ∀ s ∈ c.steps, s.n ≠ x.n → ∀ a ∈ s.actions, ∀ q, a.path = some q → q ≠ p ∧ tmpOf q ≠ p
  commands : ∀ cmd f, m.command cmd f p = f p
  killed : ∀ cmd f g, m.halfway cmd f g → g p = f p

/-- The sections of other steps leave it as it is. -/
theorem Alone.kept {p : String} (h : Alone m c x p) (hs : s ∈ c.steps) (hn : s.n ≠ x.n) :
    (s.cmd m c l).Within (Only {p}ᶜ) := by
  have hin : ∀ name, c.file name ∈ ({p}ᶜ : Set String) := fun name he => h.outside (he ▸ inside_file)
  have hact : ∀ a ∈ s.actions, (a.cmd m c l s.drift s.n).Within (Only {p}ᶜ) := by
    intro a ha
    have hq := h.paths s hs hn a ha
    cases a with
    | remove q => exact rm_only (hq q rfl).1
    | stripRegion q anchor k =>
        obtain ⟨hp, ht⟩ := hq q rfl
        exact (stripRegionOf_only hp ht).orElse (damaged_only (hin _) (hin _) hp ht)
    | restoreSnapshot q k => exact restore_only (hq q rfl).1 (hq q rfl).2
    | run command =>
        refine fun f => ⟨fun q hq => ?_, fun g hg q hq => ?_⟩
        · exact not_not.mp hq ▸ h.commands command f
        · exact not_not.mp hq ▸ h.killed command f g hg
    | write q content => exact into_only (hq q rfl).1
    | append q line => exact into_only (hq q rfl).1
    | regionSet q anchor content => exact regionSetOf_only (hq q rfl).1 (hq q rfl).2
    | regionClear q anchor => exact (stripRegionOf_only (hq q rfl).1 (hq q rfl).2).orElse trivial
  have hundo : (s.undo m c l).Within (Only {p}ᶜ) := by
    refine ⟨Within.block fun q hq => ?_, rm_only (hin _)⟩
    obtain ⟨a, ha, rfl⟩ := List.mem_map.mp hq
    exact hact a ha
  refine ⟨Within.test, ?_, trivial⟩
  cases hd : s.drift with
  | clobber =>
      rw [Step.marked_clobber hd]
      exact ⟨reports_within (hin _), hundo⟩
  | defer =>
      rw [Step.marked_defer hd]
      exact ⟨Within.test, into_only (hin _), hundo⟩

/-- A marked step whose file is not what its marker says. -/
def Drifted (m : Machine) (c : Context) (x : Step) (p : String) (f : Tree) : Prop :=
  (f (c.marker x.n)).isSome = true ∧ changedAt m c x.n f p = true

/-- The step's marker and the file are as they were. -/
def Same (c : Context) (x : Step) (p : String) (f g : Tree) : Prop :=
  g (c.marker x.n) = f (c.marker x.n) ∧ g p = f p

instance {p : String} : Std.Refl (Same c x p) := ⟨fun _ => ⟨rfl, rfl⟩⟩

instance {p : String} : IsTrans Tree (Same c x p) := ⟨fun _ _ _ h h' => ⟨h'.1.trans h.1, h'.2.trans h.2⟩⟩

theorem Same.drifted {p : String} {f g : Tree} (h : Same c x p f g) (hf : Drifted m c x p f) :
    Drifted m c x p g := by
  unfold Drifted changedAt sha at *
  rw [h.1, h.2]
  exact hf

theorem Alone.same {p : String} (ha : Alone m c x p) (hh : Housed m c) {ss : List Step}
    (hss : ∀ s ∈ ss, s ∈ c.steps ∧ s.n ≠ x.n) : (block (ss.map (Step.cmd m c l))).Within (Same c x p) :=
  Within.block fun q hq => by
    obtain ⟨s, hs, rfl⟩ := List.mem_map.mp hq
    have hone : (block ([s].map (Step.cmd m c l))).Within (Only {c.marker x.n}ᶜ) :=
      sections_keep hh (fun t ht => List.mem_singleton.mp ht ▸ (hss s hs).1)
        fun t ht => List.mem_singleton.mp ht ▸ (hss s hs).2
    exact hone.1.and ((ha.kept (hss s hs).1 (hss s hs).2)) fun _ _ h h' => ⟨h _ fun h => h rfl, h' _ fun h => h rfl⟩

/-- Its own section leaves it alone under `:defer`. -/
theorem Drifted.cut {p : String} (ha : Alone m c x p) (hd : x.drift = .defer) {f g : Tree}
    (hf : Drifted m c x p f) (h : (x.cmd m c l).Cut f g) : Same c x p f g := by
  have hany : x.plain.any (changedAt m c x.n f) = true := List.any_eq_true.mpr ⟨p, ha.mine, hf.2⟩
  rw [Step.cmd, cut_test_cond, Step.marked_defer hd, cut_test_cond, if_pos hf.1, hany, if_pos rfl] at h
  rcases h with rfl | rfl | h
  · exact refl_of (Same c x p) _
  · exact refl_of (Same c x p) _
  · have hkept := defer_only.cut h
    exact ⟨hkept _ marker_ne_drift, hkept _ fun h => ha.outside (h ▸ inside_file)⟩

theorem Drifted.sections {p : String} (ha : Alone m c x p) (hh : Housed m c) (hx : x ∈ c.steps)
    (hd : x.drift = .defer) {f g : Tree} (hf : Drifted m c x p f) (h : (sections m c l).Cut f g) :
    Same c x p f g := by
  obtain ⟨pre, post, he, hpre, hpost⟩ := steps_split hh hx
  have hpre := ha.same (l := l) hh hpre
  have hpost := ha.same (l := l) hh hpost
  have hfired : (overwrite m (c.file "fired") fun _ => []).Within (Same c x p) := by
    refine (into_only (X := {c.file "fired"}) rfl).mono fun f g h => ⟨h _ marker_ne_fired, h _ fun h => ?_⟩
    exact ha.outside (h ▸ inside_file)
  have hu := hpre.after f
  have hv := (hu.drifted hf).cut ha hd (Cut.whole (x.cmd m c l) _)
  unfold Render.sections at h
  rw [he, List.map_append, List.map_cons] at h
  have hrest : (seq (block (post.map (Step.cmd m c l))) (overwrite m (c.file "fired") fun _ => [])).Within
      (Same c x p) := ⟨hpost, hfired⟩
  rcases h with h | h
  · rw [cut_block_append, cut_block_cons] at h
    rcases h with h | h | h
    · exact hpre.cut h
    · exact trans_of (Same c x p) hu ((hu.drifted hf).cut ha hd h)
    · exact trans_of (Same c x p) hu (trans_of (Same c x p) hv (hpost.cut h))
  · rw [after_block_append, after_block_cons] at h
    exact trans_of (Same c x p) hu (trans_of (Same c x p) hv (hrest.cut (Or.inr h)))

/-- Under `:defer` a marked step with a file that is not what its marker says is left to
itself, however often the artifact runs and wherever it is killed: its marker stays and
so does the file.  This holds as well of a step a killed run has left half undone. -/
theorem left_alone {p : String} (hh : Housed m c) (hx : x ∈ c.steps) (hd : x.drift = .defer)
    (ha : Alone m c x p) {f g : Tree} (hf : Drifted m c x p f)
    (h : Relation.ReflTransGen
      (fun f g => (∃ now l, (firing m c now l).Cut f g) ∨ Same c x p f g) f g) :
    Same c x p f g := by
  induction h with
  | refl => exact refl_of (Same c x p) f
  | tail _ hstep ih =>
      refine trans_of (Same c x p) ih ?_
      rcases hstep with ⟨now, l, hcut⟩ | hsame
      · rcases firing_cut hcut with rfl | ⟨-, -, -, hsec⟩
        · exact refl_of (Same c x p) _
        · exact (ih.drifted hf).sections ha hh hx hd hsec
      · exact hsame

end

/-! ## One file -/

namespace OneFile

/-- A target whose digest of a text is the text. -/
def machine : Machine where
  awk := SpacedPath.plainAwk
  digest := id
  integer t := some (Nat.ofDigitChars 10 t 0 : Nat)
  arith t := some (Nat.ofDigitChars 10 t 0 : Nat)
  command _ f := f
  halfway _ f g := g = f
  writable _ := true
  instances := ["i"]
  integer_nat n := by simp [toString, Nat.repr, Nat.ofDigitChars_ten_toDigits]
  arith_nat n := by simp [toString, Nat.repr, Nat.ofDigitChars_ten_toDigits]

/-- A step that put a file in the place of another. -/
def step (drift : Drift) : Step where
  n := 1
  id := "put"
  drift := drift
  files := [⟨.modified, "/etc/f", none, 0, rfl⟩]
  actions := [.restoreSnapshot "/etc/f" 0]

def context (drift : Drift) : Context where
  plan := "p"
  host := { name := "web", os := "linux", reach := ["local"], filesystem := true, stdinPreamble := true }
  inst := ⟨"i", some "/r"⟩
  deadline := true
  heartbeatS := none
  steps := [step drift]

/-- The step's files and the deadline, with `now` in the file. -/
def files (now : String) : Tree := fun p =>
  if p = "/etc/f" then some now.toList
  else if p = "/r/instances/i/markers/1" then some "modified /etc/f new\n".toList
  else if p = "/r/instances/i/snapshots/1/0" then some "old".toList
  else if p = "/r/instances/i/deadline" then some "5\n".toList
  else none

theorem housed (drift : Drift) : Housed machine (context drift) where
  paths := by
    intro s hs a ha p hp
    rw [List.mem_singleton.mp hs] at ha
    rw [List.mem_singleton.mp ha] at hp
    cases hp
    have hdir : (context drift).dir = "/r/instances/i" := by cases drift <;> decide
    unfold Inside
    rw [hdir]
    exact ⟨by decide, by decide⟩
  commands _ _ _ _ := rfl
  killed _ _ _ _ h _ := h ▸ rfl
  writable _ _ := rfl
  distinct := by simp [context]

theorem undone_restored : ∃ f₁ g₁ now l pre post,
    Relation.ReflTransGen (Happens machine (context .clobber)) (files "new") f₁ ∧
    (firing machine (context .clobber) now l).Cut f₁ g₁ ∧
    Relation.ReflTransGen (Happens machine (context .clobber)) g₁
      ((firing machine (context .clobber) 9 .held).after (files "new")) ∧
    (context .clobber).steps = pre ++ step .clobber :: post ∧
    Carried machine (context .clobber) l (step .clobber)
      ((block (pre.map (Step.cmd machine (context .clobber) l))).after f₁) ∧
    ∀ g₂, Relation.ReflTransGen (Happens machine (context .clobber)) g₁ g₂ → ∀ l,
      ((step .clobber).cmd machine (context .clobber) l).after g₂ = g₂ :=
  undone_once (housed .clobber) (x := step .clobber) List.mem_cons_self
    (.single (Or.inl ⟨9, .held, Cut.whole _ _⟩)) (by decide +kernel) (by decide +kernel)

/-- The file is the one that was there before the step. -/
example : (firing machine (context .clobber) 9 .held).after (files "new") "/etc/f" = some "old".toList := by
  decide +kernel

theorem held_reported : ∃ ns, (∀ k ∈ ns, ∃ s ∈ (context .defer).steps, s.n = k) ∧
    Reported (context .defer) ns (files "mine") ((firing machine (context .defer) 9 .held).after (files "mine")) ∧
    (∀ s ∈ (context .defer).steps,
      (firing machine (context .defer) 9 .held).after (files "mine") ((context .defer).marker s.n) = none ∨
        s.n ∈ ns) ∧
    ∀ now' l' g, (firing machine (context .defer) now' l').Cut
      ((firing machine (context .defer) 9 .held).after (files "mine")) g →
        g = (firing machine (context .defer) 9 .held).after (files "mine") :=
  left_reported (housed .defer) (by decide +kernel) (by decide +kernel) (by decide)

example : (firing machine (context .defer) 9 .held).after (files "mine") "/r/instances/i/drift" =
    some "1\n".toList := by
  decide +kernel

theorem alone : Alone machine (context .defer) (step .defer) "/etc/f" where
  mine := List.mem_cons_self
  outside := ((housed .defer).paths _ List.mem_cons_self _ List.mem_cons_self _ rfl).1
  paths _ hs hn := absurd (congrArg Step.n (List.mem_singleton.mp hs)) hn
  commands _ _ := rfl
  killed _ _ _ h := h ▸ rfl

theorem held_alone : Same (context .defer) (step .defer) "/etc/f" (files "mine")
    ((firing machine (context .defer) 9 .held).after (files "mine")) :=
  left_alone (housed .defer) List.mem_cons_self rfl alone ⟨by decide +kernel, by decide +kernel⟩
    (.single (Or.inl ⟨9, .held, Cut.whole _ _⟩))

end OneFile

end Rescind.Render
