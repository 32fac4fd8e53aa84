/-
# `Rescind.Safety.EitherWay` — whoever undoes it

An undo can be the engine's, one application after the other over `local()`, or the
artifact's, one section after the other where no engine is left to ask.  From the same
files both judge the same drift, and where the engine's revert comes to its end the
artifact's run would have left the same files.

    the applications of a record and the sections         (`aligned_of`)
    a revert that came to its end                         (`revert_alike`)
    a revert and a firing                                 (`either_way`)

It is asked that drift is not forced, that each application of an op is one of a covered
step and they are in the steps' order, that the artifact is an sh one and does not give up
on its lock, and that what is appended is appended alike (`Fits`).  A revert that holds a
step or stops short is not compared.
-/
import Rescind.Safety.Undoings

namespace Rescind.Render

open Lib Lib.Cmd
open Lib.Prog (Keeps bind_ok_inv)

section
variable {σ : Type} {E : Setting σ} {L : Local.Machine} {m : Machine} {c : Context} {host : Host}
  {look : σ → Tree} {w w' : World σ} {r : InstanceRecord} {a : AppliedStep}

/-! ## A whole revert -/

/-- The applications a revert undoes, last first, and the sections of the artifact: an
application is one of a covered step, or of no op; a step that was not applied has no
marker. -/
inductive Aligned (E : Setting σ) (c : Context) (host : Host) (hosts : Assoc String Host) (r : InstanceRecord)
    (f : Tree) : List AppliedStep → List Step → Prop
  | nil : Aligned E c host hosts r f [] []
  | unmarked {as : List AppliedStep} {s : Step} {ss : List Step} (hf : f (c.marker s.n) = none) :
      Aligned E c host hosts r f as ss → Aligned E c host hosts r f as (s :: ss)
  | passed {a : AppliedStep} {as : List AppliedStep} {ss : List Step} (ho : r.opAt a.step = none) :
      Aligned E c host hosts r f as ss → Aligned E c host hosts r f (a :: as) ss
  | covered {a : AppliedStep} {as : List AppliedStep} {s : Step} {ss : List Step} {o : Op}
      (ho : r.opAt a.step = some o) (hcov : Covers E host hosts r a o s) (hmir : Mirrored c r a o s f) :
      Aligned E c host hosts r f as ss → Aligned E c host hosts r f (a :: as) (s :: ss)

/-- Every section with a marker is ready when the artifact comes to it. -/
def Readied (m : Machine) (c : Context) (l : Lock) : List Step → Tree → Prop
  | [], _ => True
  | s :: ss, f => ((f (c.marker s.n)).isSome = true → Ready m c l s f) ∧ Readied m c l ss ((s.cmd m c l).after f)

section
variable {l : Lock} {hosts : Assoc String Host} {f f' : Tree} {as : List AppliedStep} {ss : List Step}

/-- What is left of a revert once one application is behind. -/
theorem Aligned.later (h : Aligned E c host hosts r f as ss) {applied : List AppliedStep}
    {marks : Assoc StepKey (List Marker)} (hm : ∀ s ∈ ss, ∀ k : StepKey, k.1 = s.n → marks.get k = r.markers.get k)
    (hf : ∀ s ∈ ss, f' (c.marker s.n) = f (c.marker s.n))
    (hs : ∀ n k, f' (c.snapshot n k) = f (c.snapshot n k)) :
    Aligned E c host hosts { r with applied, markers := marks } f' as ss := by
  induction h with
  | nil => exact .nil
  | @unmarked as s ss hnone _ ih =>
      exact .unmarked ((hf s List.mem_cons_self).trans hnone) (ih
        (fun t ht => hm t (List.mem_cons_of_mem _ ht)) fun t ht => hf t (List.mem_cons_of_mem _ ht))
  | passed ho _ ih => exact .passed ho (ih hm hf)
  | @covered a as s ss o ho hcov hmir _ ih =>
      obtain ⟨hstep, -, -, -⟩ := stepActions_ok hcov.baked
      obtain ⟨ms, hms, hmarker, hrest⟩ := hmir.markers
      refine .covered ho ⟨hcov.undo, hcov.located, hcov.baked, hcov.harmless, hcov.regions⟩ ⟨?_, ?_⟩ (ih
        (fun t ht => hm t (List.mem_cons_of_mem _ ht)) fun t ht => hf t (List.mem_cons_of_mem _ ht))
      · refine ⟨ms, (hm s List.mem_cons_self a.key hstep.symm).trans hms, ?_, hrest⟩
        rw [← hmarker, ← hstep]
        exact hf s List.mem_cons_self
      · intro k e he hk
        obtain ⟨text, hsnap, ht⟩ := hmir.snapshots k e he hk
        exact ⟨text, hsnap, (hs _ _).trans ht⟩

theorem revert_passed (hk : Keeping E c host look) (ho : w.hand.opAt a.step = none)
    (h : revertLoop E (a :: as) w = (.ok true, w')) : ∃ w₁, revertLoop E as w₁ = (.ok true, w') ∧
      w₁.hand = popApplied w.hand ∧ w₁.hosts = w.hosts ∧ look w₁.out = look w.out := by
  rw [revertLoop] at h
  obtain ⟨r, w₁, hhand, h₁⟩ := bind_ok_inv h
  cases hhand
  rw [ho] at h₁
  obtain ⟨_, w₂, hset, h₂⟩ := bind_ok_inv h₁
  cases hset
  obtain ⟨_, w₃, hper, h₃⟩ := bind_ok_inv h₂
  have hb := (keeps_persist hk).ran hper
  exact ⟨w₃, h₃, hb.hand, hb.hosts, hb.files⟩

/-- A revert that goes on past an application undid it and held nothing. -/
theorem revert_undone (hk : Keeping E c host look) {o : Op} (ho : w.hand.opAt a.step = some o)
    (h : revertLoop E (a :: as) w = (.ok true, w')) :
    ∃ report w₁ w₂, undoStep E a o w = (.ok report, w₁) ∧ report.held = [] ∧
      revertLoop E as w₂ = (.ok true, w') ∧
      w₂.hand = { popApplied w₁.hand with markers := w₁.hand.markers.erase a.key } ∧
      w₂.hosts = w₁.hosts ∧ look w₂.out = look w₁.out := by
  rw [revertLoop] at h
  obtain ⟨r, w₀, hhand, h₁⟩ := bind_ok_inv h
  cases hhand
  rw [ho] at h₁
  obtain ⟨ended, w₁, hundo, h₂⟩ := bind_ok_inv h₁
  cases ended with
  | error why =>
      obtain ⟨_, w₂, hset, h₃⟩ := bind_ok_inv h₂
      obtain ⟨_, w₃, hlog, h₄⟩ := bind_ok_inv h₃
      obtain ⟨_, w₄, hstep, h₅⟩ := bind_ok_inv h₄
      obtain ⟨_, w₅, hhand, h₆⟩ := bind_ok_inv h₅
      obtain ⟨_, w₆, hstuck, h₇⟩ := bind_ok_inv h₆
      cases h₇
  | ok report =>
      have hundo := Prog.attempt_ok_inv hundo
      dsimp only at h₂
      cases hheld : report.held with
      | cons x xs =>
          rw [hheld] at h₂
          obtain ⟨_, w₂, hset, h₃⟩ := bind_ok_inv h₂
          obtain ⟨_, w₃, hlog, h₄⟩ := bind_ok_inv h₃
          obtain ⟨_, w₄, hstep, h₅⟩ := bind_ok_inv h₄
          cases h₅
      | nil =>
          rw [hheld] at h₂
          obtain ⟨_, w₂, hlog, h₃⟩ := bind_ok_inv h₂
          have hlogged : Beside look w₁ w₂ := (Keeps.when (keeps_log hk _)).ran hlog
          obtain ⟨_, w₃, hset, h₄⟩ := bind_ok_inv h₃
          cases hset
          obtain ⟨_, w₄, hper, h₅⟩ := bind_ok_inv h₄
          have hb := (keeps_persist hk).ran hper
          refine ⟨report, w₁, w₄, hundo, hheld, h₅, ?_, hb.hosts.trans hlogged.hosts, hb.files.trans hlogged.files⟩
          rw [hb.hand, ← hlogged.hand]

/-- A section leaves the markers of other steps and every snapshot. -/
theorem others_kept (hh : Housed m c) {s : Step} (hs : s ∈ c.steps) :
    (∀ n, n ≠ s.n → (s.cmd m c l).after f (c.marker n) = f (c.marker n)) ∧
      ∀ n k, (s.cmd m c l).after f (c.snapshot n k) = f (c.snapshot n k) := by
  have honly := (Step.cmd_only (l := l) hh hs).after f
  refine ⟨fun n hn => honly _ ?_, fun n k => honly _ ?_⟩
  · rintro (h | h)
    · exact marker_not_outer h
    · exact hn (marker_inj.mp h)
  · rintro (h | h)
    · exact snapshot_not_outer h
    · have h : c.snapshot n k = c.marker s.n := h
      rw [Context.snapshot, Context.marker, file_inj] at h
      have := congrArg (fun s : String => s.toList.head?) h
      simp at this

/-- A revert that came to its end, and the sections of the artifact from the same files. -/
theorem revert_alike (hs : Serving E L m c host look) (hh : Housed m c) (hap : ∀ s ∈ c.steps, Apart c s) {k : Nat}
    (hk : as.length + ss.length ≤ k) (hss : ∀ s ∈ ss, s ∈ c.steps) (hn : (ss.map Step.n).Nodup)
    (hr : w.hand.rehearsal = false) (hforce : w.hand.forceDrift = false) (hid : w.hand.id = c.inst.id)
    (hal : Aligned E c host w.hosts w.hand f as ss) (hready : Readied m c l ss f)
    (h : Only (Margin c) (look w.out) f) (hrev : revertLoop E as w = (.ok true, w')) :
    Only (Margin c) (look w'.out) ((block (ss.map (Step.cmd m c l))).after f) ∧
      ∀ s ∈ ss, (block (ss.map (Step.cmd m c l))).after f (c.marker s.n) = none := by
  induction k generalizing as ss w f with
  | zero =>
      cases hal with
      | nil =>
          cases hrev
          exact ⟨h, fun _ hs => (List.not_mem_nil hs).elim⟩
      | unmarked => simp at hk
      | passed => simp at hk
      | covered => simp at hk
  | succ k ih =>
      cases hal with
      | nil =>
          cases hrev
          exact ⟨h, fun _ hs => (List.not_mem_nil hs).elim⟩
      | @unmarked _ s ss hnone hal =>
          have hidle : (s.cmd m c l).after f = f := Step.after_cmd_none hnone
          have hlater : ∀ t ∈ ss, t ∈ c.steps := fun t ht => hss t (List.mem_cons_of_mem _ ht)
          rw [List.map_cons, after_block_cons, hidle]
          rw [Readied, hidle] at hready
          obtain ⟨halike, hgone⟩ := ih (by simp only [List.length_cons] at hk; omega) hlater hn.of_cons hr hforce
            hid hal hready.2 h hrev
          refine ⟨halike, fun t ht => ?_⟩
          rcases List.mem_cons.mp ht with rfl | ht
          · exact ((sections_fades (n := t.n) hh hlater).after f).elim (fun he => he.trans hnone) id
          · exact hgone t ht
      | @passed a as _ ho hal =>
          obtain ⟨w₁, hrest, hhand, hhosts, hlook⟩ := revert_passed hs.toKeeping ho hrev
          refine ih (by simp only [List.length_cons] at hk; omega) hss hn ?_ ?_ ?_ ?_ hready ?_ hrest
          · rw [hhand]
            exact hr
          · rw [hhand]
            exact hforce
          · rw [hhand]
            exact hid
          · rw [hhand, hhosts]
            exact hal.later (fun _ _ _ _ => rfl) (fun _ _ => rfl) fun _ _ => rfl
          · rw [hlook]
            exact h
      | @covered a as s ss o ho hcov hmir hal =>
          obtain ⟨hstep, -, -, -⟩ := stepActions_ok hcov.baked
          have hsc := hss s List.mem_cons_self
          have hlater : ∀ t ∈ ss, t ∈ c.steps := fun t ht => hss t (List.mem_cons_of_mem _ ht)
          have hne : ∀ t ∈ ss, t.n ≠ s.n := fun t ht he =>
            (List.nodup_cons.mp hn).1 (he ▸ List.mem_map_of_mem ht)
          have hmarked : (f (c.marker s.n)).isSome = true := by
            obtain ⟨ms, -, hmarker, -⟩ := hmir.markers
            rw [hstep, hmarker]
            rfl
          obtain ⟨report, w₁, w₂, hundo, hheld, hrest, hhand, hhosts, hlook⟩ :=
            revert_undone hs.toKeeping ho hrev
          obtain ⟨hhand₁, hhosts₁, halike, hgone⟩ := undo_alike (l := l) hs hh hsc (hap s hsc) hr hforce hid hcov
            hmir (hready.1 hmarked) h hundo hheld
          rw [hhand₁] at hhand
          obtain ⟨hmarkers, hsnapshots⟩ := others_kept (l := l) (f := f) hh hsc
          obtain ⟨hrestAlike, hrestGone⟩ := ih (w := w₂) (f := (s.cmd m c l).after f)
            (by simp only [List.length_cons] at hk; omega) hlater hn.of_cons
            (by rw [hhand]; exact hr) (by rw [hhand]; exact hforce) (by rw [hhand]; exact hid)
            (by
              rw [hhand, hhosts, hhosts₁]
              refine hal.later (fun t ht key he => Assoc.get_erase_ne _ fun hkey => ?_)
                (fun t ht => hmarkers _ (hne t ht)) hsnapshots
              exact hne t ht (he.symm.trans ((congrArg Prod.fst hkey).trans hstep.symm)))
            hready.2 (by rw [hlook]; exact halike) hrest
          rw [List.map_cons, after_block_cons]
          refine ⟨hrestAlike, fun t ht => ?_⟩
          rcases List.mem_cons.mp ht with rfl | ht
          · exact ((sections_fades (n := t.n) hh hlater).after _).elim (fun he => he.trans hgone) id
          · exact hrestGone t ht

/-- Applications and sections are aligned where both are in order, each application of an
op has its section and each section of a step that was not applied has no marker. -/
theorem aligned_of {k : Nat} (hk : as.length + ss.length ≤ k) (has : (as.map AppliedStep.step).Pairwise (· > ·))
    (hss : (ss.map Step.n).Pairwise (· > ·)) (hop : ∀ s ∈ ss, r.opAt s.n ≠ none)
    (hcov : ∀ a ∈ as, ∀ o, r.opAt a.step = some o →
      ∃ s ∈ ss, Covers E host hosts r a o s ∧ Mirrored c r a o s f)
    (hnone : ∀ s ∈ ss, (∀ a ∈ as, a.step ≠ s.n) → f (c.marker s.n) = none) :
    Aligned E c host hosts r f as ss := by
  induction k generalizing as ss with
  | zero =>
      obtain ⟨rfl, rfl⟩ : as = [] ∧ ss = [] := by simpa using hk
      exact .nil
  | succ k ih =>
      cases as with
      | nil =>
          cases ss with
          | nil => exact .nil
          | cons s ss =>
              have hf := hnone s List.mem_cons_self fun _ ha => (List.not_mem_nil ha).elim
              refine .unmarked hf (ih (by simp at hk ⊢; omega) has hss.of_cons ?_ ?_ ?_)
              · exact fun t ht => hop t (List.mem_cons_of_mem _ ht)
              · exact fun _ ha => (List.not_mem_nil ha).elim
              · exact fun t ht => hnone t (List.mem_cons_of_mem _ ht)
      | cons a as =>
          cases ho : r.opAt a.step with
          | none =>
              refine .passed ho (ih (by simp at hk ⊢; omega) has.of_cons hss hop ?_ fun s hs hb => ?_)
              · exact fun b hb => hcov b (List.mem_cons_of_mem _ hb)
              · refine hnone s hs fun b hm => ?_
                rcases List.mem_cons.mp hm with rfl | hm
                · exact fun he => hop s hs (he ▸ ho)
                · exact hb b hm
          | some o =>
              obtain ⟨t, ht, hcovers, hmir⟩ := hcov a List.mem_cons_self o ho
              have hstep : t.n = a.step := (stepActions_ok hcovers.baked).1
              have hlt : ∀ b ∈ as, b.step < a.step := fun b hb =>
                (List.pairwise_cons.mp has).1 _ (List.mem_map_of_mem hb)
              cases ss with
              | nil => cases ht
              | cons s ss =>
                  have hbelow : ∀ u ∈ ss, u.n < s.n := fun u hu =>
                    (List.pairwise_cons.mp hss).1 _ (List.mem_map_of_mem hu)
                  have hinner : ∀ {b : AppliedStep}, b.step < s.n → ∀ o, (∃ u ∈ s :: ss,
                      Covers E host hosts r b o u ∧ Mirrored c r b o u f) →
                      ∃ u ∈ ss, Covers E host hosts r b o u ∧ Mirrored c r b o u f := by
                    rintro b hb o ⟨u, hu, hcu⟩
                    rcases List.mem_cons.mp hu with rfl | hu
                    · exact absurd ((stepActions_ok hcu.1.baked).1 ▸ hb) (Nat.lt_irrefl _)
                    · exact ⟨u, hu, hcu⟩
                  have hop' : ∀ u ∈ ss, r.opAt u.n ≠ none := fun u hu => hop u (List.mem_cons_of_mem _ hu)
                  rcases List.mem_cons.mp ht with rfl | ht
                  · refine .covered ho hcovers hmir (ih (by simp at hk ⊢; omega) has.of_cons hss.of_cons hop' ?_ ?_)
                    · exact fun b hb o' ho' => hinner (hstep ▸ hlt b hb) o' (hcov b (List.mem_cons_of_mem _ hb) o' ho')
                    · refine fun u hu hb => hnone u (List.mem_cons_of_mem _ hu) fun b hm => ?_
                      rcases List.mem_cons.mp hm with rfl | hm
                      · exact fun he => absurd (hbelow u hu) (by rw [hstep, he]; exact Nat.lt_irrefl _)
                      · exact hb b hm
                  · have hs : a.step < s.n := hstep ▸ hbelow t ht
                    have hle : ∀ b ∈ a :: as, b.step < s.n := by
                      intro b hb
                      rcases List.mem_cons.mp hb with rfl | hb
                      · exact hs
                      · exact Nat.lt_trans (hlt b hb) hs
                    refine .unmarked (hnone s List.mem_cons_self fun b hb => Nat.ne_of_lt (hle b hb))
                      (ih (by simp at hk ⊢; omega) has hss.of_cons hop' ?_ ?_)
                    · exact fun b hb o' ho' => hinner (hle b hb) o' (hcov b hb o' ho')
                    · exact fun u hu => hnone u (List.mem_cons_of_mem _ hu)

end

/-! ## A rendered artifact -/

/-- Each covered step of a sh artifact is its op baked for the host. -/
theorem baked_of_render {site : Site} {p : Plan} {inst : Instance} {b : Bindings} {art : Artifact}
    (h : render site p host.name inst b = .ok art) (hsite : hostRecord site host.name = some host.record)
    (hsh : art.context.language = .sh) {n : Nat} (hn : n ∈ coveredSteps p) {o : Op}
    (ho : (leafAt p.body n).bind opOf = some o) :
    ∃ s ∈ art.context.steps, stepActions n o .posix host.record b = .ok s := by
  unfold render at h
  split at h
  next bs cov hbs hcov =>
    have hcovered : coveredSteps p = targetUndoSteps p.body := by
      unfold coveredSteps coverage
      rw [hbs]
      rfl
    split at h
    · cases h
    · rw [hsite] at h
      dsimp only at h
      split at h
      next hsupported =>
        obtain ⟨ss, hss, h⟩ := ok_of_bind h
        obtain ⟨quotations, -, h⟩ := ok_of_bind h
        cases h
        have hposix : shellOf host.record.os = .posix := by
          have hlang : languageOf host.record = .sh := hsh
          rw [hlang] at hsupported
          exact of_decide_eq_true hsupported
        have hmem : (n, o) ∈ (coveredOps p).reverse := List.mem_reverse.mpr
          (List.mem_filterMap.mpr ⟨n, hcovered ▸ hn, by rw [ho]; rfl⟩)
        obtain ⟨s, hg, hs⟩ := gives_mapM.mp ⟨ss, hss, fun _ hs => hs⟩ _ hmem
        exact ⟨s, hs, hposix ▸ hg⟩
      next => cases h
  next => cases h

/-- A step is numbered by its leaf. -/
theorem coveredSteps_sorted (p : Plan) : (coveredSteps p).Pairwise (· < ·) := by
  have hsorted : (targetUndoSteps p.body).Pairwise (· < ·) := by
    refine List.Pairwise.filterMap _ (fun x y hxy m hm k hk => ?_) (List.pairwise_map.mp (sorted_numbered p.body))
    have hm : m = x.1 := by
      split at hm
      · split at hm
        · exact (Option.some.inj hm).symm
        · cases hm
      · cases hm
    have hk : k = y.1 := by
      split at hk
      · split at hk
        · exact (Option.some.inj hk).symm
        · cases hk
      · cases hk
    rw [hm, hk]
    exact hxy
  unfold coveredSteps coverage
  cases p.backstop with
  | none => exact List.Pairwise.nil
  | some b => exact hsorted

theorem op_of_covered {p : Plan} {n : Nat} (h : n ∈ coveredSteps p) : ((leafAt p.body n).bind opOf).isSome = true := by
  unfold coveredSteps coverage at h
  cases hb : p.backstop with
  | none =>
      rw [hb] at h
      cases h
  | some b =>
      rw [hb] at h
      exact op_of_targetUndo h

/-! ## Either way -/

/-- An instance a revert can undo on its host: each application of an op is one of a
covered step, the steps are in order, and record and target say the same. -/
structure Revertible (E : Setting σ) (c : Context) (host : Host) (look : σ → Tree) (w : World σ) : Prop where
  rehearsal : w.hand.rehearsal = false
  force : w.hand.forceDrift = false
  order : (w.hand.applied.map AppliedStep.step).Pairwise (· < ·)
  covered : ∀ a ∈ w.hand.applied, ∀ o, w.hand.opAt a.step = some o →
    a.step ∈ coveredSteps w.hand.plan ∧ o.undo.isNone = false ∧ stepHost E w.hosts w.hand o = .ok host ∧
      HarmlessUndo o host (envFor w.hand a.vars) ∧
      ∀ e ∈ o.footprint, e.kind = .region → runtimeBound e.shape = false
  mirrored : ∀ a ∈ w.hand.applied, ∀ o, w.hand.opAt a.step = some o → ∀ s ∈ c.steps, s.n = a.step →
    Mirrored c w.hand a o s (look w.out)
  unapplied : ∀ n ∈ coveredSteps w.hand.plan, (∀ a ∈ w.hand.applied, a.step ≠ n) →
    look w.out (c.marker n) = none

/-- **Either way.**  From the same files, let the engine's revert come to its end, or let
the artifact fire: the files end up the same but for the instance directory and the
temporary names, and no covered step keeps its marker. -/
theorem either_way {art : Artifact} {l : Lock} {now : Nat}
    (hart : renderArtifact w.hand.ir w.hand.params host w.hand.id = .ok art)
    (hsite : hostRecord w.hand.ir.site host.name = some host.record) (hsh : art.context.language = .sh)
    (hs : Serving E L m art.context host look) (hh : Housed m art.context)
    (hap : ∀ s ∈ art.context.steps, Apart art.context s) (hrev : Revertible E art.context host look w)
    (hready : Readied m art.context l art.context.steps (look w.out))
    (hfired : look w.out (art.context.file "fired") = none)
    (hdue : due m art.context now (look w.out) = true) (hl : l ≠ .late)
    (hclean : revertLoop E w.hand.applied.reverse w = (.ok true, w')) :
    Only (Margin art.context) (look w'.out) ((firing m art.context now l).after (look w.out)) ∧
      ∀ s ∈ art.context.steps, (firing m art.context now l).after (look w.out) (art.context.marker s.n) = none := by
  have hsteps : art.context.steps.map Step.n = (coveredSteps w.hand.plan).reverse := (steps_rendered hart).1
  have hinst := (steps_rendered hart).2
  have hmem : ∀ s ∈ art.context.steps, s.n ∈ coveredSteps w.hand.plan := fun s hs => by
    rw [← List.mem_reverse, ← hsteps]
    exact List.mem_map_of_mem hs
  have hbaked : ∀ a ∈ w.hand.applied, ∀ o, w.hand.opAt a.step = some o → ∃ s ∈ art.context.steps,
      Covers E host w.hosts w.hand a o s ∧ Mirrored art.context w.hand a o s (look w.out) := by
    intro a ha o ho
    obtain ⟨hn, hundo, hhost, hharmless, hregions⟩ := hrev.covered a ha o ho
    obtain ⟨s, hs, hstep⟩ := baked_of_render hart hsite hsh hn ho
    exact ⟨s, hs, ⟨hundo, hhost, hstep, hharmless, hregions⟩,
      hrev.mirrored a ha o ho s hs (stepActions_ok hstep).1⟩
  have hal : Aligned E art.context host w.hosts w.hand (look w.out) w.hand.applied.reverse art.context.steps := by
    refine aligned_of (Nat.le_refl _) ?_ ?_ ?_ ?_ ?_
    · rw [List.map_reverse, List.pairwise_reverse]
      exact hrev.order
    · rw [hsteps, List.pairwise_reverse]
      exact coveredSteps_sorted _
    · exact fun s hs => Option.isSome_iff_ne_none.mp (op_of_covered (hmem s hs))
    · exact fun a ha => hbaked a (List.mem_reverse.mp ha)
    · exact fun s hs ha => hrev.unapplied s.n (hmem s hs) fun a h => ha a (List.mem_reverse.mpr h)
  obtain ⟨halike, hgone⟩ := revert_alike hs hh hap (Nat.le_refl _) (fun _ hs => hs) hh.distinct hrev.rehearsal
    hrev.force (by rw [hinst]) hal hready (refl_of (Only _) _) hclean
  rw [firing_after hfired hdue hl, sections, after_seq, overwrite, into_after (hh.writable _ inside_file)]
  refine ⟨trans_of (Only _) halike (Only.update (Or.inl inside_file)), fun s hs => ?_⟩
  rw [Function.update_of_ne marker_ne_fired]
  exact hgone s hs

end

/-! ## One file, undone either way -/

namespace OneFile

/-- A machine on which every path can be written and no command does a thing. -/
def quiet : Local.Machine where
  shell _ _ _ g := (.ok ⟨0, [], []⟩, g)
  writable _ := true
  why _ := ""

def web : Host := { smallHost "web" with rescindRoot := some "/r" }

/-- What a program over the files answers the engine. -/
def answered {α : Type} : Res String α × Tree → Option (Except String α) × Tree
  | (.ok a, g) => (some (.ok a), g)
  | (.err e, g) => (some (.error e), g)
  | (.died, g) => (none, g)

/-- The target as the engine's executor serves it. -/
def served : Setting Tree :=
  { setting with
    sha256 := fun bytes => String.ofList (Bytes.lossy bytes)
    outside := {
      answer := fun k q => match q with
        | .readFact _ _ shape => answered (Local.readFact shape k)
        | .run _ _ _ body => answered (Local.runBody quiet (context .clobber).dir body k)
        | .removeFile _ _ _ rel => (some (.ok ()), Function.update k ((context .clobber).file rel) none)
        | .hostLock _ _ => (some (.ok ()), k)
        | .observe _ _ _ _ => (some (.error "no probe"), k)
        | q => setting.outside.answer k q } }

theorem answered_ok {α : Type} {x : Res String α × Tree} {a : α} {g : Tree}
    (h : answered x = (some (.ok a), g)) : x = (.ok a, g) := by
  unfold answered at h
  split at h <;> cases h
  rfl

theorem serving : Serving served quiet machine (context .clobber) web id where
  replaced h := (keeping web).replaced h
  refused h := (keeping web).refused h
  got h := (keeping web).got h
  home {k q} hq := by cases q <;> first | rfl | cases hq
  writable _ _ := rfl
  command _ _ _ _ _ _ _ h hshell _ := by
    cases hshell
    exact h
  digest t := by
    show t = (String.ofList (Bytes.lossy (Bytes.ofText t))).toList
    rw [String.toList_ofList, Bytes.lossy_ofText]
  locked h := by
    cases h
    rfl
  observed h := by
    cases h
    rfl
  told h := answered_ok h
  ran h := answered_ok h
  removed h := by
    cases h
    exact Only.update inside_file

/-- The step was applied, and its file was changed since. -/
def drifted : World Tree where
  out := files "mine"
  hosts := [("web", web)]
  hand := { id := "i", ir := plan, params := [], state := .reverting, permanent := false, rehearsal := false
            applied := [⟨1, 0, []⟩], dirs := ["web"]
            markers := [((1, []), [⟨.modified, "/etc/f", "new"⟩])]
            snapshots := [(((1, []), 0), "old")] }

def reverted : World Tree := (revertLoop served drifted.hand.applied.reverse drifted).2

theorem run_reverted : revertLoop served drifted.hand.applied.reverse drifted = (.ok true, reverted) := by
  refine Prog.eq_of_fst ?_
  have h : wasRead (revertLoop served drifted.hand.applied.reverse drifted).1 = true := by decide +kernel
  unfold wasRead at h
  split at h
  next b he => rw [he, h]
  next => cases h

theorem revertible : Revertible served (context .clobber) web id drifted where
  rehearsal := rfl
  force := rfl
  order := List.pairwise_singleton _ _
  covered := by
    intro a ha o ho
    rw [List.mem_singleton.mp ha] at ho ⊢
    cases ho
    exact ⟨by decide +kernel, rfl, rfl, trivial, fun e he hk => by
      rw [List.mem_singleton.mp he] at hk
      cases hk⟩
  mirrored := by
    intro a ha o ho s hs _
    rw [List.mem_singleton.mp ha] at ho ⊢
    rw [List.mem_singleton.mp hs]
    cases ho
    refine ⟨⟨[⟨.modified, "/etc/f", "new"⟩], rfl, by decide +kernel, ?_, List.nodup_singleton _, ?_⟩, ?_⟩
    · intro mk hmk
      rw [List.mem_singleton.mp hmk]
      have hplain : ("/etc/f".toList.all fun c => decide (Text.blank c = false)) = true := by decide
      exact ⟨.of_all (by decide) (by decide), by decide, by decide,
        fun c hc => of_decide_eq_true (List.all_eq_true.mp hplain c hc)⟩
    · intro p hp
      rw [List.mem_singleton.mp hp]
      exact List.mem_cons_self
    · intro k e he _
      have hk : k = 0 := by
        by_contra hne
        rw [List.getElem?_eq_none (Nat.one_le_iff_ne_zero.mpr hne)] at he
        cases he
      rw [hk]
      exact ⟨"old", rfl, by decide +kernel⟩
  unapplied := by
    intro n hn hnot
    have hone : coveredSteps drifted.hand.plan = [1] := by decide +kernel
    rw [hone] at hn
    exact absurd (List.mem_singleton.mp hn).symm (hnot ⟨1, 0, []⟩ List.mem_cons_self)

theorem either_restored : ∃ art : Artifact, art.context = context .clobber ∧
    Only (Margin art.context) reverted.out ((firing machine art.context 9 .held).after (files "mine")) ∧
    ∀ s ∈ art.context.steps,
      (firing machine art.context 9 .held).after (files "mine") (art.context.marker s.n) = none := by
  obtain ⟨art, hart, hc⟩ := context_rendered
  have hrendered : renderArtifact drifted.hand.ir drifted.hand.params web drifted.hand.id = .ok art := hart
  have hready : Readied machine (context .clobber) .held (context .clobber).steps (files "mine") := by
    refine ⟨fun _ => ⟨fun x hx hk => ?_, trivial, trivial⟩, trivial⟩
    rw [List.mem_singleton.mp hx] at hk
    cases hk
  have hout : "/etc/f" ∉ Margin (context .clobber) := by
    rintro (h | ⟨q, hq⟩)
    · exact ((housed .clobber).paths _ List.mem_cons_self _ List.mem_cons_self _ rfl).1 h
    · have hlast := congrArg (fun s : String => s.toList.getLast?) hq
      simp [tmpOf] at hlast
  have hapart : ∀ s ∈ (context .clobber).steps, Apart (context .clobber) s := by
    intro s hs
    rw [List.mem_singleton.mp hs]
    refine ⟨fun a ha p hp => ?_, fun x hx => ?_⟩
    · rw [List.mem_singleton.mp ha] at hp
      cases hp
      exact hout
    · rw [List.mem_singleton.mp hx]
      exact hout
  exact ⟨art, hc, @either_way Tree served quiet machine web id drifted reverted art .held 9 hrendered (by decide)
    (by rw [hc]; decide) (hc ▸ serving) (hc ▸ housed .clobber) (hc ▸ hapart) (hc ▸ revertible) (hc ▸ hready)
    (by rw [hc]; decide +kernel) (by rw [hc]; decide +kernel) (by decide) run_reverted⟩

/-- Both put back the file that was there. -/
example : reverted.out "/etc/f" = some "old".toList := by decide +kernel

end OneFile

end Rescind.Render
