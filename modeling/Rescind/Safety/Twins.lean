/-
# `Rescind.Safety.Twins` — two ways to undo a step

An undo is written twice: as the body the engine hands to an executor and as the
actions of the artifact.  Over the same files, and where both come to the fences as
they should stand, the two leave the same files, but for the instance directory and
the temporary names, which are each one's own.

    an action and its primitive                           (`Twin.alike`)
    a body and the actions of a step                      (`bodies_alike`)

A command does the same to the same files, whoever runs it, and the fences are the
three places' of `Rescind.Safety.Fences`.
-/
import Rescind.Bindings.Local
import Rescind.Lib.Finishes
import Rescind.Safety.Fences
import Rescind.Safety.Restarts

namespace Rescind.Render

open Lib Lib.Cmd
open Lib.Prog (bind_ok_inv failIf_ok)

/-! ## Twins -/

/-- The instance directory, and the temporary names. -/
def Margin (c : Context) : Set String := { p | Inside c p ∨ ∃ q, p = tmpOf q }

/-- An action of step `n` and the primitive of the engine's body that does the same;
what is put back is what the snapshot holds. -/
inductive Twin (c : Context) (n : Nat) (f : Tree) : Action → RPrim → Prop
  | remove {p shape : String} (hp : filePath shape = some p) : Twin c n f (.remove p) (.remove shape)
  | strip {p shape anchor : String} {k : Nat} (hp : filePath shape = some p) :
      Twin c n f (.stripRegion p anchor k) (.regionClear shape (some anchor))
  | restore {p shape text : String} {k : Nat} {b : Bool} (hp : filePath shape = some p)
      (hs : f (c.snapshot n k) = some text.toList) :
      Twin c n f (.restoreSnapshot p k) (.write shape ⟨text, b⟩)
  | run {baked cmd : String} {b : Bool} (hr : Shell.read baked.toList = Shell.read cmd.toList) :
      Twin c n f (.run baked) (.run ⟨cmd, b⟩ [] none)
  | call {baked cmd name : String} {b : Bool} (hr : Shell.read baked.toList = Shell.read cmd.toList) :
      Twin c n f (.run baked) (.call name ⟨cmd, b⟩)
  | write {p shape text : String} {b : Bool} (hp : filePath shape = some p) :
      Twin c n f (.write p text) (.write shape ⟨text, b⟩)
  | append {p shape line : String} {b : Bool} (hp : filePath shape = some p) :
      Twin c n f (.append p line) (.append shape ⟨line, b⟩)
  | set {p shape anchor text : String} {b : Bool} (hp : filePath shape = some p) :
      Twin c n f (.regionSet p anchor text) (.regionSet shape (some anchor) ⟨text, b⟩)
  | clear {p shape anchor : String} (hp : filePath shape = some p) :
      Twin c n f (.regionClear p anchor) (.regionClear shape (some anchor))

/-- What the two go by differently does not matter here: a fence stands, or the text
that is added to ends with its line. -/
def Fits (m : Machine) (f : Tree) : Action → Prop
  | .stripRegion p anchor _ | .regionClear p anchor => ∃ t, f p = some t ∧ Fences.Marked m.awk t anchor
  | .append p _ => Text.ended ((f p).getD []) = true
  | .regionSet p anchor _ => ∃ t, f p = some t ∧
      (Fences.Marked m.awk t anchor ∨ Fences.Damaged t anchor ∧ Text.ended t = true)
  | _ => True

/-- The machine of the engine's executor is that of the artifact, and what a command
does goes by what the shell reads of it and not by the margin. -/
structure OneHost (L : Local.Machine) (m : Machine) (c : Context) : Prop where
  writable : ∀ p, L.writable p = true → m.writable p = true
  command : ∀ baked cmd g f ran g', Shell.read baked.toList = Shell.read cmd.toList → Only (Margin c) g f →
    L.shell cmd [] none g = (.ok ran, g') → ran.code = 0 → Only (Margin c) g' (m.command baked f)

section
variable {L : Local.Machine} {m : Machine} {c : Context} {n : Nat} {f g g' : Tree} {p : String}
  {t : List Char}

theorem tmp_margin : tmpOf p ∈ Margin c := Or.inr ⟨p, rfl⟩

/-- A text moved into place from its temporary name. -/
theorem moved_only (v w : Option (List Char)) : Only (Margin c) (Function.update g p (some t))
    (Function.update (Function.update (Function.update g (tmpOf p) v) (tmpOf p) w) p (some t)) := by
  intro q hq
  have hne : q ≠ tmpOf p := fun h => hq (h ▸ tmp_margin)
  by_cases hqp : q = p
  · rw [hqp, Function.update_self, Function.update_self]
  · rw [Function.update_of_ne hqp, Function.update_of_ne hqp, Function.update_of_ne hne,
      Function.update_of_ne hne]

/-! ## What the executor leaves -/

theorem pathOf_ok {shape : String} {q : String} (hp : filePath shape = some p)
    (h : Local.pathOf shape g = (.ok q, g')) : q = p ∧ g' = g := by
  rw [Local.pathOf, hp] at h
  cases h
  exact ⟨rfl, rfl⟩

/-- What was written is there, and nothing else has changed but the temporary name. -/
theorem writeAtomic_ok (h : Local.writeAtomic L p t g = (.ok (), g')) :
    L.writable (tmpOf p) = true ∧ L.writable p = true ∧
      Only (Margin c) (Function.update g p (some t)) g' := by
  unfold Local.writeAtomic at h
  obtain ⟨_, g₁, ht, h₁⟩ := bind_ok_inv h
  obtain ⟨_, g₂, he, h₂⟩ := bind_ok_inv h₁
  obtain ⟨_, g₃, hp, h₃⟩ := bind_ok_inv h₂
  obtain ⟨hwt, rfl⟩ := failIf_ok ht
  cases he
  obtain ⟨hwp, rfl⟩ := failIf_ok hp
  cases h₃
  exact ⟨by simpa using hwt, by simpa using hwp, moved_only _ _⟩

theorem remove_ok (h : Local.remove L p g = (.ok (), g')) :
    (g p = none ∧ g' = g) ∨ L.writable p = true ∧ g' = Function.update g p none := by
  unfold Local.remove at h
  obtain ⟨there, g₁, hr, h⟩ := bind_ok_inv h
  cases hr
  dsimp only at h
  cases hg : g p with
  | none =>
      rw [hg] at h
      cases h
      exact Or.inl ⟨rfl, rfl⟩
  | some s =>
      rw [hg] at h
      obtain ⟨_, g₂, hw, he⟩ := bind_ok_inv (m := Prog.failIf _ _) h
      obtain ⟨hwp, rfl⟩ := failIf_ok hw
      cases he
      exact Or.inr ⟨by simpa using hwp, rfl⟩

/-! ## What the artifact leaves -/

theorem into_status {old out : Tree → List Char} (hw : m.writable p = true) :
    (into m p old out).status f = true := by
  show (if m.writable p then _ else _ : Bool × Tree).1 = _
  rw [if_pos hw]

theorem mv_status {q : String} (hp : f p = some t) (hw : (m.writable p && m.writable q) = true) :
    (mv m p q).status f = true := by
  unfold mv Cmd.status Cmd.run
  simp only [hp, if_pos hw]

variable (hw : m.writable p = true) (ht : m.writable (tmpOf p) = true)
include hw ht

/-- Output moved into place is there. -/
theorem replace_done (out : Tree → List Char) : (replace m p out).status f = true ∧
    Only (Margin c) (Function.update f p (some (out f))) ((replace m p out).after f) := by
  have hmoved : (overwrite m (tmpOf p) out).after f (tmpOf p) = some (out f) := by
    rw [overwrite, into_after ht, Function.update_self]
    rfl
  have hstatus : (overwrite m (tmpOf p) out).status f = true := into_status ht
  have hboth : (m.writable (tmpOf p) && m.writable p) = true := by rw [ht, hw]; rfl
  refine ⟨?_, ?_⟩
  · rw [replace, Cmd.andThen, status_cond, if_pos hstatus]
    exact mv_status hmoved hboth
  · rw [replace, Cmd.andThen, after_cond, if_pos hstatus, mv_after hmoved hboth, overwrite, into_after ht]
    exact moved_only _ _

/-- A fence that stands is stripped, as the engine strips it. -/
theorem strip_done {t' : List Char} {anchor : String} (hf : f p = some t) (hm : Fences.Marked m.awk t anchor)
    (hs : regionStrip t anchor = some t') : (stripRegionOf m p anchor).status f = true ∧
      Only (Margin c) (Function.update f p (some t')) ((stripRegionOf m p anchor).after f) := by
  obtain ⟨-, hsame⟩ := Fences.stripped_iff.mpr (Or.inl hm)
  have hintact : regionIntact t anchor = true := hm.once.2
  have hprinted : printed m.awk t anchor = t' := by
    rw [hs, stripRegion, if_pos hintact] at hsame
    exact Option.some.inj hsame
  have htest : ((f p).any fun s => regionIntact s anchor) = true := by
    rw [hf]
    exact hintact
  have hdone := replace_done (c := c) (f := f) hw ht fun f => (f p).elim [] fun s => printed m.awk s anchor
  rw [hf, Option.elim_some, hprinted] at hdone
  rw [stripRegionOf, Cmd.andThen, status_cond, after_cond, status_test, if_pos htest, if_pos htest]
  exact hdone

/-- What was put by is put back. -/
theorem restore_done {q : String} (hf : f q = some t) :
    Only (Margin c) (Function.update f p (some t)) ((restore m q p).after f) := by
  have htest : (f q).isSome = true := by rw [hf]; rfl
  have hcopied : (cp m q (tmpOf p)).after f = Function.update f (tmpOf p) (some t) := by
    rw [cp, Cmd.andThen, after_cond, status_test, if_pos htest, after_test, overwrite, into_after ht, hf]
    rfl
  have hstatus : (cp m q (tmpOf p)).status f = true := by
    rw [cp, Cmd.andThen, status_cond, status_test, if_pos htest]
    exact into_status ht
  have hboth : (m.writable (tmpOf p) && m.writable p) = true := by rw [ht, hw]; rfl
  rw [restore, Cmd.andThen, after_cond, if_pos hstatus, hcopied,
    mv_after (Function.update_self ..) hboth]
  exact moved_only _ _

omit hw ht

/-- Files that agree do so once one of them is set alike. -/
theorem set_alike {f' : Tree} {v : Option (List Char)} (h : Only (Margin c) g f)
    (hg : Only (Margin c) (Function.update g p v) g') (hf : Only (Margin c) (Function.update f p v) f') :
    Only (Margin c) g' f' :=
  trans_of (Only (Margin c)) hg.symm
    (trans_of (Only (Margin c)) (Only.assigned (h.mono Set.subset_union_left)) hf)

/-! ## An action and its primitive -/

section
variable {dir : String} {secrets : List String} {outs outs' : Local.Output} {shape : String}

/-- A primitive that writes one text. -/
theorem written_alike (hone : OneHost L m c) (h : Only (Margin c) g f) {f' : Tree} {v : List Char}
    (hrun : (do Local.writeAtomic L p v; pure outs : Prog Tree String Local.Output) g = (.ok outs', g'))
    (hf : m.writable p = true → m.writable (tmpOf p) = true →
      Only (Margin c) (Function.update f p (some v)) f') : Only (Margin c) g' f' := by
  obtain ⟨_, g₁, hwrite, he⟩ := bind_ok_inv hrun
  cases he
  obtain ⟨ht, hw, hg⟩ := writeAtomic_ok hwrite
  exact set_alike h hg (hf (hone.writable p hw) (hone.writable _ ht))

theorem removed_alike (hone : OneHost L m c) (hp : p ∉ Margin c) (h : Only (Margin c) g f)
    (hrun : Local.remove L p g = (.ok (), g')) : Only (Margin c) g' ((rm m p).after f) := by
  rcases remove_ok hrun with ⟨hnone, rfl⟩ | ⟨hw, rfl⟩
  · have hf : f p = none := (h p hp).trans hnone
    cases hw : m.writable p with
    | false => rwa [rm_after_unwritable hw]
    | true =>
        rw [rm_after hw, ← hf, Function.update_eq_self]
        exact h
  · rw [rm_after (hone.writable p hw)]
    exact set_alike h (refl_of (Only (Margin c)) _) (refl_of (Only (Margin c)) _)

theorem pathOf_bind {shape : String} (hp : filePath shape = some p) {k : String → Prog Tree String Local.Output}
    (h : (Local.pathOf shape >>= k) g = (.ok outs', g')) : k p g = (.ok outs', g') := by
  obtain ⟨q, g₁, hpath, hk⟩ := bind_ok_inv h
  obtain ⟨rfl, rfl⟩ := pathOf_ok hp hpath
  exact hk

theorem cleared_alike (hone : OneHost L m c) {anchor : String} (hp : filePath shape = some p)
    (hm : p ∉ Margin c) (h : Only (Margin c) g f) (hfit : Fits m f (.regionClear p anchor))
    (hrun : Local.prim L dir secrets outs (.regionClear shape (some anchor)) g = (.ok outs', g')) :
    (stripRegionOf m p anchor).status f = true ∧
      Only (Margin c) g' ((stripRegionOf m p anchor).after f) := by
  obtain ⟨t, hf, hmarked⟩ := hfit
  have hg : g p = some t := (h p hm).symm.trans hf
  obtain ⟨text, g₁, hread, hrun₁⟩ := bind_ok_inv (pathOf_bind hp hrun)
  cases hread
  dsimp only at hrun₁
  rw [hg, Option.getD_some, Option.getD_some] at hrun₁
  cases hs : regionStrip t anchor with
  | none =>
      rw [hs] at hrun₁
      cases hrun₁
  | some t' =>
      rw [hs] at hrun₁
      obtain ⟨_, g₂, hwrite, he⟩ := bind_ok_inv hrun₁
      cases he
      obtain ⟨ht, hw, hwritten⟩ := writeAtomic_ok hwrite
      obtain ⟨hstatus, hdone⟩ := strip_done (hone.writable p hw) (hone.writable _ ht) hf hmarked hs
      exact ⟨hstatus, set_alike h hwritten hdone⟩

theorem ran_alike (hone : OneHost L m c) {baked cmd : String} {b : Bool}
    (hr : Shell.read baked.toList = Shell.read cmd.toList) (h : Only (Margin c) g f)
    (hrun : Local.command L secrets ⟨cmd, b⟩ [] none outs g = (.ok outs', g')) :
    Only (Margin c) g' (m.command baked f) := by
  obtain ⟨ran, g₁, hshell, hret⟩ := bind_ok_inv hrun
  unfold Local.spawn at hshell
  rcases hs : L.shell cmd [] none g with ⟨_ | ran', g₂⟩
  · simp only [List.map_nil, Option.map_none, hs] at hshell
    cases hshell
  · simp only [List.map_nil, Option.map_none, hs] at hshell
    cases hshell
    rw [Local.took, Local.sh] at hret
    dsimp only at hret
    split at hret
    next => cases hret
    next hcode =>
      cases hret
      exact hone.command baked cmd g f ran _ hr h hs (not_not.mp hcode)

theorem appended_alike (hone : OneHost L m c) {line : String} {b : Bool} (hp : filePath shape = some p)
    (hm : p ∉ Margin c) (h : Only (Margin c) g f) (hfit : Text.ended ((f p).getD []) = true)
    (hrun : Local.prim L dir secrets outs (.append shape ⟨line, b⟩) g = (.ok outs', g')) :
    Only (Margin c) g' ((appendTo m p (line.toList ++ ['\n'])).after f) := by
  obtain ⟨text, g₁, hread, hrun₁⟩ := bind_ok_inv (pathOf_bind hp hrun)
  cases hread
  dsimp only at hrun₁
  rw [(h p hm).symm] at hrun₁
  have htext : Local.appended ((f p).getD []) line.toList = (f p).getD [] ++ (line.toList ++ ['\n']) := by
    rw [Text.ended] at hfit
    rw [Local.appended, if_pos hfit, List.append_assoc]
  rw [htext] at hrun₁
  refine written_alike hone h hrun₁ fun hw _ => ?_
  rw [appendTo, into_after hw]
  exact refl_of (Only (Margin c)) _

/-- A block that is set where a fence stands, or behind a text that ends with its line. -/
theorem put_done (hw : m.writable p = true) (ht : m.writable (tmpOf p) = true) (hm : p ∉ Margin c)
    {anchor : String} {content : List Char} (hf : f p = some t)
    (hfit : Fences.Marked m.awk t anchor ∨ Fences.Damaged t anchor ∧ Text.ended t = true) :
    Only (Margin c) (Function.update f p (some (regionPut t anchor content)))
      ((regionSetOf m p anchor content).after f) := by
  obtain ⟨hverdict, hstrip⟩ := Fences.stripped_iff.mpr (hfit.imp_right And.left)
  have hput := (Fences.put_eq_iff (c := content) hstrip).mpr (hfit.imp (fun h => h.once.1) And.right)
  have hleft : Only (Margin c) (Function.update f p (some ((stripRegion m.awk t anchor).getD t)))
      ((stripRegionOf m p anchor).after f) := by
    cases hs : regionStrip t anchor with
    | some t' =>
        have hmarked : Fences.Marked m.awk t anchor := by
          refine hfit.resolve_right fun hd => ?_
          rw [regionStrip, (Fences.damaged_iff.mp hd.1).1] at hs
          cases hs
        rw [hstrip, hs]
        exact (strip_done hw ht hf hmarked hs).2
    | none =>
        have htest : ((f p).any fun s => regionIntact s anchor) = false := by
          rw [hf, Option.any_some, hverdict]
          rw [regionStrip] at hs
          split at hs
          next => cases hs
          next hi => exact Bool.eq_false_iff.mpr hi
        rw [hstrip, hs, Option.getD_none, stripRegionOf, Cmd.andThen, after_cond, status_test, htest,
          if_neg Bool.false_ne_true, after_test, after_done, ← hf, Function.update_eq_self]
        exact refl_of (Only (Margin c)) _
  have hthere : ((stripRegionOf m p anchor).after f) p = some ((stripRegion m.awk t anchor).getD t) := by
    rw [hleft p hm, Function.update_self]
  have hdone := (replace_done (c := c) (f := (stripRegionOf m p anchor).after f) hw ht fun f =>
    (f p).getD [] ++ (beginMarker anchor ++ '\n' :: content ++ '\n' :: endMarker anchor ++ ['\n'])).2
  rw [hthere, Option.getD_some] at hdone
  rw [regionSetOf, after_seq, ← hput]
  refine set_alike hleft ?_ hdone
  rw [Function.update_idem]
  exact refl_of (Only (Margin c)) _

/-- An action leaves the files as its primitive does. -/
theorem Twin.alike (hone : OneHost L m c) {a : Action} {prim : RPrim} (htwin : Twin c n f a prim)
    (hm : ∀ p, a.path = some p → p ∉ Margin c) (hfit : Fits m f a) {l : Lock} {d : Drift}
    (h : Only (Margin c) g f) (hrun : Local.prim L dir secrets outs prim g = (.ok outs', g')) :
    Only (Margin c) g' ((a.cmd m c l d n).after f) := by
  cases htwin with
  | remove hp =>
      obtain ⟨_, g₁, hremove, he⟩ := bind_ok_inv (pathOf_bind hp hrun)
      cases he
      exact removed_alike hone (hm _ rfl) h hremove
  | strip hp =>
      obtain ⟨hstatus, hdone⟩ := cleared_alike hone hp (hm _ rfl) h hfit hrun
      rw [Action.cmd, Cmd.orElse, after_cond, if_pos hstatus]
      exact hdone
  | restore hp hs =>
      exact written_alike hone h (pathOf_bind hp hrun) fun hw ht => restore_done hw ht hs
  | run hr => exact ran_alike hone hr h hrun
  | call hr => exact ran_alike hone hr h hrun
  | write hp =>
      refine written_alike hone h (pathOf_bind hp hrun) fun hw _ => ?_
      rw [Action.cmd, overwrite, into_after hw]
      exact refl_of (Only (Margin c)) _
  | append hp => exact appended_alike hone hp (hm _ rfl) h hfit hrun
  | set hp =>
      obtain ⟨t, hf, hfence⟩ := hfit
      obtain ⟨text, g₁, hread, hrun₁⟩ := bind_ok_inv (pathOf_bind hp hrun)
      cases hread
      dsimp only at hrun₁
      rw [← h _ (hm _ rfl), hf, Option.getD_some, Option.getD_some] at hrun₁
      exact written_alike hone h hrun₁ fun hw ht => put_done hw ht (hm _ rfl) hf hfence
  | clear hp =>
      obtain ⟨hstatus, hdone⟩ := cleared_alike hone hp (hm _ rfl) h hfit hrun
      rw [Action.cmd, Cmd.orElse, after_cond, if_pos hstatus]
      exact hdone

/-! ## A step and its body -/

/-- Each action fits the files it comes to. -/
def Fitting (m : Machine) (c : Context) (l : Lock) (d : Drift) (n : Nat) : List Action → Tree → Prop
  | [], _ => True
  | a :: as, f => Fits m f a ∧ Fitting m c l d n as ((a.cmd m c l d n).after f)

theorem snapshot_not_outer {k : Nat} : c.snapshot n k ∉ Outer c := by
  rintro (h | h | h)
  · exact h inside_file
  · rw [Context.snapshot, file_inj] at h
    have := congrArg (fun s : String => s.toList.head?) h
    simp at this
  · exact snapshot_ne_clobbered h

theorem Twin.mono {f' : Tree} {a : Action} {prim : RPrim} (h : Twin c n f a prim)
    (hs : ∀ k, f' (c.snapshot n k) = f (c.snapshot n k)) : Twin c n f' a prim := by
  cases h with
  | restore hp ht => exact .restore hp ((hs _).trans ht)
  | remove hp => exact .remove hp
  | strip hp => exact .strip hp
  | run hr => exact .run hr
  | call hr => exact .call hr
  | write hp => exact .write hp
  | append hp => exact .append hp
  | set hp => exact .set hp
  | clear hp => exact .clear hp

/-- The actions of a step leave the files as the engine's body does. -/
theorem bodies_alike (hone : OneHost L m c) {as : List Action} {body : List RPrim}
    (htwins : List.Forall₂ (Twin c n f) as body) {l : Lock} {d : Drift}
    (hm : ∀ a ∈ as, ∀ p, a.path = some p → p ∉ Margin c)
    (honly : ∀ a ∈ as, (a.cmd m c l d n).Within (Only (Outer c))) (hfit : Fitting m c l d n as f)
    (h : Only (Margin c) g f)
    (hrun : Prog.loop (fun p outs => Local.prim L dir secrets outs p) body outs g = (.ok outs', g')) :
    Only (Margin c) g' ((block (as.map (Action.cmd m c l d n))).after f) := by
  induction as generalizing body f g outs with
  | nil =>
      cases htwins
      cases hrun
      exact h
  | cons a as ih =>
      cases htwins with
      | @cons _ prim _ rest htwin hrest =>
          obtain ⟨outs₁, g₁, hprim, hloop⟩ := bind_ok_inv (m := Local.prim L dir secrets outs prim) hrun
          have hfirst := htwin.alike (l := l) (d := d) hone (hm a List.mem_cons_self) hfit.1 h hprim
          have hkept := (honly a List.mem_cons_self).after f
          refine ih (hrest.imp fun _ _ ht => ht.mono fun k => hkept _ snapshot_not_outer) ?_ ?_ hfit.2
            hfirst hloop
          · exact fun b hb => hm b (List.mem_cons_of_mem _ hb)
          · exact fun b hb => honly b (List.mem_cons_of_mem _ hb)

end

end

end Rescind.Render
