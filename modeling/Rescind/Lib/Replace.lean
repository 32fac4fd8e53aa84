/-
# `Rescind.Lib.Replace` — putting something in the place of a pattern

Every occurrence of a pattern is replaced, from the left, none overlapping the
one before it.  What is put in may itself make occurrences: of a word that
*touches* it, one that occurs in a text around it with less than the word on
either side.

    a text is its pieces, with the pattern between them       (`replaced`)
    a word that does not touch is not made                    (`Replaced.kept`)
    a pattern that does not touch is gone                     (`Replaced.gone`)
    an occurrence with none before it is replaced first       (`replace_at`)
    a word that touches can be made                           (`replace_makes`)
-/
import Mathlib.Data.List.Basic
import Mathlib.Data.List.Infix

namespace Rescind.Lib

variable {α : Type}

/-- Overlapping occurrences are skipped: the number says how much of the last
one is still to come. -/
def replaceFrom [DecidableEq α] (s r : List α) : Nat → List α → List α
  | _, [] => []
  | skip + 1, _ :: xs => replaceFrom s r skip xs
  | 0, x :: xs =>
      if s.isPrefixOf (x :: xs) then r ++ replaceFrom s r (s.length - 1) xs
      else x :: replaceFrom s r 0 xs

/-- Each occurrence of `s` replaced by `r`. -/
def replace [DecidableEq α] (s r t : List α) : List α := replaceFrom s r 0 t

/-! ## Pieces -/

/-- A text and the text with `r` in the place of each `s`: pieces without `s`,
and the one or the other between them. -/
inductive Replaced (s r : List α) : List α → List α → Prop
  | last {x : List α} : ¬ s <:+: x → Replaced s r x x
  | step {x t t' : List α} : ¬ s <:+: x → Replaced s r t t' →
      Replaced s r (x ++ s ++ t) (x ++ r ++ t')

theorem not_infix_cons {s x : List α} {c : α} (h : ¬ s <+: c :: x) (hx : ¬ s <:+: x) :
    ¬ s <:+: c :: x := by
  intro hs
  rcases List.infix_cons_iff.mp hs with hp | hi
  · exact h hp
  · exact hx hi

/-- One more thing before the first piece. -/
theorem Replaced.cons {s r t t' : List α} {c : α} (h : Replaced s r t t')
    (hc : ¬ s <+: c :: t) : Replaced s r (c :: t) (c :: t') := by
  cases h with
  | last hx => exact .last (not_infix_cons hc hx)
  | @step x t t' hx ht =>
      have hcx : ¬ s <+: c :: x := by
        intro hp
        refine hc (hp.trans ⟨s ++ t, ?_⟩)
        rw [List.cons_append, List.append_assoc]
      exact .step (not_infix_cons hcx hx) ht

section

variable [DecidableEq α]

theorem replaceFrom_skip (s r : List α) (k : Nat) (t : List α) :
    replaceFrom s r k t = replaceFrom s r 0 (t.drop k) := by
  induction t generalizing k with
  | nil => cases k <;> simp [replaceFrom]
  | cons x t ih =>
      cases k with
      | zero => rfl
      | succ k => rw [replaceFrom, ih, List.drop_succ_cons]

/-- **A text is its pieces** with the pattern between them. -/
theorem replaced {s : List α} (hs : s ≠ []) (r t : List α) : Replaced s r t (replace s r t) := by
  have go : ∀ (t : List α) (k : Nat), Replaced s r (t.drop k) (replaceFrom s r k t) := by
    intro t
    induction t with
    | nil =>
        intro k
        rw [List.drop_nil]
        have hnil : ¬ s <:+: [] := fun h => hs (List.infix_nil.mp h)
        cases k with
        | zero => exact .last hnil
        | succ k => exact .last hnil
    | cons x t ih =>
        intro k
        cases k with
        | succ k => exact ih k
        | zero =>
            rw [List.drop_zero, replaceFrom]
            split
            next hp =>
              obtain ⟨t₁, ht⟩ := List.isPrefixOf_iff_prefix.mp hp
              obtain ⟨c, s', rfl⟩ := List.exists_cons_of_ne_nil hs
              rw [List.cons_append] at ht
              obtain ⟨rfl, rfl⟩ := List.cons.inj ht
              have h := ih s'.length
              rw [List.drop_left] at h
              exact .step (x := []) (fun h => hs (List.infix_nil.mp h)) h
            next hp => exact (ih 0).cons fun h => hp (List.isPrefixOf_iff_prefix.mpr h)
  exact go t 0

/-- Where the pattern is not, nothing changes. -/
theorem replace_of_absent {s : List α} (r : List α) {t : List α} (h : ¬ s <:+: t) :
    replace s r t = t := by
  rw [replace]
  induction t with
  | nil => rfl
  | cons x t ih =>
      have hp : ¬ s.isPrefixOf (x :: t) = true := fun hp =>
        h (List.isPrefixOf_iff_prefix.mp hp).isInfix
      rw [replaceFrom, if_neg hp, ih fun hi => h (List.infix_cons hi)]

/-- **An occurrence with none before it** is replaced first. -/
theorem replace_at {s : List α} (hs : s ≠ []) (r : List α) {u : List α} (v : List α)
    (h : ¬ s <:+: u ++ s.dropLast) : replace s r (u ++ s ++ v) = u ++ r ++ replace s r v := by
  rw [replace, replace]
  induction u with
  | nil =>
      obtain ⟨c, s, rfl⟩ := List.exists_cons_of_ne_nil hs
      have hp : (c :: s).isPrefixOf (c :: (s ++ v)) = true :=
        List.isPrefixOf_iff_prefix.mpr ⟨v, rfl⟩
      rw [List.nil_append, List.cons_append, replaceFrom, if_pos hp, replaceFrom_skip,
        List.length_cons, Nat.add_sub_cancel, List.drop_left]
      rfl
  | cons x u ih =>
      have hp : ¬ s.isPrefixOf (x :: (u ++ s ++ v)) = true := by
        intro hp
        have hcut : s.dropLast ++ s.drop (s.length - 1) = s := by
          rw [List.dropLast_eq_take, List.take_append_drop]
        have hpre : x :: u ++ s.dropLast <+: x :: (u ++ s ++ v) := by
          refine ⟨s.drop (s.length - 1) ++ v, ?_⟩
          rw [List.append_assoc, ← List.append_assoc s.dropLast, hcut, List.cons_append,
            List.append_assoc]
        refine h (List.IsPrefix.isInfix ?_)
        refine List.prefix_of_prefix_length_le (List.isPrefixOf_iff_prefix.mp hp) hpre ?_
        · rw [List.length_append, List.length_cons, List.length_dropLast]
          omega
      rw [List.cons_append, List.cons_append, replaceFrom, if_neg hp,
        ih fun hi => h (List.infix_cons hi)]
      rfl

end

/-! ## Words that touch what is put in -/

/-- The word occurs in a text around `r`, with less than the word on either
side. -/
def Touches (r w : List α) : Prop :=
  ∃ u v, u.length < w.length ∧ v.length < w.length ∧ w <:+: u ++ r ++ v

/-- How a word can occur in three texts after one another: on one side, or with
a part of it in the middle. -/
theorem infix_three {w x r y : List α} (h : w <:+: x ++ r ++ y) :
    w <:+: x ∨ w <:+: y ∨ ∃ u v, u.length < w.length ∧ v.length < w.length ∧
      w <:+: u ++ r ++ v := by
  rcases List.eq_nil_or_concat w with rfl | hw
  · exact .inl List.nil_infix
  have hw : 0 < w.length := by
    obtain ⟨w', z, rfl⟩ := hw
    simp
  obtain ⟨a, b, h⟩ := h
  rw [List.append_assoc, List.append_assoc] at h
  rcases List.append_eq_append_iff.mp h with ⟨c, rfl, h₁⟩ | ⟨c, rfl, h₁⟩
  · -- the word begins on the left
    rcases List.append_eq_append_iff.mp h₁ with ⟨e, rfl, -⟩ | ⟨e, rfl, h₂⟩
    · exact .inl ⟨a, e, by rw [List.append_assoc]⟩
    · by_cases hc : c.length < (c ++ e).length
      · rcases List.append_eq_append_iff.mp h₂ with ⟨f, rfl, rfl⟩ | ⟨f, rfl, -⟩
        · by_cases hf : f.length < (c ++ (r ++ f)).length
          · exact .inr (.inr ⟨c, f, hc, hf, ⟨[], [], by simp⟩⟩)
          · have hnil : c = [] ∧ r = [] := by
              rw [List.length_append, List.length_append] at hf
              exact ⟨List.eq_nil_of_length_eq_zero (by omega),
                List.eq_nil_of_length_eq_zero (by omega)⟩
            obtain ⟨rfl, rfl⟩ := hnil
            exact .inr (.inl ⟨[], b, by simp⟩)
        · exact .inr (.inr ⟨c, [], hc, hw, ⟨[], f, by simp⟩⟩)
      · have he : e = [] := by
          rw [List.length_append] at hc
          exact List.eq_nil_of_length_eq_zero (by omega)
        exact .inl ⟨a, [], by simp [he]⟩
  · -- it begins in the middle, or on the right
    rcases List.append_eq_append_iff.mp h₁ with ⟨e, rfl, rfl⟩ | ⟨e, rfl, h₂⟩
    · exact .inr (.inl ⟨e, b, by rw [List.append_assoc]⟩)
    · rcases List.append_eq_append_iff.mp h₂ with ⟨f, rfl, -⟩ | ⟨f, rfl, rfl⟩
      · exact .inr (.inr ⟨[], [], hw, hw, ⟨c, f, by simp⟩⟩)
      · by_cases hf : f.length < (e ++ f).length
        · exact .inr (.inr ⟨[], f, hw, hf, ⟨c, [], by simp⟩⟩)
        · have he : e = [] := by
            rw [List.length_append] at hf
            exact List.eq_nil_of_length_eq_zero (by omega)
          exact .inr (.inl ⟨[], b, by simp [he]⟩)

/-- A word that does not touch occurs on one side. -/
theorem infix_sides {w x r y : List α} (hw : ¬ Touches r w) (h : w <:+: x ++ r ++ y) :
    w <:+: x ∨ w <:+: y := by
  rcases infix_three h with hx | hy | ⟨u, v, hu, hv, hr⟩
  · exact .inl hx
  · exact .inr hy
  · exact absurd ⟨u, v, hu, hv, hr⟩ hw

/-- **A word that does not touch** what is put in is not made by it. -/
theorem Replaced.kept {s r t t' w : List α} (h : Replaced s r t t') (hw : ¬ Touches r w)
    (hi : w <:+: t') : w <:+: t := by
  induction h with
  | last _ => exact hi
  | @step x t t' _ _ ih =>
      rcases infix_sides hw hi with hx | ht
      · exact hx.trans ((List.prefix_append x s).trans (List.prefix_append (x ++ s) t)).isInfix
      · exact (ih ht).trans (List.suffix_append (x ++ s) t).isInfix

/-- **A pattern that does not touch** what is put in its place is gone. -/
theorem Replaced.gone {s r t t' : List α} (h : Replaced s r t t') (hs : ¬ Touches r s) :
    ¬ s <:+: t' := by
  induction h with
  | last hx => exact hx
  | step hx _ ih =>
      intro hi
      rcases infix_sides hs hi with hl | hr
      · exact hx hl
      · exact ih hr

/-! ## Making a word that touches -/

/-- A run of one thing, and its neighbours. -/
theorem getElem?_run {u v : List α} {c : α} {n j : Nat} (h : u.length ≤ j)
    (h' : j < u.length + n) : (u ++ List.replicate n c ++ v)[j]? = some c := by
  rw [List.append_assoc, List.getElem?_append_right h, List.getElem?_append_left,
    List.getElem?_replicate_of_lt]
  · omega
  · rw [List.length_replicate]
    omega

theorem getElem?_part {a s b : List α} {i : Nat} (h : i < s.length) :
    (a ++ s ++ b)[a.length + i]? = s[i]? := by
  rw [List.append_assoc, List.getElem?_append_right (by omega), Nat.add_sub_cancel_left,
    List.getElem?_append_left h]

/-- A run as long as the word keeps it from occurring, where neither of its ends
is of the run. -/
theorem not_infix_run {s u v : List α} {c : α} (hu : u.length < s.length)
    (hv : v.length < s.length) (hfirst : s[0]? ≠ some c) (hlast : s[s.length - 1]? ≠ some c) :
    ¬ s <:+: u ++ List.replicate s.length c ++ v := by
  rintro ⟨a, b, h⟩
  have hlen := congrArg List.length h
  simp only [List.length_append, List.length_replicate] at hlen
  by_cases ha : a.length < u.length
  · -- the end of the word is in the run
    have hend := getElem?_part (a := a) (b := b) (s := s) (i := s.length - 1) (by omega)
    rw [h, getElem?_run (by omega) (by omega)] at hend
    exact hlast hend.symm
  · have hstart := getElem?_part (a := a) (b := b) (s := s) (i := 0) (by omega)
    rw [h, getElem?_run (by omega) (by omega)] at hstart
    exact hfirst hstart.symm

/-- A run does not occur before its place, after something it does not go on
from. -/
theorem not_infix_short {u : List α} {c : α} {n : Nat} (hu : u.length < n)
    (hc : u[u.length - 1]? ≠ some c) : ¬ List.replicate n c <:+: u ++ List.replicate (n - 1) c := by
  rintro ⟨a, b, h⟩
  have hlen := congrArg List.length h
  simp only [List.length_append, List.length_replicate] at hlen
  have hrun := getElem?_run (u := a) (v := b) (c := c) (n := n) (j := u.length - 1)
    (by omega) (by omega)
  rw [h, List.getElem?_append_left (by omega)] at hrun
  exact hc hrun

/-- What is in no text is in none with one thing more on either side, at which it
neither begins nor ends. -/
theorem not_infix_between {s t : List α} {y z : α} (hne : s ≠ []) (hz : s[0]? ≠ some z)
    (hy : s[s.length - 1]? ≠ some y) (h : ¬ s <:+: t) : ¬ s <:+: z :: (t ++ [y]) := by
  refine not_infix_cons ?_ fun hi => ?_
  · rintro ⟨b, hb⟩
    cases s with
    | nil => exact hne rfl
    | cons x s => exact hz (congrArg some (List.cons.inj hb).1)
  · rcases List.infix_concat_iff.mp hi with ⟨a, ha⟩ | hi
    · have hlen := congrArg List.length ha
      have hpos := List.length_pos_of_ne_nil hne
      have hat : (a ++ s)[a.length + (s.length - 1)]? = s[s.length - 1]? := by
        rw [List.getElem?_append_right (by omega), Nat.add_sub_cancel_left]
      simp only [List.length_append, List.length_singleton] at hlen
      rw [ha, List.getElem?_append_right (by omega), show a.length + (s.length - 1) - t.length = 0 by omega]
        at hat
      exact hy hat.symm
    · exact h hi

/-- **A word that touches** what is put in can be made by it: another pattern, replaced
after the word was, stands where the word was not, with one thing more on either side. -/
theorem replace_makes [DecidableEq α] {s u v : List α} {c y z : α} (hu : u.length < s.length)
    (hv : v.length < s.length) (hfirst : s[0]? ≠ some c) (hlast : s[s.length - 1]? ≠ some c)
    (hend : u[u.length - 1]? ≠ some c) (hz : s[0]? ≠ some z) (hy : s[s.length - 1]? ≠ some y)
    (hzc : z ≠ c) (hyc : y ≠ c) (r : List α) :
    replace (List.replicate s.length c) r
        (replace s r (z :: u ++ List.replicate s.length c ++ (v ++ [y]))) =
      z :: u ++ r ++ (v ++ [y]) := by
  have hpos : 0 < s.length := by omega
  have hne : s ≠ [] := List.ne_nil_of_length_pos hpos
  have hk : List.replicate s.length c ≠ [] := by simpa using hne
  have htext : z :: u ++ List.replicate s.length c ++ (v ++ [y]) =
      z :: (u ++ List.replicate s.length c ++ v ++ [y]) := by simp
  have hword : ¬ s <:+: z :: u ++ List.replicate s.length c ++ (v ++ [y]) := by
    rw [htext]
    exact not_infix_between hne hz hy (not_infix_run hu hv hfirst hlast)
  have hbefore : ¬ List.replicate s.length c <:+: z :: u ++ (List.replicate s.length c).dropLast := by
    rw [List.dropLast_replicate]
    refine not_infix_cons ?_ (not_infix_short hu hend)
    rintro ⟨b, hb⟩
    obtain ⟨n, hn⟩ := Nat.exists_eq_succ_of_ne_zero hpos.ne'
    rw [hn, List.replicate_succ] at hb
    exact hzc (List.cons.inj hb).1.symm
  have hafter : ¬ List.replicate s.length c <:+: v ++ [y] := by
    intro hi
    rcases List.infix_concat_iff.mp hi with hsuf | hi
    · have hmem : y ∈ List.replicate s.length c := by
        obtain ⟨a, ha⟩ := hsuf
        have hlast := congrArg List.getLast? ha
        rw [List.getLast?_append_of_ne_nil _ hk, List.getLast?_concat] at hlast
        exact List.mem_of_getLast? hlast
      exact hyc (List.eq_of_mem_replicate hmem)
    · have hlen := hi.length_le
      rw [List.length_replicate] at hlen
      omega
  rw [replace_of_absent r hword, replace_at hk, replace_of_absent r hafter]
  exact hbefore

end Rescind.Lib
