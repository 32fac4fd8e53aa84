/-
# `Rescind.Lib.Gaps` — literals with gaps between them

A list of literals stands for the texts that hold them in order: something,
the first literal, something, the second, …, something, the last.  Reading such
a text literal by literal, each at its first place after the one before it,
finds a way to fill the gaps or gives up; nothing is tried twice.

    what is read weaves back to the text            (`Taken.weave`)
    a text that some values fill is read
      exactly where no literal comes too early      (`taken_iff`)
    values without their literal's first symbol
      are read as they are                          (`Taken.of_apart`)

A shortest beginning that holds some literals starts with the first place of
the first of them (`shortest_cons`), which is what makes the reading's choices
visible in the text alone.
-/
import Mathlib.Data.List.Basic
import Mathlib.Data.List.Forall2

namespace Rescind.Lib.Gaps

variable {α : Type}

/-- Values in the gaps, each before its literal. -/
def weave : List (List α) → List (List α) → List α
  | v :: vs, l :: ls => v ++ l ++ weave vs ls
  | _, _ => []

@[simp] theorem weave_nil (ls : List (List α)) : weave [] ls = [] := by cases ls <;> rfl

@[simp] theorem weave_cons (v l : List α) (vs ls : List (List α)) :
    weave (v :: vs) (l :: ls) = v ++ l ++ weave vs ls := rfl

/-- The literals in order, each after anything, the last at the end. -/
inductive Fills : List (List α) → List α → Prop
  | nil : Fills [] []
  | cons (u : List α) {l : List α} {ls : List (List α)} {r : List α} : Fills ls r →
      Fills (l :: ls) (u ++ l ++ r)

/-- `u` is what stands before the first place of `l` in `s`. -/
structure First (l s u : List α) : Prop where
  here : u ++ l <+: s
  least {x : List α} : x ++ l <+: s → u.length ≤ x.length

/-- `p` is the shortest beginning of `s` that holds the literals. -/
structure Shortest (ls : List (List α)) (s p : List α) : Prop where
  isPrefix : p <+: s
  fills : Fills ls p
  least {q : List α} : q <+: s → Fills ls q → p.length ≤ q.length

/-- No literal comes too early in `s`: one between two gaps never stands right
after the shortest beginning that holds those before it, and when the last one
is a text, no proper beginning of `s` holds them all. -/
structure Clear (ls : List (List α)) (s : List α) : Prop where
  apart {i : Nat} {l p : List α} : i + 1 < ls.length → ls[i]? = some l →
    Shortest (ls.take i) s p → ¬ p ++ l <+: s
  whole {l p : List α} : ls.getLast? = some l → l ≠ [] → p <+: s → Fills ls p → p = s

/-- Literals that tell the gaps on either side apart: only the last is empty. -/
def Separated (ls : List (List α)) : Prop := ∀ l ∈ ls.dropLast, l ≠ []

/-- The values taken literal by literal: up to the first place of the next
literal, or everything where the last is empty; none of them empty. -/
inductive Taken : List (List α) → List α → List (List α) → Prop
  | nil : Taken [] [] []
  | rest {s : List α} : s ≠ [] → Taken [[]] s [s]
  | step {l s u r : List α} {ls vs : List (List α)} : l ≠ [] → s = u ++ l ++ r → First l s u →
      u ≠ [] → Taken ls r vs → Taken (l :: ls) s (u :: vs)

/-! ## Weaving -/

theorem length_weave_le {vs xs ls : List (List α)}
    (h : List.Forall₂ (fun v x => v.length ≤ x.length) vs xs) :
    (weave vs ls).length ≤ (weave xs ls).length := by
  induction h generalizing ls with
  | nil => exact Nat.le_refl _
  | @cons v x vs xs hv _ ih =>
      cases ls with
      | nil => exact Nat.le_refl _
      | cons l ls =>
          have : (weave vs ls).length ≤ (weave xs ls).length := ih
          simp only [weave, List.length_append]
          omega

/-- **Longer values weave to a longer text**, unless each has the length of the
one it replaces. -/
theorem lengths_of_weave {vs xs ls : List (List α)}
    (h : List.Forall₂ (fun v x => v.length ≤ x.length) vs xs) (hl : vs.length ≤ ls.length)
    (he : (weave vs ls).length = (weave xs ls).length) :
    List.Forall₂ (fun v x => v.length = x.length) vs xs := by
  induction h generalizing ls with
  | nil => exact .nil
  | @cons v x vs xs hv h ih =>
      cases ls with
      | nil => cases hl
      | cons l ls =>
          have hle : (weave vs ls).length ≤ (weave xs ls).length := length_weave_le h
          simp only [weave, List.length_append] at he
          exact .cons (by omega) (ih (Nat.le_of_succ_le_succ hl) (by omega))

theorem Taken.length {ls vs : List (List α)} {s : List α} (h : Taken ls s vs) :
    vs.length = ls.length := by
  induction h with
  | nil => rfl
  | rest => rfl
  | step _ _ _ _ _ ih => rw [List.length_cons, List.length_cons, ih]

/-- **What is read weaves back to the text.** -/
theorem Taken.weave {ls vs : List (List α)} {s : List α} (h : Taken ls s vs) :
    weave vs ls = s := by
  induction h with
  | nil => rfl
  | rest => simp [Gaps.weave]
  | step _ hs _ _ _ ih => rw [Gaps.weave, ih, hs]

theorem Taken.ne_nil {ls vs : List (List α)} {s : List α} (h : Taken ls s vs) :
    ∀ v ∈ vs, v ≠ [] := by
  induction h with
  | nil => intro v hv; cases hv
  | rest hs =>
      intro v hv
      exact List.mem_singleton.mp hv ▸ hs
  | step _ _ _ hu _ ih =>
      intro v hv
      rcases List.mem_cons.mp hv with rfl | hv
      · exact hu
      · exact ih v hv

theorem Taken.separated {ls vs : List (List α)} {s : List α} (h : Taken ls s vs) :
    Separated ls := by
  induction h with
  | nil => intro l hl; cases hl
  | rest => intro l hl; cases hl
  | @step l _ _ _ ls _ hl _ _ _ _ ih =>
      intro k hk
      cases ls with
      | nil => cases hk
      | cons k' ls =>
          rcases List.mem_cons.mp hk with rfl | hk
          · exact hl
          · exact ih k hk

/-! ## The first place -/

theorem First.unique {l s u u' : List α} (h : First l s u) (h' : First l s u') : u = u' := by
  have hu : u <+: s := (List.prefix_append u l).trans h.here
  have hu' : u' <+: s := (List.prefix_append u' l).trans h'.here
  have hle := h.least h'.here
  exact (List.prefix_of_prefix_length_le hu hu' hle).eq_of_length_le (h'.least h.here)

/-- A text that holds a literal has a first place of it. -/
theorem exists_first {l s x : List α} (h : x ++ l <+: s) : ∃ u, First l s u := by
  induction hn : x.length using Nat.strongRecOn generalizing x with
  | ind n ih =>
      by_cases hx : ∃ y : List α, y ++ l <+: s ∧ y.length < n
      · obtain ⟨y, hy, hlt⟩ := hx
        exact ih y.length hlt hy rfl
      · refine ⟨x, h, fun {y} hy => ?_⟩
        rw [hn]
        exact Nat.le_of_not_lt fun hlt => hx ⟨y, hy, hlt⟩

/-- Nothing that starts as the literal does stands in the value: its first
place is after it. -/
theorem First.of_apart {v l : List α} (hl : l ≠ []) (h : ∀ c ∈ v, l.head? ≠ some c)
    (r : List α) : First l (v ++ l ++ r) v := by
  refine ⟨List.prefix_append _ _, fun {x} hx => Nat.le_of_not_lt fun hlt => ?_⟩
  obtain ⟨c, l, rfl⟩ := List.exists_cons_of_ne_nil hl
  obtain ⟨t, ht⟩ := hx
  have hc : (v ++ (c :: l) ++ r)[x.length]? = some c := by
    rw [← ht]
    simp
  rw [List.append_assoc, List.getElem?_append_left hlt] at hc
  exact h c (List.mem_of_getElem? hc) rfl

/-! ## Beginnings that hold the literals -/

theorem fills_nil {p : List α} : Fills [] p ↔ p = [] := by
  constructor
  · intro h
    cases h
    rfl
  · rintro rfl
    exact .nil

/-- Something more before the first literal. -/
theorem Fills.widen {l : List α} {ls : List (List α)} {p : List α} (h : Fills (l :: ls) p)
    (x : List α) : Fills (l :: ls) (x ++ p) := by
  cases h with
  | cons u h =>
      have := Fills.cons (l := l) (x ++ u) h
      simpa only [List.append_assoc] using this

theorem shortest_nil {s p : List α} : Shortest [] s p ↔ p = [] := by
  constructor
  · intro h
    exact fills_nil.mp h.fills
  · rintro rfl
    exact ⟨List.nil_prefix, .nil, fun _ _ => Nat.zero_le _⟩

/-- A beginning that holds the literals holds them after the first place of the
first one too, and is no shorter so. -/
theorem Fills.advance {l s u r p : List α} {ls : List (List α)} (hs : s = u ++ l ++ r)
    (hf : First l s u) (hp : p <+: s) (h : Fills (l :: ls) p) :
    ∃ q, q <+: r ∧ Fills ls q ∧ (u ++ l ++ q).length ≤ p.length ∧
      (ls ≠ [] → p = u ++ l ++ q) := by
  cases h with
  | @cons x _ _ q' h =>
      have hx : x ++ l <+: s := (List.prefix_append _ q').trans hp
      have hle : u.length ≤ x.length := hf.least hx
      have hul : u ++ l <+: x ++ l ++ q' :=
        List.prefix_of_prefix_length_le hf.here hp (by simp only [List.length_append]; omega)
      obtain ⟨q, hq⟩ := hul
      have hqr : q <+: r := by
        rw [← hq, hs] at hp
        exact (List.prefix_append_right_inj _).mp hp
      cases ls with
      | nil =>
          cases h
          exact ⟨[], List.nil_prefix, .nil, by simp only [List.length_append]; omega,
            fun h => absurd rfl h⟩
      | cons l' ls =>
          have hlen : (u ++ l).length ≤ (x ++ l).length := by
            simp only [List.length_append]
            omega
          have hpre : u ++ l <+: x ++ l :=
            List.prefix_of_prefix_length_le ⟨q, hq⟩ (List.prefix_append _ q') hlen
          obtain ⟨y, hy⟩ := hpre
          have hqy : q = y ++ q' := by
            rw [← hy, List.append_assoc (u ++ l)] at hq
            exact List.append_cancel_left hq
          exact ⟨q, hqr, hqy ▸ h.widen y, Nat.le_of_eq (by rw [hq]), fun _ => hq.symm⟩

/-- **The shortest beginning starts with the first place** of the first literal. -/
theorem shortest_cons {l s u r p : List α} {ls : List (List α)} (hs : s = u ++ l ++ r)
    (hf : First l s u) :
    Shortest (l :: ls) s p ↔ ∃ q, p = u ++ l ++ q ∧ Shortest ls r q := by
  have longer : ∀ {q : List α}, q <+: r → Fills ls q →
      u ++ l ++ q <+: s ∧ Fills (l :: ls) (u ++ l ++ q) := by
    intro q hq h
    exact ⟨hs ▸ (List.prefix_append_right_inj _).mpr hq, .cons u h⟩
  constructor
  · intro h
    obtain ⟨q, hq, hfill, hle, -⟩ := h.fills.advance hs hf h.isPrefix
    obtain ⟨hq', hfill'⟩ := longer hq hfill
    have heq : u ++ l ++ q = p :=
      (List.prefix_of_prefix_length_le hq' h.isPrefix hle).eq_of_length_le (h.least hq' hfill')
    refine ⟨q, heq.symm, hq, hfill, fun {q'} hp hf' => ?_⟩
    obtain ⟨hp', hf''⟩ := longer hp hf'
    have := h.least hp' hf''
    rw [← heq] at this
    simp only [List.length_append] at this
    omega
  · rintro ⟨q, rfl, h⟩
    obtain ⟨hq, hfill⟩ := longer h.isPrefix h.fills
    refine ⟨hq, hfill, fun {p} hp hp' => ?_⟩
    obtain ⟨q', hq', hf', hle, -⟩ := hp'.advance hs hf hp
    have := h.least hq' hf'
    simp only [List.length_append] at hle ⊢
    omega

/-! ## Where the reading succeeds -/

theorem Separated.tail {l : List α} {ls : List (List α)} (h : Separated (l :: ls)) :
    Separated ls := by
  intro l' hl'
  cases ls with
  | nil => cases hl'
  | cons k ls => exact h l' (List.mem_cons_of_mem _ hl')

theorem Separated.head {l k : List α} {ls : List (List α)} (h : Separated (l :: k :: ls)) :
    l ≠ [] := h l List.mem_cons_self

/-- One literal more: it comes too early only where it opens the text. -/
theorem clear_cons {l k s u r : List α} {ls : List (List α)} (hs : s = u ++ l ++ r)
    (hf : First l s u) :
    Clear (l :: k :: ls) s ↔ u ≠ [] ∧ Clear (k :: ls) r := by
  have opens : l <+: s ↔ u = [] := by
    constructor
    · intro h
      exact List.eq_nil_of_length_eq_zero (Nat.le_zero.mp (hf.least (x := []) h))
    · rintro rfl
      exact hs ▸ List.prefix_append l r
  constructor
  · intro h
    refine ⟨fun hu => ?_, fun {i l' p} hi hl' hp => ?_, fun {l' p} hl' hne hp hfill => ?_⟩
    · exact h.apart (i := 0) (by simp) rfl (shortest_nil.mpr rfl) (opens.mpr hu)
    · have := h.apart (i := i + 1) (Nat.succ_lt_succ hi) hl'
        ((shortest_cons hs hf).mpr ⟨p, rfl, hp⟩)
      rw [hs, List.append_assoc _ p, List.prefix_append_right_inj] at this
      exact this
    · have hp' : u ++ l ++ p <+: s := hs ▸ (List.prefix_append_right_inj _).mpr hp
      have := h.whole (by rw [List.getLast?_cons_cons]; exact hl') hne hp' (.cons u hfill)
      rw [hs] at this
      exact List.append_cancel_left this
  · rintro ⟨hu, h⟩
    refine ⟨fun {i l' p} hi hl' hp => ?_, fun {l' p} hl' hne hp hfill => ?_⟩
    · cases i with
      | zero =>
          obtain rfl := shortest_nil.mp hp
          obtain rfl : l = l' := Option.some.inj hl'
          exact fun ho => hu (opens.mp ho)
      | succ i =>
          obtain ⟨q, rfl, hq⟩ := (shortest_cons hs hf).mp hp
          rw [hs, List.append_assoc _ q, List.prefix_append_right_inj]
          exact h.apart (Nat.lt_of_succ_lt_succ hi) hl' hq
    · obtain ⟨q, hq, hfill', -, heq⟩ := hfill.advance hs hf hp
      rw [heq (List.cons_ne_nil _ _), hs, h.whole (by rwa [List.getLast?_cons_cons] at hl') hne hq
        hfill']

/-- The last literal comes too early where a shorter beginning ends with it. -/
theorem taken_last {l v : List α} (hv : v ≠ []) :
    (∃ ws, Taken [l] (v ++ l) ws) ↔ Clear [l] (v ++ l) := by
  have apart : ∀ {i : Nat} {k p : List α}, i + 1 < [l].length → [l][i]? = some k →
      Shortest ([l].take i) (v ++ l) p → ¬ p ++ k <+: v ++ l := by
    intro i k p hi
    exact absurd (Nat.lt_of_succ_lt_succ hi) (Nat.not_lt_zero i)
  constructor
  · rintro ⟨ws, h⟩
    refine ⟨apart, fun {k p} hk hne hp hfill => ?_⟩
    obtain rfl : l = k := Option.some.inj hk
    generalize hs : v ++ l = s at h hp
    cases h with
    | rest => exact absurd rfl hne
    | @step _ _ u r _ _ _ hs' hf _ ht =>
        cases ht
        cases hfill with
        | @cons x _ _ r hr =>
            cases hr
            rw [List.append_nil] at hp hs' ⊢
            have hle := hf.least hp
            refine hp.eq_of_length_le ?_
            rw [hs']
            simp only [List.length_append]
            omega
  · intro h
    by_cases hl : l = []
    · subst hl
      rw [List.append_nil]
      exact ⟨[v], .rest hv⟩
    · obtain ⟨u, hf⟩ := exists_first (l := l) (x := v) (List.prefix_refl (v ++ l))
      have hfill : Fills [l] (u ++ l) := by simpa using Fills.cons (l := l) u .nil
      have hu : u ++ l = v ++ l := h.whole rfl hl hf.here hfill
      have huv : u = v := List.append_cancel_right hu
      exact ⟨[u], .step hl (by rw [List.append_nil, hu]) hf (huv ▸ hv) .nil⟩

/-- **A text that some values fill is read exactly where no literal comes too
early**: the values may hold what the literals do anywhere else, and what is
read may be other values. -/
theorem taken_iff {ls vs : List (List α)} (hsep : Separated ls) (hlen : vs.length = ls.length)
    (hne : ∀ v ∈ vs, v ≠ []) :
    (∃ ws, Taken ls (weave vs ls) ws) ↔ Clear ls (weave vs ls) := by
  induction ls generalizing vs with
  | nil =>
      obtain rfl := List.eq_nil_of_length_eq_zero hlen
      refine ⟨fun _ => ⟨fun hi => absurd hi (Nat.not_lt_zero _), fun hl => ?_⟩, fun _ => ⟨[], .nil⟩⟩
      cases hl
  | cons l ls ih =>
      obtain ⟨v, vs, rfl⟩ := List.exists_cons_of_length_eq_add_one hlen
      have hv : v ≠ [] := hne v List.mem_cons_self
      have hlen' : vs.length = ls.length := Nat.succ.inj hlen
      cases ls with
      | nil =>
          have hw : weave (v :: vs) [l] = v ++ l := by simp [weave, List.eq_nil_of_length_eq_zero hlen']
          rw [hw]
          exact taken_last hv
      | cons k ls =>
          obtain ⟨w, vs, rfl⟩ := List.exists_cons_of_length_eq_add_one hlen'
          generalize hs : weave (v :: w :: vs) (l :: k :: ls) = s
          have hvl : v ++ l <+: s := hs ▸ List.prefix_append _ _
          obtain ⟨u, hf⟩ := exists_first hvl
          obtain ⟨r, hr⟩ := hf.here
          -- What follows the first place is filled too: the rest of `v` joins `w`.
          obtain ⟨y, hy⟩ := List.prefix_of_prefix_length_le hf.here hvl
            (by have := hf.least hvl; simp only [List.length_append]; omega)
          have hrw : r = weave ((y ++ w) :: vs) (k :: ls) := by
            have he : u ++ l ++ r = u ++ l ++ (y ++ weave (w :: vs) (k :: ls)) := by
              rw [hr, ← hs, ← List.append_assoc, hy, weave]
            rw [List.append_cancel_left he]
            simp only [weave, List.append_assoc]
          have hne' : ∀ x ∈ (y ++ w) :: vs, x ≠ [] := by
            intro x hx
            rcases List.mem_cons.mp hx with rfl | hx
            · exact List.append_ne_nil_of_right_ne_nil y (hne w (by simp))
            · exact hne x (by simp [hx])
          have hrest : (∃ ws, Taken (k :: ls) (weave ((y ++ w) :: vs) (k :: ls)) ws) ↔
              Clear (k :: ls) (weave ((y ++ w) :: vs) (k :: ls)) := ih hsep.tail hlen' hne'
          rw [← hrw] at hrest
          rw [clear_cons hr.symm hf, ← hrest]
          constructor
          · rintro ⟨ws, ht⟩
            cases ht with
            | @step _ _ u' r' _ ws hl hs' hf' hu ht =>
                obtain rfl := hf.unique hf'
                obtain rfl := List.append_cancel_left (hr.trans hs')
                exact ⟨hu, ws, ht⟩
          · rintro ⟨hu, ws, ht⟩
            exact ⟨u :: ws, .step hsep.head hr.symm hf hu ht⟩

/-! ## Values read as they are -/

/-- A value that is read as it is before its literal. -/
structure Apart (v l : List α) : Prop where
  ne_nil : v ≠ []
  free : ∀ c ∈ v, l.head? ≠ some c

/-- **Values without their literal's first symbol are read as they are.** -/
theorem Taken.of_apart {ls vs : List (List α)} (hsep : Separated ls)
    (h : List.Forall₂ Apart vs ls) : Taken ls (Gaps.weave vs ls) vs := by
  induction h with
  | nil => exact .nil
  | @cons v l vs ls hv h ih =>
      by_cases hl : l = []
      · cases h with
        | nil =>
            subst hl
            simpa using Taken.rest hv.ne_nil
        | cons => exact absurd hl hsep.head
      · exact .step hl rfl (First.of_apart hl hv.free _) hv.ne_nil (ih hsep.tail)

end Rescind.Lib.Gaps
