/-
# `Rescind.Lib.Lines` — a text and its lines

What a text keeps when it is taken apart into lines and put together again.  A
text is *ended* when no line of it lacks its newline; a carriage return before
a newline is lost with it.

    a text goes by its lines                        (`lineInduction`)
    lines of an ended text stay those of a longer   (`lines_append`)
    lines put together are the text, ended, where no
      carriage return was lost                      (`unlines_lines_iff`)
-/
import Rescind.Lib.Text

namespace Rescind.Lib.Text

/-- The last line, if there is any, has its newline. -/
def ended (s : List Char) : Bool := s.isEmpty || s.getLast? = some '\n'

/-- The text with the newline its last line lacks. -/
def terminated (s : List Char) : List Char := if ended s then s else s ++ ['\n']

/-- A carriage return stands before a newline. -/
def Crlf (s : List Char) : Prop := ['\x0d', '\n'] <:+: s

/-! ## Line by line -/

@[elab_as_elim]
theorem lineInduction {P : List Char → Prop} (nil : P []) (last : ∀ l, l ≠ [] → '\n' ∉ l → P l)
    (line : ∀ l t, '\n' ∉ l → P t → P (l ++ '\n' :: t)) (s : List Char) : P s := by
  induction hn : s.length using Nat.strongRecOn generalizing s with
  | ind n ih =>
      by_cases hm : '\n' ∈ s
      · obtain ⟨l, t, rfl, hl⟩ := List.eq_append_cons_of_mem hm
        refine line l t hl (ih t.length ?_ t rfl)
        rw [← hn, List.length_append, List.length_cons]
        omega
      · cases s with
        | nil => exact nil
        | cons c s => exact last _ (List.cons_ne_nil c s) hm

theorem ended_line (l t : List Char) : ended (l ++ '\n' :: t) = ended t := by
  cases t with
  | nil => simp [ended]
  | cons c t => simp [ended, List.getLast?_append]

theorem ended_last {l : List Char} (hne : l ≠ []) (h : '\n' ∉ l) : ended l = false := by
  have hlast : l.getLast? ≠ some '\n' := fun hl => h (List.mem_of_getLast? hl)
  simp [ended, hne, hlast]

theorem ended_append {s t : List Char} (hs : ended s = true) (ht : ended t = true) :
    ended (s ++ t) = true := by
  cases t with
  | nil => rwa [List.append_nil]
  | cons c t =>
      have hlast : (c :: t).getLast? = some '\n' := by simpa [ended] using ht
      simp [ended, List.getLast?_append, hlast]

theorem ended_newline (s : List Char) : ended (s ++ ['\n']) = true := by simp [ended]

theorem ended_terminated (s : List Char) : ended (terminated s) = true := by
  unfold terminated
  split
  next h => exact h
  next => exact ended_newline s

theorem terminated_of_ended {s : List Char} (h : ended s = true) : terminated s = s := if_pos h

theorem terminated_append {s : List Char} (h : ended s = true) (t : List Char) :
    terminated (s ++ t) = s ++ terminated t := by
  cases ht : ended t with
  | true => rw [terminated_of_ended (ended_append h ht), terminated_of_ended ht]
  | false =>
      have hst : ended (s ++ t) = false := by
        cases t with
        | nil => cases ht
        | cons c t =>
            have hlast : (c :: t).getLast? ≠ some '\n' := by simpa [ended] using ht
            simpa [ended, List.getLast?_append] using hlast
      rw [terminated, if_neg (by rw [hst]; exact Bool.false_ne_true), terminated,
        if_neg (by rw [ht]; exact Bool.false_ne_true), List.append_assoc]

/-- The lines of an ended text come first in a longer one. -/
theorem lines_append {s : List Char} (h : ended s = true) (t : List Char) :
    lines (s ++ t) = lines s ++ lines t := by
  induction s using lineInduction with
  | nil => rfl
  | last l hne hl => rw [ended_last hne hl] at h; cases h
  | line l s hl ih =>
      rw [ended_line] at h
      rw [List.append_assoc, List.cons_append, lines_line hl, lines_line hl, ih h, List.cons_append]

theorem unlines_append (ls ms : List (List Char)) : unlines (ls ++ ms) = unlines ls ++ unlines ms :=
  List.flatMap_append

theorem unlines_cons (l : List Char) (ls : List (List Char)) :
    unlines (l :: ls) = l ++ '\n' :: unlines ls := by simp [unlines]

theorem ended_unlines (ls : List (List Char)) : ended (unlines ls) = true := by
  induction ls with
  | nil => rfl
  | cons l ls ih => rw [unlines_cons, ended_line, ih]

theorem prefix_dropCr (l : List Char) : dropCr l <+: l := by
  unfold dropCr
  split
  next rest h =>
      have hl : rest.reverse ++ ['\x0d'] = l := by
        rw [← List.reverse_reverse l, h, List.reverse_cons]
      exact ⟨_, hl⟩
  next => exact List.prefix_rfl

/-- A line holds no newline. -/
theorem newline_not_mem {s l : List Char} (h : l ∈ lines s) : '\n' ∉ l := by
  induction s using lineInduction with
  | nil => cases h
  | last m hne hm =>
      rw [lines_last hm hne] at h
      rwa [List.mem_singleton.mp h]
  | line m s hm ih =>
      rw [lines_line hm] at h
      rcases List.mem_cons.mp h with rfl | h
      · exact fun hc => hm ((prefix_dropCr m).subset hc)
      · exact ih h

/-- The newline a text lacks takes no line away but one that ends in a carriage
return. -/
theorem mem_lines_terminated {s l : List Char} (h : l ∈ lines s) (hl : dropCr l = l) :
    l ∈ lines (terminated s) := by
  induction s using lineInduction with
  | nil => cases h
  | last m hne hm =>
      rw [lines_last hm hne] at h
      rw [terminated, if_neg (by rw [ended_last hne hm]; exact Bool.false_ne_true), lines_line hm,
        ← List.mem_singleton.mp h, hl]
      exact List.mem_cons_self
  | line m s hm ih =>
      have hend : terminated (m ++ '\n' :: s) = m ++ '\n' :: terminated s := by
        have h := terminated_append (ended_newline m) s
        rwa [List.append_assoc, List.append_assoc] at h
      rw [lines_line hm] at h
      rw [hend, lines_line hm]
      rcases List.mem_cons.mp h with rfl | h
      · exact List.mem_cons_self
      · exact List.mem_cons_of_mem _ (ih h)

/-! ## Carriage returns -/

/-- A line is what it was, or lost the carriage return it ended in. -/
theorem dropCr_cases (l : List Char) : dropCr l = l ∨ l = dropCr l ++ ['\x0d'] := by
  unfold dropCr
  split
  next rest h =>
    right
    rw [← List.reverse_reverse l, h, List.reverse_cons]
  next => exact .inl rfl

/-- The first newline parts a text in one way. -/
theorem line_inj {l m s t : List Char} (hl : '\n' ∉ l) (hm : '\n' ∉ m)
    (h : l ++ '\n' :: s = m ++ '\n' :: t) : l = m ∧ s = t := by
  induction l generalizing m with
  | nil =>
      cases m with
      | nil => exact ⟨rfl, List.tail_eq_of_cons_eq h⟩
      | cons x m => exact absurd (List.head_eq_of_cons_eq h ▸ List.mem_cons_self) hm
  | cons x l ih =>
      cases m with
      | nil => exact absurd (List.head_eq_of_cons_eq h ▸ List.mem_cons_self) hl
      | cons y m =>
          obtain ⟨hx, ht⟩ := List.cons.inj h
          obtain ⟨hlm, hst⟩ := ih (fun hc => hl (List.mem_cons_of_mem _ hc))
            (fun hc => hm (List.mem_cons_of_mem _ hc)) ht
          exact ⟨by rw [hx, hlm], hst⟩

theorem crlf_line {l : List Char} (hl : '\n' ∉ l) (t : List Char) :
    Crlf (l ++ '\n' :: t) ↔ dropCr l ≠ l ∨ Crlf t := by
  constructor
  · rintro ⟨p, q, h⟩
    have h' : (p ++ ['\x0d']) ++ '\n' :: q = l ++ '\n' :: t := by simpa using h
    by_cases hp : '\n' ∈ p
    · -- past the first line
      obtain ⟨p₁, p₂, rfl, hp₁⟩ := List.eq_append_cons_of_mem hp
      have h'' : p₁ ++ '\n' :: (p₂ ++ '\x0d' :: '\n' :: q) = l ++ '\n' :: t := by simpa using h'
      obtain ⟨-, rfl⟩ := line_inj hp₁ hl h''
      exact .inr ⟨p₂, q, by simp⟩
    · obtain ⟨rfl, -⟩ := line_inj (by simpa using hp) hl h'
      refine .inl fun hd => ?_
      have hlen := congrArg List.length hd
      rw [dropCr, List.reverse_append] at hlen
      simp at hlen
  · rintro (hd | ⟨p, q, rfl⟩)
    · have hcr := (dropCr_cases l).resolve_left hd
      refine ⟨dropCr l, t, ?_⟩
      conv_rhs => rw [hcr]
      simp
    · exact ⟨l ++ '\n' :: p, q, by simp⟩

theorem crlf_append {s : List Char} (h : ended s = true) (t : List Char) :
    Crlf (s ++ t) ↔ Crlf s ∨ Crlf t := by
  induction s using lineInduction with
  | nil => simp [Crlf]
  | last l hne hl => rw [ended_last hne hl] at h; cases h
  | line l s hl ih =>
      rw [ended_line] at h
      rw [List.append_assoc, List.cons_append, crlf_line hl, crlf_line hl, ih h, or_assoc]

/-- Lines put together are the text, ended, where no carriage return was lost. -/
theorem unlines_lines_iff (s : List Char) : unlines (lines s) = terminated s ↔ ¬Crlf s := by
  induction s using lineInduction with
  | nil => simp [lines, linesFrom, unlines, terminated, ended, Crlf]
  | last l hne hl =>
      rw [lines_last hl hne, terminated, if_neg (by rw [ended_last hne hl]; exact Bool.false_ne_true)]
      refine iff_of_true (by simp [unlines]) fun hc => hl (hc.subset ?_)
      exact List.mem_cons_of_mem _ (List.mem_singleton_self _)
  | line l t hl ih =>
      have hend : terminated (l ++ '\n' :: t) = l ++ '\n' :: terminated t := by
        have h := terminated_append (ended_newline l) t
        rwa [List.append_assoc, List.append_assoc] at h
      rw [lines_line hl, unlines_cons, crlf_line hl, hend]
      constructor
      · intro h
        have hd : '\n' ∉ dropCr l := fun hc => hl ((prefix_dropCr l).subset hc)
        obtain ⟨hc, ht⟩ := line_inj hd hl h
        exact not_or.mpr ⟨not_not.mpr hc, ih.mp ht⟩
      · intro h
        have hc : dropCr l = l := not_not.mp fun hc => h (.inl hc)
        rw [hc, ih.mpr fun ht => h (.inr ht)]

/-- And the text itself where it was ended. -/
theorem unlines_lines_eq_iff (s : List Char) :
    unlines (lines s) = s ↔ ended s = true ∧ ¬Crlf s := by
  rw [← unlines_lines_iff]
  constructor
  · intro h
    have he : ended s = true := by rw [← h]; exact ended_unlines _
    exact ⟨he, h.trans (terminated_of_ended he).symm⟩
  · rintro ⟨he, h⟩
    rw [h, terminated_of_ended he]

/-! ## Parts of lines -/

/-- A line is a part of the text. -/
theorem infix_of_mem_lines {s l : List Char} (h : l ∈ lines s) : l <:+: s := by
  induction s using lineInduction with
  | nil => cases h
  | last m hne hm =>
      rw [lines_last hm hne] at h
      obtain rfl := List.mem_singleton.mp h
      exact List.infix_rfl
  | line m s hm ih =>
      rw [lines_line hm] at h
      rcases List.mem_cons.mp h with rfl | h
      · exact (prefix_dropCr m).isInfix.trans ⟨[], '\n' :: s, rfl⟩
      · exact (ih h).trans ⟨m ++ ['\n'], [], by simp⟩

theorem trim_infix (s : List Char) : trim s <:+: s := by
  have hsuf := List.dropWhile_suffix isWhite (l := s)
  have hpre : trim s <+: s.dropWhile isWhite := by
    have h := List.dropWhile_suffix isWhite (l := (s.dropWhile isWhite).reverse)
    rw [← List.reverse_prefix, List.reverse_reverse] at h
    exact h
  exact hpre.isInfix.trans hsuf.isInfix

/-- What is on one line is on one side of a newline. -/
theorem infix_sides_newline {p a b : List Char} (hp : '\n' ∉ p) (h : p <:+: a ++ '\n' :: b) :
    p <:+: a ∨ p <:+: b := by
  obtain ⟨x, y, h⟩ := h
  rw [List.append_assoc] at h
  rcases List.append_eq_append_iff.mp h with ⟨t, ha, ht⟩ | ⟨t, hx, ht⟩
  · rcases List.append_eq_append_iff.mp ht with ⟨t', ht', hy⟩ | ⟨t', hp', ht'⟩
    · exact .inl ⟨x, t', by rw [ha, ht', List.append_assoc]⟩
    · cases t' with
      | nil => exact .inl ⟨x, [], by rw [ha, hp']; simp⟩
      | cons c t' =>
          obtain ⟨rfl, -⟩ := List.cons.inj ht'
          exact absurd (hp' ▸ List.mem_append_right _ List.mem_cons_self) hp
  · cases t with
    | nil =>
        cases p with
        | nil => exact .inl List.nil_infix
        | cons c p =>
            obtain ⟨rfl, -⟩ := List.cons.inj ht
            exact absurd List.mem_cons_self hp
    | cons c t =>
        obtain ⟨-, hb⟩ := List.cons.inj ht
        exact .inr ⟨t, y, (List.append_assoc t p y).trans hb.symm⟩

/-- What is on one line is on one of the lines put together. -/
theorem infix_unlines {p : List Char} (hp : '\n' ∉ p) (hne : p ≠ []) {ls : List (List Char)}
    (h : p <:+: unlines ls) : ∃ l ∈ ls, p <:+: l := by
  induction ls with
  | nil => exact absurd (List.infix_nil.mp h) hne
  | cons l ls ih =>
      rw [unlines_cons] at h
      rcases infix_sides_newline hp h with h | h
      · exact ⟨l, List.mem_cons_self, h⟩
      · obtain ⟨m, hm, h⟩ := ih h
        exact ⟨m, List.mem_cons_of_mem _ hm, h⟩

/-- A beginning on one line is one of the first line. -/
theorem prefix_of_newline {q a b : List Char} (hq : '\n' ∉ q) (h : q <+: a ++ '\n' :: b) : q <+: a := by
  rcases List.prefix_or_prefix_of_prefix h (List.prefix_append a ('\n' :: b)) with h' | ⟨r, rfl⟩
  · exact h'
  · rw [List.prefix_append_right_inj] at h
    cases r with
    | nil => simp
    | cons c r =>
        obtain rfl := (List.cons_prefix_cons.mp h).1
        exact absurd (List.mem_append_right _ List.mem_cons_self) hq

/-- What follows a newline begins a line. -/
theorem prefix_of_infix_unlines {q : List Char} (hq : '\n' ∉ q) (hne : q ≠ []) {ls : List (List Char)}
    (hls : ∀ l ∈ ls, '\n' ∉ l) (h : '\n' :: q <:+: unlines ls) : ∃ l ∈ ls, q <+: l := by
  induction ls with
  | nil =>
      obtain ⟨x, y, h⟩ := h
      simp [unlines] at h
  | cons l ls ih =>
      have hrest := fun m hm => hls m (List.mem_cons_of_mem l hm)
      have below : q <+: unlines ls → ∃ m ∈ l :: ls, q <+: m := by
        intro hp
        cases ls with
        | nil => exact absurd (List.prefix_nil.mp hp) hne
        | cons m ls =>
            rw [unlines_cons] at hp
            exact ⟨m, List.mem_cons_of_mem _ List.mem_cons_self, prefix_of_newline hq hp⟩
      obtain ⟨x, y, h⟩ := h
      rw [unlines_cons, List.append_assoc, List.cons_append] at h
      rcases List.append_eq_append_iff.mp h with ⟨t, hl, ht⟩ | ⟨t, hx, ht⟩
      · cases t with
        | nil => exact below ⟨y, (List.cons.inj ht).2⟩
        | cons c t =>
            obtain ⟨rfl, -⟩ := List.cons.inj ht
            exact absurd (hl ▸ List.mem_append_right _ List.mem_cons_self) (hls l List.mem_cons_self)
      · cases t with
        | nil => exact below ⟨y, (List.cons.inj ht).2.symm⟩
        | cons c t =>
            have hb := (List.cons.inj ht).2
            obtain ⟨m, hm, h⟩ := ih hrest ⟨t, y, (List.append_assoc t ('\n' :: q) y).trans hb.symm⟩
            exact ⟨m, List.mem_cons_of_mem _ hm, h⟩

end Rescind.Lib.Text
