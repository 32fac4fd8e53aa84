/-
# `Rescind.Lib.Fields` — records and fields

How the line tools read a text.  A record is what stands before a newline, its
carriage return included; its fields are its words, by blanks and tabs.  What is
cut at a separator comes back where the piece before it holds none.

    a text is cut at its first separator            (`cut_eq_some`)
    records put together are read back              (`rows_unlines`)
    and are the text, ended                         (`unlines_rows`)
    records and lines are one reading of the text   (`rows_eq`, `lines_eq`)
    and what was written line by line               (`read_back_iff`)
    a blank parts the words on either side          (`fields_blank`)
-/
import Rescind.Lib.Lines

namespace Rescind.Lib.Text

/-! ## Cutting -/

theorem cut_append {c : Char} {l : List Char} (h : c ∉ l) (r : List Char) :
    cut c (l ++ c :: r) = some (l, r) := by
  induction l with
  | nil => simp [cut]
  | cons x l ih =>
      have hx : x ≠ c := fun hx => h (hx ▸ List.mem_cons_self)
      have hl : c ∉ l := fun hl => h (List.mem_cons_of_mem _ hl)
      rw [List.cons_append, cut, if_neg hx, ih hl]
      rfl

/-- A text is cut at its first separator, and nowhere else. -/
theorem cut_eq_some {c : Char} {s l r : List Char} :
    cut c s = some (l, r) ↔ s = l ++ c :: r ∧ c ∉ l := by
  constructor
  · intro h
    induction s generalizing l with
    | nil => cases h
    | cons x s ih =>
        rw [cut] at h
        split at h
        next hx =>
          cases h
          exact ⟨by rw [hx]; rfl, List.not_mem_nil⟩
        next hx =>
          obtain ⟨p, hp, he⟩ := Option.map_eq_some_iff.mp h
          cases he
          obtain ⟨hs, hc⟩ := ih hp
          refine ⟨by rw [hs]; rfl, fun hm => ?_⟩
          rcases List.mem_cons.mp hm with rfl | hm
          · exact hx rfl
          · exact hc hm
  · rintro ⟨rfl, h⟩
    exact cut_append h r

theorem cut_eq_none {c : Char} {s : List Char} (h : c ∉ s) : cut c s = none := by
  rcases hc : cut c s with _ | ⟨l, r⟩
  · rfl
  · exact absurd (cut_eq_some.mp hc).1 fun he => h (he ▸ by simp)

theorem dropPrefix_append (l r : List Char) : dropPrefix l (l ++ r) = some r := by
  induction l with
  | nil => rfl
  | cons c l ih => rw [List.cons_append, dropPrefix, if_pos rfl, ih]

theorem dropPrefix_eq_some_iff {l s r : List Char} :
    dropPrefix l s = some r ↔ s = l ++ r :=
  ⟨dropPrefix_eq_some, fun h => h ▸ dropPrefix_append l r⟩

theorem split_of_not_mem {c : Char} {s : List Char} (h : c ∉ s) : split c s = [s] := by
  induction s with
  | nil => rfl
  | cons x s ih =>
      have hx : x ≠ c := fun hx => h (hx ▸ List.mem_cons_self)
      rw [split, if_neg hx, ih fun hs => h (List.mem_cons_of_mem _ hs)]

/-! ## Records -/

def rowsFrom : List Char → List Char → List (List Char)
  | acc, [] => if acc.isEmpty then [] else [acc.reverse]
  | acc, x :: xs => if x = '\n' then acc.reverse :: rowsFrom [] xs else rowsFrom (x :: acc) xs

/-- The records of a text, carriage returns kept. -/
def rows (s : List Char) : List (List Char) := rowsFrom [] s

theorem rowsFrom_row {l : List Char} (h : '\n' ∉ l) (acc s : List Char) :
    rowsFrom acc (l ++ '\n' :: s) = (acc.reverse ++ l) :: rows s := by
  induction l generalizing acc with
  | nil => simp [rowsFrom, rows]
  | cons x l ih =>
      have hx : x ≠ '\n' := fun hx => h (hx ▸ List.mem_cons_self)
      have hl : '\n' ∉ l := fun hl => h (List.mem_cons_of_mem _ hl)
      rw [List.cons_append, rowsFrom, if_neg hx, ih hl, List.reverse_cons, List.append_assoc]
      rfl

theorem rows_row {l : List Char} (h : '\n' ∉ l) (s : List Char) : rows (l ++ '\n' :: s) = l :: rows s :=
  rowsFrom_row h [] s

/-- The records of a text, each with whether a newline ended it. -/
def endingsFrom : List Char → List Char → List (List Char × Bool)
  | acc, [] => if acc.isEmpty then [] else [(acc.reverse, false)]
  | acc, x :: xs =>
      if x = '\n' then (acc.reverse, true) :: endingsFrom [] xs else endingsFrom (x :: acc) xs

def endings (s : List Char) : List (List Char × Bool) := endingsFrom [] s

/-- A record as a line: its newline takes the carriage return before it along. -/
def asLine (r : List Char × Bool) : List Char := if r.2 then dropCr r.1 else r.1

theorem rows_eq (s : List Char) : rows s = (endings s).map Prod.fst := by
  have hrun : ∀ acc, rowsFrom acc s = (endingsFrom acc s).map Prod.fst := by
    induction s with
    | nil =>
        intro acc
        rw [rowsFrom, endingsFrom]
        split <;> rfl
    | cons x s ih =>
        intro acc
        rw [rowsFrom, endingsFrom]
        split
        · rw [List.map_cons, ih]
        · exact ih _
  exact hrun []

theorem lines_eq (s : List Char) : lines s = (endings s).map asLine := by
  have hrun : ∀ acc, linesFrom acc s = (endingsFrom acc s).map asLine := by
    induction s with
    | nil =>
        intro acc
        rw [linesFrom, endingsFrom]
        split <;> rfl
    | cons x s ih =>
        intro acc
        rw [linesFrom, endingsFrom]
        split
        · rw [List.map_cons, ih]
          rfl
        · exact ih _
  exact hrun []

/-- Records put together are read back. -/
theorem rows_unlines {ls : List (List Char)} (h : ∀ l ∈ ls, '\n' ∉ l) : rows (unlines ls) = ls := by
  induction ls with
  | nil => rfl
  | cons l ls ih =>
      have hl : unlines (l :: ls) = l ++ '\n' :: unlines ls := by simp [unlines]
      rw [hl, rows_row (h l List.mem_cons_self), ih fun m hm => h m (List.mem_cons_of_mem _ hm)]

theorem rows_last {l : List Char} (h : '\n' ∉ l) (hne : l ≠ []) : rows l = [l] := by
  have hrun : ∀ (l acc : List Char), '\n' ∉ l → acc ≠ [] ∨ l ≠ [] → rowsFrom acc l = [acc.reverse ++ l] := by
    intro l
    induction l with
    | nil =>
        intro acc _ hacc
        have hacc : acc ≠ [] := hacc.resolve_right fun h => h rfl
        simp [rowsFrom, hacc]
    | cons x l ih =>
        intro acc h _
        have hx : x ≠ '\n' := fun hx => h (hx ▸ List.mem_cons_self)
        have hl : '\n' ∉ l := fun hl => h (List.mem_cons_of_mem _ hl)
        rw [rowsFrom, if_neg hx, ih _ hl (.inl (List.cons_ne_nil x acc)), List.reverse_cons,
          List.append_assoc]
        rfl
  exact hrun l [] h (.inr hne)

/-- The records of an ended text come first in a longer one. -/
theorem rows_append {s : List Char} (h : ended s = true) (t : List Char) :
    rows (s ++ t) = rows s ++ rows t := by
  induction s using lineInduction with
  | nil => rfl
  | last l hne hl => rw [ended_last hne hl] at h; cases h
  | line l s hl ih =>
      rw [ended_line] at h
      rw [List.append_assoc, List.cons_append, rows_row hl, rows_row hl, ih h, List.cons_append]

/-- The records of a text are the text, ended. -/
theorem unlines_rows (s : List Char) : unlines (rows s) = terminated s := by
  induction s using lineInduction with
  | nil => rfl
  | last l hne hl =>
      rw [rows_last hl hne, terminated, if_neg (by rw [ended_last hne hl]; exact Bool.false_ne_true)]
      simp [unlines]
  | line l t hl ih =>
      have hend : terminated (l ++ '\n' :: t) = l ++ '\n' :: terminated t := by
        have h := terminated_append (ended_newline l) t
        rwa [List.append_assoc, List.append_assoc] at h
      rw [rows_row hl, unlines_cons, ih, hend]

/-- A record holds no newline. -/
theorem newline_not_mem_row {s l : List Char} (h : l ∈ rows s) : '\n' ∉ l := by
  induction s using lineInduction with
  | nil => cases h
  | last m hne hm =>
      rw [rows_last hm hne] at h
      rwa [List.mem_singleton.mp h]
  | line m s hm ih =>
      rw [rows_row hm] at h
      rcases List.mem_cons.mp h with rfl | h
      · exact hm
      · exact ih h

/-- And as lines, less the carriage returns they end in. -/
theorem lines_unlines {ls : List (List Char)} (h : ∀ l ∈ ls, '\n' ∉ l) :
    lines (unlines ls) = ls.map dropCr := by
  induction ls with
  | nil => rfl
  | cons l ls ih =>
      have hl : unlines (l :: ls) = l ++ '\n' :: unlines ls := by simp [unlines]
      rw [hl, lines_line (h l List.mem_cons_self), ih fun m hm => h m (List.mem_cons_of_mem _ hm)]
      rfl

theorem dropCr_append {l : List Char} (h : l ≠ []) (s : List Char) : dropCr (s ++ l) = s ++ dropCr l := by
  rcases List.eq_nil_or_concat l with rfl | ⟨m, c, rfl⟩
  · exact absurd rfl h
  · rw [List.concat_eq_append, ← List.append_assoc]
    by_cases hc : c = '\x0d'
    · simp [dropCr, hc]
    · rw [dropCr_concat hc, dropCr_concat hc, List.append_assoc]

/-- A line keeps its end where what follows its last separator does. -/
theorem dropCr_cons {c : Char} (hc : c ≠ '\x0d') (s l : List Char) :
    dropCr (s ++ c :: l) = s ++ c :: dropCr l := by
  cases l with
  | nil => exact dropCr_concat hc s
  | cons x l =>
      rw [List.append_cons, dropCr_append (List.cons_ne_nil x l), List.append_assoc]
      rfl

theorem filterMap_eq_self_iff {α : Type} {f : α → Option α} {xs : List α} :
    xs.filterMap f = xs ↔ ∀ x ∈ xs, f x = some x := by
  induction xs with
  | nil => simp
  | cons x xs ih =>
      cases hx : f x with
      | none =>
          have hlen := List.length_filterMap_le f xs
          refine iff_of_false (fun h => ?_) fun h => ?_
          · rw [List.filterMap_cons_none hx] at h
            rw [h, List.length_cons] at hlen
            exact absurd hlen (by omega)
          · rw [h x List.mem_cons_self] at hx
            cases hx
      | some y =>
          rw [List.filterMap_cons_some hx, List.cons.injEq, ih, List.forall_mem_cons, hx,
            Option.some.injEq]

/-- What is written line by line is read back where every line is whole, keeps
its end and is read as what it was written for. -/
theorem read_back_iff {α : Type} {read : List Char → Option α} {line : α → List Char}
    (hread : ∀ l x, read l = some x → l = line x) (xs : List α) :
    (lines (unlines (xs.map line))).filterMap read = xs ↔
      ∀ x ∈ xs, '\n' ∉ line x ∧ dropCr (line x) = line x ∧ read (line x) = some x := by
  have hwhole : (∀ x ∈ xs, '\n' ∉ line x) → ((lines (unlines (xs.map line))).filterMap read = xs ↔
      ∀ x ∈ xs, read (dropCr (line x)) = some x) := by
    intro h
    have hl : ∀ l ∈ xs.map line, '\n' ∉ l := by
      intro l hl
      obtain ⟨x, hx, rfl⟩ := List.mem_map.mp hl
      exact h x hx
    rw [lines_unlines hl, List.map_map, List.filterMap_map]
    exact filterMap_eq_self_iff
  constructor
  · intro h
    have hn : ∀ x ∈ xs, '\n' ∉ line x := by
      intro x hx
      rw [← h] at hx
      obtain ⟨l, hl, hlx⟩ := List.mem_filterMap.mp hx
      rw [← hread l x hlx]
      exact newline_not_mem hl
    intro x hx
    have hr := (hwhole hn).mp h x hx
    have hd := hread _ x hr
    exact ⟨hn x hx, hd, by rwa [hd] at hr⟩
  · intro h
    refine (hwhole fun x hx => (h x hx).1).mpr fun x hx => ?_
    rw [(h x hx).2.1]
    exact (h x hx).2.2

/-! ## Fields -/

/-- What parts two fields. -/
def blank (c : Char) : Bool := c = ' ' || c = '\t' || c = '\n'

def fieldsFrom : List Char → List Char → List (List Char)
  | acc, [] => if acc.isEmpty then [] else [acc.reverse]
  | acc, x :: xs =>
      if blank x then if acc.isEmpty then fieldsFrom [] xs else acc.reverse :: fieldsFrom [] xs
      else fieldsFrom (x :: acc) xs

/-- The words of a record. -/
def fields (s : List Char) : List (List Char) := fieldsFrom [] s

/-- A blank parts the words on either side. -/
theorem fieldsFrom_blank {c : Char} (hc : blank c = true) (acc s t : List Char) :
    fieldsFrom acc (s ++ c :: t) = fieldsFrom acc s ++ fields t := by
  induction s generalizing acc with
  | nil =>
      rw [List.nil_append, fieldsFrom, fieldsFrom, if_pos hc]
      split <;> rfl
  | cons x s ih =>
      rw [List.cons_append, fieldsFrom, fieldsFrom]
      split
      · split
        · exact ih []
        · rw [ih [], List.cons_append]
      · exact ih _

theorem fields_blank {c : Char} (hc : blank c = true) (s t : List Char) :
    fields (s ++ c :: t) = fields s ++ fields t := fieldsFrom_blank hc [] s t

theorem fieldsFrom_word {w : List Char} (h : ∀ c ∈ w, blank c = false) (acc : List Char)
    (hne : acc ≠ [] ∨ w ≠ []) : fieldsFrom acc w = [acc.reverse ++ w] := by
  induction w generalizing acc with
  | nil =>
      have hacc : acc ≠ [] := hne.resolve_right fun h => h rfl
      simp [fieldsFrom, hacc]
  | cons x w ih =>
      have hx : blank x = false := h x List.mem_cons_self
      rw [fieldsFrom, if_neg (by rw [hx]; exact Bool.false_ne_true),
        ih (fun c hc => h c (List.mem_cons_of_mem _ hc)) _ (.inl (List.cons_ne_nil x acc)),
        List.reverse_cons, List.append_assoc]
      rfl

/-- A word is its own only field. -/
theorem fields_word {w : List Char} (hne : w ≠ []) (h : ∀ c ∈ w, blank c = false) :
    fields w = [w] := fieldsFrom_word h [] (.inr hne)

end Rescind.Lib.Text
