/-
# `Rescind.Safety.Fences` — one region rule in three places

The engine sets and strips a region by the lines of a text, the artifact and the
scripts of `ssh()` by its records, and a script's content loses the newlines it
ends in.  They agree on a text where the markers stand once as lines and as records
and no line outside the fence loses a carriage return, and on one that is damaged
either way and ends in a newline.

An awk is a parameter: of it is asked how it compares whole lines, and of a target's
shell what `printf` leaves of an octal text.

**Proved here.**

    the three places agree exactly there                (`Fences.places_agree_iff`)
    a last line without its newline                     (`Fences.apart`)
-/
import Rescind.Bindings.Ssh
import Rescind.Safety.Manifests
import Rescind.Safety.Regions

namespace Rescind.Fences

open Lib Lib.Text Render

/-! ## Agreement -/

/-- A line of the artifact that sets the region. -/
def artifactSet (A : Awk) (t : List Char) (a c : String) : Except Unquotable (List Char) := do
  let _ ← posix a
  let _ ← posix c
  pure (regionSet A t a c.toList)

/-- A line of the artifact that strips it. -/
def artifactClear (A : Awk) (t : List Char) (a : String) : Except Unquotable (Option (List Char)) := do
  let _ ← posix a
  pure (stripRegion A t a)

/-- The three places have one verdict on the text, and make one text of it. -/
structure Agree (A : Awk) (T : Ssh.Target) (t : List Char) (a c : String) : Prop where
  verdict : Render.regionIntact t a = Rescind.regionIntact t a
  cleared : artifactClear A t a = .ok (regionStrip t a)
  sshCleared : Ssh.regionClear A t a = .ok (regionStrip t a)
  put : artifactSet A t a c = .ok (regionPut t a c.toList)
  sshPut : Ssh.regionSet A T t a c = .ok (regionPut t a c.toList)

/-! ## Where they agree -/

/-- The text stands once among the lines, and once among the records. -/
def Once (m t : List Char) : Prop := (lines t).count m = 1 ∧ (rows t).count m = 1

/-- The records outside the fence. -/
def outside (b e : List Char) : Bool → List (List Char × Bool) → List (List Char × Bool)
  | _, [] => []
  | skipping, r :: rs =>
      if r.1 = b then outside b e true rs
      else if r.1 = e then outside b e false rs
      else if skipping then outside b e true rs
      else r :: outside b e false rs

/-- The markers stand once each, the anchor is what awk takes it for, and outside the
fence no carriage return stands before a newline. -/
structure Marked (A : Awk) (t : List Char) (a : String) : Prop where
  begin_ : Once (beginMarker a) t
  end_ : Once (endMarker a) t
  assigned : A.anchor a = a
  kept : ∀ r ∈ outside (beginMarker a) (endMarker a) false (endings t), asLine r = r.1

/-- The lines do not have each marker once, and neither do the records. -/
structure Damaged (t : List Char) (a : String) : Prop where
  lines : ¬((lines t).count (beginMarker a) = 1 ∧ (lines t).count (endMarker a) = 1)
  records : ¬(grepCount (beginMarker a) t = 1 ∧ grepCount (endMarker a) t = 1)

/-- What can be written in a script and comes through `$(…)`. -/
structure Carried (a c : String) : Prop where
  anchor : a.toList.all readable = true
  content : c.toList.all readable = true
  bare : c.toList.getLast? ≠ some '\n'

/-! ## Quoting -/

theorem posix_ok_iff {s : String} : (∃ t, posix s = .ok t) ↔ s.toList.all readable = true := by
  unfold posix Render.refuse
  cases hf : s.toList.find? fun c => !readable c with
  | none =>
      have hall := List.find?_eq_none.mp hf
      exact ⟨fun _ => List.all_eq_true.mpr fun c hc => by simpa using hall c hc, fun _ => ⟨_, rfl⟩⟩
  | some c =>
      refine ⟨(fun ⟨t, h⟩ => by cases h), fun hall => ?_⟩
      have hc := List.find?_some hf
      rw [List.all_eq_true.mp hall c (List.mem_of_find?_eq_some hf)] at hc
      cases hc

/-- A program behind a quoted value runs where the value can be quoted. -/
theorem quoted_iff {α : Type} {s : String} {x : Except Unquotable α} {y : α} :
    (posix s >>= fun _ => x) = .ok y ↔ s.toList.all readable = true ∧ x = .ok y := by
  rw [← posix_ok_iff]
  cases posix s with
  | ok t => exact ⟨fun h => ⟨⟨t, rfl⟩, h⟩, fun h => h.2⟩
  | error e => exact ⟨(fun h => by cases h), fun ⟨⟨t, h⟩, _⟩ => by cases h⟩

theorem sshQuoted_iff {α : Type} {s : String} {x : Except Ssh.Unsupported α} {y : α} :
    (Ssh.q s >>= fun _ => x) = .ok y ↔ s.toList.all readable = true ∧ x = .ok y := by
  rw [← posix_ok_iff]
  unfold Ssh.q
  cases posix s with
  | ok t => exact ⟨fun h => ⟨⟨t, rfl⟩, h⟩, fun h => h.2⟩
  | error e => exact ⟨(fun h => by cases h), fun ⟨⟨t, h⟩, _⟩ => by cases h⟩

theorem nul_not_mem {s : List Char} (h : s.all readable = true) : '\x00' ∉ s := fun hm =>
  absurd (List.all_eq_true.mp h _ hm) (by decide)

/-- Nothing is lost of a text that ends in no newline. -/
theorem lessNewlines_eq_iff {s : List Char} :
    Ssh.lessNewlines s = s ↔ s.getLast? ≠ some '\n' := by
  unfold Ssh.lessNewlines
  rcases List.eq_nil_or_concat s with rfl | ⟨l, x, rfl⟩
  · simp
  · rw [List.concat_eq_append, List.reverse_append, List.getLast?_concat]
    show ((x :: l.reverse).dropWhile (· = '\n')).reverse = l ++ [x] ↔ some x ≠ some '\n'
    by_cases hx : x = '\n'
    · rw [List.dropWhile_cons_of_pos (by simpa using hx)]
      refine ⟨fun h => ?_, fun h => absurd (congrArg some hx) h⟩
      have hlen := congrArg List.length h
      have hle := (List.dropWhile_suffix (· = '\n') (l := l.reverse)).length_le
      simp only [List.length_reverse, List.length_append, List.length_singleton] at hlen hle
      omega
    · rw [List.dropWhile_cons_of_neg (by simpa using hx)]
      simp [hx]

/-! ## Counting -/

theorem grepCount_eq {m t : List Char} (h : '\n' ∉ m) : grepCount m t = (rows t).count m := by
  unfold grepCount
  rw [split_of_not_mem h, List.count]
  refine List.countP_congr fun l _ => ?_
  simp

/-- A line of the text holds no newline, so neither does the anchor. -/
theorem oneLine {a : String} {t : List Char} (h : (lines t).count (beginMarker a) = 1) :
    '\n' ∉ a.toList := by
  intro ha
  have hm : beginMarker a ∈ lines t := List.count_pos_iff.mp (by rw [h]; exact Nat.one_pos)
  exact newline_not_mem hm (newline_mem_markers.1.mpr ha)

theorem render_intact_iff {t : List Char} {a : String} : Render.regionIntact t a = true ↔
    grepCount (beginMarker a) t = 1 ∧ grepCount (endMarker a) t = 1 := by
  simp [Render.regionIntact]

/-- Both counts are one on both sides where each marker stands once. -/
theorem once_iff {t : List Char} {a : String} :
    Once (beginMarker a) t ∧ Once (endMarker a) t ↔
      Rescind.regionIntact t a = true ∧ Render.regionIntact t a = true := by
  rw [intact_iff, render_intact_iff]
  have hgrep : '\n' ∉ a.toList → grepCount (beginMarker a) t = (rows t).count (beginMarker a) ∧
      grepCount (endMarker a) t = (rows t).count (endMarker a) := by
    intro ha
    exact ⟨grepCount_eq fun h => ha (newline_mem_markers.1.mp h),
      grepCount_eq fun h => ha (newline_mem_markers.2.mp h)⟩
  constructor
  · rintro ⟨⟨hb, hrb⟩, he, hre⟩
    obtain ⟨hgb, hge⟩ := hgrep (oneLine hb)
    exact ⟨⟨hb, he⟩, hgb.trans hrb, hge.trans hre⟩
  · rintro ⟨⟨hb, he⟩, hrb, hre⟩
    obtain ⟨hgb, hge⟩ := hgrep (oneLine hb)
    exact ⟨⟨hb, hgb.symm.trans hrb⟩, he, hge.symm.trans hre⟩

theorem of_countP_eq {α : Type} {p q : α → Bool} {l : List α} (hpq : ∀ x, p x = true → q x = true)
    (h : l.countP p = l.countP q) : ∀ x ∈ l, q x = true → p x = true := by
  induction l with
  | nil => exact fun x hx => absurd hx List.not_mem_nil
  | cons y l ih =>
      have hle : l.countP p ≤ l.countP q := List.countP_mono_left fun x _ => hpq x
      rw [List.countP_cons, List.countP_cons] at h
      intro x hx hq
      have hy : q y = true → p y = true := by
        intro hqy
        by_contra hpy
        rw [if_neg hpy, if_pos hqy] at h
        omega
      rcases List.mem_cons.mp hx with rfl | hx
      · exact hy hq
      · refine ih ?_ x hx hq
        by_cases hqy : q y = true
        · rw [if_pos hqy, if_pos (hy hqy)] at h
          omega
        · rw [if_neg hqy, if_neg fun hp => hqy (hpq y hp)] at h
          omega

/-- A marker that stands once as a line and once as a record stands there without a
carriage return. -/
theorem asLine_iff {m t : List Char} (hm : dropCr m = m) (h : Once m t) :
    ∀ r ∈ endings t, asLine r = m ↔ r.1 = m := by
  have hsame : ∀ r : List Char × Bool, r.1 = m → asLine r = m := by
    rintro ⟨l, b⟩ rfl
    cases b with
    | true => exact hm
    | false => rfl
  have hcount : (endings t).countP (fun r => r.1 == m) = (endings t).countP fun r => asLine r == m := by
    have hl := h.1
    have hr := h.2
    rw [lines_eq, List.count, List.countP_map] at hl
    rw [rows_eq, List.count, List.countP_map] at hr
    exact hr.trans hl.symm
  intro r hr
  refine ⟨fun hline => ?_, hsame r⟩
  have := of_countP_eq (fun x hx => beq_iff_eq.mpr (hsame x (beq_iff_eq.mp hx))) hcount r hr
    (beq_iff_eq.mpr hline)
  exact beq_iff_eq.mp this

/-! ## Stripping records -/

/-- However a record is read, the same ones are kept where the markers are. -/
theorem stripLines_map {f : List Char × Bool → List Char} {b e : List Char} {skipping : Bool}
    {rs : List (List Char × Bool)} (hb : ∀ r ∈ rs, f r = b ↔ r.1 = b)
    (he : ∀ r ∈ rs, f r = e ↔ r.1 = e) :
    stripLines b e skipping (rs.map f) = (outside b e skipping rs).map f := by
  induction rs generalizing skipping with
  | nil => cases skipping <;> rfl
  | cons r rs ih =>
      have hrb := hb r List.mem_cons_self
      have hre := he r List.mem_cons_self
      have ih : ∀ s, stripLines b e s (rs.map f) = (outside b e s rs).map f := fun s =>
        ih (fun x hx => hb x (List.mem_cons_of_mem _ hx)) fun x hx => he x (List.mem_cons_of_mem _ hx)
      rw [List.map_cons, stripLines, outside]
      by_cases h₁ : r.1 = b
      · rw [if_pos h₁, if_pos (hrb.mpr h₁), ih]
      · rw [if_neg h₁, if_neg fun h => h₁ (hrb.mp h)]
        by_cases h₂ : r.1 = e
        · rw [if_pos h₂, if_pos (hre.mpr h₂), ih]
        · rw [if_neg h₂, if_neg fun h => h₂ (hre.mp h)]
          cases skipping with
          | true => simp only [if_true, ih]
          | false => simp only [Bool.false_eq_true, if_false, List.map_cons, ih]

section
variable {b e x : List Char} {ls p q : List (List Char)}

theorem not_mem_stripLines (skipping : Bool) : b ∉ stripLines b e skipping ls := by
  induction ls generalizing skipping with
  | nil => exact List.not_mem_nil
  | cons l ls ih =>
      rw [stripLines]
      split
      next => exact ih true
      next hl =>
        split
        · exact ih false
        · split
          · exact ih true
          · intro h
            rcases List.mem_cons.mp h with rfl | h
            · exact hl rfl
            · exact ih false h

/-- What is not kept, and is no marker, comes after a begin. -/
theorem after_begin (hx : x ∈ ls) (hb : x ≠ b) (he : x ≠ e) (h : x ∉ stripLines b e false ls) :
    ∃ p q, ls = p ++ b :: q ∧ x ∈ q := by
  induction ls with
  | nil => cases hx
  | cons l ls ih =>
      have hrest : x ≠ l → x ∈ ls := fun hl => (List.mem_cons.mp hx).resolve_left hl
      have hlater : x ∈ ls → x ∉ stripLines b e false ls → ∃ p q, l :: ls = p ++ b :: q ∧ x ∈ q := by
        intro hm hs
        obtain ⟨p, q, hls, hq⟩ := ih hm hs
        exact ⟨l :: p, q, by rw [hls, List.cons_append], hq⟩
      rw [stripLines] at h
      split at h
      next hl => exact ⟨[], ls, by rw [hl, List.nil_append], hrest (hl ▸ hb)⟩
      next =>
        split at h
        next hl => exact hlater (hrest (hl ▸ he)) h
        next =>
          rw [if_neg Bool.false_ne_true] at h
          exact hlater (hrest fun hl => h (hl ▸ List.mem_cons_self))
            fun hm => h (List.mem_cons_of_mem _ hm)

/-- What stands before the begin is kept. -/
theorem mem_stripLines_of_before (hp : b ∉ p) (hb : x ≠ b) (he : x ≠ e) :
    x ∈ stripLines b e false (p ++ x :: q) := by
  induction p with
  | nil =>
      rw [List.nil_append, stripLines, if_neg hb, if_neg he, if_neg Bool.false_ne_true]
      exact List.mem_cons_self
  | cons l p ih =>
      have hl : l ≠ b := fun hl => hp (hl ▸ List.mem_cons_self)
      have ih := ih fun h => hp (List.mem_cons_of_mem _ h)
      rw [List.cons_append, stripLines, if_neg hl]
      split
      · exact ih
      · rw [if_neg Bool.false_ne_true]
        exact List.mem_cons_of_mem _ ih

theorem mem_of_stripLines {skipping : Bool} (h : x ∈ stripLines b e skipping ls) : x ∈ ls := by
  induction ls generalizing skipping with
  | nil => cases h
  | cons l ls ih =>
      rw [stripLines] at h
      split at h
      · exact List.mem_cons_of_mem _ (ih h)
      · split at h
        · exact List.mem_cons_of_mem _ (ih h)
        · split at h
          · exact List.mem_cons_of_mem _ (ih h)
          · rcases List.mem_cons.mp h with rfl | h
            · exact List.mem_cons_self
            · exact List.mem_cons_of_mem _ (ih h)

end

/-! ## Where each marker stands once -/

section
variable {A : Awk} {t : List Char} {a : String}

/-- The lines that are kept, as records and as lines. -/
theorem kept_eq (hb : Once (beginMarker a) t) (he : Once (endMarker a) t) :
    stripLines (beginMarker a) (endMarker a) false (rows t) =
        (outside (beginMarker a) (endMarker a) false (endings t)).map Prod.fst ∧
      stripLines (beginMarker a) (endMarker a) false (lines t) =
        (outside (beginMarker a) (endMarker a) false (endings t)).map asLine := by
  constructor
  · rw [rows_eq]
    exact stripLines_map (fun _ _ => Iff.rfl) fun _ _ => Iff.rfl
  · rw [lines_eq]
    exact stripLines_map (asLine_iff (dropCr_beginMarker a) hb) (asLine_iff (dropCr_endMarker a) he)

theorem beginMarker_injective {a a' : String} (h : beginMarker a = beginMarker a') : a = a' := by
  rw [beginMarker, beginMarker, String.toList_append, String.toList_append, String.toList_append,
    String.toList_append, List.append_assoc, List.append_assoc] at h
  exact String.toList_injective (List.append_cancel_right (List.append_cancel_left h))

/-- Text is stripped the same where the marked lines are what awk goes by. -/
theorem stripRegion_eq_iff (hb : Once (beginMarker a) t) (he : Once (endMarker a) t) :
    stripRegion A t a = regionStrip t a ↔ A.anchor a = a ∧
      ∀ r ∈ outside (beginMarker a) (endMarker a) false (endings t), asLine r = r.1 := by
  obtain ⟨hi, hr⟩ := once_iff.mp ⟨hb, he⟩
  obtain ⟨hrows, hlines⟩ := kept_eq hb he
  have hsame : stripRegion A t a = regionStrip t a ↔
      stripLines (beginMarker (A.anchor a)) (endMarker (A.anchor a)) false (rows t) =
        stripLines (beginMarker a) (endMarker a) false (lines t) := by
    rw [strip_eq hi, stripRegion, if_pos hr, Option.some.injEq, printed]
    refine ⟨fun h => ?_, fun h => congrArg unlines h⟩
    have h := congrArg rows h
    rwa [rows_unlines fun l hl => newline_not_mem_row (mem_of_stripLines hl),
      rows_unlines fun l hl => newline_not_mem (mem_of_stripLines hl)] at h
  have hkept : ((outside (beginMarker a) (endMarker a) false (endings t)).map Prod.fst =
      (outside (beginMarker a) (endMarker a) false (endings t)).map asLine) ↔
      ∀ r ∈ outside (beginMarker a) (endMarker a) false (endings t), asLine r = r.1 :=
    List.map_inj_left.trans ⟨fun h r hm => (h r hm).symm, fun h r hm => (h r hm).symm⟩
  rw [hsame]
  constructor
  · intro h
    have hassigned : A.anchor a = a := by
      by_contra hne
      -- awk passes the begin over, so another's stands before it, and the engine keeps that
      have hbegin : beginMarker a ≠ beginMarker (A.anchor a) := fun h => hne (beginMarker_injective h).symm
      have hmem : beginMarker a ∈ rows t := List.count_pos_iff.mp (by rw [hb.2]; exact Nat.one_pos)
      have hgone : beginMarker a ∉ stripLines (beginMarker (A.anchor a)) (endMarker (A.anchor a)) false
          (rows t) := by
        rw [h]
        exact not_mem_stripLines false
      obtain ⟨p, q, hpq, hq⟩ := after_begin hmem hbegin (beginMarker_ne_endMarker _ _) hgone
      have hone := hb.2
      rw [hpq, List.count_append, List.count_cons_of_ne hbegin.symm] at hone
      have hlater : 0 < q.count (beginMarker a) := List.count_pos_iff.mpr hq
      have hp : beginMarker a ∉ p := List.count_eq_zero.mp (by omega)
      have hstays : beginMarker (A.anchor a) ∈
          stripLines (beginMarker a) (endMarker a) false (rows t) := by
        rw [hpq]
        exact mem_stripLines_of_before hp hbegin.symm (beginMarker_ne_endMarker _ _)
      rw [hrows] at hstays
      obtain ⟨r, hr, hfst⟩ := List.mem_map.mp hstays
      have hline : asLine r = beginMarker (A.anchor a) := by
        rw [asLine, hfst, dropCr_beginMarker, ite_self]
      have hkeeps : beginMarker (A.anchor a) ∈ stripLines (beginMarker a) (endMarker a) false (lines t) := by
        rw [hlines]
        exact List.mem_map.mpr ⟨r, hr, hline⟩
      rw [← h] at hkeeps
      exact not_mem_stripLines false hkeeps
    rw [hassigned, hrows, hlines] at h
    exact ⟨hassigned, hkept.mp h⟩
  · rintro ⟨hassigned, h⟩
    rw [hassigned, hrows, hlines]
    exact hkept.mpr h

theorem Marked.once (h : Marked A t a) : Rescind.regionIntact t a = true ∧ Render.regionIntact t a = true :=
  once_iff.mp ⟨h.begin_, h.end_⟩

theorem damaged_iff : Damaged t a ↔
    Rescind.regionIntact t a = false ∧ Render.regionIntact t a = false := by
  rw [← Bool.not_eq_true, ← Bool.not_eq_true, intact_iff, render_intact_iff]
  exact ⟨fun h => ⟨h.lines, h.records⟩, fun h => ⟨h.1, h.2⟩⟩

/-- The verdicts are one, and so is what is stripped. -/
theorem stripped_iff : Render.regionIntact t a = Rescind.regionIntact t a ∧
    stripRegion A t a = regionStrip t a ↔ Marked A t a ∨ Damaged t a := by
  constructor
  · rintro ⟨hv, hs⟩
    cases hi : Rescind.regionIntact t a with
    | true =>
        obtain ⟨hb, he⟩ := once_iff.mpr ⟨hi, hv.trans hi⟩
        obtain ⟨hassigned, hkept⟩ := (stripRegion_eq_iff hb he).mp hs
        exact .inl ⟨hb, he, hassigned, hkept⟩
    | false => exact .inr (damaged_iff.mpr ⟨hi, hv.trans hi⟩)
  · rintro (h | h)
    · refine ⟨h.once.2.trans h.once.1.symm, ?_⟩
      exact (stripRegion_eq_iff h.begin_ h.end_).mpr ⟨h.assigned, h.kept⟩
    · obtain ⟨hi, hr⟩ := damaged_iff.mp h
      refine ⟨hr.trans hi.symm, ?_⟩
      rw [stripRegion, regionStrip, hi, hr]
      rfl

/-! ## The block behind it -/

theorem fence_injective {c c' : List Char} (h : fence a c = fence a c') : c = c' := by
  unfold fence at h
  have h := List.append_cancel_right h
  rw [List.append_assoc, List.append_assoc] at h
  have h := List.append_cancel_left h
  exact List.append_cancel_right (List.cons.inj h).2

/-- What is put is one text where what is left of the file is ended. -/
theorem put_eq_iff {c : List Char} (h : stripRegion A t a = regionStrip t a) :
    Render.regionSet A t a c = regionPut t a c ↔
      (Rescind.regionIntact t a = true ∨ ended t = true) := by
  have hparts : Render.regionSet A t a c = regionPut t a c ↔
      (regionStrip t a).getD t = terminated ((regionStrip t a).getD t) := by
    rw [regionPut_eq, Render.regionSet, h]
    exact ⟨List.append_cancel_right, fun h => congrArg (· ++ fence a c) h⟩
  rw [hparts]
  cases hi : Rescind.regionIntact t a with
  | true =>
      have hs := strip_eq hi
      rw [hs, Option.getD_some]
      exact iff_of_true (terminated_of_ended (ended_of_strip hs)).symm (.inl rfl)
  | false =>
      have hs : regionStrip t a = none := if_neg (by rw [hi]; exact Bool.false_ne_true)
      rw [hs, Option.getD_none]
      constructor
      · intro ht
        rw [ht]
        exact .inr (ended_terminated t)
      · rintro (hf | ht)
        · cases hf
        · exact (terminated_of_ended ht).symm

/-- The three places agree where the anchor and the content come through, and the file
is marked in one way, or damaged and ended. -/
theorem places_agree_iff (A : Awk) (T : Ssh.Target) (t : List Char) (a c : String) : Agree A T t a c ↔
    Carried a c ∧ (Marked A t a ∨ Damaged t a ∧ ended t = true) := by
  have hdecoded : c.toList.all readable = true →
      T.decoded (Ssh.octal c) = Ssh.lessNewlines c.toList := fun h => T.decoded_octal c (nul_not_mem h)
  constructor
  · rintro ⟨hverdict, hcleared, _, hput, hssh⟩
    obtain ⟨hanchor, hcleared⟩ := quoted_iff.mp hcleared
    have hcleared : stripRegion A t a = regionStrip t a := Except.ok.inj hcleared
    obtain ⟨_, hput⟩ := quoted_iff.mp hput
    obtain ⟨hcontent, hput⟩ := quoted_iff.mp hput
    have hput : Render.regionSet A t a c.toList = regionPut t a c.toList := Except.ok.inj hput
    obtain ⟨_, hssh⟩ := sshQuoted_iff.mp hssh
    have hssh : Render.regionSet A t a (T.decoded (Ssh.octal c)) = regionPut t a c.toList :=
      Except.ok.inj hssh
    have hbare : Ssh.lessNewlines c.toList = c.toList := by
      rw [← hdecoded hcontent]
      exact fence_injective (List.append_cancel_left (hssh.trans hput.symm))
    refine ⟨⟨hanchor, hcontent, lessNewlines_eq_iff.mp hbare⟩, ?_⟩
    rcases stripped_iff.mp ⟨hverdict, hcleared⟩ with hm | hd
    · exact .inl hm
    · refine .inr ⟨hd, ?_⟩
      rcases (put_eq_iff hcleared).mp hput with hi | ht
      · rw [(damaged_iff.mp hd).1] at hi
        cases hi
      · exact ht
  · rintro ⟨⟨hanchor, hcontent, hbare⟩, h⟩
    obtain ⟨hverdict, hcleared⟩ := stripped_iff.mpr (h.imp_right And.left)
    have hended : Rescind.regionIntact t a = true ∨ ended t = true := h.imp (fun h => h.once.1) And.right
    have hput := (put_eq_iff (c := c.toList) hcleared).mpr hended
    have hssh : Render.regionSet A t a (T.decoded (Ssh.octal c)) = regionPut t a c.toList := by
      rw [hdecoded hcontent, lessNewlines_eq_iff.mpr hbare]
      exact hput
    exact {
      verdict := hverdict
      cleared := quoted_iff.mpr ⟨hanchor, congrArg Except.ok hcleared⟩
      sshCleared := sshQuoted_iff.mpr ⟨hanchor, congrArg Except.ok hcleared⟩
      put := quoted_iff.mpr ⟨hanchor, quoted_iff.mpr ⟨hcontent, congrArg Except.ok hput⟩⟩
      sshPut := sshQuoted_iff.mpr ⟨hanchor, congrArg Except.ok hssh⟩ }

end

/-! ## A last line without its newline -/

/-- The bytes of octal groups. -/
def readOctal : List Char → Bytes
  | _ :: _ :: x :: y :: z :: s =>
      UInt8.ofNat ((x.toNat - 48) * 64 + (y.toNat - 48) * 8 + (z.toNat - 48)) :: readOctal s
  | _ => []

theorem readOctal_octal (bs : Bytes) : readOctal (bs.flatMap Ssh.octalByte) = bs := by
  have hdigit : ∀ n, n < 8 → (Nat.digitChar n).toNat - 48 = n := by decide
  induction bs with
  | nil => rfl
  | cons b bs ih =>
      have hb := b.toNat_lt
      rw [List.flatMap_cons, Ssh.octalByte, List.cons_append, List.cons_append, List.cons_append,
        List.cons_append, List.cons_append, List.nil_append, readOctal, ih, hdigit _ (by omega),
        hdigit _ (by omega), hdigit _ (by omega)]
      have hn : b.toNat / 64 * 64 + b.toNat / 8 % 8 * 8 + b.toNat % 8 = b.toNat := by omega
      rw [hn, UInt8.ofNat_toNat]

/-- A target whose locale is UTF-8. -/
def plainTarget : Ssh.Target where
  decoded s := Ssh.lessNewlines (Bytes.lossy (readOctal s))
  decoded_octal s _ := by rw [Ssh.octal, readOctal_octal, Bytes.ofString, Bytes.lossy_ofText]

/-- The artifact writes the begin behind the last line, the engine after it. -/
theorem apart : ¬∀ (A : Awk) (T : Ssh.Target) (t : List Char) (a c : String), Agree A T t a c := by
  intro h
  have h := h SpacedPath.plainAwk plainTarget ['x'] "r" "y"
  obtain ⟨_, hcleared⟩ := quoted_iff.mp h.cleared
  obtain ⟨_, hput⟩ := quoted_iff.mp (quoted_iff.mp h.put).2
  rcases (put_eq_iff (Except.ok.inj hcleared)).mp (Except.ok.inj hput) with hi | ht
  · exact absurd hi (by decide)
  · exact absurd ht (by decide)

end Rescind.Fences
