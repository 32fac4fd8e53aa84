/-
# `Rescind.Safety.Regions` — the laws of a fenced region

What setting and stripping a region keep of the rest of a file.  Both go by
lines as the engine reads them: a file whose lines end otherwise comes out with
newlines, a region whose end comes before its begin counts as intact, and a
file that has lost a marker is not mended by setting the region again.

    no line is lost but those of the region, where lines end in
      newlines and the region is one of begin to end    (`region_laws_iff`)

Neither content has a marker of the region.  The laws are about the text, and not about how
a file of it is written.
-/
import Rescind.Engine.Footprint
import Rescind.Lib.Lines

namespace Rescind

open Lib Lib.Text

/-! ## Texts and their regions -/

/-- No line of the text is a marker of the anchor. -/
def Unmarked (a : String) (s : List Char) : Prop :=
  beginMarker a ∉ lines s ∧ endMarker a ∉ lines s

instance (a : String) (s : List Char) : Decidable (Unmarked a s) :=
  inferInstanceAs (Decidable (_ ∧ _))

/-- The fenced block that is set. -/
def fence (a : String) (c : List Char) : List Char :=
  beginMarker a ++ '\n' :: c ++ '\n' :: endMarker a ++ ['\n']

/-- The text is `u`, the region's begin, `d`, its end, and `v`, whatever the
markers' lines end in. -/
structure Fenced (a : String) (t u d v : List Char) : Prop where
  parts : ∃ r₁ r₂, t = u ++ r₁ ++ d ++ r₂ ++ v ∧ lines r₁ = [beginMarker a] ∧
    lines r₂ = [endMarker a] ∧ ended r₁ = true ∧ (ended r₂ = true ∨ v = [])
  before : ended u = true
  within : ended d = true
  clear : Unmarked a u ∧ Unmarked a d ∧ Unmarked a v

/-- The region is there once, intact, and holds `c`. -/
def HoldsRegion (a : String) (t c : List Char) : Prop :=
  regionIntact t a = true ∧ ∃ u v, t = u ++ fence a c ++ v ∧ ended u = true ∧ Unmarked a u ∧
    Unmarked a v

/-- The laws of setting and stripping the region `a` of the text `t`. -/
structure RegionLaws (a : String) (t c c' : List Char) : Prop where
  /-- Set into a text without the region, and stripped again. -/
  reversed : Unmarked a t → regionStrip (regionPut t a c) a = some t
  /-- Set again: the one region there is holds what was set last. -/
  replaced : Unmarked a t → HoldsRegion a (regionPut (regionPut t a c) a c') c' ∧
    regionPut (regionPut t a c) a c' = regionPut t a c'
  /-- Set where there is no intact region: the text stays byte for byte, and the
  region comes after it. -/
  appended : regionIntact t a = false → regionPut t a c = terminated t ++ fence a c
  /-- The rest of the text stays byte for byte. -/
  confined : ∀ u d v, Fenced a t u d v → regionStrip t a = some (terminated (u ++ v)) ∧
    regionPut t a c = terminated (u ++ v) ++ fence a c
  /-- And with it the regions of other anchors. -/
  spared : ∀ u d v b e, a ≠ b → Fenced a t u d v → fence b e <:+: u ∨ fence b e <:+: v →
    (∃ y, regionStrip t a = some y ∧ fence b e <:+: y) ∧ fence b e <:+: regionPut t a c
  /-- Also where the region `a` is not there yet. -/
  beside : ∀ b e, regionIntact t a = false → fence b e <:+: t → fence b e <:+: regionPut t a c
  /-- A damaged text is mended by setting the region. -/
  mended : regionIntact t a = false → regionIntact (regionPut t a c) a = true
  /-- What is stripped is a begin, an end, and what is between. -/
  paired : ∀ y, regionStrip t a = some y → ∃ p m q,
    lines t = p ++ beginMarker a :: m ++ endMarker a :: q ∧ y = unlines (p ++ q)

/-- The texts and anchors the laws hold of. -/
structure Regular (a : String) (t : List Char) : Prop where
  /-- The anchor is of one line. -/
  oneLine : '\n' ∉ a.toList
  /-- Without the region, every line ends in a newline alone. -/
  plain : Unmarked a t → ended t = true ∧ ¬Crlf t
  /-- With it, every line outside of it. -/
  outside : ∀ u d v, Fenced a t u d v → ¬Crlf u ∧ ¬Crlf v
  /-- There is no marker but those of an intact region. -/
  whole : regionIntact t a = false → Unmarked a t
  /-- Its end does not come before its begin. -/
  ordered : regionIntact t a = true → ¬∃ p m q, lines t = p ++ endMarker a :: m ++ beginMarker a :: q

/-! ## Markers -/

theorem beginMarker_concat (a : String) :
    beginMarker a = ("# rescind-region " ++ a ++ " begi").toList ++ ['n'] := by
  simp [beginMarker, String.toList_append]

theorem endMarker_concat (a : String) :
    endMarker a = ("# rescind-region " ++ a ++ " en").toList ++ ['d'] := by
  simp [endMarker, String.toList_append]

theorem beginMarker_ne_endMarker (a b : String) : beginMarker a ≠ endMarker b := by
  intro h
  rw [beginMarker_concat, endMarker_concat] at h
  have hlast := congrArg List.getLast? h
  rw [List.getLast?_concat, List.getLast?_concat] at hlast
  exact absurd hlast (by decide)

theorem dropCr_beginMarker (a : String) : dropCr (beginMarker a) = beginMarker a := by
  rw [beginMarker_concat]
  exact dropCr_concat (by decide) _

theorem dropCr_endMarker (a : String) : dropCr (endMarker a) = endMarker a := by
  rw [endMarker_concat]
  exact dropCr_concat (by decide) _

theorem newline_mem_markers {a : String} :
    ('\n' ∈ beginMarker a ↔ '\n' ∈ a.toList) ∧ ('\n' ∈ endMarker a ↔ '\n' ∈ a.toList) := by
  simp [beginMarker, endMarker, String.toList_append]

/-- The lines of a fenced block. -/
theorem lines_fence {a : String} (ha : '\n' ∉ a.toList) (c s : List Char) :
    lines (fence a c ++ s) =
      beginMarker a :: lines (c ++ ['\n']) ++ endMarker a :: lines s := by
  have hb : '\n' ∉ beginMarker a := fun h => ha (newline_mem_markers.1.mp h)
  have he : '\n' ∉ endMarker a := fun h => ha (newline_mem_markers.2.mp h)
  have hsplit : fence a c ++ s =
      beginMarker a ++ '\n' :: ((c ++ ['\n']) ++ (endMarker a ++ '\n' :: s)) := by simp [fence]
  rw [hsplit, lines_line hb, dropCr_beginMarker, lines_append (ended_newline c), lines_line he,
    dropCr_endMarker, List.cons_append]

theorem regionPut_eq (t : List Char) (a : String) (c : List Char) :
    regionPut t a c = terminated ((regionStrip t a).getD t) ++ fence a c := by
  unfold regionPut terminated ended fence
  simp only [List.append_assoc, List.cons_append, List.nil_append]

/-- What is stripped is ended. -/
theorem ended_of_strip {t y : List Char} {a : String} (h : regionStrip t a = some y) :
    ended y = true := by
  unfold regionStrip at h
  split at h
  · injection h with h
    rw [← h]
    exact ended_unlines _
  · cases h

/-! ## Lines between markers -/

section
variable {b e : List Char} {p m q : List (List Char)}

theorem stripLines_append (hb : b ∉ p) (he : e ∉ p) (skipping : Bool) (ls : List (List Char)) :
    stripLines b e skipping (p ++ ls) =
      (if skipping then [] else p) ++ stripLines b e skipping ls := by
  induction p with
  | nil => simp
  | cons l p ih =>
      obtain ⟨hlb, hb⟩ := not_or.mp (fun h => hb (List.mem_cons.mpr h))
      obtain ⟨hle, he⟩ := not_or.mp (fun h => he (List.mem_cons.mpr h))
      rw [List.cons_append, stripLines, if_neg (Ne.symm hlb), if_neg (Ne.symm hle)]
      cases skipping with
      | true => exact ih hb he
      | false => exact congrArg (l :: ·) (ih hb he)

/-- A begin and an end, with what is between, are taken out. -/
theorem stripLines_pair (hbe : b ≠ e) (hp : b ∉ p ∧ e ∉ p) (hm : b ∉ m ∧ e ∉ m)
    (hq : b ∉ q ∧ e ∉ q) : stripLines b e false (p ++ b :: m ++ e :: q) = p ++ q := by
  have hend : stripLines b e false q = q := by
    have h := stripLines_append hq.1 hq.2 false []
    rwa [List.append_nil, if_neg Bool.false_ne_true, stripLines, List.append_nil] at h
  rw [List.append_assoc, stripLines_append hp.1 hp.2, if_neg Bool.false_ne_true, List.cons_append,
    stripLines, if_pos rfl, stripLines_append hm.1 hm.2, if_pos rfl, List.nil_append, stripLines,
    if_neg (Ne.symm hbe), if_pos rfl, hend]

/-- One of each, and the end after the begin. -/
theorem count_pair (hbe : b ≠ e) (hp : b ∉ p ∧ e ∉ p) (hm : b ∉ m ∧ e ∉ m) (hq : b ∉ q ∧ e ∉ q) :
    (p ++ b :: m ++ e :: q).count b = 1 ∧ (p ++ b :: m ++ e :: q).count e = 1 := by
  simp [List.count_append, List.count_eq_zero_of_not_mem, hp, hm, hq, hbe]

/-- A begin and an end once each come in one order or the other. -/
theorem pair_of_count {ls : List (List Char)} (hbe : b ≠ e) (hb : ls.count b = 1)
    (he : ls.count e = 1) : (∃ p m q, ls = p ++ b :: m ++ e :: q) ∨
      ∃ p m q, ls = p ++ e :: m ++ b :: q := by
  have hbm : b ∈ ls := List.count_pos_iff.mp (by omega)
  have hem : e ∈ ls := List.count_pos_iff.mp (by omega)
  obtain ⟨p, r, rfl⟩ := List.append_of_mem hbm
  rcases List.mem_append.mp hem with h | h
  · obtain ⟨p₁, p₂, rfl⟩ := List.append_of_mem h
    exact .inr ⟨p₁, p₂, r, rfl⟩
  · obtain ⟨m, q, rfl⟩ := List.append_of_mem ((List.mem_cons.mp h).resolve_left (Ne.symm hbe))
    exact .inl ⟨p, m, q, by simp⟩

/-- Nothing else is a marker. -/
theorem clear_of_count (hbe : b ≠ e) (hb : (p ++ b :: m ++ e :: q).count b = 1)
    (he : (p ++ b :: m ++ e :: q).count e = 1) :
    (b ∉ p ∧ e ∉ p) ∧ (b ∉ m ∧ e ∉ m) ∧ (b ∉ q ∧ e ∉ q) := by
  simp only [List.count_append, List.count_cons_self, List.count_cons_of_ne hbe,
    List.count_cons_of_ne (Ne.symm hbe)] at hb he
  simp only [← List.count_eq_zero]
  omega

/-- Where each is there once, they do not come in both orders. -/
theorem marker_order {p' m' q' : List (List Char)} (hbe : b ≠ e)
    (hb : (p ++ b :: m ++ e :: q).count b = 1) (he : (p ++ b :: m ++ e :: q).count e = 1)
    (h : p ++ b :: m ++ e :: q = p' ++ e :: m' ++ b :: q') : False := by
  have hp : e ∉ p := (clear_of_count hbe hb he).1.2
  rw [h] at hb he
  have hp' : b ∉ p' := (clear_of_count (Ne.symm hbe) he hb).1.2
  simp only [List.append_assoc, List.cons_append] at h
  rcases List.append_eq_append_iff.mp h with ⟨as, rfl, has⟩ | ⟨as, rfl, has⟩
  · cases as with
    | nil => exact hbe (List.head_eq_of_cons_eq has)
    | cons x as =>
        obtain rfl := List.head_eq_of_cons_eq has
        exact hp' (List.mem_append_right _ List.mem_cons_self)
  · cases as with
    | nil => exact hbe (List.head_eq_of_cons_eq has).symm
    | cons x as =>
        obtain rfl := List.head_eq_of_cons_eq has
        exact hp (List.mem_append_right _ List.mem_cons_self)

end

/-! ## Where the laws hold -/

theorem intact_iff {t : List Char} {a : String} : regionIntact t a = true ↔
    (lines t).count (beginMarker a) = 1 ∧ (lines t).count (endMarker a) = 1 := by
  simp [regionIntact]

theorem strip_eq {t : List Char} {a : String} (h : regionIntact t a = true) : regionStrip t a =
    some (unlines (stripLines (beginMarker a) (endMarker a) false (lines t))) := if_pos h

theorem not_intact_of_newline {a : String} (ha : '\n' ∈ a.toList) (t : List Char) :
    regionIntact t a = false := by
  have hb : beginMarker a ∉ lines t := fun h => newline_not_mem h (newline_mem_markers.1.mpr ha)
  simp [regionIntact, List.count_eq_zero_of_not_mem hb]

/-- Without the region, it is appended. -/
theorem put_of_damaged {t : List Char} {a : String} (h : regionIntact t a = false) (c : List Char) :
    regionPut t a c = terminated t ++ fence a c := by
  have hs : regionStrip t a = none := if_neg (by rw [h]; exact Bool.false_ne_true)
  rw [regionPut_eq, hs, Option.getD_none]

theorem infix_terminated {s t : List Char} (h : s <:+: t) : s <:+: terminated t := by
  unfold terminated
  split
  · exact h
  · exact h.trans (List.prefix_append _ _).isInfix

theorem damaged_of_unmarked {t : List Char} {a : String} (h : Unmarked a t) :
    regionIntact t a = false := by
  simp [regionIntact, List.count_eq_zero_of_not_mem h.1]

section
variable {a : String} {t c : List Char}

/-- The lines of a text the region was appended to. -/
theorem lines_appended (ha : '\n' ∉ a.toList) (ht : ended t = true) :
    lines (t ++ fence a c) =
      lines t ++ beginMarker a :: lines (c ++ ['\n']) ++ endMarker a :: [] := by
  have h := lines_fence ha c []
  rw [List.append_nil] at h
  rw [lines_append ht, h, List.append_assoc]
  rfl

/-- A region appended to a text is intact just where the text had no marker. -/
theorem appended_intact_iff (ha : '\n' ∉ a.toList) (hc : Unmarked a (c ++ ['\n']))
    (ht : ended t = true) : regionIntact (t ++ fence a c) a = true ↔ Unmarked a t := by
  rw [intact_iff, lines_appended ha ht]
  constructor
  · rintro ⟨hb, he⟩
    exact (clear_of_count (beginMarker_ne_endMarker a a) hb he).1
  · intro h
    exact count_pair (beginMarker_ne_endMarker a a) h hc ⟨List.not_mem_nil, List.not_mem_nil⟩

/-- What is stripped of such a text are its own lines. -/
theorem strip_appended (ha : '\n' ∉ a.toList) (hc : Unmarked a (c ++ ['\n']))
    (ht : ended t = true) (hu : Unmarked a t) :
    regionStrip (t ++ fence a c) a = some (unlines (lines t)) := by
  have hp := stripLines_pair (beginMarker_ne_endMarker a a) hu hc
    (q := []) ⟨List.not_mem_nil, List.not_mem_nil⟩
  rw [List.append_nil] at hp
  rw [strip_eq ((appended_intact_iff ha hc ht).mpr hu), lines_appended ha ht, hp]

theorem unmarked_of_terminated (h : Unmarked a (terminated t)) : Unmarked a t :=
  ⟨fun hb => h.1 (mem_lines_terminated hb (dropCr_beginMarker a)),
    fun he => h.2 (mem_lines_terminated he (dropCr_endMarker a))⟩

end

section
variable {a : String} {t u d v c : List Char}

/-- The lines of a text with the region. -/
theorem Fenced.lines_eq (h : Fenced a t u d v) :
    lines t = lines u ++ beginMarker a :: lines d ++ endMarker a :: lines v := by
  obtain ⟨⟨r₁, r₂, rfl, h₁, h₂, he₁, he₂⟩, hu, hd, -⟩ := h
  have hur : ended (u ++ r₁) = true := ended_append hu he₁
  have hud : ended (u ++ r₁ ++ d) = true := ended_append hur hd
  have hlast : lines (r₂ ++ v) = endMarker a :: lines v := by
    rcases he₂ with he₂ | rfl
    · rw [lines_append he₂, h₂]
      rfl
    · rw [List.append_nil, h₂]
      rfl
  rw [List.append_assoc, lines_append hud, lines_append hur, lines_append hu, h₁, hlast]
  simp

theorem Fenced.strip_eq (h : Fenced a t u d v) :
    regionStrip t a = some (unlines (lines (u ++ v))) := by
  obtain ⟨hu, hd, hv⟩ := h.clear
  have hne := beginMarker_ne_endMarker a a
  have hi : regionIntact t a = true := by
    rw [intact_iff, h.lines_eq]
    exact count_pair hne hu hd hv
  rw [Rescind.strip_eq hi, h.lines_eq, stripLines_pair hne hu hd hv, lines_append h.before]

/-- Its rest stays just where no carriage return is lost. -/
theorem Fenced.strip_iff (h : Fenced a t u d v) :
    regionStrip t a = some (terminated (u ++ v)) ↔ ¬Crlf u ∧ ¬Crlf v := by
  rw [h.strip_eq, Option.some_inj, unlines_lines_iff, crlf_append h.before, not_or]

end

/-- **The laws of a region** hold of a text just where its lines outside the
region end in newlines alone, the region is one of begin to end, and there is no
marker but those of a region. -/
theorem region_laws_iff (a : String) (t c c' : List Char) (hc : Unmarked a (c ++ ['\n']))
    (hc' : Unmarked a (c' ++ ['\n'])) : RegionLaws a t c c' ↔ Regular a t := by
  have hne := beginMarker_ne_endMarker a a
  constructor
  · intro h
    have ha : '\n' ∉ a.toList := by
      intro hn
      have hm := h.mended (not_intact_of_newline hn t)
      rw [not_intact_of_newline hn] at hm
      cases hm
    have hwhole : regionIntact t a = false → Unmarked a (terminated t) := by
      intro hi
      have hm := h.mended hi
      rw [put_of_damaged hi] at hm
      exact (appended_intact_iff ha hc (ended_terminated t)).mp hm
    refine ⟨ha, fun hu => ?_, fun u d v hf => hf.strip_iff.mp (h.confined u d v hf).1,
      fun hi => unmarked_of_terminated (hwhole hi), ?_⟩
    · have hi := damaged_of_unmarked hu
      have hr := h.reversed hu
      rw [put_of_damaged hi, strip_appended ha hc (ended_terminated t) (hwhole hi),
        Option.some_inj] at hr
      have ht : ended t = true := by rw [← hr]; exact ended_unlines _
      rw [terminated_of_ended ht] at hr
      exact (unlines_lines_eq_iff t).mp hr
    · rintro hi ⟨p, m, q, hl⟩
      obtain ⟨p', m', q', hl', -⟩ := h.paired _ (strip_eq hi)
      obtain ⟨hb, he⟩ := intact_iff.mp hi
      rw [hl'] at hb he hl
      exact marker_order hne hb he hl
  · intro h
    have hput : Unmarked a t → ∀ c, regionPut t a c = t ++ fence a c := by
      intro hu c
      rw [put_of_damaged (damaged_of_unmarked hu), terminated_of_ended (h.plain hu).1]
    have hstrip : Unmarked a t → regionStrip (t ++ fence a c) a = some t := by
      intro hu
      rw [strip_appended h.oneLine hc (h.plain hu).1 hu, (unlines_lines_eq_iff t).mpr (h.plain hu)]
    have hconfined : ∀ u d v, Fenced a t u d v →
        regionStrip t a = some (terminated (u ++ v)) ∧
          regionPut t a c = terminated (u ++ v) ++ fence a c := by
      intro u d v hf
      have hs := hf.strip_iff.mpr (h.outside u d v hf)
      refine ⟨hs, ?_⟩
      rw [regionPut_eq, hs, Option.getD_some, terminated_of_ended (ended_terminated _)]
    constructor
    case reversed => exact fun hu => by rw [hput hu, hstrip hu]
    case replaced =>
      intro hu
      have ht := (h.plain hu).1
      rw [hput hu, regionPut_eq, hstrip hu, Option.getD_some, terminated_of_ended ht]
      exact ⟨⟨(appended_intact_iff h.oneLine hc' ht).mpr hu, t, [], by rw [List.append_nil], ht, hu,
        List.not_mem_nil, List.not_mem_nil⟩, (hput hu c').symm⟩
    case appended => exact fun hi => put_of_damaged hi c
    case confined => exact hconfined
    case spared =>
      intro u d v b e _ hf hin
      obtain ⟨hs, hp⟩ := hconfined u d v hf
      have hkept : fence b e <:+: terminated (u ++ v) := by
        have huv : fence b e <:+: u ++ v := hin.elim
          (fun hi => hi.trans (List.prefix_append u v).isInfix)
          (fun hi => hi.trans (List.suffix_append u v).isInfix)
        exact infix_terminated huv
      refine ⟨⟨_, hs, hkept⟩, ?_⟩
      rw [hp]
      exact hkept.trans (List.prefix_append _ _).isInfix
    case beside =>
      intro b e hi hin
      rw [put_of_damaged hi]
      exact (infix_terminated hin).trans (List.prefix_append _ _).isInfix
    case mended =>
      intro hi
      have hu := h.whole hi
      rw [hput hu]
      exact (appended_intact_iff h.oneLine hc (h.plain hu).1).mpr hu
    case paired =>
      intro y hy
      have hi : regionIntact t a = true := by
        cases hi : regionIntact t a with
        | true => rfl
        | false => rw [regionStrip, if_neg (by rw [hi]; exact Bool.false_ne_true)] at hy; cases hy
      obtain ⟨hb, he⟩ := intact_iff.mp hi
      obtain ⟨p, m, q, hl⟩ := (pair_of_count hne hb he).resolve_right (h.ordered hi)
      refine ⟨p, m, q, hl, ?_⟩
      rw [hl] at hb he
      obtain ⟨hp, hm, hq⟩ := clear_of_count hne hb he
      rw [strip_eq hi, Option.some_inj, hl, stripLines_pair hne hp hm hq] at hy
      exact hy.symm

namespace Unended

/-- A file whose last line has no newline. -/
def keep : List Char := ['k']

theorem unmarked_one : Unmarked "a" ['x', '\n'] ∧ Unmarked "a" ['k', '\n'] ∧ Unmarked "a" keep := by
  decide +kernel

/-- The same file with its newline is set and stripped as the laws say. -/
theorem laws_ended : RegionLaws "a" ['k', '\n'] ['x'] ['x'] := by
  have hlines : lines ['k', '\n'] = [['k']] := by decide
  refine (region_laws_iff "a" ['k', '\n'] ['x'] ['x'] unmarked_one.1 unmarked_one.1).mpr
    ⟨by decide, fun _ => ⟨rfl, ?_⟩, ?_, fun _ => unmarked_one.2.1, ?_⟩
  · rw [← unlines_lines_iff, hlines]
    rfl
  · intro u d v hf
    have h := hf.lines_eq
    rw [hlines] at h
    exact absurd (congrArg List.length h) (by simp; omega)
  · intro hi
    exact absurd hi (by decide +kernel)

/-- Set and stripped, the file has a newline it did not have. -/
theorem newline_added : ¬ ∀ (a : String) (t c c' : List Char), Unmarked a (c ++ ['\n']) →
    Unmarked a (c' ++ ['\n']) → RegionLaws a t c c' := by
  intro h
  have hr := (h "a" keep ['x'] ['x'] unmarked_one.1 unmarked_one.1).reversed unmarked_one.2.2
  exact absurd hr (by decide +kernel)

end Unended

end Rescind
