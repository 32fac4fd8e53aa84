/-
# `Rescind.Safety.Manifests` — the marker and manifest texts and their readers

Both texts part unescaped fields by spaces.  The engine cuts a line at its first
two, awk reads words, and grep looks for a line that holds the path between two
spaces; they agree where a path is one word.

    the engine reads markers back                    (`parse_markersText_iff`)
    and a manifest                                   (`parse_manifestText_iff`)
    what awk finds for a path                        (`recorded_markersText`)
    what grep finds of one                           (`grepF_manifestText`)
    all three agree with what was written            (`format_laws_iff`)

The digests are hexadecimal.  What awk makes of a path with a backslash, and of two
texts that look like numbers, is a parameter.
-/
import Mathlib.Data.List.Nodup
import Rescind.Render.Helpers

namespace Rescind

open Lib Lib.Text Render

/-! ## Lines -/

/-- A line of `markers/<n>`. -/
def markerLine (m : Marker) : List Char :=
  (kindWord m.kind).toList ++ ' ' :: (m.path.toList ++ ' ' :: m.digest.toList)

/-- A line of `manifest`. -/
def regionLine (r : String × String) : List Char :=
  "region".toList ++ ' ' :: (r.1.toList ++ ' ' :: r.2.toList)

theorem regionLine_eq (r : String × String) :
    regionLine r = "region".toList ++ ' ' :: (r.1.toList ++ ' ' :: r.2.toList) := by
  delta regionLine
  rfl

theorem toList_markersText (ms : List Marker) :
    (markersText ms).toList = unlines (ms.map markerLine) := by
  simp [markersText, String.toList_join, unlines, List.flatMap_map, markerLine]

theorem toList_manifestText (rs : List (String × String)) :
    (manifestText rs).toList = unlines (rs.map regionLine) := by
  simp [manifestText, String.toList_join, unlines, List.flatMap_map, regionLine_eq]

theorem kindOf_kindWord (k : Kind) : kindOf (kindWord k) = some k := by cases k <;> rfl

theorem kindWord_word (k : Kind) : (kindWord k).toList ≠ [] ∧
    (∀ c ∈ (kindWord k).toList, blank c = false) ∧ '\n' ∉ (kindWord k).toList := by
  have hb : (kindWord k).toList.all (fun c => !blank c) = true := by cases k <;> decide
  refine ⟨by cases k <;> decide, fun c hc => ?_, by cases k <;> decide⟩
  simpa using List.all_eq_true.mp hb c hc

theorem kindOf_eq_some {w : String} {k : Kind} (h : kindOf w = some k) : w = kindWord k := by
  unfold kindOf at h
  split at h <;> cases h <;> rfl

/-! ## The engine's reader -/

theorem parseMarker_eq_some {l : List Char} {m : Marker} :
    parseMarker l = some m ↔ l = markerLine m ∧ ' ' ∉ m.path.toList := by
  constructor
  · intro h
    obtain ⟨w, hw, h⟩ := Option.bind_eq_some_iff.mp h
    obtain ⟨k, hk, h⟩ := Option.bind_eq_some_iff.mp h
    obtain ⟨p, hp, rfl⟩ := Option.map_eq_some_iff.mp h
    obtain ⟨rfl, -⟩ := cut_eq_some.mp hw
    obtain ⟨hs, hpath⟩ := cut_eq_some.mp hp
    have hword : w.1 = (kindWord k).toList := by rw [← kindOf_eq_some hk, String.toList_ofList]
    refine ⟨?_, by rwa [String.toList_ofList]⟩
    rw [hs, hword, markerLine, String.toList_ofList, String.toList_ofList]
  · rintro ⟨rfl, hp⟩
    have hsp : ' ' ∉ (kindWord m.kind).toList := fun hc =>
      absurd ((kindWord_word m.kind).2.1 _ hc) (by decide)
    rw [parseMarker, markerLine, cut_append hsp, Option.bind_some, String.ofList_toList,
      kindOf_kindWord, Option.bind_some, cut_append hp, Option.map_some, String.ofList_toList,
      String.ofList_toList]

theorem parseRegion_eq_some {l : List Char} {r : String × String} :
    parseRegion l = some r ↔ l = regionLine r ∧ ' ' ∉ r.1.toList := by
  constructor
  · intro h
    obtain ⟨w, hw, h⟩ := Option.bind_eq_some_iff.mp h
    split at h
    next hk =>
      obtain ⟨p, hp, rfl⟩ := Option.map_eq_some_iff.mp h
      obtain ⟨rfl, -⟩ := cut_eq_some.mp hw
      obtain ⟨hs, hpath⟩ := cut_eq_some.mp hp
      have hword : w.1 = "region".toList := by rw [← hk, String.toList_ofList]
      refine ⟨?_, by rwa [String.toList_ofList]⟩
      rw [hs, hword, regionLine_eq]
      simp only [String.toList_ofList]
    next => cases h
  · rintro ⟨rfl, hp⟩
    have hsp : ' ' ∉ "region".toList := by decide
    rw [parseRegion, regionLine_eq, cut_append hsp, Option.bind_some, String.ofList_toList, if_pos rfl,
      cut_append hp, Option.map_some, String.ofList_toList, String.ofList_toList]

/-- A digest as one is written: letters and digits, at least one. -/
def Digest (d : String) : Prop := d.toList ≠ [] ∧ ∀ c ∈ d.toList, c.isAlphanum = true

theorem Digest.of_all {d : String} (hne : d.toList ≠ []) (h : d.toList.all Char.isAlphanum = true) :
    Digest d := ⟨hne, List.all_eq_true.mp h⟩

theorem Digest.blank {d : String} (h : Digest d) {c : Char} (hc : c ∈ d.toList) : blank c = false := by
  have ha := h.2 c hc
  by_contra hb
  have hcs : c = ' ' ∨ c = '\t' ∨ c = '\n' := by
    rw [Bool.not_eq_false] at hb
    simpa [Text.blank, or_assoc] using hb
  rcases hcs with rfl | rfl | rfl <;> exact absurd ha (by decide)

/-- It ends in no carriage return. -/
theorem Digest.dropCr {d : String} (h : Digest d) : dropCr d.toList = d.toList := by
  rcases dropCr_cases d.toList with hd | hd
  · exact hd
  · have hm : '\x0d' ∈ d.toList := by
      rw [hd]
      exact List.mem_append_right _ List.mem_cons_self
    exact absurd (h.2 _ hm) (by decide)

theorem newline_markerLine {m : Marker} (hd : Digest m.digest) :
    '\n' ∉ markerLine m ↔ '\n' ∉ m.path.toList := by
  have hw := (kindWord_word m.kind).2.2
  have hdn : '\n' ∉ m.digest.toList := fun hc => absurd (hd.blank hc) (by decide)
  simp [markerLine, hw, hdn]

/-- The engine reads markers back where each path is free of spaces and
newlines. -/
theorem parse_markersText_iff {ms : List Marker} (hd : ∀ m ∈ ms, Digest m.digest) :
    parseMarkers (markersText ms).toList = ms ↔
      ∀ m ∈ ms, ' ' ∉ m.path.toList ∧ '\n' ∉ m.path.toList := by
  rw [parseMarkers, toList_markersText,
    read_back_iff (fun l m h => (parseMarker_eq_some.mp h).1) ms]
  refine forall₂_congr fun m hm => ?_
  have hcr : dropCr (markerLine m) = markerLine m := by
    rw [markerLine, dropCr_cons (by decide), dropCr_cons (by decide), (hd m hm).dropCr]
  rw [newline_markerLine (hd m hm), parseMarker_eq_some]
  simp only [hcr, true_and]
  exact and_comm

/-- And a manifest where the anchors keep to their line as well. -/
theorem parse_manifestText_iff {rs : List (String × String)} :
    parseManifest (manifestText rs).toList = rs ↔
      ∀ r ∈ rs, ' ' ∉ r.1.toList ∧ '\n' ∉ r.1.toList ∧ '\n' ∉ r.2.toList ∧
        dropCr r.2.toList = r.2.toList := by
  rw [parseManifest, toList_manifestText,
    read_back_iff (fun l r h => (parseRegion_eq_some.mp h).1) rs]
  refine forall₂_congr fun r hr => ?_
  have hn : '\n' ∉ regionLine r ↔ '\n' ∉ r.1.toList ∧ '\n' ∉ r.2.toList := by simp [regionLine_eq]
  have hcr : dropCr (regionLine r) = regionLine r ↔ dropCr r.2.toList = r.2.toList := by
    rw [regionLine_eq, dropCr_cons (by decide), dropCr_cons (by decide)]
    simp
  rw [hn, hcr, parseRegion_eq_some]
  simp only [true_and]
  constructor
  · rintro ⟨⟨hp, ha⟩, hcr, hs⟩
    exact ⟨hs, hp, ha, hcr⟩
  · rintro ⟨hs, hp, ha, hcr⟩
    exact ⟨⟨hp, ha⟩, hcr, hs⟩

/-! ## awk -/

/-- What a marker's line holds after its kind, word by word. -/
def markerWords (m : Marker) : List (List Char) := fields m.path.toList ++ [m.digest.toList]

/-- The digests awk finds for a path, read off the markers by their words. -/
def toldOf (A : Awk) (ms : List Marker) (p : String) : List (List Char) :=
  (ms.filter fun m => A.same (field 0 (markerWords m)) (A.assigned p.toList)).map
    fun m => field 1 (markerWords m)

theorem Digest.fields {d : String} (h : Digest d) : fields d.toList = [d.toList] :=
  fields_word h.1 fun _ hc => h.blank hc

theorem fields_markerLine {m : Marker} (hd : Digest m.digest) :
    fields (markerLine m) = (kindWord m.kind).toList :: markerWords m := by
  obtain ⟨hne, hw, -⟩ := kindWord_word m.kind
  rw [markerLine, fields_blank rfl, fields_blank rfl, fields_word hne hw, hd.fields]
  rfl

/-- What awk finds for a path. -/
theorem recorded_markersText (A : Awk) {ms : List Marker} (hd : ∀ m ∈ ms, Digest m.digest)
    (hn : ∀ m ∈ ms, '\n' ∉ m.path.toList) (p : String) :
    recorded A (markersText ms).toList p = toldOf A ms p := by
  have hl : ∀ l ∈ ms.map markerLine, '\n' ∉ l := by
    intro l hl
    obtain ⟨m, hm, rfl⟩ := List.mem_map.mp hl
    exact (newline_markerLine (hd m hm)).mpr (hn m hm)
  rw [recorded, toList_markersText, rows_unlines hl, List.filter_map, List.map_map, toldOf]
  have hf : ∀ m ∈ ms, fields (markerLine m) = (kindWord m.kind).toList :: markerWords m :=
    fun m hm => fields_markerLine (hd m hm)
  have hfilter : ms.filter ((fun l => A.same (field 1 (Text.fields l)) (A.assigned p.toList)) ∘ markerLine) =
      ms.filter fun m => A.same (field 0 (markerWords m)) (A.assigned p.toList) := by
    refine List.filter_congr fun m hm => ?_
    rw [Function.comp_apply, hf m hm]
    rfl
  rw [hfilter]
  refine List.map_congr_left fun m hm => ?_
  rw [Function.comp_apply, hf m (List.mem_of_mem_filter hm)]
  rfl

/-- awk takes a marker for the path it is asked about: the first word of the marker's
path, or the digest where the path has none, is the path as `-v` leaves it. -/
def takenFor (A : Awk) (p : String) (m : Marker) : Bool :=
  A.same ((fields m.path.toList).headD m.digest.toList) (A.assigned p.toList)

/-- What it takes for the digest then: the word after the first. -/
def takenDigest (m : Marker) : List Char :=
  match fields m.path.toList with
  | [] => []
  | [_] => m.digest.toList
  | _ :: w :: _ => w

theorem told_iff (A : Awk) {ms : List Marker} {p : String} {d : List Char} :
    toldOf A ms p = [d] ↔ ∃ m₀ ∈ ms, ms.filter (takenFor A p) = [m₀] ∧ takenDigest m₀ = d := by
  have hfirst : (fun m : Marker => A.same (field 0 (markerWords m)) (A.assigned p.toList)) =
      takenFor A p := by
    funext m
    rw [takenFor, markerWords]
    cases fields m.path.toList <;> rfl
  have hsecond : (fun m => field 1 (markerWords m)) = takenDigest := by
    funext m
    rw [takenDigest, markerWords]
    rcases fields m.path.toList with _ | ⟨_, _ | _⟩ <;> rfl
  rw [toldOf, hfirst, hsecond, List.map_eq_singleton_iff]
  constructor
  · rintro ⟨m₀, hf, rfl⟩
    exact ⟨m₀, List.mem_of_mem_filter (hf ▸ List.mem_singleton_self m₀), hf, rfl⟩
  · rintro ⟨m₀, -, hf, hd⟩
    exact ⟨m₀, hf, hd⟩

/-- A path that is one word to awk and no number: absolute, and free of blanks
and backslashes. -/
def PlainPath (p : String) : Prop :=
  '/' ∈ p.toList ∧ '\\' ∉ p.toList ∧ ∀ c ∈ p.toList, blank c = false

/-- Of plain paths awk finds each where none is listed twice. -/
theorem told_iff_nodup (A : Awk) {ms : List Marker} (hp : ∀ m ∈ ms, PlainPath m.path) :
    (∀ m ∈ ms, toldOf A ms m.path = [m.digest.toList]) ↔ (ms.map Marker.path).Nodup := by
  have hw : ∀ m ∈ ms, markerWords m = [m.path.toList, m.digest.toList] := by
    intro m hm
    obtain ⟨hs, -, hb⟩ := hp m hm
    rw [markerWords, fields_word (List.ne_nil_of_mem hs) hb]
    rfl
  have htold : ∀ m ∈ ms, toldOf A ms m.path =
      (ms.filter fun m' => m'.path = m.path).map fun m' => m'.digest.toList := by
    intro m hm
    obtain ⟨-, hb, -⟩ := hp m hm
    have hfilter : (ms.filter fun m' => A.same (field 0 (markerWords m')) (A.assigned m.path.toList)) =
        ms.filter fun m' => m'.path = m.path := by
      refine List.filter_congr fun m' hm' => ?_
      obtain ⟨hs', -, -⟩ := hp m' hm'
      rw [hw m' hm', A.assigned_plain _ hb, Awk.same, field, List.getElem?_cons_zero, Option.getD_some,
        A.numeric_slash _ _ hs', Option.getD_none, Bool.eq_iff_iff, beq_iff_eq, decide_eq_true_eq,
        String.toList_inj]
    rw [toldOf, hfilter]
    refine List.map_congr_left fun m' hm' => ?_
    rw [hw m' (List.mem_of_mem_filter hm')]
    rfl
  have hcount : ∀ m ∈ ms, (ms.map Marker.path).count m.path =
      (ms.filter fun m' => m'.path = m.path).length := by
    intro m hm
    rw [List.count_eq_countP, List.countP_map, List.countP_eq_length_filter]
    rfl
  rw [List.nodup_iff_count_eq_one, List.forall_mem_map]
  refine forall₂_congr fun m hm => ?_
  rw [htold m hm, hcount m hm]
  constructor
  · intro h
    rw [← List.length_map, h, List.length_singleton]
  · intro h
    obtain ⟨x, hx⟩ := List.length_eq_one_iff.mp h
    have hmx : m ∈ ms.filter fun m' => m'.path = m.path := List.mem_filter.mpr ⟨hm, by simp⟩
    rw [hx] at hmx ⊢
    rw [List.mem_singleton.mp hmx]
    rfl

/-! ## grep -/

/-- What a manifest's line holds after `region`. -/
def regionRest (r : String × String) : List Char := r.1.toList ++ ' ' :: r.2.toList

/-- The text grep looks for. -/
def sought (p : String) : List Char := ("region " ++ p ++ " ").toList

theorem split_word {c : Char} {l : List Char} (h : c ∉ l) : split c l = [l] := by
  induction l with
  | nil => rfl
  | cons x l ih =>
      have hx : x ≠ c := fun hx => h (hx ▸ List.mem_cons_self)
      rw [split, if_neg hx, ih fun hl => h (List.mem_cons_of_mem _ hl)]

/-- What is sought stands at the front of a line, or in what follows its first
word. -/
theorem sought_infix_iff {p : String} {r : String × String} (hp : ' ' ∉ p.toList)
    (hr : ' ' ∉ r.1.toList) :
    sought p <:+: regionLine r ↔ r.1 = p ∨ sought p <:+: regionRest r := by
  have hs : sought p = "region ".toList ++ (p.toList ++ [' ']) := by simp [sought]
  have hl : regionLine r = "region ".toList ++ regionRest r := by simp [regionLine_eq, regionRest]
  have hstart : ∀ x y : List Char, "region ".toList ++ x <:+: "region ".toList ++ y ↔
      "region ".toList ++ x <+: "region ".toList ++ y ∨ "region ".toList ++ x <:+: y := by
    intro x y
    simp [List.infix_cons_iff]
  have hfront : p.toList ++ [' '] <+: regionRest r ↔ r.1 = p := by
    constructor
    · rintro ⟨t, ht⟩
      have hc : cut ' ' (p.toList ++ ' ' :: t) = cut ' ' (r.1.toList ++ ' ' :: r.2.toList) :=
        congrArg (cut ' ') (by rw [← regionRest, ← ht, List.append_assoc]; rfl)
      rw [cut_append hp, cut_append hr, Option.some_inj] at hc
      exact (String.toList_inj.mp (congrArg Prod.fst hc)).symm
    · rintro rfl
      exact ⟨r.2.toList, by rw [regionRest, List.append_assoc]; rfl⟩
  rw [hl, hs, hstart, List.prefix_append_right_inj, hfront]

/-- What grep finds of a path. -/
theorem grepF_manifestText {rs : List (String × String)} {p : String}
    (hn : ∀ r ∈ rs, '\n' ∉ r.1.toList ∧ '\n' ∉ r.2.toList) (hp : '\n' ∉ p.toList) :
    grepF ("region " ++ p ++ " ") (manifestText rs).toList = true ↔
      ∃ r ∈ rs, sought p <:+: regionLine r := by
  have hl : ∀ l ∈ rs.map regionLine, '\n' ∉ l := by
    intro l hl
    obtain ⟨r, hr, rfl⟩ := List.mem_map.mp hl
    simpa [regionLine_eq] using hn r hr
  have hs : '\n' ∉ sought p := by simpa [sought] using hp
  have hsplit : split '\n' ("region " ++ p ++ " ").toList = [sought p] := split_word hs
  rw [grepF, toList_manifestText, rows_unlines hl, hsplit]
  simp

/-! ## The three readers -/

/-- The instances of a host and the regions each holds there. -/
abbrev Homes := List (String × List (String × String))

/-- The manifests the instances keep. -/
def manifestsOf (homes : Homes) : List (String × List Char) :=
  homes.map fun h => (h.1, (manifestText h.2).toList)

/-- An instance other than `inst` lists the path. -/
def ListedBy (homes : Homes) (inst p : String) : Prop :=
  ∃ h ∈ homes, h.1 ≠ inst ∧ ∃ r ∈ h.2, r.1 = p

/-- What was written is what every reader finds. -/
structure FormatLaws (A : Awk) (ms : List Marker) (homes : Homes) : Prop where
  /-- The engine reads the markers back. -/
  markers : parseMarkers (markersText ms).toList = ms
  /-- And every manifest. -/
  manifests : ∀ h ∈ homes, parseManifest (manifestText h.2).toList = h.2
  /-- An artifact finds for each path the digest recorded for it. -/
  digests : ∀ m ∈ ms, recorded A (markersText ms).toList m.path = [m.digest.toList]
  /-- And another instance's region just where one is listed. -/
  foreign : ∀ h ∈ homes, ∀ r ∈ h.2,
    foreignRegionIn h.1 (manifestsOf homes) r.1 = true ↔ ListedBy homes h.1 r.1

/-- The paths and anchors the texts carry. -/
structure Plainly (A : Awk) (ms : List Marker) (homes : Homes) : Prop where
  /-- No marker's path holds a space or a newline. -/
  paths : ∀ m ∈ ms, ' ' ∉ m.path.toList ∧ '\n' ∉ m.path.toList
  /-- Nor a region's, and its anchor keeps to its line. -/
  regions : ∀ h ∈ homes, ∀ r ∈ h.2, ' ' ∉ r.1.toList ∧ '\n' ∉ r.1.toList ∧ '\n' ∉ r.2.toList ∧
    dropCr r.2.toList = r.2.toList
  /-- One marker's path begins with the word that awk takes for this path, and the
  word after it, or the digest where it is the whole path, is this digest. -/
  told : ∀ m ∈ ms, ∃ m₀ ∈ ms, ms.filter (takenFor A m.path) = [m₀] ∧ takenDigest m₀ = m.digest.toList
  /-- What grep looks for stands in the rest of another's line only where the
  path is listed. -/
  apart : ∀ h ∈ homes, ∀ r ∈ h.2, ∀ h' ∈ homes, h'.1 ≠ h.1 → ∀ r' ∈ h'.2,
    sought r.1 <:+: regionRest r' → ListedBy homes h.1 r.1

instance (homes : Homes) (inst p : String) : Decidable (ListedBy homes inst p) :=
  inferInstanceAs (Decidable (∃ h ∈ homes, h.1 ≠ inst ∧ ∃ r ∈ h.2, r.1 = p))

theorem foreign_iff {homes : Homes} (hn : ∀ h ∈ homes, ∀ r ∈ h.2, ' ' ∉ r.1.toList ∧
    '\n' ∉ r.1.toList ∧ '\n' ∉ r.2.toList) {inst p : String} (hs : ' ' ∉ p.toList)
    (hp : '\n' ∉ p.toList) :
    foreignRegionIn inst (manifestsOf homes) p = true ↔ ListedBy homes inst p ∨
      ∃ h ∈ homes, h.1 ≠ inst ∧ ∃ r ∈ h.2, sought p <:+: regionRest r := by
  have hgrep : ∀ h ∈ homes, grepF ("region " ++ p ++ " ") (manifestText h.2).toList = true ↔
      (∃ r ∈ h.2, r.1 = p) ∨ ∃ r ∈ h.2, sought p <:+: regionRest r := by
    intro h hh
    rw [grepF_manifestText (fun r hr => (hn h hh r hr).2) hp, ← exists_or]
    refine exists_congr fun r => ?_
    rw [← and_or_left]
    refine and_congr_right fun hr => sought_infix_iff hs (hn h hh r hr).1
  have hany : foreignRegionIn inst (manifestsOf homes) p = true ↔
      ∃ h ∈ homes, h.1 ≠ inst ∧ grepF ("region " ++ p ++ " ") (manifestText h.2).toList = true := by
    simp [foreignRegionIn, manifestsOf]
  rw [hany, ListedBy, ← exists_or]
  refine exists_congr fun h => ?_
  rw [← and_or_left, ← and_or_left]
  exact and_congr_right fun hh => and_congr_right fun _ => hgrep h hh

theorem laws_iff_plainly (A : Awk) {ms : List Marker} (homes : Homes)
    (hd : ∀ m ∈ ms, Digest m.digest) : FormatLaws A ms homes ↔ Plainly A ms homes := by
  have hforeign : (∀ h ∈ homes, ∀ r ∈ h.2, ' ' ∉ r.1.toList ∧ '\n' ∉ r.1.toList ∧
      '\n' ∉ r.2.toList) → ∀ h ∈ homes, ∀ r ∈ h.2,
      (foreignRegionIn h.1 (manifestsOf homes) r.1 = true ↔ ListedBy homes h.1 r.1 ∨
        ∃ h' ∈ homes, h'.1 ≠ h.1 ∧ ∃ r' ∈ h'.2, sought r.1 <:+: regionRest r') :=
    fun hn h hh r hr => foreign_iff hn (hn h hh r hr).1 (hn h hh r hr).2.1
  constructor
  · intro h
    have hpaths := (parse_markersText_iff hd).mp h.markers
    have hregions : ∀ h' ∈ homes, ∀ r ∈ h'.2, ' ' ∉ r.1.toList ∧ '\n' ∉ r.1.toList ∧
        '\n' ∉ r.2.toList ∧ dropCr r.2.toList = r.2.toList :=
      fun h' hh' => parse_manifestText_iff.mp (h.manifests h' hh')
    refine ⟨hpaths, hregions, fun m hm => ?_, ?_⟩
    · rw [← told_iff, ← recorded_markersText A hd fun m hm => (hpaths m hm).2]
      exact h.digests m hm
    · intro h₁ hh₁ r hr h₂ hh₂ hne r' hr' hin
      have hf := hforeign (fun h hh r hr => ⟨(hregions h hh r hr).1, (hregions h hh r hr).2.1,
        (hregions h hh r hr).2.2.1⟩) h₁ hh₁ r hr
      exact (h.foreign h₁ hh₁ r hr).mp (hf.mpr (.inr ⟨h₂, hh₂, hne, r', hr', hin⟩))
  · intro h
    refine ⟨(parse_markersText_iff hd).mpr h.paths,
      fun h' hh' => parse_manifestText_iff.mpr (h.regions h' hh'), fun m hm => ?_, ?_⟩
    · rw [recorded_markersText A hd fun m hm => (h.paths m hm).2, told_iff]
      exact h.told m hm
    · intro h₁ hh₁ r hr
      rw [hforeign (fun h' hh r hr => ⟨(h.regions h' hh r hr).1, (h.regions h' hh r hr).2.1,
        (h.regions h' hh r hr).2.2.1⟩) h₁ hh₁ r hr]
      constructor
      · rintro (hl | ⟨h₂, hh₂, hne, r', hr', hin⟩)
        · exact hl
        · exact h.apart h₁ hh₁ r hr h₂ hh₂ hne r' hr' hin
      · exact Or.inl

/-- Anchors of one word keep what grep looks for out of the rest of a line. -/
theorem sought_of_words {p : String} {r : String × String} (hs : ' ' ∉ r.1.toList)
    (ha : ' ' ∉ r.2.toList) : ¬ sought p <:+: regionRest r := by
  intro h
  have hcount := List.Sublist.count_le ' ' h.sublist
  have hr : (regionRest r).count ' ' = 1 := by
    simp [regionRest, List.count_eq_zero_of_not_mem hs, List.count_eq_zero_of_not_mem ha]
  rw [hr] at hcount
  simp [sought] at hcount

/-- A region of a plain path whose anchor is one word, or none, of one line. -/
def PlainRegion (r : String × String) : Prop :=
  PlainPath r.1 ∧ ' ' ∉ r.2.toList ∧ '\n' ∉ r.2.toList ∧ dropCr r.2.toList = r.2.toList

theorem PlainPath.ne {p : String} (h : PlainPath p) : ' ' ∉ p.toList ∧ '\n' ∉ p.toList :=
  ⟨fun hc => absurd (h.2.2 _ hc) (by decide), fun hc => absurd (h.2.2 _ hc) (by decide)⟩

/-- Of plain paths and regions only a path that is listed twice is in the way. -/
theorem plainly_iff_nodup (A : Awk) {ms : List Marker} {homes : Homes}
    (hp : ∀ m ∈ ms, PlainPath m.path) (hr : ∀ h ∈ homes, ∀ r ∈ h.2, PlainRegion r) :
    Plainly A ms homes ↔ (ms.map Marker.path).Nodup := by
  rw [← told_iff_nodup A hp]
  constructor
  · exact fun h m hm => (told_iff A).mpr (h.told m hm)
  · intro h
    refine ⟨fun m hm => (hp m hm).ne, fun h' hh r hr' => ?_, fun m hm => (told_iff A).mp (h m hm), ?_⟩
    · obtain ⟨hpath, -, hn, hcr⟩ := hr h' hh r hr'
      exact ⟨hpath.ne.1, hpath.ne.2, hn, hcr⟩
    · intro _ _ r _ h₂ hh₂ _ r' hr' hin
      obtain ⟨hpath, hs, -⟩ := hr h₂ hh₂ r' hr'
      exact absurd hin (sought_of_words hpath.ne.1 hs)

/-- **The engine, awk and grep all find in the texts what was written to them** just
where the paths and anchors keep to their words; of absolute paths without blanks and
backslashes, and anchors of one word, where no op lists a path twice. -/
theorem format_laws_iff (A : Awk) {ms : List Marker} (homes : Homes)
    (hd : ∀ m ∈ ms, Digest m.digest) : (FormatLaws A ms homes ↔ Plainly A ms homes) ∧
      ((∀ m ∈ ms, PlainPath m.path) → (∀ h ∈ homes, ∀ r ∈ h.2, PlainRegion r) →
        (FormatLaws A ms homes ↔ (ms.map Marker.path).Nodup)) :=
  ⟨laws_iff_plainly A homes hd, fun hp hr => (laws_iff_plainly A homes hd).trans (plainly_iff_nodup A hp hr)⟩

namespace SpacedPath

/-- An awk for paths with no escapes, none of them a number. -/
def plainAwk : Awk where
  assigned s := s
  numeric _ _ := none
  assigned_plain _ _ := rfl
  numeric_slash _ _ _ := rfl

/-- A path with a space in it is read as another. -/
theorem split_path : ¬ ∀ (ms : List Marker) (homes : Homes), (∀ m ∈ ms, Digest m.digest) →
    FormatLaws plainAwk ms homes := by
  intro h
  have hl := h [⟨.owned, "/etc/my file", "ab"⟩] [] fun m hm => by
    rw [List.mem_singleton.mp hm]
    exact .of_all (by decide) (by decide)
  exact absurd hl.markers (by decide)

/-- And awk finds nothing for it. -/
example : recorded plainAwk (markersText [⟨.owned, "/etc/my file", "ab"⟩]).toList "/etc/my file" = [] := by
  decide

def steps : List Marker := [⟨.owned, "/etc/x", "ab"⟩, ⟨.region, "/etc/y", "missing"⟩]

def homes : Homes := [("i-1", [("/etc/y", "blk")]), ("i-2", [("/etc/y", "other"), ("/etc/y2", "b c")])]

theorem laws_of_words : FormatLaws plainAwk steps homes := by
  have hd : ∀ m ∈ steps, Digest m.digest := by
    intro m hm
    simp only [steps, List.mem_cons, List.not_mem_nil, or_false] at hm
    rcases hm with rfl | rfl
    · exact .of_all (by decide) (by decide)
    · exact .of_all (by decide) (by decide)
  exact (format_laws_iff plainAwk homes hd).1.mpr ⟨by decide, by decide, by decide, by decide⟩

end SpacedPath

end Rescind
