/-
# `Rescind.Safety.Crontabs` — what an edit leaves of a crontab

An install and a disarm each rewrite the whole crontab, from what `crontab -l`
printed and what `sed` left of it.  The begin line is an expression in which the
dots of the id match anything, the range goes to the end of the text where no
end line follows, and a crontab that cannot be listed counts as empty.

    what was kept is kept again                        (`kept_append`)
    the region of an ordinary id is deleted whole, so
      nothing is lost but lines like its begin line     (`separate_iff`)
    the edits are reversible and confined just where
      nothing of the crontab is deleted                (`crontab_laws_iff`)

What `sed` makes of an id with other characters is a parameter.  That an edit is not
run at all where the id or the artifact's path cannot be quoted is left out.
-/
import Rescind.Bindings.Cron

namespace Rescind.Cron

open Lib Lib.Text

variable {S : Sed} {f : Fares} {job : Job} {tab : List Char}

/-! ## The script -/

theorem kept_subset (inst : String) {lines : List (List Char)} {l : List Char}
    (h : l ∈ kept S inst lines) : l ∈ lines := by
  unfold kept at h
  split at h
  next => exact deleteRange_subset h
  next => cases h

/-- What was kept is kept again, whatever follows. -/
theorem kept_append (inst : String) (ls ms : List (List Char)) :
    kept S inst (kept S inst ls ++ ms) = kept S inst ls ++ kept S inst ms := by
  unfold kept
  cases S.range (beginLine inst) (endLine inst) with
  | none => rfl
  | some r => exact deleteRange_append (fun _ hx => begins_none hx) ms

/-- Where nothing is deleted, nothing is with more behind it. -/
theorem kept_append_of_self {inst : String} {ls : List (List Char)} (h : kept S inst ls = ls)
    (ms : List (List Char)) : kept S inst (ls ++ ms) = ls ++ kept S inst ms := by
  have ha := kept_append (S := S) inst ls ms
  rwa [h] at ha

theorem kept_nil (inst : String) : kept S inst [] = [] := by
  unfold kept
  split <;> rfl

theorem rows_kept (inst : String) (s : List Char) :
    rows (unlines (kept S inst (rows s))) = kept S inst (rows s) :=
  rows_unlines fun _ hl => newline_not_mem_row (kept_subset inst hl)

/-! ## The edits -/

theorem install_of_lists (hf : f.lists = true) (ht : f.takes = true) (tab : List Char) :
    install S f job tab = unlines (kept S job.inst (rows tab)) ++ region job := by
  rw [install, taken, if_pos ht, strip, listed, if_pos hf]

theorem disarm_of_lists (hf : f.lists = true) (ht : f.takes = true) (tab : List Char) :
    disarm S f job tab = unlines (kept S job.inst (rows tab)) := by
  rw [disarm, taken, if_pos ht, strip, listed, if_pos hf]

/-- What a disarm leaves of an install. -/
theorem kept_install (inst : String) (s r : List Char) :
    kept S inst (rows (unlines (kept S inst (rows s)) ++ r)) =
      kept S inst (rows s) ++ kept S inst (rows r) := by
  rw [rows_append (ended_unlines _), rows_kept, kept_append]

theorem region_ne_nil (job : Job) : region job ≠ [] := by
  simp [region, unlines, beginLine]

/-- The laws of the edits of one job on one crontab. -/
structure CrontabLaws (S : Sed) (f : Fares) (job : Job) (tab : List Char) : Prop where
  /-- Installed and disarmed, the crontab is what it was. -/
  reversible : disarm S f job (install S f job tab) = tab
  /-- Installed twice is installed once. -/
  idempotent : install S f job (install S f job tab) = install S f job tab
  /-- Of a crontab with the region nothing but the region is touched. -/
  confined : ∀ u d v, rows tab = u ++ beginLine job.inst :: (d ++ endLine job.inst :: v) →
    beginLine job.inst ∉ u ++ d ++ v → endLine job.inst ∉ u ++ d ++ v →
    (install S f job tab = tab ∨ rows (install S f job tab) = u ++ v ++ rows (region job)) ∧
      (disarm S f job tab = tab ∨ rows (disarm S f job tab) = u ++ v)
  /-- Of one without, or without its end line, nothing is. -/
  untouched : beginLine job.inst ∉ rows tab ∨ endLine job.inst ∉ rows tab →
    (install S f job tab = tab ∨ rows (install S f job tab) = rows tab ++ rows (region job)) ∧
      disarm S f job tab = tab
  /-- Nor of one that cannot be listed. -/
  unlisted : f.lists = false → install S f job tab = tab ∧ disarm S f job tab = tab

/-- The crontab can be listed, its lines all end, and the script deletes none of
them but all of the region. -/
structure Separate (S : Sed) (f : Fares) (job : Job) (tab : List Char) : Prop where
  lists : f.lists = true
  ended : ended tab = true
  keeps : kept S job.inst (rows tab) = rows tab
  deletes : kept S job.inst (rows (region job)) = []

theorem laws_of_refused (ht : f.takes = false) : CrontabLaws S f job tab := by
  have htaken : ∀ tab new, taken f tab new = tab := fun tab new =>
    if_neg (by rw [ht]; exact Bool.false_ne_true)
  have hi : ∀ tab, install S f job tab = tab := fun tab => htaken tab _
  have hd : ∀ tab, disarm S f job tab = tab := fun tab => htaken tab _
  exact ⟨by rw [hi, hd], by rw [hi], fun _ _ _ _ _ _ => ⟨.inl (hi tab), .inl (hd tab)⟩,
    fun _ => ⟨.inl (hi tab), hd tab⟩, fun _ => ⟨hi tab, hd tab⟩⟩

/-- The first line of a region that is deleted whole is no line of a crontab that
is kept whole. -/
theorem begin_not_mem (hk : kept S job.inst (rows tab) = rows tab)
    (hd : kept S job.inst (rows (region job)) = []) : beginLine job.inst ∉ rows tab := by
  intro hb
  have hregion : rows (region job) = beginLine job.inst ::
      rows (unlines [(schedule ++ " " ++ job.command).toList, endLine job.inst]) := by
    rw [region, unlines_cons, rows_row (newline_not_mem_row hb)]
  rw [hregion] at hd
  unfold kept at hk hd
  cases hr : S.range (beginLine job.inst) (endLine job.inst) with
  | none =>
      rw [hr] at hk
      dsimp only at hk
      rw [← hk] at hb
      cases hb
  | some r =>
      rw [hr] at hk hd
      have hp : r.1 (beginLine job.inst) = false := deleteRange_eq_self_iff.mp hk _ hb
      dsimp only at hd
      rw [deleteRange, if_neg (by rw [hp]; exact Bool.false_ne_true)] at hd
      cases hd

/-- The laws hold just where `crontab -` takes nothing or the crontab is kept apart. -/
theorem laws_iff_separate (S : Sed) (f : Fares) (job : Job) (tab : List Char) :
    CrontabLaws S f job tab ↔ (f.takes = true → Separate S f job tab) := by
  constructor
  · intro h ht
    have hlists : f.lists = true := by
      by_contra hf
      obtain ⟨hi, hd⟩ := h.unlisted (by simpa using hf)
      have hnil : strip S f job.inst tab = [] := by
        rw [strip, listed, if_neg hf, show rows [] = [] from rfl, kept_nil]
        rfl
      rw [install, taken, if_pos ht, hnil, List.nil_append] at hi
      rw [disarm, taken, if_pos ht, hnil] at hd
      exact region_ne_nil job (hi.trans hd.symm)
    have hidem := h.idempotent
    rw [install_of_lists hlists ht, install_of_lists hlists ht, kept_install,
      List.append_cancel_right_eq, unlines_append, List.append_right_eq_self] at hidem
    have hdeletes : kept S job.inst (rows (region job)) = [] := by
      cases hk : kept S job.inst (rows (region job)) with
      | nil => rfl
      | cons l ls =>
          rw [hk, unlines_cons] at hidem
          exact absurd hidem (by simp)
    have hrev := h.reversible
    rw [install_of_lists hlists ht, disarm_of_lists hlists ht, kept_install, hdeletes,
      List.append_nil] at hrev
    refine ⟨hlists, ?_, ?_, hdeletes⟩
    · rw [← hrev]
      exact ended_unlines _
    · have hr := rows_kept (S := S) job.inst tab
      rw [hrev] at hr
      exact hr.symm
  · intro h
    cases ht : f.takes with
    | false => exact laws_of_refused ht
    | true =>
        obtain ⟨hf, he, hk, hd⟩ := h ht
        have htab : unlines (rows tab) = tab := by rw [unlines_rows, terminated_of_ended he]
        have hinstall : install S f job tab = tab ++ region job := by
          rw [install_of_lists hf ht, hk, htab]
        have hdisarm : disarm S f job tab = tab := by rw [disarm_of_lists hf ht, hk, htab]
        have hrows : rows (tab ++ region job) = rows tab ++ rows (region job) := rows_append he _
        have hkept : kept S job.inst (rows (tab ++ region job)) = rows tab := by
          rw [hrows, kept_append_of_self hk, hd, List.append_nil]
        refine ⟨?_, ?_, ?_, ?_, ?_⟩
        · rw [hinstall, disarm_of_lists hf ht, hkept, htab]
        · rw [hinstall, install_of_lists hf ht, hkept, htab]
        · intro u d v hsplit hb _
          refine absurd ?_ (begin_not_mem hk hd)
          rw [hsplit]
          exact List.mem_append_right _ List.mem_cons_self
        · intro _
          exact ⟨.inr (by rw [hinstall, hrows]), hdisarm⟩
        · intro hl
          rw [hf] at hl
          cases hl

/-! ## Ordinary ids -/

theorem dotted_self (b : List Char) : dotted b b = true := by
  induction b with
  | nil => rfl
  | cons c b ih => simp [dotted, ih]

theorem ordinary_marker {inst : String} (h : inst.toList.all ordinary = true) :
    (beginLine inst).all ordinary = true ∧ (endLine inst).all ordinary = true := by
  constructor
  · simp [beginLine, h, ordinary]
  · simp [endLine, h, ordinary]

/-- The region of an id of ordinary characters is deleted whole. -/
theorem kept_region (S : Sed) {job : Job} (hi : job.inst.toList.all ordinary = true)
    (hc : '\n' ∉ job.command.toList) : kept S job.inst (rows (region job)) = [] := by
  obtain ⟨hb, he⟩ := ordinary_marker hi
  have hnb : '\n' ∉ beginLine job.inst := fun hm => absurd (List.all_eq_true.mp hb _ hm) (by decide)
  have hne : '\n' ∉ endLine job.inst := fun hm => absurd (List.all_eq_true.mp he _ hm) (by decide)
  have hrows : rows (region job) =
      [beginLine job.inst, (schedule ++ " " ++ job.command).toList, endLine job.inst] := by
    refine rows_unlines fun l hl => ?_
    simp only [List.mem_cons, List.not_mem_nil, or_false] at hl
    rcases hl with rfl | rfl | rfl
    · exact hnb
    · simpa [schedule] using hc
    · exact hne
  -- the entry begins with a star, the end line with a hash
  have hentry : dotted (endLine job.inst) (schedule ++ " " ++ job.command).toList = false := by
    simp [endLine, schedule, dotted]
  rw [hrows, kept, S.range_ordinary _ _ hb he]
  dsimp only
  rw [deleteRange, if_pos (dotted_self _), deleteRange, hentry, Bool.not_false, deleteRange, dotted_self]
  rfl

/-- Such an id is kept apart from the rest where no line of it is the begin line
but for what stands at the dots. -/
theorem separate_iff {S : Sed} {f : Fares} {job : Job} {tab : List Char}
    (hi : job.inst.toList.all ordinary = true) (hc : '\n' ∉ job.command.toList) :
    Separate S f job tab ↔ f.lists = true ∧ ended tab = true ∧
      ∀ l ∈ rows tab, dotted (beginLine job.inst) l = false := by
  obtain ⟨hb, he⟩ := ordinary_marker hi
  have hk : kept S job.inst (rows tab) = rows tab ↔
      ∀ l ∈ rows tab, dotted (beginLine job.inst) l = false := by
    rw [kept, S.range_ordinary _ _ hb he]
    exact deleteRange_eq_self_iff
  rw [← hk]
  constructor
  · intro h
    exact ⟨h.lists, h.ended, h.keeps⟩
  · rintro ⟨hl, hend, hkeeps⟩
    exact ⟨hl, hend, hkeeps, kept_region S hi hc⟩

/-- **The edits are reversible, idempotent and confined** just where `crontab -`
takes nothing, or the crontab can be listed and is kept whole while the region is
deleted whole; for an ordinary id and a command of one line, where it can be listed,
its lines all end, and none of them is the id's begin line but for what stands at the
dots. -/
theorem crontab_laws_iff (S : Sed) (f : Fares) (job : Job) (tab : List Char) :
    (CrontabLaws S f job tab ↔ (f.takes = true → Separate S f job tab)) ∧
      (job.inst.toList.all ordinary = true → '\n' ∉ job.command.toList →
        (Separate S f job tab ↔ f.lists = true ∧ ended tab = true ∧
          ∀ l ∈ rows tab, dotted (beginLine job.inst) l = false)) :=
  ⟨laws_iff_separate S f job tab, separate_iff⟩

namespace Dots

/-- A sed for ids of ordinary characters. -/
def plainSed : Sed where
  range b e := some (dotted b, dotted e)
  range_ordinary _ _ _ _ := rfl

def entry (owner : String) : Job where
  inst := "p." ++ owner ++ ".44136fa3"
  artifact := "/var/db/rescind/instances/p." ++ owner ++ ".44136fa3/artifact.sh"
  language := .sh
  os := "freebsd"

/-- The region of `p.y-z` goes with that of `p.y.z`. -/
theorem dash_deleted : ¬ ∀ (job : Job) (tab : List Char), CrontabLaws plainSed ⟨true, true⟩ job tab := by
  intro h
  have hd := ((h (entry "y.z") (region (entry "y-z"))).untouched (.inl (by decide))).2
  exact absurd hd (by decide)

/-- The region of `p.x.z` does not. -/
theorem letter_spared : CrontabLaws plainSed ⟨true, true⟩ (entry "y.z") (region (entry "x.z")) := by
  obtain ⟨hlaws, hsep⟩ := crontab_laws_iff plainSed ⟨true, true⟩ (entry "y.z") (region (entry "x.z"))
  exact hlaws.mpr fun _ => (hsep (by decide) (by decide)).mpr ⟨rfl, by decide, by decide⟩

end Dots

end Rescind.Cron
