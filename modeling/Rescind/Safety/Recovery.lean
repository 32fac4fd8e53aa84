/-
# `Rescind.Safety.Recovery` — the journal after an append that failed

The journal's file is read whole, line by line, and every line must be an entry.
It is appended to in place: an append cut short leaves some bytes of its line.

    no byte of it             the chain there was
    some bytes                the file cannot be read
    all but the newline       the file reads, with the entry; the next append
                              goes on the same line and the file cannot be read
    the whole line            the chain with the entry (so after a failed sync)

Of `serde_json` the proofs use that an entry reads back from its text, that the
text is an object on one line, and that neither a part of an object nor an
object with more after it is read (`Json.Lawful`).

**Proved here.**

    what a file of whole lines reads as                       (`readNdjson_whole`)
    the four cases above            (`not_recovers_torn`, `not_recovers_unended`,
                                     `recovers_of_whole`)
    which failed appends recover                              (`recovery`)
-/
import Mathlib.Data.Countable.Basic
import Mathlib.Data.List.TakeWhile
import Mathlib.Logic.Equiv.List
import Rescind.Safety.Delivery

namespace Rescind.Journal

open Lib Canon

variable {τ : Type}

/-- What is relied on of `serde_json`. -/
structure Json.Lawful (J : Json) : Prop where
  /-- An entry reads back from its text. -/
  round_trip : ∀ e, J.fromStr (J.toString e) = .ok e
  /-- The text of a struct is an object. -/
  object : ∀ e, ∃ body, J.toString e = '\x7b' :: (body ++ ['\x7d'])
  /-- A control character is escaped, so the text is one line. -/
  one_line : ∀ e, '\n' ∉ J.toString e
  /-- End of input inside an object. -/
  torn : ∀ e s t, J.toString e = s ++ t → t ≠ [] → ∃ why, J.fromStr s = .error why
  /-- Trailing characters after an object. -/
  trailing : ∀ e e', ∃ why, J.fromStr (J.toString e ++ J.toString e') = .error why

/-! ## What a file reads as -/

/-- The text of a chain, one entry a line. -/
def wholeLines (J : Json) (chain : List Entry) : List Char :=
  Text.unlines (chain.map J.toString)

/-- A file that holds a chain; none is the empty one. -/
def Holds (J : Json) (file : Option Bytes) (chain : List Entry) : Prop :=
  file.getD [] = Bytes.ofText (wholeLines J chain)

variable {J : Json}

theorem wholeLines_append (c d : List Entry) :
    wholeLines J (c ++ d) = wholeLines J c ++ wholeLines J d := by
  simp [wholeLines, Text.unlines]

theorem wholeLines_singleton (e : Entry) : wholeLines J [e] = J.toString e ++ ['\n'] := by
  simp [wholeLines, Text.unlines]

theorem trim_brace (s : List Char) : Text.trim ('\x7b' :: s) ≠ [] := by
  have hw : Text.isWhite '\x7b' = false := by decide
  intro h
  have hd : ('\x7b' :: s).dropWhile Text.isWhite = '\x7b' :: s := by simp [List.dropWhile, hw]
  unfold Text.trim at h
  rw [hd, List.reverse_eq_nil_iff, List.dropWhile_eq_nil_iff] at h
  have := h '\x7b' (by simp)
  rw [hw] at this
  cases this

theorem lines_wholeLines (hJ : J.Lawful) (c : List Entry) (s : List Char) :
    Text.lines (wholeLines J c ++ s) = c.map J.toString ++ Text.lines s := by
  induction c with
  | nil => rfl
  | cons e c ih =>
      obtain ⟨body, hb⟩ := hJ.object e
      have hcr : Text.dropCr (J.toString e) = J.toString e := by
        rw [hb, ← List.cons_append]
        exact Text.dropCr_concat (by decide) _
      have hsplit : wholeLines J (e :: c) ++ s = J.toString e ++ '\n' :: (wholeLines J c ++ s) := by
        simp [wholeLines, Text.unlines]
      rw [hsplit, Text.lines_line (hJ.one_line e), hcr, ih]
      rfl

/-- The lines that are not blank. -/
def filled (ls : List (List Char)) : List (List Char) := ls.filter fun l => !(Text.trim l).isEmpty

theorem filled_append (ls ms : List (List Char)) : filled (ls ++ ms) = filled ls ++ filled ms :=
  List.filter_append ..

theorem filled_brace (s : List Char) : filled ['\x7b' :: s] = ['\x7b' :: s] := by
  simp [filled, trim_brace]

theorem filled_entries (hJ : J.Lawful) (c : List Entry) :
    filled (c.map J.toString) = c.map J.toString := by
  refine List.filter_eq_self.mpr fun l hl => ?_
  obtain ⟨e, -, rfl⟩ := List.mem_map.mp hl
  obtain ⟨body, hb⟩ := hJ.object e
  simp [hb, trim_brace]

theorem parseLines_entries (hJ : J.Lawful) (path : String) (c : List Entry) (ls : List (List Char))
    (i : Nat) : parseLines J path i (c.map J.toString ++ ls) =
      (parseLines J path (i + c.length) ls).map (c ++ ·) := by
  induction c generalizing i with
  | nil => cases h : parseLines J path i ls <;> simp [h, Except.map]
  | cons e c ih =>
      simp only [List.map_cons, List.cons_append, parseLines, hJ.round_trip, ih, List.length_cons,
        show i + 1 + c.length = i + (c.length + 1) by omega]
      cases parseLines J path (i + (c.length + 1)) ls <;> rfl

theorem parseLines_unread (path : String) (i : Nat) {l : List Char} {why : String}
    (h : J.fromStr l = .error why) (ls : List (List Char)) :
    ∃ err, parseLines J path i (l :: ls) = .error err := by
  simp only [parseLines, h]
  exact ⟨_, rfl⟩

theorem readNdjson_getD (path : String) (file : Option Bytes) :
    readNdjson J path file = readNdjson J path (some (file.getD [])) := by
  cases file <;> rfl

/-- Lines of entries, then what the rest of the file reads as. -/
theorem readNdjson_whole_append (hJ : J.Lawful) (path : String) (c : List Entry) (s : List Char) :
    readNdjson J path (some (Bytes.ofText (wholeLines J c ++ s))) =
      (parseLines J path c.length (filled (Text.lines s))).map (c ++ ·) := by
  simp only [readNdjson, Bytes.text?_ofText]
  show parseLines J path 0 (filled (Text.lines (wholeLines J c ++ s))) = _
  rw [lines_wholeLines hJ, filled_append, filled_entries hJ, parseLines_entries hJ, Nat.zero_add]

theorem readNdjson_whole (hJ : J.Lawful) (path : String) {file : Option Bytes} {c : List Entry}
    (h : Holds J file c) : readNdjson J path file = .ok c := by
  have hr := readNdjson_whole_append hJ path c []
  rw [List.append_nil] at hr
  rw [readNdjson_getD, h, hr]
  simp [Text.lines, Text.linesFrom, filled, parseLines, Except.map]

/-- A file whose part after the whole lines is not read. -/
theorem readNdjson_unread (hJ : J.Lawful) (path : String) (c : List Entry) {s l : List Char}
    {ls : List (List Char)} {why : String} (hs : filled (Text.lines s) = l :: ls)
    (h : J.fromStr l = .error why) :
    ∃ err, readNdjson J path (some (Bytes.ofText (wholeLines J c ++ s))) = .error err := by
  obtain ⟨err, herr⟩ := parseLines_unread path c.length h ls
  rw [readNdjson_whole_append hJ, hs, herr]
  exact ⟨err, rfl⟩

/-! ## A journal over its file -/

/-- The wires of a site whose store is the file, every append going through. -/
def Site.fileWires (S : Site τ) (J : Json) : Wires (Option Bytes) τ where
  sha256 := S.sha256
  sign := S.sign
  appendJournal := appendJournal J none
  name := S.name
  deliver := S.deliver

/-- The calls in order on a journal over its file; the outcome of each. -/
def fileRecords (S : Site τ) (J : Json) :
    List Note → Option Bytes × OpenJournal τ →
      List (Except JournalError Entry) × (Option Bytes × OpenJournal τ)
  | [], st => ([], st)
  | n :: notes, st =>
      let (x, st) := record (S.fileWires J) n st.1 st.2
      let (xs, st) := fileRecords S J notes st
      (x :: xs, st)

variable {S : Site τ}

theorem holds_append {file : Option Bytes} {c : List Entry} (h : Holds J file c) (e : Entry) :
    Holds J (some (file.getD [] ++ line J e)) (c ++ [e]) := by
  show file.getD [] ++ line J e = _
  rw [h, wholeLines_append, wholeLines_singleton, Bytes.ofText_append]
  rfl

theorem deliverAll_file (e : Entry) (sinks : List (Sink τ)) :
    deliverAll (S.fileWires J) e sinks = deliverAll S.wires e sinks := by
  induction sinks with
  | nil => rfl
  | cons s sinks ih =>
      unfold deliverAll
      rw [ih]
      rfl

/-- A call over the file does what the call over the chain does. -/
theorem record_file {file : Option Bytes} {c : List Entry} (h : Holds J file c) (n : Note)
    (j : OpenJournal τ) :
    (record (S.fileWires J) n file j).1 = (record S.wires n c j).1 ∧
      Holds J (record (S.fileWires J) n file j).2.1 (record S.wires n c j).2.1 ∧
      (record (S.fileWires J) n file j).2.2 = (record S.wires n c j).2.2 := by
  have hnext : ∀ tail n, next (S.fileWires J) tail n = next S.wires tail n := fun _ _ => rfl
  have happ : ∀ file e, (S.fileWires J).appendJournal file e =
      (.ok (), some (file.getD [] ++ line J e)) := fun _ _ => rfl
  simp only [record, hnext, happ, deliverAll_file, Site.appendJournal_wires]
  cases next S.wires j.tail n with
  | error err => exact ⟨rfl, h, rfl⟩
  | ok e =>
      have he := holds_append h e
      by_cases hr : (deliverAll S.wires e j.sinks).1.isEmpty
      · simp only [hr, if_true]
        exact ⟨trivial, he, trivial⟩
      · simp only [hr]
        cases next S.wires (some e) (n.refusal (deliverAll S.wires e j.sinks).1) with
        | error err => exact ⟨rfl, he, rfl⟩
        | ok r => exact ⟨rfl, holds_append he r, rfl⟩

theorem fileRecords_holds (notes : List Note) {file : Option Bytes} {c : List Entry}
    (h : Holds J file c) (j : OpenJournal τ) :
    (fileRecords S J notes (file, j)).1 = (records S notes (c, j)).1 ∧
      Holds J (fileRecords S J notes (file, j)).2.1 (records S notes (c, j)).2.1 ∧
      (fileRecords S J notes (file, j)).2.2 = (records S notes (c, j)).2.2 := by
  induction notes generalizing file c j with
  | nil => exact ⟨rfl, h, rfl⟩
  | cons n notes ih =>
      obtain ⟨hx, hh, hj⟩ := @record_file _ _ S _ _ h n j
      have hf : fileRecords S J (n :: notes) (file, j) =
          ((record (S.fileWires J) n file j).1 :: (fileRecords S J notes
              ((record (S.fileWires J) n file j).2.1, (record (S.fileWires J) n file j).2.2)).1,
            (fileRecords S J notes
              ((record (S.fileWires J) n file j).2.1, (record (S.fileWires J) n file j).2.2)).2) :=
        rfl
      obtain ⟨hxs, hholds, hjs⟩ := ih hh (record S.wires n c j).2.2
      rw [hf, hj, hx]
      exact ⟨congrArg _ hxs, hholds, hjs⟩

/-! ## Opening again -/

/-- Over what the failed append left: the file reads and the journal opens; the
chain read verifies and is the one before, or the one before and the entry; and
after any further calls the file reads as that chain and what they add, and
verifies. -/
def Recovers (S : Site τ) (J : Json) (path : String) (sinks : List τ) (chain : List Entry)
    (e : Entry) (file : Option Bytes) : Prop :=
  ∃ c j, readNdjson J path file = .ok c ∧ openJournal J path file sinks = .ok j ∧
    verify S.sha256 c = .ok () ∧ (c = chain ∨ c = chain ++ [e]) ∧
    ∀ notes, ∃ more, AddsAll S notes j.sinks (fileRecords S J notes (file, j)).1 more
        (fileRecords S J notes (file, j)).2.2.sinks ∧
      readNdjson J path (fileRecords S J notes (file, j)).2.1 = .ok (c ++ more) ∧
      verify S.sha256 (c ++ more) = .ok ()

/-- None of the line's bytes were written, or all of them. -/
def Fault.Clean (J : Json) (e : Entry) : Fault → Prop
  | .cut written _ => written = 0 ∨ (line J e).length ≤ written
  | .sync _ => True

variable {path : String} {sinks : List τ} {chain : List Entry} {e : Entry} {file : Option Bytes}

theorem openJournal_of_read {c : List Entry} (h : readNdjson J path file = .ok c) :
    openJournal J path file sinks = .ok (opened c sinks).2 := by
  simp [openJournal, journalTail, h, opened]

theorem recovers_of_whole (hs : S.Signs) (hJ : J.Lawful) {c : List Entry} (hf : Holds J file c)
    (hl : Linked S.sha256 none c) (hc : c = chain ∨ c = chain ++ [e]) :
    Recovers S J path sinks chain e file := by
  have hread := readNdjson_whole hJ path hf
  refine ⟨c, (opened c sinks).2, hread, openJournal_of_read hread, verify_iff.mpr hl, hc, ?_⟩
  intro notes
  obtain ⟨hk, more, hadds, hmore⟩ := records_adds hs notes (kept_opened hl sinks)
  obtain ⟨hout, hholds, hj⟩ := @fileRecords_holds _ _ S notes _ _ hf (opened c sinks).2
  have hmore' : (records S notes (c, (opened c sinks).2)).2.1 = c ++ more := hmore
  rw [hmore'] at hholds
  refine ⟨more, ?_, readNdjson_whole hJ path hholds, verify_iff.mpr ?_⟩
  · rw [hout, hj]
    exact hadds
  · rw [← hmore']
    exact hk.linked

/-- Some bytes of an entry's text, not all: what they spell is a part of it. -/
theorem part_of_bytes {s t : Bytes} {text u : List Char} (h : s ++ t = Bytes.ofText text)
    (ht : t ≠ []) (hu : s.text? = some u) : ∃ v, text = u ++ v ∧ v ≠ [] := by
  refine ⟨t.lossy, ?_, Bytes.lossy_ne_nil ht⟩
  rw [← Bytes.lossy_ofText text, ← h, ← Bytes.ofText_of_text? hu, Bytes.lossy_append]

theorem not_recovers_torn (hJ : J.Lawful) (hf : Holds J file chain) {s t : Bytes}
    (h : s ++ t = Bytes.ofText (J.toString e)) (hs : s ≠ []) (ht : t ≠ []) :
    ¬ Recovers S J path sinks chain e (some (file.getD [] ++ s)) := by
  rintro ⟨c, j, hread, -⟩
  rw [hf] at hread
  cases hu : s.text? with
  | none =>
      rw [readNdjson, Bytes.text?_append, hu] at hread
      cases hread
  | some u =>
      obtain ⟨v, hv, hne⟩ := part_of_bytes h ht hu
      obtain ⟨why, hwhy⟩ := hJ.torn e u v hv hne
      obtain ⟨body, hb⟩ := hJ.object e
      have hsu : s = Bytes.ofText u := (Bytes.ofText_of_text? hu).symm
      cases u with
      | nil => exact hs hsu
      | cons x u =>
          have hx : x = '\x7b' := by
            rw [hb] at hv
            exact (List.cons.inj hv).1.symm
          subst hx
          have hnl : '\n' ∉ '\x7b' :: u := fun hmem =>
            hJ.one_line e (hv ▸ List.mem_append_left _ hmem)
          have hlines : filled (Text.lines ('\x7b' :: u)) = ['\x7b' :: u] := by
            rw [Text.lines_last hnl (List.cons_ne_nil _ _), filled_brace]
          obtain ⟨err, herr⟩ := readNdjson_unread hJ path chain hlines hwhy
          rw [hsu, ← Bytes.ofText_append, herr] at hread
          cases hread

/-- A call on any file puts the line of an entry after its bytes, and whole lines
after that. -/
theorem record_appends (hs : S.Signs) (n : Note) (file : Option Bytes) (j : OpenJournal τ) :
    ∃ e' d, (record (S.fileWires J) n file j).2.1 =
      some (file.getD [] ++ line J e' ++ Bytes.ofText (wholeLines J d)) := by
  obtain ⟨e', hnext, -⟩ := next_ok hs j.tail n
  refine ⟨e', ?_⟩
  have hnext' : ∀ tail n, next (S.fileWires J) tail n = next S.wires tail n := fun _ _ => rfl
  have happ : ∀ file e, (S.fileWires J).appendJournal file e =
      (.ok (), some (file.getD [] ++ line J e)) := fun _ _ => rfl
  simp only [record, hnext', happ, deliverAll_file, hnext]
  by_cases hr : (deliverAll S.wires e' j.sinks).1.isEmpty
  · refine ⟨[], ?_⟩
    simp [hr, wholeLines, Text.unlines, Bytes.ofText]
  · obtain ⟨r, hr', -⟩ := next_ok hs (some e') (n.refusal (deliverAll S.wires e' j.sinks).1)
    refine ⟨[r], ?_⟩
    simp only [hr, hr', wholeLines_singleton]
    rfl

/-- Two entries on one line. -/
theorem readNdjson_glued (hJ : J.Lawful) (c : List Entry) (e e' : Entry) (d : List Entry) :
    ∃ err, readNdjson J path (some (Bytes.ofText (wholeLines J c ++
      (J.toString e ++ J.toString e' ++ '\n' :: wholeLines J d)))) = .error err := by
  obtain ⟨why, hwhy⟩ := hJ.trailing e e'
  obtain ⟨body, hb⟩ := hJ.object e
  obtain ⟨body', hb'⟩ := hJ.object e'
  have hnl : '\n' ∉ J.toString e ++ J.toString e' := by
    simp [hJ.one_line]
  have hcr : Text.dropCr (J.toString e ++ J.toString e') = J.toString e ++ J.toString e' := by
    rw [hb', ← List.cons_append, ← List.append_assoc]
    exact Text.dropCr_concat (by decide) _
  have hlines : filled (Text.lines (J.toString e ++ J.toString e' ++ '\n' :: wholeLines J d)) =
      (J.toString e ++ J.toString e') :: filled (Text.lines (wholeLines J d)) := by
    rw [Text.lines_line hnl, hcr, ← List.singleton_append, filled_append, hb, List.cons_append,
      filled_brace]
    rfl
  exact readNdjson_unread hJ path c hlines hwhy

theorem not_recovers_unended (hs : S.Signs) (hJ : J.Lawful) (hf : Holds J file chain) (n : Note) :
    ¬ Recovers S J path sinks chain e (some (file.getD [] ++ Bytes.ofText (J.toString e))) := by
  rintro ⟨c, j, -, -, -, -, hnotes⟩
  obtain ⟨more, -, hread, -⟩ := hnotes [n]
  obtain ⟨e', d, hafter⟩ := @record_appends _ J S hs n
    (some (file.getD [] ++ Bytes.ofText (J.toString e))) j
  obtain ⟨err, herr⟩ := @readNdjson_glued J path hJ chain e e' d
  have hbytes : (some (file.getD [] ++ Bytes.ofText (J.toString e))).getD [] ++ line J e' ++
      Bytes.ofText (wholeLines J d) = Bytes.ofText (wholeLines J chain ++
        (J.toString e ++ J.toString e' ++ '\n' :: wholeLines J d)) := by
    show file.getD [] ++ Bytes.ofText (J.toString e) ++ Bytes.ofText (J.toString e' ++ ['\n']) ++ _ = _
    rw [hf]
    simp only [← Bytes.ofText_append, List.append_assoc, List.cons_append, List.nil_append]
  rw [hbytes] at hafter
  have hrun : (fileRecords S J [n] (some (file.getD [] ++ Bytes.ofText (J.toString e)), j)).2.1 =
      (record (S.fileWires J) n (some (file.getD [] ++ Bytes.ofText (J.toString e))) j).2.1 := rfl
  rw [hrun, hafter, herr] at hread
  cases hread

/-! ## Which failed appends recover -/

theorem line_eq (J : Json) (e : Entry) : line J e = Bytes.ofText (J.toString e) ++ [0x0a] := by
  rw [line, Bytes.ofText_append]
  rfl

theorem cut_recovers_iff (hs : S.Signs) (hJ : J.Lawful) (hf : Holds J file chain) (n : Note)
    (hl : Linked S.sha256 none chain) (he : Follows S.sha256 chain.getLast? e) (k : Nat) :
    Recovers S J path sinks chain e (some (file.getD [] ++ (line J e).take k)) ↔
      k = 0 ∨ (line J e).length ≤ k := by
  constructor
  · intro hr
    by_contra hk
    rw [not_or, Nat.not_le] at hk
    have hlen : (line J e).length = (Bytes.ofText (J.toString e)).length + 1 := by
      rw [line_eq, List.length_append, List.length_singleton]
    have htake : (line J e).take k = (Bytes.ofText (J.toString e)).take k := by
      rw [line_eq, List.take_append_of_le_length (by omega)]
    rw [htake] at hr
    rcases Nat.lt_or_ge k (Bytes.ofText (J.toString e)).length with hlt | hge
    · refine not_recovers_torn hJ hf (List.take_append_drop k _) ?_ ?_ hr
      · rw [Ne, List.take_eq_nil_iff]
        rintro (h | h)
        · exact hk.1 h
        · rw [h] at hlt
          exact Nat.not_lt_zero _ hlt
      · rw [Ne, List.drop_eq_nil_iff]
        omega
    · rw [List.take_of_length_le hge] at hr
      exact not_recovers_unended hs hJ hf n hr
  · rintro (rfl | hk)
    · refine recovers_of_whole hs hJ ?_ hl (.inl rfl)
      rw [List.take_zero, List.append_nil]
      exact hf
    · refine recovers_of_whole hs hJ ?_ (linked_snoc hl he) (.inr rfl)
      rw [List.take_of_length_le hk]
      exact holds_append hf e

/-- **Which failed appends recover.**  For every chain that verifies, the file
that holds it, and every append of a next entry that fails: the journal recovers
just when the file got none of the line's bytes or all of them, as it does when
only the sync failed. -/
theorem recovery (S : Site τ) (hs : S.Signs) (J : Json) (hJ : J.Lawful) (path : String)
    (sinks : List τ) (chain : List Entry) (hv : verify S.sha256 chain = .ok ())
    (file : Option Bytes) (hf : Holds J file chain) (n : Note) (e : Entry)
    (he : next S.wires chain.getLast? n = .ok e) (fault : Fault) :
    Recovers S J path sinks chain e (appendJournal J (some fault) file e).2 ↔ fault.Clean J e := by
  have hl := verify_iff.mp hv
  have hfol : Follows S.sha256 chain.getLast? e := by
    obtain ⟨e', he', -, hfol⟩ := next_ok hs chain.getLast? n
    rw [he] at he'
    injection he' with he'
    rwa [he']
  cases fault with
  | cut k why => exact cut_recovers_iff hs hJ hf n hl hfol k
  | sync why =>
      refine ⟨fun _ => trivial, fun _ => ?_⟩
      exact recovers_of_whole hs hJ (holds_append hf e) (linked_snoc hl hfol) (.inr rfl)

/-! ## An entry whose sync failed, and one cut after a byte -/

namespace OneLine

open TwoEntries

theorem countable_byte : Countable UInt8 :=
  Function.Injective.countable (f := UInt8.toNat) fun _ _ h => UInt8.toNat_inj.mp h

/-- Everything an entry holds, as bytes. -/
def parts (e : Entry) : List UInt8 × List UInt8 × Option (List UInt8 × List UInt8) :=
  (bodyBytes e, e.hash.bytes, e.sig.map fun s => (utf8 s.namespace_.text, utf8 s.bytesHex.text))

theorem str_inj {s t : Str} (h : utf8 s.text = utf8 t.text) : s = t := by
  cases s
  cases t
  have := utf8_inj h
  subst this
  rfl

theorem sig_inj {s t : Sig} (h : utf8 s.namespace_.text = utf8 t.namespace_.text)
    (h' : utf8 s.bytesHex.text = utf8 t.bytesHex.text) : s = t := by
  cases s
  cases t
  rw [Sig.mk.injEq]
  exact ⟨str_inj h, str_inj h'⟩

theorem parts_inj {e e' : Entry} (h : parts e = parts e') : e = e' := by
  obtain ⟨hbody, hrest⟩ := Prod.mk.inj h
  obtain ⟨hhash, hsig⟩ := Prod.mk.inj hrest
  have hb := bodyBytes_inj hbody
  have hh : e.hash = e'.hash := by
    cases hx : e.hash
    cases hy : e'.hash
    simp only [hx, hy] at hhash
    subst hhash
    rfl
  have hs : e.sig = e'.sig := by
    revert hsig
    cases e.sig with
    | none =>
        cases e'.sig with
        | none => exact fun _ => rfl
        | some t =>
            intro h
            cases h
    | some s =>
        cases e'.sig with
        | none =>
            intro h
            cases h
        | some t =>
            intro h
            simp only [Option.map_some, Option.some.injEq, Prod.mk.injEq] at h
            rw [sig_inj h.1 h.2]
  cases e
  cases e'
  simp only [Entry.body, Body.mk.injEq] at hb
  simp only at hh hs
  simp [hb, hh, hs]

theorem exists_number : ∃ f : Entry → Nat, Function.Injective f := by
  have := countable_byte
  have : Countable Entry := Function.Injective.countable (f := parts) fun _ _ h => parts_inj h
  exact exists_injective_nat Entry

noncomputable def number : Entry → Nat := exists_number.choose

theorem number_inj {e e' : Entry} (h : number e = number e') : e = e' := exists_number.choose_spec h

/-- The entry appended here. -/
def entry : Entry := append digest [] checked

/-- Its text, without the braces. -/
def entryText : List Char :=
  '"' :: ("seq\":1,\"prev_hash\":".toList ++
  "\"0000000000000000000000000000000000000000000000000000000000000000\",\"hash\":".toList ++
  "\"6f3d9d1353fa30bb4c4f21f343257c0c8ed8bf313aeb142d70d831de3711fcdb\",\"at\":1,".toList ++
  "\"plan\":\"p\",\"instance\":\"p.web.00000000\",\"host\":\"web\",\"event\":\"checked\",".toList ++
  "\"secret_labels\":[],\"sig\":null".toList)

open Classical in
/-- The text of an entry, without the braces; only one is written out. -/
noncomputable def inner (e : Entry) : List Char :=
  if e = entry then entryText else List.replicate (number e) '1'

noncomputable def text (e : Entry) : List Char := '\x7b' :: (inner e ++ ['\x7d'])

open Classical in
noncomputable def json : Json where
  toString := text
  fromStr s := if h : ∃ e, text e = s then .ok h.choose else .error "not an entry"

theorem replicate_cut {n m : Nat} {r s : List Char}
    (h : List.replicate n '1' ++ '\x7d' :: r = List.replicate m '1' ++ '\x7d' :: s) : n = m ∧ r = s := by
  induction n generalizing m with
  | zero =>
      cases m with
      | zero => simpa using h
      | succ m => simp [List.replicate_succ] at h
  | succ n ih =>
      cases m with
      | zero => simp [List.replicate_succ] at h
      | succ m =>
          simp only [List.replicate_succ, List.cons_append, List.cons.injEq, true_and] at h
          obtain ⟨hn, hr⟩ := ih h
          exact ⟨congrArg (· + 1) hn, hr⟩

theorem entryText_cut {m : Nat} {r s : List Char} :
    entryText ++ r ≠ List.replicate m '1' ++ '\x7d' :: s := by
  intro h
  cases m with
  | zero => exact absurd (List.cons.inj h).1 (by decide)
  | succ m => exact absurd (List.cons.inj h).1 (by decide)

theorem text_cut {e e' : Entry} {r s : List Char} (h : text e ++ r = text e' ++ s) :
    e = e' ∧ r = s := by
  simp only [text, List.cons_append, List.cons.injEq, true_and, List.append_assoc, List.nil_append] at h
  unfold inner at h
  by_cases he : e = entry
  · by_cases he' : e' = entry
    · rw [if_pos he, if_pos he'] at h
      have := List.append_cancel_left h
      exact ⟨he.trans he'.symm, (List.cons.inj this).2⟩
    · rw [if_pos he, if_neg he'] at h
      exact absurd h entryText_cut
  · by_cases he' : e' = entry
    · rw [if_neg he, if_pos he'] at h
      exact absurd h.symm entryText_cut
    · rw [if_neg he, if_neg he'] at h
      obtain ⟨hn, hr⟩ := replicate_cut h
      exact ⟨number_inj hn, hr⟩

theorem text_inj {e e' : Entry} (h : text e = text e') : e = e' :=
  (text_cut (congrArg (· ++ []) h)).1

theorem fromStr_text (e : Entry) : json.fromStr (text e) = .ok e := by
  have h : ∃ e', text e' = text e := ⟨e, rfl⟩
  have heq : h.choose = e := text_inj h.choose_spec
  unfold json
  simp only
  rw [dif_pos h, heq]

theorem fromStr_error {s : List Char} (h : ∀ e, text e ≠ s) : ∃ why, json.fromStr s = .error why := by
  have hn : ¬ ∃ e, text e = s := fun ⟨e, he⟩ => h e he
  refine ⟨"not an entry", ?_⟩
  unfold json
  simp only
  rw [dif_neg hn]

theorem newline_text (e : Entry) : '\n' ∉ text e := by
  have hin : '\n' ∉ inner e := by
    unfold inner
    split
    · decide +kernel
    · intro h
      exact absurd (List.eq_of_mem_replicate h) (by decide)
  simp [text, hin]

theorem lawful : json.Lawful where
  round_trip := fromStr_text
  object e := ⟨inner e, rfl⟩
  one_line := newline_text
  torn e s t h ht := by
    refine fromStr_error fun e' he' => ht ?_
    have h' : text e' ++ t = text e ++ [] := by
      rw [he', List.append_nil]
      exact h.symm
    exact (text_cut h').2
  trailing e e' := by
    refine fromStr_error fun e'' he'' => ?_
    have h' : text e ++ text e' = text e'' ++ [] := by
      rw [he'', List.append_nil]
      rfl
    cases (text_cut h').2

theorem holds_none : Holds json none [] := rfl

theorem next_entry : next OneSink.site.wires none checked = .ok entry := rfl

/-- The entry after it, and the file that holds the one. -/
def later : Entry := append digest [entry] requested

noncomputable def oneLine : Option Bytes := some (Bytes.ofText (wholeLines json [entry]))

/-- The sync failed: the file still reads as the one entry, or as the two. -/
theorem synced_or_not : (verify digest [] = .ok () ∧ Holds json none [] ∧
    next OneSink.site.wires none checked = .ok entry ∧
    Recovers OneSink.site json "journal.ndjson" [()] [] entry
      (appendJournal json (some (.sync "Input/output error")) none entry).2) ∧
    verify digest [entry] = .ok () ∧ Holds json oneLine [entry] ∧
    next OneSink.site.wires (some entry) requested = .ok later ∧
    Recovers OneSink.site json "journal.ndjson" [()] [entry] later
      (appendJournal json (some (.sync "Input/output error")) oneLine later).2 := by
  have hs : OneSink.site.Signs := nofun
  have hv : verify digest [entry] = .ok () := by decide +kernel
  exact ⟨⟨rfl, holds_none, next_entry,
      (recovery OneSink.site hs json lawful "journal.ndjson" [()] [] rfl none holds_none checked entry
        next_entry (.sync "Input/output error")).mpr trivial⟩,
    hv, rfl, rfl, (recovery OneSink.site hs json lawful "journal.ndjson" [()] [entry] hv oneLine rfl
      requested later rfl (.sync "Input/output error")).mpr trivial⟩

/-- The first byte was written: the file holds an opening brace and no more. -/
theorem torn_after_brace : next OneSink.site.wires none checked = .ok entry ∧
    ¬ Recovers OneSink.site json "journal.ndjson" [()] [] entry
      (appendJournal json (some (.cut 1 "No space left on device")) none entry).2 := by
  refine ⟨next_entry, ?_⟩
  have hcut : [0x7b] ++ Bytes.ofText (inner entry ++ ['\x7d']) = Bytes.ofText (json.toString entry) :=
    rfl
  have hne : Bytes.ofText (inner entry ++ ['\x7d']) ≠ [] := by
    rw [Bytes.ofText_append]
    exact List.append_ne_nil_of_right_ne_nil _ (by decide)
  exact not_recovers_torn lawful holds_none hcut (by decide) hne

end OneLine

end Rescind.Journal
