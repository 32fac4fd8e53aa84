/-
# `Rescind.Safety.Persistence` — what a store holds, whatever its calls come to

A store on disk holds its schema, a record for each instance, the ledger, the notes and
the name of its controller (`Kept`, `Holds`).  Each operation of an open store, and the
opening of it, changes what is held by the whole of its effect or not at all, whichever
of its calls fail and wherever the process is killed; and so it is over every history
(`kept_on_disk`).  What is read is what is held.  There is one exception: a test for a file
that fails finds none, and a controller whose name cannot be read is named anew.

**Proved here.**

    an operation is carried out whole or not at all      (`Call.whole`)
    a store that is created has nothing in it            (`create_ends`)
    what a history leaves is what took effect            (`kept_on_disk`)
    so it is since the store was made                    (`kept_since_created`)
    the engine's store is such a one                     (`engine_mirrors`)

A write that fails or is killed leaves a beginning of what was to be written; that a
rename is not torn, and that nobody else writes to the store's files, is assumed.
-/
import Mathlib.Data.List.Sort
import Mathlib.Data.Option.Basic
import Rescind.Engine.Disk
import Rescind.Engine.World
import Rescind.Safety.Exclusion

namespace Rescind.Disk

open Lib Canonical
open Prog (Post)

variable {F T α : Type} {G : Ground F} {S : Serde F T} {f g : Path → Option Bytes} {d : Drive Path}

/-! ## Paths -/

/-- The files a store is read from. -/
def Own : Set Path :=
  { p | (∃ id, p = instancePath id) ∨ (∃ name, p = metaPath name) ∨ p = controllerPath ∨ p = schemaPath }

/-- All others. -/
def Aside : Set Path := { p | p ∉ Own }

section
variable {id id' name name' : String} {p : Path}

theorem instancePath_inj (h : instancePath id = instancePath id') : id = id' := by
  have hname : id.toList ++ ".json".toList = id'.toList ++ ".json".toList := congrArg Path.name h
  exact String.toList_inj.mp (List.append_cancel_right hname)

theorem metaPath_inj (h : metaPath name = metaPath name') : name = name' := by
  have hname : name.toList ++ ".json".toList = name'.toList ++ ".json".toList := congrArg Path.name h
  exact String.toList_inj.mp (List.append_cancel_right hname)

theorem root_ne_instancePath (h : p.dir = .root) : p ≠ instancePath id := fun he =>
  nomatch h.symm.trans (congrArg Path.dir he)

theorem last_json (s : List Char) : (s ++ ".json".toList).getLast? = some 'n' := by
  rw [List.getLast?_append]
  rfl

theorem last_metaPath : (metaPath name).name.getLast? = some 'n' := last_json _

theorem metaPath_ne_controllerPath : metaPath name ≠ controllerPath := fun h =>
  absurd (last_metaPath.symm.trans (congrArg (fun p => p.name.getLast?) h)) (by decide)

theorem metaPath_ne_schemaPath : metaPath name ≠ schemaPath := fun h =>
  absurd (last_metaPath.symm.trans (congrArg (fun p => p.name.getLast?) h)) (by decide)

theorem instancePath_ne_schemaPath : instancePath id ≠ schemaPath := (root_ne_instancePath rfl).symm

theorem own_last (h : p ∈ Own) : p.name.getLast? ∈ [some 'n', some 'r', some 'a'] := by
  rcases h with ⟨id, rfl⟩ | ⟨name, rfl⟩ | rfl | rfl
  · rw [show (instancePath id).name.getLast? = some 'n' from last_json _]
    decide
  · rw [last_metaPath]
    decide
  · decide
  · decide

theorem aside_tmp : p.withExtension "rescind-tmp" ∈ Aside := by
  intro h
  have hlast : (p.withExtension "rescind-tmp").name.getLast? = some 'p' := by
    show (fileStem p.name ++ '.' :: "rescind-tmp".toList).getLast? = some 'p'
    rw [List.getLast?_append]
    rfl
  have hin := own_last h
  rw [hlast] at hin
  revert hin
  decide

theorem aside_lock : lockPath ∈ Aside := fun h => absurd (own_last h) (by decide)

end

/-! ## What is held -/

/-- What a store holds. -/
structure Kept (T : Type) where
  schema : Except SchemaError Nat
  recs : Assoc String T
  sorted : recs.Sorted
  ledger : Ledger
  notes : String → Params
  controller : Option String

namespace Kept

def write (k : Kept T) (id : String) (rec : T) : Kept T :=
  { k with recs := k.recs.insert id rec, sorted := k.sorted.insert id rec }

def remove (k : Kept T) (id : String) : Kept T := { k with recs := k.recs.erase id, sorted := k.sorted.filter _ }

def note (k : Kept T) (name : String) (v : Params) : Kept T := { k with notes := Function.update k.notes name v }

end Kept

/-- A file has the text of a value, which is no deeper than is read. -/
def Written (G : Ground F) (S : Serde F α) (b : Bytes) (a : α) : Prop :=
  encode G.floats (S.toValue a) = .ok b ∧ Json.nesting (S.toValue a).1 ≤ depth

/-- The schema that a schema file gives. -/
def schemaIn (file : Option Bytes) : Except SchemaError Nat := file.elim (.error .missing) parseSchema

/-- The name that a controller's file gives. -/
def namedIn (file : Option Bytes) : Option String :=
  (file.bind Bytes.text?).bind fun t => if (Text.trim t).isEmpty then none else some (String.ofList (Text.trim t))

/-- The files hold what is kept. -/
structure Holds (G : Ground F) (S : Serde F T) (f : Path → Option Bytes) (k : Kept T) : Prop where
  schema : schemaIn (f schemaPath) = k.schema
  records : ∀ id, Option.Rel (Written G S) (f (instancePath id)) (k.recs.get id)
  ledger : ∃ o : Option Ledger,
    Option.Rel (fun b l => Written G ledgerSerde b (LedgerRecord.fromLedger l)) (f ledgerPath) o ∧ k.ledger = o.getD {}
  exclusive : k.ledger.Exclusive
  notes : ∀ name, name ≠ "ledger" → ∃ o : Option Params, Option.Rel (Written G metaSerde) (f (metaPath name)) o ∧
    k.notes name = o.getD blank
  controller : namedIn (f controllerPath) = k.controller

section
variable {k : Kept T} {id name : String} {rec : T} {b : Bytes} {l : Ledger} {v : Params}

/-- Only the store's own files are read. -/
theorem Holds.congr (h : Holds G S f k) (hfg : Only Aside f g) : Holds G S g k := by
  have hown : ∀ p, p ∈ Own → g p = f p := fun p hp => hfg p fun hn => hn hp
  refine ⟨?_, fun id => ?_, ?_, h.exclusive, fun name hn => ?_, ?_⟩
  · rw [hown _ (Or.inr (Or.inr (Or.inr rfl)))]
    exact h.schema
  · rw [hown _ (Or.inl ⟨id, rfl⟩)]
    exact h.records id
  · rw [hown ledgerPath (Or.inr (Or.inl ⟨"ledger", rfl⟩))]
    exact h.ledger
  · rw [hown _ (Or.inr (Or.inl ⟨name, rfl⟩))]
    exact h.notes name hn
  · rw [hown _ (Or.inr (Or.inr (Or.inl rfl)))]
    exact h.controller

/-- One record's file is set, or is gone. -/
theorem Holds.set_record {file : Option Bytes} {recs : Assoc String T} (h : Holds G S f k) (hs : recs.Sorted)
    (hid : Option.Rel (Written G S) file (recs.get id)) (hne : ∀ j, j ≠ id → recs.get j = k.recs.get j) :
    Holds G S (Function.update f (instancePath id) file) { k with recs := recs, sorted := hs } := by
  refine ⟨?_, fun j => ?_, ?_, h.exclusive, fun name hn => ?_, ?_⟩
  · rw [Function.update_of_ne (root_ne_instancePath rfl)]
    exact h.schema
  · by_cases hj : j = id
    · rw [hj, Function.update_self]
      exact hid
    · rw [Function.update_of_ne fun he => hj (instancePath_inj he), hne j hj]
      exact h.records j
  · rw [Function.update_of_ne (root_ne_instancePath rfl)]
    exact h.ledger
  · rw [Function.update_of_ne (root_ne_instancePath rfl)]
    exact h.notes name hn
  · rw [Function.update_of_ne (root_ne_instancePath rfl)]
    exact h.controller

theorem Holds.put_record (h : Holds G S f k) (hw : Written G S b rec) :
    Holds G S (Function.update f (instancePath id) (some b)) (k.write id rec) :=
  h.set_record (k.sorted.insert id rec) (Assoc.get_insert_self k.recs id rec ▸ Option.Rel.some hw)
    fun _ hj => Assoc.get_insert_ne _ _ hj

theorem Holds.drop_record (h : Holds G S f k) : Holds G S (Function.update f (instancePath id) none) (k.remove id) :=
  h.set_record (k.remove id).sorted (Assoc.get_erase_self k.recs id ▸ Option.Rel.none)
    fun _ hj => Assoc.get_erase_ne _ hj

theorem Holds.put_ledger (h : Holds G S f k) (hl : l.Exclusive)
    (hw : Written G ledgerSerde b (LedgerRecord.fromLedger l)) :
    Holds G S (Function.update f ledgerPath (some b)) { k with ledger := l } := by
  refine ⟨?_, fun j => ?_, ⟨some l, ?_, rfl⟩, hl, fun name hn => ?_, ?_⟩
  · rw [Function.update_of_ne metaPath_ne_schemaPath.symm]
    exact h.schema
  · rw [Function.update_of_ne (root_ne_instancePath rfl).symm]
    exact h.records j
  · rw [Function.update_self]
    exact Option.Rel.some hw
  · rw [Function.update_of_ne fun he => hn (metaPath_inj he)]
    exact h.notes name hn
  · rw [Function.update_of_ne metaPath_ne_controllerPath.symm]
    exact h.controller

theorem Holds.put_note (h : Holds G S f k) (hname : name ≠ "ledger") (hw : Written G metaSerde b v) :
    Holds G S (Function.update f (metaPath name) (some b)) (k.note name v) := by
  refine ⟨?_, fun j => ?_, ?_, h.exclusive, fun other hn => ?_, ?_⟩
  · rw [Function.update_of_ne metaPath_ne_schemaPath.symm]
    exact h.schema
  · rw [Function.update_of_ne (root_ne_instancePath rfl).symm]
    exact h.records j
  · rw [Function.update_of_ne fun he : ledgerPath = _ => hname (metaPath_inj he).symm]
    exact h.ledger
  · show ∃ o, Option.Rel _ _ o ∧ Function.update k.notes name v other = _
    by_cases ho : other = name
    · rw [ho, Function.update_self, Function.update_self]
      exact ⟨some v, Option.Rel.some hw, rfl⟩
    · rw [Function.update_of_ne fun he => ho (metaPath_inj he), Function.update_of_ne ho]
      exact h.notes other hn
  · rw [Function.update_of_ne metaPath_ne_controllerPath.symm]
    exact h.controller

/-- The schema's file is set. -/
theorem Holds.put_schema (h : Holds G S f k) :
    Holds G S (Function.update f schemaPath (some b)) { k with schema := parseSchema b } := by
  refine ⟨?_, fun j => ?_, ?_, h.exclusive, fun other hn => ?_, ?_⟩
  · rw [Function.update_self]
    rfl
  · rw [Function.update_of_ne instancePath_ne_schemaPath]
    exact h.records j
  · rw [Function.update_of_ne metaPath_ne_schemaPath]
    exact h.ledger
  · rw [Function.update_of_ne metaPath_ne_schemaPath]
    exact h.notes other hn
  · rw [Function.update_of_ne (by decide)]
    exact h.controller

theorem Holds.put_controller (h : Holds G S f k) (hname : namedIn (some b) = some name) :
    Holds G S (Function.update f controllerPath (some b)) { k with controller := some name } := by
  refine ⟨?_, fun j => ?_, ?_, h.exclusive, fun other hn => ?_, ?_⟩
  · rw [Function.update_of_ne (by decide)]
    exact h.schema
  · rw [Function.update_of_ne (root_ne_instancePath rfl).symm]
    exact h.records j
  · rw [Function.update_of_ne (metaPath_ne_controllerPath : ledgerPath ≠ _)]
    exact h.ledger
  · rw [Function.update_of_ne metaPath_ne_controllerPath]
    exact h.notes other hn
  · rw [Function.update_self]
    exact hname

end

/-! ## Reading -/

/-- The drive's files hold what is kept. -/
def On (G : Ground F) (S : Serde F T) (d : Drive Path) (k : Kept T) : Prop := Holds G S d.files.get k

/-- A call on the files failed. -/
def Failed (e : StoreError) : Prop := ∃ why, e = .io why

/-- The end of a part that only reads. -/
def Looked (d : Drive Path) (Q : α → Prop) (N : StoreError → Prop) (r : Res StoreError α) (d' : Drive Path) : Prop :=
  d'.files = d.files ∧ match r with
    | .ok a => Q a
    | .err e => N e
    | .died => True

/-- Nothing is changed by what only reads. -/
theorem reads_whole {k : Kept T} {m : OnDisk StoreError α} {Q : α → Prop} {N : StoreError → Prop}
    (h : On G S d k) (hm : Post m (Looked d Q N) d) : Whole (On G S) k k Q N m d := by
  refine Post.mono hm fun r d' hd => ?_
  have hk : On G S d' k := by
    unfold On
    rw [hd.1]
    exact h
  cases r with
  | ok a => exact ⟨hk, hd.2⟩
  | err e => exact ⟨hk, hd.2⟩
  | died => exact Or.inl hk

section
variable {S' : Serde F α} {p : Path} {a : α} {b : Bytes} {o : Option α}

/-- What was written is read. -/
theorem readJson_ends (hb : d.files.get p = some b) (hw : Written G S' b a) :
    Post (readJson G S' p) (Looked d (fun x => x = a) Failed) d := by
  refine Post.bind look_ends (fun file d' h => ?_) (fun e d' h => ⟨h.1, h.2.2⟩) fun _ h => h
  obtain ⟨hd, hfile, -⟩ := h
  have hread : (fromSlice G.floats b).bind S'.ofValue = some a := by
    rw [fromSlice_encode hw.1, if_pos hw.2]
    exact S'.back a
  rw [hfile.trans hb]
  dsimp only
  rw [hread]
  exact ⟨hd, rfl⟩

theorem readIf_ends (h : Option.Rel (Written G S') (d.files.get p) o) :
    Post (readIf G S' p) (Looked d (fun x => x = o ∨ x = none ∧ d.Failing) Failed) d := by
  refine Post.bind found_ends (fun t d' hd => ?_) (fun _ _ hd => hd.2.elim) fun _ hd => hd
  obtain ⟨hfiles, ht⟩ := hd
  generalize hfile : d.files.get p = file at h ht
  cases h with
  | none =>
      cases t with
      | false => exact ⟨hfiles, Or.inl rfl⟩
      | true => exact ht.elim (fun ht => nomatch ht) fun ht => nomatch ht.1
  | @some b a hw =>
      cases t with
      | false => exact ⟨hfiles, Or.inr ⟨rfl, ht.elim (fun ht => nomatch ht) And.right⟩⟩
      | true =>
          have hb : d'.files.get p = some b := hfiles ▸ hfile
          refine Post.bind (readJson_ends hb hw) (fun v d'' hv => ?_) (fun _ _ hv => ⟨hv.1.trans hfiles, hv.2⟩)
            fun _ hv => ⟨hv.1.trans hfiles, hv.2⟩
          exact ⟨hv.1.trans hfiles, Or.inl (congrArg some hv.2)⟩

end

section
variable {k : Kept T} {id name : String}

theorem readInstance_whole (h : On G S d k) : Whole (On G S) k k (fun r => r = k.recs.get id ∨ r = none ∧ d.Failing)
    Failed (readInstance G S id) d :=
  reads_whole h (readIf_ends (h.records id))

theorem readMeta_whole (h : On G S d k) (hn : name ≠ "ledger") :
    Whole (On G S) k k (fun v => v = k.notes name ∨ v = blank ∧ d.Failing) Failed (readMeta G name) d := by
  obtain ⟨o, ho, hk⟩ := h.notes name hn
  refine reads_whole h (Post.bind (readIf_ends ho) (fun x d' hx => ?_) (fun _ _ hx => hx) fun _ hx => hx)
  cases x with
  | none =>
      refine ⟨hx.1, hx.2.imp (fun ho => ?_) fun hf => ⟨rfl, hf.2⟩⟩
      rw [hk, ← ho]
      rfl
  | some v =>
      refine ⟨hx.1, Or.inl ?_⟩
      rw [hk, ← hx.2.resolve_right fun hf => nomatch hf.1]
      rfl

theorem readLedger_whole (h : On G S d k) :
    Whole (On G S) k k (fun l => l = k.ledger ∨ l = {} ∧ d.Failing) Failed (readLedger G) d := by
  obtain ⟨o, ho, hk⟩ := h.ledger
  have hrel : Option.Rel (Written G ledgerSerde) (d.files.get ledgerPath) (o.map LedgerRecord.fromLedger) := by
    generalize d.files.get ledgerPath = file at ho ⊢
    cases ho with
    | none => exact Option.Rel.none
    | some hw => exact Option.Rel.some hw
  refine reads_whole h (Post.bind (readIf_ends hrel) (fun x d' hx => ?_) (fun _ _ hx => hx) fun _ hx => hx)
  cases x with
  | none =>
      refine ⟨hx.1, hx.2.imp (fun ho => ?_) fun hf => ⟨rfl, hf.2⟩⟩
      rw [hk, Option.map_eq_none_iff.mp ho.symm]
      rfl
  | some r =>
      obtain ⟨l, rfl, rfl⟩ := Option.map_eq_some_iff.mp (hx.2.resolve_right fun hf => nomatch hf.1).symm
      have hl : l.Exclusive := by
        have he := h.exclusive
        rw [hk] at he
        exact he
      dsimp only
      rw [toLedger_fromLedger hl]
      exact ⟨hx.1, Or.inl hk.symm⟩

end

/-- The id of a record's file. -/
theorem idOf_eq_some {p : Path} {id : String} : idOf p = some id ↔ p = instancePath id := by
  constructor
  · intro h
    obtain ⟨dir, name⟩ := p
    cases dir with
    | root => cases h
    | instances =>
        obtain ⟨s, hs, rfl⟩ := Option.map_eq_some_iff.mp h
        obtain ⟨r, hr, rfl⟩ := Option.map_eq_some_iff.mp hs
        have hname := congrArg List.reverse (Text.dropPrefix_eq_some hr)
        rw [List.reverse_append, List.reverse_reverse, List.reverse_reverse] at hname
        show Path.mk _ name = ⟨_, (String.ofList r.reverse).toList ++ ".json".toList⟩
        rw [String.toList_ofList, ← hname]
  · rintro rfl
    have hdrop : ∀ s t : List Char, Text.dropPrefix s (s ++ t) = some t := by
      intro s t
      induction s with
      | nil => rfl
      | cons c s ih =>
          show (if c = c then Text.dropPrefix s (s ++ t) else none) = _
          rw [if_pos rfl, ih]
    show ((Text.dropPrefix _ (id.toList ++ ".json".toList).reverse).map List.reverse).map String.ofList = _
    rw [List.reverse_append, hdrop, Option.map_some, List.reverse_reverse, Option.map_some, String.ofList_toList]

/-- **The ids are those of the records, in order.** -/
theorem ids_listed {k : Kept T} {f : FileMap Path} (h : Holds G S f.get k) :
    ((f.paths.filterMap idOf).mergeSort fun a b => decide (a ≤ b)) = k.recs.map Prod.fst := by
  have hmem : ∀ id, id ∈ (f.paths.filterMap idOf).mergeSort (fun a b => decide (a ≤ b)) ↔ id ∈ k.recs.map Prod.fst := by
    intro id
    rw [List.mem_mergeSort, List.mem_filterMap]
    have hp : (∃ p ∈ f.paths, idOf p = some id) ↔ (f.get (instancePath id)).isSome := by
      rw [← FileMap.mem_paths]
      exact ⟨fun ⟨p, hp, hid⟩ => idOf_eq_some.mp hid ▸ hp, fun hp => ⟨_, hp, idOf_eq_some.mpr rfl⟩⟩
    have hk : id ∈ k.recs.map Prod.fst ↔ (k.recs.get id).isSome := by
      constructor
      · intro hid
        obtain ⟨kv, hkv, rfl⟩ := List.mem_map.mp hid
        rw [k.sorted.get_of_mem hkv]
        rfl
      · intro hid
        obtain ⟨r, hr⟩ := Option.isSome_iff_exists.mp hid
        exact List.mem_map.mpr ⟨_, Assoc.mem_of_get hr, rfl⟩
    have hrel := h.records id
    rw [hp, hk]
    generalize f.get (instancePath id) = file at hrel ⊢
    generalize k.recs.get id = r at hrel ⊢
    cases hrel <;> exact Iff.rfl
  have hnodup : (f.paths.filterMap idOf).Nodup := by
    refine List.Nodup.filterMap (fun p q id hp hq => ?_) f.nodup
    rw [Option.mem_def, idOf_eq_some] at hp hq
    rw [hp, hq]
  have htrans : ∀ a b c : String, decide (a ≤ b) = true → decide (b ≤ c) = true → decide (a ≤ c) = true :=
    fun a b c hab hbc => decide_eq_true (le_trans (of_decide_eq_true hab) (of_decide_eq_true hbc))
  have htotal : ∀ a b : String, (decide (a ≤ b) || decide (b ≤ a)) = true := by
    intro a b
    rw [Bool.or_eq_true, decide_eq_true_eq, decide_eq_true_eq]
    exact le_total a b
  have hle : ((f.paths.filterMap idOf).mergeSort fun a b => decide (a ≤ b)).Pairwise (· ≤ ·) :=
    (List.pairwise_mergeSort htrans htotal _).imp of_decide_eq_true
  have hsorted : ((f.paths.filterMap idOf).mergeSort fun a b => decide (a ≤ b)).Pairwise (· < ·) :=
    (hle.and ((List.mergeSort_perm _ _).nodup_iff.mpr hnodup)).imp fun h => lt_of_le_of_ne h.1 h.2
  exact List.Subset.antisymm_of_pairwise hsorted (List.pairwise_map.mpr k.sorted)
    (fun id hid => (hmem id).mp hid) fun id hid => (hmem id).mpr hid

/-! ## Writing -/

/-- A call on the files failed, or the value has no canonical text. -/
def Unwritten (G : Ground F) (S' : Serde F α) (v : α) (e : StoreError) : Prop :=
  Failed e ∨ ∃ why, encode G.floats (S'.toValue v) = .error why

section
variable {k k' : Kept T} {S' : Serde F α} {v : α} {p : Path} {b : Bytes}

theorem writeAtomic_whole (h : On G S d k) (hput : Holds G S (Function.update d.files.get p (some b)) k') :
    Whole (On G S) k k' (fun _ => True) Failed (writeAtomic p b) d := by
  have hsub : {p.withExtension "rescind-tmp"} ⊆ Aside := Set.singleton_subset_iff.mpr aside_tmp
  exact replaceFile_whole.along (fun t ht => h.congr (Only.mono hsub ht)) fun t ht => hput.congr (Only.mono hsub ht)

theorem writeJson_whole (h : On G S d k)
    (hput : ∀ b, encode G.floats (S'.toValue v) = .ok b → Holds G S (Function.update d.files.get p (some b)) k') :
    Whole (On G S) k k' (fun _ => True) (Unwritten G S' v) (writeJson G S' p v) d := by
  unfold writeJson
  cases he : encode G.floats (S'.toValue v) with
  | error e =>
      obtain ⟨path⟩ := e
      exact Whole.fail h (Or.inr ⟨_, he⟩)
  | ok b => exact (writeAtomic_whole h (hput b he)).mono (fun _ ha => ha) fun _ hf => Or.inl hf

end

theorem nestingItems_map {β : Type} {value : β → Json.Value F} {n : Nat} (h : ∀ b, Json.nesting (value b) ≤ n)
    (bs : List β) : Json.nestingItems (bs.map value) ≤ n := by
  induction bs with
  | nil => exact Nat.zero_le n
  | cons b bs ih => exact max_le (h b) ih

theorem nesting_ofOpt (o : Option String) : Json.nesting (ofOpt (F := F) o) = 0 := by
  cases o <;> rfl

/-- A ledger's text is five deep at most. -/
theorem nesting_ofLedger (r : LedgerRecord) : Json.nesting (ofLedger (F := F) r) ≤ 5 := by
  have hfact : ∀ f, Json.nesting (ofFact (F := F) f) ≤ 1 := by
    intro f
    simp only [ofFact, Json.nesting, Json.nestingItems, nesting_ofOpt]
    decide
  have hheld : ∀ h, Json.nesting (ofHeld (F := F) h) ≤ 3 := by
    intro h
    have humbra := nestingItems_map (F := F) hfact h.umbra
    simp only [ofHeld, Json.nesting, Json.nestingMembers, nesting_ofOpt]
    omega
  have hitems := nestingItems_map (F := F) hheld r.held
  simp only [ofLedger, Json.nesting, Json.nestingMembers]
  omega

theorem nesting_members (m : Assoc String String) : Json.nesting (.object (members (F := F) m)) = 1 := by
  have hm : Json.nestingMembers (members (F := F) m) = 0 := by
    induction m with
    | nil => rfl
    | cons kv m ih => exact Nat.max_eq_zero_iff.mpr ⟨rfl, ih⟩
  simp only [Json.nesting, hm]

section
variable {k : Kept T} {id name : String} {rec : T} {l : Ledger} {v : Params}

theorem writeInstance_whole (h : On G S d k) (hdepth : Json.nesting (S.toValue rec).1 ≤ depth) :
    Whole (On G S) k (k.write id rec) (fun _ => True) (Unwritten G S rec) (writeInstance G S id rec) d :=
  writeJson_whole h fun _ he => h.put_record ⟨he, hdepth⟩

theorem writeLedger_whole (h : On G S d k) (hl : l.Exclusive) : Whole (On G S) k { k with ledger := l } (fun _ => True)
    (Unwritten G ledgerSerde (LedgerRecord.fromLedger l)) (writeLedger G l) d :=
  writeJson_whole h fun _ he => h.put_ledger hl ⟨he, le_trans (nesting_ofLedger _) (by decide)⟩

theorem writeMeta_whole (h : On G S d k) (hname : name ≠ "ledger") : Whole (On G S) k (k.note name v) (fun _ => True)
    (Unwritten G metaSerde v) (writeMeta G name v) d :=
  writeJson_whole h fun _ he => h.put_note hname ⟨he, le_trans (nesting_members v.1).le (by decide)⟩

theorem removeInstance_whole (h : On G S d k) :
    Whole (On G S) k (k.remove id) (fun _ => True) Failed (removeInstance id) d := by
  have hgone : ∀ d' : Drive Path, d'.files = d.files.drop (instancePath id) → On G S d' (k.remove id) := by
    intro d' hd
    unfold On
    rw [hd, FileMap.get_drop]
    exact h.drop_record
  have hkept : ∀ d' : Drive Path, d'.files = d.files → On G S d' k := by
    intro d' hd
    unfold On
    rw [hd]
    exact h
  unfold removeInstance remove
  refine Post.mono call_ends fun r d' hd => ?_
  cases r with
  | ok a => exact ⟨hgone d' hd.1, trivial⟩
  | err e => exact ⟨hd.1.elim fun _ hd => hkept d' hd, hd.2.2⟩
  | died => exact hd.imp (fun ⟨_, hd⟩ => hkept d' hd) (hgone d')

end

/-! ## Opening -/

theorem trim_line {s : List Char} (hs : s ≠ []) (hw : ∀ c ∈ s, Text.isWhite c = false) :
    Text.trim (s ++ ['\n']) = s := by
  obtain ⟨c, r, rfl⟩ := List.exists_cons_of_ne_nil hs
  have hfirst : ((c :: r) ++ ['\n']).dropWhile Text.isWhite = (c :: r) ++ ['\n'] :=
    List.dropWhile_cons_of_neg (Bool.eq_false_iff.mp (hw c List.mem_cons_self))
  have hlast : (c :: r).reverse.dropWhile Text.isWhite = (c :: r).reverse := by
    obtain ⟨e, t, he⟩ := List.exists_cons_of_ne_nil (List.reverse_ne_nil_iff.mpr hs)
    have hin : e ∈ c :: r := List.mem_reverse.mp (he ▸ List.mem_cons_self)
    rw [he]
    exact List.dropWhile_cons_of_neg (Bool.eq_false_iff.mp (hw e hin))
  unfold Text.trim
  rw [hfirst, List.reverse_append]
  show (List.dropWhile Text.isWhite ('\n' :: (c :: r).reverse)).reverse = _
  rw [List.dropWhile_cons_of_pos (by decide), hlast, List.reverse_reverse]

/-- A new name is read as it was given. -/
theorem namedIn_new {random : List UInt8} (h : random.length = 16) :
    namedIn (some (Bytes.ofString (newControllerId random ++ "\n"))) = some (newControllerId random) := by
  have hdigit : ∀ n, n < 16 → Text.isWhite (Nat.digitChar n) = false := by decide
  have hchars : ∀ c ∈ (newControllerId random).toList, Text.isWhite c = false := by
    intro c hc
    rw [newControllerId, String.toList_ofList, List.mem_flatMap] at hc
    obtain ⟨b, -, hc⟩ := hc
    have hb : b.toNat < 256 := b.toNat_lt
    rcases List.mem_cons.mp hc with rfl | hc
    · exact hdigit _ (by omega)
    · rw [List.mem_singleton.mp hc]
      exact hdigit _ (Nat.mod_lt _ (by decide))
  have hne : (newControllerId random).toList ≠ [] := by
    rw [newControllerId, String.toList_ofList]
    obtain ⟨b, r, rfl⟩ := List.exists_cons_of_length_pos (h ▸ by decide : 0 < random.length)
    exact List.cons_ne_nil _ _
  have htext : Bytes.text? (Bytes.ofString (newControllerId random ++ "\n")) =
      some ((newControllerId random).toList ++ ['\n']) := by
    rw [Bytes.ofString, String.toList_append]
    exact Bytes.text?_ofText _
  unfold namedIn
  rw [Option.bind_some, htext, Option.bind_some, trim_line hne hchars, String.ofList_toList,
    if_neg (by rw [List.isEmpty_iff]; exact hne)]

/-- What is left of a call that went on: the store's own files, and the fates of the
calls to come. -/
def Going (d : Drive Path) (n : Nat) (N : StoreError → Prop) (r : Res StoreError α) (d' : Drive Path) : Prop :=
  Only Aside d.files.get d'.files.get ∧ match r with
    | .ok _ => d'.fates = d.fates.drop n
    | .err e => N e
    | .died => True

section
variable {d₀ : Drive Path} {n : Nat} {N : StoreError → Prop} {whole : FileMap Path → FileMap Path}

theorem call_going (hw : ∀ f : FileMap Path, Only Aside f.get (whole f).get) (h : Only Aside d₀.files.get d.files.get)
    (hf : d.fates = d₀.fates.drop n) : Post (call .io whole fun _ => id) (Going d₀ (n + 1) Failed) d := by
  have hdone : ∀ d' : Drive Path, d'.files = whole d.files → Only Aside d₀.files.get d'.files.get := by
    intro d' hd
    rw [hd]
    exact trans_of (Only Aside) h (hw _)
  have hkept : ∀ d' : Drive Path, d'.files = d.files → Only Aside d₀.files.get d'.files.get := by
    intro d' hd
    rw [hd]
    exact h
  refine Post.mono call_ends fun r d' hd => ?_
  cases r with
  | ok a =>
      refine ⟨hdone d' hd.1, ?_⟩
      rw [hd.2.1, hf, List.tail_drop]
  | err e => exact ⟨hd.1.elim fun _ hd => hkept d' hd, hd.2.2⟩
  | died => exact ⟨hd.elim (fun ⟨_, hd⟩ => hkept d' hd) (hdone d'), trivial⟩

theorem lockStore_going {free : Bool} (h : Only Aside d₀.files.get d.files.get) (hf : d.fates = d₀.fates.drop n) :
    Post (lockStore G free) (Going d₀ (n + 2) fun e => Failed e ∨ free = false ∧ e = .locked G.root) d := by
  have hmade : ∀ f : FileMap Path, Only Aside f.get (if (f.get lockPath).isSome then f else f.put lockPath []).get := by
    intro f
    split
    · exact refl_of (Only _) _
    · rw [FileMap.get_put]
      exact Only.update aside_lock
  refine Post.bind (call_going hmade h hf) (fun _ d₁ h₁ => ?_) (fun _ _ h => ⟨h.1, Or.inl h.2⟩) fun _ h => h
  refine Post.bind look_ends (fun b d₂ h₂ => ?_) (fun _ d₂ h₂ => ⟨h₂.1 ▸ h₁.1, Or.inl h₂.2.2⟩)
    fun d₂ h₂ => ⟨h₂.1 ▸ h₁.1, trivial⟩
  have hsame : Only Aside d₀.files.get d₂.files.get := h₂.1 ▸ h₁.1
  cases free with
  | false =>
      rw [h₂.2.1]
      exact ⟨hsame, Or.inr ⟨rfl, rfl⟩⟩
  | true =>
      have hfates : d₂.fates = d₀.fates.drop (n + 2) := by rw [h₂.2.2.1, h₁.2, List.tail_drop]
      rw [h₂.2.1]
      exact ⟨hsame, hfates⟩

end

/-- The schema read is the one there is, or it could not be read. -/
theorem schemaOf_ends : Post schemaOf (fun r d' => d'.files = d.files ∧ match r with
    | .ok v => schemaIn (d.files.get schemaPath) = .ok v ∧ d'.fates = d.fates.tail
    | .err e => schemaIn (d.files.get schemaPath) = .error e ∨ ∃ why, e = .unreadable why
    | .died => True) d := by
  refine Post.bind look_ends (fun file d' h => ?_) (fun _ _ h => ⟨h.1, Or.inr h.2.2⟩) fun _ h => h
  obtain ⟨hd, hfile, hfates, -⟩ := h
  have hin : schemaIn (d.files.get schemaPath) = schemaIn file := congrArg schemaIn hfile.symm
  cases file with
  | none => exact ⟨hd, Or.inl hin⟩
  | some bytes =>
      have hparse : schemaIn (d.files.get schemaPath) = parseSchema bytes := hin
      dsimp only
      cases hp : parseSchema bytes with
      | ok v => exact ⟨hd, hparse.trans hp, hfates⟩
      | error e => exact ⟨hd, Or.inl (hparse.trans hp)⟩

theorem schemaAsked_ends : Post (Prog.attempt schemaOf : OnDisk StoreError (Except SchemaError Nat)) (fun r d' =>
    d'.files = d.files ∧ match r with
    | .ok (.ok v) => schemaIn (d.files.get schemaPath) = .ok v ∧ d'.fates = d.fates.tail
    | .ok (.error e) => schemaIn (d.files.get schemaPath) = .error e ∨ ∃ why, e = .unreadable why
    | .err _ => False
    | .died => True) d :=
  Post.attempt schemaOf_ends (fun _ _ h => h) (fun _ _ h => h) fun _ h => h

/-- Why a store of this schema is not opened. -/
def Refuses (schema : Except SchemaError Nat) (e : StoreError) : Prop :=
  (∃ why, e = .schema (.unreadable why)) ∨ schema ≠ .ok SCHEMA ∧ ∃ s, e = .schema s

theorem schemaOrRefuse_ends : Post schemaOrRefuse (fun r d' => d'.files = d.files ∧ match r with
    | .ok v => schemaIn (d.files.get schemaPath) = .ok v ∧ d'.fates = d.fates.tail
    | .err e => Refuses (schemaIn (d.files.get schemaPath)) e
    | .died => True) d := by
  refine Post.bind schemaAsked_ends (fun x d' h => ?_) (fun _ _ h => h.2.elim) fun _ h => h
  cases x with
  | ok v => exact h
  | error e =>
      refine ⟨h.1, h.2.elim (fun he => Or.inr ⟨?_, e, rfl⟩) fun ⟨why, hw⟩ => Or.inl ⟨why, congrArg _ hw⟩⟩
      rw [he]
      nofun

/-- What a controller's file is read as. -/
theorem readText_ends {p : Path} : Post (readText p) (fun r d' => d'.files = d.files ∧ match r with
    | .ok t => (d.files.get p).bind Bytes.text? = some t ∧ ¬d.Failing
    | .err _ => d.Failing ∨ (d.files.get p).bind Bytes.text? = none
    | .died => True) d := by
  refine Post.bind look_ends (fun file d' h => ?_) (fun _ _ h => ⟨h.1, Or.inl h.2.1⟩) fun _ h => h
  obtain ⟨hd, hfile, -, hgood⟩ := h
  have hin : (d.files.get p).bind Bytes.text? = file.bind Bytes.text? := congrArg (·.bind Bytes.text?) hfile.symm
  cases file with
  | none => exact ⟨hd, Or.inr hin⟩
  | some bytes =>
      have htext : (d.files.get p).bind Bytes.text? = bytes.text? := hin
      dsimp only
      cases ht : bytes.text? with
      | none => exact ⟨hd, Or.inr (htext.trans ht)⟩
      | some t => exact ⟨hd, htext.trans ht, hgood⟩

/-- The controller's name, and the one it is given where there is none or it could not
be read. -/
def Kept.nameFor (k : Kept T) (unread : Bool) (random : List UInt8) : String :=
  if unread then newControllerId random else k.controller.getD (newControllerId random)

def Kept.named (k : Kept T) (unread : Bool) (random : List UInt8) : Kept T :=
  { k with controller := some (k.nameFor unread random) }

theorem nameController_whole {k : Kept T} {random : List UInt8} (h : On G S d k) (hr : random.length = 16) :
    Whole (On G S) k (k.named (d.fates.head?.any CallFate.fails) random)
      (fun id => id = k.nameFor (d.fates.head?.any CallFate.fails) random) Failed (nameController random) d := by
  have hon : ∀ d' : Drive Path, d'.files = d.files → On G S d' k := by
    intro d' hd
    unfold On
    rw [hd]
    exact h
  have hgive : ∀ d' : Drive Path, d'.files = d.files →
      k.nameFor (d.fates.head?.any CallFate.fails) random = newControllerId random →
      Whole (On G S) k (k.named (d.fates.head?.any CallFate.fails) random)
        (fun id => id = k.nameFor (d.fates.head?.any CallFate.fails) random) Failed (do
          let id := newControllerId random
          writeAtomic controllerPath (Bytes.ofString (id ++ "\n"))
          pure id) d' := by
    intro d' hd hname
    unfold Kept.named
    rw [hname]
    exact Whole.then (writeAtomic_whole (hon d' hd) ((hon d' hd).put_controller (namedIn_new hr)))
      fun _ _ => ⟨_, rfl, rfl⟩
  refine Post.bind (P := fun (r : Res StoreError (Except String (List Char))) d' => d'.files = d.files ∧ match r with
      | .ok (.ok t) => (d.files.get controllerPath).bind Bytes.text? = some t ∧ ¬d.Failing
      | .ok (.error _) => d.Failing ∨ (d.files.get controllerPath).bind Bytes.text? = none
      | .err _ => False
      | .died => True) (Post.attempt readText_ends (fun _ _ h => h) (fun _ _ h => h) fun _ h => h)
    (fun x d' hx => ?_) (fun _ _ h => h.2.elim) fun d' hd => Or.inl (hon d' hd.1)
  obtain ⟨hd, hx⟩ := hx
  have hnamed : k.controller = _ := h.controller.symm
  unfold namedIn at hnamed
  cases x with
  | ok t =>
      have hunread : (d.fates.head?.any CallFate.fails) = false := Bool.eq_false_iff.mpr hx.2
      rw [hx.1, Option.bind_some] at hnamed
      dsimp only
      split
      next he =>
        rw [if_pos he] at hnamed
        refine hgive d' hd ?_
        rw [hunread, Kept.nameFor, hnamed]
        rfl
      next he =>
        rw [if_neg he] at hnamed
        have hname : k.nameFor false random = String.ofList (Text.trim t) := by
          rw [Kept.nameFor, hnamed]
          rfl
        rw [hunread]
        refine ⟨{ hon d' hd with controller := ?_ }, hname.symm⟩
        show _ = some (k.nameFor false random)
        rw [hname, ← hnamed]
        exact (hon d' hd).controller
  | error e =>
      refine hgive d' hd ?_
      rcases hx with hx | hx
      · exact if_pos hx
      · rw [hx, Option.bind_none] at hnamed
        rw [Kept.nameFor, hnamed]
        split <;> rfl

theorem checkSchema_ends {v : Nat} : Post (checkSchema v) (fun r d' => d' = d ∧ match r with
    | .ok _ => v = SCHEMA
    | .err e => v ≠ SCHEMA ∧ ∃ s, e = .schema s
    | .died => False) d := by
  unfold checkSchema
  split
  next h => exact ⟨rfl, Nat.ne_of_lt h, _, rfl⟩
  next =>
    split
    next h => exact ⟨rfl, h, _, rfl⟩
    next h => exact ⟨rfl, not_not.mp h⟩

/-- Why a store is not opened. -/
def Unopened (root : String) (free : Bool) (k : Kept T) (e : StoreError) : Prop :=
  Failed e ∨ Refuses k.schema e ∨ free = false ∧ e = .locked root

/-- **Opening names the controller, and does nothing else.** -/
theorem openStore_whole {k : Kept T} {free : Bool} {random : List UInt8} (h : On G S d k) (hr : random.length = 16) :
    Whole (On G S) k (k.named (d.fates[4]?.any CallFate.fails) random)
      (fun id => id = k.nameFor (d.fates[4]?.any CallFate.fails) random) (Unopened G.root free k)
      (openStore G free random) d := by
  have hon : ∀ d' : Drive Path, Only Aside d.files.get d'.files.get → On G S d' k := fun _ hd => h.congr hd
  have hfiles : ∀ d' : Drive Path, d'.files = d.files → On G S d' k := fun d' hd => hon d' (hd ▸ refl_of (Only _) _)
  refine Post.bind schemaOrRefuse_ends (fun v d₁ h₁ => ?_)
    (fun _ d' hd => ⟨hfiles d' hd.1, Or.inr (Or.inl (h.schema ▸ hd.2))⟩) fun d' hd => Or.inl (hfiles d' hd.1)
  obtain ⟨hf₁, hv, hfates⟩ := h₁
  have hschema : k.schema = .ok v := h.schema.symm.trans hv
  refine Post.bind checkSchema_ends (fun _ d₂ h₂ => ?_)
    (fun _ d' hd => ⟨hfiles d' (hd.1 ▸ hf₁), Or.inr (Or.inl (Or.inr ⟨fun he => ?_, hd.2.2⟩))⟩) fun _ hd => hd.2.elim
  · obtain ⟨rfl, -⟩ := h₂
    have hsame : Only Aside d.files.get d₂.files.get := hf₁ ▸ refl_of (Only _) _
    refine Post.bind (lockStore_going (n := 1) hsame (hfates.trans List.drop_one.symm)) (fun _ d₃ h₃ => ?_)
      (fun _ d' hd => ⟨hon d' hd.1, hd.2.imp_right Or.inr⟩) fun d' hd => Or.inl (hon d' hd.1)
    refine Post.bind (call_going (fun _ => refl_of (Only _) _) h₃.1 h₃.2) (fun _ d₄ h₄ => ?_)
      (fun _ d' hd => ⟨hon d' hd.1, Or.inl hd.2⟩) fun d' hd => Or.inl (hon d' hd.1)
    have hhead : d₄.fates.head? = d.fates[4]? := by rw [h₄.2, List.head?_drop]
    rw [← hhead]
    exact (nameController_whole (hon d₄ h₄.1) hr).mono (fun _ ha => ha) fun _ hf => Or.inl hf
  · rw [hschema] at he
    exact hd.2.1 (Except.ok.inj he)

/-! ## Creation -/

/-- Nothing is held, under this schema. -/
def Kept.nothing (schema : Except SchemaError Nat) : Kept T where
  schema := schema
  recs := []
  sorted := Assoc.Sorted.nil
  ledger := {}
  notes _ := blank
  controller := none

/-- No record, no holding and no note. -/
structure Kept.Bare (k : Kept T) : Prop where
  recs : k.recs = []
  ledger : k.ledger = {}
  notes : ∀ name, k.notes name = blank
  schema : k.schema = .error .missing ∨ k.schema = .ok SCHEMA

/-- A directory without the files of a store holds nothing. -/
theorem Holds.nothing (h : ∀ p ∈ Own, f p = none) : Holds G S f (Kept.nothing (.error .missing)) where
  schema := by
    rw [h _ (Or.inr (Or.inr (Or.inr rfl)))]
    rfl
  records id := by
    rw [h _ (Or.inl ⟨id, rfl⟩)]
    exact Option.Rel.none
  ledger := by
    rw [h _ (Or.inr (Or.inl ⟨"ledger", rfl⟩))]
    exact ⟨none, Option.Rel.none, rfl⟩
  exclusive := Ledger.Exclusive.empty
  notes name _ := by
    rw [h _ (Or.inr (Or.inl ⟨name, rfl⟩))]
    exact ⟨none, Option.Rel.none, rfl⟩
  controller := by
    rw [h _ (Or.inr (Or.inr (Or.inl rfl)))]
    rfl

theorem parseSchema_schemaText : parseSchema (schemaText SCHEMA) = .ok SCHEMA := by decide +kernel

/-- **However the creation of a store ends, nothing is in it**, and where it returned the
store is of this build's schema and has the name it was given. -/
theorem create_ends {free : Bool} {random : List UInt8} (hnone : ∀ p ∈ Own, d.files.get p = none)
    (hr : random.length = 16) : Post (create G free random) (fun r d' => ∃ k : Kept T, On G S d' k ∧ k.Bare ∧
      ∀ id, r = .ok id → k.schema = .ok SCHEMA ∧ k.controller = some id) d := by
  have hstart : ∀ d' : Drive Path, Only Aside d.files.get d'.files.get →
      On G S d' (Kept.nothing (.error .missing)) := fun _ hd => (Holds.nothing hnone).congr hd
  have hbare : (Kept.nothing (.error .missing) : Kept T).Bare := ⟨rfl, rfl, fun _ => rfl, Or.inl rfl⟩
  have hempty : (Kept.nothing (.ok SCHEMA) : Kept T).Bare := ⟨rfl, rfl, fun _ => rfl, Or.inr rfl⟩
  have herr : ∀ (e : StoreError) {P : String → Prop} (id : String), (.err e : Res StoreError String) = .ok id → P id :=
    fun _ _ _ h => absurd h (Res.err_ne_ok _ _)
  have hdied : ∀ {P : String → Prop} (id : String), (.died : Res StoreError String) = .ok id → P id := fun _ h =>
    absurd h (Res.died_ne_ok _)
  refine Post.bind (call_going (n := 0) (fun _ => refl_of (Only _) _) (refl_of (Only _) _) rfl) (fun _ d₁ h₁ => ?_)
    (fun e d' hd => ⟨_, hstart d' hd.1, hbare, herr e⟩) fun d' hd => ⟨_, hstart d' hd.1, hbare, hdied⟩
  refine Post.bind schemaAsked_ends (fun x d₂ hx => ?_) (fun _ _ h => h.2.elim)
    fun d' hd => ⟨_, hstart d' (hd.1 ▸ h₁.1), hbare, hdied⟩
  have hon : On G S d₂ (Kept.nothing (.error .missing)) := hstart d₂ (hx.1 ▸ h₁.1)
  cases x with
  | ok v => exact ⟨_, hon, hbare, herr _⟩
  | error e =>
      cases e with
      | unreadable s => exact ⟨_, hon, hbare, herr _⟩
      | unknown v => exact ⟨_, hon, hbare, herr _⟩
      | older v => exact ⟨_, hon, hbare, herr _⟩
      | missing =>
          have hput := Holds.put_schema (b := schemaText SCHEMA) hon
          rw [parseSchema_schemaText] at hput
          refine Post.bind (writeAtomic_whole hon hput) (fun _ d₃ h₃ => ?_) (fun e d' hd => ⟨_, hd.1, hbare, herr e⟩)
            fun d' hd => hd.elim (fun hd => ⟨_, hd, hbare, hdied⟩) fun hd => ⟨_, hd, hempty, hdied⟩
          refine Post.mono (openStore_whole h₃.1 hr) fun r d' hd => ?_
          have hnamed : ∀ unread, ((Kept.nothing (.ok SCHEMA) : Kept T).named unread random).Bare := fun _ =>
            ⟨rfl, rfl, fun _ => rfl, Or.inr rfl⟩
          cases r with
          | ok id => exact ⟨_, hd.1, hnamed _, fun _ h => ⟨rfl, congrArg some (hd.2.symm.trans (Res.ok.inj h))⟩⟩
          | err e => exact ⟨_, hd.1, hempty, herr e⟩
          | died => exact hd.elim (fun hd => ⟨_, hd, hempty, hdied⟩) fun hd => ⟨_, hd, hnamed _, hdied⟩

/-! ## Histories -/

/-- What is asked of a store: to be opened, or of one that is. -/
inductive Call (T : Type) where
  | openStore (free : Bool) (random : List UInt8)
  | writeInstance (id : String) (rec : T)
  | readInstance (id : String)
  | removeInstance (id : String)
  | instanceIds
  | writeLedger (l : Ledger)
  | readLedger
  | writeMeta (name : String) (v : Params)
  | readMeta (name : String)

inductive Answer (T : Type) where
  | done
  | opened (controller : String)
  | record (rec : Option T)
  | ids (ids : List String)
  | ledger (l : Ledger)
  | note (v : Params)
  deriving DecidableEq

/-- A call, and what becomes of the calls it makes on the files. -/
abbrev Deed (T : Type) := Call T × List CallFate

namespace Call

def run (G : Ground F) (S : Serde F T) : Call T → OnDisk StoreError (Answer T)
  | .openStore free random => do
      let id ← Disk.openStore G free random
      pure (.opened id)
  | .writeInstance id rec => do
      Disk.writeInstance G S id rec
      pure .done
  | .readInstance id => do
      let r ← Disk.readInstance G S id
      pure (.record r)
  | .removeInstance id => do
      Disk.removeInstance id
      pure .done
  | .instanceIds => do
      let ids ← Disk.instanceIds
      pure (.ids ids)
  | .writeLedger l => do
      Disk.writeLedger G l
      pure .done
  | .readLedger => do
      let l ← Disk.readLedger G
      pure (.ledger l)
  | .writeMeta name v => do
      Disk.writeMeta G name v
      pure .done
  | .readMeta name => do
      let v ← Disk.readMeta G name
      pure (.note v)

/-- What can be written under this name, and is read again. -/
def Fit (S : Serde F T) : Call T → Prop
  | .openStore _ random => random.length = 16
  | .writeInstance id rec => '/' ∉ id.toList ∧ Json.nesting (S.toValue rec).1 ≤ depth
  | .writeLedger l => l.Exclusive
  | .writeMeta name _ => '/' ∉ name.toList ∧ name ≠ "ledger"
  | .readMeta name => name ≠ "ledger"
  | _ => True

/-- What a call changes. -/
def effect : Call T → List CallFate → Kept T → Kept T
  | .openStore _ random, fates, k => k.named (fates[4]?.any CallFate.fails) random
  | .writeInstance id rec, _, k => k.write id rec
  | .removeInstance id, _, k => k.remove id
  | .writeLedger l, _, k => { k with ledger := l }
  | .writeMeta name v, _, k => k.note name v
  | _, _, k => k

/-- The first of the calls on the files fails. -/
def Unseen (fates : List CallFate) : Prop := (fates.head?.any CallFate.fails) = true

/-- What a call is answered: a record, a ledger or a note is not seen if the test for its
file failed. -/
def Answers : Call T → List CallFate → Kept T → Answer T → Prop
  | .openStore _ random, fates, k, a => a = .opened (k.nameFor (fates[4]?.any CallFate.fails) random)
  | .readInstance id, fates, k, a => a = .record (k.recs.get id) ∨ a = .record none ∧ Unseen fates
  | .instanceIds, _, k, a => a = .ids (k.recs.map Prod.fst)
  | .readLedger, fates, k, a => a = .ledger k.ledger ∨ a = .ledger {} ∧ Unseen fates
  | .readMeta name, fates, k, a => a = .note (k.notes name) ∨ a = .note blank ∧ Unseen fates
  | _, _, _, a => a = .done

/-- Why a call fails. -/
def Excuses (G : Ground F) (S : Serde F T) : Call T → Kept T → StoreError → Prop
  | .openStore free _, k, e => Unopened G.root free k e
  | .writeInstance _ rec, _, e => Unwritten G S rec e
  | .writeLedger l, _, e => Unwritten G ledgerSerde (LedgerRecord.fromLedger l) e
  | .writeMeta _ v, _, e => Unwritten G metaSerde v e
  | _, _, e => Failed e

/-- **An operation is carried out whole or not at all.** -/
theorem whole {c : Call T} {k : Kept T} (hfit : c.Fit S) (h : On G S d k) :
    Whole (On G S) k (c.effect d.fates k) (c.Answers d.fates k) (c.Excuses G S k) (c.run G S) d := by
  cases c with
  | openStore free random => exact (openStore_whole h hfit).then fun _ ha => ⟨_, rfl, congrArg Answer.opened ha⟩
  | writeInstance id rec => exact (writeInstance_whole h hfit.2).then fun _ _ => ⟨_, rfl, rfl⟩
  | readInstance id =>
      exact (readInstance_whole h).then fun _ ha =>
        ⟨_, rfl, ha.imp (congrArg Answer.record) (And.imp_left (congrArg Answer.record))⟩
  | removeInstance id => exact (removeInstance_whole h).then fun _ _ => ⟨_, rfl, rfl⟩
  | instanceIds =>
      have hids : Whole (On G S) k k (fun ids => ids = k.recs.map Prod.fst) Failed Disk.instanceIds d := by
        refine reads_whole h (Post.bind look_ends (fun ids d' hd => ⟨hd.1, ?_⟩) (fun _ _ hd => ⟨hd.1, hd.2.2⟩)
          fun _ hd => hd)
        rw [hd.2.1]
        exact ids_listed h
      exact hids.then fun _ ha => ⟨_, rfl, congrArg Answer.ids ha⟩
  | writeLedger l => exact (writeLedger_whole h hfit).then fun _ _ => ⟨_, rfl, rfl⟩
  | readLedger =>
      exact (readLedger_whole h).then fun _ ha =>
        ⟨_, rfl, ha.imp (congrArg Answer.ledger) (And.imp_left (congrArg Answer.ledger))⟩
  | writeMeta name v => exact (writeMeta_whole h hfit.2).then fun _ _ => ⟨_, rfl, rfl⟩
  | readMeta name =>
      exact (readMeta_whole h hfit).then fun _ ha =>
        ⟨_, rfl, ha.imp (congrArg Answer.note) (And.imp_left (congrArg Answer.note))⟩

end Call

/-- A call on files, its own calls going as they are to. -/
def Deed.run (G : Ground F) (S : Serde F T) (o : Deed T) : Prog (FileMap Path) StoreError (Answer T) := fun f =>
  let e := o.1.run G S ⟨f, o.2⟩
  (e.1, e.2.files)

theorem Deed.whole (o : Deed T) (f : FileMap Path) (k : Kept T) (hfit : o.1.Fit S)
    (hf : Holds G S f.get k) : Whole (fun f => Holds G S f.get) k (o.1.effect o.2 k) (o.1.Answers o.2 k)
      (o.1.Excuses G S k) (Deed.run G S o) f :=
  Call.whole (d := ⟨f, o.2⟩) hfit hf

/-- **What a store holds, whatever its calls come to.**  Over every history of calls, each
failing or killed at any of its own calls on the files, what is held is what the calls
that took effect make of it: each that returned is among them and none that failed, and
of one that was killed the whole or nothing.  Every answer is what was held when it was
given. -/
theorem kept_on_disk {h : List (Deed T × Res StoreError (Answer T))} {s s' : FileMap Path} {k : Kept T}
    (hs : Holds G S s.get k) (hrun : Deeds (Deed.run G S) s h s') (hfit : ∀ x ∈ h, x.1.1.Fit S) :
    ∃ k', Explained (fun o => o.1.effect o.2) (fun o => o.1.Answers o.2) (fun o => o.1.Excuses G S) k h k' ∧
      Holds G S s'.get k' :=
  Deeds.explained Deed.whole hrun hfit hs

/-- So of a store since it was made, however its making ended: what is held is what
the calls made of a store with nothing in it. -/
theorem kept_since_created {free : Bool} {random : List UInt8} {d d' : Drive Path}
    {r : Res StoreError String} {h : List (Deed T × Res StoreError (Answer T))} {s' : FileMap Path}
    (hnone : ∀ p ∈ Own, d.files.get p = none) (hr : random.length = 16)
    (hc : create G free random d = (r, d')) (hrun : Deeds (Deed.run G S) d'.files h s')
    (hfit : ∀ x ∈ h, x.1.1.Fit S) :
    ∃ k k', k.Bare ∧ Explained (fun o => o.1.effect o.2) (fun o => o.1.Answers o.2)
      (fun o => o.1.Excuses G S) k h k' ∧ Holds G S s'.get k' := by
  have hends : Post (create G free random) (fun r d' => ∃ k : Kept T, On G S d' k ∧ k.Bare ∧
      ∀ id, r = .ok id → k.schema = .ok SCHEMA ∧ k.controller = some id) d := create_ends hnone hr
  rw [Post, hc] at hends
  obtain ⟨k, hk, hbare, -⟩ := hends
  obtain ⟨k', hk'⟩ := Deeds.explained Deed.whole hrun hfit hk
  exact ⟨k, k', hbare, hk'⟩

/-! ## The engine's store -/

/-- A store of instance records holds what the engine takes to be durable. -/
structure Mirrors {σ : Type} (w : World σ) (k : Kept InstanceRecord) : Prop where
  recs : k.recs = w.instances.recs
  ledger : k.ledger = w.stored

section
variable {σ : Type} {E : Setting σ} {w w' : World σ} {k : Kept InstanceRecord}

theorem writeOk_mirrors {s : Slot} {r : Res EngineError Unit} (h : Rescind.writeOk E s w = (r, w')) :
    w'.instances = w.instances ∧ w'.stored = w.stored ∧ w'.hand = w.hand ∧ w'.ledger = w.ledger := by
  unfold Rescind.writeOk at h
  match ha : E.outside.answer w.out (.write s) with
  | (some (.ok ()), o) =>
      rw [ask_bind_some E ha] at h
      cases h
      exact ⟨rfl, rfl, rfl, rfl⟩
  | (some (.error e), o) =>
      rw [ask_bind_some E ha] at h
      cases h
      exact ⟨rfl, rfl, rfl, rfl⟩
  | (none, o) =>
      rw [ask_bind_none E ha] at h
      cases h
      exact ⟨rfl, rfl, rfl, rfl⟩

theorem persist_mirrors {r : Res EngineError Unit} (hk : Mirrors w k) (h : Rescind.persist E w = (r, w')) :
    Mirrors w' (if r = .ok () then (Call.writeInstance w.hand.id w.hand).effect [] k else k) := by
  have hbind : Rescind.persist E w = (Rescind.writeOk E (.instance_ w.hand.id) >>= fun _ =>
      .edit fun w => { w with instances := w.instances.write w.hand }) w := rfl
  rw [hbind, Prog.bind_eq] at h
  match hw : Rescind.writeOk E (.instance_ w.hand.id) w with
  | (.ok (), w₁) =>
      rw [hw] at h
      cases h
      obtain ⟨hi, hl, hh, -⟩ := writeOk_mirrors hw
      refine ⟨?_, hk.ledger.trans hl.symm⟩
      show k.recs.insert w.hand.id w.hand = w₁.instances.recs.insert w₁.hand.id w₁.hand
      rw [hk.recs, hi, hh]
  | (.err e, w₁) =>
      rw [hw] at h
      cases h
      obtain ⟨hi, hl, -⟩ := writeOk_mirrors hw
      exact ⟨hk.recs.trans (congrArg Rescind.Store.recs hi.symm), hk.ledger.trans hl.symm⟩
  | (.died, w₁) =>
      rw [hw] at h
      cases h
      obtain ⟨hi, hl, -⟩ := writeOk_mirrors hw
      exact ⟨hk.recs.trans (congrArg Rescind.Store.recs hi.symm), hk.ledger.trans hl.symm⟩

theorem writeLedger_mirrors {r : Res EngineError Unit} (hk : Mirrors w k) (h : Rescind.writeLedger E w = (r, w')) :
    Mirrors w' (if r = .ok () then (Call.writeLedger w.ledger).effect [] k else k) := by
  unfold Rescind.writeLedger at h
  rw [Prog.bind_eq] at h
  match hw : Rescind.writeOk E .ledger w with
  | (.ok (), w₁) =>
      rw [hw] at h
      cases h
      obtain ⟨hi, -, -, hl⟩ := writeOk_mirrors hw
      exact ⟨hk.recs.trans (congrArg Rescind.Store.recs hi.symm), hl.symm⟩
  | (.err e, w₁) =>
      rw [hw] at h
      cases h
      obtain ⟨hi, hl, -⟩ := writeOk_mirrors hw
      exact ⟨hk.recs.trans (congrArg Rescind.Store.recs hi.symm), hk.ledger.trans hl.symm⟩
  | (.died, w₁) =>
      rw [hw] at h
      cases h
      obtain ⟨hi, hl, -⟩ := writeOk_mirrors hw
      exact ⟨hk.recs.trans (congrArg Rescind.Store.recs hi.symm), hk.ledger.trans hl.symm⟩

theorem answers_mirrors {id : String} {a : Answer InstanceRecord} (hk : Mirrors w k)
    (ha : (Call.readInstance id).Answers [] k a) : a = .record (w.instances.read id) := by
  rcases ha with rfl | ⟨-, hf⟩
  · rw [hk.recs]
    rfl
  · cases hf

/-- **The engine writes and reads as the store does.**  A record or the ledger is
written whole or, where that returns an error or the process dies, not at all; and what
the store answers of a record is what the engine reads. -/
theorem engine_mirrors (hk : Mirrors w k) :
    (∀ r w', Rescind.persist E w = (r, w') →
      Mirrors w' (if r = .ok () then (Call.writeInstance w.hand.id w.hand).effect [] k else k)) ∧
    (∀ r w', Rescind.writeLedger E w = (r, w') →
      Mirrors w' (if r = .ok () then (Call.writeLedger w.ledger).effect [] k else k)) ∧
    ∀ id a, (Call.readInstance id).Answers [] k a → a = .record (w.instances.read id) :=
  ⟨fun _ _ => persist_mirrors hk, fun _ _ => writeLedger_mirrors hk, fun _ _ => answers_mirrors hk⟩

end

/-! ## A write that is killed -/

namespace OneRecord

def ground : Ground Empty := ⟨"/s", ⟨nofun, fun _ => none⟩, fun _ => ""⟩

/-- A store with nothing in it. -/
def files : FileMap Path where
  entries := [(schemaPath, schemaText SCHEMA), (controllerPath, Bytes.ofString "c\n")]
  nodup := by decide

def kept : Kept Params where
  schema := .ok SCHEMA
  recs := []
  sorted := Assoc.Sorted.nil
  ledger := {}
  notes _ := blank
  controller := some "c"

def state (s : String) : Params := ⟨[("state", s)], List.pairwise_singleton _ _⟩

/-- A record is written, and again, but the process is killed in the middle; then the
store is opened, and the record read. -/
def history : List (Deed Params × Res StoreError (Answer Params)) :=
  [((.writeInstance "i" (state "Applying"), []), .ok .done),
   ((.writeInstance "i" (state "Closed"), [.done, .killed 5]), .died),
   ((.openStore true (List.replicate 16 0), []), .ok (.opened "c")),
   ((.readInstance "i", []), .ok (.record (some (state "Applying"))))]

theorem get_absent {p : Path} (hs : p ≠ schemaPath) (hc : p ≠ controllerPath) : files.get p = none := by
  show Assoc.get [(schemaPath, schemaText SCHEMA), (controllerPath, Bytes.ofString "c\n")] p = none
  rw [Assoc.get, if_neg hs, Assoc.get, if_neg hc]
  rfl

theorem held : Holds ground metaSerde files.get kept where
  schema := by decide +kernel
  records id := by
    rw [get_absent (root_ne_instancePath rfl).symm (root_ne_instancePath rfl).symm]
    exact Option.Rel.none
  ledger := by
    rw [get_absent metaPath_ne_schemaPath metaPath_ne_controllerPath]
    exact ⟨none, Option.Rel.none, rfl⟩
  exclusive := Ledger.Exclusive.empty
  notes name _ := by
    rw [get_absent metaPath_ne_schemaPath metaPath_ne_controllerPath]
    exact ⟨none, Option.Rel.none, rfl⟩
  controller := by decide +kernel

/-- The files after the deeds of a history. -/
def after (h : List (Deed Params × Res StoreError (Answer Params))) : FileMap Path :=
  h.foldl (fun f x => (Deed.run ground metaSerde x.1 f).2) files

theorem ran : Deeds (Deed.run ground metaSerde) files history (after history) := by
  refine .cons (Prog.eq_of_fst ?_) (.cons (Prog.eq_of_fst ?_) (.cons (Prog.eq_of_fst ?_)
    (.cons (Prog.eq_of_fst ?_) .nil)))
  all_goals decide +kernel

/-- The record that is there is the one before the write that was killed. -/
theorem kept_on_disk_killed : ∃ k', Explained (fun o => o.1.effect o.2) (fun o => o.1.Answers o.2)
    (fun o => o.1.Excuses ground metaSerde) kept history k' ∧ Holds ground metaSerde (after history).get k' := by
  refine kept_on_disk held ran fun x hx => ?_
  simp only [history, List.mem_cons, List.not_mem_nil, or_false] at hx
  rcases hx with rfl | rfl | rfl | rfl
  · exact ⟨by decide, by decide +kernel⟩
  · exact ⟨by decide, by decide +kernel⟩
  · rfl
  · trivial

end OneRecord

end Rescind.Disk
