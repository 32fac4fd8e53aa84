/-
# `Rescind.Safety.Migrations` — a migration that is broken off

A migration writes the note for the next start, and then the schema.  Each is written
whole or not at all, but the process may be killed between them, and the migration
asked for again, by somebody else.  However often that is, the records, the ledger, the
other notes and the controller's name stay what they were; the schema is the old one or
this build's; and where it is this build's the note is there and says what the schema
was at first (`migrated_through`).  Until then no build of this schema opens the store.

Any call may fail or be killed; that nobody else writes to the directory meanwhile is
taken for granted.

**Proved here.**

    an attempt goes on from wherever others left it      (`migrate_ends`)
    so does any number of them                           (`migrated_through`)
-/
import Rescind.Safety.Persistence

namespace Rescind.Disk

open Lib Canonical
open Prog (Post)

variable {F T : Type} {G : Ground F} {S : Serde F T} {d : Drive Path}

/-- The schema a store is migrated from. -/
def Kept.version (k : Kept T) : Nat := k.schema.toOption.getD 0

/-- What a store may have come to since migrations of it began, on behalf of these. -/
structure Migrating (k : Kept T) (bys : List String) (k' : Kept T) : Prop where
  recs : k'.recs = k.recs
  ledger : k'.ledger = k.ledger
  notes : ∀ name, name ≠ "migrated" → k'.notes name = k.notes name
  controller : k'.controller = k.controller
  schema : k'.schema = k.schema ∨
    k'.schema = .ok SCHEMA ∧ ∃ by_ ∈ bys, k'.notes "migrated" = migrated k.version by_

section
variable {k k' : Kept T} {bys : List String} {by_ : String}

theorem Migrating.refl (k : Kept T) (bys : List String) : Migrating k bys k :=
  ⟨rfl, rfl, fun _ _ => rfl, rfl, Or.inl rfl⟩

/-- The note is written while the schema is the old one. -/
theorem Migrating.noted (h : Migrating k bys k') (hs : k'.schema = k.schema) (v : Params) :
    Migrating k bys (k'.note "migrated" v) where
  recs := h.recs
  ledger := h.ledger
  notes name hn := (Function.update_of_ne hn ..).trans (h.notes name hn)
  controller := h.controller
  schema := Or.inl hs

/-- Then the schema is. -/
theorem Migrating.done (h : Migrating k bys k') (hby : by_ ∈ bys) :
    Migrating k bys { k'.note "migrated" (migrated k.version by_) with schema := .ok SCHEMA } where
  recs := h.recs
  ledger := h.ledger
  notes name hn := (Function.update_of_ne hn ..).trans (h.notes name hn)
  controller := h.controller
  schema := by
    have hnote : Function.update k'.notes "migrated" (migrated k.version by_) "migrated" = migrated k.version by_ :=
      Function.update_self ..
    exact Or.inr ⟨rfl, by_, hby, hnote⟩

/-- The files hold what a store may have come to. -/
def Within (G : Ground F) (S : Serde F T) (k : Kept T) (bys : List String) (d : Drive Path) : Prop :=
  ∃ k', On G S d k' ∧ Migrating k bys k'

/-- What an attempt writes. -/
theorem writeMigration_ends {free : Bool} (hm : Migrating k bys k') (hs : k'.schema = k.schema) (hby : by_ ∈ bys)
    (h : On G S d k') : Post (writeMigration G free k.version by_) (fun r d' => Within G S k bys d' ∧
      ∀ u, r = .ok u → schemaIn (d'.files.get schemaPath) = .ok SCHEMA) d := by
  have hbefore : ∀ d' : Drive Path, Only Aside d.files.get d'.files.get → Within G S k bys d' := fun _ hd =>
    ⟨k', h.congr hd, hm⟩
  refine Post.bind (lockStore_going (n := 0) (refl_of (Only _) _) rfl) (fun _ d₁ h₁ => ?_)
    (fun _ d' hd => ⟨hbefore d' hd.1, nofun⟩) fun d' hd => ⟨hbefore d' hd.1, nofun⟩
  refine Post.bind (call_going (fun _ => refl_of (Only _) _) h₁.1 h₁.2) (fun _ d₂ h₂ => ?_)
    (fun _ d' hd => ⟨hbefore d' hd.1, nofun⟩) fun d' hd => ⟨hbefore d' hd.1, nofun⟩
  -- the note is there, and the schema still the old one
  have hnoted : ∀ d' : Drive Path, On G S d' (k'.note "migrated" (migrated k.version by_)) → Within G S k bys d' :=
    fun _ hd => ⟨_, hd, hm.noted hs _⟩
  refine Post.bind (writeMeta_whole (h.congr h₂.1) (by decide)) (fun _ d₃ h₃ => ?_)
    (fun _ _ hd => ⟨⟨k', hd.1, hm⟩, nofun⟩) fun d' hd => ⟨hd.elim (fun hd => ⟨k', hd, hm⟩) (hnoted d'), nofun⟩
  have hput : Holds G S (Function.update d₃.files.get schemaPath (some (schemaText SCHEMA)))
      { k'.note "migrated" (migrated k.version by_) with schema := .ok SCHEMA } := by
    have hset := Holds.put_schema (b := schemaText SCHEMA) h₃.1
    rw [parseSchema_schemaText] at hset
    exact hset
  refine Post.mono (writeAtomic_whole h₃.1 hput) fun r d' hd => ?_
  cases r with
  | ok u => exact ⟨⟨_, hd.1, hm.done hby⟩, fun _ _ => hd.1.schema⟩
  | err e => exact ⟨hnoted d' hd.1, nofun⟩
  | died => exact ⟨hd.elim (hnoted d') fun hd => ⟨_, hd, hm.done hby⟩, nofun⟩

theorem migratesFrom_ends : Post migratesFrom (fun r d' => d'.files = d.files ∧
    ∀ v, r = .ok v → v = (schemaIn (d.files.get schemaPath)).toOption.getD 0) d := by
  refine Post.bind schemaAsked_ends (fun x d' hx => ?_) (fun _ _ h => h.2.elim) fun _ h => ⟨h.1, nofun⟩
  obtain ⟨hd, hx⟩ := hx
  cases x with
  | ok v =>
      refine ⟨hd, fun u hu => ?_⟩
      cases hu
      rw [hx.1]
      rfl
  | error e =>
      cases e with
      | missing =>
          refine ⟨hd, fun u hu => ?_⟩
          cases hu
          rw [hx.resolve_right fun ⟨_, hw⟩ => nomatch hw]
          rfl
      | unreadable s => exact ⟨hd, nofun⟩
      | unknown v => exact ⟨hd, nofun⟩
      | older v => exact ⟨hd, nofun⟩

/-- A store of this build's schema says so. -/
theorem schema_of_version (h : k.version = SCHEMA) : k.schema = .ok SCHEMA := by
  unfold Kept.version at h
  cases hk : k.schema with
  | ok v =>
      rw [hk] at h
      exact congrArg Except.ok h
  | error e =>
      rw [hk] at h
      cases h

/-- **An attempt goes on from wherever others left it.** -/
theorem migrate_ends {owner : Option Nat} {me : Nat} {free dryRun : Bool} (hm : Migrating k bys k') (hby : by_ ∈ bys)
    (h : On G S d k') : Post (migrate G owner me free dryRun by_) (fun r d' => Within G S k bys d' ∧
      (k'.schema = .ok SCHEMA ∨ dryRun = false ∧ (∃ m, r = .ok m) →
        schemaIn (d'.files.get schemaPath) = .ok SCHEMA)) d := by
  have hsame : ∀ (d' : Drive Path), d'.files = d.files → Within G S k bys d' ∧
      (k'.schema = .ok SCHEMA → schemaIn (d'.files.get schemaPath) = .ok SCHEMA) := by
    intro d' hd
    have hon : On G S d' k' := by
      unfold On
      rw [hd]
      exact h
    exact ⟨⟨k', hon, hm⟩, fun hs => hon.schema.trans hs⟩
  have hrefused : ∀ (r : Res StoreError Migration) (d' : Drive Path), (∀ m, r ≠ .ok m) → d'.files = d.files →
      Within G S k bys d' ∧ (k'.schema = .ok SCHEMA ∨ dryRun = false ∧ (∃ m, r = .ok m) →
        schemaIn (d'.files.get schemaPath) = .ok SCHEMA) := fun r d' hr hd =>
    ⟨(hsame d' hd).1, fun hc => (hsame d' hd).2 (hc.resolve_right fun hx => hx.2.elim hr)⟩
  unfold migrate
  cases owner with
  | none => exact hrefused _ d (Res.err_ne_ok _) rfl
  | some owner =>
      refine Post.bind look_ends (fun b d₁ h₁ => ?_) (fun _ d' hd => hrefused _ d' (Res.err_ne_ok _) hd.1)
        fun d' hd => hrefused _ d' Res.died_ne_ok hd.1
      cases b with
      | true => exact hrefused _ d₁ (Res.err_ne_ok _) h₁.1
      | false =>
          refine Post.bind migratesFrom_ends (fun v d₂ h₂ => ?_)
            (fun _ d' hd => hrefused _ d' (Res.err_ne_ok _) (hd.1.trans h₁.1))
            fun d' hd => hrefused _ d' Res.died_ne_ok (hd.1.trans h₁.1)
          have hfiles : d₂.files = d.files := h₂.1.trans h₁.1
          have hv : v = k'.version := by
            rw [h₂.2 v rfl, h₁.1, h.schema]
            rfl
          split
          · exact hrefused _ d₂ (Res.err_ne_ok _) hfiles
          · split
            next heq => exact ⟨(hsame d₂ hfiles).1, fun _ => (hsame d₂ hfiles).2 (schema_of_version (hv ▸ heq))⟩
            next hne =>
              have hnot : k'.schema ≠ .ok SCHEMA := fun hs => hne (by
                rw [hv, Kept.version, hs]
                rfl)
              have hold : k'.schema = k.schema := hm.schema.resolve_right fun hdone => hnot hdone.1
              have hfrom : v = k.version := by
                rw [hv, Kept.version, hold]
                rfl
              have hnew : ∀ (d' : Drive Path) {p : Prop}, k'.schema = .ok SCHEMA ∨ p → ¬p →
                  schemaIn (d'.files.get schemaPath) = .ok SCHEMA := fun _ _ hc hp =>
                absurd (hc.resolve_right hp) hnot
              cases dryRun with
              | true => exact ⟨(hsame d₂ hfiles).1, fun hc => hnew d₂ hc fun hx => absurd hx.1 (by decide)⟩
              | false =>
                  have hon : On G S d₂ k' := by
                    unfold On
                    rw [hfiles]
                    exact h
                  rw [hfrom]
                  refine Post.bind (writeMigration_ends hm hold hby hon) (fun _ d₃ h₃ => ⟨h₃.1, fun _ => h₃.2 _ rfl⟩)
                    (fun _ d' hd => ⟨hd.1, fun hc => hnew d' hc fun hx => hx.2.elim (Res.err_ne_ok _)⟩)
                    fun d' hd => ⟨hd.1, fun hc => hnew d' hc fun hx => hx.2.elim Res.died_ne_ok⟩

end

/-- A store that is opened is of this build's schema. -/
theorem schema_of_opened {free : Bool} {random : List UInt8} {id : String} {d' : Drive Path}
    (h : openStore G free random d = (.ok id, d')) : schemaIn (d.files.get schemaPath) = .ok SCHEMA := by
  obtain ⟨v, d₁, hv, h⟩ := Prog.bind_ok_inv h
  obtain ⟨u, d₂, hc, -⟩ := Prog.bind_ok_inv h
  have hread := @schemaOrRefuse_ends d
  have hcheck := @checkSchema_ends d₁ v
  unfold Post at hread hcheck
  rw [hv] at hread
  rw [hc] at hcheck
  rw [hread.2.1, hcheck.2]

/-! ## Attempts, one after the other -/

/-- An attempt at a migration, and what becomes of its calls. -/
structure Attempt where
  owner : Option Nat
  me : Nat
  free : Bool
  dryRun : Bool
  by_ : String
  fates : List CallFate

def Attempt.run (G : Ground F) (o : Attempt) : Prog (FileMap Path) StoreError Migration := fun f =>
  let e := migrate G o.owner o.me o.free o.dryRun o.by_ ⟨f, o.fates⟩
  (e.1, e.2.files)

/-- It was no dry run, and it returned. -/
def Through (x : Attempt × Res StoreError Migration) : Prop := x.1.dryRun = false ∧ ∃ m, x.2 = .ok m

/-- What attempts on behalf of these come to. -/
theorem attempts_end {bys : List String} {h : List (Attempt × Res StoreError Migration)} {s s' : FileMap Path}
    {k k₁ : Kept T} (hrun : Deeds (Attempt.run G) s h s') (hbys : ∀ x ∈ h, x.1.by_ ∈ bys) (hs : Holds G S s.get k₁)
    (hm : Migrating k bys k₁) : ∃ k', Holds G S s'.get k' ∧ Migrating k bys k' ∧
      (k₁.schema = .ok SCHEMA ∨ (∃ x ∈ h, Through x) → k'.schema = .ok SCHEMA) := by
  induction hrun generalizing k₁ with
  | nil => exact ⟨k₁, hs, hm, fun hx => hx.elim id fun ⟨_, hin, _⟩ => (List.not_mem_nil hin).elim⟩
  | @cons s t u o r h now rest ih =>
      have hends : Post (migrate G o.owner o.me o.free o.dryRun o.by_) _ ⟨s, o.fates⟩ :=
        migrate_ends hm (hbys _ List.mem_cons_self) hs
      have hr : (migrate G o.owner o.me o.free o.dryRun o.by_ ⟨s, o.fates⟩).1 = r := congrArg Prod.fst now
      have ht : (migrate G o.owner o.me o.free o.dryRun o.by_ ⟨s, o.fates⟩).2.files = t := congrArg Prod.snd now
      unfold Post at hends
      rw [hr] at hends
      obtain ⟨⟨k₂, hk₂, hm₂⟩, hdone⟩ := hends
      unfold On at hk₂
      rw [ht] at hk₂ hdone
      obtain ⟨k', hk', hm', hthrough⟩ := ih (fun x hx => hbys x (List.mem_cons_of_mem _ hx)) hk₂ hm₂
      refine ⟨k', hk', hm', fun hx => hthrough ?_⟩
      rcases hx with hx | ⟨x, hin, hx⟩
      · exact Or.inl (hk₂.schema.symm.trans (hdone (Or.inl hx)))
      · rcases List.mem_cons.mp hin with rfl | hin
        · exact Or.inl (hk₂.schema.symm.trans (hdone (Or.inr hx)))
        · exact Or.inr ⟨x, hin, hx⟩

/-- **A migration, however often it is broken off.**  After any attempts the store holds
what it did, but for the schema and the note of the migration; the schema is the old one,
or it is this build's and the note tells the schema there was before them all and on
whose behalf one of them was made.  It is this build's once an attempt that was no dry
run has returned, and before that the store is not opened. -/
theorem migrated_through {h : List (Attempt × Res StoreError Migration)} {s s' : FileMap Path} {k : Kept T}
    (hs : Holds G S s.get k) (hrun : Deeds (Attempt.run G) s h s') :
    ∃ k', Holds G S s'.get k' ∧ Migrating k (h.map fun x => x.1.by_) k' ∧
      ((∃ x ∈ h, Through x) → k'.schema = .ok SCHEMA) ∧
      ∀ free random fates id d', openStore G free random ⟨s', fates⟩ = (.ok id, d') → k'.schema = .ok SCHEMA := by
  obtain ⟨k', hk', hm, hthrough⟩ :=
    attempts_end hrun (fun x hx => List.mem_map.mpr ⟨x, hx, rfl⟩) hs (Migrating.refl k _)
  exact ⟨k', hk', hm, fun hx => hthrough (Or.inr hx),
    fun _ _ _ _ _ ho => hk'.schema.symm.trans (schema_of_opened ho)⟩

/-! ## Broken off, and made again -/

namespace OneRecord

/-- A store from before schemas. -/
def before : FileMap Path where
  entries := [(controllerPath, Bytes.ofString "c\n")]
  nodup := by decide

theorem before_absent {p : Path} (hc : p ≠ controllerPath) : before.get p = none := by
  show Assoc.get [(controllerPath, Bytes.ofString "c\n")] p = none
  rw [Assoc.get, if_neg hc]
  rfl

theorem before_held : Holds ground metaSerde before.get { kept with schema := .error .missing } where
  schema := by
    rw [before_absent (by decide)]
    rfl
  records id := by
    rw [before_absent (root_ne_instancePath rfl).symm]
    exact Option.Rel.none
  ledger := by
    rw [before_absent metaPath_ne_controllerPath]
    exact ⟨none, Option.Rel.none, rfl⟩
  exclusive := Ledger.Exclusive.empty
  notes name _ := by
    rw [before_absent metaPath_ne_controllerPath]
    exact ⟨none, Option.Rel.none, rfl⟩
  controller := by decide +kernel

/-- One is killed when the note is written and the schema is not; another goes through. -/
def attempts : List (Attempt × Res StoreError Migration) :=
  [(⟨some 7, 7, true, false, "ann", List.replicate 9 .done ++ [.killed 0]⟩, .died),
   (⟨some 7, 7, true, false, "bob", []⟩, .ok ⟨0, SCHEMA, migrationSteps 0 "bob", false⟩)]

def migratedFiles : FileMap Path := attempts.foldl (fun f x => (x.1.run ground f).2) before

theorem attempts_ran : Deeds (Attempt.run ground) before attempts migratedFiles := by
  refine .cons (Prog.eq_of_fst ?_) (.cons (Prog.eq_of_fst ?_) .nil)
  all_goals decide +kernel

/-- What the store held is there, under this build's schema. -/
theorem migrated_twice : ∃ k', Holds ground metaSerde migratedFiles.get k' ∧
    Migrating { kept with schema := .error .missing } ["ann", "bob"] k' ∧ k'.schema = .ok SCHEMA := by
  obtain ⟨k', hk', hm, hthrough, -⟩ := migrated_through before_held attempts_ran
  exact ⟨k', hk', hm, hthrough ⟨_, List.mem_cons_of_mem _ List.mem_cons_self, rfl, _, rfl⟩⟩

/-- The note names who went through. -/
example : (migratedFiles.get (metaPath "migrated")).bind (fun b => (fromSlice ground.floats b).bind metaOf) =
    some (migrated 0 "bob") := by decide +kernel

end OneRecord

end Rescind.Disk
