/-
# `Rescind.Engine.Disk` — the store on disk

A store is a directory: a file for each instance in one below it, and beside that the
ledger, the notes (small maps of texts), the controller's id, the schema and the lock.
All but the lock and the journal are written under a temporary name and renamed.  What
a record of an instance is, and how `serde` makes a JSON value of it and back, is a
parameter; so is what `serde_json` says of a text it cannot read, and where the store
lies.

The calls are those of `Lib.Files`, so each can fail or be the process's last.  The
directories themselves, and who may enter them, are left out.
-/
import Rescind.Core.Canonical
import Rescind.Engine.Store
import Rescind.Lib.Files

namespace Rescind.Disk

open Lib Canonical

variable {F T α : Type}

/-! ## Where things are -/

inductive Dir where
  | root
  | instances
  deriving DecidableEq, Repr

/-- A file of the store. -/
structure Path where
  dir : Dir
  name : List Char
  deriving DecidableEq, Repr

/-- The name of a file up to its last dot, if that is not its first character. -/
def fileStem (name : List Char) : List Char :=
  match name.reverse.dropWhile (· ≠ '.') with
  | _ :: c :: before => (c :: before).reverse
  | _ => name

def Path.withExtension (p : Path) (ext : String) : Path :=
  { p with name := fileStem p.name ++ '.' :: ext.toList }

def schemaPath : Path := ⟨.root, "schema".toList⟩

def controllerPath : Path := ⟨.root, "controller".toList⟩

def lockPath : Path := ⟨.root, "lock".toList⟩

def instancePath (id : String) : Path := ⟨.instances, id.toList ++ ".json".toList⟩

/-- A file of the store's own directory, by its name without the extension. -/
def metaPath (name : String) : Path := ⟨.root, name.toList ++ ".json".toList⟩

abbrev ledgerPath : Path := metaPath "ledger"

/-- The schema this build writes and reads. -/
def SCHEMA : Nat := 3

inductive SchemaError where
  | missing
  | unreadable (s : String)
  | unknown (v : Nat)
  | older (v : Nat)
  deriving DecidableEq, Repr

inductive StoreError where
  | locked (root : String)
  | schema (e : SchemaError)
  | notOwned (path : String) (owner me : Nat)
  | io (e : String)
  | corrupt (e : String)
  deriving DecidableEq, Repr

/-- A program over the store's files. -/
abbrev OnDisk (ε α : Type) := Prog (Drive Path) ε α

/-! ## JSON -/

/-- `serde` over a type: what is made of a value is read as it again. -/
structure Serde (F T : Type) where
  toValue : T → Held F
  ofValue : Json.Value F → Option T
  back : ∀ a, ofValue (toValue a).1 = some a

/-- Where the store lies, and how its JSON is written and read. -/
structure Ground (F : Type) where
  root : String
  floats : Json.Floats F
  /-- What `serde_json` says of a text it cannot read. -/
  words : Bytes → String

variable (G : Ground F)

def Path.display (p : Path) : String :=
  G.root ++ (match p.dir with | .root => "/" | .instances => "/instances/") ++ String.ofList p.name

/-- Write bytes through a temporary name beside the path and a rename, with the file
synced before the rename. -/
def writeAtomic (p : Path) (bytes : Bytes) : OnDisk StoreError Unit :=
  replaceFile .io (p.withExtension "rescind-tmp") p bytes

def readJson (S : Serde F α) (p : Path) : OnDisk StoreError α := do
  match ← look .io (·.get p) with
  | none => .fail (.io noSuchFile)
  | some bytes =>
      match (fromSlice G.floats bytes).bind S.ofValue with
      | some v => pure v
      | none => .fail (.corrupt (p.display G ++ ": " ++ G.words bytes))

def writeJson (S : Serde F α) (p : Path) (v : α) : OnDisk StoreError Unit :=
  match encode G.floats (S.toValue v) with
  | .error (.nonInteger path) =>
      .fail (.corrupt ("canonical JSON admits integers only; " ++ String.ofList path ++ " is not one"))
  | .ok bytes => writeAtomic p bytes

def optText : Option (Json.Value F) → Option (Option String)
  | none => some none
  | some .null => some none
  | some (.string s) => some (some s)
  | _ => none

def ofOpt : Option String → Json.Value F
  | none => .null
  | some s => .string s

/-- A pair of a shape and an anchor. -/
def factOf : Json.Value F → Option (String × Option String)
  | .array [s, a] => do
      let shape ← textOf s
      let anchor ← optText (some a)
      pure (shape, anchor)
  | _ => none

def itemsOf {β : Type} (item : Json.Value F → Option β) : Json.Value F → Option (List β)
  | .array xs => xs.mapM item
  | _ => none

def heldOf : Json.Value F → Option HeldRecord
  | .object ms =>
      if ms.all fun m => m.1 ∈ ["id", "host", "umbra", "exclusivity"] then do
        let id ← (Assoc.get ms "id").bind textOf
        let host ← (Assoc.get ms "host").bind textOf
        let umbra ← (Assoc.get ms "umbra").bind (itemsOf factOf)
        let exclusivity ← optText (Assoc.get ms "exclusivity")
        pure ⟨id, host, umbra, exclusivity⟩
      else none
  | _ => none

def ledgerOf : Json.Value F → Option LedgerRecord
  | .object ms =>
      if ms.all fun m => m.1 ∈ ["held"] then do
        let held ← (Assoc.get ms "held").bind (itemsOf heldOf)
        pure ⟨held⟩
      else none
  | _ => none

def ofFact (f : String × Option String) : Json.Value F := .array [.string f.1, ofOpt f.2]

def ofHeld (h : HeldRecord) : Json.Value F :=
  .object [("exclusivity", ofOpt h.exclusivity), ("host", .string h.host), ("id", .string h.id),
    ("umbra", .array (h.umbra.map ofFact))]

def ofLedger (r : LedgerRecord) : Json.Value F := .object [("held", .array (r.held.map ofHeld))]

def metaOf : Json.Value F → Option Params
  | .object ms =>
      if h : ((texts ms).Pairwise fun (a b : String × String) => a.1 < b.1) ∧
          (ms.all fun m => (textOf m.2).isSome) = true
      then some ⟨texts ms, h.1⟩ else none
  | _ => none

theorem factOf_ofFact (f : String × Option String) : factOf (ofFact (F := F) f) = some f := by
  obtain ⟨shape, anchor⟩ := f
  cases anchor with
  | none => rfl
  | some a => rfl

theorem itemsOf_map {β : Type} {item : Json.Value F → Option β} {value : β → Json.Value F}
    (h : ∀ b, item (value b) = some b) (bs : List β) : itemsOf item (.array (bs.map value)) = some bs := by
  show (bs.map value).mapM item = some bs
  induction bs with
  | nil => rfl
  | cons b bs ih => simp only [List.map_cons, List.mapM_cons, h, ih, Option.bind_eq_bind, Option.bind_some,
      Option.pure_def]

theorem heldOf_ofHeld (h : HeldRecord) : heldOf (ofHeld (F := F) h) = some h := by
  obtain ⟨id, host, umbra, exclusivity⟩ := h
  have humbra := itemsOf_map (factOf_ofFact (F := F)) umbra
  have hex : optText (some (ofOpt (F := F) exclusivity)) = some exclusivity := by cases exclusivity <;> rfl
  simp [heldOf, ofHeld, Assoc.get, textOf, humbra, hex]

theorem ledgerOf_ofLedger (r : LedgerRecord) : ledgerOf (ofLedger (F := F) r) = some r := by
  obtain ⟨held⟩ := r
  have hheld := itemsOf_map (heldOf_ofHeld (F := F)) held
  simp [ledgerOf, ofLedger, Assoc.get, hheld]

theorem ordered_ofOpt (o : Option String) : (ofOpt (F := F) o).Ordered := by
  cases o <;> trivial

theorem ordered_items {β : Type} {value : β → Json.Value F} (h : ∀ b, (value b).Ordered) (bs : List β) :
    Json.Value.OrderedItems (bs.map value) := by
  induction bs with
  | nil => trivial
  | cons b bs ih => exact ⟨h b, ih⟩

theorem ordered_ofHeld (h : HeldRecord) : (ofHeld (F := F) h).Ordered := by
  have hkeys : ["exclusivity", "host", "id", "umbra"].Pairwise (· < ·) := by decide
  have hfact : ∀ f, (ofFact (F := F) f).Ordered := fun f => ⟨trivial, ordered_ofOpt _, trivial⟩
  exact ⟨List.pairwise_map.mp hkeys, ordered_ofOpt _, trivial, trivial, ordered_items hfact _, trivial⟩

theorem ordered_ofLedger (r : LedgerRecord) : (ofLedger (F := F) r).Ordered :=
  ⟨List.pairwise_singleton _ _, ordered_items ordered_ofHeld _, trivial⟩

def ledgerSerde : Serde F LedgerRecord :=
  ⟨fun r => ⟨ofLedger r, ordered_ofLedger r⟩, ledgerOf, ledgerOf_ofLedger⟩

theorem metaOf_members (m : Params) : metaOf (.object (members (F := F) m.1)) = some m := by
  have ht := texts_members (F := F) m.1
  have hs : (texts (members (F := F) m.1)).Pairwise fun a b => a.1 < b.1 := ht.symm ▸ m.2
  have hall : ((members (F := F) m.1).all fun x => (textOf x.2).isSome) = true :=
    List.all_eq_true.mpr fun x hx => by
      obtain ⟨kv, -, rfl⟩ := List.mem_map.mp hx
      rfl
  rw [metaOf, dif_pos ⟨hs, hall⟩]
  exact congrArg some (Subtype.ext ht)

/-- Small named values, as an object of strings. -/
def metaSerde : Serde F Params := ⟨(ofParams (F := F)).toValue, metaOf, metaOf_members⟩

/-! ## The schema and the lock -/

def notUtf8 : String := "stream did not contain valid UTF-8"

/-- `str::parse` of a number of 32 bits. -/
def parseU32 (s : List Char) : Option Nat :=
  let ds := match s with
    | '+' :: r => r
    | r => r
  let n := ds.foldl (fun n d => 10 * n + (d.toNat - '0'.toNat)) 0
  if !ds.isEmpty && ds.all Char.isDigit && n < 2 ^ 32 then some n else none

/-- The number a schema file's text is. -/
def parseSchema (bytes : Bytes) : Except SchemaError Nat :=
  match bytes.text? with
  | none => .error (.unreadable notUtf8)
  | some text =>
      match parseU32 (Text.trim text) with
      | some v => .ok v
      | none => .error (.unreadable (String.ofList (Text.trim text)))

/-- The schema a store directory carries. -/
def schemaOf : OnDisk SchemaError Nat := do
  match ← look .unreadable (·.get schemaPath) with
  | none => .fail .missing
  | some bytes => Prog.ofExcept (parseSchema bytes)

def schemaText (v : Nat) : Bytes := Bytes.ofString (toString v ++ "\n")

/-- The lock's file is made where there is none. -/
def openLock : OnDisk StoreError Unit :=
  call .io (fun f => if (f.get lockPath).isSome then f else f.put lockPath []) fun _ => id

/-- Whether the lock is to be had. -/
def lockExclusive (free : Bool) : OnDisk StoreError Bool := look .io fun _ => free

def createDirAll : OnDisk StoreError Unit := call .io id fun _ => id

/-- A controller's id: sixteen random bytes, hex. -/
def newControllerId (random : List UInt8) : String :=
  String.ofList (random.flatMap fun b => [Nat.digitChar (b.toNat / 16), Nat.digitChar (b.toNat % 16)])

def readText (p : Path) : OnDisk String (List Char) := do
  match ← look id (·.get p) with
  | none => .fail noSuchFile
  | some bytes =>
      match bytes.text? with
      | none => .fail notUtf8
      | some text => pure text

/-- Refuse a schema that is not this build's. -/
def checkSchema (v : Nat) : OnDisk StoreError Unit :=
  if v < SCHEMA then .fail (.schema (.older v))
  else if v ≠ SCHEMA then .fail (.schema (.unknown v))
  else pure ()

/-- The schema, or the store's refusal of it. -/
def schemaOrRefuse : OnDisk StoreError Nat := do
  match ← Prog.attempt schemaOf with
  | .ok v => pure v
  | .error e => .fail (.schema e)

/-- Take the lock, or name the store. -/
def lockStore (free : Bool) : OnDisk StoreError Unit := do
  openLock
  if ← lockExclusive free then pure () else .fail (.locked G.root)

/-- This store's controller, named once and kept. -/
def nameController (random : List UInt8) : OnDisk StoreError String := do
  let give : OnDisk StoreError String := do
    let id := newControllerId random
    writeAtomic controllerPath (Bytes.ofString (id ++ "\n"))
    pure id
  match ← Prog.attempt (readText controllerPath) with
  | .ok s => if (Text.trim s).isEmpty then give else pure (String.ofList (Text.trim s))
  | .error _ => give

/-- Open an existing store: the schema must be this build's, and the lock must be free.
What comes of it is the controller's id. -/
def openStore (free : Bool) (random : List UInt8) : OnDisk StoreError String := do
  let v ← schemaOrRefuse
  checkSchema v
  lockStore G free
  createDirAll
  nameController random

/-- Create a store and open it. -/
def create (free : Bool) (random : List UInt8) : OnDisk StoreError String := do
  createDirAll
  match ← Prog.attempt schemaOf with
  | .error .missing => do
      writeAtomic schemaPath (schemaText SCHEMA)
      openStore G free random
  | .ok v => .fail (.corrupt (G.root ++ " is already a store (schema " ++ toString v ++ ")"))
  | .error e => .fail (.schema e)

/-! ## What an open store does -/

def writeInstance (S : Serde F T) (id : String) (rec : T) : OnDisk StoreError Unit :=
  writeJson G S (instancePath id) rec

/-- Read a file that may not be there. -/
def readIf (S : Serde F α) (p : Path) : OnDisk StoreError (Option α) := do
  if ← found p then
    let v ← readJson G S p
    pure (some v)
  else pure none

def readInstance (S : Serde F T) (id : String) : OnDisk StoreError (Option T) := readIf G S (instancePath id)

/-- Remove a record; that there is none is no error. -/
def removeInstance (id : String) : OnDisk StoreError Unit := remove .io (instancePath id)

def stripSuffix (suffix s : List Char) : Option (List Char) :=
  (Text.dropPrefix suffix.reverse s.reverse).map List.reverse

/-- The id of the instance a file is the record of. -/
def idOf (p : Path) : Option String :=
  match p.dir with
  | .instances => (stripSuffix ".json".toList p.name).map String.ofList
  | .root => none

/-- Every instance id, sorted. -/
def instanceIds : OnDisk StoreError (List String) := do
  let ids ← look .io fun f => f.paths.filterMap idOf
  pure (ids.mergeSort fun a b => decide (a ≤ b))

def writeLedger (l : Ledger) : OnDisk StoreError Unit :=
  writeJson G ledgerSerde ledgerPath (LedgerRecord.fromLedger l)

def ofStoreError : Rescind.StoreError → StoreError
  | .io e => .io e
  | .corrupt e => .corrupt e

def readLedger : OnDisk StoreError Ledger := do
  match ← readIf G ledgerSerde ledgerPath with
  | none => pure {}
  | some r => Prog.ofExcept (r.toLedger.mapError ofStoreError)

def writeMeta (name : String) (v : Params) : OnDisk StoreError Unit := writeJson G metaSerde (metaPath name) v

/-- No note at all. -/
def blank : Params := ⟨[], List.Pairwise.nil⟩

def readMeta (name : String) : OnDisk StoreError Params := do
  match ← readIf G metaSerde (metaPath name) with
  | none => pure blank
  | some m => pure m

/-! ## Migration -/

structure Migration where
  from_ : Nat
  to_ : Nat
  /-- What was, or would be, done, one line each. -/
  steps : List String
  dryRun : Bool
  deriving DecidableEq, Repr

def nothingToDo : String := "schema " ++ toString SCHEMA ++ " already; nothing to do"

/-- What there is to do, from a schema older than this build's. -/
def migrationSteps (from_ : Nat) (by_ : String) : List String :=
  (if from_ < 2 then
    ["applied steps record their repeat variables from here on; records written before carry none, and read " ++
      "unchanged"] else []) ++
  (if from_ < 3 then
    ["a step in flight records what its facts read before do from here on; a record written before kept " ++
      "nothing, and its step in flight is undone at boot as before",
     "the store names its controller at its next open, and stamps it into the              instance " ++
      "directories it creates from here on; directories created before              carry no stamp and are " ++
      "read as this controller's"] else []) ++
  ["write schema " ++ toString SCHEMA,
   "record Migrated\x7bfrom: " ++ toString from_ ++ ", to: " ++ toString SCHEMA ++ ", by: " ++ by_ ++
    "\x7d for the next start"]

/-- What the next start is told of a migration. -/
def migrated (from_ : Nat) (by_ : String) : Params :=
  ⟨[("by", by_), ("from", toString from_), ("to", toString SCHEMA)], by
    have hkeys : ["by", "from", "to"].Pairwise (· < ·) := by decide
    exact List.pairwise_map.mp hkeys⟩

/-- The schema a migration starts from: none is schema 0. -/
def migratesFrom : OnDisk StoreError Nat := do
  match ← Prog.attempt schemaOf with
  | .ok v => pure v
  | .error .missing => pure 0
  | .error e => .fail (.schema e)

/-- What a migration writes. -/
def writeMigration (free : Bool) (from_ : Nat) (by_ : String) : OnDisk StoreError Unit := do
  lockStore G free
  createDirAll
  writeMeta G "migrated" (migrated from_ by_)
  writeAtomic schemaPath (schemaText SCHEMA)

/-- Migrate a store to this build's schema; a dry run reports the steps and writes
nothing.  `owner` is whose the store's directory is, if it is a directory. -/
def migrate (owner : Option Nat) (me : Nat) (free dryRun : Bool) (by_ : String) : OnDisk StoreError Migration := do
  match owner with
  | none => .fail (.io (G.root ++ " is not a directory"))
  | some owner => do
      if ← look .io fun _ => decide (owner ≠ me) then .fail (.notOwned G.root owner me)
      else do
        let from_ ← migratesFrom
        if SCHEMA < from_ then .fail (.schema (.unknown from_))
        else if from_ = SCHEMA then pure ⟨from_, SCHEMA, [nothingToDo], dryRun⟩
        else do
          .when (!dryRun) (writeMigration G free from_ by_)
          pure ⟨from_, SCHEMA, migrationSteps from_ by_, dryRun⟩

end Rescind.Disk
