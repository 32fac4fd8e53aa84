/-
# `Rescind.Engine.Store` — what the store writes of the ledger and the journal

The cross-plan ledger is kept as a record of its own shape: facts are pairs,
and there is no mark for a rehearsal, since a rehearsal holds nothing.  Reading
it back admits the holdings one by one, the oldest first.

The engine's copy of the chain is a file of its own, one entry a line, and is
appended to in place.  An append that fails may have written some of its bytes
(`Fault`).  The text of an entry, and reading it, are a parameter (`Json`).
-/
import Rescind.Core.Interference
import Rescind.Core.Journal
import Rescind.Lib.Text

namespace Rescind

structure HeldRecord where
  id : String
  host : String
  umbra : List (String × Option String)
  exclusivity : Option String
  deriving DecidableEq, Repr

/-- A ledger as the store keeps it. -/
structure LedgerRecord where
  held : List HeldRecord
  deriving DecidableEq, Repr

inductive StoreError where
  | io (e : String)
  | corrupt (e : String)
  deriving DecidableEq, Repr

def LedgerCode.name : LedgerCode → String
  | .r0101 => "R0101"
  | .r0203 => "R0203"

namespace LedgerRecord

def fromHolding (h : Holding) : HeldRecord :=
  { id := h.id, host := h.host, umbra := h.umbra.map fun f => (f.shape, f.anchor)
    exclusivity := h.exclusivity }

def fromLedger (l : Ledger) : LedgerRecord := ⟨l.held.map fromHolding⟩

def toHolding (h : HeldRecord) : Holding :=
  { id := h.id, host := h.host, umbra := h.umbra.map fun f => ⟨f.1, f.2⟩
    exclusivity := h.exclusivity, rehearsal := false }

/-- Rebuild the ledger, in reverse order; a refusal is a corrupt record. -/
def toLedger (r : LedgerRecord) : Except StoreError Ledger :=
  r.held.reverse.foldlM (fun l h =>
    match l.request (toHolding h) with
    | .ok l => .ok l
    | .error (code, msg) => .error (.corrupt ("ledger: " ++ code.name ++ " " ++ msg))) {}

end LedgerRecord

/-! ## The journal's file -/

namespace Journal

open Lib

/-- `serde_json` over an entry. -/
structure Json where
  toString : Entry → List Char
  fromStr : List Char → Except String Entry

/-- How an append to a file fails: after some of its bytes, or after all of
them with no word that they are durable. -/
inductive Fault where
  | cut (written : Nat) (why : String)
  | sync (why : String)

variable (J : Json)

/-- An entry's line, with its newline. -/
def line (e : Entry) : Bytes := Bytes.ofText (J.toString e ++ ['\n'])

/-- Append one entry to the engine's copy of the chain, synced. -/
def appendJournal (fault : Option Fault) (file : Option Bytes) (e : Entry) :
    Except StoreError Unit × Option Bytes :=
  let bytes := file.getD []
  match fault with
  | none => (.ok (), some (bytes ++ line J e))
  | some (.cut written why) => (.error (.io why), some (bytes ++ (line J e).take written))
  | some (.sync why) => (.error (.io why), some (bytes ++ line J e))

/-- The entries of the lines from the `i`-th on; the first that cannot be read is
the error. -/
def parseLines (path : String) : Nat → List (List Char) → Except StoreError (List Entry)
  | _, [] => .ok []
  | i, l :: ls =>
      match J.fromStr l with
      | .error e => .error (.corrupt (path ++ " line " ++ ToString.toString (i + 1) ++ ": " ++ e))
      | .ok e =>
          match parseLines path (i + 1) ls with
          | .error err => .error err
          | .ok es => .ok (e :: es)

/-- Entries from a newline-delimited JSON file; a missing file is empty. -/
def readNdjson (path : String) (file : Option Bytes) : Except StoreError (List Entry) :=
  match file with
  | none => .ok []
  | some bytes =>
      match bytes.text? with
      | none => .error (.io "stream did not contain valid UTF-8")
      | some text =>
          parseLines J path 0 ((Text.lines text).filter fun l => !(Text.trim l).isEmpty)

/-- The last entry the file holds. -/
def journalTail (path : String) (file : Option Bytes) : Except StoreError (Option Entry) :=
  match readNdjson J path file with
  | .error err => .error err
  | .ok es => .ok es.getLast?

end Journal

end Rescind
