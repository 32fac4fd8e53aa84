/-
# `Rescind.Engine.Journal` — journal delivery

The engine chains and signs each entry, keeps its own copy in the store, and
delivers it to every declared sink; all must acknowledge.  A refusal is itself
chained, kept, and delivered to whichever sinks still acknowledge.

What the journal is wired to is a parameter (`Wires`): the digest, the signing
key, the store and the sinks, each with a state of its own.  A sink's `acked` is
what it acknowledged so far, and no code reads it.
-/
import Rescind.Core.Journal
import Rescind.Engine.Store
import Rescind.Lib.Text

namespace Rescind.Journal

open Lib Canon

variable {ρ τ : Type}

inductive JournalError where
  | store (e : StoreError)
  /-- R0304: these sinks did not acknowledge the entry. -/
  | sinkRefused (entry : Entry) (refusals : List (String × String))
  | sign (e : String)

/-- What a journal is wired to: a store of state `ρ` and sinks of state `τ`. -/
structure Wires (ρ τ : Type) where
  sha256 : List UInt8 → Hash
  sign : Option (Entry → Except String Sig)
  appendJournal : ρ → Entry → Except StoreError Unit × ρ
  name : τ → String
  deliver : τ → Entry → Except String Unit × τ

structure Sink (τ : Type) where
  state : τ
  acked : List Entry := []

/-- The source's `Journal`, once open. -/
structure OpenJournal (τ : Type) where
  tail : Option Entry
  sinks : List (Sink τ)

/-- Open over a store's chain: the tail is the last entry the store holds. -/
def openJournal (J : Json) (path : String) (file : Option Bytes) (sinks : List τ) :
    Except JournalError (OpenJournal τ) :=
  match journalTail J path file with
  | .error err => .error (.store err)
  | .ok tail => .ok { tail, sinks := sinks.map fun state => { state } }

variable (W : Wires ρ τ)

/-- The next entry after the tail, signed where there is a key. -/
def next (tail : Option Entry) (n : Note) : Except JournalError Entry :=
  let e := append W.sha256 tail.toList n
  match W.sign with
  | none => .ok e
  | some sign =>
      match sign e with
      | .ok sig => .ok { e with sig := some sig }
      | .error why => .error (.sign why)

/-- Deliver to each sink in turn; who refused, and why. -/
def deliverAll (e : Entry) : List (Sink τ) → List (String × String) × List (Sink τ)
  | [] => ([], [])
  | s :: sinks =>
      match W.deliver s.state e with
      | (.ok (), state) =>
          let (refusals, sinks) := deliverAll e sinks
          (refusals, { state, acked := s.acked ++ [e] } :: sinks)
      | (.error why, state) =>
          let (refusals, sinks) := deliverAll e sinks
          ((W.name state, why) :: refusals, { s with state } :: sinks)

/-- A text built while running; what does not fit a `String` is not built. -/
def Str.built (s : String) : Str :=
  if h : s.utf8ByteSize < 2 ^ 64 then ⟨s, h⟩ else ⟨"", by decide⟩

def refusedEvent (refusals : List (String × String)) : Event :=
  ⟨.refused, (Str.built ("R0304: sink did not acknowledge: " ++
    Text.join "; " (refusals.map fun r => r.1 ++ ": " ++ r.2)), ())⟩

/-- The note that names the sinks that refused. -/
def Note.refusal (n : Note) (refusals : List (String × String)) : Note :=
  { n with event := refusedEvent refusals, secretLabels := .empty }

/-- Chain, sign, keep, deliver. -/
def record (n : Note) (s : ρ) (j : OpenJournal τ) : Except JournalError Entry × ρ × OpenJournal τ :=
  match next W j.tail n with
  | .error err => (.error err, s, j)
  | .ok e =>
      match W.appendJournal s e with
      | (.error err, s) => (.error (.store err), s, j)
      | (.ok (), s) =>
          let (refusals, sinks) := deliverAll W e j.sinks
          let j : OpenJournal τ := { tail := some e, sinks }
          if refusals.isEmpty then (.ok e, s, j)
          else
            match next W j.tail (n.refusal refusals) with
            | .error err => (.error err, s, j)
            | .ok refused =>
                match W.appendJournal s refused with
                | (.error err, s) => (.error (.store err), s, j)
                | (.ok (), s) =>
                    (.error (.sinkRefused e refusals), s,
                      { tail := some refused, sinks := (deliverAll W refused j.sinks).2 })

end Rescind.Journal
