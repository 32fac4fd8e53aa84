/-
# `Rescind.Control.Desk` — verbs served side by side, and what they hand back

Every request runs on a thread of its own: it attaches its client, runs its verb
under the engine's lock, detaches, and then makes its reply, which takes what
`requester()` put in the mailbox under the instance the reply names.  A verb whose
arguments are refused never asks for the lock, nor does the one that lists the hooks.
Attachment is one flag for all threads.  Whoever has the engine deals with the mailbox, one
dealing at a time; besides verbs the engine's own passes do, with no client of
their own.

**Proved here.**

    only a drill's reply names an instance                  (`instance_json`)
    what a dealing leaves waiting              (`waiting_offer`, `waiting_erase`)
    what each step does                                     (`Desk.done_of_step`)
-/
import Rescind.Control.Identity
import Rescind.Engine.Secrets

namespace Rescind.Control

open Lib

/-! ## Replies -/

/-- A field of a reply: a text, or anything else. -/
inductive Field where
  | text (s : String)
  | other
  deriving DecidableEq, Repr

abbrev Reply := Assoc String Field

/-- What a verb returned. -/
inductive Result where
  | outcome (id state line : String)
  | attestation (plan inst line : String)
  | status (id plan owner state : String)
  | bootstrap (host : String)
  | challenge (text : String)
  | revealed (label value : String)
  | reclaimed (line : String)
  | report
  /-- A list: of statuses, of hooks. -/
  | listed
  deriving DecidableEq, Repr

/-- The reply it is written as. -/
def Result.json : Result → Reply
  | .outcome id state line =>
      [("id", .text id), ("state", .text state), ("exit", .other), ("line", .text line)]
  | .attestation plan inst line =>
      [("plan", .text plan), ("instance", .text inst), ("hosts", .other), ("restored", .other),
        ("exit", .other), ("line", .text line), ("facts", .other)]
  | .status id plan owner state =>
      [("id", .text id), ("plan", .text plan), ("owner", .text owner), ("state", .text state),
        ("exit", .other), ("applied", .other), ("deadline", .other), ("waiting", .other),
        ("held_at", .other), ("deferred", .other), ("stuck", .other), ("drift_held", .other),
        ("rehearsal", .other), ("closed_reason", .other)]
  | .bootstrap host =>
      [("host", .text host), ("state", .other), ("ready", .other), ("commands", .other)]
  | .challenge text => [("challenge", .text text)]
  | .revealed label value => [("label", .text label), ("value", .text value)]
  | .reclaimed line => [("reclaimed", .text line)]
  | .report => [("report", .other), ("healthy", .other), ("hooks", .other), ("canaries", .other)]
  | .listed => []

/-- The instance a reply names. -/
def Reply.inst (r : Reply) : Option String :=
  match r.get "instance" with
  | some (.text s) => some s
  | _ => none

/-- Only a drill's reply names an instance. -/
theorem instance_json (r : Result) :
    r.json.inst = match r with
      | .attestation _ inst _ => some inst
      | _ => none := by
  cases r <;> rfl

/-! ## Dealings with the mailbox -/

/-- A secret: its instance, label and value. -/
abbrev Secret := String × String × String

inductive Dealing where
  | offer (s : Secret)
  | dropFor (inst : String)
  | dropAll
  deriving DecidableEq, Repr

/-- The secret it offers. -/
def Dealing.secret : Dealing → Option Secret
  | .offer s => some s
  | _ => none

def Dealing.on (m : Mailbox) : Dealing → Mailbox
  | .offer s => m.deliver s.1 s.2.1 s.2.2
  | .dropFor x => (m.dropFor x).2
  | .dropAll => m.dropAll.2

/-- What `requester()` accepts of it: all it is offered while a client is attached. -/
def Dealing.accepted (m : Mailbox) (d : Dealing) : List Secret :=
  if m.attached then d.secret.toList else []

/-- What is waiting for an instance. -/
def waiting (m : Mailbox) (x : String) : List (String × String) := (m.pending.get x).getD []

/-- Everything waiting for an instance, taken. -/
def drain (m : Mailbox) (x : String) : List (String × String) × Mailbox :=
  (waiting m x, { m with pending := m.pending.erase x })

theorem waiting_erase (m : Mailbox) (x y : String) :
    waiting { m with pending := m.pending.erase x } y = if y = x then [] else waiting m y := by
  unfold waiting
  by_cases h : y = x
  · rw [if_pos h, h]
    exact congrArg (Option.getD · []) (Assoc.get_erase_self _ _)
  · rw [if_neg h]
    exact congrArg (Option.getD · []) (Assoc.get_erase_ne _ h)

/-- An accepted secret waits last under its instance. -/
theorem waiting_offer (m : Mailbox) (s : Secret) (y : String) :
    waiting (Dealing.on m (.offer s)) y =
      waiting m y ++ if m.attached = true ∧ y = s.1 then [s.2] else [] := by
  show waiting (m.deliver s.1 s.2.1 s.2.2) y = _
  unfold Mailbox.deliver
  by_cases ha : m.attached = true
  · rw [if_pos ha]
    unfold waiting
    rw [Assoc.get_insert]
    by_cases hy : y = s.1
    · rw [if_pos hy, if_pos ⟨ha, hy⟩, hy]
      rfl
    · rw [if_neg hy, if_neg (fun h => hy h.2), List.append_nil]
  · rw [if_neg ha, if_neg (fun h => ha h.1), List.append_nil]

/-! ## The desk -/

/-- Where the thread of a call is. -/
inductive Stage where
  | attached
  /-- It has the engine. -/
  | running
  | served (r : Except ControlError Result)
  | detached (r : Except ControlError Result)
  | answered (r : Except ControlError (Result × List (String × String)))
  deriving DecidableEq

/-- A client's call.  What `requester()` accepted while its verb ran is kept
beside it, and is no part of the desk. -/
structure Call where
  stage : Stage
  accepted : List Secret
  deriving DecidableEq

/-- The mailbox, who has the engine (`some none`: one of its own passes), and
beside them what `requester()` accepted in a pass. -/
structure Desk where
  mailbox : Mailbox
  engine : Option (Option Nat)
  calls : Assoc Nat Call
  strays : List Secret

namespace Desk

/-- No client yet. -/
def idle : Desk := ⟨⟨false, []⟩, none, [], []⟩

inductive Step where
  | attach (t : Nat)
  /-- A call takes the engine, or a pass does. -/
  | lock (t : Option Nat)
  /-- A call is done without the engine: its arguments are refused, or it lists the
  hooks. -/
  | without (t : Nat) (refusal : Option ControlError)
  | deal (d : Dealing)
  | finish (r : Except ControlError Result)
  | detach (t : Nat)
  | answer (t : Nat)

/-- What a verb returns that does not ask for the engine. -/
def withoutEngine : Option ControlError → Except ControlError Result
  | some e => .error e
  | none => .ok .listed

def put (s : Desk) (t : Nat) (c : Call) : Desk := { s with calls := s.calls.insert t c }

def attach (s : Desk) (on : Bool) : Desk := { s with mailbox := { s.mailbox with attached := on } }

/-- The reply of a call whose verb returned `r`. -/
def reply (s : Desk) (t : Nat) (c : Call) (r : Result) : Desk :=
  match r.json.inst with
  | some x =>
      { s.put t { c with stage := .answered (.ok (r, (drain s.mailbox x).1)) } with
        mailbox := (drain s.mailbox x).2 }
  | none => s.put t { c with stage := .answered (.ok (r, [])) }

def step (s : Desk) : Step → Option Desk
  | .attach t => match s.calls.get t with
      | none => some ((s.put t ⟨.attached, []⟩).attach true)
      | some _ => none
  | .lock t => match s.engine, t with
      | none, none => some { s with engine := some none }
      | none, some t => match s.calls.get t with
          | some ⟨.attached, a⟩ => some { s.put t ⟨.running, a⟩ with engine := some (some t) }
          | _ => none
      | some _, _ => none
  | .without t refusal => match s.calls.get t with
      | some ⟨.attached, a⟩ => some (s.put t ⟨.served (withoutEngine refusal), a⟩)
      | _ => none
  | .deal d => match s.engine with
      | some none =>
          some { s with
            mailbox := d.on s.mailbox
            strays := s.strays ++ d.accepted s.mailbox }
      | some (some t) => match s.calls.get t with
          | some ⟨.running, a⟩ =>
              some { s.put t ⟨.running, a ++ d.accepted s.mailbox⟩ with
                mailbox := d.on s.mailbox }
          | _ => none
      | none => none
  | .finish r => match s.engine with
      | some none => some { s with engine := none }
      | some (some t) => match s.calls.get t with
          | some ⟨.running, a⟩ => some { s.put t ⟨.served r, a⟩ with engine := none }
          | _ => none
      | none => none
  | .detach t => match s.calls.get t with
      | some ⟨.served r, a⟩ => some ((s.put t ⟨.detached r, a⟩).attach false)
      | _ => none
  | .answer t => match s.calls.get t with
      | some ⟨.detached (.ok r), a⟩ => some (s.reply t ⟨.detached (.ok r), a⟩ r)
      | some ⟨.detached (.error e), a⟩ => some (s.put t ⟨.answered (.error e), a⟩)
      | _ => none

/-- What a step did. -/
inductive Done (s : Desk) : Step → Desk → Prop where
  | attach {t : Nat} (hc : s.calls.get t = none) :
      Done s (.attach t) ((s.put t ⟨.attached, []⟩).attach true)
  | pass (he : s.engine = none) : Done s (.lock none) { s with engine := some none }
  | lock {t : Nat} {a : List Secret} (he : s.engine = none)
      (hc : s.calls.get t = some ⟨.attached, a⟩) :
      Done s (.lock (some t)) { s.put t ⟨.running, a⟩ with engine := some (some t) }
  | without {t : Nat} {refusal : Option ControlError} {a : List Secret}
      (hc : s.calls.get t = some ⟨.attached, a⟩) :
      Done s (.without t refusal) (s.put t ⟨.served (withoutEngine refusal), a⟩)
  | stray {d : Dealing} (he : s.engine = some none) :
      Done s (.deal d)
        { s with mailbox := d.on s.mailbox, strays := s.strays ++ d.accepted s.mailbox }
  | deal {d : Dealing} {t : Nat} {a : List Secret} (he : s.engine = some (some t))
      (hc : s.calls.get t = some ⟨.running, a⟩) :
      Done s (.deal d)
        { s.put t ⟨.running, a ++ d.accepted s.mailbox⟩ with mailbox := d.on s.mailbox }
  | passed {r : Except ControlError Result} (he : s.engine = some none) :
      Done s (.finish r) { s with engine := none }
  | finish {r : Except ControlError Result} {t : Nat} {a : List Secret}
      (he : s.engine = some (some t)) (hc : s.calls.get t = some ⟨.running, a⟩) :
      Done s (.finish r) { s.put t ⟨.served r, a⟩ with engine := none }
  | detach {t : Nat} {r : Except ControlError Result} {a : List Secret}
      (hc : s.calls.get t = some ⟨.served r, a⟩) :
      Done s (.detach t) ((s.put t ⟨.detached r, a⟩).attach false)
  | answer {t : Nat} {r : Result} {a : List Secret}
      (hc : s.calls.get t = some ⟨.detached (.ok r), a⟩) :
      Done s (.answer t) (s.reply t ⟨.detached (.ok r), a⟩ r)
  | failed {t : Nat} {e : ControlError} {a : List Secret}
      (hc : s.calls.get t = some ⟨.detached (.error e), a⟩) :
      Done s (.answer t) (s.put t ⟨.answered (.error e), a⟩)

theorem done_of_step {s s' : Desk} {m : Step} (h : s.step m = some s') : Done s m s' := by
  unfold step at h
  cases m with
  | attach t =>
      simp only at h
      split at h
      next hc => cases h; exact .attach hc
      next => cases h
  | lock t =>
      simp only at h
      split at h
      next he => cases h; exact .pass he
      next t he =>
        split at h
        next a hc => cases h; exact .lock he hc
        next => cases h
      next => cases h
  | without t refusal =>
      simp only at h
      split at h
      next a hc => cases h; exact .without hc
      next => cases h
  | deal d =>
      simp only at h
      split at h
      next he => cases h; exact .stray he
      next t he =>
        split at h
        next a hc => cases h; exact .deal he hc
        next => cases h
      next => cases h
  | finish r =>
      simp only at h
      split at h
      next he => cases h; exact .passed he
      next t he =>
        split at h
        next a hc => cases h; exact .finish he hc
        next => cases h
      next => cases h
  | detach t =>
      simp only at h
      split at h
      next r a hc => cases h; exact .detach hc
      next => cases h
  | answer t =>
      simp only at h
      split at h
      next r a hc => cases h; exact .answer hc
      next e a hc => cases h; exact .failed hc
      next => cases h

/-- What a run leads to, each step as `P` has it. -/
inductive Run (P : Desk → Step → Prop) : Desk → Prop where
  | start : Run P idle
  | step {s s' : Desk} {m : Step} (h : Run P s) (hp : P s m) (hs : s.step m = some s') : Run P s'

end Desk

end Rescind.Control
