/-
# `Rescind.Control.Dispatch` — a verb's arguments, and what it hands the engine

A request names a verb and brings a JSON value.  Each verb reads its arguments one
by one, some with a default, and then hands the engine what it read; an error
before that hands it nothing.

**Proved here.**

    when each way to read an argument succeeds      (`gives_argStr`, `gives_argOr`, …)
    when the operator may act on an instance               (`gives_ownInstance`)
-/
import Rescind.Control.Identity
import Rescind.Engine.Verbs
import Rescind.Lib.Results

namespace Rescind.Control

open Lib

/-! ## JSON values -/

inductive Number where
  | pos (n : UInt64)
  /-- Below zero. -/
  | neg
  | float

inductive Value where
  | null
  | bool (b : Bool)
  | number (n : Number)
  | string (s : String)
  | array (xs : List Value)
  | object (kvs : List (String × Value))

namespace Value

def get (v : Value) (name : String) : Option Value :=
  match v with
  | .object kvs => Assoc.get kvs name
  | _ => none

def asBool : Value → Option Bool
  | .bool b => some b
  | _ => none

def asU64 : Value → Option UInt64
  | .number (.pos n) => some n
  | _ => none

def asStr : Value → Option String
  | .string s => some s
  | _ => none

def asArray : Value → Option (List Value)
  | .array xs => some xs
  | _ => none

/-- A number that fits in 32 bits. -/
def asU32 (v : Value) : Option UInt32 :=
  v.asU64.bind fun n => if n.toNat < 2 ^ 32 then some n.toUInt32 else none

def asStrings (v : Value) : Option (List String) := v.asArray.bind fun xs => xs.mapM asStr

def asU32s (v : Value) : Option (List Nat) :=
  v.asArray.bind fun xs => xs.mapM fun x => x.asU32.map UInt32.toNat

/-- An object of strings; its bindings are in key order. -/
def asVars : Value → Option Vars
  | .object kvs => kvs.mapM fun kv => kv.2.asStr.map fun s => (kv.1, s)
  | _ => none

end Value

/-- What deserialization makes of a plan, and what it says of a value it cannot
read. -/
structure Serde where
  planIr : Value → Except String PlanIr
  message : String → Value → String

/-! ## Arguments -/

def protocol (text : String) : ControlError := ⟨"protocol", text⟩

/-- A string that must be there. -/
def argStr (args : Value) (name : String) : Except ControlError String :=
  match (args.get name).bind Value.asStr with
  | some s => .ok s
  | none => .error (protocol ("`" ++ name ++ "` (a string) is required"))

/-- A number that must be there. -/
def argU64 (args : Value) (name why : String) : Except ControlError UInt64 :=
  match (args.get name).bind Value.asU64 with
  | some n => .ok n
  | none => .error (protocol why)

/-- What may be left out, and must be readable where it is there. -/
def argOr {α : Type} (S : Serde) (args : Value) (name : String) (read : Value → Option α)
    (default : α) : Except ControlError α :=
  match args.get name with
  | none => .ok default
  | some v => match read v with
      | some a => .ok a
      | none => .error (protocol (name ++ ": " ++ S.message name v))

/-- The plan of a request. -/
def argIr (S : Serde) (args : Value) : Except ControlError PlanIr :=
  match args.get "ir" with
  | none => .error (protocol "`ir` is required")
  | some v => match S.planIr v with
      | .ok ir => .ok ir
      | .error e => .error (protocol ("ir: " ++ e))

def argMode (args : Value) : Except ControlError (Option Mode) :=
  match (args.get "mode").bind Value.asStr with
  | some other =>
      if other = "auto" then .ok (some .auto)
      else if other = "manual" then .ok (some .manual)
      else .error (protocol ("mode " ++ other))
  | none => .ok none

def forceName (s : String) : ForceName :=
  if s = "drift" then .drift else if s = "unknown" then .unknown else .guard s

def argForce (args : Value) : Except ControlError (List ForceName) :=
  match args.get "force" with
  | none => .ok []
  | some v => match v.asArray with
      | none => .error (protocol "`force` is a list of names, not a single value")
      | some names => match names.mapM Value.asStr with
          | none => .error (protocol "`force` names are strings")
          | some names => .ok (names.map forceName)

/-- A string, or what it is taken for where there is none. -/
def textOr (args : Value) (name default : String) : String :=
  ((args.get name).bind Value.asStr).getD default

def flagOr (args : Value) (name : String) (default : Bool) : Bool :=
  ((args.get name).bind Value.asBool).getD default

/-- `as u32`: the low 32 bits. -/
def low32 (n : UInt64) : Nat := n.toUInt32.toNat

/-- The scope a challenge or a proof is for: a knell's acknowledgement, a step
gate, or the plan gate. -/
def scopeOf (args : Value) : Scope :=
  match (args.get "ack").bind Value.asU64 with
  | some n => .ack (low32 n)
  | none => match (args.get "step").bind Value.asU64 with
      | some n => .step (low32 n)
      | none => .plan

/-! ## Verbs -/

inductive VerbName where
  | apply | drill | status | recant | renew | confirm | commit | resume | handoffDone | cancel
  | abandon | bootstrap | challenge | approve | ack | reveal | reclaim | doctor | hooks
  deriving DecidableEq

def VerbName.ofString : String → Option VerbName
  | "apply" => some .apply
  | "drill" => some .drill
  | "status" => some .status
  | "recant" => some .recant
  | "renew" => some .renew
  | "confirm" => some .confirm
  | "commit" => some .commit
  | "resume" => some .resume
  | "handoff_done" => some .handoffDone
  | "cancel" => some .cancel
  | "abandon" => some .abandon
  | "bootstrap" => some .bootstrap
  | "challenge" => some .challenge
  | "approve" => some .approve
  | "ack" => some .ack
  | "reveal" => some .reveal
  | "reclaim" => some .reclaim
  | "doctor" => some .doctor
  | "hooks" => some .hooks
  | _ => none

/-- What a verb hands the engine. -/
inductive Handed where
  | verb (v : Verb)
  | drill (ir : PlanIr) (params : Vars)
  | status (id : String)
  | instances
  | bootstrap (host : String)
  | challenge (id : String) (scope : Scope) (context : String)
  | reveal (id : String)
  | reclaim (host inst : String) (force : Bool) (reason : String)
  /-- With the wait of its canaries, where it sends any. -/
  | doctor (canary : Option Duration)
  | hooks

/-- What a verb knows of the daemon it runs in. -/
structure Daemon where
  dryRun : Bool
  serde : Serde
  /-- The plan of an instance, as the engine's store has it. -/
  plan : String → Except ControlError (Option String)

namespace Daemon

variable (d : Daemon) (op : Operator) (args : Value)

def notOperator (plan : String) : ControlError :=
  ⟨"R0504", "identity :" ++ op.name ++ " is not an operator for plan " ++ plan⟩

/-- The operator must admit the plan. -/
def admitted (plan : String) : Except ControlError Unit :=
  if op.admitsPlan plan then .ok () else .error (notOperator op plan)

/-- The operator must admit the instance's plan. -/
def scopedTo (inst : String) : Except ControlError Unit :=
  match d.plan inst with
  | .error e => .error e
  | .ok none => .error ⟨"no_such_instance", inst⟩
  | .ok (some plan) => admitted op plan

def admin (verb : String) : Except ControlError Unit :=
  if op.admin then .ok ()
  else .error ⟨"R0506", verb ++ " is an admin verb and :" ++ op.name ++ " is not declared admin"⟩

/-- The instance a request names, when the operator may act on it. -/
def ownInstance : Except ControlError String := do
  let id ← argStr args "instance"
  d.scopedTo op id
  pure id

def apply : Except ControlError Handed := do
  let ir ← argIr d.serde args
  admitted op ir.plan.id
  let params ← argOr d.serde args "params" Value.asVars []
  let acks ← argOr d.serde args "acks" Value.asU32s []
  let forced ← argOr d.serde args "forced" Value.asStrings []
  let mode ← argMode args
  let rehearsal := d.dryRun || flagOr args "rehearsal" false
  pure (.verb (.apply ir params { rehearsal, acks, forced, mode }))

def dryDrill : String :=
  "a dry-run daemon cannot drill: a drill is an apply and a recant against"
    ++ "                      a real canary, and a rehearsal of one proves nothing"

def drill : Except ControlError Handed := do
  let ir ← argIr d.serde args
  admitted op ir.plan.id
  let params ← argOr d.serde args "params" Value.asVars []
  if d.dryRun then .error (protocol dryDrill)
  else pure (.drill ir params)

/-- One instance's status, or every one's. -/
def status : Except ControlError Handed :=
  match (args.get "instance").bind Value.asStr with
  | some id => do
      d.scopedTo op id
      pure (.status id)
  | none => pure .instances

def recant : Except ControlError Handed := do
  let id ← d.ownInstance op args
  let force ← argForce args
  pure (.verb (.recant id force))

def renew : Except ControlError Handed := do
  let id ← d.ownInstance op args
  let secs ← argU64 args "wane_s" "`wane_s` is required"
  pure (.verb (.renew id ⟨secs.toNat⟩))

/-- A verb that needs no more than its instance. -/
def plain (v : String → Verb) : Except ControlError Handed := do
  let id ← d.ownInstance op args
  pure (.verb (v id))

def commit : Except ControlError Handed := do
  let id ← d.ownInstance op args
  let reason ← argStr args "reason"
  pure (.verb (.commit id op.name reason))

def handoffDone : Except ControlError Handed := do
  let id ← d.ownInstance op args
  let step ← argU64 args "step" "`step` is required"
  pure (.verb (.handoffDone id (low32 step) op.name))

def abandon : Except ControlError Handed := do
  admin op "abandon"
  let id ← argStr args "instance"
  let reason ← argStr args "reason"
  if Text.trim reason.toList = [] then .error (protocol "abandon needs a reason")
  else do
    d.scopedTo op id
    pure (.verb (.abandon id op.name reason))

def bootstrap : Except ControlError Handed := do
  admin op "bootstrap"
  let host ← argStr args "host"
  pure (.bootstrap host)

def challenge : Except ControlError Handed := do
  let id ← d.ownInstance op args
  pure (.challenge id (scopeOf args) (textOr args "context" ""))

def approve : Except ControlError Handed := do
  let id ← d.ownInstance op args
  let auth := textOr args "authenticator" op.name
  let proof := textOr args "proof" ""
  pure (.verb (.approveProof id (scopeOf args) auth proof op.name))

def ack : Except ControlError Handed := do
  let id ← d.ownInstance op args
  let step ← argU64 args "step" "ack needs a step"
  let reason ← argStr args "reason"
  let proof := textOr args "proof" ""
  let authenticator ← argStr args "authenticator"
  pure (.verb (.ack id (low32 step) reason proof authenticator op.name))

def reveal : Except ControlError Handed := do
  let id ← d.ownInstance op args
  pure (.reveal id)

def reclaim : Except ControlError Handed := do
  admin op "reclaim"
  let host ← argStr args "host"
  let inst ← argStr args "instance"
  pure (.reclaim host inst (flagOr args "force" false) (textOr args "reason" ""))

def doctor : Except ControlError Handed := do
  admin op "doctor"
  let canary := flagOr args "canary" false
  let wait := (((args.get "canary_wait_s").bind Value.asU64).map UInt64.toNat).getD 180
  pure (.doctor (if canary then some ⟨wait⟩ else none))

/-- What a verb hands the engine. -/
def serve : VerbName → Except ControlError Handed
  | .apply => d.apply op args
  | .drill => d.drill op args
  | .status => d.status op args
  | .recant => d.recant op args
  | .renew => d.renew op args
  | .confirm => d.plain op args .confirm
  | .commit => d.commit op args
  | .resume => d.plain op args fun id => .resume id op.name
  | .handoffDone => d.handoffDone op args
  | .cancel => d.plain op args .cancel
  | .abandon => d.abandon op args
  | .bootstrap => bootstrap op args
  | .challenge => d.challenge op args
  | .approve => d.approve op args
  | .ack => d.ack op args
  | .reveal => d.reveal op args
  | .reclaim => reclaim op args
  | .doctor => doctor op args
  | .hooks => .ok .hooks

/-- A request is served, or refused with nothing handed to the engine. -/
def dispatchInner (verb : String) : Except ControlError Handed :=
  match VerbName.ofString verb with
  | some v => d.serve op args v
  | none => .error (protocol ("unknown verb " ++ verb))

end Daemon

/-! ## When reading succeeds -/

/-- The string an argument is, if it is one. -/
def textAt (args : Value) (name : String) : Option String := (args.get name).bind Value.asStr

section

variable {args : Value} {name : String}

theorem gives_argStr {P : String → Prop} :
    Gives (argStr args name) P ↔ ∃ s, textAt args name = some s ∧ P s := by
  unfold argStr textAt
  cases (args.get name).bind Value.asStr with
  | some s => simp [gives_ok]
  | none => simp [gives_error]

theorem gives_argU64 {why : String} {P : UInt64 → Prop} :
    Gives (argU64 args name why) P ↔ ∃ n, (args.get name).bind Value.asU64 = some n ∧ P n := by
  unfold argU64
  cases (args.get name).bind Value.asU64 with
  | some n => simp [gives_ok]
  | none => simp [gives_error]

theorem gives_argOr {α : Type} {S : Serde} {read : Value → Option α} {default : α} {p : Prop} :
    Gives (argOr S args name read default) (fun _ => p) ↔
      (∀ v, args.get name = some v → (read v).isSome = true) ∧ p := by
  unfold argOr
  cases args.get name with
  | none => simp [gives_ok]
  | some v => cases hr : read v <;> simp [gives_ok, gives_error, hr]

theorem gives_argIr {S : Serde} {P : PlanIr → Prop} :
    Gives (argIr S args) P ↔ ∃ v, args.get "ir" = some v ∧ ∃ ir, S.planIr v = .ok ir ∧ P ir := by
  unfold argIr
  cases args.get "ir" with
  | none => simp [gives_error]
  | some v => cases hr : S.planIr v <;> simp [gives_ok, gives_error, hr]

theorem gives_argMode {p : Prop} :
    Gives (argMode args) (fun _ => p) ↔
      (∀ s, textAt args "mode" = some s → s = "auto" ∨ s = "manual") ∧ p := by
  unfold argMode textAt
  cases (args.get "mode").bind Value.asStr with
  | none => simp [gives_ok]
  | some s =>
      simp only
      split
      next h => simp [gives_ok, h]
      next ha =>
        split
        next h => simp [gives_ok, h]
        next hm => simp [gives_error, ha, hm]

theorem gives_argForce {p : Prop} :
    Gives (argForce args) (fun _ => p) ↔
      (∀ v, args.get "force" = some v → v.asStrings.isSome = true) ∧ p := by
  unfold argForce
  cases args.get "force" with
  | none => simp [gives_ok]
  | some v =>
      cases ha : v.asArray with
      | none => simp [gives_error, Value.asStrings, ha]
      | some names =>
          cases hn : names.mapM Value.asStr <;>
            simp [gives_ok, gives_error, Value.asStrings, ha, hn]

end

namespace Daemon

variable {d : Daemon} {op : Operator} {args : Value}

theorem gives_admitted {plan : String} {p : Prop} :
    Gives (admitted op plan) (fun _ => p) ↔ op.admitsPlan plan = true ∧ p := by
  unfold admitted
  split
  next h => simp [gives_ok, h]
  next h => simp [gives_error, h]

theorem gives_admin {verb : String} {p : Prop} :
    Gives (admin op verb) (fun _ => p) ↔ op.admin = true ∧ p := by
  unfold admin
  split
  next h => simp [gives_ok, h]
  next h => simp [gives_error, h]

theorem gives_scopedTo {inst : String} {p : Prop} :
    Gives (d.scopedTo op inst) (fun _ => p) ↔
      (∃ plan, d.plan inst = .ok (some plan) ∧ op.admitsPlan plan = true) ∧ p := by
  unfold scopedTo
  split
  next h => simp [gives_error, h]
  next h => simp [gives_error, h]
  next plan h => simp [gives_admitted, h]

theorem gives_ownInstance {P : String → Prop} :
    Gives (d.ownInstance op args) P ↔ ∃ id, textAt args "instance" = some id ∧
      (∃ plan, d.plan id = .ok (some plan) ∧ op.admitsPlan plan = true) ∧ P id := by
  simp only [ownInstance, gives_bind, gives_argStr, gives_scopedTo, gives_pure]

end Daemon

end Rescind.Control
