/-
# `Rescind.Engine.World` — the engine's state, and the world it asks

The engine is a program over `World`: what is durable (the instance records,
the ledger, the settle and migration notes, the journal), what a process holds
in memory (the ledger it decides from, whether it is settling, the host
inventory, the record in hand), and the state `σ` of everything outside.

**The outside.**  Clock, executors, schedulers, approval and secret bindings,
journal sinks and the disk are one arbitrary machine that answers typed
queries (`Outside.answer`).  Any deterministic machine is allowed, and every
sequence of answers is some machine's, so a statement for every `Outside` is a
statement for every behaviour of the world.  Instead of answering it may let
the process die, at any query: before a write, inside an executor call, between
any two durable writes.

**The record in hand.**  The source threads `&mut InstanceRecord` through every
operation; here it is the field `hand`.  A verb that returns an error drops it,
and nothing reads it again until a record is loaded.

**History.**  `acts` records what the engine did to applications, newest
first, and `gap` names the instance whose record and ledger entry are being
moved one after the other.  No operation reads either: they exist to state what
a run did.
-/
import Rescind.Engine.Record
import Rescind.Lib.Prog

namespace Rescind

open Lib

/-! ## Queries -/

/-- Where a durable write or read goes. -/
inductive Slot where
  | instance_ (id : String)
  | ids
  | ledger
  | settle
  | migrated
  | journal
  deriving DecidableEq, Repr

/-- What a run produced. -/
structure ExecOutput where
  outputs : Vars
  deriving DecidableEq, Repr

/-- What the engine asks of the outside.  An executor is named by its place in
the engine's list; the texts of its errors are what the source displays. -/
inductive Query where
  | now
  | nonce
  | write (s : Slot)
  | read (s : Slot)
  | sign (e : Entry)
  | deliver (e : Entry)
  | run (ex : Nat) (host : Host) (inst : String) (body : List RPrim)
  | observe (ex : Nat) (host : Host) (name : String) (body : List RPrim)
  | readFact (ex : Nat) (host : Host) (shape : String)
  | bootstrapState (ex : Nat) (host : Host)
  | clockNow (ex : Nat) (host : Host)
  | dirCreate (ex : Nat) (host : Host) (inst : String)
  | dirRemove (ex : Nat) (host : Host) (inst : String)
  | dirList (ex : Nat) (host : Host)
  | putFile (ex : Nat) (host : Host) (inst rel : String) (bytes : Bytes) (mode : Nat)
  | replaceFile (ex : Nat) (host : Host) (inst rel : String) (bytes : Bytes)
  | getFile (ex : Nat) (host : Host) (inst rel : String)
  | removeFile (ex : Nat) (host : Host) (inst rel : String)
  | hostLock (ex : Nat) (host : Host)
  | schedInstall (name : String) (ex : Nat) (host : Host) (job : Job)
  | schedPresent (name : String) (ex : Nat) (host : Host) (job : Job)
  | schedArm (name : String) (ex : Nat) (host : Host) (job : Job) (deadline : Instant)
  | schedRearm (name : String) (ex : Nat) (host : Host) (job : Job) (deadline : Instant)
  | schedDisarm (name : String) (ex : Nat) (host : Host) (job : Job)
  | authenticators
  | verify (r : ProofRequest)
  | secret (name : String)
  | offer (acceptor : Nat) (inst label value : String) (now : Instant) (until_ : Option Instant)
  | take (acceptor : Nat) (inst : String)
  | dropFor (acceptor : Nat) (inst : String)
  | expireHeld (acceptor : Nat) (now : Instant)
  | dropAll (acceptor : Nat)
  | notify (inst : String) (state : State)

/-- What each query is answered with. -/
def Reply : Query → Type
  | .now => Instant
  | .nonce => String
  | .write _ => Except String Unit
  | .read _ => Except String Unit
  | .sign _ => Except String Unit
  | .deliver _ => List (String × String)
  | .run .. => Except String ExecOutput
  | .observe .. => Except String Observation
  | .readFact .. => Except String (Option Bytes)
  | .bootstrapState .. => Except String BootstrapState
  | .clockNow .. => Except String (Option Instant)
  | .dirCreate .. => Except String Unit
  | .dirRemove .. => Except String Unit
  | .dirList .. => Except String (List InstanceDirState)
  | .putFile .. => Except String Unit
  | .replaceFile .. => Except String Unit
  | .getFile .. => Except String Bytes
  | .removeFile .. => Except String Unit
  | .hostLock .. => Except String Unit
  | .schedInstall .. => Except String Unit
  | .schedPresent .. => Except String Presence
  | .schedArm .. => Except String Unit
  | .schedRearm .. => Except String Unit
  | .schedDisarm .. => Except String Unit
  | .authenticators => Except String (List Authenticator)
  | .verify _ => Except String Verified
  | .secret _ => Except String String
  | .offer .. => Except String Bool
  | .take .. => Option (String × String)
  | .dropFor .. => List String
  | .expireHeld .. => List (String × String)
  | .dropAll _ => List (String × String)
  | .notify .. => Unit

/-- Everything outside the engine: from a state and a query, an answer (or
none: the process died) and the next state. -/
structure Outside (σ : Type) where
  answer : σ → (q : Query) → Option (Reply q) × σ

/-- The host contract: the records of every host a plan touches and the value
of every static probe. -/
structure HostContract where
  hosts : Assoc String HostRecord
  statics : Vars
  deriving DecidableEq, Repr

/-- What every proof binds to. -/
structure Request where
  nonce : String
  planId : String
  inst : String
  ownerHost : String
  paramsHash : Hash
  hostContractHash : Option Hash
  wane : Option Duration
  requestedAt : Instant
  gateHash : Hash
  planContentHash : Hash
  deriving DecidableEq, Repr

/-- Eight characters: the part of the parameters' digest an instance id keeps. -/
abbrev Digest8 := { s : List Char // s.length = 8 }

/-- How a site set the engine up, and the digest functions it uses. -/
structure Setting (σ : Type) where
  outside : Outside σ
  executors : List (LocusKind × ExecCaps)
  schedulers : List String
  /-- The `approval via:` binding, and whether it opens every gate. -/
  approval : Option Bool
  acceptors : List String
  hasSource : Bool
  controllerOs : String
  controllerId : String
  skewTolerance : Duration := ⟨120⟩
  sha256 : Bytes → String
  paramsDigest : Vars → Digest8
  paramsHash : Vars → Hash
  contractHash : HostContract → Hash
  gateHash : Option PlanGate → Hash
  planHash : Plan → Hash
  requestDigest : Request → Hash
  scopedDigest : Hash → Scope → Hash
  /-- The rendered artifact of a plan for an instance on a host. -/
  renderArtifact : PlanIr → Vars → Host → String → Except String (String × String)

/-! ## The store of instances -/

/-- The instance records, in order of id, each under its own. -/
structure Store where
  recs : Assoc String InstanceRecord
  sorted : recs.Sorted
  keyed : ∀ kr ∈ recs, kr.2.id = kr.1

namespace Store

def empty : Store := ⟨[], List.Pairwise.nil, fun _ h => nomatch h⟩

def read (s : Store) (id : String) : Option InstanceRecord := s.recs.get id

/-- Write a record under its id. -/
def write (s : Store) (r : InstanceRecord) : Store where
  recs := s.recs.insert r.id r
  sorted := s.sorted.insert r.id r
  keyed := by
    intro kr h
    rcases Assoc.mem_insert_imp h with rfl | h
    · rfl
    · exact s.keyed kr h

/-- Every record, in order of id. -/
def records (s : Store) : List InstanceRecord := s.recs.map Prod.snd

@[simp] theorem read_write_self (s : Store) (r : InstanceRecord) :
    (s.write r).read r.id = some r := by
  simp [read, write]

theorem read_write_ne (s : Store) (r : InstanceRecord) {j : String} (h : j ≠ r.id) :
    (s.write r).read j = s.read j := by
  simp [read, write, Assoc.get_insert_ne _ _ h]

theorem read_write (s : Store) (r : InstanceRecord) (j : String) :
    (s.write r).read j = if j = r.id then some r else s.read j := by
  simp only [read, write, Assoc.get_insert]

theorem id_of_read {s : Store} {id : String} {r : InstanceRecord} (h : s.read id = some r) :
    r.id = id :=
  s.keyed (id, r) (Assoc.mem_of_get h)

theorem read_of_mem {s : Store} {r : InstanceRecord} (h : r ∈ s.records) :
    s.read r.id = some r := by
  obtain ⟨⟨k, r'⟩, hm, rfl⟩ := List.mem_map.mp h
  have hk : r'.id = k := s.keyed _ hm
  simp only [hk]
  exact s.sorted.get_of_mem hm

/-- Two records of a listing under different places have different ids. -/
theorem records_nodup (s : Store) : (s.records.map InstanceRecord.id).Nodup := by
  have hk : s.records.map InstanceRecord.id = s.recs.map Prod.fst := by
    simp only [records, List.map_map]
    exact List.map_congr_left fun kr h => s.keyed kr h
  rw [hk]
  exact s.sorted.keys_nodup

end Store

/-! ## The world -/

/-- Why an error leaves the walk without refusing the step. -/
inductive Strand where
  /-- The inventory has no record of the plan's owner. -/
  | ownerUnknown
  /-- The probe a `repeat over` names for its list could not be observed. -/
  | listUnread
  /-- A fact to snapshot is larger than the cap. -/
  | overCap
  /-- The marker or the manifest file of the step was not written. -/
  | markersUnwritten
  /-- No executor serves the controller. -/
  | noExecutor
  /-- A temporary plan has a `confirm()`. -/
  | confirmTemporary
  /-- A temporary plan has a `commit()`. -/
  | commitTemporary
  /-- A permanent plan came to its end without a `commit()`. -/
  | uncommitted
  /-- A slot was not filled. -/
  | slotUnfilled
  | container
  deriving DecidableEq, Repr

/-- What ended a wait. -/
inductive Cause where
  /-- A proof for the gate of a step, which it satisfies. -/
  | proof (n : Nat)
  /-- The acknowledgement of a knell. -/
  | ack (n : Nat)
  /-- What a guard answered when it was asked again. -/
  | guard (name : String) (answer : Tri)
  deriving DecidableEq, Repr

/-- What stood when a `do` was handed over: the record in hand, and the state and the
docket of the durable one. -/
structure Handing where
  record : InstanceRecord
  stored : Option (State × Docket)

/-- What the engine did to an application, or decided of one. -/
inductive Act where
  /-- `apply` began a record under this id. -/
  | fresh (id : String)
  /-- The executor was handed the `do`, the record's `applied` being this. -/
  | did (id : String) (a : AppliedStep) (applied : List AppliedStep)
  /-- `StepDone` was journaled. -/
  | completed (id : String) (a : AppliedStep)
  /-- A handoff was journaled. -/
  | handedOff (id : String) (a : AppliedStep)
  /-- The walk skipped the application as applied. -/
  | skipped (id : String) (a : AppliedStep)
  /-- The executor was handed the undo. -/
  | undoRun (id : String) (a : AppliedStep) (body : List RPrim)
  /-- The undo is done. -/
  | undone (id : String) (a : AppliedStep)
  /-- Its facts read as they did before `do`. -/
  | untouched (id : String) (a : AppliedStep)
  /-- It was put back into `applied` unfinished, with or without a `:hold`
  step among the record's applications. -/
  | rerecorded (id : String) (a : AppliedStep) (hold : Bool)
  /-- A `when` took an arm: its first leaf, the iteration and variables it was
  reached with, and what its guard answered if it was asked now. -/
  | chose (id : String) (leaf iteration : Nat) (vars : Vars) (asked : Option Tri) (arm : Bool)
  /-- A `repeat over` read its list. -/
  | listed (id : String) (leaf : Nat) (vars : Vars) (values : List String)
  /-- An error left the walk without refusing the step. -/
  | stranded (id : String) (why : Strand)
  /-- The write-ahead entry was acknowledged. -/
  | ahead (id : String) (a : AppliedStep)
  /-- The executor is handed the `do`, this being how things stand. -/
  | handing (id : String) (a : AppliedStep) (h : Handing)
  /-- The instance left `Applying`, this being said to be in flight. -/
  | quit (id : String) (flight : Option AppliedStep)
  /-- Boot found the application in flight. -/
  | found (id : String) (a : AppliedStep)
  /-- The instance entered `Applying`, these steps being applied. -/
  | setOut (id : String) (applied : List AppliedStep)
  /-- Every post guard of the application passed, and its staged files are
  gone. -/
  | passed (id : String) (a : AppliedStep)
  /-- The instance left `Waiting`. -/
  | left (id : String) (wait : Option Wait) (ev : Event) (s : State)
  /-- What it waited for is decided. -/
  | woke (id : String) (wait : Option Wait) (cause : Cause)
  /-- A proof was verified, for the request of this digest in this scope. -/
  | proved (id : String) (scope : Scope) (authenticator : String) (digest : Hash)
  /-- The proofs of these were counted for a gate of the request of this digest
  in this scope. -/
  | counted (id : String) (scope : Scope) (authenticators : List String) (digest : Hash)
  /-- The request froze this host contract. -/
  | froze (id : String) (c : HostContract)
  /-- The host contract was derived again, and held against the hash the request
  froze. -/
  | compared (id : String) (frozen : Hash) (c : HostContract)
  /-- The instance was refused for its host contract: every proof is gone. -/
  | fell (id : String)
  /-- A point of no return was acknowledged. -/
  | acked (id : String) (n : Nat) (reason : String)
  /-- The acknowledgements `apply` came with. -/
  | upFront (id : String) (acks : List Nat)
  /-- The artifact and its scheduler entry are on the host, as the inventory has it. -/
  | installed (id : String) (hosts : Assoc String Host) (st : BackstopState)
  /-- The artifact is armed, the inventory, the clock and the record's deadline being
  these. -/
  | armed (id : String) (hosts : Assoc String Host) (now : Instant) (deadline : Option Instant)
      (st : BackstopState)

/-- The state the engine runs over. -/
structure World (σ : Type) where
  out : σ
  /-- Whether a process is running. -/
  up : Bool := true
  hosts : Assoc String Host
  -- durable
  instances : Store := Store.empty
  stored : Ledger := {}
  settle : Bool := false
  migrated : Option (Nat × Nat × String) := none
  journal : List Entry := []
  -- held by the process
  ledger : Ledger := {}
  settling : Bool := false
  hand : InstanceRecord
  -- history
  acts : List Act := []
  gap : Option String := none

/-- An engine operation. -/
abbrev Eng (σ α : Type) := Prog (World σ) EngineError α

/-- An engine operation that fails with a reason for the caller to judge. -/
abbrev Try (σ α : Type) := Prog (World σ) String α

variable {σ ε α : Type} (E : Setting σ)

/-- Ask the outside. -/
def ask (q : Query) : Prog (World σ) ε (Reply q) := fun w =>
  match E.outside.answer w.out q with
  | (some r, o) => (.ok r, { w with out := o })
  | (none, o) => (.died, { w with out := o, up := false })

/-- What follows an answer. -/
theorem ask_bind_some {β : Type} {q : Query} {w : World σ} {r : Reply q} {o : σ}
    (h : E.outside.answer w.out q = (some r, o)) (f : Reply q → Prog (World σ) ε β) :
    (ask E q >>= f) w = f r { w with out := o } := by
  rw [Prog.bind_eq]
  unfold ask
  rw [h]

theorem ask_bind_none {β : Type} {q : Query} {w : World σ} {o : σ}
    (h : E.outside.answer w.out q = (none, o)) (f : Reply q → Prog (World σ) ε β) :
    (ask E q >>= f) w = (.died, { w with out := o, up := false }) := by
  rw [Prog.bind_eq]
  unfold ask
  rw [h]

/-- Add to the history. -/
def note (a : Act) : Prog (World σ) ε Unit := .edit fun w => { w with acts := a :: w.acts }

/-- The record in hand. -/
def hand : Prog (World σ) ε InstanceRecord := .read World.hand

/-- Change the record in hand. -/
def setHand (f : InstanceRecord → InstanceRecord) : Prog (World σ) ε Unit :=
  .edit fun w => { w with hand := f w.hand }

/-- Take up a record. -/
def takeUp (r : InstanceRecord) : Prog (World σ) ε Unit := .edit fun w => { w with hand := r }

/-! ## The store and the journal -/

/-- Ask whether a durable write succeeds. -/
def writeOk (s : Slot) : Eng σ Unit := do
  match ← ask E (.write s) with
  | .ok () => pure ()
  | .error e => .fail (.store e)

def readOk (s : Slot) : Eng σ Unit := do
  match ← ask E (.read s) with
  | .ok () => pure ()
  | .error e => .fail (.store e)

/-- Write the record in hand. -/
def persist : Eng σ Unit := do
  let r ← hand
  writeOk E (.instance_ r.id)
  .edit fun w => { w with instances := w.instances.write w.hand }

/-- Write the ledger as the process holds it. -/
def writeLedger : Eng σ Unit := do
  writeOk E .ledger
  .edit fun w => { w with stored := w.ledger }

def readInstance (id : String) : Eng σ (Option InstanceRecord) := do
  readOk E (.instance_ id)
  .read fun w => w.instances.read id

/-- Every record, read one by one. -/
def allInstances : Eng σ (List InstanceRecord) := do
  readOk E .ids
  let rs ← Prog.read fun w => w.instances.records
  let _ ← Prog.loop (fun r (_ : Unit) => readOk E (.instance_ r.id)) rs ()
  pure rs

/-- Take up a stored record. -/
def load (id : String) : Eng σ Unit := do
  match ← readInstance E id with
  | some r => takeUp r
  | none => .fail (.noSuchInstance id)

/-- Chain, sign and keep one entry. -/
def keepEntry (e : Entry) : Eng σ Unit := do
  match ← ask E (.sign e) with
  | .error why => .fail (.journal (.sign why))
  | .ok () =>
      match ← ask E (.write .journal) with
      | .error why => .fail (.journal (.store why))
      | .ok () => .edit fun w => { w with journal := w.journal ++ [e] }

def refusalReason (refusals : List (String × String)) : String :=
  "R0304: sink did not acknowledge: " ++
    Text.join "; " (refusals.map fun r => r.1 ++ ": " ++ r.2)

/-- Keep an entry, then deliver it to every sink: all must acknowledge.  On a
refusal the `Refused` entry that names the sinks follows it. -/
def recordEntry (e : Entry) : Eng σ Unit := do
  keepEntry E e
  let refusals ← ask E (.deliver e)
  if refusals.isEmpty then pure ()
  else
    let refused := { e with event := .refused (refusalReason refusals) }
    keepEntry E refused
    let _ ← ask E (.deliver refused)
    .fail (.journal (.sinkRefused refusals))

/-- Journal an event about a record. -/
def logAbout (r : InstanceRecord) (ev : J) : Eng σ Unit := do
  let at_ ← ask E .now
  recordEntry E ⟨at_, r.plan.id, r.id, r.plan.owner, ev⟩

/-- Journal an event about the record in hand. -/
def log (ev : J) : Eng σ Unit := do
  let r ← hand
  logAbout E r ev

/-- A site-level journal entry: about no plan and no instance. -/
def journalSiteEvent (ev : J) : Eng σ Unit := do
  let at_ ← ask E .now
  recordEntry E ⟨at_, "", "", "", ev⟩

/-! ## Hosts and executors -/

/-- The controller as a host. -/
def controllerHost : Host :=
  { record := ⟨"controller", E.controllerOs, ["local"], true, true, none⟩
    address := "127.0.0.1" }

def hostOf (hosts : Assoc String Host) (name : String) : Option Host :=
  if name = "controller" then some (controllerHost E) else hosts.get name

/-- The host a step acts on; an error names the output a bound host comes
from. -/
def stepHost (hosts : Assoc String Host) (r : InstanceRecord) (o : Op) : Except String Host :=
  let named (name : String) : Except String Host :=
    match hostOf E hosts name with
    | some h => .ok h
    | none => .error ("no host record for " ++ name)
  match o.locus with
  | .controller => .ok (controllerHost E)
  | .target => named r.plan.owner
  | .host (.static h) => named h
  | .host (.bound b) => .error b

/-- The executor for a host, by place: the first of its transports some
executor serves. -/
def executorIndex (host : Host) : Option Nat :=
  let wanted := if host.name = "controller" then controllerReach else host.record.reach
  wanted.findSome? fun t => E.executors.findIdx? fun e => e.1.transport = t

def capsOf (host : Host) : ExecCaps :=
  match (executorIndex E host).bind fun i => E.executors[i]? with
  | some e => e.2
  | none => ⟨false, false⟩

def hostsNow : Prog (World σ) ε (Assoc String Host) := .read World.hosts

/-- The owner's host record. -/
def ownerHost : Eng σ Host := do
  let r ← hand
  match hostOf E (← hostsNow) r.plan.owner with
  | some h => pure h
  | none => do
      .when (r.state = .applying) (note (.stranded r.id .ownerUnknown))
      .fail (.internal ("no host record for owner " ++ r.plan.owner))

/-! ## One event -/

def Event.name : Event → String
  | .check => "Check"
  | .request => "Request"
  | .approve => "Approve"
  | .approvalWindowLapses => "ApprovalWindowLapses"
  | .cancel => "Cancel"
  | .hostContractChanged => "HostContractChanged"
  | .allStepsDone => "AllStepsDone"
  | .commitItem => "CommitItem"
  | .refuse => "Refuse"
  | .waitAtStep => "WaitAtStep"
  | .waitSatisfied => "WaitSatisfied"
  | .deferAtStep => "DeferAtStep"
  | .handoffDone => "HandoffDone"
  | .recant => "Recant"
  | .suspend => "Suspend"
  | .reestablish => "Reestablish"
  | .renew => "Renew"
  | .confirm => "Confirm"
  | .commitVerb => "CommitVerb"
  | .resume => "Resume"
  | .boundLapses => "BoundLapses"
  | .waneElapses => "WaneElapses"
  | .undoClean => "UndoClean"
  | .undoFailed => "UndoFailed"
  | .retry => "Retry"
  | .driftOnDefer => "DriftOnDefer"
  | .forceDrift => "ForceDrift"
  | .abandon => "Abandon"

def Intent.name : Intent → String
  | .temporary => "Temporary"
  | .permanent => "Permanent"

/-- The gap after a state is written: open while a terminal record still has
ledger entries. -/
def gapAfter (s : State) (r : InstanceRecord) (g : Option String) : Option String :=
  if terminal s && !r.ledgerIds.isEmpty then some r.id else g

/-- History: a wait left, a walk quit, a walk set out on. -/
def turned (r : InstanceRecord) (ev : Event) (s : State) : List Act :=
  (if r.state = .waiting then [.left r.id r.waiting ev s] else []) ++
    (if r.state = .applying then [.quit r.id r.attempting] else []) ++
    (if s = .applying then [.setOut r.id (r.applied.filter fun a => (r.opAt a.step).isSome)] else [])

/-- Close the gap: record and ledger agree again. -/
def closeGap : Eng σ Unit := .edit fun w => { w with gap := none }

/-- Feed one event to the machine; refuse per its verdict; persist. -/
def step (ev : Event) : Eng σ Unit := do
  let r ← hand
  match transition r.ctx r.state ev with
  | .to s => do
      setHand fun r => { r with state := s }
      persist E
      .edit fun w => { w with gap := gapAfter s r w.gap, acts := turned r ev s ++ w.acts }
  | .stay => pure ()
  | .refuse code =>
      .fail (.notAdmitted code
        (ev.name ++ " in " ++ r.state.name ++ " (" ++ r.intent.name ++ " plan)"))
  | .notApplicable => .fail (.wrongState r.state ev.name)

end Rescind
