/-
# `Rescind.Core.Journal` — the journal's entries and their hash chain

An entry's hash covers the previous hash and the canonical bytes of everything
in the entry but the hash itself and the signature.  The events are a table of
variants, each with the types of its fields and the name it is written under;
an event is a variant with values of those types.

SHA-256 is a parameter.  Sequence numbers are `u64`, and wrap.

**Proved here.**

    the canonical bytes of an event are delimited             (`delimited_event`)
    so two entries of the same bytes have the same body       (`bodyBytes_inj`)
    `verify` accepts exactly the linked chains                (`verify_iff`)
-/
import Mathlib.Data.List.Nodup
import Rescind.Core.Canon

namespace Rescind.Journal

open Lib Canon

/-! ## Values -/

/-- A SHA-256 digest. -/
structure Hash where
  bytes : List UInt8
  size : bytes.length = 32
  deriving DecidableEq

/-- The genesis entry's `prev_hash`. -/
def Hash.zero : Hash := ⟨List.replicate 32 0, rfl⟩

def Hash.canon (h : Hash) : List UInt8 := octets h.bytes

/-- The signature slot. -/
structure Sig where
  namespace_ : Str
  bytesHex : Str
  deriving DecidableEq

/-- A gate scope a proof was accepted in. -/
inductive Scope where
  | plan
  | step (n : UInt32)
  | ack (n : UInt32)
  deriving DecidableEq

def Scope.canon : Scope → List UInt8
  | .plan => variant "plan" 0
  | .step n => variant "step" 1 ++ u32 n
  | .ack n => variant "ack" 1 ++ u32 n

/-! ## Events -/

/-- The types a field of an event has. -/
inductive FieldType where
  | u32 | str | bool | u32s | strs | hash | scope
  deriving DecidableEq

namespace FieldType

abbrev Value : FieldType → Type
  | .u32 => UInt32
  | .str => Str
  | .bool => Bool
  | .u32s => Vec UInt32
  | .strs => Vec Str
  | .hash => Hash
  | .scope => Scope

def canon : (t : FieldType) → t.Value → List UInt8
  | .u32, n => Canon.u32 n
  | .str, s => Canon.str s
  | .bool, b => Canon.bool b
  | .u32s, v => Canon.list Canon.u32 v
  | .strs, v => Canon.list Canon.str v
  | .hash, h => h.canon
  | .scope, s => s.canon

end FieldType

/-- The variants of the journal's event. -/
inductive EventName where
  | checked | requested | proofAccepted | approved | approvalExpired | cancelled | applying
  | stepDone | stepFailed | undoSkipped | applied | renewed | confirmed | committed | recant
  | reverting | reverted | stuck | expired | closed | backstopFired | backstopFiredAfterAbandon
  | held | resumed | deferred | handoffDone | suspended | reestablished | waiting | waitLapsed
  | stepGateRequested | stepGateSatisfied | ackRequested | knellAcknowledged | denied
  | footprintViolation | driftClobbered | driftHeld | hostContractChanged | refused
  | secretRevealed | secretUndelivered | secretDropped | stagedRemoved | instanceDirOrphaned
  | instanceDirForeign | reclaimed | abandoned | inventoryListed | hookRegistered
  | hookDeregistered | operatorConnected | operatorDisconnected | keyRotated | drillAttested
  | migrated
  deriving DecidableEq, Repr

namespace EventName

/-- The name a variant is written under. -/
def text : EventName → String
  | .checked => "checked"
  | .requested => "requested"
  | .proofAccepted => "proof_accepted"
  | .approved => "approved"
  | .approvalExpired => "approval_expired"
  | .cancelled => "cancelled"
  | .applying => "applying"
  | .stepDone => "step_done"
  | .stepFailed => "step_failed"
  | .undoSkipped => "undo_skipped"
  | .applied => "applied"
  | .renewed => "renewed"
  | .confirmed => "confirmed"
  | .committed => "committed"
  | .recant => "recant"
  | .reverting => "reverting"
  | .reverted => "reverted"
  | .stuck => "stuck"
  | .expired => "expired"
  | .closed => "closed"
  | .backstopFired => "backstop_fired"
  | .backstopFiredAfterAbandon => "backstop_fired_after_abandon"
  | .held => "held"
  | .resumed => "resumed"
  | .deferred => "deferred"
  | .handoffDone => "handoff_done"
  | .suspended => "suspended"
  | .reestablished => "reestablished"
  | .waiting => "waiting"
  | .waitLapsed => "wait_lapsed"
  | .stepGateRequested => "step_gate_requested"
  | .stepGateSatisfied => "step_gate_satisfied"
  | .ackRequested => "ack_requested"
  | .knellAcknowledged => "knell_acknowledged"
  | .denied => "denied"
  | .footprintViolation => "footprint_violation"
  | .driftClobbered => "drift_clobbered"
  | .driftHeld => "drift_held"
  | .hostContractChanged => "host_contract_changed"
  | .refused => "refused"
  | .secretRevealed => "secret_revealed"
  | .secretUndelivered => "secret_undelivered"
  | .secretDropped => "secret_dropped"
  | .stagedRemoved => "staged_removed"
  | .instanceDirOrphaned => "instance_dir_orphaned"
  | .instanceDirForeign => "instance_dir_foreign"
  | .reclaimed => "reclaimed"
  | .abandoned => "abandoned"
  | .inventoryListed => "inventory_listed"
  | .hookRegistered => "hook_registered"
  | .hookDeregistered => "hook_deregistered"
  | .operatorConnected => "operator_connected"
  | .operatorDisconnected => "operator_disconnected"
  | .keyRotated => "key_rotated"
  | .drillAttested => "drill_attested"
  | .migrated => "migrated"

/-- The types of the fields of a variant, in declared order. -/
def fields : EventName → List FieldType
  | .checked => []
  | .requested => []
  | .proofAccepted => [.scope, .str, .str]  -- scope, authenticator, submitter
  | .approved => [.bool]  -- rehearsal
  | .approvalExpired => []
  | .cancelled => []
  | .applying => [.u32, .str]  -- step, undo_line
  | .stepDone => [.u32]  -- step
  | .stepFailed => [.u32, .str]  -- step, error
  | .undoSkipped => [.u32, .str]  -- step, reason
  | .applied => []
  | .renewed => []
  | .confirmed => []
  | .committed => [.str, .str]  -- by, reason
  | .recant => []
  | .reverting => [.u32s]  -- steps
  | .reverted => []
  | .stuck => [.u32s]  -- steps
  | .expired => []
  | .closed => [.str]  -- reason
  | .backstopFired => [.u32]  -- step
  | .backstopFiredAfterAbandon => [.str, .u32s]  -- host, steps
  | .held => [.u32]  -- step
  | .resumed => [.u32, .str]  -- step, by
  | .deferred => [.u32, .str]  -- step, handoff
  | .handoffDone => [.u32, .str]  -- step, by
  | .suspended => []
  | .reestablished => []
  | .waiting => [.u32, .str]  -- step, reason
  | .waitLapsed => [.u32, .str]  -- step, reason
  | .stepGateRequested => [.u32, .hash]  -- step, step_digest
  | .stepGateSatisfied => [.u32]  -- step
  | .ackRequested => [.u32, .str]  -- step, cost
  | .knellAcknowledged => [.u32, .str, .str]  -- step, cost, by
  | .denied => [.str, .str]  -- gate, reason
  | .footprintViolation => [.u32, .strs]  -- step, facts
  | .driftClobbered => [.u32, .strs]  -- step, facts
  | .driftHeld => [.u32, .strs]  -- step, facts
  | .hostContractChanged => [.hash, .hash]  -- expected, observed
  | .refused => [.str]  -- reason
  | .secretRevealed => [.str, .str]  -- label, acceptor
  | .secretUndelivered => [.str]  -- label
  | .secretDropped => [.str, .str]  -- label, reason
  | .stagedRemoved => [.u32, .str]  -- step, reason
  | .instanceDirOrphaned => [.str, .str, .bool]  -- host, instance, armed
  | .instanceDirForeign => [.str, .str, .str]  -- host, instance, controller
  | .reclaimed => [.str, .str, .bool, .str]  -- host, instance, forced, reason
  | .abandoned => [.u32s, .strs, .str, .str]  -- steps_not_reverted, artifacts_left_armed, by, reason
  | .inventoryListed => [.str, .strs]  -- hook, hosts
  | .hookRegistered => [.str, .str, .str]  -- name, registrar, connection
  | .hookDeregistered => [.str, .str, .str]  -- name, registrar, reason
  | .operatorConnected => [.str, .bool]  -- identity, admin
  | .operatorDisconnected => [.str]  -- identity
  | .keyRotated => [.str, .str]  -- old_pub, new_pub
  | .drillAttested => [.str, .str, .str, .bool, .strs]  -- plan, host, instance, restored, facts
  | .migrated => [.u32, .u32, .str]  -- from, to, by

end EventName

/-- Values of the fields of a variant. -/
abbrev Fields : List FieldType → Type
  | [] => Unit
  | t :: ts => t.Value × Fields ts

def Fields.canon : (ts : List FieldType) → Fields ts → List UInt8
  | [], _ => []
  | t :: ts, (v, vs) => t.canon v ++ Fields.canon ts vs

structure Event where
  name : EventName
  fields : Fields name.fields

def Event.canon (e : Event) : List UInt8 :=
  variant e.name.text e.name.fields.length ++ Fields.canon e.name.fields e.fields

/-! ## Entries -/

def domain : String := "rue-journal"

structure Entry where
  seq : UInt64
  prevHash : Hash
  hash : Hash
  at_ : UInt64
  plan : Str
  inst : Str
  host : Str
  event : Event
  /-- Labels of secrets the event delivered; never values. -/
  secretLabels : Vec Str
  sig : Option Sig

/-- An entry without its hash and its signature. -/
structure Body where
  seq : UInt64
  prevHash : Hash
  at_ : UInt64
  plan : Str
  inst : Str
  host : Str
  event : Event
  secretLabels : Vec Str

def Entry.body (e : Entry) : Body :=
  { seq := e.seq, prevHash := e.prevHash, at_ := e.at_, plan := e.plan, inst := e.inst
    host := e.host, event := e.event, secretLabels := e.secretLabels }

def Body.canon (b : Body) : List UInt8 :=
  record 8 ++ (u64 b.seq ++ (b.prevHash.canon ++ (u64 b.at_ ++ (str b.plan ++ (str b.inst ++
    (str b.host ++ (b.event.canon ++ list str b.secretLabels)))))))

/-- The canonical bytes of an entry minus its hash and signature. -/
def bodyBytes (e : Entry) : List UInt8 := message domain e.body.canon

section
variable (sha256 : List UInt8 → Hash)

/-- `H(prev_hash || canonical(entry without hash, sig))`. -/
def hashOf (prev : Hash) (e : Entry) : Hash := sha256 (prev.bytes ++ bodyBytes e)

/-- What an entry is about, and what happened. -/
structure Note where
  at_ : UInt64
  plan : Str
  inst : Str
  host : Str
  event : Event
  secretLabels : Vec Str

/-- The next entry of a chain: its hash is computed, its signature slot is
empty. -/
def append (chain : List Entry) (n : Note) : Entry :=
  let (seq, prevHash) := match chain.getLast? with
    | some last => (last.seq + 1, last.hash)
    | none => (1, Hash.zero)
  let e : Entry :=
    { seq, prevHash, hash := Hash.zero, at_ := n.at_, plan := n.plan, inst := n.inst
      host := n.host, event := n.event, secretLabels := n.secretLabels, sig := none }
  { e with hash := hashOf sha256 prevHash e }

inductive ChainError where
  | genesis
  | seq (atSeq expected : UInt64)
  | prevHash (seq : UInt64)
  | hash (seq : UInt64)
  deriving DecidableEq, Repr

/-- The check of one entry against the one before it. -/
def verifyEntry (prev : Option Entry) (e : Entry) : Except ChainError Unit :=
  let follows : Except ChainError Unit :=
    match prev with
    | none => if e.seq ≠ 1 ∨ e.prevHash ≠ Hash.zero then .error .genesis else .ok ()
    | some p =>
        if e.seq ≠ p.seq + 1 then .error (.seq e.seq (p.seq + 1))
        else if e.prevHash ≠ p.hash then .error (.prevHash e.seq)
        else .ok ()
  match follows with
  | .error err => .error err
  | .ok () => if hashOf sha256 e.prevHash e ≠ e.hash then .error (.hash e.seq) else .ok ()

def verifyFrom : Option Entry → List Entry → Except ChainError Unit
  | _, [] => .ok ()
  | prev, e :: rest =>
      match verifyEntry sha256 prev e with
      | .error err => .error err
      | .ok () => verifyFrom (some e) rest

/-- Verify the chain end to end.  Signatures are not checked here. -/
def verify (chain : List Entry) : Except ChainError Unit := verifyFrom sha256 none chain

end

/-! ## The encoding is delimited -/

theorem delimited_hash : Delimited Hash.canon := by
  constructor
  intro a b r s h
  have fits : ∀ h : Hash, h.bytes.length < 2 ^ 64 := fun h => by
    rw [h.size]
    decide
  obtain ⟨he, hr⟩ := cut_octets (fits a) (fits b) h
  cases a
  cases b
  cases he
  exact ⟨rfl, hr⟩

/-- Variants with names that fit are told by their names. -/
theorem cut_variant {s t : String} {n m : Nat} {r r' : List UInt8} (hs : s.utf8ByteSize < 2 ^ 64)
    (ht : t.utf8ByteSize < 2 ^ 64) (h : variant s n ++ r = variant t m ++ r') :
    s = t ∧ record n ++ r = record m ++ r' := by
  unfold variant at h
  rw [List.append_assoc, List.append_assoc] at h
  exact cut_utf8 hs ht h

theorem delimited_scope : Delimited Scope.canon := by
  have name : ∀ {s t : String} {n m : Nat} {r r' : List UInt8}, s.utf8ByteSize < 2 ^ 64 →
      t.utf8ByteSize < 2 ^ 64 → s ≠ t → variant s n ++ r ≠ variant t m ++ r' :=
    fun hs ht hne h => hne (cut_variant hs ht h).1
  constructor
  intro a b r s h
  cases a with
  | plan =>
      cases b with
      | plan => exact ⟨rfl, List.append_cancel_left h⟩
      | step n | ack n =>
          simp only [Scope.canon, List.append_assoc] at h
          exact absurd h (name (by decide) (by decide) (by decide))
  | step n =>
      cases b with
      | plan | ack m =>
          simp only [Scope.canon, List.append_assoc] at h
          exact absurd h (name (by decide) (by decide) (by decide))
      | step m =>
          simp only [Scope.canon, List.append_assoc] at h
          obtain ⟨hn, hr⟩ := delimited_u32.cut (List.append_cancel_left h)
          exact ⟨congrArg _ hn, hr⟩
  | ack n =>
      cases b with
      | plan | step m =>
          simp only [Scope.canon, List.append_assoc] at h
          exact absurd h (name (by decide) (by decide) (by decide))
      | ack m =>
          simp only [Scope.canon, List.append_assoc] at h
          obtain ⟨hn, hr⟩ := delimited_u32.cut (List.append_cancel_left h)
          exact ⟨congrArg _ hn, hr⟩

theorem delimited_field (t : FieldType) : Delimited t.canon := by
  cases t with
  | u32 => exact delimited_u32
  | str => exact delimited_str
  | bool => exact delimited_bool
  | u32s => exact delimited_list delimited_u32
  | strs => exact delimited_list delimited_str
  | hash => exact delimited_hash
  | scope => exact delimited_scope

theorem delimited_fields (ts : List FieldType) : Delimited (Fields.canon ts) := by
  induction ts with
  | nil => exact ⟨fun h => ⟨rfl, h⟩⟩
  | cons t ts ih => exact (delimited_field t).both ih

namespace EventName

theorem ctorIdx_lt (n : EventName) : n.ctorIdx < 56 := by
  cases n <;> decide

theorem text_fits (n : EventName) : n.text.utf8ByteSize < 2 ^ 64 := by
  cases n <;> decide

/-- The bytes of a name as the digits of a number. -/
def numeral (s : String) : Nat := s.toByteArray.data.toList.foldl (fun n b => n * 256 + b.toNat) 0

/-- The names of the table are distinct. -/
theorem text_inj {n m : EventName} (h : n.text = m.text) : n = m := by
  -- each name is read as one number, and the numbers are compared
  have table : ((List.range 56).map fun i => numeral (ofNat i).text).Nodup := by decide +kernel
  have hi : n.ctorIdx = m.ctorIdx := by
    refine List.inj_on_of_nodup_map table (List.mem_range.mpr n.ctorIdx_lt)
      (List.mem_range.mpr m.ctorIdx_lt) ?_
    rw [ofNat_ctorIdx, ofNat_ctorIdx, h]
  rw [← ofNat_ctorIdx n, ← ofNat_ctorIdx m, hi]

end EventName

theorem delimited_event : Delimited Event.canon := by
  constructor
  rintro ⟨n, vs⟩ ⟨m, ws⟩ r s h
  simp only [Event.canon, List.append_assoc] at h
  obtain ⟨hname, h⟩ := cut_variant n.text_fits m.text_fits h
  obtain rfl := EventName.text_inj hname
  obtain ⟨hvs, hr⟩ := (delimited_fields n.fields).cut (List.append_cancel_left h)
  exact ⟨congrArg _ hvs, hr⟩

theorem delimited_body : Delimited Body.canon := by
  constructor
  intro b c r s h
  simp only [Body.canon, List.append_assoc] at h
  obtain ⟨hseq, h⟩ := delimited_u64.cut (List.append_cancel_left h)
  obtain ⟨hprev, h⟩ := delimited_hash.cut h
  obtain ⟨hat, h⟩ := delimited_u64.cut h
  obtain ⟨hplan, h⟩ := delimited_str.cut h
  obtain ⟨hinst, h⟩ := delimited_str.cut h
  obtain ⟨hhost, h⟩ := delimited_str.cut h
  obtain ⟨hevent, h⟩ := delimited_event.cut h
  obtain ⟨hlabels, hr⟩ := (delimited_list delimited_str).cut h
  refine ⟨?_, hr⟩
  cases b
  cases c
  simp_all

/-- Bodies that are written alike are alike. -/
theorem canon_inj {b c : Body} (h : b.canon = c.canon) : b = c := delimited_body.injective h

theorem bodyBytes_inj {e e' : Entry} (h : bodyBytes e = bodyBytes e') : e.body = e'.body :=
  canon_inj (List.append_cancel_left h)

/-! ## Linked chains -/

section
variable {sha256 : List UInt8 → Hash}

/-- What `verify` asks of an entry after the one before it. -/
structure Follows (sha256 : List UInt8 → Hash) (prev : Option Entry) (e : Entry) : Prop where
  seq : e.seq = (prev.map fun p => p.seq + 1).getD 1
  prevHash : e.prevHash = (prev.map Entry.hash).getD Hash.zero
  hash : hashOf sha256 e.prevHash e = e.hash

/-- Every entry follows the one before it. -/
def Linked (sha256 : List UInt8 → Hash) : Option Entry → List Entry → Prop
  | _, [] => True
  | prev, e :: rest => Follows sha256 prev e ∧ Linked sha256 (some e) rest

theorem verifyEntry_iff {prev : Option Entry} {e : Entry} :
    verifyEntry sha256 prev e = .ok () ↔ Follows sha256 prev e := by
  constructor
  · intro h
    unfold verifyEntry at h
    cases prev with
    | none =>
        by_cases hg : e.seq ≠ 1 ∨ e.prevHash ≠ Hash.zero
        · simp [hg] at h
        · by_cases hh : hashOf sha256 e.prevHash e = e.hash
          · rw [not_or, not_not, not_not] at hg
            exact ⟨hg.1, hg.2, hh⟩
          · simp [hg, hh] at h
    | some p =>
        by_cases hs : e.seq = p.seq + 1
        · by_cases hp : e.prevHash = p.hash
          · by_cases hh : hashOf sha256 e.prevHash e = e.hash
            · exact ⟨hs, hp, hh⟩
            · simp [hs, hp] at h
              exact absurd (by rw [hp]; exact h) hh
          · simp [hs, hp] at h
        · simp [hs] at h
  · rintro ⟨hs, hp, hh⟩
    unfold verifyEntry
    cases prev with
    | none =>
        have hg : ¬(e.seq ≠ 1 ∨ e.prevHash ≠ Hash.zero) := by
          rw [not_or, not_not, not_not]
          exact ⟨hs, hp⟩
        simp [hg, hh]
    | some p =>
        have hs' : e.seq = p.seq + 1 := hs
        have hp' : e.prevHash = p.hash := hp
        simp only [hs', hp', ne_eq, not_true_eq_false, if_false]
        rw [← hp', hh]
        simp

theorem verifyFrom_iff {prev : Option Entry} {chain : List Entry} :
    verifyFrom sha256 prev chain = .ok () ↔ Linked sha256 prev chain := by
  induction chain generalizing prev with
  | nil => simp [verifyFrom, Linked]
  | cons e rest ih =>
      unfold verifyFrom Linked
      cases h : verifyEntry sha256 prev e with
      | ok u => simp [← verifyEntry_iff, h, ih]
      | error err => simp [← verifyEntry_iff, h]

theorem verify_iff {chain : List Entry} : verify sha256 chain = .ok () ↔ Linked sha256 none chain :=
  verifyFrom_iff

theorem linked_append {prev : Option Entry} {c d : List Entry} :
    Linked sha256 prev (c ++ d) ↔
      Linked sha256 prev c ∧ Linked sha256 (c.getLast?.or prev) d := by
  induction c generalizing prev with
  | nil => simp [Linked]
  | cons e c ih =>
      rw [List.cons_append, Linked, Linked, ih, and_assoc]
      cases c with
      | nil => simp
      | cons e' c =>
          have hx := List.getLast?_eq_some_getLast (List.cons_ne_nil e' c)
          simp [List.getLast?_cons_cons, hx]

/-- The appended entry follows the last one of the chain. -/
theorem follows_append (chain : List Entry) (n : Note) :
    Follows sha256 chain.getLast? (append sha256 chain n) := by
  unfold append
  cases chain.getLast? with
  | none => exact ⟨rfl, rfl, rfl⟩
  | some p => exact ⟨rfl, rfl, rfl⟩

theorem linked_snoc {chain : List Entry} {e : Entry} (h : Linked sha256 none chain)
    (he : Follows sha256 chain.getLast? e) : Linked sha256 none (chain ++ [e]) := by
  refine linked_append.mpr ⟨h, ?_⟩
  rw [Option.or_none]
  exact ⟨he, trivial⟩

end

end Rescind.Journal
