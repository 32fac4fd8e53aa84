/-
# `Rescind.Control.Identity` — who a connection is

The control channel knows a connection by its peer's account, as the operating
system reports it.  A site declares operators, each a name for an account and the
plans it is for, and registrars, each with the hooks it may register.

**Proved here.**

    an operator is declared for the peer's account, or the site declares none
                                                            (`matches_of_identify`)
    a registrar is, and may register the hook               (`allowed_of_registrarFor`)
-/
import Mathlib.Data.List.Basic

namespace Rescind.Control

structure ControlError where
  code : String
  message : String
  deriving DecidableEq, Repr

/-- The connecting process: its account, whether that is the daemon's own, and
its uid where the platform has one. -/
structure Peer where
  user : Option String
  owner : Bool
  uid : Option Nat
  deriving DecidableEq, Repr

/-- How a peer with no account name is named in a refusal. -/
def Peer.describe (p : Peer) : String :=
  match p.user, p.uid with
  | some u, _ => u
  | none, some id => "uid " ++ toString id
  | none, none => "an unnamed account"

inductive UserSpec where
  | socketOwner
  | name (n : String)
  deriving DecidableEq, Repr

def UserSpec.matches (u : UserSpec) (p : Peer) : Bool :=
  match u with
  | .socketOwner => p.owner
  | .name n => p.user = some n

structure Operator where
  name : String
  user : UserSpec
  /-- Plan ids, or `all`. -/
  operatorFor : List String
  admin : Bool
  deriving DecidableEq, Repr

def Operator.admitsPlan (o : Operator) (plan : String) : Bool :=
  o.operatorFor.any fun p => p = "all" || p = plan

structure RegistrarDecl where
  name : String
  user : UserSpec
  mayRegister : List String
  deriving DecidableEq, Repr

/-- The declared operators and registrars of a site. -/
structure Operators where
  identities : List Operator
  registrars : List RegistrarDecl
  /-- With no operators block, every peer is the socket owner's `dry-run`. -/
  dryRun : Bool

namespace Operators

def dryRunOperator : Operator := ⟨"dry-run", .socketOwner, ["all"], true⟩

/-- `", "` between them. -/
def listed (names : List String) : String :=
  String.intercalate ", " (names.map fun n => ":" ++ n)

/-- The operator a peer is, given the identity its hello named, or none: the sole
operator its account maps to. -/
def identify (ops : Operators) (peer : Peer) (requested : Option String) :
    Except ControlError Operator :=
  if ops.identities.isEmpty && ops.dryRun then .ok dryRunOperator
  else
    let mine := ops.identities.filter fun o => o.user.matches peer
    let who := peer.describe
    match requested with
    | some name =>
        match mine.find? fun o => o.name = name with
        | some o => .ok o
        | none => .error ⟨"R0503", who ++ " is not declared as identity :" ++ name ++
            "; group membership grants a connection, never an identity"⟩
    | none =>
        match mine with
        | [one] => .ok one
        | [] => .error ⟨"R0503", who ++
            " maps to no declared operator; group membership grants a connection, never an identity"⟩
        | many => .error ⟨"R0503", who ++ " maps to " ++ toString many.length ++ " identities (" ++
            listed (many.map Operator.name) ++ "); the hello must name one"⟩

/-- The registrar that may register a hook from this peer. -/
def registrarFor (ops : Operators) (peer : Peer) (hook : String) :
    Except ControlError RegistrarDecl :=
  let who := peer.describe
  let mine := ops.registrars.filter fun r => r.user.matches peer
  if mine.isEmpty then .error ⟨"R0505", who ++ " is not a declared registrar"⟩
  else
    match mine.find? fun r => r.mayRegister.any fun n => n = hook with
    | some r => .ok r
    | none => .error ⟨"R0505", "registrar " ++ listed (mine.map RegistrarDecl.name) ++
        " may not register hook :" ++ hook ++ " (may_register: [" ++
        listed (mine.flatMap RegistrarDecl.mayRegister) ++ "])"⟩

variable {ops : Operators} {peer : Peer}

/-- The identity a hello asks for is one the peer's own account has. -/
theorem matches_of_identify {requested : Option String} {o : Operator}
    (h : ops.identify peer requested = .ok o) :
    o ∈ ops.identities ∧ o.user.matches peer = true ∨
      ops.identities = [] ∧ ops.dryRun = true ∧ o = dryRunOperator := by
  unfold identify at h
  split at h
  next hdry =>
    simp only [Bool.and_eq_true, List.isEmpty_iff] at hdry
    cases h
    exact .inr ⟨hdry.1, hdry.2, rfl⟩
  next =>
    have mem : ∀ o, o ∈ ops.identities.filter (fun o => o.user.matches peer) →
        o ∈ ops.identities ∧ o.user.matches peer = true := fun _ => List.mem_filter.mp
    cases requested with
    | some name =>
        simp only at h
        split at h
        next o' ho =>
          cases h
          exact .inl (mem _ (List.mem_of_find?_eq_some ho))
        next => cases h
    | none =>
        simp only at h
        split at h
        next one ho =>
          cases h
          exact .inl (mem _ (ho ▸ List.mem_cons_self))
        next => cases h
        next => cases h

theorem allowed_of_registrarFor {hook : String} {r : RegistrarDecl}
    (h : ops.registrarFor peer hook = .ok r) :
    r ∈ ops.registrars ∧ r.user.matches peer = true ∧ hook ∈ r.mayRegister := by
  unfold registrarFor at h
  simp only at h
  split at h
  next => cases h
  next =>
    split at h
    next r' hr =>
      cases h
      have hmem := List.mem_filter.mp (List.mem_of_find?_eq_some hr)
      have hallow : (r.mayRegister.any fun n => n = hook) = true := by
        simpa using List.find?_some hr
      refine ⟨hmem.1, hmem.2, ?_⟩
      obtain ⟨n, hn, he⟩ := List.any_eq_true.mp hallow
      exact of_decide_eq_true he ▸ hn
    next => cases h

end Operators

end Rescind.Control
