/-
# `Rescind.Core.Gates` — weighted thresholds over factors

A gate is satisfied along a path: a choice of factors whose weights reach the
threshold, none of them superfluous, and for each a way of satisfying it.

Masks and sums are unbounded here, and so they are for the check and the engine,
which ask `gateReport` and `gateSatisfiedBy`.  A gate of 64 factors or more, or whose
weights pass 32 bits, is outside of what is said of them: what the machine does there
is in `Rescind.Core.Thresholds`.
-/
import Mathlib.Algebra.Ring.Nat
import Rescind.Core.Interference

namespace Rescind

open Lib

/-- One way of satisfying a gate: the authenticators it uses, which of them are
human, and the longest wait it needs. -/
structure GatePath where
  auths : List String
  humans : List String
  wait : Option Duration
  deriving DecidableEq, Repr

def Factor.weight : Factor → Nat
  | .auth _ w | .humans w | .group _ w | .wait _ w => w

def mergeWait : Option Duration → Option Duration → Option Duration
  | none, x => x
  | x, none => x
  | some x, some y => some ⟨max x.seconds y.seconds⟩

def GatePath.merge (p q : GatePath) : GatePath :=
  ⟨nub (p.auths ++ q.auths), nub (p.humans ++ q.humans), mergeWait p.wait q.wait⟩

/-- The factors a mask chooses. -/
def chosen {α : Type} (mask : Nat) (xs : List α) : List α :=
  (xs.zipIdx.filter fun p => mask.testBit p.2).map Prod.fst

/-- The paths of a threshold, from the weight and the paths of each factor:
over every minimal choice that reaches it, one path per chosen factor. -/
def thresholdPaths (n : Nat) (factors : List (Nat × List GatePath)) : List GatePath :=
  (List.range (2 ^ factors.length)).flatMap fun mask =>
    let picked := chosen mask factors
    let total := (picked.map Prod.fst).sum
    if total < n then []
    else if !(picked.all (fun f => total - f.1 < n) || picked.isEmpty) then []
    else picked.foldr
      (fun f acc => f.2.flatMap fun p => acc.map fun q => p.merge q) [⟨[], [], none⟩]

mutual

def factorPaths (auths : List Authenticator) : Factor → List GatePath
  | .auth id _ =>
      match auths.find? fun a => a.id = id with
      | some a => [⟨[id], if a.human then [id] else [], none⟩]
      | none => []
  | .humans _ => (auths.filter Authenticator.human).map fun a => ⟨[a.id], [a.id], none⟩
  | .group expr _ => satisfyingPaths auths expr
  | .wait duration _ => [⟨[], [], some duration⟩]

def factorsPaths (auths : List Authenticator) : List Factor → List (Nat × List GatePath)
  | [] => []
  | f :: fs => (f.weight, factorPaths auths f) :: factorsPaths auths fs

/-- Every satisfying path of a gate against the binding's authenticators. -/
def satisfyingPaths (auths : List Authenticator) : GateExpr → List GatePath
  | .single f => factorPaths auths f
  | .thresh n factors => thresholdPaths n (factorsPaths auths factors)

end

/-- What a check reports of a gate. -/
structure GateReport where
  satisfiable : Bool
  zeroHumanPath : Bool
  deriving DecidableEq, Repr

def gateReport (auths : List Authenticator) (g : GateExpr) : GateReport :=
  let ps := satisfyingPaths auths g
  ⟨!ps.isEmpty, ps.any fun p => p.humans.isEmpty⟩

/-- Whether a gate is satisfied now: a path every one of whose authenticators
has a proof and whose wait has elapsed. -/
def gateSatisfiedBy (auths : List Authenticator) (g : GateExpr) (proofs : List String)
    (elapsed : Duration) : Bool :=
  (satisfyingPaths auths g).any fun p =>
    p.auths.all (fun id => proofs.contains id) &&
      match p.wait with
      | none => true
      | some w => w.seconds ≤ elapsed.seconds

mutual

def namedFactor : Factor → List String
  | .auth id _ => [id]
  | .group expr _ => namedGate expr
  | _ => []

def namedFactors : List Factor → List String
  | [] => []
  | f :: fs => namedFactor f ++ namedFactors fs

def namedGate : GateExpr → List String
  | .single f => namedFactor f
  | .thresh _ factors => namedFactors factors

end

/-- Authenticator ids the gate names that the binding does not publish. -/
def unknownAuthenticators (auths : List Authenticator) (g : GateExpr) : List String :=
  nub ((namedGate g).filter fun i => !auths.any fun a => a.id = i)

mutual

def factorCountsRequester (requester : String) (human : Bool) : Factor → Bool
  | .auth id _ => id = requester
  | .humans _ => human
  | .group expr _ => gateCountsRequester requester human expr
  | .wait _ _ => false

def factorsCountRequester (requester : String) (human : Bool) : List Factor → Bool
  | [] => false
  | f :: fs => factorCountsRequester requester human f || factorsCountRequester requester human fs

def gateCountsRequester (requester : String) (human : Bool) : GateExpr → Bool
  | .single f => factorCountsRequester requester human f
  | .thresh _ factors => factorsCountRequester requester human factors

end

/-- Whether the requester's identity is an authenticator the gate names. -/
def countsRequester (auths : List Authenticator) (requester : String) (g : GateExpr) : Bool :=
  gateCountsRequester requester (auths.any fun a => a.id = requester && a.human) g

end Rescind
