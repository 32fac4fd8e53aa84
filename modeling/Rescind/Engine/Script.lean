/-
# `Rescind.Engine.Script` — worlds that follow a script

An outside that is told what each run of a body answers, what facts and probes
read after so many runs, and which journal entries a sink refuses; everything
else goes well.  It counts runs, so a script can let the process die inside a
given one.  The counterexamples of this development are runs of small sites
under such a script.

**Proved here.**

    a script without deaths and refusals accepts every write    (`Script.accepts`)
-/
import Rescind.Turn.Machine

namespace Rescind

open Lib

/-- What a scripted world answers. -/
structure Script where
  /-- The answer to the `n`-th run; none: the process dies in it. -/
  run : Nat → Option (Except String ExecOutput) := fun _ => some (.ok ⟨[]⟩)
  /-- What a fact reads after `n` runs. -/
  fact : Nat → String → Option Bytes := fun _ _ => none
  /-- What a probe answers after `n` runs. -/
  probe : Nat → String → Tri := fun _ _ => .yes
  /-- The entries a sink refuses. -/
  refuses : Entry → Bool := fun _ => false

namespace Script

/-- The answer to a query after `n` runs. -/
def answer (s : Script) (n : Nat) : (q : Query) → Option (Reply q)
  | .now => some (⟨0⟩ : Instant)
  | .nonce => some ""
  | .write _ => some (.ok ())
  | .read _ => some (.ok ())
  | .sign _ => some (.ok ())
  | .deliver e => some (if s.refuses e then [("sink", "full")] else [])
  | .run .. => s.run n
  | .observe _ _ name _ => some (.ok ⟨"", some (s.probe n name)⟩)
  | .readFact _ _ shape => some (.ok (s.fact n shape))
  | .bootstrapState .. => some (.ok ⟨true, true, true, true, true⟩)
  | .clockNow .. => some (.ok none)
  | .dirCreate .. => some (.ok ())
  | .dirRemove .. => some (.ok ())
  | .dirList .. => some (.ok [])
  | .putFile .. => some (.ok ())
  | .replaceFile .. => some (.ok ())
  | .getFile .. => some (.error "no such file")
  | .removeFile .. => some (.ok ())
  | .hostLock .. => some (.ok ())
  | .schedInstall .. => some (.ok ())
  | .schedPresent .. => some (.ok .present)
  | .schedArm .. => some (.ok ())
  | .schedRearm .. => some (.ok ())
  | .schedDisarm .. => some (.ok ())
  | .authenticators => some (.ok [])
  | .verify _ => some (.ok ⟨true, ""⟩)
  | .secret _ => some (.ok "")
  | .offer .. => some (.ok true)
  | .take .. => some none
  | .dropFor .. => some []
  | .expireHeld .. => some []
  | .dropAll _ => some []
  | .notify .. => some ()

/-- The outside of a script: its state is the number of runs so far. -/
def outside (s : Script) : Outside Nat where
  answer n q := (s.answer n q, match q with
    | .run .. => n + 1
    | _ => n)

/-- A site under a script: one local executor, one scheduler. -/
def setting (s : Script) : Setting Nat where
  outside := s.outside
  executors := [(.local_, ⟨true, true⟩)]
  schedulers := ["cron"]
  approval := none
  acceptors := []
  hasSource := false
  controllerOs := "linux"
  controllerId := "site"
  sha256 b := String.ofList (b.map fun c => Char.ofNat c.toNat)
  paramsDigest _ := ⟨['0', '0', '0', '0', '0', '0', '0', '0'], rfl⟩
  paramsHash _ := ""
  contractHash _ := ""
  gateHash _ := ""
  planHash _ := ""
  requestDigest _ := ""
  scopedDigest _ _ := ""
  renderArtifact _ _ _ _ := .error "no template"

theorem accepts (s : Script) (hr : ∀ n, (s.run n).isSome = true) (hd : ∀ e, s.refuses e = false) :
    Accepts s.setting where
  alive o q := by
    cases q <;> first | rfl | exact hr o
  write o sl x h := (Option.some.inj h).symm
  sign o e x h := (Option.some.inj h).symm
  deliver o e x h := by
    rw [← Option.some.inj h, hd e]
    rfl

end Script

/-! ## Small sites -/

/-- A host the local executor reaches. -/
def smallHost (name : String) : Host :=
  { record := ⟨name, "linux", ["local"], true, true, none⟩
    address := "10.0.0.1" }

/-- A site of hosts like it. -/
def smallSite (hosts : List String) : Site where
  hosts := hosts.map fun h => (smallHost h).record
  transports := ["local"]
  authenticators := []
  maxWait := none
  schedulerPresent := []
  secretsDeliverTo := []
  approval := none

/-- A temporary plan for one host. -/
def smallPlan (id owner : String) (body : List Item) : PlanIr where
  site := smallSite [owner]
  requester := "ops"
  plan := { id, owner, wane := some ⟨3600⟩, body }

/-- A step that owns one file and writes it. -/
def ownFile (path : String) (refusal : Refusal := .revert) : Item :=
  .step { op := {
    id := "put"
    footprint := [{ kind := .owned, shape := "file:" ++ path }]
    do_ := [.write ⟨"file:" ++ path, none⟩ (.lit "x")]
    refusal } }

/-- The record no verb has loaded yet. -/
def noRecord : InstanceRecord :=
  { id := "", ir := smallPlan "" "" [], params := [], state := .unchecked, permanent := false
    rehearsal := false }

/-- A site as it begins. -/
def smallWorld (hosts : List String) : World Nat :=
  { out := 0, hosts := hosts.map fun h => (h, smallHost h), hand := noRecord }

theorem begins_smallWorld (hosts : List String) : (smallWorld hosts).Begins :=
  ⟨rfl, rfl, rfl, rfl, rfl⟩

end Rescind
