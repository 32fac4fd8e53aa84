/-
# `Rescind.Surface.Expand` — a plan clause as a plan for one host

The statements of a body are expanded in order, each in the scope the ones before it
left: what a step is named is in scope after it, wherever it stands.  A call that
names no op may name a protocol, and is what the protocol's implementation for the
host's roles expands to, or its default; nothing keeps these from calling each other,
so the expansion is given a depth.

Slots are filled last, in the scope the whole body left.

Left out: a step's arguments as they are shown, and what equivalence a probe declares.
-/
import Mathlib.Data.List.Sort
import Rescind.Surface.Call

namespace Rescind.Expand

open Ast Static
open Lib (Assoc Said)

namespace Context

variable {n : Nat} (C : Context n)

/-! ## Guards -/

mutual

/-- A comparison against `:unknown` is reported. -/
def checkUnknownCompare (m : Fin n) : Expr → Told Unit
  | .binary range op lhs rhs => do
      if (op = "==" ∨ op = "!=") ∧
          (atomOf (.expr lhs) = some "unknown" ∨ atomOf (.expr rhs) = some "unknown") then
        C.report m range .e0108
          "comparison against :unknown; ask defined?() or unknown?() instead"
      checkUnknownCompare m lhs
      checkUnknownCompare m rhs
  | .unary _ _ e => checkUnknownCompare m e
  | .paren _ e => checkUnknownCompare m e
  | .call _ _ args => checkUnknownCompares m args
  | .list _ args => checkUnknownCompares m args
  | _ => pure ()

def checkUnknownArg (m : Fin n) : Arg → Told Unit
  | .expr e => checkUnknownCompare m e
  | .kw _ => pure ()

def checkUnknownCompares (m : Fin n) : List Arg → Told Unit
  | [] => pure ()
  | a :: as => do
      checkUnknownArg m a
      checkUnknownCompares m as

end

def guardName (m : Fin n) : Expr → Option String
  | .ref _ path => some (dotted path)
  | .call _ path _ => some (dotted path)
  | e => C.src m e.range

/-- `force: never`. -/
def forceNever (args : List Arg) : Bool :=
  match kwv args "force" with
  | some (.expr (.ref _ path)) => path = ["never"]
  | _ => false

/-- An assert's guard, or a when's. -/
def guardOf (m : Fin n) (args : List Arg) (range : Range) : Told (Option Guard) :=
  match firstExpr args with
  | none => do
      C.report m range .e0101 "a guard is missing"
      pure none
  | some e => do
      C.checkUnknownCompare m e
      let name ← Said.ofOption (C.guardName m e)
      pure (some ⟨name, .yes, forceNever args⟩)

def onLapse (args : List Arg) : OnLapse :=
  if (kwv args "on_lapse").bind atomOf = some "hold" then .hold else .revert

def probeName (m : Fin n) (path : List String) (range : Range) : Told (Option String) :=
  match C.lookup m "defprobe" path with
  | d :: _ => pure (some d.2.name)
  | [] => do
      C.report m range .e0102 ("unknown probe " ++ dotted path)
      pure none

/-! ## Repeats -/

/-- A number of a `repeat`; reported where there is none. -/
def repeatNumber (m : Fin n) (range : Range) (message : String) : Option Arg → Told Nat
  | some (.expr (.lit _ (.int k))) => pure (C.narrow k)
  | _ => do
      C.report m range .e0106 message
      pure 0

/-- The list a `repeat over:` goes through. -/
def overList (m : Fin n) (k : Kw) : Told String :=
  match k.value with
  | .expr (.ref _ path) => pure (dotted path)
  | .expr (.list _ items) => do
      let texts ← Said.ofOption (items.mapM fun a => C.src m a.range)
      if ¬texts.Nodup then
        C.report m k.range .e0113
          "repeat over: a list with a repeated member is not set-valued"
      Said.ofOption (C.src m k.value.range)
  | .expr e => do
      C.report m e.range .e0113 "repeat over: needs a set-valued fact or a list"
      Said.ofOption (C.src m e.range)
  | .kw k => Said.ofOption (C.src m k.range)

def repeatForm (m : Fin n) (args : List Arg) (range : Range) : Told RepeatForm :=
  match kw args "over" with
  | some k => do
      let list ← C.overList m k
      let max ← C.repeatNumber m range
        "repeat over: without max: is unbounded; give the literal cap the bounded form needs"
        (kwv args "max")
      pure (.over list max true)
  | none =>
      .count <$> C.repeatNumber m range "repeat needs a literal count or over: with max:" args.head?

/-! ## Protocols -/

/-- The implementations of a protocol, each with its role. -/
def implsOf (m : Fin n) (name : String) : List (String × Def) :=
  (C.defsNamed m "defimpl" name).filterMap fun d =>
    ((d.2.params.find? fun k => k.name = "for").bind fun k => atomOf k.value).map
      fun role => (role, d.2)

/-- A protocol with an inverse: the inverse is defined, and implemented for every role. -/
def checkInverse (m : Fin n) (proto : Def) : Told Unit :=
  match (proto.params.find? fun k => k.name = "inverse").bind fun k => atomOf k.value with
  | none => pure ()
  | some inv => do
      if (C.defs m "defprotocol").all fun d => d.2.name ≠ inv then
        C.report m proto.nameRange .e0102
          ("protocol " ++ proto.name ++ " names an inverse " ++ inv ++ " that is not defined")
      let _ ← Said.collect (fun r => do
        if ¬(C.implsOf m inv).any fun r' => r'.1 = r.1 then
          C.report m r.2.nameRange .e0103 ("defimpl :" ++ proto.name ++ " for :" ++ r.1 ++
            " has no paired inverse defimpl :" ++ inv ++ " for :" ++ r.1)
        pure ([] : List Unit)) (C.implsOf m proto.name)

/-- What a call of a protocol stands for: the implementation for the host's roles, else
the default with the call's keywords and name. -/
def expansion (m : Fin n) (owner : Contract) (s : Step) (proto : Def) : Option (List Stmt) :=
  match (C.implsOf m proto.name).find? fun r => r.1 ∈ owner.roles with
  | some r => some r.2.body
  | none =>
      match ((lines proto.body).find? fun l => l.keyword = "default").bind fun l => l.args.head? with
      | some (.expr (.call range path args)) =>
          some [.step ⟨s.range, .call range path args, s.kws, s.alias_⟩]
      | _ => none

/-- The protocol a step calls, where it names one and no op. -/
def protocolOf (m : Fin n) (s : Step) : Option Def :=
  match s.call with
  | .call _ path _ =>
      if (C.lookup m "defop" path).isEmpty then
        ((C.lookup m "defprotocol" path).head?).map Prod.snd
      else none
  | _ => none

/-! ## Items -/

def planOpts : List String :=
  ["gate", "wane", "backstop", "mode", "strictness", "exclusivity", "fires_by_construction",
    "require"]

/-- The guards of a preflight. -/
def preflight (body : List Stmt) : List Guard :=
  body.filterMap fun
    | .line l => some ⟨l.keyword, .yes, false⟩
    | .step ⟨_, .call _ path _, _, _⟩ => some ⟨dotted path, .yes, false⟩
    | _ => none

/-- What expands statements further in. -/
abbrev Go := List Stmt → Scope → Told (List Item × Scope)

variable (depth : Nat) (m : Fin n) (owner : Contract) (go : Go)

def expandProtocol (s : Step) (proto : Def) (scope : Scope) : Told (List Item × Scope) := do
  C.checkInverse m proto
  match C.expansion m owner s proto with
  | some body => go body scope
  | none => do
      C.report m s.range .e0112 ("no defimpl of " ++ proto.name ++ " for the roles of " ++
        owner.name ++ " (" ++ String.intercalate ", " owner.roles ++ ") and no default")
      pure ([], scope)

def expandStep (s : Step) (knell : Bool) (scope : Scope) : Told (List Item × Scope) :=
  match C.protocolOf m s with
  | some proto => C.expandProtocol m owner go s proto scope
  | none => do
      let r ← C.expandStepOne depth m s owner scope knell
      pure (r.1.toList, r.2)

/-- The steps of a pipeline. -/
def pipeline : List Step → Scope → Told (List Item × Scope)
  | [], scope => pure ([], scope)
  | s :: ss, scope => do
      let r ← C.expandStep depth m owner go s false scope
      let rest ← pipeline ss r.2
      pure (r.1 ++ rest.1, rest.2)

def observe (call : Expr) (alias_ : Option String) (range : Range) (scope : Scope) :
    Told (List Item × Scope) := do
  let probe ← match call with
    | .call _ path _ => C.probeName m path range
    | _ => pure none
  match probe, alias_ with
  | some p, some a => pure ([.observe p a], { scope with aliases := scope.aliases.insert a [] })
  | _, _ => pure ([], scope)

/-- Names the arms of a when both bind, to different outputs. -/
def checkArms (range : Range) (before then_ else_ : Assoc String (List Output)) : Told Unit := do
  let _ ← Said.collect (fun p => do
    if before.contains p.1 = false ∧ (else_.get p.1).any (fun outs => outs ≠ p.2) then
      C.report m range .e0114
        ("the when's arms bind " ++ p.1 ++ " to outputs of different kinds")
    pure ([] : List Unit)) then_

/-- What either arm binds, the second before the first. -/
def mergeArms (then_ else_ : Assoc String (List Output)) : Assoc String (List Output) :=
  then_.foldl (fun acc p => if acc.contains p.1 then acc else Assoc.insert acc p.1 p.2) else_

/-- One statement, and the scope after it. -/
def expandStmt (scope : Scope) : Stmt → Told (List Item × Scope)
  | .line l => do
      if l.keyword ∉ planOpts then
        C.report m l.range .e0101
          ("`" ++ l.keyword ++ "` is not an item; a step is a call, `" ++ l.keyword ++ "()`")
      pure ([], scope)
  | .step s => C.expandStep depth m owner go s false scope
  | .pipeline ss => C.pipeline depth m owner go ss scope
  | .knell s => C.expandStep depth m owner go s true scope
  | .block range keyword body =>
      if keyword = "par" then do
        let r ← go body scope
        pure ([.par r.1], r.2)
      else if keyword = "preflight" then pure ([.preflight (preflight body)], scope)
      else do
        C.report m range .e0101 ("`" ++ keyword ++ "` is not an item")
        pure ([], scope)
  | .slot _ name => pure ([.slot name], scope)
  | .observe range call alias_ => C.observe m call alias_ range scope
  | .assert range args => do
      let g ← C.guardOf m args range
      pure (g.toList.map fun g => .assert g (kwDuration args "window") (onLapse args), scope)
  | .repeat_ range args var body => do
      let form ← C.repeatForm m args range
      let r ← go body { scope with loopVars := scope.loopVars ++ [var.getD "i"] }
      pure ([.repeat_ form (var.getD "i") r.1], { r.2 with loopVars := scope.loopVars })
  | .when_ range args then_ else_ => do
      match ← C.guardOf m args range with
      | none => pure ([], scope)
      | some g => do
          let t ← go then_ scope
          let e ← go (else_.getD []) { t.2 with aliases := scope.aliases }
          C.checkArms m range scope.aliases t.2.aliases e.2.aliases
          pure ([.when_ g (kwDuration args "window") (onLapse args) t.1 e.1],
            { e.2 with aliases := mergeArms t.2.aliases e.2.aliases })
  | .contribution range _ _ _ => do
      C.report m range .e0101 "a slot contribution belongs in a defrole"
      pure ([], scope)
  | .def_ range => do
      C.report m range .e0101 "a definition belongs at the top of the file"
      pure ([], scope)
  | .import_ range => do
      C.report m range .e0101 "an import belongs at the top of the file"
      pure ([], scope)

/-- Statement after statement, further in by `go`. -/
def sequence : Go
  | [], scope => pure ([], scope)
  | st :: sts, scope => do
      let r ← C.expandStmt depth m owner go scope st
      let rest ← sequence sts r.2
      pure (r.1 ++ rest.1, rest.2)

/-- The items of a body, expanded this deep. -/
def expandItems : Nat → Go
  | 0 => fun _ _ => ⟨none⟩
  | k + 1 => C.sequence depth m owner (expandItems k)

/-! ## Slots -/

/-- What the host's roles contribute to a slot, by priority and then by role. -/
def contributions (slot : String) : List Stmt :=
  let all := (C.defs m "defrole").flatMap fun r =>
    if r.2.name ∈ owner.roles then r.2.body.filterMap fun
      | .contribution _ name priority item =>
          if name = slot then some (priority.getD 100, r.2.name, item) else none
      | _ => none
    else []
  (all.insertionSort fun a b => a.1 < b.1 ∨ a.1 = b.1 ∧ a.2.1 ≤ b.2.1).map fun c => c.2.2

/-- One after the other, each as a body of its own. -/
def eachAlone : Go
  | [], scope => pure ([], scope)
  | st :: sts, scope => do
      let r ← go [st] scope
      let rest ← eachAlone sts r.2
      pure (r.1 ++ rest.1, rest.2)

mutual

/-- A slot becomes what is contributed to it; one that nothing is stays a slot. -/
def fillItem (scope : Scope) : Item → Told (List Item × Scope)
  | .slot name =>
      let cs := C.contributions m owner name
      if cs.isEmpty then pure ([.slot name], scope) else eachAlone go cs scope
  | .par children => do
      let r ← fillSlots scope children
      pure ([.par r.1], r.2)
  | .repeat_ form var body => do
      let r ← fillSlots scope body
      pure ([.repeat_ form var r.1], r.2)
  | .when_ g window lapse then_ else_ => do
      let t ← fillSlots scope then_
      let e ← fillSlots t.2 else_
      pure ([.when_ g window lapse t.1 e.1], e.2)
  | it => pure ([it], scope)

def fillSlots (scope : Scope) : List Item → Told (List Item × Scope)
  | [] => pure ([], scope)
  | it :: its => do
      let r ← fillItem scope it
      let rest ← fillSlots r.2 its
      pure (r.1 ++ rest.1, rest.2)

end

end Context

end Rescind.Expand
