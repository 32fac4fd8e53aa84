/-
# `Rescind.Engine.Footprint` — resolution, regions, markers and drift

What the engine computes without asking anything: a body with its references
resolved, an op with its shapes instantiated, the fenced region of a file, the
facts of a footprint, the drift decision for one fact, and the body a
`:restore` undo runs.
-/
import Rescind.Engine.World

namespace Rescind

open Lib

/-! ## Resolution -/

/-- Everything a reference may resolve to at one step. -/
structure Env where
  params : Vars
  outputs : Vars
  controller : Vars
  facts : Vars := []
  secrets : Vars := []
  deriving DecidableEq, Repr

/-- A reference nothing binds, by its label. -/
def unbound (name : String) : String := "nothing binds " ++ name

def resolveRef (r : Ref) (host : Host) (env : Env) : Except String Resolved :=
  let found : Option Resolved := match r with
    | .param n => (env.params.get n).map fun t => ⟨t, false⟩
    | .host f => (host.field f).map fun t => ⟨t, false⟩
    | .output step name secret => (env.outputs.get (step ++ "." ++ name)).map fun t => ⟨t, secret⟩
    | .controller n => (env.controller.get n).map fun t => ⟨t, false⟩
    | .fact n => (env.facts.get n).map fun t => ⟨t, false⟩
    | .secret n => (env.secrets.get n).map fun t => ⟨t, true⟩
  match found with
  | some v => .ok v
  | none => .error (unbound r.label)

/-- A value by the label written in a shape. -/
def byLabel (label : List Char) (host : Host) (env : Env) : Option String :=
  match Text.dropPrefix "host.".toList label with
  | some f => host.field (String.ofList f)
  | none =>
      let l := String.ofList label
      (env.controller.get l).or <| (env.outputs.get l).or <|
        (env.params.get l).or (env.facts.get l)

/-- A shape with every braced label replaced by the value it names.  Each round
takes one brace off the text, so its length bounds the rounds. -/
def instantiateFrom (host : Host) (env : Env) : Nat → List Char → Except String (List Char)
  | 0, rest => .ok rest
  | fuel + 1, rest =>
      match Text.cut '\x7b' rest with
      | none => .ok rest
      | some (lit, after) =>
          match Text.cut '\x7d' after with
          | none => .ok rest
          | some (label, rest) =>
              match byLabel label host env with
              | none => .error (unbound (String.ofList label))
              | some v => (instantiateFrom host env fuel rest).map fun r => lit ++ v.toList ++ r

def instantiate (shape : String) (host : Host) (env : Env) : Except String String :=
  if !runtimeBound shape then .ok shape
  else (instantiateFrom host env shape.length shape.toList).map String.ofList

/-- A shape with no placeholder stands for itself. -/
theorem instantiate_of_static {s : String} {host : Host} {env : Env}
    (h : runtimeBound s = false) : instantiate s host env = .ok s := by
  unfold instantiate
  rw [h]
  rfl

/-- `f` over a list, or its first error. -/
def mapE {α β : Type} (f : α → Except String β) : List α → Except String (List β)
  | [] => .ok []
  | x :: xs => do
      let y ← f x
      let ys ← mapE f xs
      pure (y :: ys)

theorem mapE_getElem? {α β : Type} {f : α → Except String β} {xs : List α} {ys : List β}
    (h : mapE f xs = .ok ys) {k : Nat} {x : α} (hx : xs[k]? = some x) :
    ∃ y, ys[k]? = some y ∧ f x = .ok y := by
  induction xs generalizing ys k with
  | nil => cases hx
  | cons a as ih =>
      unfold mapE at h
      cases ha : f a with
      | error e =>
          rw [ha] at h
          cases h
      | ok b =>
          rw [ha] at h
          cases hs : mapE f as with
          | error e =>
              rw [hs] at h
              cases h
          | ok bs =>
              rw [hs] at h
              cases h
              cases k with
              | zero =>
                  cases hx
                  exact ⟨b, rfl, ha⟩
              | succ k => exact ih hs hx

/-- An op with its footprint and undo preconditions instantiated: the facts one
application of it touches. -/
def concreteOp (o : Op) (host : Host) (env : Env) : Except String Op := do
  let footprint ← mapE (fun e => do
    let shape ← instantiate e.shape host env
    pure { e with shape }) o.footprint
  let undo ← match o.undo with
    | .computed body pre => do pure (.computed body (← mapE (instantiate · host env) pre))
    | .compensate body pre => do pure (.compensate body (← mapE (instantiate · host env) pre))
    | u => pure u
  pure { o with footprint, undo }

/-- An entry with no placeholder is as the plan has it. -/
theorem concreteOp_static {o c : Op} {host : Host} {env : Env} (h : concreteOp o host env = .ok c)
    {k : Nat} {e : FootprintEntry} (he : o.footprint[k]? = some e)
    (hs : runtimeBound e.shape = false) : c.footprint[k]? = some e := by
  unfold concreteOp at h
  cases hf : mapE (fun e => do
      let shape ← instantiate e.shape host env
      pure { e with shape }) o.footprint with
  | error err =>
      rw [hf] at h
      cases h
  | ok fp =>
      obtain ⟨e', hk, he'⟩ := mapE_getElem? hf he
      rw [instantiate_of_static hs] at he'
      cases he'
      have hc : c.footprint = fp := by
        rw [hf] at h
        revert h
        cases o.undo with
        | computed body pre =>
            intro h
            cases hp : mapE (instantiate · host env) pre <;> simp only [bind, Except.bind, hp] at h <;>
              cases h
            rfl
        | compensate body pre =>
            intro h
            cases hp : mapE (instantiate · host env) pre <;> simp only [bind, Except.bind, hp] at h <;>
              cases h
            rfl
        | _ =>
            intro h
            cases h
            rfl
      rw [hc]
      exact hk

def resolveTemplate (t : Template) (host : Host) (env : Env) : Except String Resolved :=
  match t with
  | [] => .ok ⟨"", false⟩
  | .lit s :: t => do
      let r ← resolveTemplate t host env
      pure ⟨s ++ r.text, r.secret⟩
  | .ref x :: t => do
      let v ← resolveRef x host env
      let r ← resolveTemplate t host env
      pure ⟨v.text ++ r.text, v.secret || r.secret⟩

def resolveValue (v : Value) (host : Host) (env : Env) : Except String Resolved :=
  match v with
  | .lit s => .ok ⟨s, false⟩
  | .ref r => resolveRef r host env
  | .template t => resolveTemplate t host env

def resolvePairs (kvs : List (String × Value)) (host : Host) (env : Env) :
    Except String (List (String × Resolved)) :=
  mapE (fun kv => do pure (kv.1, ← resolveValue kv.2 host env)) kvs

def resolvePrim (p : Prim) (host : Host) (env : Env) : Except String RPrim :=
  match p with
  | .run cmd vars stdin => do
      let cmd ← resolveTemplate cmd host env
      let vars ← resolvePairs vars host env
      let stdin ← match stdin with
        | some v => do pure (some (← resolveValue v host env))
        | none => pure none
      pure (.run cmd vars stdin)
  | .write fact content => do
      pure (.write (← instantiate fact.shape host env) (← resolveValue content host env))
  | .remove fact => do pure (.remove (← instantiate fact.shape host env))
  | .append fact line => do
      pure (.append (← instantiate fact.shape host env) (← resolveValue line host env))
  | .regionSet fact content => do
      pure (.regionSet (← instantiate fact.shape host env) fact.anchor
        (← resolveValue content host env))
  | .regionClear fact => do pure (.regionClear (← instantiate fact.shape host env) fact.anchor)
  | .stage name content mode => do pure (.stage name (← resolveValue content host env) mode)
  | .hook name args => do pure (.hook name (← resolvePairs args host env))
  | .install name => pure (.install name)
  | .release name => pure (.release name)
  | .call prim cmd _ => do pure (.call prim (← resolveTemplate cmd host env))

def resolveBody (b : Body) (host : Host) (env : Env) : Except String (List RPrim) :=
  mapE (resolvePrim · host env) b

/-! ## Regions -/

def beginMarker (anchor : String) : List Char := ("# rescind-region " ++ anchor ++ " begin").toList

def endMarker (anchor : String) : List Char := ("# rescind-region " ++ anchor ++ " end").toList

/-- Exactly one begin and one end. -/
def regionIntact (text : List Char) (anchor : String) : Bool :=
  (Text.lines text).count (beginMarker anchor) = 1 && (Text.lines text).count (endMarker anchor) = 1

/-- The lines outside the fence. -/
def stripLines (b e : List Char) : Bool → List (List Char) → List (List Char)
  | _, [] => []
  | skipping, l :: ls =>
      if l = b then stripLines b e true ls
      else if l = e then stripLines b e false ls
      else if skipping then stripLines b e true ls
      else l :: stripLines b e false ls

/-- Strip the region between its markers, markers included; `none` when the
markers are damaged. -/
def regionStrip (text : List Char) (anchor : String) : Option (List Char) :=
  if regionIntact text anchor then
    some (Text.unlines (stripLines (beginMarker anchor) (endMarker anchor) false (Text.lines text)))
  else none

/-- Set the region: strip any intact one, then append the fenced block. -/
def regionPut (text : List Char) (anchor : String) (content : List Char) : List Char :=
  let out := (regionStrip text anchor).getD text
  let out := if out.isEmpty || out.getLast? = some '\n' then out else out ++ ['\n']
  out ++ beginMarker anchor ++ ['\n'] ++ content ++ ['\n'] ++ endMarker anchor ++ ['\n']

/-- The path a `file:` shape names. -/
def filePath (shape : String) : Option String :=
  (Text.dropPrefix "file:".toList shape.toList).map String.ofList

/-! ## Facts of a footprint -/

def missing : String := "missing"

/-- The digest of a file's bytes, or `missing`. -/
def digestOf (sha256 : Bytes → String) : Option Bytes → String
  | some b => sha256 b
  | none => missing

def Kind.observed : Kind → Bool
  | .owned | .region | .modified => true
  | _ => false

/-- Every fact of a footprint the engine can read back, with its index and the
address it is known by: its path where it is a file, its shape where not. -/
def observedFacts (fp : Footprint) : List (Nat × FootprintEntry × String) :=
  fp.zipIdx.filterMap fun p =>
    if p.1.kind.observed then
      match filePath p.1.shape with
      | some path => some (p.2, p.1, path)
      | none => if p.1.kind = .region then none else some (p.2, p.1, p.1.shape)
    else none

/-- A fact is observed of the entry at its index, whatever the other entries are. -/
theorem entry_of_observedFacts {fp : Footprint} {f : Nat × FootprintEntry × String}
    (h : f ∈ observedFacts fp) : fp[f.1]? = some f.2.1 ∧
      ∀ fp' : Footprint, fp'[f.1]? = some f.2.1 → f ∈ observedFacts fp' := by
  obtain ⟨⟨e, k⟩, hm, hf⟩ := List.mem_filterMap.mp h
  obtain ⟨rfl, rfl⟩ : f.2.1 = e ∧ f.1 = k := by
    simp only at hf
    split at hf
    · split at hf
      · cases hf
        exact ⟨rfl, rfl⟩
      · split at hf <;> cases hf
        exact ⟨rfl, rfl⟩
    · cases hf
  exact ⟨List.mem_zipIdx_iff_getElem?.mp hm, fun fp' he =>
    List.mem_filterMap.mpr ⟨_, List.mem_zipIdx_iff_getElem?.mpr he, hf⟩⟩

/-- The file facts alone: what a rendered artifact can observe. -/
def fileFacts (fp : Footprint) : List (Nat × FootprintEntry × String) :=
  fp.zipIdx.filterMap fun p =>
    if p.1.kind.observed then (filePath p.1.shape).map fun path => (p.2, p.1, path) else none

def kindWord : Kind → String
  | .owned => "owned"
  | .region => "region"
  | .modified => "modified"
  | .derived => "derived"
  | .appendOnly => "append_only"
  | .held => "held"

/-- `markers/<n>` as text. -/
def markersText (ms : List Marker) : String :=
  String.join (ms.map fun m => kindWord m.kind ++ " " ++ m.path ++ " " ++ m.digest ++ "\n")

/-- `manifest` as text. -/
def manifestText (regions : List (String × String)) : String :=
  String.join (regions.map fun r => "region " ++ r.1 ++ " " ++ r.2 ++ "\n")

def kindOf : String → Option Kind
  | "owned" => some .owned
  | "region" => some .region
  | "modified" => some .modified
  | "derived" => some .derived
  | "append_only" => some .appendOnly
  | "held" => some .held
  | _ => none

/-- A line of `markers/<n>`: three pieces by the first two spaces. -/
def parseMarker (l : List Char) : Option Marker :=
  (Text.cut ' ' l).bind fun w => (kindOf (String.ofList w.1)).bind fun kind =>
    (Text.cut ' ' w.2).map fun p => ⟨kind, String.ofList p.1, String.ofList p.2⟩

def parseMarkers (text : List Char) : List Marker := (Text.lines text).filterMap parseMarker

/-- A line of `manifest`. -/
def parseRegion (l : List Char) : Option (String × String) :=
  (Text.cut ' ' l).bind fun w =>
    if String.ofList w.1 = "region" then
      (Text.cut ' ' w.2).map fun p => (String.ofList p.1, String.ofList p.2)
    else none

def parseManifest (text : List Char) : List (String × String) :=
  (Text.lines text).filterMap parseRegion

/-! ## Drift -/

/-- What the engine does with one fact at undo time. -/
inductive Decision where
  /-- Unchanged since `do`: undo as planned. -/
  | undo
  /-- Changed under `:clobber`: undo anyway. -/
  | clobber
  /-- Changed under `:defer`: leave it. -/
  | defer
  /-- A damaged region, no sibling holds one: restore the whole file. -/
  | restoreWhole
  /-- A damaged region while a sibling holds one: leave it. -/
  | deferForeign
  deriving DecidableEq, Repr

def decideDrift (kind : Kind) (policy : Drift) (changed : Bool) (regionIntact : Option Bool)
    (foreignRegion : Bool) : Decision :=
  match kind with
  | .region =>
      match regionIntact with
      | some false =>
          match policy with
          | .clobber => if foreignRegion then .deferForeign else .restoreWhole
          | .defer => .defer
      | _ => .undo
  | _ =>
      if !changed then .undo
      else match policy with
        | .clobber => .clobber
        | .defer => .defer

/-- `recant --force=drift` turns what would be held into what is overwritten. -/
def Decision.force : Decision → Decision
  | .defer => .clobber
  | .deferForeign => .restoreWhole
  | d => d

/-- Facts whose digests changed between two watches, by shape. -/
def changedFacts (before after : Watched) : List String :=
  (before.filter fun pd => after.get pd.1 ≠ some pd.2).map Prod.fst

/-- The body a `:restore` undo runs: an owned file is removed, a region
stripped, a modified file written back. -/
def restoreBodyFrom (key : StepKey) (snapshots : Assoc (StepKey × Nat) String) :
    List (FootprintEntry × Nat) → Except String (List RPrim)
  | [] => .ok []
  | (e, k) :: rest => do
      let here : List RPrim ← match e.kind with
        | .owned => pure [.remove e.shape]
        | .region => pure [.regionClear e.shape e.anchor]
        | .modified =>
            match snapshots.get (key, k) with
            | some s => pure [.write e.shape ⟨s, false⟩]
            | none =>
                if hasFilePrefix e.shape then pure [.remove e.shape]
                else .error ("restore of " ++ e.shape ++ " has no snapshot and is not a file")
        | .held => pure [.release e.shape]
        | .derived | .appendOnly => pure []
      let rest ← restoreBodyFrom key snapshots rest
      pure (here ++ rest)

def restoreBody (key : StepKey) (fp : Footprint) (snapshots : Assoc (StepKey × Nat) String) :
    Except String (List RPrim) :=
  restoreBodyFrom key snapshots fp.zipIdx

/-- The environment of an application: no fact and no secret is in it. -/
def envFor (r : InstanceRecord) (vars : Vars) : Env :=
  { params := r.params, outputs := r.outputs, controller := vars }

end Rescind
