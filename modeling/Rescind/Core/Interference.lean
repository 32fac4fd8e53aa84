/-
# `Rescind.Core.Interference` — facts, umbras and the ledger

What a step writes and may write, the interference query over a plan's leaves,
and the cross-plan ledger that reserves umbras per host.

    a request is refused by an exclusivity class or an overlapping umbra on
    its host, or reserves; a rehearsal is admitted and reserves nothing
                                                       (`Ledger.request_ok`)
    releasing keeps exactly the other holdings          (`Ledger.mem_release`)
-/
import Rescind.Core.Algebra
import Rescind.Lib.Text

namespace Rescind

open Lib

/-- First-occurrence deduplication preserving order. -/
def nub {α : Type} [DecidableEq α] (xs : List α) : List α :=
  xs.foldl (fun out x => if x ∈ out then out else out ++ [x]) []

theorem mem_nub {α : Type} [DecidableEq α] {x : α} {xs : List α} : x ∈ nub xs ↔ x ∈ xs := by
  have go : ∀ (xs out : List α),
      x ∈ xs.foldl (fun out x => if x ∈ out then out else out ++ [x]) out ↔ x ∈ out ∨ x ∈ xs := by
    intro xs
    induction xs with
    | nil => simp
    | cons y ys ih =>
        intro out
        rw [List.foldl_cons, ih]
        split
        next hy =>
          simp only [List.mem_cons]
          constructor
          · rintro (h | h)
            · exact .inl h
            · exact .inr (.inr h)
          · rintro (h | rfl | h)
            · exact .inl h
            · exact .inl hy
            · exact .inr h
        · simp only [List.mem_append, List.mem_cons, List.not_mem_nil, or_false, or_assoc]
  simpa [nub] using go xs []

/-- A fact as the query sees it: a shape, and for a region its anchor. -/
structure Fact where
  shape : String
  anchor : Option String
  deriving DecidableEq, Repr

structure Conflict where
  earlier : Nat
  later : Nat
  fact : Fact
  deriving DecidableEq, Repr

/-- A shape whose instance is bound only at runtime. -/
def runtimeBound (s : String) : Bool := s.toList.contains '\x7b'

def kindWrites (k : Kind) : Bool := k ≠ .derived

def FootprintEntry.fact (e : FootprintEntry) : Fact := ⟨e.shape, e.anchor⟩

/-- `writes(S, F)`: the facts an op definitely writes (its umbra). -/
def writes (o : Op) : List Fact :=
  (o.footprint.filter fun e => kindWrites e.kind && !runtimeBound e.shape).map
    FootprintEntry.fact

/-- `maywrite(S, F)`: the facts an op may write (its penumbra). -/
def mayWrite (o : Op) : List Fact :=
  (o.footprint.filter fun e => kindWrites e.kind && runtimeBound e.shape).map
    FootprintEntry.fact

/-- `needs(S, F)`: what an op's undo needs unchanged. -/
def needs (o : Op) : List Fact :=
  match o.undo with
  | .restore => writes o ++ mayWrite o
  | .computed _ pre | .compensate _ pre => pre.map fun s => ⟨s, none⟩
  | .noUndo => []

/-- Two anchors meet unless both are given and differ. -/
def anchorsMeet : Option String → Option String → Bool
  | some x, some y => x = y
  | _, _ => true

def staticPart (s : String) : List Char := s.toList.takeWhile (· ≠ '\x7b')

def overlapShape (s1 s2 : String) : Bool :=
  if !runtimeBound s1 && !runtimeBound s2 then s1 = s2
  else (Text.dropPrefix (staticPart s1) s2.toList).isSome ||
    (Text.dropPrefix (staticPart s2) s1.toList).isSome

/-- Two facts touch when their shapes overlap and, for two regions, their
anchors are equal. -/
def Fact.touches (f g : Fact) : Bool := overlapShape f.shape g.shape && anchorsMeet f.anchor g.anchor

/-- The host a step's locus resolves to, as text; a bound host is written in
braces. -/
def leafHostText (owner : String) (o : Op) : String :=
  match o.locus with
  | .controller => "controller"
  | .target => owner
  | .host (.static h) => h
  | .host (.bound b) => "\x7b" ++ b ++ "\x7d"

def overlapHost (h1 h2 : String) : Bool := h1 = h2 || runtimeBound h1 || runtimeBound h2

/-- A numbered step as the query sees it. -/
structure Leaf where
  n : Nat
  op : Op
  host : String
  vars : List String

mutual

def stepFactsOf (owner : String) (vars : List String) : Item → Nat → List Leaf
  | .par children, n => stepFactsFrom owner vars children n
  | .repeat_ (.over _ _ _) var body, n => stepFactsFrom owner (var :: vars) body n
  | .repeat_ (.count _) _ body, n => stepFactsFrom owner vars body n
  | .when_ _ _ _ then_ else_, n =>
      stepFactsFrom owner vars then_ n ++
        stepFactsFrom owner vars else_ (n + leafCount then_)
  | .step s, n => [⟨n, s.op, leafHostText owner s.op, vars⟩]
  | .knell s, n => [⟨n, s.op, leafHostText owner s.op, vars⟩]
  | _, _ => []

def stepFactsFrom (owner : String) (vars : List String) : List Item → Nat → List Leaf
  | [], _ => []
  | it :: items, n =>
      stepFactsOf owner vars it n ++
        stepFactsFrom owner vars items (n + (leavesOf it).length)

end

/-- `step(S)`: the numbered steps of a plan owned by the given host. -/
def stepFacts (owner : String) (items : List Item) : List Leaf := stepFactsFrom owner [] items 1

/-- A fact indexed by a loop variable of its own iteration. -/
def indexedBy (vars : List String) (f : Fact) : Bool :=
  vars.any fun v => (Text.cutAt ("\x7b" ++ v ++ "\x7d").toList f.shape.toList).isSome

def sameLoop (va vb : List String) : Bool := !va.isEmpty && va = vb

/-- The steps of each child of a `par`, the child starting at `n`. -/
def parGroup (lvs : List Leaf) : List Item → Nat → List (List (Nat × Op))
  | [], _ => []
  | c :: cs, n =>
      let stop := n + (leavesOf c).length
      ((lvs.filter fun l => n ≤ l.n && l.n < stop).map fun l => (l.n, l.op)) ::
        parGroup lvs cs stop

mutual

/-- The `par`s of one item. -/
def collectItem (lvs : List Leaf) : Item → Nat → List (List (List (Nat × Op)))
  | .par children, n => parGroup lvs children n :: collectEach lvs children n
  | .repeat_ _ _ body, n => collectPars lvs body n
  | .when_ _ _ _ then_ else_, n =>
      collectPars lvs then_ n ++ collectPars lvs else_ (n + leafCount then_)
  | _, _ => []

/-- The `par`s inside each child of a `par`. -/
def collectEach (lvs : List Leaf) : List Item → Nat → List (List (List (Nat × Op)))
  | [], _ => []
  | c :: cs, n => collectItem lvs c n ++ collectEach lvs cs (n + (leavesOf c).length)

/-- The `par`s of a sequence: a par, then the pars after it, then the pars
inside its children. -/
def collectPars (lvs : List Leaf) : List Item → Nat → List (List (List (Nat × Op)))
  | [], _ => []
  | .par children :: items, n =>
      parGroup lvs children n ::
        (collectPars lvs items (n + leafCount children) ++ collectEach lvs children n)
  | it :: items, n =>
      collectItem lvs it n ++ collectPars lvs items (n + (leavesOf it).length)

end

def parChildren (owner : String) (items : List Item) : List (List (List (Nat × Op))) :=
  collectPars (stepFacts owner items) items 1

/-- Every pair of an element and a later one. -/
def laterPairs {α : Type} : List α → List (α × α)
  | [] => []
  | x :: xs => xs.map (fun y => (x, y)) ++ laterPairs xs

theorem laterPairs_map {α β : Type} (f : α → β) (xs : List α) :
    laterPairs (xs.map f) = (laterPairs xs).map fun p => (f p.1, f p.2) := by
  induction xs with
  | nil => rfl
  | cons x xs ih => simp [laterPairs, ih, Function.comp_def]

/-- Pairs of steps that sit in different children of one `par`. -/
def parSiblings (owner : String) (items : List Item) : List (Nat × Nat) :=
  nub <| (parChildren owner items).flatMap fun grp =>
    (laterPairs grp).flatMap fun p =>
      p.1.flatMap fun a => p.2.map fun b => (min a.1 b.1, max a.1 b.1)

/-- `disjoint_umbra(X, Y)`. -/
def disjointUmbra (owner : String) (x y : Op) : Bool :=
  !overlapHost (leafHostText owner x) (leafHostText owner y) ||
    (writes x).all fun f => (writes y).all fun g => !f.touches g

/-- Pairs of `par` children whose umbras overlap (E0303), and children with
`reach` (E0304). -/
def parViolations (owner : String) (items : List Item) : List (Nat × Nat) × List Nat :=
  let groups := parChildren owner items
  (nub <| groups.flatMap fun grp => (laterPairs grp).flatMap fun p =>
      p.1.flatMap fun a => (p.2.filter fun b => !disjointUmbra owner a.2 b.2).map
        fun b => (a.1, b.1),
   nub <| groups.flatMap fun grp => grp.flatMap fun child =>
      (child.filter fun a => !a.2.reach.isEmpty).map Prod.fst)

/-- Ordered pairs of leaves with an order between them, in leaf order. -/
def orderedPairs (lvs : List Leaf) (siblings : List (Nat × Nat)) : List (Leaf × Leaf) :=
  (laterPairs lvs).filter fun p => p.1.n < p.2.n && !siblings.contains (p.1.n, p.2.n)

/-- `conflict(A, B, F)` (E0301). -/
def conflict (owner : String) (items : List Item) : List Conflict :=
  let lvs := stepFacts owner items
  nub <| (orderedPairs lvs (parSiblings owner items)).flatMap fun p =>
    let x := p.1
    let y := p.2
    if runtimeBound x.host || runtimeBound y.host || x.host ≠ y.host then []
    else ((writes x.op).filter fun f => (needs x.op).contains f).flatMap fun f =>
      ((writes y.op).filter fun g =>
          f.touches g && !(sameLoop x.vars y.vars && indexedBy x.vars f)).map
        fun _ => ⟨x.n, y.n, f⟩

/-- `mayconflict(A, B, F)` (E0302 under strict). -/
def mayConflict (owner : String) (items : List Item) : List Conflict :=
  let lvs := stepFacts owner items
  nub <| (orderedPairs lvs (parSiblings owner items)).flatMap fun p =>
    let x := p.1
    let y := p.2
    if !overlapHost x.host y.host then []
    else
      let penA := mayWrite x.op
      let penB := mayWrite y.op
      (needs x.op).flatMap fun f =>
        ((penA ++ writes x.op).filter fun g => f.touches g).flatMap fun g =>
          ((penB ++ writes y.op).filter fun h =>
              f.touches h &&
              (penB.contains h || penA.contains g || runtimeBound x.host ||
                runtimeBound y.host) &&
              !(sameLoop x.vars y.vars && indexedBy x.vars f)).map
            fun _ => ⟨x.n, y.n, f⟩

/-- The same anchor declared twice on one fact within a plan (E0305). -/
def anchorDuplicates (owner : String) (items : List Item) : List Conflict :=
  let regions (o : Op) := (o.footprint.filter fun e => e.kind = .region).map FootprintEntry.fact
  nub <| (laterPairs (stepFacts owner items)).flatMap fun p =>
    let x := p.1
    let y := p.2
    if !overlapHost x.host y.host then []
    else ((regions x.op).filter fun f => f.anchor.isSome).flatMap fun f =>
      ((regions y.op).filter fun g => f = g).map fun _ => ⟨x.n, y.n, f⟩

/-! ## The ledger -/

/-- One reservation: the umbra an instance holds on a host. -/
structure Holding where
  id : String
  host : String
  umbra : List Fact
  exclusivity : Option String
  rehearsal : Bool
  deriving DecidableEq, Repr

inductive LedgerCode where
  /-- Exclusivity held by another instance (exit 75). -/
  | r0101
  /-- Cross-plan umbra overlap with an active or pending instance. -/
  | r0203
  deriving DecidableEq, Repr

structure Ledger where
  held : List Holding := []
  deriving DecidableEq, Repr

/-- Facts touch on equal shapes; two regions must also share an anchor. -/
def Fact.sameAs (f g : Fact) : Bool := f.shape = g.shape && anchorsMeet f.anchor g.anchor

namespace Ledger

def exclusiveWith (inst h : Holding) : Bool :=
  match h.exclusivity, inst.exclusivity with
  | some a, some b => a = b
  | _, _ => false

def overlaps (inst h : Holding) : Bool :=
  inst.umbra.any fun f => h.umbra.any fun g => f.sameAs g

/-- Reserve at request.  A rehearsal is admitted and records nothing. -/
def request (l : Ledger) (inst : Holding) : Except (LedgerCode × String) Ledger :=
  if inst.rehearsal then .ok l
  else
    let sameHost := l.held.filter fun h => h.host = inst.host
    match sameHost.find? (exclusiveWith inst) with
    | some h => .error (.r0101, s!"exclusivity class held by {h.id}")
    | none =>
        match sameHost.find? (overlaps inst) with
        | some h => .error (.r0203, s!"umbra overlaps {h.id}")
        | none => .ok ⟨inst :: l.held⟩

/-- Release on cancel, lapse, close or commit. -/
def release (l : Ledger) (id : String) : Ledger := ⟨l.held.filter fun h => h.id ≠ id⟩

/-- An admitted request is a rehearsal's, or adds its one holding. -/
theorem request_ok {l l' : Ledger} {inst : Holding} (h : l.request inst = .ok l') :
    (inst.rehearsal = true ∧ l' = l) ∨ (inst.rehearsal = false ∧ l'.held = inst :: l.held) := by
  unfold request at h
  by_cases hr : inst.rehearsal = true
  · simp only [hr, if_true, Except.ok.injEq] at h
    exact .inl ⟨hr, h.symm⟩
  · have hf : inst.rehearsal = false := by simpa using hr
    rw [if_neg hr] at h
    dsimp only at h
    split at h
    · cases h
    · split at h
      · cases h
      · cases h
        exact .inr ⟨hf, rfl⟩

theorem mem_release {l : Ledger} {id : String} {h : Holding} :
    h ∈ (l.release id).held ↔ h ∈ l.held ∧ h.id ≠ id := by
  simp [release]

end Ledger

/-- The umbra each host reserves at request: the facts every leaf writes or
may write, grouped by the leaf's host. -/
def umbras (p : Plan) : Assoc String (List Fact) :=
  (stepFacts p.owner p.body).foldl
    (fun byHost leaf =>
      let e := ((byHost.get leaf.host).getD []) ++ writes leaf.op ++ mayWrite leaf.op
      byHost.insert leaf.host e) []

end Rescind
