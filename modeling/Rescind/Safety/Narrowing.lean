/-
# `Rescind.Safety.Narrowing` — the numbers of a plan, as written and as expanded

A threshold, a weight, a count, a cap, a mode or how far before a step a backstop is
armed is a number of 64 bits in the tree and one of 32 in the plan, and the expansion
keeps the low ones.  Beside it stands the expansion that keeps every number whole
(`exact`): the two are related part by part, from a gate up to the plan.

    a gate, a body, an op                 (`gate_cut`, `bodyOf_cut`, `expandDef_cut`)
    a step, a statement, the statements   (`stepOp_cut`, `expandStmt_cut`, `expandItems_cut`)
    a slot, an option, the plan           (`fillSlots_cut`, `planLine_cut`, `expandPlan_cut`)
    a plan as its tree has it             (`numbers_kept_iff`)

How a number's text is read into the tree is not part of this, nor are durations, which
are not cut.
-/
import Rescind.Core.Numbers
import Rescind.Surface.Plan

namespace Rescind.Expand

open Ast Static
open Lib (Assoc Said)

namespace Context

variable {n : Nat} (C : Context n)

/-- The same, keeping every number whole. -/
def exact : Context n := { C with narrow := id }

/-! ## What no number is cut in

Everything that reads a call's arguments, reports, or looks a name up. -/

theorem exact_lookup (m : Fin n) (keyword : String) (path : List String) :
    C.exact.lookup m keyword path = C.lookup m keyword path := rfl

theorem exact_protocolOf (m : Fin n) (s : Step) : C.exact.protocolOf m s = C.protocolOf m s := rfl

theorem exact_expansion (m : Fin n) (owner : Contract) (s : Step) (proto : Def) :
    C.exact.expansion m owner s proto = C.expansion m owner s proto := rfl

theorem exact_contributions (m : Fin n) (owner : Contract) (slot : String) :
    C.exact.contributions m owner slot = C.contributions m owner slot := rfl

theorem exact_firstMatch (c : Contract) (ds : List (Fin n × Def)) :
    C.exact.firstMatch c ds = C.firstMatch c ds := by
  induction ds with
  | nil => rfl
  | cons d ds ih => rw [firstMatch, firstMatch, ih]; rfl

theorem exact_firstStatic (ds : List (Fin n × Def)) : C.exact.firstStatic ds = C.firstStatic ds := by
  induction ds with
  | nil => rfl
  | cons d ds ih => rw [firstStatic, firstStatic, ih]; rfl

@[simp] theorem exact_dispatch (ds : List (Fin n × Def)) (c : Contract) (what : String) (m : Fin n)
    (at_ : Range) : C.exact.dispatch ds c what m at_ = C.dispatch ds c what m at_ := by
  rw [dispatch, dispatch, exact_firstMatch, exact_firstStatic]
  rfl

@[simp] theorem exact_checkDuplicates (ds : List (Fin n × Def)) :
    C.exact.checkDuplicates ds = C.checkDuplicates ds := by
  induction ds with
  | nil => rfl
  | cons d ds ih => rw [checkDuplicates, checkDuplicates, ih]; rfl

theorem exact_reads (depth : Nat) : C.exact.bind depth = C.bind depth ∧
    C.exact.literalValue depth = C.literalValue depth := by
  induction depth with
  | zero =>
      refine ⟨?_, ?_⟩
      · funext m scope a
        rfl
      · funext m scope e
        rfl
  | succ depth ih =>
      refine ⟨?_, ?_⟩
      · funext m scope a
        cases a with
        | kw k => rfl
        | expr e => cases e <;> (simp only [bind, ih.2]; rfl)
      · funext m scope e
        cases e with
        | lit r l => cases l <;> (simp only [literalValue, ih.1]; rfl)
        | _ => rfl

@[simp] theorem exact_bindAll (depth : Nat) (m : Fin n) (scope : Scope) (ks : List Kw)
    (bindings : Bindings) : C.exact.bindAll depth m scope ks bindings = C.bindAll depth m scope ks bindings := by
  induction ks generalizing bindings with
  | nil => rfl
  | cons k ks ih => simp only [bindAll, (C.exact_reads depth).1, ih]

@[simp] theorem exact_defaults (call : Fin n × Range) (m : Fin n) (d : Def) (ps : List Kw)
    (bindings : Bindings) : C.exact.defaults call m d ps bindings = C.defaults call m d ps bindings := by
  induction ps generalizing bindings with
  | nil => rfl
  | cons p ps ih => simp only [defaults, ih]; rfl

mutual

theorem exact_checkUnknownCompare (m : Fin n) (e : Expr) :
    C.exact.checkUnknownCompare m e = C.checkUnknownCompare m e := by
  cases e with
  | binary r op lhs rhs =>
      simp only [checkUnknownCompare, exact_checkUnknownCompare m lhs, exact_checkUnknownCompare m rhs]; rfl
  | unary r op e => simp only [checkUnknownCompare, exact_checkUnknownCompare m e]
  | paren r e => simp only [checkUnknownCompare, exact_checkUnknownCompare m e]
  | call r path args => simp only [checkUnknownCompare, exact_checkUnknownCompares m args]
  | list r args => simp only [checkUnknownCompare, exact_checkUnknownCompares m args]
  | _ => rfl

theorem exact_checkUnknownArg (m : Fin n) (a : Arg) :
    C.exact.checkUnknownArg m a = C.checkUnknownArg m a := by
  cases a with
  | expr e => simp only [checkUnknownArg, exact_checkUnknownCompare m e]
  | kw k => rfl

theorem exact_checkUnknownCompares (m : Fin n) (as : List Arg) :
    C.exact.checkUnknownCompares m as = C.checkUnknownCompares m as := by
  cases as with
  | nil => rfl
  | cons a as =>
      simp only [checkUnknownCompares, exact_checkUnknownArg m a, exact_checkUnknownCompares m as]

end

@[simp] theorem exact_guardOf (m : Fin n) (args : List Arg) (range : Range) :
    C.exact.guardOf m args range = C.guardOf m args range := by
  simp only [guardOf, exact_checkUnknownCompare]
  rfl

theorem exact_probeDefs (seen ds : List (Place n)) : C.exact.probeDefs seen ds = C.probeDefs seen ds := by
  induction ds generalizing seen with
  | nil => rfl
  | cons d ds ih => simp only [probeDefs, ih]; rfl

theorem exact_readsLines (cx : OpCx n) (reads : Option String) (ls : List Line) :
    C.exact.readsLines cx reads ls = C.readsLines cx reads ls := by
  induction ls generalizing reads with
  | nil => rfl
  | cons l ls ih => simp only [readsLines, ih]; rfl

theorem exact_probeLines (cx : OpCx n) (ls : List Line) (d : ProbeDecl) :
    C.exact.probeLines cx ls d = C.probeLines cx ls d := by
  induction ls generalizing d with
  | nil => rfl
  | cons l ls ih => simp only [probeLines, ih]; rfl

@[simp] theorem exact_probesOf (m : Fin n) (scope : Scope) : C.exact.probesOf m scope = C.probesOf m scope := by
  simp only [probesOf, exact_probeDefs, probeDecl, exact_readsLines, exact_probeLines]
  rfl

/-! ## Gates -/

/-- What the one comes to is what `g` makes of what the other comes to. -/
abbrev Cuts {α : Type} (g : α → α) (x y : Told α) : Prop := Said.Rel (fun a b => b = g a) x y

variable {C}

theorem gate_cut (h1 : C.narrow 1 = 1) (depth : Nat) (m : Fin n) (bindings : Bindings) (e : Expr) :
    Cuts (Option.map (GateExpr.map C.narrow)) (C.exact.gate depth m bindings e) (C.gate depth m bindings e) := by
  induction depth generalizing e with
  | zero => exact .none
  | succ depth ih =>
      cases e with
      | call range path args =>
          rw [gate, gate]
          generalize dotted path = name
          split
          · exact .pure rfl
          · exact .pure rfl
          · exact .pure rfl
          · refine (Said.Rel.first ih).bind ?_
            rintro (_ | inner) _ rfl <;> exact .pure rfl
          · refine (Said.Rel.collect (Factor.map C.narrow) fun x => ?_).bind ?_
            -- a factor that is no single one is expanded again, and weighs one
            · refine (ih x).bind ?_
              rintro (_ | _ | _) _ rfl
              · refine (ih x).bind ?_
                rintro (_ | g) _ rfl <;> exact .pure (by simp [Factor.map, h1])
              · refine (ih x).bind ?_
                rintro (_ | g) _ rfl <;> exact .pure (by simp [Factor.map, h1])
              · exact .pure rfl
            · rintro factors _ rfl
              refine .pure (congrArg some ?_)
              rw [GateExpr.map, Factor.mapAll_eq_map]
              rfl
          · exact .after fun _ => .pure rfl
      | ref range path =>
          match path with
          | [x] =>
              simp only [gate]
              split
              · exact ih _
              · exact .pure rfl
          | [] | _ :: _ :: _ => exact .pure rfl
      | _ => exact .pure rfl

/-! ## Bodies -/

variable (cx : OpCx n)

theorem onFact_cut {g : Option Prim → Option Prim} (hg : g none = none) (args : List Arg)
    {next next' : FactRef → Told (Option Prim)} (h : ∀ f, Cuts g (next f) (next' f)) :
    Cuts g (C.onFact cx args next) (C.onFact cx args next') := by
  rw [onFact, onFact]
  split
  · exact .pure hg.symm
  · refine .after ?_
    rintro (_ | f)
    · exact .pure hg.symm
    · exact h f

theorem valued_cut {g : Option Prim → Option Prim} (hg : g none = none) (args : List Arg) (name : String)
    {mk mk' : Value → Prim} (h : ∀ v, some (mk' v) = g (some (mk v))) :
    Cuts g (C.valued cx args name mk) (C.valued cx args name mk') := by
  rw [valued, valued]
  split
  · exact .pure hg.symm
  · exact .after fun v => .pure (h v)

theorem run_cut (range : Range) (args : List Arg) :
    Cuts (Option.map (Prim.map C.narrow)) (C.run cx range args) (C.run cx range args) := by
  rw [run]
  split
  · exact .after fun _ => .after fun _ => .after fun _ => .pure rfl
  · exact .after fun _ => .pure rfl

theorem declared_cut (range : Range) (path : List String) (args : List Arg) :
    Cuts (Option.map (Prim.map C.narrow)) (C.declared cx range path args)
      (C.declared cx range path args) := by
  rw [declared]
  split
  · rw [callPrim]
    split
    · exact .pure rfl
    · split
      · exact .after fun _ => .after fun _ => .after fun _ => .pure rfl
      · exact .after fun _ => .pure rfl
  · exact .after fun _ => .pure rfl

theorem prim_cut (a : Arg) :
    Cuts (Option.map (Prim.map C.narrow)) (C.exact.prim cx a) (C.prim cx a) := by
  cases a with
  | kw k => exact .after fun _ => .pure rfl
  | expr e =>
  cases e with
  | call range path args =>
      rw [prim, prim]
      generalize dotted path = name
      split
      · exact run_cut cx range args
      · exact onFact_cut cx rfl args fun f => valued_cut cx rfl args _ fun _ => rfl
      · exact onFact_cut cx rfl args fun f => .pure rfl
      · exact onFact_cut cx rfl args fun f => valued_cut cx rfl args _ fun _ => rfl
      · exact onFact_cut cx rfl args fun f => valued_cut cx rfl args _ fun _ => rfl
      · exact onFact_cut cx rfl args fun f => .pure rfl
      · exact .after fun name => valued_cut cx rfl args _ fun _ => rfl
      · exact .after fun _ => .pure rfl
      · exact .pure rfl
      · exact .pure rfl
      · exact declared_cut cx range path args
  | _ => exact .after fun _ => .pure rfl

theorem bodyOf_cut (args : List Arg) :
    Cuts (List.map (Prim.map C.narrow)) (C.exact.bodyOf cx args) (C.bodyOf cx args) :=
  Said.Rel.collect _ fun a => (prim_cut cx a).map fun p _ hp => by cases p <;> rw [hp] <;> rfl

/-! ## Ops -/

variable (depth : Nat)

theorem ackOf_cut (h1 : C.narrow 1 = 1) (siblings : List Arg) (a : Arg) :
    Cuts (Ack.map C.narrow) (C.exact.ackOf depth cx siblings a) (C.ackOf depth cx siblings a) := by
  have hack : ∀ g : Option GateExpr,
      gateAck (g.map (GateExpr.map C.narrow)) = (gateAck g).map C.narrow := fun g => by cases g <;> rfl
  have hgate : ∀ bindings e, Cuts (Ack.map C.narrow)
      (gateAck <$> C.exact.gate depth cx.module bindings e)
      (gateAck <$> C.gate depth cx.module bindings e) := fun bindings e =>
    (gate_cut h1 depth cx.module bindings e).map fun g _ hg => hg ▸ hack g
  have hhumans : humansAck = humansAck.map C.narrow := by
    simp [humansAck, Ack.map, GateExpr.map, Factor.map, h1]
  have hbound : ∀ b, Cuts (Ack.map C.narrow) (C.exact.boundAck depth cx b) (C.boundAck depth cx b) := by
    intro b
    rw [boundAck.eq_def, boundAck.eq_def]
    split
    · refine .pure ?_
      split
      · rfl
      · exact hhumans
    · exact hgate _ _
    · exact .pure hhumans
  rw [ackOf.eq_def, ackOf.eq_def]
  split
  · exact .pure rfl
  · split
    · exact .pure rfl
    · split
      · split
        · exact hbound _
        · exact hgate _ _
      · exact hgate _ _

theorem refusal_cut (h1 : C.narrow 1 = 1) (args : List Arg) :
    Cuts (Refusal.map C.narrow) (C.exact.refusal depth cx args) (C.refusal depth cx args) := by
  rw [refusal, refusal]
  split
  · refine .pure ?_
    split <;> rfl
  · split
    · rw [knell, knell]
      refine .after fun guard => .after fun cost => ?_
      split
      · refine .pure ?_
        simp [humansAck, Refusal.map, Ack.map, GateExpr.map, Factor.map, h1]
      · refine (ackOf_cut cx depth h1 args _).bind ?_
        rintro ack _ rfl
        exact .pure rfl
    · exact .pure rfl
  · exact .pure rfl

theorem undo_cut (args : List Arg) :
    Cuts (Undo.map C.narrow) (C.exact.undo cx args) (C.undo cx args) := by
  have hbody : ∀ as, Cuts (Undo.map C.narrow) ((fun b => .computed b []) <$> C.exact.bodyOf cx as)
      ((fun b => .computed b []) <$> C.bodyOf cx as) := fun as =>
    (bodyOf_cut cx as).map fun b _ hb => hb ▸ rfl
  rw [undo, undo]
  split
  · split
    · exact .pure rfl
    · exact hbody _
  · split
    · exact (bodyOf_cut cx _).map fun b _ hb => hb ▸ rfl
    · exact hbody _
  · exact hbody _

theorem setUndoPre_map (f : Nat → Nat) (pre : List String) (u : Undo) :
    setUndoPre pre (u.map f) = (setUndoPre pre u).map f := by
  cases u <;> rfl

/-- A line does to an op with its numbers cut what it does to the op. -/
theorem opLine_cut (h1 : C.narrow 1 = 1) (l : Line) :
    Said.Rel (fun u v => ∀ op : Op, v (op.map C.narrow) = (u op).map C.narrow)
      (C.exact.opLine depth cx l) (C.opLine depth cx l) := by
  rw [opLine, opLine]
  generalize l.keyword = name
  split
  · exact .after fun _ => .pure fun _ => rfl
  · exact .pure fun _ => rfl
  · exact .after fun _ => .pure fun _ => rfl
  · exact .after fun _ => .pure fun _ => rfl
  · exact (bodyOf_cut cx _).map fun _ _ hb _ => hb ▸ rfl
  · exact (undo_cut cx _).map fun _ _ hu _ => hu ▸ rfl
  · exact .after fun pre => .pure fun op => by simp only [Op.map, setUndoPre_map]
  · exact .pure fun _ => rfl
  · exact (refusal_cut cx depth h1 _).map fun _ _ hr _ => hr ▸ rfl
  · exact .after fun _ => .pure fun _ => rfl
  · exact .pure fun _ => rfl
  · exact .pure fun _ => rfl
  · exact .pure fun _ => rfl
  · exact .pure fun _ => rfl
  · exact (bodyOf_cut cx _).map fun _ _ hb _ => hb ▸ rfl
  · exact (bodyOf_cut cx _).map fun _ _ hb _ => hb ▸ rfl
  · exact .after fun _ => .pure fun _ => rfl

theorem opLines_cut (h1 : C.narrow 1 = 1) (ls : List Line) (op : Op) :
    Cuts (Op.map C.narrow) (C.exact.opLines depth cx ls op) (C.opLines depth cx ls (op.map C.narrow)) := by
  induction ls generalizing op with
  | nil => exact .pure rfl
  | cons l ls ih =>
      refine (opLine_cut cx depth h1 l).bind fun u v huv => ?_
      rw [huv]
      exact ih (u op)

theorem idempotent_map (f : Nat → Nat) (body : List Stmt) (u : Undo) :
    idempotent body (u.map f) = idempotent body u := by
  cases u <;> rfl

theorem expandDef_cut (h1 : C.narrow 1 = 1) :
    Cuts (Op.map C.narrow) (C.exact.expandDef depth cx) (C.expandDef depth cx) := by
  refine (opLines_cut cx depth h1 _ _).bind ?_
  rintro op _ rfl
  refine .pure ?_
  split
  · simp only [Op.map, idempotent_map]
  · rfl

/-! ## Steps -/

theorem expandOp_cut (h1 : C.narrow 1 = 1) (m : Fin n) (path : List String) (range : Range)
    (bindings : Bindings) (owner : Contract) (scope : Scope) :
    Cuts (Option.map (Op.map C.narrow)) (C.exact.expandOp depth m path range bindings owner scope)
      (C.expandOp depth m path range bindings owner scope) := by
  rw [expandOp, expandOp, exact_lookup, exact_checkDuplicates, exact_dispatch]
  split
  · exact .after fun _ => .pure rfl
  · refine .after fun _ => .after ?_
    rintro (_ | d)
    · exact .pure rfl
    · simp only [exact_defaults]
      refine .after fun bindings => ?_
      exact (expandDef_cut _ depth h1).map fun op _ hop => hop ▸ rfl

/-- A keyword does to a step with its numbers cut what it does to the step. -/
theorem stepKw_cut (h1 : C.narrow 1 = 1) (m : Fin n) (bindings : Bindings) (k : Kw) :
    Said.Rel (fun u v => ∀ s : StepI, v (s.map C.narrow) = (u s).map C.narrow)
      (C.exact.stepKw depth m bindings k) (C.stepKw depth m bindings k) := by
  rw [stepKw, stepKw]
  generalize k.name = name
  split
  · split
    · exact (gate_cut h1 depth m bindings _).map fun g _ hg _ => hg ▸ rfl
    · exact .pure fun _ => rfl
  · exact .pure fun _ => rfl
  · exact .pure fun _ => rfl
  · exact .pure fun _ => rfl
  · exact .pure fun _ => rfl

theorem stepKws_cut (h1 : C.narrow 1 = 1) (m : Fin n) (bindings : Bindings) (ks : List Kw) (s : StepI) :
    Cuts (StepI.map C.narrow) (C.exact.stepKws depth m bindings ks s)
      (C.stepKws depth m bindings ks (s.map C.narrow)) := by
  induction ks generalizing s with
  | nil => exact .pure rfl
  | cons k ks ih =>
      refine (stepKw_cut depth h1 m bindings k).bind fun u v huv => ?_
      rw [huv]
      exact ih (u s)

theorem stepOp_cut (h1 : C.narrow 1 = 1) (m : Fin n) (s : Step) (path : List String) (args : List Arg)
    (range : Range) (owner : Contract) (scope : Scope) {mk : StepI → Item}
    (hmk : ∀ st, mk (st.map C.narrow) = (mk st).map C.narrow) :
    Cuts (Prod.map (Option.map (Item.map C.narrow)) id)
      (C.exact.stepOp depth m s path args range owner scope mk)
      (C.stepOp depth m s path args range owner scope mk) := by
  rw [stepOp, stepOp, exact_bindAll]
  refine .after fun bindings => (expandOp_cut depth h1 m path range bindings owner scope).bind ?_
  rintro (_ | op) _ rfl
  · exact .pure rfl
  · refine (stepKws_cut depth h1 m bindings s.kws _).bind ?_
    rintro st _ rfl
    exact .pure (Prod.ext (congrArg some (hmk st)) rfl)

theorem expandStepOne_cut (h1 : C.narrow 1 = 1) (m : Fin n) (s : Step) (owner : Contract) (scope : Scope)
    (knell : Bool) :
    Cuts (Prod.map (Option.map (Item.map C.narrow)) id)
      (C.exact.expandStepOne depth m s owner scope knell)
      (C.expandStepOne depth m s owner scope knell) := by
  rw [expandStepOne, expandStepOne]
  split
  · split
    · exact .pure rfl
    · split
      · exact .pure rfl
      · refine stepOp_cut depth h1 m s _ _ _ owner scope fun st => ?_
        cases knell <;> rfl
  · exact .after fun _ => .pure rfl

/-! ## Items -/

theorem repeatForm_cut (h0 : C.narrow 0 = 0) (m : Fin n) (args : List Arg) (range : Range) :
    Cuts (RepeatForm.map C.narrow) (C.exact.repeatForm m args range) (C.repeatForm m args range) := by
  have hnumber : ∀ message a, Cuts C.narrow (C.exact.repeatNumber m range message a)
      (C.repeatNumber m range message a) := by
    intro message a
    rw [repeatNumber.eq_def, repeatNumber.eq_def]
    split
    · exact .pure rfl
    · exact .after fun _ => .pure h0.symm
  rw [repeatForm, repeatForm]
  split
  · refine .after fun list => (hnumber _ _).bind ?_
    rintro max _ rfl
    exact .pure rfl
  · exact (hnumber _ _).map fun k _ hk => hk ▸ rfl

variable (m : Fin n) (owner : Contract) {go go' : Go}

/-- Items with their numbers cut, and the same scope. -/
abbrev cutItems (f : Nat → Nat) : List Item × Scope → List Item × Scope :=
  Prod.map (List.map (Item.map f)) id

theorem expandProtocol_cut (hgo : ∀ sts scope, Cuts (cutItems C.narrow) (go sts scope) (go' sts scope))
    (s : Step) (proto : Def) (scope : Scope) :
    Cuts (cutItems C.narrow) (C.exact.expandProtocol m owner go s proto scope)
      (C.expandProtocol m owner go' s proto scope) := by
  rw [expandProtocol, expandProtocol, exact_expansion]
  refine .after fun _ => ?_
  split
  · exact hgo _ _
  · exact .after fun _ => .pure rfl

theorem expandStep_cut (h1 : C.narrow 1 = 1)
    (hgo : ∀ sts scope, Cuts (cutItems C.narrow) (go sts scope) (go' sts scope))
    (s : Step) (knell : Bool) (scope : Scope) :
    Cuts (cutItems C.narrow) (C.exact.expandStep depth m owner go s knell scope)
      (C.expandStep depth m owner go' s knell scope) := by
  rw [expandStep, expandStep, exact_protocolOf]
  split
  · exact expandProtocol_cut m owner hgo s _ scope
  · refine (expandStepOne_cut depth h1 m s owner scope knell).bind ?_
    rintro ⟨_ | it, after⟩ _ rfl <;> exact .pure rfl

/-- One after the other: what the first comes to before what the rest do. -/
theorem append_cut {f : Nat → Nat} {x y : Told (List Item × Scope)}
    {k k' : Scope → Told (List Item × Scope)} (h : Cuts (cutItems f) x y)
    (hk : ∀ scope, Cuts (cutItems f) (k scope) (k' scope)) :
    Cuts (cutItems f)
      (do
        let r ← x
        let rest ← k r.2
        pure (r.1 ++ rest.1, rest.2))
      (do
        let r ← y
        let rest ← k' r.2
        pure (r.1 ++ rest.1, rest.2)) := by
  refine h.bind ?_
  rintro r _ rfl
  refine (hk r.2).bind ?_
  rintro rest _ rfl
  exact .pure (Prod.ext List.map_append.symm rfl)

theorem pipeline_cut (h1 : C.narrow 1 = 1)
    (hgo : ∀ sts scope, Cuts (cutItems C.narrow) (go sts scope) (go' sts scope))
    (ss : List Step) (scope : Scope) :
    Cuts (cutItems C.narrow) (C.exact.pipeline depth m owner go ss scope)
      (C.pipeline depth m owner go' ss scope) := by
  induction ss generalizing scope with
  | nil => exact .pure rfl
  | cons s ss ih => exact append_cut (expandStep_cut depth m owner h1 hgo s false scope) ih

/-- **One statement**, with its numbers cut where those further in are. -/
theorem expandStmt_cut (h0 : C.narrow 0 = 0) (h1 : C.narrow 1 = 1)
    (hgo : ∀ sts scope, Cuts (cutItems C.narrow) (go sts scope) (go' sts scope))
    (scope : Scope) (st : Stmt) :
    Cuts (cutItems C.narrow) (C.exact.expandStmt depth m owner go scope st)
      (C.expandStmt depth m owner go' scope st) := by
  cases st with
  | step s => exact expandStep_cut depth m owner h1 hgo s false scope
  | pipeline ss => exact pipeline_cut depth m owner h1 hgo ss scope
  | knell s => exact expandStep_cut depth m owner h1 hgo s true scope
  | block range keyword body =>
      rw [expandStmt, expandStmt]
      split
      · refine (hgo body scope).bind ?_
        rintro r _ rfl
        exact .pure (by simp [Item.map, Item.mapAll_eq_map])
      · split
        · exact .pure rfl
        · exact .after fun _ => .pure rfl
  | observe range call a =>
      rw [expandStmt, expandStmt]
      change Cuts _ (C.observe m call a range scope) (C.observe m call a range scope)
      rw [observe.eq_def]
      cases call <;>
      · refine .after fun probe => ?_
        dsimp only
        split <;> exact .pure rfl
  | assert range args =>
      rw [expandStmt, expandStmt, exact_guardOf]
      refine .after ?_
      rintro (_ | g) <;> exact .pure rfl
  | repeat_ range args var body =>
      rw [expandStmt, expandStmt]
      refine (repeatForm_cut h0 m args range).bind ?_
      rintro form _ rfl
      refine (hgo _ _).bind ?_
      rintro r _ rfl
      exact .pure (by simp [Item.map, Item.mapAll_eq_map])
  | when_ range args then_ else_ =>
      rw [expandStmt, expandStmt, exact_guardOf]
      refine .after ?_
      rintro (_ | g)
      · exact .pure rfl
      · refine (hgo _ _).bind ?_
        rintro t _ rfl
        refine (hgo _ _).bind ?_
        rintro e _ rfl
        exact .after fun _ => .pure (by simp [Item.map, Item.mapAll_eq_map])
  | line l =>
      rw [expandStmt, expandStmt]
      split
      · exact .after fun _ => .pure rfl
      · exact .pure rfl
  | slot range name => exact .pure rfl
  | contribution | def_ | import_ => exact .after fun _ => .pure rfl

theorem expandItems_cut (h0 : C.narrow 0 = 0) (h1 : C.narrow 1 = 1) (k : Nat) (sts : List Stmt)
    (scope : Scope) : Cuts (cutItems C.narrow) (C.exact.expandItems depth m owner k sts scope)
      (C.expandItems depth m owner k sts scope) := by
  induction k generalizing sts scope with
  | zero => exact .none
  | succ k ih =>
      rw [expandItems, expandItems]
      induction sts generalizing scope with
      | nil => exact .pure rfl
      | cons st sts ihs => exact append_cut (expandStmt_cut depth m owner h0 h1 ih scope st) ihs

/-! ## Slots -/

theorem eachAlone_cut (hgo : ∀ sts scope, Cuts (cutItems C.narrow) (go sts scope) (go' sts scope))
    (sts : List Stmt) (scope : Scope) :
    Cuts (cutItems C.narrow) (eachAlone go sts scope) (eachAlone go' sts scope) := by
  induction sts generalizing scope with
  | nil => exact .pure rfl
  | cons st sts ih => exact append_cut (hgo _ scope) ih

mutual

theorem fillItem_cut (hgo : ∀ sts scope, Cuts (cutItems C.narrow) (go sts scope) (go' sts scope))
    (scope : Scope) (it : Item) :
    Cuts (cutItems C.narrow) (C.exact.fillItem m owner go scope it)
      (C.fillItem m owner go' scope (it.map C.narrow)) := by
  cases it with
  | slot name =>
      rw [Item.map, fillItem, fillItem, exact_contributions]
      split
      · exact .pure rfl
      · exact eachAlone_cut hgo _ scope
  | par children =>
      rw [Item.map, fillItem, fillItem, Item.mapAll_eq_map]
      refine (fillSlots_cut hgo scope children).bind ?_
      rintro r _ rfl
      exact .pure (by simp [Item.map, Item.mapAll_eq_map])
  | repeat_ form var body =>
      rw [Item.map, fillItem, fillItem, Item.mapAll_eq_map]
      refine (fillSlots_cut hgo scope body).bind ?_
      rintro r _ rfl
      exact .pure (by simp [Item.map, Item.mapAll_eq_map])
  | when_ g window lapse then_ else_ =>
      rw [Item.map, fillItem, fillItem, Item.mapAll_eq_map, Item.mapAll_eq_map]
      refine (fillSlots_cut hgo scope then_).bind ?_
      rintro t _ rfl
      refine (fillSlots_cut hgo t.2 else_).bind ?_
      rintro e _ rfl
      exact .pure (by simp [Item.map, Item.mapAll_eq_map])
  | _ => exact .pure rfl

theorem fillSlots_cut (hgo : ∀ sts scope, Cuts (cutItems C.narrow) (go sts scope) (go' sts scope))
    (scope : Scope) (its : List Item) :
    Cuts (cutItems C.narrow) (C.exact.fillSlots m owner go scope its)
      (C.fillSlots m owner go' scope (its.map (Item.map C.narrow))) := by
  cases its with
  | nil => exact .pure rfl
  | cons it its =>
      rw [List.map_cons, fillSlots, fillSlots]
      exact append_cut (fillItem_cut hgo scope it) fun scope => fillSlots_cut hgo scope its

end

/-! ## Plans -/

theorem planGate_cut (h1 : C.narrow 1 = 1) (args : List Arg) :
    Cuts (Option.map fun g => { g with expr := g.expr.map C.narrow }) (C.exact.planGate depth m args)
      (C.planGate depth m args) := by
  rw [planGate, planGate]
  split
  · refine (gate_cut h1 depth m [] _).bind ?_
    rintro (_ | g) _ rfl <;> exact .pure rfl
  · exact .pure rfl

theorem backstop_cut (h1 : C.narrow 1 = 1) (args : List Arg) :
    C.backstop args = (C.exact.backstop args).map C.narrow := by
  rw [backstop, backstop, Backstop.map]
  congr 1
  split
  · rfl
  · exact h1.symm

/-- An option does to a plan with its numbers cut what it does to the plan. -/
theorem planLine_cut (h1 : C.narrow 1 = 1) (l : Line) :
    Said.Rel (fun u v => ∀ p : Plan, v (p.map C.narrow) = (u p).map C.narrow)
      (C.exact.planLine depth m l) (C.planLine depth m l) := by
  rw [planLine, planLine]
  generalize l.keyword = name
  split
  · refine (planGate_cut depth m h1 l.args).map ?_
    rintro (_ | g) _ rfl p <;> rfl
  · split
    · exact .after fun _ => .pure fun _ => rfl
    · exact .pure fun _ => rfl
  · refine .pure fun p => ?_
    rw [backstop_cut h1]
    rfl
  · refine .pure fun p => ?_
    cases firstAtom l.args <;> rfl
  · refine .pure fun p => ?_
    cases firstAtom l.args <;> rfl
  · exact .pure fun _ => rfl
  · exact .pure fun _ => rfl
  · refine .pure fun p => ?_
    cases (kwv l.args "journal").bind atomOf <;> rfl
  · exact .pure fun _ => rfl

theorem planLines_cut (h1 : C.narrow 1 = 1) (ls : List Line) (p : Plan) :
    Cuts (Plan.map C.narrow) (C.exact.planLines depth m ls p)
      (C.planLines depth m ls (p.map C.narrow)) := by
  induction ls generalizing p with
  | nil => exact .pure rfl
  | cons l ls ih =>
      refine (planLine_cut depth m h1 l).bind fun u v huv => ?_
      rw [huv]
      exact ih (u p)

/-- **A plan's clause** expands to what the exact expansion does, with its numbers cut. -/
theorem expandPlan_cut (h0 : C.narrow 0 = 0) (h1 : C.narrow 1 = 1) (clauses : List (Fin n × Def))
    (name : String) (at_ : Range) :
    Cuts (Option.map (Plan.map C.narrow)) (C.exact.expandPlan depth clauses name m at_ owner)
      (C.expandPlan depth clauses name m at_ owner) := by
  rw [expandPlan, expandPlan, exact_checkDuplicates, exact_dispatch]
  refine .after fun _ => .after ?_
  rintro (_ | d)
  · exact .pure rfl
  · simp only [exact_probesOf]
    refine (planLines_cut depth d.1 h1 _ _).bind ?_
    rintro p _ rfl
    refine .after fun probes => ?_
    refine (expandItems_cut depth d.1 owner h0 h1 depth d.2.body _).bind ?_
    rintro items _ rfl
    refine (fillSlots_cut d.1 owner (expandItems_cut depth d.1 owner h0 h1 depth) _ _).bind ?_
    rintro filled _ rfl
    exact .pure (by simp [Plan.map, Item.mapAll_eq_map])

/-- **A plan has the numbers its tree has exactly where each of them fits 32 bits.**  For
every plan a clause expands to, the exact expansion comes to one with the same reports, of
which the plan is what cutting each number leaves: nothing is said of a number that is cut. -/
theorem numbers_kept_iff (hC : C.narrow = fun k => k % 2 ^ 32) {clauses : List (Fin n × Def)}
    {name : String} {at_ : Range} {q : Plan} {ds : List Diagnostic}
    (h : (C.expandPlan depth clauses name m at_ owner).run = some (some q, ds)) :
    ∃ p, (C.exact.expandPlan depth clauses name m at_ owner).run = some (some p, ds) ∧
      q = p.map (fun k => k % 2 ^ 32) ∧ (q = p ↔ ∀ k ∈ p.numbers, k < 2 ^ 32) := by
  have hcut := expandPlan_cut depth m owner (C := C) (by simp [hC]) (by simp [hC]) clauses name at_
  obtain ⟨_ | p, hp, hq⟩ := hcut.run_eq h
  · cases hq
  · rw [Option.map_some, Option.some_inj, hC] at hq
    refine ⟨p, hp, hq, ?_⟩
    rw [hq, Plan.map_eq_iff]
    exact forall₂_congr fun k _ => Nat.mod_eq_iff_lt (by decide)

/-- A plan that is approved by as many humans as do not fit. -/
def crowd : Def :=
  ⟨⟨0, 0⟩, "defplan", "crowd", ⟨0, 0⟩, none, [],
    [.line ⟨⟨0, 0⟩, "gate", [.expr (.call ⟨0, 0⟩ ["thresh"]
      [.expr (.lit ⟨0, 0⟩ (.int (2 ^ 32))), .expr (.call ⟨0, 0⟩ ["humans"] [])])]⟩]⟩

/-- A program of that plan. -/
def crowded : Context 1 :=
  { program := fun _ => ⟨"crowd.rsc", [], [crowd], [], []⟩
    contracts := []
    parseExpr := fun _ => none
    overflow := .wraps }

/-- What it expands to: nobody is needed. -/
def admitted : Plan :=
  { id := "crowd"
    owner := "h"
    gate := some ⟨.thresh 0 [.humans 1], none, false⟩
    body := [] }

theorem crowd_admitted : ∃ p,
    (crowded.exact.expandPlan 3 [(0, crowd)] "crowd" 0 ⟨0, 0⟩ ⟨"h", "linux", "", [], []⟩).run =
      some (some p, []) ∧
    admitted = p.map (fun k => k % 2 ^ 32) ∧ (admitted = p ↔ ∀ k ∈ p.numbers, k < 2 ^ 32) :=
  numbers_kept_iff 3 0 ⟨"h", "linux", "", [], []⟩ rfl rfl

end Context

end Rescind.Expand
