/-
# `Rescind.Core.Serialized` — a plan as `serde` writes it

The values that the derived serialization of a plan and of its gate makes: a record
as an object of its fields, an enumeration by the name of its constructor, with its
fields where it has any, an item with its kind among its fields.  Names are in snake
case, but where the source renames them.

A step's arguments as they are shown and a probe's equivalence, which the model does
not hold, are written empty and as `bytes`.
-/
import Rescind.Core.Model
import Rescind.Lib.Serialize

namespace Rescind

open Lib Lib.Json

variable {F : Type}

instance : Serialize F Duration := .comap Duration.seconds fun a b h => by cases a; cases b; cases h; rfl

/-! ## Bodies -/

instance : Serialize F FactRef where
  toValue f := .object [("anchor", toValue f.anchor), ("shape", toValue f.shape)]

instance : Serialize F Ref where
  toValue
    | .fact x => .object [("fact", toValue x)]
    | .param x => .object [("param", toValue x)]
    | .host x => .object [("host", toValue x)]
    | .output step x secret => .object [("output", .object
        [("name", toValue x), ("secret", toValue secret), ("step", toValue step)])]
    | .controller x => .object [("controller", toValue x)]
    | .secret x => .object [("secret", toValue x)]

instance : Serialize F Part where
  toValue
    | .lit s => .object [("lit", toValue s)]
    | .ref r => .object [("ref", toValue r)]

instance : Serialize F Value where
  toValue
    | .lit s => .object [("lit", toValue s)]
    | .ref r => .object [("ref", toValue r)]
    | .template t => .object [("template", toValue t)]

instance : Serialize F ArgClass where
  toValue
    | .targetLocal => .string "target_local"
    | .controller => .string "controller"

instance : Serialize F ClassedArg where
  toValue a := .object
    [("class", toValue a.cls), ("name", toValue a.name), ("value", toValue a.value)]

/-- A variable of an environment, or a named argument. -/
instance : Serialize F (String × Value) where
  toValue a := .object [("name", toValue a.1), ("value", toValue a.2)]

instance : Serialize F Prim where
  toValue
    | .run cmd env stdin => .object [("run", .object
        [("cmd", toValue cmd), ("env", toValue env), ("stdin", toValue stdin)])]
    | .write fact content => .object [("write", .object
        [("content", toValue content), ("fact", toValue fact)])]
    | .remove fact => .object [("remove", .object [("fact", toValue fact)])]
    | .append fact line => .object [("append", .object
        [("fact", toValue fact), ("line", toValue line)])]
    | .regionSet fact content => .object [("region_set", .object
        [("content", toValue content), ("fact", toValue fact)])]
    | .regionClear fact => .object [("region_clear", .object [("fact", toValue fact)])]
    | .stage x content mode => .object [("stage", .object
        [("content", toValue content), ("mode", toValue mode), ("name", toValue x)])]
    | .hook x args => .object [("hook", .object [("args", toValue args), ("name", toValue x)])]
    | .install x => .object [("install", .object [("name", toValue x)])]
    | .release x => .object [("release", .object [("name", toValue x)])]
    | .call prim cmd args => .object [("call", .object
        [("args", toValue args), ("prim", toValue prim), ("run", toValue cmd)])]

/-! ## Gates -/

mutual

def GateExpr.written : GateExpr → Json.Value F
  | .thresh n factors => .object [("thresh", .object
      [("factors", .array (Factor.allWritten factors)), ("n", toValue n)])]
  | .single f => .object [("single", f.written)]

def Factor.written : Factor → Json.Value F
  | .auth id w => .object [("auth", .object [("id", toValue id), ("weight", toValue w)])]
  | .humans w => .object [("humans", .object [("weight", toValue w)])]
  | .group g w => .object [("group", .object [("expr", g.written), ("weight", toValue w)])]
  | .wait d w => .object [("wait", .object [("duration_s", toValue d), ("weight", toValue w)])]

def Factor.allWritten : List Factor → List (Json.Value F)
  | [] => []
  | f :: fs => f.written :: Factor.allWritten fs

end

mutual

theorem GateExpr.written_inj (g h : GateExpr) (heq : g.written (F := F) = h.written) : g = h := by
  match g, h with
  | .thresh n fs, .thresh k gs =>
      obtain ⟨hfs, hn⟩ : Factor.allWritten (F := F) fs = Factor.allWritten gs ∧ n = k := by
        simpa [GateExpr.written] using heq
      rw [Factor.allWritten_inj fs gs hfs, hn]
  | .single f, .single g =>
      have hf : f.written (F := F) = g.written := by simpa [GateExpr.written] using heq
      rw [Factor.written_inj f g hf]
  | .thresh .., .single _ | .single _, .thresh .. => simp [GateExpr.written] at heq

theorem Factor.written_inj (f g : Factor) (heq : f.written (F := F) = g.written) : f = g := by
  match f, g with
  | .group a v, .group b w =>
      obtain ⟨ha, hv⟩ : a.written (F := F) = b.written ∧ v = w := by
        simpa [Factor.written] using heq
      rw [GateExpr.written_inj a b ha, hv]
  | .auth a v, .auth b w | .humans v, .humans w | .wait a v, .wait b w =>
      simpa [Factor.written] using heq
  | .auth .., .humans _ | .auth .., .group .. | .auth .., .wait .. | .humans _, .auth ..
  | .humans _, .group .. | .humans _, .wait .. | .group .., .auth .. | .group .., .humans _
  | .group .., .wait .. | .wait .., .auth .. | .wait .., .humans _ | .wait .., .group .. =>
      simp [Factor.written] at heq

theorem Factor.allWritten_inj (fs gs : List Factor)
    (heq : Factor.allWritten (F := F) fs = Factor.allWritten gs) : fs = gs := by
  match fs, gs with
  | [], [] => rfl
  | f :: fs, g :: gs =>
      simp only [Factor.allWritten, List.cons.injEq] at heq
      rw [Factor.written_inj f g heq.1, Factor.allWritten_inj fs gs heq.2]
  | [], _ :: _ | _ :: _, [] => simp [Factor.allWritten] at heq

end

mutual

theorem GateExpr.ordered_written (g : GateExpr) : (g.written (F := F)).Ordered := by
  match g with
  | .thresh n fs =>
      have h := Factor.ordered_allWritten fs
      simp [GateExpr.written, Value.Ordered, Value.OrderedMembers, Assoc.Sorted, h, -String.lt_iff_ltb]
  | .single f =>
      have h := Factor.ordered_written f
      simp [GateExpr.written, Value.Ordered, Value.OrderedMembers, Assoc.Sorted, h]

theorem Factor.ordered_written (f : Factor) : (f.written (F := F)).Ordered := by
  match f with
  | .group g w =>
      have h := GateExpr.ordered_written g
      simp [Factor.written, Value.Ordered, Value.OrderedMembers, Assoc.Sorted, h, -String.lt_iff_ltb]
  | .auth id w | .humans w | .wait d w =>
      simp [Factor.written, Value.Ordered, Value.OrderedMembers, Assoc.Sorted, -String.lt_iff_ltb]

theorem Factor.ordered_allWritten (fs : List Factor) :
    Value.OrderedItems (Factor.allWritten (F := F) fs) := by
  match fs with
  | [] => trivial
  | f :: fs => exact ⟨Factor.ordered_written f, Factor.ordered_allWritten fs⟩

end

mutual

theorem GateExpr.whole_written (g : GateExpr) : (g.written (F := F)).whole = true := by
  match g with
  | .thresh n fs =>
      have h := Factor.whole_allWritten fs
      simp [GateExpr.written, Value.whole, Value.wholeMembers, h]
  | .single f =>
      have h := Factor.whole_written f
      simp [GateExpr.written, Value.whole, Value.wholeMembers, h]

theorem Factor.whole_written (f : Factor) : (f.written (F := F)).whole = true := by
  match f with
  | .group g w =>
      have h := GateExpr.whole_written g
      simp [Factor.written, Value.whole, Value.wholeMembers, h]
  | .auth id w | .humans w | .wait d w => simp [Factor.written, Value.whole, Value.wholeMembers]

theorem Factor.whole_allWritten (fs : List Factor) :
    Value.wholeItems (Factor.allWritten (F := F) fs) = true := by
  match fs with
  | [] => rfl
  | f :: fs =>
      rw [Factor.allWritten, Value.wholeItems, Factor.whole_written f, Factor.whole_allWritten fs]
      rfl

end

instance : Serialize F GateExpr where
  toValue := GateExpr.written
  apart := GateExpr.written_inj
  ordered := GateExpr.ordered_written
  whole := GateExpr.whole_written
  solid g := by cases g <;> simp [GateExpr.written]

instance : Serialize F PlanGate where
  toValue g := .object [("allow_zero_human", toValue g.allowZeroHuman), ("expr", toValue g.expr),
    ("window_s", toValue g.window)]

/-! ## Ops -/

instance : Serialize F Tri where
  toValue
    | .yes => .string "yes"
    | .no => .string "no"
    | .unknown => .string "unknown"

instance : Serialize F Kind where
  toValue
    | .owned => .string "owned"
    | .region => .string "region"
    | .modified => .string "modified"
    | .derived => .string "derived"
    | .appendOnly => .string "append_only"
    | .held => .string "held"

instance : Serialize F Drift where
  toValue
    | .clobber => .string "clobber"
    | .defer => .string "defer"

instance : Serialize F FootprintEntry where
  toValue e := .object [("anchor", toValue e.anchor), ("instance", toValue e.inst),
    ("kind", toValue e.kind), ("shape", toValue e.shape)]

instance : Serialize F Guard where
  toValue g := .object [("force_never", toValue g.forceNever), ("name", toValue g.name),
    ("value", toValue g.value)]

instance : Serialize F HostRef where
  toValue
    | .static h => .object [("static", toValue h)]
    | .bound b => .object [("bound", toValue b)]

instance : Serialize F Locus where
  toValue
    | .controller => .string "controller"
    | .target => .string "target"
    | .host h => .object [("host", toValue h)]

instance : Serialize F UndoLocus where
  toValue
    | .target => .string "target"
    | .controller => .string "controller"
    | .noLocus => .string "none"

instance : Serialize F Undo where
  toValue
    | .restore => .string "restore"
    | .computed body pre => .object [("computed", .object
        [("body", toValue body), ("undo_pre", toValue pre)])]
    | .compensate body pre => .object [("compensate", .object
        [("body", toValue body), ("undo_pre", toValue pre)])]
    | .noUndo => .string "none"

instance : Serialize F Cost where
  toValue
    | .probe p => .object [("probe", toValue p)]
    | .noCost reason => .object [("none", toValue reason)]

instance : Serialize F Ack where
  toValue
    | .gate g => .object [("gate", toValue g)]
    | .noAck reason => .object [("none", toValue reason)]

instance : Serialize F Refusal where
  toValue
    | .revert => .string "revert"
    | .hold via => .object [("hold", .object [("via", toValue via)])]
    | .knell guard cost ack => .object [("knell", .object
        [("ack", toValue ack), ("cost", toValue cost), ("guard", toValue guard)])]

instance : Serialize F Output where
  toValue o := .object [("name", toValue o.name), ("secret", toValue o.secret)]

instance : Serialize F Op where
  toValue o := .object [("do", toValue o.do_), ("drift", toValue o.drift),
    ("exclusivity", toValue o.exclusivity), ("footprint", toValue o.footprint),
    ("handoff_done", toValue o.handoffDone), ("id", toValue o.id), ("locus", toValue o.locus),
    ("outputs", toValue o.outputs), ("post", toValue o.post), ("pre", toValue o.pre),
    ("reach", toValue o.reach), ("reestablish", toValue o.reestablish),
    ("refusal", toValue o.refusal), ("suspend", toValue o.suspend), ("undo", toValue o.undo),
    ("undo_idempotent", toValue o.undoIdempotent), ("undo_locus", toValue o.undoLocus)]

/-! ## Items -/

instance : Serialize F Direction where
  toValue
    | .forward => .string "forward"
    | .inverse => .string "inverse"

instance : Serialize F ForceName where
  toValue
    | .guard g => .object [("guard", toValue g)]
    | .drift => .string "drift"
    | .unknown => .string "unknown"

instance : Serialize F OnLapse where
  toValue
    | .revert => .string "revert"
    | .hold => .string "hold"

instance : Serialize F RepeatForm where
  toValue
    | .count n => .object [("count", toValue n)]
    | .over list max setValued => .object [("over", .object
        [("list", toValue list), ("max", toValue max), ("set_valued", toValue setValued)])]

/-- The fields of a step in an item that says what it is. -/
def StepI.written (item : String) (s : StepI) : Json.Value F :=
  .object [("alias", toValue s.alias_), ("args", .array []), ("direction", toValue s.direction),
    ("force", toValue s.force), ("gate", toValue s.gate), ("item", .string item),
    ("on_lapse", toValue s.onLapse), ("op", toValue s.op), ("window_s", toValue s.window)]

mutual

def Item.written : Item → Json.Value F
  | .step s => s.written "step"
  | .knell s => s.written "knell"
  | .par children =>
      .object [("children", .array (Item.allWritten children)), ("item", .string "par")]
  | .slot x => .object [("item", .string "slot"), ("name", toValue x)]
  | .confirm => .object [("item", .string "confirm")]
  | .commit => .object [("item", .string "commit")]
  | .preflight guards => .object [("guards", toValue guards), ("item", .string "preflight")]
  | .observe probe a =>
      .object [("alias", toValue a), ("item", .string "observe"), ("probe", toValue probe)]
  | .assert guard window lapse => .object [("guard", toValue guard), ("item", .string "assert"),
      ("on_lapse", toValue lapse), ("window_s", toValue window)]
  | .repeat_ form var body => .object [("body", .array (Item.allWritten body)),
      ("form", toValue form), ("item", .string "repeat"), ("var", toValue var)]
  | .when_ guard window lapse then_ else_ => .object [("else", .array (Item.allWritten else_)),
      ("guard", toValue guard), ("item", .string "when"), ("on_lapse", toValue lapse),
      ("then", .array (Item.allWritten then_)), ("window_s", toValue window)]

def Item.allWritten : List Item → List (Json.Value F)
  | [] => []
  | it :: its => it.written :: Item.allWritten its

end

theorem StepI.written_inj {item item' : String} {s t : StepI}
    (h : s.written (F := F) item = t.written item') : item = item' ∧ s = t := by
  cases s
  cases t
  simp_all [StepI.written]

mutual

theorem Item.written_inj (it jt : Item) (heq : it.written (F := F) = jt.written) : it = jt := by
  cases it with
  | step s =>
      cases jt with
      | step t => rw [(StepI.written_inj heq).2]
      | knell t => exact absurd (StepI.written_inj heq).1 (by decide)
      | _ => simp [Item.written, StepI.written] at heq
  | knell s =>
      cases jt with
      | knell t => rw [(StepI.written_inj heq).2]
      | step t => exact absurd (StepI.written_inj heq).1 (by decide)
      | _ => simp [Item.written, StepI.written] at heq
  | par children =>
      cases jt with
      | par others =>
          have hc : Item.allWritten (F := F) children = Item.allWritten others := by
            simpa [Item.written] using heq
          rw [Item.allWritten_inj children others hc]
      | _ => simp [Item.written, StepI.written] at heq
  | repeat_ form var body =>
      cases jt with
      | repeat_ form' var' other =>
          obtain ⟨hbody, hform, hvar⟩ : Item.allWritten (F := F) body = Item.allWritten other ∧
              form = form' ∧ var = var' := by
            simpa [Item.written] using heq
          rw [Item.allWritten_inj body other hbody, hform, hvar]
      | _ => simp [Item.written, StepI.written] at heq
  | when_ guard window lapse then_ else_ =>
      cases jt with
      | when_ guard' window' lapse' then' else' =>
          obtain ⟨helse, hguard, hlapse, hthen, hwindow⟩ :
              Item.allWritten (F := F) else_ = Item.allWritten else' ∧ guard = guard' ∧
                lapse = lapse' ∧ Item.allWritten (F := F) then_ = Item.allWritten then' ∧
                window = window' := by
            simpa [Item.written] using heq
          rw [Item.allWritten_inj then_ then' hthen, Item.allWritten_inj else_ else' helse, hguard,
            hlapse, hwindow]
      | _ => simp [Item.written, StepI.written] at heq
  | slot | confirm | commit | preflight | observe | assert =>
      cases jt <;> simp_all [Item.written, StepI.written]

theorem Item.allWritten_inj (its jts : List Item)
    (heq : Item.allWritten (F := F) its = Item.allWritten jts) : its = jts := by
  match its, jts with
  | [], [] => rfl
  | it :: its, jt :: jts =>
      simp only [Item.allWritten, List.cons.injEq] at heq
      rw [Item.written_inj it jt heq.1, Item.allWritten_inj its jts heq.2]
  | [], _ :: _ | _ :: _, [] => simp [Item.allWritten] at heq

end

mutual

theorem Item.ordered_written (it : Item) : (it.written (F := F)).Ordered := by
  match it with
  | .par children =>
      have h := Item.ordered_allWritten children
      simp [Item.written, Value.Ordered, Value.OrderedMembers, Assoc.Sorted, h, -String.lt_iff_ltb]
  | .repeat_ form var body =>
      have h := Item.ordered_allWritten body
      simp [Item.written, Value.Ordered, Value.OrderedMembers, Assoc.Sorted, h, -String.lt_iff_ltb]
  | .when_ guard window lapse then_ else_ =>
      have h := Item.ordered_allWritten then_
      have h' := Item.ordered_allWritten else_
      simp [Item.written, Value.Ordered, Value.OrderedMembers, Assoc.Sorted, h, h', -String.lt_iff_ltb]
  | .step _ | .knell _ | .slot _ | .confirm | .commit | .preflight _ | .observe _ _
  | .assert _ _ _ =>
      simp [Item.written, StepI.written, Value.Ordered, Value.OrderedMembers, Value.OrderedItems,
        Assoc.Sorted, -String.lt_iff_ltb]

theorem Item.ordered_allWritten (its : List Item) :
    Value.OrderedItems (Item.allWritten (F := F) its) := by
  match its with
  | [] => trivial
  | it :: its => exact ⟨Item.ordered_written it, Item.ordered_allWritten its⟩

end

mutual

theorem Item.whole_written (it : Item) : (it.written (F := F)).whole = true := by
  match it with
  | .par children =>
      have h := Item.whole_allWritten children
      simp [Item.written, Value.whole, Value.wholeMembers, h]
  | .repeat_ form var body =>
      have h := Item.whole_allWritten body
      simp [Item.written, Value.whole, Value.wholeMembers, h]
  | .when_ guard window lapse then_ else_ =>
      have h := Item.whole_allWritten then_
      have h' := Item.whole_allWritten else_
      simp [Item.written, Value.whole, Value.wholeMembers, h, h']
  | .step _ | .knell _ | .slot _ | .confirm | .commit | .preflight _ | .observe _ _
  | .assert _ _ _ =>
      simp [Item.written, StepI.written, Value.whole, Value.wholeMembers, Value.wholeItems]

theorem Item.whole_allWritten (its : List Item) :
    Value.wholeItems (Item.allWritten (F := F) its) = true := by
  match its with
  | [] => rfl
  | it :: its =>
      rw [Item.allWritten, Value.wholeItems, Item.whole_written it, Item.whole_allWritten its]
      rfl

end

instance : Serialize F Item where
  toValue := Item.written
  apart := Item.written_inj
  ordered := Item.ordered_written
  whole := Item.whole_written
  solid it := by cases it <;> simp [Item.written, StepI.written]

/-! ## Plans -/

instance : Serialize F Trigger where
  toValue
    | .after d => .object [("after", toValue d)]
    | .unlessConfirmed d => .object [("unless_confirmed", toValue d)]
    | .unlessHeartbeat deadline interval => .object [("unless_heartbeat", .object
        [("deadline_s", toValue deadline), ("interval_s", toValue interval)])]

instance : Serialize F Backstop where
  toValue b := .object [("arm_before", toValue b.armBefore), ("triggers", toValue b.triggers)]

instance : Serialize F Strictness where
  toValue
    | .strict => .string "strict"
    | .warn => .string "warn"

instance : Serialize F Mode where
  toValue
    | .manual => .string "manual"
    | .auto => .string "auto"

instance : Serialize F JournalRequirement where
  toValue
    | .chained => .string "chained"
    | .signed => .string "signed"

/-- What a probe reads is no field of one that reads nothing. -/
instance : Serialize F ProbeDecl where
  toValue
    | ⟨x, locus, body, produces, static_, none⟩ => .object [("body", toValue body),
        ("equivalence", .string "bytes"), ("locus", toValue locus), ("name", toValue x),
        ("produces", toValue produces), ("static", toValue static_)]
    | ⟨x, locus, body, produces, static_, some reads⟩ => .object [("body", toValue body),
        ("equivalence", .string "bytes"), ("locus", toValue locus), ("name", toValue x),
        ("produces", toValue produces), ("reads", toValue reads), ("static", toValue static_)]
  apart := by
    rintro ⟨_, _, _, _, _, _ | _⟩ ⟨_, _, _, _, _, _ | _⟩ h <;> simp_all
  ordered := by
    rintro ⟨_, _, _, _, _, _ | _⟩ <;>
      simp [Value.Ordered, Value.OrderedMembers, Assoc.Sorted, -String.lt_iff_ltb]
  whole := by
    rintro ⟨_, _, _, _, _, _ | _⟩ <;> simp [Value.whole, Value.wholeMembers]
  solid := by
    rintro ⟨_, _, _, _, _, _ | _⟩ <;> simp

instance : Serialize F Plan where
  toValue p := .object [("backstop", toValue p.backstop), ("body", toValue p.body),
    ("exclusivity", toValue p.exclusivity), ("fires_by_construction", toValue p.firesByConstruction),
    ("gate", toValue p.gate), ("id", toValue p.id), ("mode", toValue p.mode),
    ("owner", toValue p.owner), ("probes", toValue p.probes),
    ("renew_within_s", toValue p.renewWithin), ("require_journal", toValue p.requireJournal),
    ("strictness", toValue p.strictness), ("wane_s", toValue p.wane)]

end Rescind
