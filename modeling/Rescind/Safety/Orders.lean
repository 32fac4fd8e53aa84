/-
# `Rescind.Safety.Orders` — the order of the lines of a definition

Each line of an op writes to one part of it, and lines of different keywords to
different parts: but for `undo_pre`, which writes into the undo that is there.  So
the order of the lines does not matter unless both are given, and then it does where
the undo has a body and something is needed unchanged.

A line of a site block that declares sinks adds to the sinks there are.  One that
declares executors or acceptors takes the place of the line before it, and so does
one that declares sinks for the signing key, whether it names one or not.

An op has one line of each keyword.  Two orders are compared by the op they make, not by
what is said on the way.

**Proved here.**

    lines of different keywords do not interfere           (`opLine_comm`)
    an op is the same in every order                       (`inOrder_iff`)
    the last line of a kind is the one that counts         (`last_counts`)
    what a site block keeps of what it declares            (`keeps_iff`)
    both                                                   (`order_of_lines`)
    neither holds of every definition                      (`lost_lines`)
-/
import Mathlib.Data.List.Nodup
import Rescind.Surface.Declare
import Rescind.Surface.Op

namespace Rescind.Expand

open Ast Lib

/-! ## The parts of an op -/

/-- A part of an op that a line writes to. -/
inductive Field where
  | footprint | reach | pre | post | do_ | undo | undoLocus | refusal | drift | outputs
  | exclusivity | locus | handoffDone | suspend | reestablish
  /-- None, for a line that is none of an op's. -/
  | none_ (keyword : String)
  deriving DecidableEq

def Field.Carrier : Field → Type
  | .footprint => Footprint
  | .reach => List String
  | .pre => List Guard
  | .post => List Guard
  | .do_ => Body
  | .undo => Undo
  | .undoLocus => UndoLocus
  | .refusal => Refusal
  | .drift => Option Drift
  | .outputs => List Output
  | .exclusivity => Option String
  | .locus => Locus
  | .handoffDone => Option String
  | .suspend => Option Body
  | .reestablish => Option Body
  | .none_ _ => Unit

/-- An op, part by part. -/
def parts (op : Op) : ∀ k : Field, k.Carrier
  | .footprint => op.footprint
  | .reach => op.reach
  | .pre => op.pre
  | .post => op.post
  | .do_ => op.do_
  | .undo => op.undo
  | .undoLocus => op.undoLocus
  | .refusal => op.refusal
  | .drift => op.drift
  | .outputs => op.outputs
  | .exclusivity => op.exclusivity
  | .locus => op.locus
  | .handoffDone => op.handoffDone
  | .suspend => op.suspend
  | .reestablish => op.reestablish
  | .none_ _ => ()

def fieldOf (keyword : String) : Field :=
  match keyword with
  | "footprint" => .footprint
  | "reach" => .reach
  | "pre" => .pre
  | "post" => .post
  | "do" => .do_
  | "undo" => .undo
  | "undo_pre" => .undo
  | "undo_locus" => .undoLocus
  | "refusal" => .refusal
  | "drift" => .drift
  | "outputs" => .outputs
  | "exclusivity" => .exclusivity
  | "locus" => .locus
  | "handoff_done" => .handoffDone
  | "suspend" => .suspend
  | "reestablish" => .reestablish
  | other => .none_ other

/-- The keywords of a part. -/
def Field.keywords : Field → List String
  | .footprint => ["footprint"]
  | .reach => ["reach"]
  | .pre => ["pre"]
  | .post => ["post"]
  | .do_ => ["do"]
  | .undo => ["undo", "undo_pre"]
  | .undoLocus => ["undo_locus"]
  | .refusal => ["refusal"]
  | .drift => ["drift"]
  | .outputs => ["outputs"]
  | .exclusivity => ["exclusivity"]
  | .locus => ["locus"]
  | .handoffDone => ["handoff_done"]
  | .suspend => ["suspend"]
  | .reestablish => ["reestablish"]
  | .none_ keyword => [keyword]

theorem mem_keywords (keyword : String) : keyword ∈ (fieldOf keyword).keywords := by
  unfold fieldOf
  split <;> simp [Field.keywords]

/-- Two keywords of one part are one, or the two of the undo. -/
theorem eq_of_fieldOf {k k' : String} (h : fieldOf k = fieldOf k') (hk : k ≠ k') :
    k = "undo" ∧ k' = "undo_pre" ∨ k = "undo_pre" ∧ k' = "undo" := by
  have hk1 := mem_keywords k
  have hk2 := mem_keywords k'
  rw [← h] at hk2
  revert hk1 hk2
  generalize fieldOf k = f
  cases f <;> simp only [Field.keywords, List.mem_cons, List.not_mem_nil, or_false]
  case undo => grind
  all_goals exact fun h1 h2 => absurd (h1.trans h2.symm) hk

/-- What writes to one part, by what that part was. -/
structure Writes (k : Field) (f : Op → Op) : Prop where
  by_part : ∃ g : k.Carrier → k.Carrier, ∀ op, parts (f op) = Function.update (parts op) k (g (parts op k))
  idempotent : ∀ op, (f op).undoIdempotent = op.undoIdempotent
  id : ∀ op, (f op).id = op.id

theorem parts_inj {op op' : Op} (h : parts op = parts op') (hi : op.id = op'.id)
    (hu : op.undoIdempotent = op'.undoIdempotent) : op = op' := by
  obtain ⟨⟩ := op
  obtain ⟨⟩ := op'
  have hk := fun k => congrFun h k
  cases hi
  cases hu
  cases hk .footprint
  cases hk .reach
  cases hk .pre
  cases hk .post
  cases hk .do_
  cases hk .undo
  cases hk .undoLocus
  cases hk .refusal
  cases hk .drift
  cases hk .outputs
  cases hk .exclusivity
  cases hk .locus
  cases hk .handoffDone
  cases hk .suspend
  cases hk .reestablish
  rfl

/-- Writes to different parts do not interfere. -/
theorem Writes.comm {k l : Field} {f g : Op → Op} (hf : Writes k f) (hg : Writes l g) (h : k ≠ l)
    (op : Op) : f (g op) = g (f op) := by
  obtain ⟨a, ha⟩ := hf.by_part
  obtain ⟨b, hb⟩ := hg.by_part
  refine parts_inj ?_ ?_ ?_
  · rw [ha, hb, hb, ha, Function.update_of_ne h, Function.update_of_ne h.symm]
    exact Function.update_comm h.symm _ _ _
  · rw [hf.id, hg.id, hg.id, hf.id]
  · rw [hf.idempotent, hg.idempotent, hg.idempotent, hf.idempotent]

/-! ## Lines -/

variable {n : Nat} {C : Context n} {depth : Nat} {cx : OpCx n}

theorem Writes.at_part {k : Field} {f : Op → Op} (g : k.Carrier → k.Carrier)
    (h : ∀ op i, parts (f op) i = Function.update (parts op) k (g (parts op k)) i)
    (hi : ∀ op, (f op).id = op.id)
    (hu : ∀ op, (f op).undoIdempotent = op.undoIdempotent) : Writes k f :=
  ⟨⟨g, fun op => funext (h op)⟩, hu, hi⟩

theorem Writes.of_map {α : Type} {k : Field} {m : Told α} {F : α → Op → Op} {f : Op → Op}
    (h : (F <$> m).value = some f) (hF : ∀ a, Writes k (F a)) : Writes k f := by
  rw [Said.value_map] at h
  obtain ⟨a, -, rfl⟩ := Option.map_eq_some_iff.mp h
  exact hF a

theorem Writes.of_pure {k : Field} {F f : Op → Op}
    (h : (pure F : Told _).value = some f) (hF : Writes k F) : Writes k f := by
  obtain rfl := Option.some.inj h
  exact hF

/-- **A line writes** to the part its keyword names, and to no other. -/
theorem opLine_writes {l : Line} {f : Op → Op} (h : (C.opLine depth cx l).value = some f) :
    Writes (fieldOf l.keyword) f := by
  obtain ⟨range, keyword, args⟩ := l
  unfold Context.opLine at h
  dsimp only at h ⊢
  split at h
  next => exact .of_map (k := .footprint) h fun a =>
      .at_part (fun x : Footprint => x ++ a) (fun op i => by cases i <;> rfl) (fun _ => rfl) fun _ => rfl
  next => exact .of_pure (k := .reach) h <|
      .at_part (fun x : List String => x ++ Context.reach args) (fun op i => by cases i <;> rfl) (fun _ => rfl) fun _ => rfl
  next => exact .of_map (k := .pre) h fun a =>
      .at_part (fun _ => a) (fun op i => by cases i <;> rfl) (fun _ => rfl) fun _ => rfl
  next => exact .of_map (k := .post) h fun a =>
      .at_part (fun _ => a) (fun op i => by cases i <;> rfl) (fun _ => rfl) fun _ => rfl
  next => exact .of_map (k := .do_) h fun a =>
      .at_part (fun _ => a) (fun op i => by cases i <;> rfl) (fun _ => rfl) fun _ => rfl
  next => exact .of_map (k := .undo) h fun a =>
      .at_part (fun _ => a) (fun op i => by cases i <;> rfl) (fun _ => rfl) fun _ => rfl
  next => exact .of_map (k := .undo) h fun a =>
      .at_part (Context.setUndoPre a) (fun op i => by cases i <;> rfl) (fun _ => rfl) fun _ => rfl
  next => exact .of_pure (k := .undoLocus) h <|
      .at_part (fun _ => Context.undoLocus args) (fun op i => by cases i <;> rfl) (fun _ => rfl) fun _ => rfl
  next => exact .of_map (k := .refusal) h fun a =>
      .at_part (fun _ => a) (fun op i => by cases i <;> rfl) (fun _ => rfl) fun _ => rfl
  next => exact .of_map (k := .drift) h fun a =>
      .at_part (fun _ => a) (fun op i => by cases i <;> rfl) (fun _ => rfl) fun _ => rfl
  next => exact .of_pure (k := .outputs) h <|
      .at_part (fun x : List Output => x ++ Context.outputsFrom none args) (fun op i => by cases i <;> rfl) (fun _ => rfl) fun _ => rfl
  next => exact .of_pure (k := .exclusivity) h <|
      .at_part (fun _ => firstAtom args) (fun op i => by cases i <;> rfl) (fun _ => rfl) fun _ => rfl
  next => exact .of_pure (k := .locus) h <|
      .at_part (fun _ => Context.locus args) (fun op i => by cases i <;> rfl) (fun _ => rfl) fun _ => rfl
  next => exact .of_pure (k := .handoffDone) h <|
      .at_part (fun _ => Context.handoffDone args) (fun op i => by cases i <;> rfl) (fun _ => rfl) fun _ => rfl
  next => exact .of_map (k := .suspend) h fun a =>
      .at_part (fun _ => some a) (fun op i => by cases i <;> rfl) (fun _ => rfl) fun _ => rfl
  next => exact .of_map (k := .reestablish) h fun a =>
      .at_part (fun _ => some a) (fun op i => by cases i <;> rfl) (fun _ => rfl) fun _ => rfl
  next other =>
    rw [Said.value_bind] at h
    obtain ⟨-, -, h⟩ := Option.bind_eq_some_iff.mp h
    obtain rfl := Option.some.inj h
    exact .at_part id (fun op i => (congrFun (Function.update_eq_self _ _) i).symm)
      (fun _ => rfl) fun _ => rfl

/-! ## The order of the lines -/

/-- A line after some. -/
def after (C : Context n) (depth : Nat) (cx : OpCx n) (op : Option Op) (l : Line) : Option Op :=
  (C.opLine depth cx l).value.bind fun f => op.map f

theorem after_none (ls : List Line) : ls.foldl (after C depth cx) none = none := by
  induction ls with
  | nil => rfl
  | cons l ls ih =>
      rw [List.foldl_cons, after]
      cases (C.opLine depth cx l).value <;> exact ih

theorem opLines_value (ls : List Line) (op : Op) :
    (C.opLines depth cx ls op).value = ls.foldl (after C depth cx) (some op) := by
  induction ls generalizing op with
  | nil => rfl
  | cons l ls ih =>
      rw [Context.opLines, Said.value_bind, List.foldl_cons, after]
      cases (C.opLine depth cx l).value with
      | none => exact (after_none ls).symm
      | some f => exact ih (f op)

def hasBody : Undo → Bool
  | .computed _ _ | .compensate _ _ => true
  | .restore | .noUndo => false

/-- The undo that a line declares and what another says it needs unchanged do not meet:
the undo has no body, or nothing is needed. -/
def Settled (C : Context n) (cx : OpCx n) : Prop :=
  ∀ l ∈ lines cx.def_.body, ∀ l' ∈ lines cx.def_.body, l.keyword = "undo" →
    l'.keyword = "undo_pre" → ∀ u pre, (C.undo cx l.args).value = some u →
      (C.undoPre cx l'.args).value = some pre → hasBody u = true → pre = []

theorem opLine_undo {l : Line} (hk : l.keyword = "undo") :
    (C.opLine depth cx l).value =
      (C.undo cx l.args).value.map fun u op => { op with undo := u } := by
  obtain ⟨range, keyword, args⟩ := l
  obtain rfl : keyword = "undo" := hk
  exact Said.value_map _ _

theorem opLine_undoPre {l : Line} (hk : l.keyword = "undo_pre") :
    (C.opLine depth cx l).value = (C.undoPre cx l.args).value.map fun pre op =>
      { op with undo := Context.setUndoPre pre op.undo } := by
  obtain ⟨range, keyword, args⟩ := l
  obtain rfl : keyword = "undo_pre" := hk
  exact Said.value_map _ _

/-- An undo line names nothing it needs unchanged. -/
theorem setUndoPre_undo {args : List Arg} {u : Undo} (h : (C.undo cx args).value = some u)
    {pre : List String} : Context.setUndoPre pre u = u ↔ hasBody u = true → pre = [] := by
  have hshape : (∃ b, u = .computed b []) ∨ (∃ b, u = .compensate b []) ∨ u = .restore := by
    unfold Context.undo at h
    split at h
    · split at h
      · exact .inr (.inr (Option.some.inj h).symm)
      · rw [Said.value_map] at h
        obtain ⟨b, -, rfl⟩ := Option.map_eq_some_iff.mp h
        exact .inl ⟨b, rfl⟩
    · split at h
      · rw [Said.value_map] at h
        obtain ⟨b, -, rfl⟩ := Option.map_eq_some_iff.mp h
        exact .inr (.inl ⟨b, rfl⟩)
      · rw [Said.value_map] at h
        obtain ⟨b, -, rfl⟩ := Option.map_eq_some_iff.mp h
        exact .inl ⟨b, rfl⟩
    · rw [Said.value_map] at h
      obtain ⟨b, -, rfl⟩ := Option.map_eq_some_iff.mp h
      exact .inl ⟨b, rfl⟩
  rcases hshape with ⟨b, rfl⟩ | ⟨b, rfl⟩ | rfl
  · exact ⟨fun h _ => (Undo.computed.inj h).2, fun h => congrArg _ (h rfl)⟩
  · exact ⟨fun h _ => (Undo.compensate.inj h).2, fun h => congrArg _ (h rfl)⟩
  · exact iff_of_true rfl fun h => by cases h

/-- Lines of different keywords do not interfere. -/
theorem opLine_comm {l l' : Line} (hl : l ∈ lines cx.def_.body) (hl' : l' ∈ lines cx.def_.body)
    (hk : l.keyword ≠ l'.keyword) (hs : Settled C cx) (op : Option Op) :
    after C depth cx (after C depth cx op l) l' = after C depth cx (after C depth cx op l') l := by
  unfold after
  cases hf : (C.opLine depth cx l).value with
  | none => cases (C.opLine depth cx l').value <;> rfl
  | some f =>
      cases hg : (C.opLine depth cx l').value with
      | none => rfl
      | some g =>
          cases op with
          | none => rfl
          | some op =>
              refine congrArg some ?_
              by_cases hfield : fieldOf l.keyword = fieldOf l'.keyword
              · have hpair : ∀ {l l' : Line} {f g : Op → Op}, l ∈ lines cx.def_.body →
                    l' ∈ lines cx.def_.body → l.keyword = "undo" → l'.keyword = "undo_pre" →
                    (C.opLine depth cx l).value = some f → (C.opLine depth cx l').value = some g →
                    ∀ op, g (f op) = f (g op) := by
                  intro l l' f g hl hl' hu hp hf hg op
                  rw [opLine_undo hu] at hf
                  rw [opLine_undoPre hp] at hg
                  obtain ⟨u, hvu, rfl⟩ := Option.map_eq_some_iff.mp hf
                  obtain ⟨pre, hvp, rfl⟩ := Option.map_eq_some_iff.mp hg
                  have hset := (setUndoPre_undo hvu).mpr (hs l hl l' hl' hu hp u pre hvu hvp)
                  exact congrArg (fun u => { op with undo := u }) hset
                rcases eq_of_fieldOf hfield hk with ⟨hu, hp⟩ | ⟨hp, hu⟩
                · exact hpair hl hl' hu hp hf hg op
                · exact (hpair hl' hl hu hp hg hf op).symm
              · exact ((opLine_writes hf).comm (opLine_writes hg) hfield op).symm

/-- The same op with its statements in another order. -/
def OpCx.reordered (cx : OpCx n) (body : List Stmt) : OpCx n :=
  { cx with def_ := { cx.def_ with body := body } }

/-- An op at a call, its lines of different keywords. -/
structure Lined (n : Nat) extends OpCx n where
  distinct : ((lines def_.body).map Line.keyword).Nodup

/-- What is done to an op when its lines are read. -/
def finish (body : List Stmt) (op : Op) : Op :=
  let u := if (lines body).any fun l => l.keyword = "undo" then op.undo else .noUndo
  { op with undo := u, undoIdempotent := Context.idempotent body u }

theorem expandDef_value : (C.expandDef depth cx).value =
    ((lines cx.def_.body).foldl (after C depth cx) (some { id := cx.def_.name, footprint := [] })).map
      (finish cx.def_.body) := by
  rw [Context.expandDef, Said.value_bind, opLines_value]
  cases List.foldl (after C depth cx) _ _ <;> rfl

theorem expandDef_reordered (body : List Stmt) : (C.expandDef depth (cx.reordered body)).value =
    ((lines body).foldl (after C depth cx) (some { id := cx.def_.name, footprint := [] })).map
      (finish body) :=
  expandDef_value

theorem find_perm {ls ls' : List Line} (h : ls.Perm ls') (hd : (ls.map Line.keyword).Nodup)
    (k : String) : ls.find? (fun l => l.keyword = k) = ls'.find? fun l => l.keyword = k := by
  have hsame : ∀ l ∈ ls, ∀ l' ∈ ls, l.keyword = l'.keyword → l = l' := List.inj_on_of_nodup_map hd
  cases hf : ls.find? (fun l => decide (l.keyword = k)) with
  | none =>
      refine (List.find?_eq_none.mpr fun l hl => ?_).symm
      exact List.find?_eq_none.mp hf l (h.mem_iff.mpr hl)
  | some l =>
      have hl := List.mem_of_find?_eq_some hf
      have hk : l.keyword = k := by simpa using List.find?_some hf
      cases hg : ls'.find? (fun l => decide (l.keyword = k)) with
      | none => exact absurd (decide_eq_true hk) (List.find?_eq_none.mp hg l (h.mem_iff.mp hl))
      | some l' =>
          have hl' := h.mem_iff.mpr (List.mem_of_find?_eq_some hg)
          have hk' : l'.keyword = k := by simpa using List.find?_some hg
          rw [hsame l hl l' hl' (hk.trans hk'.symm)]

theorem finish_perm {body body' : List Stmt} (h : body.Perm body')
    (hd : ((lines body).map Line.keyword).Nodup) : finish body = finish body' := by
  have hl : (lines body).Perm (lines body') := h.filterMap _
  have hany : (lines body).any (fun l => decide (l.keyword = "undo")) =
      (lines body').any fun l => decide (l.keyword = "undo") := by
    rw [Bool.eq_iff_iff, List.any_eq_true, List.any_eq_true]
    simp only [hl.mem_iff]
  have hidem : Context.idempotent body = Context.idempotent body' := by
    funext u
    cases u with
    | computed b pre =>
        unfold Context.idempotent
        rw [find_perm hl hd, h.isEmpty_eq]
    | restore | compensate | noUndo => rfl
  funext op
  unfold finish
  rw [hany, hidem]

/-- The op is the same in every order of its lines, and its clause is chosen by the same
host. -/
def InOrder (C : Context n) (depth : Nat) (cx : OpCx n) : Prop :=
  ∀ body, cx.def_.body.Perm body →
    (C.expandDef depth (cx.reordered body)).value = (C.expandDef depth cx).value ∧
      Context.staticLocusHost body = Context.staticLocusHost cx.def_.body

/-- Its lines all come to an end. -/
def Ended (C : Context n) (depth : Nat) (cx : OpCx n) : Prop :=
  ∀ l ∈ lines cx.def_.body, (C.opLine depth cx l).value.isSome = true

theorem staticLocusHost_perm {body body' : List Stmt} (h : body.Perm body')
    (hd : ((lines body).map Line.keyword).Nodup) :
    Context.staticLocusHost body' = Context.staticLocusHost body := by
  have hl : (lines body).Perm (lines body') := h.filterMap _
  rw [Context.staticLocusHost, Context.staticLocusHost, find_perm hl hd]

theorem inOrder_of_settled {D : Lined n} (hs : Settled C D.toOpCx) : InOrder C depth D.toOpCx := by
  intro body h
  refine ⟨?_, staticLocusHost_perm h D.distinct⟩
  have hl : (lines D.def_.body).Perm (lines body) := h.filterMap _
  have hsame : ∀ l ∈ lines D.def_.body, ∀ l' ∈ lines D.def_.body, l.keyword = l'.keyword → l = l' :=
    List.inj_on_of_nodup_map D.distinct
  rw [expandDef_reordered, expandDef_value, finish_perm h D.distinct]
  refine congrArg _ (List.Perm.foldl_eq' hl (fun l hl l' hl' op => ?_) _).symm
  by_cases hk : l.keyword = l'.keyword
  · rw [hsame l hl l' hl' hk]
  · exact opLine_comm hl hl' hk hs op

/-- Two members stand at the end of some order. -/
theorem exists_last {α : Type} {xs : List α} {x y : α} (hx : x ∈ xs) (hy : y ∈ xs) (h : x ≠ y) :
    ∃ rest, xs.Perm (rest ++ [x, y]) := by
  obtain ⟨as, bs, rfl⟩ := List.append_of_mem hx
  have hmiddle : (as ++ x :: bs).Perm (x :: (as ++ bs)) := List.perm_middle
  have hy : y ∈ as ++ bs := (List.mem_cons.mp (hmiddle.mem_iff.mp hy)).resolve_left h.symm
  obtain ⟨cs, ds, hcs⟩ := List.append_of_mem hy
  refine ⟨cs ++ ds, hmiddle.trans ?_⟩
  rw [hcs]
  have hlast : (x :: (cs ++ y :: ds)).Perm ([x, y] ++ (cs ++ ds)) :=
    List.Perm.cons x List.perm_middle
  exact hlast.trans List.perm_append_comm

theorem fold_none {ls : List Line} {l : Line} (hl : l ∈ ls) (h : (C.opLine depth cx l).value = none)
    (op : Option Op) : ls.foldl (after C depth cx) op = none := by
  induction ls generalizing op with
  | nil => cases hl
  | cons k ls ih =>
      rw [List.foldl_cons]
      rcases List.mem_cons.mp hl with rfl | hl
      · rw [after, h]
        exact after_none ls
      · exact ih hl _

theorem ended_fold {ls : List Line} (h : ∀ l ∈ ls, (C.opLine depth cx l).value.isSome = true)
    (op : Op) : ∃ op', ls.foldl (after C depth cx) (some op) = some op' := by
  induction ls generalizing op with
  | nil => exact ⟨op, rfl⟩
  | cons l ls ih =>
      obtain ⟨f, hf⟩ := Option.isSome_iff_exists.mp (h l List.mem_cons_self)
      rw [List.foldl_cons, after, hf]
      exact ih (fun l hl => h l (List.mem_cons_of_mem _ hl)) (f op)

/-- The undo an op comes to, whose last lines are an undo and another. -/
theorem undo_of_last {rest : List Stmt} {l l' : Line} {op : Op} {f g : Op → Op}
    (hrest : (lines rest).foldl (after C depth cx) (some { id := cx.def_.name, footprint := [] }) =
      some op)
    (hl : (C.opLine depth cx l).value = some f) (hl' : (C.opLine depth cx l').value = some g)
    (hk : l.keyword = "undo" ∨ l'.keyword = "undo") :
    (C.expandDef depth (cx.reordered (rest ++ [.line l, .line l']))).value.map Op.undo =
      some (g (f op)).undo := by
  have hlines : lines (rest ++ [.line l, .line l']) = lines rest ++ [l, l'] :=
    List.filterMap_append
  have hany : (lines (rest ++ [.line l, .line l'])).any (fun l => l.keyword = "undo") = true := by
    rw [hlines, List.any_append]
    rcases hk with hk | hk <;> simp [hk]
  have hfold : (lines (rest ++ [.line l, .line l'])).foldl (after C depth cx)
      (some { id := cx.def_.name, footprint := [] }) = some (g (f op)) := by
    rw [hlines, List.foldl_append, hrest]
    show after C depth cx (after C depth cx (some op) l) l' = _
    rw [after, after, hl, hl']
    rfl
  rw [expandDef_reordered, hfold]
  refine congrArg some ?_
  show (if _ then _ else _ : Undo) = _
  rw [if_pos hany]

theorem settled_of_inOrder (h : InOrder C depth cx) (he : Ended C depth cx) : Settled C cx := by
  intro l hl l' hl' hk hk' u pre hu hpre
  rw [← setUndoPre_undo hu]
  have hmem : ∀ {l}, l ∈ lines cx.def_.body → Stmt.line l ∈ cx.def_.body := by
    intro l hl
    obtain ⟨s, hs, he⟩ := List.mem_filterMap.mp hl
    cases s with
    | line l' => exact Option.some.inj he ▸ hs
    | _ => cases he
  have hne : Stmt.line l ≠ Stmt.line l' := by
    intro h
    have hkk : l.keyword = l'.keyword := congrArg Line.keyword (Stmt.line.inj h)
    rw [hk, hk'] at hkk
    exact absurd hkk (by decide)
  obtain ⟨rest, hrest⟩ := exists_last (hmem hl) (hmem hl') hne
  have hswap : cx.def_.body.Perm (rest ++ [.line l', .line l]) :=
    hrest.trans (List.Perm.append_left rest (List.Perm.swap _ _ _))
  have hends : ∀ k ∈ lines rest, (C.opLine depth cx k).value.isSome = true := by
    intro k hk
    refine he k ((hrest.filterMap _).mem_iff.mpr ?_)
    rw [List.filterMap_append]
    exact List.mem_append_left _ hk
  obtain ⟨op, hop⟩ := ended_fold hends { id := cx.def_.name, footprint := [] }
  have hf : (C.opLine depth cx l).value = some fun op => { op with undo := u } := by
    rw [opLine_undo hk, hu]
    rfl
  have hg : (C.opLine depth cx l').value =
      some fun op => { op with undo := Context.setUndoPre pre op.undo } := by
    rw [opLine_undoPre hk', hpre]
    rfl
  have hone := undo_of_last hop hf hg (.inl hk)
  have htwo := undo_of_last hop hg hf (.inr hk)
  rw [(h _ hrest).1] at hone
  rw [(h _ hswap).1, hone] at htwo
  exact Option.some.inj htwo

/-- **The order of an op's lines** does not matter exactly where its undo and what that
needs unchanged do not meet, or a line comes to no end. -/
theorem inOrder_iff (D : Lined n) : InOrder C depth D.toOpCx ↔
    (Ended C depth D.toOpCx → Settled C D.toOpCx) := by
  constructor
  · exact fun h he => settled_of_inOrder h he
  · intro h
    by_cases he : Ended C depth D.toOpCx
    · exact inOrder_of_settled (h he)
    · intro body hp
      refine ⟨?_, staticLocusHost_perm hp D.distinct⟩
      have hl : (lines D.def_.body).Perm (lines body) := hp.filterMap _
      obtain ⟨l, hl', hnone⟩ : ∃ l ∈ lines D.def_.body, (C.opLine depth D.toOpCx l).value = none := by
        by_contra hc
        refine he fun l hl => ?_
        by_contra hn
        exact hc ⟨l, hl, Option.not_isSome_iff_eq_none.mp hn⟩
      rw [expandDef_reordered, expandDef_value, fold_none hl' hnone,
        fold_none (hl.mem_iff.mp hl') hnone]
      rfl

end Rescind.Expand

namespace Rescind.Declare

open Ast

/-! ## A site block -/

/-- The lines of a block that declare for a use. -/
def slotLines (slot : String) (body : List Stmt) : List Line :=
  (lines body).filter fun l => slotOf l = slot

/-- What a line of a use sets and nothing else touches is what its last line sets. -/
theorem last_counts {α : Type} {g : SiteDecl → α} {slot : String} {read : Line → α}
    (hset : ∀ d l, slotOf l = slot → g (siteLine d l) = read l)
    (hkeep : ∀ d l, slotOf l ≠ slot → g (siteLine d l) = g d)
    (hblock : ∀ d s, (∀ l, s ≠ .line l) → g (siteStmt d s) = g d)
    (body : List Stmt) (d : SiteDecl) :
    g (body.foldl siteStmt d) = ((slotLines slot body).getLast?.map read).getD (g d) := by
  induction body generalizing d with
  | nil => rfl
  | cons s body ih =>
      rw [List.foldl_cons, ih]
      by_cases hs : ∃ l, s = .line l
      · obtain ⟨l, rfl⟩ := hs
        by_cases hl : slotOf l = slot
        · have hcons : slotLines slot (.line l :: body) = l :: slotLines slot body := by
            simp [slotLines, lines, hl]
          rw [hcons, List.getLast?_cons]
          show _ = read _
          rw [show siteStmt d (.line l) = siteLine d l from rfl, hset d l hl]
          cases (slotLines slot body).getLast? <;> rfl
        · have hcons : slotLines slot (.line l :: body) = slotLines slot body := by
            simp [slotLines, lines, hl]
          rw [hcons, show siteStmt d (.line l) = siteLine d l from rfl, hkeep d l hl]
      · have hcons : slotLines slot (s :: body) = slotLines slot body := by
          unfold slotLines lines
          rw [List.filterMap_cons]
          cases s with
          | line l => exact absurd ⟨l, rfl⟩ hs
          | _ => rfl
        rw [hcons, hblock d s fun l he => hs ⟨l, he⟩]

/-- A line, by what it declares for the journal, for executors and for acceptors. -/
theorem siteLine_fields (d : SiteDecl) (l : Line) :
    ((siteLine d l).journal =
      if slotOf l = "journal" then d.journal ++ (declared l).filter fun b => !isKey b else d.journal) ∧
    ((siteLine d l).journalSign =
      if slotOf l = "journal" then ((declared l).filter isKey).head? else d.journalSign) ∧
    ((siteLine d l).execute = if slotOf l = "execute" then declared l else d.execute) ∧
    ((siteLine d l).deliverTo = if slotOf l = "deliver_to" then declared l else d.deliverTo) := by
  unfold siteLine
  split
  case h_9 hj _ _ hd he _ _ =>
    rw [if_neg hj, if_neg hj, if_neg he, if_neg hd]
    split <;> exact ⟨rfl, rfl, rfl, rfl⟩
  all_goals simp [*]

/-- A block adds operators and registrars. -/
theorem siteStmt_block (d : SiteDecl) {s : Stmt} (h : ∀ l, s ≠ .line l) : ∃ is rs,
    siteStmt d s = { d with identities := is, registrars := rs } := by
  cases s with
  | line l => exact absurd rfl (h l)
  | block r k b =>
      rw [siteStmt]
      split
      · exact ⟨_, _, rfl⟩
      · split <;> exact ⟨_, _, rfl⟩
  | _ => exact ⟨_, _, rfl⟩

section
variable (body : List Stmt)

/-- The executors are those of the last line that declares executors. -/
theorem execute_declare : (declare body).execute =
    ((slotLines "execute" body).getLast?.map declared).getD [] := by
  refine last_counts (g := SiteDecl.execute) (fun d l h => ?_) (fun d l h => ?_) (fun d s h => ?_)
    body {}
  · rw [(siteLine_fields d l).2.2.1, if_pos h]
  · rw [(siteLine_fields d l).2.2.1, if_neg h]
  · obtain ⟨is, rs, he⟩ := siteStmt_block d h
    rw [he]

theorem deliverTo_declare : (declare body).deliverTo =
    ((slotLines "deliver_to" body).getLast?.map declared).getD [] := by
  refine last_counts (g := SiteDecl.deliverTo) (fun d l h => ?_) (fun d l h => ?_)
    (fun d s h => ?_) body {}
  · rw [(siteLine_fields d l).2.2.2, if_pos h]
  · rw [(siteLine_fields d l).2.2.2, if_neg h]
  · obtain ⟨is, rs, he⟩ := siteStmt_block d h
    rw [he]

/-- The signing key is the first of the last line that declares sinks. -/
theorem journalSign_declare : (declare body).journalSign =
    ((slotLines "journal" body).getLast?.map fun l => ((declared l).filter isKey).head?).getD none := by
  refine last_counts (g := SiteDecl.journalSign) (fun d l h => ?_) (fun d l h => ?_)
    (fun d s h => ?_) body {}
  · rw [(siteLine_fields d l).2.1, if_pos h]
  · rw [(siteLine_fields d l).2.1, if_neg h]
  · obtain ⟨is, rs, he⟩ := siteStmt_block d h
    rw [he]

/-- The sinks are those of every line that declares sinks. -/
theorem journal_declare : (declare body).journal =
    (slotLines "journal" body).flatMap fun l => (declared l).filter fun b => !isKey b := by
  have h : ∀ (body : List Stmt) d, (body.foldl siteStmt d).journal = d.journal ++
      (slotLines "journal" body).flatMap fun l => (declared l).filter fun b => !isKey b := by
    intro body
    induction body with
    | nil => exact fun d => (List.append_nil _).symm
    | cons s body ih =>
        intro d
        rw [List.foldl_cons, ih]
        by_cases hs : ∃ l, s = .line l
        · obtain ⟨l, rfl⟩ := hs
          show (siteLine d l).journal ++ _ = _
          rw [(siteLine_fields d l).1]
          by_cases hl : slotOf l = "journal" <;> simp [slotLines, lines, hl]
        · obtain ⟨is, rs, he⟩ := siteStmt_block d fun l he => hs ⟨l, he⟩
          have hcons : slotLines "journal" (s :: body) = slotLines "journal" body := by
            unfold slotLines lines
            rw [List.filterMap_cons]
            cases s with
            | line l => exact absurd ⟨l, rfl⟩ hs
            | _ => rfl
          rw [he, hcons]
  exact h body {}

end

/-- Nothing a site block declares of the journal, of executors and of acceptors is
discarded. -/
structure Keeps (body : List Stmt) : Prop where
  sinks : ∀ l ∈ slotLines "journal" body, ∀ b ∈ declared l, isKey b = false → b ∈ (declare body).journal
  keys : ∀ l ∈ slotLines "journal" body, ∀ b ∈ declared l, isKey b = true →
    (declare body).journalSign = some b
  executors : ∀ l ∈ slotLines "execute" body, ∀ b ∈ declared l, b ∈ (declare body).execute
  acceptors : ∀ l ∈ slotLines "deliver_to" body, ∀ b ∈ declared l, b ∈ (declare body).deliverTo

/-- Every line of a use declares no more than the last one, and the keys of all lines
that declare sinks are the first of the last one. -/
structure Gathered (body : List Stmt) : Prop where
  keys : ∀ last ∈ (slotLines "journal" body).getLast?, ∀ l ∈ slotLines "journal" body,
    ∀ b ∈ declared l, isKey b = true → (declared last).find? isKey = some b
  executors : ∀ last ∈ (slotLines "execute" body).getLast?, ∀ l ∈ slotLines "execute" body,
    declared l ⊆ declared last
  acceptors : ∀ last ∈ (slotLines "deliver_to" body).getLast?, ∀ l ∈ slotLines "deliver_to" body,
    declared l ⊆ declared last

/-- **A site block keeps** what it declares exactly where each last line gathers what
the lines of its use declare. -/
theorem keeps_iff (body : List Stmt) : Keeps body ↔ Gathered body := by
  constructor
  · intro h
    refine ⟨fun last hlast l hl b hb hk => ?_, fun last hlast l hl b hb => ?_,
      fun last hlast l hl b hb => ?_⟩
    · have hkey := h.keys l hl b hb hk
      rw [journalSign_declare, hlast] at hkey
      rwa [← List.head?_filter]
    · have hin := h.executors l hl b hb
      rwa [execute_declare, hlast] at hin
    · have hin := h.acceptors l hl b hb
      rwa [deliverTo_declare, hlast] at hin
  · intro h
    have hlast : ∀ {slot l}, l ∈ slotLines slot body → ∃ last, (slotLines slot body).getLast? = some last := by
      intro slot l hl
      exact ⟨_, List.getLast?_eq_some_getLast (List.ne_nil_of_mem hl)⟩
    refine ⟨fun l hl b hb hk => ?_, fun l hl b hb hk => ?_, fun l hl b hb => ?_, fun l hl b hb => ?_⟩
    · rw [journal_declare]
      exact List.mem_flatMap.mpr ⟨l, hl, List.mem_filter.mpr ⟨hb, by rw [hk]; rfl⟩⟩
    · obtain ⟨last, hlast⟩ := hlast hl
      have hkey := h.keys last hlast l hl b hb hk
      rw [journalSign_declare, hlast]
      show ((declared last).filter isKey).head? = some b
      rw [List.head?_filter, hkey]
    · obtain ⟨last, hlast⟩ := hlast hl
      rw [execute_declare, hlast]
      exact h.executors last hlast l hl hb
    · obtain ⟨last, hlast⟩ := hlast hl
      rw [deliverTo_declare, hlast]
      exact h.acceptors last hlast l hl hb

end Rescind.Declare

namespace Rescind

open Ast Expand Declare

/-- **The order of lines.**  An op is the same in every order of its lines exactly where
its undo and what that needs unchanged do not meet, or a line comes to no end; and a site
block keeps what it declares exactly where each last line gathers what the lines of its
use declare. -/
theorem order_of_lines {n : Nat} (C : Context n) (depth : Nat) (D : Lined n) (block : List Stmt) :
    (InOrder C depth D.toOpCx ↔ (Ended C depth D.toOpCx → Settled C D.toOpCx)) ∧
      (Keeps block ↔ Gathered block) :=
  ⟨inOrder_iff D, keeps_iff block⟩

/-- `undo_pre api.token` before `undo: install(:x)`. -/
def undonePre : List Stmt :=
  [.line ⟨⟨0, 0⟩, "undo_pre", [.expr (.ref ⟨0, 0⟩ ["api", "token"])]⟩,
    .line ⟨⟨0, 0⟩, "undo", [.expr (.call ⟨0, 0⟩ ["install"] [.expr (.lit ⟨0, 0⟩ (.atom "x"))])]⟩]

/-- `journal to: local(), key()` and then `journal to: stdout()`. -/
def unsigned : List Stmt :=
  [.line ⟨⟨0, 0⟩, "journal", [.kw (.mk ⟨0, 0⟩ "to" (.expr (.list ⟨0, 0⟩
      [.expr (.call ⟨0, 0⟩ ["local"] []), .expr (.call ⟨0, 0⟩ ["key"] [])])))]⟩,
    .line ⟨⟨0, 0⟩, "journal", [.kw (.mk ⟨0, 0⟩ "to" (.expr (.call ⟨0, 0⟩ ["stdout"] [])))]⟩]

/-- An op that loses what its undo needs unchanged in one order and not in the other, and
a block that loses its signing key. -/
theorem lost_lines : (¬∀ (C : Context 1) (D : Lined 1), InOrder C 0 D.toOpCx) ∧
    ¬∀ block, Keeps block := by
  constructor
  · intro h
    let C : Context 1 :=
      { program := fun _ => ⟨"", [], [], [], []⟩, contracts := [], parseExpr := fun _ => none,
        overflow := .stops }
    let D : Lined 1 :=
      ⟨⟨0, ⟨⟨0, 0⟩, "defop", "o", ⟨0, 0⟩, none, [], undonePre⟩, [], {}⟩, by decide⟩
    have hended : Ended C 0 D.toOpCx := by
      intro l hl
      rcases List.mem_cons.mp hl with rfl | hl
      · rfl
      · obtain rfl := List.mem_singleton.mp hl
        rfl
    have hpre := settled_of_inOrder (h C D) hended _ (List.mem_cons_of_mem _ List.mem_cons_self) _
      List.mem_cons_self rfl rfl (.computed [.install "x"] []) ["api:token"] rfl rfl rfl
    cases hpre
  · intro h
    have hkey := (h unsigned).keys _ List.mem_cons_self _ (List.mem_cons_of_mem _ List.mem_cons_self) rfl
    cases hkey

end Rescind
