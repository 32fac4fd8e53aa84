/-
# `Rescind.Safety.Arguments` — arguments a verb cannot read

Some arguments a verb must have, some it may have, and either is refused where it
cannot be read.  Others are guessed at: where one of them cannot be read the verb
goes on as if it were not there, or with the low bits of its number.

    what a verb accepts                                     (`accepts_iff`)
    an argument that cannot be read is refused exactly where the
    request is refused in any case or none is guessed at    (`refused_iff_unguessed`)

How a value is read is `serde`'s, kind by kind.  What a verb makes of arguments it
has read is not looked at.
-/
import Rescind.Control.Dispatch
import Rescind.Engine.Script

namespace Rescind.Control

open Lib

/-- What an argument is read as. -/
inductive Kind where
  | text
  | flag
  | u64
  | u32
  | texts
  | u32s
  | vars
  | ir
  | mode
  /-- A mode, or no text at all. -/
  | modeIfText

/-- Whether a value can be read as that. -/
def Kind.reads (S : Serde) : Kind → Value → Bool
  | .text, v => v.asStr.isSome
  | .flag, v => v.asBool.isSome
  | .u64, v => v.asU64.isSome
  | .u32, v => v.asU32.isSome
  | .texts, v => v.asStrings.isSome
  | .u32s, v => v.asU32s.isSome
  | .vars, v => v.asVars.isSome
  | .ir, v => (S.planIr v).toOption.isSome
  | .mode, v => v.asStr.any fun s => s = "auto" || s = "manual"
  | .modeIfText, v => v.asStr.all fun s => s = "auto" || s = "manual"

/-- An argument: its name, and what it is read as. -/
abbrev Row := String × Kind

namespace Daemon

variable (d : Daemon) (op : Operator) (args : Value)

/-- There, and readable. -/
def Readable (row : Row) : Prop := ∃ v, args.get row.1 = some v ∧ row.2.reads d.serde v = true

/-- There, and not readable. -/
def Unreadable (row : Row) : Prop := ∃ v, args.get row.1 = some v ∧ row.2.reads d.serde v = false

/-- What is read for a scope: a step where no acknowledgement is. -/
def scopeRows : List Row :=
  if ((args.get "ack").bind Value.asU64).isSome then [("ack", .u32)]
  else [("ack", .u32), ("step", .u32)]

/-- The arguments a verb reads. -/
def reads : VerbName → List Row
  | .apply => [("ir", .ir), ("params", .vars), ("acks", .u32s), ("forced", .texts), ("mode", .mode)]
      ++ if d.dryRun then [] else [("rehearsal", .flag)]
  | .drill => [("ir", .ir), ("params", .vars)]
  | .status | .confirm | .resume | .cancel | .reveal => [("instance", .text)]
  | .recant => [("instance", .text), ("force", .texts)]
  | .renew => [("instance", .text), ("wane_s", .u64)]
  | .commit | .abandon => [("instance", .text), ("reason", .text)]
  | .handoffDone => [("instance", .text), ("step", .u32)]
  | .bootstrap => [("host", .text)]
  | .challenge => ("instance", .text) :: scopeRows args ++ [("context", .text)]
  | .approve => ("instance", .text) :: scopeRows args ++ [("authenticator", .text), ("proof", .text)]
  | .ack => [("instance", .text), ("step", .u32), ("reason", .text), ("proof", .text),
      ("authenticator", .text)]
  | .reclaim => [("host", .text), ("instance", .text), ("force", .flag), ("reason", .text)]
  | .doctor => [("canary", .flag), ("canary_wait_s", .u64)]
  | .hooks => []

/-- Those it guesses at where they cannot be read. -/
def guesses : VerbName → List Row
  | .apply => ("mode", .text) :: if d.dryRun then [] else [("rehearsal", .flag)]
  | .status => [("instance", .text)]
  | .handoffDone => [("step", .u32)]
  | .challenge => scopeRows args ++ [("context", .text)]
  | .approve => scopeRows args ++ [("authenticator", .text), ("proof", .text)]
  | .ack => [("step", .u32), ("proof", .text)]
  | .reclaim => [("force", .flag), ("reason", .text)]
  | .doctor => [("canary", .flag), ("canary_wait_s", .u64)]
  | _ => []

/-- Those that must be there and readable. -/
def needs : VerbName → List Row
  | .apply | .drill => [("ir", .ir)]
  | .recant | .confirm | .resume | .cancel | .challenge | .approve | .reveal => [("instance", .text)]
  | .renew => [("instance", .text), ("wane_s", .u64)]
  | .commit | .abandon => [("instance", .text), ("reason", .text)]
  | .handoffDone => [("instance", .text), ("step", .u64)]
  | .bootstrap => [("host", .text)]
  | .ack => [("instance", .text), ("step", .u64), ("reason", .text), ("authenticator", .text)]
  | .reclaim => [("host", .text), ("instance", .text)]
  | .status | .doctor | .hooks => []

/-- Those that must be readable where they are there. -/
def takes : VerbName → List Row
  | .apply => [("params", .vars), ("acks", .u32s), ("forced", .texts), ("mode", .modeIfText)]
  | .drill => [("params", .vars)]
  | .recant => [("force", .texts)]
  | _ => []

/-- The operator may apply the plan. -/
def Applies : Prop :=
  ∀ v ir, args.get "ir" = some v → d.serde.planIr v = .ok ir → op.admitsPlan ir.plan.id = true

/-- The operator may act on the instance. -/
def Scoped : Prop :=
  ∀ id, textAt args "instance" = some id →
    ∃ plan, d.plan id = .ok (some plan) ∧ op.admitsPlan plan = true

/-- What a verb asks besides its arguments. -/
def Allowed : VerbName → Prop
  | .apply => d.Applies op args
  | .drill => d.Applies op args ∧ d.dryRun = false
  | .status | .recant | .renew | .confirm | .commit | .resume | .handoffDone | .cancel
  | .challenge | .approve | .ack | .reveal => d.Scoped op args
  | .abandon => op.admin = true ∧ d.Scoped op args ∧
      ∀ reason, textAt args "reason" = some reason → Text.trim reason.toList ≠ []
  | .bootstrap | .reclaim | .doctor => op.admin = true
  | .hooks => True

/-- What a verb accepts. -/
def Accepts (v : VerbName) : Prop :=
  (∀ row ∈ needs v, d.Readable args row) ∧ (∀ row ∈ takes v, ¬ d.Unreadable args row) ∧
    d.Allowed op args v

section

variable {d op args} {name : String}

theorem readable_text : d.Readable args (name, .text) ↔ ∃ s, textAt args name = some s := by
  unfold Readable textAt
  cases args.get name with
  | none => simp
  | some v => simp [Kind.reads, Option.isSome_iff_exists]

theorem readable_u64 :
    d.Readable args (name, .u64) ↔ ∃ n, (args.get name).bind Value.asU64 = some n := by
  unfold Readable
  cases args.get name with
  | none => simp
  | some v => simp [Kind.reads, Option.isSome_iff_exists]

theorem readable_ir :
    d.Readable args (name, .ir) ↔ ∃ v, args.get name = some v ∧ ∃ ir, d.serde.planIr v = .ok ir := by
  refine exists_congr fun v => and_congr_right fun _ => ?_
  cases hv : d.serde.planIr v <;> simp [Kind.reads, hv, Except.toOption]

theorem not_unreadable {k : Kind} :
    ¬ d.Unreadable args (name, k) ↔ ∀ v, args.get name = some v → k.reads d.serde v = true := by
  simp [Unreadable]

theorem modeIfText_iff :
    (∀ v, args.get "mode" = some v → Kind.modeIfText.reads d.serde v = true) ↔
      ∀ s, textAt args "mode" = some s → s = "auto" ∨ s = "manual" := by
  unfold textAt
  cases args.get "mode" with
  | none => simp
  | some v => cases hv : v.asStr <;> simp [Kind.reads, hv]

/-- A verb hands the engine something exactly where it accepts the request. -/
theorem accepts_iff (v : VerbName) :
    Gives (d.serve op args v) (fun _ => True) ↔ d.Accepts op args v := by
  cases v with
  | apply =>
      simp only [serve, apply, gives_bind, gives_argIr, gives_admitted, gives_argOr, gives_argMode,
        gives_pure, Accepts, needs, takes, Allowed, Applies, List.forall_mem_cons,
        List.not_mem_nil, not_unreadable, modeIfText_iff, readable_ir]
      simp only [Kind.reads]
      grind
  | drill =>
      simp only [serve, drill, gives_bind, gives_argIr, gives_admitted, gives_argOr, gives_unless,
        gives_pure, Accepts, needs, takes, Allowed, Applies, List.forall_mem_cons,
        List.not_mem_nil, not_unreadable, readable_ir]
      simp only [Kind.reads]
      grind
  | status =>
      simp only [serve, status, Accepts, needs, takes, Allowed, Scoped, List.not_mem_nil]
      cases h : (args.get "instance").bind Value.asStr with
      | none => simp [textAt, h, gives_pure]
      | some id =>
          simp only [textAt, h, gives_bind, gives_scopedTo, gives_pure]
          grind
  | recant =>
      simp only [serve, recant, gives_bind, gives_ownInstance, gives_argForce, gives_pure,
        Accepts, needs, takes, Allowed, Scoped, List.forall_mem_cons, List.not_mem_nil,
        not_unreadable, readable_text]
      simp only [Kind.reads]
      grind
  | renew =>
      simp only [serve, renew, gives_bind, gives_ownInstance, gives_argU64, gives_pure,
        Accepts, needs, takes, Allowed, Scoped, List.forall_mem_cons, List.not_mem_nil,
        readable_text, readable_u64]
      grind
  | confirm | resume | cancel =>
      simp only [serve, plain, gives_bind, gives_ownInstance, gives_pure,
        Accepts, needs, takes, Allowed, Scoped, List.forall_mem_cons, List.not_mem_nil,
        readable_text]
      grind
  | commit =>
      simp only [serve, commit, gives_bind, gives_ownInstance, gives_argStr, gives_pure,
        Accepts, needs, takes, Allowed, Scoped, List.forall_mem_cons, List.not_mem_nil,
        readable_text]
      grind
  | handoffDone =>
      simp only [serve, handoffDone, gives_bind, gives_ownInstance, gives_argU64, gives_pure,
        Accepts, needs, takes, Allowed, Scoped, List.forall_mem_cons, List.not_mem_nil,
        readable_text, readable_u64]
      grind
  | abandon =>
      simp only [serve, abandon, gives_bind, gives_admin, gives_argStr, gives_unless,
        gives_scopedTo, gives_pure, Accepts, needs, takes, Allowed, Scoped, List.forall_mem_cons,
        List.not_mem_nil, readable_text]
      grind
  | bootstrap =>
      simp only [serve, bootstrap, gives_bind, gives_admin, gives_argStr, gives_pure,
        Accepts, needs, takes, Allowed, List.forall_mem_cons, List.not_mem_nil, readable_text]
      grind
  | challenge =>
      simp only [serve, challenge, gives_bind, gives_ownInstance, gives_pure,
        Accepts, needs, takes, Allowed, Scoped, List.forall_mem_cons, List.not_mem_nil,
        readable_text]
      grind
  | approve =>
      simp only [serve, approve, gives_bind, gives_ownInstance, gives_pure,
        Accepts, needs, takes, Allowed, Scoped, List.forall_mem_cons, List.not_mem_nil,
        readable_text]
      grind
  | ack =>
      simp only [serve, ack, gives_bind, gives_ownInstance, gives_argU64, gives_argStr, gives_pure,
        Accepts, needs, takes, Allowed, Scoped, List.forall_mem_cons, List.not_mem_nil,
        readable_text, readable_u64]
      grind
  | reveal =>
      simp only [serve, reveal, gives_bind, gives_ownInstance, gives_pure,
        Accepts, needs, takes, Allowed, Scoped, List.forall_mem_cons, List.not_mem_nil,
        readable_text]
      grind
  | reclaim =>
      simp only [serve, reclaim, gives_bind, gives_admin, gives_argStr, gives_pure,
        Accepts, needs, takes, Allowed, List.forall_mem_cons, List.not_mem_nil, readable_text]
      grind
  | doctor =>
      simp only [serve, doctor, gives_bind, gives_admin, gives_pure, Accepts, needs, takes,
        Allowed, List.not_mem_nil]
      grind
  | hooks => simp [serve, gives_ok, Accepts, needs, takes, Allowed]

/-! ## What is guessed at -/

/-- What cannot be read is needed, taken where it is there, or guessed at. -/
theorem guessed_of_unreadable {v : VerbName} {row : Row} (hr : row ∈ d.reads args v)
    (hu : d.Unreadable args row) (ha : d.Accepts op args v) :
    ∃ row ∈ d.guesses args v, d.Unreadable args row := by
  obtain ⟨hneeds, htakes, -⟩ := ha
  obtain ⟨x, hx, hf⟩ := hu
  have hnot : row ∉ needs v := by
    intro hmem
    obtain ⟨y, hy, ht⟩ := hneeds row hmem
    cases hx.symm.trans hy
    cases hf.symm.trans ht
  have hnor : row ∉ takes v := fun hmem => htakes row hmem ⟨x, hx, hf⟩
  have hmode : row = ("mode", .mode) → v = .apply → d.Unreadable args ("mode", .text) := by
    rintro rfl rfl
    have hm := htakes ("mode", .modeIfText) (by simp [takes])
    refine ⟨x, hx, ?_⟩
    cases hs : x.asStr with
    | none => simp [Kind.reads, hs]
    | some s =>
        refine absurd ⟨x, hx, ?_⟩ hm
        simpa [Kind.reads, hs] using hf
  by_cases hm : row = ("mode", .mode) ∧ v = .apply
  · refine ⟨("mode", .text), ?_, hmode hm.1 hm.2⟩
    rw [hm.2]
    exact List.mem_cons_self
  · refine ⟨row, ?_, x, hx, hf⟩
    cases v <;> simp [reads, needs, takes, guesses] at hr hnot hnor hm ⊢ <;> grind

/-- What a verb guesses at is among what it reads. -/
theorem unreadable_of_guessed {v : VerbName} {row : Row} (hr : row ∈ d.guesses args v)
    (hu : d.Unreadable args row) : ∃ row ∈ d.reads args v, d.Unreadable args row := by
  by_cases hm : row = ("mode", .text)
  · have hv : ("mode", .mode) ∈ d.reads args v := by
      rw [hm] at hr
      cases v <;> simp [reads, guesses, scopeRows] at hr ⊢
      all_goals split at hr <;> simp at hr
    obtain ⟨x, hx, hf⟩ := hm ▸ hu
    refine ⟨("mode", .mode), hv, x, hx, ?_⟩
    have hs : x.asStr = none := by simpa [Kind.reads] using hf
    simp [Kind.reads, hs]
  · refine ⟨row, ?_, hu⟩
    cases v <;> simp [reads, guesses] at hr ⊢ <;> grind

end

/-- An argument of the verb that cannot be read is refused. -/
def Refused (verb : String) : Prop :=
  ∀ v, VerbName.ofString verb = some v → (∃ row ∈ d.reads args v, d.Unreadable args row) →
    ∃ e, d.dispatchInner op args verb = .error e

/-- No argument the verb guesses at is unreadable, if the verb accepts the request. -/
def Unguessed (verb : String) : Prop :=
  ∀ v, VerbName.ofString verb = some v → d.Accepts op args v →
    ∀ row ∈ d.guesses args v, ¬ d.Unreadable args row

/-- **An argument that cannot be read** is refused exactly where the request is
refused in any case or none of those is unreadable that are guessed at. -/
theorem refused_iff_unguessed (verb : String) :
    d.Refused op args verb ↔ d.Unguessed op args verb := by
  refine forall_congr' fun v => forall_congr' fun hv => ?_
  have hserve : d.dispatchInner op args verb = d.serve op args v := by
    rw [dispatchInner, hv]
  rw [hserve]
  constructor
  · intro h ha row hrow hu
    obtain ⟨y, hy, -⟩ := (accepts_iff v).mpr ha
    obtain ⟨e, he⟩ := h (unreadable_of_guessed hrow hu)
    cases he.symm.trans hy
  · intro h hu
    obtain ⟨row, hrow, hu⟩ := hu
    cases hs : d.serve op args v with
    | error e => exact ⟨e, rfl⟩
    | ok c =>
        have ha := (accepts_iff v).mp ⟨c, hs, trivial⟩
        obtain ⟨row, hrow, hu⟩ := guessed_of_unreadable hrow hu ha
        exact absurd hu (h ha row hrow)

end Daemon

/-! ## Guesses -/

namespace Guessing

/-- A plan of no items. -/
def ir : PlanIr := smallPlan "p" "web" []

/-- As it is written. -/
def written : Value := .object [
  ("ir_version", .number (.pos 6)),
  ("requester", .string "ops"),
  ("site", .object [
    ("hosts", .array [.object [
      ("name", .string "web"), ("os", .string "linux"), ("reach", .array [.string "local"]),
      ("filesystem", .bool true), ("stdin_preamble", .bool true), ("artifact", .null)]]),
    ("transports", .array [.string "local"]),
    ("authenticators", .array []),
    ("max_wait_s", .null),
    ("scheduler_present", .array []),
    ("secrets_deliver_to", .array []),
    ("approval", .null)]),
  ("plan", .object [
    ("id", .string "p"), ("owner", .string "web"), ("gate", .null), ("wane_s", .number (.pos 3600)),
    ("renew_within_s", .null), ("backstop", .null), ("fires_by_construction", .bool false),
    ("strictness", .string "strict"), ("mode", .string "manual"), ("exclusivity", .null),
    ("require_journal", .null), ("body", .array []), ("probes", .array [])])]

def textAt (v : Value) (name : String) : Except String String :=
  match v.get name with
  | some (.string s) => .ok s
  | some _ => .error ("invalid type for `" ++ name ++ "`, expected a string")
  | none => .error ("missing field `" ++ name ++ "`")

/-- A reader of plans of no items that are owned by the site's one host. -/
def readPlan (v : Value) : Except String PlanIr := do
  let plan ← ((v.get "plan").elim (.error "missing field `plan`") .ok)
  let id ← textAt plan "id"
  let owner ← textAt plan "owner"
  pure (smallPlan id owner [])

def daemon : Daemon := ⟨false, ⟨readPlan, fun _ _ => "invalid type"⟩, fun _ => .ok (some "p")⟩

def operator : Operator := ⟨"ana", .socketOwner, ["all"], true⟩

/-- An apply that says `"rehearsal": "yes"`. -/
def rehearsed : Value := .object [("ir", written), ("rehearsal", .string "yes")]

/-- It is handed to the engine as no rehearsal. -/
theorem rehearsal_guessed :
    ¬ ∀ (d : Daemon) (op : Operator) (args : Value) (verb : String),
      d.Refused op args verb := by
  intro h
  have hu : daemon.Unreadable rehearsed ("rehearsal", .flag) := ⟨.string "yes", rfl, rfl⟩
  have hrow : ("rehearsal", .flag) ∈ daemon.reads rehearsed .apply := by
    simp [Daemon.reads, daemon]
  obtain ⟨e, he⟩ := h daemon operator rehearsed "apply" .apply rfl ⟨_, hrow, hu⟩
  have hok : daemon.dispatchInner operator rehearsed "apply" = .ok (.verb (.apply ir [] {})) := rfl
  cases hok.symm.trans he

end Guessing

end Rescind.Control
