/-
# `Rescind.Engine.Secrets` — what the acceptors keep

The built-in bindings a secret is delivered to, and `rescind reveal`.  An
acceptor is outside the engine: it is asked (`keeping`), and what it did is told
in a story, the newest first.  `requester()` hands a secret to the client
attached to the verb; `hold()` keeps one in memory for each instance, until it
is taken, dropped, or past its bound; a hook answers for itself, and keeps
nothing here.
-/
import Rescind.Engine.Observe

namespace Rescind

open Lib

/-- One secret in memory, with the instant it stops being available. -/
structure Kept where
  label : String
  value : String
  until_ : Option Instant
  deriving DecidableEq, Repr

/-- The bound of a secret is over. -/
def Kept.over (k : Kept) (now : Instant) : Bool :=
  match k.until_ with
  | none => false
  | some u => u.unixS ≤ now.unixS

/-! ## `hold(until: :wane | DURATION)` -/

/-- The daemon's memory: by instance, in order of it. -/
structure Hold where
  duration : Option Duration
  kept : Assoc String Kept
  sorted : kept.Sorted

namespace Hold

def new (duration : Option Duration) : Hold := ⟨duration, [], Assoc.Sorted.nil⟩

/-- The earlier of the declared duration and the bound the plan puts. -/
def bound (h : Hold) (now : Instant) (until_ : Option Instant) : Option Instant :=
  match h.duration.map now.plus, until_ with
  | some a, some b => some ⟨min a.unixS b.unixS⟩
  | a, none => a
  | none, b => b

def deliver (h : Hold) (inst label value : String) (now : Instant) (until_ : Option Instant) :
    Hold :=
  { h with
    kept := h.kept.insert inst ⟨label, value, h.bound now until_⟩
    sorted := h.sorted.insert inst _ }

def remove (h : Hold) (inst : String) : Hold :=
  { h with kept := h.kept.erase inst, sorted := h.sorted.filter _ }

def past (now : Instant) (kv : String × Kept) : Bool := kv.2.over now

def expire (h : Hold) (now : Instant) : Hold :=
  { h with kept := h.kept.filter fun kv => !past now kv, sorted := h.sorted.filter _ }

def gone (h : Hold) (now : Instant) : List (String × Kept) := h.kept.filter (past now)

def dropAll (h : Hold) : Hold := new h.duration

theorem kept_remove (h : Hold) (x y : String) :
    (h.remove x).kept.get y = if y = x then none else h.kept.get y := by
  by_cases hy : y = x
  · rw [if_pos hy, hy]
    exact Assoc.get_erase_self _ _
  · rw [if_neg hy]
    exact Assoc.get_erase_ne _ hy

theorem kept_expire (h : Hold) (now : Instant) (y : String) :
    (h.expire now).kept.get y =
      if y ∈ (h.gone now).map Prod.fst then none else h.kept.get y := by
  have hg : y ∈ (h.gone now).map Prod.fst ↔ _ := h.sorted.mem_keys_filter (Hold.past now) y
  unfold Hold.expire
  rw [h.sorted.get_filter]
  cases hy : h.kept.get y with
  | none => simp
  | some s =>
      have hp : y ∈ (h.gone now).map Prod.fst ↔ Hold.past now (y, s) = true := by
        simpa [hy] using hg
      by_cases hc : Hold.past now (y, s) = true
      · rw [if_pos (hp.mpr hc)]
        simp [hc]
      · rw [if_neg fun hm => hc (hp.mp hm)]
        simp [hc]

end Hold

/-! ## `requester()` -/

/-- The channel to the client: whether one is attached, and what it is to be
handed, by instance. -/
structure Mailbox where
  attached : Bool
  pending : Assoc String (List (String × String))
  deriving DecidableEq, Repr

namespace Mailbox

def deliver (m : Mailbox) (inst label value : String) : Mailbox :=
  if m.attached then
    { m with pending := m.pending.insert inst ((m.pending.get inst).getD [] ++ [(label, value)]) }
  else m

def dropFor (m : Mailbox) (inst : String) : List String × Mailbox :=
  (((m.pending.get inst).getD []).map Prod.fst, { m with pending := m.pending.erase inst })

def dropAll (m : Mailbox) : List (String × String) × Mailbox :=
  (m.pending.flatMap fun kv => kv.2.map fun lv => (kv.1, lv.1), { m with pending := [] })

end Mailbox

/-! ## The acceptors -/

inductive Acceptor where
  | requester (m : Mailbox)
  | hold (h : Hold)
  | hook

/-- What an acceptor keeps for an instance, for `reveal`. -/
def Acceptor.kept : Acceptor → String → Option Kept
  | .hold h, inst => h.kept.get inst
  | _, _ => none

/-- What became of a secret at the `i`-th acceptor. -/
inductive Happening where
  | offered (i : Nat) (inst label : String) (took : Bool)
  /-- `hold()` keeps a secret, over what it kept before. -/
  | kept (i : Nat) (inst : String) (k : Kept) (before : Option Kept)
  | taken (i : Nat) (inst : String) (k : Kept) (at_ : Instant)
  | dropped (i : Nat) (inst : String) (k : Kept)
  deriving DecidableEq, Repr

/-- The acceptors beside the rest of the outside. -/
structure Keep (τ : Type) where
  rest : τ
  acceptors : List Acceptor
  story : List Happening := []

namespace Keep

variable {τ : Type}

/-- What the `i`-th acceptor keeps for an instance. -/
def kept (k : Keep τ) (i : Nat) (inst : String) : Option Kept :=
  (k.acceptors[i]?).bind fun a => a.kept inst

/-- The `i`-th acceptor changed, as told. -/
def turn (k : Keep τ) (i : Nat) (a : Acceptor) (told : List Happening) : Keep τ :=
  { k with acceptors := k.acceptors.set i a, story := told ++ k.story }

def take (k : Keep τ) (now : Instant) (i : Nat) (inst : String) :
    Option (String × String) × Keep τ :=
  match k.acceptors[i]? with
  | some (.hold h) => match h.kept.get inst with
      | some s => (some (s.label, s.value), k.turn i (.hold (h.remove inst)) [.taken i inst s now])
      | none => (none, k)
  | _ => (none, k)

def dropFor (k : Keep τ) (i : Nat) (inst : String) : List String × Keep τ :=
  match k.acceptors[i]? with
  | some (.requester m) => ((m.dropFor inst).1, k.turn i (.requester (m.dropFor inst).2) [])
  | some (.hold h) => match h.kept.get inst with
      | some s => ([s.label], k.turn i (.hold (h.remove inst)) [.dropped i inst s])
      | none => ([], k)
  | _ => ([], k)

def labels (gone : List (String × Kept)) : List (String × String) :=
  gone.map fun kv => (kv.1, kv.2.label)

def told (i : Nat) (gone : List (String × Kept)) : List Happening :=
  gone.map fun kv => .dropped i kv.1 kv.2

def expire (k : Keep τ) (i : Nat) (now : Instant) : List (String × String) × Keep τ :=
  match k.acceptors[i]? with
  | some (.hold h) => (labels (h.gone now), k.turn i (.hold (h.expire now)) (told i (h.gone now)))
  | _ => ([], k)

def dropAll (k : Keep τ) (i : Nat) : List (String × String) × Keep τ :=
  match k.acceptors[i]? with
  | some (.requester m) => (m.dropAll.1, k.turn i (.requester m.dropAll.2) [])
  | some (.hold h) => (labels h.kept, k.turn i (.hold h.dropAll) (told i h.kept))
  | _ => ([], k)

/-- Offer a secret; a hook is asked. -/
def offer (k : Keep τ) (ask : Option (Except String Bool) × τ) (i : Nat)
    (inst label value : String) (now : Instant) (until_ : Option Instant) :
    Option (Except String Bool) × Keep τ :=
  match k.acceptors[i]? with
  | some (.requester m) =>
      (some (.ok m.attached), k.turn i (.requester (m.deliver inst label value))
        [.offered i inst label m.attached])
  | some (.hold h) =>
      (some (.ok true), k.turn i (.hold (h.deliver inst label value now until_))
        [.kept i inst ⟨label, value, h.bound now until_⟩ (h.kept.get inst),
          .offered i inst label true])
  | _ =>
      (ask.1, { k with
        rest := ask.2
        story := .offered i inst label (ask.1 = some (.ok true)) :: k.story })

end Keep

/-- The outside with these acceptors in it; `time` is when things happen. -/
def keeping {τ : Type} (base : Outside τ) (time : τ → Instant) : Outside (Keep τ) where
  answer k q := match q with
    | .offer i inst label value now until_ =>
        k.offer (base.answer k.rest (.offer i inst label value now until_)) i inst label value now
          until_
    | .take i inst => (some (k.take (time k.rest) i inst).1, (k.take (time k.rest) i inst).2)
    | .dropFor i inst => (some (k.dropFor i inst).1, (k.dropFor i inst).2)
    | .expireHeld i now => (some (k.expire i now).1, (k.expire i now).2)
    | .dropAll i => (some (k.dropAll i).1, (k.dropAll i).2)
    | q => ((base.answer k.rest q).1, { k with rest := (base.answer k.rest q).2 })

/-! ## `rescind reveal` -/

variable {σ : Type} (E : Setting σ)

/-- Take what one acceptor holds, and journal it. -/
def takeFrom (id name : String) (i : Nat) : Eng σ (Option (String × String)) := do
  match ← ask E (.take i id) with
  | some (label, value) => do
      log E (.secretRevealed label (name ++ " (revealed)"))
      pure (some (label, value))
  | none => pure none

/-- The secret an acceptor holds, once. -/
def reveal (id : String) : Eng σ (Option (String × String)) := do
  load E id
  Prog.search (fun a => takeFrom E id a.1 a.2) E.acceptors.zipIdx

end Rescind
