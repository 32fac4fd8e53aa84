/-
# `Rescind.Control.Link` — requests and replies on one hook's connection

A link numbers its requests, writes each as a line, and hands a reply to the call
whose number it bears.  A call enters the map of pending ones, writes, waits,
and leaves; the thread that reads the connection takes a call out of the map
when a reply for it comes, and then sends it the reply.  Threads take their
steps in any order, and a step is what one of them does while it holds a lock.

**Proved here.**

    what each step does                                     (`LineLink.stepped`)
    what each step leaves of a call                         (`LineLink.Stepped.kept`)
-/
import Mathlib.Data.List.Basic
import Rescind.Lib.Assoc

namespace Rescind.Control

open Lib

/-- A reply as the link reads it: `none` where a field is not there, or of
another type. -/
structure Answer where
  id : Option UInt64
  ok : Option Bool
  error : Option String
  rest : String
  deriving DecidableEq, Repr

inductive HookError where
  /-- No answer within the deadline, or the connection is gone. -/
  | silent
  | refused (reason : String)
  | contract (message : String)
  | io (error : String)
  deriving DecidableEq, Repr

/-- `ok: true` yields the reply, `ok: false` its error. -/
def replyOf (reply : Answer) : Except HookError Answer :=
  match reply.ok with
  | some true => .ok reply
  | some false => .error (.refused (reply.error.getD "no reason given"))
  | none => .error (.contract "reply carries no boolean `ok`")

namespace LineLink

/-- Where a call is. -/
inductive Phase where
  /-- It has its id. -/
  | asked
  /-- It is in the map, its line not written. -/
  | writing
  | waiting
  /-- Its line could not be written. -/
  | failing (error : String)
  /-- It waited in vain. -/
  | leaving
  | done (result : Except HookError Answer)

/-- What a call that leaves returns. -/
def Phase.outcome : Phase → Option HookError
  | .failing e => some (.io e)
  | .leaving => some .silent
  | _ => none

/-- A call, with the channel its reply comes by.  Which delivery was taken for it,
and whether its sender was dropped, is kept for what is said of runs. -/
structure Call where
  id : UInt64
  phase : Phase := .asked
  mail : Option Answer := none
  taken : Option Nat := none
  cut : Bool := false

/-- It entered the map and has not returned, no reply was taken for it and its
sender was not dropped. -/
def Call.waits (c : Call) : Bool :=
  match c.phase with
  | .asked | .done _ => false
  | _ => c.taken.isNone && !c.cut

def Call.cutOff (c : Call) : Call := { c with cut := true }

def Call.goTo (p : Phase) (c : Call) : Call := { c with phase := p }

/-- A reply comes by the channel, unless the call has returned. -/
def Call.receive (v : Answer) (c : Call) : Call :=
  match c.phase with
  | .done _ => c
  | _ => { c with mail := some v }

end LineLink

/-- The link: its counter, the map from ids to the calls whose sender it has, the
calls made, and the replies taken from the map and not yet sent.  The replies that
came are kept for what is said of runs. -/
structure LineLink where
  nextId : UInt64 := 1
  pending : Assoc UInt64 Nat := []
  calls : List LineLink.Call := []
  hands : List (Nat × Answer) := []
  heard : List Answer := []

namespace LineLink

/-- What a thread does next. -/
inductive Turn where
  /-- A new call takes its id. -/
  | call
  | enter (n : Nat)
  /-- The line was written, or the error of writing it. -/
  | write (n : Nat) (error : Option String)
  /-- The deadline passed, or the sender is gone. -/
  | expire (n : Nat)
  | receive (n : Nat)
  | leave (n : Nat)
  /-- A reply came; it is taken to the call that waits for it. -/
  | deliver (v : Answer)
  /-- A reply taken is sent. -/
  | send (i : Nat)
  /-- The connection ended. -/
  | ended

/-- The calls of which the map drops the sender. -/
def dropped (calls : List Call) (gone : Nat → Bool) : List Call :=
  calls.mapIdx fun n c => if gone n then c.cutOff else c

/-- The sender under an id is that of the call. -/
def under (s : LineLink) (id : UInt64) (n : Nat) : Bool := s.pending.get id == some n

/-- One step of one thread; none where it is not there. -/
def step (s : LineLink) : Turn → Option LineLink
  | .call => some { s with calls := s.calls ++ [{ id := s.nextId }], nextId := s.nextId + 1 }
  | .enter n => do
      let c ← s.calls[n]?
      match c.phase with
      | .asked => some { s with
          calls := (dropped s.calls (s.under c.id)).modify n (Call.goTo .writing)
          pending := s.pending.insert c.id n }
      | _ => none
  | .write n error => do
      let c ← s.calls[n]?
      match c.phase with
      | .writing => some { s with calls := s.calls.modify n (Call.goTo (match error with
          | none => .waiting
          | some e => .failing e)) }
      | _ => none
  | .expire n => do
      let c ← s.calls[n]?
      match c.phase, c.mail with
      | .waiting, none => some { s with calls := s.calls.modify n (Call.goTo .leaving) }
      | _, _ => none
  | .receive n => do
      let c ← s.calls[n]?
      match c.phase, c.mail with
      | .waiting, some v => some { s with calls := s.calls.modify n (Call.goTo (.done (replyOf v))) }
      | _, _ => none
  | .leave n => do
      let c ← s.calls[n]?
      let e ← c.phase.outcome
      some { s with
        calls := (dropped s.calls (s.under c.id)).modify n (Call.goTo (.done (.error e)))
        pending := s.pending.erase c.id }
  | .deliver v =>
      let s' := { s with heard := s.heard ++ [v] }
      match v.id with
      | none => some s'
      | some id =>
          match s.pending.get id with
          | none => some s'
          | some n => some { s' with
              calls := s.calls.modify n fun c => { c with taken := some s.heard.length }
              pending := s.pending.erase id
              hands := s.hands ++ [(n, v)] }
  | .send i => do
      let (n, v) ← s.hands[i]?
      some { s with calls := s.calls.modify n (Call.receive v), hands := s.hands.eraseIdx i }
  | .ended => some { s with
      calls := dropped s.calls fun n => s.pending.keys.any fun id => s.under id n
      pending := [] }

/-- Where turns lead from a new link, the last of them first. -/
inductive Run : List Turn → LineLink → Prop where
  | start : Run [] {}
  | turn {ts : List Turn} {s s' : LineLink} {t : Turn} (h : Run ts s) (hs : s.step t = some s') :
      Run (t :: ts) s'

/-! ## What a step does -/

/-- What one step does, and where it can be taken. -/
inductive Stepped (s : LineLink) : Turn → LineLink → Prop where
  | call : Stepped s .call { s with calls := s.calls ++ [{ id := s.nextId }], nextId := s.nextId + 1 }
  | enter {n : Nat} {c : Call} (hc : s.calls[n]? = some c) (hp : c.phase = .asked) :
      Stepped s (.enter n) { s with
        calls := (dropped s.calls (s.under c.id)).modify n (Call.goTo .writing)
        pending := s.pending.insert c.id n }
  /-- The call goes on, in the map or with a reply. -/
  | move {t : Turn} {n : Nat} {c : Call} {p : Phase} (hc : s.calls[n]? = some c)
      (hw : (c.goTo p).waits = c.waits ∨ c.mail.isSome = true) (ha : c.phase ≠ .asked)
      (hd : ∀ r, c.phase ≠ .done r) (hp : p ≠ .asked)
      (hr : ∀ r, p = .done r → ∃ v, c.mail = some v ∧ r = replyOf v) :
      Stepped s t { s with calls := s.calls.modify n (Call.goTo p) }
  | leave {n : Nat} {c : Call} {e : HookError} (hc : s.calls[n]? = some c)
      (hd : ∀ r, c.phase ≠ .done r) (ha : c.phase ≠ .asked) (he : e = .silent ∨ ∃ m, e = .io m) :
      Stepped s (.leave n) { s with
        calls := (dropped s.calls (s.under c.id)).modify n (Call.goTo (.done (.error e)))
        pending := s.pending.erase c.id }
  | unheard {v : Answer} (h : ∀ id, v.id = some id → s.pending.get id = none) :
      Stepped s (.deliver v) { s with heard := s.heard ++ [v] }
  | deliver {v : Answer} {id : UInt64} {n : Nat} (hv : v.id = some id)
      (hn : s.pending.get id = some n) : Stepped s (.deliver v) { s with
        heard := s.heard ++ [v]
        calls := s.calls.modify n fun c => { c with taken := some s.heard.length }
        pending := s.pending.erase id
        hands := s.hands ++ [(n, v)] }
  | send {i n : Nat} {v : Answer} (hi : s.hands[i]? = some (n, v)) : Stepped s (.send i) { s with
      calls := s.calls.modify n (Call.receive v)
      hands := s.hands.eraseIdx i }
  | ended : Stepped s .ended { s with
      calls := dropped s.calls fun n => s.pending.keys.any fun id => s.under id n
      pending := [] }

theorem stepped {s s' : LineLink} {t : Turn} (h : s.step t = some s') : Stepped s t s' := by
  cases t with
  | call =>
      cases h
      exact .call
  | enter n =>
      obtain ⟨c, hc, h⟩ := Option.bind_eq_some_iff.mp h
      cases hp : c.phase with
      | asked =>
          rw [hp] at h
          cases h
          exact .enter hc hp
      | _ =>
          rw [hp] at h
          cases h
  | write n error =>
      obtain ⟨c, hc, h⟩ := Option.bind_eq_some_iff.mp h
      cases hp : c.phase with
      | writing =>
          rw [hp] at h
          cases h
          have ha : c.phase ≠ .asked := by simp [hp]
          have hd : ∀ r, c.phase ≠ .done r := by simp [hp]
          cases error with
          | none => exact .move hc (.inl (by simp [Call.waits, Call.goTo, hp])) ha hd (by simp) (by simp)
          | some e => exact .move hc (.inl (by simp [Call.waits, Call.goTo, hp])) ha hd (by simp) (by simp)
      | _ =>
          rw [hp] at h
          cases h
  | expire n =>
      obtain ⟨c, hc, h⟩ := Option.bind_eq_some_iff.mp h
      split at h
      next hp _ =>
        cases h
        exact .move hc (.inl (by simp [Call.waits, Call.goTo, hp])) (by simp [hp]) (by simp [hp])
          (by simp) (by simp)
      · cases h
  | receive n =>
      obtain ⟨c, hc, h⟩ := Option.bind_eq_some_iff.mp h
      split at h
      next v hp hm =>
        cases h
        refine .move hc (.inr (by rw [hm]; rfl)) (by simp [hp]) (by simp [hp]) (by simp) ?_
        rintro r hr
        cases hr
        exact ⟨v, hm, rfl⟩
      · cases h
  | leave n =>
      obtain ⟨c, hc, h⟩ := Option.bind_eq_some_iff.mp h
      obtain ⟨e, he, h⟩ := Option.bind_eq_some_iff.mp h
      cases hp : c.phase with
      | failing m =>
          rw [hp] at he
          cases he
          cases h
          exact .leave hc (by simp [hp]) (by simp [hp]) (.inr ⟨m, rfl⟩)
      | leaving =>
          rw [hp] at he
          cases he
          cases h
          exact .leave hc (by simp [hp]) (by simp [hp]) (.inl rfl)
      | asked | writing | waiting | done =>
          rw [hp] at he
          cases he
  | deliver v =>
      simp only [step] at h
      split at h
      next hv =>
        cases h
        exact .unheard fun id hid => by simp [hv] at hid
      next id hv =>
        split at h
        next hn =>
          cases h
          refine .unheard fun j hj => ?_
          rw [hv] at hj
          cases hj
          exact hn
        next n hn =>
          cases h
          exact .deliver hv hn
  | send i =>
      obtain ⟨⟨n, v⟩, hi, h⟩ := Option.bind_eq_some_iff.mp h
      cases h
      exact .send hi
  | ended =>
      cases h
      exact .ended

/-! ## Lookups -/

theorem getElem?_dropped (calls : List Call) (gone : Nat → Bool) (n : Nat) :
    (dropped calls gone)[n]? = calls[n]?.map fun c => if gone n then c.cutOff else c := by
  rw [dropped, List.getElem?_mapIdx]

theorem under_iff {s : LineLink} {id : UInt64} {n : Nat} :
    s.under id n = true ↔ s.pending.get id = some n := beq_iff_eq

@[simp] theorem Call.id_goTo (p : Phase) (c : Call) : (c.goTo p).id = c.id := rfl

@[simp] theorem Call.id_cutOff (c : Call) : c.cutOff.id = c.id := rfl

@[simp] theorem Call.waits_cutOff (c : Call) : c.cutOff.waits = false := by
  cases h : c.phase <;> simp [Call.waits, Call.cutOff, h]

@[simp] theorem Call.waits_done (r : Except HookError Answer) (c : Call) :
    (c.goTo (.done r)).waits = false := rfl

@[simp] theorem Call.id_receive (v : Answer) (c : Call) : (c.receive v).id = c.id := by
  cases h : c.phase <;> simp [Call.receive, h]

@[simp] theorem Call.waits_receive (v : Answer) (c : Call) : (c.receive v).waits = c.waits := by
  cases h : c.phase <;> simp [Call.receive, Call.waits, h]

@[simp] theorem Call.taken_receive (v : Answer) (c : Call) : (c.receive v).taken = c.taken := by
  cases h : c.phase <;> simp [Call.receive, h]

@[simp] theorem Call.phase_receive (v : Answer) (c : Call) : (c.receive v).phase = c.phase := by
  cases h : c.phase <;> simp [Call.receive, h]

/-- A call that waits entered the map, and has not returned. -/
theorem Call.waits_iff {c : Call} : c.waits = true ↔
    c.phase ≠ .asked ∧ (∀ r, c.phase ≠ .done r) ∧ c.taken = none ∧ c.cut = false := by
  cases h : c.phase <;> simp [Call.waits, h]

/-- **What each step leaves** of a call: its id, and what it returned. -/
theorem Stepped.kept {s s' : LineLink} {t : Turn} (h : Stepped s t s') {n : Nat} {b : Call}
    (hb : s.calls[n]? = some b) :
    ∃ c, s'.calls[n]? = some c ∧ c.id = b.id ∧ ∀ r, b.phase = .done r → c.phase = .done r := by
  have cut : ∀ gone : Nat → Bool, ∃ c, (dropped s.calls gone)[n]? = some c ∧ c.id = b.id ∧
      c.phase = b.phase := by
    intro gone
    refine ⟨if gone n then b.cutOff else b, ?_, ?_, ?_⟩
    · rw [getElem?_dropped, hb]
      rfl
    · split <;> rfl
    · split <;> rfl
  have change : ∀ (calls : List Call) (c : Call) (k : Nat) (f : Call → Call),
      calls[n]? = some c → c.id = b.id → c.phase = b.phase →
      (k = n → (f c).id = c.id ∧ ∀ r, c.phase = .done r → (f c).phase = .done r) →
      ∃ c, (calls.modify k f)[n]? = some c ∧ c.id = b.id ∧
        ∀ r, b.phase = .done r → c.phase = .done r := by
    intro calls c k f hc hi hp hf
    by_cases hk : k = n
    · refine ⟨f c, ?_, (hf hk).1.trans hi, fun r hr => (hf hk).2 r (hp.trans hr)⟩
      rw [List.getElem?_modify, hc]
      simp [hk]
    · refine ⟨c, ?_, hi, fun r hr => hp.trans hr⟩
      rw [List.getElem?_modify, hc]
      simp [hk]
  cases h with
  | call =>
      refine ⟨b, ?_, rfl, fun _ h => h⟩
      rw [List.getElem?_append_left (List.getElem?_eq_some_iff.mp hb).1, hb]
  | @enter k c hc hp =>
      obtain ⟨b', hb', hi, hph⟩ := cut (s.under c.id)
      refine change _ b' k _ hb' hi hph fun hk => ⟨rfl, fun r hr => ?_⟩
      subst hk
      rw [hc] at hb
      cases hb
      rw [hph, hp] at hr
      cases hr
  | @move _ k c p hc _ _ hd _ _ =>
      refine change _ b k _ hb rfl rfl fun hk => ⟨rfl, fun r hr => ?_⟩
      subst hk
      rw [hc] at hb
      cases hb
      exact absurd hr (hd r)
  | @leave k c e hc hd _ _ =>
      obtain ⟨b', hb', hi, hph⟩ := cut (s.under c.id)
      refine change _ b' k _ hb' hi hph fun hk => ⟨rfl, fun r hr => ?_⟩
      subst hk
      rw [hc] at hb
      cases hb
      rw [hph] at hr
      exact absurd hr (hd r)
  | unheard _ => exact ⟨b, hb, rfl, fun _ h => h⟩
  | deliver hv hn => exact change _ b _ _ hb rfl rfl fun _ => ⟨rfl, fun _ h => h⟩
  | send hi =>
      refine change _ b _ _ hb rfl rfl fun _ => ⟨Call.id_receive _ b, fun r hr => ?_⟩
      rw [Call.phase_receive, hr]
  | ended =>
      obtain ⟨b', hb', hi, hph⟩ := cut fun n => s.pending.keys.any fun id => s.under id n
      exact ⟨b', hb', hi, fun r hr => hph.trans hr⟩

end LineLink

end Rescind.Control
