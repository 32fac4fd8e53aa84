/-
# `Rescind.Control.Registry` — hooks registered over the control channel

A connection registers a hook in two steps, between which other connections may
take theirs: the registry has the hook at once, and the connection is answered
when the journal took or refused the entry.  A connection that ends deregisters
what it was answered ok for, one name at a time.

Beside the channel a roster is kept, which says what the registry is for: by
name, the registrations made by connections still open, the newest first.

**Proved here.**

    a step does one of seven things to its connection and the hooks   (`taken_of_step`)
-/
import Rescind.Control.Identity
import Rescind.Lib.Assoc

namespace Rescind.Control

open Lib

/-! ## The registry -/

def hookProtocol : Nat := 1

structure Registration where
  name : String
  kinds : List String
  protocol : Nat
  deriving DecidableEq, Repr

/-- A hook as it is registered; its link is the connection's. -/
structure Registered where
  registration : Registration
  registrar : String
  connection : String
  link : Nat
  deriving DecidableEq, Repr

abbrev HookRegistry := Assoc String Registered

namespace HookRegistry

def register (h : HookRegistry) (r : Registered) : HookRegistry := h.insert r.registration.name r

def deregister (h : HookRegistry) (name : String) : HookRegistry := h.erase name

/-- The link of a hook. -/
def link (h : HookRegistry) (name : String) : Option Nat := (h.get name).map Registered.link

end HookRegistry

/-! ## Connections -/

/-- Where a connection's thread is. -/
inductive Serving where
  /-- It reads frames. -/
  | reading
  /-- The registry has its hook, the journal not yet. -/
  | registering (name registrar : String)
  /-- It ended, and has these to deregister. -/
  | closing (left : List (String × String))
  deriving DecidableEq, Repr

structure Connection where
  peer : Peer
  operator : String
  serving : Serving := .reading
  /-- What it was answered ok for. -/
  registered : List (String × String) := []
  deriving DecidableEq, Repr

/-- The daemon's side of the channel. -/
structure Channel where
  hooks : HookRegistry := []
  connections : Assoc Nat Connection := []

/-- What a connection, or the journal on its behalf, does next. -/
inductive Turn where
  | open_ (c : Nat) (peer : Peer) (operator : String)
  | register (c : Nat) (r : Registration)
  /-- The journal took the entry of a registration, or refused it. -/
  | journaled (c : Nat) (took : Bool)
  | close (c : Nat)
  | deregister (c : Nat)
  deriving DecidableEq, Repr

/-- Whether a registration is admitted: the registrar it is for. -/
def validate (ops : Operators) (peer : Peer) (r : Registration) : Except ControlError RegistrarDecl :=
  if r.protocol ≠ hookProtocol then
    .error ⟨"R0501", "hook protocol " ++ toString r.protocol ++ " is not " ++ toString hookProtocol⟩
  else ops.registrarFor peer r.name

namespace Channel

def put (ch : Channel) (c : Nat) (k : Connection) : Channel :=
  { ch with connections := ch.connections.insert c k }

/-- The hook of an admitted registration. -/
def hook (k : Connection) (c : Nat) (r : Registration) (registrar : RegistrarDecl) : Registered :=
  ⟨r, registrar.name, k.operator ++ "@" ++ k.peer.describe, c⟩

/-- One step of one thread; none where the thread is not there. -/
def step (ops : Operators) (ch : Channel) : Turn → Option Channel
  | .open_ c peer operator =>
      match ch.connections.get c with
      | some _ => none
      | none => some (ch.put c { peer, operator })
  | .register c r =>
      match ch.connections.get c with
      | some k =>
          if k.serving = .reading then
            match validate ops k.peer r with
            | .error _ => some ch
            | .ok registrar => some { ch.put c { k with serving := .registering r.name registrar.name } with
                hooks := ch.hooks.register (hook k c r registrar) }
          else none
      | none => none
  | .journaled c took =>
      match ch.connections.get c with
      | some k =>
          match k.serving with
          | .registering name registrar => some (ch.put c { k with
              serving := .reading
              registered := if took then k.registered ++ [(name, registrar)] else k.registered })
          | _ => none
      | none => none
  | .close c =>
      match ch.connections.get c with
      | some k =>
          if k.serving = .reading then some (ch.put c { k with serving := .closing k.registered })
          else none
      | none => none
  | .deregister c =>
      match ch.connections.get c with
      | some k =>
          match k.serving with
          | .closing ((name, _) :: left) => some { ch.put c { k with serving := .closing left } with
              hooks := ch.hooks.deregister name }
          | _ => none
      | none => none

end Channel

/-! ## The roster -/

/-- By name, the registrations of open connections, the newest first, and whether
each was answered ok. -/
abbrev Roster := String → List (Nat × Bool)

namespace Roster

/-- The connection whose hook serves the name: the one whose registration is the
most recent of those answered ok. -/
def serving (r : Roster) (name : String) : Option Nat :=
  ((r name).find? Prod.snd).map Prod.fst

/-- What a step of the channel is to the roster. -/
def step (ops : Operators) (ch : Channel) (r : Roster) : Turn → Roster
  | .register c g =>
      match ch.connections.get c with
      | some k =>
          match validate ops k.peer g with
          | .ok _ => fun n => if n = g.name then (c, false) :: r n else r n
          | .error _ => r
      | none => r
  | .journaled c true => fun n => (r n).map fun e => if e.1 = c then (c, true) else e
  | .journaled c false => fun n => (r n).filter fun e => e ≠ (c, false)
  | .close c => fun n => (r n).filter fun e => e.1 ≠ c
  | .open_ .. | .deregister _ => r

end Roster

/-! ## Runs -/

/-- The channel, and the roster kept beside it. -/
structure Watched where
  channel : Channel := {}
  roster : Roster := fun _ => []

def Watched.step (ops : Operators) (s : Watched) (t : Turn) : Option Watched :=
  (s.channel.step ops t).map fun ch => ⟨ch, s.roster.step ops s.channel t⟩

/-- Where the turns taken, each where `P` allows it, lead from an empty channel. -/
inductive Watch (ops : Operators) (P : Watched → Turn → Prop) : Watched → Prop where
  | start : Watch ops P {}
  | turn {s s' : Watched} {t : Turn} (h : Watch ops P s) (hp : P s t)
      (hs : s.step ops t = some s') : Watch ops P s'

/-! ## What a step does -/

section
variable {ops : Operators} {ch ch' : Channel} {c : Nat}

@[simp] theorem Channel.get_put_self (ch : Channel) (c : Nat) (k : Connection) :
    (ch.put c k).connections.get c = some k := Assoc.get_insert_self _ _ _

theorem Channel.get_put_ne (ch : Channel) {c j : Nat} (k : Connection) (h : j ≠ c) :
    (ch.put c k).connections.get j = ch.connections.get j := Assoc.get_insert_ne _ _ h

@[simp] theorem Channel.hooks_put (ch : Channel) (c : Nat) (k : Connection) :
    (ch.put c k).hooks = ch.hooks := rfl

/-- What one step of a connection does: its connection, and the hooks. -/
inductive Taken (ops : Operators) (ch : Channel) : Turn → Channel → Prop where
  | opened {c : Nat} {peer : Peer} {operator : String} (h : ch.connections.get c = none) :
      Taken ops ch (.open_ c peer operator) (ch.put c { peer, operator })
  | refused {c : Nat} {k : Connection} {r : Registration} {e : ControlError}
      (hk : ch.connections.get c = some k) (h : validate ops k.peer r = .error e) :
      Taken ops ch (.register c r) ch
  | registered {c : Nat} {k : Connection} {r : Registration} {rd : RegistrarDecl}
      (hk : ch.connections.get c = some k) (hr : k.serving = .reading)
      (h : validate ops k.peer r = .ok rd) :
      Taken ops ch (.register c r)
        { ch.put c { k with serving := .registering r.name rd.name } with
          hooks := ch.hooks.register (Channel.hook k c r rd) }
  | took {c : Nat} {k : Connection} {n rd : String} (hk : ch.connections.get c = some k)
      (hr : k.serving = .registering n rd) :
      Taken ops ch (.journaled c true) (ch.put c { k with
        serving := .reading
        registered := k.registered ++ [(n, rd)] })
  | denied {c : Nat} {k : Connection} {n rd : String} (hk : ch.connections.get c = some k)
      (hr : k.serving = .registering n rd) :
      Taken ops ch (.journaled c false) (ch.put c { k with serving := .reading })
  | closed {c : Nat} {k : Connection} (hk : ch.connections.get c = some k)
      (hr : k.serving = .reading) :
      Taken ops ch (.close c) (ch.put c { k with serving := .closing k.registered })
  | deregistered {c : Nat} {k : Connection} {n rd : String} {left : List (String × String)}
      (hk : ch.connections.get c = some k) (hr : k.serving = .closing ((n, rd) :: left)) :
      Taken ops ch (.deregister c)
        { ch.put c { k with serving := .closing left } with hooks := ch.hooks.deregister n }

theorem taken_of_step {t : Turn} (h : ch.step ops t = some ch') : Taken ops ch t ch' := by
  cases t with
  | open_ c peer operator =>
      simp only [Channel.step] at h
      split at h
      · cases h
      next hk =>
        cases h
        exact .opened hk
  | register c r =>
      simp only [Channel.step] at h
      split at h
      next k hk =>
        split at h
        next hr =>
          split at h
          next e ha =>
            cases h
            exact .refused hk ha
          next rd ha =>
            cases h
            exact .registered hk hr ha
        next => cases h
      · cases h
  | journaled c took =>
      simp only [Channel.step] at h
      split at h
      next k hk =>
        split at h
        next n rd hr =>
          cases h
          cases took with
          | true => exact .took hk hr
          | false => exact .denied hk hr
        · cases h
      · cases h
  | close c =>
      simp only [Channel.step] at h
      split at h
      next k hk =>
        split at h
        next hr =>
          cases h
          exact .closed hk hr
        · cases h
      · cases h
  | deregister c =>
      simp only [Channel.step] at h
      split at h
      next k hk =>
        split at h
        next n rd left hr =>
          cases h
          exact .deregistered hk hr
        · cases h
      · cases h

end

end Rescind.Control
