/-
# `Rescind.Control.Client` — a client of the control channel, and its daemon

One connection carries the replies to the client's requests, the events its
operator subscribed to, and, where the connection is a hook as well, the requests
to that hook.  The daemon answers a request when its verb is done and sends the
others whenever it pleases; what is sent arrives in order.  The client is one
thread: while it calls, it reads on, keeping the events, up to a frame that is
none.

**Proved here.**

    what each step does                                     (`Session.stepped`)
-/
import Rescind.Control.Identity

namespace Rescind.Control

/-- A frame the daemon sends.  Replies bear the client's numbers, requests those
of the hook's link. -/
inductive Sending where
  | reply (id : Nat) (result : Except ControlError String)
  | event (entry : String)
  | request (id : Nat) (text : String)

namespace Sending

def isReply : Sending → Bool
  | .reply .. => true
  | _ => false

def isEvent : Sending → Bool
  | .event _ => true
  | _ => false

def isRequest : Sending → Bool
  | .request .. => true
  | _ => false

end Sending

/-- Both ends of a connection after its hello: the client's counter, the events it
read past and the call it is in; the requests the daemon has not answered and the
frames on their way.  What was sent, what the client handed out, and by number the
frame each call took for its reply, is kept for what is said of runs. -/
structure Session where
  nextId : Nat := 1
  events : List Sending := []
  calling : Option Nat := none
  asked : List Nat := []
  wire : List Sending := []
  sent : List Sending := []
  handed : List Sending := []
  returned : List (Nat × Sending) := []

namespace Session

/-- What the client or the daemon does next. -/
inductive Turn where
  | call
  /-- The call in progress reads a frame. -/
  | read
  | nextEvent
  | nextFrame
  | answer (id : Nat) (result : Except ControlError String)
  | notify (entry : String)
  | request (id : Nat) (text : String)

def send (s : Session) (f : Sending) : Session :=
  { s with wire := s.wire ++ [f], sent := s.sent ++ [f] }

/-- The next event kept. -/
def pop (s : Session) (e : Sending) (es : List Sending) : Session :=
  { s with events := es, handed := s.handed ++ [e] }

/-- One step; none where the client or the daemon cannot take it. -/
def step (s : Session) : Turn → Option Session
  | .call =>
      match s.calling with
      | some _ => none
      | none => some { s with
          calling := some s.nextId, asked := s.asked ++ [s.nextId], nextId := s.nextId + 1 }
  | .read =>
      match s.calling, s.wire with
      | some id, f :: wire =>
          if f.isEvent then some { s with events := s.events ++ [f], wire := wire }
          else some { s with calling := none, wire := wire, returned := s.returned ++ [(id, f)] }
      | _, _ => none
  | .nextEvent =>
      match s.calling, s.events with
      | none, e :: es => some (s.pop e es)
      | _, _ => none
  | .nextFrame =>
      match s.calling, s.events, s.wire with
      | none, e :: es, _ => some (s.pop e es)
      | none, [], f :: wire => some { s with wire := wire, handed := s.handed ++ [f] }
      | _, _, _ => none
  | .answer id result =>
      if id ∈ s.asked then
        some ({ s with asked := s.asked.erase id }.send (.reply id result))
      else none
  | .notify entry => some (s.send (.event entry))
  | .request id text => some (s.send (.request id text))

/-- A call in progress reads a request to the hook. -/
def astray (s : Session) : Turn → Bool
  | .read => s.calling.isSome && (s.wire.head?.any Sending.isRequest)
  | _ => false

/-- Where turns lead, and whether no call read a request to the hook. -/
inductive Run : Bool → Session → Prop where
  | start : Run true {}
  | turn {clear : Bool} {s s' : Session} {t : Turn} (h : Run clear s)
      (hs : s.step t = some s') : Run (clear && !s.astray t) s'

/-! ## What a step does -/

inductive Stepped (s : Session) : Turn → Session → Prop where
  | call (hc : s.calling = none) : Stepped s .call { s with
      calling := some s.nextId, asked := s.asked ++ [s.nextId], nextId := s.nextId + 1 }
  | keep {id : Nat} {f : Sending} {wire : List Sending} (hc : s.calling = some id)
      (hw : s.wire = f :: wire) (hf : f.isEvent = true) :
      Stepped s .read { s with events := s.events ++ [f], wire := wire }
  | take {id : Nat} {f : Sending} {wire : List Sending} (hc : s.calling = some id)
      (hw : s.wire = f :: wire) (hf : f.isEvent = false) : Stepped s .read { s with
        calling := none, wire := wire, returned := s.returned ++ [(id, f)] }
  | pop {t : Turn} {e : Sending} {es : List Sending} (hc : s.calling = none)
      (he : s.events = e :: es) (ht : s.astray t = false) : Stepped s t (s.pop e es)
  | hand {f : Sending} {wire : List Sending} (hc : s.calling = none) (he : s.events = [])
      (hw : s.wire = f :: wire) :
      Stepped s .nextFrame { s with wire := wire, handed := s.handed ++ [f] }
  | answer {id : Nat} {result : Except ControlError String} (hi : id ∈ s.asked) :
      Stepped s (.answer id result) ({ s with asked := s.asked.erase id }.send (.reply id result))
  | notify {entry : String} : Stepped s (.notify entry) (s.send (.event entry))
  | request {id : Nat} {text : String} : Stepped s (.request id text) (s.send (.request id text))

theorem stepped {s s' : Session} {t : Turn} (h : s.step t = some s') : Stepped s t s' := by
  cases t with
  | call =>
      simp only [step] at h
      split at h
      · cases h
      next hc =>
        cases h
        exact .call hc
  | read =>
      simp only [step] at h
      split at h
      next id f wire hc hw =>
        split at h
        next hf =>
          cases h
          exact .keep hc hw hf
        next hf =>
          cases h
          exact .take hc hw (Bool.eq_false_iff.mpr hf)
      · cases h
  | nextEvent =>
      simp only [step] at h
      split at h
      next e es hc he =>
        cases h
        exact .pop hc he rfl
      · cases h
  | nextFrame =>
      simp only [step] at h
      split at h
      next e es _ hc he =>
        cases h
        exact .pop hc he rfl
      next f wire hc he hw =>
        cases h
        exact .hand hc he hw
      · cases h
  | answer id result =>
      simp only [step] at h
      split at h
      next hi =>
        cases h
        exact .answer hi
      · cases h
  | notify entry =>
      cases h
      exact .notify
  | request id text =>
      cases h
      exact .request

end Session

end Rescind.Control
