/-
# `Rescind.Safety.Framing` — replies, events and hook requests on one connection

A call takes the next frame that is no event for its reply.  That is its reply as
long as no request to the hook comes first; a request it takes is lost, and the
reply is there for the next call.

    events are handed out once each, in order                (`Ordered`)
    requests are handed out likewise, and calls return the
    replies to them, while no call reads a request           (`Clear`)
    a request a call read stays lost                         (`Lost`)
    a run is in order exactly when no call read a request    (`framed_iff`)

One connection, whose lines have been read as frames.  What is no frame is not in it.
-/
import Rescind.Control.Client

namespace Rescind.Control.Session

open Sending

/-- Every event sent was handed out, is kept, or is on its way, in the order they
were sent. -/
structure Ordered (s : Session) : Prop where
  kept : ∀ e ∈ s.events, e.isEvent = true
  order : s.handed.filter isEvent ++ s.events ++ s.wire.filter isEvent = s.sent.filter isEvent

/-- What the client is promised: events in order; requests to the hook in order,
none lost; to each call the reply that bears its number. -/
structure Framed (s : Session) : Prop extends Ordered s where
  requests : s.handed.filter isRequest ++ s.wire.filter isRequest = s.sent.filter isRequest
  replies : ∀ id f, (id, f) ∈ s.returned → ∃ result, f = .reply id result

/-- While the client calls, one reply is to come or on its way; else none. -/
structure Clear (s : Session) : Prop extends Framed s where
  idle : s.calling = none → s.asked = [] ∧ s.wire.filter isReply = []
  busy : ∀ id, s.calling = some id → s.asked = [id] ∧ s.wire.filter isReply = [] ∨
    s.asked = [] ∧ ∃ result, s.wire.filter isReply = [.reply id result]

/-- Some request was neither handed out nor is on its way. -/
def Lost (s : Session) : Prop :=
  (s.handed.filter isRequest).length + (s.wire.filter isRequest).length <
    (s.sent.filter isRequest).length

theorem isRequest_of_isEvent {f : Sending} (h : f.isEvent = true) : f.isRequest = false := by
  cases f <;> first | rfl | cases h

theorem isReply_of_isEvent {f : Sending} (h : f.isEvent = true) : f.isReply = false := by
  cases f <;> first | rfl | cases h

/-! ## Steps -/

/-- **Events** are handed out once each, in order, whatever the calls read. -/
theorem Ordered.step {s s' : Session} {t : Turn} (h : Ordered s) (hs : Stepped s t s') :
    Ordered s' := by
  cases hs with
  | call _ => exact ⟨h.kept, h.order⟩
  | @keep id f wire _ hw hf =>
      refine ⟨?_, ?_⟩
      · intro e he
        rcases List.mem_append.mp he with he | he
        · exact h.kept e he
        · rw [List.mem_singleton.mp he]
          exact hf
      · have ho := h.order
        rw [hw, List.filter_cons, if_pos hf] at ho
        simpa using ho
  | @take id f wire _ hw hf =>
      refine ⟨h.kept, ?_⟩
      have ho := h.order
      rw [hw, List.filter_cons, if_neg (Bool.eq_false_iff.mp hf)] at ho
      exact ho
  | @pop _ e es _ he _ =>
      have hkept := h.kept
      rw [he] at hkept
      obtain ⟨hev, hrest⟩ := List.forall_mem_cons.mp hkept
      refine ⟨hrest, ?_⟩
      have ho := h.order
      rw [he] at ho
      simp only [Session.pop, List.filter_append, List.filter_cons, hev, if_true, List.filter_nil]
      simpa using ho
  | @hand f wire _ he hw =>
      refine ⟨h.kept, ?_⟩
      have ho := h.order
      rw [he, hw, List.filter_cons] at ho
      simp only [he, List.filter_append, List.filter_cons, List.filter_nil]
      split at ho
      next hf => simpa [hf] using ho
      next hf => simpa [hf] using ho
  | answer _ => exact ⟨h.kept, by simpa [Session.send, isEvent] using h.order⟩
  | notify =>
      refine ⟨h.kept, ?_⟩
      simp only [Session.send, List.filter_append, ← h.order]
      simp [List.append_assoc]
  | request => exact ⟨h.kept, by simpa [Session.send, isEvent] using h.order⟩

/-- Requests sent, against those handed out and on their way: a step that reads
none keeps the difference, and one that does makes it greater. -/
theorem requests_step {s s' : Session} {t : Turn} (h : Ordered s) (hs : Stepped s t s') :
    (s'.sent.filter isRequest).length + (s.handed.filter isRequest).length +
        (s.wire.filter isRequest).length =
      (s.sent.filter isRequest).length + (s'.handed.filter isRequest).length +
        (s'.wire.filter isRequest).length + (if s.astray t then 1 else 0) := by
  cases hs with
  | call _ => simp [astray]
  | @keep id f wire hc hw hf => simp [astray, hc, hw, isRequest_of_isEvent hf]
  | @take id f wire hc hw hf =>
      cases hr : f.isRequest <;> simp [astray, hc, hw, hr, Nat.add_assoc]
  | @pop _ e es _ he ha =>
      have hev : e.isEvent = true := h.kept e (he ▸ List.mem_cons_self)
      simp [Session.pop, ha, isRequest_of_isEvent hev]
  | @hand f wire hc he hw =>
      cases hr : f.isRequest with
      | false => simp [astray, hw, hr]
      | true =>
          simp [astray, hw, hr]
          omega
  | answer _ => simp [Session.send, astray, isRequest]
  | notify => simp [Session.send, astray, isRequest]
  | request =>
      simp [Session.send, astray]
      omega

/-- **While no call reads a request**, calls return the replies to them. -/
theorem Clear.step {s s' : Session} {t : Turn} (h : Clear s) (hs : Stepped s t s')
    (ha : s.astray t = false) : Clear s' := by
  have ho := h.toOrdered.step hs
  cases hs with
  | call hc =>
      obtain ⟨hask, hwire⟩ := h.idle hc
      refine ⟨⟨ho, h.requests, h.replies⟩, ?_, ?_⟩
      · intro he
        cases he
      · intro id hid
        cases hid
        exact .inl ⟨by rw [hask]; rfl, hwire⟩
  | @keep id f wire hc hw hf =>
      refine ⟨⟨ho, ?_, h.replies⟩, ?_, ?_⟩
      · simpa [hw, isRequest_of_isEvent hf] using h.requests
      · intro he
        rw [hc] at he
        cases he
      · simpa [hw, isReply_of_isEvent hf] using h.busy
  | @take id f wire hc hw hf =>
      have hreq : f.isRequest = false := by simpa [astray, hc, hw] using ha
      have hrep : f.isReply = true := by
        cases f with
        | reply => rfl
        | event => cases hf
        | request => cases hreq
      rcases h.busy id hc with ⟨-, hnone⟩ | ⟨hask, result, hone⟩
      · rw [hw, List.filter_cons, if_pos hrep] at hnone
        cases hnone
      · rw [hw, List.filter_cons, if_pos hrep] at hone
        obtain ⟨rfl, hrest⟩ := List.cons.inj hone
        refine ⟨⟨ho, by simpa [hw, isRequest] using h.requests, ?_⟩, fun _ => ⟨hask, hrest⟩,
          fun _ he => by cases he⟩
        intro id' f' hm
        rcases List.mem_append.mp hm with hm | hm
        · exact h.replies id' f' hm
        · cases List.mem_singleton.mp hm
          exact ⟨result, rfl⟩
  | @pop _ e es hc he _ =>
      have hev : e.isEvent = true := h.kept e (he ▸ List.mem_cons_self)
      refine ⟨⟨ho, ?_, h.replies⟩, h.idle, h.busy⟩
      simpa [Session.pop, isRequest_of_isEvent hev] using h.requests
  | @hand f wire hc he hw =>
      obtain ⟨hask, hwire⟩ := h.idle hc
      rw [hw, List.filter_cons] at hwire
      have hrep : f.isReply = false := by
        cases hf : f.isReply with
        | false => rfl
        | true =>
            rw [if_pos hf] at hwire
            cases hwire
      rw [if_neg (Bool.eq_false_iff.mp hrep)] at hwire
      refine ⟨⟨ho, ?_, h.replies⟩, fun _ => ⟨hask, hwire⟩, ?_⟩
      · have hr := h.requests
        rw [hw, List.filter_cons] at hr
        simp only [List.filter_append, List.filter_cons, List.filter_nil]
        split at hr
        next hf => simpa [hf] using hr
        next hf => simpa [hf] using hr
      · intro id hid
        rw [hc] at hid
        cases hid
  | @answer id result hi =>
      have hreq : s.handed.filter isRequest ++
          (s.wire ++ [Sending.reply id result]).filter isRequest =
          (s.sent ++ [Sending.reply id result]).filter isRequest := by
        simpa [isRequest] using h.requests
      refine ⟨⟨ho, hreq, h.replies⟩, ?_, ?_⟩
      · intro hc
        rw [(h.idle hc).1] at hi
        cases hi
      · intro k hc
        rcases h.busy k hc with ⟨hask, hnone⟩ | ⟨hask, -⟩
        · rw [hask] at hi
          cases List.mem_singleton.mp hi
          refine .inr ⟨?_, result, ?_⟩
          · simp [Session.send, hask]
          · simp [Session.send, hnone, isReply]
        · rw [hask] at hi
          cases hi
  | @notify entry =>
      have hw : (s.wire ++ [Sending.event entry]).filter isReply = s.wire.filter isReply := by
        simp [isReply]
      refine ⟨⟨ho, by simpa [Session.send, isRequest] using h.requests, h.replies⟩, ?_, ?_⟩
      · simpa only [Session.send, hw] using h.idle
      · simpa only [Session.send, hw] using h.busy
  | @request id text =>
      have hw : (s.wire ++ [Sending.request id text]).filter isReply = s.wire.filter isReply := by
        simp [isReply]
      refine ⟨⟨ho, ?_, h.replies⟩, ?_, ?_⟩
      · simp only [Session.send, List.filter_append, ← h.requests]
        simp
      · simpa only [Session.send, hw] using h.idle
      · simpa only [Session.send, hw] using h.busy

/-! ## Runs -/

theorem Run.ordered {clear : Bool} {s : Session} (h : Run clear s) : Ordered s := by
  induction h with
  | start => exact ⟨List.forall_mem_nil _, rfl⟩
  | turn _ hs ih => exact ih.step (stepped hs)

theorem Run.clear {s : Session} {clear : Bool} (h : Run clear s) (hc : clear = true) : Clear s := by
  induction h with
  | start =>
      refine ⟨⟨⟨List.forall_mem_nil _, rfl⟩, rfl, fun _ _ hm => by cases hm⟩, fun _ => ⟨rfl, rfl⟩, ?_⟩
      intro id hid
      cases hid
  | turn _ hs ih =>
      obtain ⟨hc, ha⟩ := Bool.and_eq_true_iff.mp hc
      exact (ih hc).step (stepped hs) (Bool.not_eq_true' _ ▸ ha)

/-- A request a call read stays lost. -/
theorem Run.lost {s : Session} {clear : Bool} (h : Run clear s) (hc : clear = false) : Lost s := by
  induction h with
  | start => cases hc
  | @turn clear s s' t hrun hs ih =>
      have hstep := requests_step hrun.ordered (stepped hs)
      rw [Lost]
      cases clear with
      | false =>
          have := ih rfl
          rw [Lost] at this
          omega
      | true =>
          have ha : s.astray t = true := by simpa using hc
          have heq := congrArg List.length (hrun.clear rfl).requests
          rw [List.length_append] at heq
          rw [if_pos ha] at hstep
          omega

/-- **A run is in order** exactly when no call read a request to the hook: every
call then returned its reply, and no request was lost. -/
theorem framed_iff {clear : Bool} {s : Session} (h : Run clear s) :
    Framed s ↔ clear = true := by
  constructor
  · intro hf
    cases hc : clear with
    | true => rfl
    | false =>
        have hlost := h.lost hc
        have heq := congrArg List.length hf.requests
        rw [List.length_append] at heq
        rw [Lost] at hlost
        omega
  · exact fun hc => (h.clear hc).toFramed

/-! ## An operator that is a hook as well -/

namespace Shared

/-- The client calls, and is answered before a request to its hook comes. -/
theorem answered : ∃ s, Run true s ∧ s.returned = [(1, .reply 1 (.ok "done"))] ∧ Framed s := by
  have h : Run true _ := .turn (.turn (.turn (.turn .start (t := .call) rfl)
    (t := .answer 1 (.ok "done")) rfl) (t := .request 1 "run") rfl) (t := .read) rfl
  exact ⟨_, h, rfl, (framed_iff h).mpr rfl⟩

/-- A request to its hook comes while it calls: the call returns that, as an error. -/
theorem request_taken : ¬ ∀ clear s, Run clear s → Framed s := by
  intro h
  have hrun : Run false _ := .turn (.turn (.turn .start (t := .call) rfl)
    (t := .request 1 "run") rfl) (t := .read) rfl
  obtain ⟨result, hr⟩ := (h false _ hrun).replies 1 (.request 1 "run") List.mem_cons_self
  cases hr

end Shared

end Rescind.Control.Session
