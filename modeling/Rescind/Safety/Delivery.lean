/-
# `Rescind.Safety.Delivery` — what the store and the sinks hold

Over any sequence of `record` calls, whatever the sinks answer, the store
accepting every append.  The stored chain, the tail in memory and each sink's
acknowledged entries advance separately; the invariant (`Kept`) says that the
tail is the last stored entry and that what a sink acknowledged is a sublist of
the stored chain.

Each call adds to the chain what its outcome says (`Adds`): the entry, or the
refused entry and the one that names the sinks.

**Proved here.**

    what one call adds                                        (`record_adds`)
    what every sequence of calls adds                         (`delivery`)
-/
import Rescind.Engine.Journal
import Rescind.Safety.Tampering

namespace Rescind.Journal

open Lib Canon

variable {τ : Type}

/-! ## Wires to a store that accepts -/

/-- A journal's wires, but for the store. -/
structure Site (τ : Type) where
  sha256 : List UInt8 → Hash
  sign : Option (Entry → Except String Sig)
  name : τ → String
  deliver : τ → Entry → Except String Unit × τ

/-- A store that accepts every append. -/
def Site.wires (S : Site τ) : Wires (List Entry) τ where
  sha256 := S.sha256
  sign := S.sign
  appendJournal chain e := (.ok (), chain ++ [e])
  name := S.name
  deliver := S.deliver

@[simp] theorem Site.appendJournal_wires (S : Site τ) (chain : List Entry) (e : Entry) :
    S.wires.appendJournal chain e = (.ok (), chain ++ [e]) := rfl

/-- The key signs every entry it is given, as an unencrypted Ed25519 key does. -/
def Site.Signs (S : Site τ) : Prop := ∀ sign, S.sign = some sign → ∀ e, ∃ sig, sign e = .ok sig

/-- The stored chain, the journal in memory. -/
abbrev Stand (τ : Type) := List Entry × OpenJournal τ

/-- The calls in order; the outcome of each. -/
def records (S : Site τ) : List Note → Stand τ → List (Except JournalError Entry) × Stand τ
  | [], st => ([], st)
  | n :: notes, st =>
      let (x, st) := record S.wires n st.1 st.2
      let (xs, st) := records S notes st
      (x :: xs, st)

/-- The journal opened over a chain, no sink having acknowledged anything. -/
def opened (chain : List Entry) (sinks : List τ) : Stand τ :=
  (chain, { tail := chain.getLast?, sinks := sinks.map fun state => { state } })

variable {S : Site τ}

/-! ## One entry -/

/-- An entry is what a note says. -/
structure Entry.Says (e : Entry) (n : Note) : Prop where
  at_ : e.at_ = n.at_
  plan : e.plan = n.plan
  inst : e.inst = n.inst
  host : e.host = n.host
  event : e.event = n.event
  secretLabels : e.secretLabels = n.secretLabels

theorem append_says (sha256 : List UInt8 → Hash) (chain : List Entry) (n : Note) :
    (append sha256 chain n).Says n := by
  unfold append
  cases chain.getLast? <;> exact ⟨rfl, rfl, rfl, rfl, rfl, rfl⟩

/-- A signature changes nothing that is hashed. -/
theorem Follows.signed {sha256 : List UInt8 → Hash} {p : Option Entry} {e : Entry}
    (h : Follows sha256 p e) (sig : Option Sig) : Follows sha256 p { e with sig } :=
  ⟨h.seq, h.prevHash, h.hash⟩

/-- The next entry says the note and follows the tail. -/
theorem next_ok (hs : S.Signs) (tail : Option Entry) (n : Note) :
    ∃ e, next S.wires tail n = .ok e ∧ e.Says n ∧ Follows S.sha256 tail e := by
  have hlast : tail.toList.getLast? = tail := by cases tail <;> rfl
  have hf := @follows_append S.sha256 tail.toList n
  rw [hlast] at hf
  have htold := append_says S.sha256 tail.toList n
  cases hk : S.sign with
  | none =>
      refine ⟨append S.sha256 tail.toList n, ?_, htold, hf⟩
      simp [next, Site.wires, hk]
  | some sign =>
      obtain ⟨sig, hsig⟩ := hs sign hk (append S.sha256 tail.toList n)
      refine ⟨{ append S.sha256 tail.toList n with sig := some sig }, ?_, ⟨htold.at_, htold.plan,
        htold.inst, htold.host, htold.event, htold.secretLabels⟩, hf.signed _⟩
      simp [next, Site.wires, hk, hsig]

/-! ## Delivery to the sinks -/

/-- The sinks that refuse an entry: their names, and why. -/
def refusals (S : Site τ) (e : Entry) (sinks : List (Sink τ)) : List (String × String) :=
  sinks.filterMap fun s =>
    match S.deliver s.state e with
    | (.ok (), _) => none
    | (.error why, state) => some (S.name state, why)

/-- A sink that was handed an entry: it holds the entry where it acknowledged it. -/
def Site.handed (S : Site τ) (e : Entry) (s : Sink τ) : Sink τ :=
  match S.deliver s.state e with
  | (.ok (), state) => { state, acked := s.acked ++ [e] }
  | (.error _, state) => { s with state }

theorem deliverAll_eq (e : Entry) (sinks : List (Sink τ)) :
    deliverAll S.wires e sinks = (refusals S e sinks, sinks.map (S.handed e)) := by
  induction sinks with
  | nil => rfl
  | cons s sinks ih =>
      unfold deliverAll refusals
      rw [List.filterMap_cons, List.map_cons, Site.handed, ih,
        show S.wires.deliver s.state e = S.deliver s.state e from rfl]
      rcases h : S.deliver s.state e with ⟨_ | _, state⟩ <;> rfl

/-- What a sink acknowledged is in the chain, in its order. -/
def Acked (chain : List Entry) (sinks : List (Sink τ)) : Prop :=
  ∀ s ∈ sinks, s.acked.Sublist chain

theorem acked_handed (e : Entry) (s : Sink τ) : (S.handed e s).acked.Sublist (s.acked ++ [e]) := by
  unfold Site.handed
  rcases S.deliver s.state e with ⟨_ | _, state⟩
  · exact List.sublist_append_left _ _
  · exact List.Sublist.refl _

theorem Acked.handed {chain : List Entry} {sinks : List (Sink τ)} (h : Acked chain sinks)
    (e : Entry) : Acked (chain ++ [e]) (sinks.map (S.handed e)) := by
  intro x hx
  obtain ⟨s, hs, rfl⟩ := List.mem_map.mp hx
  exact (acked_handed e s).trans ((h s hs).append (List.Sublist.refl [e]))

/-! ## One call -/

/-- The invariant between two calls. -/
structure Kept (S : Site τ) (st : Stand τ) : Prop where
  linked : Linked S.sha256 none st.1
  tail : st.2.tail = st.1.getLast?
  acked : Acked st.1 st.2.sinks

/-- What one call does, on these sinks: its outcome, what it adds to the chain,
and the sinks after it. -/
inductive Adds (S : Site τ) (n : Note) (sinks : List (Sink τ)) :
    Except JournalError Entry → List Entry → List (Sink τ) → Prop where
  | acknowledged {e : Entry} (h : e.Says n) (hno : refusals S e sinks = []) :
      Adds S n sinks (.ok e) [e] (sinks.map (S.handed e))
  | refused {e r : Entry} (h : e.Says n) (hne : refusals S e sinks ≠ [])
      (hr : r.Says (n.refusal (refusals S e sinks))) :
      Adds S n sinks (.error (.sinkRefused e (refusals S e sinks))) [e, r]
        ((sinks.map (S.handed e)).map (S.handed r))

theorem Kept.keep {st : Stand τ} {e : Entry} (h : Kept S st) (he : Follows S.sha256 st.2.tail e) :
    Kept S (st.1 ++ [e], { tail := some e, sinks := st.2.sinks.map (S.handed e) }) where
  linked := linked_snoc h.linked (h.tail ▸ he)
  tail := List.getLast?_concat.symm
  acked := h.acked.handed e

theorem record_adds (hs : S.Signs) {st : Stand τ} (h : Kept S st) (n : Note) :
    Kept S (record S.wires n st.1 st.2).2 ∧
      ∃ part, Adds S n st.2.sinks (record S.wires n st.1 st.2).1 part
          (record S.wires n st.1 st.2).2.2.sinks ∧
        (record S.wires n st.1 st.2).2.1 = st.1 ++ part := by
  obtain ⟨e, hnext, htold, hfol⟩ := next_ok hs st.2.tail n
  have hk := h.keep hfol
  by_cases hr : refusals S e st.2.sinks = []
  · have hrec : record S.wires n st.1 st.2 = (.ok e, st.1 ++ [e],
        { tail := some e, sinks := st.2.sinks.map (S.handed e) }) := by
      simp [record, hnext, deliverAll_eq, hr]
    rw [hrec]
    exact ⟨hk, [e], .acknowledged htold hr, rfl⟩
  · obtain ⟨r, hnext', htold', hfol'⟩ := next_ok hs (some e) (n.refusal (refusals S e st.2.sinks))
    have hrec : record S.wires n st.1 st.2 =
        (.error (.sinkRefused e (refusals S e st.2.sinks)), st.1 ++ [e] ++ [r],
          { tail := some r, sinks := (st.2.sinks.map (S.handed e)).map (S.handed r) }) := by
      simp [record, hnext, deliverAll_eq, hr, hnext']
    rw [hrec]
    exact ⟨hk.keep hfol', [e, r], .refused htold hr htold', by simp⟩

/-! ## Every sequence of calls -/

/-- What the calls do in order, each on the sinks as the one before left them. -/
inductive AddsAll (S : Site τ) : List Note → List (Sink τ) → List (Except JournalError Entry) →
    List Entry → List (Sink τ) → Prop where
  | nil {sinks : List (Sink τ)} : AddsAll S [] sinks [] [] sinks
  | cons {n : Note} {notes : List Note} {sinks mid last : List (Sink τ)}
      {x : Except JournalError Entry} {xs : List (Except JournalError Entry)}
      {part rest : List Entry} (h : Adds S n sinks x part mid)
      (hrest : AddsAll S notes mid xs rest last) :
      AddsAll S (n :: notes) sinks (x :: xs) (part ++ rest) last

theorem records_adds (hs : S.Signs) (notes : List Note) {st : Stand τ} (h : Kept S st) :
    Kept S (records S notes st).2 ∧
      ∃ parts, AddsAll S notes st.2.sinks (records S notes st).1 parts (records S notes st).2.2.sinks ∧
        (records S notes st).2.1 = st.1 ++ parts := by
  induction notes generalizing st with
  | nil => exact ⟨h, [], .nil, (List.append_nil _).symm⟩
  | cons n notes ih =>
      obtain ⟨hk, part, hadds, hpart⟩ := record_adds hs h n
      obtain ⟨hk', rest, hall, hrest⟩ := ih hk
      refine ⟨hk', part ++ rest, .cons hadds hall, ?_⟩
      rw [← List.append_assoc, ← hpart]
      exact hrest

theorem kept_opened {chain : List Entry} (h : Linked S.sha256 none chain) (sinks : List τ) :
    Kept S (opened chain sinks) := by
  refine ⟨h, rfl, fun s hs => ?_⟩
  obtain ⟨state, -, rfl⟩ := List.mem_map.mp hs
  exact List.nil_sublist _

/-- An entry of a linked chain stands under its own sequence number. -/
theorem seq_of_getElem? {sha256 : List UInt8 → Hash} {es : List Entry} (h : Linked sha256 none es)
    {i : Nat} {e : Entry} (hi : es[i]? = some e) : e.seq = UInt64.ofNat (i + 1) := by
  have hlt : i < es.length := (List.getElem?_eq_some_iff.mp hi).1
  have htake : es.take (i + 1) = es.take i ++ [e] := by
    rw [List.take_add_one, hi]
    rfl
  have hl : Linked sha256 none (es.take i ++ [e]) := by
    rw [← htake]
    refine (linked_append (d := es.drop (i + 1)).mp ?_).1
    rw [List.take_append_drop]
    exact h
  rw [seq_of_last hl, List.length_take, Nat.min_eq_left hlt.le]

/-- **The journal delivers.**  After any sequence of calls on a journal opened
over a chain that verifies: the stored chain verifies; it is the chain there was
and, in call order, what each call adds, the entry of a call that no sink
refused, and for a refusal by these sinks the refused entry and the one naming
them; and what each sink acknowledged is a sublist of it, every entry under its
own number. -/
theorem delivery (S : Site τ) (hs : S.Signs) (chain : List Entry) (sinks : List τ)
    (hv : verify S.sha256 chain = .ok ()) (notes : List Note) :
    verify S.sha256 (records S notes (opened chain sinks)).2.1 = .ok () ∧
      (∃ parts, AddsAll S notes (opened chain sinks).2.sinks
          (records S notes (opened chain sinks)).1 parts
          (records S notes (opened chain sinks)).2.2.sinks ∧
        (records S notes (opened chain sinks)).2.1 = chain ++ parts) ∧
      (∀ s ∈ (records S notes (opened chain sinks)).2.2.sinks,
        s.acked.Sublist (records S notes (opened chain sinks)).2.1) ∧
      ∀ i e, (records S notes (opened chain sinks)).2.1[i]? = some e →
        e.seq = UInt64.ofNat (i + 1) := by
  obtain ⟨hk, parts, hall, hparts⟩ := records_adds hs notes (kept_opened (verify_iff.mp hv) sinks)
  exact ⟨verify_iff.mpr hk.linked, ⟨parts, hall, hparts⟩, hk.acked,
    fun i e hi => seq_of_getElem? hk.linked hi⟩

/-! ## Two sinks, one of which refuses once -/

namespace OneSink

open TwoEntries

/-- A sink that acknowledges everything, and no key. -/
def site : Site Unit where
  sha256 := digest
  sign := none
  name _ := "log"
  deliver _ _ := (.ok (), ())

end OneSink

namespace TwoSinks

open TwoEntries

/-- Sinks by name, each of which is up or refuses the next entry; no key. -/
def site : Site (String × Bool) where
  sha256 := digest
  sign := none
  name := Prod.fst
  deliver s _ := (if s.2 then .ok () else .error "down", s.1, true)

/-- After two calls on a sink that is up and one that refuses once. -/
def stand : List (Except JournalError Entry) × Stand (String × Bool) :=
  records site [checked, requested] (opened [] [("log", true), ("mail", false)])

/-- The first call's refusal is chained second, and the sink that refused holds
all but the first of the three. -/
theorem refused_once : site.Signs ∧ verify site.sha256 [] = .ok () ∧
    verify site.sha256 stand.2.1 = .ok () ∧
    stand.2.1.map (fun e => e.event.1) = [.checked, .refused, .requested] ∧
    stand.2.2.sinks.map (fun s => s.acked) = [stand.2.1, stand.2.1.tail] ∧
    ∀ s ∈ stand.2.2.sinks, s.acked.Sublist stand.2.1 := by
  have hs : site.Signs := nofun
  have hd := delivery site hs [] [("log", true), ("mail", false)] rfl [checked, requested]
  exact ⟨hs, rfl, hd.1, rfl, rfl, hd.2.2.1⟩

end TwoSinks

end Rescind.Journal
