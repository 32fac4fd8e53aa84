/-
# `Rescind.Safety.Routing` — replies reach the calls they answer

The calls of a link and its map of pending ones, over every order of the steps its
threads take.

    the map has the calls that wait, and no other            (`Sound.pending`)
    a call returns one reply at most, which bears its id     (`CallSound.own`)
    a reply is taken for one call at most                    (`Sound.once`)
    each step keeps this                                     (`Sound.step`)

Ids are numbers of 64 bits and come round; two calls share one only once as many
were made, and then the map has the sender of the later one.
-/
import Mathlib.Algebra.Ring.Nat
import Mathlib.Data.List.Basic
import Rescind.Control.Link

namespace Rescind.Control.LineLink

open Lib

/-- The reply is the delivery that was taken for the call, and bears its id. -/
def Heard (heard : List Answer) (c : Call) (v : Answer) : Prop :=
  ∃ d, c.taken = some d ∧ heard[d]? = some v ∧ v.id = some c.id

/-- What a call may return: an error of the link, or what its own reply says. -/
def Own (heard : List Answer) (c : Call) (r : Except HookError Answer) : Prop :=
  (r = .error .silent ∨ ∃ e, r = .error (.io e)) ∨ ∃ v, Heard heard c v ∧ r = replyOf v

/-- What holds of a call by itself. -/
structure CallSound (heard : List Answer) (n : Nat) (c : Call) : Prop where
  number : c.id = UInt64.ofNat (n + 1)
  mail : ∀ v, c.mail = some v → Heard heard c v
  own : ∀ r, c.phase = .done r → Own heard c r
  taken : ∀ d, c.taken = some d → d < heard.length
  asked : c.phase = .asked → c.taken = none ∧ c.cut = false

/-- What holds of a link. -/
structure Sound (s : LineLink) : Prop where
  calls : ∀ n c, s.calls[n]? = some c → CallSound s.heard n c
  pending : ∀ id n, s.pending.get id = some n ↔
    ∃ c, s.calls[n]? = some c ∧ c.id = id ∧ c.waits = true
  hands : ∀ n v, (n, v) ∈ s.hands → ∃ c, s.calls[n]? = some c ∧ Heard s.heard c v
  once : ∀ (m n : Nat) (c c' : Call) d, s.calls[m]? = some c → s.calls[n]? = some c' →
    c.taken = some d → c'.taken = some d → m = n
  next : s.nextId = UInt64.ofNat (s.calls.length + 1)

/-! ## Calls -/

theorem Heard.concat {heard : List Answer} {c : Call} {v : Answer} (h : Heard heard c v)
    (w : Answer) : Heard (heard ++ [w]) c v := by
  obtain ⟨d, hd, hv, hid⟩ := h
  refine ⟨d, hd, ?_, hid⟩
  rw [List.getElem?_append_left (List.getElem?_eq_some_iff.mp hv).1, hv]

namespace CallSound

variable {heard : List Answer} {n : Nat} {c : Call}

theorem concat (h : CallSound heard n c) (w : Answer) : CallSound (heard ++ [w]) n c where
  number := h.number
  mail := fun v hv => (h.mail v hv).concat w
  own := fun r hr => (h.own r hr).imp_right fun ⟨v, hv, he⟩ => ⟨v, hv.concat w, he⟩
  taken := fun d hd => by
    have := h.taken d hd
    rw [List.length_append]
    omega
  asked := h.asked

theorem cutOff (h : CallSound heard n c) (ha : c.phase ≠ .asked) :
    CallSound heard n c.cutOff where
  number := h.number
  mail := h.mail
  own := h.own
  taken := h.taken
  asked := fun hp => absurd hp ha

theorem goTo (h : CallSound heard n c) {p : Phase} (hp : p ≠ .asked)
    (hr : ∀ r, p = .done r → Own heard c r) : CallSound heard n (c.goTo p) where
  number := h.number
  mail := h.mail
  own := hr
  taken := h.taken
  asked := fun ha => absurd ha hp

theorem receive (h : CallSound heard n c) {v : Answer} (hv : Heard heard c v) :
    CallSound heard n (c.receive v) := by
  have hmail : ∀ w, (c.receive v).mail = some w → Heard heard c w := by
    intro w hw
    rw [Call.receive] at hw
    split at hw
    · exact h.mail w hw
    · cases hw
      exact hv
  have heq : ∀ w, Heard heard (c.receive v) w ↔ Heard heard c w := by
    intro w
    rw [Heard, Heard, Call.taken_receive, Call.id_receive]
  constructor
  · rw [Call.id_receive]
    exact h.number
  · exact fun w hw => (heq w).mpr (hmail w hw)
  · intro r hr
    rw [Call.phase_receive] at hr
    rcases h.own r hr with ho | ⟨w, hw, he⟩
    · exact .inl ho
    · exact .inr ⟨w, (heq w).mpr hw, he⟩
  · rw [Call.taken_receive]
    exact h.taken
  · rw [Call.phase_receive, Call.taken_receive]
    intro hp
    refine ⟨(h.asked hp).1, ?_⟩
    rw [Call.receive, hp]
    exact (h.asked hp).2

/-- A reply is taken for a call that waits. -/
theorem take (h : CallSound heard n c) (hw : c.waits = true) (v : Answer) :
    CallSound (heard ++ [v]) n { c with taken := some heard.length } := by
  obtain ⟨ha, hd, ht, -⟩ := Call.waits_iff.mp hw
  constructor
  · exact h.number
  · intro w hm
    obtain ⟨d, hd, -⟩ := h.mail w hm
    rw [ht] at hd
    cases hd
  · intro r hr
    exact absurd hr (hd r)
  · intro d hd
    cases hd
    rw [List.length_append]
    exact Nat.lt_succ_self _
  · intro hp
    exact absurd hp ha

end CallSound

/-! ## Steps -/

theorem modify_eq_mapIdx (calls : List Call) (n : Nat) (f : Call → Call) :
    calls.modify n f = calls.mapIdx fun k c => if n = k then f c else c := by
  refine List.ext_getElem? fun k => ?_
  rw [List.getElem?_modify, List.getElem?_mapIdx]
  cases calls[k]? <;> rfl

theorem modify_dropped (calls : List Call) (gone : Nat → Bool) (n : Nat) (f : Call → Call) :
    (dropped calls gone).modify n f = calls.mapIdx fun k c =>
      if n = k then f (if gone k then c.cutOff else c) else if gone k then c.cutOff else c := by
  refine List.ext_getElem? fun k => ?_
  rw [List.getElem?_modify, getElem?_dropped, List.getElem?_mapIdx]
  cases calls[k]? <;> rfl

theorem Sound.start : Sound {} where
  calls := fun n c h => by simp at h
  pending := fun id n => by simp
  hands := fun n v h => by simp at h
  once := fun m n c c' d h => by simp at h
  next := rfl

/-- A step that changes each call by itself, takes no reply for any, and makes
the map fit the calls that wait after it. -/
theorem Sound.change {s : LineLink} (h : Sound s) (g : Nat → Call → Call)
    {pending : Assoc UInt64 Nat} {hands : List (Nat × Answer)}
    (hid : ∀ n c, (g n c).id = c.id) (ht : ∀ n c, (g n c).taken = c.taken)
    (hc : ∀ n c, s.calls[n]? = some c → CallSound s.heard n (g n c))
    (hp : ∀ id n, pending.get id = some n ↔
      ∃ c, s.calls[n]? = some c ∧ c.id = id ∧ (g n c).waits = true)
    (hh : ∀ e ∈ hands, e ∈ s.hands) :
    Sound { s with calls := s.calls.mapIdx g, pending := pending, hands := hands } := by
  have look : ∀ n c, (s.calls.mapIdx g)[n]? = some c →
      ∃ b, s.calls[n]? = some b ∧ g n b = c := by
    intro n c hn
    rw [List.getElem?_mapIdx] at hn
    exact Option.map_eq_some_iff.mp hn
  constructor
  · intro n c hn
    obtain ⟨b, hb, rfl⟩ := look n c hn
    exact hc n b hb
  · intro id n
    rw [hp]
    constructor
    · rintro ⟨c, hn, he, hw⟩
      refine ⟨g n c, ?_, (hid n c).trans he, hw⟩
      rw [List.getElem?_mapIdx, hn]
      rfl
    · rintro ⟨c, hn, he, hw⟩
      obtain ⟨b, hb, rfl⟩ := look n c hn
      exact ⟨b, hb, (hid n b).symm.trans he, hw⟩
  · intro n v he
    obtain ⟨c, hn, d, hd, hv, hi⟩ := h.hands n v (hh _ he)
    refine ⟨g n c, ?_, d, (ht n c).trans hd, hv, hi.trans (congrArg some (hid n c).symm)⟩
    rw [List.getElem?_mapIdx, hn]
    rfl
  · intro m n c c' d hm hn hd hd'
    obtain ⟨b, hb, rfl⟩ := look m c hm
    obtain ⟨b', hb', rfl⟩ := look n c' hn
    exact h.once m n b b' d hb hb' ((ht m b).symm.trans hd) ((ht n b').symm.trans hd')
  · rw [List.length_mapIdx]
    exact h.next

/-- A call whose sender the map has is not yet to enter it. -/
theorem Sound.not_asked {s : LineLink} (h : Sound s) {id : UInt64} {n : Nat} {c : Call}
    (hn : s.pending.get id = some n) (hc : s.calls[n]? = some c) : c.phase ≠ .asked := by
  obtain ⟨b, hb, -, hw⟩ := (h.pending id n).mp hn
  rw [hc] at hb
  cases hb
  exact (Call.waits_iff.mp hw).1

/-- Calls whose sender is dropped. -/
theorem Sound.cut {s : LineLink} (h : Sound s) (gone : Nat → Bool)
    (hg : ∀ n, gone n = true → ∃ id, s.pending.get id = some n) {n : Nat} {c : Call}
    (hc : s.calls[n]? = some c) : CallSound s.heard n (if gone n then c.cutOff else c) := by
  split
  next hn =>
    obtain ⟨id, hid⟩ := hg n hn
    exact (h.calls n c hc).cutOff (h.not_asked hid hc)
  · exact h.calls n c hc

theorem waits_cut {b : Bool} {c : Call} :
    (if b then c.cutOff else c).waits = true ↔ b = false ∧ c.waits = true := by
  cases b <;> simp

theorem under_some {s : LineLink} {id : UInt64} {n : Nat} (h : s.under id n = true) :
    ∃ id, s.pending.get id = some n := ⟨id, under_iff.mp h⟩

theorem Sound.call {s : LineLink} (h : Sound s) : Sound { s with
    calls := s.calls ++ [{ id := s.nextId }], nextId := s.nextId + 1 } := by
  have look : ∀ (n : Nat) (c : Call), (s.calls ++ [({ id := s.nextId } : Call)])[n]? = some c →
      s.calls[n]? = some c ∨ n = s.calls.length ∧ c = { id := s.nextId } := by
    intro n c hn
    rcases Nat.lt_or_ge n s.calls.length with hlt | hge
    · rw [List.getElem?_append_left hlt] at hn
      exact .inl hn
    · rw [List.getElem?_append_right hge] at hn
      obtain ⟨hi, hc⟩ := List.getElem?_eq_some_iff.mp hn
      rw [List.length_singleton] at hi
      exact .inr ⟨by omega, by simpa using hc.symm⟩
  have keep : ∀ (n : Nat) (c : Call), s.calls[n]? = some c →
      (s.calls ++ [({ id := s.nextId } : Call)])[n]? = some c := by
    intro n c hn
    rw [List.getElem?_append_left (List.getElem?_eq_some_iff.mp hn).1, hn]
  constructor
  · intro n c hn
    rcases look n c hn with hn | ⟨rfl, rfl⟩
    · exact h.calls n c hn
    · exact ⟨h.next, fun _ hm => (by cases hm), fun _ hd => (by cases hd),
        fun _ ht => (by cases ht), fun _ => ⟨rfl, rfl⟩⟩
  · intro id n
    rw [h.pending]
    constructor
    · rintro ⟨c, hn, hc⟩
      exact ⟨c, keep n c hn, hc⟩
    · rintro ⟨c, hn, he, hw⟩
      rcases look n c hn with hn | ⟨rfl, rfl⟩
      · exact ⟨c, hn, he, hw⟩
      · cases hw
  · intro n v hv
    obtain ⟨c, hn, hc⟩ := h.hands n v hv
    exact ⟨c, keep n c hn, hc⟩
  · intro m n c c' d hm hn hd hd'
    rcases look m c hm with hm | ⟨rfl, rfl⟩
    · rcases look n c' hn with hn | ⟨rfl, rfl⟩
      · exact h.once m n c c' d hm hn hd hd'
      · cases hd'
    · cases hd
  · rw [List.length_append, List.length_singleton, UInt64.ofNat_add, ← h.next]
    rfl

theorem Sound.enter {s : LineLink} (h : Sound s) {n : Nat} {c : Call} (hc : s.calls[n]? = some c)
    (hp : c.phase = .asked) : Sound { s with
      calls := (dropped s.calls (s.under c.id)).modify n (Call.goTo .writing)
      pending := s.pending.insert c.id n } := by
  have hn : s.under c.id n = false := by
    rw [Bool.eq_false_iff]
    exact fun hu => h.not_asked (under_iff.mp hu) hc hp
  rw [modify_dropped]
  refine h.change _ ?_ ?_ ?_ ?_ fun _ he => he
  · intro k b
    by_cases hk : n = k <;> cases s.under c.id k <;> simp [hk]
  · intro k b
    by_cases hk : n = k <;> cases s.under c.id k <;> simp [hk] <;> rfl
  · intro k b hb
    have hcut := h.cut (s.under c.id) (fun _ => under_some) hb
    split
    · exact hcut.goTo (by simp) (by simp)
    · exact hcut
  · intro id k
    rw [Assoc.get_insert]
    by_cases hk : n = k
    · subst hk
      rw [hc, hn]
      have hw : (Call.goTo .writing c).waits = true := by
        obtain ⟨ht, hcut⟩ := (h.calls n c hc).asked hp
        simp [Call.waits, Call.goTo, ht, hcut]
      split
      next hid => exact iff_of_true rfl ⟨c, rfl, hid.symm, by simpa using hw⟩
      next hid =>
        refine iff_of_false ?_ ?_
        · intro hget
          exact h.not_asked hget hc hp
        · rintro ⟨b, hb, he, -⟩
          cases hb
          exact hid he.symm
    · simp only [hk, if_false, waits_cut]
      split
      next hid =>
        refine iff_of_false (fun he => hk (Option.some.inj he)) ?_
        rintro ⟨b, hb, he, hu, hw⟩
        have := (h.pending id k).mpr ⟨b, hb, he, hw⟩
        rw [hid] at this
        rw [under_iff.mpr this] at hu
        cases hu
      next hid =>
        rw [h.pending]
        constructor
        · rintro ⟨b, hb, he, hw⟩
          refine ⟨b, hb, he, ?_, hw⟩
          rw [Bool.eq_false_iff]
          intro hu
          have := (h.pending id k).mpr ⟨b, hb, he, hw⟩
          obtain ⟨b', hb', he', -⟩ := (h.pending c.id k).mp (under_iff.mp hu)
          rw [hb] at hb'
          cases hb'
          exact hid (he.symm.trans he')
        · rintro ⟨b, hb, he, -, hw⟩
          exact ⟨b, hb, he, hw⟩

theorem Sound.move {s : LineLink} (h : Sound s) {n : Nat} {c : Call} {p : Phase}
    (hc : s.calls[n]? = some c) (hw : (c.goTo p).waits = c.waits ∨ c.mail.isSome = true)
    (hp : p ≠ .asked) (hr : ∀ r, p = .done r → ∃ v, c.mail = some v ∧ r = replyOf v) :
    Sound { s with calls := s.calls.modify n (Call.goTo p) } := by
  rw [modify_eq_mapIdx]
  refine h.change _ ?_ ?_ ?_ ?_ fun _ he => he
  · intro k b
    split <;> rfl
  · intro k b
    split <;> rfl
  · intro k b hb
    split
    next hk =>
      subst hk
      rw [hc] at hb
      cases hb
      refine (h.calls n c hc).goTo hp fun r he => ?_
      obtain ⟨v, hv, hre⟩ := hr r he
      exact .inr ⟨v, (h.calls n c hc).mail v hv, hre⟩
    · exact h.calls k b hb
  · intro id k
    rw [h.pending]
    refine exists_congr fun b => and_congr_right fun hb => and_congr_right fun _ => ?_
    split
    next hk =>
      subst hk
      rw [hc] at hb
      cases hb
      rcases hw with hw | hm
      · rw [hw]
      · -- a reply was taken for it
        obtain ⟨v, hv⟩ := Option.isSome_iff_exists.mp hm
        obtain ⟨d, ht, -⟩ := (h.calls n c hc).mail v hv
        have not : ∀ b : Call, b.taken = some d → ¬ b.waits = true := by
          intro b hb hw
          rw [(Call.waits_iff.mp hw).2.2.1] at hb
          cases hb
        exact iff_of_false (not c ht) (not (c.goTo p) ht)
    · rfl

theorem Sound.leave {s : LineLink} (h : Sound s) {n : Nat} {c : Call} {e : HookError}
    (hc : s.calls[n]? = some c) (he : e = .silent ∨ ∃ m, e = .io m) : Sound { s with
      calls := (dropped s.calls (s.under c.id)).modify n (Call.goTo (.done (.error e)))
      pending := s.pending.erase c.id } := by
  rw [modify_dropped]
  refine h.change _ ?_ ?_ ?_ ?_ fun _ he => he
  · intro k b
    by_cases hk : n = k <;> cases s.under c.id k <;> simp [hk]
  · intro k b
    by_cases hk : n = k <;> cases s.under c.id k <;> simp [hk] <;> rfl
  · intro k b hb
    have hcut := h.cut (s.under c.id) (fun _ => under_some) hb
    split
    · refine hcut.goTo (by simp) fun r hr => .inl ?_
      cases hr
      exact he.imp (congrArg Except.error) fun ⟨m, hm⟩ => ⟨m, congrArg Except.error hm⟩
    · exact hcut
  · intro id k
    by_cases hid : id = c.id
    · subst hid
      rw [Assoc.get_erase_self]
      refine iff_of_false (by simp) ?_
      rintro ⟨b, hb, he, hw⟩
      by_cases hk : n = k
      · rw [if_pos hk] at hw
        cases hw
      · rw [if_neg hk, waits_cut] at hw
        rw [under_iff.mpr ((h.pending c.id k).mpr ⟨b, hb, he, hw.2⟩)] at hw
        cases hw.1
    · rw [Assoc.get_erase_ne _ hid, h.pending]
      refine exists_congr fun b => and_congr_right fun hb => and_congr_right fun he => ?_
      have hk : n ≠ k := by
        rintro rfl
        rw [hc] at hb
        cases hb
        exact hid he.symm
      rw [if_neg hk, waits_cut]
      refine ⟨fun hw => ⟨?_, hw⟩, fun hw => hw.2⟩
      rw [Bool.eq_false_iff]
      intro hu
      obtain ⟨b', hb', he', -⟩ := (h.pending c.id k).mp (under_iff.mp hu)
      rw [hb] at hb'
      cases hb'
      exact hid (he.symm.trans he')

theorem Sound.unheard {s : LineLink} (h : Sound s) (v : Answer) :
    Sound { s with heard := s.heard ++ [v] } where
  calls := fun n c hn => (h.calls n c hn).concat v
  pending := h.pending
  hands := fun n w hw => by
    obtain ⟨c, hn, hh⟩ := h.hands n w hw
    exact ⟨c, hn, hh.concat v⟩
  once := h.once
  next := h.next

theorem Sound.deliver {s : LineLink} (h : Sound s) {v : Answer} {id : UInt64} {n : Nat}
    (hv : v.id = some id) (hn : s.pending.get id = some n) : Sound { s with
      heard := s.heard ++ [v]
      calls := s.calls.modify n fun c => { c with taken := some s.heard.length }
      pending := s.pending.erase id
      hands := s.hands ++ [(n, v)] } := by
  obtain ⟨c, hc, rfl, hw⟩ := (h.pending id n).mp hn
  have hnone : c.taken = none := (Call.waits_iff.mp hw).2.2.1
  have look : ∀ (k : Nat) (b' : Call), (s.calls.modify n fun c => { c with taken := some s.heard.length })[k]? =
      some b' → k = n ∧ b' = { c with taken := some s.heard.length } ∨
        k ≠ n ∧ s.calls[k]? = some b' := by
    intro k b' hb
    rw [List.getElem?_modify] at hb
    by_cases hk : n = k
    · subst hk
      rw [hc] at hb
      simp only [if_true, Option.map_eq_map, Option.map_some, Option.some.injEq] at hb
      exact .inl ⟨rfl, hb.symm⟩
    · simp only [hk, if_false, Option.map_eq_map, Option.map_id'] at hb
      exact .inr ⟨fun he => hk he.symm, hb⟩
  have keep : ∀ (k : Nat) (b : Call), k ≠ n → s.calls[k]? = some b →
      (s.calls.modify n fun c => { c with taken := some s.heard.length })[k]? = some b := by
    intro k b hk hb
    rw [List.getElem?_modify, hb]
    simp [Ne.symm hk]
  have self : (s.calls.modify n fun c => { c with taken := some s.heard.length })[n]? =
      some { c with taken := some s.heard.length } := by
    rw [List.getElem?_modify, hc]
    simp
  constructor
  · intro k b hb
    rcases look k b hb with ⟨rfl, rfl⟩ | ⟨-, hk⟩
    · exact (h.calls k c hc).take hw v
    · exact (h.calls k b hk).concat v
  · intro id k
    by_cases hid : id = c.id
    · subst hid
      rw [Assoc.get_erase_self]
      refine iff_of_false (by simp) ?_
      rintro ⟨b, hb, he, hbw⟩
      rcases look k b hb with ⟨rfl, rfl⟩ | ⟨hk, hb⟩
      · have := (Call.waits_iff.mp hbw).2.2.1
        cases this
      · have := (h.pending c.id k).mpr ⟨b, hb, he, hbw⟩
        rw [hn] at this
        exact hk (Option.some.inj this).symm
    · rw [Assoc.get_erase_ne _ hid, h.pending]
      constructor
      · rintro ⟨b, hb, he, hbw⟩
        have hk : k ≠ n := by
          rintro rfl
          rw [hc] at hb
          cases hb
          exact hid he.symm
        exact ⟨b, keep k b hk hb, he, hbw⟩
      · rintro ⟨b, hb, he, hbw⟩
        rcases look k b hb with ⟨rfl, rfl⟩ | ⟨-, hb⟩
        · exact absurd he.symm hid
        · exact ⟨b, hb, he, hbw⟩
  · intro k w hm
    rcases List.mem_append.mp hm with hm | hm
    · obtain ⟨b, hb, hh⟩ := h.hands k w hm
      have hk : k ≠ n := by
        rintro rfl
        rw [hc] at hb
        cases hb
        obtain ⟨d, hd, -⟩ := hh
        rw [hnone] at hd
        cases hd
      exact ⟨b, keep k b hk hb, hh.concat v⟩
    · cases List.mem_singleton.mp hm
      exact ⟨_, self, s.heard.length, rfl, by simp, hv⟩
  · intro k m b b' d hb hb' hd hd'
    rcases look k b hb with ⟨rfl, rfl⟩ | ⟨-, hk⟩
    · rcases look m b' hb' with ⟨rfl, rfl⟩ | ⟨-, hm⟩
      · rfl
      · cases hd
        exact absurd ((h.calls m b' hm).taken _ hd') (Nat.lt_irrefl _)
    · rcases look m b' hb' with ⟨rfl, rfl⟩ | ⟨-, hm⟩
      · cases hd'
        exact absurd ((h.calls k b hk).taken _ hd) (Nat.lt_irrefl _)
      · exact h.once k m b b' d hk hm hd hd'
  · rw [List.length_modify]
    exact h.next

theorem Sound.send {s : LineLink} (h : Sound s) {i n : Nat} {v : Answer}
    (hi : s.hands[i]? = some (n, v)) : Sound { s with
      calls := s.calls.modify n (Call.receive v)
      hands := s.hands.eraseIdx i } := by
  obtain ⟨c, hc, hh⟩ := h.hands n v (List.mem_of_getElem? hi)
  rw [modify_eq_mapIdx]
  refine h.change _ ?_ ?_ ?_ ?_ fun _ he => List.mem_of_mem_eraseIdx he
  · intro k b
    split <;> simp
  · intro k b
    split <;> simp
  · intro k b hb
    split
    next hk =>
      subst hk
      rw [hc] at hb
      cases hb
      exact (h.calls n c hc).receive hh
    · exact h.calls k b hb
  · intro id k
    rw [h.pending]
    refine exists_congr fun b => and_congr_right fun _ => and_congr_right fun _ => ?_
    split
    · rw [Call.waits_receive]
    · rfl

theorem Sound.ended {s : LineLink} (h : Sound s) : Sound { s with
    calls := dropped s.calls fun n => s.pending.keys.any fun id => s.under id n
    pending := [] } := by
  refine h.change _ ?_ ?_ ?_ ?_ fun _ he => he
  · intro k b
    split <;> rfl
  · intro k b
    split <;> rfl
  · intro k b hb
    refine h.cut (fun n => s.pending.keys.any fun id => s.under id n) ?_ hb
    intro n hn
    obtain ⟨id, -, hu⟩ := List.any_eq_true.mp hn
    exact under_some hu
  · intro id k
    refine iff_of_false (by simp) ?_
    rintro ⟨b, hb, he, hw⟩
    obtain ⟨hany, hw⟩ := waits_cut.mp hw
    have hget := (h.pending id k).mpr ⟨b, hb, he, hw⟩
    have hkey : id ∈ s.pending.keys := List.mem_map_of_mem (Assoc.mem_of_get hget)
    exact Bool.false_ne_true (hany.symm.trans (List.any_eq_true.mpr ⟨id, hkey, under_iff.mpr hget⟩))

/-- **Each step** keeps a link sound. -/
theorem Sound.step {s s' : LineLink} {t : Turn} (h : Sound s) (hs : Stepped s t s') : Sound s' := by
  cases hs with
  | call => exact h.call
  | enter hc hp => exact h.enter hc hp
  | move hc hw _ _ hp hr => exact h.move hc hw hp hr
  | leave hc _ _ he => exact h.leave hc he
  | unheard _ => exact h.unheard _
  | deliver hv hn => exact h.deliver hv hn
  | send hi => exact h.send hi
  | ended => exact h.ended

/-! ## Runs -/

theorem Run.sound {ts : List Turn} {s : LineLink} (h : Run ts s) : Sound s := by
  induction h with
  | start => exact .start
  | turn _ hs ih => exact ih.step (stepped hs)

/-- Calls of one id, among no more than there are ids, are one call. -/
theorem Sound.inj {s : LineLink} (h : Sound s) (hfew : s.calls.length ≤ 2 ^ 64) {m n : Nat}
    {c c' : Call} (hm : s.calls[m]? = some c) (hn : s.calls[n]? = some c') (he : c.id = c'.id) :
    m = n := by
  have hml := (List.getElem?_eq_some_iff.mp hm).1
  have hnl := (List.getElem?_eq_some_iff.mp hn).1
  rw [(h.calls m c hm).number, (h.calls n c' hn).number] at he
  have := congrArg UInt64.toNat he
  rw [UInt64.toNat_ofNat', UInt64.toNat_ofNat'] at this
  omega

/-- A sender is dropped by the call that leaves, at the end of the connection, or
when ids have come round. -/
theorem Run.cut {ts : List Turn} {s : LineLink} (h : Run ts s) :
    ∀ (n : Nat) (c : Call), s.calls[n]? = some c → c.cut = true →
      (∃ r, c.phase = .done r) ∨ .ended ∈ ts ∨ 2 ^ 64 < s.calls.length := by
  induction h with
  | start =>
      intro n c hn
      cases hn
  | @turn ts s s' t hrun hs ih =>
      intro n c hn hcut
      have hsound := hrun.sound
      have hst := stepped hs
      -- a sender the call had dropped before
      have old : s.calls.length ≤ s'.calls.length → ∀ b : Call, s.calls[n]? = some b →
          b.cut = true → (∃ r, c.phase = .done r) ∨ .ended ∈ t :: ts ∨ 2 ^ 64 < s'.calls.length := by
        intro hlen b hb hbc
        obtain ⟨c', hc', -, hd⟩ := hst.kept hb
        rw [hn] at hc'
        cases hc'
        rcases ih n b hb hbc with ⟨r, hr⟩ | hm | hlt
        · exact .inl ⟨r, hd r hr⟩
        · exact .inr (.inl (List.mem_cons_of_mem t hm))
        · exact .inr (.inr (by omega))
      -- or one dropped now, for a call of the same id
      have same : ∀ (k : Nat) (b a : Call), s.calls[n]? = some b → s.calls[k]? = some a →
          k ≠ n → s.under a.id n = true → 2 ^ 64 < s.calls.length := by
        intro k b a hb ha hk hu
        obtain ⟨b', hb', hi, -⟩ := (hsound.pending a.id n).mp (under_iff.mp hu)
        by_contra hfew
        exact hk (hsound.inj (by omega) ha hb' hi.symm)
      have modified : ∀ (k : Nat) (f : Call → Call), (∀ b, (f b).cut = b.cut) →
          (s.calls.modify k f)[n]? = some c → ∃ b : Call, s.calls[n]? = some b ∧ b.cut = true := by
        intro k f hf hc
        rw [List.getElem?_modify] at hc
        obtain ⟨b, hb, hbc⟩ := Option.map_eq_some_iff.mp hc
        refine ⟨b, hb, ?_⟩
        rw [← hcut, ← hbc]
        split
        · exact (hf b).symm
        · rfl
      have dropping : ∀ (k : Nat) (a : Call) (p : Phase), s.calls[k]? = some a →
          s.calls.length = s'.calls.length →
          ((dropped s.calls (s.under a.id)).modify k (Call.goTo p))[n]? = some c → k ≠ n →
          (∃ r, c.phase = .done r) ∨ .ended ∈ t :: ts ∨ 2 ^ 64 < s'.calls.length := by
        intro k a p ha hlen hc hk
        rw [List.getElem?_modify, getElem?_dropped] at hc
        simp only [hk, if_false, Option.map_eq_map, Option.map_map] at hc
        obtain ⟨b, hb, rfl⟩ := Option.map_eq_some_iff.mp hc
        by_cases hu : s.under a.id n = true
        · exact .inr (.inr (hlen ▸ same k b a hb ha hk hu))
        · refine old (Nat.le_of_eq hlen) b hb ?_
          simpa [hu] using hcut
      cases hst with
      | call =>
          rcases Nat.lt_or_ge n s.calls.length with hlt | hge
          · rw [List.getElem?_append_left hlt] at hn
            refine old ?_ c hn hcut
            rw [List.length_append]
            omega
          · rw [List.getElem?_append_right hge] at hn
            obtain ⟨hi, hc⟩ := List.getElem?_eq_some_iff.mp hn
            rw [List.length_singleton] at hi
            rw [← hc] at hcut
            simp at hcut
      | @enter k a ha hp =>
          by_cases hk : k = n
          · subst hk
            -- the map does not have a call that is about to enter it
            have hu : s.under a.id k = false :=
              Bool.eq_false_iff.mpr fun hu => hsound.not_asked (under_iff.mp hu) ha hp
            rw [List.getElem?_modify, getElem?_dropped, ha] at hn
            simp only [hu, if_true, Option.map_eq_map, Option.map_some, Option.some.injEq] at hn
            rw [← hn] at hcut
            have hac : a.cut = true := by simpa [Call.goTo] using hcut
            rw [((hsound.calls k a ha).asked hp).2] at hac
            cases hac
          · exact dropping k a _ ha (by simp [dropped]) hn hk
      | @move _ k _ p _ _ _ _ _ _ =>
          obtain ⟨b, hb, hbc⟩ := modified k (Call.goTo p) (fun _ => rfl) hn
          exact old (Nat.le_of_eq (List.length_modify ..).symm) b hb hbc
      | @leave k a e ha _ _ _ =>
          by_cases hk : k = n
          · subst hk
            rw [List.getElem?_modify] at hn
            obtain ⟨b, -, rfl⟩ := Option.map_eq_some_iff.mp hn
            rw [if_pos rfl]
            exact .inl ⟨_, rfl⟩
          · exact dropping k a _ ha (by simp [dropped]) hn hk
      | unheard _ => exact old (Nat.le_refl _) c hn hcut
      | @deliver v id k _ _ =>
          obtain ⟨b, hb, hbc⟩ := modified k (fun c => { c with taken := some s.heard.length })
            (fun _ => rfl) hn
          exact old (Nat.le_of_eq (List.length_modify ..).symm) b hb hbc
      | @send i k v _ =>
          obtain ⟨b, hb, hbc⟩ := modified k (Call.receive v) (fun b => by
            cases h : b.phase <;> simp [Call.receive, h]) hn
          exact old (Nat.le_of_eq (List.length_modify ..).symm) b hb hbc
      | ended => exact .inr (.inl List.mem_cons_self)

/-- **Replies reach the calls they answer.**  In every run, whatever the order of
its turns: the map has the calls that wait, and no other; what a call returned is
an error of the link, or what the reply says that was taken for it and bears its
id; no reply is taken for two calls; what a call returned it has returned for
good; a reply that answers no waiting call changes nothing.  As long as ids have
not come round they tell calls apart, and a call that waits loses its sender to
its reply, or to the end of the connection. -/
theorem replies_routed {ts : List Turn} {s : LineLink} (h : Run ts s) :
    (∀ id n, s.pending.get id = some n ↔
      ∃ c, s.calls[n]? = some c ∧ c.id = id ∧ c.waits = true) ∧
    (∀ (n : Nat) c r, s.calls[n]? = some c → c.phase = .done r → Own s.heard c r) ∧
    (∀ (m n : Nat) (c c' : Call) d, s.calls[m]? = some c → s.calls[n]? = some c' →
      c.taken = some d → c'.taken = some d → m = n) ∧
    (∀ t s' (n : Nat) c r, s.step t = some s' → s.calls[n]? = some c → c.phase = .done r →
      ∃ c', s'.calls[n]? = some c' ∧ c'.phase = .done r) ∧
    (∀ v : Answer, (∀ (n : Nat) c, s.calls[n]? = some c → c.waits = true → v.id ≠ some c.id) →
      s.step (.deliver v) = some { s with heard := s.heard ++ [v] }) ∧
    (s.calls.length ≤ 2 ^ 64 →
      (∀ (m n : Nat) (c c' : Call), s.calls[m]? = some c → s.calls[n]? = some c' → c.id = c'.id →
        m = n) ∧
      ∀ (n : Nat) (c : Call), s.calls[n]? = some c → c.cut = true →
        (∃ r, c.phase = .done r) ∨ .ended ∈ ts) := by
  have hs := h.sound
  refine ⟨hs.pending, fun n c r hn => (hs.calls n c hn).own r, hs.once, ?_, ?_, ?_⟩
  · intro t s' n c r ht hn hr
    obtain ⟨c', hc', -, hd⟩ := (stepped ht).kept hn
    exact ⟨c', hc', hd r hr⟩
  · intro v hv
    rw [LineLink.step]
    cases hid : v.id with
    | none => rfl
    | some id =>
        cases hget : s.pending.get id with
        | none => simp only [hget]
        | some n =>
            obtain ⟨c, hn, he, hw⟩ := (hs.pending id n).mp hget
            exact absurd (hid.trans (congrArg some he.symm)) (hv n c hn hw)
  · intro hfew
    refine ⟨fun m n c c' hm hn he => hs.inj hfew hm hn he, fun n c hn hc => ?_⟩
    exact (h.cut n c hn hc).imp_right fun h => h.resolve_right (by omega)

/-! ## One call, answered -/

namespace Answered

def reply : Answer := ⟨some 1, some true, none, "done"⟩

/-- What the turns of one call lead to. -/
def after : Option LineLink := do
  let s ← step {} .call
  let s ← step s (.enter 0)
  let s ← step s (.write 0 none)
  let s ← step s (.deliver reply)
  let s ← step s (.send 0)
  step s (.receive 0)

theorem run : ∃ s, after = some s ∧
    Run [.receive 0, .send 0, .deliver reply, .write 0 none, .enter 0, .call] s :=
  ⟨_, rfl, .turn (.turn (.turn (.turn (.turn (.turn .start rfl) rfl) rfl) rfl) rfl) rfl⟩

/-- The call returned the reply, which bears its id. -/
theorem routed : ∃ s : LineLink, after = some s ∧ ∀ (n : Nat) c r, s.calls[n]? = some c →
    c.phase = .done r → Own s.heard c r := by
  obtain ⟨s, hs, hrun⟩ := run
  exact ⟨s, hs, (replies_routed hrun).2.1⟩

end Answered

end Rescind.Control.LineLink
