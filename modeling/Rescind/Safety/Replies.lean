/-
# `Rescind.Safety.Replies` — each secret in the reply of its own call

What waits in the mailbox was accepted in one call, which has the engine or is
about to be answered with it.  It is so in runs where only a verb whose reply
names the instance keeps a secret of `requester()`, and nobody else deals with what
waits for an instance a reply is to name (`Orderly`).

**Proved here.**

    what a reply is to name is dealt with by nobody else       (`waiting_on_named`)
    every orderly step keeps what is owed                      (`owes_of_done`)
    in orderly runs each call is handed what it was accepted   (`replies_hand_over`)
    the reply of an `apply` is without its secret              (`Unread.keeps_secret`)
-/
import Rescind.Control.Desk
import Rescind.Safety.Custody

namespace Rescind.Control

open Lib

/-- The instance a call's reply is to name. -/
def Call.names (c : Call) : Option String :=
  match c.stage with
  | .served (.ok r) => r.json.inst
  | .detached (.ok r) => r.json.inst
  | _ => none

namespace Desk

def names (s : Desk) (t : Nat) : Option String := (s.calls.get t).bind Call.names

def accepted (s : Desk) (t : Nat) : List Secret := ((s.calls.get t).map Call.accepted).getD []

/-- No reply still to be made names the instance. -/
def Unnamed (s : Desk) (x : String) : Prop := ∀ t, s.names t ≠ some x

/-- What was accepted in the verb that has the engine. -/
def held (s : Desk) : List Secret :=
  match s.engine with
  | some (some t) => s.accepted t
  | _ => []

end Desk

/-- A secret is offered to an attached client in a verb, not in a pass; whoever
offers or drops one leaves what a reply is to name; a verb whose reply names an
instance has all it accepted waiting there, and nothing else; any other accepted
none, or ended in an error and dropped what it accepted. -/
def Orderly (s : Desk) : Desk.Step → Prop
  | .deal (.offer x) => s.mailbox.attached = true → s.engine ≠ some none ∧ s.Unnamed x.1
  | .deal (.dropFor x) => s.Unnamed x
  | .deal .dropAll => ∀ x, s.Unnamed x
  | .finish (.ok r) => match r.json.inst with
      | some x => s.Unnamed x ∧ s.held = (waiting s.mailbox x).map (x, ·)
      | none => s.held = []
  | .finish (.error _) => ∀ y ∈ s.held, waiting s.mailbox y.1 = []
  | _ => True

/-- Every secret is in the reply of the call it was accepted in; what waits was
accepted in one call, which has the engine or whose reply names the instance; and
none was accepted where there is no client. -/
structure HandsOver (s : Desk) : Prop where
  replies : ∀ t c r ls, s.calls.get t = some c → c.stage = .answered (.ok (r, ls)) →
    ls = c.accepted.map Prod.snd
  behind : ∀ x, waiting s.mailbox x ≠ [] →
    ∃ t, (s.engine = some (some t) ∨ s.names t = some x) ∧
      ∀ l ∈ waiting s.mailbox x, (x, l) ∈ s.accepted t
  strays : s.strays = []

/-! ## The invariant -/

/-- A call's reply has what was accepted in it, or is to have; nothing was accepted
before its verb ran. -/
def Call.Fair (c : Call) : Prop :=
  match c.stage with
  | .attached => c.accepted = []
  | .served (.ok r) => r.json.inst = none → c.accepted = []
  | .detached (.ok r) => r.json.inst = none → c.accepted = []
  | .answered (.ok (_, ls)) => ls = c.accepted.map Prod.snd
  | _ => True

structure Owes (s : Desk) : Prop where
  named : ∀ t x, s.names t = some x → s.accepted t = (waiting s.mailbox x).map (x, ·)
  alone : ∀ t t' x, s.names t = some x → s.names t' = some x → t = t'
  waits : ∀ x, waiting s.mailbox x ≠ [] → s.Unnamed x →
    ∃ t, s.engine = some (some t) ∧ ∀ l ∈ waiting s.mailbox x, (x, l) ∈ s.accepted t
  fair : ∀ t c, s.calls.get t = some c → c.Fair
  strays : s.strays = []

section
variable {s s' : Desk} {t j : Nat} {c c' : Call} {x y : String} {d : Dealing} {m : Mailbox}
  {l : String × String}

theorem names_put (s : Desk) (t j : Nat) (c : Call) :
    (s.put t c).names j = if j = t then c.names else s.names j := by
  unfold Desk.names Desk.put
  rw [Assoc.get_insert]
  split <;> rfl

theorem accepted_put (s : Desk) (t j : Nat) (c : Call) :
    (s.put t c).accepted j = if j = t then c.accepted else s.accepted j := by
  unfold Desk.accepted Desk.put
  rw [Assoc.get_insert]
  split <;> rfl

theorem names_of_get (h : s.calls.get t = some c) : s.names t = c.names := by
  unfold Desk.names
  rw [h]
  rfl

theorem accepted_of_get (h : s.calls.get t = some c) : s.accepted t = c.accepted := by
  unfold Desk.accepted
  rw [h]
  rfl

/-- A call that moves on and names what it named. -/
theorem names_put_same (h : s.names t = c.names) (j : Nat) : (s.put t c).names j = s.names j := by
  rw [names_put]
  split
  next hj => rw [hj, h]
  next => rfl

theorem accepted_put_same (h : s.accepted t = c.accepted) (j : Nat) :
    (s.put t c).accepted j = s.accepted j := by
  rw [accepted_put]
  split
  next hj => rw [hj, h]
  next => rfl

theorem fair_put (h : Owes s) (hc : c.Fair) :
    ∀ t' c', (s.put t c).calls.get t' = some c' → c'.Fair := by
  intro t' c' hg
  have hg' : (if t' = t then some c else s.calls.get t') = some c' := by
    rw [← Assoc.get_insert]
    exact hg
  split at hg'
  · cases hg'
    exact hc
  · exact h.fair t' c' hg'

/-- What an orderly dealing leaves: all that a reply is to name. -/
theorem waiting_on_named (ho : Orderly s (.deal d)) (h : s.names t = some x) :
    waiting (d.on s.mailbox) x = waiting s.mailbox x := by
  cases d with
  | offer a =>
      rw [waiting_offer]
      by_cases ha : s.mailbox.attached = true ∧ x = a.1
      · exact absurd (ha.2 ▸ h) ((ho ha.1).2 t)
      · rw [if_neg ha, List.append_nil]
  | dropFor a =>
      refine (waiting_erase _ _ _).trans (if_neg ?_)
      rintro rfl
      exact ho t h
  | dropAll => exact absurd h (ho x t)

/-- What waits after a dealing waited, or was accepted in it. -/
theorem mem_waiting_on (h : l ∈ waiting (d.on m) x) :
    l ∈ waiting m x ∨ (x, l) ∈ d.accepted m := by
  cases d with
  | offer a =>
      rw [waiting_offer] at h
      rcases List.mem_append.mp h with h | h
      · exact .inl h
      · split at h
        next ha =>
          obtain rfl := List.mem_singleton.mp h
          refine .inr ?_
          unfold Dealing.accepted
          rw [if_pos ha.1, ha.2]
          exact List.mem_singleton_self _
        next => cases h
  | dropFor a =>
      rw [show waiting (Dealing.on m (.dropFor a)) x = _ from waiting_erase _ _ _] at h
      split at h
      · cases h
      · exact .inl h
  | dropAll => cases h

/-- In a pass no secret is accepted. -/
theorem accepted_of_pass (ho : Orderly s (.deal d)) (he : s.engine = some none) :
    d.accepted s.mailbox = [] := by
  unfold Dealing.accepted
  split
  next ha =>
    cases d with
    | offer a => exact absurd he (ho ha).1
    | dropFor => rfl
    | dropAll => rfl
  next => rfl

/-- The mailbox as it was, and the same calls owing the same. -/
theorem Owes.of_same (h : Owes s) (hw : ∀ x, waiting s'.mailbox x = waiting s.mailbox x)
    (hn : ∀ t, s'.names t = s.names t) (ha : ∀ t, s'.accepted t = s.accepted t)
    (he : ∀ t, s.engine = some (some t) → s'.engine = some (some t))
    (hf : ∀ t c, s'.calls.get t = some c → c.Fair) (hs : s'.strays = s.strays) : Owes s' where
  named t x hx := by
    rw [ha, hw]
    exact h.named t x (hn t ▸ hx)
  alone t t' x hx hx' := h.alone t t' x (hn t ▸ hx) (hn t' ▸ hx')
  waits x hx hu := by
    rw [hw] at hx ⊢
    obtain ⟨t, ht, hl⟩ := h.waits x hx fun t => hn t ▸ hu t
    exact ⟨t, he t ht, fun l hm => ha t ▸ hl l hm⟩
  fair := hf
  strays := hs.trans h.strays

theorem owes_of_finish {a : List Secret} {r : Except ControlError Result} (h : Owes s)
    (ho : Orderly s (.finish r)) (he : s.engine = some (some t))
    (hc : s.calls.get t = some ⟨.running, a⟩) :
    Owes { s.put t ⟨.served r, a⟩ with engine := none } := by
  have ha : s.accepted t = a := accepted_of_get hc
  have hheld : s.held = a := by
    unfold Desk.held
    rw [he]
    exact ha
  have hnone : s.names t = none := names_of_get hc
  have hacc : ∀ j, (s.put t ⟨.served r, a⟩).accepted j = s.accepted j := accepted_put_same ha
  have hwaits : ∀ x, waiting s.mailbox x ≠ [] → s.Unnamed x →
      ∃ l ∈ waiting s.mailbox x, (x, l) ∈ a := by
    intro x hx hu
    obtain ⟨t', ht', hl⟩ := h.waits x hx hu
    rw [he] at ht'
    obtain rfl := Option.some.inj (Option.some.inj ht')
    obtain ⟨l, hm⟩ := List.exists_mem_of_ne_nil _ hx
    exact ⟨l, hm, ha ▸ hl l hm⟩
  -- a verb that names no instance leaves nothing of its own
  have hquiet : (∀ y ∈ a, waiting s.mailbox y.1 = []) → Call.names ⟨.served r, a⟩ = none →
      Call.Fair ⟨.served r, a⟩ → Owes { s.put t ⟨.served r, a⟩ with engine := none } := by
    intro hempty hn hf
    have hnames : ∀ j, (s.put t ⟨.served r, a⟩).names j = s.names j :=
      names_put_same (hnone.trans hn.symm)
    refine ⟨fun j x hx => ?_, fun j j' x hx hx' => ?_, fun x hx hu => ?_, fair_put h hf, h.strays⟩
    · exact (hacc j).trans (h.named j x (hnames j ▸ hx))
    · exact h.alone j j' x (hnames j ▸ hx) (hnames j' ▸ hx')
    · obtain ⟨l, -, hl⟩ := hwaits x hx fun j => hnames j ▸ hu j
      exact absurd (hempty _ hl) hx
  cases r with
  | error e => exact hquiet (hheld ▸ ho) rfl trivial
  | ok r =>
      cases hi : r.json.inst with
      | none =>
          have hnil : a = [] := by
            have ho' := ho
            simp only [Orderly, hi] at ho'
            exact hheld ▸ ho'
          subst hnil
          exact hquiet nofun hi fun _ => rfl
      | some x =>
          have hox : s.Unnamed x ∧ a = (waiting s.mailbox x).map (x, ·) := by
            have ho' := ho
            simp only [Orderly, hi] at ho'
            exact hheld ▸ ho'
          have hnames : ∀ j, (s.put t ⟨.served (.ok r), a⟩).names j =
              if j = t then some x else s.names j := fun j => by
            rw [names_put]
            split
            · exact hi
            · rfl
          have hf : Call.Fair ⟨.served (.ok r), a⟩ := fun hn => by
            rw [hi] at hn
            cases hn
          refine ⟨fun j y hy => ?_, fun j j' y hy hy' => ?_, fun y hy hu => ?_, fair_put h hf,
            h.strays⟩
          · refine (hacc j).trans ?_
            have hy' := (hnames j).symm.trans hy
            split at hy'
            next hj =>
              obtain rfl := Option.some.inj hy'
              rw [hj, ha]
              exact hox.2
            next => exact h.named j y hy'
          · have hj := (hnames j).symm.trans hy
            have hj' := (hnames j').symm.trans hy'
            split at hj
            next e₁ =>
              obtain rfl := Option.some.inj hj
              split at hj'
              next e₂ => rw [e₁, e₂]
              next => exact absurd hj' (hox.1 j')
            next =>
              split at hj'
              next =>
                obtain rfl := Option.some.inj hj'
                exact absurd hj (hox.1 j)
              next => exact h.alone j j' y hj hj'
          · -- what waits, waits for this reply or for one made before
            have hu' : s.Unnamed y := fun j hn => by
              refine hu j ((hnames j).trans ?_)
              split
              next hj =>
                rw [hj, hnone] at hn
                cases hn
              next => exact hn
            obtain ⟨l, -, hl⟩ := hwaits y hy hu'
            rw [hox.2] at hl
            obtain ⟨l', -, hl'⟩ := List.mem_map.mp hl
            refine absurd ((hnames t).trans ?_) (hu t)
            rw [if_pos rfl]
            exact congrArg some (congrArg Prod.fst hl')

theorem owes_of_answer {a : List Secret} {r : Result} (h : Owes s)
    (hc : s.calls.get t = some ⟨.detached (.ok r), a⟩) :
    Owes (s.reply t ⟨.detached (.ok r), a⟩ r) := by
  have hn : s.names t = r.json.inst := names_of_get hc
  have ha : s.accepted t = a := accepted_of_get hc
  unfold Desk.reply
  cases hi : r.json.inst with
  | none =>
      have hnil : a = [] := h.fair t _ hc hi
      exact h.of_same (fun _ => rfl) (names_put_same (hn.trans hi)) (accepted_put_same ha)
        (fun _ he => he) (fair_put h (by rw [hnil]; rfl)) rfl
  | some x =>
      have hx : s.names t = some x := hn.trans hi
      have hnames : ∀ j, (s.put t ⟨.answered (.ok (r, (drain s.mailbox x).1)), a⟩).names j =
          if j = t then none else s.names j := fun j => names_put s t j _
      have hacc : ∀ j, (s.put t ⟨.answered (.ok (r, (drain s.mailbox x).1)), a⟩).accepted j =
          s.accepted j := accepted_put_same ha
      have hfair : Call.Fair ⟨.answered (.ok (r, (drain s.mailbox x).1)), a⟩ := by
        show waiting s.mailbox x = a.map Prod.snd
        rw [← ha, h.named t x hx, List.map_map]
        exact (List.map_id _).symm
      have hleft : ∀ y, waiting (drain s.mailbox x).2 y = if y = x then [] else
          waiting s.mailbox y := waiting_erase s.mailbox x
      have hnames' : ∀ {j y}, (s.put t ⟨.answered (.ok (r, (drain s.mailbox x).1)), a⟩).names j =
          some y → s.names j = some y := fun {j y} hy => by
        have hy' := (hnames j).symm.trans hy
        split at hy'
        · cases hy'
        · exact hy'
      refine ⟨fun j y hy => ?_, fun j j' y hy hy' => h.alone j j' y (hnames' hy) (hnames' hy'),
        fun y hy hu => ?_, fair_put h hfair, h.strays⟩
      · have hyx : y ≠ x := fun e => by
          have hj : j = t := h.alone j t x (e ▸ hnames' hy) hx
          have hy' := (hnames j).symm.trans hy
          rw [if_pos hj] at hy'
          cases hy'
        refine (hacc j).trans ((h.named j y (hnames' hy)).trans ?_)
        exact congrArg (List.map (y, ·)) ((hleft y).trans (if_neg hyx)).symm
      · have hyx : y ≠ x := fun e => hy ((hleft y).trans (if_pos e))
        have hyw : waiting (drain s.mailbox x).2 y = waiting s.mailbox y :=
          (hleft y).trans (if_neg hyx)
        obtain ⟨t', ht', hl⟩ := h.waits y (fun e => hy (hyw.trans e)) fun j hj => by
          by_cases hjt : j = t
          · rw [hjt, hx] at hj
            exact hyx (Option.some.inj hj).symm
          · exact hu j ((hnames j).trans ((if_neg hjt).trans hj))
        refine ⟨t', ht', fun l hm => ?_⟩
        have hm' : l ∈ waiting s.mailbox y := hyw ▸ hm
        exact (hacc t').symm ▸ hl l hm'

theorem owes_of_deal {a : List Secret} (h : Owes s) (ho : Orderly s (.deal d))
    (he : s.engine = some (some t)) (hc : s.calls.get t = some ⟨.running, a⟩) :
    Owes { s.put t ⟨.running, a ++ d.accepted s.mailbox⟩ with mailbox := d.on s.mailbox } := by
  have hn : s.names t = none := names_of_get hc
  have ha : s.accepted t = a := accepted_of_get hc
  have hnames : ∀ j, (s.put t ⟨.running, a ++ d.accepted s.mailbox⟩).names j = s.names j :=
    names_put_same hn
  have hacc : ∀ j, (s.put t ⟨.running, a ++ d.accepted s.mailbox⟩).accepted j =
      if j = t then a ++ d.accepted s.mailbox else s.accepted j := fun j => accepted_put s t j _
  refine ⟨fun j x hx => ?_, fun j j' x hx hx' => ?_, fun x hx hu => ?_, fair_put h trivial,
    h.strays⟩
  · have hx' : s.names j = some x := hnames j ▸ hx
    have hj : j ≠ t := fun e => by
      rw [e, hn] at hx'
      cases hx'
    refine (hacc j).trans ((if_neg hj).trans ((h.named j x hx').trans ?_))
    rw [waiting_on_named ho hx']
  · exact h.alone j j' x (hnames j ▸ hx) (hnames j' ▸ hx')
  · refine ⟨t, he, fun l hl => (hacc t).symm ▸ ?_⟩
    rw [if_pos rfl, List.mem_append]
    rcases mem_waiting_on hl with hl | hl
    · obtain ⟨t', ht', hl'⟩ := h.waits x (List.ne_nil_of_mem hl) fun j => hnames j ▸ hu j
      rw [he] at ht'
      obtain rfl := Option.some.inj (Option.some.inj ht')
      exact .inl (ha ▸ hl' l hl)
    · exact .inr hl

theorem owes_of_stray (h : Owes s) (ho : Orderly s (.deal d)) (he : s.engine = some none) :
    Owes { s with mailbox := d.on s.mailbox, strays := s.strays ++ d.accepted s.mailbox } := by
  have hnil := accepted_of_pass ho he
  refine ⟨fun j x hx => ?_, h.alone, fun x hx hu => ?_, h.fair, ?_⟩
  · rw [waiting_on_named ho hx]
    exact h.named j x hx
  · obtain ⟨l, hl⟩ := List.exists_mem_of_ne_nil _ hx
    rcases mem_waiting_on hl with hl | hl
    · obtain ⟨t, ht, -⟩ := h.waits x (List.ne_nil_of_mem hl) hu
      rw [he] at ht
      cases ht
    · rw [hnil] at hl
      cases hl
  · rw [hnil, h.strays]
    rfl

theorem owes_of_done {st : Desk.Step} (h : Owes s) (ho : Orderly s st) (hd : s.Done st s') :
    Owes s' := by
  have hfree : s.engine = none ∨ s.engine = some none →
      ∀ (e : Option (Option Nat)) t, s.engine = some (some t) → e = some (some t) := by
    rintro (he | he) e t he' <;> rw [he] at he' <;> cases he'
  cases hd with
  | @attach t hc =>
      have hn : s.names t = none := by
        unfold Desk.names
        rw [hc]
        rfl
      have ha : s.accepted t = [] := by
        unfold Desk.accepted
        rw [hc]
        rfl
      exact h.of_same (fun _ => rfl) (names_put_same hn) (accepted_put_same ha) (fun _ he => he)
        (fair_put h rfl) rfl
  | pass he =>
      exact h.of_same (fun _ => rfl) (fun _ => rfl) (fun _ => rfl) (hfree (.inl he) _) h.fair rfl
  | @lock t a he hc =>
      have hn : s.names t = none := names_of_get hc
      have ha : s.accepted t = a := accepted_of_get hc
      exact h.of_same (fun _ => rfl) (names_put_same hn) (accepted_put_same ha)
        (hfree (.inl he) _) (fair_put h trivial) rfl
  | @without t refusal a hc =>
      have hn : s.names t = Call.names ⟨.served (Desk.withoutEngine refusal), a⟩ :=
        (names_of_get hc).trans (by cases refusal <;> rfl)
      have ha : s.accepted t = a := accepted_of_get hc
      have hnil : a = [] := h.fair t _ hc
      have hf : Call.Fair ⟨.served (Desk.withoutEngine refusal), a⟩ := by
        cases refusal with
        | none => exact fun _ => hnil
        | some e => trivial
      exact h.of_same (fun _ => rfl) (names_put_same hn) (accepted_put_same ha) (fun _ he => he)
        (fair_put h hf) rfl
  | stray he => exact owes_of_stray h ho he
  | deal he hc => exact owes_of_deal h ho he hc
  | passed he =>
      exact h.of_same (fun _ => rfl) (fun _ => rfl) (fun _ => rfl) (hfree (.inr he) _) h.fair rfl
  | finish he hc => exact owes_of_finish h ho he hc
  | @detach t r a hc =>
      have hn : s.names t = Call.names ⟨.detached r, a⟩ :=
        (names_of_get hc).trans (by cases r <;> rfl)
      have ha : s.accepted t = a := accepted_of_get hc
      have hf : Call.Fair ⟨.detached r, a⟩ := by
        have hs : Call.Fair ⟨.served r, a⟩ := h.fair t _ hc
        cases r with
        | error => trivial
        | ok => exact hs
      exact h.of_same (fun _ => rfl) (names_put_same hn) (accepted_put_same ha) (fun _ he => he)
        (fair_put h hf) rfl
  | answer hc => exact owes_of_answer h hc
  | @failed t e a hc =>
      have hn : s.names t = none := names_of_get hc
      have ha : s.accepted t = a := accepted_of_get hc
      exact h.of_same (fun _ => rfl) (names_put_same hn) (accepted_put_same ha) (fun _ he => he)
        (fair_put h trivial) rfl

theorem owes_of_run (h : Desk.Run Orderly s) : Owes s := by
  induction h with
  | start => exact ⟨fun _ _ => nofun, fun _ _ _ => nofun, fun _ hx => absurd rfl hx,
      fun _ _ => nofun, rfl⟩
  | step _ hp hs ih => exact owes_of_done ih hp (Desk.done_of_step hs)

end

/-! ## The replies -/

/-- **Each secret is in the reply of its own call**, in orderly runs: what
`requester()` accepted in a verb that was answered ok is in its reply and in no
other, and what waits was accepted in one call not yet answered. -/
theorem replies_hand_over {s : Desk} (h : Desk.Run Orderly s) : HandsOver s := by
  have ho := owes_of_run h
  refine ⟨fun t c r ls hg hs => ?_, fun x hx => ?_, ho.strays⟩
  · have hf := ho.fair t c hg
    unfold Call.Fair at hf
    rw [hs] at hf
    exact hf
  · by_cases hu : s.Unnamed x
    · obtain ⟨t, ht, hl⟩ := ho.waits x hx hu
      exact ⟨t, .inl ht, hl⟩
    · obtain ⟨t, ht⟩ := not_forall_not.mp hu
      refine ⟨t, .inr ht, fun l hl => ?_⟩
      rw [ho.named t x ht]
      exact List.mem_map_of_mem hl

/-! ## One client -/

namespace Unread

/-- A step that runs, unless the desk refuses it. -/
def after (s : Desk) (m : Desk.Step) : Desk := (s.step m).getD s

theorem run_after {P : Desk → Desk.Step → Prop} {s : Desk} (h : Desk.Run P s) (m : Desk.Step)
    (hp : P s m) (hs : (s.step m).isSome = true) : Desk.Run P (after s m) := by
  obtain ⟨s', hs'⟩ := Option.isSome_iff_exists.mp hs
  refine .step h hp (hs'.trans (congrArg some ?_))
  unfold after
  rw [hs']
  rfl

def token : Secret := ("p.web.00000000", "/a.token", "first")

/-- A client's verb is offered a secret. -/
def offered : Desk := after (after (after Desk.idle (.attach 1)) (.lock (some 1))) (.deal (.offer token))

/-- It returns, and the call is answered. -/
def answered (r : Result) : Desk := after (after (after offered (.finish (.ok r))) (.detach 1)) (.answer 1)

theorem unnamed_of_one {s : Desk} {x : String} {c : Call} (hs : s.calls = [(1, c)])
    (hc : c.names = none) : s.Unnamed x := by
  intro t ht
  unfold Desk.names at ht
  rw [hs] at ht
  by_cases h : t = 1
  · subst h
    rw [show Assoc.get [(1, c)] 1 = some c from rfl] at ht
    rw [show (some c).bind Call.names = none from hc] at ht
    cases ht
  · rw [show Assoc.get [(1, c)] t = none from if_neg h] at ht
    cases ht

def drilled : Result := .attestation "p" "p.web.00000000" ""

theorem orderly_of_named {s : Desk} {r : Result} {x : String} (h : r.json.inst = some x)
    (hu : s.Unnamed x) (ha : s.held = (waiting s.mailbox x).map (x, ·)) :
    Orderly s (.finish (.ok r)) := by
  simp only [Orderly, h]
  exact ⟨hu, ha⟩

theorem run_drilled : Desk.Run Orderly (answered drilled) := by
  have h₁ := run_after (P := Orderly) .start (.attach 1) trivial (by decide +kernel)
  have h₂ := run_after h₁ (.lock (some 1)) trivial (by decide +kernel)
  have hc₂ : (after (after Desk.idle (.attach 1)) (.lock (some 1))).calls = [(1, ⟨.running, []⟩)] := by
    decide +kernel
  have h₃ := run_after h₂ (.deal (.offer token))
    (fun _ => ⟨by decide +kernel, unnamed_of_one hc₂ rfl⟩) (by decide +kernel)
  have hc₃ : offered.calls = [(1, ⟨.running, [token]⟩)] := by decide +kernel
  have ho : Orderly offered (.finish (.ok drilled)) :=
    orderly_of_named (by decide +kernel : _ = some "p.web.00000000") (unnamed_of_one hc₃ rfl)
      (by decide +kernel)
  have h₄ := run_after h₃ (.finish (.ok drilled)) ho (by decide +kernel)
  have h₅ := run_after h₄ (.detach 1) trivial (by decide +kernel)
  exact run_after h₅ (.answer 1) trivial (by decide +kernel)

/-- A drill's client is handed its secret. -/
theorem handed_drilled : HandsOver (answered drilled) :=
  replies_hand_over run_drilled

def script : Script := { run := fun _ => some (.ok ⟨[("token", "first")]⟩) }

/-- An engine whose secrets go to `requester()`, with a client attached. -/
def site : Setting (Keep Nat) :=
  { Script.setting script with
    outside := keeping script.outside fun _ => ⟨0⟩
    acceptors := ["requester"] }

def plan : PlanIr :=
  { smallPlan "p" "web" [TwoTokens.tokenStep "/a"] with
    site := { smallSite ["web"] with secretsDeliverTo := ["requester"] } }

def world : World (Keep Nat) :=
  { out := ⟨0, [.requester ⟨true, []⟩], []⟩, hosts := [("web", smallHost "web")], hand := noRecord }

def applied : World (Keep Nat) := (exec site (.apply plan [] {}) world).2

/-- What `requester()` was left with. -/
def mailbox : Mailbox :=
  match applied.out.acceptors with
  | [.requester m] => m
  | _ => ⟨false, []⟩

def outcome : Result := .outcome "p.web.00000000" "applied" ""

/-- A client applies a plan of one secret, with nobody else at the desk: the reply is
without it, and it stays in the mailbox. -/
theorem keeps_secret : checkClean plan = true ∧ applied.hand.state = .applied ∧
    waiting mailbox "p.web.00000000" = [("/a.token", "first")] ∧
    Desk.Run (fun _ _ => True) (answered outcome) ∧ ¬HandsOver (answered outcome) := by
  refine ⟨by decide +kernel, by decide +kernel, by decide +kernel, ?_, fun h => ?_⟩
  · have h₁ := run_after (P := fun _ _ => True) .start (.attach 1) trivial (by decide +kernel)
    have h₂ := run_after h₁ (.lock (some 1)) trivial (by decide +kernel)
    have h₃ := run_after h₂ (.deal (.offer token)) trivial (by decide +kernel)
    have h₄ := run_after h₃ (.finish (.ok outcome)) trivial (by decide +kernel)
    have h₅ := run_after h₄ (.detach 1) trivial (by decide +kernel)
    exact run_after h₅ (.answer 1) trivial (by decide +kernel)
  · have hb : waiting (answered outcome).mailbox "p.web.00000000" ≠ [] := by decide +kernel
    obtain ⟨t, ht, -⟩ := h.behind _ hb
    have he : (answered outcome).engine = none := by decide +kernel
    rcases ht with ht | ht
    · rw [he] at ht
      cases ht
    · have hc : (answered outcome).calls = [(1, ⟨.answered (.ok (outcome, [])), [token]⟩)] := by
        decide +kernel
      exact unnamed_of_one hc rfl t ht

end Unread

end Rescind.Control
