/-
# `Rescind.Turn.Stories` — what is told of the acceptors

Every change to what a `hold()` keeps is told in a story.  The story at one key,
a `hold()` and an instance, is to be read as secrets kept one after the other,
each taken or dropped before the next (`Accounted`).

**Proved here.**

    an orderly story accounts for every secret   (`accounted_of_consistent`)
    and no other does                            (`orderly_of_accounted`)
    what is told is what is kept                 (`told_answer`)
    an answer tells only what was asked          (`story_answer`)
-/
import Rescind.Engine.Secrets

namespace Rescind

open Lib Lib.Prog

/-! ## Stories -/

namespace Happening

/-- The `hold()` and the instance whose secret it is about. -/
def key : Happening → Option (Nat × String)
  | .offered .. => none
  | .kept i x _ _ | .taken i x _ _ | .dropped i x _ => some (i, x)

/-- What was kept there before. -/
def before : Happening → Option Kept
  | .kept _ _ _ b => b
  | .taken _ _ k _ | .dropped _ _ k => some k
  | .offered .. => none

/-- What is kept there after. -/
def leaves : Happening → Option Kept
  | .kept _ _ k _ => some k
  | _ => none

/-- A secret is kept where none was, and taken before its bound. -/
def orderly : Happening → Bool
  | .kept _ _ _ b => b.isNone
  | .taken _ _ k at_ => !k.over at_
  | _ => true

def isOffer : Happening → Bool
  | .offered .. => true
  | _ => false

/-- A secret of an instance and a label dropped. -/
def isDrop (x label : String) : Happening → Bool
  | .dropped _ y k => y = x && k.label = label
  | _ => false

def isTake (x label : String) : Happening → Bool
  | .taken _ y k _ => y = x && k.label = label
  | _ => false

end Happening

/-- What a story leaves kept under a key. -/
def heldAfter (key : Nat × String) : List Happening → Option Kept
  | [] => none
  | e :: es => if e.key = some key then e.leaves else heldAfter key es

/-- Each happening is about what the story left kept. -/
def Consistent : List Happening → Prop
  | [] => True
  | e :: es => Consistent es ∧ ∀ key, e.key = some key → e.before = heldAfter key es

/-- The secrets kept under a key, one after the other: each was revealed once,
before its bound, or dropped, and only the last may still be kept. -/
inductive Accounted (i : Nat) (x : String) : List Happening → Option Kept → Prop where
  | nil : Accounted i x [] none
  | aside {e es o} (hne : e.key ≠ some (i, x)) (h : Accounted i x es o) : Accounted i x (e :: es) o
  | kept {k es} (h : Accounted i x es none) : Accounted i x (.kept i x k none :: es) (some k)
  | revealed {k at_ es} (h : Accounted i x es (some k)) (ht : k.over at_ = false) :
      Accounted i x (.taken i x k at_ :: es) none
  | dropped {k es} (h : Accounted i x es (some k)) : Accounted i x (.dropped i x k :: es) none

/-- An orderly story accounts for every secret. -/
theorem accounted_of_consistent {i : Nat} {x : String} {es : List Happening} (h : Consistent es)
    (ho : ∀ e ∈ es, e.orderly = true) : Accounted i x es (heldAfter (i, x) es) := by
  induction es with
  | nil => exact .nil
  | cons e es ih =>
      have ih := ih h.1 fun e he => ho e (List.mem_cons_of_mem _ he)
      have he := ho e List.mem_cons_self
      rw [heldAfter]
      by_cases hk : e.key = some (i, x)
      · have hb := h.2 _ hk
        rw [if_pos hk]
        rw [← hb] at ih
        cases e with
        | offered => cases hk
        | kept j y k b =>
            cases hk
            obtain rfl : b = none := Option.isNone_iff_eq_none.mp he
            exact .kept ih
        | taken j y k at_ =>
            cases hk
            exact .revealed ih (by simpa [Happening.orderly] using he)
        | dropped j y k =>
            cases hk
            exact .dropped ih
      · rw [if_neg hk]
        exact .aside hk ih

/-- Only the orderly accounts for a secret. -/
theorem orderly_of_accounted {i : Nat} {x : String} {es : List Happening} {o : Option Kept}
    (h : Accounted i x es o) : ∀ e ∈ es, e.key = some (i, x) → e.orderly = true := by
  induction h with
  | nil => intro e he; cases he
  | aside hne _ ih =>
      intro e he hk
      rcases List.mem_cons.mp he with rfl | he
      · exact absurd hk hne
      · exact ih e he hk
  | kept _ ih =>
      intro e he hk
      rcases List.mem_cons.mp he with rfl | he
      · rfl
      · exact ih e he hk
  | revealed _ ht ih =>
      intro e he hk
      rcases List.mem_cons.mp he with rfl | he
      · simp [Happening.orderly, ht]
      · exact ih e he hk
  | dropped _ ih =>
      intro e he hk
      rcases List.mem_cons.mp he with rfl | he
      · rfl
      · exact ih e he hk

/-! ## What is told is what is kept -/

namespace Keep

variable {τ : Type}

/-- The story tells what each acceptor keeps. -/
structure Told (k : Keep τ) : Prop where
  consistent : Consistent k.story
  held : ∀ i x, k.kept i x = heldAfter (i, x) k.story

/-- Nothing is kept and nothing told. -/
structure Fresh (k : Keep τ) : Prop where
  story : k.story = []
  kept : ∀ i x, k.kept i x = none

theorem Fresh.told {k : Keep τ} (h : k.Fresh) : k.Told where
  consistent := by rw [h.story]; trivial
  held i x := by rw [h.kept, h.story]; rfl

theorem kept_turn {k : Keep τ} {i : Nat} {a : Acceptor} {es : List Happening}
    (hi : i < k.acceptors.length) (j : Nat) (x : String) :
    (k.turn i a es).kept j x = if j = i then a.kept x else k.kept j x := by
  unfold Keep.kept Keep.turn
  by_cases h : j = i
  · subst h
    simp [hi]
  · rw [if_neg h, List.getElem?_set_ne (Ne.symm h)]

/-- An acceptor turned as told. -/
theorem Told.turn {k : Keep τ} (h : k.Told) {i : Nat} {a : Acceptor} {es : List Happening}
    (hi : i < k.acceptors.length) (hc : Consistent (es ++ k.story))
    (hself : ∀ x, a.kept x = heldAfter (i, x) (es ++ k.story))
    (hother : ∀ j x, j ≠ i → heldAfter (j, x) (es ++ k.story) = heldAfter (j, x) k.story) :
    (k.turn i a es).Told where
  consistent := hc
  held j x := by
    rw [kept_turn hi]
    by_cases hj : j = i
    · rw [if_pos hj, hj]
      exact hself x
    · rw [if_neg hj, h.held j x]
      exact (hother j x hj).symm

/-- One happening at a key. -/
theorem Told.tell {k : Keep τ} (h : k.Told) {i : Nat} {a b : Acceptor} {e : Happening} {x : String}
    (ha : k.acceptors[i]? = some a) (he : e.key = some (i, x)) (hb : e.before = a.kept x)
    (hl : b.kept x = e.leaves) (hne : ∀ y, y ≠ x → b.kept y = a.kept y) :
    (k.turn i b [e]).Told := by
  have hi : i < k.acceptors.length := (List.getElem?_eq_some_iff.mp ha).1
  have hkept : ∀ y, a.kept y = heldAfter (i, y) k.story := by
    intro y
    rw [← h.held i y, Keep.kept, ha, Option.bind_some]
  refine h.turn hi ⟨h.consistent, ?_⟩ ?_ ?_
  · intro key hk
    obtain rfl : (i, x) = key := Option.some.inj (he.symm.trans hk)
    exact hb.trans (hkept x)
  · intro y
    by_cases hy : y = x
    · subst hy
      simp [heldAfter, he, hl]
    · have hn : e.key ≠ some (i, y) := by
        rw [he]
        simpa using Ne.symm hy
      simp only [List.singleton_append, heldAfter, if_neg hn]
      exact (hne y hy).trans (hkept y)
  · intro j y hj
    have hn : e.key ≠ some (j, y) := by
      rw [he]
      simp [Ne.symm hj]
    simp only [List.singleton_append, heldAfter, if_neg hn]

/-- An offer changes nothing kept. -/
theorem Told.offered {k : Keep τ} (h : k.Told) (rest : τ) (i : Nat) (x label : String)
    (took : Bool) : ({ k with rest, story := .offered i x label took :: k.story } : Keep τ).Told where
  consistent := ⟨h.consistent, fun _ hk => by cases hk⟩
  held j y := h.held j y

/-- An acceptor of another kind changed. -/
theorem Told.quiet {k : Keep τ} (h : k.Told) {i : Nat} {a b : Acceptor}
    (ha : k.acceptors[i]? = some a) (hn : ∀ y, b.kept y = a.kept y) : (k.turn i b []).Told := by
  refine h.turn (List.getElem?_eq_some_iff.mp ha).1 h.consistent (fun y => ?_) fun _ _ _ => rfl
  rw [hn, List.nil_append, ← h.held i y, Keep.kept, ha, Option.bind_some]

theorem told_offer {k : Keep τ} (h : k.Told) (ask : Option (Except String Bool) × τ) (i : Nat)
    (x label value : String) (now : Instant) (until_ : Option Instant) :
    (k.offer ask i x label value now until_).2.Told := by
  unfold Keep.offer
  split
  · next m ha =>
    have hq := h.offered k.rest i x label m.attached
    exact hq.quiet ha fun _ => rfl
  · next hd ha =>
    have hq := h.offered k.rest i x label true
    refine hq.tell (e := .kept i x _ _) ha rfl rfl ?_ fun y hy => ?_
    · exact Assoc.get_insert_self _ _ _
    · exact Assoc.get_insert_ne _ _ hy
  · exact h.offered ask.2 i x label _

/-- A `hold()` gave up what it kept for an instance. -/
theorem Told.removed {k : Keep τ} (h : k.Told) {i : Nat} {hd : Hold} {x : String} {s : Kept}
    (ha : k.acceptors[i]? = some (.hold hd)) (hs : hd.kept.get x = some s) {e : Happening}
    (he : e.key = some (i, x)) (hb : e.before = some s) (hl : e.leaves = none) :
    (k.turn i (.hold (hd.remove x)) [e]).Told := by
  refine h.tell ha he (hb.trans hs.symm) ?_ fun y hy => ?_
  · rw [hl, Acceptor.kept, Hold.kept_remove, if_pos rfl]
  · rw [Acceptor.kept, Hold.kept_remove, if_neg hy]
    rfl

theorem told_take {k : Keep τ} (h : k.Told) (now : Instant) (i : Nat) (x : String) :
    (k.take now i x).2.Told := by
  unfold Keep.take
  split
  · next hd ha =>
    split
    · next s hs => exact h.removed ha hs rfl rfl rfl
    · exact h
  · exact h

theorem told_dropFor {k : Keep τ} (h : k.Told) (i : Nat) (x : String) : (k.dropFor i x).2.Told := by
  unfold Keep.dropFor
  split
  · next m ha => exact h.quiet ha fun _ => rfl
  · next hd ha =>
    split
    · next s hs => exact h.removed ha hs rfl rfl rfl
    · exact h
  · exact h

/-- Secrets given up one by one are no longer kept, and each was. -/
theorem consistent_told {i : Nat} {story : List Happening} (hc : Consistent story) :
    ∀ {gone : List (String × Kept)}, (gone.map Prod.fst).Nodup →
      (∀ kv ∈ gone, heldAfter (i, kv.1) story = some kv.2) →
      Consistent (told i gone ++ story) ∧ ∀ j y, heldAfter (j, y) (told i gone ++ story) =
        if j = i ∧ y ∈ gone.map Prod.fst then none else heldAfter (j, y) story := by
  intro gone
  induction gone with
  | nil => intro _ _; simpa [told] using hc
  | cons kv gone ih =>
      intro hn hg
      obtain ⟨hx, hn⟩ := List.nodup_cons.mp hn
      obtain ⟨hc', hh⟩ := ih hn fun kv' h' => hg kv' (List.mem_cons_of_mem _ h')
      have hcons : told i (kv :: gone) ++ story =
          .dropped i kv.1 kv.2 :: (told i gone ++ story) := rfl
      rw [hcons]
      refine ⟨⟨hc', ?_⟩, fun j y => ?_⟩
      · intro key hk
        cases hk
        rw [hh i kv.1, if_neg fun h => hx h.2]
        exact (hg kv List.mem_cons_self).symm
      · rw [heldAfter]
        by_cases hk : (i, kv.1) = (j, y)
        · cases hk
          simp [Happening.key, Happening.leaves]
        · have hne : (Happening.dropped i kv.1 kv.2).key ≠ some (j, y) := by
            simpa [Happening.key] using hk
          rw [if_neg hne, hh j y]
          have hiff : (j = i ∧ y ∈ (kv :: gone).map Prod.fst) ↔ (j = i ∧ y ∈ gone.map Prod.fst) := by
            simp only [List.map_cons, List.mem_cons]
            constructor
            · rintro ⟨rfl, rfl | hm⟩
              · exact absurd rfl hk
              · exact ⟨rfl, hm⟩
            · rintro ⟨rfl, hm⟩
              exact ⟨rfl, .inr hm⟩
          simp only [hiff]

/-- A `hold()` gave up part of what it kept. -/
theorem Told.gave {k : Keep τ} (h : k.Told) {i : Nat} {hd hd' : Hold}
    (ha : k.acceptors[i]? = some (.hold hd)) {gone : List (String × Kept)}
    (hg : gone.Sublist hd.kept)
    (hk : ∀ y, hd'.kept.get y = if y ∈ gone.map Prod.fst then none else hd.kept.get y) :
    (k.turn i (.hold hd') (told i gone)).Told := by
  have hheld : ∀ y, hd.kept.get y = heldAfter (i, y) k.story := by
    intro y
    rw [← h.held i y, Keep.kept, ha]
    rfl
  have hnd : (gone.map Prod.fst).Nodup := (hg.map Prod.fst).nodup hd.sorted.keys_nodup
  obtain ⟨hc, hh⟩ := consistent_told (i := i) h.consistent hnd fun kv hkv => by
    rw [← hheld]
    exact hd.sorted.get_of_mem (hg.subset hkv)
  refine h.turn (List.getElem?_eq_some_iff.mp ha).1 hc (fun y => ?_) fun j y hj => ?_
  · rw [hh i y, ← hheld y]
    simp only [true_and]
    exact hk y
  · rw [hh j y, if_neg fun hc => hj hc.1]

theorem told_expire {k : Keep τ} (h : k.Told) (i : Nat) (now : Instant) :
    (k.expire i now).2.Told := by
  unfold Keep.expire
  split
  · next hd ha => exact h.gave ha List.filter_sublist (Hold.kept_expire hd now)
  · exact h

theorem told_dropAll {k : Keep τ} (h : k.Told) (i : Nat) : (k.dropAll i).2.Told := by
  unfold Keep.dropAll
  split
  · next m ha => exact h.quiet ha fun _ => rfl
  · next hd ha =>
    refine h.gave ha (List.Sublist.refl hd.kept) fun y => ?_
    show Assoc.get ([] : Assoc String Kept) y = _
    by_cases hy : y ∈ hd.kept.map Prod.fst
    · rw [if_pos hy]
      rfl
    · rw [if_neg hy]
      refine (Assoc.get_eq_none fun kv hkv he => hy ?_).symm
      exact List.mem_map.mpr ⟨kv, hkv, he⟩
  · exact h

/-- Whatever is asked, the story tells what each acceptor keeps. -/
theorem told_answer {base : Outside τ} {time : τ → Instant} {k : Keep τ} (h : k.Told) (q : Query) :
    ((keeping base time).answer k q).2.Told := by
  cases q with
  | offer i x label value now until_ => exact told_offer h _ i x label value now until_
  | take i x => exact told_take h _ i x
  | dropFor i x => exact told_dropFor h i x
  | expireHeld i now => exact told_expire h i now
  | dropAll i => exact told_dropAll h i
  | _ => exact ⟨h.consistent, h.held⟩

end Keep

/-! ## What a question tells -/

/-- What an answer may tell. -/
def Tells : Query → Happening → Prop
  | .offer i x _ _ _ _, .offered j y _ _ => j = i ∧ y = x
  | .offer i x _ _ _ _, .kept j y _ _ => j = i ∧ y = x
  | .take i x, .taken j y _ _ => j = i ∧ y = x
  | .dropFor i x, .dropped j y _ => j = i ∧ y = x
  | .expireHeld i _, .dropped j _ _ => j = i
  | .dropAll i, .dropped j _ _ => j = i
  | _, _ => False

variable {τ : Type} {base : Outside τ} {time : τ → Instant}

theorem mem_told {i : Nat} {gone : List (String × Kept)} {e : Happening} (h : e ∈ Keep.told i gone) :
    ∃ x k, e = .dropped i x k := by
  obtain ⟨kv, -, rfl⟩ := List.mem_map.mp h
  exact ⟨kv.1, kv.2, rfl⟩

theorem story_answer (k : Keep τ) (q : Query) :
    ∃ es, ((keeping base time).answer k q).2.story = es ++ k.story ∧ ∀ e ∈ es, Tells q e := by
  have none : ∃ es, k.story = es ++ k.story ∧ ∀ e ∈ es, Tells q e := ⟨[], rfl, by simp⟩
  cases q with
  | offer i x label value now until_ =>
      show ∃ es, (k.offer _ i x label value now until_).2.story = es ++ k.story ∧ _
      unfold Keep.offer
      split
      · exact ⟨[_], rfl, by simp [Tells]⟩
      · exact ⟨[_, _], rfl, by simp [Tells]⟩
      · exact ⟨[_], rfl, by simp [Tells]⟩
  | take i x =>
      show ∃ es, (k.take _ i x).2.story = es ++ k.story ∧ _
      unfold Keep.take
      split
      · split
        · exact ⟨[_], rfl, by simp [Tells]⟩
        · exact none
      · exact none
  | dropFor i x =>
      show ∃ es, (k.dropFor i x).2.story = es ++ k.story ∧ _
      unfold Keep.dropFor
      split
      · exact none
      · split
        · exact ⟨[_], rfl, by simp [Tells]⟩
        · exact none
      · exact none
  | expireHeld i now =>
      show ∃ es, (k.expire i now).2.story = es ++ k.story ∧ _
      unfold Keep.expire
      split
      · refine ⟨Keep.told i _, rfl, fun e he => ?_⟩
        obtain ⟨x, s, rfl⟩ := mem_told he
        rfl
      · exact none
  | dropAll i =>
      show ∃ es, (k.dropAll i).2.story = es ++ k.story ∧ _
      unfold Keep.dropAll
      split
      · exact none
      · refine ⟨Keep.told i _, rfl, fun e he => ?_⟩
        obtain ⟨x, s, rfl⟩ := mem_told he
        rfl
      · exact none
  | _ => exact none

end Rescind
