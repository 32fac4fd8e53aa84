/-
# `Rescind.Lib.Atomic` — operations that are carried out whole or not at all

A state holds a value of an abstract type (`H`).  An operation that returns has changed
the value held by the whole of its effect, one that fails has not, and one that is
killed has done the one or the other (`Whole`): there is no half of it to be seen.

    Whole.fail      nothing is done
    Whole.then      first the part that changes it

Over a history of such operations the value held is that of the operations that took
effect, each of those that returned among them and none of those that failed; every
answer was true when it was given, and every error had its reason (`Deeds.explained`).
-/
import Rescind.Lib.Prog

namespace Rescind.Lib

open Prog (Post)

variable {S κ ε ε' α β O : Type}

theorem Res.err_ne_ok (e : ε) (a : α) : (.err e : Res ε α) ≠ .ok a := fun h => by cases h

theorem Res.died_ne_ok (a : α) : (.died : Res ε α) ≠ .ok a := fun h => by cases h

/-- The run from `s` takes what is held from `k` to `k'` or not, as it ends; its answer
satisfies `Q` and its error `N`. -/
def Whole (H : S → κ → Prop) (k k' : κ) (Q : α → Prop) (N : ε → Prop) (m : Prog S ε α) : S → Prop :=
  Post m fun r s => match r with
    | .ok a => H s k' ∧ Q a
    | .err e => H s k ∧ N e
    | .died => H s k ∨ H s k'

section
variable {H : S → κ → Prop} {k k' : κ} {P : α → Prop} {Q : β → Prop} {N : ε → Prop}
variable {m : Prog S ε α} {f : α → Prog S ε β} {s : S}

theorem Whole.fail {e : ε} (h : H s k) (he : N e) : Whole H k k' P N (Prog.fail e : Prog S ε α) s := ⟨h, he⟩

/-- First the part that changes what is held. -/
theorem Whole.then (hm : Whole H k k' P N m s) (hf : ∀ a, P a → ∃ b, f a = Pure.pure b ∧ Q b) :
    Whole H k k' Q N (m >>= f) s := by
  refine Post.bind hm (fun a t h => ?_) (fun _ _ h => h) fun _ h => h
  obtain ⟨b, hb, hQ⟩ := hf a h.2
  rw [hb]
  exact ⟨h.1, hQ⟩

theorem Whole.mono {P' : α → Prop} {N' : ε → Prop} (hm : Whole H k k' P N m s) (h : ∀ a, P a → P' a)
    (hN : ∀ e, N e → N' e) : Whole H k k' P' N' m s := by
  refine Post.mono hm fun r t ht => ?_
  cases r with
  | ok a => exact ⟨ht.1, h a ht.2⟩
  | err e => exact ⟨ht.1, hN e ht.2⟩
  | died => exact ht

/-- What is held, seen another way. -/
theorem Whole.along {κ' : Type} {H' : S → κ' → Prop} {j j' : κ'} (hm : Whole H k k' P N m s)
    (h : ∀ t, H t k → H' t j) (h' : ∀ t, H t k' → H' t j') : Whole H' j j' P N m s := by
  refine Post.mono hm fun r t ht => ?_
  cases r with
  | ok a => exact ⟨h' t ht.1, ht.2⟩
  | err e => exact ⟨h t ht.1, ht.2⟩
  | died => exact ht.imp (h t) (h' t)

end

/-! ## Histories -/

/-- Operations and how they ended, one after the other. -/
inductive Deeds (run : O → Prog S ε α) : S → List (O × Res ε α) → S → Prop where
  | nil {s : S} : Deeds run s [] s
  | cons {s t u : S} {o : O} {r : Res ε α} {h : List (O × Res ε α)} (now : run o s = (r, t))
      (rest : Deeds run t h u) : Deeds run s ((o, r) :: h) u

/-- What a history does to the value held. -/
inductive Explained (effect : O → κ → κ) (answer : O → κ → α → Prop) (excuse : O → κ → ε → Prop) :
    κ → List (O × Res ε α) → κ → Prop where
  | nil {k : κ} : Explained effect answer excuse k [] k
  | returned {k k' : κ} {o : O} {a : α} {h : List (O × Res ε α)} (told : answer o k a)
      (rest : Explained effect answer excuse (effect o k) h k') :
      Explained effect answer excuse k ((o, .ok a) :: h) k'
  | failed {k k' : κ} {o : O} {e : ε} {h : List (O × Res ε α)} (why : excuse o k e)
      (rest : Explained effect answer excuse k h k') : Explained effect answer excuse k ((o, .err e) :: h) k'
  | lost {k k' : κ} {o : O} {h : List (O × Res ε α)} (rest : Explained effect answer excuse k h k') :
      Explained effect answer excuse k ((o, .died) :: h) k'
  | taken {k k' : κ} {o : O} {h : List (O × Res ε α)} (rest : Explained effect answer excuse (effect o k) h k') :
      Explained effect answer excuse k ((o, .died) :: h) k'

/-- **Nothing half done is ever seen.** -/
theorem Deeds.explained {run : O → Prog S ε α} {effect : O → κ → κ} {answer : O → κ → α → Prop}
    {excuse : O → κ → ε → Prop} {H : S → κ → Prop} {Fit : O → Prop}
    (hstep : ∀ o s k, Fit o → H s k → Whole H k (effect o k) (answer o k) (excuse o k) (run o) s) {s t : S}
    {h : List (O × Res ε α)} {k : κ} (hrun : Deeds run s h t) (hfit : ∀ x ∈ h, Fit x.1) (hs : H s k) :
    ∃ k', Explained effect answer excuse k h k' ∧ H t k' := by
  induction hrun generalizing k with
  | nil => exact ⟨k, .nil, hs⟩
  | @cons s t u o r h now rest ih =>
      have hw := hstep o s k (hfit _ List.mem_cons_self) hs
      unfold Whole Post at hw
      rw [now] at hw
      have hrest := fun k' hk' => @ih k' (fun x hx => hfit x (List.mem_cons_of_mem _ hx)) hk'
      cases r with
      | ok a =>
          obtain ⟨k', hex, hu⟩ := hrest _ hw.1
          exact ⟨k', .returned hw.2 hex, hu⟩
      | err e =>
          obtain ⟨k', hex, hu⟩ := hrest _ hw.1
          exact ⟨k', .failed hw.2 hex, hu⟩
      | died =>
          rcases hw with hw | hw
          · obtain ⟨k', hex, hu⟩ := hrest _ hw
            exact ⟨k', .lost hex, hu⟩
          · obtain ⟨k', hex, hu⟩ := hrest _ hw
            exact ⟨k', .taken hex, hu⟩

end Rescind.Lib
