/-
# `Rescind.Lib.Said` — computations that say things on the way

What such a computation comes to, with what it said, or `none` where it does not
come to an end.  It cannot read what was said before it, so what it comes to does
not depend on that: `value` goes through a sequence by itself.

    x >>= f            `f` on what `x` comes to; said is what both said
    say d              say one thing
    collect f xs       what `f` comes to on the items of a list, in their order
    first f xs         the first of it that is something

Two of them are related (`Rel`) where both come to an end or neither does, the same is
said, and what they come to is related; a sequence is where its parts are.
-/
import Mathlib.Data.List.Basic

namespace Rescind.Lib

/-- A value and what was said on the way to it. -/
structure Said (δ α : Type) where
  run : Option (α × List δ)

namespace Said

variable {δ α β γ : Type}

instance : Monad (Said δ) where
  pure a := ⟨some (a, [])⟩
  bind m f := ⟨m.run.bind fun p => (f p.1).run.map fun q => (q.1, p.2 ++ q.2)⟩

def say (d : δ) : Said δ Unit := ⟨some ((), [d])⟩

/-- Nothing is said; it may come to no end. -/
def ofOption (x : Option α) : Said δ α := ⟨x.map fun a => (a, [])⟩

/-- What it comes to. -/
def value (m : Said δ α) : Option α := m.run.map Prod.fst

/-- One after the other. -/
def collect (f : α → Said δ (List β)) : List α → Said δ (List β)
  | [] => pure []
  | a :: as => do
      let bs ← f a
      let cs ← collect f as
      pure (bs ++ cs)

/-- The first that comes to something. -/
def first (f : α → Said δ (Option β)) : List α → Said δ (Option β)
  | [] => pure none
  | a :: as => do
      match ← f a with
      | some b => pure (some b)
      | none => first f as

@[simp] theorem run_pure (a : α) : (pure a : Said δ α).run = some (a, []) := rfl

@[simp] theorem value_pure (a : α) : (pure a : Said δ α).value = some a := rfl

@[simp] theorem value_say (d : δ) : (say d).value = some () := rfl

@[simp] theorem value_map (m : Said δ α) (f : α → β) : (f <$> m).value = m.value.map f := by
  obtain ⟨_ | p⟩ := m <;> rfl

@[simp] theorem value_bind (m : Said δ α) (f : α → Said δ β) :
    (m >>= f).value = m.value.bind fun a => (f a).value := by
  obtain ⟨_ | p⟩ := m
  · rfl
  · exact Option.map_map _ _ _

@[simp] theorem value_ofOption (x : Option α) : (ofOption x : Said δ α).value = x := by
  cases x <;> rfl

/-! ## Two of them -/

/-- Both come to an end or neither, what they come to is related, and the same is said. -/
def Rel (R : α → β → Prop) (x : Said δ α) (y : Said δ β) : Prop :=
  Option.Rel (fun p q => R p.1 q.1 ∧ p.2 = q.2) x.run y.run

variable {α' β' : Type} {R : α → α' → Prop} {S : β → β' → Prop}

theorem Rel.pure {a : α} {a' : α'} (h : R a a') : Rel R (pure a : Said δ α) (pure a') :=
  .some ⟨h, rfl⟩

theorem Rel.bind {x : Said δ α} {y : Said δ α'} {f : α → Said δ β} {g : α' → Said δ β'}
    (h : Rel R x y) (hf : ∀ a a', R a a' → Rel S (f a) (g a')) : Rel S (x >>= f) (y >>= g) := by
  obtain ⟨x⟩ := x
  obtain ⟨y⟩ := y
  cases h with
  | none => exact .none
  | @some p q h =>
      have hk : Option.Rel _ (f p.1).run (g q.1).run := hf p.1 q.1 h.1
      change Option.Rel _ ((f p.1).run.map _) ((g q.1).run.map _)
      generalize (f p.1).run = x, (g q.1).run = y at hk
      cases hk with
      | none => exact .none
      | some hk => exact .some ⟨hk.1, congrArg₂ (· ++ ·) h.2 hk.2⟩

theorem Rel.map {x : Said δ α} {y : Said δ α'} {f : α → β} {g : α' → β'} (h : Rel R x y)
    (hf : ∀ a a', R a a' → S (f a) (g a')) : Rel S (f <$> x) (g <$> y) :=
  h.bind fun a a' ha => .pure (hf a a' ha)

/-- The same computation twice. -/
theorem Rel.same {T : α → α → Prop} (h : ∀ a, T a a) (x : Said δ α) : Rel T x x := by
  obtain ⟨_ | p⟩ := x
  · exact .none
  · exact .some ⟨h p.1, rfl⟩

/-- After the same beginning. -/
theorem Rel.after {x : Said δ α} {f : α → Said δ β} {g : α → Said δ β'}
    (h : ∀ a, Rel S (f a) (g a)) : Rel S (x >>= f) (x >>= g) :=
  (Rel.same (fun _ => rfl) x).bind fun a _ ha => ha ▸ h a

/-- On the items of a list, what comes of each related. -/
theorem Rel.collect (φ : β → β') {f : α → Said δ (List β)} {g : α → Said δ (List β')} {as : List α}
    (h : ∀ a, Rel (fun bs cs => cs = bs.map φ) (f a) (g a)) :
    Rel (fun bs cs => cs = bs.map φ) (collect f as) (collect g as) := by
  induction as with
  | nil => exact .pure rfl
  | cons a as ih =>
      refine (h a).bind ?_
      rintro bs _ rfl
      refine ih.bind ?_
      rintro cs _ rfl
      exact .pure List.map_append.symm

theorem Rel.first {φ : β → β'} {f : α → Said δ (Option β)} {g : α → Said δ (Option β')} {as : List α}
    (h : ∀ a, Rel (fun b c => c = b.map φ) (f a) (g a)) :
    Rel (fun b c => c = b.map φ) (first f as) (first g as) := by
  induction as with
  | nil => exact .pure rfl
  | cons a as ih =>
      refine (h a).bind ?_
      rintro (_ | b) _ rfl
      · exact ih
      · exact .pure rfl

/-- What the second comes to, the first comes to one related, with the same said. -/
theorem Rel.run_eq {x : Said δ α} {y : Said δ α'} {a' : α'} {w : List δ} (h : Rel R x y)
    (hy : y.run = some (a', w)) : ∃ a, x.run = some (a, w) ∧ R a a' := by
  obtain ⟨x⟩ := x
  obtain ⟨y⟩ := y
  subst hy
  obtain ⟨ha, rfl⟩ := h
  exact ⟨_, rfl, ha⟩

end Said

end Rescind.Lib
