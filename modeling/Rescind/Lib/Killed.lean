/-
# `Rescind.Lib.Killed` — command lines that can be killed

A command line over a state runs to an exit status and a state, and may be killed
anywhere on the way: between two simple commands, or within one, which has then done a
part of its work.  `Cut` is where a killed run can leave the state.

    p; q                 `seq p q`
    if c; then p; else q; fi          `cond c p q`
    c && p, c || q       `c.andThen p`, `c.orElse q`

What a run does is said of its simple commands (`Within`).  A line that is run again
after a kill ends as if it had not been killed (`Resumes`) where it is a list of parts
that each do so and are idle once they have ended.

    what every command does, a killed run does too       (`Within.cut`)
    parts that are idle once they have ended             (`Resumes.block`)
-/
import Mathlib.Logic.Relation
import Mathlib.Order.Defs.Unbundled

namespace Rescind.Lib

/-- A command line over a state. -/
inductive Cmd (S : Type) where
  /-- `true`, `false`. -/
  | done (ok : Bool)
  /-- A simple command: its status and what it does, and the states it passes through. -/
  | act (f : S → Bool × S) (torn : S → S → Prop)
  | seq (p q : Cmd S)
  | cond (c p q : Cmd S)

namespace Cmd

variable {S ι : Type}

/-- A command that changes nothing. -/
def test (c : S → Bool) : Cmd S := act (fun s => (c s, s)) fun s t => t = s

def andThen (c p : Cmd S) : Cmd S := cond c p (done false)

def orElse (c q : Cmd S) : Cmd S := cond c (done true) q

/-- One line after the other. -/
def block (ps : List (Cmd S)) : Cmd S := ps.foldr seq (done true)

def run : Cmd S → S → Bool × S
  | done ok, s => (ok, s)
  | act f _, s => f s
  | seq p q, s => q.run (p.run s).2
  | cond c p q, s => if (c.run s).1 then p.run (c.run s).2 else q.run (c.run s).2

/-- The exit status. -/
def status (p : Cmd S) (s : S) : Bool := (p.run s).1

/-- The state a run ends in. -/
def after (p : Cmd S) (s : S) : S := (p.run s).2

/-- The states a killed run may leave. -/
def Cut : Cmd S → S → S → Prop
  | done _, s, t => t = s
  | act f torn, s, t => t = s ∨ torn s t ∨ t = (f s).2
  | seq p q, s, t => p.Cut s t ∨ q.Cut (p.after s) t
  | cond c p q, s, t => c.Cut s t ∨ if c.status s then p.Cut (c.after s) t else q.Cut (c.after s) t

section
variable {p q c : Cmd S} {s t : S} {b : Bool} {f : S → Bool × S} {torn : S → S → Prop}

@[simp] theorem after_done : (done b : Cmd S).after s = s := rfl

@[simp] theorem status_done : (done b : Cmd S).status s = b := rfl

@[simp] theorem after_act : (act f torn).after s = (f s).2 := rfl

@[simp] theorem status_act : (act f torn).status s = (f s).1 := rfl

@[simp] theorem after_test {d : S → Bool} : (test d).after s = s := rfl

@[simp] theorem status_test {d : S → Bool} : (test d).status s = d s := rfl

@[simp] theorem after_seq : (seq p q).after s = q.after (p.after s) := rfl

@[simp] theorem status_seq : (seq p q).status s = q.status (p.after s) := rfl

theorem after_cond :
    (cond c p q).after s = if c.status s then p.after (c.after s) else q.after (c.after s) := by
  show (if (c.run s).1 then p.run (c.run s).2 else q.run (c.run s).2).2 = _
  unfold status after
  split <;> rfl

theorem status_cond :
    (cond c p q).status s = if c.status s then p.status (c.after s) else q.status (c.after s) := by
  show (if (c.run s).1 then p.run (c.run s).2 else q.run (c.run s).2).1 = _
  unfold status after
  split <;> rfl

@[simp] theorem after_block_nil : (block []).after s = s := rfl

@[simp] theorem after_block_cons {ps : List (Cmd S)} :
    (block (p :: ps)).after s = (block ps).after (p.after s) := rfl

theorem after_block_append {ps qs : List (Cmd S)} :
    (block (ps ++ qs)).after s = (block qs).after ((block ps).after s) := by
  induction ps generalizing s with
  | nil => rfl
  | cons p ps ih => exact ih

theorem cut_test {d : S → Bool} : (test d).Cut s t ↔ t = s :=
  ⟨fun h => h.elim id fun h => h.elim id id, Or.inl⟩

/-- Killed before it began. -/
theorem Cut.start (p : Cmd S) (s : S) : p.Cut s s := by
  induction p generalizing s with
  | done b => rfl
  | act f torn => exact Or.inl rfl
  | seq p q ihp ihq => exact Or.inl (ihp s)
  | cond c p q ihc ihp ihq => exact Or.inl (ihc s)

theorem cut_block_cons {ps : List (Cmd S)} :
    (block (p :: ps)).Cut s t ↔ p.Cut s t ∨ (block ps).Cut (p.after s) t := Iff.rfl

theorem cut_block_append {ps qs : List (Cmd S)} :
    (block (ps ++ qs)).Cut s t ↔ (block ps).Cut s t ∨ (block qs).Cut ((block ps).after s) t := by
  induction ps generalizing s with
  | nil => exact ⟨Or.inr, fun h => h.elim (fun h => h ▸ Cut.start _ _) id⟩
  | cons p ps ih => rw [List.cons_append, cut_block_cons, cut_block_cons, ih, or_assoc, after_block_cons]

theorem cut_test_cond {d : S → Bool} :
    (cond (test d) p q).Cut s t ↔ t = s ∨ if d s then p.Cut s t else q.Cut s t :=
  or_congr cut_test Iff.rfl

/-- Killed after it had ended. -/
theorem Cut.whole (p : Cmd S) (s : S) : p.Cut s (p.after s) := by
  induction p generalizing s with
  | done b => rfl
  | act f torn => exact Or.inr (Or.inr rfl)
  | seq p q ihp ihq => exact Or.inr (ihq _)
  | cond c p q ihc ihp ihq =>
      refine Or.inr ?_
      rw [after_cond]
      split
      · exact ihp _
      · exact ihq _

end

/-- A history that ends without what it began with lost it at one of its steps. -/
theorem crosses {r : S → S → Prop} {P : S → Prop} {s t : S} (h : Relation.ReflTransGen r s t) (hs : P s)
    (ht : ¬P t) : ∃ u v, Relation.ReflTransGen r s u ∧ r u v ∧ Relation.ReflTransGen r v t ∧ P u ∧ ¬P v := by
  induction h with
  | refl => exact absurd hs ht
  | @tail b d hb hd ih =>
      by_cases hP : P b
      · exact ⟨b, d, hb, hd, .refl, hP, ht⟩
      · obtain ⟨u, v, hu, huv, hv, hPu, hPv⟩ := ih hP
        exact ⟨u, v, hu, huv, hv.tail hd, hPu, hPv⟩

/-! ## What the simple commands do -/

/-- Every simple command of it moves by `R`, also where it is killed. -/
def Within (R : S → S → Prop) : Cmd S → Prop
  | done _ => True
  | act f torn => ∀ s, R s (f s).2 ∧ ∀ t, torn s t → R s t
  | seq p q => p.Within R ∧ q.Within R
  | cond c p q => c.Within R ∧ p.Within R ∧ q.Within R

section
variable {R : S → S → Prop} {p c : Cmd S} {s t : S}

theorem Within.mono {R' : S → S → Prop} (h : p.Within R) (hR : ∀ s t, R s t → R' s t) : p.Within R' := by
  induction p with
  | done b => trivial
  | act f torn => exact fun s => ⟨hR _ _ (h s).1, fun t ht => hR _ _ ((h s).2 t ht)⟩
  | seq p q ihp ihq => exact ⟨ihp h.1, ihq h.2⟩
  | cond c p q ihc ihp ihq => exact ⟨ihc h.1, ihp h.2.1, ihq h.2.2⟩

theorem Within.and {R' R'' : S → S → Prop} (h : p.Within R) (h' : p.Within R')
    (hR : ∀ s t, R s t → R' s t → R'' s t) : p.Within R'' := by
  induction p with
  | done b => trivial
  | act f torn => exact fun s => ⟨hR _ _ (h s).1 (h' s).1, fun t ht => hR _ _ ((h s).2 t ht) ((h' s).2 t ht)⟩
  | seq p q ihp ihq => exact ⟨ihp h.1 h'.1, ihq h.2 h'.2⟩
  | cond c p q ihc ihp ihq => exact ⟨ihc h.1 h'.1, ihp h.2.1 h'.2.1, ihq h.2.2 h'.2.2⟩

theorem Within.block {ps : List (Cmd S)} (h : ∀ p ∈ ps, p.Within R) : (block ps).Within R := by
  induction ps with
  | nil => trivial
  | cons p ps ih => exact ⟨h p List.mem_cons_self, ih fun q hq => h q (List.mem_cons_of_mem _ hq)⟩

theorem Within.andThen (hc : c.Within R) (hp : p.Within R) : (c.andThen p).Within R := ⟨hc, hp, trivial⟩

theorem Within.orElse (hc : c.Within R) (hp : p.Within R) : (c.orElse p).Within R := ⟨hc, trivial, hp⟩

variable [Std.Refl R]

theorem Within.test {d : S → Bool} : (test d).Within R := fun s =>
  ⟨refl_of R s, fun _ ht => ht ▸ refl_of R s⟩

variable [IsTrans S R]

theorem Within.after (h : p.Within R) (s : S) : R s (p.after s) := by
  induction p generalizing s with
  | done b => exact refl_of R s
  | act f torn => exact (h s).1
  | seq p q ihp ihq => exact trans_of R (ihp h.1 s) (ihq h.2 _)
  | cond c p q ihc ihp ihq =>
      rw [after_cond]
      split
      · exact trans_of R (ihc h.1 s) (ihp h.2.1 _)
      · exact trans_of R (ihc h.1 s) (ihq h.2.2 _)

/-- So does a run that is killed. -/
theorem Within.cut (h : p.Within R) (ht : p.Cut s t) : R s t := by
  induction p generalizing s with
  | done b => exact ht ▸ refl_of R s
  | act f torn =>
      rcases ht with rfl | ht | rfl
      · exact refl_of R t
      · exact (h s).2 t ht
      · exact (h s).1
  | seq p q ihp ihq =>
      rcases ht with ht | ht
      · exact ihp h.1 ht
      · exact trans_of R (h.1.after s) (ihq h.2 ht)
  | cond c p q ihc ihp ihq =>
      rcases ht with ht | ht
      · exact ihc h.1 ht
      · split at ht
        · exact trans_of R (h.1.after s) (ihp h.2.1 ht)
        · exact trans_of R (h.1.after s) (ihq h.2.2 ht)

end

/-- What every simple command keeps is kept. -/
theorem Within.keeps {I : S → Prop} {p : Cmd S} {s t : S} (h : p.Within fun s t => I s → I t)
    (ht : p.Cut s t) (hs : I s) : I t :=
  have : Std.Refl fun s t : S => I s → I t := ⟨fun _ h => h⟩
  have : IsTrans S fun s t => I s → I t := ⟨fun _ _ _ h h' hs => h' (h hs)⟩
  h.cut ht hs

/-! ## What a run goes by -/

/-- From states alike a run ends in states alike. -/
def Respects (E : S → S → Prop) (p : Cmd S) : Prop := ∀ s t, E s t → E (p.after s) (p.after t)

section
variable {E : S → S → Prop} {p q : Cmd S}

theorem Respects.seq (hp : p.Respects E) (hq : q.Respects E) : (seq p q).Respects E :=
  fun s t h => hq _ _ (hp s t h)

theorem Respects.block {ps : List (Cmd S)} (h : ∀ p ∈ ps, p.Respects E) : (block ps).Respects E := by
  induction ps with
  | nil => exact fun _ _ h => h
  | cons p ps ih =>
      exact (h p List.mem_cons_self).seq (ih fun q hq => h q (List.mem_cons_of_mem _ hq))

end

/-! ## Running again -/

/-- A run after a kill ends as the killed one would have. -/
def Resumes (E : S → S → Prop) (p : Cmd S) : Prop := ∀ s t, p.Cut s t → E (p.after t) (p.after s)

section
variable {E : S → S → Prop} [IsTrans S E] {s t : S}

/-- One part, and then another, in which the first has nothing more to do. -/
theorem Resumes.seq {p q : Cmd S} (hp : p.Resumes E) (hq : q.Resumes E) (hr : q.Respects E)
    (hidle : ∀ s t, q.Cut (p.after s) t → E (p.after t) t) : (seq p q).Resumes E := by
  intro s t h
  rcases h with h | h
  · exact hr _ _ (hp s t h)
  · exact trans_of E (hr _ _ (hidle s t h)) (hq _ t h)

/-- A list of parts: each resumes, has ended where it ran, and stays so whatever the
others do, and then does nothing more. -/
theorem Resumes.block [Std.Refl E] {part : ι → Cmd S} {e : ι → S → Prop} {xs : List ι}
    (hresp : ∀ x ∈ xs, (part x).Respects E) (hres : ∀ x ∈ xs, (part x).Resumes E)
    (hend : ∀ x ∈ xs, ∀ s, e x ((part x).after s))
    (hkeep : ∀ x ∈ xs, ∀ y ∈ xs, (part y).Within fun s t => e x s → e x t)
    (hidle : ∀ x ∈ xs, ∀ s, e x s → E ((part x).after s) s) : (Cmd.block (xs.map part)).Resumes E := by
  induction xs with
  | nil =>
      intro s t h
      cases h
      exact refl_of E _
  | cons x xs ih =>
      have hrest : (Cmd.block (xs.map part)).Respects E := Respects.block fun p hp => by
        obtain ⟨y, hy, rfl⟩ := List.mem_map.mp hp
        exact hresp y (List.mem_cons_of_mem _ hy)
      have hkept : (Cmd.block (xs.map part)).Within fun s t => e x s → e x t := Within.block fun p hp => by
        obtain ⟨y, hy, rfl⟩ := List.mem_map.mp hp
        exact hkeep x List.mem_cons_self y (List.mem_cons_of_mem _ hy)
      refine (hres x List.mem_cons_self).seq (ih ?_ ?_ ?_ ?_ ?_) hrest fun s t h =>
        hidle x List.mem_cons_self t (hkept.keeps h (hend x List.mem_cons_self s))
      · exact fun y hy => hresp y (List.mem_cons_of_mem _ hy)
      · exact fun y hy => hres y (List.mem_cons_of_mem _ hy)
      · exact fun y hy => hend y (List.mem_cons_of_mem _ hy)
      · exact fun y hy z hz => hkeep y (List.mem_cons_of_mem _ hy) z (List.mem_cons_of_mem _ hz)
      · exact fun y hy => hidle y (List.mem_cons_of_mem _ hy)

end

end Cmd

end Rescind.Lib
