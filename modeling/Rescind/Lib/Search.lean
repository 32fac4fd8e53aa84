/-
# `Rescind.Lib.Search` — depth-first search with one list of what is visited

A search goes from a vertex to its successors and stops at some.  What was visited
before is not visited again, from wherever it is met, so the search leaves a tree:
every vertex under the one it was first met from.

    a search visits what is new to it, with all that follows  (`forest_grow`)
    and its tree ends in what it comes to that stops it       (`search_tree`)
-/
import Mathlib.Data.List.Nodup

namespace Rescind.Lib.Search

/-- Successors in order, and where a search stops. -/
structure Graph (V : Type) where
  next : V → List V
  stop : V → Bool

inductive Tree (V : Type) where
  | node (v : V) (branches : List (Tree V))

variable {V : Type}

namespace Tree

/-- A tree is built of its branches. -/
@[elab_as_elim]
theorem parts {P : Tree V → Prop} (node : ∀ v bs, (∀ b ∈ bs, P b) → P (.node v bs)) (t : Tree V) :
    P t := by
  refine @Tree.rec V P (fun bs => ∀ b ∈ bs, P b) node ?_ ?_ t
  · intro b hb
    cases hb
  · intro b bs hb hbs c hc
    rcases List.mem_cons.mp hc with rfl | hc
    · exact hb
    · exact hbs c hc

def root : Tree V → V
  | .node v _ => v

def branches : Tree V → List (Tree V)
  | .node _ bs => bs

mutual

/-- The vertices, as they are visited. -/
def all : Tree V → List V
  | .node v bs => v :: allEach bs

def allEach : List (Tree V) → List V
  | [] => []
  | b :: bs => all b ++ allEach bs

end

mutual

/-- The vertices the search stops at. -/
def ends (g : Graph V) : Tree V → List V
  | .node v bs => if g.stop v then [v] else endsEach g bs

def endsEach (g : Graph V) : List (Tree V) → List V
  | [] => []
  | b :: bs => ends g b ++ endsEach g bs

end

end Tree

/-- One vertex after the other, each with what is visited by then. -/
def through {T : Type} (f : V → List V → Option T × List V) : List V → List V → List T × List V
  | [], visited => ([], visited)
  | v :: vs, visited =>
      let r := f v visited
      let rest := through f vs r.2
      (r.1.toList ++ rest.1, rest.2)

variable [DecidableEq V] (g : Graph V)

/-- The tree from a vertex and what is visited with it, no tree if it was visited
before.  With no vertex left to visit it was. -/
def grow : Nat → V → List V → Option (Tree V) × List V
  | 0, _, visited => (none, visited)
  | left + 1, v, visited =>
      if v ∈ visited then (none, visited)
      else if g.stop v then (some (.node v []), visited ++ [v])
      else
        let r := through (grow left) (g.next v) (visited ++ [v])
        (some (.node v r.1), r.2)

omit [DecidableEq V] in
/-- What a search from a vertex comes to, stopping where it stops. -/
inductive Reaches : V → V → Prop
  | here (v : V) : Reaches v v
  | through {v w x : V} (h : g.stop v = false) (hw : w ∈ g.next v) (rest : Reaches w x) : Reaches v x

/-! ## What a search leaves -/

omit [DecidableEq V] in
theorem mem_endsEach {bs : List (Tree V)} {x : V} :
    x ∈ Tree.endsEach g bs ↔ ∃ b ∈ bs, x ∈ b.ends g := by
  induction bs with
  | nil => simp [Tree.endsEach]
  | cons b bs ih => rw [Tree.endsEach, List.mem_append, ih]; simp

omit [DecidableEq V] in
theorem mem_allEach {bs : List (Tree V)} {x : V} : x ∈ Tree.allEach bs ↔ ∃ b ∈ bs, x ∈ b.all := by
  induction bs with
  | nil => simp [Tree.allEach]
  | cons b bs ih => rw [Tree.allEach, List.mem_append, ih]; simp

omit [DecidableEq V] in
/-- The ends come among all, and in their order. -/
theorem ends_sublist (t : Tree V) : (t.ends g).Sublist t.all := by
  induction t using Tree.parts with
  | node v bs ih =>
      have hbs : (Tree.endsEach g bs).Sublist (Tree.allEach bs) := by
        induction bs with
        | nil => exact List.nil_sublist _
        | cons b bs ih' =>
            exact (ih b List.mem_cons_self).append
              (ih' fun c hc => ih c (List.mem_cons_of_mem _ hc))
      rw [Tree.ends, Tree.all]
      split
      · exact (List.nil_sublist _).cons_cons v
      · exact hbs.trans (List.sublist_cons_self v _)

/-- What a search from some vertices in turn leaves: it visits what is new to it,
once, with all that follows, and its trees end where it stops. -/
structure Forest (vs visited : List V) (r : List (Tree V) × List V) : Prop where
  visited : r.2 = visited ++ Tree.allEach r.1
  nodup : r.2.Nodup
  mem : ∀ v ∈ vs, v ∈ r.2
  closed : ∀ x ∈ Tree.allEach r.1, g.stop x = false → ∀ y ∈ g.next x, y ∈ r.2
  reached : ∀ x ∈ Tree.allEach r.1, ∃ v ∈ vs, Reaches g v x
  ends : ∀ x ∈ Tree.allEach r.1, x ∈ Tree.endsEach g r.1 ↔ g.stop x = true

variable {g}

omit [DecidableEq V] in
theorem Forest.nil {visited : List V} (hn : visited.Nodup) : Forest g [] visited ([], visited) where
  visited := (List.append_nil visited).symm
  nodup := hn
  mem w hw := by cases hw
  closed x hx := by cases hx
  reached x hx := by cases hx
  ends x hx := by cases hx

omit [DecidableEq V] in
theorem Forest.old {v : V} {visited : List V} (hn : visited.Nodup) (hv : v ∈ visited) :
    Forest g [v] visited ([], visited) where
  visited := (List.append_nil visited).symm
  nodup := hn
  mem w hw := by rwa [List.mem_singleton.mp hw]
  closed x hx := by cases hx
  reached x hx := by cases hx
  ends x hx := by cases hx

omit [DecidableEq V] in
theorem Forest.stop {v : V} {visited : List V} (hn : visited.Nodup) (hv : v ∉ visited)
    (hs : g.stop v = true) : Forest g [v] visited ([.node v []], visited ++ [v]) where
  visited := rfl
  nodup := List.nodup_append.mpr ⟨hn, List.nodup_singleton v, fun a ha b hb he =>
    hv (List.mem_singleton.mp hb ▸ he ▸ ha)⟩
  mem w hw := List.mem_append_right _ hw
  closed x hx h := by
    rw [List.mem_singleton.mp (hx : x ∈ [v]), hs] at h
    cases h
  reached x hx := by
    obtain rfl := List.mem_singleton.mp (hx : x ∈ [v])
    exact ⟨x, List.mem_cons_self, .here x⟩
  ends x hx := by
    obtain rfl := List.mem_singleton.mp (hx : x ∈ [v])
    rw [Tree.endsEach, Tree.ends, if_pos hs]
    exact iff_of_true List.mem_cons_self hs

omit [DecidableEq V] in
/-- A vertex over the forest of its successors. -/
theorem Forest.node {v : V} {visited : List V} {r : List (Tree V) × List V}
    (hs : g.stop v = false) (h : Forest g (g.next v) (visited ++ [v]) r) :
    Forest g [v] visited ([.node v r.1], r.2) := by
  have hall : Tree.allEach [.node v r.1] = v :: Tree.allEach r.1 := List.append_nil _
  have hends : Tree.endsEach g [.node v r.1] = Tree.endsEach g r.1 := by
    rw [Tree.endsEach, Tree.ends, hs]
    exact List.append_nil _
  have hv : v ∉ Tree.allEach r.1 := fun hin => by
    have hn := h.nodup
    rw [h.visited, List.append_assoc] at hn
    exact (List.nodup_cons.mp (List.nodup_append.mp hn).2.1).1 hin
  refine ⟨?_, h.nodup, fun w hw => ?_, fun x hx hsx => ?_, fun x hx => ?_, fun x hx => ?_⟩
  · rw [hall, h.visited, List.append_assoc]
    rfl
  · rw [List.mem_singleton.mp hw, h.visited]
    exact List.mem_append_left _ (List.mem_append_right _ List.mem_cons_self)
  · rw [hall] at hx
    rcases List.mem_cons.mp hx with rfl | hx
    · exact h.mem
    · exact h.closed x hx hsx
  · rw [hall] at hx
    rcases List.mem_cons.mp hx with rfl | hx
    · exact ⟨x, List.mem_cons_self, .here x⟩
    · obtain ⟨w, hw, hr⟩ := h.reached x hx
      exact ⟨v, List.mem_cons_self, .through hs hw hr⟩
  · rw [hall] at hx
    rw [hends]
    rcases List.mem_cons.mp hx with rfl | hx
    · refine iff_of_false (fun hin => hv ?_) (by rw [hs]; exact Bool.false_ne_true)
      obtain ⟨b, hb, hx⟩ := (mem_endsEach g).mp hin
      exact mem_allEach.mpr ⟨b, hb, (ends_sublist g b).subset hx⟩
    · exact h.ends x hx

omit [DecidableEq V] in
/-- A forest and one grown after it. -/
theorem Forest.append {v : V} {vs visited : List V} {r q : List (Tree V) × List V}
    (h : Forest g [v] visited r) (h' : Forest g vs r.2 q) :
    Forest g (v :: vs) visited (r.1 ++ q.1, q.2) := by
  have hall : Tree.allEach (r.1 ++ q.1) = Tree.allEach r.1 ++ Tree.allEach q.1 := by
    generalize r.1 = bs
    induction bs with
    | nil => rfl
    | cons b bs ih => rw [List.cons_append, Tree.allEach, Tree.allEach, ih, List.append_assoc]
  have hends : ∀ x, x ∈ Tree.endsEach g (r.1 ++ q.1) ↔
      x ∈ Tree.endsEach g r.1 ∨ x ∈ Tree.endsEach g q.1 := by
    intro x
    simp only [mem_endsEach, List.mem_append, or_and_right, exists_or]
  have hsub : ∀ {bs x}, x ∈ Tree.endsEach g bs → x ∈ Tree.allEach bs := by
    intro bs x hx
    obtain ⟨b, hb, hx⟩ := (mem_endsEach g).mp hx
    exact mem_allEach.mpr ⟨b, hb, (ends_sublist g b).subset hx⟩
  have hold : ∀ x ∈ r.2, x ∈ q.2 := fun x hx => by
    rw [h'.visited]
    exact List.mem_append_left _ hx
  have hapart : ∀ x ∈ Tree.allEach r.1, x ∉ Tree.allEach q.1 := by
    intro x hx hx'
    have hn := h'.nodup
    rw [h'.visited, h.visited] at hn
    exact (List.nodup_append.mp hn).2.2 x (List.mem_append_right _ hx) x hx' rfl
  refine ⟨?_, h'.nodup, fun w hw => ?_, fun x hx hs y hy => ?_, fun x hx => ?_, fun x hx => ?_⟩
  · rw [hall, h'.visited, h.visited, List.append_assoc]
  · rcases List.mem_cons.mp hw with rfl | hw
    · exact hold w (h.mem w List.mem_cons_self)
    · exact h'.mem w hw
  · rw [hall] at hx
    rcases List.mem_append.mp hx with hx | hx
    · exact hold y (h.closed x hx hs y hy)
    · exact h'.closed x hx hs y hy
  · rw [hall] at hx
    rcases List.mem_append.mp hx with hx | hx
    · obtain ⟨w, hw, hr⟩ := h.reached x hx
      exact ⟨v, List.mem_cons_self, List.mem_singleton.mp hw ▸ hr⟩
    · obtain ⟨w, hw, hr⟩ := h'.reached x hx
      exact ⟨w, List.mem_cons_of_mem _ hw, hr⟩
  · rw [hall] at hx
    rw [hends]
    rcases List.mem_append.mp hx with hx | hx
    · rw [← h.ends x hx]
      exact or_iff_left fun hin => hapart x hx (hsub hin)
    · rw [← h'.ends x hx]
      exact or_iff_right fun hin => hapart x (hsub hin) hx

section
variable {size : Nat} (hsize : ∀ l : List V, l.Nodup → l.length ≤ size)

include hsize

/-- With enough vertices left to visit a search leaves such a forest. -/
theorem forest_grow (left : Nat) (v : V) {visited : List V} (hn : visited.Nodup)
    (hl : size ≤ left + visited.length) :
    Forest g [v] visited ((grow g left v visited).1.toList, (grow g left v visited).2) := by
  induction left generalizing v visited with
  | zero =>
      have hv : v ∈ visited := by
        by_contra hv
        have hlen := hsize (v :: visited) (List.nodup_cons.mpr ⟨hv, hn⟩)
        rw [List.length_cons] at hlen
        omega
      exact Forest.old hn hv
  | succ left ih =>
      have heach : ∀ (vs : List V) {visited : List V}, visited.Nodup →
          size ≤ left + visited.length → Forest g vs visited (through (grow g left) vs visited) := by
        intro vs
        induction vs with
        | nil =>
            intro visited hn _
            exact Forest.nil hn
        | cons w vs ih' =>
            intro visited hn hl
            have hw := ih w hn hl
            refine hw.append (ih' hw.nodup ?_)
            rw [hw.visited, List.length_append]
            omega
      rw [grow]
      by_cases hv : v ∈ visited
      · rw [if_pos hv]
        exact Forest.old hn hv
      · rw [if_neg hv]
        by_cases hs : g.stop v = true
        · rw [if_pos hs]
          exact Forest.stop hn hv hs
        · rw [if_neg hs]
          have hs : g.stop v = false := Bool.eq_false_iff.mpr hs
          refine Forest.node hs (heach (g.next v) ?_ ?_)
          · exact List.nodup_append.mpr ⟨hn, List.nodup_singleton v, fun a ha b hb he =>
              hv (List.mem_singleton.mp hb ▸ he ▸ ha)⟩
          · rw [List.length_append, List.length_singleton]
            omega

/-- **A search** from a vertex leaves a tree over it, which ends in what it comes to
that stops it, each once. -/
theorem search_tree (v : V) : ∃ t, grow g size v [] = (some t, t.all) ∧ (t.ends g).Nodup ∧
    ∀ x, x ∈ t.ends g ↔ Reaches g v x ∧ g.stop x = true := by
  have h := forest_grow (g := g) hsize size v List.nodup_nil (Nat.le_refl size)
  cases hr : (grow g size v []).1 with
  | none =>
      have hv := h.mem v List.mem_cons_self
      rw [h.visited, hr] at hv
      cases hv
  | some t =>
      rw [hr] at h
      have hall : (grow g size v []).2 = t.all := h.visited.trans (List.append_nil t.all)
      refine ⟨t, Prod.ext hr hall, ?_, fun x => ?_⟩
      · exact (hall ▸ h.nodup : t.all.Nodup).sublist (ends_sublist g t)
      · have hin : ∀ y, y ∈ Tree.allEach (some t).toList ↔ y ∈ (grow g size v []).2 := fun y => by
          rw [h.visited, List.nil_append]
        have hends : ∀ y, y ∈ Tree.endsEach g (some t).toList ↔ y ∈ t.ends g := fun y => by
          rw [mem_endsEach]
          simp
        constructor
        · intro hx
          have hx' := hall.symm ▸ (ends_sublist g t).subset hx
          obtain ⟨w, hw, hr⟩ := h.reached x ((hin x).mpr hx')
          refine ⟨List.mem_singleton.mp hw ▸ hr, (h.ends x ((hin x).mpr hx')).mp ?_⟩
          exact (hends x).mpr hx
        · rintro ⟨hreach, hs⟩
          have hmem : ∀ {y z}, Reaches g y z → y ∈ (grow g size v []).2 →
              z ∈ (grow g size v []).2 := by
            intro y z hyz
            induction hyz with
            | here y => exact fun hy => hy
            | through hs hw _ ih => exact fun hy => ih (h.closed _ ((hin _).mpr hy) hs _ hw)
          have hx := hmem hreach (h.mem v List.mem_cons_self)
          exact (hends x).mp ((h.ends x ((hin x).mpr hx)).mpr hs)

end

end Rescind.Lib.Search
