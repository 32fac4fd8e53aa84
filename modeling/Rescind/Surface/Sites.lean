/-
# `Rescind.Surface.Sites` — the site block that governs a file

A file's site is its own, or the one its imports bring.  The search for it goes
through the imports of imports, by alias and then in the order of those without
one, with one list of what is visited; what an import is refused for is dropped.

So where more than one site is reached the answer is right if two imports bring
one each, and not otherwise: an import that is itself ambiguous brings none, and
neither does one whose site was met on the way of an earlier import.

**Proved here.**

    the answer is read off the tree of the search           (`siteOfVisited_eq`)
    where it is the one the imports ask for                 (`site_of_iff`)
    a file is said to have no site though two are imported  (`swallowed`)
-/
import Mathlib.Data.Fintype.Card
import Rescind.Lib.Assoc
import Rescind.Lib.Search

namespace Rescind.Resolve

open Lib Lib.Search

/-! ## Files -/

/-- One loaded file of so many, with the site blocks it declares. -/
structure Module (n : Nat) (β : Type) where
  path : String
  sites : List β := []
  /-- Import alias to file. -/
  imports : Assoc String (Fin n) := []
  /-- Files imported without an alias. -/
  open_ : List (Fin n) := []

abbrev Program (n : Nat) (β : Type) := Fin n → Module n β

inductive Code where
  | e0103 | e0104 | e0604
  deriving DecidableEq

structure Diagnostic where
  code : Code
  message : String
  deriving DecidableEq

variable {n : Nat} {β : Type} (P : Program n β)

def children (m : Fin n) : List (Fin n) := (P m).imports.map Prod.snd ++ (P m).open_

def own (m : Fin n) : Option β := (P m).sites.head?

def cycle : Diagnostic := ⟨.e0104, "import cycle"⟩

/-- The one that is found, where one is. -/
def onlyOne (m : Fin n) : List (Fin n × β) → Except Diagnostic (Fin n × β)
  | [s] => .ok s
  | [] => .error ⟨.e0604, (P m).path ++ ": no site block, here or in an import"⟩
  | _ => .error ⟨.e0103,
      (P m).path ++ ": two imported files declare a site and this one declares none"⟩

/-- The site of a file, and what is visited by then; with no file left to visit the
file was visited. -/
def siteOfVisited : Nat → Fin n → List (Fin n) → Except Diagnostic (Fin n × β) × List (Fin n)
  | 0, _, visited => (.error cycle, visited)
  | left + 1, m, visited =>
      if m ∈ visited then (.error cycle, visited)
      else match own P m with
        | some b => (.ok (m, b), visited ++ [m])
        | none =>
            let r := through (fun c visited =>
              let s := siteOfVisited left c visited
              (s.1.toOption, s.2)) (children P m) (visited ++ [m])
            (onlyOne P m r.1, r.2)

/-- The site block that governs a file: its own, else the one of exactly one
imported file. -/
def siteOf (m : Fin n) : Except Diagnostic (Fin n × β) := (siteOfVisited P n m []).1

/-! ## What the imports ask for -/

/-- The files and their imports, as far as a file declares no site. -/
def graph : Search.Graph (Fin n) where
  next := children P
  stop m := (own P m).isSome

/-- A site is reached from a file by nearest declaration. -/
def Site (m s : Fin n) : Prop := Search.Reaches (graph P) m s ∧ (own P s).isSome = true

/-- The answer is the one the imports ask for: the only site that is reached, and
E0103 where there are two. -/
structure Governed (m : Fin n) : Prop where
  only : ∀ s b, siteOf P m = .ok (s, b) ↔ own P s = some b ∧ ∀ t, Site P m t ↔ t = s
  two : ∀ s t, Site P m s → Site P m t → s ≠ t → ∃ d, siteOf P m = .error d ∧ d.code = .e0103

/-! ## The tree of the search -/

mutual

/-- A file comes to one site: it declares it, or one of the files under it does. -/
def single : Search.Tree (Fin n) → Bool
  | .node m bs => (own P m).isSome || singles bs == 1

/-- How many come to one. -/
def singles : List (Search.Tree (Fin n)) → Nat
  | [] => 0
  | b :: bs => (if single b then 1 else 0) + singles bs

end

/-- The files under a file in its search: its imports, as far as none was met on the
way of an earlier one, each with the files under it. -/
def branches (m : Fin n) : List (Search.Tree (Fin n)) :=
  ((grow (graph P) n m []).1.map Search.Tree.branches).getD []

mutual

def verdict : Search.Tree (Fin n) → Except Diagnostic (Fin n × β)
  | .node m bs =>
      match own P m with
      | some b => .ok (m, b)
      | none => onlyOne P m (verdicts bs)

/-- The sites that some come to. -/
def verdicts : List (Search.Tree (Fin n)) → List (Fin n × β)
  | [] => []
  | b :: bs => (verdict b).toOption.toList ++ verdicts bs

end

section
variable {P}

theorem stop_of_own {m : Fin n} {b : β} (h : own P m = some b) : (graph P).stop m = true :=
  congrArg Option.isSome h

theorem not_stop {m : Fin n} (h : own P m = none) : ¬(graph P).stop m = true := by
  have hs : (graph P).stop m = false := congrArg Option.isSome h
  rw [hs]
  exact Bool.false_ne_true

end

/-- The answer is read off the tree of the search. -/
theorem siteOfVisited_eq (left : Nat) (m : Fin n) (visited : List (Fin n)) :
    siteOfVisited P left m visited =
      (((grow (graph P) left m visited).1.map (verdict P)).getD (.error cycle),
        (grow (graph P) left m visited).2) := by
  induction left generalizing m visited with
  | zero => rfl
  | succ left ih =>
      have heach : ∀ (cs : List (Fin n)) visited,
          through (fun c visited =>
            let s := siteOfVisited P left c visited
            (s.1.toOption, s.2)) cs visited =
          (verdicts P (through (grow (graph P) left) cs visited).1,
            (through (grow (graph P) left) cs visited).2) := by
        intro cs
        induction cs with
        | nil => exact fun _ => rfl
        | cons c cs ih' =>
            intro visited
            rw [through, through, ih c visited]
            simp only [ih']
            cases (grow (graph P) left c visited).1 with
            | none => rfl
            | some t => rfl
      rw [siteOfVisited, grow]
      by_cases hv : m ∈ visited
      · rw [if_pos hv, if_pos hv]
        rfl
      · rw [if_neg hv, if_neg hv]
        cases ho : own P m with
        | some b =>
            rw [if_pos (stop_of_own ho)]
            simp only [Option.map_some, Option.getD_some, verdict, ho]
        | none =>
            rw [if_neg (not_stop ho)]
            simp only [heach, Option.map_some, Option.getD_some, verdict, ho]
            rfl

variable {P}

theorem onlyOne_eq_ok {m : Fin n} {found : List (Fin n × β)} {s : Fin n × β} :
    onlyOne P m found = .ok s ↔ found = [s] := by
  match found with
  | [] => exact iff_of_false (fun h => by cases h) fun h => by cases h
  | [t] => exact ⟨fun h => congrArg (· :: []) (Except.ok.inj h), fun h => congrArg Except.ok (List.cons.inj h).1⟩
  | _ :: _ :: _ => exact iff_of_false (fun h => by cases h) fun h => by cases h

theorem onlyOne_two {m : Fin n} {found : List (Fin n × β)} :
    (∃ d, onlyOne P m found = .error d ∧ d.code = .e0103) ↔ 2 ≤ found.length := by
  match found with
  | [] =>
      refine iff_of_false ?_ (Nat.not_succ_le_zero 1)
      rintro ⟨d, h, hc⟩
      cases h
      cases hc
  | [t] =>
      refine iff_of_false ?_ (Nat.lt_irrefl 1)
      rintro ⟨d, h, hc⟩
      cases h
  | _ :: _ :: _ => exact iff_of_true ⟨_, rfl, rfl⟩ (Nat.le_add_left 2 _)

/-- A file that comes to one site is the one it answers with, and the answer is an
end of its search. -/
theorem verdict_spec (t : Search.Tree (Fin n)) :
    ((verdict P t).toOption.isSome = single P t) ∧
      ∀ s b, verdict P t = .ok (s, b) → own P s = some b ∧ s ∈ t.ends (graph P) := by
  induction t using Search.Tree.parts with
  | node m bs ih =>
      have hbs : (verdicts P bs).length = singles P bs ∧ ∀ s b, (s, b) ∈ verdicts P bs →
          own P s = some b ∧ s ∈ Search.Tree.endsEach (graph P) bs := by
        induction bs with
        | nil => exact ⟨rfl, fun s b h => by cases h⟩
        | cons t bs ih' =>
            obtain ⟨hone, hin⟩ := ih t List.mem_cons_self
            obtain ⟨hlen, hins⟩ := ih' fun b hb => ih b (List.mem_cons_of_mem _ hb)
            constructor
            · rw [verdicts, singles, List.length_append, hlen, ← hone]
              cases (verdict P t).toOption <;> rfl
            · intro s b h
              rw [verdicts] at h
              rw [Search.Tree.endsEach]
              rcases List.mem_append.mp h with h | h
              · cases hv : verdict P t with
                | error d =>
                    rw [hv] at h
                    cases h
                | ok r =>
                    rw [hv] at h
                    obtain rfl := List.mem_singleton.mp h
                    obtain ⟨ho, hs⟩ := hin s b hv
                    exact ⟨ho, List.mem_append_left _ hs⟩
              · obtain ⟨ho, hs⟩ := hins s b h
                exact ⟨ho, List.mem_append_right _ hs⟩
      rw [verdict, single, Search.Tree.ends]
      cases ho : own P m with
      | some b =>
          refine ⟨rfl, fun s b' h => ?_⟩
          cases h
          rw [if_pos (stop_of_own ho)]
          exact ⟨ho, List.mem_cons_self⟩
      | none =>
          rw [if_neg (not_stop ho)]
          constructor
          · cases hv : onlyOne P m (verdicts P bs) with
            | ok r =>
                have hl := onlyOne_eq_ok.mp hv
                have h1 : singles P bs = 1 := by rw [← hbs.1, hl]; rfl
                rw [h1]
                rfl
            | error d =>
                have h1 : singles P bs ≠ 1 := fun h1 => by
                  obtain ⟨r, hr⟩ := List.length_eq_one_iff.mp (hbs.1.trans h1)
                  rw [onlyOne_eq_ok.mpr hr] at hv
                  cases hv
                exact (beq_eq_false_iff_ne.mpr h1).symm
          · intro s b h
            have hl := onlyOne_eq_ok.mp h
            exact hbs.2 s b (hl ▸ List.mem_cons_self)

/-- Where one site is reached it is come to, and where none is none is. -/
theorem single_of_ends (t : Search.Tree (Fin n)) :
    (t.ends (graph P) = [] → single P t = false) ∧
      ((t.ends (graph P)).length = 1 → single P t = true) := by
  induction t using Search.Tree.parts with
  | node m bs ih =>
      have hbs : (Search.Tree.endsEach (graph P) bs = [] → singles P bs = 0) ∧
          ((Search.Tree.endsEach (graph P) bs).length = 1 → singles P bs = 1) := by
        induction bs with
        | nil => exact ⟨fun _ => rfl, fun h => by cases h⟩
        | cons t bs ih' =>
            obtain ⟨hnone, hone⟩ := ih t List.mem_cons_self
            obtain ⟨hnones, hones⟩ := ih' fun b hb => ih b (List.mem_cons_of_mem _ hb)
            rw [Search.Tree.endsEach, singles]
            constructor
            · intro h
              obtain ⟨ht, hts⟩ := List.append_eq_nil_iff.mp h
              rw [hnone ht, hnones hts]
              rfl
            · intro h
              rw [List.length_append] at h
              by_cases ht : t.ends (graph P) = []
              · rw [ht, List.length_nil, Nat.zero_add] at h
                rw [hnone ht, hones h]
                rfl
              · have hpos := List.length_pos_iff.mpr ht
                have hts : Search.Tree.endsEach (graph P) bs = [] := List.length_eq_zero_iff.mp (by omega)
                rw [hts, List.length_nil, Nat.add_zero] at h
                rw [hone h, hnones hts]
                rfl
      rw [Search.Tree.ends, single]
      cases ho : own P m with
      | some b =>
          rw [if_pos (stop_of_own ho)]
          exact ⟨fun h => (by cases h), fun _ => rfl⟩
      | none =>
          rw [if_neg (not_stop ho)]
          constructor
          · intro h
            rw [hbs.1 h]
            rfl
          · intro h
            rw [hbs.2 h]
            rfl

/-! ## Where the answer is right -/

/-- The tree a file's search leaves: the answer is its verdict, the sites reached are
its ends, and the files under the file are its branches. -/
theorem exists_tree (P : Program n β) (m : Fin n) : ∃ t : Search.Tree (Fin n),
    siteOf P m = verdict P t ∧ (t.ends (graph P)).Nodup ∧
      (∀ s, s ∈ t.ends (graph P) ↔ Site P m s) ∧ t = .node m (branches P m) := by
  have hsize : ∀ l : List (Fin n), l.Nodup → l.length ≤ n := fun l hl => by
    have h := hl.length_le_card
    rwa [Fintype.card_fin] at h
  obtain ⟨t, ht, hnodup, hends⟩ := search_tree (g := graph P) hsize m
  refine ⟨t, ?_, hnodup, hends, ?_⟩
  · rw [siteOf, siteOfVisited_eq, ht]
    rfl
  · have hb : branches P m = t.branches := by
      rw [branches, ht]
      rfl
    have hroot : t.root = m := by
      cases n with
      | zero => exact m.elim0
      | succ n =>
          rw [grow, if_neg List.not_mem_nil] at ht
          have ht := congrArg Prod.fst ht
          split at ht
          · exact congrArg Search.Tree.root (Option.some.inj ht).symm
          · exact congrArg Search.Tree.root (Option.some.inj ht).symm
    cases t with
    | node v bs =>
        obtain rfl : v = m := hroot
        rw [hb]
        rfl

/-- The condition: one site at most is reached, or two imports come to one each. -/
def Clear (P : Program n β) (m : Fin n) : Prop :=
  (∀ s t, Site P m s → Site P m t → s = t) ∨ 2 ≤ singles P (branches P m)

/-- The same files with their imports in another order or under other aliases. -/
def Rearranged (P P' : Program n β) : Prop :=
  own P = own P' ∧ ∀ m c, c ∈ children P m ↔ c ∈ children P' m

theorem verdicts_length (bs : List (Search.Tree (Fin n))) : (verdicts P bs).length = singles P bs := by
  induction bs with
  | nil => rfl
  | cons t bs ih =>
      rw [verdicts, singles, List.length_append, ih, ← (verdict_spec t).1]
      cases (verdict P t).toOption <;> rfl

/-- A file that declares a site has nothing under it. -/
theorem branches_of_own {P : Program n β} {m : Fin n} {b : β} (ho : own P m = some b) :
    branches P m = [] := by
  cases n with
  | zero => exact m.elim0
  | succ n =>
      rw [branches, grow, if_neg List.not_mem_nil, if_pos (stop_of_own ho)]
      rfl

/-- What a file comes to that declares no site is what its imports come to. -/
theorem siteOf_eq {P : Program n β} {m : Fin n} (ho : own P m = none) :
    siteOf P m = onlyOne P m (verdicts P (branches P m)) := by
  obtain ⟨t, hv, -, -, ht⟩ := exists_tree P m
  rw [hv, ht, verdict, ho]

/-- An answer is a site that is reached. -/
theorem site_of_ok {P : Program n β} {m s : Fin n} {b : β} (h : siteOf P m = .ok (s, b)) :
    own P s = some b ∧ Site P m s := by
  obtain ⟨t, hv, -, hends, -⟩ := exists_tree P m
  obtain ⟨ho, hs⟩ := (verdict_spec t).2 s b (hv ▸ h)
  exact ⟨ho, (hends s).mp hs⟩

/-- The one site that is reached is the answer. -/
theorem ok_of_only {P : Program n β} {m s : Fin n} (h : ∀ t, Site P m t ↔ t = s) :
    ∃ b, siteOf P m = .ok (s, b) := by
  obtain ⟨t, hv, hnodup, hends, -⟩ := exists_tree P m
  have hall : ∀ x ∈ t.ends (graph P), x = s := fun x hx => (h x).mp ((hends x).mp hx)
  have hs : s ∈ t.ends (graph P) := (hends s).mpr ((h s).mpr rfl)
  have hlen : (t.ends (graph P)).length = 1 := by
    match hl : t.ends (graph P), hs with
    | [x], _ => rfl
    | x :: y :: _, _ =>
        have hx := hall x (hl ▸ List.mem_cons_self)
        have hy := hall y (hl ▸ List.mem_cons_of_mem x List.mem_cons_self)
        rw [hl, hx, hy] at hnodup
        exact absurd List.mem_cons_self (List.nodup_cons.mp hnodup).1
  have hsome := (verdict_spec t).1.trans ((single_of_ends t).2 hlen)
  cases hr : verdict P t with
  | error d =>
      rw [hr] at hsome
      cases hsome
  | ok r =>
      obtain ⟨-, hin⟩ := (verdict_spec t).2 r.1 r.2 hr
      exact ⟨r.2, by rw [hv, hr, ← hall r.1 hin]⟩

/-- A file that declares a site reaches no other. -/
theorem eq_of_own {P : Program n β} {m s : Fin n} {b : β} (ho : own P m = some b)
    (hs : Site P m s) : s = m := by
  cases hs.1 with
  | here => rfl
  | through hstop =>
      rw [stop_of_own ho] at hstop
      cases hstop

/-- Two imports that come to one each come to two sites. -/
theorem two_of_singles {P : Program n β} {m : Fin n} (h : 2 ≤ singles P (branches P m)) :
    own P m = none ∧ ¬∃ s, ∀ t, Site P m t ↔ t = s := by
  have ho : own P m = none := by
    cases ho : own P m with
    | none => rfl
    | some b =>
        rw [branches_of_own ho] at h
        exact absurd h (Nat.not_succ_le_zero 1)
  refine ⟨ho, ?_⟩
  rintro ⟨s, hs⟩
  obtain ⟨b, hok⟩ := ok_of_only hs
  obtain ⟨d, hd, -⟩ := onlyOne_two.mpr (show 2 ≤ (verdicts P (branches P m)).length from
    (verdicts_length _).symm ▸ h)
  rw [siteOf_eq ho, hd] at hok
  cases hok

theorem Rearranged.symm {P P' : Program n β} (h : Rearranged P P') : Rearranged P' P :=
  ⟨h.1.symm, fun m c => (h.2 m c).symm⟩

/-- What is reached does not depend on the order of the imports. -/
theorem Rearranged.site {P P' : Program n β} (h : Rearranged P P') {m s : Fin n}
    (hs : Site P m s) : Site P' m s := by
  obtain ⟨hreach, ho⟩ := hs
  refine ⟨?_, h.1 ▸ ho⟩
  induction hreach with
  | here v => exact .here v
  | through hstop hw _ ih =>
      refine .through ?_ ((h.2 _ _).mp hw) (ih ho)
      rw [← hstop]
      exact congrArg Option.isSome (congrFun h.1.symm _)

/-- The answer is the one the imports ask for where one site at most is reached, or two
imports come to one each. -/
theorem governed_iff (P : Program n β) (m : Fin n) : Governed P m ↔ Clear P m := by
  constructor
  · intro h
    by_cases hone : ∀ s t, Site P m s → Site P m t → s = t
    · exact .inl hone
    · push Not at hone
      obtain ⟨s, t, hs, ht, hst⟩ := hone
      obtain ⟨d, hd, hcode⟩ := h.two s t hs ht hst
      have ho : own P m = none := by
        cases ho : own P m with
        | none => rfl
        | some b => exact absurd ((eq_of_own ho hs).trans (eq_of_own ho ht).symm) hst
      refine .inr ?_
      rw [← verdicts_length, ← onlyOne_two, ← siteOf_eq ho]
      exact ⟨d, hd, hcode⟩
  · rintro (hone | htwo)
    · refine ⟨fun s b => ⟨fun hok => ?_, ?_⟩, fun s t hs ht hst => absurd (hone s t hs ht) hst⟩
      · obtain ⟨ho, hs⟩ := site_of_ok hok
        exact ⟨ho, fun t => ⟨fun ht => hone t s ht hs, fun he => he ▸ hs⟩⟩
      · rintro ⟨ho, hs⟩
        obtain ⟨b', hok⟩ := ok_of_only hs
        have hb : some b' = some b := (site_of_ok hok).1.symm.trans ho
        rw [hok, Option.some.inj hb]
    · obtain ⟨hm, hno⟩ := two_of_singles htwo
      obtain ⟨d, hd, hcode⟩ := onlyOne_two.mpr (Nat.le_trans htwo (Nat.le_of_eq (verdicts_length _).symm))
      have herr : siteOf P m = .error d := (siteOf_eq hm).trans hd
      refine ⟨fun s b => iff_of_false (fun hok => ?_) fun hs => hno ⟨s, hs.2⟩, fun _ _ _ _ _ => ⟨d, herr, hcode⟩⟩
      rw [herr] at hok
      cases hok

/-- **The site of a file** is the one its imports ask for where they reach one at most,
or two of them come to one each, and only there; there it does not depend on their
order or aliases. -/
theorem site_of_iff (P : Program n β) (m : Fin n) : (Governed P m ↔ Clear P m) ∧
    ∀ P', Rearranged P P' → Clear P m → Clear P' m →
      ∀ s b, siteOf P m = .ok (s, b) ↔ siteOf P' m = .ok (s, b) := by
  refine ⟨governed_iff P m, fun P' h hP hP' s b => ?_⟩
  have hsite : ∀ t, Site P m t ↔ Site P' m t := fun t => ⟨h.site, h.symm.site⟩
  rw [((governed_iff P m).mpr hP).only, ((governed_iff P' m).mpr hP').only, h.1]
  simp only [hsite]

/-- A file with two imports, of which the first imports two sites and the second one of
these. -/
def forked : Program 5 Unit
  | 0 => { path := "root", open_ := [1, 2] }
  | 1 => { path := "left", open_ := [3, 4] }
  | 2 => { path := "right", open_ := [3] }
  | 3 => { path := "east", sites := [()] }
  | 4 => { path := "west", sites := [()] }

/-- Both sites are reached, and the answer is that there is none. -/
theorem swallowed : ¬∀ (P : Program 5 Unit) m, Governed P m := by
  intro h
  have heast : Site forked 0 3 := by
    refine ⟨.through (w := 1) rfl List.mem_cons_self ?_, rfl⟩
    exact .through (w := 3) rfl List.mem_cons_self (.here 3)
  have hwest : Site forked 0 4 := by
    refine ⟨.through (w := 1) rfl List.mem_cons_self ?_, rfl⟩
    exact .through (w := 4) rfl (List.mem_cons_of_mem _ List.mem_cons_self) (.here 4)
  obtain ⟨d, hd, hcode⟩ := (h forked 0).two 3 4 heast hwest (by decide)
  have hanswer : siteOf forked 0 = .error ⟨.e0604, "root: no site block, here or in an import"⟩ := rfl
  rw [hanswer] at hd
  cases hd
  cases hcode

end Rescind.Resolve
