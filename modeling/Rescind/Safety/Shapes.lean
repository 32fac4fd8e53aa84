/-
# `Rescind.Safety.Shapes` — reading a shape and writing it

A probe's `reads` pattern is literal text with named gaps; `bindShape` reads a
concrete shape by it and `instantiate` writes one from it.  Every text is such
a pattern (`Pattern.exists_text`), up to a last brace that nothing closes.

    a shape is read where the pattern's literals
      are found in turn, each at its first place       (`bindShape_iff`)
    a pattern is written where every label is bound    (`instantiate_iff`)
    the two agree exactly where no literal comes
      too early in what was written                    (`bind_instantiate_iff`)

The reading never goes back: a value that starts with the text after it, or
holds the closing text, hides the reading that exists.
-/
import Mathlib.Data.List.Nodup
import Rescind.Lib.Gaps
import Rescind.Lib.Fields
import Rescind.Engine.Footprint

namespace Rescind.Shape

open Lib

/-! ## Patterns -/

/-- A braced name and the literal text after it. -/
structure Gap where
  name : List Char
  after : List Char
  closes : '\x7d' ∉ name
  plain : '\x7b' ∉ after

/-- A pattern: its opening text, its gaps, and what a last brace opens that
nothing closes. -/
structure Pattern where
  opening : List Char
  gaps : List Gap
  torn : Option { t : List Char // '\x7d' ∉ t }
  plain : '\x7b' ∉ opening

/-- The text from the first brace on. -/
def tailChars (torn : Option { t : List Char // '\x7d' ∉ t }) : List Gap → List Char
  | [] => match torn with
      | none => []
      | some t => '\x7b' :: t
  | g :: gs => '\x7b' :: (g.name ++ '\x7d' :: (g.after ++ tailChars torn gs))

def Pattern.chars (p : Pattern) : List Char := p.opening ++ tailChars p.torn p.gaps

def Pattern.text (p : Pattern) : String := String.ofList p.chars

/-- The literal after each gap. -/
def Pattern.literals (p : Pattern) : List (List Char) := p.gaps.map Gap.after

/-- No name twice. -/
def Pattern.Distinct (p : Pattern) : Prop := (p.gaps.map Gap.name).Nodup

/-- Literal text between any two gaps. -/
def Pattern.Separated (p : Pattern) : Prop := Gaps.Separated p.literals

/-- A label that names a field of the host's record, not a bound name. -/
def isHostLabel (name : List Char) : Bool := (Text.dropPrefix "host.".toList name).isSome

/-- **Every text is a pattern.** -/
theorem Pattern.exists_text (s : String) : ∃ p : Pattern, p.text = s := by
  have go : ∀ (n : Nat) (s : List Char), s.length < n → ∃ p : Pattern, p.chars = s := by
    intro n
    induction n with
    | zero => intro s hs; exact absurd hs (Nat.not_lt_zero _)
    | succ n ih =>
        intro s hs
        by_cases ho : '\x7b' ∈ s
        · obtain ⟨l, r, rfl, hl⟩ := List.eq_append_cons_of_mem ho
          by_cases hc : '\x7d' ∈ r
          · obtain ⟨name, rest, rfl, hn⟩ := List.eq_append_cons_of_mem hc
            obtain ⟨q, rfl⟩ := ih rest (by simp only [List.length_append, List.length_cons] at hs; omega)
            exact ⟨⟨l, ⟨name, q.opening, hn, q.plain⟩ :: q.gaps, q.torn, hl⟩, rfl⟩
          · exact ⟨⟨l, [], some ⟨r, hc⟩, hl⟩, rfl⟩
        · exact ⟨⟨s, [], none, ho⟩, List.append_nil s⟩
  obtain ⟨p, hp⟩ := go _ s.toList (Nat.lt_succ_self _)
  exact ⟨p, by rw [Pattern.text, hp, String.ofList_toList]⟩

/-! ## Reading -/

section
variable {torn : Option { t : List Char // '\x7d' ∉ t }}

/-- Where a pattern goes on, it goes on with a brace. -/
theorem cut_tail (torn : Option { t : List Char // '\x7d' ∉ t }) {lit : List Char}
    (h : '\x7b' ∉ lit) (gs : List Gap) :
    (Text.cut '\x7b' (lit ++ tailChars torn gs) = none ∧ tailChars torn gs = []) ∨
      ∃ r, Text.cut '\x7b' (lit ++ tailChars torn gs) = some (lit, r) ∧
        tailChars torn gs = '\x7b' :: r := by
  rcases ht : tailChars torn gs with _ | ⟨c, r⟩
  · refine .inl ⟨?_, rfl⟩
    rw [List.append_nil, Text.cut_eq_none h]
  · have hbrace : c = '\x7b' := by
      cases gs with
      | cons g gs => exact (List.cons.inj ht).1.symm
      | nil =>
          cases torn with
          | none => cases ht
          | some t => exact (List.cons.inj ht).1.symm
    subst hbrace
    exact .inr ⟨r, Text.cut_append h r, rfl⟩

/-- A text is cut at the first place of a literal. -/
theorem cutAt_eq_some_iff {l s u r : List Char} (hl : l ≠ []) :
    Text.cutAt l s = some (u, r) ↔ s = u ++ r ∧ Gaps.First l s u := by
  induction s generalizing u with
  | nil =>
      rw [Text.cutAt, if_neg (by simpa using hl)]
      refine ⟨fun h => (nomatch h), fun h => ?_⟩
      have := List.prefix_nil.mp h.2.here
      exact absurd (List.append_eq_nil_iff.mp this).2 hl
  | cons x s ih =>
      rw [Text.cutAt]
      by_cases hp : l <+: x :: s
      · obtain ⟨r', hr⟩ := hp
        rw [if_pos (by rw [Text.dropPrefix_eq_some_iff.mpr hr.symm]; rfl), Option.some.injEq, Prod.mk.injEq]
        constructor
        · rintro ⟨rfl, rfl⟩
          exact ⟨rfl, ⟨r', hr⟩, fun _ => Nat.zero_le _⟩
        · rintro ⟨hs, hf⟩
          obtain rfl := List.eq_nil_of_length_eq_zero
            (Nat.le_zero.mp (hf.least (x := []) ⟨r', hr⟩))
          exact ⟨rfl, hs⟩
      · have hd : (Text.dropPrefix l (x :: s)).isSome ≠ true := by
          intro h
          obtain ⟨r', hr⟩ := Option.isSome_iff_exists.mp h
          exact hp ⟨r', (Text.dropPrefix_eq_some_iff.mp hr).symm⟩
        rw [if_neg hd, Option.map_eq_some_iff]
        constructor
        · rintro ⟨⟨u', r'⟩, hc, he⟩
          cases he
          obtain ⟨hs, hf⟩ := ih.mp hc
          refine ⟨by rw [hs, List.cons_append], List.cons_prefix_cons.mpr ⟨rfl, hf.here⟩, ?_⟩
          intro y hy
          cases y with
          | nil => exact absurd hy hp
          | cons c y => exact Nat.succ_le_succ (hf.least (List.cons_prefix_cons.mp hy).2)
        · rintro ⟨hs, hf⟩
          cases u with
          | nil => exact absurd hf.here hp
          | cons c u =>
              rw [List.cons_append] at hs
              obtain ⟨rfl, hs'⟩ := List.cons.inj hs
              refine ⟨(u, r), ih.mpr ⟨hs', (List.cons_prefix_cons.mp hf.here).2, ?_⟩, rfl⟩
              intro y hy
              exact Nat.le_of_succ_le_succ
                (hf.least (x := x :: y) (List.cons_prefix_cons.mpr ⟨rfl, hy⟩))

/-- The names bound to the values in turn; a later value of a name replaces an
earlier one. -/
def bindAll : Vars → List Gap → List (List Char) → Vars
  | m, g :: gs, v :: vs => bindAll (m.insert (String.ofList g.name) (String.ofList v)) gs vs
  | m, _, _ => m

/-- What a gap takes: up to the first place of the literal after it, or all of
the rest where the pattern ends with the gap. -/
def Takes (after tail r v r' : List Char) : Prop :=
  (after = [] ∧ tail = [] ∧ v = r ∧ r' = []) ∨
    (after ≠ [] ∧ r = v ++ r' ∧ Gaps.First after r v)

/-- One round of the loop: the text before the gap, then what the gap takes. -/
theorem bindShapeFrom_gap {lit : List Char} (h : '\x7b' ∉ lit) (g : Gap) (gs : List Gap) (fuel : Nat)
    (s : List Char) (m m' : Vars) :
    bindShapeFrom (fuel + 1) (lit ++ tailChars torn (g :: gs)) s m = some m' ↔
      ∃ r v r', s = lit ++ r ∧ Takes g.after (tailChars torn gs) r v r' ∧ v ≠ [] ∧
        bindShapeFrom fuel (g.after ++ tailChars torn gs) r'
          (m.insert (String.ofList g.name) (String.ofList v)) = some m' := by
  have hcut : Text.cut '\x7b' (lit ++ tailChars torn (g :: gs)) =
      some (lit, g.name ++ '\x7d' :: (g.after ++ tailChars torn gs)) := Text.cut_append h _
  have hname : Text.cut '\x7d' (g.name ++ '\x7d' :: (g.after ++ tailChars torn gs)) =
      some (g.name, g.after ++ tailChars torn gs) := Text.cut_append g.closes _
  rw [bindShapeFrom, hcut]
  simp only [Option.bind_eq_bind, Option.bind_eq_some_iff, hname, Text.dropPrefix_eq_some_iff,
    Option.some.injEq, exists_eq_left']
  generalize hk : (fun v r' => bindShapeFrom fuel (g.after ++ tailChars torn gs) r'
    (m.insert (String.ofList g.name) (String.ofList v))) = k
  have hk' : ∀ v r', bindShapeFrom fuel (g.after ++ tailChars torn gs) r'
      (m.insert (String.ofList g.name) (String.ofList v)) = k v r' := fun _ _ => hk ▸ rfl
  simp only [hk']
  refine exists_congr fun r => ?_
  -- What the loop cuts at is the literal after the gap, whether more gaps follow or not.
  have hcutAt : ∀ x : List Char × List Char, g.after ≠ [] → (Text.cutAt g.after r = some x ↔
      Takes g.after (tailChars torn gs) r x.1 x.2) := by
    intro x ha
    rw [cutAt_eq_some_iff ha, Takes]
    simp [ha]
  rcases cut_tail torn g.plain gs with ⟨hc, ht⟩ | ⟨t, hc, ht⟩
  · simp only [hc]
    rw [ht, List.append_nil]
    by_cases ha : g.after = []
    · simp [ha, Takes]
    · rw [ht] at hcutAt
      simp [ha, Option.bind_eq_some_iff, hcutAt]
  · simp only [hc]
    by_cases ha : g.after = []
    · simp [ha, Takes, ht]
    · simp [ha, Option.bind_eq_some_iff, hcutAt]

/-- **A shape is read where the literals are found in turn**, each at its first
place after the one before it. -/
theorem bindShapeFrom_iff {lit : List Char} (h : '\x7b' ∉ lit) {gs : List Gap} {fuel : Nat}
    (hf : gs.length < fuel) {s : List Char} {m m' : Vars} :
    bindShapeFrom fuel (lit ++ tailChars torn gs) s m = some m' ↔
      torn = none ∧ ∃ r vs, s = lit ++ r ∧ Gaps.Taken (gs.map Gap.after) r vs ∧
        m' = bindAll m gs vs := by
  induction gs generalizing fuel lit s m with
  | nil =>
      obtain ⟨fuel, rfl⟩ := Nat.exists_eq_succ_of_ne_zero (Nat.ne_of_gt hf)
      rw [bindShapeFrom]
      cases torn with
      | none =>
          rcases cut_tail none h [] with ⟨hc, -⟩ | ⟨r, -, ht⟩
          · rw [hc]
            constructor
            · intro he
              obtain ⟨hs, he⟩ := Option.ite_none_right_eq_some.mp he
              obtain rfl := Option.some.inj he
              exact ⟨rfl, [], [], hs.symm, .nil, rfl⟩
            · rintro ⟨-, r, vs, rfl, ht, rfl⟩
              cases ht
              exact if_pos rfl
          · cases ht
      | some t =>
          have hcut : Text.cut '\x7b' (lit ++ tailChars (some t) []) = some (lit, t.val) :=
            Text.cut_append h _
          have htorn : Text.cut '\x7d' t.val = none := Text.cut_eq_none t.property
          rw [hcut]
          simp only [Option.bind_eq_bind, Option.bind_eq_some_iff, htorn]
          constructor
          · rintro ⟨_, _, _, hn, _⟩
            cases hn
          · rintro ⟨hn, _⟩
            cases hn
  | cons g gs ih =>
      obtain ⟨fuel, rfl⟩ := Nat.exists_eq_succ_of_ne_zero (Nat.ne_of_gt (Nat.zero_lt_of_lt hf))
      have ih := fun s m => ih g.plain (Nat.lt_of_succ_lt_succ hf) (s := s) (m := m)
      rw [bindShapeFrom_gap h]
      constructor
      · rintro ⟨r, v, r', rfl, ht, hv, hb⟩
        obtain ⟨hn, r'', vs, rfl, htaken, rfl⟩ := (ih _ _).mp hb
        refine ⟨hn, r, v :: vs, rfl, ?_, rfl⟩
        rcases ht with ⟨ha, htail, rfl, hr⟩ | ⟨ha, hr, hfirst⟩
        · cases gs with
          | cons g gs => cases htail
          | nil =>
              cases htaken
              rw [List.map_cons, ha]
              exact .rest hv
        · exact .step ha (by rw [hr, List.append_assoc]) hfirst hv htaken
      · rintro ⟨rfl, r, vs, rfl, ht, rfl⟩
        generalize hls : (g :: gs).map Gap.after = ls at ht
        cases ht with
        | nil => cases hls
        | rest hs =>
            obtain ⟨ha, hgs⟩ := List.cons.inj hls
            obtain rfl := List.map_eq_nil_iff.mp hgs
            refine ⟨r, r, [], rfl, .inl ⟨ha, rfl, rfl, rfl⟩, hs, (ih _ _).mpr ⟨rfl, [], [], ?_, .nil, rfl⟩⟩
            rw [ha]
            rfl
        | @step _ _ u r' _ vs hl hs hfirst hu ht =>
            obtain ⟨rfl, rfl⟩ := List.cons.inj hls
            refine ⟨r, u, g.after ++ r', rfl, .inr ⟨hl, ?_, hfirst⟩, hu,
              (ih _ _).mpr ⟨rfl, r', vs, rfl, ht, rfl⟩⟩
            rw [hs, List.append_assoc]

theorem length_tailChars (torn : Option { t : List Char // '\x7d' ∉ t }) (gs : List Gap) :
    gs.length ≤ (tailChars torn gs).length := by
  induction gs with
  | nil => exact Nat.zero_le _
  | cons g gs ih =>
      simp only [tailChars, List.length_cons, List.length_append]
      omega

end

theorem Pattern.length_gaps (p : Pattern) : p.gaps.length ≤ p.text.length := by
  have := length_tailChars p.torn p.gaps
  rw [Pattern.text, String.length_ofList, Pattern.chars, List.length_append]
  omega

theorem bindShape_iff {p : Pattern} {s : String} {m : Vars} :
    bindShape p.text s = some m ↔
      p.torn = none ∧ ∃ r vs, s.toList = p.opening ++ r ∧ Gaps.Taken p.literals r vs ∧
        m = bindAll [] p.gaps vs := by
  have hl : p.gaps.length < p.text.length + 1 := Nat.lt_succ_of_le p.length_gaps
  rw [bindShape]
  conv => lhs; rw [Pattern.text, String.toList_ofList, Pattern.chars]
  exact bindShapeFrom_iff p.plain hl

/-! ## Writing -/

/-- What is left of a pattern after its gaps. -/
def tornChars (torn : Option { t : List Char // '\x7d' ∉ t }) : List Char := tailChars torn []

/-- The labels of some gaps, as they are bound. -/
def Bind (host : Host) (env : Env) (gs : List Gap) (xs : List (List Char)) : Prop :=
  List.Forall₂ (fun g x => byLabel g.name host env = some (String.ofList x)) gs xs

theorem instantiateFrom_iff {host : Host} {env : Env}
    {torn : Option { t : List Char // '\x7d' ∉ t }} {lit : List Char} (h : '\x7b' ∉ lit)
    {gs : List Gap} {fuel : Nat} (hf : gs.length ≤ fuel) {r : List Char} :
    instantiateFrom host env fuel (lit ++ tailChars torn gs) = .ok r ↔
      ∃ xs, Bind host env gs xs ∧ r = lit ++ Gaps.weave xs (gs.map Gap.after) ++ tornChars torn := by
  induction gs generalizing fuel lit r with
  | nil =>
      have rest : instantiateFrom host env fuel (lit ++ tailChars torn []) =
          .ok (lit ++ tailChars torn []) := by
        cases fuel with
        | zero => rfl
        | succ fuel =>
            rw [instantiateFrom]
            cases torn with
            | none =>
                rcases cut_tail none h [] with ⟨hc, -⟩ | ⟨r, -, ht⟩
                · rw [hc]
                · cases ht
            | some t =>
                have hcut : Text.cut '\x7b' (lit ++ tailChars (some t) []) = some (lit, t.val) :=
                  Text.cut_append h _
                rw [hcut]
                simp only [Text.cut_eq_none t.property]
      rw [rest]
      constructor
      · intro he
        obtain rfl := Except.ok.inj he
        exact ⟨[], .nil, by rw [Gaps.weave_nil, List.append_nil]; rfl⟩
      · rintro ⟨xs, hb, rfl⟩
        cases hb
        rw [Gaps.weave_nil, List.append_nil]
        rfl
  | cons g gs ih =>
      obtain ⟨fuel, rfl⟩ := Nat.exists_eq_succ_of_ne_zero (Nat.ne_of_gt (Nat.lt_of_lt_of_le
        (Nat.succ_pos _) hf))
      have ih := fun r => ih g.plain (Nat.le_of_succ_le_succ hf) (r := r)
      have hcut : Text.cut '\x7b' (lit ++ tailChars torn (g :: gs)) =
          some (lit, g.name ++ '\x7d' :: (g.after ++ tailChars torn gs)) := Text.cut_append h _
      have hname : Text.cut '\x7d' (g.name ++ '\x7d' :: (g.after ++ tailChars torn gs)) =
          some (g.name, g.after ++ tailChars torn gs) := Text.cut_append g.closes _
      rw [instantiateFrom, hcut]
      simp only [hname]
      cases hv : byLabel g.name host env with
      | none =>
          constructor
          · intro he
            cases he
          · rintro ⟨xs, hb, -⟩
            cases hb with
            | cons hx => exact absurd (hv.symm.trans hx) (by simp)
      | some v =>
          constructor
          · intro he
            rcases ht : instantiateFrom host env fuel (g.after ++ tailChars torn gs) with e | t
            · rw [ht] at he
              cases he
            · rw [ht] at he
              obtain rfl := Except.ok.inj he
              obtain ⟨xs, hb, rfl⟩ := (ih t).mp ht
              refine ⟨v.toList :: xs, .cons (by rw [hv, String.ofList_toList]) hb, ?_⟩
              simp only [List.map_cons, Gaps.weave_cons, List.append_assoc]
          · rintro ⟨xs, hb, rfl⟩
            cases hb with
            | @cons _ x _ xs hx hb =>
                obtain rfl := Option.some.inj (hv.symm.trans hx)
                simp only [(ih _).mpr ⟨xs, hb, rfl⟩, Except.map, List.map_cons, Gaps.weave_cons,
                  String.toList_ofList, List.append_assoc]

/-- **A pattern is written where every label is bound.** -/
theorem instantiate_iff {host : Host} {env : Env} {p : Pattern} {s : String} :
    instantiate p.text host env = .ok s ↔ ∃ xs, Bind host env p.gaps xs ∧
      s.toList = p.opening ++ Gaps.weave xs p.literals ++ tornChars p.torn := by
  have hfrom : ∀ r, instantiateFrom host env p.text.length (p.opening ++ tailChars p.torn p.gaps) =
      .ok r ↔ ∃ xs, Bind host env p.gaps xs ∧
        r = p.opening ++ Gaps.weave xs p.literals ++ tornChars p.torn :=
    fun _ => instantiateFrom_iff p.plain p.length_gaps
  have htext : p.text.toList = p.opening ++ tailChars p.torn p.gaps := String.toList_ofList ..
  rw [instantiate, htext]
  by_cases hb : runtimeBound p.text = true
  · rw [hb, if_neg (by simp)]
    constructor
    · intro he
      rcases hr : instantiateFrom host env p.text.length (p.opening ++ tailChars p.torn p.gaps) with e | r
      · rw [hr] at he
        cases he
      · rw [hr] at he
        obtain rfl := Except.ok.inj he
        rw [String.toList_ofList]
        exact (hfrom r).mp hr
    · intro h
      rw [(hfrom s.toList).mpr h, Except.map, String.ofList_toList]
  · have hno : '\x7b' ∉ p.opening ++ tailChars p.torn p.gaps := by
      rw [← htext]
      simpa [runtimeBound] using hb
    have hself : instantiateFrom host env p.text.length (p.opening ++ tailChars p.torn p.gaps) =
        .ok (p.opening ++ tailChars p.torn p.gaps) := by
      cases p.text.length with
      | zero => rfl
      | succ n => rw [instantiateFrom, Text.cut_eq_none hno]
    rw [if_pos (by simpa using hb)]
    refine Iff.trans ?_ (hfrom s.toList)
    rw [hself]
    constructor
    · intro he
      rw [← Except.ok.inj he, htext]
    · intro he
      rw [Pattern.text, Pattern.chars, Except.ok.inj he, String.ofList_toList]

/-! ## The bound names -/

/-- A name bound by a reading has the value of its last gap. -/
theorem get_bindAll_of_notMem {gs : List Gap} {vs : List (List Char)} {m : Vars} {n : List Char}
    (h : n ∉ gs.map Gap.name) : (bindAll m gs vs).get (String.ofList n) = m.get (String.ofList n) := by
  induction gs generalizing vs m with
  | nil => rfl
  | cons g gs ih =>
      rw [List.map_cons, List.mem_cons, not_or] at h
      cases vs with
      | nil => rfl
      | cons v vs =>
          have hne : String.ofList n ≠ String.ofList g.name := fun he => h.1 (String.ofList_injective he)
          rw [bindAll, ih h.2, Assoc.get_insert_ne _ _ hne]

/-- With no name twice, each gap's name has the value that was taken there. -/
theorem get_bindAll {gs : List Gap} {vs : List (List Char)} {m : Vars}
    (hd : (gs.map Gap.name).Nodup) (hl : vs.length = gs.length) :
    List.Forall₂ (fun g v => (bindAll m gs vs).get (String.ofList g.name) = some (String.ofList v))
      gs vs := by
  induction gs generalizing vs m with
  | nil =>
      obtain rfl := List.eq_nil_of_length_eq_zero hl
      exact .nil
  | cons g gs ih =>
      obtain ⟨v, vs, rfl⟩ := List.exists_cons_of_length_eq_add_one hl
      rw [List.map_cons, List.nodup_cons] at hd
      refine .cons ?_ (ih hd.2 (Nat.succ.inj hl))
      rw [bindAll, get_bindAll_of_notMem hd.1, Assoc.get_insert_self]

/-- What a gap's name is bound to was taken there or at a later gap of the name. -/
theorem get_bindAll_later {R : List Char → List Char → Prop} (hr : ∀ v, R v v) {gs : List Gap}
    {vs : List (List Char)} {m : Vars} (hp : vs.Pairwise R) (hl : vs.length = gs.length) :
    List.Forall₂ (fun g v => ∃ x, (bindAll m gs vs).get (String.ofList g.name) =
      some (String.ofList x) ∧ R v x) gs vs := by
  have mem : ∀ {gs : List Gap} {vs : List (List Char)} {m : Vars} {n : List Char},
      vs.length = gs.length → n ∈ gs.map Gap.name →
        ∃ x ∈ vs, (bindAll m gs vs).get (String.ofList n) = some (String.ofList x) := by
    intro gs
    induction gs with
    | nil => intro vs m n _ h; cases h
    | cons g gs ih =>
        intro vs m n hl h
        obtain ⟨v, vs, rfl⟩ := List.exists_cons_of_length_eq_add_one hl
        by_cases hn : n ∈ gs.map Gap.name
        · obtain ⟨x, hx, he⟩ := ih (m := m.insert (String.ofList g.name) (String.ofList v))
            (Nat.succ.inj hl) hn
          exact ⟨x, List.mem_cons_of_mem _ hx, he⟩
        · obtain rfl : n = g.name := (List.mem_cons.mp h).resolve_right hn
          exact ⟨v, List.mem_cons_self, by rw [bindAll, get_bindAll_of_notMem hn, Assoc.get_insert_self]⟩
  induction gs generalizing vs m with
  | nil =>
      obtain rfl := List.eq_nil_of_length_eq_zero hl
      exact .nil
  | cons g gs ih =>
      obtain ⟨v, vs, rfl⟩ := List.exists_cons_of_length_eq_add_one hl
      rw [List.pairwise_cons] at hp
      refine .cons ?_ (ih hp.2 (Nat.succ.inj hl))
      by_cases hn : g.name ∈ gs.map Gap.name
      · obtain ⟨x, hx, he⟩ := mem (m := m.insert (String.ofList g.name) (String.ofList v))
          (Nat.succ.inj hl) hn
        exact ⟨x, he, hp.1 x hx⟩
      · exact ⟨v, by rw [bindAll, get_bindAll_of_notMem hn, Assoc.get_insert_self], hr v⟩

/-! ## Reading what was written -/

/-- Something non-empty for each of the pattern's names. -/
def Pattern.Assigned (p : Pattern) (a : Vars) : Prop :=
  ∀ g ∈ p.gaps, ∃ v, a.get (String.ofList g.name) = some v ∧ v ≠ ""

/-- The values an assignment has for the gaps. -/
def Pattern.values (p : Pattern) (a : Vars) : List (List Char) :=
  p.gaps.map fun g => ((a.get (String.ofList g.name)).getD "").toList

/-- What an assignment writes after the pattern's opening text. -/
def Pattern.written (p : Pattern) (a : Vars) : List Char := Gaps.weave (p.values a) p.literals

/-- Wherever the pattern is written from the assignment, it reads what was
written as some assignment that writes the same. -/
def RoundTrips (p : Pattern) (a : Vars) : Prop :=
  ∀ (host : Host) (env : Env), env.controller = a → ∃ s a', instantiate p.text host env = .ok s ∧
    bindShape p.text s = some a' ∧ instantiate p.text host { env with controller := a' } = .ok s

/-- Whatever the pattern reads it writes back. -/
def Returns (p : Pattern) : Prop :=
  ∀ s a', bindShape p.text s = some a' → ∀ (host : Host) (env : Env), env.controller = a' →
    instantiate p.text host env = .ok s

/-- Every brace is closed. -/
def Pattern.Closed (p : Pattern) : Prop := p.torn = none

/-- No name is the label of a host's field. -/
def Pattern.Unhosted (p : Pattern) : Prop := ∀ g ∈ p.gaps, isHostLabel g.name = false

theorem byLabel_controller {n : List Char} {host : Host} {env : Env} {v : String}
    (h : isHostLabel n = false) (hv : env.controller.get (String.ofList n) = some v) :
    byLabel n host env = some v := by
  rw [byLabel]
  rcases hd : Text.dropPrefix "host.".toList n with _ | f
  · simp only [hv, Option.some_or]
  · rw [isHostLabel, hd] at h
    cases h

/-- A host with nothing to say. -/
def blankHost : Host where
  record := { name := "", os := "", reach := [], filesystem := false, stdinPreamble := false }
  address := ""

theorem byLabel_blank {n : List Char} {env : Env} {v : String} (h : isHostLabel n = true)
    (hv : byLabel n blankHost env = some v) : v = "" := by
  obtain ⟨f, hf⟩ := Option.isSome_iff_exists.mp h
  rw [byLabel, hf] at hv
  have hfield : ∀ {f : String}, blankHost.field f = some v → v = "" := by
    intro f hv
    rw [Host.field] at hv
    split at hv
    · exact (Option.some.inj hv).symm
    · split at hv
      · exact (Option.some.inj hv).symm
      · split at hv
        · exact (Option.some.inj hv).symm
        · cases hv
  exact hfield hv

/-- Values bound through an assignment, on a host with nothing to say, are no
longer than the assignment's; where they write as long a text, no label is the
host's. -/
theorem unhosted_of_blank {gs : List Gap} {env : Env} {xs ws : List (List Char)}
    (hb : Bind blankHost env gs xs)
    (hc : List.Forall₂ (fun g w => ∃ x, env.controller.get (String.ofList g.name) =
      some (String.ofList x) ∧ x.length ≤ w.length) gs ws)
    (hne : ∀ w ∈ ws, w ≠ []) (he : Gaps.weave xs (gs.map Gap.after) = Gaps.weave ws (gs.map Gap.after)) :
    (∀ g ∈ gs, isHostLabel g.name = false) ∧
      List.Forall₂ (fun x w => x.length = w.length) xs ws := by
  have blank : ∀ {g : Gap} {x : List Char}, isHostLabel g.name = true →
      byLabel g.name blankHost env = some (String.ofList x) → x = [] := by
    intro g x hh hx
    exact String.ofList_injective (byLabel_blank hh hx)
  have hle : List.Forall₂ (fun x w => x.length ≤ w.length) xs ws := by
    clear he hne
    induction hb generalizing ws with
    | nil => cases hc; exact .nil
    | @cons g x gs xs hx hb ih =>
        cases hc with
        | cons hw hc =>
            refine .cons ?_ (ih hc)
            obtain ⟨y, hy, hle⟩ := hw
            cases hh : isHostLabel g.name with
            | true =>
                rw [blank hh hx]
                exact Nat.zero_le _
            | false =>
                have hxy := (byLabel_controller hh hy).symm.trans hx
                exact String.ofList_injective (Option.some.inj hxy) ▸ hle
  have hlen : xs.length ≤ (gs.map Gap.after).length := by
    rw [List.length_map, hb.length_eq]
  have heq := Gaps.lengths_of_weave hle hlen (by rw [he])
  refine ⟨?_, heq⟩
  clear hle he hc hlen
  induction hb generalizing ws with
  | nil => intro g hg; cases hg
  | @cons g x gs xs hx hb ih =>
      cases heq with
      | @cons _ w _ ws hlen heq =>
          intro g' hg'
          rcases List.mem_cons.mp hg' with rfl | hg'
          · refine Bool.eq_false_iff.mpr fun hh => hne w List.mem_cons_self ?_
            rw [blank hh hx] at hlen
            exact List.eq_nil_of_length_eq_zero hlen.symm
          · exact ih (fun w hw => hne w (List.mem_cons_of_mem _ hw)) heq g' hg'

/-- What an assignment binds the gaps to. -/
theorem bind_values {p : Pattern} {a : Vars} (hu : p.Unhosted) (ha : p.Assigned a) {host : Host}
    {env : Env} (he : env.controller = a) : Bind host env p.gaps (p.values a) := by
  rw [Bind, Pattern.values, List.forall₂_map_right_iff]
  refine List.forall₂_same.mpr fun g hg => ?_
  obtain ⟨v, hv, -⟩ := ha g hg
  rw [hv, Option.getD_some, String.ofList_toList]
  exact byLabel_controller (hu g hg) (he ▸ hv)

theorem Bind.unique {host : Host} {env : Env} {gs : List Gap} {xs ys : List (List Char)}
    (hx : Bind host env gs xs) (hy : Bind host env gs ys) : xs = ys := by
  induction hx generalizing ys with
  | nil => cases hy; rfl
  | cons hx _ ih =>
      cases hy with
      | cons hy hys => rw [String.ofList_injective (Option.some.inj (hx.symm.trans hy)), ih hys]

theorem Bind.nodup {host : Host} {env : Env} {gs : List Gap} {xs : List (List Char)}
    (h : Bind host env gs xs) (hx : xs.Nodup) : (gs.map Gap.name).Nodup := by
  induction h with
  | nil => exact .nil
  | @cons g x gs xs hg h ih =>
      rw [List.nodup_cons] at hx
      refine List.nodup_cons.mpr ⟨fun hm => hx.1 ?_, ih hx.2⟩
      clear ih hx
      induction h with
      | nil => cases hm
      | @cons g' y gs xs hy _ ih =>
          rcases List.mem_cons.mp hm with hn | hm
          · rw [hn] at hg
            rw [String.ofList_injective (Option.some.inj (hg.symm.trans hy))]
            exact List.mem_cons_self
          · exact List.mem_cons_of_mem _ (ih hm)

/-- What a reading bound the gaps to. -/
theorem bind_taken {p : Pattern} {r : List Char} {ws : List (List Char)} (hu : p.Unhosted)
    (hd : p.Distinct) (ht : Gaps.Taken p.literals r ws) {host : Host} {env : Env}
    (he : env.controller = bindAll [] p.gaps ws) : Bind host env p.gaps ws := by
  have hl : ws.length = p.gaps.length := by rw [ht.length, Pattern.literals, List.length_map]
  have hb := get_bindAll (m := []) hd hl
  refine List.forall₂_iff_get.mpr ⟨hb.length_eq, fun i hi hi' => ?_⟩
  exact byLabel_controller (hu _ (List.get_mem ..)) (he ▸ (List.forall₂_iff_get.mp hb).2 i hi hi')

/-- **What was written is read back exactly where no literal comes too early.** -/
theorem roundTrips_iff {p : Pattern} {a : Vars} (hd : p.Distinct) (hs : p.Separated)
    (ha : p.Assigned a) :
    RoundTrips p a ↔ p.Closed ∧ p.Unhosted ∧ Gaps.Clear p.literals (p.written a) := by
  have hne : ∀ v ∈ p.values a, v ≠ [] := by
    intro v hv
    obtain ⟨g, hg, rfl⟩ := List.mem_map.mp hv
    obtain ⟨v, hv, hne⟩ := ha g hg
    rw [hv, Option.getD_some]
    exact fun h => hne (String.toList_eq_nil_iff.mp h)
  have hlen : (p.values a).length = p.literals.length := by
    rw [Pattern.values, Pattern.literals, List.length_map, List.length_map]
  have hiff := Gaps.taken_iff hs hlen hne
  constructor
  · intro h
    obtain ⟨s, a', hi, hb, hi'⟩ := h blankHost { params := [], outputs := [], controller := a } rfl
    obtain ⟨hc, r, ws, hr, ht, rfl⟩ := bindShape_iff.mp hb
    obtain ⟨xs, hxs, hsx⟩ := instantiate_iff.mp hi'
    have htorn : tornChars p.torn = [] := by rw [hc]; rfl
    have hweave : Gaps.weave xs p.literals = Gaps.weave ws p.literals := by
      rw [htorn, List.append_nil, hr] at hsx
      rw [ht.weave, List.append_cancel_left hsx]
    have hl : ws.length = p.gaps.length := by rw [ht.length, Pattern.literals, List.length_map]
    have hbind : List.Forall₂ (fun g w => ∃ x, (bindAll [] p.gaps ws).get (String.ofList g.name) =
        some (String.ofList x) ∧ x.length ≤ w.length) p.gaps ws :=
      (get_bindAll hd hl).imp fun _ w hg => ⟨w, hg, Nat.le_refl _⟩
    obtain ⟨hu, -⟩ := unhosted_of_blank hxs hbind ht.ne_nil hweave
    obtain ⟨ys, hys, hsy⟩ := instantiate_iff.mp hi
    rw [htorn, List.append_nil, hr, hys.unique (bind_values hu ha rfl)] at hsy
    exact ⟨hc, hu, hiff.mp ⟨ws, List.append_cancel_left hsy ▸ ht⟩⟩
  · rintro ⟨hc, hu, hclear⟩ host env he
    obtain ⟨ws, ht⟩ := hiff.mpr hclear
    have htorn : tornChars p.torn = [] := by rw [hc]; rfl
    refine ⟨String.ofList (p.opening ++ p.written a), bindAll [] p.gaps ws, ?_, ?_, ?_⟩
    · refine instantiate_iff.mpr ⟨p.values a, bind_values hu ha he, ?_⟩
      rw [htorn, List.append_nil, String.toList_ofList, Pattern.written]
    · exact bindShape_iff.mpr ⟨hc, _, ws, String.toList_ofList, ht, rfl⟩
    · refine instantiate_iff.mpr ⟨ws, bind_taken hu hd ht rfl, ?_⟩
      rw [htorn, List.append_nil, String.toList_ofList, ht.weave, Pattern.written]

/-! ## Writing what was read -/

/-- A symbol the literal does not start with. -/
def other (l : List Char) : Char := if l.head? = some 'a' then 'b' else 'a'

theorem head?_ne_other (l : List Char) : l.head? ≠ some (other l) := by
  unfold other
  split
  next h => rw [h]; simp
  next h => exact h

/-- A value for each literal, read as it is, each shorter than the one before. -/
def sample : List (List Char) → List (List Char)
  | [] => []
  | l :: ls => List.replicate (ls.length + 1) (other l) :: sample ls

theorem sample_apart (ls : List (List Char)) : List.Forall₂ Gaps.Apart (sample ls) ls := by
  induction ls with
  | nil => exact .nil
  | cons l ls ih =>
      refine .cons ⟨by simp, fun c hc => ?_⟩ ih
      rw [List.eq_of_mem_replicate hc]
      exact head?_ne_other l

theorem length_sample (ls : List (List Char)) :
    (sample ls).Pairwise fun v w => w.length < v.length := by
  have bound : ∀ (ls : List (List Char)), ∀ v ∈ sample ls, v.length ≤ ls.length := by
    intro ls
    induction ls with
    | nil => intro v hv; cases hv
    | cons l ls ih =>
        intro v hv
        rcases List.mem_cons.mp hv with rfl | hv
        · simp
        · exact Nat.le_succ_of_le (ih v hv)
  induction ls with
  | nil => exact .nil
  | cons l ls ih =>
      refine List.pairwise_cons.mpr ⟨fun w hw => ?_, ih⟩
      rw [List.length_replicate]
      exact Nat.lt_succ_of_le (bound ls w hw)

/-- **What is read is written back exactly where no name stands twice and none
is the host's**, unless the pattern reads nothing at all. -/
theorem returns_iff {p : Pattern} :
    Returns p ↔ (p.Closed → p.Separated → p.Distinct ∧ p.Unhosted) := by
  constructor
  · intro h hc hs
    have ht := Gaps.Taken.of_apart hs (sample_apart p.literals)
    have hl : (sample p.literals).length = p.gaps.length := by
      rw [ht.length, Pattern.literals, List.length_map]
    have hb : bindShape p.text (String.ofList (p.opening ++ Gaps.weave (sample p.literals) p.literals)) =
        some (bindAll [] p.gaps (sample p.literals)) :=
      bindShape_iff.mpr ⟨hc, _, _, String.toList_ofList, ht, rfl⟩
    obtain ⟨xs, hxs, hsx⟩ := instantiate_iff.mp (h _ _ hb blankHost
      { params := [], outputs := [], controller := bindAll [] p.gaps (sample p.literals) } rfl)
    have htorn : tornChars p.torn = [] := by rw [hc]; rfl
    have hweave : Gaps.weave xs p.literals = Gaps.weave (sample p.literals) p.literals := by
      rw [htorn, List.append_nil, String.toList_ofList] at hsx
      exact (List.append_cancel_left hsx).symm
    have hlater := get_bindAll_later (R := fun v w => w.length ≤ v.length) (m := [])
      (fun _ => Nat.le_refl _) ((length_sample p.literals).imp fun h => Nat.le_of_lt h) hl
    obtain ⟨hu, hlen⟩ := unhosted_of_blank hxs hlater ht.ne_nil hweave
    have hlens : xs.map List.length = (sample p.literals).map List.length := by
      rw [← List.forall₂_eq_eq_eq, List.forall₂_map_left_iff, List.forall₂_map_right_iff]
      exact hlen
    have hnodup : (xs.map List.length).Nodup := by
      rw [hlens]
      exact List.pairwise_map.mpr ((length_sample p.literals).imp fun h => Nat.ne_of_gt h)
    exact ⟨hxs.nodup (List.Nodup.of_map _ hnodup), hu⟩
  · intro h s a' hb host env he
    obtain ⟨hc, r, ws, hr, ht, rfl⟩ := bindShape_iff.mp hb
    obtain ⟨hd, hu⟩ := h hc ht.separated
    refine instantiate_iff.mpr ⟨ws, bind_taken hu hd ht he, ?_⟩
    have htorn : tornChars p.torn = [] := by rw [hc]; rfl
    rw [htorn, List.append_nil, ht.weave, hr]

/-- **Reading and writing agree exactly so far.**  Every text is a pattern.  With
distinct names, literal text between the gaps and something for every name, what
is written is read back where every brace is closed, no name is a host's field
and no literal comes too early in what was written.  And a pattern writes back
whatever it reads where, if it reads anything, no name stands twice and none is
a host's field. -/
theorem bind_instantiate_iff (p : Pattern) :
    (∀ s : String, ∃ q : Pattern, q.text = s) ∧
    (∀ a, p.Distinct → p.Separated → p.Assigned a →
      (RoundTrips p a ↔ p.Closed ∧ p.Unhosted ∧ Gaps.Clear p.literals (p.written a))) ∧
    (Returns p ↔ (p.Closed → p.Separated → p.Distinct ∧ p.Unhosted)) :=
  ⟨Pattern.exists_text, fun _ hd hs ha => roundTrips_iff hd hs ha, returns_iff⟩

/-- `guest:` a name `:up`. -/
def upPattern : Pattern where
  opening := "guest:".toList
  gaps := [⟨['g'], ":up".toList, by decide, by decide⟩]
  torn := none
  plain := by decide

/-- The name holds the text after it. -/
def upName : Vars := [("g", "a:up")]

/-- The value holds what closes the pattern: the shape is not read, though the
pattern's literal text fits it. -/
theorem hidden_fit : upPattern.Distinct ∧ upPattern.Separated ∧ upPattern.Assigned upName ∧
    instantiate upPattern.text blankHost { params := [], outputs := [], controller := upName } =
      .ok "guest:a:up:up" ∧
    bindShape upPattern.text "guest:a:up:up" = none ∧ ¬ RoundTrips upPattern upName := by
  have hi : instantiate upPattern.text blankHost
      { params := [], outputs := [], controller := upName } = .ok "guest:a:up:up" := by
    decide +kernel
  have hb : bindShape upPattern.text "guest:a:up:up" = none := by decide +kernel
  refine ⟨?_, ?_, ?_, hi, hb, fun h => ?_⟩
  · exact List.nodup_singleton _
  · intro l hl
    cases hl
  · intro g hg
    obtain rfl := List.mem_singleton.mp hg
    exact ⟨"a:up", by decide +kernel, by decide⟩
  · obtain ⟨s, a', hs, hbs, -⟩ := h blankHost
      { params := [], outputs := [], controller := upName } rfl
    obtain rfl := Except.ok.inj (hi.symm.trans hs)
    rw [hb] at hbs
    cases hbs

end Rescind.Shape
