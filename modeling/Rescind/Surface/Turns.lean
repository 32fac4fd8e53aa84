/-
# `Rescind.Surface.Turns` — where the parser goes on, and where it does not

A quieted error takes nothing.  Where the loop over the top of the file, or the one
over a header, comes to a token nothing starts with while the parser is quieted, it
comes to it again, at any depth.  Everywhere else each turn of each loop takes a token,
and a depth of a few calls for each token is enough.

**Proved here.**

    what a quieted argument takes               (`takes_arg`, `idle_arg`)
    a dead turn is the last there is                          (`doomed_run`)

That the parser ends where no turn is dead is `Rescind.Surface.Depth`.
-/
import Rescind.Surface.Descent

namespace Rescind.Surface

/-! ## Dead turns -/

/-- An operand starts with it. -/
def Token.begins (t : Token) : Bool :=
  t.closed || [.int, .float, .atom, .duration, .name, .upperName, .lParen, .lBrack,
    .percentBrace, .minus].any fun k => t.kind = k

/-- It stands between two operands. -/
def Token.between (t : Token) : Bool :=
  [.star, .slash, .percent, .plus, .lt, .le, .gt, .ge, .eqEq, .bangEq].any fun k => t.kind = k

/-- A keyword of the top of the file. -/
def Token.isTop (t : Token) : Bool := (defs ++ ["site", "import"]).any t.isName

/-- Nothing starts with it there; `k` is the kind of the token after it. -/
def Token.strange (header : Bool) (t : Token) (k : Option SyntaxKind) : Prop :=
  if header = true then t.kind ≠ .comma ∧ t.begins = false ∧ t.between = false ∧
    ¬(t.kind = .string ∧ k = some .colon)
  else t.isTop = false

/-- The parser is quieted, at a token nothing starts with. -/
def Turn.Dead (t : Turn) : Prop :=
  t.suppress = true ∧ ∃ tok, (significant t.rest).head? = some tok ∧ tok.kind ≠ .newline ∧
    tok.strange t.header ((significant t.rest)[1]?.map Token.kind)

instance (header : Bool) (t : Token) (k : Option SyntaxKind) : Decidable (t.strange header k) :=
  inferInstanceAs (Decidable (if header = true then _ else _))

instance (t : Turn) : Decidable t.Dead :=
  decidable_of_iff (t.suppress = true ∧ (significant t.rest).head?.any fun tok =>
      tok.kind ≠ .newline ∧ tok.strange t.header ((significant t.rest)[1]?.map Token.kind)) <| by
    unfold Turn.Dead
    rw [Option.any_eq_true]
    simp only [decide_eq_true_eq]

/-! ## Taking, and idling -/

def Parser.left (p : Parser) : Nat := p.rest.length

section
variable {p q : Parser} {go : Calls} {α β : Type} {m : M α} {f : α → M β} {k : SyntaxKind}

/-- It takes a token, if it ends. -/
def Takes (m : M α) (p : Parser) : Prop := (m p).1.isSome = true → (m p).2.left < p.left

/-- It takes no more than trivia, if it ends. -/
def Idle (m : M α) (p : Parser) : Prop := (m p).1.isSome = true → (m p).2.view = p.view

theorem Grows.left (h : Grows p q) : q.left ≤ p.left := by
  have h₁ := congrArg List.length h.tokens
  have h₂ := h.done.length_le
  simp only [List.length_append] at h₁
  unfold Parser.left
  omega

theorem left_eatTrivia (p : Parser) : p.eatTrivia.left ≤ p.left := (grows_eatTrivia p).left

theorem significant_eatTrivia (p : Parser) : significant p.eatTrivia.rest = significant p.rest := by
  show significant (p.rest.dropWhile Token.isTrivia) = significant p.rest
  induction p.rest with
  | nil => rfl
  | cons t ts ih =>
      by_cases ht : t.isTrivia = true
      · rw [List.dropWhile_cons_of_pos ht, ih]
        simp [significant, ht]
      · rw [List.dropWhile_cons_of_neg ht]

theorem view_eatTrivia (p : Parser) : p.eatTrivia.view = p.view :=
  Prod.ext (congrArg (List.map Token.seen) (significant_eatTrivia p)) rfl

theorem takes_bump {t : Token} (h : p.peek = some t) : Takes bump p := by
  intro _
  have hp : p.eatTrivia.peek = some t := by
    unfold Parser.peek
    rw [significant_eatTrivia]
    exact h
  refine Nat.lt_of_lt_of_le ?_ (left_eatTrivia p)
  show p.eatTrivia.take.left < p.eatTrivia.left
  unfold Parser.take Parser.left
  split
  next hr =>
    unfold Parser.peek at hp
    rw [hr] at hp
    cases hp
  next t ts hr =>
    rw [hr]
    exact Nat.lt_succ_self _

/-- Both halves of a sequence. -/
theorem bind_ended (h : ((m >>= f) p).1.isSome = true) :
    ∃ a q, m p = (some a, q) ∧ (m >>= f) p = f a q ∧ (f a q).1.isSome = true := by
  rcases hp : m p with ⟨_ | a, q⟩
  · rw [bind_none hp] at h
    cases h
  · have he : (m >>= f) p = f a q := bind_some hp
    exact ⟨a, q, rfl, he, he ▸ h⟩

theorem Takes.bind (hm : Takes m p) (hf : ∀ a, Keeps (f a)) : Takes (m >>= f) p := by
  intro h
  obtain ⟨a, q, hq, he, -⟩ := bind_ended h
  rw [he]
  have hlt : q.left < p.left := by
    have := hm (by rw [hq]; rfl)
    rwa [hq] at this
  exact Nat.lt_of_le_of_lt (hf a q).left hlt

theorem Idle.bind (hm : Idle m p) (hf : ∀ a q, q.view = p.view → Idle (f a) q) :
    Idle (m >>= f) p := by
  intro h
  obtain ⟨a, q, hq, he, hs⟩ := bind_ended h
  have hv : q.view = p.view := by
    have := hm (by rw [hq]; rfl)
    rwa [hq] at this
  rw [he]
  exact (hf a q hv hs).trans hv

/-- The first half takes nothing, the second a token. -/
theorem Idle.takes (hm : Idle m p) (hk : Keeps m) (hf : ∀ a q, q.view = p.view → Takes (f a) q) :
    Takes (m >>= f) p := by
  intro h
  obtain ⟨a, q, hq, he, hs⟩ := bind_ended h
  have hv : q.view = p.view := by
    have := hm (by rw [hq]; rfl)
    rwa [hq] at this
  have hle : q.left ≤ p.left := by
    have := (hk p).left
    rwa [hq] at this
  rw [he]
  exact Nat.lt_of_lt_of_le (hf a q hv hs) hle

theorem Takes.node (h : Takes m { p.eatTrivia with children := [] }) : Takes (node k m) p :=
  fun hs => Nat.lt_of_lt_of_le (h hs) (left_eatTrivia p)

theorem Takes.frame (h : Takes m { p.eatTrivia with children := [] }) : Takes (frame m) p :=
  fun hs => Nat.lt_of_lt_of_le (h hs) (left_eatTrivia p)

theorem Takes.wrap (h : Takes m p) : Takes (wrap k m) p := fun hs => h hs

theorem Idle.frame (h : Idle m { p.eatTrivia with children := [] }) : Idle (frame m) p :=
  fun hs => (h hs).trans (view_eatTrivia p)

theorem Idle.pure (a : α) (p : Parser) : Idle (Pure.pure a : M α) p := fun _ => rfl

/-! ## What is ahead in an open node -/

/-- The parser in a node it has just opened. -/
def Parser.inner (p : Parser) : Parser := { p.eatTrivia with children := [] }

theorem view_inner (p : Parser) : p.inner.view = p.view := view_eatTrivia p

theorem peek_inner (p : Parser) : p.inner.peek = p.peek :=
  congrArg List.head? (significant_eatTrivia p)

theorem peek_of_kind {k : SyntaxKind} (h : p.kind = some k) :
    ∃ t, p.peek = some t ∧ t.kind = k := by
  obtain ⟨t, ht, hk⟩ := Option.map_eq_some_iff.mp h
  exact ⟨t, ht, hk⟩

theorem takes_bump_of_kind {k : SyntaxKind} (h : p.kind = some k) : Takes bump p := by
  obtain ⟨t, ht, -⟩ := peek_of_kind h
  exact takes_bump ht

/-! ## Branches -/

theorem takes_pos {g : Parser → Bool} {m m' : M α} (hg : g p = true) (h : Takes m p) :
    Takes (do if ← look g then m else m') p := by
  show Takes (if g p = true then m else m') p
  rw [if_pos hg]
  exact h

theorem takes_neg {g : Parser → Bool} {m m' : M α} (hg : g p = false) (h : Takes m' p) :
    Takes (do if ← look g then m else m') p := by
  show Takes (if g p = true then m else m') p
  rw [if_neg (by rw [hg]; exact Bool.false_ne_true)]
  exact h

theorem idle_neg {g : Parser → Bool} {m m' : M α} (hg : g p = false) (h : Idle m' p) :
    Idle (do if ← look g then m else m') p := by
  show Idle (if g p = true then m else m') p
  rw [if_neg (by rw [hg]; exact Bool.false_ne_true)]
  exact h

theorem takes_chain {g : Parser → Bool} {next again : M Unit} {k : SyntaxKind} (hg : g p = true)
    (hk : p.kind = some k) (hn : Keeps next) (ha : Keeps again) :
    Takes (chain (look g) next again) p :=
  takes_pos hg ((((takes_bump_of_kind hk).bind fun _ => hn).wrap).bind fun _ => ha)

theorem idle_chain {g : Parser → Bool} {next again : M Unit} (hg : g p = false) :
    Idle (chain (look g) next again) p :=
  idle_neg hg (.pure _ _)

/-! ## Errors -/

theorem idle_error {expected context : String} (hs : p.suppress = true) :
    Idle (error expected context) p := by
  intro _
  show ((if p.suppress = true then pure () else _ : M Unit) p).2.view = p.view
  rw [if_pos hs]
  rfl

theorem takes_toNewline (n : Nat) {k : SyntaxKind} (hk : p.kind = some k) (hn : k ≠ .newline) :
    Takes (toNewline (n + 1)) p := by
  have hb : Takes (do
      bump
      toNewline n) p := (takes_bump_of_kind hk).bind fun _ => keeps_toNewline n
  unfold Takes at hb ⊢
  rw [toNewline_bump n hk hn]
  exact hb

theorem takes_error {expected context : String} {k : SyntaxKind} (hs : p.suppress = false)
    (hk : p.kind = some k) (hn : k ≠ .newline) : Takes (error expected context) p := by
  let p' : Parser := { p.report "E0101" p.peekIndex expected (foundText p.peek)
    ("parse error " ++ context) with suppress := true }
  have hkind : p'.inner.kind = some k := (kind_of_view (view_inner p')).trans hk
  have hnode : Takes (node .error (fun p => toNewline p.rest.length p)) p' := by
    refine .node ?_
    show Takes (toNewline p'.inner.rest.length) p'.inner
    obtain ⟨t, ht, -⟩ := peek_of_kind hkind
    cases hr : p'.inner.rest with
    | nil =>
        unfold Parser.peek at ht
        rw [hr] at ht
        cases ht
    | cons u us => exact takes_toNewline us.length hkind hn
  show Takes (if p.suppress = true then pure () else _ : M Unit) p
  rw [if_neg (by rw [hs]; exact Bool.false_ne_true)]
  exact hnode

/-! ## Operands -/

/-- What starts by taking a token takes one. -/
theorem Led.goes {go' : Calls} {m' : M α} (h : Led go go' m m') (hgo : ∀ r, Keeps (go r))
    {t : Token} (ht : p.peek = some t) : Takes m p := by
  induction h generalizing p with
  | bump => exact takes_bump ht
  | bind _ hf ih => exact (ih ht).bind fun a => (hf a).grows hgo
  | look _ _ ih => exact ih _ ht
  | node _ _ ih => exact (ih ((peek_inner p).trans ht)).node
  | frame _ ih => exact (ih ((peek_inner p).trans ht)).frame
  | wrap _ _ ih => exact (ih ht).wrap

theorem Led.takes (h : Leads go m) (hgo : ∀ r, Keeps (go r)) {t : Token} (ht : p.peek = some t) :
    Takes m p := h.goes hgo ht

theorem takes_operand (hgo : ∀ r, Keeps (go r)) {t : Token} (ht : p.peek = some t)
    (h : t.begins = true ∧ t.kind ≠ .minus ∨ p.suppress = false ∧ t.kind ≠ .newline) :
    Takes (operand go (some t.kind)) p := by
  have hk : p.kind = some t.kind := congrArg (Option.map Token.kind) ht
  unfold operand
  split
  next he =>
    by_cases hc : t.closed = true
    · exact takes_pos (by rw [ht]; exact hc) (leads_literal.takes hgo ht)
    · refine takes_neg (by rw [ht]; simpa using hc) ?_
      rcases h with ⟨hb, -⟩ | ⟨hs, hn⟩
      · simp [Token.begins, hc, Option.some.inj he] at hb
      · exact takes_error hs hk hn
  iterate 4 exact leads_literal.takes hgo ht
  next =>
    by_cases hb : (p.atName "true" || p.atName "false") = true
    · exact takes_pos hb (leads_literal.takes hgo ht)
    · exact takes_neg (by simpa using hb) (leads_reference.takes hgo ht)
  next => exact .node (takes_bump ((peek_inner p).trans ht))
  next => exact leads_paren.takes hgo ht
  next => exact leads_list.takes hgo ht
  next => exact leads_record.takes hgo ht
  all_goals
    rcases h with ⟨hb, hm⟩ | ⟨hs, hn⟩
    · exfalso
      simp_all [Token.begins, Token.closed]
    · exact takes_error hs hk hn

/-- A quieted parser leaves what no operand starts with. -/
theorem idle_operand {t : Token} (ht : p.peek = some t) (hs : p.suppress = true)
    (hb : t.begins = false) : Idle (operand go (some t.kind)) p := by
  unfold operand
  split
  next =>
    refine idle_neg ?_ (idle_error hs)
    rw [ht]
    simp only [Token.begins, Bool.or_eq_false_iff] at hb
    exact hb.1
  all_goals first
    | exact idle_error hs
    | (exfalso
       simp_all [Token.begins, Token.closed])

end

/-! ## Expressions -/

section
variable {p q : Parser} {go : Calls} {t : Token}

theorem any_at (ht : p.peek = some t) (ks : List SyntaxKind) :
    ks.any p.at_ = ks.any fun k => t.kind = k := by
  refine congrArg (List.any ks) (funext fun k => ?_)
  show decide (p.peek.map Token.kind = some k) = decide (t.kind = k)
  rw [ht]
  exact decide_eq_decide.mpr Option.some_inj

theorem peek_of_view (h : q.view = p.view) (ht : p.peek = some t) :
    ∃ u, q.peek = some u ∧ u.seen = t.seen := by
  have hv : q.peek.map Token.seen = p.peek.map Token.seen := seen_of_view h
  rw [ht] at hv
  obtain ⟨u, hu, he⟩ := Option.map_eq_some_iff.mp hv
  exact ⟨u, hu, he⟩

theorem kind_of_seen {u : Token} (h : u.seen = t.seen) : u.kind = t.kind := by
  rw [← kind_seen u, h, kind_seen]

theorem begins_of_seen {u : Token} (h : u.seen = t.seen) : u.begins = t.begins := by
  unfold Token.begins
  rw [← closed_seen u, h, closed_seen, kind_of_seen h]

theorem suppress_of_view (h : q.view = p.view) : q.suppress = p.suppress := congrArg Prod.snd h

/-- The parser goes on here: an operand starts, or it is not quieted and not at the end
of a line. -/
def Parser.GoesOn (p : Parser) (t : Token) : Prop :=
  t.begins = true ∨ p.suppress = false ∧ t.kind ≠ .newline

theorem takes_unary (hgo : ∀ r, Keeps (go r)) (ht : p.peek = some t) (h : p.GoesOn t) :
    Takes (unary go) p := by
  by_cases hm : p.at_ .minus = true
  · have hl : Leads go (node .unary do
        bump
        go .unary) := .node (by decide) (.bind .bump fun _ => .call _ rfl)
    exact takes_pos hm (hl.takes hgo ht)
  · refine takes_neg (by simpa using hm) ?_
    have hk : p.kind = some t.kind := congrArg (Option.map Token.kind) ht
    have hmin : t.kind ≠ .minus := fun he => hm (decide_eq_true (hk.trans (congrArg some he)))
    show Takes (operand go p.kind) p
    rw [hk]
    exact takes_operand hgo ht (h.imp (fun hb => ⟨hb, hmin⟩) id)

theorem idle_unary (ht : p.peek = some t) (hs : p.suppress = true) (hb : t.begins = false) :
    Idle (unary go) p := by
  have hk : p.kind = some t.kind := congrArg (Option.map Token.kind) ht
  have hm : p.at_ .minus = false := by
    refine decide_eq_false fun he => ?_
    have hmin : t.kind = .minus := Option.some.inj (hk.symm.trans he)
    simp [Token.begins, hmin] at hb
  refine idle_neg hm ?_
  show Idle (operand go p.kind) p
  rw [hk]
  exact idle_operand ht hs hb

theorem takes_postfixed (hgo : ∀ r, Keeps (go r)) (ht : p.peek = some t) (hs : p.suppress = false)
    (hn : t.kind ≠ .newline) : Takes (postfix_ go) p := by
  have hk : p.kind = some t.kind := congrArg (Option.map Token.kind) ht
  show Takes (operand go p.kind) p
  rw [hk]
  exact takes_operand hgo ht (.inr ⟨hs, hn⟩)

/-! ## Statements -/

theorem takes_stepOrPipeline (hgo : ∀ r, Keeps (go r)) (ht : p.peek = some t)
    (hs : p.suppress = false) (hn : t.kind ≠ .newline) : Takes (stepOrPipeline go) p := by
  have hpost : Takes (postfix_ go) p.inner.inner :=
    takes_postfixed hgo ((peek_inner p.inner).trans ((peek_inner p).trans ht)) hs hn
  have hstep : Takes (step go) p.inner :=
    .node (hpost.bind fun _ => keeps_bind (hgo _) fun _ => built_asName.keeps hgo)
  refine (Takes.frame (hstep.bind fun _ => ?_)).bind fun _ => keeps_expectNewline _
  exact (built_whenAt (sights_at rfl) (.wrap (by decide) (.call _ rfl))).keeps hgo

/-- A statement takes a token where the parser is not quieted. -/
theorem takes_stmt (hgo : ∀ r, Keeps (go r)) (ht : p.peek = some t) (hs : p.suppress = false)
    (hn : t.kind ≠ .newline) : Takes (stmt go) p := by
  have hk : p.kind = some t.kind := congrArg (Option.map Token.kind) ht
  have branch : ∀ {g : Parser → Bool} {m m' : M Unit}, Takes m p → Takes m' p →
      Takes (do if ← look g then m else m') p := fun {g m m'} h h' => by
    by_cases hg : g p = true
    · exact takes_pos hg h
    · exact takes_neg (by simpa using hg) h'
  have leads : ∀ {m : M Unit}, Leads go m → Takes m p := fun h => h.takes hgo ht
  refine takes_neg (by unfold Parser.atEof; rw [ht]; rfl) (branch (leads leads_contribution) ?_)
  show Takes (if (!p.at_ .name) = true then _ else _) p
  split
  · exact (takes_error hs hk hn).bind fun _ => keeps_bumpNewline
  · refine branch (leads leads_block) (branch (leads leads_knell) (branch (leads leads_slot) ?_))
    refine branch (leads leads_observe) (branch (leads leads_assert) ?_)
    refine branch (leads leads_repeat) (branch (leads leads_when) ?_)
    exact branch (takes_stepOrPipeline hgo ht hs hn) (leads leads_line)

/-- A statement that took nothing was quieted, and the ERROR node it is stepped over
with is on the line of what quieted it. -/
theorem grows_statement (hgo : ∀ r, Keeps (go r)) (hstmt : p.suppress = false → Takes (go .stmt) p) :
    Grows p (statement go p).2 := by
  show Grows p ((go .stmt >>= fun _ =>
    whenAt (fun q => decide (q.done.length = p.done.length)) (node .error bump)) p).2
  have hs := hgo .stmt p
  refine grows_bind hs fun a q he => ?_
  rw [he] at hs
  show Grows q ((if decide (q.done.length = p.done.length) = true then node .error bump
    else pure () : M Unit) q).2
  split
  next hd =>
    have hdone : q.done = p.done := (hs.done.eq_of_length (of_decide_eq_true hd).symm).symm
    refine grows_errorNode keeps_bump (hs.quiet hdone ?_)
    by_contra hp
    have htake := hstmt (by simpa using hp)
    rw [Takes, he] at htake
    have hlen := congrArg List.length hs.tokens
    rw [hdone, List.length_append, List.length_append] at hlen
    exact absurd (htake rfl) (by unfold Parser.left; omega)
  next => exact .refl q

/-! ## Every call keeps the tree -/

theorem keeps_if {α : Type} {g : Parser → Bool} {m m' : M α} (h : ∀ p, g p = true → Grows p (m p).2)
    (h' : ∀ p, g p = false → Grows p (m' p).2) : Keeps (do if ← look g then m else m') := by
  intro p
  show Grows p ((if g p = true then m else m') p).2
  split
  next hg => exact h p hg
  next hg => exact h' p (by simpa using hg)

theorem keeps_statements (hgo : ∀ r, Keeps (go r))
    (hstmt : ∀ p t, p.peek = some t → t.kind ≠ .newline → p.suppress = false →
      Takes (go .stmt) p) : Keeps (statements go) := by
  refine keeps_if (fun _ _ => .refl _) fun p hend => ?_
  show Grows p ((if p.at_ .newline = true then _ else _ : M Unit) p).2
  split
  · exact keeps_bind keeps_bump (fun _ => hgo _) p
  next hline =>
    show Grows p ((if (defs ++ ["import", "site"]).any p.atName = true then _ else _ : M Unit) p).2
    split
    · exact keeps_missingEnd _ p
    · simp only [Bool.or_eq_false_iff] at hend
      obtain ⟨t, ht⟩ := Option.isSome_iff_exists.mp (by simpa [Parser.atEof] using hend.1.1)
      have hn : t.kind ≠ .newline := fun hk => hline (by simp [Parser.at_, Parser.kind, ht, hk])
      exact grows_bind (grows_statement hgo (hstmt p t ht hn)) fun _ q _ => hgo _ q

theorem grows_turn (header : Bool) : Keeps (turn header) := fun _ =>
  ⟨rfl, List.prefix_refl _, fun _ h => h, List.prefix_refl _, List.prefix_append _ _, fun _ h => h,
    fun h => h⟩

theorem keeps_loop {header : Bool} {f : Parser → Bool} {m again : M Unit} (hm : Keeps m)
    (ha : Keeps again) : Keeps (do
      turn header
      unlessAt f do
        m
        again) :=
  keeps_bind (grows_turn header) fun _ => keeps_if (fun _ _ => .refl _) fun _ _ =>
    keeps_bind hm (fun _ => ha) _

theorem keeps_rule (hgo : ∀ r, Keeps (go r))
    (hstmt : ∀ p t, p.peek = some t → t.kind ≠ .newline → p.suppress = false →
      Takes (go .stmt) p) (r : Rule) : Keeps (rule go r) :=
  @rule_cases go go (fun m _ => Keeps m) (keeps_loop (keeps_top hgo) (hgo _))
    (keeps_loop (built_headerPart.keeps hgo) (hgo _)) (keeps_statements hgo hstmt)
    (keeps_stmt hgo) (keeps_dots hgo) (fun _ _ h => h.grows hgo) r

/-- Every call grows the tree. -/
theorem keeps_run (n : Nat) (r : Rule) : Keeps (run n r) := by
  induction n using Nat.strongRecOn generalizing r with
  | ind n ih =>
      cases n with
      | zero => exact .refl
      | succ n =>
          refine keeps_rule (ih n (Nat.lt_succ_self n)) (fun p t ht hn hs => ?_) r
          cases n with
          | zero => exact fun h => absurd h Bool.false_ne_true
          | succ n => exact takes_stmt (ih n (by omega)) ht hs hn

end

/-! ## What a quieted argument takes -/

/-- The parser is quieted, and no operand starts. -/
structure Parser.Quiet (p : Parser) (t : Token) : Prop where
  peek : p.peek = some t
  suppress : p.suppress = true
  begins : t.begins = false

section
variable {p q : Parser} {t : Token} {n : Nat} {r : Rule} {α : Type}

theorem Parser.Quiet.of_view (h : p.Quiet t) (hv : q.view = p.view) :
    ∃ u, q.Quiet u ∧ u.kind = t.kind := by
  obtain ⟨u, hu, he⟩ := peek_of_view hv h.peek
  exact ⟨u, ⟨hu, (suppress_of_view hv).trans h.suppress, (begins_of_seen he).trans h.begins⟩,
    kind_of_seen he⟩

theorem Parser.Quiet.inner (h : p.Quiet t) : p.inner.Quiet t :=
  ⟨(peek_inner p).trans h.peek, h.suppress, h.begins⟩

theorem Parser.Quiet.not_name (h : p.Quiet t) (s : String) : p.atName s = false := by
  have hk : t.kind ≠ .name := fun hk => by
    have := h.begins
    simp [Token.begins, hk] at this
  simp [Parser.atName, h.peek, Token.isName, hk]

theorem takes_run (h : ∀ m, Takes (rule (run m) r) p) : Takes (run n r) p := by
  cases n with
  | zero => exact fun h => absurd h Bool.false_ne_true
  | succ n => exact h n

theorem idle_run (h : ∀ m, Idle (rule (run m) r) p) : Idle (run n r) p := by
  cases n with
  | zero => exact fun h => absurd h Bool.false_ne_true
  | succ n => exact h n

/-- A loop over operators takes one that is its own, and no other. -/
theorem takes_ops {ks : List SyntaxKind} {next again : M Unit} (h : p.Quiet t)
    (hk : ks.any (fun k => t.kind = k) = true) (hn : Keeps next) (ha : Keeps again) :
    Takes (chain (atKinds ks) next again) p :=
  takes_chain ((any_at h.peek ks).trans hk) (congrArg (Option.map Token.kind) h.peek) hn ha

theorem idle_ops {ks : List SyntaxKind} {next again : M Unit} (h : p.Quiet t)
    (hk : ks.any (fun k => t.kind = k) = false) : Idle (chain (atKinds ks) next again) p :=
  idle_chain ((any_at h.peek ks).trans hk)

/-- Two parts, neither of which takes anything. -/
theorem idle_then {m : M Unit} {m' : M α} (hm : ∀ p t', p.Quiet t' → t'.kind = t.kind → Idle m p)
    (hm' : ∀ p t', p.Quiet t' → t'.kind = t.kind → Idle m' p) (h : p.Quiet t) :
    Idle (frame (m >>= fun _ => m')) p := by
  refine .frame ((hm _ t h.inner rfl).bind fun _ q hv => ?_)
  obtain ⟨u, hu, hk⟩ := h.inner.of_view hv
  exact hm' q u hu hk

/-- Two parts, the first of which takes nothing, and the second a token. -/
theorem takes_then {m : M Unit} {m' : M α} (hm : ∀ p t', p.Quiet t' → t'.kind = t.kind → Idle m p)
    (hk : Keeps m) (hm' : ∀ p t', p.Quiet t' → t'.kind = t.kind → Takes m' p) (h : p.Quiet t) :
    Takes (frame (m >>= fun _ => m')) p := by
  refine .frame ((hm _ t h.inner rfl).takes hk fun _ q hv => ?_)
  obtain ⟨u, hu, hk⟩ := h.inner.of_view hv
  exact hm' q u hu hk

theorem begins_idle {go : Calls} (h : p.Quiet t) : Idle (unary go) p :=
  idle_unary h.peek h.suppress h.begins

theorem takes_mul (h : p.Quiet t) (hm : [.star, .slash, .percent].any (fun k => t.kind = k) = true) :
    Takes (mul (run n)) p := by
  refine takes_then (fun _ _ h' _ => begins_idle h') (built_unary.keeps (keeps_run n)) ?_ h
  intro p t' h' hk
  exact takes_run fun m => takes_ops h' (by rw [hk]; exact hm) (built_unary.keeps (keeps_run m))
    (keeps_run m _)

theorem idle_mul (h : p.Quiet t) (hm : [.star, .slash, .percent].any (fun k => t.kind = k) = false) :
    Idle (mul (run n)) p := by
  refine idle_then (fun _ _ h' _ => begins_idle h') (fun p t' h' hk => ?_) h
  exact idle_run fun m => idle_ops h' (by rw [hk]; exact hm)

theorem takes_add (h : p.Quiet t)
    (hm : [.star, .slash, .percent, .plus].any (fun k => t.kind = k) = true) :
    Takes (add (run n)) p := by
  by_cases hmul : [.star, .slash, .percent].any (fun k => t.kind = k) = true
  · exact .frame ((takes_mul h.inner hmul).bind fun _ => keeps_run n _)
  · have hmul : [.star, .slash, .percent].any (fun k => t.kind = k) = false := by simpa using hmul
    have hadd : [.plus, .minus].any (fun k => t.kind = k) = true := by
      simp only [List.any_cons, List.any_nil, Bool.or_false, Bool.or_eq_true,
        Bool.or_eq_false_iff] at hm hmul ⊢
      simp_all
    refine takes_then (fun p t' h' hk => idle_mul h' (by rw [hk]; exact hmul))
      (built_mul.keeps (keeps_run n)) (fun p t' h' hk => ?_) h
    exact takes_run fun m => takes_ops h' (by rw [hk]; exact hadd) (built_mul.keeps (keeps_run m))
      (keeps_run m _)

theorem idle_add (h : p.Quiet t)
    (hm : [.star, .slash, .percent, .plus].any (fun k => t.kind = k) = false) :
    Idle (add (run n)) p := by
  have hb := h.begins
  simp only [Token.begins, List.any_cons, List.any_nil, Bool.or_false, Bool.or_eq_false_iff] at hm hb
  refine idle_then (fun p t' h' hk => idle_mul h' ?_) (fun p t' h' hk => ?_) h
  · rw [hk]
    simp [hm]
  · refine idle_run fun m => idle_ops h' ?_
    rw [hk]
    simp [hm, hb]

theorem takes_cmp (h : p.Quiet t) (hm : t.between = true) : Takes (cmp (run n)) p := by
  by_cases hadd : [.star, .slash, .percent, .plus].any (fun k => t.kind = k) = true
  · exact .frame ((takes_add h.inner hadd).bind fun _ =>
      built_comparison.keeps (keeps_run n))
  · have hadd : [.star, .slash, .percent, .plus].any (fun k => t.kind = k) = false := by
      simpa using hadd
    refine takes_then (fun p t' h' hk => idle_add h' (by rw [hk]; exact hadd))
      (built_add.keeps (keeps_run n)) (fun p t' h' hk => ?_) h
    refine takes_ops h' ?_ (built_add.keeps (keeps_run n)) fun p => .refl p
    rw [hk]
    simp only [Token.between, List.any_cons, List.any_nil, Bool.or_false, Bool.or_eq_true,
      Bool.or_eq_false_iff] at hm hadd ⊢
    simp_all

theorem idle_cmp (h : p.Quiet t) (hm : t.between = false) : Idle (cmp (run n)) p := by
  simp only [Token.between, List.any_cons, List.any_nil, Bool.or_false, Bool.or_eq_false_iff] at hm
  refine idle_then (fun p t' h' hk => idle_add h' ?_) (fun p t' h' hk => idle_ops h' ?_) h
  · rw [hk]
    simp [hm]
  · rw [hk]
    simp [hm]

theorem takes_expr_of_quiet (h : p.Quiet t) (hm : t.between = true) : Takes (expr (run n)) p := by
  have hnot : ∀ {p}, p.Quiet t → Takes (not_ (run n)) p := fun h' =>
    takes_neg (h'.not_name "not") (takes_cmp h' hm)
  exact .frame ((Takes.frame ((hnot h.inner.inner).bind fun _ => keeps_run n _)).bind fun _ =>
    keeps_run n _)

theorem idle_names {s : String} {f : Calls → M Unit}
    (hr : ∀ go, rule go r = chain (atName s) (f go) (go r)) (h : p.Quiet t) :
    Idle (run n r) p :=
  idle_run fun m => by
    rw [hr]
    exact idle_chain (h.not_name s)

theorem idle_expr (h : p.Quiet t) (hm : t.between = false) : Idle (expr (run n)) p := by
  have hnot : ∀ p t', p.Quiet t' → t'.kind = t.kind → Idle (not_ (run n)) p := fun p t' h' hk =>
    idle_neg (h'.not_name "not") (idle_cmp h' (by unfold Token.between at hm ⊢; rw [hk]; exact hm))
  refine idle_then (fun p t' h' hk => ?_) (fun p t' h' _ => ?_) h
  · refine idle_then (fun p t'' h'' hk' => hnot p t'' h'' (hk'.trans hk)) (fun p t'' h'' _ => ?_) h'
    exact idle_names (s := "and") (f := not_) (fun _ => rfl) h''
  · exact idle_names (s := "or") (f := and_) (fun _ => rfl) h'

/-- Where the parser goes on, an expression takes a token. -/
theorem takes_expr (ht : p.peek = some t) (h : p.GoesOn t) : Takes (expr (run n)) p := by
  have hgo := keeps_run n
  have hcmp : ∀ {p}, p.peek = some t → p.GoesOn t → Takes (cmp (run n)) p := fun {p} ht h => by
    have hpeek : p.inner.inner.inner.peek = some t :=
      (peek_inner p.inner.inner).trans ((peek_inner p.inner).trans ((peek_inner p).trans ht))
    have hmul : Takes (mul (run n)) p.inner.inner :=
      .frame ((takes_unary hgo hpeek h).bind fun _ => hgo _)
    have hadd : Takes (add (run n)) p.inner := .frame (hmul.bind fun _ => hgo _)
    exact .frame (hadd.bind fun _ => built_comparison.keeps hgo)
  have hnot : Takes (not_ (run n)) p.inner.inner := by
    have hpeek : p.inner.inner.peek = some t := (peek_inner p.inner).trans ((peek_inner p).trans ht)
    by_cases hn : p.inner.inner.atName "not" = true
    · have hl : Leads (run n) (node .unary do
          bump
          run n .not_) := .node (by decide) (.bind .bump fun _ => .call _ rfl)
      exact takes_pos hn (hl.takes hgo hpeek)
    · exact takes_neg (by simpa using hn) (hcmp hpeek h)
  exact .frame ((Takes.frame (hnot.bind fun _ => hgo _)).bind fun _ => hgo _)

/-! ## Arguments -/

/-- The kind of the token after the next. -/
def Parser.kind2 (p : Parser) : Option SyntaxKind := p.peek2.map Token.kind

/-- A keyword argument starts. -/
def Parser.keyed (p : Parser) : Bool :=
  (p.at_ .name || p.at_ .upperName || p.at_ .string) && p.kind2 = some .colon

theorem takes_arg (ht : p.peek = some t)
    (h : p.keyed = true ∨ p.GoesOn t ∨ p.suppress = true ∧ t.between = true) :
    Takes (arg (run n)) p := by
  by_cases hk : p.keyed = true
  · have hkey : Takes (bump >>= fun _ => bump >>= fun _ => run n .arg) p.inner :=
      (takes_bump ((peek_inner p).trans ht)).bind fun _ =>
        keeps_bind keeps_bump fun _ => keeps_run n _
    exact takes_pos hk (.node hkey)
  · refine takes_neg (Bool.eq_false_iff.mpr hk) ?_
    rcases h with h | h | ⟨hs, hm⟩
    · exact absurd h hk
    · exact takes_expr ht h
    · by_cases hb : t.begins = true
      · exact takes_expr ht (.inl hb)
      · exact takes_expr_of_quiet ⟨ht, hs, by simpa using hb⟩ hm

theorem idle_arg (h : p.Quiet t) (hk : p.keyed = false) (hm : t.between = false) :
    Idle (arg (run n)) p :=
  idle_neg hk (idle_expr h hm)

end

/-! ## A dead turn is the last there is -/

/-- The loop comes to a token nothing starts with, quieted. -/
def Parser.Stuck (p : Parser) (header : Bool) : Prop :=
  (⟨header, p.suppress, p.rest⟩ : Turn).Dead

/-- A dead turn was taken. -/
def Parser.Lost (p : Parser) : Prop := ∃ t ∈ p.turns, t.Dead

section
variable {p q : Parser} {t : Token} {n : Nat} {α β : Type} {m : M α} {go : Calls} {header : Bool}

theorem isTop_seen (t : Token) : t.seen.isTop = t.isTop :=
  congrArg (List.any _) (funext (isName_seen t))

theorem Parser.Stuck.of_view (h : p.Stuck header) (hv : q.view = p.view) : q.Stuck header := by
  obtain ⟨hs, t, ht, hn, hstrange⟩ := h
  obtain ⟨u, hu, he⟩ := peek_of_view hv ht
  refine ⟨(suppress_of_view hv).trans hs, u, hu, fun hk => hn ((kind_of_seen he).symm.trans hk), ?_⟩
  have hk2 : (significant q.rest)[1]?.map Token.kind = (significant p.rest)[1]?.map Token.kind :=
    kind2_of_view hv
  have hbetween : u.between = t.between := by
    unfold Token.between
    rw [kind_of_seen he]
  have htop : u.isTop = t.isTop := by rw [← isTop_seen u, he, isTop_seen]
  unfold Token.strange at hstrange ⊢
  rw [hk2, kind_of_seen he, begins_of_seen he, hbetween, htop]
  exact hstrange

theorem at_eq_false {k : SyntaxKind} (ht : p.peek = some t) (hk : t.kind ≠ k) : p.at_ k = false := by
  have hkind : p.kind = some t.kind := congrArg (Option.map Token.kind) ht
  exact decide_eq_false fun he => hk (Option.some.inj (hkind.symm.trans he))

theorem atEof_eq_false (ht : p.peek = some t) : p.atEof = false := by
  unfold Parser.atEof
  rw [ht]
  rfl

theorem quiet_of_stuck (h : p.Stuck true) : ∃ t, p.Quiet t ∧ t.kind ≠ .newline ∧ t.kind ≠ .comma ∧
    p.keyed = false ∧ t.between = false := by
  obtain ⟨hs, t, ht, hn, hstrange⟩ := h
  obtain ⟨hcomma, hbegins, hbetween, hkey⟩ :
      t.kind ≠ .comma ∧ t.begins = false ∧ t.between = false ∧
        ¬(t.kind = .string ∧ p.kind2 = some .colon) := hstrange
  have ht : p.peek = some t := ht
  have hword : t.kind ≠ .name ∧ t.kind ≠ .upperName := by
    constructor <;> intro hk <;> simp [Token.begins, hk] at hbegins
  refine ⟨t, ⟨ht, hs, hbegins⟩, hn, hcomma, ?_, hbetween⟩
  unfold Parser.keyed
  rw [at_eq_false ht hword.1, at_eq_false ht hword.2, Bool.false_or, Bool.false_or,
    Bool.and_eq_false_iff]
  by_cases hstr : t.kind = .string
  · exact .inr (decide_eq_false fun hk => hkey ⟨hstr, hk⟩)
  · exact .inl (at_eq_false ht hstr)

theorem idle_headerPart (h : p.Stuck true) : Idle (headerPart (run n)) p := by
  obtain ⟨t, hq, -, hcomma, hkeyed, hbetween⟩ := quiet_of_stuck h
  exact idle_neg (at_eq_false hq.peek hcomma) (idle_neg (hq.not_name "as")
    (idle_run fun m => idle_arg hq hkeyed hbetween))

/-- The parser once a turn is told. -/
def Parser.told (p : Parser) (header : Bool) : Parser :=
  { p with turns := p.turns ++ [⟨header, p.suppress, p.rest⟩] }

/-- A part that takes nothing, and comes to the same turn again. -/
theorem none_of_idle {again : M β} (hm : Idle m p) (ha : ∀ q, q.view = p.view → (again q).1 = none) :
    ((m >>= fun _ => again) p).1 = none := by
  by_contra hsome
  obtain ⟨a, q, hpq, he, -⟩ := bind_ended (Option.isSome_iff_ne_none.mpr hsome)
  rw [he] at hsome
  have hv := hm (by rw [hpq]; rfl)
  rw [hpq] at hv
  exact hsome (ha q hv)

/-- At a header's dead turn the header never ends. -/
theorem stuck_header (h : p.Stuck true) : (run n .header p).1 = none := by
  induction n generalizing p with
  | zero => rfl
  | succ n ih =>
      obtain ⟨t, hq, hn, -⟩ := quiet_of_stuck h
      show ((if ((p.told true).atName "do" || (p.told true).at_ .newline || (p.told true).atEof) = true
        then pure () else headerPart (run n) >>= fun _ => run n .header : M Unit) (p.told true)).1 = none
      rw [show (p.told true).atName "do" = false from hq.not_name "do",
        show (p.told true).at_ .newline = false from at_eq_false hq.peek hn,
        show (p.told true).atEof = false from atEof_eq_false hq.peek, if_neg (by decide)]
      exact none_of_idle (idle_headerPart (p := p.told true) h) fun q hv => ih (h.of_view hv)

/-- At a dead turn at the top the file never ends. -/
theorem stuck_tops (h : p.Stuck false) : (run n .tops p).1 = none := by
  induction n generalizing p with
  | zero => rfl
  | succ n ih =>
      obtain ⟨hs, t, ht, hn, hstrange⟩ := id h
      have ht : (p.told false).peek = some t := ht
      have htop : t.isTop = false := hstrange
      have hname : ∀ s ∈ defs ++ ["site", "import"], (p.told false).atName s = false := by
        intro s hs
        have hany := List.any_eq_false.mp htop s hs
        simpa [Parser.atName, ht] using hany
      have hline : (p.told false).at_ .newline = false := at_eq_false ht hn
      have hform : Idle (topForm (run n)) (p.told false) := by
        refine idle_neg (List.any_eq_false.mpr fun s hs => ?_) (idle_neg (hname _ (by simp))
          (idle_neg (hname _ (by simp)) (idle_error hs)))
        rw [hname s (List.mem_append_left _ hs)]
        exact Bool.false_ne_true
      have hpart : Idle (top (run n)) (p.told false) := by
        refine idle_neg hline (hform.bind fun _ q hv => idle_neg ?_ (.pure _ _))
        exact (at_of_view hv .newline).trans hline
      show ((if (p.told false).atEof = true then pure ()
        else top (run n) >>= fun _ => run n .tops : M Unit) (p.told false)).1 = none
      rw [if_neg (by rw [atEof_eq_false ht]; exact Bool.false_ne_true)]
      exact none_of_idle hpart fun q hv => ih (h.of_view hv)

/-! ## Every call -/

/-- A dead turn in it is the last there is. -/
def Doomed (m : M α) : Prop := ∀ p, (m p).2.Lost → p.Lost ∨ (m p).1 = none

theorem Doomed.of_turns (h : ∀ p, (m p).2.turns = p.turns) : Doomed m := by
  intro p hl
  unfold Parser.Lost at hl ⊢
  rw [h] at hl
  exact .inl hl

theorem Doomed.bind {f : α → M β} (hm : Doomed m) (hf : ∀ a, Doomed (f a)) : Doomed (m >>= f) := by
  intro p hl
  by_cases hs : ((m >>= f) p).1 = none
  · exact .inr hs
  · obtain ⟨a, q, hq, he, hsome⟩ := bind_ended (Option.isSome_iff_ne_none.mpr hs)
    rw [he] at hl
    rcases hf a q hl with hl | hl
    · have hp := hm p
      rw [hq] at hp
      exact .inl ((hp hl).resolve_right fun h => by cases h)
    · rw [hl] at hsome
      cases hsome

theorem Doomed.ite {c : Prop} [Decidable c] {m' : M α} (h : Doomed m) (h' : Doomed m') :
    Doomed (if c then m else m') := by
  split
  · exact h
  · exact h'

theorem turns_take (p : Parser) : p.take.turns = p.turns := by
  unfold Parser.take
  split <;> rfl

theorem turns_bump (p : Parser) : (bump p).2.turns = p.turns := turns_take p.eatTrivia

theorem turns_toNewline (n : Nat) (p : Parser) : (toNewline n p).2.turns = p.turns := by
  induction n generalizing p with
  | zero => rfl
  | succ n ih =>
      by_cases h : p.kind = none ∨ p.kind = some .newline
      · rw [toNewline_stop n h]
      · obtain ⟨hnone, hline⟩ := not_or.mp h
        obtain ⟨k, hk⟩ := Option.ne_none_iff_exists'.mp hnone
        rw [toNewline_bump n hk fun he => hline (hk.trans (congrArg some he))]
        exact (ih _).trans (turns_bump p)

theorem doomed_error (expected context : String) : Doomed (error expected context) := by
  refine .of_turns fun p => ?_
  show ((if p.suppress = true then pure () else _ : M Unit) p).2.turns = p.turns
  split
  · rfl
  · exact turns_toNewline _ _

theorem doomed_missingEnd (context : String) : Doomed (missingEnd context) := by
  refine .of_turns fun p => ?_
  show ((if p.suppress = true then pure () else _ : M Unit) p).2.turns = p.turns
  split <;> rfl

theorem Doomed.asked {g : Parser → β} {f : β → M α} (h : ∀ b, Doomed (f b)) :
    Doomed (look g >>= f) := .bind (.of_turns fun _ => rfl) h

theorem doomed_if {g : Parser → Bool} {m' : M α} (h : Doomed m) (h' : Doomed m') :
    Doomed (do if ← look g then m else m') :=
  .asked fun _ => .ite h h'

theorem doomed_bump : Doomed bump := .of_turns turns_bump

theorem doomed_pure (a : α) : Doomed (Pure.pure a : M α) := .of_turns fun _ => rfl

theorem doomed_bumpNewline : Doomed bumpNewline := doomed_if doomed_bump (doomed_pure _)

theorem doomed_expectNewline (context : String) : Doomed (expectNewline context) :=
  doomed_if (doomed_pure _) (.bind (doomed_if (doomed_pure _) (doomed_error _ _)) fun _ =>
    doomed_bumpNewline)

theorem Alike.lasts {go' : Calls} {m' : M α} {n : Nat} (h : Alike go go' n m m')
    (hgo : ∀ r, Doomed (go r)) : Doomed m := by
  induction h with
  | pure a => exact doomed_pure a
  | bind _ _ ihm ihf => exact ihm.bind ihf
  | look _ _ _ _ ih => exact .asked ih
  | kind _ _ _ ih => exact .asked ih
  | bump => exact doomed_bump
  | bumpThen _ ih => exact doomed_bump.bind fun _ => ih
  | trivia => exact .of_turns fun _ => rfl
  | node _ _ ih => exact fun p => ih p.inner
  | frame _ ih => exact fun p => ih p.inner
  | wrap _ _ ih => exact ih
  | error => exact doomed_error _ _
  | missingEnd => exact doomed_missingEnd _
  | report => exact .of_turns fun _ => rfl
  | remark _ ih => exact (doomed_if (.of_turns fun _ => rfl) (doomed_pure _)).bind fun _ => ih
  | expectNewline => exact doomed_expectNewline _
  | bumpNewline => exact doomed_bumpNewline
  | call r => exact hgo r
  | stmt => exact hgo .stmt

theorem Alike.doomed (h : Built go m) (hgo : ∀ r, Doomed (go r)) : Doomed m := h.lasts hgo

theorem doomed_dots (hgo : ∀ r, Doomed (go r)) : Doomed (dots go) :=
  doomed_if (doomed_bump.bind fun _ => Doomed.bind ((built_want rfl _).doomed hgo) fun _ => hgo _)
    (doomed_pure _)

theorem doomed_statements (hgo : ∀ r, Doomed (go r)) : Doomed (statements go) := by
  have hstep : Doomed (statement go) :=
    .asked fun _ => (hgo _).bind fun _ => doomed_if (fun p => doomed_bump p.inner) (doomed_pure _)
  refine doomed_if (doomed_pure _) (doomed_if (doomed_bump.bind fun _ => hgo _) ?_)
  exact doomed_if (doomed_missingEnd _) (hstep.bind fun _ => hgo _)

/-- A told loop: stuck, it does not end. -/
theorem doomed_loop {f : Parser → Bool} {m again : M Unit} (hm : Doomed m) (ha : Doomed again)
    (hs : ∀ p, p.Stuck header → ((do
      turn header
      unlessAt f do
        m
        again : M Unit) p).1 = none) :
    Doomed (do
      turn header
      unlessAt f do
        m
        again) := by
  intro p hl
  by_cases hstuck : p.Stuck header
  · exact .inr (hs p hstuck)
  · have hrest : Doomed (unlessAt f do
        m
        again) := doomed_if (.of_turns fun _ => rfl) (hm.bind fun _ => ha)
    refine (hrest (p.told header) hl).imp_left fun hl => ?_
    obtain ⟨t, ht, hd⟩ := hl
    rcases List.mem_append.mp ht with ht | ht
    · exact ⟨t, ht, hd⟩
    · obtain rfl := List.mem_singleton.mp ht
      exact absurd hd hstuck

/-- A dead turn is the last a call takes: it does not end. -/
theorem doomed_run (n : Nat) (r : Rule) : Doomed (run n r) := by
  induction n generalizing r with
  | zero => exact fun _ _ => .inr rfl
  | succ n ih =>
      refine @rule_cases _ (run n) (fun m _ => Doomed m) ?_ ?_ (doomed_statements ih)
        (doomed_if (doomed_pure _) (built_stmtForm.doomed ih)) (doomed_dots ih)
        (fun _ _ h => h.lasts ih) r
      · have htop : Doomed (top (run n)) :=
          doomed_if doomed_bump (Doomed.bind (built_topForm.doomed ih) fun _ => doomed_bumpNewline)
        exact doomed_loop htop (ih _) fun p hp => stuck_tops (n := n + 1) hp
      · exact doomed_loop (built_headerPart.doomed ih) (ih _) fun p hp =>
          stuck_header (n := n + 1) hp

end

end Rescind.Surface
