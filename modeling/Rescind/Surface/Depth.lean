/-
# `Rescind.Surface.Depth` — a depth is enough

A call of the parser without a token taken since the call it is in is of a lower rank:
three calls for each token that is left are enough, unless a turn is dead.  What a depth
is enough for, a greater one does no differently.

**Proved here.**

    every statement takes a token                              (`takes_statement`)
    so does every turn that is not dead         (`takes_top`, `takes_headerPart`)
    the parser ends, or comes to a dead turn             (`ends_run`, `ends_file`)
    a greater depth changes nothing                (`deepens_run`)
-/
import Rescind.Surface.Turns

namespace Rescind.Surface

section
variable {p q : Parser} {t : Token} {n N : Nat} {α β : Type} {m : M α} {f : α → M β} {go : Calls}
  {k : SyntaxKind}

/-! ## Every turn of every loop -/

/-- What took nothing left everything. -/
theorem rest_of_done (h : Grows p q) (hd : q.done.length = p.done.length) : q.rest = p.rest := by
  have he : p.done = q.done := h.done.eq_of_length hd.symm
  have ht := h.tokens
  rw [he] at ht
  exact List.append_cancel_left ht

theorem left_of_done (h : Grows p q) (hd : q.done.length ≠ p.done.length) : q.left < p.left := by
  have h₁ := congrArg List.length h.tokens
  have h₂ := h.done.length_le
  simp only [List.length_append] at h₁
  unfold Parser.left
  omega

theorem takes_statement (hgo : ∀ r, Keeps (go r)) (ht : p.peek = some t) :
    Takes (statement go) p := by
  show Takes (go .stmt >>= fun _ =>
    whenAt (fun q => decide (q.done.length = p.done.length)) (node .error bump)) p
  intro hs
  obtain ⟨a, q, hq, he, hs⟩ := bind_ended hs
  have hg : Grows p q := by
    have := hgo .stmt p
    rwa [hq] at this
  rw [he]
  show ((if decide (q.done.length = p.done.length) = true then node .error bump
    else pure () : M Unit) q).2.left < p.left
  by_cases hd : q.done.length = p.done.length
  · rw [if_pos (decide_eq_true hd)]
    have hpeek : q.inner.peek = some t := by
      rw [peek_inner]
      unfold Parser.peek
      rw [rest_of_done hg hd]
      exact ht
    exact Nat.lt_of_lt_of_le ((Takes.node (k := .error) (takes_bump hpeek)) rfl) hg.left
  · rw [if_neg (by simpa using hd)]
    exact left_of_done hg hd

theorem atName_of_peek (ht : p.peek = some t) (s : String) : p.atName s = t.isName s := by
  unfold Parser.atName
  rw [ht]
  rfl

/-- A turn at the top that is not dead takes a token. -/
theorem takes_top (hgo : ∀ r, Keeps (go r)) (ht : p.peek = some t) (hs : ¬p.Stuck false) :
    Takes (top go) p := by
  have hk : p.kind = some t.kind := congrArg (Option.map Token.kind) ht
  by_cases hn : t.kind = .newline
  · exact takes_pos (decide_eq_true (hk.trans (congrArg some hn))) (takes_bump ht)
  refine takes_neg (at_eq_false ht hn) (Takes.bind ?_ fun _ => keeps_bumpNewline)
  by_cases hd : defs.any p.atName = true
  · exact takes_pos hd (leads_def.takes hgo ht)
  refine takes_neg (by simpa using hd) ?_
  by_cases hsite : p.atName "site" = true
  · exact takes_pos hsite (leads_block.takes hgo ht)
  refine takes_neg (by simpa using hsite) ?_
  by_cases himport : p.atName "import" = true
  · exact takes_pos himport (leads_import.takes hgo ht)
  refine takes_neg (by simpa using himport) ?_
  cases hq : p.suppress with
  | false => exact takes_error hq hk hn
  | true =>
      refine absurd ⟨hq, t, ht, hn, ?_⟩ hs
      show t.isTop = false
      have hnames : p.atName = t.isName := funext (atName_of_peek ht)
      rw [hnames] at hd hsite himport
      unfold Token.isTop
      rw [List.any_append]
      simp [hd, hsite, himport]

/-- A turn of a header that is not dead takes a token. -/
theorem takes_headerPart (ht : p.peek = some t) (hn : t.kind ≠ .newline) (hs : ¬p.Stuck true) :
    Takes (headerPart (run n)) p := by
  have hk : p.kind = some t.kind := congrArg (Option.map Token.kind) ht
  by_cases hc : t.kind = .comma
  · exact takes_pos (decide_eq_true (hk.trans (congrArg some hc))) (takes_bump ht)
  refine takes_neg (at_eq_false ht hc) ?_
  by_cases has : p.atName "as" = true
  · refine takes_pos has (takes_pos has ?_)
    exact (takes_bump ht).bind fun _ => (built_want rfl _).keeps (keeps_run n)
  refine takes_neg (by simpa using has) (takes_run fun m => takes_arg ht ?_)
  cases hq : p.suppress with
  | false => exact .inr (.inl (.inr ⟨hq, hn⟩))
  | true =>
      by_cases hb : t.begins = true
      · exact .inr (.inl (.inl hb))
      by_cases hm : t.between = true
      · exact .inr (.inr ⟨rfl, hm⟩)
      refine .inl ?_
      by_contra hkey
      refine hs ⟨hq, t, ht, hn, hc, by simpa using hb, by simpa using hm, ?_⟩
      rintro ⟨hstr, hcolon⟩
      refine hkey ?_
      have hat : p.at_ .string = true := decide_eq_true (hk.trans (congrArg some hstr))
      unfold Parser.keyed
      rw [hat, Bool.or_true, Bool.true_and]
      exact decide_eq_true hcolon

/-! ## Ending -/

/-- It ends, unless it came to a dead turn. -/
def Ends (m : M α) (p : Parser) : Prop := (m p).2.Lost ∨ (m p).1.isSome = true

theorem Ends.bind (hm : Ends m p) (hf : ∀ a q, m p = (some a, q) → Ends (f a) q) :
    Ends (m >>= f) p := by
  unfold Ends at hm ⊢
  rcases hp : m p with ⟨_ | a, q⟩
  · rw [hp] at hm
    rw [bind_none hp]
    exact .inl (hm.resolve_right Bool.false_ne_true)
  · rw [bind_some hp]
    exact hf a q hp

theorem Ends.node (h : Ends m p.inner) : Ends (node k m) p := h

theorem Ends.frame (h : Ends m p.inner) : Ends (frame m) p := h

theorem Ends.wrap (h : Ends m p) : Ends (wrap k m) p := h

theorem ends_pure (a : α) (p : Parser) : Ends (Pure.pure a : M α) p := .inr rfl

theorem ends_if {g : Parser → Bool} {m m' : M α} (h : g p = true → Ends m p)
    (h' : g p = false → Ends m' p) : Ends (do if ← look g then m else m') p := by
  show Ends (if g p = true then m else m') p
  split
  next hg => exact h hg
  next hg => exact h' (by simpa using hg)

theorem ends_toNewline (n : Nat) (p : Parser) : Ends (toNewline n) p := by
  induction n generalizing p with
  | zero => exact ends_pure _ _
  | succ n ih =>
      by_cases h : p.kind = none ∨ p.kind = some .newline
      · unfold Ends
        rw [toNewline_stop n h]
        exact .inr rfl
      · obtain ⟨hnone, hline⟩ := not_or.mp h
        obtain ⟨k, hk⟩ := Option.ne_none_iff_exists'.mp hnone
        unfold Ends
        rw [toNewline_bump n hk fun he => hline (hk.trans (congrArg some he))]
        exact ih _

theorem ends_error (expected context : String) (p : Parser) : Ends (error expected context) p := by
  refine ends_if (fun _ => ends_pure _ _) fun _ => Ends.bind (.inr rfl) fun _ q _ => ?_
  exact .node (ends_toNewline _ _)

theorem ends_missingEnd (context : String) (p : Parser) : Ends (missingEnd context) p :=
  ends_if (fun _ => ends_pure _ _) fun _ => .inr rfl

/-- What makes no call ends. -/
theorem ends_bumpNewline (p : Parser) : Ends bumpNewline p :=
  ends_if (fun _ => .inr rfl) fun _ => ends_pure _ _

theorem ends_expectNewline (context : String) (p : Parser) : Ends (expectNewline context) p := by
  refine ends_if (fun _ => ends_pure _ _) fun _ => Ends.bind ?_ fun _ q _ => ends_bumpNewline q
  exact ends_if (fun _ => ends_pure _ _) fun _ => ends_error _ _ _

/-! ## Ranks -/

theorem left_of_ended {a : α} (hk : Keeps m) (h : m p = (some a, q)) : q.left ≤ p.left := by
  have hg := (hk p).left
  rwa [h] at hg

/-- The calls of one token's rank are of lower rank, in turn, than those they are in. -/
def Rule.rank : Rule → Nat
  | .statements | .header => 2
  | .stmt | .arg | .expr | .not_ => 1
  | _ => 0

theorem rank_le (r : Rule) : r.rank ≤ 2 := by cases r <;> decide

/-- The calls end that are this far from none left. -/
def Reach (go : Calls) (N : Nat) : Prop := ∀ r q, 3 * q.left + r.rank < N → Ends (go r) q

theorem Reach.call (hr : Reach go N) (r : Rule) (p : Parser) (hp : 3 * p.left + 2 < N) :
    Ends (go r) p := by
  have hle := rank_le r
  exact hr r p (by omega)

theorem Alike.arrives {go' : Calls} {m' : M α} {i : Nat} (h : Alike go go' i m m')
    (hgo : ∀ r, Keeps (go r)) (hr : Reach go N) (hp : 3 * p.left + 2 < N) : Ends m p := by
  induction h generalizing p with
  | pure a => exact ends_pure a p
  | bind hm _ ihm ihf =>
      refine (ihm hp).bind fun a q he => ihf a ?_
      have hle := (hm.grows hgo p).left
      rw [he] at hle
      have hle : q.left ≤ p.left := hle
      omega
  | look _ _ _ _ ih => exact ih _ hp
  | kind _ _ _ ih => exact ih _ hp
  | bump => exact .inr rfl
  | bumpThen _ ih =>
      have hle : p.eatTrivia.take.left ≤ p.left := (keeps_bump p).left
      exact ih (by show 3 * p.eatTrivia.take.left + 2 < N; omega)
  | trivia => exact .inr rfl
  | node _ _ ih =>
      have hle : p.inner.left ≤ p.left := left_eatTrivia p
      exact Ends.node (ih (by omega))
  | frame _ ih =>
      have hle : p.inner.left ≤ p.left := left_eatTrivia p
      exact Ends.frame (ih (by omega))
  | wrap _ _ ih => exact Ends.wrap (ih hp)
  | error => exact ends_error _ _ _
  | missingEnd => exact ends_missingEnd _ _
  | report => exact .inr rfl
  | @remark _ _ c code index expected found message _ _ _ ih =>
      have hkeep : Keeps (whenAt (fun _ => c)
          (update (·.report code index expected found message))) :=
        keeps_asked fun _ => .ite keeps_report .refl
      refine Ends.bind (ends_if (fun _ => .inr rfl) fun _ => ends_pure _ _) fun _ q hq => ih ?_
      have hle := left_of_ended hkeep hq
      omega
  | expectNewline => exact ends_expectNewline _ p
  | bumpNewline => exact ends_bumpNewline p
  | call r => exact hr.call r p hp
  | stmt => exact hr.call .stmt p hp

/-- After a token was taken any call is near enough. -/
theorem Takes.ends (hm : Takes m p) (he : Ends m p) (hp : 3 * p.left ≤ N)
    (hf : ∀ a (q : Parser), 3 * q.left + 2 < N → Ends (f a) q) : Ends (m >>= f) p := by
  refine he.bind fun a q hq => hf a q ?_
  have hlt : q.left < p.left := by
    have := hm (by rw [hq]; rfl)
    rwa [hq] at this
  omega

theorem Led.arrives {go' : Calls} {m' : M α} (h : Led go go' m m') (hgo : ∀ r, Keeps (go r))
    (hr : Reach go N) (hp : 3 * p.left ≤ N) (ht : p.peek = some t) : Ends m p := by
  induction h generalizing p with
  | bump => exact .inr rfl
  | bind hm hf ih => exact (hm.goes hgo ht).ends (ih hp ht) hp fun a _ => (hf a).arrives hgo hr
  | look hg _ ih => exact ih _ hp ht
  | node _ _ ih =>
      have hle : p.inner.left ≤ p.left := left_eatTrivia p
      exact Ends.node (ih (by omega) ((peek_inner p).trans ht))
  | frame _ ih =>
      have hle : p.inner.left ≤ p.left := left_eatTrivia p
      exact Ends.frame (ih (by omega) ((peek_inner p).trans ht))
  | wrap _ _ ih => exact Ends.wrap (ih hp ht)

theorem Led.ends (h : Leads go m) (hgo : ∀ r, Keeps (go r)) (hr : Reach go N)
    (hp : 3 * p.left ≤ N) (ht : p.peek = some t) : Ends m p := h.arrives hgo hr hp ht

/-! ## Expressions -/

theorem peek_of_at (h : p.at_ k = true) : ∃ t, p.peek = some t := by
  obtain ⟨t, ht, -⟩ := peek_of_kind (of_decide_eq_true h)
  exact ⟨t, ht⟩

theorem peek_of_name {s : String} (h : p.atName s = true) : ∃ t, p.peek = some t := by
  unfold Parser.atName at h
  cases hp : p.peek with
  | none =>
      rw [hp] at h
      cases h
  | some t => exact ⟨t, rfl⟩

theorem peek_of_kinds {ks : List SyntaxKind} (h : ks.any p.at_ = true) : ∃ t, p.peek = some t := by
  obtain ⟨k, -, hk⟩ := List.any_eq_true.mp h
  exact peek_of_at hk

/-- If this is ahead, a token is taken first. -/
theorem ends_whenAt {g : Parser → Bool} {m : M Unit} (hm : Leads go m) (hgo : ∀ r, Keeps (go r))
    (hr : Reach go N) (hp : 3 * p.left ≤ N) (hg : g p = true → ∃ t, p.peek = some t) :
    Ends (whenAt g m) p := by
  refine ends_if (fun h => ?_) fun _ => ends_pure _ _
  obtain ⟨t, ht⟩ := hg h
  exact hm.ends hgo hr hp ht

theorem ends_chain {g : Parser → Bool} {next again : M Unit} (hn : Built go next)
    (ha : Built go again) (hgo : ∀ r, Keeps (go r)) (hr : Reach go N) (hp : 3 * p.left ≤ N)
    (hg : g p = true → ∃ t, p.peek = some t) : Ends (chain (look g) next again) p :=
  ends_whenAt (.bind (.wrap (by decide) (.bind .bump fun _ => hn)) fun _ => ha) hgo hr hp hg

theorem ends_operand (hgo : ∀ r, Keeps (go r)) (hr : Reach go N) (hp : 3 * p.left ≤ N)
    (ht : p.peek = some t) : Ends (operand go (some t.kind)) p := by
  have leads : ∀ {m : M Unit}, Leads go m → Ends m p := fun h => h.ends hgo hr hp ht
  unfold operand
  split
  · exact ends_if (fun _ => leads leads_literal) fun _ => ends_error _ _ p
  iterate 4 exact leads leads_literal
  · exact ends_if (fun _ => leads leads_literal) fun _ => leads leads_reference
  · exact leads (.node (by decide) .bump)
  · exact leads leads_paren
  · exact leads leads_list
  · exact leads leads_record
  · exact ends_error _ _ p

theorem ends_postfixed (hgo : ∀ r, Keeps (go r)) (hr : Reach go N) (hp : 3 * p.left ≤ N) :
    Ends (postfix_ go) p := by
  show Ends (operand go p.kind) p
  cases ht : p.peek with
  | none =>
      have hk : p.kind = none := congrArg (Option.map Token.kind) ht
      rw [hk]
      exact ends_error _ _ p
  | some t =>
      have hk : p.kind = some t.kind := congrArg (Option.map Token.kind) ht
      rw [hk]
      exact ends_operand hgo hr hp ht

theorem ends_unary (hgo : ∀ r, Keeps (go r)) (hr : Reach go N) (hp : 3 * p.left ≤ N) :
    Ends (unary go) p := by
  refine ends_if (fun h => ?_) fun _ => ends_postfixed hgo hr hp
  obtain ⟨t, ht⟩ := peek_of_at h
  have hl : Leads go (node .unary do
      bump
      go .unary) := .node (by decide) (.bind .bump fun _ => .call _ rfl)
  exact hl.ends hgo hr hp ht

/-- A part, and a loop over what follows it. -/
theorem ends_then {m m' : M Unit} (hm : ∀ p : Parser, 3 * p.left < N → Ends m p) (hk : Keeps m)
    (hm' : ∀ p : Parser, 3 * p.left < N → Ends m' p) (hp : 3 * p.left < N) :
    Ends (frame (m >>= fun _ => m')) p := by
  have hle : p.inner.left ≤ p.left := left_eatTrivia p
  refine Ends.frame (Ends.bind (hm p.inner (by omega)) fun a q he => hm' q ?_)
  have hg := (hk p.inner).left
  rw [he] at hg
  have hg : q.left ≤ p.inner.left := hg
  omega

theorem Reach.loop {r : Rule} (hr : Reach go N) (h : r.rank = 0) (p : Parser)
    (hp : 3 * p.left < N) : Ends (go r) p :=
  hr r p (by omega)

theorem ends_mul (hgo : ∀ r, Keeps (go r)) (hr : Reach go N) (hp : 3 * p.left < N) :
    Ends (mul go) p :=
  ends_then (fun _ h => ends_unary hgo hr (Nat.le_of_lt h)) (built_unary.keeps hgo)
    (hr.loop rfl) hp

theorem ends_add (hgo : ∀ r, Keeps (go r)) (hr : Reach go N) (hp : 3 * p.left < N) :
    Ends (add go) p :=
  ends_then (fun _ h => ends_mul hgo hr h) (built_mul.keeps hgo) (hr.loop rfl) hp

theorem ends_cmp (hgo : ∀ r, Keeps (go r)) (hr : Reach go N) (hp : 3 * p.left < N) :
    Ends (cmp go) p :=
  ends_then (fun _ h => ends_add hgo hr h) (built_add.keeps hgo)
    (fun _ h => ends_chain built_add (.pure _) hgo hr (Nat.le_of_lt h) peek_of_kinds) hp

theorem ends_not (hgo : ∀ r, Keeps (go r)) (hr : Reach go N) (hp : 3 * p.left < N) :
    Ends (not_ go) p := by
  refine ends_if (fun h => ?_) fun _ => ends_cmp hgo hr hp
  obtain ⟨t, ht⟩ := peek_of_name h
  have hl : Leads go (node .unary do
      bump
      go .not_) := .node (by decide) (.bind .bump fun _ => .call _ rfl)
  exact hl.ends hgo hr (Nat.le_of_lt hp) ht

theorem ends_and (hgo : ∀ r, Keeps (go r)) (hr : Reach go N) (hp : 3 * p.left < N) :
    Ends (and_ go) p :=
  ends_then (fun _ h => ends_not hgo hr h) (built_not.keeps hgo) (hr.loop rfl) hp

theorem ends_expr (hgo : ∀ r, Keeps (go r)) (hr : Reach go N) (hp : 3 * p.left < N) :
    Ends (expr go) p :=
  ends_then (fun _ h => ends_and hgo hr h) (built_and.keeps hgo) (hr.loop rfl) hp

theorem ends_arg (hgo : ∀ r, Keeps (go r)) (hr : Reach go N) (hp : 3 * p.left < N) :
    Ends (arg go) p := by
  refine ends_if (fun h => ?_) fun _ => ends_expr hgo hr hp
  obtain ⟨t, ht⟩ : ∃ t, p.peek = some t := by
    have h := ((Bool.and_eq_true _ _).mp h).1
    rcases (Bool.or_eq_true _ _).mp h with h | h
    · rcases (Bool.or_eq_true _ _).mp h with h | h
      · exact peek_of_at h
      · exact peek_of_at h
    · exact peek_of_at h
  have hle : p.inner.left ≤ p.left := left_eatTrivia p
  refine .node ((takes_bump ((peek_inner p).trans ht)).ends (N := N) (.inr rfl) (by omega) fun _ q hq => ?_)
  refine Ends.bind (.inr rfl) fun _ r hr' => hr.call .arg r ?_
  have hle := left_of_ended keeps_bump hr'
  omega

/-! ## Statements -/

theorem ends_expect (k : SyntaxKind) (context : String) (p : Parser) : Ends (expect k context) p :=
  ends_if (fun _ => .inr rfl) fun _ => (ends_error _ _ _).bind fun _ _ _ => ends_pure _ _

theorem ends_want (k : SyntaxKind) (context : String) (p : Parser) : Ends (want k context) p :=
  (ends_expect k context p).bind fun _ _ _ => ends_pure _ _

theorem ends_asName (p : Parser) : Ends asName p :=
  ends_if (fun _ => Ends.bind (.inr rfl) fun _ q _ => ends_want _ _ q) fun _ => ends_pure _ _

theorem ends_step (hgo : ∀ r, Keeps (go r)) (hr : Reach go N) (hp : 3 * p.left < N) :
    Ends (step go) p := by
  have hle : p.inner.left ≤ p.left := left_eatTrivia p
  refine Ends.node ((ends_postfixed hgo hr (by omega)).bind fun _ q hq => ?_)
  have hq := left_of_ended (built_postfixed.keeps hgo) hq
  exact (hr.loop (r := .commas) rfl q (by omega)).bind fun _ q _ => ends_asName q

theorem ends_stepOrPipeline (hgo : ∀ r, Keeps (go r)) (hr : Reach go N) (hp : 3 * p.left < N) :
    Ends (stepOrPipeline go) p := by
  refine Ends.bind ?_ fun _ q _ => ends_expectNewline _ q
  refine ends_then (fun _ h => ends_step hgo hr h) (built_step.keeps hgo) (fun q h => ?_) hp
  exact ends_if (fun _ => .wrap (hr.loop rfl q h)) fun _ => ends_pure _ _

theorem ends_stmt (hgo : ∀ r, Keeps (go r)) (hr : Reach go N) (hp : 3 * p.left < N) :
    Ends (stmt go) p := by
  refine ends_if (fun _ => ends_pure _ _) fun heof => ?_
  obtain ⟨t, ht⟩ := Option.isSome_iff_exists.mp (by simpa [Parser.atEof] using heof)
  have leads : ∀ {m : M Unit}, Leads go m → Ends m p := fun h =>
    h.ends hgo hr (Nat.le_of_lt hp) ht
  refine ends_if (fun _ => leads leads_contribution) fun _ => ?_
  show Ends (if (!p.at_ .name) = true then _ else _) p
  split
  · exact (ends_error _ _ p).bind fun _ q _ => ends_bumpNewline q
  · refine ends_if (fun _ => leads leads_block) fun _ => ends_if (fun _ => leads leads_knell) fun _ => ?_
    refine ends_if (fun _ => leads leads_slot) fun _ => ends_if (fun _ => leads leads_observe) fun _ => ?_
    refine ends_if (fun _ => leads leads_assert) fun _ => ends_if (fun _ => leads leads_repeat) fun _ => ?_
    exact ends_if (fun _ => leads leads_when) fun _ =>
      ends_if (fun _ => ends_stepOrPipeline hgo hr hp) fun _ => leads leads_line

theorem ends_statements (hgo : ∀ r, Keeps (go r)) (hr : Reach go N) (hp : 3 * p.left + 1 < N) :
    Ends (statements go) p := by
  refine ends_if (fun _ => ends_pure _ _) fun hend => ends_if (fun hline => ?_) fun _ =>
    ends_if (fun _ => ends_missingEnd _ p) fun _ => ?_
  · obtain ⟨t, ht⟩ := peek_of_at hline
    exact (takes_bump ht).ends (N := N) (.inr rfl) (by omega) fun _ => hr.call _
  · simp only [Bool.or_eq_false_iff] at hend
    obtain ⟨t, ht⟩ := Option.isSome_iff_exists.mp (by simpa [Parser.atEof] using hend.1.1)
    refine (takes_statement hgo ht).ends (N := N) ?_ (by omega) fun _ => hr.call _
    show Ends (go .stmt >>= fun _ =>
      whenAt (fun q => decide (q.done.length = p.done.length)) (node .error bump)) p
    exact Ends.bind (hr .stmt p hp) fun _ q _ => ends_if (fun _ => .inr rfl) fun _ => ends_pure _ _

/-! ## The loops that are told -/

theorem Parser.Lost.mono (h : p.Lost) (hg : Grows p q) : q.Lost := by
  obtain ⟨t, ht, hd⟩ := h
  exact ⟨t, hg.turns.subset ht, hd⟩

/-- Dead, the turn is told; else it takes a token. -/
theorem ends_loop {header : Bool} {g : Parser → Bool} {m : M Unit} {r : Rule}
    (hgo : ∀ r, Keeps (go r)) (hr : Reach go N) (hp : 3 * p.left ≤ N) (hk : Keeps m)
    (hm : g (p.told header) = false → Ends m (p.told header))
    (ht : g (p.told header) = false → ¬(p.told header).Stuck header → Takes m (p.told header)) :
    Ends (do
      turn header
      unlessAt g do
        m
        go r) p := by
  by_cases hs : p.Stuck header
  · have hlost : (p.told header).Lost :=
      ⟨_, List.mem_append_right _ (List.mem_singleton_self _), hs⟩
    refine .inl (hlost.mono ?_)
    exact keeps_if (fun _ _ => .refl _) (fun _ _ => keeps_bind hk (fun _ => hgo r) _) _
  · show Ends (unlessAt g (m >>= fun _ => go r)) (p.told header)
    refine ends_if (fun _ => ends_pure _ _) fun hg => ?_
    exact (ht hg hs).ends (hm hg) hp fun _ => hr.call r

theorem ends_top (hgo : ∀ r, Keeps (go r)) (hr : Reach go N) (hp : 3 * p.left ≤ N)
    (ht : p.peek = some t) : Ends (top go) p := by
  have leads : ∀ {m : M Unit}, Leads go m → Ends m p := fun h => h.ends hgo hr hp ht
  refine ends_if (fun _ => .inr rfl) fun _ => Ends.bind ?_ fun _ q _ => ends_bumpNewline q
  exact ends_if (fun _ => leads leads_def) fun _ => ends_if (fun _ => leads leads_block) fun _ =>
    ends_if (fun _ => leads leads_import) fun _ => ends_error _ _ p

theorem ends_headerPart (hr : Reach go N) (hp : 3 * p.left + 1 < N) : Ends (headerPart go) p :=
  ends_if (fun _ => .inr rfl) fun _ => ends_if (fun _ => ends_asName p) fun _ => hr .arg p hp

/-- The parser ends, in three calls for a token, unless it comes to a dead turn. -/
theorem ends_run (n : Nat) : Reach (run n) n := by
  induction n with
  | zero => exact fun r q h => absurd h (Nat.not_lt_zero _)
  | succ n ih =>
      intro r p hp
      have hgo := keeps_run n
      cases r with
      | tops =>
          have hp : 3 * p.left ≤ n := Nat.le_of_lt_succ hp
          have hpeek : (p.told false).atEof = false → ∃ t, (p.told false).peek = some t := fun h =>
            Option.isSome_iff_exists.mp (by simpa [Parser.atEof] using h)
          refine ends_loop hgo ih hp (keeps_top hgo) (fun h => ?_) fun h hs => ?_
          · obtain ⟨t, ht⟩ := hpeek h
            exact ends_top (p := p.told false) hgo ih hp ht
          · obtain ⟨t, ht⟩ := hpeek h
            exact takes_top hgo ht hs
      | header =>
          have hp : 3 * p.left + 2 ≤ n := Nat.le_of_lt_succ hp
          refine ends_loop hgo ih (by omega) (built_headerPart.keeps hgo)
            (fun _ => ends_headerPart (p := p.told true) ih hp) fun h hs => ?_
          simp only [Bool.or_eq_false_iff] at h
          obtain ⟨t, ht⟩ := Option.isSome_iff_exists.mp (by simpa [Parser.atEof] using h.2)
          refine takes_headerPart ht (fun hn => ?_) hs
          have hk : (p.told true).kind = some t.kind := congrArg (Option.map Token.kind) ht
          have hline : (p.told true).at_ .newline = true :=
            decide_eq_true (hk.trans (congrArg some hn))
          rw [h.1.2] at hline
          cases hline
      | statements => exact ends_statements hgo ih (Nat.le_of_lt_succ hp)
      | stmt => exact ends_stmt hgo ih (Nat.le_of_lt_succ hp)
      | arg => exact ends_arg hgo ih (Nat.le_of_lt_succ hp)
      | expr => exact ends_expr hgo ih (Nat.le_of_lt_succ hp)
      | not_ => exact ends_not hgo ih (Nat.le_of_lt_succ hp)
      | unary => exact ends_unary hgo ih (Nat.le_of_lt_succ hp)
      | pipes =>
          exact ends_whenAt (.bind .bump fun _ => .bind built_step fun _ => .call _ rfl) hgo ih
            (Nat.le_of_lt_succ hp) peek_of_at
      | commas =>
          exact ends_whenAt (.bind .bump fun _ => .bind (.call _ rfl) fun _ => .call _ rfl) hgo ih
            (Nat.le_of_lt_succ hp) peek_of_at
      | entries =>
          exact ends_whenAt (.bind .bump fun _ => .bind built_recordEntry fun _ => .call _ rfl) hgo ih
            (Nat.le_of_lt_succ hp) peek_of_at
      | dots =>
          exact ends_whenAt (.bind .bump fun _ => .bind (built_want rfl _) fun _ => .call _ rfl) hgo ih
            (Nat.le_of_lt_succ hp) peek_of_at
      | ors => exact ends_chain built_and (.call _ rfl) hgo ih (Nat.le_of_lt_succ hp) peek_of_name
      | ands => exact ends_chain built_not (.call _ rfl) hgo ih (Nat.le_of_lt_succ hp) peek_of_name
      | adds => exact ends_chain built_mul (.call _ rfl) hgo ih (Nat.le_of_lt_succ hp) peek_of_kinds
      | muls => exact ends_chain built_unary (.call _ rfl) hgo ih (Nat.le_of_lt_succ hp) peek_of_kinds

/-! ## A greater depth -/

/-- The second does what the first does, and goes on where that does not end. -/
def Deepens (m m' : M α) : Prop :=
  ∀ p, m p = m' p ∨ (m p).1 = none ∧ (m p).2.turns <+: (m' p).2.turns

/-- The turns there are stay. -/
def Tells (m : M α) : Prop := ∀ p, p.turns <+: (m p).2.turns

theorem Keeps.tells (h : Keeps m) : Tells m := fun p => (h p).turns

theorem turns_bind (hf : ∀ a, Tells (f a)) : (m p).2.turns <+: ((m >>= f) p).2.turns := by
  rcases hp : m p with ⟨_ | a, q⟩
  · exact bind_none (f := f) hp ▸ List.prefix_refl _
  · rw [bind_some hp]
    exact hf a q

theorem Tells.bind (hm : Tells m) (hf : ∀ a, Tells (f a)) : Tells (m >>= f) :=
  fun p => (hm p).trans (turns_bind hf)

theorem Deepens.refl (m : M α) : Deepens m m := fun _ => .inl rfl

theorem Deepens.bind {m' : M α} {f' : α → M β} (hm : Deepens m m')
    (hf : ∀ a, Deepens (f a) (f' a)) (hk : ∀ a, Tells (f' a)) :
    Deepens (m >>= f) (m' >>= f') := by
  intro p
  rcases hm p with he | ⟨hnone, hturns⟩
  · rcases hp : m' p with ⟨_ | a, q⟩
    · exact .inl ((bind_none (he.trans hp)).trans (bind_none hp).symm)
    · rw [bind_some (he.trans hp), bind_some hp]
      exact hf a q
  · have h : (m >>= f) p = (none, (m p).2) := bind_none (Prod.ext hnone rfl)
    rw [h]
    exact .inr ⟨rfl, hturns.trans (turns_bind hk)⟩

theorem Deepens.ite {c : Prop} [Decidable c] {m₁ m₁' m₂ m₂' : M α} (h : Deepens m₁ m₁')
    (h' : Deepens m₂ m₂') : Deepens (if c then m₁ else m₂) (if c then m₁' else m₂') := by
  split
  · exact h
  · exact h'

theorem deepens_if {g : Parser → Bool} {m₁ m₁' m₂ m₂' : M α} (h : Deepens m₁ m₁')
    (h' : Deepens m₂ m₂') :
    Deepens (do if ← look g then m₁ else m₂) (do if ← look g then m₁' else m₂') :=
  fun p => (Deepens.ite (c := g p = true) h h') p

theorem Deepens.node {m' : M α} (h : Deepens m m') : Deepens (node k m) (node k m') := by
  intro p
  refine (h p.inner).imp (fun he => ?_) id
  exact congrArg (fun x : Option α × Parser =>
    (x.1, { x.2 with children := p.eatTrivia.children ++ [Tree.node k x.2.children] })) he

theorem Deepens.frame {m' : M α} (h : Deepens m m') : Deepens (frame m) (frame m') := by
  intro p
  refine (h p.inner).imp (fun he => ?_) id
  exact congrArg (fun x : Option α × Parser =>
    (x.1, { x.2 with children := p.eatTrivia.children ++ x.2.children })) he

theorem Deepens.wrap {m' : M α} (h : Deepens m m') : Deepens (wrap k m) (wrap k m') := by
  intro p
  refine (h p).imp (fun he => ?_) id
  exact congrArg (fun x : Option α × Parser =>
    (x.1, { x.2 with children := [Tree.node k x.2.children] })) he

theorem Alike.symm {go' : Calls} {m' : M α} {i : Nat} (h : Alike go go' i m m') :
    Alike go' go i m' m := by
  induction h with
  | pure a => exact .pure a
  | bind _ _ ihm ihf => exact .bind ihm ihf
  | look tells hg ht _ ih => exact .look tells hg ht ih
  | kind hn hn' _ ih => exact .kind hn' hn ih
  | bump => exact .bump
  | bumpThen _ ih => exact .bumpThen ih
  | trivia => exact .trivia
  | node hk _ ih => exact .node hk ih
  | frame _ ih => exact .frame ih
  | wrap hk _ ih => exact .wrap hk ih
  | error => exact .error _ _
  | missingEnd => exact .missingEnd _
  | report => exact .report _ _ _ _ _
  | remark _ ih => exact .remark ih
  | expectNewline => exact .expectNewline _
  | bumpNewline => exact .bumpNewline
  | call r hr => exact .call r hr
  | stmt => exact .stmt

theorem Alike.deepens {go' : Calls} {m' : M α} {i : Nat} (h : Alike go go' i m m')
    (hgo : ∀ r, Deepens (go r) (go' r)) (hk : ∀ r, Keeps (go' r)) : Deepens m m' := by
  induction h with
  | pure a => exact .refl _
  | bind _ hf ihm ihf => exact ihm.bind ihf fun a => ((hf a).symm.grows hk).tells
  | look _ _ _ hf ih =>
      exact (Deepens.refl _).bind ih fun a => ((hf a).symm.grows hk).tells
  | kind _ _ hf ih => exact (Deepens.refl _).bind ih fun a => ((hf a).symm.grows hk).tells
  | bump => exact .refl _
  | bumpThen hf ih => exact (Deepens.refl _).bind (fun _ => ih) fun _ => (hf.symm.grows hk).tells
  | trivia => exact .refl _
  | node _ _ ih => exact ih.node
  | frame _ ih => exact ih.frame
  | wrap _ _ ih => exact ih.wrap
  | error => exact .refl _
  | missingEnd => exact .refl _
  | report => exact .refl _
  | remark hf ih => exact (Deepens.refl _).bind (fun _ => ih) fun _ => (hf.symm.grows hk).tells
  | expectNewline => exact .refl _
  | bumpNewline => exact .refl _
  | call r => exact hgo r
  | stmt => exact hgo .stmt

/-- A loop that is told. -/
theorem deepens_loop {go' : Calls} {header : Bool} {g : Parser → Bool} {m m' : M Unit} {r : Rule}
    (hm : Deepens m m') (hm' : Keeps m') (hgo : Deepens (go r) (go' r)) (hk : Keeps (go' r)) :
    Deepens (do
      turn header
      unlessAt g do
        m
        go r) (do
      turn header
      unlessAt g do
        m'
        go' r) :=
  (Deepens.refl _).bind (fun _ => deepens_if (.refl _) (hm.bind (fun _ => hgo) fun _ => hk.tells))
    fun _ => (keeps_if (fun _ _ => .refl _) fun _ _ => keeps_bind hm' (fun _ => hk) _).tells

theorem tells_step (f : Parser → Bool) : Tells (whenAt f (node .error bump)) := by
  intro p
  show p.turns <+: ((if f p = true then node .error bump else pure () : M Unit) p).2.turns
  split
  · exact (turns_bump p.inner).symm ▸ List.prefix_refl _
  · exact List.prefix_refl _

theorem deepens_statement {go' : Calls} (hgo : Deepens (go .stmt) (go' .stmt))
    (hk : Keeps (go' .stmt)) : Deepens (statement go) (statement go') :=
  (Deepens.refl _).bind (fun _ => hgo.bind (fun _ => .refl _) fun _ => tells_step _)
    fun _ => hk.tells.bind fun _ => tells_step _

theorem deepens_rule {go' : Calls} (hgo : ∀ r, Deepens (go r) (go' r)) (hk : ∀ r, Keeps (go' r))
    (r : Rule) : Deepens (rule go r) (rule go' r) := by
  refine rule_cases ?_ ?_ ?_ ?_ ?_ (fun _ _ h => h.deepens hgo hk) r
  · have htop : Deepens (top go) (top go') :=
      deepens_if (.refl _) ((Alike.deepens (i := 0) built_topForm hgo hk).bind (fun _ => .refl _)
        fun _ => keeps_bumpNewline.tells)
    exact deepens_loop htop (keeps_top hk) (hgo _) (hk _)
  · exact deepens_loop (Alike.deepens (i := 0) built_headerPart hgo hk) (built_headerPart.keeps hk)
      (hgo _) (hk _)
  · refine deepens_if (.refl _) (deepens_if ?_ (deepens_if (.refl _) ?_))
    · exact (Deepens.refl _).bind (fun _ => hgo _) fun _ => (hk _).tells
    · exact (deepens_statement (hgo _) (hk _)).bind (fun _ => hgo _) fun _ => (hk _).tells
  · exact deepens_if (.refl _) (Alike.deepens (i := 0) built_stmtForm hgo hk)
  · refine deepens_if ((Deepens.refl _).bind (fun _ => (Deepens.refl _).bind (fun _ => hgo _)
      fun _ => (hk _).tells) fun _ => ?_) (.refl _)
    exact (keeps_bind ((built_want rfl _).keeps hk) fun _ => hk _).tells

theorem deepens_run {n n' : Nat} (h : n ≤ n') (r : Rule) : Deepens (run n r) (run n' r) := by
  induction n generalizing n' r with
  | zero => exact fun p => .inr ⟨rfl, (keeps_run n' r p).turns⟩
  | succ n ih =>
      obtain ⟨m, rfl⟩ : ∃ m, n' = m + 1 := ⟨n' - 1, by omega⟩
      exact deepens_rule (fun r => ih (Nat.le_of_succ_le_succ h) r) (keeps_run m) r

/-! ## The file -/

theorem keeps_version : Keeps version := by
  intro p
  have h : Built (run 0) (versionAt p.peekIndex) := built_version _
  exact h.keeps (keeps_run 0) p

theorem keeps_file (n : Nat) : Keeps (file_ (run n)) :=
  keeps_bind keeps_version fun _ => keeps_bind (keeps_run n _) fun _ => grows_eatTrivia

theorem doomed_version : Doomed version := by
  intro p
  have h : Built (run 0) (versionAt p.peekIndex) := built_version _
  exact h.doomed (doomed_run 0) p

theorem doomed_file (n : Nat) : Doomed (file_ (run n)) :=
  doomed_version.bind fun _ => (doomed_run n _).bind fun _ => .of_turns fun _ => rfl

theorem ends_marker (index : Nat) (p : Parser) : Ends (marker index) p := by
  unfold Ends
  cases h : (bump p).2.int with
  | none =>
      rw [marker_none h]
      exact (ends_error _ _ _).bind fun _ q _ => ends_bumpNewline q
  | some v =>
      rw [marker_some h]
      refine Ends.bind ?_ fun _ q _ => Ends.bind (.inr rfl) fun _ q _ => ends_expectNewline _ q
      exact ends_if (fun _ => .inr rfl) fun _ => ends_pure _ _

theorem ends_version (p : Parser) : Ends version p := by
  refine ends_if (g := fun q => q.atName "rescind" || p.atName "rue") (fun _ => ?_) fun _ => .inr rfl
  refine Ends.bind ?_ fun _ q _ => Ends.node (ends_marker _ _)
  exact ends_if (fun _ => .inr rfl) fun _ => ends_pure _ _

theorem ends_file {n : Nat} (h : 3 * p.left < n) : Ends (file_ (run n)) p := by
  refine (ends_version p).bind fun _ q hq => ?_
  have hle := left_of_ended keeps_version hq
  exact (ends_run n .tops q (show 3 * q.left + 0 < n by omega)).bind fun _ _ _ => .inr rfl

theorem deepens_file {n n' : Nat} (h : n ≤ n') : Deepens (file_ (run n)) (file_ (run n')) :=
  (Deepens.refl _).bind
    (fun _ => (deepens_run h _).bind (fun _ => .refl _) fun _ => Keeps.tells grows_eatTrivia)
    fun _ => Keeps.tells (keeps_bind (keeps_run n' _) fun _ => grows_eatTrivia)

end

end Rescind.Surface
