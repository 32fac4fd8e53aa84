/-
# `Rescind.Surface.Descent` — what the parser's functions are built of

Every function of the parser but the loop over statements and the two loops that are
told is built of the same steps, and looks only at what is ahead.  What each step
keeps, every function keeps.

**Proved here.**

    the functions of the parser are built of its steps             (`rule_cases`)
    tokens move from what is left to the tree, in order, and each ERROR node is on a
    line a diagnostic is on                                       (`Alike.keeps`)
-/
import Rescind.Surface.Parser
import Mathlib.Data.List.TakeWhile

namespace Rescind.Surface

/-! ## Steps -/

/-- A token as the parser sees it: a newline is one however it is written. -/
def Token.seen (t : Token) : Token := if t.kind = .newline then ⟨.newline, ['\n']⟩ else t

/-- What is ahead: the significant tokens, and whether the parser is quieted. -/
def Parser.view (p : Parser) : List Token × Bool :=
  ((significant p.rest).map Token.seen, p.suppress)

/-- The end of a line. -/
def lineEnd : Token := ⟨.newline, ['\n']⟩

/-- What is ahead of the one is ahead of the other, and after it there may be the end of a
line. -/
def Beside (p q : Parser) : Prop :=
  p.suppress = q.suppress ∧ (q.view.1 = p.view.1 ∨ q.view.1 = p.view.1 ++ [lineEnd])

/-- It depends on what is ahead only, and not on whether the last line is ended. -/
def Ahead {β : Type} (f : Parser → β) : Prop := ∀ p q : Parser, Beside p q → f p = f q

/-- Neither the end of a line, nor unknown, nor a dot. -/
def SyntaxKind.solid (k : SyntaxKind) : Bool := k ≠ .newline && k ≠ .errorToken && k ≠ .dot

def Token.solid (t : Token) : Bool := t.kind.solid

/-- So many solid tokens are ahead. -/
def Parser.Solid (p : Parser) (n : Nat) : Prop :=
  n ≤ ((significant p.rest).takeWhile Token.solid).length

/-- How many solid tokens the kind ahead shows. -/
def solidKind (k : Option SyntaxKind) : Nat := if k.any SyntaxKind.solid then 1 else 0

/-- Built of the same steps, and of the calls of the one and of the other; so many solid
tokens are known to be ahead, and only such a token is taken unless a line is to end. -/
inductive Alike (go go' : Calls) : Nat → {α : Type} → M α → M α → Prop where
  | pure {n : Nat} {α : Type} (a : α) : Alike go go' n (Pure.pure a : M α) (Pure.pure a)
  | bind {n : Nat} {α β : Type} {m m' : M α} {f f' : α → M β} (hm : Alike go go' n m m')
      (hf : ∀ a, Alike go go' 0 (f a) (f' a)) : Alike go go' n (m >>= f) (m' >>= f')
  | look {n : Nat} {α β : Type} {g : Parser → α} {f f' : α → M β} (tells : α → Nat)
      (hg : Ahead g) (ht : ∀ p : Parser, p.Solid (tells (g p)))
      (hf : ∀ a, Alike go go' (max n (tells a)) (f a) (f' a)) :
      Alike go go' n (look g >>= f) (look g >>= f')
  | kind {n : Nat} {f f' : Option SyntaxKind → M Unit} {expected context : String}
      (hn : f none = error expected context) (hn' : f' none = error expected context)
      (hf : ∀ k, Alike go go' (max n (solidKind k)) (f k) (f' k)) :
      Alike go go' n (look Parser.kind >>= f) (look Parser.kind >>= f')
  | bump {n : Nat} : Alike go go' (n + 1) bump bump
  | bumpThen {n : Nat} {α : Type} {f f' : Unit → M α} (hf : Alike go go' n (f ()) (f' ())) :
      Alike go go' (n + 1) (bump >>= f) (bump >>= f')
  | trivia {n : Nat} : Alike go go' n (update Parser.eatTrivia) (update Parser.eatTrivia)
  | node {n : Nat} {α : Type} {k : SyntaxKind} {m m' : M α} (hk : k ≠ .error)
      (hm : Alike go go' n m m') : Alike go go' n (node k m) (node k m')
  | frame {n : Nat} {α : Type} {m m' : M α} (hm : Alike go go' n m m') :
      Alike go go' n (frame m) (frame m')
  | wrap {n : Nat} {α : Type} {k : SyntaxKind} {m m' : M α} (hk : k ≠ .error)
      (hm : Alike go go' n m m') : Alike go go' n (wrap k m) (wrap k m')
  | error {n : Nat} (expected context : String) :
      Alike go go' n (error expected context) (error expected context)
  | missingEnd {n : Nat} (context : String) :
      Alike go go' n (missingEnd context) (missingEnd context)
  | report {n : Nat} (code : String) (index : Nat) (expected found : Option String)
      (message : String) : Alike go go' n (update (·.report code index expected found message))
        (update (·.report code index expected found message))
  | remark {n : Nat} {α : Type} {c : Bool} {code : String} {index : Nat}
      {expected found : Option String} {message : String} {f f' : Unit → M α}
      (hf : Alike go go' n (f ()) (f' ())) :
      Alike go go' n
        (whenAt (fun _ => c) (update (·.report code index expected found message)) >>= f)
        (whenAt (fun _ => c) (update (·.report code index expected found message)) >>= f')
  | expectNewline {n : Nat} (context : String) :
      Alike go go' n (expectNewline context) (expectNewline context)
  | bumpNewline {n : Nat} : Alike go go' n bumpNewline bumpNewline
  | call {n : Nat} (r : Rule) (hr : decide (r = .stmt) = false) : Alike go go' n (go r) (go' r)
  | stmt {n : Nat} : Alike go go' (n + 1) (go .stmt) (go' .stmt)

/-- They start by taking the token ahead. -/
inductive Led (go go' : Calls) : {α : Type} → M α → M α → Prop where
  | bump : Led go go' bump bump
  | bind {α β : Type} {m m' : M α} {f f' : α → M β} (hm : Led go go' m m')
      (hf : ∀ a, Alike go go' 0 (f a) (f' a)) : Led go go' (m >>= f) (m' >>= f')
  | look {α β : Type} {g : Parser → α} {f f' : α → M β} (hg : Ahead g)
      (hf : ∀ a, Led go go' (f a) (f' a)) : Led go go' (look g >>= f) (look g >>= f')
  | node {α : Type} {k : SyntaxKind} {m m' : M α} (hk : k ≠ .error) (hm : Led go go' m m') :
      Led go go' (node k m) (node k m')
  | frame {α : Type} {m m' : M α} (hm : Led go go' m m') : Led go go' (frame m) (frame m')
  | wrap {α : Type} {k : SyntaxKind} {m m' : M α} (hk : k ≠ .error) (hm : Led go go' m m') :
      Led go go' (wrap k m) (wrap k m')

/-- Built of steps, and of calls. -/
abbrev Built (go : Calls) {α : Type} (m : M α) : Prop := Alike go go 0 m m

/-- It starts by taking the token ahead. -/
abbrev Leads (go : Calls) {α : Type} (m : M α) : Prop := Led go go m m

/-! ## What is ahead -/

section
variable {p q : Parser} {β γ : Type}

/-- What is seen of a token's kind and name is the same however it is written. -/
theorem kind_seen (t : Token) : t.seen.kind = t.kind := by
  unfold Token.seen
  split
  next h => exact h.symm
  next => rfl

theorem isName_seen (t : Token) (s : String) : t.seen.isName s = t.isName s := by
  unfold Token.seen
  split
  next h => simp [Token.isName, h]
  next => rfl

theorem closed_seen (t : Token) : t.seen.closed = t.closed := by
  unfold Token.seen
  split
  next h => simp [Token.closed, h]
  next => rfl

theorem seen_of_view (h : q.view = p.view) : q.peek.map Token.seen = p.peek.map Token.seen := by
  show (significant q.rest).head?.map Token.seen = (significant p.rest).head?.map Token.seen
  rw [← List.head?_map, ← List.head?_map]
  exact congrArg (fun v => v.1.head?) h

theorem seen2_of_view (h : q.view = p.view) :
    q.peek2.map Token.seen = p.peek2.map Token.seen := by
  show (significant q.rest)[1]?.map Token.seen = (significant p.rest)[1]?.map Token.seen
  rw [← List.getElem?_map, ← List.getElem?_map]
  exact congrArg (fun v => v.1[1]?) h

theorem kind_eq_seen (t : Option Token) :
    t.map Token.kind = (t.map Token.seen).map Token.kind := by
  rw [Option.map_map]
  exact congrArg (t.map ·) (funext fun t => (kind_seen t).symm)

theorem kind_of_view (h : q.view = p.view) : q.kind = p.kind := by
  show q.peek.map Token.kind = p.peek.map Token.kind
  rw [kind_eq_seen, seen_of_view h, ← kind_eq_seen]

theorem at_of_view (h : q.view = p.view) (k : SyntaxKind) : q.at_ k = p.at_ k :=
  congrArg (decide <| · = some k) (kind_of_view h)

theorem kind2_of_view (h : q.view = p.view) :
    q.peek2.map Token.kind = p.peek2.map Token.kind := by
  rw [kind_eq_seen, seen2_of_view h, ← kind_eq_seen]

/-- What is asked of the token ahead, that the end of a line is not. -/
theorem ahead_any {f : Token → Bool} (hf : ∀ t, f t.seen = f t) (hn : f lineEnd = false) :
    Ahead fun p => p.peek.any f := by
  have key : ∀ p : Parser, p.peek.any f = p.view.1.head?.any f := by
    intro p
    show (significant p.rest).head?.any f = ((significant p.rest).map Token.seen).head?.any f
    rw [List.head?_map]
    cases (significant p.rest).head? with
    | none => rfl
    | some t => exact (hf t).symm
  intro p q ⟨_, h⟩
  dsimp only
  rw [key, key]
  rcases h with h | h
  · rw [h]
  · rw [h]
    cases p.view.1 with
    | nil => exact hn.symm
    | cons t ts => rfl

/-- What is asked of the token after it. -/
theorem ahead_any2 {f : Token → Bool} (hf : ∀ t, f t.seen = f t) (hn : f lineEnd = false) :
    Ahead fun p => p.peek2.any f := by
  have key : ∀ p : Parser, p.peek2.any f = p.view.1[1]?.any f := by
    intro p
    show (significant p.rest)[1]?.any f = ((significant p.rest).map Token.seen)[1]?.any f
    rw [List.getElem?_map]
    cases (significant p.rest)[1]? with
    | none => rfl
    | some t => exact (hf t).symm
  intro p q ⟨_, h⟩
  dsimp only
  rw [key, key]
  rcases h with h | h
  · rw [h]
  · rw [h]
    rcases p.view.1 with _ | ⟨t, _ | ⟨u, us⟩⟩
    · rfl
    · exact hn.symm
    · rfl

theorem at_eq (p : Parser) (k : SyntaxKind) : p.at_ k = p.peek.any fun t => t.kind = k := by
  show decide (p.peek.map Token.kind = some k) = _
  cases p.peek with
  | none => rfl
  | some t => exact decide_eq_decide.mpr Option.some_inj

theorem ahead_at {k : SyntaxKind} (hk : k ≠ .newline) : Ahead (Parser.at_ · k) := by
  have h : (Parser.at_ · k) = fun p => p.peek.any fun t => t.kind = k := funext fun p => at_eq p k
  rw [h]
  exact ahead_any (fun t => by rw [kind_seen]) (decide_eq_false hk.symm)

theorem ahead_name (s : String) : Ahead (Parser.atName · s) :=
  ahead_any (fun t => isName_seen t s) rfl

theorem Ahead.comp {f : Parser → β} (hf : Ahead f) (g : β → γ) : Ahead fun p => g (f p) :=
  fun p q h => congrArg g (hf p q h)

theorem Ahead.comp₂ {γ δ : Type} {f : Parser → β} {f' : Parser → γ} (hf : Ahead f)
    (hf' : Ahead f') (g : β → γ → δ) : Ahead fun p => g (f p) (f' p) :=
  fun p q h => congr (congrArg g (hf p q h)) (hf' p q h)

theorem ahead_const (b : β) : Ahead fun _ => b := fun _ _ _ => rfl

/-- Whether the line is at its end. -/
theorem ahead_lineEnd : Ahead fun p => p.at_ .newline || p.atEof := by
  have key : ∀ p : Parser, (p.at_ .newline || p.atEof) =
      p.view.1.head?.all fun t => t.kind = .newline := by
    intro p
    rw [at_eq]
    show (p.peek.any _ || p.peek.isNone) =
      ((significant p.rest).map Token.seen).head?.all fun t => t.kind = .newline
    rw [List.head?_map]
    show (p.peek.any _ || p.peek.isNone) = (p.peek.map Token.seen).all fun t => t.kind = .newline
    cases p.peek with
    | none => rfl
    | some t =>
        show (decide (t.kind = .newline) || false) = decide (t.seen.kind = .newline)
        rw [Bool.or_false, kind_seen]
  intro p q ⟨_, h⟩
  dsimp only
  rw [key, key]
  rcases h with h | h
  · rw [h]
  · rw [h]
    cases p.view.1 with
    | nil => rfl
    | cons t ts => rfl

/-! ## Solid tokens -/

theorem solid_zero (p : Parser) : p.Solid 0 := Nat.zero_le _

theorem solid_one {t : Token} (ht : p.peek = some t) (hk : t.solid = true) : p.Solid 1 := by
  unfold Parser.Solid
  unfold Parser.peek at ht
  obtain ⟨ts, hts⟩ := List.head?_eq_some_iff.mp ht
  rw [hts, List.takeWhile_cons_of_pos hk]
  exact Nat.succ_le_succ (Nat.zero_le _)

/-- A question that depends on what is ahead only; answered yes, a solid token is. -/
structure Sights (f : Parser → Bool) : Prop where
  ahead : Ahead f
  solid : ∀ p, f p = true → p.Solid 1

theorem SyntaxKind.solid_ne {k : SyntaxKind} (h : k.solid = true) : k ≠ .newline := by
  rintro rfl
  cases h

theorem sights_any {f : Token → Bool} (hf : ∀ t, f t.seen = f t)
    (hs : ∀ t, f t = true → t.solid = true) : Sights fun p => p.peek.any f where
  ahead := ahead_any hf (Bool.eq_false_iff.mpr fun h => absurd (hs _ h) (by decide))
  solid p h := by
    cases ht : p.peek with
    | none => simp [ht] at h
    | some t => exact solid_one ht (hs t (by simpa [ht] using h))

theorem sights_at {k : SyntaxKind} (hk : k.solid = true) : Sights (Parser.at_ · k) where
  ahead := ahead_at (SyntaxKind.solid_ne hk)
  solid p h := by
    rw [at_eq] at h
    refine (sights_any (f := fun t => t.kind = k) (fun t => by rw [kind_seen]) fun t ht => ?_).solid p h
    exact (congrArg SyntaxKind.solid (of_decide_eq_true ht)).trans hk

theorem sights_name (s : String) : Sights (Parser.atName · s) :=
  sights_any (fun t => isName_seen t s) fun t h => by
    simp only [Token.isName, Bool.and_eq_true, decide_eq_true_eq] at h
    exact congrArg SyntaxKind.solid h.1

theorem Sights.or {f g : Parser → Bool} (hf : Sights f) (hg : Sights g) :
    Sights fun p => f p || g p where
  ahead := hf.ahead.comp₂ hg.ahead (· || ·)
  solid p h := ((Bool.or_eq_true _ _).mp h).elim (hf.solid p) (hg.solid p)

theorem Sights.given {f : Parser → Bool} (hf : Sights f) (c : Bool) :
    Sights fun p => c && f p where
  ahead := hf.ahead.comp (c && ·)
  solid p h := hf.solid p ((Bool.and_eq_true _ _).mp h).2

theorem sights_names (names : List String) : Sights fun p => names.any p.atName where
  ahead p q h := congrArg (List.any names) (funext fun s => ahead_name s p q h)
  solid p h := by
    obtain ⟨s, -, hs⟩ := List.any_eq_true.mp h
    exact (sights_name s).solid p hs

theorem sights_kinds {ks : List SyntaxKind} (hks : ks.all SyntaxKind.solid = true) :
    Sights fun p => ks.any p.at_ where
  ahead := by
    have h : (fun p : Parser => ks.any p.at_) = fun p => p.peek.any fun t => ks.any fun k => t.kind = k := by
      funext p
      rw [show p.at_ = fun k => p.peek.any fun t => t.kind = k from funext (at_eq p)]
      cases p.peek with
      | none => simp
      | some t => rfl
    rw [h]
    refine ahead_any (fun t => by simp only [kind_seen]) (List.any_eq_false.mpr fun k hk => ?_)
    have hs := List.all_eq_true.mp hks k hk
    exact fun he => SyntaxKind.solid_ne hs (of_decide_eq_true he).symm
  solid p h := by
    obtain ⟨k, hk, hat⟩ := List.any_eq_true.mp h
    exact (sights_at (List.all_eq_true.mp hks k hk)).solid p hat

theorem sights_word : Sights fun p => p.at_ .name || p.at_ .upperName || p.at_ .string :=
  ((sights_at rfl).or (sights_at rfl)).or (sights_at rfl)

end

section
variable {go go' : Calls} {α β : Type} {n : Nat}

theorem Alike.mono {m m' : M α} (h : Alike go go' n m m') : ∀ {n'}, n ≤ n' → Alike go go' n' m m' := by
  induction h with
  | pure a => exact fun _ => .pure a
  | bind _ hf ihm _ => exact fun hn => .bind (ihm hn) hf
  | look tells hg ht _ ih => exact fun hn => .look tells hg ht fun a => ih a (by omega)
  | kind hn hn' _ ih => exact fun hle => .kind hn hn' fun k => ih k (by omega)
  | bump => exact fun {n'} hn => by obtain ⟨k, rfl⟩ : ∃ k, n' = k + 1 := ⟨n' - 1, by omega⟩; exact .bump
  | bumpThen _ ih =>
      intro n' hn
      obtain ⟨k, rfl⟩ : ∃ k, n' = k + 1 := ⟨n' - 1, by omega⟩
      exact .bumpThen (ih (by omega))
  | trivia => exact fun _ => .trivia
  | node hk _ ih => exact fun hn => .node hk (ih hn)
  | frame _ ih => exact fun hn => .frame (ih hn)
  | wrap hk _ ih => exact fun hn => .wrap hk (ih hn)
  | error => exact fun _ => .error _ _
  | missingEnd => exact fun _ => .missingEnd _
  | report => exact fun _ => .report _ _ _ _ _
  | remark _ ih => exact fun hn => .remark (ih hn)
  | expectNewline => exact fun _ => .expectNewline _
  | bumpNewline => exact fun _ => .bumpNewline
  | call r hr => exact fun _ => .call r hr
  | stmt =>
      intro n' hn
      obtain ⟨k, rfl⟩ : ∃ k, n' = k + 1 := ⟨n' - 1, by omega⟩
      exact .stmt

/-- A look that shows nothing of the tokens ahead. -/
theorem Alike.glance {g : Parser → β} {f f' : β → M α} (hg : Ahead g)
    (hf : ∀ a, Alike go go' n (f a) (f' a)) : Alike go go' n (Rescind.Surface.look g >>= f)
      (Rescind.Surface.look g >>= f') :=
  .look (fun _ => 0) hg solid_zero fun a => (hf a).mono (Nat.le_max_left _ _)

theorem Led.built {m m' : M α} (h : Led go go' m m') : Alike go go' (n + 1) m m' := by
  induction h with
  | bump => exact .bump
  | bind _ hf ih => exact .bind ih hf
  | look hg _ ih => exact .glance hg ih
  | node hk _ ih => exact .node hk ih
  | frame _ ih => exact .frame ih
  | wrap hk _ ih => exact .wrap hk ih

theorem Alike.ite {c : Prop} [Decidable c] {m₁ m₁' m₂ m₂' : M α} (h : c → Alike go go' n m₁ m₁')
    (h' : ¬c → Alike go go' n m₂ m₂') :
    Alike go go' n (if c then m₁ else m₂) (if c then m₁' else m₂') := by
  split
  next hc => exact h hc
  next hc => exact h' hc

/-- A branch on what is ahead. -/
theorem built_if {f : Parser → Bool} {m₁ m₁' m₂ m₂' : M α} (hf : Ahead f)
    (h : Alike go go' n m₁ m₁') (h' : Alike go go' n m₂ m₂') :
    Alike go go' n (do if ← look f then m₁ else m₂) (do if ← look f then m₁' else m₂') :=
  .glance hf fun _ => .ite (fun _ => h) fun _ => h'

/-- A look that shows a solid token. -/
theorem Alike.sight {g : Parser → Bool} {f f' : Bool → M α} (hg : Sights g)
    (ht : Alike go go' 1 (f true) (f' true)) (hf : Alike go go' n (f false) (f' false)) :
    Alike go go' n (Rescind.Surface.look g >>= f) (Rescind.Surface.look g >>= f') := by
  refine .look (fun b => if b then 1 else 0) hg.ahead (fun p => ?_) fun b => ?_
  · cases hp : g p with
    | true => exact hg.solid p hp
    | false => exact solid_zero p
  · cases b with
    | true => exact ht.mono (Nat.le_max_right _ _)
    | false => exact hf.mono (Nat.le_max_left _ _)

/-- A branch that shows one. -/
theorem built_when {f : Parser → Bool} {m₁ m₁' m₂ m₂' : M α} (hf : Sights f)
    (h : Alike go go' 1 m₁ m₁') (h' : Alike go go' n m₂ m₂') :
    Alike go go' n (do if ← look f then m₁ else m₂) (do if ← look f then m₁' else m₂') :=
  .sight hf h h'

/-! ## Every function is built of them -/

theorem built_whenAt {f : Parser → Bool} {m m' : M Unit} (hf : Sights f)
    (hm : Alike go go' 1 m m') : Alike go go' n (whenAt f m) (whenAt f m') :=
  built_when hf hm (.pure _)

theorem built_unlessAt {f : Parser → Bool} {m m' : M Unit} (hf : Ahead f)
    (hm : Alike go go' n m m') : Alike go go' n (unlessAt f m) (unlessAt f m') :=
  built_if hf (.pure _) hm

theorem built_whenConst {c : Bool} {m m' : M Unit} (hm : Alike go go' n m m') :
    Alike go go' n (whenAt (fun _ => c) m) (whenAt (fun _ => c) m') :=
  built_if (ahead_const c) hm (.pure _)

theorem built_expect {k : SyntaxKind} (hk : k.solid = true) (context : String) :
    Alike go go' n (expect k context) (expect k context) :=
  built_when (sights_at hk) (.bind .bump fun _ => .pure _) (.bind (.error _ _) fun _ => .pure _)

theorem built_expectName (s context : String) :
    Alike go go' n (expectName s context) (expectName s context) :=
  built_when (sights_name s) (.bind .bump fun _ => .pure _) (.bind (.error _ _) fun _ => .pure _)

theorem built_want {k : SyntaxKind} (hk : k.solid = true) (context : String) :
    Alike go go' n (want k context) (want k context) :=
  .bind (built_expect hk context) fun _ => .pure _

theorem built_wantName (s context : String) :
    Alike go go' n (wantName s context) (wantName s context) :=
  .bind (built_expectName s context) fun _ => .pure _

theorem built_asName : Alike go go' n asName asName :=
  built_whenAt (sights_name _) (.bind .bump fun _ => built_want rfl _)

theorem built_args : Alike go go' n (args go) (args go') :=
  .node (by decide) (.bind (.call _ rfl) fun _ => .call _ rfl)

theorem built_commas : Alike go go' n (commas go) (commas go') :=
  built_when (sights_at rfl) (.bind .bump fun _ => .bind (.call _ rfl) fun _ => .call _ rfl) (.pure _)

theorem built_recordEntry : Alike go go' n (recordEntry go) (recordEntry go') :=
  .node (by decide) (built_when sights_word
    (.bind .bump fun _ => .bind (built_expect rfl _) fun _ =>
      .ite (fun _ => .call _ rfl) fun _ => .pure _) (.error _ _))

theorem built_entries : Alike go go' n (entries go) (entries go') :=
  built_when (sights_at rfl) (.bind .bump fun _ => .bind built_recordEntry fun _ => .call _ rfl) (.pure _)

theorem leads_literal : Led go go' literal literal := .node (by decide) .bump

theorem leads_bracket {k close : SyntaxKind} {m m' : M Unit} {context : String}
    (hk : k ≠ .error) (hc : close.solid = true) (hm : Alike go go' 0 m m') :
    Led go go' (bracket k close context m) (bracket k close context m') :=
  .node hk (.bind .bump fun _ => .bind (built_unlessAt (sights_at hc).ahead hm) fun _ =>
    built_want hc _)

theorem built_called : Alike go go' n (called go) (called go') :=
  built_whenAt (sights_at rfl) (.wrap (by decide) (.bind .bump fun _ =>
    .bind (built_unlessAt (sights_at rfl).ahead built_args) fun _ => built_want rfl _))

theorem leads_reference : Led go go' (reference go) (reference go') :=
  .frame (.bind (.node (by decide) (.bind .bump fun _ => .call _ rfl)) fun _ => built_called)

theorem leads_paren : Led go go' (paren go) (paren go') :=
  .node (by decide) (.bind .bump fun _ => .bind (.call _ rfl) fun _ => built_want rfl _)

theorem leads_list : Led go go' (list go) (list go') :=
  leads_bracket (by decide) rfl (.bind (.call _ rfl) fun _ => .call _ rfl)

theorem leads_record : Led go go' (record go) (record go') :=
  leads_bracket (by decide) rfl (.bind built_recordEntry fun _ => .call _ rfl)

theorem built_operand (k : Option SyntaxKind) :
    Alike go go' (solidKind k) (operand go k) (operand go' k) := by
  unfold operand
  split
  · exact built_if (ahead_any closed_seen rfl) leads_literal.built (.error _ _)
  iterate 4 exact leads_literal.built
  · exact built_if ((sights_name _).or (sights_name _)).ahead leads_literal.built leads_reference.built
  · exact .node (by decide) .bump
  · exact leads_paren.built
  · exact leads_list.built
  · exact leads_record.built
  · exact .error _ _

theorem built_postfixed : Alike go go' n (postfix_ go) (postfix_ go') :=
  .kind rfl rfl fun k => (built_operand k).mono (Nat.le_max_right _ _)

theorem built_unary : Alike go go' n (unary go) (unary go') :=
  built_when (sights_at rfl) (.node (by decide) (.bind .bump fun _ => .call _ rfl)) built_postfixed

theorem built_chain {f : Parser → Bool} {next next' again again' : M Unit} (hf : Sights f)
    (hn : Alike go go' 0 next next') (ha : Alike go go' 0 again again') :
    Alike go go' n (chain (look f) next again) (chain (look f) next' again') :=
  built_when hf (.bind (.wrap (by decide) (.bind .bump fun _ => hn)) fun _ => ha) (.pure _)

theorem built_muls : Alike go go' n (muls go) (muls go') :=
  built_chain (sights_kinds rfl) built_unary (.call _ rfl)

theorem built_mul : Alike go go' n (mul go) (mul go') :=
  .frame (.bind built_unary fun _ => .call _ rfl)

theorem built_adds : Alike go go' n (adds go) (adds go') :=
  built_chain (sights_kinds rfl) built_mul (.call _ rfl)

theorem built_add : Alike go go' n (add go) (add go') :=
  .frame (.bind built_mul fun _ => .call _ rfl)

theorem built_comparison : Alike go go' n
    (chain (atKinds [.lt, .le, .gt, .ge, .eqEq, .bangEq]) (add go) (pure ()))
    (chain (atKinds [.lt, .le, .gt, .ge, .eqEq, .bangEq]) (add go') (pure ())) :=
  built_chain (sights_kinds rfl) built_add (.pure _)

theorem built_cmp : Alike go go' n (cmp go) (cmp go') :=
  .frame (.bind built_add fun _ => built_comparison)

theorem built_not : Alike go go' n (not_ go) (not_ go') :=
  built_when (sights_name _) (.node (by decide) (.bind .bump fun _ => .call _ rfl)) built_cmp

theorem built_ands : Alike go go' n (ands go) (ands go') :=
  built_chain (sights_name _) built_not (.call _ rfl)

theorem built_and : Alike go go' n (and_ go) (and_ go') :=
  .frame (.bind built_not fun _ => .call _ rfl)

theorem built_ors : Alike go go' n (ors go) (ors go') :=
  built_chain (sights_name _) built_and (.call _ rfl)

theorem built_expr : Alike go go' n (expr go) (expr go') :=
  .frame (.bind built_and fun _ => .call _ rfl)

theorem ahead_key : Ahead fun p => (p.at_ .name || p.at_ .upperName || p.at_ .string) &&
    decide (p.peek2.map Token.kind = some .colon) := by
  have h : (fun p : Parser => decide (p.peek2.map Token.kind = some .colon)) =
      fun p => p.peek2.any fun t => t.kind = .colon := by
    funext p
    cases p.peek2 with
    | none => rfl
    | some t => exact decide_eq_decide.mpr Option.some_inj
  have hcolon : Ahead fun p : Parser => decide (p.peek2.map Token.kind = some .colon) := by
    rw [h]
    exact ahead_any2 (fun t => by rw [kind_seen]) rfl
  exact sights_word.ahead.comp₂ hcolon and

/-- Where a keyword argument starts, its name and its colon are ahead. -/
theorem solid_key {p : Parser} (h : ((p.at_ .name || p.at_ .upperName || p.at_ .string) &&
    decide (p.peek2.map Token.kind = some .colon)) = true) : p.Solid 2 := by
  obtain ⟨hw, hc⟩ := (Bool.and_eq_true _ _).mp h
  have hone := sights_word.solid p hw
  obtain ⟨u, hu, hk⟩ := Option.map_eq_some_iff.mp (of_decide_eq_true hc)
  unfold Parser.Solid at hone ⊢
  unfold Parser.peek2 at hu
  rcases hs : significant p.rest with _ | ⟨t, _ | ⟨v, vs⟩⟩
  · simp [hs] at hu
  · simp [hs] at hu
  · rw [hs] at hu hone
    obtain rfl : v = u := Option.some.inj hu
    have ht : t.solid = true := by
      by_contra ht
      rw [List.takeWhile_cons_of_neg ht] at hone
      exact absurd hone (by decide)
    have hv : v.solid = true := (congrArg SyntaxKind.solid hk).trans rfl
    rw [List.takeWhile_cons_of_pos ht, List.takeWhile_cons_of_pos hv]
    exact Nat.succ_le_succ (Nat.succ_le_succ (Nat.zero_le _))

theorem built_arg : Alike go go' n (arg go) (arg go') := by
  refine .look (fun b => if b then 2 else 0) ahead_key (fun p => ?_) fun b => ?_
  · split
    next h => exact solid_key h
    next => exact solid_zero p
  · cases b with
    | true =>
        have h : ∀ r, r = .arg → Alike go go' 2 (node .kw (bump >>= fun _ => bump >>= fun _ => go r))
            (node .kw (bump >>= fun _ => bump >>= fun _ => go' r)) := by
          rintro r rfl
          exact .node (by decide) (.bumpThen (.bumpThen (.call _ rfl)))
        exact (h .arg rfl).mono (Nat.le_max_right _ _)
    | false => exact built_expr

theorem built_step : Alike go go' n (step go) (step go') :=
  .node (by decide) (.bind built_postfixed fun _ => .bind (.call _ rfl) fun _ => built_asName)

theorem built_pipes : Alike go go' n (pipes go) (pipes go') :=
  built_when (sights_at rfl) (.bind .bump fun _ => .bind built_step fun _ => .call _ rfl) (.pure _)

theorem built_stepOrPipeline : Alike go go' n (stepOrPipeline go) (stepOrPipeline go') :=
  .bind (.frame (.bind built_step fun _ =>
    built_whenAt (sights_at rfl) (.wrap (by decide) (.call _ rfl)))) fun _ => .expectNewline _

theorem leads_line : Led go go' (line go) (line go') :=
  .node (by decide) (.bind .bump fun _ => .bind (built_whenAt (sights_at rfl) .bump) fun _ =>
    .bind (built_unlessAt ahead_lineEnd built_args) fun _ => .expectNewline _)

theorem built_body : Alike go go' n (body go) (body go') :=
  .node (by decide) (.bind (.call _ rfl) fun _ => .trivia)

theorem built_enclosed {context : String} {middle middle' : M Unit}
    (hm : Alike go go' 0 middle middle') :
    Alike go go' n (enclosed go context middle) (enclosed go' context middle') :=
  .bind (.expectNewline _) fun _ => .bind built_body fun _ => .bind hm fun _ =>
    .bind (built_wantName _ _) fun _ => .expectNewline _

/-- After a `do`, if there is one. -/
theorem built_opened {middle middle' : M Unit} {before context : String}
    (hm : Alike go go' 0 middle middle') : Alike go go' n
      (expectName "do" before >>= fun ok => if ok then enclosed go context middle else pure ())
      (expectName "do" before >>= fun ok => if ok then enclosed go' context middle' else pure ()) :=
  .bind (built_expectName _ _) fun _ => .ite (fun _ => built_enclosed hm) fun _ => .pure _

theorem leads_block : Led go go' (block go) (block go') :=
  .node (by decide) (.bind .bump fun _ => built_opened (.pure _))

theorem leads_when : Led go go' (when_ go) (when_ go') := by
  refine .node (by decide) (.bind .bump fun _ => .bind built_args fun _ => built_opened ?_)
  exact built_whenAt (sights_name _) (.node (by decide) (.bind .bump fun _ =>
    .bind (.expectNewline _) fun _ => built_body))

theorem leads_repeat : Led go go' (repeat_ go) (repeat_ go') :=
  .node (by decide) (.bind .bump fun _ => .bind (.call _ rfl) fun _ => built_opened (.pure _))

theorem leads_contribution : Led go go' (contribution go) (contribution go') :=
  .node (by decide) (.bind .bump fun _ => .bind (built_whenAt (sights_at rfl) .bump) fun _ =>
    built_when (sights_at rfl) .stmt (.bind (.error _ _) fun _ => .bumpNewline))

theorem leads_slot : Led go go' slot slot :=
  .node (by decide) (.bind .bump fun _ => .bind (built_want rfl _) fun _ => .expectNewline _)

theorem leads_observe : Led go go' (observe go) (observe go') :=
  .node (by decide) (.bind .bump fun _ => .bind built_expr fun _ =>
    .bind (built_expectName _ _) fun _ => .bind (built_whenConst (built_want rfl _))
      fun _ => .expectNewline _)

theorem ahead_calls : Ahead fun p => p.peek2.any fun t => t.kind = .lParen || t.kind = .dot :=
  ahead_any2 (fun t => by rw [kind_seen]) rfl

theorem leads_knell : Led go go' (knell go) (knell go') :=
  .node (by decide) (.bind .bump fun _ => built_stepOrPipeline)

theorem leads_assert : Led go go' (assert_ go) (assert_ go') :=
  .node (by decide) (.bind .bump fun _ => .bind built_args fun _ => .expectNewline _)

theorem built_stmtForm : Alike go go' n (stmtForm go) (stmtForm go') := by
  refine built_when (sights_at rfl) leads_contribution.built (.sight (sights_at rfl) ?_ ?_)
  · refine built_if (sights_names _).ahead leads_block.built ?_
    refine built_if (ahead_name _) leads_knell.built (built_if (ahead_name _) leads_slot.built ?_)
    refine built_if (ahead_name _) leads_observe.built (built_if (ahead_name _) leads_assert.built ?_)
    refine built_if (ahead_name _) leads_repeat.built (built_if (ahead_name _) leads_when.built ?_)
    exact built_if ahead_calls built_stepOrPipeline leads_line.built
  · exact .bind (.error _ _) fun _ => .bumpNewline

theorem built_headerPart : Alike go go' n (headerPart go) (headerPart go') :=
  built_when (sights_at rfl) .bump (built_if (ahead_name _) built_asName (.call _ rfl))

theorem leads_import : Led go go' import_ import_ :=
  .node (by decide) (.bind .bump fun _ => .bind (built_expect rfl _) fun _ =>
    .bind (built_whenConst built_asName) fun _ => .expectNewline _)

theorem built_pattern : Alike go go' n (pattern go) (pattern go') :=
  .node (by decide) (.bind built_expr fun _ =>
    built_whenAt (sights_at rfl) (.bind .bump fun _ => built_want rfl _))

theorem built_defHeader (patterned : Bool) :
    Alike go go' n (defHeader go patterned) (defHeader go' patterned) := by
  refine .node (by decide) (.bind (built_expect rfl _) fun ok => .bind ?_ fun _ => .pure _)
  exact built_whenAt ((sights_at rfl).given ok) (.bind .bump fun _ =>
    .bind (.ite (fun _ => built_pattern) fun _ => .call _ rfl) fun _ => .call _ rfl)

theorem leads_def : Led go go' (def_ go) (def_ go') := by
  refine .node (by decide) (.look ((sights_name _).or (sights_name _)).ahead fun _ =>
    .bind .bump fun _ => .bind (built_defHeader _) fun _ => .ite (fun _ => ?_) fun _ => .pure _)
  exact built_opened (.pure _)

theorem built_topForm : Alike go go' n (topForm go) (topForm go') :=
  built_when (sights_names _) leads_def.built (built_when (sights_name _) leads_block.built
    (built_when (sights_name _) leads_import.built (.error _ _)))

theorem ahead_int : Ahead Parser.int := by
  have key : ∀ p : Parser, p.int =
      (p.view.1.head?.filter fun t => t.kind = .int).map fun t => parseU32 t.text := by
    intro p
    show (p.peek.filter fun t => t.kind = .int).map _ =
      (((significant p.rest).map Token.seen).head?.filter fun t => t.kind = .int).map _
    rw [List.head?_map]
    show (p.peek.filter fun t => t.kind = .int).map _ =
      ((p.peek.map Token.seen).filter fun t => t.kind = .int).map _
    cases p.peek with
    | none => rfl
    | some t =>
        unfold Token.seen
        by_cases ht : t.kind = .newline <;> simp [ht, Option.filter]
  intro p q ⟨_, h⟩
  rw [key, key]
  rcases h with h | h
  · rw [h]
  · rw [h]
    cases p.view.1 with
    | nil => rfl
    | cons t ts => rfl

theorem solid_int {p : Parser} {v : Nat} (h : p.int = some v) : p.Solid 1 := by
  obtain ⟨t, ht, -⟩ := Option.map_eq_some_iff.mp h
  obtain ⟨hpeek, hk⟩ := Option.filter_eq_some_iff.mp ht
  exact solid_one hpeek (congrArg SyntaxKind.solid (of_decide_eq_true hk))

theorem built_marker (index : Nat) : Alike go go' (n + 1) (marker index) (marker index) := by
  refine .bind .bump fun _ => .look (fun v => if v.isSome then 1 else 0) ahead_int (fun p => ?_)
    fun v => ?_
  · cases h : p.int with
    | none => exact solid_zero p
    | some v => exact solid_int h
  · cases v with
    | none => exact .bind (.error _ _) fun _ => .bumpNewline
    | some v => exact .remark (.bind .bump fun _ => .expectNewline _)

theorem built_version (index : Nat) : Alike go go' n (versionAt index) (versionAt index) := by
  refine .sight (sights_name _) ?_ ?_
  · exact built_if ((ahead_name _).comp (· || true)) (.remark (.node (by decide) (built_marker index)))
      (.report _ _ _ _ _)
  · refine built_when ?_ (.remark (.node (by decide) (built_marker index))) (.report _ _ _ _ _)
    exact (sights_name "rescind").or ⟨ahead_const false, fun _ h => nomatch h⟩

/-- All are built of them but the loops over statements, what starts one, the dots of a
name, and the two loops that are told. -/
theorem rule_cases {P : M Unit → M Unit → Prop} (htops : P (tops go) (tops go'))
    (hheader : P (header go) (header go')) (hstatements : P (statements go) (statements go'))
    (hstmt : P (stmt go) (stmt go')) (hdots : P (dots go) (dots go'))
    (hbuilt : ∀ m m', Alike go go' 0 m m' → P m m') (r : Rule) : P (rule go r) (rule go' r) := by
  cases r with
  | tops => exact htops
  | header => exact hheader
  | statements => exact hstatements
  | stmt => exact hstmt
  | dots => exact hdots
  | pipes => exact hbuilt _ _ built_pipes
  | arg => exact hbuilt _ _ built_arg
  | expr => exact hbuilt _ _ built_expr
  | not_ => exact hbuilt _ _ built_not
  | unary => exact hbuilt _ _ built_unary
  | commas => exact hbuilt _ _ built_commas
  | entries => exact hbuilt _ _ built_entries
  | ors => exact hbuilt _ _ built_ors
  | ands => exact hbuilt _ _ built_ands
  | adds => exact hbuilt _ _ built_adds
  | muls => exact hbuilt _ _ built_muls

end

/-! ## Lines, and where a tree has an ERROR node -/

/-- The newlines before a token. -/
def lineOf (ts : List Token) (i : Nat) : Nat :=
  ((ts.take i).filter fun t => t.kind = .newline).length

mutual
/-- The tokens its ERROR nodes start at, when it starts at the `i`-th. -/
def Tree.errors (i : Nat) : Tree → List Nat
  | .token _ => []
  | .node k ts => (if k = .error then [i] else []) ++ errorsOf i ts

def errorsOf (i : Nat) : List Tree → List Nat
  | [] => []
  | t :: ts => t.errors i ++ errorsOf (i + t.leaves.length) ts
end

theorem leavesOf_append (ts us : List Tree) : leavesOf (ts ++ us) = leavesOf ts ++ leavesOf us := by
  induction ts with
  | nil => rfl
  | cons t ts ih => simp only [List.cons_append, leavesOf, ih, List.append_assoc]

theorem leavesOf_tokens (ts : List Token) : leavesOf (ts.map .token) = ts := by
  induction ts with
  | nil => rfl
  | cons t ts ih => simp only [List.map_cons, leavesOf, Tree.leaves, ih, List.singleton_append]

theorem errorsOf_append (i : Nat) (ts us : List Tree) :
    errorsOf i (ts ++ us) = errorsOf i ts ++ errorsOf (i + (leavesOf ts).length) us := by
  induction ts generalizing i with
  | nil => rfl
  | cons t ts ih =>
      simp only [List.cons_append, errorsOf, leavesOf, ih, List.append_assoc, List.length_append,
        Nat.add_assoc]

theorem errorsOf_tokens (i : Nat) (ts : List Token) : errorsOf i (ts.map .token) = [] := by
  induction ts generalizing i with
  | nil => rfl
  | cons t ts ih => simp only [List.map_cons, errorsOf, Tree.errors, ih, List.append_nil]

/-! ## What a step keeps -/

/-- A diagnostic is on the line of the `i`-th token. -/
def Parser.Told (p : Parser) (i : Nat) : Prop :=
  ∃ d ∈ p.diagnostics, lineOf (p.done ++ p.rest) d.index = lineOf (p.done ++ p.rest) i

/-- The children hold the tokens from the `n`-th to the one ahead. -/
def Parser.From (p : Parser) (n : Nat) : Prop := ∃ pre, pre.length = n ∧
  p.done = pre ++ leavesOf p.children

/-- Quieted, there is a diagnostic on the line; and there is one on the line of each
ERROR node. -/
def Parser.Noted (p : Parser) : Prop :=
  (p.suppress = true → p.Told p.done.length) ∧
    ∀ n, p.From n → ∀ i ∈ errorsOf n p.children, p.Told i

structure Grows (p q : Parser) : Prop where
  tokens : q.done ++ q.rest = p.done ++ p.rest
  done : p.done <+: q.done
  leaves : ∀ pre, p.done = pre ++ leavesOf p.children → q.done = pre ++ leavesOf q.children
  diagnostics : p.diagnostics <+: q.diagnostics
  turns : p.turns <+: q.turns
  quiet : q.done = p.done → p.suppress = true → q.suppress = true
  noted : p.Noted → q.Noted

section
variable {p q r : Parser} {go : Calls} {α β : Type} {m : M α} {k : SyntaxKind}

theorem Grows.refl (p : Parser) : Grows p p where
  tokens := rfl
  done := List.prefix_refl _
  leaves _ h := h
  diagnostics := List.prefix_refl _
  turns := List.prefix_refl _
  quiet _ h := h
  noted h := h

theorem Grows.trans (h : Grows p q) (h' : Grows q r) : Grows p r where
  tokens := h'.tokens.trans h.tokens
  done := h.done.trans h'.done
  leaves pre hp := h'.leaves pre (h.leaves pre hp)
  diagnostics := h.diagnostics.trans h'.diagnostics
  turns := h.turns.trans h'.turns
  quiet he hs := by
    have hq : q.done = p.done :=
      (he ▸ h'.done).eq_of_length_le h.done.length_le
    exact h'.quiet (he.trans hq.symm) (h.quiet hq hs)
  noted hp := h'.noted (h.noted hp)

theorem Parser.Told.mono {i : Nat} (h : p.Told i) (ht : q.done ++ q.rest = p.done ++ p.rest)
    (hd : p.diagnostics <+: q.diagnostics) : q.Told i := by
  obtain ⟨d, hm, hl⟩ := h
  exact ⟨d, hd.subset hm, by rw [ht, hl]⟩

/-- Every step grows the tree. -/
def Keeps (m : M α) : Prop := ∀ p, Grows p (m p).2

theorem lineOf_append_of_not {l m : List Token} (vs : List Token)
    (h : ∀ t ∈ m, t.kind ≠ .newline) :
    lineOf (l ++ m ++ vs) (l ++ m).length = lineOf (l ++ m ++ vs) l.length := by
  unfold lineOf
  have h₁ : (l ++ m ++ vs).take (l ++ m).length = l ++ m := List.take_left
  have h₂ : (l ++ m ++ vs).take l.length = l := by
    rw [List.append_assoc]
    exact List.take_left
  rw [h₁, h₂, List.filter_append, List.length_append]
  have hnil : m.filter (fun t => decide (t.kind = .newline)) = [] := by
    rw [List.filter_eq_nil_iff]
    intro t ht
    simpa using h t ht
  rw [hnil]
  rfl

theorem trivia_not_newline {t : Token} (h : t.isTrivia = true) : t.kind ≠ .newline := by
  intro hk
  simp [Token.isTrivia, hk] at h

/-- Tokens move into the tree, and with them the line, unless one is a newline. -/
theorem Grows.of_move {l : List Token} (hr : p.rest = l ++ q.rest) (hd : q.done = p.done ++ l)
    (hc : q.children = p.children ++ l.map .token) (hg : q.diagnostics = p.diagnostics)
    (ht : q.turns = p.turns) (hq : l = [] → q.suppress = p.suppress)
    (hs : q.suppress = true → p.suppress = true ∧ ∀ t ∈ l, t.kind ≠ .newline) : Grows p q where
  tokens := by rw [hd, hr, List.append_assoc]
  done := hd ▸ List.prefix_append _ _
  leaves pre h := by rw [hd, h, hc, leavesOf_append, leavesOf_tokens, List.append_assoc]
  diagnostics := hg ▸ List.prefix_refl _
  turns := ht ▸ List.prefix_refl _
  quiet he hp := (hq (List.append_right_eq_self.mp (hd.symm.trans he))).trans hp
  noted h := by
    have htok : q.done ++ q.rest = p.done ++ p.rest := by rw [hd, hr, List.append_assoc]
    have hpre : p.diagnostics <+: q.diagnostics := hg ▸ List.prefix_refl _
    refine ⟨fun hq => ?_, fun n hn i hi => ?_⟩
    · obtain ⟨hp, hts⟩ := hs hq
      obtain ⟨d, hm, hl⟩ := h.1 hp
      refine ⟨d, hpre.subset hm, ?_⟩
      rw [htok, hl, hd, hr, ← List.append_assoc]
      exact (lineOf_append_of_not _ hts).symm
    · obtain ⟨pre, hlen, hn⟩ := hn
      rw [hd, hc, leavesOf_append, leavesOf_tokens, ← List.append_assoc] at hn
      rw [hc, errorsOf_append, errorsOf_tokens, List.append_nil] at hi
      exact (h.2 n ⟨pre, hlen, List.append_cancel_right hn⟩ i hi).mono htok hpre

theorem grows_eatTrivia (p : Parser) : Grows p p.eatTrivia := by
  refine .of_move (l := p.rest.takeWhile Token.isTrivia) ?_ rfl rfl rfl rfl (fun _ => rfl)
    fun h => ⟨h, ?_⟩
  · exact List.takeWhile_append_dropWhile.symm
  · intro t ht
    exact trivia_not_newline (List.mem_takeWhile_imp ht)

theorem grows_take (p : Parser) : Grows p p.take := by
  unfold Parser.take
  split
  next => exact .refl p
  next t ts hr =>
    refine .of_move (l := [t]) hr rfl rfl rfl rfl (fun h => absurd h (List.cons_ne_nil _ _)) fun h => ?_
    have h : (p.suppress && t.kind ≠ .newline) = true := h
    obtain ⟨hp, hk⟩ := (Bool.and_eq_true _ _).mp h
    refine ⟨hp, fun t' ht => ?_⟩
    obtain rfl := List.mem_singleton.mp ht
    exact of_decide_eq_true hk

theorem keeps_bump : Keeps bump := fun p => (grows_eatTrivia p).trans (grows_take _)

theorem grows_bind {f : α → M β} (hm : Grows p (m p).2)
    (hf : ∀ a q, m p = (some a, q) → Grows q (f a q).2) : Grows p ((m >>= f) p).2 := by
  rcases hp : m p with ⟨_ | a, q⟩
  · rw [bind_none hp]
    rwa [hp] at hm
  · rw [bind_some hp]
    rw [hp] at hm
    exact hm.trans (hf a q hp)

theorem keeps_bind {f : α → M β} (hm : Keeps m) (hf : ∀ a, Keeps (f a)) : Keeps (m >>= f) :=
  fun p => grows_bind (hm p) fun a q _ => hf a q

/-- A node of its own frame. -/
theorem Grows.node (h : Grows { p with children := [] } q)
    (hk : k = .error → p.Noted → q.Told p.done.length) :
    Grows p { q with children := p.children ++ [.node k q.children] } := by
  have hdone : q.done = p.done ++ leavesOf q.children := h.leaves p.done (List.append_nil _).symm
  have hleaves : leavesOf (p.children ++ [.node k q.children]) =
      leavesOf p.children ++ leavesOf q.children := by
    rw [leavesOf_append]
    simp only [leavesOf, Tree.leaves, List.append_nil]
  refine ⟨h.tokens, h.done, fun pre hp => ?_, h.diagnostics, h.turns, h.quiet,
    fun hp => ?_⟩
  · show q.done = pre ++ leavesOf (p.children ++ [.node k q.children])
    rw [hleaves, hdone, hp, List.append_assoc]
  · have hinner : ({ p with children := [] } : Parser).Noted :=
      ⟨hp.1, fun _ _ i hi => absurd hi List.not_mem_nil⟩
    have hq := h.noted hinner
    refine ⟨hq.1, fun n hn i hi => ?_⟩
    obtain ⟨pre, hlen, hn⟩ := hn
    have hn : q.done = pre ++ leavesOf (p.children ++ [.node k q.children]) := hn
    rw [hleaves, hdone, ← List.append_assoc] at hn
    have hpre : p.done = pre ++ leavesOf p.children := List.append_cancel_right hn
    have hstart : n + (leavesOf p.children).length = p.done.length := by
      rw [hpre, List.length_append, hlen]
    have hi : i ∈ errorsOf n (p.children ++ [.node k q.children]) := hi
    rw [errorsOf_append, hstart] at hi
    rcases List.mem_append.mp hi with hi | hi
    · exact (hp.2 n ⟨pre, hlen, hpre⟩ i hi).mono h.tokens h.diagnostics
    · simp only [errorsOf, Tree.errors, List.append_nil, List.mem_append] at hi
      rcases hi with hi | hi
      · split at hi
        next hke =>
          obtain rfl := List.mem_singleton.mp hi
          exact hk hke hp
        next => cases hi
      · exact hq.2 _ ⟨p.done, rfl, hdone⟩ i hi

theorem Grows.frame (h : Grows { p with children := [] } q) :
    Grows p { q with children := p.children ++ q.children } := by
  have hdone : q.done = p.done ++ leavesOf q.children := h.leaves p.done (List.append_nil _).symm
  refine ⟨h.tokens, h.done, fun pre hp => ?_, h.diagnostics, h.turns, h.quiet,
    fun hp => ?_⟩
  · show q.done = pre ++ leavesOf (p.children ++ q.children)
    rw [leavesOf_append, hdone, hp, List.append_assoc]
  · have hinner : ({ p with children := [] } : Parser).Noted :=
      ⟨hp.1, fun _ _ i hi => absurd hi List.not_mem_nil⟩
    have hq := h.noted hinner
    refine ⟨hq.1, fun n hn i hi => ?_⟩
    obtain ⟨pre, hlen, hn⟩ := hn
    have hn : q.done = pre ++ leavesOf (p.children ++ q.children) := hn
    rw [leavesOf_append, hdone, ← List.append_assoc] at hn
    have hpre : p.done = pre ++ leavesOf p.children := List.append_cancel_right hn
    have hi : i ∈ errorsOf n (p.children ++ q.children) := hi
    rw [errorsOf_append, show n + (leavesOf p.children).length = p.done.length by
      rw [hpre, List.length_append, hlen]] at hi
    rcases List.mem_append.mp hi with hi | hi
    · exact (hp.2 n ⟨pre, hlen, hpre⟩ i hi).mono h.tokens h.diagnostics
    · exact hq.2 _ ⟨p.done, rfl, hdone⟩ i hi

/-- What the frame holds becomes a node. -/
theorem Grows.wrap (h : Grows p q) (hk : k ≠ .error) :
    Grows p { q with children := [.node k q.children] } := by
  have hleaves : leavesOf [.node k q.children] = leavesOf q.children := by
    simp only [leavesOf, Tree.leaves, List.append_nil]
  refine ⟨h.tokens, h.done, fun pre hp => ?_, h.diagnostics, h.turns, h.quiet,
    fun hp => ?_⟩
  · show q.done = pre ++ leavesOf [.node k q.children]
    rw [hleaves]
    exact h.leaves pre hp
  · have hq := h.noted hp
    refine ⟨hq.1, fun n hn i hi => ?_⟩
    obtain ⟨pre, hlen, hn⟩ := hn
    have hn : q.done = pre ++ leavesOf [.node k q.children] := hn
    rw [hleaves] at hn
    have hi : i ∈ errorsOf n [.node k q.children] := hi
    simp only [errorsOf, Tree.errors, List.append_nil, if_neg hk, List.nil_append] at hi
    exact hq.2 n ⟨pre, hlen, hn⟩ i hi

theorem keeps_node (hk : k ≠ .error) (hm : Keeps m) : Keeps (node k m) := fun p =>
  (grows_eatTrivia p).trans ((hm { p.eatTrivia with children := [] }).node fun he => absurd he hk)

theorem keeps_frame (hm : Keeps m) : Keeps (frame m) := fun p =>
  (grows_eatTrivia p).trans (hm { p.eatTrivia with children := [] }).frame

theorem keeps_wrap (hk : k ≠ .error) (hm : Keeps m) : Keeps (wrap k m) := fun p => (hm p).wrap hk

theorem keeps_toNewline (n : Nat) : Keeps (toNewline n) := by
  induction n with
  | zero => exact .refl
  | succ n ih =>
      intro p
      by_cases h : p.kind = none ∨ p.kind = some .newline
      · rw [toNewline_stop n h]
        exact .refl p
      · obtain ⟨hnone, hline⟩ := not_or.mp h
        obtain ⟨k, hk⟩ := Option.ne_none_iff_exists'.mp hnone
        rw [toNewline_bump n hk fun he => hline (hk.trans (congrArg some he))]
        exact (keeps_bump p).trans (ih _)

/-! ## Errors -/

/-- The next significant token is on the line of what is ahead. -/
theorem lineOf_peekIndex (p : Parser) :
    lineOf (p.done ++ p.rest) p.peekIndex = lineOf (p.done ++ p.rest) p.done.length := by
  have h := lineOf_append_of_not (l := p.done) (m := p.rest.takeWhile Token.isTrivia)
    (p.rest.dropWhile Token.isTrivia) fun t ht => trivia_not_newline (List.mem_takeWhile_imp ht)
  rw [List.append_assoc, List.takeWhile_append_dropWhile, List.length_append] at h
  exact h

/-- Reported at the next significant token, and quieted. -/
theorem grows_report {code : String} {expected found : Option String} {message : String} :
    Grows p { p.report code p.peekIndex expected found message with suppress := true } := by
  have hpre : p.diagnostics <+:
      (p.report code p.peekIndex expected found message).diagnostics := List.prefix_append _ _
  have htold : ({ p.report code p.peekIndex expected found message with suppress := true } :
      Parser).Told p.done.length :=
    ⟨_, List.mem_append_right _ (List.mem_singleton_self _), lineOf_peekIndex p⟩
  refine ⟨rfl, List.prefix_refl _, fun _ h => h, hpre, List.prefix_refl _, fun _ _ => rfl,
    fun h => ?_⟩
  exact ⟨fun _ => htold, fun n hn i hi => (h.2 n hn i hi).mono rfl hpre⟩

/-- An ERROR node of a quieted parser is on the line of what quieted it. -/
theorem grows_errorNode (hm : Keeps m) (hs : p.suppress = true) : Grows p (node .error m p).2 := by
  have h := hm { p.eatTrivia with children := [] }
  refine (grows_eatTrivia p).trans (h.node fun _ hn => ?_)
  exact (hn.1 hs).mono h.tokens h.diagnostics

theorem keeps_error (expected context : String) : Keeps (error expected context) := by
  intro p
  show Grows p ((if p.suppress = true then pure () else _ : M Unit) p).2
  split
  · exact .refl p
  · exact grows_report.trans (grows_errorNode (fun p => keeps_toNewline p.rest.length p) rfl)

theorem keeps_missingEnd (context : String) : Keeps (missingEnd context) := by
  intro p
  show Grows p ((if p.suppress = true then pure () else _ : M Unit) p).2
  split
  · exact .refl p
  · exact grows_report

theorem keeps_report {code : String} {index : Nat} {expected found : Option String}
    {message : String} : Keeps (update (·.report code index expected found message)) := by
  intro p
  have hpre : p.diagnostics <+: (p.report code index expected found message).diagnostics :=
    List.prefix_append _ _
  refine ⟨rfl, List.prefix_refl _, fun _ h => h, hpre, List.prefix_refl _, fun _ h => h,
    fun h => ⟨fun hs => (h.1 hs).mono rfl hpre, fun n hn i hi => (h.2 n hn i hi).mono rfl hpre⟩⟩

theorem keeps_asked {g : Parser → β} {f : β → M α} (h : ∀ b, Keeps (f b)) :
    Keeps (look g >>= f) := keeps_bind (fun p => .refl p) h

theorem Keeps.ite {c : Prop} [Decidable c] {m' : M α} (h : Keeps m) (h' : Keeps m') :
    Keeps (if c then m else m') := by
  split
  · exact h
  · exact h'

theorem keeps_bumpNewline : Keeps bumpNewline := keeps_asked fun _ => .ite keeps_bump .refl

theorem keeps_expectNewline (context : String) : Keeps (expectNewline context) := by
  have hat : Keeps (unlessAt (·.at_ .newline) (error "end of line" context)) :=
    keeps_asked fun _ => .ite .refl (keeps_error _ _)
  exact keeps_asked fun _ => .ite .refl (keeps_bind hat fun _ => keeps_bumpNewline)

theorem keeps_dots (hgo : ∀ r, Keeps (go r)) : Keeps (dots go) := by
  have hwant : Keeps (want .name "after `.`") :=
    keeps_bind (keeps_asked fun _ => .ite (keeps_bind keeps_bump fun _ => .refl)
      (keeps_bind (keeps_error _ _) fun _ => .refl)) fun _ => .refl
  exact keeps_asked fun _ => .ite (keeps_bind keeps_bump fun _ => keeps_bind hwant fun _ => hgo _)
    .refl

/-- What is built of steps grows the tree, if its calls do. -/
theorem Alike.grows {go' : Calls} {m' : M α} {n : Nat} (h : Alike go go' n m m')
    (hgo : ∀ r, Keeps (go r)) : Keeps m := by
  induction h with
  | pure a => exact .refl
  | bind _ _ ihm ihf => exact keeps_bind ihm ihf
  | look _ _ _ _ ih => exact keeps_asked ih
  | kind _ _ _ ih => exact keeps_asked ih
  | bump => exact keeps_bump
  | bumpThen _ ih => exact keeps_bind keeps_bump fun _ => ih
  | trivia => exact grows_eatTrivia
  | node hk _ ih => exact keeps_node hk ih
  | frame _ ih => exact keeps_frame ih
  | wrap hk _ ih => exact keeps_wrap hk ih
  | error => exact keeps_error _ _
  | missingEnd => exact keeps_missingEnd _
  | report => exact keeps_report
  | remark _ ih =>
      exact keeps_bind (keeps_asked fun _ => .ite keeps_report .refl) fun _ => ih
  | expectNewline => exact keeps_expectNewline _
  | bumpNewline => exact keeps_bumpNewline
  | call r => exact hgo r
  | stmt => exact hgo .stmt

theorem Alike.keeps (h : Built go m) (hgo : ∀ r, Keeps (go r)) : Keeps m := h.grows hgo

theorem keeps_stmt (hgo : ∀ r, Keeps (go r)) : Keeps (stmt go) :=
  keeps_asked fun _ => .ite .refl (built_stmtForm.keeps hgo)

theorem keeps_top (hgo : ∀ r, Keeps (go r)) : Keeps (top go) :=
  keeps_asked fun _ => .ite keeps_bump
    (keeps_bind (built_topForm.keeps hgo) fun _ => keeps_bumpNewline)

end

end Rescind.Surface
