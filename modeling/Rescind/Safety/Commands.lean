/-
# `Rescind.Safety.Commands` — one command, two readers

The command of a covered step's undo is run by the engine, which hands the
executor the template with its references put in as they are, and by the
artifact, whose renderer quotes each of them.  The words a shell obtains from
the two are the same for every assignment only where the template has nothing
to put in; where it has, they are the same as long as each value stands where
quoting it changes nothing:

    the condition on templates, and on values               (`same_words_iff`)
    a value with a blank in it                              (`Catting.two_words`)

The words are those of `Lib.Shell`: no alias is known, and what a substitution or a
here-document holds is compared as text.  The condition on values suffices; it is not
necessary, since two texts that end within a quotation are both read as nothing more.
-/
import Rescind.Render.Command

namespace Rescind

open Lib Render

/-! ## The two texts -/

/-- The bindings the engine runs a command through. -/
inductive Transport where
  | local_ | ssh
  deriving DecidableEq, Repr

/-- The text the shell is given: locally as it is, over ssh as a command
substitution hands it on. -/
def Transport.handed : Transport → List Char → List Char
  | .local_, text => text
  | .ssh, text => Shell.dropNewlines text

/-- The shell of the target obtains the same words from the engine's command and
from the artifact's. -/
def SameWords (tr : Transport) (t : Template) (host : Host) (env : Env) : Prop :=
  ∀ step r line, resolveTemplate t host env = .ok r →
    runLine step t host.record (bindings env.params host) = .ok line →
    (commandOf (Shell.read line.toList)).map Shell.read =
      some (Shell.read (tr.handed r.text.toList))

/-- What the artifact can be given: parameters and host fields, in text that can
be quoted. -/
def Part.bakeable : Part → Bool
  | .lit s => s.toList.all readable
  | .ref (.param _) | .ref (.host _) => true
  | .ref _ => false

def Bakeable (t : Template) : Prop := t.all Part.bakeable = true

instance (t : Template) : Decidable (Bakeable t) := inferInstanceAs (Decidable (_ = true))

/-- The template puts nothing in. -/
def Literal (t : Template) : Prop := ∀ r, Part.ref r ∉ t

/-- The text of a reference's value. -/
def valueOf (host : Host) (env : Env) (r : Ref) : List Char :=
  match resolveRef r host env with
  | .ok v => v.text.toList
  | .error _ => []

/-- A template with its values, literal characters apart. -/
def pieces (value : Ref → List Char) (t : Template) : List Shell.Piece :=
  t.flatMap fun
    | .lit s => s.toList.map Shell.Piece.char
    | .ref r => [.part (value r)]

/-- Every value of the template stands where quoting it changes nothing: in a
word or in single quotes, made of characters that stand for themselves, and no part of
an assignment's name or of a word the grammar takes for its own. -/
def Harmless (t : Template) (host : Host) (env : Env) : Prop :=
  ({} : Shell.Lexer).harmless .same (pieces (valueOf host env) t) = true

instance (t : Template) (host : Host) (env : Env) : Decidable (Harmless t host env) :=
  inferInstanceAs (Decidable (_ = true))

section
variable {t : Template} {host : Host} {env : Env}

theorem raw_lit (s : String) : Shell.raw (s.toList.map Shell.Piece.char) = s.toList := by
  unfold Shell.raw
  rw [List.flatMap_map]
  exact List.flatMap_singleton' _

theorem withQuotes_lit (s : String) :
    Shell.withQuotes (s.toList.map Shell.Piece.char) = s.toList := by
  unfold Shell.withQuotes
  rw [List.flatMap_map]
  exact List.flatMap_singleton' _

/-- The engine puts the values in as they are. -/
theorem text_resolveTemplate {r : Resolved} (h : resolveTemplate t host env = .ok r) :
    r.text.toList = Shell.raw (pieces (valueOf host env) t) := by
  induction t generalizing r with
  | nil =>
      cases h
      rfl
  | cons p t ih =>
      unfold resolveTemplate at h
      cases p with
      | lit s =>
          cases ht : resolveTemplate t host env with
          | error e => simp only [ht] at h; cases h
          | ok r' =>
              simp only [ht] at h
              cases h
              have hp : Shell.raw (pieces (valueOf host env) (.lit s :: t)) =
                  Shell.raw (s.toList.map Shell.Piece.char) ++
                    Shell.raw (pieces (valueOf host env) t) := List.flatMap_append
              rw [hp, raw_lit, ← ih ht, String.toList_append]
      | ref x =>
          cases hv : resolveRef x host env with
          | error e => simp only [hv] at h; cases h
          | ok v =>
              cases ht : resolveTemplate t host env with
              | error e => simp only [hv, ht] at h; cases h
              | ok r' =>
                  simp only [hv, ht] at h
                  cases h
                  have hp : Shell.raw (pieces (valueOf host env) (.ref x :: t)) =
                      valueOf host env x ++ Shell.raw (pieces (valueOf host env) t) := rfl
                  rw [hp, ← ih ht, valueOf, hv, String.toList_append]

/-- The renderer resolves a reference to the engine's value. -/
theorem value_resolve {step : Nat} {r : Ref} {v : String}
    (h : resolve step r host.record (bindings env.params host) = .ok v) :
    valueOf host env r = v.toList := by
  unfold resolve at h
  unfold valueOf resolveRef
  cases r with
  | param n =>
      simp only [bindings] at h
      cases hg : env.params.get n with
      | none => rw [hg] at h; cases h
      | some w =>
          rw [hg] at h
          cases h
          simp only [hg, Option.map_some]
  | host f =>
      simp only [bindings, Host.field] at h ⊢
      split at h
      · cases h
        simp_all
      · split at h
        · cases h
          simp_all
        · rw [Assoc.get_insert] at h
          by_cases ha : f = "address"
          · rw [if_pos ha] at h
            cases h
            simp_all
          · rw [if_neg ha] at h
            cases hg : host.facts.get f with
            | none => rw [hg] at h; cases h
            | some w =>
                rw [hg] at h
                cases h
                simp_all
  | fact | output | controller | secret => cases h

/-- The renderer puts the values in quotes. -/
theorem text_runText {step : Nat} {text : String}
    (h : runText step t .posix host.record (bindings env.params host) = .ok text) :
    text.toList = Shell.withQuotes (pieces (valueOf host env) t) := by
  induction t generalizing text with
  | nil =>
      cases h
      rfl
  | cons p t ih =>
      unfold runText at h
      cases p with
      | lit s =>
          cases ht : runText step t .posix host.record (bindings env.params host) with
          | error e => simp only [bind, Except.bind, ht] at h; cases h
          | ok rest =>
              simp only [bind, Except.bind, ht] at h
              cases h
              have hp : Shell.withQuotes (pieces (valueOf host env) (.lit s :: t)) =
                  Shell.withQuotes (s.toList.map Shell.Piece.char) ++
                    Shell.withQuotes (pieces (valueOf host env) t) := List.flatMap_append
              rw [hp, withQuotes_lit, ← ih ht, String.toList_append]
      | ref x =>
          cases hv : resolve step x host.record (bindings env.params host) with
          | error e => simp only [bind, Except.bind, hv] at h; cases h
          | ok v =>
              cases hq : q step v with
              | error e => simp only [bind, Except.bind, bake_shellFamily_posix, hv, hq] at h; cases h
              | ok quoted =>
                  cases ht : runText step t .posix host.record (bindings env.params host) with
                  | error e => simp only [bind, Except.bind, bake_shellFamily_posix, hv, hq, ht] at h; cases h
                  | ok rest =>
                      simp only [bind, Except.bind, bake_shellFamily_posix, hv, hq, ht] at h
                      cases h
                      have hp : Shell.withQuotes (pieces (valueOf host env) (.ref x :: t)) =
                          Shell.quoted (valueOf host env x) ++
                            Shell.withQuotes (pieces (valueOf host env) t) := rfl
                      rw [hp, value_resolve hv, ← toList_q hq, ← ih ht, String.toList_append]

/-- The two readings, by the pieces of the template. -/
theorem sameWords_of_pieces {tr : Transport}
    (h : Shell.read (Shell.withQuotes (pieces (valueOf host env) t)) =
      Shell.read (tr.handed (Shell.raw (pieces (valueOf host env) t)))) :
    SameWords tr t host env := by
  intro step r line hr hl
  obtain ⟨command, hc, hcmd⟩ := commandOf_runLine hl
  rw [hcmd, Option.map_some, text_runText hc, text_resolveTemplate hr, h]

end

/-! ## Templates that put nothing in -/

/-- The text of the literal parts. -/
def literalText (t : Template) : List Char := Shell.raw (pieces (fun _ => []) t)

theorem pieces_congr {t : Template} {f g : Ref → List Char} (h : ∀ r, Part.ref r ∈ t → f r = g r) :
    pieces f t = pieces g t := by
  unfold pieces
  refine List.flatMap_congr fun p hp => ?_
  cases p with
  | lit s => rfl
  | ref r => exact congrArg (fun v => [Shell.Piece.part v]) (h r hp)

theorem pieces_literal {t : Template} (h : Literal t) (f : Ref → List Char) :
    pieces f t = pieces (fun _ => []) t :=
  pieces_congr fun r hr => absurd hr (h r)

theorem withQuotes_literal {t : Template} (h : Literal t) :
    Shell.withQuotes (pieces (fun _ => []) t) = literalText t := by
  induction t with
  | nil => rfl
  | cons p t ih =>
      cases p with
      | lit s =>
          have h₁ : Shell.withQuotes (pieces (fun _ => []) (.lit s :: t)) =
              Shell.withQuotes (s.toList.map Shell.Piece.char) ++
                Shell.withQuotes (pieces (fun _ => []) t) := List.flatMap_append
          have h₂ : literalText (.lit s :: t) =
              Shell.raw (s.toList.map Shell.Piece.char) ++ literalText t := List.flatMap_append
          rw [h₁, h₂, withQuotes_lit, raw_lit, ih fun r hr => h r (List.mem_cons_of_mem _ hr)]
      | ref r => exact absurd List.mem_cons_self (h r)

theorem sameWords_literal {t : Template} (h : Literal t) (he : ¬Shell.EndsEscaped (literalText t))
    (tr : Transport) (host : Host) (env : Env) : SameWords tr t host env := by
  refine sameWords_of_pieces ?_
  rw [pieces_literal h, withQuotes_literal h]
  cases tr with
  | local_ => rfl
  | ssh => exact ((Shell.read_dropNewlines_iff _).mpr he).symm

/-! ## One value for every reference -/

/-- The same value under each of the names. -/
def everywhere (names : List String) (v : String) : Vars :=
  names.foldr (fun n m => m.insert n v) []

theorem get_everywhere {names : List String} {v n : String} (h : n ∈ names) :
    (everywhere names v).get n = some v := by
  induction names with
  | nil => cases h
  | cons m names ih =>
      show ((everywhere names v).insert m v).get n = some v
      rw [Assoc.get_insert]
      split
      · rfl
      · rename_i hne
        exact ih ((List.mem_cons.mp h).resolve_left hne)

/-- The names a template refers to. -/
def namesOf (t : Template) : List String :=
  t.filterMap fun
    | .ref (.param n) | .ref (.host n) => some n
    | _ => none

def uniformHost (t : Template) (v : String) : Host where
  record := ⟨v, v, [], true, true, none⟩
  address := v
  facts := everywhere (namesOf t) v

def uniformEnv (t : Template) (v : String) : Env := ⟨everywhere (namesOf t) v, [], [], [], []⟩

section
variable {t : Template} {v : String}

theorem field_uniformHost {f : String} (h : f ∈ namesOf t) : (uniformHost t v).field f = some v := by
  unfold Host.field
  split
  · rfl
  · split
    · rfl
    · split
      · rfl
      · exact get_everywhere h

theorem resolveRef_everywhere {r : Ref} (hb : (Part.ref r).bakeable = true) (hr : Part.ref r ∈ t) :
    resolveRef r (uniformHost t v) (uniformEnv t v) = .ok ⟨v, false⟩ := by
  cases r with
  | param n =>
      have hn : n ∈ namesOf t := List.mem_filterMap.mpr ⟨_, hr, rfl⟩
      simp only [resolveRef, uniformEnv, get_everywhere hn, Option.map_some]
  | host f =>
      have hn : f ∈ namesOf t := List.mem_filterMap.mpr ⟨_, hr, rfl⟩
      simp only [resolveRef, field_uniformHost hn, Option.map_some]
  | fact | output | controller | secret => cases hb

theorem resolve_everywhere {step : Nat} {r : Ref} (hb : (Part.ref r).bakeable = true)
    (hr : Part.ref r ∈ t) :
    resolve step r (uniformHost t v).record (bindings (uniformEnv t v).params (uniformHost t v)) = .ok v := by
  cases r with
  | param n =>
      have hn : n ∈ namesOf t := List.mem_filterMap.mpr ⟨_, hr, rfl⟩
      simp only [resolve, bindings, uniformEnv, get_everywhere hn]
  | host f =>
      have hn : f ∈ namesOf t := List.mem_filterMap.mpr ⟨_, hr, rfl⟩
      simp only [resolve, bindings, uniformHost, Assoc.get_insert, get_everywhere hn]
      split
      · rfl
      · split
        · rfl
        · split <;> rename_i h <;> split at h <;> simp_all
  | fact | output | controller | secret => cases hb

theorem valueOf_everywhere {r : Ref} (hb : (Part.ref r).bakeable = true) (hr : Part.ref r ∈ t) :
    valueOf (uniformHost t v) (uniformEnv t v) r = v.toList := by
  unfold valueOf
  rw [resolveRef_everywhere hb hr]

theorem resolveTemplate_everywhere (ht : Bakeable t) (ts : Template) (hs : ts ⊆ t) :
    ∃ r, resolveTemplate ts (uniformHost t v) (uniformEnv t v) = .ok r := by
  induction ts with
  | nil => exact ⟨_, rfl⟩
  | cons p ts ih =>
      obtain ⟨r, hr⟩ := ih fun x hx => hs (List.mem_cons_of_mem _ hx)
      have hp : p ∈ t := hs List.mem_cons_self
      cases p with
      | lit s => exact ⟨_, by rw [resolveTemplate, hr]; rfl⟩
      | ref x =>
          have hb : (Part.ref x).bakeable = true := List.all_eq_true.mp ht _ hp
          exact ⟨_, by rw [resolveTemplate, resolveRef_everywhere hb hp, hr]; rfl⟩

/-- A text of readable characters can be quoted. -/
theorem q_of_readable (step : Nat) {s : String} (h : ∀ c ∈ s.toList, readable c = true) :
    ∃ u, q step s = .ok u := by
  have hf : s.toList.find? (fun c => !readable c) = none :=
    List.find?_eq_none.mpr fun c hc => by simp [h c hc]
  have hp : posix s = .ok (String.ofList (Shell.quoted s.toList)) := by
    unfold posix Render.refuse
    rw [hf]
    rfl
  exact ⟨_, bake_eq_ok.mpr hp⟩

theorem runText_everywhere (step : Nat) (ht : Bakeable t) (hv : ∀ c ∈ v.toList, readable c = true)
    (ts : Template) (hs : ts ⊆ t) :
    ∃ text, runText step ts .posix (uniformHost t v).record
      (bindings (uniformEnv t v).params (uniformHost t v)) = .ok text ∧
      ∀ c ∈ text.toList, readable c = true := by
  induction ts with
  | nil => exact ⟨_, rfl, nofun⟩
  | cons p ts ih =>
      obtain ⟨rest, hr, hrest⟩ := ih fun x hx => hs (List.mem_cons_of_mem _ hx)
      have hp : p ∈ t := hs List.mem_cons_self
      have hb : p.bakeable = true := List.all_eq_true.mp ht _ hp
      cases p with
      | lit s =>
          refine ⟨s ++ rest, by rw [runText, hr]; rfl, fun c hc => ?_⟩
          rw [String.toList_append, List.mem_append] at hc
          rcases hc with hc | hc
          · exact List.all_eq_true.mp hb c hc
          · exact hrest c hc
      | ref x =>
          obtain ⟨u, hu⟩ := q_of_readable step hv
          have htext : runText step (.ref x :: ts) .posix (uniformHost t v).record
              (bindings (uniformEnv t v).params (uniformHost t v)) = .ok (u ++ rest) := by
            rw [runText, resolve_everywhere hb hp, hr]
            simp [bind, Except.bind, bake_shellFamily_posix, hu, pure, Except.pure]
          refine ⟨u ++ rest, htext, fun c hc => ?_⟩
          rw [String.toList_append, List.mem_append, toList_q hu] at hc
          rcases hc with hc | hc
          · exact readable_quoted hv c hc
          · exact hrest c hc

theorem runLine_everywhere (step : Nat) (ht : Bakeable t) (hv : ∀ c ∈ v.toList, readable c = true) :
    ∃ line, runLine step t (uniformHost t v).record
      (bindings (uniformEnv t v).params (uniformHost t v)) = .ok line := by
  obtain ⟨text, htext, hread⟩ := runText_everywhere step ht hv t fun _ h => h
  obtain ⟨u, hu⟩ := q_of_readable step hread
  exact ⟨_, by rw [runLine, htext]; simp only [bind, Except.bind, hu]; rfl⟩

/-- Where the words are the same, the readings of the two texts are. -/
theorem read_of_sameWords {tr : Transport} (ht : Bakeable t)
    (hv : ∀ c ∈ v.toList, readable c = true)
    (h : SameWords tr t (uniformHost t v) (uniformEnv t v)) :
    Shell.read (Shell.withQuotes (pieces (fun _ => v.toList) t)) =
      Shell.read (tr.handed (Shell.raw (pieces (fun _ => v.toList) t))) := by
  obtain ⟨r, hr⟩ := resolveTemplate_everywhere (v := v) ht t fun _ h => h
  obtain ⟨line, hl⟩ := runLine_everywhere 0 ht hv
  obtain ⟨command, hc, hcmd⟩ := commandOf_runLine hl
  have hp : pieces (valueOf (uniformHost t v) (uniformEnv t v)) t = pieces (fun _ => v.toList) t :=
    pieces_congr fun x hx => valueOf_everywhere (List.all_eq_true.mp ht _ hx) hx
  have hw := h 0 r line hr hl
  rw [hcmd, Option.map_some, text_runText hc, text_resolveTemplate hr, hp] at hw
  exact Option.some.inj hw

/-- The places of a template where a value is put in. -/
def holes (t : Template) : List (Option Char) :=
  t.flatMap fun
    | .lit s => s.toList.map some
    | .ref _ => [none]

theorem fill_holes (cs : List Char) (t : Template) : Shell.fill cs (holes t) = pieces (fun _ => cs) t := by
  unfold Shell.fill holes pieces
  rw [List.map_flatMap]
  refine List.flatMap_congr fun p _ => ?_
  cases p with
  | lit s => exact List.map_map
  | ref r => rfl

end

/-- The words are the same for every assignment exactly where the template puts
nothing in and, for ssh, does not end in newlines that a backslash escapes; and
for a given assignment they are the same where every value stands harmlessly. -/
theorem same_words_iff (t : Template) (ht : Bakeable t) :
    ((∀ tr host env, SameWords tr t host env) ↔
      Literal t ∧ ¬Shell.EndsEscaped (literalText t)) ∧
    ∀ host env, Harmless t host env → SameWords .local_ t host env ∧
      (¬Shell.EndsEscaped (Shell.raw (pieces (valueOf host env) t)) → SameWords .ssh t host env) := by
  refine ⟨⟨fun h => ?_, fun h tr host env => sameWords_literal h.1 h.2 tr host env⟩,
    fun host env hh => ?_⟩
  · have hlit : Literal t := by
      intro r hr
      have hnone : none ∈ holes t := List.mem_flatMap.mpr ⟨_, hr, List.mem_singleton.mpr rfl⟩
      obtain ⟨cs, hcs, hne⟩ := Shell.exists_telltale hnone
      have hv : ∀ c ∈ (String.ofList cs).toList, readable c = true := by
        rw [String.toList_ofList]
        intro c hc
        have hall : Shell.telltaleChars.all readable = true := by decide
        exact List.all_eq_true.mp hall c (hcs c hc)
      have hs := read_of_sameWords ht hv (h .local_ _ _)
      rw [String.toList_ofList, ← fill_holes] at hs
      exact hne hs.symm
    refine ⟨hlit, (Shell.read_dropNewlines_iff _).mp ?_⟩
    have hs := read_of_sameWords (v := "") ht (fun c hc => by simp at hc) (h .ssh _ _)
    rw [pieces_literal hlit, withQuotes_literal hlit] at hs
    exact hs.symm
  · have hr := Shell.read_withQuotes hh
    exact ⟨sameWords_of_pieces hr, fun he =>
      sameWords_of_pieces (hr.trans ((Shell.read_dropNewlines_iff _).mpr he).symm)⟩

namespace Catting

/-- Shows the file a parameter names. -/
def cat : Template := [.lit "cat ", .ref (.param "file")]

def target : Host := ⟨⟨"web1", "linux", [], true, true, none⟩, "10.0.0.1", none, none, []⟩

def given (file : String) : Env := ⟨[("file", file)], [], [], [], []⟩

theorem reads_alike : Bakeable cat ∧ SameWords .local_ cat target (given "/etc/motd") :=
  ⟨by decide, ((same_words_iff cat (by decide)).2 target (given "/etc/motd") (by decide +kernel)).1⟩

theorem resolved : resolveTemplate cat target (given "a b") = .ok ⟨"cat a b", false⟩ := by
  rfl

theorem baked : runLine 1 cat target.record (bindings (given "a b").params target) =
    .ok "    sh -c 'cat '\\''a b'\\'''\n" := by
  rfl

/-- The engine's shell shows two files, the artifact's one. -/
theorem two_words : Bakeable cat ∧ ¬SameWords .local_ cat target (given "a b") := by
  refine ⟨by decide, fun h => ?_⟩
  have hw := h 1 _ _ resolved baked
  revert hw
  decide +kernel

end Catting

end Rescind
