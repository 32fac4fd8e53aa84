/-
# `Rescind.Safety.Leaks` — the secrets a command can return

What is scrubbed are the whole texts a body was resolved to: of a secret inside a
template the text around it is part of the value, and the secret without it comes back.
A secret that is a whole value comes back where it is not sealed: by another secret of
the body, where it touches the mark; behind an exit code that leads into it; line by line,
where it has several.  Each is printed by a machine made for it.

    only a sealed secret is in no result                       (`sealed_of_hiddenRun`)
    one that contains no value of the body comes back          (`exists_of_hiddenRun`)
    the secrets that are gone                                  (`scrub_gone_iff`)

A secret counts as used by a body if a reference of the body's brings it.  Which codes a
machine exits with is not said: any 32-bit number is one.
-/
import Mathlib.Data.List.Perm.Subperm
import Rescind.Safety.Scrubbing

namespace Rescind.Local

open Lib

/-! ## What can be returned -/

/-- A machine that prints the same, whatever it runs. -/
def printing (ran : Printed) : Machine where
  shell _ _ _ f := (.ok ran, f)
  writable _ := true
  why _ := ""

/-- One that prints what it is asked to run, or an empty line. -/
def echoing : Machine where
  shell cmd _ _ f := (.ok ⟨0, Bytes.ofText (if cmd = "" then ['\n'] else cmd.toList), []⟩, f)
  writable _ := true
  why _ := ""

def here : Host where
  record := ⟨"here", "linux", ["local"], true, true, none⟩
  address := ""

def holding (s k : String) : Env where
  params := []
  outputs := []
  controller := []
  secrets := [("s", s), ("k", k)]

/-- A command that is given two secrets. -/
def given : Body := [.run [] [("S", .ref (.secret "s"))] (some (.ref (.secret "k")))]

def gave (s k : String) : List RPrim := [.run ⟨"", false⟩ [("S", ⟨s, true⟩)] (some ⟨k, true⟩)]

theorem mem_secretIn {s : String} (h : s ≠ "") : s ∈ secretIn ⟨s, true⟩ := by
  rw [secretIn, if_pos (by simpa using h)]
  exact List.mem_cons_self

theorem uses_given {s k : String} (h : s ≠ "") : Uses given here (holding s k) (gave s k) s where
  resolved := rfl
  used := List.mem_append_left _ (mem_secretIn h)

theorem secretsOf_gave {s k : String} (hs : s ≠ "") (hk : k ≠ "") : secretsOf (gave s k) = [s, k] := by
  simp [secretsOf, secretsOfPrim, gave, secretIn, hs, hk]

/-- A primitive that runs a command. -/
def isCommand : RPrim → Bool
  | .run _ _ _ | .call _ _ => true
  | _ => false

theorem run_printing {ran : Printed} {dir : String} {p : RPrim} {rest : List RPrim} {f : Render.Tree}
    (hp : isCommand p = true) {e : String} (h : took (secretsOf (p :: rest)) {} ran = .error e) :
    (run (printing ran) dir (p :: rest) f).1 = .err e := by
  have hprim : prim (printing ran) dir (secretsOf (p :: rest)) {} p f = (.err e, f) := by
    cases p with
    | run cmd env stdin | call name cmd =>
        show (Prog.ofExcept (took _ {} ran) : Prog Render.Tree String Output) f = _
        rw [h]
        rfl
    | _ => cases hp
  show ((prim (printing ran) dir (secretsOf (p :: rest)) {} p >>= fun out => _) f).1 = _
  rw [Prog.bind_eq, hprim]

theorem run_gave {s k : String} {ran : Printed} {dir : String} {f : Render.Tree} {out : Output}
    (h : took (secretsOf (gave s k)) {} ran = .ok out) :
    (run (printing ran) dir (gave s k) f).1 = .ok out := by
  show ((Prog.ofExcept (took _ {} ran) >>= fun out => pure out : Prog Render.Tree String Output) f).1 = _
  rw [h]
  rfl

theorem dropPrefix_eq_none {q l : List Char} (h : ¬ q <+: l) : Text.dropPrefix q l = none := by
  rw [Option.eq_none_iff_forall_not_mem]
  intro r hr
  exact h ⟨r, (Text.dropPrefix_eq_some hr).symm⟩

/-- A line that binds nothing is what a command adds. -/
theorem took_line {secrets : List String} (out : Output) (err : List Char) {t t' l : List Char}
    (ht : scrub t secrets = t') (hl : Text.lines t' = [l]) (hp : ¬ outputPrefix <+: l) :
    took secrets out ⟨0, Bytes.ofText t, Bytes.ofText err⟩ =
      .ok { out with stdout := out.stdout ++ (l ++ ['\n']) } := by
  have hnone := dropPrefix_eq_none hp
  simp [took, sh, splitOutputs, Bytes.lossy_ofText, ht, hl, hnone, outputOf, Text.unlines, extend]

theorem scrub_of_absent {secrets : List String} {t : List Char}
    (h : ∀ s ∈ secrets, ¬ s.toList <:+: t) : scrub t secrets = t := by
  induction secrets with
  | nil => rfl
  | cons s secrets ih =>
      obtain ⟨hs, hrest⟩ := List.forall_mem_cons.mp h
      rw [scrub, List.foldl_cons, replace_of_absent secretMark hs]
      exact ih hrest

/-- Letters no line that binds an output begins with. -/
def letters : List Char := ['a', 'b', 'c', 'd', 'e']

theorem exists_char (l : List Char) (h : l.length ≤ 4) :
    ∃ c ∈ letters, c ∉ l := by
  by_contra hall
  push Not at hall
  have hsub : letters.Subperm l :=
    List.Nodup.subperm (by decide) fun c hc => hall c hc
  have := hsub.length_le
  have hlen : letters.length = 5 := rfl
  omega

theorem letter {c : Char} (h : c ∈ letters) :
    Text.isWhite c = false ∧ c ≠ '\n' ∧ c ≠ 'r' := by
  simp only [letters, List.mem_cons, List.not_mem_nil, or_false] at h
  obtain rfl | rfl | rfl | rfl | rfl := h <;> decide

theorem trimEnd_concat {c : Char} (h : Text.isWhite c = false) (t : List Char) :
    trimEnd (t ++ [c]) = t ++ [c] := by
  rw [trimEnd, List.reverse_append, List.reverse_singleton, List.singleton_append,
    List.dropWhile_cons_of_neg (by rw [h]; exact Bool.false_ne_true), List.reverse_cons,
    List.reverse_reverse]

/-- What is put on one line stays a part of what was on one line. -/
theorem infix_oneline {s u r v : List Char} (hs : '\n' ∉ s) (hr : '\n' ∉ r)
    (h : s <:+: u ++ r ++ v) :
    ∃ u' v', u'.length = u.length ∧ v'.length = v.length ∧ '\n' ∉ u' ∧ '\n' ∉ v' ∧
      s <:+: u' ++ r ++ v' := by
  let g : Char → Char := fun c => if c = '\n' then ' ' else c
  have hg : ∀ l : List Char, '\n' ∉ l → l.map g = l := fun l hl =>
    (List.map_congr_left fun c hc => if_neg fun he : c = '\n' => hl (he ▸ hc)).trans (List.map_id l)
  have hn : ∀ l : List Char, '\n' ∉ l.map g := by
    intro l hl
    obtain ⟨c, -, hc⟩ := List.mem_map.mp hl
    by_cases he : c = '\n'
    · rw [show g c = ' ' from if_pos he] at hc
      exact absurd hc (by decide)
    · rw [show g c = c from if_neg he] at hc
      exact he hc
  refine ⟨u.map g, v.map g, List.length_map g, List.length_map g, hn u, hn v, ?_⟩
  have h := h.map g
  rwa [List.map_append, List.map_append, hg s hs, hg r hr] at h

/-- **A secret that touches the mark** is made by another one, on the line it is on. -/
theorem scrub_makes {s : String} (h : Touches secretMark s.toList) :
    ∃ (k : String) (t w : List Char) (y z : Char), k ≠ "" ∧ scrub t [s, k] = z :: w ++ [y] ∧
      y ∈ letters ∧ z ∈ letters ∧
      s.toList <:+: z :: w ++ [y] ∧ ('\n' ∉ s.toList → '\n' ∉ w) := by
  obtain ⟨u, v, hu, hv, hi, hline⟩ : ∃ u v : List Char, u.length < s.toList.length ∧
      v.length < s.toList.length ∧ s.toList <:+: u ++ secretMark ++ v ∧
      ('\n' ∉ s.toList → '\n' ∉ u ∧ '\n' ∉ v) := by
    obtain ⟨u, v, hu, hv, hi⟩ := h
    by_cases hs : '\n' ∈ s.toList
    · exact ⟨u, v, hu, hv, hi, fun hn => absurd hs hn⟩
    · obtain ⟨u', v', hu', hv', hnu, hnv, hi'⟩ := infix_oneline hs (by decide) hi
      exact ⟨u', v', hu' ▸ hu, hv' ▸ hv, hi', fun _ => ⟨hnu, hnv⟩⟩
  have hlen : ∀ o : Option Char, o.toList.length ≤ 1 := fun o => Option.length_toList_le
  set first := s.toList[0]? with hfirst
  set last := s.toList[s.toList.length - 1]? with hlast
  obtain ⟨c, -, hc⟩ := exists_char (first.toList ++ last.toList ++ u[u.length - 1]?.toList) (by
    have := hlen first; have := hlen last; have := hlen u[u.length - 1]?
    simp only [List.length_append]
    omega)
  obtain ⟨z, hz, hz'⟩ := exists_char (first.toList ++ [c]) (by
    have := hlen first
    simp only [List.length_append, List.length_singleton]
    omega)
  obtain ⟨y, hy, hy'⟩ := exists_char (last.toList ++ [c]) (by
    have := hlen last
    simp only [List.length_append, List.length_singleton]
    omega)
  simp only [List.mem_append, Option.mem_toList, List.mem_singleton, not_or] at hc hz' hy'
  have hmade := replace_makes (y := y) (z := z) hu hv hc.1.1 hc.1.2 hc.2 hz'.1 hy'.1 hz'.2 hy'.2 secretMark
  refine ⟨String.ofList (List.replicate s.toList.length c),
    z :: u ++ List.replicate s.toList.length c ++ (v ++ [y]), u ++ secretMark ++ v, y, z, ?_, ?_, hy, hz,
    ?_, ?_⟩
  · intro he
    have := congrArg (fun s : String => s.toList.length) he
    simp only [String.toList_ofList, List.length_replicate, String.toList_empty, List.length_nil] at this
    omega
  · rw [scrub, List.foldl_cons, List.foldl_cons, List.foldl_nil, String.toList_ofList, hmade]
    simp
  · exact hi.trans ⟨[z], [y], by simp⟩
  · intro hn
    obtain ⟨hnu, hnv⟩ := hline hn
    simp only [List.mem_append, not_or]
    exact ⟨⟨hnu, by decide⟩, hnv⟩

/-- What begins with a letter is no line that binds an output. -/
theorem not_binding {z : Char} (hz : z ∈ letters) (l : List Char) : ¬ outputPrefix <+: z :: l := by
  rintro ⟨r, h⟩
  exact (letter hz).2.2 (List.cons.inj h).1.symm

theorem untouched_of_hiddenProbe {s : String} (hs : s ≠ "")
    (h : ∀ b host env body, Uses b host env body s → s ∈ secretsOf body → HiddenProbe body s) :
    ¬ Touches secretMark s.toList := by
  intro ht
  obtain ⟨k, t, w, y, z, hk, hscrub, hy, -, hi, -⟩ := scrub_makes ht
  have hsecrets := secretsOf_gave hs hk
  have hseen : (observe (printing ⟨0, Bytes.ofText t, []⟩) "" (gave s k) fun _ => none).1 =
      .ok ⟨String.ofList (z :: w ++ [y]), some .yes⟩ := by
    show Res.ok (⟨String.ofList (trimEnd (scrub (Bytes.lossy (Bytes.ofText t)) (secretsOf (gave s k)))),
      some .yes⟩ : Observation) = _
    rw [hsecrets, Bytes.lossy_ofText, hscrub, trimEnd_concat (letter hy).1]
  refine h _ _ _ _ (uses_given hs) (hsecrets ▸ List.mem_cons_self) _ _ _ _ hseen ?_
  rw [String.toList_ofList]
  exact hi

/-- A secret that touches the mark is in what a body returns. -/
theorem returned_of_touches {s : String} (hs : s ≠ "") (hline : '\n' ∉ s.toList)
    (ht : Touches secretMark s.toList) : ∃ k, k ≠ "" ∧ ¬ HiddenRun (gave s k) s := by
  obtain ⟨k, t, w, y, z, hk, hscrub, hy, hz, hi, hw⟩ := scrub_makes ht
  refine ⟨k, hk, fun h => ?_⟩
  have hone : Text.lines (z :: w ++ [y]) = [z :: w ++ [y]] := by
    refine Text.lines_last ?_ (List.cons_ne_nil z _)
    simp only [List.mem_append, List.mem_cons, List.not_mem_nil, or_false, not_or]
    exact ⟨⟨(letter hz).2.1.symm, hw hline⟩, (letter hy).2.1.symm⟩
  have htook := took_line {} [] (secretsOf_gave hs hk ▸ hscrub) hone (not_binding hz _)
  have hgone := h (printing ⟨0, Bytes.ofText t, Bytes.ofText []⟩) "" fun _ => none
  rw [run_gave htook] at hgone
  exact hgone _ List.mem_cons_self (hi.trans ⟨[], ['\n'], rfl⟩)

theorem trim_of_ends {x y : Char} (hx : Text.isWhite x = false) (hy : Text.isWhite y = false)
    (t : List Char) : Text.trim (x :: (t ++ [y])) = x :: (t ++ [y]) := by
  have hfront : (x :: (t ++ [y])).dropWhile Text.isWhite = x :: (t ++ [y]) :=
    List.dropWhile_cons_of_neg (by rw [hx]; exact Bool.false_ne_true)
  have hback := trimEnd_concat hy (x :: t)
  rw [Text.trim, hfront]
  exact hback

/-- One an exit is reported with leads into is in the report. -/
theorem returned_of_leads {s : String} (hs : s ≠ "") (hline : '\n' ∉ s.toList) {code : Int32}
    (hc : code ≠ 0) (hl : Leads (frame code) s.toList) : ¬ HiddenRun (gave s s) s := by
  obtain ⟨v, hv, hi, hnv⟩ : ∃ v : List Char, v.length < s.toList.length ∧
      s.toList <:+: frame code ++ v ∧ '\n' ∉ v := by
    obtain ⟨v, hv, hi⟩ := hl
    obtain ⟨u', v', hu', hv', -, hnv, hi'⟩ :=
      infix_oneline (u := []) hline (newline_not_mem_frame code) hi
    obtain rfl := List.length_eq_zero_iff.mp hu'
    exact ⟨v', hv' ▸ hv, hi', hnv⟩
  intro h
  have hlen : ∀ o : Option Char, o.toList.length ≤ 1 := fun o => Option.length_toList_le
  obtain ⟨x, hx, hx'⟩ := exists_char (s.toList[0]?.toList) (by have := hlen s.toList[0]?; omega)
  obtain ⟨y, hy, hy'⟩ := exists_char (s.toList[s.toList.length - 1]?.toList) (by
    have := hlen s.toList[s.toList.length - 1]?
    omega)
  simp only [Option.mem_toList] at hx' hy'
  -- a line before it keeps the white space it may begin with
  have habsent : ¬ s.toList <:+: x :: (('\n' :: v) ++ [y]) := by
    refine not_infix_between (toList_ne_nil hs) hx' hy' fun hi => ?_
    rcases Text.infix_sides_newline (a := []) hline hi with hi | hi
    · exact toList_ne_nil hs (List.infix_nil.mp hi)
    · have := hi.length_le
      omega
  have hscrub : scrub (x :: (('\n' :: v) ++ [y])) (secretsOf (gave s s)) = x :: (('\n' :: v) ++ [y]) := by
    rw [secretsOf_gave hs hs]
    refine scrub_of_absent fun s' hs' => ?_
    rcases List.mem_pair.mp hs' with rfl | rfl
    · exact habsent
    · exact habsent
  have hlast : (Text.lines (x :: (('\n' :: v) ++ [y]))).getLast? = some (v ++ [y]) := by
    have hfirst : '\n' ∉ [x] := fun hn => (letter hx).2.1 (List.mem_singleton.mp hn).symm
    have hend : '\n' ∉ v ++ [y] := by
      rw [List.mem_append, not_or]
      exact ⟨hnv, fun hn => (letter hy).2.1 (List.mem_singleton.mp hn).symm⟩
    have hlines := Text.lines_line hfirst (v ++ [y])
    rw [Text.lines_last hend (List.append_ne_nil_of_right_ne_nil v (List.cons_ne_nil y []))] at hlines
    rw [show x :: (('\n' :: v) ++ [y]) = [x] ++ '\n' :: (v ++ [y]) from rfl, hlines]
    rfl
  have htook : took (secretsOf (gave s s)) {} ⟨code, [], Bytes.ofText (x :: (('\n' :: v) ++ [y]))⟩ =
      .error (exited code (x :: (('\n' :: v) ++ [y]))) := by
    simp only [took, sh, Bytes.lossy_ofText, hscrub, ne_eq, hc, not_false_eq_true, if_true]
  have hgone := h (printing ⟨code, [], Bytes.ofText (x :: (('\n' :: v) ++ [y]))⟩) "" fun _ => none
  rw [gave, run_printing rfl htook] at hgone
  refine hgone ⟨_, _, rfl⟩ ?_
  rw [toList_exited, trim_of_ends (letter hx).1 (letter hy).1, hlast, Option.getD_some]
  exact hi.trans ⟨[], [y], by simp⟩

/-! ## A secret of several lines -/

/-- A command that prints its own text. -/
def saying (l : List Char) : Prim := .run [.lit (String.ofList l)] [] none

def said (l : List Char) : RPrim := .run ⟨String.ofList l, false⟩ [] none

/-- Commands that print a secret line by line, the first of them given it. -/
def tellings (l : List Char) (ls : List (List Char)) : Body :=
  .run [.lit (String.ofList l)] [] (some (.ref (.secret "s"))) :: ls.map saying

def told (s : String) (l : List Char) (ls : List (List Char)) : List RPrim :=
  .run ⟨String.ofList l, false⟩ [] (some ⟨s, true⟩) :: ls.map said

theorem resolve_saying (host : Host) (env : Env) (l : List Char) :
    resolvePrim (saying l) host env = .ok (said l) := by
  show Except.ok (RPrim.run ⟨String.ofList l ++ "", false⟩ [] none) = _
  rw [String.append_empty]
  rfl

theorem resolve_sayings (host : Host) (env : Env) (ls : List (List Char)) :
    mapE (resolvePrim · host env) (ls.map saying) = .ok (ls.map said) := by
  induction ls with
  | nil => rfl
  | cons l ls ih =>
      rw [List.map_cons, mapE, resolve_saying, ih]
      rfl

theorem uses_tellings {s : String} (h : s ≠ "") (l : List Char) (ls : List (List Char)) :
    Uses (tellings l ls) here (holding s s) (told s l ls) s where
  resolved := by
    have hfirst : resolvePrim (.run [.lit (String.ofList l)] [] (some (.ref (.secret "s")))) here
        (holding s s) = .ok (.run ⟨String.ofList l, false⟩ [] (some ⟨s, true⟩)) := by
      show Except.ok (RPrim.run ⟨String.ofList l ++ "", false⟩ [] (some ⟨s, true⟩)) = _
      rw [String.append_empty]
    rw [resolveBody, tellings, mapE, hfirst, resolve_sayings]
    rfl
  used := List.mem_append_left _ (mem_secretIn h)

theorem secretsOf_told {s : String} (h : s ≠ "") (l : List Char) (ls : List (List Char)) :
    secretsOf (told s l ls) = [s] := by
  have hrest : (ls.map said).flatMap secretsOfPrim = [] := by
    rw [List.flatMap_eq_nil_iff]
    intro p hp
    obtain ⟨l, -, rfl⟩ := List.mem_map.mp hp
    rfl
  rw [secretsOf, told, List.flatMap_cons, hrest]
  simp [secretsOfPrim, secretIn, h]

/-- A line a secret of several lines is told by: it binds no output, and the secret is
not in it. -/
structure Tellable (s : String) (l : List Char) : Prop where
  line : '\n' ∉ l
  binds : ¬ outputPrefix <+: l
  empty : l = [] → ¬ s.toList <:+: ['\n']

theorem took_told {s : String} {l : List Char} {out : Output} (hs : '\n' ∈ s.toList) (h : Tellable s l) :
    took [s] out ⟨0, Bytes.ofText (if String.ofList l = "" then ['\n']
        else (String.ofList l).toList), []⟩ =
      .ok { out with stdout := out.stdout ++ (l ++ ['\n']) } := by
  refine took_line out [] rfl ?_ h.binds
  by_cases hl : l = []
  · subst hl
    rw [if_pos rfl, scrub_of_absent fun s' hs' => List.mem_singleton.mp hs' ▸ h.empty rfl]
    rfl
  · have hne : String.ofList l ≠ "" := fun he =>
      hl (String.toList_ofList.symm.trans (congrArg String.toList he))
    rw [if_neg hne, String.toList_ofList, scrub_of_absent, Text.lines_last h.line hl]
    intro s' hs' hi
    rw [List.mem_singleton.mp hs'] at hi
    exact h.line (hi.subset hs)

theorem prim_echoing {s : String} {l : List Char} {out : Output} {dir : String} {f : Render.Tree}
    {stdin : Option Resolved} (hs : '\n' ∈ s.toList) (h : Tellable s l) :
    prim echoing dir [s] out (.run ⟨String.ofList l, false⟩ [] stdin) f =
      (.ok { out with stdout := out.stdout ++ (l ++ ['\n']) }, f) := by
  show (Prog.ofExcept (took [s] out ⟨0, Bytes.ofText (if String.ofList l = "" then ['\n']
    else (String.ofList l).toList), []⟩) : Prog Render.Tree String Output) f = _
  rw [took_told hs h]
  rfl

theorem loop_said {s : String} {ls : List (List Char)} {out : Output} {dir : String} {f : Render.Tree}
    (hs : '\n' ∈ s.toList) (h : ∀ l ∈ ls, Tellable s l) :
    (Prog.loop (fun p out => prim echoing dir [s] out p) (ls.map said) out f).1 =
      .ok { out with stdout := out.stdout ++ Text.unlines ls } := by
  induction ls generalizing out with
  | nil =>
      show Res.ok out = _
      rw [Text.unlines, List.flatMap_nil, List.append_nil]
  | cons l ls ih =>
      obtain ⟨hl, hrest⟩ := List.forall_mem_cons.mp h
      show ((prim echoing dir [s] out (said l) >>= fun out' =>
        Prog.loop (fun p out => prim echoing dir [s] out p) (ls.map said) out') f).1 = _
      rw [Prog.bind_eq, said, prim_echoing hs hl]
      dsimp only
      rw [ih hrest, Text.unlines_cons]
      simp

theorem infix_unlines_of_mem {l r : List Char} {ls : List (List Char)} (h : r ∈ ls) :
    '\n' :: r <:+: Text.unlines (l :: ls) := by
  induction ls generalizing l with
  | nil => cases h
  | cons m ls ih =>
      rw [Text.unlines_cons]
      rcases List.mem_cons.mp h with rfl | h
      · rw [Text.unlines_cons]
        exact ⟨l, '\n' :: Text.unlines ls, by simp⟩
      · exact (ih (l := m) h).trans ⟨l ++ ['\n'], [], by simp⟩

theorem infix_terminated (s : List Char) : s <:+: Text.terminated s := by
  unfold Text.terminated
  split
  · exact List.infix_rfl
  · exact ⟨[], ['\n'], rfl⟩

theorem infix_of_infix_terminated {s q : List Char} (h : '\n' :: (q ++ [' ']) <:+: Text.terminated s) :
    '\n' :: (q ++ [' ']) <:+: s := by
  unfold Text.terminated at h
  split at h
  · exact h
  · rcases List.infix_concat_iff.mp h with ⟨a, ha⟩ | h
    · have hend := congrArg List.getLast? ha
      rw [show a ++ '\n' :: (q ++ [' ']) = (a ++ '\n' :: q) ++ [' '] by simp, List.getLast?_concat,
        List.getLast?_concat] at hend
      exact absurd hend (by decide)
    · exact h

/-- **A secret of several lines** is told line by line, unless one of them is dropped. -/
theorem returned_of_newline {s : String} (hs : '\n' ∈ s.toList)
    (hp : ¬ '\n' :: outputPrefix <:+: s.toList) :
    ∃ l ls, ¬ HiddenRun (told s l ls) s := by
  have hne : s ≠ "" := by
    rintro rfl
    exact absurd hs (by decide)
  have hrows := Text.unlines_rows s.toList
  have hline := fun l (hl : l ∈ Text.rows s.toList) => Text.newline_not_mem_row hl
  cases hr : Text.rows s.toList with
  | nil =>
      rw [hr] at hrows
      have hall := (infix_terminated s.toList).subset hs
      rw [← hrows] at hall
      cases hall
  | cons l ls =>
      rw [hr] at hrows hline
      obtain ⟨z, hz, -⟩ := exists_char [] (Nat.zero_le 4)
      have hrest : ∀ r ∈ ls, Tellable s r := by
        intro r hr'
        refine ⟨hline r (List.mem_cons_of_mem l hr'), fun hbinds => hp ?_, ?_⟩
        · have hi := infix_unlines_of_mem (l := l) hr'
          rw [hrows] at hi
          obtain ⟨t, rfl⟩ := hbinds
          refine infix_of_infix_terminated (q := "rescind-output".toList) (List.IsInfix.trans ?_ hi)
          exact ⟨[], t, rfl⟩
        · rintro rfl hi
          have hlen := List.length_pos_of_ne_nil (toList_ne_nil hne)
          have hnl : s.toList = ['\n'] := hi.eq_of_length (Nat.le_antisymm hi.length_le hlen)
          rw [hnl] at hr
          obtain ⟨-, rfl⟩ := List.cons.inj (show [[]] = l :: ls from hr)
          cases hr'
      have hfirst : Tellable s (z :: l) := by
        refine ⟨fun hn => ?_, not_binding hz l, fun h => absurd h (List.cons_ne_nil z l)⟩
        rcases List.mem_cons.mp hn with he | hn
        · exact (letter hz).2.1 he.symm
        · exact hline l List.mem_cons_self hn
      refine ⟨z :: l, ls, fun h => ?_⟩
      have hrun : (run echoing "" (told s (z :: l) ls) fun _ => none).1 =
          .ok { stdout := Text.unlines ((z :: l) :: ls) } := by
        rw [run, secretsOf_told hne]
        show ((prim echoing "" [s] {} (.run ⟨String.ofList (z :: l), false⟩ [] (some ⟨s, true⟩)) >>=
          fun out => Prog.loop (fun p out => prim echoing "" [s] out p) (ls.map said) out)
            fun _ => none).1 = _
        rw [Prog.bind_eq, prim_echoing hs hfirst]
        dsimp only
        rw [loop_said hs hrest, Text.unlines_cons]
        simp
      have hgone := h echoing "" fun _ => none
      rw [hrun] at hgone
      refine hgone _ List.mem_cons_self ?_
      rw [show Text.unlines ((z :: l) :: ls) = z :: Text.unlines (l :: ls) from rfl, hrows]
      exact (infix_terminated s.toList).trans ⟨[z], [], by simp⟩

/-- **Only a sealed secret** is in no result of the bodies it is a whole value of. -/
theorem sealed_of_hiddenRun {s : String} (hs : s ≠ "")
    (h : ∀ b host env body, Uses b host env body s → s ∈ secretsOf body → HiddenRun body s) :
    Sealed s.toList := by
  by_contra hn
  rw [Sealed, not_or] at hn
  obtain ⟨hopen, hkept⟩ := hn
  have hgave : ∀ {k : String}, k ≠ "" → HiddenRun (gave s k) s := fun hk =>
    h _ _ _ _ (uses_given hs) (by rw [secretsOf_gave hs hk]; exact List.mem_cons_self)
  by_cases hline : '\n' ∈ s.toList
  · obtain ⟨l, ls, hret⟩ := returned_of_newline hline hkept
    refine hret (h _ _ _ _ (uses_tellings hs l ls) ?_)
    rw [secretsOf_told hs]
    exact List.mem_cons_self
  · have htouch : ¬ Touches secretMark s.toList := by
      intro ht
      obtain ⟨k, hk, hret⟩ := returned_of_touches hs hline ht
      exact hret (hgave hk)
    exact hopen ⟨hline, htouch, fun code hc hl => returned_of_leads hs hline hc hl (hgave hs)⟩

/-! ## A secret inside a value -/

/-- The white space around it is no part of a secret. -/
def Bare (s : String) : Prop := Text.trim s.toList = s.toList

theorem trimEnd_of_bare {s : String} (h : Bare s) : trimEnd s.toList = s.toList := by
  have hfront : s.toList.dropWhile Text.isWhite = s.toList := by
    refine (List.dropWhile_suffix Text.isWhite).eq_of_length_le ?_
    have hlen := (prefix_trimEnd (s.toList.dropWhile Text.isWhite)).length_le
    have ht : trimEnd (s.toList.dropWhile Text.isWhite) = s.toList := h
    rwa [ht] at hlen
  have ht : trimEnd (s.toList.dropWhile Text.isWhite) = s.toList := h
  rwa [hfront] at ht

/-- Of a body that begins with a command. -/
theorem exists_of_hiddenRun {s : String} {p : RPrim} {rest : List RPrim} (hs : s ≠ "") (hb : Bare s)
    (hline : '\n' ∉ s.toList) (hp : isCommand p = true)
    (h : HiddenRun (p :: rest) s) : ∃ x ∈ secretsOf (p :: rest), x.toList <:+: s.toList := by
  by_contra hn
  push Not at hn
  have hscrub := scrub_of_absent hn
  have htook : took (secretsOf (p :: rest)) {} ⟨1, [], Bytes.ofText s.toList⟩ =
      .error (exited 1 s.toList) := by
    simp only [took, sh, Bytes.lossy_ofText, hscrub]
    rfl
  have hgone := h (printing ⟨1, [], Bytes.ofText s.toList⟩) "" fun _ => none
  rw [run_printing hp htook] at hgone
  refine hgone ⟨_, _, rfl⟩ ?_
  have hl : Text.lines s.toList = [s.toList] := Text.lines_last hline (toList_ne_nil hs)
  rw [toList_exited, show Text.trim s.toList = s.toList from hb, hl]
  exact ⟨frame 1, [], by simp⟩

/-- Of a probe. -/
theorem exists_of_hiddenProbe {s : String} {body : List RPrim} (hb : Bare s)
    (hp : (probeCommand body).isSome = true) (h : HiddenProbe body s) :
    ∃ x ∈ secretsOf body, x.toList <:+: s.toList := by
  by_contra hn
  push Not at hn
  obtain ⟨c, hc⟩ := Option.isSome_iff_exists.mp hp
  have hseen : (observe (printing ⟨0, Bytes.ofText s.toList, []⟩) "" body fun _ => none).1 =
      .ok ⟨String.ofList (trimEnd (scrub (Bytes.lossy (Bytes.ofText s.toList)) (secretsOf body))),
        some .yes⟩ := by
    rw [observe, hc]
    rfl
  refine h _ _ _ _ hseen ?_
  rw [String.toList_ofList, Bytes.lossy_ofText, scrub_of_absent hn, trimEnd_of_bare hb]

/-! ## The secrets that are gone -/

/-- **The secrets that are gone.**  A secret a body uses is in nothing its run or its
probe returns if it contains a value of the body that is sealed, or does not touch the
mark; of a body it is itself a value of, whatever else that carries, exactly then; and
one on which no white space ends is there only if it contains a value of the body. -/
theorem scrub_gone_iff (s : String) :
    (∀ b host env body, Uses b host env body s →
      ((∃ p ∈ secretsOf body, p.toList <:+: s.toList ∧ Sealed p.toList) → HiddenRun body s) ∧
      ((∃ p ∈ secretsOf body, p.toList <:+: s.toList ∧ ¬ Touches secretMark p.toList) →
        HiddenProbe body s)) ∧
    (s ≠ "" →
      ((∀ b host env body, Uses b host env body s → s ∈ secretsOf body → HiddenRun body s) ↔
        Sealed s.toList) ∧
      ((∀ b host env body, Uses b host env body s → s ∈ secretsOf body → HiddenProbe body s) ↔
        ¬ Touches secretMark s.toList)) ∧
    (Bare s → ∀ b host env body, Uses b host env body s →
      ('\n' ∉ s.toList → body.head?.any isCommand = true → HiddenRun body s →
        ∃ p ∈ secretsOf body, p.toList <:+: s.toList) ∧
      ((probeCommand body).isSome = true → HiddenProbe body s →
        ∃ p ∈ secretsOf body, p.toList <:+: s.toList)) := by
  refine ⟨fun b host env body _ => ⟨?_, ?_⟩, fun hs => ⟨⟨sealed_of_hiddenRun hs, ?_⟩,
    ⟨untouched_of_hiddenProbe hs, ?_⟩⟩, fun hb b host env body hu => ⟨?_, exists_of_hiddenProbe hb⟩⟩
  · rintro ⟨p, hp, hi, hw⟩
    exact hiddenRun hp hi hw
  · rintro ⟨p, hp, hi, hw⟩
    exact hiddenProbe hp hi hw
  · exact fun hw _ _ _ _ _ hin => hiddenRun hin List.infix_rfl hw
  · exact fun hw _ _ _ _ _ hin => hiddenProbe hin List.infix_rfl hw
  · intro hline hp h
    obtain ⟨r, -, hr⟩ := List.mem_flatMap.mp hu.used
    have hs : s ≠ "" := by
      split at hr
      · exact ne_of_mem_secretIn hr
      · cases hr
    cases body with
    | nil => cases hp
    | cons p rest => exact exists_of_hiddenRun hs hb hline hp h

/-! ## A token in a header -/

namespace Header

/-- `run "...", env: { AUTH: "Bearer #{secret}" }`. -/
def body : Body := [.run [.lit "curl"] [("AUTH", .template [.lit "Bearer ", .ref (.secret "token")])] none]

def env : Env where
  params := []
  outputs := []
  controller := []
  secrets := [("token", "hunter2")]

def resolved : List RPrim := [.run ⟨"curl", false⟩ [("AUTH", ⟨"Bearer hunter2", true⟩)] none]

/-- The command prints the token without the word before it; and the mark holds the
secret `e` whatever is printed. -/
theorem scrub_returns :
    Uses body here env resolved "hunter2" ∧
      (run (printing ⟨0, Bytes.ofString "hunter2", []⟩) "" resolved fun _ => none).1 =
        .ok { stdout := "hunter2\n".toList } ∧
      ¬ (∀ b host env body s, Uses b host env body s → HiddenRun body s) ∧
      ¬ (∀ b host env body s, Uses b host env body s → s ∈ secretsOf body → HiddenRun body s) := by
  have uses : Uses body here env resolved "hunter2" := ⟨by decide +kernel, by decide +kernel⟩
  have printed : (run (printing ⟨0, Bytes.ofString "hunter2", []⟩) "" resolved fun _ => none).1 =
      .ok { stdout := "hunter2\n".toList } := by decide +kernel
  refine ⟨uses, printed, fun h => ?_, fun h => ?_⟩
  · have hgone := h _ _ _ _ _ uses (printing ⟨0, Bytes.ofString "hunter2", []⟩) "" fun _ => none
    rw [printed] at hgone
    exact hgone _ List.mem_cons_self ⟨[], ['\n'], rfl⟩
  · have hgave : (run (printing ⟨0, Bytes.ofString "e", []⟩) "" (gave "e" "e") fun _ => none).1 =
        .ok { stdout := "<s<secret>cr<secret>t>\n".toList } := by decide +kernel
    have hgone := h _ _ _ _ "e" (uses_given (k := "e") (by decide)) (by decide +kernel)
      (printing ⟨0, Bytes.ofString "e", []⟩) "" fun _ => none
    rw [hgave] at hgone
    exact hgone _ List.mem_cons_self ⟨"<s<s".toList, "cret>cr<secret>t>\n".toList, rfl⟩

end Header

end Rescind.Local
