/-
# `Rescind.Safety.Scrubbing` — what the local executor returns of a command

`local.rs` replaces every secret value of a body in the text a command printed, one
secret after another, by a mark, and reads what it returns off the rest.  A secret is
gone from the text unless it touches the mark: then a replacement made after its own can
put it there.  And a result is put together again, from lines of the text and behind what
an exit is reported with: a secret is gone from it where it is *sealed*.

    a secret that does not touch the mark is gone              (`scrub_gone`)
    a result is parts of scrubbed texts                        (`ended_run`)
    a secret that is sealed is in no result                    (`hiddenRun`)
    one that does not touch the mark is in nothing seen        (`hiddenProbe`)

The errors of primitives that run no command are texts of the machine and of the plan,
which nobody scrubs: of them nothing is said.
-/
import Rescind.Bindings.Local
import Rescind.Lib.Fields

namespace Rescind.Local

open Lib

/-! ## Secrets -/

/-- The secrets a body uses: the values its secret references bring. -/
def usedSecrets (b : Body) (host : Host) (env : Env) : List String :=
  (b.flatMap Prim.refs).flatMap fun r => match resolveRef r host env with
    | .ok v => secretIn v
    | .error _ => []

/-- A body as the executor gets it, and a secret it uses. -/
structure Uses (b : Body) (host : Host) (env : Env) (body : List RPrim) (s : String) : Prop where
  resolved : resolveBody b host env = .ok body
  used : s ∈ usedSecrets b host env

def Output.texts (out : Output) : List (List Char) :=
  out.stdout :: out.outputs.flatMap fun kv => [kv.1.toList, kv.2.toList]

/-- A secret is in no text a body returns of its commands, and not in the report of one
that failed. -/
def Hides (s : String) : Res String Output → Prop
  | .ok out => ∀ t ∈ out.texts, ¬ s.toList <:+: t
  | .err e => (∃ code t, e = exited code t) → ¬ s.toList <:+: e.toList
  | .died => True

/-- Whatever the machine does, a secret is in nothing the body returns. -/
def HiddenRun (body : List RPrim) (s : String) : Prop :=
  ∀ m dir f, Hides s (run m dir body f).1

/-- Nor in what a probe saw. -/
def HiddenProbe (body : List RPrim) (s : String) : Prop :=
  ∀ m name f seen, (observe m name body f).1 = .ok seen → ¬ s.toList <:+: seen.text.toList

/-- What stands before the text of a failed command. -/
def frame (code : Int32) : List Char := ("failed: exit " ++ toString code ++ ": ").toList

/-- A text leads into a word: less than the word after it makes it. -/
def Leads (f w : List Char) : Prop := ∃ v, v.length < w.length ∧ w <:+: f ++ v

/-- A word on one line that touches neither the mark nor what an exit is reported
with; or one that asks for a line which binds an output, and is dropped. -/
def Sealed (w : List Char) : Prop :=
  ('\n' ∉ w ∧ ¬ Touches secretMark w ∧ ∀ code, code ≠ 0 → ¬ Leads (frame code) w) ∨
    '\n' :: outputPrefix <:+: w

/-! ## What is gone -/

theorem ne_of_mem_secretIn {r : Resolved} {s : String} (h : s ∈ secretIn r) : s ≠ "" := by
  rw [secretIn] at h
  split at h
  next hr =>
    rw [List.mem_singleton.mp h]
    exact of_decide_eq_true (Bool.and_eq_true_iff.mp hr).2
  · cases h

/-- No empty text is scrubbed. -/
theorem ne_of_mem_secretsOf {body : List RPrim} {s : String} (h : s ∈ secretsOf body) : s ≠ "" := by
  obtain ⟨p, -, hp⟩ := List.mem_flatMap.mp h
  have in_list : ∀ kvs : List (String × Resolved),
      s ∈ kvs.flatMap (fun kv => secretIn kv.2) → s ≠ "" := by
    intro kvs hs
    obtain ⟨kv, -, hkv⟩ := List.mem_flatMap.mp hs
    exact ne_of_mem_secretIn hkv
  cases p with
  | run cmd env stdin =>
      rcases List.mem_append.mp hp with hp | hp
      · rcases List.mem_append.mp hp with hp | hp
        · exact ne_of_mem_secretIn hp
        · exact in_list env hp
      · obtain ⟨r, -, hr⟩ := List.mem_flatMap.mp hp
        exact ne_of_mem_secretIn hr
  | write | regionSet | stage | append | call => exact ne_of_mem_secretIn hp
  | hook name args => exact in_list args hp
  | remove | regionClear | install | release => cases hp

theorem toList_ne_nil {s : String} (h : s ≠ "") : s.toList ≠ [] := by
  intro hs
  exact h (String.toList_inj.mp hs)

/-- A word that does not touch the mark is not put into a text. -/
theorem scrub_kept {secrets : List String} {w text : List Char} (hs : ∀ s ∈ secrets, s ≠ "")
    (hw : ¬ Touches secretMark w) (h : w <:+: scrub text secrets) : w <:+: text := by
  induction secrets generalizing text with
  | nil => exact h
  | cons s secrets ih =>
      obtain ⟨hne, hrest⟩ := List.forall_mem_cons.mp hs
      exact (replaced (toList_ne_nil hne) secretMark text).kept hw (ih hrest h)

/-- **A secret that does not touch the mark** is gone. -/
theorem scrub_gone {secrets : List String} {s : String} {text : List Char}
    (hs : ∀ s ∈ secrets, s ≠ "") (hin : s ∈ secrets) (hw : ¬ Touches secretMark s.toList) :
    ¬ s.toList <:+: scrub text secrets := by
  induction secrets generalizing text with
  | nil => cases hin
  | cons x secrets ih =>
      obtain ⟨hne, hrest⟩ := List.forall_mem_cons.mp hs
      rcases List.mem_cons.mp hin with rfl | hin
      · intro h
        exact (replaced (toList_ne_nil hne) secretMark text).gone hw (scrub_kept hrest hw h)
      · exact ih hrest hin

/-! ## What is read off a command -/

section

variable {secrets : List String} {out out' : Output} {ran : Printed} {e : String}

/-- Part of a scrubbed text, on one line. -/
structure Scrubbed (secrets : List String) (t : List Char) : Prop where
  line : '\n' ∉ t
  part : ∃ text, t <:+: scrub text secrets

theorem Scrubbed.within {t t' : List Char} (h : Scrubbed secrets t) (hi : t' <:+: t) :
    Scrubbed secrets t' := by
  obtain ⟨hline, text, hpart⟩ := h
  exact ⟨fun hn => hline (hi.subset hn), text, hi.trans hpart⟩

theorem scrubbed_line {text l : List Char} (h : l ∈ Text.lines (scrub text secrets)) :
    Scrubbed secrets l :=
  ⟨Text.newline_not_mem h, text, Text.infix_of_mem_lines h⟩

/-- An output is lines of scrubbed texts, none of which binds, and what such lines bind. -/
structure Kept (secrets : List String) (out : Output) : Prop where
  lines : ∃ ls, out.stdout = Text.unlines ls ∧
    ∀ l ∈ ls, Scrubbed secrets l ∧ ¬ outputPrefix <+: l
  outputs : ∀ kv ∈ out.outputs, Scrubbed secrets kv.1.toList ∧ Scrubbed secrets kv.2.toList

theorem mem_extend {vs kvs : Vars} {kv : String × String} (h : kv ∈ extend vs kvs) :
    kv ∈ vs ∨ kv ∈ kvs := by
  induction kvs generalizing vs with
  | nil => exact .inl h
  | cons x kvs ih =>
      rcases ih h with h | h
      · rcases Assoc.mem_insert_imp h with rfl | h
        · exact .inr List.mem_cons_self
        · exact .inl h
      · exact .inr (List.mem_cons_of_mem _ h)

theorem scrubbed_outputOf {l : List Char} {kv : String × String} (h : Scrubbed secrets l)
    (ho : outputOf l = some kv) : Scrubbed secrets kv.1.toList ∧ Scrubbed secrets kv.2.toList := by
  obtain ⟨⟨k, v⟩, hcut, rfl⟩ := Option.map_eq_some_iff.mp ho
  obtain ⟨r, hr, hcut⟩ := Option.bind_eq_some_iff.mp hcut
  obtain ⟨hkv, -⟩ := Text.cut_eq_some.mp hcut
  have hl : l = outputPrefix ++ (k ++ '=' :: v) := by
    rw [Text.dropPrefix_eq_some hr, hkv]
  have hk : k <:+: l := ⟨outputPrefix, '=' :: v, by rw [hl, List.append_assoc]⟩
  have hv : v <:+: l := ⟨outputPrefix ++ (k ++ ['=']), [], by rw [hl]; simp⟩
  rw [String.toList_ofList, String.toList_ofList]
  exact ⟨h.within ((Text.trim_infix k).trans hk), h.within hv⟩

/-- **A command keeps an output so.** -/
theorem Kept.taken (h : Kept secrets out) (ht : took secrets out ran = .ok out') :
    Kept secrets out' := by
  unfold took sh at ht
  dsimp only at ht
  split at ht
  · cases ht
  cases ht
  obtain ⟨ls, hls, hkept⟩ := h.lines
  constructor
  · refine ⟨ls ++ (Text.lines (scrub (Bytes.lossy ran.stdout) secrets)).filter fun l =>
      (Text.dropPrefix outputPrefix l).isNone, ?_, fun l hl => ?_⟩
    · rw [hls, splitOutputs, Text.unlines_append]
    · rcases List.mem_append.mp hl with hl | hl
      · exact hkept l hl
      · obtain ⟨hl, hnone⟩ := List.mem_filter.mp hl
        refine ⟨scrubbed_line hl, ?_⟩
        rintro ⟨r, rfl⟩
        rw [Text.dropPrefix_append] at hnone
        cases hnone
  · intro kv hkv
    rcases mem_extend hkv with hkv | hkv
    · exact h.outputs kv hkv
    · rcases mem_extend hkv with hkv | hkv
      · cases hkv
      · obtain ⟨l, hl, ho⟩ := List.mem_filterMap.mp hkv
        exact scrubbed_outputOf (scrubbed_line hl) ho

theorem toList_exited (code : Int32) (stderr : List Char) :
    (exited code stderr).toList = frame code ++ (Text.lines (Text.trim stderr)).getLast?.getD [] := by
  simp only [exited, frame, String.toList_append, String.toList_ofList]

/-- A failure is reported with a line of a scrubbed text. -/
theorem report_took (ht : took secrets out ran = .error e) :
    ∃ code l, code ≠ 0 ∧ Scrubbed secrets l ∧ e.toList = frame code ++ l := by
  unfold took sh at ht
  dsimp only at ht
  split at ht
  next hcode =>
    cases ht
    refine ⟨ran.code, _, hcode, ?_, toList_exited ..⟩
    cases hl : (Text.lines (Text.trim (scrub (Bytes.lossy ran.stderr) secrets))).getLast? with
    | none => exact ⟨List.not_mem_nil, [], List.nil_infix⟩
    | some l =>
        have hm := List.mem_of_getLast? hl
        exact ⟨Text.newline_not_mem hm, _, (Text.infix_of_mem_lines hm).trans (Text.trim_infix _)⟩
  · cases ht

end

section

/-! ## Runs -/

/-- How a body may end: with such an output, or as a command did; or otherwise than a
command does. -/
inductive Ended (secrets : List String) : Res String Output → Prop
  | ok {out : Output} (h : Kept secrets out) : Ended secrets (.ok out)
  | failed {e : String} {code : Int32} {l : List Char} (hc : code ≠ 0) (h : Scrubbed secrets l)
      (he : e.toList = frame code ++ l) : Ended secrets (.err e)
  | other {e : String} (h : ∀ code t, e ≠ exited code t) : Ended secrets (.err e)
  | died : Ended secrets .died

/-- A report of a command begins as no other error does. -/
theorem exited_ne {pre : String} (h : ¬ pre.toList <+: "failed: exit ".toList)
    (h' : ¬ "failed: exit ".toList <+: pre.toList) (x : String) (code : Int32) (t : List Char) :
    pre ++ x ≠ exited code t := by
  intro he
  have hl := congrArg String.toList he
  rw [toList_exited, frame] at hl
  simp only [String.toList_append, List.append_assoc] at hl
  rcases List.prefix_or_prefix_of_prefix (hl ▸ List.prefix_append _ _) (List.prefix_append _ _) with
    hp | hp
  · exact h hp
  · exact h' hp

variable {α β : Type} {m : Machine} {dir : String} {secrets : List String} {out : Output}

/-- A program none of whose errors is the report of a command. -/
def Quiet (x : Prog Render.Tree String α) : Prop :=
  ∀ f e, (x f).1 = .err e → ∀ code t, e ≠ exited code t

theorem Quiet.bind {x : Prog Render.Tree String α} {g : α → Prog Render.Tree String β} (hx : Quiet x)
    (hg : ∀ a, Quiet (g a)) : Quiet (x >>= g) := by
  intro f e he
  rw [Prog.bind_eq] at he
  rcases hf : x f with ⟨a | e' | _, f'⟩
  · rw [hf] at he
    exact hg a f' e he
  · rw [hf] at he
    cases he
    exact hx f e (by rw [hf])
  · rw [hf] at he
    cases he

theorem quiet_edit (g : Render.Tree → Render.Tree) : Quiet (Prog.edit g) := by
  intro f e he
  cases he

theorem quiet_read (g : Render.Tree → α) : Quiet (Prog.read g) := by
  intro f e he
  cases he

theorem quiet_fail {pre : String} (h : ¬ pre.toList <+: "failed: exit ".toList)
    (h' : ¬ "failed: exit ".toList <+: pre.toList) (x : String) :
    Quiet (Prog.fail (pre ++ x) : Prog Render.Tree String α) := by
  intro f e he
  cases he
  exact exited_ne h h' x

theorem quiet_spawn (cmd : Resolved) (env : List (String × Resolved)) (stdin : Option Resolved) :
    Quiet (spawn m cmd env stdin) := by
  intro f e he
  unfold spawn at he
  split at he
  · cases he
  · cases he
    exact exited_ne (by decide) (by decide) _

theorem quiet_pathOf (shape : String) : Quiet (pathOf shape) := by
  unfold pathOf
  cases filePath shape with
  | some p => exact quiet_read fun _ => p
  | none =>
      rw [String.append_assoc]
      exact quiet_fail (by decide) (by decide) _

theorem quiet_failIf (c : Bool) (p : String) : Quiet (Prog.failIf c (io m p)) := by
  cases c with
  | false => exact quiet_read fun _ => ()
  | true => exact quiet_fail (by decide) (by decide) _

theorem quiet_writeAtomic (p : String) (t : List Char) : Quiet (writeAtomic m p t) :=
  (quiet_failIf _ _).bind fun _ => (quiet_edit _).bind fun _ => (quiet_failIf _ _).bind fun _ =>
    quiet_edit _

theorem quiet_remove (p : String) : Quiet (remove m p) := by
  refine (quiet_read _).bind fun there => ?_
  cases there with
  | false => exact quiet_read fun _ => ()
  | true => exact (quiet_failIf _ _).bind fun _ => quiet_edit _

theorem Ended.bind {x : Prog Render.Tree String α} {g : α → Prog Render.Tree String Output}
    (hx : Quiet x) (hg : ∀ a f, Ended secrets (g a f).1) (f : Render.Tree) :
    Ended secrets ((x >>= g) f).1 := by
  rw [Prog.bind_eq]
  rcases hf : x f with ⟨a | e | _, f'⟩
  · exact hg a f'
  · exact .other (hx f e (by rw [hf]))
  · exact .died

theorem Ended.fail {pre : String} (h : ¬ pre.toList <+: "failed: exit ".toList)
    (h' : ¬ "failed: exit ".toList <+: pre.toList) (x : String) (f : Render.Tree) :
    Ended secrets ((Prog.fail (pre ++ x) : Prog Render.Tree String Output) f).1 :=
  .other (exited_ne h h' x)

theorem ended_command (h : Kept secrets out) (cmd : Resolved) (env : List (String × Resolved))
    (stdin : Option Resolved) (f : Render.Tree) :
    Ended secrets (command m secrets cmd env stdin out f).1 := by
  refine Ended.bind (quiet_spawn cmd env stdin) (fun ran f => ?_) f
  cases ht : took secrets out ran with
  | ok out' => exact .ok (h.taken ht)
  | error e =>
      obtain ⟨code, l, hc, hl, he⟩ := report_took ht
      exact .failed hc hl he

/-- **A primitive** ends so. -/
theorem ended_prim (h : Kept secrets out) (p : RPrim) (f : Render.Tree) :
    Ended secrets (prim m dir secrets out p f).1 := by
  have kept : ∀ f, Ended secrets ((pure out : Prog Render.Tree String Output) f).1 := fun _ => .ok h
  cases p with
  | run cmd env stdin => exact ended_command h cmd env stdin f
  | call _ cmd => exact ended_command h cmd [] none f
  | write shape content =>
      exact Ended.bind (quiet_pathOf shape) (fun p => Ended.bind (quiet_writeAtomic p _) fun _ => kept) f
  | remove shape =>
      exact Ended.bind (quiet_pathOf shape) (fun p => Ended.bind (quiet_remove p) fun _ => kept) f
  | append shape line =>
      exact Ended.bind (quiet_pathOf shape) (fun p => Ended.bind (quiet_read _) fun t =>
        Ended.bind (quiet_writeAtomic p _) fun _ => kept) f
  | regionSet shape anchor content =>
      exact Ended.bind (quiet_pathOf shape) (fun p => Ended.bind (quiet_read _) fun t =>
        Ended.bind (quiet_writeAtomic p _) fun _ => kept) f
  | regionClear shape anchor =>
      refine Ended.bind (quiet_pathOf shape) (fun p => Ended.bind (quiet_read _) fun t f => ?_) f
      cases regionStrip t (anchor.getD "") with
      | some t => exact Ended.bind (quiet_writeAtomic p _) (fun _ => kept) f
      | none =>
          simp only [String.append_assoc]
          exact Ended.fail (by decide) (by decide) _ f
  | stage name content mode => exact Ended.bind (quiet_writeAtomic _ _) (fun _ => kept) f
  | hook name args =>
      simp only [prim, String.append_assoc]
      exact Ended.fail (by decide) (by decide) _ f
  | install name | release name =>
      simp only [prim, String.append_assoc]
      exact Ended.fail (by decide) (by decide) _ f

/-- **And a body.** -/
theorem ended_loop (h : Kept secrets out) (body : List RPrim) (f : Render.Tree) :
    Ended secrets (Prog.loop (fun p out => prim m dir secrets out p) body out f).1 := by
  induction body generalizing out f with
  | nil => exact .ok h
  | cons p body ih =>
      have hp : Ended secrets (prim m dir secrets out p f).1 := ended_prim h p f
      show Ended secrets ((prim m dir secrets out p >>= fun out' =>
        Prog.loop (fun p out => prim m dir secrets out p) body out') f).1
      rw [Prog.bind_eq]
      rcases hf : prim m dir secrets out p f with ⟨out' | e | _, f'⟩
      · rw [hf] at hp
        cases hp with
        | ok h' => exact ih h' f'
      · rw [hf] at hp
        cases hp with
        | failed hc hl he => exact .failed hc hl he
        | other hne => exact .other hne
      · exact .died

theorem ended_run (body : List RPrim) (f : Render.Tree) :
    Ended (secretsOf body) (run m dir body f).1 :=
  ended_loop ⟨⟨[], rfl, List.forall_mem_nil _⟩, List.forall_mem_nil _⟩ body f

end

/-! ## Results -/

theorem digits_repr (n : Nat) : ∀ c ∈ (Nat.repr n).toList, c.isDigit = true := by
  intro c hc
  rw [Nat.repr, String.toList_ofList] at hc
  exact Nat.isDigit_of_mem_toDigits (by decide) (by decide) hc

/-- An exit is reported on one line. -/
theorem newline_not_mem_frame (code : Int32) : '\n' ∉ frame code := by
  have hcode : '\n' ∉ (toString code).toList := by
    show '\n' ∉ (Int.repr code.toInt).toList
    intro h
    cases hn : code.toInt with
    | ofNat n =>
        rw [hn] at h
        exact absurd (digits_repr n _ h) (by decide)
    | negSucc n =>
        rw [hn] at h
        have h : '\n' ∈ ("-" ++ Nat.repr (n + 1)).toList := h
        rw [String.toList_append] at h
        rcases List.mem_append.mp h with h | h
        · exact absurd h (by decide)
        · exact absurd (digits_repr (n + 1) _ h) (by decide)
  simp only [frame, String.toList_append, List.mem_append]
  rintro ((h | h) | h)
  · exact absurd h (by decide)
  · exact hcode h
  · exact absurd h (by decide)

/-- What occurs in two texts after one another is in the second, or the first leads
into it. -/
theorem infix_or_leads {f w y : List Char} (hne : w ≠ []) (h : w <:+: f ++ y) :
    w <:+: y ∨ Leads f w := by
  obtain ⟨x, z, h⟩ := h
  rw [List.append_assoc] at h
  rcases List.append_eq_append_iff.mp h with ⟨t, hf, ht⟩ | ⟨t, hx, ht⟩
  · rcases List.append_eq_append_iff.mp ht with ⟨t', hw, hy⟩ | ⟨r, hw, hz⟩
    · exact .inr ⟨[], List.length_pos_of_ne_nil hne, x, t', by rw [hf, hw]; simp⟩
    · cases t with
      | nil => exact .inl ⟨[], z, by rw [hz, hw]; simp⟩
      | cons c t =>
          refine .inr ⟨r, ?_, x, [], by rw [hf, hw]; simp⟩
          rw [hw, List.length_append, List.length_cons]
          omega
  · exact .inl ⟨t, z, by rw [ht, List.append_assoc]⟩

section

variable {secrets : List String} {p : String} {out : Output}

/-- A word whose every scrubbed text is without it is in no line of one. -/
theorem Scrubbed.gone {t : List Char} (ht : Scrubbed secrets t) (hs : ∀ s ∈ secrets, s ≠ "")
    (hp : p ∈ secrets) (hw : ¬ Touches secretMark p.toList) : ¬ p.toList <:+: t := by
  intro h
  obtain ⟨-, text, hpart⟩ := ht
  exact scrub_gone hs hp hw (h.trans hpart)

theorem Kept.gone (h : Kept secrets out) (hs : ∀ s ∈ secrets, s ≠ "") (hp : p ∈ secrets)
    (hw : Sealed p.toList) : ∀ t ∈ out.texts, ¬ p.toList <:+: t := by
  obtain ⟨ls, hls, hkept⟩ := h.lines
  intro t ht hi
  rcases List.mem_cons.mp ht with rfl | ht
  · rw [hls] at hi
    rcases hw with ⟨hline, htouch, -⟩ | hdropped
    · obtain ⟨l, hl, hi⟩ := Text.infix_unlines hline (toList_ne_nil (hs p hp)) hi
      exact (hkept l hl).1.gone hs hp htouch hi
    · obtain ⟨l, hl, hi⟩ := Text.prefix_of_infix_unlines (by decide) (by decide)
        (fun l hl => (hkept l hl).1.line) (hdropped.trans hi)
      exact (hkept l hl).2 hi
  · obtain ⟨kv, hkv, ht⟩ := List.mem_flatMap.mp ht
    have hscrubbed : Scrubbed secrets t := by
      rcases List.mem_pair.mp ht with rfl | rfl
      · exact (h.outputs kv hkv).1
      · exact (h.outputs kv hkv).2
    rcases hw with ⟨-, htouch, -⟩ | hdropped
    · exact hscrubbed.gone hs hp htouch hi
    · exact hscrubbed.line ((hdropped.trans hi).subset List.mem_cons_self)

theorem Ended.gone {x : Res String Output} (h : Ended secrets x) (hs : ∀ s ∈ secrets, s ≠ "")
    (hp : p ∈ secrets) (hw : Sealed p.toList) : Hides p x := by
  cases h with
  | ok h => exact h.gone hs hp hw
  | died => trivial
  | other hne => exact fun ⟨code, t, he⟩ => absurd he (hne code t)
  | @failed e code l hc hl he =>
      intro _ hi
      rw [he] at hi
      rcases hw with ⟨-, htouch, hleads⟩ | hdropped
      · rcases infix_or_leads (toList_ne_nil (hs p hp)) hi with hi | hi
        · exact hl.gone hs hp htouch hi
        · exact hleads code hc hi
      · rcases List.mem_append.mp ((hdropped.trans hi).subset List.mem_cons_self) with h | h
        · exact newline_not_mem_frame code h
        · exact hl.line h

end

theorem Hides.mono {s p : String} {x : Res String Output} (h : Hides p x)
    (hi : p.toList <:+: s.toList) : Hides s x := by
  cases x with
  | ok out => exact fun t ht hs => h t ht (hi.trans hs)
  | err e => exact fun he hs => h he (hi.trans hs)
  | died => trivial

/-- **What contains a sealed secret** is in no result. -/
theorem hiddenRun {body : List RPrim} {s p : String} (hp : p ∈ secretsOf body)
    (hi : p.toList <:+: s.toList) (hw : Sealed p.toList) : HiddenRun body s := fun _ _ f =>
  ((ended_run body f).gone (fun _ => ne_of_mem_secretsOf) hp hw).mono hi

theorem prefix_trimEnd (t : List Char) : trimEnd t <+: t := by
  have h := List.dropWhile_suffix Text.isWhite (l := t.reverse)
  rw [← List.reverse_prefix, List.reverse_reverse] at h
  exact h

/-- What a probe saw is a part of a scrubbed text. -/
theorem observe_scrubbed {m : Machine} {name : String} {body : List RPrim} {f : Render.Tree}
    {seen : Observation} (h : (observe m name body f).1 = .ok seen) :
    ∃ text, seen.text.toList <:+: scrub text (secretsOf body) := by
  unfold observe at h
  cases hc : probeCommand body with
  | none =>
      rw [hc] at h
      cases h
  | some c =>
      rw [hc] at h
      dsimp only at h
      rw [Prog.bind_eq] at h
      rcases hs : spawn m c.1 c.2.1 c.2.2 f with ⟨ran | e | _, f'⟩ <;> rw [hs] at h <;> cases h
      rw [String.toList_ofList]
      exact ⟨Bytes.lossy ran.stdout, (prefix_trimEnd _).isInfix⟩

/-- **What contains a secret that does not touch the mark** is in nothing seen. -/
theorem hiddenProbe {body : List RPrim} {s p : String} (hp : p ∈ secretsOf body)
    (hi : p.toList <:+: s.toList) (hw : ¬ Touches secretMark p.toList) : HiddenProbe body s := by
  intro m name f seen hseen hs
  obtain ⟨text, ht⟩ := observe_scrubbed hseen
  exact scrub_gone (fun _ => ne_of_mem_secretsOf) hp hw (hi.trans (hs.trans ht))

end Rescind.Local
