/-
# `Rescind.Safety.Artifacts` — the artifact of a plan the check passes

The check asks of a covered undo that it is closed: its values are known on the
target, its facts are static, its primitives are no work of the controller's.
The renderer is narrower.  It runs no probe and pipes nothing into a command, it
stages no file, and it acts on files alone; and what the plan itself writes has
to be spelled in the artifact's language.  Beyond that, a plan the check passes
is rendered on each of its hosts:

    the condition on the covered undos                      (`renders_iff`)
    a closed undo that reads a fact                         (`Probing.refused`)

Every value a covered undo names is taken to be bound to one the host's shell can quote
(`Bound`).  That the text does what the plan says is shown of sh alone, in
`Rescind.Safety.EitherWay`.
-/
import Rescind.Lib.Results
import Rescind.Render.Artifact
import Rescind.Engine.Script

namespace Rescind

open Lib Render

/-! ## Spelling -/

/-- A character a family cannot carry. -/
def unspoken : Family → Char → Bool
  | .posix, c | .powershell, c => !readable c
  | .python, c => c.toNat = 0

/-- A text a family can quote. -/
def spells (f : Family) (s : String) : Bool := s.toList.all fun c => !unspoken f c

theorem gives_refuse {f : Family} {s : String} {bad : Char → Bool} :
    Gives (Render.refuse f s bad) (fun _ => True) ↔ s.toList.all (fun c => !bad c) = true := by
  unfold Render.refuse
  rw [List.all_eq_true]
  cases hf : s.toList.find? bad with
  | none =>
      refine iff_of_true (gives_ok.mpr trivial) fun c hc => ?_
      simpa using List.find?_eq_none.mp hf c hc
  | some c =>
      refine iff_of_false gives_error fun h => ?_
      have hc := h c (List.mem_of_find?_eq_some hf)
      rw [List.find?_some hf] at hc
      cases hc

theorem gives_quote {f : Family} {s : String} :
    Gives (quote f s) (fun _ => True) ↔ spells f s = true := by
  cases f with
  | posix => exact gives_map.trans gives_refuse
  | powershell => exact gives_map.trans gives_refuse
  | python => exact gives_map.trans gives_refuse

theorem gives_bake {f : Family} {step : Nat} {s : String} :
    Gives (bake f step s) (fun _ => True) ↔ spells f s = true := by
  rw [← gives_quote]
  constructor
  · rintro ⟨t, ht, -⟩
    exact ⟨t, bake_eq_ok.mp ht, trivial⟩
  · rintro ⟨t, ht, -⟩
    exact ⟨t, bake_eq_ok.mpr ht, trivial⟩

theorem spells_append {f : Family} {s t : String} :
    spells f (s ++ t) = true ↔ spells f s = true ∧ spells f t = true := by
  unfold spells
  rw [String.toList_append, List.all_append, Bool.and_eq_true]

/-- What a shell's family quotes, every language spells: none refuses more. -/
theorem spells_of_shell {sh : Shell} {f : Family} {s : String}
    (h : spells (shellFamily sh) s = true) : spells f s = true := by
  rw [spells, List.all_eq_true] at h ⊢
  intro c hc
  have hr : readable c = true := by
    cases sh with
    | posix => simpa [unspoken, shellFamily] using h c hc
    | powershell => simpa [unspoken, shellFamily] using h c hc
  cases f with
  | posix => simpa [unspoken] using hr
  | powershell => simpa [unspoken] using hr
  | python =>
      unfold unspoken
      by_contra hz
      simp only [Bool.not_eq_true', decide_eq_false_iff_not, not_not] at hz
      have hc : c = Char.ofNat 0 := by rw [← hz, Char.ofNat_toNat]
      rw [hc] at hr
      revert hr
      decide

theorem spells_shell {sh : Shell} {s : String} :
    spells (shellFamily sh) s = true ↔ ∀ c ∈ s.toList, readable c = true := by
  rw [spells, List.all_eq_true]
  cases sh with
  | posix => simp [unspoken, shellFamily]
  | powershell => simp [unspoken, shellFamily]

/-- A quoted text can be quoted again. -/
theorem spells_quote {sh : Shell} {s t : String} (hs : spells (shellFamily sh) s = true)
    (ht : quote (shellFamily sh) s = .ok t) : spells (shellFamily sh) t = true := by
  rw [spells_shell] at hs ⊢
  intro c hc
  cases sh with
  | posix =>
      rw [toList_posix ht] at hc
      exact readable_quoted hs c hc
  | powershell =>
      rw [toList_powershell ht] at hc
      simp only [List.mem_append, List.mem_cons, List.mem_flatMap, List.not_mem_nil, or_false] at hc
      rcases hc with (rfl | ⟨d, hd, hc⟩) | rfl
      · decide
      · unfold doubleQuote at hc
        split at hc
        · simp only [List.mem_cons, List.not_mem_nil, or_false, or_self] at hc
          rw [hc]
          decide
        · rw [List.mem_singleton.mp hc]
          exact hs d hd
      · decide

theorem spells_toString {f : Family} (n : Nat) : spells f (toString n) = true := by
  have hs : ∀ c ∈ (toString n).toList, readable c = true := ?_
  · exact @spells_of_shell .posix f _ (spells_shell.mpr hs)
  intro c hc
  have hd : c.isDigit = true := by
    have hm : c ∈ Nat.toDigits 10 n := by simpa [toString, Nat.repr] using hc
    exact Nat.isDigit_of_mem_toDigits (by decide) (by decide) hm
  have hn : 48 ≤ c.toNat ∧ c.toNat ≤ 57 := by
    simpa [Char.isDigit, UInt32.le_iff_toNat_le] using hd
  have h1 : ¬ c.toNat < 32 := by omega
  have h2 : ¬ 127 ≤ c.toNat := by omega
  simp [readable, isControl, h1, h2]

/-! ## Values -/

/-- A parameter or a field of the host record. -/
def Ref.named : Ref → Bool
  | .param _ | .host _ => true
  | _ => false

/-- The bindings give the reference a value the host's shell can quote. -/
def Known (h : HostRecord) (b : Bindings) (r : Ref) : Prop :=
  ∀ step, Gives (resolve step r h b) fun v => spells (shellFamily (shellOf h.os)) v = true

/-- A part that no probe has to supply, and that the family spells where the plan
writes it. -/
def plainPart (f : Family) : Part → Bool
  | .lit s => spells f s
  | .ref (.fact _) => false
  | .ref _ => true

def plainValue (f : Family) : Value → Bool
  | .lit s => spells f s
  | .ref r => plainPart f (.ref r)
  | .template parts => parts.all (plainPart f)

/-- A reference the check lets stand in a baked position, with what it names
bound. -/
def Baked (h : HostRecord) (b : Bindings) (r : Ref) : Prop :=
  r.targetLocal = true ∧ (r.named = true → Known h b r)

section Values

variable {h : HostRecord} {b : Bindings} {f : Family} (step : Nat)

/-- What a reference bakes to is spelled, unless a probe would have to supply
it. -/
theorem gives_resolve {r : Ref} (hr : Baked h b r) :
    Gives (resolve step r h b) (fun v => spells f v = true) ↔ plainPart f (.ref r) = true := by
  cases r with
  | fact n => exact iff_of_false gives_error Bool.false_ne_true
  | param n => exact iff_of_true ((hr.2 rfl step).mono fun v hv => spells_of_shell hv) rfl
  | host n => exact iff_of_true ((hr.2 rfl step).mono fun v hv => spells_of_shell hv) rfl
  | output s n secret => cases hr.1
  | controller n => cases hr.1
  | secret n => cases hr.1

theorem gives_resolve_bake {r : Ref} (hr : Baked h b r) :
    Gives (resolve step r h b >>= bake (shellFamily (shellOf h.os)) step)
      (fun v => spells f v = true) ↔ plainPart f (.ref r) = true := by
  have hf : plainPart f (.ref r) = plainPart (shellFamily (shellOf h.os)) (.ref r) := by
    cases r <;> rfl
  have hres : Gives (resolve step r h b) (fun v => spells (shellFamily (shellOf h.os)) v = true) ↔
      plainPart (shellFamily (shellOf h.os)) (.ref r) = true := gives_resolve step hr
  rw [gives_bind, hf, ← hres]
  refine gives_congr fun v _ => ⟨fun hq => ?_, fun hv => ?_⟩
  · exact gives_bake.mp (hq.mono fun _ _ => trivial)
  · have hb : Gives (bake (shellFamily (shellOf h.os)) step v) fun _ => True := gives_bake.mpr hv
    obtain ⟨t, ht, -⟩ := hb
    exact ⟨t, ht, spells_of_shell (spells_quote hv (bake_eq_ok.mp ht))⟩

/-- A template put together part by part. -/
theorem gives_parts (go : Template → Except RenderError String)
    (put : Ref → Except RenderError String) (hnil : go [] = .ok "")
    (hlit : ∀ s t, go (.lit s :: t) = go t >>= fun rest => pure (s ++ rest))
    (href : ∀ r t, go (.ref r :: t) = put r >>= fun v => go t >>= fun rest => pure (v ++ rest))
    (t : Template)
    (hput : ∀ r, Part.ref r ∈ t →
      (Gives (put r) (fun v => spells f v = true) ↔ plainPart f (.ref r) = true)) :
    Gives (go t) (fun text => spells f text = true) ↔ t.all (plainPart f) = true := by
  induction t with
  | nil =>
      rw [hnil, gives_ok]
      exact iff_of_true rfl rfl
  | cons p t ih =>
      have ht := ih fun r hr => hput r (List.mem_cons_of_mem _ hr)
      rw [List.all_cons, Bool.and_eq_true, ← ht]
      cases p with
      | lit s =>
          rw [hlit, gives_map]
          simp only [spells_append, gives_and_left]
          exact Iff.rfl
      | ref r =>
          rw [href, gives_bind, ← hput r List.mem_cons_self]
          simp only [gives_map, spells_append, gives_and_left, gives_and_right]

theorem gives_textOf {v : Value} (hv : ∀ r ∈ v.refs, Baked h b r) :
    Gives (textOf step v h b) (fun text => spells f text = true) ↔ plainValue f v = true := by
  cases v with
  | lit s => exact gives_ok
  | ref r => exact gives_resolve step (hv r (List.mem_singleton.mpr rfl))
  | template parts =>
      refine gives_parts (textParts step h b) (fun r => resolve step r h b) rfl (fun _ _ => rfl)
        (fun _ _ => rfl) parts fun r hr => ?_
      exact gives_resolve step (hv r (List.mem_filterMap.mpr ⟨_, hr, rfl⟩))

theorem gives_runText {cmd : Template} (hcmd : ∀ r ∈ templateRefs cmd, Baked h b r) :
    Gives (runText step cmd (shellOf h.os) h b) (fun text => spells f text = true) ↔
      cmd.all (plainPart f) = true := by
  refine gives_parts (fun t => runText step t (shellOf h.os) h b)
    (fun r => resolve step r h b >>= bake (shellFamily (shellOf h.os)) step)
    rfl (fun _ _ => rfl) (fun r t => ?_) cmd fun r hr => ?_
  · rw [bind_assoc]
    rfl
  · exact gives_resolve_bake step (hcmd r (List.mem_filterMap.mpr ⟨_, hr, rfl⟩))

/-- A value of a closed body is baked from what is bound. -/
theorem baked_of_closed {v : Value} (hu : unclosedValue v = false) (hs : v.isSecret = false)
    (hk : ∀ r ∈ v.refs, r.named = true → Known h b r) : ∀ r ∈ v.refs, Baked h b r := by
  intro r hr
  refine ⟨?_, hk r hr⟩
  have h1 := List.any_eq_false.mp hu r hr
  have h2 := List.any_eq_false.mp hs r hr
  by_contra hn
  simp [Bool.eq_false_of_not_eq_true hn, Bool.eq_false_of_not_eq_true h2] at h1

/-! ## Primitives -/

/-- The shape names a file whose path the family spells. -/
def spelledFile (f : Family) (shape : String) : Bool := (filePath shape).any (spells f)

theorem runtimeBound_filePath {shape path : String} (hp : filePath shape = some path) :
    runtimeBound path = runtimeBound shape := by
  obtain ⟨cs, hcs, rfl⟩ := Option.map_eq_some_iff.mp hp
  unfold runtimeBound
  rw [Text.dropPrefix_eq_some hcs, String.toList_ofList, List.contains_append]
  rfl

theorem gives_staticPath {fact : FactRef} (hs : runtimeBound fact.shape = false) :
    Gives (staticPath step fact) (fun path => spells f path = true) ↔
      spelledFile f fact.shape = true := by
  unfold staticPath spelledFile
  cases hp : filePath fact.shape with
  | none => exact iff_of_false gives_error Bool.false_ne_true
  | some path =>
      have hb : ¬ runtimeBound path = true := by
        rw [runtimeBound_filePath hp, hs]
        exact Bool.false_ne_true
      simp only [if_neg hb]
      exact gives_ok

theorem gives_anchorOf {fact : FactRef} :
    Gives (anchorOf step fact) (fun a => spells f a = true) ↔
      fact.anchor.any (spells f) = true := by
  unfold anchorOf
  cases fact.anchor with
  | none => exact iff_of_false gives_error Bool.false_ne_true
  | some a => exact gives_ok

/-- Every value a template quotes of the action is spelled. -/
def Spelled (lang : ArtifactLanguage) (dir : String) (n : Nat) (a : Action) : Prop :=
  ∀ s ∈ a.holes lang dir n, spells (languageFamily lang) s = true

variable (lang : ArtifactLanguage) (dir : String)

theorem spelled_two (a : Action) {x y : String}
    (ha : a.holes lang dir step = [x, y] ∨ a.holes lang dir step = [y, x]) :
    Spelled lang dir step a ↔ spells (languageFamily lang) x = true ∧
      spells (languageFamily lang) y = true := by
  unfold Spelled
  rcases ha with ha | ha
  · rw [ha, List.forall_mem_cons, List.forall_mem_singleton]
  · rw [ha, List.forall_mem_cons, List.forall_mem_singleton, and_comm]

theorem spelled_one (a : Action) {x : String} (ha : a.holes lang dir step = [x]) :
    Spelled lang dir step a ↔ spells (languageFamily lang) x = true := by
  unfold Spelled
  rw [ha, List.forall_mem_singleton]

/-- What an artifact carries of a computed undo, where the check has no say: it
is told no fact, pipes nothing into a command, stages no file and acts on files
alone; and it spells what the plan writes. -/
def carriedPrim (f : Family) : Prim → Bool
  | .run cmd env stdin => env.isEmpty && stdin.isNone && cmd.all (plainPart f)
  | .call _ cmd _ => cmd.all (plainPart f)
  | .write fact content => spelledFile f fact.shape && plainValue f content
  | .remove fact => spelledFile f fact.shape
  | .append fact line => spelledFile f fact.shape && plainValue f line
  | .regionSet fact content =>
      spelledFile f fact.shape && fact.anchor.any (spells f) && plainValue f content
  | .regionClear fact => spelledFile f fact.shape && fact.anchor.any (spells f)
  | .stage _ _ _ => false
  | .hook _ _ | .install _ | .release _ => true

/-- What a command becomes. -/
theorem gives_runAction {cmd : Template} (hc : unclosedValue (.template cmd) = false)
    (hs : (Value.template cmd).isSecret = false)
    (hk : ∀ r ∈ templateRefs cmd, r.named = true → Known h b r) :
    Gives (runText step cmd (shellOf h.os) h b >>= fun c => pure (Action.run c))
      (Spelled lang dir step) ↔ cmd.all (plainPart (languageFamily lang)) = true := by
  have hbaked : ∀ r ∈ (Value.template cmd).refs, Baked h b r := baked_of_closed hc hs hk
  rw [gives_map, ← gives_runText step hbaked]
  exact gives_congr fun c _ => spelled_one step lang dir _ rfl

/-- What a primitive on a fact with a value becomes. -/
theorem gives_factAction {make : String → String → Action} {fact : FactRef} {v : Value}
    (hmake : ∀ x y, Spelled lang dir step (make x y) ↔
      spells (languageFamily lang) x = true ∧ spells (languageFamily lang) y = true)
    (hf : runtimeBound fact.shape = false) (hv : ∀ r ∈ v.refs, Baked h b r) :
    Gives (staticPath step fact >>= fun x => textOf step v h b >>= fun y => pure (make x y))
      (Spelled lang dir step) ↔
      (spelledFile (languageFamily lang) fact.shape &&
        plainValue (languageFamily lang) v) = true := by
  rw [gives_bind, Bool.and_eq_true, ← gives_staticPath step hf,
    ← gives_textOf step hv]
  simp only [gives_map, hmake, gives_and_left, gives_and_right]

theorem gives_primAction {q : Prim} (hc : unclosedPrim q = false)
    (hs : ∀ v ∈ positions q, v.2.2.isSecret = false)
    (hk : ∀ r ∈ q.refs, r.named = true → Known h b r) :
    Gives (primAction step (shellOf h.os) h b q) (Spelled lang dir step) ↔
      carriedPrim (languageFamily lang) q = true := by
  cases q with
  | run cmd env stdin =>
      simp only [unclosedPrim, Bool.or_eq_false_iff] at hc
      have hrun := gives_runAction step lang dir hc.1.1
        (hs _ List.mem_cons_self)
        fun r hr => hk r (List.mem_append_left _ (List.mem_append_left _ hr))
      rw [primAction, carriedPrim, Bool.and_eq_true, ← hrun]
      cases env <;> cases stdin <;> simp [gives_error]
  | call prim cmd args =>
      simp only [unclosedPrim, Bool.or_eq_false_iff] at hc
      have hrun := gives_runAction step lang dir hc.1.2
        (hs _ List.mem_cons_self) fun r hr => hk r (List.mem_append_left _ hr)
      rw [primAction, carriedPrim, ← hrun, hc.1.1, if_neg Bool.false_ne_true]
  | write fact content =>
      obtain ⟨hf, hu⟩ := Bool.or_eq_false_iff.mp hc
      have hbaked := baked_of_closed hu (hs _ List.mem_cons_self) hk
      refine gives_factAction step lang dir (fun x y => spelled_two step lang dir _ ?_) hf hbaked
      cases lang <;> simp [Action.holes]
  | append fact line =>
      obtain ⟨hf, hu⟩ := Bool.or_eq_false_iff.mp hc
      have hbaked := baked_of_closed hu (hs _ List.mem_cons_self) hk
      refine gives_factAction step lang dir (fun x y => spelled_two step lang dir _ ?_) hf hbaked
      cases lang <;> simp [Action.holes]
  | remove fact =>
      rw [primAction, carriedPrim, gives_map, ← gives_staticPath step hc]
      exact gives_congr fun x _ => spelled_one step lang dir _ rfl
  | regionSet fact content =>
      obtain ⟨hf, hu⟩ := Bool.or_eq_false_iff.mp hc
      have hbaked := baked_of_closed hu (hs _ List.mem_cons_self) hk
      have hmake : ∀ x a y, Spelled lang dir step (.regionSet x a y) ↔
          (spells (languageFamily lang) x = true ∧ spells (languageFamily lang) a = true) ∧
            spells (languageFamily lang) y = true := by
        intro x a y
        simp [Spelled, Action.holes, and_assoc]
      rw [primAction, carriedPrim, gives_bind, Bool.and_eq_true, Bool.and_eq_true,
        ← gives_staticPath step hf, ← gives_anchorOf step,
        ← gives_textOf step hbaked]
      simp only [gives_bind, gives_pure, hmake, gives_and_left, gives_and_right]
  | regionClear fact =>
      have hmake : ∀ x a, Spelled lang dir step (.regionClear x a) ↔
          spells (languageFamily lang) x = true ∧ spells (languageFamily lang) a = true :=
        fun x a => spelled_two step lang dir _ (.inl rfl)
      rw [primAction, carriedPrim, gives_bind, Bool.and_eq_true,
        ← gives_staticPath step hc, ← gives_anchorOf step]
      simp only [gives_map, hmake, gives_and_left, gives_and_right]
  | stage name content mode => exact iff_of_false gives_error Bool.false_ne_true
  | hook name args => cases hc
  | install name => cases hc
  | release name => cases hc

/-! ## Restores -/

/-- What an artifact carries of a restore: each entry it acts on is a file, and a
region has its anchor. -/
def carriedEntry (f : Family) (e : FootprintEntry) : Bool :=
  !e.kind.observed ||
    (spelledFile f e.shape && (e.kind ≠ .region || e.anchor.any (spells f)))

/-- What is said of each file fact of a footprint, said of its entries. -/
theorem forall_fileFactsOf {fp : Footprint} {P : Kind → String → Option String → Prop} :
    (∀ x ∈ fileFactsOf fp, P x.kind x.path x.anchor) ↔
      ∀ e ∈ fp, e.kind.observed = true → ∀ path, filePath e.shape = some path →
        runtimeBound path = false → P e.kind path e.anchor := by
  unfold fileFactsOf
  constructor
  · intro hx e he ho path hp hb
    obtain ⟨k, hk⟩ := List.mem_iff_getElem?.mp he
    have hm : (e, k) ∈ fp.zipIdx := List.mem_zipIdx_iff_getElem?.mpr hk
    have hfact : fileFact k e = some ⟨e.kind, path, e.anchor, k, ho⟩ := by
      rw [fileFact, hp]
      exact dif_pos ⟨ho, hb⟩
    exact hx _ (List.mem_filterMap.mpr ⟨_, hm, hfact⟩)
  · intro he x hx
    obtain ⟨⟨e, k⟩, hm, hfact⟩ := List.mem_filterMap.mp hx
    have hmem : e ∈ fp := (List.mem_zipIdx_iff_getElem?.mp hm) |> List.mem_of_getElem?
    unfold fileFact at hfact
    cases hp : filePath e.shape with
    | none => rw [hp] at hfact; cases hfact
    | some path =>
        rw [hp] at hfact
        dsimp only at hfact
        split at hfact
        · rename_i hh
          cases hfact
          exact he e hmem hh.1 path hp hh.2
        · cases hfact

theorem snapshot_spelled {dir : String} (hdir : spells f dir = true) (n k : Nat) :
    spells f (dir ++ "/snapshots/" ++ toString n ++ "/" ++ toString k) = true := by
  have hslash : spells f "/" = true := by cases f <;> decide
  have hsnap : spells f "/snapshots/" = true := by cases f <;> decide
  simp only [spells_append, hdir, hslash, hsnap, spells_toString, and_self]

theorem gives_restoreAction {lang : ArtifactLanguage} {dir : String}
    (hdir : spells (languageFamily lang) dir = true) (x : FileFact) :
    Gives (restoreAction step x) (Spelled lang dir step) ↔
      spells (languageFamily lang) x.path = true ∧
        (x.kind = .region → x.anchor.any (spells (languageFamily lang)) = true) := by
  obtain ⟨kind, path, anchor, k, ho⟩ := x
  have hsnap := snapshot_spelled hdir step k
  cases kind with
  | owned =>
      refine gives_ok.trans ((spelled_one step lang dir _ rfl).trans ?_)
      exact (and_iff_left fun h => Kind.noConfusion h).symm
  | modified =>
      refine gives_ok.trans (Iff.trans ?_ (and_iff_left fun h => Kind.noConfusion h).symm)
      cases lang with
      | sh => simp only [Spelled, Action.holes, List.forall_mem_cons, hsnap, true_and,
          List.not_mem_nil, false_imp_iff, implies_true, and_true]
      | powershell => exact spelled_one step .powershell dir _ rfl
      | python => exact spelled_one step .python dir _ rfl
  | region =>
      cases anchor with
      | none => exact iff_of_false gives_error fun h => Bool.false_ne_true (h.2 rfl)
      | some a =>
          refine gives_ok.trans (Iff.trans ?_ (and_congr_right' (forall_prop_of_true rfl).symm))
          cases lang with
          | sh => simp only [Spelled, Action.holes, List.forall_mem_cons, hsnap, true_and,
              List.not_mem_nil, false_imp_iff, implies_true, and_true, Option.any_some]
          | powershell => exact spelled_two step .powershell dir _ (.inl rfl)
          | python => exact spelled_two step .python dir _ (.inl rfl)
  | derived => cases ho
  | appendOnly => cases ho
  | held => cases ho

/-- With every entry static, an entry the restore acts on has its file just when
its shape names one. -/
theorem unobserved_iff {fp : Footprint} {e : FootprintEntry} (he : e ∈ fp)
    (hs : runtimeBound e.shape = false) :
    unobserved (fileFactsOf fp) e = true ↔ e.kind.observed = true ∧ filePath e.shape = none := by
  unfold unobserved
  rw [Bool.and_eq_true, Bool.not_eq_true', List.any_eq_false]
  refine and_congr_right fun ho => ?_
  cases hp : filePath e.shape with
  | none => exact iff_of_true (fun x _ => by simp) rfl
  | some path =>
      refine iff_of_false (fun hx => ?_) nofun
      have hall := forall_fileFactsOf (P := fun _ y _ => y ≠ path) |>.mp fun x hxm hxp =>
        hx x hxm (decide_eq_true (congrArg some hxp))
      exact hall e he ho path hp ((runtimeBound_filePath hp).trans hs) rfl

theorem gives_restoreActions {lang : ArtifactLanguage} {dir : String} {fp : Footprint}
    (hdir : spells (languageFamily lang) dir = true)
    (hc : ∀ e ∈ fp, runtimeBound e.shape = false ∧ e.kind ≠ .held) :
    Gives (restoreActions step fp (fileFactsOf fp)) (fun as => ∀ a ∈ as, Spelled lang dir step a) ↔
      fp.all (carriedEntry (languageFamily lang)) = true := by
  have hheld : fp.find? (fun e => decide (e.kind = .held)) = none :=
    List.find?_eq_none.mpr fun e he => by simpa using (hc e he).2
  unfold restoreActions
  rw [List.all_eq_true, hheld]
  cases hfind : fp.find? (unobserved (fileFactsOf fp)) with
  | some e =>
      have he := List.mem_of_find?_eq_some hfind
      obtain ⟨ho, hp⟩ := (unobserved_iff he (hc e he).1).mp (List.find?_some hfind)
      refine iff_of_false gives_error fun hall => ?_
      have := hall e he
      simp [carriedEntry, ho, spelledFile, hp] at this
  | none =>
      have hfile : ∀ e ∈ fp, e.kind.observed = true → ∃ path, filePath e.shape = some path := by
        intro e he ho
        have hn := List.find?_eq_none.mp hfind e he
        rw [unobserved_iff he (hc e he).1] at hn
        exact Option.ne_none_iff_exists'.mp fun hp => hn ⟨ho, hp⟩
      have hmap : Gives ((fileFactsOf fp).mapM (restoreAction step))
          (fun as => ∀ a ∈ as, Spelled lang dir step a) ↔ ∀ x ∈ fileFactsOf fp,
            spells (languageFamily lang) x.path = true ∧
              (x.kind = .region → x.anchor.any (spells (languageFamily lang)) = true) :=
        gives_mapM.trans (forall₂_congr fun x _ => gives_restoreAction step hdir x)
      dsimp only
      rw [bind_pure, hmap]
      refine (forall_fileFactsOf (P := fun k y a => spells (languageFamily lang) y = true ∧
        (k = .region → a.any (spells (languageFamily lang)) = true))).trans ?_
      refine forall₂_congr fun e he => ?_
      unfold carriedEntry
      cases ho : e.kind.observed with
      | false => simp
      | true =>
          obtain ⟨path, hp⟩ := hfile e he ho
          have hb := (runtimeBound_filePath hp).trans (hc e he).1
          refine Iff.trans ⟨fun hx => hx rfl path hp hb, fun hx _ y hy _ => ?_⟩
            (b := spells (languageFamily lang) path = true ∧
              (e.kind = .region → e.anchor.any (spells (languageFamily lang)) = true)) ?_
          · cases Option.some.inj (hp.symm.trans hy)
            exact hx
          · simp [hp, spelledFile, Decidable.imp_iff_not_or]

/-! ## Steps -/

/-- The drift check of a step names each static file of its footprint, a region's
apart. -/
def watchedSpelled (f : Family) (e : FootprintEntry) : Bool :=
  !e.kind.observed || e.kind = .region || runtimeBound e.shape || (filePath e.shape).all (spells f)

def carriedUndo (f : Family) (o : Op) : Bool :=
  match o.undo with
  | .noUndo => true
  | .restore => o.footprint.all (carriedEntry f)
  | .computed body _ | .compensate body _ => body.all (carriedPrim f)

/-- What an artifact carries of a covered step. -/
def carried (f : Family) (o : Op) : Bool := o.footprint.all (watchedSpelled f) && carriedUndo f o

/-- The undo is closed, names no secret, and what it names is bound. -/
structure Closed (h : HostRecord) (b : Bindings) (o : Op) : Prop where
  closed : unclosedUndo o = false
  open_ : ((undoBody o).map secretAnywhere).getD false = false
  bound : ∀ body, undoBody o = some body → ∀ q ∈ body, ∀ r ∈ q.refs, r.named = true → Known h b r

theorem spelled_watched {fp : Footprint} :
    (∀ s ∈ ((fileFactsOf fp).filter fun x => x.kind ≠ .region).map FileFact.path,
      spells f s = true) ↔ fp.all (watchedSpelled f) = true := by
  rw [List.all_eq_true, List.forall_mem_map]
  have hx : (∀ x ∈ (fileFactsOf fp).filter (fun x => decide (x.kind ≠ .region)),
      spells f x.path = true) ↔
      ∀ x ∈ fileFactsOf fp, x.kind ≠ .region → spells f x.path = true := by
    simp only [List.mem_filter, decide_eq_true_eq, and_imp]
  refine hx.trans ((forall_fileFactsOf (P := fun k y _ => k ≠ .region → spells f y = true)).trans ?_)
  refine forall₂_congr fun e _ => ?_
  unfold watchedSpelled
  cases hp : filePath e.shape with
  | none => simp
  | some path =>
      rw [← runtimeBound_filePath hp]
      simp only [Option.some.injEq, forall_eq']
      cases e.kind.observed <;> cases runtimeBound path <;> simp [Decidable.imp_iff_not_or]

variable {lang : ArtifactLanguage} {dir : String} {o : Op}

theorem gives_bodyActions {body : Body} (hbody : undoBody o = some body)
    (hu : unclosedUndo o = body.any unclosedPrim) (hc : Closed h b o) :
    Gives (body.mapM (primAction step (shellOf h.os) h b))
      (fun as => ∀ a ∈ as, Spelled lang dir step a) ↔
      body.all (carriedPrim (languageFamily lang)) = true := by
  rw [List.all_eq_true]
  refine gives_mapM.trans (forall₂_congr fun q hq => ?_)
  have hopen : secretAnywhere body = false := by
    have := hc.open_
    rwa [hbody, Option.map_some, Option.getD_some] at this
  have hclosed : body.any unclosedPrim = false := hu.symm.trans hc.closed
  refine gives_primAction step lang dir ?_ (fun v hv => ?_) (hc.bound body hbody q hq)
  · exact Bool.eq_false_of_not_eq_true (List.any_eq_false.mp hclosed q hq)
  · have := List.any_eq_false.mp hopen q hq
    exact Bool.eq_false_of_not_eq_true (List.any_eq_false.mp (Bool.eq_false_of_not_eq_true this) v hv)

theorem gives_undoActions (hdir : spells (languageFamily lang) dir = true) (hc : Closed h b o) :
    Gives (undoActions step o (shellOf h.os) h b) (fun as => ∀ a ∈ as, Spelled lang dir step a) ↔
      carriedUndo (languageFamily lang) o = true := by
  have hcl := hc.closed
  unfold undoActions carriedUndo
  unfold unclosedUndo at hcl
  cases hu : o.undo with
  | noUndo => exact gives_ok.trans (iff_of_true nofun rfl)
  | restore =>
      refine gives_restoreActions step hdir fun e he => ?_
      rw [hu] at hcl
      have := List.any_eq_false.mp hcl e he
      simpa using this
  | computed body pre =>
      exact gives_bodyActions step (by rw [undoBody, hu]) (by rw [unclosedUndo, hu]) hc
  | compensate body pre =>
      exact gives_bodyActions step (by rw [undoBody, hu]) (by rw [unclosedUndo, hu]) hc

theorem gives_stepActions (hdir : spells (languageFamily lang) dir = true) (hc : Closed h b o) :
    Gives (stepActions step o (shellOf h.os) h b)
      (fun st => ∀ s ∈ st.holes lang dir, spells (languageFamily lang) s = true) ↔
      carried (languageFamily lang) o = true := by
  rw [stepActions, gives_map, carried, Bool.and_eq_true, ← gives_undoActions step hdir hc,
    ← spelled_watched, ← gives_and_left]
  refine gives_congr fun as _ => ?_
  simp only [Step.holes, List.forall_mem_append, List.forall_mem_flatMap, Spelled]

end Values

/-! ## Plans -/

/-- Every parameter and host field a covered undo names is bound to a value the
host's shell can quote. -/
def Bound (p : Plan) (h : HostRecord) (b : Bindings) : Prop :=
  ∀ q ∈ coveredOps p, ∀ body, undoBody q.2 = some body → ∀ x ∈ body, ∀ r ∈ x.refs,
    r.named = true → Known h b r

theorem mem_coveredOps {p : Plan} {n : Nat} {o : Op} (h : (n, o) ∈ coveredOps p) :
    ∃ it, (n, it) ∈ numbered p.body ∧ opOf it = some o ∧ o.undoLocus = .target := by
  obtain ⟨m, hm, he⟩ := List.mem_filterMap.mp h
  obtain ⟨⟨k, it⟩, hk, hn⟩ := List.mem_filterMap.mp hm
  dsimp only at hn
  cases ho : opOf it with
  | none => rw [ho] at hn; cases hn
  | some o' =>
      rw [ho] at hn
      dsimp only at hn
      split at hn
      · rename_i ht
        cases hn
        rw [leafAt_of_mem hk, Option.bind_some, ho] at he
        cases he
        exact ⟨it, hk, ho, ht⟩
      · cases hn

/-- What the check says of a covered step. -/
theorem closed_of_checkClean {ir : PlanIr} (hclean : checkClean ir = true) {h : HostRecord}
    {b : Bindings} (hb : Bound ir.plan h b) {q : Nat × Op} (hq : q ∈ coveredOps ir.plan) :
    Closed h b q.2 := by
  obtain ⟨it, hm, ho, ht⟩ := mem_coveredOps hq
  have hops := opDiagnostics_of_checkClean hclean hm ho
  simp only [opDiagnostics, List.append_eq_nil_iff, flag_eq_nil, ht, decide_true, Bool.true_and] at hops
  obtain ⟨⟨⟨⟨⟨⟨⟨⟨⟨⟨⟨-, hclosed⟩, -⟩, -⟩, -⟩, -⟩, -⟩, -⟩, -⟩, -⟩, hopen⟩, -⟩ := hops
  exact ⟨hclosed, hopen, hb q hq⟩

theorem spells_dir {f : Family} {root id : String} (hroot : spells f root = true) :
    spells f (root ++ "/instances/" ++ id) = true ↔ spells f id = true := by
  have hmid : spells f "/instances/" = true := by cases f <;> decide
  simp only [spells_append, hroot, hmid, true_and]

/-- A template is rendered just when its language spells the directory it stands
in and every value of its steps. -/
theorem gives_template (c : Context) :
    Gives (template c) (fun _ => True) ↔
      (spells (languageFamily c.language) c.root = true ∧
        spells (languageFamily c.language) c.inst.id = true) ∧
      ∀ st ∈ c.steps, ∀ s ∈ st.holes c.language c.dir,
        spells (languageFamily c.language) s = true := by
  have hall : Gives (template c) (fun _ => True) ↔
      ∀ q ∈ c.holes, spells (languageFamily c.language) q.2 = true := by
    rw [template, gives_map]
    refine Iff.trans ?_ (gives_mapM.trans (forall₂_congr fun q _ => @gives_bake _ q.1 q.2))
    exact gives_congr fun _ _ => iff_of_true trivial fun _ _ => trivial
  rw [hall]
  simp only [Context.holes, List.forall_mem_append, List.forall_mem_cons, List.not_mem_nil,
    false_imp_iff, implies_true, and_true, List.forall_mem_flatMap, List.forall_mem_map]
  refine and_congr_left fun _ => and_congr_right fun hroot => ?_
  revert hroot
  cases c.language with
  | sh => exact fun hroot => spells_dir hroot
  | powershell => exact fun _ => Iff.rfl
  | python => exact fun _ => Iff.rfl

/-- The steps of an artifact are rendered just when it carries each of them. -/
theorem gives_steps {h : HostRecord} {b : Bindings} {lang : ArtifactLanguage} {dir : String}
    (hdir : spells (languageFamily lang) dir = true) {ops : List (Nat × Op)}
    (hc : ∀ q ∈ ops, Closed h b q.2) :
    Gives (ops.reverse.mapM fun q => stepActions q.1 q.2 (shellOf h.os) h b)
      (fun sts => ∀ st ∈ sts, ∀ s ∈ st.holes lang dir, spells (languageFamily lang) s = true) ↔
      ∀ q ∈ ops, carried (languageFamily lang) q.2 = true := by
  refine gives_mapM.trans ?_
  simp only [List.mem_reverse]
  exact forall₂_congr fun q hq => gives_stepActions q.1 hdir (hc q hq)

/-- **A plan the check passes is rendered** on a host whose bindings are quotable,
just when its template is there, its language spells where the artifact lives, and
the artifact carries each covered step. -/
theorem renders_iff (ir : PlanIr) (hclean : checkClean ir = true) (c : Coverage)
    (hcov : coverage ir.plan = some c) (hne : c.covered ≠ [])
    (host : String) (h : HostRecord) (hh : hostRecord ir.site host = some h) (inst : Instance)
    (b : Bindings) (hb : Bound ir.plan h b) :
    (∃ a, render ir.site ir.plan host inst b = .ok a) ↔
      (host ≠ ir.plan.owner → artifactSupported h.os (languageOf h) = true) ∧
      (spells (languageFamily (languageOf h)) (inst.root (shellOf h.os)) = true ∧
        spells (languageFamily (languageOf h)) inst.id = true) ∧
      ∀ q ∈ coveredOps ir.plan, carried (languageFamily (languageOf h)) q.2 = true := by
  obtain ⟨bs, hbs, -⟩ := Option.map_eq_some_iff.mp hcov
  have hne' : c.covered.isEmpty = false := by simpa using hne
  have hgives : (∃ a, render ir.site ir.plan host inst b = .ok a) ↔
      Gives (render ir.site ir.plan host inst b) fun _ => True := by simp only [Gives, and_true]
  rw [hgives, render, hbs, hcov]
  simp only [hne', Bool.false_eq_true, if_false, hh]
  by_cases hsup : artifactSupported h.os (languageOf h) = true
  · rw [if_pos hsup, gives_bind, and_iff_right fun _ => hsup]
    have hsteps : ∀ sts : List Step, Gives (template ⟨ir.plan.id, h, inst, bs.triggers.any usesDeadline,
        bs.triggers.findSome? heartbeatOf, sts⟩) (fun _ => True) ↔
        (spells (languageFamily (languageOf h)) (inst.root (shellOf h.os)) = true ∧
          spells (languageFamily (languageOf h)) inst.id = true) ∧
        ∀ st ∈ sts, ∀ s ∈ st.holes (languageOf h)
          (inst.root (shellOf h.os) ++ "/instances/" ++ inst.id),
          spells (languageFamily (languageOf h)) s = true := fun sts => gives_template _
    simp only [hsteps, gives_and_left]
    refine and_congr_right fun hroot => ?_
    exact gives_steps ((spells_dir hroot.1).mpr hroot.2) fun q hq => closed_of_checkClean hclean hb hq
  · rw [if_neg hsup]
    refine iff_of_false gives_error fun hr => hsup ?_
    by_cases howner : host = ir.plan.owner
    · exact artifactSupported_of_checkClean hclean hcov hne (howner ▸ hh)
    · exact hr.1 howner

/-! ## An undo that reads a fact -/

namespace Probing

/-- A step that owns one file, whose undo runs a command. -/
def op (cmd : Template) : Op where
  id := "put"
  footprint := [{ kind := .owned, shape := "file:/etc/motd" }]
  do_ := [.write ⟨"file:/etc/motd", none⟩ (.lit "x")]
  undo := .computed [.run cmd [] none] ["file:/etc/motd"]
  undoLocus := .target

/-- The step under a backstop on its owner. -/
def ir (cmd : Template) : PlanIr where
  site := { smallSite ["web"] with schedulerPresent := ["web"] }
  requester := "ops"
  plan := { id := "p", owner := "web", wane := some ⟨3600⟩, backstop := some ⟨[.after ⟨3600⟩], 1⟩
            body := [.step { op := op cmd }] }

def web : HostRecord := (smallHost "web").record

def params : Vars := [("path", "/etc/motd")]

def given : Bindings := bindings params (smallHost "web")

theorem coveredOps_ir (cmd : Template) : coveredOps (ir cmd).plan = [(1, op cmd)] := rfl

theorem bound_ir {cmd : Template} (h : ∀ r ∈ templateRefs cmd, r.named = true → Known web given r) :
    Bound (ir cmd).plan web given := by
  intro q hq body hbody x hx r hr
  rw [coveredOps_ir, List.mem_singleton] at hq
  subst hq
  cases hbody
  rw [List.mem_singleton] at hx
  subst hx
  exact h r (by simpa [Prim.refs] using hr)

/-- A command with the value of a fact in it. -/
def probing : Template := [.lit "rm -f ", .ref (.fact "motd.path")]

/-- The same with a parameter. -/
def naming : Template := [.lit "rm -f ", .ref (.param "path")]

/-- The check passes the plan, and the artifact of its covered step is refused. -/
theorem refused : checkClean (ir probing) = true ∧ Bound (ir probing).plan web given ∧
    hostRecord (ir probing).site "web" = some web ∧
    renderArtifact (ir probing) params (smallHost "web") "p-1" =
      .error (.notBakeable 1 "reference motd.path") := by
  refine ⟨by decide +kernel, bound_ir fun r hr hn => ?_, by decide, by decide +kernel⟩
  rw [List.mem_singleton.mp (show r ∈ [Ref.fact "motd.path"] from hr)] at hn
  cases hn

theorem rendered : ∃ a, renderArtifact (ir naming) params (smallHost "web") "p-1" = .ok a := by
  refine (renders_iff (ir naming) (by decide +kernel) ⟨[1], some 1, 1, []⟩ rfl (by decide) "web" web
    (by decide) ⟨"p-1", none⟩ given (bound_ir fun r hr _ step => ?_)).mpr ⟨fun h => absurd rfl h, by decide, ?_⟩
  · rw [List.mem_singleton.mp (show r ∈ [Ref.param "path"] from hr)]
    exact ⟨"/etc/motd", rfl, by decide⟩
  · rw [coveredOps_ir]
    decide

end Probing

end Rescind
