/-
# `Rescind.Safety.Bodies` — an undo resolved twice

The engine resolves the undo of a step when it runs it, the renderer when it bakes it
into the artifact.  From one plan, one set of parameters and one host the two are twins,
primitive by primitive, where what a restore puts back was put by on the target too and
where every value of a command stands harmlessly.

    a primitive and its action                            (`twin_of_prim`)
    a restore                                             (`restore_twins`)
    the undo of a step                                    (`undo_twins`)

Both are as they are before anything runs.  What they do to files is shown in
`Rescind.Safety.Twins`.
-/
import Rescind.Safety.Artifacts
import Rescind.Safety.Commands
import Rescind.Safety.Twins

namespace Rescind.Render

open Lib

section
variable {c : Context} {n : Nat} {f : Tree} {host : Host} {env : Env}

/-! ## Values -/

theorem value_resolved {r : Ref} {x : Resolved} (h : resolveRef r host env = .ok x) :
    valueOf host env r = x.text.toList := by
  rw [valueOf, h]

/-- The renderer puts the values in as they are where it bakes no command. -/
theorem text_textParts {t : Template} {text : String}
    (h : textParts n host.record (bindings env.params host) t = .ok text) :
    text.toList = Shell.raw (pieces (valueOf host env) t) := by
  induction t generalizing text with
  | nil =>
      cases h
      rfl
  | cons p t ih =>
      cases p with
      | lit s =>
          obtain ⟨rest, hrest, h⟩ := ok_of_bind h
          cases h
          have hp : Shell.raw (pieces (valueOf host env) (.lit s :: t)) =
              Shell.raw (s.toList.map Shell.Piece.char) ++ Shell.raw (pieces (valueOf host env) t) :=
            List.flatMap_append
          rw [hp, raw_lit, ← ih hrest, String.toList_append]
      | ref r =>
          obtain ⟨v, hv, h⟩ := ok_of_bind h
          obtain ⟨rest, hrest, h⟩ := ok_of_bind h
          cases h
          have hp : Shell.raw (pieces (valueOf host env) (.ref r :: t)) =
              valueOf host env r ++ Shell.raw (pieces (valueOf host env) t) := rfl
          rw [hp, value_resolve hv, ← ih hrest, String.toList_append]

/-- What is written is the same text. -/
theorem text_textOf {v : Value} {text : String} {x : Resolved}
    (hb : textOf n v host.record (bindings env.params host) = .ok text)
    (hx : resolveValue v host env = .ok x) : x.text = text := by
  rw [← String.toList_inj]
  cases v with
  | lit s =>
      cases hb
      cases hx
      rfl
  | ref r => exact (value_resolved hx).symm.trans (value_resolve hb)
  | template t => exact (text_resolveTemplate hx).trans (text_textParts hb).symm

/-- A command the shell reads alike. -/
theorem read_runText {cmd : Template} {baked : String} {x : Resolved} (hh : Harmless cmd host env)
    (hb : runText n cmd .posix host.record (bindings env.params host) = .ok baked)
    (hx : resolveTemplate cmd host env = .ok x) :
    Shell.read baked.toList = Shell.read x.text.toList := by
  rw [text_runText hb, text_resolveTemplate hx]
  exact Shell.read_withQuotes hh

/-! ## Primitives -/

/-- The commands of a primitive. -/
def commandsOf : Prim → List Template
  | .run cmd _ _ | .call _ cmd _ => [cmd]
  | _ => []

theorem path_staticPath {fact : FactRef} {p shape : String} (hb : staticPath n fact = .ok p)
    (hs : instantiate fact.shape host env = .ok shape) : filePath shape = some p := by
  unfold staticPath at hb
  cases hp : filePath fact.shape with
  | none =>
      rw [hp] at hb
      cases hb
  | some q =>
      rw [hp] at hb
      dsimp only at hb
      split at hb
      next => cases hb
      next hq =>
        cases hb
        rw [instantiate_of_static ((runtimeBound_filePath hp).symm.trans (Bool.eq_false_iff.mpr hq))] at hs
        cases hs
        exact hp

theorem anchor_anchorOf {fact : FactRef} {a : String} (h : anchorOf n fact = .ok a) : fact.anchor = some a := by
  unfold anchorOf at h
  split at h
  next a' ha =>
    cases h
    exact ha
  next => cases h

/-- An action and the primitive it was baked from. -/
theorem twin_of_prim {q : Prim} {a : Action} {prim : RPrim} (hh : ∀ cmd ∈ commandsOf q, Harmless cmd host env)
    (hb : primAction n .posix host.record (bindings env.params host) q = .ok a)
    (hx : resolvePrim q host env = .ok prim) : Twin c n f a prim := by
  cases q with
  | run cmd vars stdin =>
      rw [primAction] at hb
      split at hb
      next => cases hb
      next hnone =>
        rw [Bool.or_eq_true, not_or] at hnone
        obtain rfl : vars = [] := by simpa using hnone.1
        obtain rfl : stdin = none := by simpa using hnone.2
        obtain ⟨baked, hbaked, hb⟩ := ok_of_bind hb
        cases hb
        rw [resolvePrim] at hx
        obtain ⟨⟨t, b⟩, ht, hx⟩ := ok_of_bind hx
        obtain ⟨vars, hvars, hx⟩ := ok_of_bind hx
        cases hvars
        obtain ⟨stdin, hstdin, hx⟩ := ok_of_bind hx
        cases hstdin
        cases hx
        have hread := read_runText (hh cmd (List.mem_singleton.mpr rfl)) hbaked ht
        exact .run hread
  | call name cmd args =>
      rw [primAction] at hb
      split at hb
      next => cases hb
      next =>
        obtain ⟨baked, hbaked, hb⟩ := ok_of_bind hb
        cases hb
        obtain ⟨⟨t, b⟩, ht, hx⟩ := ok_of_bind hx
        cases hx
        have hread := read_runText (hh cmd (List.mem_singleton.mpr rfl)) hbaked ht
        exact .call hread
  | write fact content =>
      obtain ⟨p, hp, hb⟩ := ok_of_bind hb
      obtain ⟨text, htext, hb⟩ := ok_of_bind hb
      cases hb
      obtain ⟨shape, hs, hx⟩ := ok_of_bind hx
      obtain ⟨⟨t, b⟩, ht, hx⟩ := ok_of_bind hx
      cases hx
      cases text_textOf htext ht
      exact .write (path_staticPath hp hs)
  | remove fact =>
      obtain ⟨p, hp, hb⟩ := ok_of_bind hb
      cases hb
      obtain ⟨shape, hs, hx⟩ := ok_of_bind hx
      cases hx
      exact .remove (path_staticPath hp hs)
  | append fact line =>
      obtain ⟨p, hp, hb⟩ := ok_of_bind hb
      obtain ⟨text, htext, hb⟩ := ok_of_bind hb
      cases hb
      obtain ⟨shape, hs, hx⟩ := ok_of_bind hx
      obtain ⟨⟨t, b⟩, ht, hx⟩ := ok_of_bind hx
      cases hx
      cases text_textOf htext ht
      exact .append (path_staticPath hp hs)
  | regionSet fact content =>
      obtain ⟨p, hp, hb⟩ := ok_of_bind hb
      obtain ⟨anchor, hanchor, hb⟩ := ok_of_bind hb
      obtain ⟨text, htext, hb⟩ := ok_of_bind hb
      cases hb
      obtain ⟨shape, hs, hx⟩ := ok_of_bind hx
      obtain ⟨⟨t, b⟩, ht, hx⟩ := ok_of_bind hx
      cases hx
      cases text_textOf htext ht
      rw [anchor_anchorOf hanchor]
      exact .set (path_staticPath hp hs)
  | regionClear fact =>
      obtain ⟨p, hp, hb⟩ := ok_of_bind hb
      obtain ⟨anchor, hanchor, hb⟩ := ok_of_bind hb
      cases hb
      obtain ⟨shape, hs, hx⟩ := ok_of_bind hx
      cases hx
      rw [anchor_anchorOf hanchor]
      exact .clear (path_staticPath hp hs)
  | stage name content mode => cases hb
  | hook name args => cases hb
  | install name => cases hb
  | release name => cases hb

theorem body_twins {b : Body} {as : List Action} {body : List RPrim}
    (hh : ∀ q ∈ b, ∀ cmd ∈ commandsOf q, Harmless cmd host env)
    (hb : b.mapM (primAction n .posix host.record (bindings env.params host)) = .ok as)
    (hx : resolveBody b host env = .ok body) : List.Forall₂ (Twin c n f) as body := by
  induction b generalizing as body with
  | nil =>
      cases hb
      cases hx
      exact .nil
  | cons q b ih =>
      rw [List.mapM_cons] at hb
      obtain ⟨a, ha, hb⟩ := ok_of_bind hb
      obtain ⟨rest, hrest, hb⟩ := ok_of_bind hb
      cases hb
      obtain ⟨prim, hprim, hx⟩ := ok_of_bind hx
      obtain ⟨prims, hprims, hx⟩ := ok_of_bind hx
      cases hx
      exact .cons (twin_of_prim (hh q List.mem_cons_self) ha hprim)
        (ih (fun q' hq' => hh q' (List.mem_cons_of_mem _ hq')) hrest hprims)

/-! ## Restores -/

/-- What a restore puts back was put by in the record, and alike on the target. -/
def PutBy (c : Context) (r : InstanceRecord) (a : AppliedStep) (fp : Footprint) (f : Tree) : Prop :=
  ∀ k e, fp[k]? = some e → e.kind = .modified →
    ∃ text, r.snapshots.get (a.key, k) = some text ∧ f (c.snapshot a.step k) = some text.toList

/-- An entry that a restore acts on is a static file. -/
def Static (fp : Footprint) : Prop :=
  ∀ e ∈ fp, e.kind.observed = true → ∃ p, filePath e.shape = some p ∧ runtimeBound p = false

variable {r : InstanceRecord} {a : AppliedStep}

/-- The body of a restore is made entry by entry. -/
theorem restoreBody_cons {key : StepKey} {snapshots : Assoc (StepKey × Nat) String}
    {q : FootprintEntry × Nat} {qs : List (FootprintEntry × Nat)} {body : List RPrim}
    (h : restoreBodyFrom key snapshots (q :: qs) = .ok body) :
    ∃ here later, restoreBodyFrom key snapshots [q] = .ok here ∧
      restoreBodyFrom key snapshots qs = .ok later ∧ body = here ++ later := by
  have hone : ∀ here : Except String (List RPrim), (here >>= fun x =>
      restoreBodyFrom key snapshots qs >>= fun y => pure (x ++ y)) = .ok body →
      ∃ x later, (here >>= fun x => pure (x ++ [])) = .ok x ∧
        restoreBodyFrom key snapshots qs = .ok later ∧ body = x ++ later := by
    intro here h
    obtain ⟨x, hx, h⟩ := ok_of_bind h
    obtain ⟨later, hlater, h⟩ := ok_of_bind h
    cases h
    exact ⟨x, later, by rw [hx]; exact congrArg Except.ok (List.append_nil x), hlater, rfl⟩
  obtain ⟨⟨kind, shape, inst, anchor⟩, k⟩ := q
  cases kind with
  | owned => exact hone _ h
  | region => exact hone _ h
  | derived => exact hone _ h
  | appendOnly => exact hone _ h
  | held => exact hone _ h
  | modified =>
      rw [restoreBodyFrom] at h ⊢
      dsimp only at h ⊢
      cases hs : snapshots.get (key, k) with
      | some s =>
          rw [hs] at h
          exact hone _ h
      | none =>
          rw [hs] at h
          dsimp only at h ⊢
          split at h
          next hf =>
            rw [if_pos hf]
            exact hone _ h
          next hf => cases h

/-- An entry that is restored, and its part of the body. -/
theorem twin_of_entry {e : FootprintEntry} {p : String} {k : Nat} {act : Action} {here : List RPrim}
    (ho : e.kind.observed = true) (hp : filePath e.shape = some p)
    (hput : e.kind = .modified →
      ∃ text, r.snapshots.get (a.key, k) = some text ∧ f (c.snapshot n k) = some text.toList)
    (hb : restoreAction n ⟨e.kind, p, e.anchor, k, ho⟩ = .ok act)
    (hx : restoreBodyFrom a.key r.snapshots [(e, k)] = .ok here) :
    ∃ prim, here = [prim] ∧ Twin c n f act prim := by
  obtain ⟨kind, shape, inst, anchor⟩ := e
  cases kind with
  | owned =>
      cases hb
      cases hx
      exact ⟨_, rfl, .remove hp⟩
  | region =>
      cases anchor with
      | none => cases hb
      | some anchor =>
          cases hb
          cases hx
          exact ⟨_, rfl, .strip hp⟩
  | modified =>
      obtain ⟨text, hs, ht⟩ := hput rfl
      cases hb
      rw [restoreBodyFrom] at hx
      dsimp only at hx
      rw [hs] at hx
      cases hx
      exact ⟨_, rfl, .restore hp ht⟩
  | derived => cases ho
  | appendOnly => cases ho
  | held => cases ho

theorem entry_twins {fp fp' : Footprint} {k : Nat} {as : List Action} {body : List RPrim}
    (hfp : mapE (fun e => do
      let shape ← instantiate e.shape host env
      pure { e with shape }) fp = .ok fp')
    (hstatic : Static fp) (hheld : ∀ e ∈ fp, e.kind ≠ .held)
    (hput : ∀ q ∈ fp.zipIdx k, q.1.kind = .modified →
      ∃ text, r.snapshots.get (a.key, q.2) = some text ∧ f (c.snapshot n q.2) = some text.toList)
    (hb : ((fp.zipIdx k).filterMap fun q => fileFact q.2 q.1).mapM (restoreAction n) = .ok as)
    (hx : restoreBodyFrom a.key r.snapshots (fp'.zipIdx k) = .ok body) :
    List.Forall₂ (Twin c n f) as body := by
  induction fp generalizing fp' k as body with
  | nil =>
      cases hfp
      cases hb
      cases hx
      exact .nil
  | cons e fp ih =>
      obtain ⟨e', he', hfp⟩ := ok_of_bind hfp
      obtain ⟨rest', hrest', hfp⟩ := ok_of_bind hfp
      cases hfp
      dsimp only at he'
      rw [List.zipIdx_cons] at hput hb hx
      obtain ⟨here, later, hhere, hlater, rfl⟩ := restoreBody_cons hx
      have hrest : ∀ {as}, ((fp.zipIdx (k + 1)).filterMap fun q => fileFact q.2 q.1).mapM (restoreAction n) =
          .ok as → List.Forall₂ (Twin c n f) as later := fun hb =>
        ih hrest' (fun x hx => hstatic x (List.mem_cons_of_mem _ hx))
          (fun x hx => hheld x (List.mem_cons_of_mem _ hx)) (fun q hq => hput q (List.mem_cons_of_mem _ hq))
          hb hlater
      cases ho : e.kind.observed with
      | false =>
          have hnone : fileFact k e = none := by
            unfold fileFact
            split
            next => exact dif_neg fun h => by rw [ho] at h; exact Bool.false_ne_true h.1
            next => rfl
          rw [List.filterMap_cons_none (a := (e, k)) hnone] at hb
          obtain ⟨shape, -, he'⟩ := ok_of_bind he'
          cases he'
          have hempty : here = [] := by
            have hk := hheld e List.mem_cons_self
            obtain ⟨kind, shape₀, inst, anchor⟩ := e
            cases kind with
            | owned => cases ho
            | region => cases ho
            | modified => cases ho
            | derived =>
                cases hhere
                rfl
            | appendOnly =>
                cases hhere
                rfl
            | held => exact absurd rfl hk
          rw [hempty]
          exact hrest hb
      | true =>
          obtain ⟨p, hp, hbound⟩ := hstatic e List.mem_cons_self ho
          have hfact : fileFact k e = some ⟨e.kind, p, e.anchor, k, ho⟩ := by
            rw [fileFact, hp]
            exact dif_pos ⟨ho, hbound⟩
          rw [List.filterMap_cons_some (a := (e, k)) hfact, List.mapM_cons] at hb
          obtain ⟨act, hact, hb⟩ := ok_of_bind hb
          obtain ⟨acts, hacts, hb⟩ := ok_of_bind hb
          cases hb
          rw [instantiate_of_static ((runtimeBound_filePath hp).symm.trans hbound)] at he'
          cases he'
          obtain ⟨prim, rfl, htwin⟩ := twin_of_entry ho hp (hput (e, k) List.mem_cons_self) hact hhere
          exact .cons htwin (hrest hacts)

/-- A restore the renderer could write acts on static files alone. -/
theorem static_of_restoreActions {fp : Footprint} {as : List Action}
    (hb : restoreActions n fp (fileFactsOf fp) = .ok as) :
    Static fp ∧ (∀ e ∈ fp, e.kind ≠ .held) ∧ (fileFactsOf fp).mapM (restoreAction n) = .ok as := by
  unfold restoreActions at hb
  cases hu : fp.find? (unobserved (fileFactsOf fp)) with
  | some e =>
      rw [hu] at hb
      cases hb
  | none =>
      rw [hu] at hb
      dsimp only at hb
      obtain ⟨acts, hacts, hb⟩ := ok_of_bind hb
      cases hh : fp.find? fun e => e.kind = .held with
      | some e =>
          rw [hh] at hb
          cases hb
      | none =>
          rw [hh] at hb
          cases hb
          refine ⟨fun e he ho => ?_, fun e he => ?_, hacts⟩
          · have hobs := List.find?_eq_none.mp hu e he
            rw [unobserved, ho, Bool.true_and, Bool.not_eq_true, Bool.not_eq_false', List.any_eq_true] at hobs
            obtain ⟨x, hx, hp⟩ := hobs
            obtain ⟨q, -, hfact⟩ := List.mem_filterMap.mp hx
            refine ⟨x.path, (of_decide_eq_true hp).symm, ?_⟩
            unfold fileFact at hfact
            split at hfact
            next =>
              split at hfact
              next h =>
                cases hfact
                exact h.2
              next => cases hfact
            next => cases hfact
          · simpa using List.find?_eq_none.mp hh e he

theorem restore_twins {fp fp' : Footprint} {as : List Action} {body : List RPrim}
    (hfp : mapE (fun e => do
      let shape ← instantiate e.shape host env
      pure { e with shape }) fp = .ok fp')
    (hput : PutBy c r a fp f) (hb : restoreActions a.step fp (fileFactsOf fp) = .ok as)
    (hx : restoreBody a.key fp' r.snapshots = .ok body) : List.Forall₂ (Twin c a.step f) as body := by
  obtain ⟨hstatic, hheld, hacts⟩ := static_of_restoreActions hb
  refine entry_twins hfp hstatic hheld (fun q hq hk => ?_) hacts hx
  exact hput q.2 q.1 (List.mem_zipIdx_iff_getElem?.mp hq) hk

/-! ## The undo of a step -/

/-- The values of the undo's commands stand harmlessly. -/
def HarmlessUndo (o : Op) (host : Host) (env : Env) : Prop :=
  match o.undo with
  | .computed body _ | .compensate body _ => ∀ q ∈ body, ∀ cmd ∈ commandsOf q, Harmless cmd host env
  | _ => True

/-- Of an op that is instantiated for an application only the shapes change. -/
theorem concreteOp_ok {o o' : Op} (h : concreteOp o host env = .ok o') :
    mapE (fun e => do
      let shape ← instantiate e.shape host env
      pure { e with shape }) o.footprint = .ok o'.footprint ∧ o'.drift = o.drift ∧
    ∀ r a, undoBodyOf r a o' host = undoBodyOf r a { o with footprint := o'.footprint } host := by
  rw [concreteOp] at h
  obtain ⟨fp, hfp, h⟩ := ok_of_bind h
  cases hu : o.undo with
  | noUndo =>
      rw [hu] at h
      cases h
      exact ⟨hfp, rfl, fun _ _ => rfl⟩
  | restore =>
      rw [hu] at h
      cases h
      exact ⟨hfp, rfl, fun _ _ => rfl⟩
  | computed b pre =>
      rw [hu] at h
      obtain ⟨pre', hpre, h⟩ := ok_of_bind h
      cases h
      exact ⟨hfp, rfl, fun _ _ => rfl⟩
  | compensate b pre =>
      rw [hu] at h
      obtain ⟨pre', hpre, h⟩ := ok_of_bind h
      cases h
      exact ⟨hfp, rfl, fun _ _ => rfl⟩

/-- The actions of a covered step are the twins of the body the engine runs. -/
theorem undo_twins {o o' : Op} {as : List Action} {body : List RPrim}
    (hh : HarmlessUndo o host (envFor r a.vars)) (hput : PutBy c r a o.footprint f)
    (hop : concreteOp o host (envFor r a.vars) = .ok o')
    (hb : undoActions a.step o .posix host.record (bindings r.params host) = .ok as)
    (hx : undoBodyOf r a o' host = .ok body) : List.Forall₂ (Twin c a.step f) as body := by
  obtain ⟨hfp, -, hbody⟩ := concreteOp_ok hop
  rw [hbody, undoBodyOf] at hx
  rw [undoActions] at hb
  rw [HarmlessUndo] at hh
  cases hu : o.undo with
  | noUndo =>
      rw [hu] at hb hx
      cases hb
      cases hx
      exact .nil
  | restore =>
      rw [hu] at hb hx
      exact restore_twins hfp hput hb hx
  | computed b pre =>
      rw [hu] at hb hh hx
      exact body_twins hh hb hx
  | compensate b pre =>
      rw [hu] at hb hh hx
      exact body_twins hh hb hx

/-! ## The facts of a step -/

theorem mapE_ok {α β : Type} {g : α → Except String β} {xs : List α} {ys : List β} (h : mapE g xs = .ok ys) :
    List.Forall₂ (fun x y => g x = .ok y) xs ys := by
  induction xs generalizing ys with
  | nil =>
      cases h
      exact .nil
  | cons x xs ih =>
      obtain ⟨y, hy, h⟩ := ok_of_bind h
      obtain ⟨rest, hrest, h⟩ := ok_of_bind h
      cases h
      exact .cons hy (ih hrest)

theorem entries_concreteOp {o o' : Op} (h : concreteOp o host env = .ok o') :
    List.Forall₂ (fun e e' => e'.kind = e.kind ∧ (runtimeBound e.shape = false → e' = e))
      o.footprint o'.footprint := by
  refine (mapE_ok (concreteOp_ok h).1).imp fun e e' he => ?_
  obtain ⟨shape, hs, he⟩ := ok_of_bind he
  cases he
  refine ⟨rfl, fun hstatic => ?_⟩
  rw [instantiate_of_static hstatic] at hs
  cases hs
  rfl

theorem effectiveDrift_concreteOp {o o' : Op} (h : concreteOp o host env = .ok o') :
    o'.effectiveDrift = o.effectiveDrift := by
  have hkinds : o.footprint.map FootprintEntry.kind = o'.footprint.map FootprintEntry.kind := by
    have hentries := entries_concreteOp h
    generalize o.footprint = fp at hentries
    generalize o'.footprint = fp' at hentries
    induction hentries with
    | nil => rfl
    | cons he _ ih => rw [List.map_cons, List.map_cons, he.1, ih]
  have hdefault : ∀ fp : Footprint, fp.findSome? (fun e => e.kind.defaultDrift) =
      (fp.map FootprintEntry.kind).findSome? Kind.defaultDrift := fun fp => by
    rw [List.findSome?_map]
    rfl
  rw [Op.effectiveDrift, Op.effectiveDrift, (concreteOp_ok h).2.1, hdefault, hdefault, hkinds]

theorem fileFact_ok {k : Nat} {e : FootprintEntry} {x : FileFact} (h : fileFact k e = some x) :
    x.kind = e.kind ∧ x.anchor = e.anchor ∧ filePath e.shape = some x.path ∧ e.kind.observed = true ∧
      runtimeBound e.shape = false := by
  unfold fileFact at h
  split at h
  next p hp =>
    split at h
    next ho =>
      cases h
      exact ⟨rfl, rfl, hp, ho.1, (runtimeBound_filePath hp).symm.trans ho.2⟩
    next => cases h
  next => cases h

/-- A file the artifact observes is a fact the engine observes. -/
theorem observed_of_fileFact {o o' : Op} (h : concreteOp o host env = .ok o') {x : FileFact}
    (hx : x ∈ fileFactsOf o.footprint) :
    ∃ k e, (k, e, x.path) ∈ observedFacts o'.footprint ∧ e.kind = x.kind ∧ filePath e.shape = some x.path := by
  obtain ⟨⟨e, k⟩, hq, hfact⟩ := List.mem_filterMap.mp hx
  obtain ⟨hkind, -, hp, ho, hstatic⟩ := fileFact_ok hfact
  have he := concreteOp_static h (List.mem_zipIdx_iff_getElem?.mp hq) hstatic
  refine ⟨k, e, List.mem_filterMap.mpr ⟨(e, k), List.mem_zipIdx_iff_getElem?.mpr he, ?_⟩, hkind.symm, hp⟩
  dsimp only
  rw [if_pos ho, hp]

theorem getElem?_right {α β : Type} {R : α → β → Prop} {xs : List α} {ys : List β} (h : List.Forall₂ R xs ys)
    {k : Nat} {y : β} (hy : ys[k]? = some y) : ∃ x, xs[k]? = some x ∧ R x y := by
  induction h generalizing k with
  | nil => cases hy
  | cons hxy _ ih =>
      cases k with
      | zero =>
          cases hy
          exact ⟨_, rfl, hxy⟩
      | succ k => exact ih hy

/-- A region the engine observes is a file the artifact observes, where no region's shape
waits for a value. -/
theorem fileFact_of_observed {o o' : Op} (h : concreteOp o host env = .ok o')
    (hstatic : ∀ e ∈ o.footprint, e.kind = .region → runtimeBound e.shape = false) {k : Nat}
    {e : FootprintEntry} {p : String} (he : (k, e, p) ∈ observedFacts o'.footprint) (hk : e.kind = .region) :
    filePath e.shape = some p ∧
      ∃ x ∈ fileFactsOf o.footprint, x.kind = .region ∧ x.path = p ∧ x.anchor = e.anchor := by
  obtain ⟨⟨e', k'⟩, hq, hobs⟩ := List.mem_filterMap.mp he
  dsimp only at hobs
  have ho : e'.kind.observed = true := by
    by_contra hno
    rw [if_neg hno] at hobs
    cases hobs
  rw [if_pos ho] at hobs
  cases hp : filePath e'.shape with
  | none =>
      rw [hp] at hobs
      dsimp only at hobs
      split at hobs
      next => cases hobs
      next hne =>
        cases hobs
        exact absurd hk hne
  | some p' =>
      rw [hp] at hobs
      cases hobs
      obtain ⟨e₀, he₀, hkind, hsame⟩ :=
        getElem?_right (entries_concreteOp h) (List.mem_zipIdx_iff_getElem?.mp hq)
      have hbound := hstatic e₀ (List.mem_of_getElem? he₀) (hkind.symm.trans hk)
      cases hsame hbound
      have hfact : fileFact k e = some ⟨e.kind, p, e.anchor, k, ho⟩ := by
        rw [fileFact, hp]
        exact dif_pos ⟨ho, (runtimeBound_filePath hp).trans hbound⟩
      refine ⟨hp, _, List.mem_filterMap.mpr ⟨(e, k), List.mem_zipIdx_iff_getElem?.mpr he₀, hfact⟩, hk, rfl, rfl⟩

end

end Rescind.Render
