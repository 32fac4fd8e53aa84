/-
# `Rescind.Safety.Undoings` — one application, undone either way

An application is undone by the engine over `local()`, or by its section of the artifact.
Both read the step's files against its markers before they touch one, and where the
engine finds nothing it would hold the two leave the same files.

    what the engine asked and did                         (`undoStep_ok`)
    an application and its section                        (`undo_alike`)

The drift is not forced, and the record and the target say the same of the step's
files (`Mirrored`).  A step that is held is not compared.
-/
import Rescind.Safety.Believed
import Rescind.Safety.Bodies

namespace Rescind.Render

open Lib Lib.Cmd
open Lib.Prog (Keeps bind_ok_inv when_ok)

/-! ## A target the engine serves -/

/-- The outside serves a host by `local()`, and the artifact's machine is that host. -/
structure Serving {σ : Type} (E : Setting σ) (L : Local.Machine) (m : Machine) (c : Context) (host : Host)
    (look : σ → Tree) : Prop extends Keeping E c host look, OneHost L m c where
  digest : ∀ t, m.digest t = (E.sha256 (Bytes.ofText t)).toList
  locked : ∀ {k k' : σ} {i : Nat} {a : Except String Unit},
    E.outside.answer k (.hostLock i host) = (some a, k') → look k' = look k
  observed : ∀ {k k' : σ} {i : Nat} {name : String} {body : List RPrim} {a : Except String Observation},
    E.outside.answer k (.observe i host name body) = (some a, k') → look k' = look k
  told : ∀ {k k' : σ} {i : Nat} {shape : String} {bytes : Option Bytes},
    E.outside.answer k (.readFact i host shape) = (some (.ok bytes), k') →
      Local.readFact shape (look k) = (.ok bytes, look k')
  ran : ∀ {k k' : σ} {i : Nat} {body : List RPrim} {out : ExecOutput},
    E.outside.answer k (.run i host c.inst.id body) = (some (.ok out), k') →
      Local.runBody L c.dir body (look k) = (.ok out, look k')
  removed : ∀ {k k' : σ} {i : Nat} {rel : String} {a : Except String Unit},
    E.outside.answer k (.removeFile i host c.inst.id rel) = (some a, k') →
      Only { p | Inside c p } (look k) (look k')

section
variable {σ : Type} {E : Setting σ} {L : Local.Machine} {m : Machine} {c : Context} {host : Host}
  {look : σ → Tree} {w w' : World σ} {r : InstanceRecord} {a : AppliedStep}

/-! ## What the engine finds -/

theorem orElse_ok {ε α : Type} {x : Except String α} {msg : String → ε} {y : α}
    (h : orElse x msg w = (.ok y, w')) : x = .ok y ∧ w' = w := by
  cases x with
  | error e => cases h
  | ok z =>
      cases h
      exact ⟨rfl, rfl⟩

theorem ofExcept_ok {ε α : Type} {x : Except ε α} {y : α} (h : Prog.ofExcept x w = (.ok y, w')) :
    x = .ok y ∧ w' = w := by
  cases x with
  | error e => cases h
  | ok z =>
      cases h
      exact ⟨rfl, rfl⟩

theorem beside_of_ask (hlook : look w'.out = look w.out) (hw : w' = { w with out := w'.out }) :
    Beside look w w' := by
  rw [hw]
  exact ⟨rfl, rfl, hlook⟩

theorem readFact_ok {shape : String} {bytes : Option Bytes} {g g' : Tree}
    (h : Local.readFact shape g = (.ok bytes, g')) :
    g' = g ∧ ∀ p, filePath shape = some p → bytes = (g p).map Bytes.ofText := by
  obtain ⟨q, g₁, hpath, hread⟩ := bind_ok_inv h
  cases hp : filePath shape with
  | none =>
      rw [Local.pathOf, hp] at hpath
      cases hpath
  | some p =>
      obtain ⟨rfl, rfl⟩ := pathOf_ok hp hpath
      cases hread
      exact ⟨rfl, fun p' hp' => Option.some.inj hp' ▸ rfl⟩

/-- A file is read as it is. -/
theorem factBytes_ok (hs : Serving E L m c host look) {shape : String} {bytes : Option Bytes}
    (h : factBytes E host shape w = (.ok bytes, w')) : Beside look w w' ∧
      ∀ p, filePath shape = some p → bytes = (look w.out p).map Bytes.ofText := by
  unfold factBytes at h
  obtain ⟨r, w₁, hr, h₁⟩ := bind_ok_inv h
  cases hr
  obtain ⟨reader, w₂, hreader, h₂⟩ := bind_ok_inv h₁
  obtain ⟨hprobe, rfl⟩ := ofExcept_ok hreader
  cases hi : executorIndex E host with
  | none =>
      rw [hi] at h₂
      cases h₂
  | some i =>
      rw [hi] at h₂
      dsimp only at h₂
      cases reader with
      | none =>
          obtain ⟨ans, w₃, hask, h₃⟩ := bind_ok_inv h₂
          obtain ⟨hans, hw⟩ := ask_said hask
          obtain ⟨rfl, rfl⟩ := orElse_ok h₃
          obtain ⟨hlook, hbytes⟩ := readFact_ok (hs.told hans)
          exact ⟨beside_of_ask hlook hw, hbytes⟩
      | some probe =>
          obtain ⟨ans, w₃, hask, h₃⟩ := bind_ok_inv h₂
          obtain ⟨hans, hw⟩ := ask_said hask
          obtain ⟨o, w₄, ho, h₄⟩ := bind_ok_inv h₃
          obtain ⟨rfl, rfl⟩ := orElse_ok ho
          have hbeside := beside_of_ask (hs.observed hans) hw
          have hw₄ : w' = w₄ := by
            cases ho : o.asTri with
            | yes =>
                rw [ho] at h₄
                cases h₄
                rfl
            | no =>
                rw [ho] at h₄
                cases h₄
                rfl
            | unknown =>
                rw [ho] at h₄
                cases h₄
          refine ⟨hw₄ ▸ hbeside, fun p hp => ?_⟩
          rw [readingProbe, hp] at hprobe
          cases hprobe

/-! ## Drift -/

theorem add_cases {found : UndoReport × List Nat} {k : Nat} {shape : String} {d : Decision}
    (h : (UndoReport.add found k shape d).1.held = []) :
    found.1.held = [] ∧ d ≠ .defer ∧ d ≠ .deferForeign ∧
      (d ≠ .restoreWhole → (UndoReport.add found k shape d).2 = found.2) := by
  cases d with
  | undo => exact ⟨h, nofun, nofun, fun _ => rfl⟩
  | clobber => exact ⟨h, nofun, nofun, fun _ => rfl⟩
  | restoreWhole => exact ⟨h, nofun, nofun, fun h => absurd rfl h⟩
  | defer => exact absurd h (List.append_ne_nil_of_right_ne_nil _ (List.cons_ne_nil _ _))
  | deferForeign => exact absurd h (List.append_ne_nil_of_right_ne_nil _ (List.cons_ne_nil _ _))

/-- What was decided of a fact, from what it read. -/
structure Judged (E : Setting σ) (r : InstanceRecord) (host : Host) (policy : Drift) (ms : List Marker)
    (f : Tree) (x : Nat × FootprintEntry × String) (d : Decision) : Prop where
  decided : ∃ l bytes, (∀ p, filePath x.2.1.shape = some p → bytes = (f p).map Bytes.ofText) ∧
    judge E l r host policy ms x.2.1 x.2.2 bytes = d
  notHeld : d ≠ .defer ∧ d ≠ .deferForeign

/-- Where nothing was held, no fact was decided to be. -/
theorem judgeFacts_ok (hs : Serving E L m c host look) {policy : Drift} {ms : List Marker}
    {facts : List (Nat × FootprintEntry × String)} {found : UndoReport × List Nat}
    (h : judgeFacts E r host policy ms facts w = (.ok found, w')) (hheld : found.1.held = []) :
    Beside look w w' ∧ (∀ x ∈ facts, ∃ d, Judged E r host policy ms (look w.out) x d) ∧
      ((∀ x ∈ facts, ∀ d, Judged E r host policy ms (look w.out) x d → d ≠ .restoreWhole) → found.2 = []) := by
  suffices hloop : ∀ acc : UndoReport × List Nat, Prog.loop (fun x (found : UndoReport × List Nat) => do
      let bytes ← factBytes E host x.2.1.shape
      let l ← Prog.read World.ledger
      pure (UndoReport.add found x.1 x.2.1.shape (judge E l r host policy ms x.2.1 x.2.2 bytes)))
        facts acc w = (.ok found, w') → acc.1.held = [] ∧ Beside look w w' ∧
      (∀ x ∈ facts, ∃ d, Judged E r host policy ms (look w.out) x d) ∧
      ((∀ x ∈ facts, ∀ d, Judged E r host policy ms (look w.out) x d → d ≠ .restoreWhole) →
        found.2 = acc.2) from (hloop _ h).2
  clear h
  intro acc h
  induction facts generalizing acc w with
  | nil =>
      cases h
      exact ⟨hheld, refl_of (Beside look) _, fun _ hx => (List.not_mem_nil hx).elim, fun _ => rfl⟩
  | cons x facts ih =>
      obtain ⟨acc₁, w₁, hone, hrest⟩ := bind_ok_inv (m := _ >>= _) h
      obtain ⟨bytes, w₂, hbytes, hread⟩ := bind_ok_inv hone
      cases hread
      obtain ⟨hbeside, hfact⟩ := factBytes_ok hs hbytes
      obtain ⟨hacc, hlater, hall, hwhole⟩ := ih _ hrest
      obtain ⟨hheld₀, hd, hdf, hkeep⟩ := add_cases hacc
      rw [hbeside.files] at hall hwhole
      have hjudged : Judged E r host policy ms (look w.out) x _ := ⟨⟨_, bytes, hfact, rfl⟩, hd, hdf⟩
      refine ⟨hheld₀, trans_of (Beside look) hbeside hlater, ?_, fun h => ?_⟩
      · intro y hy
        rcases List.mem_cons.mp hy with rfl | hy
        · exact ⟨_, hjudged⟩
        · exact hall y hy
      · exact (hwhole fun y hy => h y (List.mem_cons_of_mem _ hy)).trans
          (hkeep (h x List.mem_cons_self _ hjudged))

section
variable {policy : Drift} {ms : List Marker} {f : Tree} {k : Nat} {e : FootprintEntry} {p : String} {d : Decision}

theorem decideDrift_changed {kind : Kind} {intact : Option Bool} {foreign : Bool} (hk : kind ≠ .region) :
    decideDrift kind .defer true intact foreign = .defer := by
  cases kind with
  | region => exact absurd rfl hk
  | _ => rfl

theorem decideDrift_notWhole {kind : Kind} {changed : Bool} {intact : Option Bool} {foreign : Bool}
    (hi : kind = .region → intact = some true) :
    decideDrift kind policy changed intact foreign ≠ .restoreWhole := by
  cases kind with
  | region =>
      rw [hi rfl]
      exact nofun
  | _ => cases changed <;> cases policy <;> exact nofun

/-- Under `:defer` a file that was not held is what its marker says. -/
theorem Judged.unchanged (h : Judged E r host .defer ms f (k, e, p) d) (hforce : r.forceDrift = false)
    (hk : e.kind ≠ .region) (hp : filePath e.shape = some p) {q : String} (hq : recordedDigest ms p = some q) :
    q = digestOf E.sha256 ((f p).map Bytes.ofText) := by
  obtain ⟨l, bytes, hbytes, hd⟩ := h.decided
  rw [← hbytes p hp]
  by_contra hne
  refine h.notHeld.1 ?_
  rw [← hd, judge, hforce, if_neg Bool.false_ne_true]
  simp only [hq, hne, ne_eq, not_false_eq_true, decide_true]
  exact decideDrift_changed hk

/-- A region that stands is not restored whole, and nor is any other file. -/
theorem Judged.notWhole (h : Judged E r host policy ms f (k, e, p) d) (hforce : r.forceDrift = false)
    (hregion : e.kind = .region → filePath e.shape = some p ∧
      ∃ t, f p = some t ∧ Rescind.regionIntact t (e.anchor.getD "") = true) : d ≠ .restoreWhole := by
  obtain ⟨l, bytes, hbytes, hd⟩ := h.decided
  rw [← hd, judge, hforce, if_neg Bool.false_ne_true]
  refine decideDrift_notWhole fun hk => ?_
  obtain ⟨hp, t, hf, ht⟩ := hregion hk
  rw [if_pos hk, hbytes p hp, hf, Option.map_some, Option.map_some, Option.getD_some, Bytes.lossy_ofText]
  exact congrArg some ht

theorem substituted_digest {q : String} (h : Digest q) : substituted (Text.unlines [q.toList]) = q.toList := by
  have hlast : ∀ hne : q.toList ≠ [], ¬ q.toList.getLast hne = '\n' := fun hne he =>
    absurd (h.blank (List.getLast_mem hne)) (by rw [he]; decide)
  have hline : Text.unlines [q.toList] = q.toList ++ ['\n'] := List.append_nil _
  rw [substituted, hline, List.rdropWhile_concat_pos (fun x => decide (x = '\n')) _ _ rfl,
    List.rdropWhile_eq_self_iff]
  exact fun hne hc => hlast hne (of_decide_eq_true hc)

/-- What the artifact reads of a marker it was handed. -/
theorem unchanged_at (hs : Serving E L m c host look) {n : Nat}
    (hmarks : f (c.marker n) = some (markersText ms).toList)
    (hd : ∀ mk ∈ ms, Digest mk.digest ∧ PlainPath mk.path) (hn : (ms.map Marker.path).Nodup)
    (hp : p ∈ ms.map Marker.path)
    (hq : ∀ q, recordedDigest ms p = some q → q = digestOf E.sha256 ((f p).map Bytes.ofText)) :
    changedAt m c n f p = false := by
  obtain ⟨mk, hmk, rfl⟩ := List.mem_map.mp hp
  have hnewline : ∀ mk ∈ ms, '\n' ∉ mk.path.toList := fun mk hmk hc =>
    absurd ((hd mk hmk).2.2.2 _ hc) (by decide)
  have htold : recorded m.awk (markersText ms).toList mk.path = [mk.digest.toList] := by
    rw [recorded_markersText m.awk (fun mk hmk => (hd mk hmk).1) hnewline]
    exact (told_iff_nodup m.awk fun mk hmk => (hd mk hmk).2).mpr hn mk hmk
  have hfound : recordedDigest ms mk.path = some mk.digest := by
    rw [recordedDigest]
    cases hf : ms.find? fun x => x.path = mk.path with
    | none => exact absurd (decide_eq_true rfl) (List.find?_eq_none.mp hf mk hmk)
    | some x =>
        have hpath : x.path = mk.path := by simpa using List.find?_some hf
        rw [List.inj_on_of_nodup_map hn (List.mem_of_find?_eq_some hf) hmk hpath]
        rfl
  have hsha : sha m f mk.path = mk.digest.toList := by
    rw [hq _ hfound, sha]
    cases f mk.path with
    | none => rfl
    | some t => exact hs.digest t
  rw [changedAt, hmarks, Option.getD_some, htold, hsha, substituted_digest (hd mk hmk).1, bne_self_eq_false]

end

/-! ## One application -/

/-- An application of `o` and the section of the artifact that covers it. -/
structure Covers (E : Setting σ) (host : Host) (hosts : Assoc String Host) (r : InstanceRecord) (a : AppliedStep)
    (o : Op) (s : Step) : Prop where
  undo : o.undo.isNone = false
  located : stepHost E hosts r o = .ok host
  baked : stepActions a.step o .posix host.record (bindings r.params host) = .ok s
  harmless : HarmlessUndo o host (envFor r a.vars)
  /-- No region's shape waits for a value. -/
  regions : ∀ e ∈ o.footprint, e.kind = .region → runtimeBound e.shape = false

/-- What the record says of an application the files of the target say as well. -/
structure Mirrored (c : Context) (r : InstanceRecord) (a : AppliedStep) (o : Op) (s : Step) (f : Tree) : Prop where
  markers : ∃ ms, r.markers.get a.key = some ms ∧ f (c.marker a.step) = some (markersText ms).toList ∧
    (∀ mk ∈ ms, Digest mk.digest ∧ PlainPath mk.path) ∧ (ms.map Marker.path).Nodup ∧
    ∀ p ∈ s.plain, p ∈ ms.map Marker.path
  snapshots : PutBy c r a o.footprint f

/-- The files a step's undo begins with. -/
def Step.begun (m : Machine) (c : Context) (s : Step) (f : Tree) : Tree :=
  match s.drift with
  | .clobber => (s.reports m c).after f
  | .defer => f

/-- The fences of the step's regions stand, and each action fits. -/
structure Ready (m : Machine) (c : Context) (l : Lock) (s : Step) (f : Tree) : Prop where
  standing : ∀ x ∈ s.files, x.kind = .region →
    ∃ anchor t, x.anchor = some anchor ∧ f x.path = some t ∧ Fences.Marked m.awk t anchor
  fitting : Fitting m c l s.drift s.n s.actions (s.begun m c f)

section
variable {l : Lock} {s : Step} {o o' : Op} {f : Tree}

/-- What the step's own files say stays out of the margin. -/
structure Apart (c : Context) (s : Step) : Prop where
  actions : ∀ a ∈ s.actions, ∀ p, a.path = some p → p ∉ Margin c
  files : ∀ x ∈ s.files, x.path ∉ Margin c

theorem begun_only : Only {c.file "clobbered"} f (s.begun m c f) := by
  unfold Step.begun
  split
  · exact reports_only.after f
  · exact refl_of (Only _) f

/-- A section that is not held runs its actions and takes its marker. -/
theorem cmd_begun (hf : (f (c.marker s.n)).isSome = true)
    (hd : s.drift = .defer → ∀ p ∈ s.plain, changedAt m c s.n f p = false) :
    (s.cmd m c l).after f = (s.undo m c l).after (s.begun m c f) := by
  rw [Step.after_cmd hf, Step.begun]
  cases hs : s.drift with
  | clobber => rw [Step.marked_clobber hs, after_seq]
  | defer =>
      have hany : s.plain.any (changedAt m c s.n f) = false := by
        simpa using hd hs
      rw [Step.marked_defer hs, after_cond, status_test, hany, if_neg Bool.false_ne_true, after_test]

/-- What the engine hands the executor it runs over the files of the target. -/
theorem runUndo_ok (hs : Serving E L m c host look) {i : Nat} {body : List RPrim}
    (h : runUndo E i host c.inst.id a body w = (.ok (), w')) :
    w'.hand = w.hand ∧ w'.hosts = w.hosts ∧
      ∃ outs, Prog.loop (fun p outs => Local.prim L c.dir (secretsOf body) outs p) body {} (look w.out) =
        (.ok outs, look w'.out) := by
  unfold runUndo at h
  obtain ⟨_, w₁, hnote, h₁⟩ := bind_ok_inv h
  cases hnote
  obtain ⟨ans, w₂, hask, h₂⟩ := bind_ok_inv h₁
  obtain ⟨hans, hw⟩ := ask_said hask
  obtain ⟨out, w₃, hout, h₃⟩ := bind_ok_inv h₂
  obtain ⟨rfl, rfl⟩ := orElse_ok hout
  cases h₃
  obtain ⟨outs, g, hloop, he⟩ := bind_ok_inv (hs.ran hans)
  cases he
  rw [hw]
  exact ⟨rfl, rfl, outs, hloop⟩

theorem undoStep_ok (hs : Serving E L m c host look) (hr : w.hand.rehearsal = false)
    (hid : w.hand.id = c.inst.id) (hu : o.undo.isNone = false)
    (hhost : stepHost E w.hosts w.hand o = .ok host) {report : UndoReport}
    (h : undoStep E a o w = (.ok report, w')) (hheld : report.held = []) :
    w'.hand = w.hand ∧ w'.hosts = w.hosts ∧
    ∃ o', concreteOp o host (envFor w.hand a.vars) = .ok o' ∧
      (∀ x ∈ observedFacts o'.footprint, ∃ d, Judged E w.hand host (o'.effectiveDrift.getD .clobber)
        ((w.hand.markers.get a.key).getD []) (look w.out) x d) ∧
      ((∀ x ∈ observedFacts o'.footprint, ∀ d, Judged E w.hand host (o'.effectiveDrift.getD .clobber)
        ((w.hand.markers.get a.key).getD []) (look w.out) x d → d ≠ .restoreWhole) →
        ∃ body outs g, undoBodyOf w.hand a o' host = .ok body ∧
          Prog.loop (fun p outs => Local.prim L c.dir (secretsOf body) outs p) body {} (look w.out) =
            (.ok outs, g) ∧ Only (Margin c) g (look w'.out)) := by
  unfold undoStep at h
  obtain ⟨r, w₁, hhand, h₁⟩ := bind_ok_inv h
  cases hhand
  rw [hr, hu, Bool.or_false, if_neg Bool.false_ne_true] at h₁
  obtain ⟨hosts, w₂, hhosts, h₂⟩ := bind_ok_inv h₁
  cases hhosts
  rw [hhost] at h₂
  obtain ⟨_, w₃, hlocated, h₃⟩ := bind_ok_inv h₂
  obtain ⟨hsame, rfl⟩ := ofExcept_ok hlocated
  cases hsame
  obtain ⟨o', w₄, hop, h₄⟩ := bind_ok_inv h₃
  obtain ⟨hconcrete, rfl⟩ := orElse_ok hop
  cases hi : executorIndex E host with
  | none =>
      rw [hi] at h₄
      cases h₄
  | some i =>
      rw [hi] at h₄
      dsimp only at h₄
      obtain ⟨_, w₅, hlock, h₅⟩ := bind_ok_inv h₄
      have hlocked : Beside look w₄ w₅ := by
        rcases when_ok hlock with ⟨-, hlock⟩ | ⟨-, rfl⟩
        · obtain ⟨ans, w₆, hask, hl⟩ := bind_ok_inv hlock
          obtain ⟨hans, hw⟩ := ask_said hask
          obtain ⟨-, rfl⟩ := orElse_ok hl
          exact beside_of_ask (hs.locked hans) hw
        · exact refl_of (Beside look) _
      obtain ⟨found, w₆, hfound, h₆⟩ := bind_ok_inv h₅
      have hnone : found.1.held = [] := by
        by_contra hne
        have hsome : (!found.1.held.isEmpty) = true := by simpa using hne
        rw [if_pos hsome] at h₆
        cases h₆
        exact hne hheld
      rw [hnone] at h₆
      obtain ⟨hjudged, hall, hwhole⟩ := judgeFacts_ok hs hfound hnone
      obtain ⟨body, w₇, hbody, h₇⟩ := bind_ok_inv h₆
      obtain ⟨hundo, rfl⟩ := ofExcept_ok hbody
      obtain ⟨body', w₈, hwholes, h₈⟩ := bind_ok_inv h₇
      obtain ⟨hrestored, rfl⟩ := ofExcept_ok hwholes
      obtain ⟨_, w₉, hran, h₉⟩ := bind_ok_inv h₈
      obtain ⟨_, w₁₀, hremoved, h₁₀⟩ := bind_ok_inv h₉
      obtain ⟨_, w₁₁, hnote, h₁₁⟩ := bind_ok_inv h₁₀
      cases hnote
      cases h₁₁
      have hfound := trans_of (Beside look) hlocked hjudged
      have hranAlike : w₉.hand = w₈.hand ∧ w₉.hosts = w₈.hosts ∧
          ∃ outs, Prog.loop (fun p outs => Local.prim L c.dir (secretsOf body') outs p) body' {}
            (look w₈.out) = (.ok outs, look w₉.out) := by
        rcases when_ok hran with ⟨-, hran⟩ | ⟨hempty, rfl⟩
        · rw [hid] at hran
          exact runUndo_ok hs hran
        · have hnil : body' = [] := by simpa using hempty
          rw [hnil]
          exact ⟨rfl, rfl, _, rfl⟩
      have hgone : w₁₀.hand = w₉.hand ∧ w₁₀.hosts = w₉.hosts ∧
          Only (Margin c) (look w₉.out) (look w₁₀.out) := by
        rcases when_ok hremoved with ⟨-, hremoved⟩ | ⟨-, rfl⟩
        · obtain ⟨ans, w₁₁, hask, he⟩ := bind_ok_inv hremoved
          cases he
          obtain ⟨hans, hw⟩ := ask_said hask
          rw [hid] at hans
          refine ⟨by rw [hw], by rw [hw], (hs.removed hans).mono fun p hp => Or.inl hp⟩
        · exact ⟨rfl, rfl, refl_of (Only _) _⟩
      rw [hlocked.files] at hall hwhole
      refine ⟨hgone.1.trans (hranAlike.1.trans hfound.hand), hgone.2.1.trans (hranAlike.2.1.trans hfound.hosts),
        o', hconcrete, hall, fun hnot => ?_⟩
      obtain ⟨outs, hloop⟩ := hranAlike.2.2
      rw [hwhole hnot] at hrestored
      cases hrestored
      rw [hfound.files] at hloop
      exact ⟨body, outs, _, hundo, hloop, hgone.2.2⟩

theorem stepActions_ok {n : Nat} {h : HostRecord} {b : Bindings} (hb : stepActions n o .posix h b = .ok s) :
    s.n = n ∧ s.drift = o.effectiveDrift.getD .clobber ∧ s.files = fileFactsOf o.footprint ∧
      undoActions n o .posix h b = .ok s.actions := by
  obtain ⟨acts, hacts, hb⟩ := ok_of_bind hb
  cases hb
  exact ⟨rfl, rfl, rfl, hacts⟩

section
variable (hs : Serving E L m c host look) (hcov : Covers E host w.hosts r a o s) (ha : Apart c s)
  (hforce : r.forceDrift = false) (hop : concreteOp o host (envFor r a.vars) = .ok o')
  (h : Only (Margin c) (look w.out) f)
include hs hcov ha hforce hop h

/-- What the engine held no fact of, the artifact finds as its marker says. -/
theorem judged_unchanged {ms : List Marker} (hmarker : f (c.marker a.step) = some (markersText ms).toList)
    (hplain : ∀ mk ∈ ms, Digest mk.digest ∧ PlainPath mk.path) (hnodup : (ms.map Marker.path).Nodup)
    (hpaths : ∀ p ∈ s.plain, p ∈ ms.map Marker.path)
    (hall : ∀ x ∈ observedFacts o'.footprint, ∃ d, Judged E r host s.drift ms (look w.out) x d)
    (hdefer : s.drift = .defer) : ∀ p ∈ s.plain, changedAt m c s.n f p = false := by
  obtain ⟨hn, -, hfiles, -⟩ := stepActions_ok hcov.baked
  intro p hp
  rw [hn]
  refine unchanged_at hs hmarker hplain hnodup (hpaths p hp) fun q hq => ?_
  obtain ⟨x, hx, rfl⟩ := List.mem_map.mp hp
  obtain ⟨hx, hkind⟩ := List.mem_filter.mp hx
  obtain ⟨k, e, hobs, hk, hfile⟩ := observed_of_fileFact hop (hfiles ▸ hx)
  obtain ⟨d, hjudged⟩ := hall _ hobs
  rw [hdefer] at hjudged
  rw [h _ (ha.files x hx)]
  refine hjudged.unchanged hforce (fun hregion => ?_) hfile hq
  exact of_decide_eq_true hkind (hk.symm.trans hregion)

omit hs in
/-- Where the fences stand the engine restores no file whole. -/
theorem judged_notWhole {ms : List Marker} {policy : Drift}
    (hstanding : ∀ x ∈ s.files, x.kind = .region →
      ∃ anchor t, x.anchor = some anchor ∧ f x.path = some t ∧ Fences.Marked m.awk t anchor) :
    ∀ x ∈ observedFacts o'.footprint, ∀ d, Judged E r host policy ms (look w.out) x d → d ≠ .restoreWhole := by
  obtain ⟨-, -, hfiles, -⟩ := stepActions_ok hcov.baked
  rintro ⟨k, e, p⟩ hobs d hjudged
  refine hjudged.notWhole hforce fun hregion => ?_
  obtain ⟨hfile, x, hx, hkind, rfl, hanchor⟩ := fileFact_of_observed hop hcov.regions hobs hregion
  rw [← hfiles] at hx
  obtain ⟨anchor, t, hax, hf, hmarked⟩ := hstanding x hx hkind
  refine ⟨hfile, t, (h _ (ha.files x hx)).symm.trans hf, ?_⟩
  rw [← hanchor, hax]
  exact hmarked.once.1

end

/-- **One application.**  Where the engine undid it without holding a fact, its section
leaves the files as the engine did, and takes the marker. -/
theorem undo_alike (hs : Serving E L m c host look) (hh : Housed m c) (hsx : s ∈ c.steps) (ha : Apart c s)
    (hr : w.hand.rehearsal = false) (hforce : w.hand.forceDrift = false) (hid : w.hand.id = c.inst.id)
    (hcov : Covers E host w.hosts w.hand a o s) (hmir : Mirrored c w.hand a o s f) (hready : Ready m c l s f)
    (h : Only (Margin c) (look w.out) f) {report : UndoReport}
    (hundo : undoStep E a o w = (.ok report, w')) (hheld : report.held = []) :
    w'.hand = w.hand ∧ w'.hosts = w.hosts ∧ Only (Margin c) (look w'.out) ((s.cmd m c l).after f) ∧
      (s.cmd m c l).after f (c.marker s.n) = none := by
  obtain ⟨hhand, hhosts, o', hop, hall, hbody⟩ := undoStep_ok hs hr hid hcov.undo hcov.located hundo hheld
  obtain ⟨ms, hms, hmarker, hplain, hnodup, hpaths⟩ := hmir.markers
  obtain ⟨hn, hdrift, -, hacts⟩ := stepActions_ok hcov.baked
  rw [effectiveDrift_concreteOp hop, ← hdrift, hms, Option.getD_some] at hall hbody
  have hunchanged := judged_unchanged hs hcov ha hforce hop h hmarker hplain hnodup hpaths hall
  obtain ⟨body, outs, g, hbody, hloop, hafter⟩ := hbody (judged_notWhole hcov ha hforce hop h hready.standing)
  have hmarked : (f (c.marker s.n)).isSome = true := by
    rw [hn, hmarker]
    rfl
  have htwins := undo_twins hcov.harmless hmir.snapshots hop hacts hbody
  rw [← hn] at htwins
  have hbegun : Only {c.file "clobbered"} f (s.begun m c f) := begun_only
  have hstart : Only (Margin c) (look w.out) (s.begun m c f) := trans_of (Only (Margin c)) h
    (hbegun.mono fun p hp => by
      have hp : p = c.file "clobbered" := hp
      exact Or.inl (hp ▸ inside_file))
  have hacted := bodies_alike hs.toOneHost
    (htwins.imp fun _ _ ht => ht.mono fun k => hbegun _ snapshot_ne_clobbered) ha.actions
    (fun x hx => Action.only hh hsx hx) hready.fitting hstart hloop
  rw [cmd_begun hmarked hunchanged]
  refine ⟨hhand, hhosts, ?_, Step.undo_gone hh _⟩
  rw [Step.undo, after_seq, rm_after (hh.writable _ inside_marker)]
  exact trans_of (Only (Margin c)) hafter.symm
    (trans_of (Only (Margin c)) hacted (Only.update (Or.inl inside_marker)))

end

end

end Rescind.Render
