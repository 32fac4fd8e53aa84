/-
# `Rescind.Safety.Staged` — what becomes of staged files

The outside remembers what it is asked (`recalling`), and a staged file is gone
once its own removal or that of the instance's directory was asked for since
its `do` was answered (`FileGone`).  The engine removes staged files of a step that
is passed, and the directories of an instance that a refusal closes; every
other way to leave a step leaves them.

    a passed step's staged files are removed        (`removeStaged_gone`)
    a closed instance's directories are removed     (`closeReverted_gone`)
    these are the ways staged files go              (`staged_gone_iff`)

Asked for is not done: whether the host removed the file is its own.  A staged file is
not named like a marker.
-/
import Rescind.Engine.Script
import Rescind.Turn.Outcomes

namespace Rescind

open Lib
open Lib.Prog (Keeps bind_ok bind_ok_inv)

/-! ## What was asked -/

/-- An outside that remembers what it was asked, the newest first. -/
def recalling {τ : Type} (O : Outside τ) : Outside (τ × List Query) where
  answer k q := ((O.answer k.1 q).1, (O.answer k.1 q).2, q :: k.2)

section

variable {τ : Type} {O : Outside τ} {E : Setting (τ × List Query)}

/-- What was asked in between satisfies `P`. -/
def AskedOnly (P : Query → Prop) (w w' : World (τ × List Query)) : Prop :=
  ∃ qs, w'.out.2 = qs ++ w.out.2 ∧ ∀ q ∈ qs, P q

/-- The query was asked in between. -/
def AskedFor (q : Query) (w w' : World (τ × List Query)) : Prop :=
  ∃ qs, w'.out.2 = qs ++ w.out.2 ∧ q ∈ qs

theorem askedOnly_of_out {P : Query → Prop} {w w' : World (τ × List Query)} (h : w'.out = w.out) :
    AskedOnly P w w' := ⟨[], by rw [h]; rfl, by simp⟩

theorem AskedOnly.trans {P : Query → Prop} {w w' w'' : World (τ × List Query)}
    (h : AskedOnly P w w') (h' : AskedOnly P w' w'') : AskedOnly P w w'' := by
  obtain ⟨qs, hq, hP⟩ := h
  obtain ⟨qs', hq', hP'⟩ := h'
  refine ⟨qs' ++ qs, by rw [hq', hq, List.append_assoc], fun q hm => ?_⟩
  exact (List.mem_append.mp hm).elim (hP' q) (hP q)

/-- What was asked for was asked for in any longer time. -/
theorem AskedFor.within {P P' : Query → Prop} {q : Query} {w u u' w' : World (τ × List Query)}
    (h : AskedFor q u u') (hw : AskedOnly P w u) (hw' : AskedOnly P' u' w') : AskedFor q w w' := by
  obtain ⟨qs, hq, hm⟩ := h
  obtain ⟨ps, hp, -⟩ := hw
  obtain ⟨rs, hr, -⟩ := hw'
  refine ⟨rs ++ (qs ++ ps), by rw [hr, hq, hp]; simp only [List.append_assoc], ?_⟩
  exact List.mem_append_right _ (List.mem_append_left _ hm)

/-- Nothing else was asked for. -/
theorem AskedOnly.holds {P : Query → Prop} {q : Query} {w w' : World (τ × List Query)}
    (h : AskedOnly P w w') (hq : AskedFor q w w') : P q := by
  obtain ⟨qs, he, hP⟩ := h
  obtain ⟨ps, he', hm⟩ := hq
  obtain rfl : qs = ps := List.append_cancel_right (he.symm.trans he')
  exact hP q hm

/-- What was asked in between satisfies `P`, and the record lives where it lived. -/
structure Near (P : Query → Prop) (w w' : World (τ × List Query)) : Prop where
  asked : AskedOnly P w w'
  hosts : w'.hosts = w.hosts
  id : w'.hand.id = w.hand.id
  dirs : w'.hand.dirs = w.hand.dirs

instance (P : Query → Prop) : Std.Refl (Near (τ := τ) P) :=
  ⟨fun _ => ⟨askedOnly_of_out rfl, rfl, rfl, rfl⟩⟩

theorem Near.trans {P : Query → Prop} {w w' w'' : World (τ × List Query)} (h : Near P w w')
    (h' : Near P w' w'') : Near P w w'' :=
  ⟨h.asked.trans h'.asked, h'.hosts.trans h.hosts, h'.id.trans h.id, h'.dirs.trans h.dirs⟩

instance (P : Query → Prop) : IsTrans (World (τ × List Query)) (Near P) :=
  ⟨fun _ _ _ => Near.trans⟩

variable (hE : E.outside = recalling O)
include hE

theorem asks_askedOnly {P : Query → Prop} {q : Query} (hq : P q) : Asks E (AskedOnly P) q := by
  intro w up
  refine ⟨[q], ?_, by simpa using hq⟩
  show (E.outside.answer w.out q).2.2 = _
  rw [hE]
  rfl

theorem asks_near {P : Query → Prop} {q : Query} (hq : P q) : Asks E (Near P) q :=
  fun w up => ⟨asks_askedOnly hE hq w up, rfl, rfl, rfl⟩

theorem onward_near {P : Query → Prop} (hP : ∀ q, q.removes = false → P q) :
    Onward E (Near (τ := τ) P) where
  asks _ hq := asks_near hE (hP _ hq)
  entered _ _ := ⟨askedOnly_of_out rfl, rfl, rfl, rfl⟩
  within ho _ hh := ⟨askedOnly_of_out ho, congrArg Here.hosts hh, congrArg Here.id hh,
    congrArg Here.dirs hh⟩

/-- What is asked and answered was asked for. -/
theorem askedFor_ask {ε : Type} {q : Query} {w w' : World (τ × List Query)} {x : Reply q}
    (h : (ask E q : Prog (World (τ × List Query)) ε (Reply q)) w = (.ok x, w')) :
    AskedFor q w w' := by
  unfold ask at h
  rw [hE] at h
  split at h
  next r o ha =>
    cases h
    exact ⟨[q], (congrArg (fun p => p.2.2) ha).symm, List.mem_singleton_self q⟩
  next => cases h

omit hE in
/-- What runs at a reachable host ran at it. -/
theorem onHost_ok {σ α : Type} {E : Setting σ} {name : String} {f : Nat → Host → Eng σ α}
    {i : Nat} {host : Host} {w w' : World σ} (hh : hostOf E w.hosts name = some host)
    (hi : executorIndex E host = some i) (h : onHost E name f w = (.ok (), w')) :
    ∃ b, f i host w = (.ok b, w') := by
  obtain ⟨hosts, v, hr, h⟩ := bind_ok_inv h
  cases hr
  simp only [hh, hi] at h
  obtain ⟨b, v, hb, h⟩ := bind_ok_inv h
  cases h
  exact ⟨b, hb⟩

/-! ## Removals -/

/-- The staged files of a step are removed from the hosts that are reachable. -/
theorem removeStaged_gone {n : Nat} {reason : String} {st : Staged} {host : Host} {i : Nat}
    {w w' : World (τ × List Query)} (h : removeStaged E (some n) reason w = (.ok (), w'))
    (hs : st ∈ w.hand.staged) (hn : st.step = n) (hh : hostOf E w.hosts st.host = some host)
    (hi : executorIndex E host = some i) :
    AskedFor (.removeFile i host w.hand.id st.name) w w' := by
  have := onward_near (P := fun _ => True) hE fun _ _ => trivial
  obtain ⟨r, v, hr, h⟩ := bind_ok_inv h
  cases hr
  have hmine : st ∈ w.hand.staged.filter fun s => (some n).all fun n => s.step = n :=
    List.mem_filter.mpr ⟨hs, by simpa using hn⟩
  dsimp only at h
  rw [if_neg (by simpa using List.ne_nil_of_mem hmine)] at h
  obtain ⟨_, v, hloop, h⟩ := bind_ok_inv h
  have hbody : ∀ (s : Staged) (_ : Unit), Keeps (Near (τ := τ) fun _ => True) True True
      (onHost E s.host (fun i host => ask E (.removeFile i host w.hand.id s.name)) >>= fun _ =>
        log E (.stagedRemoved s.step reason)) := fun s _ =>
    Keeps.bind (onward_onHost E fun i host => onward_ask E (asks_near hE trivial)) fun _ =>
      onward_log E _
  obtain ⟨_, _, t, t', hwt, hrun, htv⟩ := Keeps.inLoop hbody hloop hmine
  obtain ⟨_, t'', hask, hlog⟩ := bind_ok_inv hrun
  rw [← hwt.hosts] at hh
  obtain ⟨b, hb⟩ := onHost_ok hh hi hask
  have hlogged : AskedOnly (fun _ => True) t'' t' :=
    (Keeps.ran (onward_log E (R := Near fun _ => True) _) hlog).asked
  obtain ⟨_, u, hset, hkeep⟩ := bind_ok_inv h
  cases hset
  have hend : AskedOnly (fun _ => True) v w' :=
    AskedOnly.trans (askedOnly_of_out rfl)
      (Keeps.ran (onward_persist E (R := Near fun _ => True)) hkeep).asked
  exact (askedFor_ask hE hb).within hwt.asked (hlogged.trans (htv.asked.trans hend))

/-- The directory of the instance is removed from the hosts that are reachable. -/
theorem removeDirs_gone {name : String} {host : Host} {i : Nat} {w w' : World (τ × List Query)}
    (h : removeDirs E w = (.ok (), w')) (hd : name ∈ w.hand.dirs)
    (hh : hostOf E w.hosts name = some host) (hi : executorIndex E host = some i) :
    AskedFor (.dirRemove i host w.hand.id) w w' := by
  have := onward_near (P := fun _ => True) hE fun _ _ => trivial
  have hall : ∀ q, Asks E (Near (τ := τ) fun _ => True) q := fun q => asks_near hE trivial
  obtain ⟨x, v, hdis, h⟩ := bind_ok_inv h
  obtain ⟨_, v₁, hor, h⟩ := bind_ok_inv h
  obtain ⟨r, v₂, hr, h⟩ := bind_ok_inv h
  cases hr
  obtain ⟨_, v₃, hloop, h⟩ := bind_ok_inv h
  have hv : Near (fun _ => True) w v₁ :=
    (Keeps.ran (onward_backstopDisarm E hall _) hdis).trans (Keeps.ran (onward_orLog E x) hor)
  have hbody : ∀ (name : String) (_ : Unit), Keeps (Near (τ := τ) fun _ => True) True True
      (onHost E name fun i host => (ask E (.dirRemove i host v₁.hand.id) : Eng _ _)) :=
    fun name _ => onward_onHost E fun i host => onward_ask E (hall _)
  rw [← hv.dirs] at hd
  obtain ⟨_, _, t, t', hvt, hrun, htv⟩ := Keeps.inLoop hbody hloop hd
  rw [← hv.hosts, ← hvt.hosts] at hh
  obtain ⟨b, hb⟩ := onHost_ok hh hi hrun
  obtain ⟨_, u, hset, hkeep⟩ := bind_ok_inv h
  cases hset
  have hend : AskedOnly (fun _ => True) v₃ w' :=
    AskedOnly.trans (askedOnly_of_out rfl)
      (Keeps.ran (onward_persist E (R := Near fun _ => True)) hkeep).asked
  rw [← hv.id]
  exact (askedFor_ask hE hb).within (hv.asked.trans hvt.asked) (htv.asked.trans hend)

/-- An instance that closes after a revert leaves no directory on a reachable
host. -/
theorem closeReverted_gone {name : String} {host : Host} {i : Nat} {w w' : World (τ × List Query)}
    (h : closeReverted E w = (.ok (), w')) (hd : name ∈ w.hand.dirs)
    (hh : hostOf E w.hosts name = some host) (hi : executorIndex E host = some i) :
    AskedFor (.dirRemove i host w.hand.id) w w' := by
  have := onward_near (P := fun _ => True) hE fun _ _ => trivial
  obtain ⟨_, v₁, h₁, h⟩ := bind_ok_inv h
  obtain ⟨_, v₂, h₂, h⟩ := bind_ok_inv h
  obtain ⟨r, v₃, h₃, h⟩ := bind_ok_inv h
  cases h₃
  dsimp only at h
  obtain ⟨_, v₄, h₄, h⟩ := bind_ok_inv h
  obtain ⟨_, v₅, h₅, h⟩ := bind_ok_inv h
  obtain ⟨_, v₆, h₆, h⟩ := bind_ok_inv h
  obtain ⟨_, v₇, h₇, h⟩ := bind_ok_inv h
  obtain ⟨_, v₈, h₈, h⟩ := bind_ok_inv h
  have hreason : Near (fun _ => True) v₂ v₄ := by
    cases h₄
    exact ⟨askedOnly_of_out rfl, rfl, rfl, rfl⟩
  have hclosing : Near (fun _ => True) w v₇ :=
    Near.trans (Keeps.ran (onward_step E _) h₁) <| Near.trans (Keeps.ran (onward_log E _) h₂) <|
      hreason.trans <| Near.trans (Keeps.ran (onward_log E _) h₅) <|
      Near.trans (Keeps.ran (onward_dropSecrets E _) h₆) (Keeps.ran (onward_release E) h₇)
  rw [← hclosing.dirs] at hd
  rw [← hclosing.hosts] at hh
  rw [← hclosing.id]
  exact (removeDirs_gone hE h₈ hd hh hi).within hclosing.asked
    (Keeps.ran (onward_persist E (R := Near fun _ => True)) h).asked

/-! ## What removes nothing -/

variable {a : AppliedStep} {s : StepI} {op : Op} {host : Host} {pre before : Watched}
  {x : Except String ExecOutput} {flow : Flow} {v w' : World (τ × List Query)}

section
variable {P : Query → Prop} (hP : ∀ q, q.removes = false → P q)
include hP

theorem Completed.near {out : ExecOutput} (h : Completed E a s op host before out v w') :
    Near P v w' := by
  have := onward_near hE hP
  obtain ⟨after, v₁, v₂, spoke, read, same, marked, done⟩ := h
  have htook : Near P v₂
      { v₂ with hand := takeOutputs host a.step (s.alias_.getD op.id) op out.outputs v₂.hand } :=
    ⟨askedOnly_of_out rfl, rfl, rfl, rfl⟩
  exact Near.trans (Keeps.ran (onward_watched E host a) read) <|
    Near.trans (Keeps.ran (onward_writeMarkers E host a op) marked) <|
    htook.trans (onward_completing E done)

theorem near_observed (owner : Host) (probe : String) :
    Keeps (Near P) True True (observeTri E owner probe) :=
  have := onward_near hE hP
  onward_observeTri E owner probe

variable (hm : AsksMarkers E (Near (τ := τ) P))
include hm

theorem Refuses.near {u : World (τ × List Query)} (h : Refuses E a s op host pre before x v u) :
    Near P v u := by
  have := onward_near hE hP
  cases h with
  | failed e v u h => exact Keeps.ran (onward_failing E hm a op pre _) h
  | silent out v u _ h => exact Keeps.ran (onward_failing E hm a op pre _) h
  | unread out why v v₁ u _ hw h =>
      exact Near.trans (Keeps.ran (onward_watched E host a) hw)
        (Keeps.ran (onward_failing E hm a op pre _) h)
  | violated out after v v₁ u _ hw _ h =>
      exact Near.trans (Keeps.ran (onward_watched E host a) hw)
        (Keeps.ran (onward_violating E hm a op pre _) h)
  | unmarked out after why v v₁ v₂ u _ hw _ hk h =>
      exact Near.trans (Keeps.ran (onward_watched E host a) hw) <|
        Near.trans (Keeps.ran (onward_writeMarkers E host a op) hk)
          (Keeps.ran (onward_failing E hm a op pre _) h)
  | guarded out v v₁ v₂ u gs gs' g hd _ hp hr =>
      obtain ⟨owner, y, why, t, t', found, asked, -, told⟩ := hr
      exact (hd.near hE hP).trans <| Near.trans (ran_of_search (near_observed hE hP) hp) <|
        Near.trans (ran_of_observed (near_observed hE hP) found asked)
          (Keeps.ran (onward_refusing E _ _) told)

variable {hold : World (τ × List Query) → World (τ × List Query) → Prop}
  {u : World (τ × List Query)}

/-- A refusal that does not close the instance removes nothing. -/
theorem near_of_unclean (hhold : ∀ u w', hold u w' → Near P u w') (h : RefusalEnds E hold u w')
    (hc : ¬Clean E u) : Near P u w' := by
  have := onward_near hE hP
  cases h with
  | closes u₁ u₂ hs hh hr _ => exact absurd (.intro u₁ u₂ hs hh hr) hc
  | holds u₁ hs _ hk => exact Near.trans (Keeps.ran (onward_step E _) hs) (hhold _ _ hk)
  | stops u₁ hs hr =>
      exact Near.trans (Keeps.ran (onward_step E _) hs) (Keeps.ran (onward_reverting E hm) hr)

/-- A clean refusal comes to the close with nothing removed before. -/
theorem closes_of_clean (h : RefusalEnds E hold u w') (hc : Clean E u) :
    ∃ u', Near P u u' ∧ closeReverted E u' = (.ok (), w') := by
  have := onward_near hE hP
  obtain ⟨u₁, u₂, hs, hh, hr⟩ := hc
  refine ⟨u₂, Near.trans (Keeps.ran (onward_step E _) hs) (Keeps.ran (onward_reverting E hm) hr), ?_⟩
  cases h with
  | closes t₁ t₂ hs' _ hr' hgo =>
      cases hs.symm.trans hs'
      cases hr.symm.trans hr'
      exact hgo
  | holds t₁ hs' hheld _ =>
      cases hs.symm.trans hs'
      exact absurd hheld hh
  | stops t₁ hs' hr' =>
      cases hs.symm.trans hs'
      cases hr.symm.trans hr'

end

/-! ## Gone -/

/-- The removal of a file, or of the directory it lies in, was asked for. -/
def FileGone (i : Nat) (host : Host) (id name : String) (w w' : World (τ × List Query)) : Prop :=
  AskedFor (.removeFile i host id name) w w' ∨ AskedFor (.dirRemove i host id) w w'

/-- A query that removes none of the files. -/
def SparesFiles (i : Nat) (host : Host) (id : String) (files : List Staged) (q : Query) : Prop :=
  q ≠ .dirRemove i host id ∧ ∀ st ∈ files, q ≠ .removeFile i host id st.name

/-- The `do` came to be passed: it is completed, and every post guard passes when
it is asked. -/
def PassesPost (E : Setting (τ × List Query)) (a : AppliedStep) (s : StepI) (op : Op) (host : Host)
    (before : Watched) (x : Except String ExecOutput) (v : World (τ × List Query)) : Prop :=
  ∃ out v₁ v₂, x = .ok out ∧ Completed E a s op host before out v v₁ ∧
    Prog.search (guardBlocks E a.step []) op.post v₁ = (.ok none, v₂)

/-- The step is refused, and the refusal closes the instance. -/
def Closes (E : Setting (τ × List Query)) (a : AppliedStep) (s : StepI) (op : Op) (host : Host)
    (pre before : Watched) (x : Except String ExecOutput) (v : World (τ × List Query)) : Prop :=
  ∃ u, Refuses E a s op host pre before x v u ∧ Clean E u

omit hE in
theorem spares_of_keeps {i : Nat} {id : String} {files : List Staged} (q : Query)
    (h : q.removes = false) : SparesFiles i host id files q := by
  constructor
  · rintro rfl
    cases h
  · rintro st - rfl
    cases h

theorem asksMarkers_spares {i : Nat} {id : String} {files : List Staged}
    (hn : ∀ st ∈ files, ∀ n : Nat, st.name ≠ "markers/" ++ toString n) :
    AsksMarkers E (Near (τ := τ) (SparesFiles i host id files)) := by
  intro i' host' id' n
  refine asks_near hE ⟨by simp, fun st hs hq => ?_⟩
  exact hn st hs n (Query.removeFile.inj hq).2.2.2.symm

omit hE in
theorem Near.not_gone {i : Nat} {id : String} {files : List Staged} {st : Staged}
    (h : Near (SparesFiles i host id files) v w') (hs : st ∈ files) : ¬FileGone i host id st.name v w' := by
  rintro (hg | hg)
  · exact (h.asked.holds hg).2 st hs rfl
  · exact (h.asked.holds hg).1 rfl

/-- After a refusal the files are gone just where it closed the instance. -/
theorem refused_gone_iff {hold : World (τ × List Query) → World (τ × List Query) → Prop} {i : Nat}
    {files : List Staged} {u : World (τ × List Query)}
    (hu : Near (SparesFiles i host v.hand.id files) v u) (h : RefusalEnds E hold u w')
    (hhold : ∀ u w', hold u w' → Near (SparesFiles i host v.hand.id files) u w')
    (hd : host.name ∈ v.hand.dirs) (hh : hostOf E v.hosts host.name = some host)
    (hi : executorIndex E host = some i) (hne : files ≠ [])
    (hn : ∀ st ∈ files, ∀ n : Nat, st.name ≠ "markers/" ++ toString n) :
    (∀ st ∈ files, FileGone i host v.hand.id st.name v w') ↔ Clean E u := by
  have hm : AsksMarkers E (Near (SparesFiles i host v.hand.id files)) := asksMarkers_spares hE hn
  constructor
  · intro hg
    obtain ⟨st, hs⟩ := List.exists_mem_of_ne_nil files hne
    by_contra hc
    have hw : Near (SparesFiles i host v.hand.id files) v w' :=
      hu.trans (near_of_unclean hE spares_of_keeps hm hhold h hc)
    exact hw.not_gone hs (hg st hs)
  · intro hc st _
    obtain ⟨u', hu', hclose⟩ := closes_of_clean hE spares_of_keeps hm h hc
    have hv : Near (SparesFiles i host v.hand.id files) v u' := hu.trans hu'
    rw [← hv.dirs] at hd
    rw [← hv.hosts] at hh
    have hgone := closeReverted_gone hE hclose hd hh hi
    rw [hv.id] at hgone
    exact .inr (hgone.within hv.asked (askedOnly_of_out (P := fun _ => True) rfl))

/-- A step that passed leaves no staged file. -/
theorem passed_gone {out : ExecOutput} {v₁ v₂ : World (τ × List Query)} {i : Nat}
    (hd : Completed E a s op host before out v v₁)
    (hp : Prog.search (guardBlocks E a.step []) op.post v₁ = (.ok none, v₂))
    (h : settleStep E a op v₁ = (.ok flow, w')) (hh : hostOf E v.hosts host.name = some host)
    (hi : executorIndex E host = some i) {st : Staged} (hs : st ∈ stagedBy host a.step op.do_) :
    FileGone i host v.hand.id st.name v w' := by
  have hall : ∀ q : Query, q.removes = false → (fun _ => True) q := fun _ _ => trivial
  have hv : Near (fun _ => True) v v₁ := hd.near hE hall
  have hpass : Near (fun _ => True) v₁ v₂ := ran_of_search (near_observed hE hall) hp
  have hsame : SameHere v₁ v₂ := ran_of_search (fun o p => onward_observeTri E o p) hp
  obtain ⟨r, t, hsearch, h⟩ := bind_ok_inv h
  cases hp.symm.trans hsearch
  obtain ⟨_, t₁, hremove, h⟩ := bind_ok_inv h
  obtain ⟨_, t₂, hread, h⟩ := bind_ok_inv h
  obtain ⟨_, t₃, hnote, h⟩ := bind_ok_inv h
  cases hread
  cases hnote
  cases h
  obtain ⟨hhost, hstep⟩ : st.host = host.name ∧ st.step = a.step := by
    obtain ⟨p, -, hp⟩ := List.mem_filterMap.mp hs
    cases p <;> cases hp
    exact ⟨rfl, rfl⟩
  have hstaged : st ∈ v₂.hand.staged := by
    rw [show v₂.hand.staged = v₁.hand.staged from congrArg Here.staged hsame,
      show v₁.hand.staged = v.hand.staged ++ stagedBy host a.step op.do_ from
        congrArg Here.staged hd.here]
    exact List.mem_append_right _ hs
  have hgone := removeStaged_gone hE hremove hstaged hstep
    (by rw [hhost, hpass.hosts, hv.hosts]; exact hh) hi
  rw [hpass.id, hv.id] at hgone
  exact .inl (hgone.within (hv.trans hpass).asked (askedOnly_of_out (P := fun _ => True) rfl))

/-- The files of a step whose `do` returned are gone just where the step passed,
or was refused and that closed the instance. -/
theorem attempted_gone_iff {i : Nat} {w : World (τ × List Query)}
    (h : Attempt E a s host w op pre before i x v) (hh : hostOf E w.hosts host.name = some host)
    (hf : (capsOf E host).filesystem = true)
    (hn : ∀ st ∈ stagedBy host a.step op.do_, ∀ n : Nat, st.name ≠ "markers/" ++ toString n)
    (hr : attemptStep E a s host w = (.ok flow, w')) :
    (∀ st ∈ stagedBy host a.step op.do_, FileGone i host v.hand.id st.name v w') ↔
      stagedBy host a.step op.do_ = [] ∨ PassesPost E a s op host before x v ∨
        Closes E a s op host pre before x v := by
  obtain ⟨hfacts, hl, hi, -⟩ := h.sameFacts
  have hd : host.name ∈ v.hand.dirs := h.housed hf
  rw [← show v.hosts = w.hosts from congrArg Grounds.hosts hfacts] at hh
  rw [h.attemptStep_eq] at hr
  have hlive : ∀ out v₁, Completed E a s op host before out v v₁ → v₁.hand.rehearsal = false := by
    intro out v₁ hc
    rw [show v₁.hand.rehearsal = v.hand.rehearsal from congrArg Here.rehearsal hc.here]
    exact hl
  have := onward_near hE (P := SparesFiles i host v.hand.id (stagedBy host a.step op.do_)) spares_of_keeps
  have hm : AsksMarkers E (Near (SparesFiles i host v.hand.id (stagedBy host a.step op.do_))) :=
    asksMarkers_spares hE hn
  have hrefused : ∀ u, Refuses E a s op host pre before x v u →
      refuseApplied E a.step u = (.ok flow, w') → stagedBy host a.step op.do_ ≠ [] →
      ((∀ st ∈ stagedBy host a.step op.do_, FileGone i host v.hand.id st.name v w') ↔ Clean E u) :=
    fun u hu hgo hne => refused_gone_iff hE (hu.near hE spares_of_keeps hm) (refuseApplied_ends hgo)
      (fun _ _ hk => Keeps.ran (onward_holding E _) hk) hd hh hi hne hn
  constructor
  · intro hg
    by_cases hne : stagedBy host a.step op.do_ = []
    · exact .inl hne
    obtain ⟨st, hs⟩ := List.exists_mem_of_ne_nil _ hne
    rcases answered_cases hr with ⟨out, v₁, rfl, hc⟩ | ⟨u, hu, hgo⟩
    · rw [answered, hc.afterDo_eq (hlive out v₁ hc)] at hr
      rcases settleStep_cases (near_observed hE spares_of_keeps) hr with ⟨v₂, hp⟩ |
        ⟨gs, g, gs', v₂, u, hpost, hp, hb, hgo⟩ | ⟨t, reason, guard, bound, ht, hwait⟩
      · exact .inr (.inl ⟨out, v₁, v₂, rfl, hc, hp⟩)
      · have hu : Refuses E a s op host pre before (.ok out) v u :=
          .guarded out v v₁ v₂ u gs gs' g hc hpost hp hb
        exact .inr (.inr ⟨u, hu, (hrefused u hu hgo hne).mp hg⟩)
      · -- a wait leaves them where they are
        have hstays : Near (SparesFiles i host v.hand.id (stagedBy host a.step op.do_)) v w' :=
          (hc.near hE spares_of_keeps).trans (ht.trans (Keeps.ran (onward_wait E _ _ _ _) hwait))
        exact absurd (hg st hs) (hstays.not_gone hs)
    · exact .inr (.inr ⟨u, hu, (hrefused u hu hgo hne).mp hg⟩)
  · rintro (hnone | ⟨out, v₁, v₂, rfl, hc, hp⟩ | ⟨u, hu, hclean⟩) st hs
    · exact absurd (hnone ▸ hs) List.not_mem_nil
    · rw [answered, hc.afterDo_eq (hlive out v₁ hc)] at hr
      exact passed_gone hE hc hp hr hh hi hs
    · have hgo := hu.answered_ok (fun out v₁ _ hc => hlive out v₁ hc) hr
      exact (hrefused u hu hgo (List.ne_nil_of_mem hs)).mpr hclean st hs

/-- The files of a step a process died inside are gone just where the refusal of
boot closes the instance. -/
theorem booted_gone_iff {i : Nat} {files : List Staged} {u u' : World (τ × List Query)}
    (hb : bootApplying E u = (.ok (), u')) (hd : host.name ∈ u.hand.dirs)
    (hh : hostOf E u.hosts host.name = some host) (hi : executorIndex E host = some i)
    (hn : ∀ st ∈ files, ∀ n : Nat, st.name ≠ "markers/" ++ toString n) :
    (∀ st ∈ files, FileGone i host u.hand.id st.name u u') ↔
      files = [] ∨ ∃ t, recovering E u = (.ok (), t) ∧ Clean E t := by
  have := onward_near hE (P := SparesFiles i host u.hand.id files) spares_of_keeps
  obtain ⟨t, hrec, hends⟩ := bootApplying_ends hb
  have hiff : files ≠ [] → ((∀ st ∈ files, FileGone i host u.hand.id st.name u u') ↔ Clean E t) :=
    fun hne => refused_gone_iff hE (Keeps.ran (onward_recovering E) hrec) hends
      (fun _ _ hk => Keeps.ran (onward_bootHolding E) hk) hd hh hi hne hn
  constructor
  · intro hg
    by_cases hne : files = []
    · exact .inl hne
    · exact .inr ⟨t, hrec, (hiff hne).mp hg⟩
  · rintro (rfl | ⟨t', hrec', hc⟩)
    · exact fun st hs => absurd hs List.not_mem_nil
    · cases hrec.symm.trans hrec'
      intro st hs
      exact (hiff (List.ne_nil_of_mem hs)).mpr hc st hs

/-- **What becomes of the files a step staged.**  When its `do` returned, they are
gone just where the step passed, or was refused and that closed the instance; a
process that takes the instance up after one died inside the `do` has them gone
just where its refusal closes the instance; and a walk that comes by the step
when it is applied asks nothing of any host. -/
theorem staged_gone_iff {i : Nat} (hi : executorIndex E host = some i)
    (hf : (capsOf E host).filesystem = true)
    (hn : ∀ st ∈ stagedBy host a.step op.do_, ∀ n : Nat, st.name ≠ "markers/" ++ toString n) :
    (∀ (s : StepI) (pre before : Watched) (x : Except String ExecOutput) (flow : Flow)
        (w v w' : World (τ × List Query)),
      Attempt E a s host w op pre before i x v → hostOf E w.hosts host.name = some host →
      attemptStep E a s host w = (.ok flow, w') →
      ((∀ st ∈ stagedBy host a.step op.do_, FileGone i host v.hand.id st.name v w') ↔
        stagedBy host a.step op.do_ = [] ∨ PassesPost E a s op host before x v ∨
          Closes E a s op host pre before x v)) ∧
    (∀ u u' : World (τ × List Query), bootApplying E u = (.ok (), u') →
      host.name ∈ u.hand.dirs → hostOf E u.hosts host.name = some host →
      ((∀ st ∈ stagedBy host a.step op.do_, FileGone i host u.hand.id st.name u u') ↔
        stagedBy host a.step op.do_ = [] ∨
          ∃ t, recovering E u = (.ok (), t) ∧ Clean E t)) ∧
    ∀ (it : Item) (u : World (τ × List Query)), u.hand.isApplied a.step a.iteration a.vars = true →
      ∃ u', walkLeaf E it a u = (.ok (.continue_, a.step + 1), u') ∧ u'.out = u.out := by
  refine ⟨fun s pre before x flow w v w' h hh hr => attempted_gone_iff hE h hh hf hn hr,
    fun u u' hb hd hh => booted_gone_iff hE hb hd hh hi hn, fun it u happ => ?_⟩
  have hskip : walkLeaf E it a u = (do
      .when (opOf it).isSome (note (.skipped u.hand.id a))
      pure (.continue_, a.step + 1) : Eng _ (Flow × Nat)) u :=
    congrFun (if_pos happ) u
  rw [hskip]
  cases (opOf it).isSome <;> exact ⟨_, rfl, rfl⟩

end

/-! ## A file that stays -/

namespace Staging

/-- Every run fails but the first. -/
def script : Script where
  run n := some (if n = 0 then .ok ⟨[]⟩ else .error "busy")

def site : Setting (Nat × List Query) :=
  { script.setting with outside := recalling script.outside }

def web : Host := smallHost "web"

/-- A step that stages a file and runs it. -/
def unpack (refusal : Refusal) : StepI := { op := {
  id := "unpack"
  footprint := []
  do_ := [.stage "setup" (.lit "x") 0o600, .run [.lit "sh setup"] [] none]
  undo := .compensate [] []
  refusal } }

def second : AppliedStep := ⟨2, 0, []⟩

/-- Two such steps, the second about to run, after so many runs; the first holds
what is refused. -/
def begun (runs : Nat) : World (Nat × List Query) :=
  { out := (runs, []), hosts := [("web", web)], hand := { noRecord with
      id := "p.web.00000000"
      ir := smallPlan "p" "web" [.step (unpack (.hold none)), .step (unpack .revert)]
      applied := [⟨1, 0, []⟩]
      state := .applying } }

/-- On the way to its `do`. -/
def ahead (runs : Nat) : World (Nat × List Query) :=
  (setOut site second (unpack .revert) (begun runs)).2

def housed (runs : Nat) : World (Nat × List Query) := (ensureInstanceDir site web (ahead runs)).2

def observed (runs : Nat) : World (Nat × List Query) :=
  (readBefore site second (unpack .revert).op web (housed runs)).2

def body : List RPrim :=
  [.stage "setup" ⟨"x", false⟩ 0o600, .run ⟨"sh setup", false⟩ [] none]

def ran (runs : Nat) : World (Nat × List Query) :=
  ((handOver second >>= fun _ => ask site (.run 0 web (observed runs).hand.id body) : Eng _ _)
    (observed runs)).2

def ended (runs : Nat) : World (Nat × List Query) :=
  (attemptStep site second (unpack .revert) web (begun runs)).2

theorem attempt_done : Attempt site second (unpack .revert) web (begun 0) (unpack .revert).op [] []
    0 (.ok ⟨[]⟩) (ran 0) :=
  .intro (ahead 0) (housed 0) (observed 0) (observed 0) (envFor (ahead 0).hand []) body
    (Prog.eq_of_fst (by decide +kernel)) (by decide +kernel) (Prog.eq_of_fst (by decide +kernel)) rfl
    (Prog.eq_of_fst (by decide +kernel)) rfl rfl (by decide +kernel) (Prog.eq_of_fst rfl)

theorem attempt_failed : Attempt site second (unpack .revert) web (begun 1) (unpack .revert).op [] []
    0 (.error "busy") (ran 1) :=
  .intro (ahead 1) (housed 1) (observed 1) (observed 1) (envFor (ahead 1).hand []) body
    (Prog.eq_of_fst (by decide +kernel)) (by decide +kernel) (Prog.eq_of_fst (by decide +kernel)) rfl
    (Prog.eq_of_fst (by decide +kernel)) rfl rfl (by decide +kernel) (Prog.eq_of_fst rfl)

def seen : World (Nat × List Query) := (watched site web second (ran 0)).2

def marked : World (Nat × List Query) :=
  (writeMarkers site web second (unpack .revert).op seen).2

def done : World (Nat × List Query) :=
  (completing site second (unpack .revert) (unpack .revert).op web [] marked).2

/-- Taken up after a process died inside the second `do`, where nothing holds. -/
def died : World (Nat × List Query) := { begun 1 with hand := { (begun 1).hand with
  ir := smallPlan "p" "web" [.step (unpack .revert), .step (unpack .revert)]
  dirs := ["web"]
  attempting := some second } }

def undone : World (Nat × List Query) := (recovering site died).2

def refused : World (Nat × List Query) := (step site .refuse undone).2

/-- A `do` that is done, and a boot that closes the instance: the file is gone. -/
theorem setup_gone : FileGone 0 web "p.web.00000000" "setup" (ran 0) (ended 0) ∧
    FileGone 0 web "p.web.00000000" "setup" died (bootApplying site died).2 := by
  have hname : ∀ st ∈ stagedBy web second.step (unpack .revert).op.do_, ∀ n : Nat,
      st.name ≠ "markers/" ++ toString n := by
    intro st hs n hn
    obtain rfl : st = ⟨"web", 2, "setup"⟩ := List.mem_singleton.mp hs
    have hchars := congrArg String.toList hn
    rw [String.toList_append] at hchars
    cases hchars
  have hpasses : PassesPost site second (unpack .revert) (unpack .revert).op web [] (.ok ⟨[]⟩) (ran 0) :=
    ⟨⟨[]⟩, done, done, rfl, .intro [] seen marked rfl (Prog.eq_of_fst (by decide +kernel)) rfl
      (Prog.eq_of_fst (by decide +kernel)) (Prog.eq_of_fst (by decide +kernel)), rfl⟩
  have hclean : Clean site undone :=
    .intro refused _ (Prog.eq_of_fst (by decide +kernel)) (by decide +kernel)
      (Prog.eq_of_fst (by decide +kernel))
  have hreached : executorIndex site web = some 0 := by decide +kernel
  obtain ⟨hreturned, hbooted, -⟩ := staged_gone_iff (O := script.outside) rfl hreached
    (by decide +kernel) hname
  constructor
  · exact (hreturned (unpack .revert) [] [] (.ok ⟨[]⟩) .continue_ (begun 0) (ran 0) (ended 0)
      attempt_done rfl (Prog.eq_of_fst (by decide +kernel))).mpr (.inr (.inl hpasses))
      ⟨"web", 2, "setup"⟩ (by decide)
  · exact (hbooted died _ (Prog.eq_of_fst (by decide +kernel)) (by decide) rfl).mpr
      (.inr ⟨undone, Prog.eq_of_fst (by decide +kernel), hclean⟩) ⟨"web", 2, "setup"⟩ (by decide)

/-- A query that would remove the file. -/
def takesSetup : Query → Bool
  | .removeFile _ _ _ rel => rel = "setup"
  | .dirRemove .. => true
  | _ => false

theorem takesSetup_of_gone {i : Nat} {host : Host} {id : String} {w w' : World (Nat × List Query)}
    (h : FileGone i host id "setup" w w') : w'.out.2.any takesSetup = true := by
  have hasked : ∀ q, takesSetup q = true → AskedFor q w w' → w'.out.2.any takesSetup = true := by
    rintro q ht ⟨qs, hq, hm⟩
    exact List.any_eq_true.mpr ⟨q, by rw [hq]; exact List.mem_append_left _ hm, ht⟩
  rcases h with h | h
  · exact hasked _ (by simp [takesSetup]) h
  · exact hasked _ rfl h

/-- The first step holds the instance, and the file the second staged stays. -/
theorem setup_left :
    ¬ ∀ (E : Setting (Nat × List Query)) (O : Outside Nat) (a : AppliedStep) (s : StepI) (host : Host)
        (op : Op) (pre before : Watched) (i : Nat) (x : Except String ExecOutput) (flow : Flow)
        (w v w' : World (Nat × List Query)),
      E.outside = recalling O → (capsOf E host).filesystem = true →
      Attempt E a s host w op pre before i x v → hostOf E w.hosts host.name = some host →
      attemptStep E a s host w = (.ok flow, w') → w'.hand.state ≠ .waiting →
      ∀ st ∈ stagedBy host a.step op.do_, FileGone i host v.hand.id st.name v w' := by
  intro h
  have hgone := h site script.outside second (unpack .revert) web (unpack .revert).op [] [] 0
    (.error "busy") .stop (begun 1) (ran 1) (ended 1) rfl (by decide +kernel) attempt_failed rfl
    (Prog.eq_of_fst (by decide +kernel)) (by decide +kernel) ⟨"web", 2, "setup"⟩ (by decide)
  exact absurd (takesSetup_of_gone hgone) (by decide +kernel)

end Staging

end Rescind
