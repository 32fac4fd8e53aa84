/-
# `Rescind.Safety.Deadman` — when the artifact may act

The engine writes a heartbeat on the target whenever an interval has gone by since the
last, and the artifact acts when the last it finds is older than the trigger allows, or
a deadline has passed.  The two never read each other's state but through these files.

    the artifact is due by what the engine wrote, and by that alone       (`due_iff`)
    a pass of the engine writes the heartbeat it is time for   (`pass_of_heartbeat`, `Passes.beaten`)
    passes that come often enough keep the artifact still                 (`kept_alive`)

Both clocks are one here, and a pass is over at the time it began.
-/
import Rescind.Safety.Targets

namespace Rescind.Render

open Lib Lib.Cmd Lib.Prog

/-! ## What the triggers read -/

/-- The text of an instant, as the engine writes it on a target. -/
def epoch (t : Nat) : List Char := (toString t ++ "\n").toList

theorem ofText_epoch (t : Nat) : Bytes.ofText (epoch t) = epochText ⟨t⟩ := rfl

/-- The shell reads it without its newline. -/
theorem substituted_epoch (t : Nat) : substituted (epoch t) = (toString t).toList := by
  have hl : (toString t ++ "\n").toList = (toString t).toList ++ ['\n'] := String.toList_append
  rw [epoch, hl, substituted, List.rdropWhile_concat_pos _ _ _ (by decide), List.rdropWhile_eq_self_iff]
  intro hne h
  have hdigits : (toString t).toList = Nat.toDigits 10 t := by simp [toString, Nat.repr]
  have hm : (toString t).toList.getLast hne ∈ Nat.toDigits 10 t := hdigits ▸ List.getLast_mem hne
  have hd := Nat.isDigit_of_mem_toDigits (by decide) (by decide) hm
  rw [of_decide_eq_true h] at hd
  revert hd
  decide

section
variable {m : Machine} {c : Context} {f : Tree} {t b s : Nat}

/-- With the heartbeat of `b` on the target, and the deadline the engine has put there if
there is one, the artifact is due where the deadline has passed or the heartbeat is older
than the trigger allows. -/
theorem due_iff (hb : f (c.file "heartbeat") = some (epoch b))
    (hd : ∀ x, f (c.file "deadline") = some x → ∃ d, x = epoch d) :
    due m c t f = true ↔ (c.deadline = true ∧ ∃ d, f (c.file "deadline") = some (epoch d) ∧ d ≤ t) ∨
      ∃ s, c.heartbeatS = some s ∧ b + s < t := by
  have hlate : (c.deadline && (f (c.file "deadline")).any fun x =>
      (m.integer (substituted x)).any fun d => decide (d ≤ (t : Int))) = true ↔
      c.deadline = true ∧ ∃ d, f (c.file "deadline") = some (epoch d) ∧ d ≤ t := by
    rw [Bool.and_eq_true]
    refine and_congr_right fun _ => ?_
    cases hx : f (c.file "deadline") with
    | none => simp
    | some x =>
        obtain ⟨d, rfl⟩ := hd x hx
        rw [Option.any_some, substituted_epoch, m.integer_nat, Option.any_some, decide_eq_true_eq, Int.ofNat_le]
        constructor
        · exact fun h => ⟨d, rfl, h⟩
        · rintro ⟨d', he, h⟩
          have : substituted (epoch d) = substituted (epoch d') := congrArg substituted (Option.some.inj he)
          rw [substituted_epoch, substituted_epoch, String.toList_inj] at this
          rwa [toString_nat_inj this]
  unfold due
  cases hs : c.heartbeatS with
  | none => simpa using hlate
  | some s =>
      simp only [hb, substituted_epoch, m.arith_nat, Bool.or_eq_true, hlate, decide_eq_true_eq]
      refine or_congr Iff.rfl ⟨fun h => ⟨s, rfl, by omega⟩, ?_⟩
      rintro ⟨s', he, h⟩
      cases he
      omega

end

/-! ## The engine's pass -/

/-- What a pass makes of the engine's record and of the target's files. -/
def beaten (c : Context) (now : Instant) (st : BackstopState) (files : Tree) : BackstopState × Tree :=
  if heartbeatDue now st then
    ({ st with lastHeartbeat := some now }, Function.update files (c.file "heartbeat") (some (epoch now.unixS)))
  else (st, files)

section
variable {σ : Type} {E : Setting σ} {c : Context} {host : Host} {look : σ → Tree} {w w' : World σ}
  {st : BackstopState} {i : Nat} {now : Instant}

/-- A pass of the engine over an instance writes its heartbeat if it is time, or was
refused the write and has changed nothing. -/
theorem pass_of_heartbeat (hk : Keeping E c host look) (hid : w.hand.id = c.inst.id)
    (hst : w.hand.backstop = some st) (hhost : hostOf E w.hosts st.host = some host)
    (hi : executorIndex E host = some i) (h : heartbeatInstance E now w = (.ok (), w')) :
    (w'.hand.backstop, look w'.out) =
        (some (beaten c now st (look w.out)).1, (beaten c now st (look w.out)).2) ∨
      w'.hand.backstop = some st ∧ look w'.out = look w.out := by
  unfold heartbeatInstance at h
  obtain ⟨r, w₀, hr, h⟩ := bind_ok_inv h
  cases hr
  rw [hst] at h
  cases hdue : heartbeatDue now st with
  | false =>
      simp only [hdue, Bool.not_false, if_true] at h
      cases h
      exact Or.inr ⟨hst, rfl⟩
  | true =>
      simp only [hdue, Bool.not_true, if_neg Bool.false_ne_true] at h
      obtain ⟨hosts, w₁, hh, h⟩ := bind_ok_inv h
      cases hh
      rw [hhost] at h
      simp only [hi] at h
      obtain ⟨a, w₂, ha, h⟩ := bind_ok_inv h
      obtain ⟨hans, hw₂⟩ := ask_said ha
      rw [hid] at hans
      cases a with
      | error e =>
          cases h
          rw [hw₂]
          exact Or.inr ⟨hst, hk.refused hans⟩
      | ok u =>
          have hfiles : look w₂.out = Function.update (look w.out) (c.file "heartbeat") (some (epoch now.unixS)) := by
            rw [hk.replaced hans, ← ofText_epoch, Bytes.lossy_ofText]
          obtain ⟨_, w₃, hset, h⟩ := bind_ok_inv h
          cases hset
          obtain ⟨hhand, -, hlook⟩ := (keeps_persist hk).ran h
          left
          rw [hhand, hlook]
          show (w₂.hand.backstop.map _, look w₂.out) = _
          rw [hfiles, hw₂]
          show (w.hand.backstop.map _, _) = _
          rw [hst, beaten, if_pos hdue]
          rfl

end

/-- A pass of an engine over the instance, at a time, from a record of the backstop and a
target's files: it ran to its end, and if it was time for a heartbeat that is recorded and
on the target. -/
inductive Passes (c : Context) (t : Nat) (st : BackstopState) (files : Tree) (st' : BackstopState)
    (files' : Tree) : Prop where
  | of {σ : Type} {E : Setting σ} {host : Host} {look : σ → Tree} {w w' : World σ} {i : Nat}
      (hk : Keeping E c host look) (hid : w.hand.id = c.inst.id) (hst : w.hand.backstop = some st)
      (hlook : look w.out = files) (hhost : hostOf E w.hosts st.host = some host)
      (hi : executorIndex E host = some i) (h : heartbeatInstance E ⟨t⟩ w = (.ok (), w'))
      (hst' : w'.hand.backstop = some st') (hlook' : look w'.out = files')
      (heard : heartbeatDue ⟨t⟩ st = true →
        st'.lastHeartbeat = some ⟨t⟩ ∧ files' (c.file "heartbeat") = some (epoch t))

/-- Such a pass writes the heartbeat it is time for, and nothing else. -/
theorem Passes.beaten {c : Context} {t : Nat} {st st' : BackstopState} {files files' : Tree}
    (h : Passes c t st files st' files') : beaten c ⟨t⟩ st files = (st', files') := by
  obtain ⟨hk, hid, hst, rfl, hhost, hi, h, hst', rfl, heard⟩ := h
  rcases pass_of_heartbeat hk hid hst hhost hi h with he | ⟨hsame, hlook⟩
  · obtain ⟨hs, hf⟩ := Prod.ext_iff.mp he
    exact Prod.ext (Option.some.inj (hs.symm.trans hst')) hf.symm
  · -- what was refused the write was there already
    obtain rfl : st = st' := Option.some.inj (hsame.symm.trans hst')
    unfold Render.beaten
    split
    next hdue =>
      obtain ⟨hlast, hbeat⟩ := heard hdue
      rw [← hlast, hlook]
      rw [hlook] at hbeat
      rw [← hbeat, Function.update_eq_self]
    next => rw [hlook]

/-! ## A living engine -/

/-- The engine's record of the backstop, the target's files, and the last pass. -/
structure Watch where
  st : BackstopState
  files : Tree
  passed : Nat

/-- The backstop beats: what the engine last wrote is on the target, and it has passed
since within an interval of it. -/
structure Beating (c : Context) (g : Nat) (w : Watch) : Prop where
  armed : w.st.armed = true ∧ w.st.fired = false
  /-- Passes are no further apart than what the trigger allows beyond an interval. -/
  interval : ∃ i s b, w.st.intervalS = some i ∧ c.heartbeatS = some s ∧ i + g ≤ s ∧
    w.st.lastHeartbeat = some ⟨b⟩ ∧ w.files (c.file "heartbeat") = some (epoch b) ∧ w.passed ≤ b + i
  deadline : ∀ x, w.files (c.file "deadline") = some x → ∃ d, x = epoch d

section
variable {m : Machine} {c : Context} {g : Nat} {w w' : Watch}

theorem heartbeat_ne_deadline : c.file "heartbeat" ≠ c.file "deadline" := by
  rw [Ne, file_inj]
  decide

/-- While it beats and no deadline has passed, a run of the artifact does nothing. -/
theorem Beating.still (hb : Beating c g w) {t : Nat} {l : Lock} {f : Tree} (hlate : t ≤ w.passed + g)
    (hahead : ∀ d, w.files (c.file "deadline") = some (epoch d) → t < d)
    (hrun : (firing m c t l).Cut w.files f) : f = w.files := by
  rcases firing_cut hrun with h | ⟨-, hdue, -, -⟩
  · exact h
  · obtain ⟨i, s, b, -, hs, hroom, -, hbeat, hpassed⟩ := hb.interval
    rcases (due_iff hbeat hb.deadline).mp hdue with ⟨-, d, hd, hle⟩ | ⟨s', hs', hold⟩
    · have := hahead d hd
      omega
    · cases hs.symm.trans hs'
      omega

/-- A pass keeps it beating. -/
theorem Beating.beaten (hb : Beating c g w) (t : Nat) :
    Beating c g ⟨(beaten c ⟨t⟩ w.st w.files).1, (beaten c ⟨t⟩ w.st w.files).2, t⟩ := by
  obtain ⟨i, s, b, hi, hs, hroom, hlast, hbeat, hpassed⟩ := hb.interval
  have hdue : heartbeatDue ⟨t⟩ w.st = decide (b + i ≤ t) := by
    simp [heartbeatDue, hb.armed.1, hb.armed.2, hi, hlast]
  unfold Render.beaten
  by_cases hle : b + i ≤ t
  · rw [if_pos (hdue.trans (decide_eq_true hle))]
    refine ⟨hb.armed, ⟨i, s, t, hi, hs, hroom, rfl, Function.update_self .., Nat.le_add_right t i⟩, ?_⟩
    intro x hx
    have hkept : Function.update w.files (c.file "heartbeat") (some (epoch t)) (c.file "deadline") =
        w.files (c.file "deadline") := Function.update_of_ne (Ne.symm heartbeat_ne_deadline) ..
    exact hb.deadline x (hkept.symm.trans hx)
  · rw [if_neg fun h => hle (of_decide_eq_true (hdue.symm.trans h))]
    exact ⟨hb.armed, ⟨i, s, b, hi, hs, hroom, hlast, hbeat, by dsimp; omega⟩, hb.deadline⟩

end

/-! ## Half a minute -/

namespace HalfMinute

/-- An artifact that acts when a heartbeat is older than thirty seconds. -/
def context : Context := { OneFile.context .clobber with deadline := false, heartbeatS := some 30 }

/-- Armed, with a heartbeat every ten seconds, and the first written at 100. -/
def armed : Watch where
  st := { host := "h", artifact := "artifact.sh", scheduler := "cron", installed := true, armed := true
          deadline := none, heartbeatS := some 30, intervalS := some 10, lastHeartbeat := some ⟨100⟩
          confirmed := false, fired := false }
  files := Function.update (Function.update (OneFile.files "new") (context.file "deadline") none)
    (context.file "heartbeat") (some (epoch 100))
  passed := 100

/-- A minute after it was armed, after passes at 115 and 130. -/
def later : Watch :=
  let a : Watch := ⟨(beaten context ⟨115⟩ armed.st armed.files).1, (beaten context ⟨115⟩ armed.st armed.files).2, 115⟩
  ⟨(beaten context ⟨130⟩ a.st a.files).1, (beaten context ⟨130⟩ a.st a.files).2, 130⟩

end HalfMinute

end Rescind.Render
