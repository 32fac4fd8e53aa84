/-
# `Rescind.Safety.Targets` — a target the outside keeps

The engine knows the files of an instance directory on a target by what the outside says
of them.  `Keeping` is an outside that says what is so: a file it says was replaced is,
one it says it read is there and one it could not read is not, and what the engine asks
at home moves none.  So it is over `local()`; over ssh a read may fail for other reasons.

    a reading of one file                                 (`Keeping.hasFile`)
    the store and the journal are beside the target       (`keeps_log`, `keeps_persist`)
-/
import Rescind.Engine.Verbs
import Rescind.Safety.Firings

namespace Rescind.Render

open Lib Lib.Prog

/-- A query the engine puts to its own store, clock and sinks. -/
def atHome : Query → Bool
  | .now | .nonce | .write _ | .read _ | .sign _ | .deliver _ => true
  | _ => false

/-- The outside keeps the files of an instance directory on a host of the site. -/
structure Keeping {σ : Type} (E : Setting σ) (c : Context) (host : Host) (look : σ → Tree) : Prop where
  replaced : ∀ {k k' : σ} {i : Nat} {rel : String} {bytes : Bytes},
    E.outside.answer k (.replaceFile i host c.inst.id rel bytes) = (some (.ok ()), k') →
      look k' = Function.update (look k) (c.file rel) (some (Bytes.lossy bytes))
  refused : ∀ {k k' : σ} {i : Nat} {rel : String} {bytes : Bytes} {e : String},
    E.outside.answer k (.replaceFile i host c.inst.id rel bytes) = (some (.error e), k') → look k' = look k
  got : ∀ {k k' : σ} {i : Nat} {rel : String} {a : Except String Bytes},
    E.outside.answer k (.getFile i host c.inst.id rel) = (some a, k') →
      look k' = look k ∧ a.toOption.isSome = (look k (c.file rel)).isSome
  home : ∀ {k : σ} {q : Query}, atHome q = true → look (E.outside.answer k q).2 = look k

/-- The record in hand, the inventory and the target's files are as they were. -/
structure Beside {σ : Type} (look : σ → Tree) (w w' : World σ) : Prop where
  hand : w'.hand = w.hand
  hosts : w'.hosts = w.hosts
  files : look w'.out = look w.out

section
variable {σ ε : Type} {E : Setting σ} {c : Context} {host : Host} {look : σ → Tree} {w w' : World σ}

instance : Std.Refl (Beside look) := ⟨fun _ => ⟨rfl, rfl, rfl⟩⟩

instance : IsTrans (World σ) (Beside look) :=
  ⟨fun _ _ _ h h' => ⟨h'.hand.trans h.hand, h'.hosts.trans h.hosts, h'.files.trans h.files⟩⟩

theorem ask_said {q : Query} {a : Reply q} (h : (ask E q : Prog (World σ) ε (Reply q)) w = (.ok a, w')) :
    E.outside.answer w.out q = (some a, w'.out) ∧ w' = { w with out := w'.out } := by
  unfold ask at h
  rcases hq : E.outside.answer w.out q with ⟨_ | y, o⟩ <;> rw [hq] at h <;> cases h
  exact ⟨rfl, rfl⟩

theorem keeps_atHome (hk : Keeping E c host look) {q : Query} (hq : atHome q = true) :
    Keeps (Beside look) True True (ask E q : Prog (World σ) ε (Reply q)) := by
  intro w
  have hhome := hk.home (k := w.out) hq
  unfold ask
  rcases ha : E.outside.answer w.out q with ⟨_ | a, o⟩ <;> rw [ha] at hhome
  · exact ⟨⟨rfl, rfl, hhome⟩, trivial⟩
  · exact ⟨⟨rfl, rfl, hhome⟩, trivial⟩

theorem keeps_persist (hk : Keeping E c host look) : Keeps (Beside look) True True (persist E) := by
  refine Keeps.bind (Keeps.read _) fun r => Keeps.bind (Keeps.bind (keeps_atHome hk rfl) fun a => ?_) fun _ =>
    Keeps.edit fun w => ⟨rfl, rfl, rfl⟩
  cases a with
  | ok u => exact Keeps.pure _
  | error e => exact Keeps.fail _

theorem keeps_keepEntry (hk : Keeping E c host look) (e : Entry) :
    Keeps (Beside look) True True (keepEntry E e) := by
  refine Keeps.bind (keeps_atHome hk rfl) fun a => ?_
  cases a with
  | error why => exact Keeps.fail _
  | ok u =>
      refine Keeps.bind (keeps_atHome hk rfl) fun b => ?_
      cases b with
      | error why => exact Keeps.fail _
      | ok u => exact Keeps.edit fun w => ⟨rfl, rfl, rfl⟩

theorem keeps_log (hk : Keeping E c host look) (ev : J) : Keeps (Beside look) True True (log E ev) := by
  refine Keeps.bind (Keeps.read _) fun r => Keeps.bind (keeps_atHome hk rfl) fun at_ =>
    Keeps.bind (keeps_keepEntry hk _) fun _ => Keeps.bind (keeps_atHome hk rfl) fun refusals => ?_
  refine Keeps.ite (Keeps.pure _) ?_
  exact Keeps.bind (keeps_keepEntry hk _) fun _ => Keeps.bind (keeps_atHome hk rfl) fun _ =>
    Keeps.fail _

/-- A reading of one file tells whether it is there. -/
theorem Keeping.hasFile (hk : Keeping E c host look) {i : Nat} {rel : String} {b : Bool}
    (h : hasFile E i host c.inst.id rel w = (.ok b, w')) :
    b = (look w.out (c.file rel)).isSome ∧ Beside look w w' := by
  obtain ⟨a, w₁, ha, h⟩ := bind_ok_inv h
  obtain ⟨hans, hw₁⟩ := ask_said ha
  obtain ⟨hlook, hsome⟩ := hk.got hans
  have hb : Beside look w w₁ := by
    rw [hw₁]
    exact ⟨rfl, rfl, hlook⟩
  rw [← hsome]
  cases a with
  | ok bytes => cases h; exact ⟨rfl, hb⟩
  | error e => cases h; exact ⟨rfl, hb⟩

end

end Rescind.Render
