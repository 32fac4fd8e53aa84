/-
# `Rescind.Turn.Acceptors` — the engine's dealings with the acceptors

What each of the engine's operations may tell of the acceptors, and that it
forgets neither a record nor an entry (`Minds`).

**Proved here.**

    a delivery writes nothing of the secret       (`undisclosed_deliverSecret`)
    it stops at the first acceptor that accepts   (`offering_deliverSecret`)
    what is told is of instances the store knows  (`Sound.minds`)
-/
import Rescind.Turn.Quiet
import Rescind.Turn.Stories

namespace Rescind

open Lib Lib.Prog

variable {τ : Type} {base : Outside τ} {time : τ → Instant}

/-! ## What every run of the engine minds -/

/-- What the acceptors did, besides what is told by `P`, and the store forgets no
instance. -/
structure Minds (P : Happening → Prop) (w w' : World (Keep τ)) : Prop where
  told : w.out.Told → w'.out.Told
  story : ∃ es, w'.out.story = es ++ w.out.story ∧ ∀ e ∈ es, P e
  stored : ∀ j, (w.instances.read j).isSome = true → (w'.instances.read j).isSome = true
  journal : w.journal <+: w'.journal

namespace Minds

variable {P : Happening → Prop}

theorem refl (w : World (Keep τ)) : Minds P w w :=
  ⟨id, ⟨[], rfl, by simp⟩, fun _ => id, List.prefix_refl _⟩

theorem trans {w w' w'' : World (Keep τ)} (h : Minds P w w') (h' : Minds P w' w'') :
    Minds P w w'' where
  told := h'.told ∘ h.told
  story := by
    obtain ⟨es, hs, hP⟩ := h.story
    obtain ⟨es', hs', hP'⟩ := h'.story
    refine ⟨es' ++ es, by rw [hs', hs, List.append_assoc], fun e he => ?_⟩
    exact (List.mem_append.mp he).elim (hP' e) (hP e)
  stored j := h'.stored j ∘ h.stored j
  journal := h.journal.trans h'.journal

instance : Std.Refl (Minds (τ := τ) P) := ⟨refl⟩

instance : IsTrans (World (Keep τ)) (Minds P) := ⟨fun _ _ _ => trans⟩

/-- The acceptors are not asked. -/
theorem of_out {w w' : World (Keep τ)} (ho : w'.out = w.out)
    (hs : ∀ j, (w.instances.read j).isSome = true → (w'.instances.read j).isSome = true)
    (hj : w.journal <+: w'.journal) : Minds P w w' :=
  ⟨fun h => ho ▸ h, ⟨[], by rw [ho]; rfl, by simp⟩, hs, hj⟩

/-- Nothing is told, whatever else happens. -/
theorem silent {w w' : World (Keep τ)} (h : Minds (fun _ => False) w w') :
    w'.out.story = w.out.story := by
  obtain ⟨es, hs, hP⟩ := h.story
  obtain rfl : es = [] := List.eq_nil_iff_forall_not_mem.mpr hP
  exact hs

end Minds

section
variable {E : Setting (Keep τ)} (hE : E.outside = keeping base time) {P : Happening → Prop}
include hE

theorem minds_ask {ε : Type} {q : Query} (hq : ∀ e, Tells q e → P e) :
    Keeps (Minds P) True True (ask E q : Prog (World (Keep τ)) ε (Reply q)) := by
  intro w
  have hm : ∀ up, Minds P w { w with out := (E.outside.answer w.out q).2, up } := by
    intro up
    rw [hE]
    obtain ⟨es, hs, ht⟩ := @story_answer _ base time w.out q
    exact ⟨fun h => Keep.told_answer h q, ⟨es, hs, fun e he => hq e (ht e he)⟩, fun _ => id,
      List.prefix_refl _⟩
  unfold ask
  split
  next r o ha =>
    have h := hm w.up
    rw [ha] at h
    exact ⟨h, trivial⟩
  next o ha =>
    have h := hm false
    rw [ha] at h
    exact ⟨h, trivial⟩

theorem minds_writeOk (sl : Slot) : Keeps (Minds P) True True (writeOk E sl) := by
  refine Keeps.bind (minds_ask hE fun _ => False.elim) fun x => ?_
  cases x with
  | ok u => exact Keeps.pure _
  | error e => exact Keeps.fail _

theorem minds_persist : Keeps (Minds P) True True (persist E) := by
  refine Keeps.readBind fun w => ?_
  refine (Keeps.bind (minds_writeOk hE _) fun _ => Keeps.edit fun w => ?_) w
  refine .of_out rfl (fun j hj => ?_) (List.prefix_refl _)
  rw [Store.read_write]
  split
  · rfl
  · exact hj

theorem minds_keepEntry (e : Entry) : Keeps (Minds P) True True (keepEntry E e) := by
  refine Keeps.bind (minds_ask hE fun _ => False.elim) fun x => ?_
  cases x with
  | error why => exact Keeps.fail _
  | ok u =>
      refine Keeps.bind (minds_ask hE fun _ => False.elim) fun x => ?_
      cases x with
      | error why => exact Keeps.fail _
      | ok u => exact Keeps.edit fun w => .of_out rfl (fun _ => id) (List.prefix_append _ _)

theorem minds_logAbout (r : InstanceRecord) (ev : J) :
    Keeps (Minds P) True True (logAbout E r ev) := by
  refine Keeps.bind (minds_ask hE fun _ => False.elim) fun at_ => ?_
  refine Keeps.bind (minds_keepEntry hE _) fun _ => ?_
  refine Keeps.bind (minds_ask hE fun _ => False.elim) fun refusals => Keeps.ite (Keeps.pure _) ?_
  refine Keeps.bind (minds_keepEntry hE _) fun _ => ?_
  exact Keeps.bind (minds_ask hE fun _ => False.elim) fun _ => Keeps.fail _

theorem minds_log (ev : J) : Keeps (Minds P) True True (log E ev) :=
  Keeps.readBind fun w => minds_logAbout hE w.hand ev w

theorem minds_readInstance (id : String) : Keeps (Minds P) True True (readInstance E id) := by
  refine Keeps.bind ?_ fun _ => Keeps.read _
  refine Keeps.bind (minds_ask hE fun _ => False.elim) fun x => ?_
  cases x with
  | ok u => exact Keeps.pure _
  | error e => exact Keeps.fail _

end

/-! ## A delivery -/

/-- What a delivery to an instance may tell. -/
def Delivers (x : String) : Happening → Prop
  | .offered _ y _ _ | .kept _ y _ _ => y = x
  | _ => False

/-- With the instance in hand, a delivery to it. -/
def MindsAt (x : String) (w w' : World (Keep τ)) : Prop :=
  w.hand.id = x → Minds (Delivers x) w w' ∧ w'.hand.id = x

instance (x : String) : Std.Refl (MindsAt (τ := τ) x) := ⟨fun w hx => ⟨.refl w, hx⟩⟩

instance (x : String) : IsTrans (World (Keep τ)) (MindsAt x) :=
  ⟨fun _ _ _ h h' hx => ⟨(h hx).1.trans (h' (h hx).2).1, (h' (h hx).2).2⟩⟩

theorem MindsAt.keeps {ε α : Type} {x : String} {m : Prog (World (Keep τ)) ε α}
    (hm : Keeps (Minds (Delivers x)) True True m) (hs : Keeps Still True True m) :
    Keeps (MindsAt x) True True m :=
  fun w => ⟨fun hx => ⟨(hm w).1, by rw [(hs w).1.hand, hx]⟩, (hm w).2⟩

/-- The record with a secret nobody took. -/
def flagged (r : InstanceRecord) : InstanceRecord := { r with secretUndelivered := true }

/-- The record in hand is what it was, and nothing else was written. -/
structure WritesHand (w w' : World (Keep τ)) : Prop where
  hand : w'.hand = w.hand
  stored : ∀ j r, w'.instances.read j = some r → w.instances.read j = some r ∨ r = w.hand

instance : Coarse (WritesHand (τ := τ)) where
  refl w := ⟨rfl, fun _ _ => .inl⟩
  trans _ _ _ h h' := ⟨h'.hand.trans h.hand, fun j r hr =>
    (h'.stored j r hr).elim (h.stored j r) fun he => .inr (he.trans h.hand)⟩
  still h := ⟨h.hand, fun j r hr => .inl (by rw [← h.instances]; exact hr)⟩

/-- No record but the one in hand was written, and it says no more than that a
secret was not taken. -/
structure Undisclosed (w w' : World (Keep τ)) : Prop where
  hand : w'.hand = w.hand ∨ w'.hand = flagged w.hand
  stored : ∀ j r, w'.instances.read j = some r → w.instances.read j = some r ∨ r = flagged w.hand

instance : Coarse (Undisclosed (τ := τ)) where
  refl w := ⟨.inl rfl, fun _ _ => .inl⟩
  trans w w' w'' h h' := by
    have hf : flagged w'.hand = flagged w.hand := by
      rcases h.hand with he | he
      · rw [he]
      · rw [he]
        rfl
    refine ⟨?_, fun j r hr => ?_⟩
    · rcases h'.hand with he | he
      · rw [he]
        exact h.hand
      · exact .inr (he.trans hf)
    · exact (h'.stored j r hr).elim (h.stored j r) fun he => .inr (he.trans hf)
  still h := ⟨.inl h.hand, fun j r hr => .inl (by rw [← h.instances]; exact hr)⟩

section
variable {E : Setting (Keep τ)}

theorem writesHand_persist : Keeps (WritesHand (τ := τ)) True True (persist E) := by
  refine Keeps.bind (keeps_hand (X := True)) fun _ => ?_
  refine Keeps.bind (keeps_writeOk E _).anyEnd fun _ => Keeps.edit fun w => ⟨rfl, fun j r hr => ?_⟩
  have hr : (w.instances.write w.hand).read j = some r := hr
  rw [Store.read_write] at hr
  split at hr
  · exact .inr (Option.some.inj hr).symm
  · exact .inl hr

/-- A delivery writes nothing of the secret. -/
theorem undisclosed_deliverSecret (label value : String) :
    Keeps (Undisclosed (τ := τ)) True True (deliverSecret E label value) := by
  have hflag : ∀ w : World (Keep τ), Undisclosed w { w with hand := flagged w.hand } :=
    fun w => ⟨.inr rfl, fun _ _ => .inl⟩
  refine Keeps.bind keeps_hand fun r => ?_
  split
  · exact Keeps.bind (keeps_log E _).anyEnd fun _ => Keeps.edit hflag
  · refine Keeps.bind (keeps_holdBound E _ _ _).anyEnd fun _ => Keeps.bind (keeps_ask (X := True) E _).anyEnd
      fun _ => Keeps.bind (keeps_offerSecret E _ _ _ _ _).anyEnd fun taken => ?_
    cases taken with
    | some acceptor => exact (keeps_log E _).anyEnd
    | none =>
        refine Keeps.bind (keeps_log E _).anyEnd fun _ w => ?_
        obtain ⟨hw, hx⟩ := writesHand_persist (E := E) { w with hand := flagged w.hand }
        exact ⟨⟨.inr hw.hand, hw.stored⟩, hx⟩

end

/-- What follows an acceptor's answer. -/
def afterOffer (E : Setting (Keep τ)) (label value : String) (now : Instant)
    (until_ : Option Instant) (name : String) (rest : List (String × Nat)) :
    Except String Bool → Eng (Keep τ) (Option String)
  | .ok true => Pure.pure (some name)
  | .ok false => offerSecret E label value now until_ rest
  | .error e => do
      log E (.secretDropped label ("R0302: " ++ name ++ ": " ++ e))
      offerSecret E label value now until_ rest

theorem offerSecret_cons (E : Setting (Keep τ)) (label value : String) (now : Instant)
    (until_ : Option Instant) (ni : String × Nat) (rest : List (String × Nat))
    (w : World (Keep τ)) :
    offerSecret E label value now until_ (ni :: rest) w =
      (ask E (.offer ni.2 w.hand.id label value now until_) >>=
        afterOffer E label value now until_ ni.1 rest) w := by
  refine congrFun (congrArg (ask E _ >>= ·) (funext fun y => ?_)) w
  match y with
  | .ok true => rfl
  | .ok false => rfl
  | .error e => rfl

section
variable {E : Setting (Keep τ)} (hE : E.outside = keeping base time)
include hE

theorem mindsAt_log (x : String) (ev : J) : Keeps (MindsAt x) True True (log E ev) :=
  MindsAt.keeps (minds_log hE ev) (keeps_log E ev).anyEnd

theorem mindsAt_offerSecret (x label value : String) (now : Instant) (until_ : Option Instant)
    (acceptors : List (String × Nat)) :
    Keeps (MindsAt x) True True (offerSecret E label value now until_ acceptors) := by
  induction acceptors with
  | nil => exact Keeps.pure none
  | cons ni rest ih =>
      refine Keeps.ofState fun w hx => ?_
      have hask : Keeps (MindsAt x) True True
          (ask E (.offer ni.2 x label value now until_) : Eng (Keep τ) _) := by
        refine MindsAt.keeps (minds_ask hE fun e he => ?_) (keeps_ask (X := True) E _).anyEnd
        cases e <;> first | exact he.2 | exact he.elim
      subst hx
      rw [offerSecret_cons]
      refine (Keeps.bind hask (fun y => ?_) w).1 rfl
      match y with
      | .ok true => exact Keeps.pure _
      | .ok false => exact ih
      | .error e => exact Keeps.bind (mindsAt_log hE _ _) fun _ => ih

theorem mindsAt_deliverSecret (x label value : String) :
    Keeps (MindsAt x) True True (deliverSecret E label value) := by
  have hedit : ∀ f : InstanceRecord → InstanceRecord, (∀ r, (f r).id = r.id) →
      Keeps (MindsAt x) True True (setHand f : Eng (Keep τ) Unit) := by
    intro f hf
    refine Keeps.edit fun w hx => ⟨.of_out rfl (fun _ => id) (List.prefix_refl _), ?_⟩
    exact (hf w.hand).trans hx
  have hnow : Keeps (MindsAt x) True True (ask E .now : Eng (Keep τ) _) :=
    MindsAt.keeps (minds_ask hE fun _ => False.elim) (keeps_ask (X := True) E _).anyEnd
  refine Keeps.bind (Keeps.read _) fun r => ?_
  split
  · exact Keeps.bind (mindsAt_log hE x _) fun _ => hedit _ fun _ => rfl
  · refine Keeps.bind (Keeps.ite (Keeps.bind hnow fun _ => Keeps.pure _) (Keeps.pure _)) fun _ => ?_
    refine Keeps.bind hnow fun now => Keeps.bind (mindsAt_offerSecret hE x _ _ _ _ _) fun taken => ?_
    cases taken with
    | some acceptor => exact mindsAt_log hE x _
    | none =>
        refine Keeps.bind (mindsAt_log hE x _) fun _ => Keeps.bind (hedit _ fun _ => rfl) fun _ => ?_
        exact fun w => ⟨fun hx => ⟨(minds_persist hE w).1,
          (congrArg InstanceRecord.id (writesHand_persist w).1.hand).trans hx⟩, (minds_persist hE (P := fun _ => True) w).2⟩

end

/-! ## The first that accepts -/

/-- Offers made from the `i`-th acceptor on, one after the other, until one
accepts. -/
def Offering (x label : String) : Nat → List Happening → Prop
  | _, [] => True
  | i, e :: es => ∃ took, e = .offered i x label took ∧
      if took then es = [] else Offering x label (i + 1) es

/-- The offers told, the oldest first. -/
def offers (es : List Happening) : List Happening := (es.filter Happening.isOffer).reverse

theorem offers_append (es es' : List Happening) : offers (es' ++ es) = offers es ++ offers es' := by
  simp [offers]

theorem offering_one (x label : String) (i : Nat) (took : Bool) :
    Offering x label i [.offered i x label took] := by
  refine ⟨took, rfl, ?_⟩
  cases took with
  | true => exact if_pos rfl ▸ rfl
  | false => trivial

/-- An offer is told with its answer. -/
theorem offers_offer (k : Keep τ) (ask : Option (Except String Bool) × τ) (i : Nat)
    (x label value : String) (now : Instant) (until_ : Option Instant) :
    ∃ es took, (k.offer ask i x label value now until_).2.story = es ++ k.story ∧
      offers es = [.offered i x label took] ∧
      ∀ r, (k.offer ask i x label value now until_).1 = some r → (took = true ↔ r = .ok true) := by
  unfold Keep.offer
  split
  · next m _ =>
    refine ⟨[_], m.attached, rfl, rfl, fun r hr => ?_⟩
    obtain rfl := Option.some.inj hr
    simp
  · refine ⟨[_, _], true, rfl, rfl, fun r hr => ?_⟩
    obtain rfl := Option.some.inj hr
    exact iff_of_true rfl rfl
  · refine ⟨[_], _, rfl, rfl, fun r hr => ?_⟩
    have hr : ask.1 = some r := hr
    rw [hr]
    simp

section
variable {E : Setting (Keep τ)} (hE : E.outside = keeping base time)
include hE

/-- The journal tells nothing of the acceptors. -/
theorem story_log (ev : J) (w : World (Keep τ)) :
    (log E ev w).2.out.story = w.out.story ∧ (log E ev w).2.hand = w.hand :=
  ⟨(minds_log hE ev w).1.silent, (keeps_log (R := Still) E ev w).1.hand⟩

theorem offering_offerSecret (label value : String) (now : Instant) (until_ : Option Instant)
    (names : List String) (n : Nat) (w : World (Keep τ)) :
    ∃ es, (offerSecret E label value now until_ (names.zipIdx n) w).2.out.story =
      es ++ w.out.story ∧ Offering w.hand.id label n (offers es) := by
  induction names generalizing n w with
  | nil => exact ⟨[], rfl, trivial⟩
  | cons name names ih =>
      rw [List.zipIdx_cons]
      obtain ⟨es, took, hs, ho, ht⟩ := offers_offer w.out
        (base.answer w.out.rest (.offer n w.hand.id label value now until_)) n w.hand.id label value
        now until_
      have hone : Offering w.hand.id label n (offers es) := ho ▸ offering_one _ _ _ _
      -- the offers that follow one that was not accepted
      have hnext : ∀ w' : World (Keep τ), w'.hand.id = w.hand.id → w'.out.story = es ++ w.out.story →
          took = false → ∃ es', (offerSecret E label value now until_ (names.zipIdx (n + 1)) w').2.out.story =
            es' ++ w.out.story ∧ Offering w.hand.id label n (offers es') := by
        intro w' hid hs' hf
        obtain ⟨es', he', ht'⟩ := ih (n + 1) w'
        refine ⟨es' ++ es, by rw [he', hs', List.append_assoc], ?_⟩
        rw [offers_append, ho, hf]
        exact ⟨false, rfl, hid ▸ ht'⟩
      have hans : E.outside.answer w.out (.offer n w.hand.id label value now until_) =
          w.out.offer (base.answer w.out.rest (.offer n w.hand.id label value now until_)) n
            w.hand.id label value now until_ := by rw [hE]; rfl
      rcases hr : w.out.offer (base.answer w.out.rest (.offer n w.hand.id label value now until_)) n
        w.hand.id label value now until_ with ⟨r, o⟩
      rw [hr] at hs ht hans
      cases r with
      | none =>
          have hrun := (offerSecret_cons E label value now until_ (name, n)
            (names.zipIdx (n + 1)) w).trans (ask_bind_none E hans _)
          rw [hrun]
          exact ⟨es, hs, hone⟩
      | some r =>
          have hrun := (offerSecret_cons E label value now until_ (name, n)
            (names.zipIdx (n + 1)) w).trans (ask_bind_some E hans _)
          rw [hrun]
          match r with
          | .ok true => exact ⟨es, hs, hone⟩
          | .ok false =>
              have hf : took = false := by simpa using (ht _ rfl).mp
              exact hnext _ rfl hs hf
          | .error e =>
              have hf : took = false := by simpa using (ht _ rfl).mp
              obtain ⟨hls, hlh⟩ := story_log hE (.secretDropped label ("R0302: " ++ name ++ ": " ++ e))
                { w with out := o }
              show ∃ es', ((log E _ >>= fun _ => offerSecret E label value now until_ _)
                { w with out := o }).2.out.story = _ ∧ _
              rw [bind_eq]
              rcases hl : log E (.secretDropped label ("R0302: " ++ name ++ ": " ++ e))
                { w with out := o } with ⟨res, w'⟩
              rw [hl] at hls hlh
              cases res with
              | ok u => exact hnext w' (congrArg InstanceRecord.id hlh) (hls.trans hs) hf
              | err e => exact ⟨es, hls.trans hs, hone⟩
              | died => exact ⟨es, hls.trans hs, hone⟩

/-- A delivery offers the secret to one acceptor after the other, and stops at
the first that accepts. -/
theorem offering_deliverSecret (label value : String) (w : World (Keep τ)) :
    ∃ es, (deliverSecret E label value w).2.out.story = es ++ w.out.story ∧
      Offering w.hand.id label 0 (offers es) := by
  let Q : Res EngineError Unit → World (Keep τ) → Prop := fun _ w' =>
    ∃ es, w'.out.story = es ++ w.out.story ∧ Offering w.hand.id label 0 (offers es)
  have hquiet : ∀ {w' w''}, Q (.ok ()) w' → Minds (fun _ => False) w' w'' → Q (.ok ()) w'' := by
    rintro w' w'' ⟨es, hs, ht⟩ hm
    exact ⟨es, hm.silent.trans hs, ht⟩
  have hstart : Q (.ok ()) w := ⟨[], rfl, trivial⟩
  have hedit : ∀ f, Keeps (Minds fun _ => False) True True (setHand f : Eng (Keep τ) Unit) :=
    fun f => Keeps.edit fun w => .of_out rfl (fun _ => id) (List.prefix_refl _)
  have hnow : Keeps (Minds fun _ => False) True True (ask E .now : Eng (Keep τ) _) :=
    minds_ask hE fun _ => False.elim
  have hbound : ∀ p m d, Keeps (Minds fun _ => False) True True (holdBound E p m d) :=
    fun p m d => Keeps.ite (Keeps.bind hnow fun _ => Keeps.pure _) (Keeps.pure _)
  show Post (deliverSecret E label value) Q w
  refine Post.readBind ?_
  split
  · refine Post.keeps (R := Minds fun _ => False) (X := True) (F := True) ?_ fun _ w' hm => hquiet hstart hm
    exact Keeps.bind (minds_log hE _) fun _ => hedit _
  · refine Post.bind (P := fun _ w' => w'.hand.id = w.hand.id ∧ Minds (fun _ => False) w w')
      ⟨?_, (hbound _ _ _ w).1⟩ ?_ (fun e w' h => hquiet hstart h.2) fun w' h => hquiet hstart h.2
    · exact congrArg InstanceRecord.id (keeps_holdBound (R := Still) E _ _ _ w).1.hand
    rintro until_ w₁ ⟨hid, hm⟩
    refine Post.bind (P := fun _ w' => w'.hand.id = w.hand.id ∧ Minds (fun _ => False) w w')
      ⟨?_, hm.trans (hnow w₁).1⟩ ?_ (fun e w' h => hquiet hstart h.2) fun w' h => hquiet hstart h.2
    · exact (congrArg InstanceRecord.id (keeps_ask (R := Still) (X := True) E .now w₁).1.hand).trans hid
    rintro now w₂ ⟨hid, hm⟩
    have hoffer : Post (offerSecret E label value now until_ E.acceptors.zipIdx) (fun _ => Q (.ok ())) w₂ := by
      obtain ⟨es, hs, ht⟩ := offering_offerSecret hE label value now until_ E.acceptors 0 w₂
      exact ⟨es, by rw [hs, hm.silent], hid ▸ ht⟩
    refine Post.bind hoffer (fun taken w₃ h => ?_) (fun e w' h => h) fun w' h => h
    cases taken with
    | some acceptor => exact Post.keeps (minds_log (P := fun _ => False) hE _) fun _ w' hm => hquiet h hm
    | none =>
        refine Post.keeps (R := Minds fun _ => False) (X := True) (F := True) ?_ fun _ w' hm => hquiet h hm
        exact Keeps.bind (minds_log hE _) fun _ => Keeps.bind (hedit _) fun _ => minds_persist hE

end

/-! ## Giving up -/

/-- What a drop may tell. -/
def Gives : Happening → Prop
  | .dropped .. => True
  | _ => False

/-- What `reveal` may tell. -/
def Takes : Happening → Prop
  | .taken .. => True
  | _ => False

section
variable {E : Setting (Keep τ)} (hE : E.outside = keeping base time)
include hE

theorem minds_dropSecrets (reason : String) : Keeps (Minds Gives) True True (dropSecrets E reason) := by
  refine Keeps.bind (Keeps.read _) fun r => ?_
  refine Keeps.bind (Keeps.loop _ (fun i _ => Keeps.bind (minds_ask hE fun e he => ?_)
    fun _ => Keeps.pure _) _) fun dropped => Keeps.loop _ (fun _ _ => minds_log hE _) _
  cases e <;> trivial

theorem minds_journalDropped {P : Happening → Prop} (gone : List (String × String))
    (reason : String) : Keeps (Minds P) True True (journalDropped E gone reason) := by
  refine Keeps.loop _ (fun (g : String × String) _ => Keeps.bind (Keeps.attempt (minds_readInstance hE g.1)) fun x => ?_) _
  match x with
  | .ok (some r) => exact minds_logAbout hE r _
  | .ok none => exact Keeps.pure ()
  | .error e => exact Keeps.pure ()

theorem minds_expireSecrets : Keeps (Minds Gives) True True (expireSecrets E) := by
  refine Keeps.bind (minds_ask hE fun _ => False.elim) fun now => ?_
  refine Keeps.bind (Keeps.loop _ (fun i _ => Keeps.bind (minds_ask hE fun e he => ?_)
    fun _ => Keeps.pure _) _) fun gone => minds_journalDropped hE _ _
  cases e <;> trivial

theorem minds_dropSecretsAtBoot : Keeps (Minds Gives) True True (dropSecretsAtBoot E) := by
  refine Keeps.bind (Keeps.loop _ (fun i _ => Keeps.bind (minds_ask hE fun e he => ?_)
    fun _ => Keeps.pure _) _) fun gone => minds_journalDropped hE _ _
  cases e <;> trivial

theorem minds_takeFrom (id name : String) (i : Nat) :
    Keeps (Minds Takes) True True (takeFrom E id name i) := by
  refine Keeps.bind (minds_ask hE fun e he => ?_) fun x => ?_
  · cases e <;> trivial
  · match x with
    | some (label, value) => exact Keeps.bind (minds_log hE _) fun _ => Keeps.pure _
    | none => exact Keeps.pure _

theorem minds_reveal (id : String) : Keeps (Minds Takes) True True (reveal E id) := by
  refine Keeps.bind (Keeps.bind (minds_readInstance hE id) fun x => ?_) fun _ =>
    Keeps.search _ fun a => minds_takeFrom hE id a.1 a.2
  cases x with
  | some r => exact Keeps.edit fun w => .of_out rfl (fun _ h => h) (List.prefix_refl _)
  | none => exact Keeps.fail _

end

/-! ## Whose secrets -/

/-- What a story leaves kept, it told of. -/
theorem mem_of_heldAfter {key : Nat × String} {k : Kept} {es : List Happening}
    (h : heldAfter key es = some k) : ∃ e ∈ es, e.key = some key := by
  induction es with
  | nil => cases h
  | cons e es ih =>
      rw [heldAfter] at h
      by_cases hk : e.key = some key
      · exact ⟨e, List.mem_cons_self, hk⟩
      · rw [if_neg hk] at h
        obtain ⟨e', he', hk'⟩ := ih h
        exact ⟨e', List.mem_cons_of_mem _ he', hk'⟩

/-- What is given up was accepted, for an instance of which that was known. -/
theorem about_of_consistent {S : String → Prop} {es story : List Happening}
    (hc : Consistent (es ++ story)) (hs : ∀ e ∈ story, ∀ key, e.key = some key → S key.2)
    (hes : ∀ e ∈ es, ∀ key, e.key = some key → S key.2 ∨ e.before.isSome = true) :
    ∀ e ∈ es ++ story, ∀ key, e.key = some key → S key.2 := by
  induction es with
  | nil => exact hs
  | cons e es ih =>
      have ih := ih hc.1 fun e' he' => hes e' (List.mem_cons_of_mem _ he')
      intro e' he' key hk
      rcases List.mem_cons.mp he' with rfl | he'
      · rcases hes e' List.mem_cons_self key hk with h | h
        · exact h
        · obtain ⟨k, hb⟩ := Option.isSome_iff_exists.mp h
          obtain ⟨e'', he'', hk'⟩ := mem_of_heldAfter ((hc.2 key hk).symm.trans hb)
          exact ih e'' he'' key hk'
      · exact ih e' he' key hk

/-- The story tells what is kept, all of it for instances the store knows. -/
structure Sound (w : World (Keep τ)) : Prop where
  told : w.out.Told
  stored : ∀ e ∈ w.out.story, ∀ key, e.key = some key →
    (w.instances.read key.2).isSome = true

theorem Sound.minds {P : Happening → Prop} {w w' : World (Keep τ)} (h : Sound w) (hm : Minds P w w')
    (hP : ∀ e, P e → ∀ key, e.key = some key →
      (w.instances.read key.2).isSome = true ∨ e.before.isSome = true) : Sound w' := by
  have ht := hm.told h.told
  obtain ⟨es, hs, hes⟩ := hm.story
  refine ⟨ht, ?_⟩
  rw [hs]
  refine about_of_consistent (S := fun x => (w'.instances.read x).isSome = true)
    (hs ▸ ht.consistent) (fun e he key hk => ?_) fun e he key hk => ?_
  · exact hm.stored _ (h.stored e he key hk)
  · exact (hP e (hes e he) key hk).imp_left (hm.stored _)

end Rescind
