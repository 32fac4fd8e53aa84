/-
# `Rescind.Safety.Hooks` — the registry and the connections still open

A name no connection is about to register or to deregister is served by the most
recent registration that was answered ok and whose connection is open, in runs
where no registration is refused while it stands and no name is deregistered while
an open connection has it (`Undisputed`).

**Proved here.**

    a hook in the registry is one a declared registrar may register  (`registrars_only`)
    undisputed runs keep the registry as the roster has it           (`registry_agrees`)
    closing one connection removes another's registration            (`Restart.loses_hook`)

A step here is one thread's between two locks of the registry.  What a hook is
asked once it is registered is not in it (`Rescind.Control.Link`).
-/
import Rescind.Control.Registry

namespace Rescind.Control

open Lib

namespace Connection

/-- It was answered ok for the name. -/
def has (k : Connection) (name : String) : Bool := k.registered.any fun x => x.1 = name

/-- It is registering the name. -/
def asks (k : Connection) (name : String) : Bool :=
  match k.serving with
  | .registering n _ => n = name
  | _ => false

/-- It ended, and has the name to deregister. -/
def leaves (k : Connection) (name : String) : Bool :=
  match k.serving with
  | .closing left => left.any fun x => x.1 = name
  | _ => false

def isOpen (k : Connection) : Bool :=
  match k.serving with
  | .closing _ => false
  | _ => true

/-- It is open, and serves the name or is registering it. -/
def claims (k : Connection) (name : String) : Bool := k.isOpen && (k.has name || k.asks name)

end Connection

/-- No connection is about to deregister the name. -/
def Retained (cs : Assoc Nat Connection) (name : String) : Prop :=
  ∀ c k, cs.get c = some k → k.leaves name = false

/-- Nor to register it. -/
def Settled (cs : Assoc Nat Connection) (name : String) : Prop :=
  Retained cs name ∧ ∀ c k, cs.get c = some k → k.asks name = false

/-- No open connection serves the name or is registering it. -/
def Unclaimed (cs : Assoc Nat Connection) (name : String) : Prop :=
  ∀ c k, cs.get c = some k → k.claims name = false

/-- The journal refuses a registration only once another has displaced it, and a
connection that ended deregisters only names no open connection has. -/
def Undisputed (s : Watched) : Turn → Prop
  | .journaled c false => ∀ k n rd, s.channel.connections.get c = some k →
      k.serving = .registering n rd → s.channel.hooks.link n ≠ some c
  | .deregister c => ∀ k n rd left, s.channel.connections.get c = some k →
      k.serving = .closing ((n, rd) :: left) → Unclaimed s.channel.connections n
  | _ => True

/-! ## The invariant -/

/-- What the roster says of a connection: it is open, and was answered ok for the
name or is registering it. -/
def Rostered (cs : Assoc Nat Connection) (name : String) (e : Nat × Bool) : Prop :=
  ∃ k, cs.get e.1 = some k ∧ k.isOpen = true ∧
    if e.2 = true then k.has name = true else k.asks name = true

/-- A link in the registry: its connection serves the name, is registering it, or
ended. -/
def Linked (cs : Assoc Nat Connection) (name : String) (l : Nat) : Prop :=
  ∃ k, cs.get l = some k ∧ (k.isOpen = true → k.claims name = true)

/-- The roster and the registry agree on every name nobody is about to deregister. -/
structure Agrees (s : Watched) : Prop where
  rostered : ∀ n, ∀ e ∈ s.roster n, Rostered s.channel.connections n e
  head : ∀ n, Retained s.channel.connections n →
    s.channel.hooks.link n = ((s.roster n).head?).map Prod.fst
  linked : ∀ n l, s.channel.hooks.link n = some l → Linked s.channel.connections n l

section
variable {ops : Operators} {s s' : Watched} {ch ch' : Channel} {t : Turn} {c j : Nat} {n : String}
  {k k' : Connection} {cs : Assoc Nat Connection}

theorem HookRegistry.link_register (h : HookRegistry) (r : Registered) (n : String) :
    (h.register r).link n = if n = r.registration.name then some r.link else h.link n := by
  unfold link register
  rw [Assoc.get_insert]
  split <;> rfl

theorem HookRegistry.link_deregister (h : HookRegistry) (m n : String) :
    (h.deregister m).link n = if n = m then none else h.link n := by
  unfold link deregister
  by_cases hn : n = m
  · rw [if_pos hn, hn, Assoc.get_erase_self]
    rfl
  · rw [if_neg hn, Assoc.get_erase_ne _ hn]

theorem Rostered.insert_ne {e : Nat × Bool} (hr : Rostered cs n e) (hne : e.1 ≠ c) :
    Rostered (cs.insert c k') n e := by
  obtain ⟨k, hg, hrest⟩ := hr
  exact ⟨k, by rw [Assoc.get_insert_ne _ _ hne, hg], hrest⟩

theorem Rostered.claims {e : Nat × Bool} (hr : Rostered cs n e) :
    ∃ k, cs.get e.1 = some k ∧ k.claims n = true := by
  obtain ⟨k, hg, ho, hh⟩ := hr
  refine ⟨k, hg, ?_⟩
  split at hh <;> simp [Connection.claims, ho, hh]

/-- What is rostered stays so, whatever one connection does that keeps it. -/
theorem Rostered.insert {e e' : Nat × Bool} (hr : Rostered cs n e) (hk : cs.get c = some k)
    (he : e'.1 = e.1) (hne : e.1 ≠ c → e' = e)
    (hc : e.1 = c → k.isOpen = true → (if e.2 = true then k.has n = true else k.asks n = true) →
      k'.isOpen = true ∧ if e'.2 = true then k'.has n = true else k'.asks n = true) :
    Rostered (cs.insert c k') n e' := by
  by_cases h : e.1 = c
  · obtain ⟨k₀, hg, ho, hh⟩ := hr
    rw [h, hk] at hg
    cases Option.some.inj hg
    exact ⟨k', by rw [he, h, Assoc.get_insert_self], hc h ho hh⟩
  · rw [hne h]
    exact hr.insert_ne h

theorem Linked.insert {l : Nat} (hl : Linked cs n l) (hk : cs.get c = some k)
    (hc : l = c → k'.isOpen = true → k.isOpen = true ∧ (k.claims n = true → k'.claims n = true)) :
    Linked (cs.insert c k') n l := by
  obtain ⟨k₀, hg, h₀⟩ := hl
  by_cases hlc : l = c
  · rw [hlc, hk] at hg
    cases Option.some.inj hg
    refine ⟨k', by rw [hlc, Assoc.get_insert_self], fun ho => ?_⟩
    obtain ⟨hk₁, hk₂⟩ := hc hlc ho
    exact hk₂ (h₀ hk₁)
  · exact ⟨k₀, by rw [Assoc.get_insert_ne _ _ hlc, hg], h₀⟩

/-- Whether a name is retained, when one connection changes. -/
theorem Retained.of_insert (h : Retained (cs.insert c k') n)
    (hc : ∀ k, cs.get c = some k → k'.leaves n = false → k.leaves n = false) : Retained cs n := by
  intro j k hg
  by_cases hj : j = c
  · subst hj
    exact hc k hg (h j k' (Assoc.get_insert_self _ _ _))
  · exact h j k (by rw [Assoc.get_insert_ne _ _ hj, hg])

/-! ## Every undisputed step keeps it -/

theorem rostered_of_taken {ρ : Roster} (ht : Taken ops ch t ch')
    (h : ∀ n, ∀ e ∈ ρ n, Rostered ch.connections n e) :
    ∀ n, ∀ e ∈ ρ.step ops ch t n, Rostered ch'.connections n e := by
  intro n e he
  cases ht with
  | opened hk =>
      refine (h n e he).insert_ne fun hc => ?_
      obtain ⟨k, hg, -⟩ := h n e he
      rw [hc, hk] at hg
      cases hg
  | refused hk ha =>
      simp only [Roster.step, hk, ha] at he
      exact h n e he
  | @registered c k r rd hk hr ha =>
      have kept : ∀ e ∈ ρ n, Rostered (ch.connections.insert c
          { k with serving := .registering r.name rd.name }) n e := fun e he =>
        (h n e he).insert hk rfl (fun _ => rfl) fun _ _ hh => by
          refine ⟨rfl, ?_⟩
          split at hh
          next he₂ => rw [if_pos he₂]; exact hh
          next => simp [Connection.asks, hr] at hh
      simp only [Roster.step, hk, ha] at he
      split at he
      next hn =>
        rcases List.mem_cons.mp he with rfl | he
        · exact ⟨_, Assoc.get_insert_self _ _ _, rfl, by simp [Connection.asks, hn]⟩
        · exact kept e he
      next => exact kept e he
  | @took c k m rd hk hr =>
      obtain ⟨e₀, he₀, rfl⟩ := List.mem_map.mp he
      by_cases hc : e₀.1 = c
      · rw [if_pos hc]
        refine (h n e₀ he₀).insert hk hc.symm (fun hne => absurd hc hne) fun _ _ hh => ⟨rfl, ?_⟩
        rw [if_pos rfl]
        split at hh
        · simp only [Connection.has, List.any_append, Bool.or_eq_true]
          exact .inl hh
        · have hm : m = n := by simpa [Connection.asks, hr] using hh
          simp [Connection.has, hm]
      · rw [if_neg hc]
        exact (h n e₀ he₀).insert_ne hc
  | @denied c k m rd hk hr =>
      obtain ⟨he, hne⟩ := List.mem_filter.mp he
      refine (h n e he).insert hk rfl (fun _ => rfl) fun hc _ hh => ⟨rfl, ?_⟩
      have h₂ : e.2 = true := by
        by_contra h₂
        exact of_decide_eq_true hne (Prod.ext hc (by simpa using h₂))
      rw [if_pos h₂] at hh ⊢
      exact hh
  | @closed c k hk hr =>
      obtain ⟨he, hne⟩ := List.mem_filter.mp he
      exact (h n e he).insert_ne (by simpa using hne)
  | @deregistered c k m rd left hk hr =>
      refine (h n e he).insert hk rfl (fun _ => rfl) fun _ ho _ => ?_
      simp [Connection.isOpen, hr] at ho

theorem linked_of_taken {ρ : Roster} (ht : Taken ops ch t ch')
    (hu : Undisputed ⟨ch, ρ⟩ t)
    (h : ∀ n l, ch.hooks.link n = some l → Linked ch.connections n l) :
    ∀ n l, ch'.hooks.link n = some l → Linked ch'.connections n l := by
  intro n l hl
  cases ht with
  | @opened c peer operator hk =>
      obtain ⟨k, hg, hc⟩ := h n l hl
      have hne : l ≠ c := fun he => by
        rw [he, hk] at hg
        cases hg
      exact ⟨k, by rw [Channel.get_put_ne _ _ hne, hg], hc⟩
  | refused => exact h n l hl
  | @registered c k r rd hk hr ha =>
      rw [show ({ ch.put c _ with hooks := ch.hooks.register (Channel.hook k c r rd) } :
        Channel).hooks.link n = _ from HookRegistry.link_register _ _ _] at hl
      split at hl
      next hn =>
        obtain rfl : c = l := Option.some.inj hl
        exact ⟨_, Assoc.get_insert_self _ _ _, fun _ => by
          simp [Connection.claims, Connection.isOpen, Connection.asks, hn, Channel.hook]⟩
      next =>
        refine (h n l hl).insert hk fun _ _ => ⟨by simp [Connection.isOpen, hr], fun hc => ?_⟩
        have hhas : k.has n = true := by
          simpa [Connection.claims, Connection.isOpen, Connection.asks, hr] using hc
        have hhas' : k.registered.any (fun x => x.1 = n) = true := hhas
        simp [Connection.claims, Connection.isOpen, Connection.has, hhas']
  | @took c k m rd hk hr =>
      refine (h n l hl).insert hk fun _ _ => ⟨by simp [Connection.isOpen, hr], fun hc => ?_⟩
      have hor : k.has n = true ∨ m = n := by
        simpa [Connection.claims, Connection.isOpen, Connection.asks, hr] using hc
      rcases hor with hor | rfl
      · have hany : k.registered.any (fun x => x.1 = n) = true := hor
        simp [Connection.claims, Connection.isOpen, Connection.has, hany]
      · simp [Connection.claims, Connection.isOpen, Connection.has]
  | @denied c k m rd hk hr =>
      refine (h n l hl).insert hk fun hlc _ => ⟨by simp [Connection.isOpen, hr], fun hc => ?_⟩
      have hor : k.has n = true ∨ m = n := by
        simpa [Connection.claims, Connection.isOpen, Connection.asks, hr] using hc
      rcases hor with hor | rfl
      · have hany : k.registered.any (fun x => x.1 = n) = true := hor
        simp [Connection.claims, Connection.isOpen, Connection.has, hany]
      · exact absurd (hlc ▸ hl) (hu k m rd hk hr)
  | @closed c k hk hr =>
      exact (h n l hl).insert hk fun _ ho => by simp [Connection.isOpen] at ho
  | @deregistered c k m rd left hk hr =>
      rw [show ({ ch.put c _ with hooks := ch.hooks.deregister m } : Channel).hooks.link n = _ from
        HookRegistry.link_deregister _ _ _] at hl
      split at hl
      · cases hl
      · exact (h n l hl).insert hk fun _ ho => by simp [Connection.isOpen] at ho

/-- No entry of the roster where no connection claims the name. -/
theorem roster_of_unclaimed {ρ : List (Nat × Bool)} (h : ∀ e ∈ ρ, Rostered cs n e)
    (hu : Unclaimed cs n) : ρ = [] := by
  rw [List.eq_nil_iff_forall_not_mem]
  intro e he
  obtain ⟨k, hg, hk⟩ := (h e he).claims
  rw [hu _ _ hg] at hk
  cases hk

theorem head_of_taken {ρ : Roster} (ht : Taken ops ch t ch') (hu : Undisputed ⟨ch, ρ⟩ t)
    (h : Agrees ⟨ch, ρ⟩) : ∀ n, Retained ch'.connections n →
      ch'.hooks.link n = ((ρ.step ops ch t n).head?).map Prod.fst := by
  intro n hn
  cases ht with
  | @opened c peer operator hk =>
      refine h.head n (hn.of_insert fun k hg => ?_)
      rw [hk] at hg
      cases hg
  | refused hk ha =>
      simp only [Roster.step, hk, ha]
      exact h.head n hn
  | @registered c k r rd hk hr ha =>
      rw [show ({ ch.put c _ with hooks := ch.hooks.register (Channel.hook k c r rd) } :
        Channel).hooks.link n = _ from HookRegistry.link_register _ _ _]
      simp only [Roster.step, hk, ha]
      by_cases he : n = r.name
      · rw [if_pos he, if_pos (show n = (Channel.hook k c r rd).registration.name from he)]
        rfl
      · rw [if_neg he, if_neg (show ¬n = (Channel.hook k c r rd).registration.name from he)]
        refine h.head n (hn.of_insert fun k' hg _ => ?_)
        rw [hk] at hg
        cases hg
        simp [Connection.leaves, hr]
  | @took c k m rd hk hr =>
      have hb : Retained ch.connections n := hn.of_insert fun k' hg _ => by
        rw [hk] at hg
        cases hg
        simp [Connection.leaves, hr]
      show ch.hooks.link n = (((ρ n).map _).head?).map Prod.fst
      rw [List.head?_map, Option.map_map, h.head n hb]
      refine congrFun (congrArg Option.map (funext fun e => ?_)) _
      show e.1 = (if e.1 = c then (c, true) else e).1
      split
      next he => exact he
      next => rfl
  | @denied c k m rd hk hr =>
      have hb : Retained ch.connections n := hn.of_insert fun k' hg _ => by
        rw [hk] at hg
        cases hg
        simp [Connection.leaves, hr]
      have hhead : ch.hooks.link n = ((ρ n).head?).map Prod.fst := h.head n hb
      have hros : ∀ e ∈ ρ n, Rostered ch.connections n e := h.rostered n
      show ch.hooks.link n = (((ρ n).filter _).head?).map Prod.fst
      cases hρ : ρ n with
      | nil => rw [hhead, hρ]; rfl
      | cons e es =>
          have hne : e ≠ (c, false) := by
            rintro rfl
            obtain ⟨k', hg, -, hask⟩ := hros (c, false) (hρ ▸ List.mem_cons_self)
            rw [hk] at hg
            cases hg
            have hm : m = n := by simpa [Connection.asks, hr] using hask
            subst hm
            rw [hρ] at hhead
            exact hu k m rd hk hr hhead
          rw [List.filter_cons_of_pos (by simpa using hne), hhead, hρ]
          rfl
  | @closed c k hk hr =>
      have hc : k.has n = false := hn c _ (Assoc.get_insert_self _ _ _)
      have hb : Retained ch.connections n := hn.of_insert fun k' hg _ => by
        rw [hk] at hg
        cases hg
        simp [Connection.leaves, hr]
      have hself : (ρ n).filter (fun e => e.1 ≠ c) = ρ n := by
        refine List.filter_eq_self.mpr fun e he => ?_
        rw [decide_eq_true_eq]
        rintro rfl
        obtain ⟨k', hg, -, hh⟩ := h.rostered n e he
        rw [hk] at hg
        cases hg
        split at hh
        · rw [hc] at hh
          cases hh
        · simp [Connection.asks, hr] at hh
      show ch.hooks.link n = (((ρ n).filter _).head?).map Prod.fst
      rw [hself]
      exact h.head n hb
  | @deregistered c k m rd left hk hr =>
      rw [show ({ ch.put c _ with hooks := ch.hooks.deregister m } : Channel).hooks.link n = _ from
        HookRegistry.link_deregister _ _ _]
      by_cases he : n = m
      · subst he
        rw [if_pos rfl]
        have hnil : ρ n = [] := roster_of_unclaimed (h.rostered n) (hu k n rd left hk hr)
        show none = ((ρ n).head?).map Prod.fst
        rw [hnil]
        rfl
      · rw [if_neg he]
        refine h.head n (hn.of_insert fun k' hg hl => ?_)
        rw [hk] at hg
        cases hg
        have hany : left.any (fun x => x.1 = n) = false := hl
        simp only [Connection.leaves, hr, List.any_cons, hany, Bool.or_false]
        simpa using Ne.symm he

theorem agrees_step (h : Agrees s) (hu : Undisputed s t) (hs : s.step ops t = some s') :
    Agrees s' := by
  obtain ⟨ch', hch, rfl⟩ := Option.map_eq_some_iff.mp hs
  have ht := taken_of_step hch
  exact ⟨rostered_of_taken ht h.rostered, head_of_taken ht hu h, linked_of_taken ht hu h.linked⟩

theorem agrees_run (h : Watch ops Undisputed s) : Agrees s := by
  induction h with
  | start => exact ⟨fun _ _ => nofun, fun _ _ => rfl, fun _ _ => nofun⟩
  | turn _ hu hs ih => exact agrees_step ih hu hs

/-! ## Who has a hook -/

/-- A connection is opened for the operator its hello is identified as. -/
def Greeted (ops : Operators) (_ : Watched) : Turn → Prop
  | .open_ _ peer operator => ∃ requested o, ops.identify peer requested = .ok o ∧ o.name = operator
  | _ => True

/-- The operator of a connection is declared for its account, or the site declares
none. -/
def Declared (ops : Operators) (k : Connection) : Prop :=
  ∃ o, o.name = k.operator ∧ (o ∈ ops.identities ∧ o.user.matches k.peer = true ∨
    ops.identities = [] ∧ ops.dryRun = true ∧ o = Operators.dryRunOperator)

/-- A hook was registered by a connection whose account is a declared registrar's
that may register it. -/
structure Vouched (ops : Operators) (cs : Assoc Nat Connection) (n : String) (g : Registered) :
    Prop where
  name : g.registration.name = n
  protocol : g.registration.protocol = hookProtocol
  registrar : ∃ k, cs.get g.link = some k ∧ g.connection = k.operator ++ "@" ++ k.peer.describe ∧
    ∃ r ∈ ops.registrars, r.name = g.registrar ∧ r.user.matches k.peer = true ∧ n ∈ r.mayRegister

theorem allowed_of_validate {peer : Peer} {r : Registration} {rd : RegistrarDecl}
    (h : validate ops peer r = .ok rd) : r.protocol = hookProtocol ∧ rd ∈ ops.registrars ∧
      rd.user.matches peer = true ∧ r.name ∈ rd.mayRegister := by
  unfold validate at h
  split at h
  next => cases h
  next hp => exact ⟨not_not.mp hp, Operators.allowed_of_registrarFor h⟩

/-- A connection keeps its peer and its operator, so its hooks stay vouched for. -/
theorem Vouched.insert {g : Registered} (h : Vouched ops cs n g)
    (hk : ∀ k, cs.get c = some k → k'.peer = k.peer ∧ k'.operator = k.operator) :
    Vouched ops (cs.insert c k') n g := by
  obtain ⟨k, hg, hc, r, hr, hn, hm, ha⟩ := h.registrar
  refine ⟨h.name, h.protocol, ?_⟩
  by_cases hl : g.link = c
  · obtain ⟨hp, ho⟩ := hk k (hl ▸ hg)
    exact ⟨k', hl ▸ Assoc.get_insert_self _ _ _, by rw [hp, ho, hc], r, hr, hn, hp ▸ hm, ha⟩
  · exact ⟨k, by rw [Assoc.get_insert_ne _ _ hl, hg], hc, r, hr, hn, hm, ha⟩

/-- It is the peer and the operator of a connection that are declared, whatever it
is doing. -/
theorem Declared.get_insert (h : Declared ops k) (hall : ∀ j k, cs.get j = some k → Declared ops k)
    (hp : k'.peer = k.peer) (ho : k'.operator = k.operator) :
    ∀ j k, (cs.insert c k').get j = some k → Declared ops k := by
  intro j k₀ hg
  by_cases hj : j = c
  · subst hj
    rw [Assoc.get_insert_self] at hg
    cases hg
    obtain ⟨x, hx, hd⟩ := h
    exact ⟨x, hx.trans ho.symm, hp ▸ hd⟩
  · exact hall j k₀ (by rw [← hg, Assoc.get_insert_ne _ _ hj])

theorem declared_of_taken (ht : Taken ops ch t ch') {ρ : Roster} (hgreet : Greeted ops ⟨ch, ρ⟩ t)
    (h : ∀ j k, ch.connections.get j = some k → Declared ops k) :
    ∀ j k, ch'.connections.get j = some k → Declared ops k := by
  cases ht with
  | @opened c peer operator hk =>
      obtain ⟨requested, o, hi, ho⟩ := hgreet
      exact Declared.get_insert (k := { peer, operator }) ⟨o, ho, Operators.matches_of_identify hi⟩ h rfl rfl
  | refused => exact h
  | registered hk | took hk | denied hk | closed hk | deregistered hk =>
      exact Declared.get_insert (h _ _ hk) h rfl rfl

theorem vouched_of_taken (ht : Taken ops ch t ch')
    (h : ∀ n g, ch.hooks.get n = some g → Vouched ops ch.connections n g) :
    ∀ n g, ch'.hooks.get n = some g → Vouched ops ch'.connections n g := by
  -- every step but an opening puts back the connection it took
  have kept : ∀ {c k k' n g}, ch.connections.get c = some k →
      k'.peer = k.peer ∧ k'.operator = k.operator → ch.hooks.get n = some g →
      Vouched ops (ch.connections.insert c k') n g := fun hk hk' hg =>
    (h _ _ hg).insert fun _ h' => Option.some.inj (hk.symm.trans h') ▸ hk'
  intro n g hg
  cases ht with
  | opened hk => exact (h n g hg).insert fun k hk' => nomatch hk.symm.trans hk'
  | refused => exact h n g hg
  | took hk | denied hk | closed hk => exact kept hk ⟨rfl, rfl⟩ hg
  | @registered c k r rd hk hr ha =>
      have hg' : (ch.hooks.insert r.name (Channel.hook k c r rd)).get n = some g := hg
      rw [Assoc.get_insert] at hg'
      split at hg'
      next hn =>
        cases hg'
        subst hn
        obtain ⟨hp, hrd, hm, hmay⟩ := allowed_of_validate ha
        exact ⟨rfl, hp, _, Assoc.get_insert_self _ _ _, rfl, rd, hrd, rfl, hm, hmay⟩
      next => exact kept hk ⟨rfl, rfl⟩ hg'
  | @deregistered c k m rd left hk hr =>
      have hg' : (Assoc.erase ch.hooks m).get n = some g := hg
      by_cases hn : n = m
      · rw [hn, Assoc.get_erase_self] at hg'
        cases hg'
      · rw [Assoc.get_erase_ne _ hn] at hg'
        exact kept hk ⟨rfl, rfl⟩ hg'

/-- **Only a declared registrar has a hook.**  In every run whose connections are
opened for the operator their hello is identified as, each is a declared
operator's, and each hook in the registry was registered by one whose account is a
declared registrar's that may register that name. -/
theorem registrars_only (h : Watch ops (Greeted ops) s) :
    (∀ c k, s.channel.connections.get c = some k → Declared ops k) ∧
      ∀ n g, s.channel.hooks.get n = some g → Vouched ops s.channel.connections n g := by
  induction h with
  | start => exact ⟨fun _ _ => nofun, fun _ _ => nofun⟩
  | turn _ hgreet hs ih =>
      obtain ⟨ch', hch, rfl⟩ := Option.map_eq_some_iff.mp hs
      have ht := taken_of_step hch
      exact ⟨declared_of_taken ht hgreet ih.1, vouched_of_taken ht ih.2⟩

end

/-! ## The registry -/

/-- A step removes no open connection's registration, and leaves none behind that
was answered with an error. -/
structure Spares (s : Watched) (t : Turn) (s' : Watched) : Prop where
  others : ∀ c, t = .deregister c → ∀ n l k, s.channel.hooks.link n = some l →
    s.channel.connections.get l = some k → k.isOpen = true → s'.channel.hooks.link n = some l
  refused : ∀ c, t = .journaled c false → ∀ k n rd, s.channel.connections.get c = some k →
    k.serving = .registering n rd → s'.channel.hooks.link n ≠ some c

/-- **The registry is consistent in undisputed runs.**  A name no connection is
about to register or to deregister is served by the most recent registration of it
that was answered ok and whose connection is open, and by none if there is none; no
step removes an open connection's registration, and none answered with an error is
left. -/
theorem registry_agrees (ops : Operators) {s : Watched} (h : Watch ops Undisputed s) :
    (∀ n, Settled s.channel.connections n → s.channel.hooks.link n = s.roster.serving n) ∧
    ∀ t s', Undisputed s t → s.step ops t = some s' → Spares s t s' := by
  have ha := agrees_run h
  refine ⟨fun n hn => ?_, fun t s' hu hs => ?_⟩
  · have hok : ∀ e ∈ s.roster n, e.2 = true := fun e he => by
      obtain ⟨k, hg, -, hh⟩ := ha.rostered n e he
      by_contra h₂
      rw [if_neg h₂, hn.2 _ _ hg] at hh
      cases hh
    rw [ha.head n hn.1, Roster.serving]
    cases hρ : s.roster n with
    | nil => rfl
    | cons e es =>
        rw [List.find?_cons_of_pos (hok e (hρ ▸ List.mem_cons_self))]
        rfl
  · obtain ⟨ch', hch, rfl⟩ := Option.map_eq_some_iff.mp hs
    have ht := taken_of_step hch
    refine ⟨fun c hc n l k hl hg ho => ?_, fun c hc k n rd hg hr => ?_⟩
    · subst hc
      cases ht with
      | @deregistered _ k' m rd left hk hr =>
          have hne : n ≠ m := by
            rintro rfl
            obtain ⟨k₀, hg₀, hcl⟩ := ha.linked n l hl
            rw [hg] at hg₀
            cases hg₀
            have hno : k.claims n = false := hu k' n rd left hk hr l k hg
            rw [hcl ho] at hno
            cases hno
          show (HookRegistry.deregister _ m).link n = some l
          rw [HookRegistry.link_deregister, if_neg hne]
          exact hl
    · subst hc
      cases ht with
      | denied => exact hu k n rd hg hr

/-! ## A hook that restarts -/

/-- Take the turns one after the other, each where `p` allows it. -/
def Watched.steps (ops : Operators) (p : Watched → Turn → Bool) :
    Watched → List Turn → Option Watched
  | s, [] => some s
  | s, t :: ts => if p s t then (s.step ops t).bind fun s' => s'.steps ops p ts else none

theorem watch_of_steps {ops : Operators} {P : Watched → Turn → Prop} {p : Watched → Turn → Bool}
    (hp : ∀ s t, p s t = true → P s t) {s s' : Watched} {ts : List Turn} (h : Watch ops P s)
    (hs : s.steps ops p ts = some s') : Watch ops P s' := by
  induction ts generalizing s with
  | nil =>
      cases hs
      exact h
  | cons t ts ih =>
      simp only [Watched.steps] at hs
      split at hs
      next ht =>
        obtain ⟨s₁, h₁, hs⟩ := Option.bind_eq_some_iff.mp hs
        exact ih (.turn h (hp s t ht) h₁) hs
      next => cases hs

/-- Whether a turn is undisputed. -/
def Watched.undisputed (s : Watched) : Turn → Bool
  | .journaled c false => match s.channel.connections.get c with
      | some k => match k.serving with
          | .registering n _ => decide (s.channel.hooks.link n ≠ some c)
          | _ => true
      | none => true
  | .deregister c => match s.channel.connections.get c with
      | some k => match k.serving with
          | .closing ((n, _) :: _) => s.channel.connections.all fun x => !x.2.claims n
          | _ => true
      | none => true
  | _ => true

theorem undisputed_of {s : Watched} {t : Turn} (h : s.undisputed t = true) : Undisputed s t := by
  cases t with
  | journaled c took =>
      cases took with
      | true => trivial
      | false =>
          intro k n rd hg hr
          simp only [Watched.undisputed, hg, hr] at h
          exact of_decide_eq_true h
  | deregister c =>
      intro k n rd left hg hr j k' hj
      simp only [Watched.undisputed, hg, hr] at h
      simpa using List.all_eq_true.mp h _ (Assoc.mem_of_get hj)
  | open_ | register | close => trivial

/-- Every settled name is served as the roster has it. -/
def Consistent (s : Watched) : Prop :=
  ∀ n, Settled s.channel.connections n → s.channel.hooks.link n = s.roster.serving n

def Connection.settled (k : Connection) (n : String) : Bool := !k.leaves n && !k.asks n

theorem settled_of_all {cs : Assoc Nat Connection} {n : String}
    (h : (cs.all fun c => c.2.settled n) = true) : Settled cs n := by
  have all : ∀ c k, cs.get c = some k → k.leaves n = false ∧ k.asks n = false := by
    intro c k hg
    have hk : k.settled n = true := List.all_eq_true.mp h _ (Assoc.mem_of_get hg)
    simpa [Connection.settled] using hk
  exact ⟨fun c k hg => (all c k hg).1, fun c k hg => (all c k hg).2⟩

namespace Restart

/-- One registrar, for one hook. -/
def ops : Operators := ⟨[], [⟨"host", .socketOwner, ["actuate"]⟩], true⟩

def peer : Peer := ⟨some "ops", true, some 1000⟩

def actuate : Registration := ⟨"actuate", ["execute"], 1⟩

/-- The hook's new process registers before the old one's connection is closed. -/
def turns : List Turn :=
  [.open_ 1 peer "ops", .register 1 actuate, .journaled 1 true,
    .open_ 2 peer "ops", .register 2 actuate, .journaled 2 true, .close 1, .deregister 1]

/-- The journal refuses the registration. -/
def unjournaled : List Turn := [.open_ 1 peer "ops", .register 1 actuate, .journaled 1 false]

def any (_ : Watched) (_ : Turn) : Bool := true

def reached (ts : List Turn) : Watched := (Watched.steps ops any {} ts).getD {}

theorem watch_reached {ts : List Turn} (h : (Watched.steps ops any {} ts).isSome = true) :
    Watch ops (fun _ _ => True) (reached ts) := by
  obtain ⟨s, hs⟩ := Option.isSome_iff_exists.mp h
  rw [reached, hs]
  exact watch_of_steps (fun _ _ _ => trivial) .start hs

/-- The close of the old connection removes the new one's hook, and a registration
answered with an error stays in the registry. -/
theorem loses_hook :
    (Watch ops (fun _ _ => True) (reached turns) ∧
      (reached turns).channel.hooks.link "actuate" = none ∧
      (reached turns).roster.serving "actuate" = some 2 ∧ ¬Consistent (reached turns)) ∧
    Watch ops (fun _ _ => True) (reached unjournaled) ∧
      (reached unjournaled).channel.hooks.link "actuate" = some 1 ∧
      (reached unjournaled).roster.serving "actuate" = none ∧
      ¬Consistent (reached unjournaled) := by
  have h₁ : (reached turns).channel.hooks.link "actuate" = none := by decide +kernel
  have h₂ : (reached turns).roster.serving "actuate" = some 2 := by decide +kernel
  have h₃ : (reached unjournaled).channel.hooks.link "actuate" = some 1 := by decide +kernel
  have h₄ : (reached unjournaled).roster.serving "actuate" = none := by decide +kernel
  refine ⟨⟨watch_reached (by decide +kernel), h₁, h₂, fun h => ?_⟩,
    watch_reached (by decide +kernel), h₃, h₄, fun h => ?_⟩
  · have := h "actuate" (settled_of_all (by decide +kernel))
    rw [h₁, h₂] at this
    cases this
  · have := h "actuate" (settled_of_all (by decide +kernel))
    rw [h₃, h₄] at this
    cases this

/-- The hook closes its connection before its new process registers. -/
def orderly : List Turn :=
  [.open_ 1 peer "ops", .register 1 actuate, .journaled 1 true, .close 1, .deregister 1,
    .open_ 2 peer "ops", .register 2 actuate, .journaled 2 true]

def handed : Watched := (Watched.steps ops Watched.undisputed {} orderly).getD {}

theorem watch_handed : Watch ops Undisputed handed := by
  have hs : (Watched.steps ops Watched.undisputed {} orderly).isSome = true := by decide +kernel
  obtain ⟨s, hs⟩ := Option.isSome_iff_exists.mp hs
  rw [handed, hs]
  exact watch_of_steps (fun _ _ => undisputed_of) .start hs

/-- The new process serves the hook. -/
theorem served_handed : handed.channel.hooks.link "actuate" = handed.roster.serving "actuate" ∧
    handed.roster.serving "actuate" = some 2 :=
  ⟨(registry_agrees ops watch_handed).1 "actuate" (settled_of_all (by decide +kernel)),
    by decide +kernel⟩

end Restart

end Rescind.Control
