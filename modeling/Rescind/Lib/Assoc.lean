/-
# `Rescind.Lib.Assoc` — sorted association lists

An ordered map as the list of its bindings.  `insert` keeps the bindings in
key order, so two maps with the same bindings built from the same operations
are the same list; the lookup laws below need nothing of the order.

    get (insert m k v) k  = some v                  (`get_insert_self`)
    get (insert m k v) j  = get m j,  j ≠ k         (`get_insert_ne`)
    get (erase m k) k     = none                    (`get_erase_self`)
    get (erase m k) j     = get m j,  j ≠ k         (`get_erase_ne`)
    get (filter p m) k    = get m k, where `p` holds (`Sorted.get_filter`)
    insertion keeps the key order                   (`Sorted.insert`)
    two maps in key order with the same lookups
      are the same map                              (`Sorted.ext_get`)
-/
import Mathlib.Data.List.Basic
import Mathlib.Order.Defs.Unbundled

namespace Rescind.Lib

/-- A map as the list of its bindings. -/
abbrev Assoc (α β : Type) := List (α × β)

namespace Assoc

variable {α β : Type} [DecidableEq α]

/-- The value bound to a key. -/
def get : Assoc α β → α → Option β
  | [], _ => none
  | (k, v) :: m, j => if j = k then some v else get m j

/-- Bind a key, in key order; an existing binding is replaced. -/
def insert [LT α] [DecidableLT α] : Assoc α β → α → β → Assoc α β
  | [], j, w => [(j, w)]
  | (k, v) :: m, j, w =>
      if j = k then (j, w) :: m
      else if j < k then (j, w) :: (k, v) :: m
      else (k, v) :: insert m j w

/-- Bind a key whose place does not matter: replaced where it is, else last. -/
def set : Assoc α β → α → β → Assoc α β
  | [], j, w => [(j, w)]
  | (k, v) :: m, j, w => if j = k then (j, w) :: m else (k, v) :: set m j w

/-- Drop every binding of a key. -/
def erase (m : Assoc α β) (j : α) : Assoc α β := m.filter fun kv => kv.1 ≠ j

/-- Whether a key is bound. -/
def contains (m : Assoc α β) (j : α) : Bool := (m.get j).isSome

/-- The keys, in order. -/
def keys (m : Assoc α β) : List α := m.map Prod.fst

@[simp] theorem get_nil (j : α) : get ([] : Assoc α β) j = none := rfl

section
variable [LT α] [DecidableLT α]

@[simp] theorem get_insert_self (m : Assoc α β) (k : α) (v : β) :
    (m.insert k v).get k = some v := by
  induction m with
  | nil => simp [insert, get]
  | cons kv m ih =>
      obtain ⟨k', v'⟩ := kv
      by_cases h : k = k'
      · simp [insert, get, h]
      · by_cases hl : k < k'
        · simp [insert, get, h, hl]
        · simp [insert, get, h, hl, ih]

theorem get_insert_ne (m : Assoc α β) {k j : α} (v : β) (h : j ≠ k) :
    (m.insert k v).get j = m.get j := by
  induction m with
  | nil => simp [insert, get, h]
  | cons kv m ih =>
      obtain ⟨k', v'⟩ := kv
      by_cases hk : k = k'
      · subst hk; simp [insert, get, h]
      · by_cases hl : k < k'
        · simp [insert, get, hk, hl, h]
        · by_cases hj : j = k'
          · simp [insert, get, hk, hl, hj]
          · simp [insert, get, hk, hl, hj, ih]

theorem get_insert (m : Assoc α β) (k j : α) (v : β) :
    (m.insert k v).get j = if j = k then some v else m.get j := by
  by_cases h : j = k
  · subst h; simp
  · simp [h, get_insert_ne m v h]

end

theorem get_set (m : Assoc α β) (k j : α) (v : β) :
    (m.set k v).get j = if j = k then some v else m.get j := by
  induction m with
  | nil => simp [set, get]
  | cons kv m ih =>
      obtain ⟨k', v'⟩ := kv
      by_cases hk : k = k'
      · subst hk
        by_cases hj : j = k <;> simp [set, get, hj]
      · by_cases hj : j = k'
        · subst hj
          have hne : j ≠ k := fun e => hk e.symm
          simp [set, get, hk, hne]
        · simp [set, get, hk, hj, ih]

@[simp] theorem get_erase_self (m : Assoc α β) (k : α) : (m.erase k).get k = none := by
  induction m with
  | nil => rfl
  | cons kv m ih =>
      obtain ⟨k', v'⟩ := kv
      by_cases h : k' = k
      · subst h; simpa [erase] using ih
      · have : k ≠ k' := fun e => h e.symm
        simpa [erase, h, get, this] using ih

theorem get_erase_ne (m : Assoc α β) {k j : α} (h : j ≠ k) : (m.erase k).get j = m.get j := by
  induction m with
  | nil => rfl
  | cons kv m ih =>
      obtain ⟨k', v'⟩ := kv
      by_cases hk : k' = k
      · subst hk
        have : get ((k', v') :: m) j = get m j := by simp [get, h]
        rw [this, ← ih]; simp [erase]
      · by_cases hj : j = k'
        · subst hj; simp [erase, hk, get]
        · rw [show get ((k', v') :: m) j = get m j by simp [get, hj], ← ih]
          simp [erase, hk, get, hj]

/-! ## Key order -/

section
variable [LT α]

/-- The keys strictly increase. -/
def Sorted (m : Assoc α β) : Prop := m.Pairwise fun a b => a.1 < b.1

omit [DecidableEq α] in
theorem Sorted.nil : Sorted ([] : Assoc α β) := List.Pairwise.nil

theorem mem_insert_imp [DecidableLT α] {m : Assoc α β} {k : α} {v : β} {x : α × β}
    (h : x ∈ m.insert k v) : x = (k, v) ∨ x ∈ m := by
  induction m with
  | nil => exact .inl (by simpa [insert] using h)
  | cons kv m ih =>
      obtain ⟨k', v'⟩ := kv
      by_cases hk : k = k'
      · rw [insert, if_pos hk] at h
        rcases List.mem_cons.mp h with h | h
        · exact .inl h
        · exact .inr (List.mem_cons_of_mem _ h)
      · by_cases hl : k < k'
        · rw [insert, if_neg hk, if_pos hl] at h
          exact List.mem_cons.mp h
        · rw [insert, if_neg hk, if_neg hl] at h
          rcases List.mem_cons.mp h with h | h
          · exact .inr (h ▸ List.mem_cons_self)
          · exact (ih h).imp_right (List.mem_cons_of_mem _)

theorem Sorted.insert [DecidableLT α] [IsTrans α (· < ·)] [Std.Trichotomous (α := α) (· < ·)]
    {m : Assoc α β} (h : Sorted m) (k : α) (v : β) : Sorted (m.insert k v) := by
  induction m with
  | nil => exact List.pairwise_singleton _ _
  | cons kv m ih =>
      obtain ⟨k', v'⟩ := kv
      obtain ⟨hhd, htl⟩ := List.pairwise_cons.mp h
      by_cases hk : k = k'
      · subst hk
        rw [Assoc.insert, if_pos rfl]
        exact List.pairwise_cons.mpr ⟨hhd, htl⟩
      · by_cases hl : k < k'
        · rw [Assoc.insert, if_neg hk, if_pos hl]
          refine List.pairwise_cons.mpr ⟨fun x hx => ?_, h⟩
          rcases List.mem_cons.mp hx with rfl | hx
          · exact hl
          · exact IsTrans.trans _ _ _ hl (hhd x hx)
        · rw [Assoc.insert, if_neg hk, if_neg hl]
          refine List.pairwise_cons.mpr ⟨fun x hx => ?_, ih htl⟩
          rcases mem_insert_imp hx with rfl | hx
          · by_contra hgt
            exact hk (Std.Trichotomous.trichotomous (r := (· < ·)) k k' hl hgt)
          · exact hhd x hx

/-- In key order a binding is the one its key looks up. -/
theorem Sorted.get_of_mem [Std.Irrefl (α := α) (· < ·)] {m : Assoc α β} (h : Sorted m)
    {k : α} {v : β} (hm : (k, v) ∈ m) : m.get k = some v := by
  induction m with
  | nil => cases hm
  | cons kv m ih =>
      obtain ⟨k', v'⟩ := kv
      obtain ⟨hhd, htl⟩ := List.pairwise_cons.mp h
      rcases List.mem_cons.mp hm with he | hin
      · cases he; simp [get]
      · have hne : k ≠ k' := by
          rintro rfl
          have hlt : k < k := hhd (k, v) hin
          exact Std.Irrefl.irrefl (r := (· < ·)) k hlt
        rw [get, if_neg hne]
        exact ih htl hin

end

/-- A key after all others is bound last. -/
theorem insert_last [LT α] [DecidableLT α] [Std.Irrefl (α := α) (· < ·)] [Std.Asymm (α := α) (· < ·)]
    {m : Assoc α β} {k : α} (h : ∀ kv ∈ m, kv.1 < k) (v : β) : m.insert k v = m ++ [(k, v)] := by
  induction m with
  | nil => rfl
  | cons kv m ih =>
      obtain ⟨k', v'⟩ := kv
      have hk : k' < k := h (k', v') List.mem_cons_self
      have hne : k ≠ k' := by
        rintro rfl
        exact Std.Irrefl.irrefl (r := (· < ·)) k hk
      rw [insert, if_neg hne, if_neg (Std.Asymm.asymm k' k hk), ih fun kv hkv =>
        h kv (List.mem_cons_of_mem _ hkv)]
      rfl

/-- Bindings in key order, bound one after the other, are kept as they come. -/
theorem Sorted.foldl_insert [LT α] [DecidableLT α] [Std.Irrefl (α := α) (· < ·)]
    [Std.Asymm (α := α) (· < ·)] {ms : Assoc α β} (h : Sorted ms) :
    ms.foldl (fun (m : Assoc α β) kv => m.insert kv.1 kv.2) [] = ms := by
  have hall : ∀ acc : Assoc α β, Sorted (acc ++ ms) →
      ms.foldl (fun (m : Assoc α β) kv => m.insert kv.1 kv.2) acc = acc ++ ms := by
    clear h
    induction ms with
    | nil =>
        intro acc _
        exact (List.append_nil acc).symm
    | cons m ms ih =>
        intro acc h
        have hlast : acc.insert m.1 m.2 = acc ++ [m] := insert_last (fun kv hkv =>
          (List.pairwise_append.mp h).2.2 kv hkv m List.mem_cons_self) m.2
        have hassoc : acc ++ m :: ms = (acc ++ [m]) ++ ms := by
          rw [List.append_assoc, List.singleton_append]
        rw [List.foldl_cons, hlast, ih (acc ++ [m]) (hassoc ▸ h), hassoc]
  exact hall [] h

/-- A key no binding has is unbound. -/
theorem get_eq_none {m : Assoc α β} {k : α} (h : ∀ kv ∈ m, kv.1 ≠ k) : m.get k = none := by
  induction m with
  | nil => rfl
  | cons kv m ih =>
      obtain ⟨k', v'⟩ := kv
      have hne : k ≠ k' := fun e => h (k', v') List.mem_cons_self e.symm
      rw [get, if_neg hne]
      exact ih fun kv hkv => h kv (List.mem_cons_of_mem _ hkv)

/-- A bound key occurs among the bindings. -/
theorem mem_of_get {m : Assoc α β} {k : α} {v : β} (h : m.get k = some v) : (k, v) ∈ m := by
  induction m with
  | nil => simp at h
  | cons kv m ih =>
      obtain ⟨k', v'⟩ := kv
      by_cases hk : k = k'
      · subst hk
        simp only [get, if_true, Option.some.injEq] at h
        exact h ▸ List.mem_cons_self
      · simp only [get, hk, if_false] at h
        exact List.mem_cons_of_mem _ (ih h)

/-- In key order a map is what its keys look up. -/
theorem Sorted.ext_get [LT α] [Std.Irrefl (α := α) (· < ·)] [Std.Asymm (α := α) (· < ·)]
    {m m' : Assoc α β} (h : Sorted m) (h' : Sorted m') (he : ∀ k, m.get k = m'.get k) : m = m' := by
  induction m generalizing m' with
  | nil =>
      cases m' with
      | nil => rfl
      | cons kv m' =>
          have hk := he kv.1
          rw [h'.get_of_mem List.mem_cons_self] at hk
          cases hk
  | cons kv m ih =>
      obtain ⟨k, v⟩ := kv
      cases m' with
      | nil =>
          have hk := he k
          rw [h.get_of_mem List.mem_cons_self] at hk
          cases hk
      | cons kv' m' =>
          obtain ⟨k', v'⟩ := kv'
          obtain ⟨hhd, htl⟩ := List.pairwise_cons.mp h
          obtain ⟨hhd', htl'⟩ := List.pairwise_cons.mp h'
          have hm : (k, v) ∈ (k', v') :: m' := mem_of_get
            ((he k).symm.trans (h.get_of_mem List.mem_cons_self))
          have hm' : (k', v') ∈ (k, v) :: m := mem_of_get
            ((he k').trans (h'.get_of_mem List.mem_cons_self))
          have hkv : (k, v) = (k', v') := by
            rcases List.mem_cons.mp hm with hkv | hin
            · exact hkv
            · rcases List.mem_cons.mp hm' with hkv' | hin'
              · exact hkv'.symm
              · exact absurd (hhd _ hin') (Std.Asymm.asymm _ _ (hhd' _ hin))
          cases hkv
          have hne : ∀ {j : α}, k < j → j ≠ k := by
            rintro j hlt rfl
            exact Std.Irrefl.irrefl (r := (· < ·)) j hlt
          have hrest : ∀ j, get m j = get m' j := by
            intro j
            by_cases hj : j = k
            · rw [hj, get_eq_none fun kv hkv => hne (hhd kv hkv),
                get_eq_none fun kv hkv => hne (hhd' kv hkv)]
            · have hj' := he j
              rwa [get, get, if_neg hj, if_neg hj] at hj'
          rw [ih htl htl' hrest]

omit [DecidableEq α] in
theorem Sorted.keys_nodup [LT α] [Std.Irrefl (α := α) (· < ·)] {m : Assoc α β} (h : Sorted m) :
    (m.map Prod.fst).Nodup := by
  refine List.Pairwise.imp ?_ (List.pairwise_map.mpr h)
  intro a b hab he
  rw [he] at hab
  exact Std.Irrefl.irrefl (r := (· < ·)) b hab

/-- In key order a filter keeps what it holds of, and nothing else. -/
theorem Sorted.get_filter [LT α] [Std.Irrefl (α := α) (· < ·)] {m : Assoc α β} (h : Sorted m)
    (p : α × β → Bool) (k : α) :
    get (m.filter p : Assoc α β) k = (m.get k).bind fun v => if p (k, v) then some v else none := by
  have hf : Sorted (m.filter p : Assoc α β) := h.filter p
  cases hk : m.get k with
  | none =>
      refine get_eq_none fun kv hkv he => ?_
      have hm := h.get_of_mem (List.mem_filter.mp hkv).1
      rw [he, hk] at hm
      cases hm
  | some v =>
      by_cases hp : p (k, v) = true
      · rw [Option.bind_some, if_pos hp]
        exact hf.get_of_mem (List.mem_filter.mpr ⟨mem_of_get hk, hp⟩)
      · rw [Option.bind_some, if_neg hp]
        refine get_eq_none fun kv hkv he => ?_
        obtain ⟨hm, hp'⟩ := List.mem_filter.mp hkv
        have hv := h.get_of_mem (k := kv.1) (v := kv.2) hm
        rw [he, hk, Option.some.injEq] at hv
        rw [hv, ← he] at hp
        exact hp hp'

/-- The keys a filter keeps. -/
theorem Sorted.mem_keys_filter [LT α] [Std.Irrefl (α := α) (· < ·)] {m : Assoc α β} (h : Sorted m)
    (p : α × β → Bool) (k : α) :
    k ∈ (m.filter p).map Prod.fst ↔ ∃ v, m.get k = some v ∧ p (k, v) = true := by
  constructor
  · intro hk
    obtain ⟨kv, hkv, rfl⟩ := List.mem_map.mp hk
    obtain ⟨hm, hp⟩ := List.mem_filter.mp hkv
    exact ⟨kv.2, h.get_of_mem hm, hp⟩
  · rintro ⟨v, hv, hp⟩
    exact List.mem_map.mpr ⟨(k, v), List.mem_filter.mpr ⟨mem_of_get hv, hp⟩, rfl⟩

end Assoc

end Rescind.Lib
