/-
# `Rescind.Lib.Files` — files, and the calls that change them

Files by their paths, in whatever order a listing gives them.  A process changes them
by calls, and each call has a fate: it is carried out, or fails, or is the last thing
the process does, before it, in the middle or after it.

A file that is written under a temporary name and then renamed is there whole or not at
all, and nothing else is touched but the temporary one (`replaceFile_whole`).
-/
import Rescind.Lib.Assoc
import Rescind.Lib.Atomic
import Rescind.Lib.Stores
import Rescind.Lib.Text

namespace Rescind.Lib

open Prog (Post)

variable {K ε α : Type} [DecidableEq K]

/-- Files by their paths. -/
structure FileMap (K : Type) where
  entries : Assoc K Bytes
  nodup : (entries.map Prod.fst).Nodup

/-- How a call goes. -/
inductive CallFate where
  | done
  /-- It fails, after a part of its work. -/
  | failed (part : Nat) (why : String)
  /-- The process is killed, after a part of its work. -/
  | killed (part : Nat)
  /-- It is done, and the process is killed then. -/
  | last
  deriving DecidableEq, Repr

/-- Files, and what is to become of the calls on them; all others are carried out. -/
structure Drive (K : Type) where
  files : FileMap K
  fates : List CallFate

def CallFate.fails : CallFate → Bool
  | .failed _ _ => true
  | _ => false

/-- The next call fails. -/
def Drive.Failing (d : Drive K) : Prop := (d.fates.head?.any CallFate.fails) = true

namespace FileMap

theorem nodup_set {m : Assoc K Bytes} (h : (m.map Prod.fst).Nodup) (k : K) (b : Bytes) :
    ((m.set k b).map Prod.fst).Nodup := by
  have hkeys : ∀ m : Assoc K Bytes, ∀ j ∈ (m.set k b).map Prod.fst, j = k ∨ j ∈ m.map Prod.fst := by
    intro m j hj
    induction m with
    | nil => exact Or.inl (List.mem_singleton.mp hj)
    | cons kv m ih =>
        unfold Assoc.set at hj
        split at hj
        · rcases List.mem_cons.mp hj with hj | hj
          · exact Or.inl hj
          · exact Or.inr (List.mem_cons_of_mem _ hj)
        · rcases List.mem_cons.mp hj with hj | hj
          · exact Or.inr (hj ▸ List.mem_cons_self)
          · exact (ih hj).imp_right (List.mem_cons_of_mem _)
  induction m with
  | nil => exact List.pairwise_singleton _ _
  | cons kv m ih =>
      obtain ⟨hnot, htail⟩ := List.nodup_cons.mp h
      unfold Assoc.set
      split
      next heq => exact List.nodup_cons.mpr ⟨heq ▸ hnot, htail⟩
      next hne =>
        refine List.nodup_cons.mpr ⟨fun hmem => ?_, ih htail⟩
        rcases hkeys m _ hmem with heq | hin
        · exact hne heq.symm
        · exact hnot hin

def get (f : FileMap K) (k : K) : Option Bytes := f.entries.get k

def put (f : FileMap K) (k : K) (b : Bytes) : FileMap K := ⟨f.entries.set k b, nodup_set f.nodup k b⟩

def drop (f : FileMap K) (k : K) : FileMap K :=
  ⟨f.entries.erase k, f.nodup.sublist ((List.filter_sublist).map _)⟩

/-- The paths, as they are listed. -/
def paths (f : FileMap K) : List K := f.entries.map Prod.fst

theorem get_put (f : FileMap K) (k : K) (b : Bytes) : (f.put k b).get = Function.update f.get k (some b) := by
  funext j
  show (f.entries.set k b).get j = _
  rw [Assoc.get_set, Function.update_apply]
  rfl

theorem get_drop (f : FileMap K) (k : K) : (f.drop k).get = Function.update f.get k none := by
  funext j
  show (f.entries.erase k).get j = _
  by_cases hj : j = k
  · rw [hj, Assoc.get_erase_self, Function.update_self]
  · rw [Assoc.get_erase_ne _ hj, Function.update_of_ne hj]
    rfl

theorem mem_paths {f : FileMap K} {k : K} : k ∈ f.paths ↔ (f.get k).isSome := by
  obtain ⟨m, hm⟩ := f
  show k ∈ m.map Prod.fst ↔ (m.get k).isSome
  clear hm
  induction m with
  | nil => exact ⟨fun h => (List.not_mem_nil h).elim, fun h => nomatch h⟩
  | cons kv m ih =>
      obtain ⟨j, b⟩ := kv
      rw [List.map_cons, List.mem_cons, ih]
      by_cases hk : k = j
      · simp [Assoc.get, hk]
      · simp [Assoc.get, hk]

end FileMap

/-! ## Calls -/

section
variable (io : String → ε)

/-- A call that changes the files. -/
def call (whole : FileMap K → FileMap K) (torn : Nat → FileMap K → FileMap K) :
    Prog (Drive K) ε Unit := fun d =>
  match d.fates with
  | [] => (.ok (), ⟨whole d.files, []⟩)
  | .done :: rest => (.ok (), ⟨whole d.files, rest⟩)
  | .failed n why :: rest => (.err (io why), ⟨torn n d.files, rest⟩)
  | .killed n :: rest => (.died, ⟨torn n d.files, rest⟩)
  | .last :: rest => (.died, ⟨whole d.files, rest⟩)

/-- A call that only reads them. -/
def look (f : FileMap K → α) : Prog (Drive K) ε α := do
  call io id fun _ => id
  .read fun d => f d.files

/-- Whether there is such a file; a test that fails finds none. -/
def found (k : K) : Prog (Drive K) ε Bool := do
  match ← Prog.attempt (look id fun f : FileMap K => (f.get k).isSome) with
  | .ok b => pure b
  | .error _ => pure false

def create (k : K) : Prog (Drive K) ε Unit := call io (·.put k []) fun _ => id

/-- Write at the end of a file. -/
def append (k : K) (bytes : Bytes) : Prog (Drive K) ε Unit :=
  call io (fun f => f.put k ((f.get k).getD [] ++ bytes)) fun n f => f.put k ((f.get k).getD [] ++ bytes.take n)

def sync : Prog (Drive K) ε Unit := call io id fun _ => id

def noSuchFile : String := "No such file or directory (os error 2)"

def rename (k j : K) : Prog (Drive K) ε Unit := do
  match ← Prog.read fun d => d.files.get k with
  | none => .fail (io noSuchFile)
  | some b => call io (fun f => (f.drop k).put j b) fun _ => id

def remove (k : K) : Prog (Drive K) ε Unit := call io (·.drop k) fun _ => id

/-- Write a file under a temporary name, and rename it. -/
def replaceFile (tmp k : K) (bytes : Bytes) : Prog (Drive K) ε Unit := do
  create io tmp
  append io tmp bytes
  sync io
  rename io tmp k

end

section
variable {io : String → ε} {d : Drive K} {f : K → Option Bytes} {k tmp : K} {b bytes : Bytes}
variable {whole : FileMap K → FileMap K} {torn : Nat → FileMap K → FileMap K}

omit [DecidableEq K] in
/-- How a call ends. -/
theorem call_ends : Post (call io whole torn) (fun r d' => match r with
    | .ok _ => d'.files = whole d.files ∧ d'.fates = d.fates.tail ∧ ¬d.Failing
    | .err e => (∃ n, d'.files = torn n d.files) ∧ d.Failing ∧ ∃ why, e = io why
    | .died => (∃ n, d'.files = torn n d.files) ∨ d'.files = whole d.files) d := by
  obtain ⟨files, fates⟩ := d
  cases fates with
  | nil => exact ⟨rfl, rfl, nofun⟩
  | cons fate rest =>
      cases fate with
      | done => exact ⟨rfl, rfl, nofun⟩
      | failed n why => exact ⟨⟨n, rfl⟩, rfl, why, rfl⟩
      | killed n => exact Or.inl ⟨n, rfl⟩
      | last => exact Or.inr rfl

omit [DecidableEq K] in
/-- Reading changes nothing, and what is read is there. -/
theorem look_ends {g : FileMap K → α} : Post (look io g) (fun r d' => d'.files = d.files ∧ match r with
    | .ok a => a = g d.files ∧ d'.fates = d.fates.tail ∧ ¬d.Failing
    | .err e => d.Failing ∧ ∃ why, e = io why
    | .died => True) d := by
  refine Post.bind call_ends (fun _ d' h => ?_) (fun _ d' h => ?_) fun d' h => ?_
  · exact ⟨h.1, congrArg g h.1, h.2⟩
  · obtain ⟨⟨_, hd⟩, h⟩ := h
    exact ⟨hd, h⟩
  · exact ⟨h.elim (fun ⟨_, h⟩ => h) id, trivial⟩

/-- A test finds what is there, unless it fails. -/
theorem found_ends : Post (found k : Prog (Drive K) ε Bool) (fun r d' => d'.files = d.files ∧ match r with
    | .ok b => b = (d.files.get k).isSome ∨ b = false ∧ d.Failing
    | .err _ => False
    | .died => True) d := by
  refine Post.bind (P := fun (r : Res ε (Except String Bool)) d' => d'.files = d.files ∧ match r with
      | .ok (.ok b) => b = (d.files.get k).isSome
      | .ok (.error _) => d.Failing
      | .err _ => False
      | .died => True) (Post.attempt look_ends (fun a _ h => ⟨h.1, h.2.1⟩) (fun e _ h => ⟨h.1, h.2.1⟩) fun _ h => h)
    (fun a d' h => ?_) (fun _ _ h => h) fun _ h => h
  cases a with
  | ok b => exact ⟨h.1, Or.inl h.2⟩
  | error e => exact ⟨h.1, Or.inr ⟨rfl, h.2⟩⟩

/-- Nothing but the temporary file is touched, and where the call returned it holds
these bytes. -/
def Midway (io : String → ε) (f : K → Option Bytes) (tmp : K) (b : Bytes) (r : Res ε Unit) (d : Drive K) : Prop :=
  Only {tmp} f d.files.get ∧ (r = .ok () → d.files.get tmp = some b) ∧ ∀ e, r = .err e → ∃ why, e = io why

theorem put_only {d' : Drive K} (h : Only {tmp} f d.files.get) (hd : d'.files = d.files.put tmp b) :
    Only {tmp} f d'.files.get ∧ d'.files.get tmp = some b := by
  rw [hd, FileMap.get_put]
  exact ⟨trans_of (Only _) h (Only.update rfl), Function.update_self ..⟩

theorem create_midway (h : Only {tmp} f d.files.get) : Post (create io tmp) (Midway io f tmp []) d := by
  refine Post.mono call_ends fun r d' hd => ?_
  cases r with
  | ok a => exact ⟨(put_only h hd.1).1, fun _ => (put_only h hd.1).2, nofun⟩
  | err e =>
      obtain ⟨⟨_, hd⟩, -, why⟩ := hd
      exact ⟨hd ▸ h, nofun, fun _ he => Res.err.inj he ▸ why⟩
  | died =>
      rcases hd with ⟨_, hd⟩ | hd
      · exact ⟨hd ▸ h, nofun, nofun⟩
      · exact ⟨(put_only h hd).1, nofun, nofun⟩

theorem append_midway (h : Only {tmp} f d.files.get) (hnew : d.files.get tmp = some []) :
    Post (append io tmp bytes) (Midway io f tmp bytes) d := by
  refine Post.mono call_ends fun r d' hd => ?_
  rw [hnew, Option.getD_some, List.nil_append] at hd
  cases r with
  | ok a => exact ⟨(put_only h hd.1).1, fun _ => (put_only h hd.1).2, nofun⟩
  | err e =>
      obtain ⟨⟨n, hd⟩, -, why⟩ := hd
      exact ⟨(put_only h hd).1, nofun, fun _ he => Res.err.inj he ▸ why⟩
  | died =>
      rcases hd with ⟨n, hd⟩ | hd
      · exact ⟨(put_only h hd).1, nofun, nofun⟩
      · exact ⟨(put_only h hd).1, nofun, nofun⟩

theorem sync_midway (h : Only {tmp} f d.files.get) (hb : d.files.get tmp = some b) :
    Post (sync io) (Midway io f tmp b) d := by
  refine Post.mono call_ends fun r d' hd => ?_
  cases r with
  | ok a => exact ⟨hd.1 ▸ h, fun _ => hd.1 ▸ hb, nofun⟩
  | err e =>
      obtain ⟨⟨_, hd⟩, -, why⟩ := hd
      exact ⟨hd ▸ h, nofun, fun _ he => Res.err.inj he ▸ why⟩
  | died => exact ⟨hd.elim (fun ⟨_, hd⟩ => hd ▸ h) fun hd => hd ▸ h, nofun, nofun⟩

/-- What the files are, but for those of `X`. -/
def Beside (X : Set K) (d : Drive K) (f : K → Option Bytes) : Prop := Only X f d.files.get

/-- Renamed: the one file is where the other was. -/
theorem rename_whole (h : Only {tmp} f d.files.get) (hb : d.files.get tmp = some b) :
    Whole (Beside {tmp}) f (Function.update f k (some b)) (fun _ => True) (fun e => ∃ why, e = io why)
      (rename io tmp k) d := by
  have hread : rename io tmp k d = call io (fun f => (f.drop tmp).put k b) (fun _ => id) d := by
    unfold rename
    rw [Prog.bind_eq, Prog.read_apply]
    dsimp only
    rw [hb]
  have hdone : ∀ d' : Drive K, d'.files = (d.files.drop tmp).put k b →
      Beside {tmp} d' (Function.update f k (some b)) := by
    intro d' hd j hj
    rw [hd, FileMap.get_put, FileMap.get_drop]
    by_cases hk : j = k
    · rw [hk, Function.update_self, Function.update_self]
    · rw [Function.update_of_ne hk, Function.update_of_ne hk, Function.update_of_ne hj]
      exact h j hj
  have hkept : ∀ d' : Drive K, d'.files = d.files → Beside {tmp} d' f := by
    intro d' hd
    unfold Beside
    rw [hd]
    exact h
  have hends : Post (call io (fun f : FileMap K => (f.drop tmp).put k b) fun _ => id) _ d := call_ends
  unfold Whole Post at *
  rw [hread]
  generalize call io (fun f : FileMap K => (f.drop tmp).put k b) (fun _ => id) d = e at hends
  obtain ⟨r, d'⟩ := e
  cases r with
  | ok a => exact ⟨hdone d' hends.1, trivial⟩
  | err e => exact ⟨hends.1.elim fun _ hd => hkept d' hd, hends.2.2⟩
  | died => exact hends.imp (fun ⟨_, hd⟩ => hkept d' hd) (hdone d')

/-- **A file that is written and then renamed is replaced whole or not at all.** -/
theorem replaceFile_whole :
    Whole (Beside {tmp}) d.files.get (Function.update d.files.get k (some bytes)) (fun _ => True)
      (fun e => ∃ why, e = io why) (replaceFile io tmp k bytes) d := by
  refine Post.bind (create_midway (refl_of (Only _) _)) (fun _ d₁ h₁ => ?_) (fun _ _ h => ⟨h.1, h.2.2 _ rfl⟩)
    fun _ h => Or.inl h.1
  refine Post.bind (append_midway h₁.1 (h₁.2.1 rfl)) (fun _ d₂ h₂ => ?_) (fun _ _ h => ⟨h.1, h.2.2 _ rfl⟩)
    fun _ h => Or.inl h.1
  refine Post.bind (sync_midway h₂.1 (h₂.2.1 rfl)) (fun _ d₃ h₃ => ?_) (fun _ _ h => ⟨h.1, h.2.2 _ rfl⟩)
    fun _ h => Or.inl h.1
  exact rename_whole h₃.1 (h₃.2.1 rfl)

end

end Rescind.Lib
