import XrdHdfs.Basic

/-!
# The HDFS name space

A path is the list of its components, so that repeated and trailing slashes make no difference.  A file has
an inode, which holds its content: an open file keeps its inode when the path is replaced, renamed or deleted.
`Fs` carries what the name node maintains (`Tree.Valid`): the root is a directory, what exists has a directory
above it, and no two paths share an inode.

The operations are those of the name node behind `libhdfs`; they answer `none` when the name node refuses.
-/

namespace XrdHdfs

/-- A path as HDFS sees it. -/
abbrev HPath := List Bytes

/-- The components of a path: empty ones do not count. -/
def resolve (path : Bytes) : HPath := (path.splitOn 47).filter (· ≠ [])

inductive Node where
  | file (ino mode : ℕ)
  | dir (mode : ℕ)
  deriving DecidableEq

abbrev Tree := HPath → Option Node

namespace Tree

variable (t : Tree) (p : HPath)

def IsDir : Prop := ∃ m, t p = some (.dir m)

/-- The inode of the file at a path. -/
def ino : Option ℕ :=
  match t p with
  | some (.file i _) => some i
  | _ => none

instance : Decidable (t.IsDir p) :=
  match h : t p with
  | some (.dir m) => isTrue ⟨m, h⟩
  | some (.file _ _) => isFalse fun ⟨_, hm⟩ => by rw [h] at hm; cases hm
  | none => isFalse fun ⟨_, hm⟩ => by rw [h] at hm; cases hm

/-- **What the name node maintains.** -/
structure Valid (t : Tree) (next : ℕ) : Prop where
  root : t.IsDir []
  above : ∀ p c, t (p ++ [c]) ≠ none → t.IsDir p
  fresh : ∀ p i, t.ino p = some i → i < next
  inj : ∀ p q i, t.ino p = some i → t.ino q = some i → p = q

/-! ### Creating a file -/

/-- A new, empty file at `p`; the directories above it are made as needed. -/
def create (i : ℕ) : Tree := fun q =>
  if q = p then some (.file i 0o644)
  else if q <+: p ∧ t q = none then some (.dir 0o755)
  else t q

/-- The name node creates no file where a directory is, and none below a file. -/
def Creatable : Prop := p ≠ [] ∧ ¬ t.IsDir p ∧ ∀ q ∈ p.inits, q ≠ p → t.ino q = none

instance : Decidable (t.Creatable p) := by unfold Creatable; infer_instance

/-! ### Making directories -/

/-- A directory at `p`, and above it as needed. -/
def mkdirs : Tree := fun q => if q <+: p ∧ t q = none then some (.dir 0o755) else t q

/-- No file is in the way. -/
def Mkdirable : Prop := ∀ q ∈ p.inits, t.ino q = none

instance : Decidable (t.Mkdirable p) := by unfold Mkdirable; infer_instance

/-! ### Removing, moving and changing the mode -/

def remove : Tree := fun q => if q = p then none else t q

/-- The subtree at `p` is put at `p'`. -/
def move (p' : HPath) : Tree := fun q =>
  if p' <+: q then t (p ++ q.drop p'.length)
  else if p <+: q then none
  else t q

def chmod (m : ℕ) : Tree := fun q =>
  if q = p then
    match t p with
    | some (.file i _) => some (.file i m)
    | some (.dir _) => some (.dir m)
    | none => none
  else t q

section Lemmas

variable {t p} {next : ℕ} {q : HPath}

theorem ino_eq_some {i : ℕ} : t.ino p = some i ↔ ∃ m, t p = some (.file i m) := by
  unfold ino
  split
  · next j m h => simp [h]
  · next h =>
    constructor
    · rintro ⟨⟩
    · rintro ⟨m, hm⟩
      exact absurd hm (h i m)

theorem IsDir.ino (h : t.IsDir p) : t.ino p = none := by
  obtain ⟨m, hm⟩ := h
  simp [Tree.ino, hm]

theorem exists_cases (h : t p ≠ none) : t.IsDir p ∨ ∃ i, t.ino p = some i := by
  obtain ⟨n, hn⟩ := Option.ne_none_iff_exists'.1 h
  cases n with
  | file i m => exact Or.inr ⟨i, ino_eq_some.2 ⟨m, hn⟩⟩
  | dir m => exact Or.inl ⟨m, hn⟩

/-- Every path above one that exists is a directory. -/
theorem Valid.isDir_of_prefix (hv : t.Valid next) {r : HPath} (hr : r ≠ []) (h : t (p ++ r) ≠ none) : t.IsDir p := by
  induction r using List.reverseRecOn with
  | nil => exact absurd rfl hr
  | append_singleton r c ih =>
    have hd : t.IsDir (p ++ r) := hv.above (p ++ r) c (by rwa [List.append_assoc])
    rcases eq_or_ne r [] with rfl | hne
    · simpa using hd
    · obtain ⟨m, hm⟩ := hd
      exact ih hne (by simp [hm])

theorem create_ino (i : ℕ) : (t.create p i).ino q = if q = p then some i else t.ino q := by
  unfold ino create
  by_cases h : q = p
  · simp [h]
  · simp only [if_neg h]
    by_cases h' : q <+: p ∧ t q = none
    · simp [h']
    · simp [h']

theorem Valid.create (hv : t.Valid next) (hc : t.Creatable p) : (t.create p next).Valid (next + 1) := by
  obtain ⟨hne, hnd, habove⟩ := hc
  -- a path strictly above the new file is a directory afterwards
  have hup : ∀ q, q <+: p → q ≠ p → (t.create p next).IsDir q := by
    intro q hq hqp
    by_cases h0 : t q = none
    · exact ⟨0o755, by simp [Tree.create, hqp, hq, h0]⟩
    · rcases exists_cases h0 with ⟨m, hm⟩ | ⟨i, hi⟩
      · exact ⟨m, by simp [Tree.create, hqp, hm]⟩
      · rw [habove q ((List.mem_inits q p).2 hq) hqp] at hi
        cases hi
  refine ⟨hup [] List.nil_prefix hne.symm, fun q c h => ?_, fun q i h => ?_, fun q r i hq hr => ?_⟩
  · by_cases hqc : q ++ [c] <+: p
    · have hq : q <+: p := (List.prefix_append q [c]).trans hqc
      refine hup q hq ?_
      rintro rfl
      simpa using hqc.length_le
    · have hqp : q ++ [c] ≠ p := fun h => hqc (h ▸ List.prefix_rfl)
      have hold : t (q ++ [c]) ≠ none := by simpa [Tree.create, hqp, hqc] using h
      obtain ⟨m, hm⟩ := hv.above q c hold
      refine ⟨m, ?_⟩
      have hne : q ≠ p := fun e => hnd ⟨m, e ▸ hm⟩
      simp [Tree.create, hne, hm]
  · rw [create_ino] at h
    split at h
    · simp only [Option.some.injEq] at h
      omega
    · have := hv.fresh q i h
      omega
  · rw [create_ino] at hq hr
    split at hq <;> split at hr
    · simp [*]
    · simp only [Option.some.injEq] at hq
      have := hv.fresh r i hr
      omega
    · simp only [Option.some.injEq] at hr
      have := hv.fresh q i hq
      omega
    · exact hv.inj q r i hq hr

theorem mkdirs_ino : (t.mkdirs p).ino q = t.ino q := by
  unfold ino mkdirs
  by_cases h : q <+: p ∧ t q = none <;> simp [h]

theorem Valid.mkdirs (hv : t.Valid next) (hm : t.Mkdirable p) : (t.mkdirs p).Valid next := by
  have hup : ∀ q, q <+: p → (t.mkdirs p).IsDir q := by
    intro q hq
    by_cases h0 : t q = none
    · exact ⟨0o755, by simp [Tree.mkdirs, hq, h0]⟩
    · rcases exists_cases h0 with ⟨m, hm⟩ | ⟨i, hi⟩
      · exact ⟨m, by simp [Tree.mkdirs, hm]⟩
      · rw [hm q ((List.mem_inits q p).2 hq)] at hi
        cases hi
  refine ⟨hup [] List.nil_prefix, fun q c h => ?_, fun q i h => ?_, fun q r i hq hr => ?_⟩
  · by_cases hqc : q ++ [c] <+: p
    · exact hup q ((List.prefix_append q [c]).trans hqc)
    · have hold : t (q ++ [c]) ≠ none := by simpa [Tree.mkdirs, hqc] using h
      obtain ⟨m, hm⟩ := hv.above q c hold
      exact ⟨m, by simp [Tree.mkdirs, hm]⟩
  · rw [mkdirs_ino] at h
    exact hv.fresh q i h
  · rw [mkdirs_ino] at hq hr
    exact hv.inj q r i hq hr

theorem remove_ino : (t.remove p).ino q = if q = p then none else t.ino q := by
  unfold ino remove
  by_cases h : q = p <;> simp [h]

theorem Valid.remove (hv : t.Valid next) (hne : p ≠ []) (hleaf : ∀ c, t (p ++ [c]) = none) :
    (t.remove p).Valid next := by
  refine ⟨?_, fun q c h => ?_, fun q i h => ?_, fun q r i hq hr => ?_⟩
  · obtain ⟨m, hm⟩ := hv.root
    exact ⟨m, by simp [Tree.remove, hne.symm, hm]⟩
  · have hold : t (q ++ [c]) ≠ none := by
      intro h0
      exact h (by simp [Tree.remove, h0])
    obtain ⟨m, hm⟩ := hv.above q c hold
    refine ⟨m, ?_⟩
    have hqp : q ≠ p := by
      rintro rfl
      exact hold (hleaf c)
    simp [Tree.remove, hqp, hm]
  · rw [remove_ino] at h
    split at h
    · cases h
    · exact hv.fresh q i h
  · rw [remove_ino] at hq hr
    split at hq <;> split at hr <;> try contradiction
    exact hv.inj q r i hq hr

theorem move_ino (p' : HPath) : (t.move p p').ino q =
    if p' <+: q then t.ino (p ++ q.drop p'.length) else if p <+: q then none else t.ino q := by
  unfold ino move
  by_cases h : p' <+: q
  · simp [h]
  · by_cases h' : p <+: q <;> simp [h, h']

theorem Valid.move (hv : t.Valid next) {p' : HPath} (hne : p ≠ []) (hnew : t p' = none) (hpp : ¬ p <+: p')
    (hparent : t.IsDir p'.dropLast) : (t.move p p').Valid next := by
  have hp' : p' ≠ [] := by
    rintro rfl
    obtain ⟨m, hm⟩ := hv.root
    rw [hm] at hnew
    cases hnew
  -- what is not moved and not moved over stays as it was
  have hstay : ∀ q, ¬ p' <+: q → ¬ p <+: q → t.move p p' q = t q := by
    intro q h h'
    simp [Tree.move, h, h']
  refine ⟨?_, fun q c h => ?_, fun q i h => ?_, fun q r i hq hr => ?_⟩
  · obtain ⟨m, hm⟩ := hv.root
    exact ⟨m, by rw [hstay [] (by simpa using hp') (by simpa using hne), hm]⟩
  · by_cases h' : p' <+: q ++ [c]
    · rcases List.prefix_concat_iff.1 h' with rfl | hq
      · -- the new place of the subtree: the directory above it stays
        rw [List.dropLast_concat] at hparent
        obtain ⟨m, hm⟩ := hparent
        refine ⟨m, ?_⟩
        rw [hstay q (fun hp => by simpa using hp.length_le) (fun hp => hpp (hp.trans (List.prefix_append q [c]))), hm]
      · have hdrop : (q ++ [c]).drop p'.length = q.drop p'.length ++ [c] :=
          List.drop_append_of_le_length hq.length_le
        have hold : t ((p ++ q.drop p'.length) ++ [c]) ≠ none := by
          simpa [Tree.move, h', hdrop] using h
        obtain ⟨m, hm⟩ := hv.above _ c hold
        exact ⟨m, by simp [Tree.move, hq, hm]⟩
    · by_cases hp : p <+: q ++ [c]
      · exact absurd (by simp [Tree.move, h', hp]) h
      · rw [hstay _ h' hp] at h
        obtain ⟨m, hm⟩ := hv.above q c h
        refine ⟨m, ?_⟩
        rw [hstay q (fun hq => h' (hq.trans (List.prefix_append q [c])))
          (fun hq => hp (hq.trans (List.prefix_append q [c]))), hm]
  · rw [move_ino] at h
    split at h
    · exact hv.fresh _ i h
    · split at h
      · cases h
      · exact hv.fresh q i h
  · rw [move_ino] at hq hr
    -- a moved path is still told apart from the others by where it came from
    have hmoved : ∀ q r, p' <+: q → ¬ p <+: r → t.ino (p ++ q.drop p'.length) = some i → t.ino r = some i → False := by
      intro q r _ hr hq' hr'
      have := hv.inj _ _ i hq' hr'
      exact hr (this ▸ List.prefix_append _ _)
    split at hq <;> split at hr
    · next h₁ h₂ =>
      have heq := List.append_cancel_left (hv.inj _ _ i hq hr)
      obtain ⟨u, rfl⟩ := h₁
      obtain ⟨v, rfl⟩ := h₂
      simp only [List.drop_left] at heq
      rw [heq]
    · split at hr
      · cases hr
      · exact (hmoved q r ‹_› ‹_› hq hr).elim
    · split at hq
      · cases hq
      · exact (hmoved r q ‹_› ‹_› hr hq).elim
    · split at hq <;> split at hr <;> try contradiction
      exact hv.inj q r i hq hr

theorem chmod_ino (m : ℕ) : (t.chmod p m).ino q = t.ino q := by
  unfold ino chmod
  by_cases h : q = p
  · subst h
    cases hq : t q with
    | none => simp
    | some n => cases n <;> simp
  · simp [h]

theorem chmod_isDir (m : ℕ) (h : t.IsDir q) : (t.chmod p m).IsDir q := by
  obtain ⟨k, hk⟩ := h
  by_cases hq : q = p
  · subst hq
    exact ⟨m, by simp [Tree.chmod, hk]⟩
  · exact ⟨k, by simp [Tree.chmod, hq, hk]⟩

theorem chmod_eq_none (m : ℕ) : t.chmod p m q = none ↔ t q = none := by
  unfold Tree.chmod
  by_cases h : q = p
  · subst h
    cases hq : t q with
    | none => simp
    | some n => cases n <;> simp
  · simp [h]

theorem Valid.chmod (hv : t.Valid next) (m : ℕ) : (t.chmod p m).Valid next := by
  refine ⟨chmod_isDir m hv.root, fun q c h => chmod_isDir m (hv.above q c ?_), fun q i h => ?_, fun q r i hq hr => ?_⟩
  · rwa [Ne, chmod_eq_none] at h
  · rw [chmod_ino] at h
    exact hv.fresh q i h
  · rw [chmod_ino] at hq hr
    exact hv.inj q r i hq hr

end Lemmas

end Tree

/-! ### The file system -/

/-- The tree, the paths it may have something at, and the content of every inode there ever was. -/
structure Fs where
  tree : Tree
  paths : List HPath
  data : ℕ → FileContent
  next : ℕ
  known : ∀ p, tree p ≠ none → p ∈ paths
  valid : tree.Valid next

/-- What is to be found at a path. -/
inductive Entry where
  | file (content : Bytes) (mode : ℕ)
  | dir (mode : ℕ)
  deriving DecidableEq

namespace Fs

variable (fs : Fs)

/-- A file system with nothing but the root directory. -/
def empty : Fs where
  tree p := if p = [] then some (.dir 0o755) else none
  paths := [[]]
  data _ := .nil
  next := 0
  known p h := by
    by_contra hp
    exact h (if_neg (by simpa using hp))
  valid := by
    refine ⟨⟨0o755, rfl⟩, fun p c h => absurd (if_neg (by simp)) h, fun p i h => ?_, fun p q i h => ?_⟩ <;>
      (by_cases hp : p = [] <;> simp [Tree.ino, hp] at h)

def entry (p : HPath) : Option Entry :=
  match fs.tree p with
  | some (.file i m) => some (.file (fs.data i).bytes m)
  | some (.dir m) => some (.dir m)
  | none => none

/-- The content of the file at a path. -/
def view (p : HPath) : Option Bytes := (fs.tree.ino p).map fun i => (fs.data i).bytes

/-- Create an empty file, or replace the one that is there. -/
def create (p : HPath) : Option (ℕ × Fs) :=
  if h : fs.tree.Creatable p then
    some (fs.next, {
      tree := fs.tree.create p fs.next
      paths := p.inits ++ fs.paths
      data := Function.update fs.data fs.next .nil
      next := fs.next + 1
      known := fun q hq => by
        by_cases hqp : q <+: p
        · exact List.mem_append_left _ ((List.mem_inits q p).2 hqp)
        · have hne : q ≠ p := fun e => hqp (e ▸ List.prefix_rfl)
          exact List.mem_append_right _ (fs.known q (by simpa [Tree.create, hqp, hne] using hq))
      valid := fs.valid.create h })
  else none

/-- Create a directory and those above it. -/
def mkdirs (p : HPath) : Option Fs :=
  if h : fs.tree.Mkdirable p then
    some { fs with
      tree := fs.tree.mkdirs p
      paths := p.inits ++ fs.paths
      known := fun q hq => by
        by_cases hqp : q <+: p
        · exact List.mem_append_left _ ((List.mem_inits q p).2 hqp)
        · exact List.mem_append_right _ (fs.known q (by simpa [Tree.mkdirs, hqp] using hq))
      valid := fs.valid.mkdirs h }
  else none

/-- Write at the end of an inode. -/
def append (i : ℕ) (b : Bytes) : Option Fs :=
  if h : ((fs.data i).bytes ++ b).length < 2 ^ 63 then
    some { fs with data := Function.update fs.data i ⟨(fs.data i).bytes ++ b, h⟩ }
  else none

/-- Remove a file or an empty directory. -/
def delete (p : HPath) : Option Fs :=
  if h : p ≠ [] ∧ fs.tree p ≠ none ∧ ∀ q ∈ fs.paths, q.dropLast = p → q ≠ [] → fs.tree q = none then
    some { fs with
      tree := fs.tree.remove p
      known := fun q hq => fs.known q fun h0 => hq (by simp [Tree.remove, h0])
      valid := fs.valid.remove h.1 fun c => by
        by_contra hc
        exact hc (h.2.2 _ (fs.known _ hc) (by simp) (by simp)) }
  else none

/-- The path a file or directory is renamed to: a directory there takes it in. -/
def renameTarget (src dst : HPath) : HPath :=
  if fs.tree.IsDir dst then dst ++ src.drop (src.length - 1) else dst

/-- The name node's conditions for a rename that moves something. -/
def Renamable (src dst : HPath) : Prop :=
  src ≠ [] ∧ fs.tree dst = none ∧ ¬ src <+: dst ∧ fs.tree.IsDir dst.dropLast

instance (src dst : HPath) : Decidable (fs.Renamable src dst) := by unfold Renamable; infer_instance

def rename (src dst : HPath) : Option Fs :=
  let dst := fs.renameTarget src dst
  if fs.tree src = none then none
  else if dst = src then some fs
  else if h : fs.Renamable src dst then
    some { fs with
      tree := fs.tree.move src dst
      paths := fs.paths ++ fs.paths.map fun q => dst ++ q.drop src.length
      known := fun q hq => by
        by_cases hd : dst <+: q
        · obtain ⟨r, rfl⟩ := hd
          have hr : src ++ r ∈ fs.paths := fs.known _ (by simpa [Tree.move] using hq)
          exact List.mem_append_right _ (List.mem_map.2 ⟨src ++ r, hr, by simp⟩)
        · by_cases hs : src <+: q
          · exact absurd (by simp [Tree.move, hd, hs]) hq
          · exact List.mem_append_left _ (fs.known q (by simpa [Tree.move, hd, hs] using hq))
      valid := fs.valid.move h.1 h.2.1 h.2.2.1 h.2.2.2 }
  else none

def chmod (p : HPath) (m : ℕ) : Option Fs :=
  if fs.tree p = none then none
  else some { fs with
    tree := fs.tree.chmod p m
    known := fun q hq => fs.known q (by rwa [Ne, Tree.chmod_eq_none] at hq)
    valid := fs.valid.chmod m }

end Fs

end XrdHdfs
