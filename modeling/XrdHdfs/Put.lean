import XrdHdfs.Hdfs

/-!
# A file put at a path

`Fs.Put fs p t fs'` is what a file system looks like after a file was created at `p` and written: `p` has a new
inode with the content `t`, the directories above it exist, and nothing else changed.  `Put.entry_of_ne` is the
frame, path by path, and `Put.frame` the one for open files, inode by inode.
-/

namespace XrdHdfs

namespace Fs

variable {fs fs' fs'' : Fs} {p q : HPath} {i : ℕ} {t b : Bytes}

/-! ### Entries and contents -/

theorem view_eq_some : fs.view p = some t ↔ ∃ i, fs.tree.ino p = some i ∧ (fs.data i).bytes = t := by
  simp [view]

theorem view_eq_none : fs.view p = none ↔ fs.tree.ino p = none := by
  simp [view]

/-- What stands at a path is known once the node there and the contents are. -/
theorem entry_congr (htree : fs'.tree q = fs.tree q) (hdata : ∀ i, fs.tree.ino q = some i → fs'.data i = fs.data i) :
    fs'.entry q = fs.entry q := by
  unfold entry
  rw [htree]
  cases hq : fs.tree q with
  | none => rfl
  | some n =>
    cases n with
    | dir m => rfl
    | file i m => simp [hdata i (Tree.ino_eq_some.2 ⟨m, hq⟩)]

theorem view_congr (hino : fs'.tree.ino q = fs.tree.ino q)
    (hdata : ∀ i, fs.tree.ino q = some i → fs'.data i = fs.data i) : fs'.view q = fs.view q := by
  unfold view
  rw [hino]
  cases hq : fs.tree.ino q with
  | none => rfl
  | some i => simp [hdata i hq]

/-! ### Creating and writing -/

theorem create_eq_some (h : fs.create p = some (i, fs')) :
    i = fs.next ∧ fs.tree.Creatable p ∧ fs'.tree = fs.tree.create p fs.next ∧ fs'.next = fs.next + 1 ∧
      fs'.data = Function.update fs.data fs.next .nil := by
  unfold create at h
  split at h
  · next hc =>
    simp only [Option.some.injEq, Prod.mk.injEq] at h
    obtain ⟨rfl, rfl⟩ := h
    exact ⟨rfl, hc, rfl, rfl, rfl⟩
  · cases h

theorem append_eq_some (h : fs.append i b = some fs') :
    fs'.tree = fs.tree ∧ fs'.next = fs.next ∧ (fs'.data i).bytes = (fs.data i).bytes ++ b ∧
      ∀ j, j ≠ i → fs'.data j = fs.data j := by
  unfold append at h
  split at h
  · simp only [Option.some.injEq] at h
    subst h
    refine ⟨rfl, rfl, by simp, fun j hj => ?_⟩
    exact Function.update_of_ne hj _ _
  · cases h

theorem append_eq_none (h : fs.append i b = none) : 2 ^ 63 ≤ (fs.data i).bytes.length + b.length := by
  unfold append at h
  split at h
  · cases h
  · next hlen =>
    rw [List.length_append] at hlen
    omega

/-- `fs'` is `fs` with a new file at `p` whose content is `t`. -/
structure Put (fs : Fs) (p : HPath) (t : Bytes) (fs' : Fs) : Prop where
  creatable : fs.tree.Creatable p
  tree : fs'.tree = fs.tree.create p fs.next
  next : fs'.next = fs.next + 1
  data : (fs'.data fs.next).bytes = t
  frame : ∀ j, j ≠ fs.next → fs'.data j = fs.data j

namespace Put

theorem of_create (h : fs.create p = some (i, fs')) : Put fs p [] fs' := by
  obtain ⟨-, hc, htree, hnext, hdata⟩ := create_eq_some h
  refine ⟨hc, htree, hnext, ?_, fun j hj => ?_⟩
  · rw [hdata, Function.update_self]
    rfl
  · rw [hdata, Function.update_of_ne hj]

theorem append (h : Put fs p t fs') (ha : fs'.append fs.next b = some fs'') : Put fs p (t ++ b) fs'' := by
  obtain ⟨htree, hnext, hdata, hframe⟩ := append_eq_some ha
  refine ⟨h.creatable, htree.trans h.tree, hnext.trans h.next, by rw [hdata, h.data], fun j hj => ?_⟩
  rw [hframe j hj, h.frame j hj]

theorem ino (h : Put fs p t fs') (q : HPath) : fs'.tree.ino q = if q = p then some fs.next else fs.tree.ino q := by
  rw [h.tree, Tree.create_ino]

theorem view (h : Put fs p t fs') : fs'.view p = some t :=
  view_eq_some.2 ⟨fs.next, by rw [h.ino, if_pos rfl], h.data⟩

/-- No path had the new inode before. -/
theorem data_of_ino (h : Put fs p t fs') (hq : fs.tree.ino q = some i) : fs'.data i = fs.data i :=
  h.frame i (fs.valid.fresh q i hq).ne

theorem view_of_ne (h : Put fs p t fs') (hq : q ≠ p) : fs'.view q = fs.view q :=
  view_congr (by rw [h.ino, if_neg hq]) fun _ hi => h.data_of_ino hi

/-- **The frame.** Another path is as it was, unless it is one above `p` where a directory was made. -/
theorem entry_of_ne (h : Put fs p t fs') (hq : q ≠ p) :
    fs'.entry q = fs.entry q ∨ q <+: p ∧ fs.entry q = none ∧ fs'.entry q = some (.dir 0o755) := by
  by_cases hup : q <+: p ∧ fs.tree q = none
  · right
    refine ⟨hup.1, by simp [entry, hup.2], ?_⟩
    simp [entry, h.tree, Tree.create, hq, hup]
  · left
    refine entry_congr ?_ fun i hi => h.data_of_ino hi
    simp [h.tree, Tree.create, hq, hup]

end Put

/-! ### Deleting -/

/-- A file can be deleted, and then only its path is gone. -/
theorem delete_file (h : fs.tree.ino p = some i) : ∃ fs', fs.delete p = some fs' ∧ fs'.tree = fs.tree.remove p ∧
    fs'.data = fs.data ∧ fs'.next = fs.next := by
  obtain ⟨m, hm⟩ := Tree.ino_eq_some.1 h
  have hne : p ≠ [] := by
    rintro rfl
    have := fs.valid.root.ino
    rw [h] at this
    cases this
  have hleaf : ∀ q ∈ fs.paths, q.dropLast = p → q ≠ [] → fs.tree q = none := by
    rintro q - rfl hq
    by_contra hc
    have hd := fs.valid.above q.dropLast (q.getLast hq) (by rwa [List.dropLast_append_getLast hq])
    rw [hd.ino] at h
    cases h
  refine ⟨_, dif_pos ⟨hne, by simp [hm], hleaf⟩, rfl, rfl, rfl⟩

theorem delete_eq_some (h : fs.delete p = some fs') :
    fs'.tree = fs.tree.remove p ∧ fs'.data = fs.data ∧ fs'.next = fs.next := by
  unfold delete at h
  split at h
  · simp only [Option.some.injEq] at h
    subst h
    exact ⟨rfl, rfl, rfl⟩
  · cases h

/-- What can be deleted exists and has nothing below it. -/
theorem delete_leaf (h : fs.delete p = some fs') : fs.tree p ≠ none ∧ ∀ c, fs.tree (p ++ [c]) = none := by
  unfold delete at h
  split at h
  · next hc =>
    refine ⟨hc.2.1, fun c => ?_⟩
    by_contra hne
    exact hne (hc.2.2 _ (fs.known _ hne) (by simp) (by simp))
  · cases h

/-- Only the entry at `p` is gone. -/
structure OnlyRemoved (fs : Fs) (p : HPath) (fs' : Fs) : Prop where
  gone : fs'.entry p = none
  rest : ∀ q, q ≠ p → fs'.entry q = fs.entry q

theorem onlyRemoved_of_delete (h : fs.delete p = some fs') : OnlyRemoved fs p fs' := by
  obtain ⟨htree, hdata, -⟩ := delete_eq_some h
  refine ⟨by simp [entry, htree, Tree.remove], fun q hq => entry_congr ?_ fun _ _ => by rw [hdata]⟩
  simp [htree, Tree.remove, hq]

/-! ### File systems written down -/

/-- Create the file at `p` and write `b`. -/
def write (fs : Fs) (p : HPath) (b : Bytes) : Fs :=
  match fs.create p with
  | none => fs
  | some (i, fs) => (fs.append i b).getD fs

/-- The file system with these files. -/
def ofFiles (files : List (Bytes × Bytes)) : Fs := files.foldl (fun fs e => fs.write (resolve e.1) e.2) empty

end Fs

end XrdHdfs
