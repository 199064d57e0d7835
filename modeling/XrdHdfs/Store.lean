import XrdHdfs.Directory
import XrdHdfs.Lib.PathStore
import XrdHdfs.Mkdir
import XrdHdfs.Namespace

/-!
# The name space as a store

What a user of the plugin sees of HDFS is what stands at which path: no inodes, no connection, no `errno`.  `Command.on`
says in these terms what each operation of `XrdHdfsSys` answers and changes, and `commands_refine` that the plugin's code
over the name node does just that, call after call, as long as libhdfs itself does not fail.
-/

namespace XrdHdfs

open Lib World

/-! ### Stores -/

/-- What a user sees. -/
abbrev Store := PathStore Bytes Entry

def Entry.mode : Entry → ℕ
  | file _ m | dir m => m

def Entry.setMode (m : ℕ) : Entry → Entry
  | file content _ => file content m
  | dir _ => dir m

/-- The directories among the entries. -/
def dirEntries : Set Entry := {e | ∃ m, e = .dir m}

/-- The path a file or directory is renamed to: a directory there takes it in. -/
noncomputable def Store.renameTarget (s : Store) (src dst : HPath) : HPath :=
  open Classical in if s.IsDir dirEntries dst then dst ++ src.drop (src.length - 1) else dst

/-- What `Stat` tells of an entry: its mode and its size. -/
def Entry.stat : Entry → ℕ × ℤ
  | file content m => (m ||| S_IFREG, content.length)
  | dir m => (m ||| S_IFDIR, 4096)

/-! ### Commands -/

variable {env : Env}

/-- A request to `XrdHdfsSys`: to change the name space, or to look at it. -/
inductive Command where
  | change (op : Operation)
  | stat (path : Bytes)

/-- What is returned, and what `Stat` told. -/
abbrev Reply := ℤ × Option (ℕ × ℤ)

namespace Operation

/-- What an operation answers and changes, in terms of the store. -/
noncomputable def on (env : Env) : Operation → Store → ℤ × Store
  | chmod path mode => attempt (fun s : Store => s (target env path) ≠ none)
      (fun s : Store => s.modify (Entry.setMode mode) (target env path)) 0 fun _ => -ENOENT
  | create path mode => attempt (fun s : Store => s.Room dirEntries (target env path))
      (fun s : Store => s.place (.dir 0o755) (.file [] mode) (target env path)) 0 fun _ => - EIO
  | mkdir path _ mkpath => attempt
      (fun s : Store => (mkpath ∨ s (target env path).dropLast ≠ none) ∧ s.Free dirEntries (target env path))
      (fun s : Store => s.fill (.dir 0o755) (target env path)) 0 fun s : Store =>
        open Classical in if mkpath ∨ s (target env path).dropLast ≠ none then - EIO else -ENOENT
  | remdir path =>
    attempt (fun s : Store => s.Removable (target env path)) (fun s : Store => s.erase (target env path)) 0 fun _ => - EIO
  | rename src dest => attempt
      (fun s : Store => s (target env src) ≠ none ∧ (s.renameTarget (target env src) (target env dest) = target env src ∨
        s.Movable dirEntries (target env src) (s.renameTarget (target env src) (target env dest))))
      (fun s : Store => open Classical in if s.renameTarget (target env src) (target env dest) = target env src then s
        else s.move (target env src) (s.renameTarget (target env src) (target env dest))) 0 fun _ => - EIO
  | truncate path _ => attempt (fun s : Store => s.Room dirEntries (target env path))
      (fun s : Store => s.place (.dir 0o755) (.file [] 0o644) (target env path)) 0 fun _ => - EIO
  | unlink path =>
    attempt (fun s : Store => s.Removable (target env path)) (fun s : Store => s.erase (target env path)) 0 fun s : Store =>
      open Classical in if s (target env path) = none then -ENOENT else -1

/-- The real paths begin with a slash, as far as it matters. -/
def Absolute (env : Env) : Operation → Prop
  | mkdir path _ _ => (env.getRealPath path).head? = some 47
  | _ => True

end Operation

namespace Command

/-- What a command answers and changes. -/
noncomputable def on (env : Env) : Command → Store → Reply × Store
  | change op, s => (((op.on env s).1, none), (op.on env s).2)
  | stat path, s =>
    match s (Operation.target env path) with
    | some e => ((0, some e.stat), s)
    | none => ((-ENOENT, none), s)

/-- The command as the plugin carries it out. -/
def run (env : Env) : Command → Prog World Reply
  | change op => do
    let rc ← op.run env
    pure (rc, none)
  | stat path => do
    let (rc, buf, _) ← XrdHdfs.stat env false path true
    pure (rc, buf.map fun buf => (buf.st_mode, buf.st_size))

/-- Requests one after the other, each with its reply; `c` says which command a request is. -/
def runAll (env : Env) {A : Type} (c : A → Command) : List A → Prog World (List (A × Reply))
  | [] => pure []
  | a :: as => do
    let r ← (c a).run env
    let rs ← runAll env c as
    pure ((a, r) :: rs)

def Absolute (env : Env) : Command → Prop
  | change op => op.Absolute env
  | stat _ => True

end Command

/-! ### What the name node does to the store -/

namespace Fs

variable {fs fs' : Fs} {p q : HPath} {i : ℕ}

theorem entry_eq_none : fs.entry p = none ↔ fs.tree p = none := by
  unfold entry
  split <;> simp [*]

theorem isDir_entry : PathStore.IsDir dirEntries fs.entry p ↔ fs.tree.IsDir p := by
  unfold PathStore.IsDir Tree.IsDir entry
  cases fs.tree p with
  | none => simp
  | some n => cases n <;> simp [dirEntries]

theorem isLeaf_entry : PathStore.IsLeaf dirEntries fs.entry p ↔ fs.tree.ino p ≠ none := by
  unfold PathStore.IsLeaf Tree.ino entry
  cases fs.tree p with
  | none => simp
  | some n => cases n <;> simp [dirEntries]

theorem free_entry : PathStore.Free dirEntries fs.entry p ↔ fs.tree.Mkdirable p := by
  unfold PathStore.Free Tree.Mkdirable
  simp only [isLeaf_entry, not_not, List.mem_inits]

theorem room_entry : PathStore.Room dirEntries fs.entry p ↔ fs.tree.Creatable p := by
  unfold PathStore.Room Tree.Creatable
  simp only [isLeaf_entry, isDir_entry, not_not, List.mem_inits]

theorem removable_entry : PathStore.Removable fs.entry p ↔ fs.delete p ≠ none := by
  unfold PathStore.Removable
  simp only [Ne, entry_eq_none]
  constructor
  · rintro ⟨hne, hex, hleaf⟩
    have hempty : ∀ q ∈ fs.paths, q.dropLast = p → q ≠ [] → fs.tree q = none := by
      rintro q - rfl hq
      rw [← List.dropLast_append_getLast hq]
      exact hleaf _
    unfold delete
    rw [dif_pos ⟨hne, hex, hempty⟩]
    exact Option.some_ne_none _
  · intro h
    obtain ⟨fs', hfs⟩ := Option.ne_none_iff_exists'.1 h
    have hne : p ≠ [] := by
      rintro rfl
      simp [delete] at h
    exact ⟨hne, delete_leaf hfs⟩

theorem renameTarget_entry (src dst : HPath) : Store.renameTarget fs.entry src dst = fs.renameTarget src dst := by
  unfold Store.renameTarget renameTarget
  simp only [isDir_entry]

theorem movable_entry {src dst : HPath} : PathStore.Movable dirEntries fs.entry src dst ↔ fs.Renamable src dst := by
  unfold PathStore.Movable Renamable
  rw [isDir_entry, entry_eq_none]

/-! ### The changes -/

theorem entry_mkdirs (h : fs.mkdirs p = some fs') : fs'.entry = PathStore.fill fs.entry (.dir 0o755) p := by
  unfold mkdirs at h
  split_ifs at h
  cases h
  funext q
  unfold PathStore.fill entry Tree.mkdirs
  by_cases hq : q <+: p ∧ fs.tree q = none
  · simp [hq]
  · have hq' : ¬ (q <+: p ∧ fs.entry q = none) := by rwa [entry_eq_none]
    unfold entry at hq'
    rw [if_neg hq']
    simp only [if_neg hq]

theorem entry_create (h : fs.create p = some (i, fs')) :
    fs'.entry = PathStore.place fs.entry (.dir 0o755) (.file [] 0o644) p := by
  have hput := Put.of_create h
  funext q
  unfold PathStore.place PathStore.fill
  by_cases hqp : q = p
  · subst hqp
    simp [entry, hput.tree, Tree.create, hput.data]
  · rw [if_neg hqp]
    by_cases hq : q <+: p ∧ fs.tree q = none
    · rw [if_pos (by rwa [entry_eq_none])]
      simp [entry, hput.tree, Tree.create, hqp, hq]
    · rw [if_neg (by rwa [entry_eq_none])]
      refine entry_congr ?_ fun i hi => hput.data_of_ino hi
      simp [hput.tree, Tree.create, hqp, hq]

theorem entry_delete (h : fs.delete p = some fs') : fs'.entry = PathStore.erase fs.entry p := by
  obtain ⟨hgone, hrest⟩ := onlyRemoved_of_delete h
  funext q
  unfold PathStore.erase
  split_ifs with hq
  · rw [hq, hgone]
  · exact hrest q hq

theorem entry_chmod {m : ℕ} (h : fs.chmod p m = some fs') : fs'.entry = PathStore.modify fs.entry (Entry.setMode m) p := by
  unfold chmod at h
  split_ifs at h
  cases h
  funext q
  unfold PathStore.modify entry Tree.chmod
  by_cases hq : q = p
  · subst hq
    simp only [if_true]
    cases fs.tree q with
    | none => rfl
    | some n => cases n <;> rfl
  · simp only [if_neg hq]

theorem entry_rename {src dst : HPath} (h : fs.rename src dst = some fs') :
    fs'.entry = open Classical in if fs.renameTarget src dst = src then fs.entry
      else PathStore.move fs.entry src (fs.renameTarget src dst) := by
  unfold rename at h
  dsimp only at h
  split_ifs at h with hnone heq hren
  · cases h
    rw [if_pos heq]
  · cases h
    rw [if_neg heq]
    funext q
    unfold PathStore.move entry Tree.move
    by_cases hd : fs.renameTarget src dst <+: q
    · simp only [if_pos hd]
    · by_cases hs : src <+: q
      · simp only [if_neg hd, if_pos hs]
      · simp only [if_neg hd, if_neg hs]

theorem rename_ne_none {src dst : HPath} : fs.rename src dst ≠ none ↔
    fs.tree src ≠ none ∧ (fs.renameTarget src dst = src ∨ fs.Renamable src (fs.renameTarget src dst)) := by
  unfold rename
  dsimp only
  split_ifs with hnone heq hren
  · simp [hnone]
  · simp [hnone, heq]
  · simp [hnone, hren]
  · simp [heq, hren]

end Fs

/-! ### Paths without their slashes -/

theorem resolve_append_slash (s u : Bytes) : resolve (s ++ 47 :: u) = resolve s ++ resolve u := by
  unfold resolve List.splitOn
  rw [List.splitOnP_append_cons _ _ (by simp), List.filter_append]

theorem resolve_of_not_mem {u : Bytes} (h : 47 ∉ u) (hne : u ≠ []) : resolve u = [u] := by
  unfold resolve List.splitOn
  rw [List.splitOnP_eq_singleton fun x hx => by simpa using ne_of_mem_of_not_mem hx h]
  simp [hne]

/-- Slashes at the end make no difference. -/
theorem resolve_rdropWhile (s : Bytes) : resolve (s.rdropWhile (· = 47)) = resolve s := by
  induction s using List.reverseRecOn with
  | nil => rfl
  | append_singleton s c ih =>
    rcases eq_or_ne c 47 with rfl | hc
    · rw [List.rdropWhile_concat_pos _ _ _ (by simp), ih, resolve_append_slash]
      exact (List.append_nil _).symm
    · rw [List.rdropWhile_concat_neg _ _ _ (by simpa using hc)]

/-- The directory above ends with a slash. -/
theorem parentDir_concat {t : Bytes} (h : parentDir t ≠ []) : ∃ s, parentDir t = s ++ [47] := by
  refine ⟨(parentDir t).dropLast, ?_⟩
  have hend := List.rdropWhile_last_not (fun c : UInt8 => decide (c ≠ 47)) t h
  have hend' : (parentDir t).getLast h = 47 := not_not.1 fun h => hend (decide_eq_true h)
  rw [← hend', List.dropLast_append_getLast h]

/-- The path up to its last slash is the directory above. -/
theorem resolve_parentDir {t : Bytes} (hlast : t.getLast? ≠ some 47) : resolve (parentDir t) = (resolve t).dropLast := by
  have hcut : parentDir t ++ t.rtakeWhile (· ≠ 47) = t := List.rdropWhile_append_rtakeWhile
  have hrest : 47 ∉ t.rtakeWhile (· ≠ 47) := fun hmem => by simpa using List.mem_rtakeWhile_imp hmem
  generalize t.rtakeWhile (· ≠ 47) = u at hcut hrest
  rcases eq_or_ne (parentDir t) [] with h0 | hne
  · -- one name, or nothing
    rw [h0, List.nil_append] at hcut
    subst hcut
    rw [h0]
    rcases eq_or_ne u [] with rfl | hu
    · rfl
    · rw [resolve_of_not_mem hrest hu]
      rfl
  · obtain ⟨s, hs⟩ := parentDir_concat hne
    rw [hs] at hcut ⊢
    have hu : u ≠ [] := by
      rintro rfl
      rw [← hcut, List.append_nil, List.getLast?_concat] at hlast
      exact hlast rfl
    rw [← hcut, List.append_assoc, List.singleton_append, resolve_append_slash, resolve_append_slash,
      resolve_of_not_mem hrest hu, List.dropLast_concat]
    exact List.append_nil _

/-- What `Mkdir` takes off the path is not seen, and what it leaves has the directory above. -/
theorem resolve_trimSlashes {path t : Bytes} (h : trimSlashes path = some t) :
    resolve t = resolve path ∧ resolve (parentDir t) = (resolve path).dropLast := by
  have ht := trimSlashes_eq_some h
  have hres : resolve t = resolve path := by rw [ht, resolve_rdropWhile]
  refine ⟨hres, ?_⟩
  rw [← hres]
  refine resolve_parentDir fun hlast => ?_
  obtain ⟨s, rfl⟩ : ∃ s, t = s ++ [47] := by
    rw [List.getLast?_eq_some_iff] at hlast
    exact hlast
  have hne : path.rdropWhile (· = 47) ≠ [] := by simp [← ht]
  have hend := List.rdropWhile_last_not (fun c : UInt8 => decide (c = 47)) path hne
  simp [← ht] at hend

/-- Where nothing is left, there was the root. -/
theorem resolve_of_trimSlashes_none {path : Bytes} (h : trimSlashes path = none) (hslash : path.head? = some 47) :
    resolve path = [] := by
  obtain ⟨rest, rfl⟩ : ∃ rest, path = 47 :: rest := by
    cases path with
    | nil => cases hslash
    | cons c rest => exact ⟨rest, by cases hslash; rfl⟩
  have hroot : resolve (47 :: rest) = resolve rest := resolve_append_slash [] rest
  unfold trimSlashes at h
  rw [hroot, ← resolve_rdropWhile]
  have hempty : rest.rdropWhile (· = 47) = [] := by
    by_contra hne
    have hpos := List.length_pos_iff.2 hne
    rw [if_neg] at h
    · cases h
    · simp only [List.take_succ_cons, List.take_zero, List.drop_succ_cons, List.drop_zero, List.length_append,
        List.length_singleton]
      omega
  rw [hempty]
  rfl

/-! ### Calls without faults -/

section Calm

variable {w : World} {c : LibCall} {e : ℤ} {f : Fs → Option Fs}

theorem take_errno (w : World) (c : Call) : (w.take c).2.errno = w.errno := by
  unfold World.take
  split <;> rfl

/-- Without faults a call does `f`, or fails where `f` refuses, and then `errno` says why. -/
theorem call_calm (hw : w.Calm) (hc : c.kind ≠ .pread) : (w.call c e f).2.Calm ∧
    ((∃ fs, f w.fs = some fs ∧ (w.call c e f).1 = 0 ∧ (w.call c e f).2.fs = fs ∧ (w.call c e f).2.errno = w.errno) ∨
      (f w.fs = none ∧ (w.call c e f).1 = -1 ∧ (w.call c e f).2.fs = w.fs ∧ (w.call c e f).2.errno = e)) := by
  refine ⟨(call_spec c e f w).1.calm hw, ?_⟩
  have hfs := take_fs (w := w) (c := c.kind)
  have herrno := take_errno w c.kind
  have hok : (w.take c.kind).1.error = none := (take_error hw).resolve_right fun h => hc h.1
  unfold World.call
  revert hfs herrno hok
  rcases w.take c.kind with ⟨a, w₁⟩
  intro hfs herrno hok
  dsimp only at hfs herrno hok ⊢
  rw [hok, ← hfs, ← herrno]
  cases h : f w₁.fs with
  | none => exact Or.inr ⟨rfl, rfl, rfl, rfl⟩
  | some fs => exact Or.inl ⟨fs, rfl, rfl, rfl, rfl⟩

theorem callOnce_calm (hw : w.Calm) (hc : c.kind ≠ .pread) :
    Gives (callOnce (World.call c e f)) w fun rc w' => w'.Calm ∧
      ((∃ fs, f w.fs = some fs ∧ rc = 0 ∧ w'.fs = fs) ∨ (f w.fs = none ∧ rc = emsg e ∧ w'.fs = w.fs)) := by
  unfold callOnce
  refine Gives.bind (Gives.step ?_)
  obtain ⟨hcalm, ⟨fs, hf, h0, hfs, -⟩ | ⟨hf, h1, hfs, herrno⟩⟩ := @call_calm w c e f hw hc
  · refine Gives.ite (fun h => absurd h (by rw [h0]; norm_num)) fun _ => Gives.pure ?_
    exact ⟨hcalm, Or.inl ⟨fs, hf, rfl, hfs⟩⟩
  · refine Gives.ite (fun _ => Gives.step ?_) fun h => absurd h1 h
    refine ⟨(errorCode_unchanged _ _ _).later.calm hcalm, Or.inr ⟨hf, ?_, hfs⟩⟩
    show emsg (w.call c e f).2.errno = emsg e
    rw [herrno]

theorem withConnection_calm {x : Prog World ℤ} {Q : ℤ → World → Prop} (hw : w.Calm)
    (hx : ∀ w₁ : World, w₁.Calm → w₁.fs = w.fs → w₁.errno = 0 → Gives x w₁ Q) : Gives (withConnection x) w Q := by
  have hu := connected_unchanged w
  refine withConnection_gives (fun hne => absurd ((hadoopConnect_spec w).2 hw) hne) fun _ => ?_
  exact hx w.connected (hu.later.calm hw) hu.fs rfl

theorem hdfsOpenFile_errno {path : Bytes} (hw : w.Calm) (h : (hdfsOpenFile path true w).1 = none) :
    (hdfsOpenFile path true w).2.errno = EIO := by
  have hok : (w.take .openFile).1.error = none := (take_error hw).resolve_right fun h => by cases h.1
  unfold hdfsOpenFile at h ⊢
  revert hok h
  rcases w.take .openFile with ⟨a, w₁⟩
  intro h hok
  dsimp only at hok h ⊢
  rw [hok] at h ⊢
  simp only [if_true] at h ⊢
  cases hc : w₁.fs.create (resolve path) with
  | none => rfl
  | some r =>
    rw [hc] at h
    cases h

theorem withNewFile_calm {path : Bytes} {x : Prog World ℤ} {Q : ℤ → World → Prop} (hw : w.Calm)
    (hno : w.fs.create (resolve path) = none → ∀ w' : World, w'.Calm → w'.fs = w.fs → Q (- EIO) w')
    (hx : ∀ i fs, w.fs.create (resolve path) = some (i, fs) → ∀ w₁ : World, w₁.Calm → w₁.fs = fs →
      Gives x w₁ fun rc w' => w'.Calm ∧ ∀ w'' : World, w''.Calm → w''.fs = w'.fs → Q rc w'') :
    Gives (withNewFile path x) w Q := by
  refine withConnection_calm hw fun w₁ hw₁ hfs₁ _ => ?_
  obtain ⟨hl, hopen⟩ := hdfsOpenFile_spec path true w₁
  have herrno := @hdfsOpenFile_errno w₁ path hw₁
  refine Gives.bind (Gives.step ?_)
  generalize hdfsOpenFile path true w₁ = r at hl hopen herrno
  obtain ⟨o, w₂⟩ := r
  dsimp only at hl hopen herrno ⊢
  rw [hfs₁] at hopen
  cases o with
  | none =>
    refine Gives.step ?_
    have hQ := hno (hopen.2 hw₁) (w₂.errorCode .sys .errno).2 ((errorCode_unchanged _ _ _).later.calm (hl.calm hw₁)) hopen.1
    show Q (emsg w₂.errno) _
    rw [herrno rfl]
    exact hQ
  | some h =>
    obtain ⟨-, hcreate⟩ := hopen
    refine Gives.bind ((hx h.ino w₂.fs hcreate w₂ (hl.calm hw₁) rfl).mono ?_)
    rintro rc w₃ ⟨hw₃, hQ⟩
    refine Gives.bind (Gives.step (Gives.pure ?_))
    obtain ⟨hu, -⟩ := hdfsCloseFile_spec h w₃
    exact hQ _ (hu.later.calm hw₃) hu.fs

end Calm

/-! ### The plugin over the store -/

/-- One call that answers 0, or `e` where `f` refuses, is an attempt on the store. -/
theorem callOnce_on {w : World} {c : LibCall} {e : ℤ} {f : Fs → Option Fs} {P : Store → Prop} {g : Store → Store}
    {error : Store → ℤ} {call : World → ℤ × World}
    (hcall : call = World.call c e f) (hw : w.Calm) (hc : c.kind ≠ .pread) (hP : f w.fs ≠ none ↔ P w.fs.entry)
    (hg : ∀ fs, f w.fs = some fs → fs.entry = g w.fs.entry) (he : f w.fs = none → emsg e = error w.fs.entry) :
    Gives (callOnce call) w fun rc w' => w'.Calm ∧ (rc, w'.fs.entry) = attempt P g 0 error w.fs.entry := by
  subst hcall
  refine (callOnce_calm hw hc).mono ?_
  rintro rc w' ⟨hcalm, ⟨fs, hf, rfl, hfs⟩ | ⟨hf, rfl, hfs⟩⟩
  · rw [attempt_pos (hP.1 (by simp [hf])), hfs, hg fs hf]
    exact ⟨hcalm, rfl⟩
  · rw [attempt_neg fun h => hP.2 h hf, hfs, he hf]
    exact ⟨hcalm, rfl⟩

/-- `hdfsCreateDirectory`, where what is above is there or is to be made. -/
theorem createDirectory_on {w : World} {path : Bytes} {p : HPath} (hp : resolve path = p) (hw : w.Calm) {C : Store → Prop}
    [DecidablePred C] (hC : C w.fs.entry) :
    Gives (callOnce (hdfsCreateDirectory path)) w fun rc w' => w'.Calm ∧ (rc, w'.fs.entry) =
      attempt (fun s : Store => C s ∧ s.Free dirEntries p) (fun s : Store => s.fill (.dir 0o755) p) 0
        (fun s => if C s then - EIO else -ENOENT) w.fs.entry := by
  subst hp
  refine callOnce_on rfl hw ?_ ?_ (fun fs h => Fs.entry_mkdirs h) fun _ => ?_
  · simp [LibCall.kind]
  · rw [and_iff_right hC, Fs.free_entry, Fs.mkdirs]
    split_ifs with h
    · simp [h]
    · simp [h]
  · rw [if_pos hC]
    rfl

theorem hdfsExists_calm (path : Bytes) {w : World} (hw : w.Calm) : (hdfsExists path w).2.Calm ∧
    (hdfsExists path w).2.fs = w.fs ∧
    ((w.fs.entry (resolve path) ≠ none ∧ (hdfsExists path w).1 = 0 ∧ (hdfsExists path w).2.errno = w.errno) ∨
      (w.fs.entry (resolve path) = none ∧ (hdfsExists path w).1 = -1 ∧ (hdfsExists path w).2.errno = ENOENT)) := by
  obtain ⟨hcalm, ⟨fs, hf, h0, hfs, herrno⟩ | ⟨hf, h1, hfs, herrno⟩⟩ :=
    @call_calm w (.exists path) ENOENT (fun fs => if fs.tree (resolve path) = none then none else some fs) hw
      (by simp [LibCall.kind])
  · split_ifs at hf with hnone
    obtain rfl := Option.some.inj hf
    exact ⟨hcalm, hfs, Or.inl ⟨by rwa [Ne, Fs.entry_eq_none], h0, herrno⟩⟩
  · split_ifs at hf with hnone
    exact ⟨hcalm, hfs, Or.inr ⟨Fs.entry_eq_none.2 hnone, h1, herrno⟩⟩

theorem parentMissing_calm (t : Bytes) {w : World} (hw : w.Calm) : (parentMissing t w).2.Calm ∧
    (parentMissing t w).2.fs = w.fs ∧
    ((w.fs.entry (resolve (parentDir t)) ≠ none ∧ (parentMissing t w).1 = 0) ∨
      (w.fs.entry (resolve (parentDir t)) = none ∧ (parentMissing t w).1 = -1 ∧ (parentMissing t w).2.errno = ENOENT)) := by
  unfold parentMissing
  split_ifs with hlen
  · -- the root is there
    have hroot : resolve (parentDir t) = [] := by
      rcases eq_or_ne (parentDir t) [] with h0 | hne
      · rw [h0]
        rfl
      · obtain ⟨s, hs⟩ := parentDir_concat hne
        rw [hs, List.length_append, List.length_singleton] at hlen
        obtain rfl : s = [] := List.length_eq_zero_iff.1 (by omega)
        rw [hs]
        exact resolve_append_slash [] []
    obtain ⟨m, hm⟩ := w.fs.valid.root
    refine ⟨hw, rfl, Or.inl ⟨?_, rfl⟩⟩
    rw [hroot, Ne, Fs.entry_eq_none, hm]
    exact Option.some_ne_none _
  · obtain ⟨hcalm, hfs, ⟨hex, h0, -⟩ | hno⟩ := hdfsExists_calm (parentDir t) hw
    · exact ⟨hcalm, hfs, Or.inl ⟨hex, h0⟩⟩
    · exact ⟨hcalm, hfs, Or.inr hno⟩

/-- `Mkdir` once it is connected. -/
theorem mkdir_on (path : Bytes) (mode : ℕ) (mkpath : Bool) (hop : (Operation.mkdir path mode mkpath).Absolute env) {w : World}
    (hw : w.Calm) :
    Gives (if mkpath then callOnce (hdfsCreateDirectory (env.getRealPath path)) else
      match trimSlashes (env.getRealPath path) with
      | none => pure 0
      | some path => do
        let missing ← .step (parentMissing path)
        if missing ≠ 0 then .step (World.errorCode .sys (.errnoOr ENOENT))
        else do
          .step World.clearErrno
          callOnce (hdfsCreateDirectory path)) w fun rc w' =>
      w'.Calm ∧ (rc, w'.fs.entry) = (Operation.mkdir path mode mkpath).on env w.fs.entry := by
  classical
  rw [Operation.on]
  refine Gives.ite (fun hmk => ?_) fun hmk => ?_
  · exact createDirectory_on rfl hw (C := fun s => mkpath ∨ s (Operation.target env path).dropLast ≠ none) (Or.inl hmk)
  cases htrim : trimSlashes (env.getRealPath path) with
  | none =>
    -- the root is there
    have hroot : Operation.target env path = [] := resolve_of_trimSlashes_none htrim hop
    obtain ⟨m, hm⟩ := w.fs.valid.root
    have hex : w.fs.entry [] ≠ none := by
      rw [Ne, Fs.entry_eq_none, hm]
      exact Option.some_ne_none _
    refine Gives.pure ⟨hw, ?_⟩
    rw [hroot, attempt_pos, PathStore.fill_nil _ _ hex]
    refine ⟨Or.inr hex, Fs.free_entry.2 ?_⟩
    intro q hq
    obtain rfl : q = [] := by simpa using hq
    exact w.fs.valid.root.ino
  | some t =>
    obtain ⟨hres, hparent⟩ := resolve_trimSlashes htrim
    obtain ⟨hcalm, hfs, hcase⟩ := parentMissing_calm t hw
    rw [hparent] at hcase
    refine Gives.bind (Gives.step ?_)
    generalize parentMissing t w = r at hcalm hfs hcase
    obtain ⟨missing, w₁⟩ := r
    dsimp only at hcalm hfs hcase ⊢
    rcases hcase with ⟨hex, rfl⟩ | ⟨hnone, rfl, herrno⟩
    · refine Gives.ite (fun h => absurd rfl h) fun _ => Gives.bind (Gives.step ?_)
      rw [← hfs]
      exact createDirectory_on (w := w₁.clearErrno.2) hres (fun c a ha => hcalm c a ha)
        (C := fun s => mkpath ∨ s (Operation.target env path).dropLast ≠ none) (Or.inr (by rwa [← hfs] at hex))
    · refine Gives.ite (fun _ => Gives.step ?_) fun h => absurd (by norm_num) h
      have hno : ¬ (mkpath ∨ w.fs.entry (Operation.target env path).dropLast ≠ none) := by
        rintro (h | h)
        · exact hmk h
        · exact h hnone
      rw [attempt_neg fun h => hno h.1, if_neg hno]
      refine ⟨(errorCode_unchanged _ _ _).later.calm hcalm, ?_⟩
      show (emsg w₁.errno, w₁.fs.entry) = _
      rw [herrno, hfs]
      rfl

theorem hdfsDelete_calm (path : Bytes) {w : World} (hw : w.Calm) : (hdfsDelete path w).2.Calm ∧
    ((∃ fs, w.fs.delete (resolve path) = some fs ∧ (hdfsDelete path w).1 = 0 ∧ (hdfsDelete path w).2.fs = fs ∧
        (hdfsDelete path w).2.errno = w.errno) ∨
      (w.fs.delete (resolve path) = none ∧ (hdfsDelete path w).1 = -1 ∧ (hdfsDelete path w).2.fs = w.fs ∧
        (hdfsDelete path w).2.errno = EIO)) :=
  call_calm hw (by simp [LibCall.kind])

/-- What `Unlink` makes of the failure of `hdfsDelete`: it tells a path where there is nothing from one that may not be
deleted. -/
theorem unlinkErrno_calm (path : Bytes) {w : World} (hw : w.Calm) (herrno : w.errno = EIO) :
    (unlinkErrno path w).2.Calm ∧ (unlinkErrno path w).2.fs = w.fs ∧
      ((w.fs.entry (resolve path) = none ∧ (unlinkErrno path w).2.errno = ENOENT) ∨
        (w.fs.entry (resolve path) ≠ none ∧ (unlinkErrno path w).2.errno = 0)) := by
  have hw₀ : ({ w with errno := 0 } : World).Calm := fun c a ha => hw c a ha
  obtain ⟨hcalm, hfs, ⟨hex, h0, he⟩ | ⟨hnone, h1, he⟩⟩ := hdfsExists_calm path hw₀
  · unfold unlinkErrno
    rw [if_pos herrno]
    refine ⟨fun c a ha => hcalm c a ha, hfs, Or.inr ⟨hex, ?_⟩⟩
    dsimp only
    rw [h0, if_neg (by norm_num), he]
  · unfold unlinkErrno
    rw [if_pos herrno]
    refine ⟨fun c a ha => hcalm c a ha, hfs, Or.inl ⟨hnone, ?_⟩⟩
    dsimp only
    rw [he, if_neg fun h => absurd h.2 (by decide)]

theorem unlink_on (path : Bytes) {w : World} (hw : w.Calm) :
    Gives (unlink env path) w fun rc w' => w'.Calm ∧ (rc, w'.fs.entry) = (Operation.unlink path).on env w.fs.entry := by
  have hu := connected_unchanged w
  have hcalm := hu.later.calm hw
  obtain ⟨hw₁, hdel⟩ := hdfsDelete_calm (env.getRealPath path) hcalm
  unfold unlink
  refine Gives.bind (Gives.step (Gives.ite (fun hne => absurd ((hadoopConnect_spec w).2 hw) hne) fun _ => ?_))
  refine Gives.bind (Gives.step (Gives.bind (Gives.step ?_)))
  rw [Operation.on, ← hu.fs]
  unfold World.connected at hw₁ hdel ⊢
  generalize hdfsDelete (env.getRealPath path) (hadoopConnect w).2.clearErrno.2 = r at hw₁ hdel
  obtain ⟨ret, w₁⟩ := r
  dsimp only at hw₁ hdel ⊢
  rcases hdel with ⟨fs, hdel, rfl, rfl, -⟩ | ⟨hdel, rfl, hfs, herrno⟩
  · refine Gives.ite (fun h => absurd h (by norm_num)) fun _ => Gives.pure ⟨hw₁, ?_⟩
    rw [attempt_pos (Fs.removable_entry.2 (by rw [Operation.target, hdel]; exact Option.some_ne_none _)), Fs.entry_delete hdel]
    rfl
  · refine Gives.ite (fun _ => Gives.bind (Gives.step (Gives.step ?_))) fun h => absurd rfl h
    rw [attempt_neg fun h => Fs.removable_entry.1 h hdel]
    obtain ⟨hw₂, hfs₂, hcase⟩ := unlinkErrno_calm (env.getRealPath path) hw₁ herrno
    refine ⟨(errorCode_unchanged _ _ _).later.calm hw₂, ?_⟩
    show (emsg (unlinkErrno (env.getRealPath path) w₁).2.errno, (unlinkErrno (env.getRealPath path) w₁).2.fs.entry) = _
    rw [hfs₂, ← hfs]
    rcases hcase with ⟨hnone, he⟩ | ⟨hex, he⟩
    · rw [he, Operation.target, if_pos hnone]
      rfl
    · rw [he, Operation.target, if_neg hex]
      rfl

/-- **An operation.** -/
theorem operation_on (op : Operation) (hop : op.Absolute env) {w : World} (hw : w.Calm) :
    Gives (op.run env) w fun rc w' => w'.Calm ∧ (rc, w'.fs.entry) = op.on env w.fs.entry := by
  have hdelete : ∀ {p : HPath} {fs : Fs}, fs.delete p ≠ none ↔ PathStore.Removable fs.entry p := Fs.removable_entry.symm
  have hno' : ∀ {p : HPath} {fs : Fs}, fs.create p = none → ¬ PathStore.Room dirEntries fs.entry p := by
    intro p fs hno
    rw [Fs.room_entry]
    intro h
    simp [Fs.create, h] at hno
  have hyes : ∀ {p : HPath} {fs fs' : Fs} {i : ℕ}, fs.create p = some (i, fs') → PathStore.Room dirEntries fs.entry p :=
    fun h => Fs.room_entry.2 (Fs.create_eq_some h).2.1
  cases op with
  | chmod path mode =>
    refine withConnection_calm hw fun w₁ hw₁ hfs _ => ?_
    rw [← hfs, Operation.on]
    refine callOnce_on rfl hw₁ ?_ ?_ (fun fs h => Fs.entry_chmod h) fun _ => ?_
    · simp [LibCall.kind]
    · rw [Ne, Ne, Fs.entry_eq_none, Fs.chmod, Operation.target]
      split_ifs with h
      · simp [h]
      · simp [h]
    · rfl
  | create path mode =>
    refine withNewFile_calm hw (fun hno w' hw' hfs => ?_) fun i fs hcreate w₁ hw₁ hfs₁ => ?_
    · rw [Operation.on, attempt_neg (hno' hno), hfs]
      exact ⟨hw', rfl⟩
    · -- what was just made can be given its mode
      have hnew : fs.chmod (Operation.target env path) mode ≠ none := by
        rw [Fs.chmod, if_neg]
        · exact Option.some_ne_none _
        · rw [(Fs.Put.of_create hcreate).tree]
          simp [Tree.create, Operation.target]
      refine (@callOnce_calm w₁ _ _ _ hw₁ ?_).mono ?_
      · simp [LibCall.kind]
      rintro rc w₂ ⟨hw₂, ⟨fs', hch, rfl, hfs₂⟩ | ⟨hch, -⟩⟩
      · refine ⟨hw₂, fun w' hw' hfs' => ?_⟩
        rw [hfs₁] at hch
        rw [Operation.on, attempt_pos (hyes hcreate), hfs', hfs₂, Fs.entry_chmod hch, Fs.entry_create hcreate]
        exact ⟨hw', by rw [PathStore.modify_place]; rfl⟩
      · rw [hfs₁] at hch
        exact absurd hch hnew
  | mkdir path mode mkpath =>
    refine withConnection_calm hw fun w₁ hw₁ hfs _ => ?_
    rw [← hfs]
    exact mkdir_on path mode mkpath hop hw₁
  | remdir path =>
    refine withConnection_calm hw fun w₁ hw₁ hfs _ => ?_
    rw [← hfs, Operation.on]
    refine callOnce_on rfl hw₁ ?_ hdelete (fun fs h => Fs.entry_delete h) fun _ => ?_
    · simp [LibCall.kind]
    · rfl
  | rename src dest =>
    refine withConnection_calm hw fun w₁ hw₁ hfs _ => ?_
    rw [← hfs, Operation.on]
    refine callOnce_on rfl hw₁ ?_ ?_ (fun fs h => ?_) fun _ => ?_
    · simp [LibCall.kind]
    · rw [Fs.rename_ne_none, Ne, Ne, Fs.entry_eq_none, Fs.renameTarget_entry, Fs.movable_entry]
      rfl
    · rw [Fs.entry_rename h, Fs.renameTarget_entry]
      rfl
    · rfl
  | truncate path newsize =>
    refine withNewFile_calm hw (fun hno w' hw' hfs => ?_) fun i fs hcreate w₁ hw₁ hfs₁ =>
      Gives.pure ⟨hw₁, fun w' hw' hfs' => ?_⟩
    · rw [Operation.on, attempt_neg (hno' hno), hfs]
      exact ⟨hw', rfl⟩
    · rw [Operation.on, attempt_pos (hyes hcreate), hfs', hfs₁, Fs.entry_create hcreate]
      exact ⟨hw', rfl⟩
  | unlink path => exact unlink_on path hw

/-- What `hdfsGetPathInfo` knows of a path, as `Stat` tells it. -/
theorem hdfsGetPathInfo_calm (path : Bytes) {w : World} (hw : w.Calm) : (hdfsGetPathInfo path w).2.Calm ∧
    (hdfsGetPathInfo path w).2.fs = w.fs ∧
    ((∃ e info, w.fs.entry (resolve path) = some e ∧ (hdfsGetPathInfo path w).1 = some info ∧
        (info.toStat.st_mode, info.toStat.st_size) = e.stat) ∨
      (w.fs.entry (resolve path) = none ∧ (hdfsGetPathInfo path w).1 = none ∧ (hdfsGetPathInfo path w).2.errno = ENOENT)) := by
  have hu := hdfsGetPathInfo_spec path w
  refine ⟨hu.later.calm hw, hu.fs, ?_⟩
  have hfs := take_fs (w := w) (c := .getPathInfo)
  have hok : (w.take .getPathInfo).1.error = none := (take_error hw).resolve_right fun h => by cases h.1
  unfold hdfsGetPathInfo
  revert hfs hok
  rcases w.take .getPathInfo with ⟨a, w₁⟩
  intro hfs hok
  dsimp only at hfs hok ⊢
  rw [hok, ← hfs]
  unfold World.fileInfo Fs.entry
  cases w₁.fs.tree (resolve path) with
  | none => exact Or.inr ⟨rfl, rfl, rfl⟩
  | some n =>
    cases n with
    | dir m => exact Or.inl ⟨_, _, rfl, rfl, rfl⟩
    | file i m => exact Or.inl ⟨_, _, rfl, rfl, rfl⟩

/-- `Stat` of a path. -/
theorem stat_on (path : Bytes) {w : World} (hw : w.Calm) :
    Gives ((Command.stat path).run env) w fun r w' => w'.Calm ∧ (r, w'.fs.entry) = (Command.stat path).on env w.fs.entry := by
  obtain ⟨hu, h0⟩ := hadoopConnect_spec w
  obtain ⟨hw₁, hfs, hinfo⟩ := hdfsGetPathInfo_calm (env.getRealPath path) (hu.later.calm hw)
  rw [Command.run, stat, Command.on, ← hu.fs]
  refine Gives.bind (Gives.bind (Gives.step (Gives.ite (fun hne => absurd (h0 hw) hne) fun _ => ?_)))
  unfold statConnect statPath
  simp only [if_true]
  refine Gives.bind (Gives.bind (Gives.step ?_))
  generalize hdfsGetPathInfo (env.getRealPath path) (hadoopConnect w).2 = r at hw₁ hfs hinfo
  obtain ⟨o, w₁⟩ := r
  dsimp only at hw₁ hfs hinfo ⊢
  rcases hinfo with ⟨e, info, he, rfl, hstat⟩ | ⟨hnone, rfl, herrno⟩
  · refine Gives.pure (Gives.pure (Gives.pure ⟨hw₁, ?_⟩))
    rw [Operation.target, he, hfs]
    dsimp only
    rw [← hstat]
    rfl
  · refine Gives.bind (Gives.step (Gives.pure (Gives.pure (Gives.pure ⟨(errorCode_unchanged _ _ _).later.calm hw₁, ?_⟩))))
    rw [Operation.target, hnone]
    show ((emsg w₁.errno, _), w₁.fs.entry) = _
    rw [herrno, hfs]
    rfl

/-- **A command.** -/
theorem command_on (c : Command) (hc : c.Absolute env) {w : World} (hw : w.Calm) :
    Gives (c.run env) w fun r w' => w'.Calm ∧ (r, w'.fs.entry) = c.on env w.fs.entry := by
  cases c with
  | change op =>
    refine Gives.bind ((operation_on op hc hw).mono ?_)
    rintro rc w' ⟨hw', h⟩
    refine Gives.pure ⟨hw', ?_⟩
    rw [Command.on, ← h]
  | stat path => exact stat_on path hw

/-- Requests in HDFS with the one-byte file `/a`: one of them fails. -/
def someCommands : List Command :=
  [.change (.mkdir (str "/d/e") 0o755 false), .change (.mkdir (str "/d/") 0o755 false), .change (.rename (str "/a") (str "/d")),
    .stat (str "/d/a"), .change (.unlink (str "/a"))]

example : ((Command.runAll Reference.env id someCommands).run 9 onlyA).map (fun r => r.1.map Prod.snd) =
    some [(-ENOENT, none), (0, none), (0, none), (0, some (0o644 ||| S_IFREG, 1)), (-ENOENT, none)] := by
  decide +kernel

end XrdHdfs
