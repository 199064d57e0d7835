import XrdHdfs.ManagerSpec
import XrdHdfs.System

/-!
# What the name-space operations do

`operation_spec` says of each operation of `XrdHdfsSys` what a success did to the file system, and that a failure
left it alone, but for a `Create` whose file was made before its mode could be set.  From it follow which operations
do what they are asked for (`effects_iff`) and when a failed one is atomic (`failed_atomic_iff`).
-/

namespace XrdHdfs

open Lib World

variable {env : Env}

/-! ### Requests -/

/-- The operations of `XrdHdfsSys` on the name space. -/
inductive Operation where
  | chmod (path : Bytes) (mode : ℕ)
  | create (path : Bytes) (mode : ℕ)
  | mkdir (path : Bytes) (mode : ℕ) (mkpath : Bool)
  | remdir (path : Bytes)
  | rename (src dest : Bytes)
  | truncate (path : Bytes) (newsize : ℕ)
  | unlink (path : Bytes)

namespace Operation

def run (env : Env) : Operation → Prog World ℤ
  | chmod path mode => XrdHdfs.chmod env path mode
  | create path mode => XrdHdfs.create env path mode
  | mkdir path mode mkpath => XrdHdfs.mkdir env path mode mkpath
  | remdir path => XrdHdfs.remdir env path
  | rename src dest => XrdHdfs.rename env src dest
  | truncate path newsize => XrdHdfs.truncate env path newsize
  | unlink path => XrdHdfs.unlink env path

/-- The path in HDFS. -/
def target (env : Env) (path : Bytes) : HPath := resolve (env.getRealPath path)

/-- What a success did to the file system. -/
def Did (env : Env) (fs fs' : Fs) : Operation → Prop
  | chmod path mode => fs.chmod (target env path) mode = some fs'
  | create path mode => ∃ i fs₁, fs.create (target env path) = some (i, fs₁) ∧ fs₁.chmod (target env path) mode = some fs'
  | mkdir _ _ _ => fs' = fs ∨ ∃ p, fs.mkdirs p = some fs'
  | remdir path => fs.delete (target env path) = some fs'
  | rename src dest => fs.rename (target env src) (target env dest) = some fs'
  | truncate path _ => ∃ i, fs.create (target env path) = some (i, fs')
  | unlink path => fs.delete (target env path) = some fs'

end Operation

/-! ### The common frame -/

/-- The world in which an operation makes its first call. -/
def World.connected (w : World) : World := (hadoopConnect w).2.clearErrno.2

theorem connected_unchanged (w : World) : Unchanged w w.connected :=
  (hadoopConnect_spec w).1.trans ⟨rfl, .of_script rfl⟩

/-- What is known of an operation that connects: it failed to, or it went on. -/
theorem withConnection_gives {x : Prog World ℤ} {w : World} {Q : ℤ → World → Prop}
    (hfail : (hadoopConnect w).1 ≠ 0 → ∀ rc w', rc < 0 → w'.fs = w.fs → Q rc w')
    (hx : (hadoopConnect w).1 = 0 → Gives x w.connected Q) : Gives (withConnection x) w Q := by
  unfold withConnection
  refine Gives.bind (Gives.step (Gives.ite (fun hne => Gives.step ?_) fun h0 => Gives.bind (Gives.step ?_)))
  · exact hfail hne _ _ (emsg_neg _) (hadoopConnect_spec w).1.fs
  · exact hx (not_not.1 h0)

/-- One call does its work, or it fails and changes nothing. -/
theorem callOnce_spec (c : LibCall) (e : ℤ) (f : Fs → Option Fs) (w : World) :
    Gives (callOnce (World.call c e f)) w fun rc w' => (rc = 0 ∧ f w.fs = some w'.fs) ∨ (rc < 0 ∧ w'.fs = w.fs) := by
  unfold callOnce
  refine Gives.bind (Gives.step ?_)
  obtain ⟨-, ⟨h0, hfs⟩ | ⟨h1, hfs, -⟩⟩ := call_spec c e f w
  · exact Gives.ite (fun h => absurd h (by rw [h0]; norm_num)) fun _ => Gives.pure (Or.inl ⟨rfl, hfs⟩)
  · exact Gives.ite (fun _ => Gives.step (Or.inr ⟨emsg_neg _, hfs⟩)) fun h => absurd h1 h

/-- An operation of one call. -/
theorem simple_spec (c : LibCall) (e : ℤ) (f : Fs → Option Fs) (w : World) :
    Gives (withConnection (callOnce (World.call c e f))) w fun rc w' =>
      (rc = 0 ∧ f w.fs = some w'.fs) ∨ (rc < 0 ∧ w'.fs = w.fs) := by
  refine withConnection_gives (fun _ rc w' hrc hfs => Or.inr ⟨hrc, hfs⟩) fun _ => ?_
  have hu := connected_unchanged w
  have h := callOnce_spec c e f w.connected
  rwa [hu.fs] at h

theorem mkdir_spec (path : Bytes) (mode : ℕ) (mkpath : Bool) (w : World) :
    Gives (mkdir env path mode mkpath) w fun rc w' =>
      (rc = 0 ∧ (w'.fs = w.fs ∨ ∃ p, w.fs.mkdirs p = some w'.fs)) ∨ (rc < 0 ∧ w'.fs = w.fs) := by
  have hcall : ∀ path w₁, w₁.fs = w.fs → Gives (callOnce (hdfsCreateDirectory path)) w₁ fun rc w' =>
      (rc = 0 ∧ (w'.fs = w.fs ∨ ∃ p, w.fs.mkdirs p = some w'.fs)) ∨ (rc < 0 ∧ w'.fs = w.fs) := by
    intro path w₁ hfs
    refine (callOnce_spec (.mkdir path) EIO (fun fs => fs.mkdirs (resolve path)) w₁).mono ?_
    rintro rc w' (⟨hrc, h⟩ | ⟨hrc, h⟩)
    · exact Or.inl ⟨hrc, Or.inr ⟨_, by rw [← hfs, h]⟩⟩
    · exact Or.inr ⟨hrc, h.trans hfs⟩
  have hu := connected_unchanged w
  refine withConnection_gives (fun _ rc w' hrc hfs => Or.inr ⟨hrc, hfs⟩) fun _ => ?_
  refine Gives.ite (fun _ => hcall _ _ hu.fs) fun _ => ?_
  cases trimSlashes (env.getRealPath path) with
  | none => exact Gives.pure (Or.inl ⟨rfl, Or.inl hu.fs⟩)
  | some path =>
    -- asking for the directory above changes nothing
    have hparent : ((parentMissing path w.connected).2).fs = w.fs := by
      unfold parentMissing
      split
      · exact hu.fs
      · exact (hdfsExists_unchanged _ _).fs.trans hu.fs
    refine Gives.bind (Gives.step (Gives.ite (fun _ => Gives.step (Or.inr ⟨emsg_neg _, hparent⟩)) fun _ => ?_))
    exact Gives.bind (Gives.step (hcall _ _ hparent))

/-- `hdfsOpenFile` for writing succeeds. -/
def Opens (path : Bytes) (w : World) : Prop :=
  (hadoopConnect w).1 = 0 ∧ (hdfsOpenFile path true w.connected).1 ≠ none

/-- An operation on a new file. -/
theorem withNewFile_spec (path : Bytes) {x : Prog World ℤ} (w : World) {P : Fs → ℤ → World → Prop}
    (hP : ∀ fs rc w' w'', P fs rc w' → w''.fs = w'.fs → P fs rc w'')
    (hx : ∀ w₁, Gives x w₁ (P w₁.fs)) :
    Gives (withNewFile path x) w fun rc w' => (rc < 0 ∧ w'.fs = w.fs ∧ ¬ Opens path w) ∨
      (Opens path w ∧ ∃ i fs₁, w.fs.create (resolve path) = some (i, fs₁) ∧ P fs₁ rc w') := by
  refine withConnection_gives (fun hne rc w' hrc hfs => Or.inl ⟨hrc, hfs, fun h => hne h.1⟩) fun h0 => ?_
  have hu := connected_unchanged w
  obtain ⟨-, hopen⟩ := hdfsOpenFile_spec path true w.connected
  have hopens : Opens path w ↔ (hdfsOpenFile path true w.connected).1 ≠ none := and_iff_right h0
  refine Gives.bind (Gives.step ?_)
  generalize hdfsOpenFile path true w.connected = r at hopen hopens
  obtain ⟨o, w₁⟩ := r
  dsimp only at hopen hopens ⊢
  rw [hu.fs] at hopen
  cases o with
  | none => exact Gives.step (Or.inl ⟨emsg_neg _, hopen.1, by simp [hopens]⟩)
  | some h =>
    refine Gives.bind ((hx w₁).mono fun rc w₂ hrc => ?_)
    refine Gives.bind (Gives.step (Gives.pure (Or.inr ⟨hopens.2 (by simp), h.ino, w₁.fs, hopen.2, ?_⟩)))
    exact hP _ _ _ _ hrc (hdfsCloseFile_spec h w₂).1.fs

/-! ### One operation -/

/-- The condition under which a failed operation leaves everything alone: `Create` has not come to make its file, or
it replaced an empty file of the default mode by another. -/
def Operation.Atomic (env : Env) (w : World) : Operation → Prop
  | create path _ => ¬ Opens (env.getRealPath path) w ∨ w.fs.entry (target env path) = some (.file [] 0o644)
  | _ => True

/-- **What an operation does.** A success did what the operation is there for; a failure changed nothing, but for a
`Create` that made its file. -/
theorem operation_spec (op : Operation) (w : World) :
    Gives (op.run env) w fun rc w' => (rc = 0 ∧ op.Did env w.fs w'.fs) ∨ (rc < 0 ∧ w'.fs = w.fs ∧ op.Atomic env w) ∨
      (rc < 0 ∧ ∃ path mode i, op = .create path mode ∧ Opens (env.getRealPath path) w ∧
        w.fs.create (Operation.target env path) = some (i, w'.fs)) := by
  -- an operation that does all or nothing
  have hsimple : ∀ {op : Operation} {rc : ℤ} {w' : World}, (rc = 0 ∧ op.Did env w.fs w'.fs) ∨ (rc < 0 ∧ w'.fs = w.fs) →
      op.Atomic env w → (rc = 0 ∧ op.Did env w.fs w'.fs) ∨ (rc < 0 ∧ w'.fs = w.fs ∧ op.Atomic env w) ∨
        (rc < 0 ∧ ∃ path mode i, op = .create path mode ∧ Opens (env.getRealPath path) w ∧
          w.fs.create (Operation.target env path) = some (i, w'.fs)) :=
    fun h ha => h.imp_right fun h => Or.inl ⟨h.1, h.2, ha⟩
  cases op with
  | chmod path mode => exact (simple_spec (.chmod _ mode) ENOENT _ w).mono fun rc w' h => hsimple h trivial
  | remdir path => exact (simple_spec (.delete _) EIO _ w).mono fun rc w' h => hsimple h trivial
  | rename src dest => exact (simple_spec (.rename _ _) EIO _ w).mono fun rc w' h => hsimple h trivial
  | unlink path =>
    refine (unlink_mapped path w).mono ?_
    rintro rc w' ⟨-, hle, h0, hne⟩
    rcases eq_or_lt_of_le hle with rfl | hlt
    · exact Or.inl ⟨rfl, h0 rfl⟩
    · exact Or.inr (Or.inl ⟨hlt, hne hlt.ne, trivial⟩)
  | mkdir path mode mkpath =>
    exact (mkdir_spec path mode mkpath w).mono fun rc w' h => hsimple h trivial
  | truncate path newsize =>
    refine (withNewFile_spec (env.getRealPath path) w (P := fun fs rc w' => rc = 0 ∧ w'.fs = fs)
      (fun fs rc w' w'' h hfs => ⟨h.1, hfs.trans h.2⟩) fun w₁ => Gives.pure ⟨rfl, rfl⟩).mono ?_
    rintro rc w' (⟨hrc, hfs, -⟩ | ⟨-, i, fs₁, hc, hrc, rfl⟩)
    · exact Or.inr (Or.inl ⟨hrc, hfs, trivial⟩)
    · exact Or.inl ⟨hrc, i, hc⟩
  | create path mode =>
    refine (withNewFile_spec (env.getRealPath path) w
      (P := fun fs rc w' => (rc = 0 ∧ fs.chmod (Operation.target env path) mode = some w'.fs) ∨ (rc < 0 ∧ w'.fs = fs))
      (fun fs rc w' w'' h hfs => by rwa [hfs]) fun w₁ => callOnce_spec (.chmod _ mode) ENOENT _ w₁).mono ?_
    rintro rc w' (⟨hrc, hfs, hno⟩ | ⟨hop, i, fs₁, hc, ⟨hrc, hch⟩ | ⟨hrc, rfl⟩⟩)
    · exact Or.inr (Or.inl ⟨hrc, hfs, Or.inl hno⟩)
    · exact Or.inl ⟨hrc, i, fs₁, hc, hch⟩
    · exact Or.inr (Or.inr ⟨hrc, path, mode, i, rfl, hop, hc⟩)

/-! ### Successful operations -/

/-- A directory with nothing in it. -/
def EmptyDir (fs : Fs) (p : HPath) : Prop := fs.tree.IsDir p ∧ ∀ c, fs.tree (p ++ [c]) = none

/-- The first bytes of the file at `p`, filled up with zeros: what `p` should hold when it is truncated to a size. -/
def resized (fs : Fs) (p : HPath) (newsize : ℕ) : Bytes := ((fs.view p).getD []).takeD newsize 0

/-- The access mode asks for writing. -/
def WriteMode (openMode : ℕ) : Prop := openMode &&& 3 = O_WRONLY ∨ openMode &&& 3 = O_RDWR

theorem writing_iff {openMode : ℕ} (h : openMode &&& O_TRUNC = 0) : writing openMode ↔ WriteMode openMode := by
  unfold writing openFlag WriteMode
  rw [if_neg (by simp [h])]
  by_cases h0 : openMode &&& 3 = O_RDONLY
  · simp [h0]
  · by_cases h1 : openMode &&& 3 = O_WRONLY
    · simp [h1]
    · by_cases h2 : openMode &&& 3 = O_RDWR
      · simp [h2]
      · simp [h0, h1, h2]

/-- HDFS with the one-byte file `/a`. -/
def onlyA : World where
  fs := .ofFiles [(str "/a", str "x")]

/-- **Successful operations.** In every world, a `Truncate` that returns 0 has resized the file if and only if the size
asked for is 0; a `Remdir` that returns 0 has removed an empty directory and nothing else if and only if there was a
directory; an `Unlink`, something else than a directory if and only if there was none; and an `Open` without `O_TRUNC`
that returns 0 has left an existing file alone if and only if the file is empty or is not opened for writing. -/
theorem effects_iff (path : Bytes) (newsize openMode : ℕ) (f : File env) (w : World) :
    Gives (truncate env path newsize) w (fun rc w' => rc = 0 →
        (w'.fs.view (Operation.target env path) = some (resized w.fs (Operation.target env path) newsize) ↔
          newsize = 0)) ∧
      Gives (remdir env path) w (fun rc w' => rc = 0 →
        (EmptyDir w.fs (Operation.target env path) ∧ w.fs.OnlyRemoved (Operation.target env path) w'.fs ↔
          w.fs.tree.IsDir (Operation.target env path))) ∧
      Gives (unlink env path) w (fun rc w' => rc = 0 →
        (¬ w.fs.tree.IsDir (Operation.target env path) ∧ w.fs.OnlyRemoved (Operation.target env path) w'.fs ↔
          ¬ w.fs.tree.IsDir (Operation.target env path))) ∧
      Gives (f.openFile path openMode) w fun r w' => openMode &&& O_TRUNC = 0 → r.1 = 0 →
        ∀ D, w.fs.view (Operation.target env path) = some D →
          (w'.fs.view (Operation.target env path) = some D ↔ D = [] ∨ ¬ WriteMode openMode) := by
  refine ⟨?_, ?_, ?_, ?_⟩
  · refine (operation_spec (.truncate path newsize) w).mono ?_
    rintro rc w' (⟨-, i, hc⟩ | ⟨hrc, -⟩ | ⟨hrc, -⟩) h0
    · rw [(Fs.Put.of_create hc).view, resized, Option.some.injEq]
      constructor
      · intro h
        have hlen := congrArg List.length h
        simpa using hlen.symm
      · rintro rfl
        simp
    · exact absurd h0 hrc.ne
    · exact absurd h0 hrc.ne
  · refine (operation_spec (.remdir path) w).mono ?_
    rintro rc w' (⟨-, hdel⟩ | ⟨hrc, -⟩ | ⟨hrc, -⟩) h0
    · exact ⟨fun h => h.1.1, fun h => ⟨⟨h, (Fs.delete_leaf hdel).2⟩, Fs.onlyRemoved_of_delete hdel⟩⟩
    · exact absurd h0 hrc.ne
    · exact absurd h0 hrc.ne
  · refine (operation_spec (.unlink path) w).mono ?_
    rintro rc w' (⟨-, hdel⟩ | ⟨hrc, -⟩ | ⟨hrc, -⟩) h0
    · exact and_iff_left (Fs.onlyRemoved_of_delete hdel)
    · exact absurd h0 hrc.ne
    · exact absurd h0 hrc.ne
  · by_cases hfh : f.fh.isSome
    · unfold File.openFile
      rw [if_pos hfh]
      exact Gives.pure fun _ h => absurd h (show ¬ -EINVAL = 0 by decide)
    refine (File.openFile_spec f (by simpa using hfh) path openMode w).mono ?_
    rintro r w' (⟨hr, -⟩ | ⟨-, -, h, -, hat, -⟩) htrunc h0 D hD
    · exact absurd h0 hr.ne
    rw [← writing_iff htrunc]
    unfold File.OpenedAt at hat
    by_cases hw : writing openMode
    · rw [if_pos hw] at hat
      rw [or_iff_left (not_not.2 hw)]
      show w'.fs.view (resolve (env.getRealPath path)) = some D ↔ D = []
      rw [(Fs.Put.of_create hat).view, Option.some.injEq]
      exact eq_comm
    · rw [if_neg hw] at hat
      rw [hat.2]
      exact iff_of_true hD (Or.inr hw)

/-- `Truncate` to the size that the file has empties it. -/
theorem truncate_empties : onlyA.fs.view (resolve (str "/a")) = some (str "x") ∧
    ((truncate Reference.env (str "/a") 1).run 1 onlyA).map (fun r => (r.1, r.2.fs.view (resolve (str "/a")))) =
      some (0, some []) ∧
    resized onlyA.fs (resolve (str "/a")) 1 = str "x" := by
  decide +kernel

/-! ### Failed operations -/

/-- No path has changed: not what is there, its content or its mode. -/
def SameTree (fs fs' : Fs) : Prop := ∀ p, fs'.entry p = fs.entry p

theorem SameTree.of_eq {fs fs' : Fs} (h : fs' = fs) : SameTree fs fs' := by
  rw [h]
  exact fun _ => rfl

/-- A new file changes the tree, unless it is like the one it replaces. -/
theorem sameTree_create_iff {fs fs' : Fs} {p : HPath} {i : ℕ} (h : fs.create p = some (i, fs')) :
    SameTree fs fs' ↔ fs.entry p = some (.file [] 0o644) := by
  have hput := Fs.Put.of_create h
  have hnew : fs'.entry p = some (.file [] 0o644) := by
    simp [Fs.entry, hput.tree, Tree.create, hput.data]
  constructor
  · intro hsame
    rw [← hsame p, hnew]
  · intro hold q
    rcases eq_or_ne q p with rfl | hq
    · rw [hnew, hold]
    · rcases hput.entry_of_ne hq with heq | ⟨hup, hnone, -⟩
      · exact heq
      · -- above a file there are directories
        obtain ⟨r, rfl⟩ := hup
        have hr : r ≠ [] := by
          rintro rfl
          simp at hq
        have hex : fs.tree (q ++ r) ≠ none := by
          intro h0
          simp [Fs.entry, h0] at hold
        obtain ⟨m, hm⟩ := fs.valid.isDir_of_prefix hr hex
        simp [Fs.entry, hm] at hnone

/-- **Failed operations.** In every world, an operation that returns a nonzero code has left every path as it was if
and only if it is no `Create` that made a file unlike the one that was there. -/
theorem failed_atomic_iff (op : Operation) (w : World) :
    Gives (op.run env) w fun rc w' => rc ≠ 0 → (SameTree w.fs w'.fs ↔ op.Atomic env w) := by
  refine (operation_spec op w).mono ?_
  rintro rc w' (⟨hrc, -⟩ | ⟨-, hfs, hat⟩ | ⟨-, path, mode, i, rfl, hop, hc⟩) hne
  · exact absurd hrc hne
  · exact iff_of_true (.of_eq hfs) hat
  · rw [sameTree_create_iff hc]
    exact (or_iff_right (not_not.2 hop)).symm

/-- HDFS with the one-byte file `/a`; the first `hdfsChmod` fails. -/
def chmodFails : World where
  fs := .ofFiles [(str "/a", str "x")]
  script c := if c = .chmod then [.fail EIO] else []

/-- `Create` of an existing file reports the error of `hdfsChmod`, and the file has lost its content. -/
theorem create_loses_file : chmodFails.fs.view (resolve (str "/a")) = some (str "x") ∧
    ((Operation.create (str "/a") 0o600).run Reference.env |>.run 1 chmodFails).map
      (fun r => (r.1, r.2.fs.view (resolve (str "/a")))) = some (- EIO, some []) := by
  decide +kernel

end XrdHdfs
