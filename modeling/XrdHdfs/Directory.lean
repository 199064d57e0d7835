import XrdHdfs.RecordIO
import XrdHdfs.System

/-!
# `Stat`, and the enumeration of a directory

`Stat` and `Fstat`, and `XrdHdfsDirectory` with its `Opendir`, `Readdir`, `StatRet` and `Close`.

`Readdir` should give the entries of the listing one by one, each by its last component.  But it erases the path up to
its last slash and leaves the slash there; `enumerates_iff` says when this does not show.  What is left of the listing is
followed through the calls of a session.
-/

namespace XrdHdfs

open Lib World

variable {env : Env}

/-! ### `struct stat` -/

abbrev S_IFDIR : ℕ := 0o040000
abbrev S_IFREG : ℕ := 0o100000

/-- `struct stat`, as far as it is filled. -/
structure Stat where
  st_mode : ℕ
  st_nlink : ℕ
  st_uid : ℕ
  st_gid : ℕ
  st_size : ℤ
  st_mtime : ℤ
  st_atime : ℤ
  st_ctime : ℤ
  st_dev : ℕ
  st_ino : ℕ
  deriving DecidableEq

/-- What `Stat`, `Fstat` and `Readdir` make of an `hdfsFileInfo`, line by line the same. -/
def FileInfo.toStat (fileInfo : FileInfo) : Stat where
  st_mode := fileInfo.mPermissions ||| if fileInfo.mKind = .directory then S_IFDIR else S_IFREG
  st_nlink := if fileInfo.mKind = .directory then 0 else 1
  st_uid := 1
  st_gid := 1
  st_size := if fileInfo.mKind = .directory then 4096 else fileInfo.mSize
  st_mtime := fileInfo.mLastMod
  st_atime := fileInfo.mLastMod
  st_ctime := fileInfo.mLastMod
  st_dev := 0
  st_ino := 1

/-- `hdfsGetPathInfo`, and what `Stat` and `Fstat` do with its answer. -/
def statPath (einfo : ErrInfo) (fname : Bytes) : Prog World (ℤ × Option Stat) := do
  match ← .step (hdfsGetPathInfo fname) with
  | none => do
    let retc ← .step (World.errorCode einfo .errno)
    pure (retc, none)
  | some fileInfo => pure (0, some fileInfo.toStat)

/-- `XrdHdfsFile::Fstat`. -/
def File.fstat (f : File env) : Prog World (ℤ × Option Stat) := statPath (.file f.oid) (f.fname.getD [])

/-- How `Stat` connects: for a client, or for the `cmsd`, whose connection is kept. -/
def statConnect (client m_cmsd_fs : Bool) : World → ℤ × World :=
  if client then hadoopConnect
  else if m_cmsd_fs then fun w => (0, w)
  else World.call .connect EIO some

/-- `XrdHdfsSys::Stat`: what is returned, what the buffer is filled with, and whether there is a connection of the
`cmsd` then. -/
def stat (env : Env) (m_cmsd_fs : Bool) (path : Bytes) (client : Bool) : Prog World (ℤ × Option Stat × Bool) := do
  let connected ← .step (statConnect client m_cmsd_fs)
  if connected ≠ 0 then do
    let retc ← .step (World.errorCode .sys (.fixed EIO))
    pure (retc, none, m_cmsd_fs)
  else do
    let (retc, buf) ← statPath .sys (env.getRealPath path)
    pure (retc, buf, m_cmsd_fs || !client)

/-! ### `XrdHdfsDirectory` -/

/-- `XrdHdfsDirectory`; `dh` is the listing, `none` for `NULL`, and `m_stat_buf` the address of the registered buffer. -/
structure Directory where
  isopen : Bool := false
  dh : Option (List FileInfo) := none
  numEntries : ℕ := 0
  dirPos : ℕ := 0
  m_stat_buf : Option ℕ := none
  listed : ∀ l ∈ dh, numEntries = l.length := by simp

/-- `std::string::rfind` of one character. -/
def rfind (c : UInt8) (s : Bytes) : Option ℕ :=
  match s.rdropWhile (· ≠ c) with
  | [] => none
  | _ :: s => some s.length

/-- `full_name.erase(0, full_name.rfind("/"))`. -/
def eraseToSlash (full_name : Bytes) : Bytes :=
  match rfind 47 full_name with
  | some i => full_name.drop i
  | none => []

/-- The string that `strlcpy` leaves in a buffer of `size` bytes, if it writes at all. -/
def strlcpy (src : Bytes) (size : ℕ) : Option Bytes := if size = 0 then none else some (src.take (size - 1))

/-- What `Readdir` returns, the string it leaves in the caller's buffer, and the buffer for `Stat` that it fills. -/
structure ReaddirOut where
  ret : ℤ
  buff : Option Bytes := none
  stat : Option (ℕ × Stat) := none
  deriving DecidableEq

namespace Directory

/-- `*numEntries` after `hdfsListDirectory`, which sets it unless it fails. -/
def numEntriesOf (dh : Option (List FileInfo)) (errno : ℤ) (numEntries : ℕ) : ℕ :=
  match dh with
  | some l => l.length
  | none => if errno = 0 then 0 else numEntries

def opendir (env : Env) (d : Directory) (dir_path : Bytes) : Prog World (ℤ × Directory) :=
  if d.isopen then pure (-EINVAL, d)
  else do
    let connected ← .step hadoopConnect
    if connected ≠ 0 then do
      let retc ← .step (World.errorCode .directory (.fixed EIO))
      pure (retc, d)
    else do
      .step World.clearErrno
      let dh ← .step (hdfsListDirectory (env.getRealPath dir_path))
      let errno ← .step fun w => (w.errno, w)
      let d : Directory := { d with
        dirPos := 0
        dh
        numEntries := numEntriesOf dh errno d.numEntries
        listed := by rintro l ⟨⟩; rfl }
      if dh = none ∧ errno ≠ 0 then pure (if errno < 0 then - EIO else -errno, { d with isopen := false })
      else pure (0, { d with isopen := true })

def readdir (d : Directory) (blen : ℕ) : Prog World (ReaddirOut × Directory) :=
  if !d.isopen then pure ({ ret := -EBADF }, d)
  else if hpos : d.numEntries ≤ d.dirPos then pure ({ ret := 0, buff := some [] }, d)
  else
    match hdh : d.dh with
    | none => do
      let _ ← .step (World.errorCode .directory (.fixed EBADF))
      pure ({ ret := -EBADF }, d)
    | some dh =>
      have : d.dirPos < dh.length := by rw [← d.listed dh hdh]; omega
      let fileInfo := dh[d.dirPos]
      pure ({
        ret := 0
        buff := strlcpy (eraseToSlash (cstr fileInfo.mName)) blen
        stat := d.m_stat_buf.map fun buf => (buf, fileInfo.toStat) }, { d with dirPos := d.dirPos + 1 })

/-- `StatRet`; `buf` may be `NULL`. -/
def statRet (d : Directory) (buf : Option ℕ) : Prog World (ℤ × Directory) :=
  if !d.isopen then pure (-EBADF, d)
  else if 0 < d.numEntries ∧ d.dh = none then do
    let _ ← .step (World.errorCode .directory (.fixed EBADF))
    pure (-EBADF, d)
  else pure (0, { d with m_stat_buf := buf })

def close (d : Directory) : ℤ × Directory :=
  if !d.isopen then (-EBADF, d)
  else (0, { d with dh := none, numEntries := 0, dirPos := 0, isopen := false, listed := by simp })

end Directory

/-! ### Sessions -/

/-- A call between `Opendir` and `Close`. -/
inductive DirCall where
  | readdir (blen : ℕ)
  | statRet (buf : Option ℕ)

/-- What it gave. -/
inductive DirOut where
  | readdir (out : ReaddirOut)
  | statRet (ret : ℤ)
  deriving DecidableEq

/-- The lengths that `Readdir` is given. -/
def blens : List DirCall → List ℕ
  | [] => []
  | .readdir blen :: calls => blen :: blens calls
  | .statRet _ :: calls => blens calls

namespace Directory

def session : List DirCall → Directory → Prog World (List DirOut × Directory)
  | [], d => pure ([], d)
  | .readdir blen :: calls, d => do
    let (out, d) ← d.readdir blen
    let (outs, d) ← session calls d
    pure (.readdir out :: outs, d)
  | .statRet buf :: calls, d => do
    let (ret, d) ← d.statRet buf
    let (outs, d) ← session calls d
    pure (.statRet ret :: outs, d)

/-- The entries of the listing. -/
def entries (d : Directory) : List FileInfo := d.dh.getD []

end Directory

/-! ### What a session should give -/

/-- What is behind the last slash. -/
def lastComponent (path : Bytes) : Bytes := path.rtakeWhile (· ≠ 47)

/-- An absolute URI whose last component is not empty, as a C string. -/
structure IsEntryPath (path : Bytes) : Prop where
  slash : 47 ∈ path
  last : lastComponent path ≠ []
  not_mem_zero : 0 ∉ path

/-- What `Stat` fills its buffer with, for a file of which HDFS knows the same as the listing says. -/
def StatGives (fileInfo : FileInfo) (st : Stat) : Prop :=
  ∀ fname w info, (hdfsGetPathInfo fname w).1 = some info → { info with mName := fileInfo.mName } = fileInfo →
    Gives (statPath .sys fname) w fun r _ => r = (0, some st)

/-- **A session enumerates** what is left of the listing: one entry for each `Readdir`, by its last component and with
what `Stat` would give in the buffer that is registered, and after the last one empty strings. -/
def Enumerates : List FileInfo → Option ℕ → List DirCall → List DirOut → Prop
  | _, _, [], [] => True
  | fileInfo :: rest, buf, .readdir blen :: calls, .readdir out :: outs =>
    (out.ret = 0 ∧ out.buff = some ((lastComponent fileInfo.mName).take (blen - 1)) ∧
      ∀ b ∈ buf, ∃ st, out.stat = some (b, st) ∧ StatGives fileInfo st) ∧ Enumerates rest buf calls outs
  | [], buf, .readdir _ :: calls, .readdir out :: outs =>
    (out.ret = 0 ∧ out.buff = some []) ∧ Enumerates [] buf calls outs
  | rest, _, .statRet buf :: calls, .statRet ret :: outs => ret = 0 ∧ Enumerates rest buf calls outs
  | _, _, _, _ => False

/-! ### What it gives -/

theorem FileInfo.statGives (fileInfo : FileInfo) : StatGives fileInfo fileInfo.toStat := by
  intro fname w info hinfo hsame
  have hstat : info.toStat = fileInfo.toStat := by
    rw [← hsame]
    rfl
  refine Gives.bind (Gives.step ?_)
  rw [hinfo]
  exact Gives.pure (by rw [hstat])

/-- `erase` leaves the slash. -/
theorem eraseToSlash_eq {path : Bytes} (h : 47 ∈ path) : eraseToSlash path = 47 :: lastComponent path := by
  have hne : path.rdropWhile (· ≠ 47) ≠ [] := by
    rw [Ne, List.rdropWhile_eq_nil_iff]
    intro hall
    simpa using hall 47 h
  have hlast : (path.rdropWhile (· ≠ 47)).getLast hne = 47 := by
    simpa using List.rdropWhile_last_not (fun c => decide (c ≠ 47)) path hne
  have hsplit := List.rdropWhile_append_rtakeWhile (p := fun c => decide (c ≠ 47)) (l := path)
  rw [← List.dropLast_append_getLast hne, hlast, List.append_assoc, List.singleton_append] at hsplit
  have hlen : (path.rdropWhile (· ≠ 47)).dropLast.length + 1 = (path.rdropWhile (· ≠ 47)).length := by
    have := List.length_pos_iff.2 hne
    rw [List.length_dropLast]
    omega
  unfold eraseToSlash rfind
  obtain ⟨c, t, ht⟩ := List.exists_cons_of_ne_nil hne
  rw [ht] at hsplit hlen ⊢
  rw [List.length_cons, Nat.add_right_cancel_iff] at hlen
  dsimp only
  rw [← hlen]
  conv_lhs => rw [← hsplit]
  exact List.drop_left' rfl

theorem not_mem_lastComponent (path : Bytes) : 47 ∉ lastComponent path := by
  intro h
  simpa using List.mem_rtakeWhile_imp h

/-- The slash in front shows unless there is no room for it. -/
theorem take_slash_iff {last : Bytes} (hne : last ≠ []) (h47 : 47 ∉ last) {blen : ℕ} (hpos : 0 < blen) :
    (47 :: last).take (blen - 1) = last.take (blen - 1) ↔ blen = 1 := by
  obtain ⟨c, rest, rfl⟩ := List.exists_cons_of_ne_nil hne
  constructor
  · intro h
    by_contra hne'
    obtain ⟨n, hn⟩ : ∃ n, blen - 1 = n + 1 := ⟨blen - 2, by omega⟩
    rw [hn, List.take_succ_cons, List.take_succ_cons] at h
    exact h47 (by rw [(List.cons.inj h).1]; exact List.mem_cons_self)
  · rintro rfl
    rfl

namespace Directory

/-- The directory is open, and `rest` is what `Readdir` has not given yet. -/
structure Remaining (d : Directory) (rest : List FileInfo) : Prop where
  isopen : d.isopen = true
  numEntries : d.numEntries = d.entries.length
  rest : d.entries.drop d.dirPos = rest

variable {d : Directory} {rest : List FileInfo}

theorem Remaining.dh_eq (h : d.Remaining rest) : d.dh = some d.entries ∨ d.dh = none ∧ d.numEntries = 0 := by
  have hnum := h.numEntries
  unfold entries at *
  cases hdh : d.dh with
  | none =>
    rw [hdh] at hnum
    exact Or.inr ⟨rfl, hnum⟩
  | some l => exact Or.inl rfl

/-- **`Readdir`** while there are entries gives the next one. -/
theorem Remaining.readdir {fileInfo : FileInfo} (h : d.Remaining (fileInfo :: rest)) (blen : ℕ) (w : World) :
    Gives (d.readdir blen) w fun r w' => w' = w ∧
      r.1 = ⟨0, strlcpy (eraseToSlash (cstr fileInfo.mName)) blen, d.m_stat_buf.map fun buf => (buf, fileInfo.toStat)⟩ ∧
      r.2.Remaining rest ∧ r.2.m_stat_buf = d.m_stat_buf := by
  have hlt : d.dirPos < d.entries.length := by
    by_contra hle
    have hrest := h.rest
    rw [List.drop_of_length_le (by omega)] at hrest
    cases hrest
  have hcons := h.rest
  rw [List.drop_eq_getElem_cons hlt, List.cons.injEq] at hcons
  have hdh := h.dh_eq.resolve_right fun h0 => by rw [← h.numEntries, h0.2] at hlt; omega
  unfold Directory.readdir
  rw [if_neg (by simp [h.isopen]), dif_neg (by rw [h.numEntries]; omega)]
  split
  · next hnone =>
    rw [hdh] at hnone
    cases hnone
  · next dh hsome =>
    have hl : dh = d.entries := Option.some.inj (hsome.symm.trans hdh)
    subst hl
    refine Gives.pure ⟨rfl, ?_, ⟨h.isopen, h.numEntries, hcons.2⟩, rfl⟩
    rw [hcons.1]

/-- After the last entry it gives empty strings. -/
theorem Remaining.readdir_end (h : d.Remaining []) (blen : ℕ) (w : World) :
    Gives (d.readdir blen) w fun r w' => w' = w ∧ r = (⟨0, some [], none⟩, d) := by
  have hle := List.drop_eq_nil_iff.1 h.rest
  unfold Directory.readdir
  rw [if_neg (by simp [h.isopen]), dif_pos (by rw [h.numEntries]; exact hle)]
  exact Gives.pure ⟨rfl, rfl⟩

/-- `StatRet` registers the buffer. -/
theorem Remaining.statRet (h : d.Remaining rest) (buf : Option ℕ) (w : World) :
    Gives (d.statRet buf) w fun r w' => w' = w ∧ r.1 = 0 ∧ r.2.Remaining rest ∧ r.2.m_stat_buf = buf := by
  have hdh : ¬ (0 < d.numEntries ∧ d.dh = none) := by
    rintro ⟨hpos, hnone⟩
    rcases h.dh_eq with hdh | ⟨-, h0⟩
    · rw [hnone] at hdh
      cases hdh
    · omega
  unfold Directory.statRet
  rw [if_neg (by simp [h.isopen]), if_neg hdh]
  exact Gives.pure ⟨rfl, rfl, ⟨h.isopen, h.numEntries, h.rest⟩, rfl⟩

/-- **`Opendir`**: what remains is the listing. -/
theorem opendir_spec (env : Env) (d : Directory) (dir_path : Bytes) (w : World) :
    Gives (d.opendir env dir_path) w fun r _ => r.1 = 0 → r.2.Remaining r.2.entries ∧ r.2.m_stat_buf = d.m_stat_buf ∧
      ∃ w', r.2.dh = (hdfsListDirectory (env.getRealPath dir_path) w').1 := by
  unfold opendir
  refine Gives.ite (fun _ => Gives.pure fun h => absurd h (by norm_num)) fun _ => Gives.bind (Gives.step ?_)
  refine Gives.ite (fun _ => Gives.bind (Gives.step (Gives.pure fun h => ?_))) fun _ => ?_
  · exact absurd h (errorCode_neg .directory (.fixed EIO) _).ne
  refine Gives.bind (Gives.step (Gives.bind (Gives.step (Gives.bind (Gives.step ?_)))))
  generalize (hadoopConnect w).2.clearErrno.2 = w₁
  refine Gives.ite (fun hc => Gives.pure fun h => ?_) fun hc => Gives.pure fun _ => ?_
  · dsimp only at h
    split at h
    · exact absurd h (by norm_num)
    · exact absurd (neg_eq_zero.1 h) hc.2
  · refine ⟨⟨rfl, ?_, List.drop_zero⟩, rfl, w₁, rfl⟩
    dsimp only [entries, numEntriesOf]
    generalize (hdfsListDirectory (env.getRealPath dir_path) w₁).1 = dh at hc
    cases dh with
    | some l => rfl
    | none => exact if_pos (by simpa using hc)

/-- **When a session enumerates** what is left of the listing. -/
theorem Remaining.session {rest : List FileInfo} (hpaths : ∀ e ∈ rest, IsEntryPath e.mName) (calls : List DirCall)
    (hpos : ∀ blen ∈ blens calls, 0 < blen) (h : d.Remaining rest) (w : World) :
    Gives (session calls d) w fun s _ =>
      Enumerates rest d.m_stat_buf calls s.1 ↔ ∀ blen ∈ (blens calls).take rest.length, blen = 1 := by
  induction calls generalizing d rest with
  | nil => exact Gives.pure (by simp [Enumerates, blens])
  | cons call calls ih =>
    cases call with
    | statRet buf =>
      refine Gives.bind ((h.statRet buf w).mono ?_)
      rintro ⟨ret, d'⟩ w' ⟨rfl, rfl, h', rfl⟩
      refine Gives.bind ((ih hpaths hpos h').mono ?_)
      rintro ⟨outs, d''⟩ w'' hiff
      exact Gives.pure (by rwa [Enumerates, and_iff_right rfl])
    | readdir blen =>
      obtain ⟨hblen, hpos'⟩ := List.forall_mem_cons.1 hpos
      cases rest with
      | nil =>
        refine Gives.bind ((h.readdir_end blen w).mono ?_)
        rintro ⟨out, d'⟩ w' ⟨rfl, heq⟩
        obtain ⟨rfl, rfl⟩ := Prod.mk.inj heq
        refine Gives.bind ((ih (by simp) hpos' h).mono ?_)
        rintro ⟨outs, d''⟩ w'' hiff
        refine Gives.pure ?_
        rw [Enumerates, and_iff_right ⟨rfl, rfl⟩]
        simpa using hiff
      | cons fileInfo rest =>
        obtain ⟨hpath, hpaths'⟩ := List.forall_mem_cons.1 hpaths
        refine Gives.bind ((h.readdir blen w).mono ?_)
        rintro ⟨out, d'⟩ w' ⟨rfl, rfl, h', hbuf⟩
        refine Gives.bind ((ih hpaths' hpos' h').mono ?_)
        rintro ⟨outs, d''⟩ w'' hiff
        refine Gives.pure ?_
        have hname : strlcpy (eraseToSlash (cstr fileInfo.mName)) blen =
            some ((lastComponent fileInfo.mName).take (blen - 1)) ↔ blen = 1 := by
          rw [cstr_eq_self hpath.not_mem_zero, eraseToSlash_eq hpath.slash, strlcpy, if_neg hblen.ne', Option.some.injEq]
          exact take_slash_iff hpath.last (not_mem_lastComponent _) hblen
        have hstat : ∀ b ∈ d.m_stat_buf, ∃ st, (d.m_stat_buf.map fun buf => (buf, fileInfo.toStat)) = some (b, st) ∧
            StatGives fileInfo st := by
          intro b hb
          rw [Option.mem_def] at hb
          exact ⟨fileInfo.toStat, by rw [hb, Option.map_some], fileInfo.statGives⟩
        rw [hbuf] at hiff
        simp only [Enumerates, blens, List.length_cons, List.take_succ_cons, List.forall_mem_cons, true_and, hname,
          and_iff_left hstat, hiff]

/-- **When a directory is enumerated.** For every listing and every session of `Readdir` and `StatRet` calls after a
successful `Opendir`: if and only if all the `Readdir` calls that give an entry have a buffer of one byte, which holds no
name at all. -/
theorem enumerates_iff (env : Env) (d : Directory) (dir_path : Bytes) (calls : List DirCall)
    (hpos : ∀ blen ∈ blens calls, 0 < blen) (w : World) :
    Gives (d.opendir env dir_path) w fun r w₁ => r.1 = 0 →
      (∃ w', r.2.dh = (hdfsListDirectory (env.getRealPath dir_path) w').1) ∧
      ((∀ e ∈ r.2.entries, IsEntryPath e.mName) → Gives (session calls r.2) w₁ fun s _ =>
        (Enumerates r.2.entries d.m_stat_buf calls s.1 ↔ ∀ blen ∈ (blens calls).take r.2.entries.length, blen = 1)) := by
  refine (opendir_spec env d dir_path w).mono ?_
  rintro ⟨rc, d'⟩ w₁ hopened hrc
  obtain ⟨hrem, hbuf, hlist⟩ := hopened hrc
  refine ⟨hlist, fun hpaths => ?_⟩
  rw [← hbuf]
  exact hrem.session hpaths calls hpos w₁

/-- A file in the directory `/d`. -/
def entryA : FileInfo := ⟨.file, str "hdfs://host/d/a", 5, 3, 0o644⟩

/-- HDFS with the directory `/d`. -/
def oneEntry : World where
  fs := .empty
  listings p := if p = resolve (str "/d") then some [entryA] else none

theorem enumerates_iff_d : (∀ blen ∈ blens [.statRet (some 7), .readdir 1, .readdir 256], 0 < blen) ∧
    Gives (({} : Directory).opendir Reference.env (str "/d")) oneEntry fun r w₁ => r.1 = 0 →
      (∃ w', r.2.dh = (hdfsListDirectory (Reference.env.getRealPath (str "/d")) w').1) ∧
      ((∀ e ∈ r.2.entries, IsEntryPath e.mName) →
        Gives (session [.statRet (some 7), .readdir 1, .readdir 256] r.2) w₁ fun s _ =>
          (Enumerates r.2.entries none [.statRet (some 7), .readdir 1, .readdir 256] s.1 ↔
            ∀ blen ∈ (blens [.statRet (some 7), .readdir 1, .readdir 256]).take r.2.entries.length, blen = 1)) :=
  have hpos : ∀ blen ∈ blens [.statRet (some 7), .readdir 1, .readdir 256], 0 < blen := by decide
  ⟨hpos, enumerates_iff Reference.env {} (str "/d") [.statRet (some 7), .readdir 1, .readdir 256] hpos oneEntry⟩

/-- The name of the file is given with a slash in front. -/
theorem slash_in_name : IsEntryPath entryA.mName ∧ ((do
      let (rc, d) ← ({} : Directory).opendir Reference.env (str "/d")
      let (outs, _) ← session [.readdir 256] d
      pure (rc, d.entries, outs) : Prog World (ℤ × List FileInfo × List DirOut)).run 1 oneEntry).map (·.1) =
      some (0, [entryA], [.readdir ⟨0, some (str "/a"), none⟩]) ∧
    ¬ Enumerates [entryA] none [.readdir 256] [.readdir ⟨0, some (str "/a"), none⟩] := by
  refine ⟨⟨by decide +kernel, by decide +kernel, by decide +kernel⟩, by decide +kernel, fun h => ?_⟩
  exact absurd h.1.2.1 (by decide +kernel)

end Directory

end XrdHdfs
