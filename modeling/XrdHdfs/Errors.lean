import XrdHdfs.Directory
import XrdHdfs.History
import XrdHdfs.Ledger
import XrdHdfs.Namespace

/-!
# The error that is returned and the error that is reported

An operation that fails calls `Emsg` with its error object and a code, and returns what `Emsg` returns.  The code goes
into the error object; but what is returned is made of `errno`, whatever the code is.  `returned_eq_reported_iff` says,
for every operation of `XrdHdfsSys`, of a file object and of a directory object, when the two are the same: `errno`
must not be 0, and where the caller has a code of its own, it must be that code.
-/

namespace XrdHdfs

open Lib World

variable {env : Env}

/-! ### Paths that cannot be mapped -/

/-- `GetRealPath`, whose `strdup` may fail: `none` for `NULL`. -/
def realPath (env : Env) (path : Bytes) (w : World) : Option Bytes × World :=
  let (a, w) := w.take .malloc
  if a.error.isSome then (none, { w with errno := ENOMEM }) else (some (env.getRealPath path), w)

/-- The paths that an operation maps before it does anything else. -/
def Operation.paths : Operation → List Bytes
  | chmod path _ => [path]
  | create path _ => [path]
  | mkdir path _ _ => [path]
  | remdir path => [path]
  | rename src dest => [src, dest]
  | truncate path _ => [path]
  | unlink path => [path]

/-- Map the paths, and go on if that is possible. -/
def withRealPaths (env : Env) (x : Prog World ℤ) : List Bytes → Prog World ℤ
  | [] => x
  | path :: paths => do
    match ← .step (realPath env path) with
    | none => .step (World.errorCode .sys (.fixed ENOMEM))
    | some _ => withRealPaths env x paths

/-- What `Stat` does where its path cannot be mapped: it reports that, and goes on with `NULL`, which is not there for
`hdfsGetPathInfo`. -/
def statNull (m_cmsd_fs client : Bool) : Prog World ℤ := do
  let _ ← .step (World.errorCode .sys (.fixed ENOMEM))
  let connected ← .step (statConnect client m_cmsd_fs)
  if connected ≠ 0 then .step (World.errorCode .sys (.fixed EIO))
  else do
    let _ ← .step (World.call (.getPathInfo []) EINVAL fun _ => none)
    .step (World.errorCode .sys .errno)

/-! ### Invocations -/

/-- A call of an operation, with the object that it is called on. -/
inductive Invocation (env : Env) where
  | sys (op : Operation)
  | stat (m_cmsd_fs : Bool) (path : Bytes) (client : Bool)
  | file (f : File env) (c : FileCall)
  | fstat (f : File env)
  | opendir (d : Directory) (dir_path : Bytes)
  | readdir (d : Directory) (blen : ℕ)
  | statRet (d : Directory) (buf : Option ℕ)
  | closedir (d : Directory)

namespace Invocation

/-- Carry it out; the code is returned. -/
def run : Invocation env → Prog World ℤ
  | sys op => withRealPaths env (op.run env) op.paths
  | stat m_cmsd_fs path client => do
    match ← .step (realPath env path) with
    | none => statNull m_cmsd_fs client
    | some _ => do
      let (retc, _) ← XrdHdfs.stat env m_cmsd_fs path client
      pure retc
  | file f c => do
    let ((ret, _), _) ← f.perform c
    pure ret
  | fstat f => do
    let (retc, _) ← f.fstat
    pure retc
  | opendir d dir_path => do
    let (retc, _) ← d.opendir env dir_path
    pure retc
  | readdir d blen => do
    let (out, _) ← d.readdir blen
    pure out.ret
  | statRet d buf => do
    let (ret, _) ← d.statRet buf
    pure ret
  | closedir d => pure d.close.1

/-- The error object. -/
def einfo : Invocation env → ErrInfo
  | sys _ => .sys
  | stat _ _ _ => .sys
  | file f _ => .file f.oid
  | fstat f => .file f.oid
  | opendir _ _ => .directory
  | readdir _ _ => .directory
  | statRet _ _ => .directory
  | closedir _ => .directory

/-- A file object was constructed, and has gone through some calls since. -/
def Proper (w : World) : Invocation env → Prop
  | file f _ => f.Sound ∧ f.oid < w.objects
  | _ => True

end Invocation

/-! ### What is returned for a report -/

/-- The code that is returned is negative, and it is the one in the error object. -/
def Report.Agrees (rc : ℤ) (r : Report) : Prop := rc < 0 ∧ rc = -r.code

/-- `errno`, when `Emsg` is called, is what the caller takes it to be: not 0, and if the caller has a code of its own, that
code. -/
def Report.ErrnoFits (r : Report) : Prop :=
  match r.ecode with
  | .errno => r.errno ≠ 0
  | .errnoOr _ => r.errno ≠ 0
  | .fixed code => |r.errno| = code

/-- `Readdir` and `StatRet` return a code of their own; what the others return is made of `errno`. -/
def Invocation.Fits (r : Report) : Invocation env → Prop
  | .readdir _ _ => True
  | .statRet _ _ => True
  | _ => r.ErrnoFits

/-- The last of the reports to an error object, which is what is in it. -/
def lastTo (einfo : ErrInfo) (rs : List Report) : Option Report := (rs.filter fun r => r.einfo = einfo).getLast?

/-- The callers of `Emsg` have no codes but `errno` and codes above 1, which is what `Emsg` returns without `errno`. -/
def ErrorCode.Sited : ErrorCode → Prop
  | .errno => True
  | .errnoOr fallback => 1 < fallback
  | .fixed code => 1 < code

instance : DecidablePred ErrorCode.Sited
  | .errno => inferInstanceAs (Decidable True)
  | .errnoOr fallback => inferInstanceAs (Decidable (1 < fallback))
  | .fixed code => inferInstanceAs (Decidable (1 < code))

theorem emsg_of_ne {e : ℤ} (h : e ≠ 0) : emsg e = -|e| := by
  unfold emsg
  rw [if_pos h]
  split_ifs with hpos
  · rw [abs_of_pos hpos]
  · rw [abs_of_nonpos (not_lt.1 hpos), neg_neg]

theorem agrees_emsg_iff {r : Report} (h : r.ecode.Sited) : r.Agrees (emsg r.errno) ↔ r.ErrnoFits := by
  unfold Report.Agrees Report.ErrnoFits Report.code
  rw [and_iff_right (emsg_neg _)]
  have hzero : emsg 0 = -1 := rfl
  rcases eq_or_ne r.errno 0 with h0 | h0
  · -- -1 is returned, whatever was reported
    rw [h0, hzero]
    cases hcode : r.ecode with
    | errno => simp [ErrorCode.value]
    | errnoOr fallback =>
      rw [hcode] at h
      have habs := abs_of_pos (zero_lt_one.trans h)
      simp only [ErrorCode.value, ErrorCode.Sited, ne_eq, not_true_eq_false, if_false] at h ⊢
      exact iff_of_false (by omega) not_false
    | fixed code =>
      rw [hcode] at h
      have habs := abs_of_pos (zero_lt_one.trans h)
      simp only [ErrorCode.value, ErrorCode.Sited, abs_zero] at h ⊢
      omega
  · rw [emsg_of_ne h0, neg_inj]
    cases hcode : r.ecode with
    | errno => exact iff_of_true rfl h0
    | errnoOr fallback => exact iff_of_true (by rw [ErrorCode.value, if_pos h0]) h0
    | fixed code =>
      rw [hcode] at h
      rw [ErrorCode.value, abs_of_pos (zero_lt_one.trans h)]

/-! ### What the operations report -/

/-- What the code of a run is, if it reported anything to `einfo`: `Emsg`'s for the last report. -/
def Told (einfo : ErrInfo) (w : World) (rc : ℤ) (w' : World) : Prop :=
  ∃ new, w'.reports = w.reports ++ new ∧ ∀ r ∈ lastTo einfo new, r.ecode.Sited ∧ rc = emsg r.errno

section Told

variable {einfo : ErrInfo} {w w₁ w' w'' : World} {rc : ℤ}

/-- Nothing was reported. -/
theorem Told.quiet (h : w'.reports = w.reports) : Told einfo w rc w' := ⟨[], by rw [h, List.append_nil], nofun⟩

/-- The code is `Emsg`'s, whatever was reported before. -/
theorem Told.emsg_after {new : List Report} (h : w₁.reports = w.reports ++ new) {ecode : ErrorCode} (hs : ecode.Sited) :
    Told einfo w (w₁.errorCode einfo ecode).1 (w₁.errorCode einfo ecode).2 := by
  refine ⟨new ++ [⟨einfo, ecode, w₁.errno⟩], by rw [← List.append_assoc, ← h]; rfl, fun r hr => ?_⟩
  obtain rfl : r = ⟨einfo, ecode, w₁.errno⟩ := by simpa [lastTo, List.filter_append, eq_comm] using hr
  exact ⟨hs, rfl⟩

theorem Told.emsg (h : w₁.reports = w.reports) {ecode : ErrorCode} (hs : ecode.Sited) :
    Told einfo w (w₁.errorCode einfo ecode).1 (w₁.errorCode einfo ecode).2 :=
  Told.emsg_after (by rw [h, List.append_nil]) hs

theorem Told.after (h : Told einfo w₁ rc w') (h₁ : w₁.reports = w.reports) : Told einfo w rc w' := by
  unfold Told at *
  rwa [← h₁]

theorem Told.before (h : Told einfo w rc w') (h' : w''.reports = w'.reports) : Told einfo w rc w'' := by
  unfold Told at *
  rwa [h']

@[simp] theorem take_reports (c : Call) (w : World) : (w.take c).2.reports = w.reports := by
  unfold take
  split <;> rfl

theorem malloc_reports (w : World) : (malloc env w).2.reports = w.reports := take_reports .malloc w

theorem hadoopConnect_reports (w : World) : (hadoopConnect w).2.reports = w.reports := (call_called _ _ _ _).reports

theorem realPath_reports (path : Bytes) (w : World) : (realPath env path w).2.reports = w.reports := by
  have h := take_reports .malloc w
  unfold realPath
  dsimp only
  split
  · exact h
  · exact h

theorem hdfsListDirectory_reports (path : Bytes) (w : World) : (hdfsListDirectory path w).2.reports = w.reports := by
  have h := take_reports .listDirectory w
  unfold hdfsListDirectory
  revert h
  rcases w.take .listDirectory with ⟨a, w₁⟩
  intro h
  dsimp only at h ⊢
  rcases a.error with _ | e
  · dsimp only
    split <;> exact h
  · exact h

/-- Connect, or report `EIO`. -/
theorem withConnection_told {x : Prog World ℤ} (hx : ∀ w, Ends x w (Told .sys w)) (w : World) :
    Ends (withConnection x) w (Told .sys w) := by
  have hconn := hadoopConnect_reports w
  unfold withConnection
  refine Ends.bind (Ends.step (Ends.ite (fun _ => Ends.step ?_) fun _ => Ends.bind (Ends.step ?_)))
  · exact Told.emsg hconn (by decide)
  · exact (hx _).mono fun rc w' h => h.after hconn

theorem callOnce_told (c : LibCall) (e : ℤ) (f : Fs → Option Fs) (w : World) :
    Ends (callOnce (World.call c e f)) w (Told .sys w) := by
  have hcall := (call_called c e f w).reports
  unfold callOnce
  refine Ends.bind (Ends.step (Ends.ite (fun _ => Ends.step ?_) fun _ => Ends.pure (Told.quiet hcall)))
  exact Told.emsg hcall (by decide)

theorem withNewFile_told (path : Bytes) {x : Prog World ℤ} (hx : ∀ w, Ends x w (Told .sys w)) (w : World) :
    Ends (withNewFile path x) w (Told .sys w) := by
  refine withConnection_told (fun w => Ends.bind (Ends.step ?_)) w
  have hopen := (hdfsOpenFile_called path true w).reports
  generalize hdfsOpenFile path true w = r at hopen
  obtain ⟨o, w₁⟩ := r
  cases o with
  | none => exact Ends.step (Told.emsg hopen trivial)
  | some fp =>
    refine Ends.bind ((hx w₁).mono fun rc w₂ h => Ends.bind (Ends.step (Ends.pure ?_)))
    exact (h.after hopen).before (call_called _ _ _ _).reports

end Told

/-! ### The operations of `XrdHdfsSys` -/

theorem parentMissing_reports (path : Bytes) (w : World) : (parentMissing path w).2.reports = w.reports := by
  unfold parentMissing
  split
  · rfl
  · exact (call_called _ _ _ _).reports

theorem unlinkErrno_reports (path : Bytes) (w : World) : (unlinkErrno path w).2.reports = w.reports := by
  unfold unlinkErrno
  split
  · exact (call_called (.exists path) ENOENT _ { w with errno := 0 }).reports
  · rfl

theorem operation_told (op : Operation) (w : World) : Ends (op.run env) w (Told .sys w) := by
  cases op with
  | chmod path mode => exact withConnection_told (callOnce_told (.chmod _ mode) ENOENT _) w
  | remdir path => exact withConnection_told (callOnce_told (.delete _) EIO _) w
  | rename src dest => exact withConnection_told (callOnce_told (.rename _ _) EIO _) w
  | truncate path newsize => exact withNewFile_told _ (fun w => Ends.pure (Told.quiet rfl)) w
  | create path mode => exact withNewFile_told _ (callOnce_told (.chmod _ mode) ENOENT _) w
  | mkdir path mode mkpath =>
    have hcall := fun path => callOnce_told (.mkdir path) EIO fun fs => fs.mkdirs (resolve path)
    refine withConnection_told (fun w => Ends.ite (fun _ => hcall _ w) fun _ => ?_) w
    cases trimSlashes (env.getRealPath path) with
    | none => exact Ends.pure (Told.quiet rfl)
    | some path =>
      have hparent := parentMissing_reports path w
      refine Ends.bind (Ends.step (Ends.ite (fun _ => Ends.step ?_) fun _ => Ends.bind (Ends.step ?_)))
      · exact Told.emsg hparent (by decide)
      · exact (hcall path _).mono fun rc w' h => h.after hparent
  | unlink path =>
    have hconn := hadoopConnect_reports w
    refine Ends.bind (Ends.step (Ends.ite (fun _ => Ends.step ?_) fun _ => Ends.bind (Ends.step (Ends.bind (Ends.step ?_)))))
    · exact Told.emsg hconn (by decide)
    generalize hw₁ : (hadoopConnect w).2.clearErrno.2 = w₁
    have hdelete : (hdfsDelete (env.getRealPath path) w₁).2.reports = w.reports := by
      rw [← hconn]
      subst hw₁
      exact (call_called _ _ _ _).reports
    refine Ends.ite (fun _ => Ends.bind (Ends.step (Ends.step ?_))) fun _ => Ends.pure (Told.quiet hdelete)
    exact Told.emsg ((unlinkErrno_reports _ _).trans hdelete) (by decide)

theorem withRealPaths_told {x : Prog World ℤ} (hx : ∀ w, Ends x w (Told .sys w)) (paths : List Bytes) (w : World) :
    Ends (withRealPaths env x paths) w (Told .sys w) := by
  induction paths generalizing w with
  | nil => exact hx w
  | cons path paths ih =>
    have hreal := @realPath_reports env path w
    refine Ends.bind (Ends.step ?_)
    cases (realPath env path w).1 with
    | none => exact Ends.step (Told.emsg hreal (by decide))
    | some fname => exact (ih _).mono fun rc w' h => h.after hreal

theorem statPath_told (einfo : ErrInfo) (fname : Bytes) (w : World) :
    Ends (statPath einfo fname) w fun r w' => Told einfo w r.1 w' := by
  have hinfo := (hdfsGetPathInfo_called fname w).reports
  unfold statPath
  refine Ends.bind (Ends.step ?_)
  cases (hdfsGetPathInfo fname w).1 with
  | none => exact Ends.bind (Ends.step (Ends.pure (Told.emsg hinfo trivial)))
  | some fileInfo => exact Ends.pure (Told.quiet hinfo)

theorem statConnect_reports (client m_cmsd_fs : Bool) (w : World) :
    (statConnect client m_cmsd_fs w).2.reports = w.reports := by
  unfold statConnect
  split
  · exact hadoopConnect_reports w
  · split
    · rfl
    · exact (call_called _ _ _ _).reports

theorem stat_told (m_cmsd_fs : Bool) (path : Bytes) (client : Bool) (w : World) :
    Ends (XrdHdfs.stat env m_cmsd_fs path client) w fun r w' => Told .sys w r.1 w' := by
  have hconn := statConnect_reports client m_cmsd_fs w
  unfold XrdHdfs.stat
  refine Ends.bind (Ends.step (Ends.ite (fun _ => Ends.bind (Ends.step (Ends.pure ?_))) fun _ => ?_))
  · exact Told.emsg hconn (by decide)
  · exact Ends.bind ((statPath_told .sys _ _).mono fun r w' h => Ends.pure (h.after hconn))

/-- It is the second report that counts. -/
theorem statNull_told (m_cmsd_fs client : Bool) (w : World) : Ends (statNull m_cmsd_fs client) w (Told .sys w) := by
  unfold statNull
  refine Ends.bind (Ends.step ?_)
  have hconn := statConnect_reports client m_cmsd_fs (w.errorCode .sys (.fixed ENOMEM)).2
  refine Ends.bind (Ends.step (Ends.ite (fun _ => Ends.step ?_) fun _ => Ends.bind (Ends.step (Ends.step ?_))))
  · exact Told.emsg_after hconn (by decide)
  · exact Told.emsg_after ((call_called _ _ _ _).reports.trans hconn) trivial

/-! ### The operations of a file object -/

namespace File

variable (f : File env)

theorem openFile_told (path : Bytes) (openMode : ℕ) (w : World) :
    Ends (f.openFile path openMode) w fun r w' => Told (.file f.oid) w r.1 w' := by
  unfold openFile
  refine Ends.ite (fun _ => Ends.pure (Told.quiet rfl)) fun _ => Ends.bind (Ends.step ?_)
  have hmem : ((if f.readbuf.mem.isSome then fun w => (none, w) else World.malloc env) w).2.reports = w.reports := by
    split
    · rfl
    · exact malloc_reports w
  generalize (if f.readbuf.mem.isSome then fun w => (none, w) else World.malloc env) w = r at hmem
  have hconn := (hadoopConnect_reports r.2).trans hmem
  refine Ends.bind (Ends.step (Ends.ite (fun _ => Ends.bind (Ends.step (Ends.pure ?_))) fun _ => Ends.bind (Ends.step ?_)))
  · exact Told.emsg hconn (by decide)
  have hopen := (hdfsOpenFile_called (env.getRealPath path) (writing openMode) (hadoopConnect r.2).2).reports.trans hconn
  generalize hdfsOpenFile (env.getRealPath path) (writing openMode) (hadoopConnect r.2).2 = r at hopen
  obtain ⟨o, w₁⟩ := r
  cases o with
  | none =>
    -- a file that cannot be opened is not reported through `Emsg`
    exact Ends.bind (Ends.step (Ends.pure (Told.quiet ((openError_called _ w₁).reports.trans hopen))))
  | some h =>
    refine Ends.bind (Ends.step (Ends.ite (fun _ => Ends.bind (Ends.step (Ends.pure ?_))) fun _ => Ends.pure ?_))
    · exact Told.quiet hopen
    · exact Told.quiet hopen

theorem write_told (buff : Bytes) (offset : ℤ) (w : World) :
    Ends (f.write buff offset) w fun r w' => Told (.file f.oid) w r.1 w' := by
  unfold write
  refine Ends.ite (fun _ => Ends.bind (Ends.step (Ends.pure (Told.emsg rfl (by decide))))) fun _ => ?_
  exact Ends.bind (Ends.step (Ends.pure (Told.quiet (hdfsWrite_called _ _ _).reports)))

end File

/-- `errno` is what the answer of `hdfsPread` says. -/
theorem hdfsPread_errno (fh : Option Handle) (pos len : ℤ) (w : World) :
    (hdfsPread fh pos len w).2.errno = (hdfsPread fh pos len w).1.errno := by
  unfold hdfsPread
  rcases w.take .pread with ⟨a, w₁⟩
  dsimp only
  rcases a.error with _ | e
  · rcases fh with _ | h
    · rfl
    · dsimp only
      split <;> rfl
  · rfl

/-- A `Read` that fails returns the code of the `errno` that `hdfsPread` left. -/
theorem Readbuf.read_errno {rb : Readbuf} (hw : rb.WindowOk) (fh : Option Handle) (offset : ℤ) (blen : ℕ) (w : World) :
    Ends (rb.read (hdfsPread fh) offset blen) w fun r w' => r.1.ret < 0 → r.1.ret = emsg w'.errno := by
  unfold read
  refine Ends.ite (fun _ => Ends.bind (Ends.step (Ends.pure ?_))) fun _ => Ends.ite (fun _ => Ends.pure ?_) fun _ => ?_
  · intro hneg
    dsimp only at hneg ⊢
    rw [hdfsPread_errno]
    split_ifs at hneg ⊢ with h1 h2
    all_goals first | rfl | omega
  · exact fun hneg => absurd hneg (Int.natCast_nonneg blen).not_gt
  have hnbytes := serve_nbytes hw offset blen
  refine Ends.bind ((Ends.loop (Q := fun r w' => ∀ e ∈ r.1, w'.errno = e) (fun _ _ => True) ?_ _ w trivial).mono ?_)
  · rintro ⟨rb', acc⟩ t -
    refine refillTurn_cases (hdfsPread fh) _ rb' acc t (fun _ => nofun) ?_
    intro _ pos want a t' _ _ ha
    have herrno := hdfsPread_errno fh pos want t
    rw [ha] at herrno
    exact ⟨fun _ _ => trivial, fun _ _ => by simpa using herrno, fun _ _ => nofun, fun _ => trivial⟩
  · rintro ⟨err, rb', acc⟩ w' herr
    cases err with
    | some errno => exact Ends.pure fun _ => by rw [herr errno rfl]
    | none =>
      refine Ends.pure fun hneg => ?_
      dsimp only at hneg
      omega

theorem File.Sound.read_told {f : File env} (hf : f.Sound) (offset : ℤ) (blen : ℕ) (w : World) :
    Ends (f.read offset blen) w fun r w' => Told (.file f.oid) w r.1.ret w' := by
  have hreports : Keeps World.reports (f.readbuf.read (hdfsPread f.fh) offset blen) :=
    Readbuf.read_follows (fun pos len w => (hdfsPread_called f.fh pos len w).reports) _ _ _
  refine Ends.bind (((Readbuf.read_errno hf.window f.fh offset blen w).and (hreports w)).mono ?_)
  rintro ⟨out, rb⟩ w₁ ⟨herr, hw₁⟩
  refine Ends.bind (Ends.step (Ends.pure ?_))
  unfold readReport
  dsimp only at herr ⊢
  split
  · next hneg =>
    rw [herr hneg]
    exact Told.emsg hw₁ trivial
  · exact Told.quiet hw₁

/-! ### The records that `Close` writes -/

/-- No file object lost its number, and what was reported was reported to objects of `P`. -/
structure Within (P : ℕ → Prop) (w w' : World) : Prop where
  objects : w.objects ≤ w'.objects
  reports : ∃ new, w'.reports = w.reports ++ new ∧ ∀ r ∈ new, ∃ oid, P oid ∧ r.einfo = .file oid

namespace Within

variable {P : ℕ → Prop} {w w' w'' : World}

theorem of_eq (ho : w'.objects = w.objects) (hr : w'.reports = w.reports) : Within P w w' :=
  ⟨ho.ge, [], by rw [hr, List.append_nil], nofun⟩

theorem trans (h : Within P w w') (h' : Within P w' w'') : Within P w w'' := by
  obtain ⟨hle, new, hnew, hP⟩ := h
  obtain ⟨hle', new', hnew', hP'⟩ := h'
  refine ⟨hle.trans hle', new ++ new', by rw [hnew', hnew, List.append_assoc], fun r hr => ?_⟩
  rcases List.mem_append.1 hr with hr | hr
  · exact hP r hr
  · exact hP' r hr

instance : IsPreorder World (Within P) where
  refl _ := .of_eq rfl rfl
  trans _ _ _ := trans

theorem called {c : LibCall} (h : Called c w w') : Within P w w' := .of_eq h.objects h.reports

theorem connect (w : World) : Within P w (hadoopConnect w).2 := by
  have hcall := call_called .connect EIO some { w with errno := 0 }
  exact .of_eq hcall.objects hcall.reports

theorem note (oid : ℕ) (e : ObjEvent) (w : World) : Within P w (w.note oid e).2 := .of_eq rfl rfl

theorem errorCode {oid : ℕ} (h : P oid) (ecode : ErrorCode) (w : World) : Within P w (w.errorCode (.file oid) ecode).2 :=
  ⟨le_rfl, [⟨.file oid, ecode, w.errno⟩], rfl, fun r hr => ⟨oid, h, by rw [List.mem_singleton.1 hr]⟩⟩

theorem take (c : Call) (w : World) : Within P w (w.take c).2 := .of_eq take_objects (take_reports c w)

theorem newFile (w : World) : Within P w (newFile env w).2 := by
  have htake : Within P w (w.take .newFile).2 := .take .newFile w
  rcases newFile_cases env w with ⟨h, -⟩ | h
  · rwa [h]
  · rw [h]
    exact htake.trans ⟨take_objects.le.trans (Nat.le_succ _), [], (List.append_nil _).symm, by simp⟩

end Within

section Record

variable {P : ℕ → Prop} {f : File env}

theorem File.openFile_within (hf : P f.oid) (path : Bytes) (openMode : ℕ) :
    Follows (Within P) (f.openFile path openMode) :=
  f.openFile_follows path openMode .take (fun _ _ _ => .called) (fun _ => .of_eq rfl rfl) (.errorCode hf) (.note f.oid)
    fun _ _ => .of_eq rfl rfl

theorem File.openFile_oid (f : File env) (path : Bytes) (openMode : ℕ) (w : World) :
    Ends (f.openFile path openMode) w fun r _ => r.2.oid = f.oid := by
  unfold File.openFile
  refine Ends.ite (fun _ => Ends.pure rfl) fun _ => Ends.bind (Ends.step (Ends.bind (Ends.step ?_)))
  refine Ends.ite (fun _ => Ends.bind (Ends.step (Ends.pure rfl))) fun _ => Ends.bind (Ends.step ?_)
  split
  · exact Ends.bind (Ends.step (Ends.pure rfl))
  · exact Ends.bind (Ends.step (Ends.ite (fun _ => Ends.bind (Ends.step (Ends.pure rfl))) fun _ => Ends.pure rfl))

theorem File.read_within (hf : P f.oid) (offset : ℤ) (blen : ℕ) : Follows (Within P) (f.read offset blen) := by
  refine .bind (Readbuf.read_follows (fun pos len w => .called (hdfsPread_called f.fh pos len w)) _ _ _) ?_
  refine fun r => .bind (.step fun w => ?_) fun _ => .pure _
  unfold readReport
  dsimp only
  split
  · exact .errorCode hf _ w
  · exact refl_of _ w

theorem File.write_within (hf : P f.oid) (buff : Bytes) (offset : ℤ) : Follows (Within P) (f.write buff offset) := by
  unfold File.write
  refine .ite (.bind (.step fun w => .errorCode hf _ w) fun _ => .pure _) (.bind (.step fun w => ?_) fun _ => .pure _)
  exact .called (hdfsWrite_called _ _ _)

theorem writeLoop_within (hf : P f.oid) (text : Bytes) (w : World) :
    Ends (.loop (writeTurn text) (f, 0)) w fun _ w' => Within P w w' := by
  refine Ends.loop (fun b w' => P b.1.oid ∧ Within P w w') ?_ (f, 0) w ⟨hf, refl_of _ w⟩
  rintro ⟨fh, offset⟩ w₁ ⟨hfh, hw₁⟩
  refine Ends.bind (((fh.write_same _ _ w₁).and (File.write_within hfh _ _ w₁)).mono ?_)
  rintro ⟨retval, fh'⟩ w₂ ⟨⟨hsame, -⟩, hw₂⟩
  have hfh' : P fh'.oid := by rwa [hsame.oid]
  refine Ends.ite (fun _ => Ends.pure ⟨hfh', hw₁.trans hw₂⟩) fun _ => ?_
  exact Ends.ite (fun _ => Ends.pure ⟨hfh', hw₁.trans hw₂⟩) fun _ => Ends.pure (hw₁.trans hw₂)

/-- The record's file object is a new one. -/
theorem setMultipleWith_within {close : File env → Prog World (ℤ × File env)}
    (hclose : ∀ f w, P f.oid → (∀ oid, w.objects ≤ oid → P oid) → Ends (close f) w fun _ w' => Within P w w') (pfn : Bytes)
    (values : ChecksumValues) {w : World} (hnew : ∀ oid, w.objects ≤ oid → P oid) :
    Ends (setMultipleWith close pfn values) w fun _ w' => Within P w w' := by
  unfold setMultipleWith
  refine Ends.bind (Ends.step ?_)
  have h₁ := @Within.newFile env P w
  obtain ⟨-, hfh, -⟩ := @newFile_spec env w
  generalize newFile env w = r at h₁ hfh
  obtain ⟨fh, w₁⟩ := r
  cases fh with
  | none => exact Ends.pure h₁
  | some fh =>
    obtain rfl := hfh fh rfl
    have hP : P w.objects := hnew _ le_rfl
    refine Ends.bind (((File.openFile_oid _ _ _ w₁).and (File.openFile_within hP _ _ w₁)).mono ?_)
    rintro ⟨rc, fh'⟩ w₂ ⟨hfh', hw₂⟩
    have h₂ := h₁.trans hw₂
    have hP' : P fh'.oid := by rwa [hfh']
    refine Ends.ite (fun _ => Ends.pure h₂) fun _ => ?_
    refine Ends.bind (((writeLoop_same _ fh' w₂).and (writeLoop_within hP' _ w₂)).mono ?_)
    rintro ⟨retval, fh''⟩ w₃ ⟨⟨hsame, -⟩, hw₃⟩
    have h₃ := h₂.trans hw₃
    have hP'' : P fh''.oid := by rwa [hsame.oid]
    refine Ends.bind ((hclose fh'' w₃ hP'' fun oid hle => hnew oid (h₃.objects.trans hle)).mono fun r w₄ hw₄ => ?_)
    exact Ends.bind (Ends.step (Ends.pure ((h₃.trans hw₄).trans (.note _ _ _))))

theorem File.closeHandle_within (hf : P f.oid) (w : World) : Within P w (f.closeHandle w).2 :=
  f.closeHandle_follows (fun _ _ _ => .called) (.errorCode hf) w

/-- **`Close`** reports to its own object and to new ones, however many records are written. -/
theorem File.close_within (f : File env) (w : World) :
    Ends f.close w fun _ w' => P f.oid → (∀ oid, w.objects ≤ oid → P oid) → Within P w w' := by
  refine Ends.fix_induct (P := fun f w _ w' => P f.oid → (∀ oid, w.objects ≤ oid → P oid) → Within P w w')
    (fun close hclose f w => ?_) f w
  intro n r w' hrun hf hnew
  revert n r w' hrun
  change Ends (closeBody close f) w fun _ w' => Within P w w'
  have hhandle := File.closeHandle_within hf w
  refine Ends.bind (Ends.step (Ends.bind (Ends.step ?_)))
  have hnote := hhandle.trans (.note f.oid .closed (f.closeHandle w).2)
  cases f.m_state with
  | none => exact Ends.pure hnote
  | some state =>
    refine Ends.ite (fun _ => Ends.bind (Ends.step ?_)) fun _ => Ends.pure hnote
    have hrecorded := hnote.trans (.note f.oid .recorded (World.note f.oid .closed (f.closeHandle w).2).2)
    refine Ends.bind ((setMultipleWith_within (fun f w hf hw n r w' hrun => hclose f w n r w' hrun hf hw) _ _
      fun oid hle => hnew oid (hrecorded.objects.trans hle)).mono fun rc w' h => Ends.pure ?_)
    exact hrecorded.trans h

theorem File.closeHandle_told (f : File env) (w : World) :
    ((f.closeHandle w).1 = 0 → (f.closeHandle w).2.reports = w.reports) ∧
      Told (.file f.oid) w (f.closeHandle w).1 (f.closeHandle w).2 := by
  unfold closeHandle
  split
  · exact ⟨fun _ => rfl, Told.quiet rfl⟩
  · next h _ =>
    have hclose : (hdfsCloseFile h w).2.reports = w.reports := (call_called _ _ _ _).reports
    dsimp only
    split
    · exact ⟨fun h0 => absurd h0 (errorCode_neg _ _ _).ne, Told.emsg hclose trivial⟩
    · exact ⟨fun _ => hclose, Told.quiet hclose⟩

/-- **`Close`** reports that it could not close the file, or nothing to its own object. -/
theorem File.close_told (f : File env) {w : World} (hoid : f.oid < w.objects) :
    Ends f.close w fun r w' => Told (.file f.oid) w r.1 w' := by
  obtain ⟨hquiet, htold⟩ := f.closeHandle_told w
  have hobjects : (f.closeHandle w).2.objects = w.objects :=
    @closeHandle_follows env (fun w w' => w'.objects = w.objects) _ f (fun c w w' h => h.objects) (fun ecode w => rfl) w
  refine Ends.fix (Ends.bind (Ends.step (Ends.bind (Ends.step ?_))))
  cases f.m_state with
  | none => exact Ends.pure (htold.before rfl)
  | some state =>
    refine Ends.ite (fun h0 => Ends.bind (Ends.step ?_)) fun _ => Ends.pure (htold.before rfl)
    refine Ends.bind ((setMultipleWith_within (P := fun oid => oid ≠ f.oid)
      (fun g w hg hw n r w' hrun => g.close_within w n r w' hrun hg hw) _ _ ?_).mono ?_)
    · intro oid hle
      exact (hoid.trans_le (hobjects.ge.trans hle)).ne'
    rintro rc w' ⟨-, new, hnew, hne⟩
    refine Ends.pure ⟨new, by rw [hnew, ← hquiet h0]; rfl, fun r hr => ?_⟩
    -- the records' objects have error objects of their own
    have hmem := List.mem_of_getLast? hr
    rw [List.mem_filter, decide_eq_true_eq] at hmem
    obtain ⟨oid, hoid', heq⟩ := hne r hmem.1
    exact absurd (ErrInfo.file.inj (heq.symm.trans hmem.2)) hoid'

/-- File objects keep their numbers in a history. -/
theorem File.history_objects (hf : f.Sound) (cs : List FileCall) (w : World) :
    Ends (File.history cs f) w fun _ w' => w.objects ≤ w'.objects := by
  induction cs generalizing f w with
  | nil => exact Ends.pure le_rfl
  | cons c cs ih =>
    have hperform : Ends (f.perform c) w fun _ w' => Within (fun _ => True) w w' := by
      cases c with
      | openFile path openMode => exact Ends.bind ((File.openFile_within trivial _ _ w).mono fun _ _ h => Ends.pure h)
      | close => exact Ends.bind ((f.close_within w).mono fun _ _ h => Ends.pure (h trivial fun _ _ => trivial))
      | io c =>
        cases c with
        | read c => exact Ends.bind ((File.read_within trivial _ _ w).mono fun _ _ h => Ends.pure h)
        | write buff offset => exact Ends.bind ((File.write_within trivial _ _ w).mono fun _ _ h => Ends.pure h)
    refine Ends.bind (Ends.bind (Ends.step (Ends.bind (((hf.perform c w).and hperform).mono ?_))))
    rintro ⟨⟨ret, data⟩, f'⟩ w' ⟨⟨hf', -⟩, hw'⟩
    refine Ends.bind (Ends.step (Ends.pure (Ends.bind ((ih hf' w').mono ?_))))
    rintro ⟨rest, f''⟩ w'' hle
    exact Ends.pure (hw'.objects.trans hle)

/-- **Every file object is proper**: one that `newFile` constructed, after any history. -/
theorem Invocation.proper_history {w w₁ : World} {f : File env} (hnew : newFile env w = (some f, w₁)) (cs : List FileCall) :
    Ends (File.history cs f) w₁ fun r w' => ∀ c, (Invocation.file r.2 c).Proper w' := by
  obtain ⟨rfl, hlt⟩ : f = { oid := w.objects } ∧ w.objects < w₁.objects := by
    rcases newFile_cases env w with ⟨h, -⟩ | h
    · cases h.symm.trans hnew
    · obtain ⟨hf, rfl⟩ := Prod.mk.inj (h.symm.trans hnew)
      exact ⟨(Option.some.inj hf).symm, Nat.lt_succ_self _⟩
  refine (((File.sound_new w.objects).history cs w₁).and (File.history_objects (File.sound_new w.objects) cs w₁)).mono ?_
  rintro ⟨seen, f'⟩ w' ⟨⟨hf', hoid⟩, hle⟩ c
  exact ⟨hf', by rw [hoid]; exact hlt.trans_le hle⟩

end Record

/-! ### The operations of a directory -/

namespace Directory

theorem opendir_told (d : Directory) (dir_path : Bytes) (w : World) :
    Ends (d.opendir env dir_path) w fun r w' => Told .directory w r.1 w' := by
  have hconn := hadoopConnect_reports w
  unfold opendir
  refine Ends.ite (fun _ => Ends.pure (Told.quiet rfl)) fun _ => Ends.bind (Ends.step ?_)
  refine Ends.ite (fun _ => Ends.bind (Ends.step (Ends.pure (Told.emsg hconn (by decide))))) fun _ => ?_
  have hlist := (hdfsListDirectory_reports (env.getRealPath dir_path) (hadoopConnect w).2.clearErrno.2).trans hconn
  refine Ends.bind (Ends.step (Ends.bind (Ends.step (Ends.bind (Ends.step (Ends.ite (fun _ => ?_) fun _ => ?_))))))
  · exact Ends.pure (Told.quiet hlist)
  · exact Ends.pure (Told.quiet hlist)

/-- `Readdir` and `StatRet` return the code that they report. -/
theorem agrees_ebadf {w w₁ : World} (h : w₁.reports = w.reports) : ∃ new,
    (w₁.errorCode .directory (.fixed EBADF)).2.reports = w.reports ++ new ∧
      ∀ r ∈ lastTo .directory new, r.Agrees (-EBADF) := by
  refine ⟨[⟨.directory, .fixed EBADF, w₁.errno⟩], by rw [← h]; rfl, fun r hr => ?_⟩
  obtain rfl : r = ⟨.directory, .fixed EBADF, w₁.errno⟩ := by simpa [lastTo, eq_comm] using hr
  exact ⟨by decide, by rfl⟩

theorem readdir_agrees (d : Directory) (blen : ℕ) (w : World) :
    Ends (d.readdir blen) w fun r w' => ∃ new, w'.reports = w.reports ++ new ∧
      ∀ e ∈ lastTo .directory new, e.Agrees r.1.ret := by
  unfold readdir
  refine Ends.ite (fun _ => Ends.pure ⟨[], (List.append_nil _).symm, nofun⟩) fun _ => ?_
  split
  · exact Ends.pure ⟨[], (List.append_nil _).symm, nofun⟩
  · split
    · exact Ends.bind (Ends.step (Ends.pure (agrees_ebadf rfl)))
    · exact Ends.pure ⟨[], (List.append_nil _).symm, nofun⟩

theorem statRet_agrees (d : Directory) (buf : Option ℕ) (w : World) :
    Ends (d.statRet buf) w fun r w' => ∃ new, w'.reports = w.reports ++ new ∧ ∀ e ∈ lastTo .directory new, e.Agrees r.1 := by
  unfold statRet
  refine Ends.ite (fun _ => Ends.pure ⟨[], (List.append_nil _).symm, nofun⟩) fun _ => ?_
  refine Ends.ite (fun _ => Ends.bind (Ends.step (Ends.pure (agrees_ebadf rfl)))) fun _ => ?_
  exact Ends.pure ⟨[], (List.append_nil _).symm, nofun⟩

end Directory

/-! ### All operations -/

namespace Invocation

/-- `Close` has closed the file and goes on to the records, if there are any to write. -/
def Recording (w : World) : Invocation env → Prop
  | file f .close => (f.closeHandle w).1 = 0
  | _ => False

end Invocation

/-! ### Returning -/

theorem withRealPaths_gives {x : Prog World ℤ} (hx : ∀ w, Gives x w fun _ _ => True) (paths : List Bytes) (w : World) :
    Gives (withRealPaths env x paths) w fun _ _ => True := by
  induction paths generalizing w with
  | nil => exact hx w
  | cons path paths ih =>
    refine Gives.bind (Gives.step ?_)
    cases (realPath env path w).1 with
    | none => exact Gives.step trivial
    | some fname => exact ih _

theorem statPath_gives (einfo : ErrInfo) (fname : Bytes) (w : World) : Gives (statPath einfo fname) w fun _ _ => True := by
  refine Gives.bind (Gives.step ?_)
  cases (hdfsGetPathInfo fname w).1 with
  | none => exact Gives.bind (Gives.step (Gives.pure trivial))
  | some fileInfo => exact Gives.pure trivial

theorem stat_gives (m_cmsd_fs : Bool) (path : Bytes) (client : Bool) (w : World) :
    Gives (XrdHdfs.stat env m_cmsd_fs path client) w fun _ _ => True := by
  refine Gives.bind (Gives.step (Gives.ite (fun _ => Gives.bind (Gives.step (Gives.pure trivial))) fun _ => ?_))
  exact Gives.bind ((statPath_gives _ _ _).mono fun _ _ _ => Gives.pure trivial)

theorem statNull_gives (m_cmsd_fs client : Bool) (w : World) : Gives (statNull m_cmsd_fs client) w fun _ _ => True := by
  refine Gives.bind (Gives.step (Gives.bind (Gives.step (Gives.ite (fun _ => Gives.step trivial) fun _ => ?_))))
  exact Gives.bind (Gives.step (Gives.step trivial))

theorem File.openFile_gives (f : File env) (path : Bytes) (openMode : ℕ) (w : World) :
    Gives (f.openFile path openMode) w fun _ _ => True := by
  by_cases hfh : f.fh.isSome
  · have hbusy : f.openFile path openMode = pure (-EINVAL, f) := if_pos hfh
    rw [hbusy]
    exact Gives.pure trivial
  · exact (f.openFile_spec (by simpa using hfh) path openMode w).mono fun _ _ _ => trivial

/-- A `Close` that fails to close the file comes to no record. -/
theorem File.close_gives (f : File env) {w : World} (h : (f.closeHandle w).1 ≠ 0) : Gives f.close w fun _ _ => True := by
  refine Gives.fix (Gives.bind (Gives.step (Gives.bind (Gives.step ?_))))
  cases f.m_state with
  | none => exact Gives.pure trivial
  | some state => exact Gives.ite (fun h0 => absurd h0 h) fun _ => Gives.pure trivial

namespace Directory

theorem opendir_gives (d : Directory) (dir_path : Bytes) (w : World) :
    Gives (d.opendir env dir_path) w fun _ _ => True :=
  (opendir_spec env d dir_path w).mono fun _ _ _ => trivial

theorem readdir_gives (d : Directory) (blen : ℕ) (w : World) : Gives (d.readdir blen) w fun _ _ => True := by
  unfold readdir
  refine Gives.ite (fun _ => Gives.pure trivial) fun _ => ?_
  split
  · exact Gives.pure trivial
  · split
    · exact Gives.bind (Gives.step (Gives.pure trivial))
    · exact Gives.pure trivial

theorem statRet_gives (d : Directory) (buf : Option ℕ) (w : World) : Gives (d.statRet buf) w fun _ _ => True := by
  unfold statRet
  refine Gives.ite (fun _ => Gives.pure trivial) fun _ => ?_
  exact Gives.ite (fun _ => Gives.bind (Gives.step (Gives.pure trivial))) fun _ => Gives.pure trivial

end Directory

/-- **An operation returns**, unless it is a `Close` that goes on to the records. -/
theorem Invocation.returns {w : World} (inv : Invocation env) (hinv : inv.Proper w) (h : ¬ inv.Recording w) :
    Gives inv.run w fun _ _ => True := by
  cases inv with
  | sys op => exact withRealPaths_gives (fun w => (operation_spec op w).mono fun _ _ _ => trivial) op.paths w
  | stat m_cmsd_fs path client =>
    refine Gives.bind (Gives.step ?_)
    cases (realPath env path w).1 with
    | none => exact statNull_gives _ _ _
    | some fname => exact Gives.bind ((stat_gives _ _ _ _).mono fun _ _ _ => Gives.pure trivial)
  | file f c =>
    have hperform : Gives (f.perform c) w fun _ _ => True := by
      cases c with
      | openFile path openMode => exact Gives.bind ((f.openFile_gives _ _ w).mono fun _ _ _ => Gives.pure trivial)
      | io c => exact hinv.1.io_gives c w
      | close => exact Gives.bind ((f.close_gives h).mono fun _ _ _ => Gives.pure trivial)
    exact Gives.bind (hperform.mono fun _ _ _ => Gives.pure trivial)
  | fstat f => exact Gives.bind ((statPath_gives _ _ w).mono fun _ _ _ => Gives.pure trivial)
  | opendir d dir_path => exact Gives.bind ((d.opendir_gives _ w).mono fun _ _ _ => Gives.pure trivial)
  | readdir d blen => exact Gives.bind ((d.readdir_gives _ w).mono fun _ _ _ => Gives.pure trivial)
  | statRet d buf => exact Gives.bind ((d.statRet_gives _ w).mono fun _ _ _ => Gives.pure trivial)
  | closedir d => exact Gives.pure trivial

/-! ### The error object -/

theorem Told.agrees_iff {einfo : ErrInfo} {w w' : World} {rc : ℤ} (h : Told einfo w rc w') :
    ∃ new, w'.reports = w.reports ++ new ∧ ∀ r ∈ lastTo einfo new, (r.Agrees rc ↔ r.ErrnoFits) := by
  obtain ⟨new, hnew, hlast⟩ := h
  refine ⟨new, hnew, fun r hr => ?_⟩
  obtain ⟨hs, rfl⟩ := hlast r hr
  exact agrees_emsg_iff hs

/-- **When the error that is returned is the one that was reported.** For every operation, every state of its object and
every outcome of the calls it makes: the code returned is negative and is that of the last report to the error object if
and only if `errno` fits what the caller of `Emsg` takes it to be.  An operation that reports returns. -/
theorem returned_eq_reported_iff (inv : Invocation env) (w : World) (hinv : inv.Proper w) :
    (Ends inv.run w fun rc w' => ∃ new, w'.reports = w.reports ++ new ∧
      ∀ r ∈ lastTo inv.einfo new, (r.Agrees rc ↔ inv.Fits r)) ∧ (¬ inv.Recording w → Gives inv.run w fun _ _ => True) := by
  refine ⟨?_, inv.returns hinv⟩
  cases inv with
  | sys op => exact (withRealPaths_told (operation_told op) op.paths w).mono fun rc w' h => h.agrees_iff
  | stat m_cmsd_fs path client =>
    have hreal := @realPath_reports env path w
    refine Ends.bind (Ends.step ?_)
    cases (realPath env path w).1 with
    | none => exact (statNull_told _ _ _).mono fun rc w' h => (h.after hreal).agrees_iff
    | some fname => exact Ends.bind ((stat_told _ _ _ _).mono fun r w' h => Ends.pure (h.after hreal).agrees_iff)
  | file f c =>
    have hperform : Ends (f.perform c) w fun r w' => Told (.file f.oid) w r.1.1 w' := by
      cases c with
      | openFile path openMode => exact Ends.bind ((f.openFile_told _ _ w).mono fun r w' h => Ends.pure h)
      | close => exact Ends.bind ((f.close_told hinv.2).mono fun r w' h => Ends.pure h)
      | io c =>
        cases c with
        | read c => exact Ends.bind ((hinv.1.read_told _ _ w).mono fun r w' h => Ends.pure h)
        | write buff offset => exact Ends.bind ((f.write_told _ _ w).mono fun r w' h => Ends.pure h)
    exact Ends.bind (hperform.mono fun r w' h => Ends.pure h.agrees_iff)
  | fstat f => exact Ends.bind ((statPath_told _ _ w).mono fun r w' h => Ends.pure h.agrees_iff)
  | opendir d dir_path => exact Ends.bind ((d.opendir_told dir_path w).mono fun r w' h => Ends.pure h.agrees_iff)
  | closedir d => exact Ends.pure (Told.quiet rfl).agrees_iff
  | readdir d blen =>
    refine Ends.bind ((d.readdir_agrees blen w).mono ?_)
    rintro ⟨out, d'⟩ w' ⟨new, hnew, hlast⟩
    exact Ends.pure ⟨new, hnew, fun r hr => iff_of_true (hlast r hr) trivial⟩
  | statRet d buf =>
    refine Ends.bind ((d.statRet_agrees buf w).mono ?_)
    rintro ⟨ret, d'⟩ w' ⟨new, hnew, hlast⟩
    exact Ends.pure ⟨new, hnew, fun r hr => iff_of_true (hlast r hr) trivial⟩

/-- HDFS with the one-byte file `/a`, which cannot be deleted, and without a connection for the second operation. -/
def refuses : World where
  fs := .ofFiles [(str "/a", str "x")]
  script c := if c = .delete then [.fail EIO] else if c = .connect then [.ok, .fail 255] else []
  objects := 1

theorem returned_eq_reported_iff_write :
    (Invocation.file ({ oid := 0 } : File Reference.env) (.io (.write (str "a") 1))).Proper refuses ∧
    (Ends (Invocation.file ({ oid := 0 } : File Reference.env) (.io (.write (str "a") 1))).run refuses fun rc w' =>
      ∃ new, w'.reports = refuses.reports ++ new ∧ ∀ r ∈ lastTo (.file 0) new, (r.Agrees rc ↔ r.ErrnoFits)) :=
  have hinv := ⟨File.sound_new 0, by decide⟩
  ⟨hinv, (returned_eq_reported_iff (.file ({ oid := 0 } : File Reference.env) (.io (.write (str "a") 1))) refuses hinv).1⟩

/-- **Three errors that are not the ones reported**: an `Unlink` of a file that is still there and a `Write` at the wrong
offset return -1 for the `EIO` and the `ENOTSUP` they report, and a `Remdir` without a connection returns what `errno` was. -/
theorem other_errors_returned :
    ((do
      let unlinked ← (Invocation.sys (.unlink (str "/a")) : Invocation Reference.env).run
      let removed ← (Invocation.sys (.remdir (str "/a")) : Invocation Reference.env).run
      pure (unlinked, removed) : Prog World (ℤ × ℤ)).run 1 refuses).map (fun r => (r.1, r.2.reports.map Report.code)) =
      some ((-1, -255), [ EIO, EIO]) ∧
    ((Invocation.file ({ oid := 0 } : File Reference.env) (.io (.write (str "a") 1))).run.run 1 refuses).map
      (fun r => (r.1, r.2.reports.map Report.code)) = some (-1, [ENOTSUP]) := by
  decide +kernel

end XrdHdfs
