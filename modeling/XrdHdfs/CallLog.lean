import XrdHdfs.RecordIO

/-!
# The calls that are made

Every call of `libhdfs` is written down once, with what it returned.  `Logs P w w'`: between the two worlds calls were
made that all satisfy `P`.
-/

namespace XrdHdfs

open Lib World

variable {env : Env}

namespace World

@[simp] theorem take_calls (c : Call) (w : World) : (w.take c).2.calls = w.calls := by
  unfold take
  split <;> rfl

theorem call_calls (c : LibCall) (e : ℤ) (f : Fs → Option Fs) (w : World) :
    (w.call c e f).2.calls = w.calls ++ [(c, (w.call c e f).1)] := by
  have h := take_calls c.kind w
  unfold call
  revert h
  rcases w.take c.kind with ⟨a, w₁⟩
  intro h
  dsimp only at h ⊢
  rw [← h]
  cases a.error with
  | some e => rfl
  | none =>
    dsimp only
    cases f w₁.fs <;> rfl

/-- Calls were made, and each satisfies `P`. -/
def Logs (P : LibCall × ℤ → Prop) (w w' : World) : Prop := ∃ new, w'.calls = w.calls ++ new ∧ ∀ c ∈ new, P c

namespace Logs

variable {P Q : LibCall × ℤ → Prop} {w w' w'' : World}

theorem of_eq (h : w'.calls = w.calls) : Logs P w w' := ⟨[], by rw [h, List.append_nil], by simp⟩

theorem one {c : LibCall × ℤ} (h : w'.calls = w.calls ++ [c]) (hc : P c) : Logs P w w' := ⟨[c], h, by simpa using hc⟩

theorem trans (h : Logs P w w') (h' : Logs P w' w'') : Logs P w w'' := by
  obtain ⟨new, hnew, hP⟩ := h
  obtain ⟨new', hnew', hP'⟩ := h'
  refine ⟨new ++ new', by rw [hnew', hnew, List.append_assoc], fun c hc => ?_⟩
  rcases List.mem_append.1 hc with hc | hc
  · exact hP c hc
  · exact hP' c hc

theorem mono (hPQ : ∀ c, P c → Q c) (h : Logs P w w') : Logs Q w w' := by
  obtain ⟨new, hnew, hP⟩ := h
  exact ⟨new, hnew, fun c hc => hPQ c (hP c hc)⟩

instance : IsPreorder World (Logs P) where
  refl _ := of_eq rfl
  trans _ _ _ := trans

end Logs

end World

theorem hadoopConnect_calls (w : World) :
    (hadoopConnect w).2.calls = w.calls ++ [(.connect, (hadoopConnect w).1)] :=
  call_calls .connect EIO some { w with errno := 0 }

theorem hdfsWrite_calls (fh : Option Handle) (buff : Bytes) (w : World) :
    (hdfsWrite fh buff w).2.calls = w.calls ++ [(.write fh buff, (hdfsWrite fh buff w).1)] := by
  have h := take_calls .write w
  unfold hdfsWrite
  revert h
  rcases w.take .write with ⟨a, w₁⟩
  intro h
  dsimp only at h ⊢
  rw [← h]
  rcases a.error with _ | e
  · rcases fh with _ | h
    · rfl
    · dsimp only
      split_ifs
      · rfl
      · cases w₁.fs.append h.ino (buff.take (a.given (s32 buff.length).toNat 0)) <;> rfl
  · rfl

/-- A pointer counts as 0, and `NULL` as -1. -/
def pointer {α : Type} : Option α → ℤ
  | some _ => 0
  | none => -1

theorem hdfsOpenFile_calls (path : Bytes) (writing : Bool) (w : World) :
    (hdfsOpenFile path writing w).2.calls =
      w.calls ++ [(.openFile path writing, pointer (hdfsOpenFile path writing w).1)] := by
  have h := take_calls .openFile w
  unfold hdfsOpenFile
  revert h
  rcases w.take .openFile with ⟨a, w₁⟩
  intro h
  dsimp only at h ⊢
  rw [← h]
  rcases a.error with _ | e
  · dsimp only
    split_ifs
    · cases w₁.fs.create (resolve path) <;> rfl
    · cases w₁.fs.tree.ino (resolve path) <;> rfl
  · rfl

theorem hdfsGetPathInfo_calls (path : Bytes) (w : World) :
    (hdfsGetPathInfo path w).2.calls =
      w.calls ++ [(.getPathInfo path, pointer (hdfsGetPathInfo path w).1)] := by
  have h := take_calls .getPathInfo w
  unfold hdfsGetPathInfo
  revert h
  rcases w.take .getPathInfo with ⟨a, w₁⟩
  intro h
  dsimp only at h ⊢
  rw [← h]
  rcases a.error with _ | e
  · dsimp only
    cases w₁.fileInfo path <;> rfl
  · rfl

/-! ### The operations on files -/

theorem malloc_calls (w : World) : (malloc env w).2.calls = w.calls := take_calls .malloc w

theorem newFile_calls (w : World) : (newFile env w).2.calls = w.calls := by
  have h := take_calls .newFile w
  unfold newFile
  revert h
  rcases w.take .newFile with ⟨a, w₁⟩
  intro h
  dsimp only at h ⊢
  split
  · exact h
  · exact h

/-- A call of `Open`, for writing or for reading. -/
def LibCall.Opening (writing : Bool) : LibCall → Prop
  | .connect => True
  | .openFile _ writing' => writing' = writing
  | .getPathInfo _ => True
  | _ => False

/-- A call that changes no file. -/
def LibCall.Reading : LibCall → Prop
  | .connect => True
  | .openFile _ writing => writing = false
  | .getPathInfo _ => True
  | .pread _ _ _ => True
  | .closeFile h => h.writing = false
  | .exists _ => True
  | .listDirectory _ => True
  | _ => False

theorem LibCall.Opening.reading {c : LibCall} (h : c.Opening false) : c.Reading := by
  cases c <;> first | exact h | exact trivial | exact h.elim

/-- **The calls of `Open`.** It succeeds if and only if `hdfsOpenFile` gives it a handle. -/
theorem File.openFile_calls (f : File env) (hf : f.fh = none) (path : Bytes) (openMode : ℕ) (w : World) :
    Ends (f.openFile path openMode) w fun r w' => ∃ new, w'.calls = w.calls ++ new ∧
      (∀ c ∈ new, c.1.Opening (writing openMode)) ∧
      (r.1 = 0 ↔ (.openFile (env.getRealPath path) (writing openMode), 0) ∈ new) := by
  unfold openFile
  rw [if_neg (by simp [hf])]
  have hmem : ((if f.readbuf.mem.isSome then fun w => (none, w) else World.malloc env) w).2.calls = w.calls := by
    split
    · rfl
    · exact malloc_calls w
  refine Ends.bind (Ends.step ?_)
  generalize (if f.readbuf.mem.isSome then fun w => (none, w) else World.malloc env) w = r at hmem
  obtain ⟨mem, w₁⟩ := r
  have hconn := hadoopConnect_calls w₁
  rw [hmem] at hconn
  refine Ends.bind (Ends.step ?_)
  dsimp only
  generalize hadoopConnect w₁ = r at hconn
  obtain ⟨connected, w₂⟩ := r
  dsimp only at hconn ⊢
  refine Ends.ite (fun _ => Ends.bind (Ends.step (Ends.pure ⟨_, hconn, by simp [LibCall.Opening], ?_⟩)))
    fun _ => Ends.bind (Ends.step ?_)
  · exact iff_of_false (errorCode_neg (.file f.oid) (.fixed EIO) w₂).ne (by simp)
  have hopen := hdfsOpenFile_calls (env.getRealPath path) (writing openMode) w₂
  rw [hconn] at hopen
  generalize hdfsOpenFile (env.getRealPath path) (writing openMode) w₂ = r at hopen
  obtain ⟨o, w₃⟩ := r
  cases o with
  | none =>
    have hinfo := hdfsGetPathInfo_calls (env.getRealPath path) w₃
    have hneg := (openError_spec (env.getRealPath path) w₃).2
    rw [← openError_snd, hopen, List.append_assoc, List.append_assoc] at hinfo
    refine Ends.bind (Ends.step (Ends.pure ⟨_, hinfo, by simp [LibCall.Opening], ?_⟩))
    exact iff_of_false hneg.ne (by simp [pointer])
  | some h =>
    rw [List.append_assoc] at hopen
    refine Ends.bind (Ends.step (Ends.ite (fun _ => Ends.bind (Ends.step (Ends.pure ?_))) fun _ => Ends.pure ?_))
    · exact ⟨_, hopen, by simp [LibCall.Opening], iff_of_true rfl (by simp [pointer])⟩
    · exact ⟨_, hopen, by simp [LibCall.Opening], iff_of_true rfl (by simp [pointer])⟩

theorem hdfsPread_calls (fh : Option Handle) (pos len : ℤ) (w : World) :
    (hdfsPread fh pos len w).2.calls = w.calls ++ [(.pread fh pos len, (hdfsPread fh pos len w).1.n)] := by
  have h := take_calls .pread w
  unfold hdfsPread
  revert h
  rcases w.take .pread with ⟨a, w₁⟩
  intro h
  dsimp only at h ⊢
  rw [← h]
  rcases a.error with _ | e
  · rcases fh with _ | h
    · rfl
    · dsimp only
      split <;> rfl
  · rfl

/-- `Read` does what `hdfsPread` does, as often as it likes. -/
theorem Readbuf.read_follows {σ : Type} {hdfsPread : ℤ → ℤ → σ → PreadAnswer × σ} {R : σ → σ → Prop} [IsPreorder σ R]
    (hR : ∀ pos len s, R s (hdfsPread pos len s).2) (rb : Readbuf) (offset : ℤ) (blen : ℕ) :
    Follows R (rb.read hdfsPread offset blen) := by
  unfold Readbuf.read
  refine .ite (.bind (.step (hR _ _)) fun _ => .pure _) (.ite (.pure _) (.bind (.loop ?_ _) ?_))
  · rintro ⟨rb, acc⟩
    exact .ite (.bind (.step (hR _ _)) fun _ => .ite (.pure _) (.ite (.pure _) (.ite (.pure _) (.pure _)))) (.pure _)
  · rintro ⟨err, rb, acc⟩
    cases err <;> exact .pure _

/-- The calls of `Read` are those of `hdfsPread`. -/
theorem File.read_logs {P : LibCall × ℤ → Prop} (f : File env) (hP : ∀ pos len r, P (.pread f.fh pos len, r)) (offset : ℤ)
    (blen : ℕ) : Follows (Logs P) (f.read offset blen) := by
  refine .bind (Readbuf.read_follows (fun pos len w => .one (hdfsPread_calls f.fh pos len w) (hP pos len _)) _ _ _) ?_
  refine fun r => .bind (.step fun w => .of_eq ?_) fun _ => .pure _
  unfold readReport
  dsimp only
  split <;> rfl

/-- A loop that reads a file from start to end makes no other calls. -/
theorem scan_logs {P : LibCall × ℤ → Prop} (hP : ∀ fh pos len r, P (.pread fh pos len, r)) {α : Type} (blen : ℕ)
    (g : α → Bytes → α) (b : File env × α × ℕ) : Follows (Logs P) (.loop (scanTurn blen g) b) := by
  refine .loop ?_ b
  rintro ⟨fh, acc, offset⟩
  refine .bind (fh.read_logs (hP fh.fh) _ _) fun _ => ?_
  exact .ite (.pure _) (.ite (.pure _) (.pure _))

/-! ### The memory that is not initialised -/

theorem World.take_junk (c : Call) (w : World) : (w.take c).2.junk = w.junk := by
  unfold take
  split <;> rfl

theorem newFile_junk (w : World) : (newFile env w).2.junk = w.junk := by
  have h := take_junk .newFile w
  unfold newFile
  revert h
  rcases w.take .newFile with ⟨a, w₁⟩
  intro h
  dsimp only at h ⊢
  split
  · exact h
  · exact h

/-- An `Open` for reading constructs no checksum state. -/
theorem File.openFile_junk (f : File env) (path : Bytes) {openMode : ℕ} (hr : writing openMode = false) :
    Keeps World.junk (f.openFile path openMode) := by
  refine f.openFile_follows path openMode (fun c w => take_junk c w) (fun c w w' h => h.junk) (fun w => rfl)
    (fun ecode w => rfl) (fun e w => rfl) fun hw => ?_
  rw [hr] at hw
  cases hw

/-! ### Close -/

/-- The `Close` of an object that keeps no checksum state closes its handle. -/
theorem File.close_calls (f : File env) {h : Handle} (hfh : f.fh = some h) (hf : f.m_state = none) (w : World) :
    Ends f.close w fun _ w' => w'.calls = w.calls ++ [(.closeFile h, (hdfsCloseFile h w).1)] := by
  have hclose : (hdfsCloseFile h w).2.calls = _ := call_calls (.closeFile h) EIO some w
  have hhandle : (f.closeHandle w).2.calls = w.calls ++ [(.closeFile h, (hdfsCloseFile h w).1)] := by
    unfold closeHandle
    rw [hfh]
    dsimp only
    split
    · exact hclose
    · exact hclose
  refine Ends.fix (Ends.bind (Ends.step (Ends.bind (Ends.step ?_))))
  rw [hf]
  exact Ends.pure hhandle

/-! ### A whole file -/

/-- `scanFile` has opened the file `F`, read it in the pieces `bs` until a `Read` gave `retval`, and closed it. -/
structure ReadThrough (env : Env) (path : Bytes) (blen : ℕ) (w : World) (F : Bytes) (retval : ℤ) (bs : List Bytes)
    (w' : World) : Prop where
  data : w.fs.view (resolve (env.getRealPath path)) = some F
  le : retval ≤ 0
  calm : w.Calm → retval = 0
  length_le : ∀ b ∈ bs, b.length ≤ blen
  whole : 0 ≤ retval → bs.flatten = F ∧ (w.Calm → blen ≤ 32768 → bs = pieces blen F)
  unchanged : Unchanged w w'
  calls : Logs (fun c => c.1.Reading) w w'

/-- **The rule of `scanFile`.** It cannot open the file, or it hands over what it made of the pieces. -/
theorem scanFile_gives {α β : Type} (path : Bytes) {blen : ℕ} (hpos : 0 < blen) (hblen : blen < 2 ^ 31) (w : World)
    {start : World → α × World} {acc : α} {g : α → Bytes → α} {stop : ℤ → β} {rest : ℤ → α → Prog World β}
    {Q : β → World → Prop}
    (hstart : ∀ v, v.junk = w.junk → (start v).1 = acc ∧ Unchanged v (start v).2 ∧ (start v).2.calls = v.calls)
    (hstop : ∀ rc w', rc < 0 → Unchanged w w' → Logs (fun c => c.1.Reading) w w' →
      (w.Calm → w.fs.view (resolve (env.getRealPath path)) = none) → Q (stop rc) w')
    (hrest : ∀ F retval bs w', ReadThrough env path blen w F retval bs w' → Gives (rest retval (bs.foldl g acc)) w' Q) :
    Gives (scanFile env path blen start g stop rest) w Q := by
  unfold scanFile
  obtain ⟨hu₁, hnew, hsome⟩ := @newFile_spec env w
  have hc₁ : Logs (fun c => c.1.Reading) w (newFile env w).2 := .of_eq (newFile_calls w)
  have hj₁ := @newFile_junk env w
  refine Gives.bind (Gives.step ?_)
  generalize newFile env w = r at hu₁ hnew hsome hc₁ hj₁
  obtain ⟨o, w₁⟩ := r
  dsimp only at hu₁ hnew hsome hc₁ hj₁ ⊢
  cases o with
  | none => exact Gives.pure (hstop _ w₁ (by norm_num) hu₁ hc₁ fun hw => absurd rfl (hsome hw))
  | some fh =>
  obtain rfl := hnew fh rfl
  have hopen := ((File.openFile_spec ({ oid := w.objects } : File env) rfl path O_RDONLY w₁).and_ends
    (File.openFile_calls ({ oid := w.objects } : File env) rfl path O_RDONLY w₁)).and_ends
    (File.openFile_junk ({ oid := w.objects } : File env) path (by decide : writing O_RDONLY = false) w₁)
  rw [hu₁.fs] at hopen
  refine Gives.bind (hopen.mono ?_)
  rintro ⟨rc, fh⟩ w₂ ⟨⟨hcase, new, hnew₂, hopening, -⟩, hj₂⟩
  have hc₂ : Logs (fun c => c.1.Reading) w w₂ := hc₁.trans ⟨new, hnew₂, fun c hc => (hopening c hc).reading⟩
  rcases hcase with ⟨hrc, hu₂, hno⟩ | ⟨hrc, hl₂, h, hopened, ⟨hino, hfs⟩, hsize⟩
  · dsimp only at hrc ⊢
    refine Gives.ite (fun _ => Gives.pure (hstop _ w₂ hrc (hu₁.trans hu₂) hc₂ fun hw => ?_)) fun h0 => absurd h0 (by omega)
    exact Fs.view_eq_none.2 (hno (hu₁.later.calm hw))
  dsimp only at hrc hopened hsize ⊢
  subst hrc
  refine Gives.ite (fun h => absurd rfl h) fun _ => Gives.bind (Gives.step ?_)
  obtain ⟨hacc, hus, hcs⟩ := hstart w₂ (hj₂.trans hj₁)
  have hu₃ : Unchanged w (start w₂).2 := Unchanged.trans ⟨hfs, hu₁.later.trans hl₂⟩ hus
  have hc₃ : Logs (fun c => c.1.Reading) w (start w₂).2 := hc₂.trans (.of_eq hcs)
  generalize start w₂ = r at hacc hu₃ hc₃
  obtain ⟨acc', w₃⟩ := r
  dsimp only at hacc hu₃ hc₃ ⊢
  subst hacc
  obtain ⟨mem, hmem⟩ := hopened.readbuf
  have hscan := (scan_spec fh hopened.fh hopened.kind w₃ (F := w.fs.data h.ino) (by rw [hu₃.fs]) (by
    rw [hmem]; exact Readbuf.bufferHolds_open _ mem) hpos hblen g acc').and_ends
    (scan_logs (P := fun c => c.1.Reading) (fun fh pos len r => trivial) blen g _ w₃)
  refine Gives.bind (hscan.mono ?_)
  rintro ⟨retval, _, fh'⟩ w₄ ⟨⟨hu₄, hle, hfile, hcalm, bs, rfl, hbs, hall⟩, hc₄⟩
  dsimp only at hle hfile hcalm hbs hall ⊢
  have hst' : fh'.m_state = none := by
    rw [hfile]
    exact hopened.state
  have hfh' : fh'.fh = some h := by
    rw [hfile]
    exact hopened.fh
  refine Gives.bind (((File.close_spec fh' hst' w₄).and_ends (File.close_calls fh' hfh' hst' w₄)).mono ?_)
  rintro ⟨_, fh''⟩ w₅ ⟨⟨hu₅, -, -⟩, hclose⟩
  have hc₅ : Logs (fun c => c.1.Reading) w w₅ := (hc₃.trans hc₄).trans (.one hclose hopened.kind)
  refine Gives.bind (Gives.step ?_)
  refine hrest (w.fs.data h.ino).bytes retval bs _ {
    data := Fs.view_eq_some.2 ⟨h.ino, hino, rfl⟩
    le := hle
    calm := fun hw => hcalm (hu₃.later.calm hw)
    length_le := hbs
    whole := fun hnn => ⟨(hall hnn).1, fun hw hb => (hall hnn).2 ?_⟩
    unchanged := ((hu₃.trans hu₄).trans hu₅).trans (note_unchanged fh''.oid .deleted w₅)
    calls := hc₅.trans (.of_eq rfl) }
  rw [hsize (hu₁.later.calm hw) rfl]
  exact hb

end XrdHdfs
