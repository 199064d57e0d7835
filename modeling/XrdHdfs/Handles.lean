import Mathlib.Algebra.BigOperators.Group.Finset.Basic
import Mathlib.Algebra.Group.Pi.Basic
import XrdHdfs.Directory
import XrdHdfs.Fresh
import XrdHdfs.Lib.Monitor
import XrdHdfs.Release

/-!
# The handles of HDFS files

What the plugin owes `libhdfs`: it reads, writes and closes only handles that it has, and closes each of them once.
`HandleStep` is the monitor of that; its state says how often a file is open for reading, and for writing.  The log does not
show the handle that a call of `hdfsOpenFile` has returned, so the monitor may take any for the mode of the call.

A server does any of the operations of the plugin, in any order, on any number of file objects, which it may also delete
without having closed them.  The monitor accepts all that it does, whatever fails, and in the end the open handles are those
of the file objects that there are (`handles_protocol`): unlike file objects, handles do not leak.
-/

namespace XrdHdfs

open Lib World

variable {env : Env}

/-! ### The protocol -/

/-- How many of the open handles are this one. -/
abbrev OpenHandles := Handle → ℕ

/-- A call that has nothing to do with handles. -/
def LibCall.Other : LibCall → Prop
  | .openFile _ _ | .closeFile _ | .pread _ _ _ | .write _ _ => False
  | _ => True

/-- A call, with what it returned: a handle is opened, unless that fails; one that is open is closed, however that ends, or is
used. -/
inductive HandleStep : OpenHandles → LibCall × ℤ → OpenHandles → Prop
  | opened (m : OpenHandles) (path : Bytes) (h : Handle) :
      HandleStep m (.openFile path h.writing, 0) (Pi.single h 1 + m)
  | refused (m : OpenHandles) (path : Bytes) (writing : Bool) {rc : ℤ} : rc ≠ 0 → HandleStep m (.openFile path writing, rc) m
  | closed (m : OpenHandles) (h : Handle) (rc : ℤ) : HandleStep (Pi.single h 1 + m) (.closeFile h, rc) m
  | read {m : OpenHandles} {h : Handle} (pos len rc : ℤ) : 0 < m h → HandleStep m (.pread (some h) pos len, rc) m
  | written {m : OpenHandles} {h : Handle} (buff : Bytes) (rc : ℤ) : 0 < m h → HandleStep m (.write (some h) buff, rc) m
  | other (m : OpenHandles) {c : LibCall} (rc : ℤ) : c.Other → HandleStep m (c, rc) m

/-- A handle more does no harm. -/
theorem handleStep_framed : Framed HandleStep := by
  intro m e m' k h
  cases h with
  | opened =>
    rw [add_assoc]
    exact .opened (m + k) _ _
  | refused _ _ _ hrc => exact .refused (m + k) _ _ hrc
  | closed =>
    rw [add_assoc]
    exact .closed (m' + k) _ _
  | read _ _ _ hopen => exact .read _ _ _ (Nat.add_pos_left hopen _)
  | written _ _ hopen => exact .written _ _ (Nat.add_pos_left hopen _)
  | other _ _ hc => exact .other (m + k) _ hc

/-- **The protocol is kept** by a program that has the handles `P` and leaves the handles `Q`. -/
abbrev Guards {α : Type} (P : OpenHandles → Prop) (x : Prog World α) (Q : α → OpenHandles → Prop) : Prop :=
  Obeys HandleStep World.calls P x Q

/-- No handle is needed, and none is left. -/
abbrev NoHandles {α : Type} (x : Prog World α) : Prop := Guards (· = 0) x fun _ m => m = 0

theorem Guards.of_logs {α : Type} {x : Prog World α} (h : Follows (Logs fun c => c.1.Other) x) (P : OpenHandles → Prop) :
    Guards P x fun _ => P := by
  intro m w hm
  refine (h w).mono ?_
  rintro a w' ⟨new, hnew, hall⟩
  exact ⟨m, hm, new, hnew, .of_forall fun e he => .other m e.2 (hall e he)⟩

/-- `hdfsOpenFile`, when there are no handles. -/
theorem hdfsOpenFile_guards (path : Bytes) (writing : Bool) :
    Guards (· = 0) (.step (hdfsOpenFile path writing)) fun o m => m = o.elim 0 fun h => Pi.single h 1 := by
  refine Obeys.step ?_
  rintro m w rfl
  obtain ⟨-, hopen⟩ := hdfsOpenFile_spec path writing w
  refine ⟨_, rfl, .one (hdfsOpenFile_calls path writing w) ?_⟩
  rcases ho : (hdfsOpenFile path writing w).1 with _ | h
  · exact .refused 0 path writing (by decide)
  · rw [ho] at hopen
    obtain ⟨rfl, -⟩ := hopen
    exact .opened 0 path h

/-- `hdfsCloseFile`, for the only handle. -/
theorem hdfsCloseFile_moves (h : Handle) (w : World) :
    Moves HandleStep World.calls (Pi.single h 1) w 0 (hdfsCloseFile h w).2 :=
  .one (call_calls (.closeFile h) EIO some w) (.closed 0 h _)

/-! ### File objects -/

namespace File

/-- The handle of an object. -/
def handles (f : File env) : OpenHandles := f.fh.elim 0 fun h => Pi.single h 1

/-- It has one, and that is all there is. -/
def Has (f : File env) (m : OpenHandles) : Prop := f.fh ≠ none ∧ m = f.handles

theorem Has.eq {f : File env} {m : OpenHandles} (h : f.Has m) : ∃ fh, f.fh = some fh ∧ m = Pi.single fh 1 := by
  obtain ⟨hfh, rfl⟩ := h
  obtain ⟨fh, hfh⟩ := Option.ne_none_iff_exists'.1 hfh
  exact ⟨fh, hfh, by rw [handles, hfh]; rfl⟩

theorem Has.of_fh {f f' : File env} {m : OpenHandles} (h : f.Has m) (hfh : f'.fh = f.fh) : f'.Has m := by
  obtain ⟨hne, rfl⟩ := h
  exact ⟨hfh ▸ hne, by rw [handles, handles, hfh]⟩

/-- A use of the handle. -/
theorem Has.used {f : File env} {m : OpenHandles} (h : f.Has m) : ∃ fh, f.fh = some fh ∧ 0 < m fh := by
  obtain ⟨fh, hfh, rfl⟩ := h.eq
  exact ⟨fh, hfh, by simp⟩

/-- **`Open`** gives the object a handle, or leaves none. -/
theorem openFile_guards (f : File env) (hf : f.fh = none) (path : Bytes) (openMode : ℕ) :
    Guards (· = 0) (f.openFile path openMode) fun r m => (r.1 = 0 → r.2.Has m) ∧ (r.1 ≠ 0 → m = 0) := by
  unfold openFile
  rw [if_neg (by simp [hf])]
  refine Obeys.bind (R := fun _ m => m = 0) (Obeys.step fun m w hm => ⟨m, hm, .of_eq ?_⟩) fun mem => ?_
  · split
    · rfl
    · exact malloc_calls w
  refine Obeys.bind (R := fun _ m => m = 0)
    (Obeys.step fun m w hm => ⟨m, hm, .one (hadoopConnect_calls w) (.other m _ trivial)⟩)
    fun connected => ?_
  dsimp only
  refine Obeys.ite (fun _ => Obeys.bind (R := fun err m => m = 0 ∧ err < 0)
    (Obeys.step fun m w hm => ⟨m, ⟨hm, errorCode_neg _ _ w⟩, .of_eq rfl⟩) fun err => Obeys.pure ?_) fun _ => ?_
  · rintro m ⟨hm, hneg⟩
    exact ⟨fun h0 => absurd h0 hneg.ne, fun _ => hm⟩
  refine Obeys.bind (hdfsOpenFile_guards (env.getRealPath path) (writing openMode)) fun o => ?_
  cases o with
  | none =>
    refine Obeys.bind (R := fun err m => m = 0 ∧ err < 0) (Obeys.step fun m w hm => ⟨m, ⟨hm, ?_⟩, ?_⟩)
      fun err => Obeys.pure ?_
    · exact (openError_spec (env.getRealPath path) w).2
    · have hinfo := hdfsGetPathInfo_calls (env.getRealPath path) w
      rw [← openError_snd] at hinfo
      exact .one hinfo (.other m _ trivial)
    · rintro m ⟨hm, hneg⟩
      exact ⟨fun h0 => absurd h0 hneg.ne, fun _ => hm⟩
  | some h =>
    refine Obeys.bind (R := fun _ m => m = Pi.single h 1) (Obeys.step fun m w hm => ⟨m, hm, .of_eq rfl⟩) fun _ => ?_
    have hhas : ∀ (g : File env), g.fh = some h → ∀ m, m = Pi.single h 1 → g.Has m := by
      rintro g hg m rfl
      exact ⟨by rw [hg]; exact Option.some_ne_none h, by rw [handles, hg]; rfl⟩
    refine Obeys.ite (fun _ => ?_) fun _ => Obeys.pure fun m hm => ⟨fun _ => hhas _ rfl m hm, fun hne => absurd rfl hne⟩
    refine Obeys.bind (R := fun _ m => m = Pi.single h 1) (Obeys.step fun m w hm => ⟨m, hm, .of_eq rfl⟩) fun junk => ?_
    exact Obeys.pure fun m hm => ⟨fun _ => hhas _ rfl m hm, fun hne => absurd rfl hne⟩

/-- **`Read`** uses it. -/
theorem read_guards (f : File env) (offset : ℤ) (blen : ℕ) :
    Guards f.Has (f.read offset blen) fun r => r.2.Has := by
  intro m w hm
  have hpre : IsPreorder World fun w w' => Moves HandleStep World.calls m w m w' :=
    { refl := fun _ => .of_eq rfl, trans := fun _ _ _ => .trans }
  obtain ⟨fh, hfh, hopen⟩ := hm.used
  have hpread : ∀ pos len w, Moves HandleStep World.calls m w m (hdfsPread f.fh pos len w).2 := by
    intro pos len w
    refine .one (hdfsPread_calls f.fh pos len w) ?_
    rw [hfh]
    exact .read pos len _ hopen
  refine Ends.bind ((Readbuf.read_follows hpread f.readbuf offset blen w).mono ?_)
  rintro ⟨out, rb⟩ w₁ hmoves
  refine Ends.bind (Ends.step (Ends.pure ⟨m, hm.of_fh rfl, hmoves.trans (.of_eq ?_)⟩))
  unfold readReport
  dsimp only
  split <;> rfl

/-- **`Write`.** -/
theorem write_guards (f : File env) (buff : Bytes) (offset : ℤ) :
    Guards f.Has (f.write buff offset) fun r => r.2.Has := by
  unfold write
  refine Obeys.ite (fun _ => ?_) fun _ => ?_
  · refine Obeys.bind (R := fun _ => f.Has) (Obeys.step fun m w hm => ⟨m, hm, .of_eq rfl⟩) fun err => ?_
    exact Obeys.pure fun m hm => hm
  · refine Obeys.bind (R := fun _ => f.Has) (Obeys.step fun m w hm => ?_) fun result => ?_
    · obtain ⟨fh, hfh, hopen⟩ := hm.used
      refine ⟨m, hm, .one (hdfsWrite_calls f.fh buff w) ?_⟩
      rw [hfh]
      exact .written buff _ hopen
    · exact Obeys.pure fun m hm => hm.of_fh rfl

/-- The handle is closed. -/
theorem closeHandle_moves (f : File env) {m : OpenHandles} (hm : f.Has m) (w : World) :
    Moves HandleStep World.calls m w 0 (f.closeHandle w).2 := by
  obtain ⟨h, hfh, rfl⟩ := hm.eq
  unfold closeHandle
  rw [hfh]
  dsimp only
  split
  · exact hdfsCloseFile_moves h w
  · exact hdfsCloseFile_moves h w

end File

/-! ### Files that are opened and closed -/

section Use

variable {β : Type} {close : File env → Prog World (ℤ × File env)}
  (hclose : ∀ f, Guards f.Has (close f) fun _ m => m = 0)

/-- **The rule of `withFile`.** -/
theorem withFile_guards (path : Bytes) (openMode : ℕ) (stop : ℤ → β) (use : File env → Prog World β)
    (huse : ∀ f, Guards f.Has (use f) fun _ m => m = 0) : NoHandles (withFile env path openMode stop use) := by
  refine Obeys.bind (R := fun o m => m = 0 ∧ ∀ f ∈ o, f.fh = none) (Obeys.step fun m w hm => ?_) fun o => ?_
  · refine ⟨m, ⟨hm, fun f hf => ?_⟩, .of_eq (newFile_calls w)⟩
    rw [newFile_spec w |>.2.1 f hf]
  rcases o with _ | fh
  · exact Obeys.pure fun m hm => hm.1
  · intro m w hm
    refine Obeys.bind (P := (· = 0)) (fh.openFile_guards (hm.2 fh rfl) path openMode) ?_ m w hm.1
    rintro ⟨rc, fh⟩
    refine Obeys.ite (fun hne => Obeys.pure fun m hm => hm.2 hne) fun h0 => ?_
    exact (huse fh).mono (fun m hm => hm.1 (not_not.1 h0)) fun _ _ h => h

theorem destroy_guards (f : File env) : NoHandles f.destroy :=
  Obeys.step fun m _ hm => ⟨m, hm, .of_eq rfl⟩

theorem writeLoop_guards (text : Bytes) (b : File env × ℕ) :
    Guards b.1.Has (.loop (writeTurn text) b) fun r => r.2.Has := by
  refine Obeys.loop (fun b => b.1.Has) ?_ b
  rintro ⟨fh, offset⟩
  refine Obeys.bind (fh.write_guards _ _) ?_
  rintro ⟨retval, fh⟩
  refine Obeys.ite (fun _ => Obeys.pure fun m hm => hm) fun _ => ?_
  exact Obeys.ite (fun _ => Obeys.pure fun m hm => hm) fun _ => Obeys.pure fun m hm => hm

theorem scanLoop_guards {α : Type} (blen : ℕ) (g : α → Bytes → α) (b : File env × α × ℕ) :
    Guards b.1.Has (.loop (scanTurn blen g) b) fun r => r.2.2.Has := by
  refine Obeys.loop (fun b => b.1.Has) ?_ b
  rintro ⟨fh, acc, offset⟩
  refine Obeys.bind (fh.read_guards _ _) ?_
  rintro ⟨out, fh⟩
  refine Obeys.ite (fun _ => Obeys.pure fun m hm => hm) fun _ => ?_
  exact Obeys.ite (fun _ => Obeys.pure fun m hm => hm) fun _ => Obeys.pure fun m hm => hm

include hclose in
/-- **`SetMultiple`.** -/
theorem setMultipleWith_guards (pfn : Bytes) (values : ChecksumValues) : NoHandles (setMultipleWith close pfn values) := by
  refine withFile_guards (getChecksumFilename pfn) O_WRONLY id (fun fh : File env => do
    let r ← .loop (writeTurn (serialise values)) (fh, 0)
    let r' ← close r.2
    r'.2.destroy
    pure (if r.1 < 0 then r.1 else 0)) fun f => ?_
  refine Obeys.bind (writeLoop_guards (serialise values) (f, 0)) ?_
  rintro ⟨retval, f₁⟩
  refine Obeys.bind (hclose f₁) fun r => ?_
  exact Obeys.bind (destroy_guards r.2) fun _ => Obeys.pure fun m hm => hm

end Use

/-- **`Close`**, with the record that it writes. -/
theorem File.close_guards (f : File env) : Guards f.Has f.close fun _ m => m = 0 := by
  refine Obeys.fix (P := fun f : File env => f.Has) (Q := fun _ _ m => m = 0) (fun close ih f => ?_) f
  refine Obeys.bind (R := fun _ m => m = 0) (Obeys.step fun m w hm => ⟨0, rfl, f.closeHandle_moves hm w⟩) fun ret => ?_
  refine Obeys.bind (R := fun _ m => m = 0) (Obeys.step fun m w hm => ⟨m, hm, .of_eq rfl⟩) fun _ => ?_
  cases f.m_state with
  | none => exact Obeys.pure fun m hm => hm
  | some state =>
    refine Obeys.ite (fun _ => ?_) fun _ => Obeys.pure fun m hm => hm
    refine Obeys.bind (R := fun _ m => m = 0) (Obeys.step fun m w hm => ⟨m, hm, .of_eq rfl⟩) fun _ => ?_
    exact Obeys.bind (setMultipleWith_guards ih _ _) fun _ => Obeys.pure fun m hm => hm

/-! ### The checksum manager -/

theorem setMultiple_guards (pfn : Bytes) (values : ChecksumValues) : NoHandles (setMultiple env pfn values) :=
  setMultipleWith_guards File.close_guards pfn values

/-- A file that is read from start to end. -/
theorem scanFile_guards {α β : Type} (path : Bytes) (blen : ℕ) {start : World → α × World} (g : α → Bytes → α)
    (stop : ℤ → β) {rest : ℤ → α → Prog World β} (hcalls : ∀ w, (start w).2.calls = w.calls)
    (hrest : ∀ retval acc, NoHandles (rest retval acc)) : NoHandles (scanFile env path blen start g stop rest) := by
  refine withFile_guards path O_RDONLY stop (fun fh : File env => do
    let acc ← .step start
    let r ← .loop (scanTurn blen g) (fh, acc, 0)
    let r' ← r.2.2.close
    r'.2.destroy
    rest r.1 r.2.1) fun f => ?_
  refine Obeys.bind (R := fun _ => f.Has) (Obeys.step fun m w hm => ⟨m, hm, .of_eq (hcalls w)⟩) fun acc => ?_
  refine Obeys.bind (scanLoop_guards blen g (f, acc, 0)) ?_
  rintro ⟨retval, acc, f₁⟩
  refine Obeys.bind f₁.close_guards fun r => ?_
  exact Obeys.bind (destroy_guards r.2) fun _ => hrest retval acc

/-- Nothing is done with handles. -/
theorem noHandles_pure {α : Type} (a : α) : NoHandles (pure a : Prog World α) := Obeys.pure fun _ hm => hm

theorem getFileContents_guards (pfn : Bytes) : NoHandles (ChecksumManager.getFileContents env pfn) := by
  rw [getFileContents_eq]
  refine .ite (fun _ => noHandles_pure _) fun _ => scanFile_guards _ _ _ _ (fun _ => rfl) fun retval acc => ?_
  exact .ite (fun _ => noHandles_pure _) fun _ => noHandles_pure _

theorem calcDigest_guards (pfn : Bytes) (cks : XrdCksData) (do_set : Bool) :
    NoHandles (ChecksumManager.calcDigest env pfn cks do_set) := by
  rw [calcDigest_eq]
  cases ChecksumManager.returnDigest cks with
  | none => exact noHandles_pure _
  | some digest =>
    refine .ite (fun _ => noHandles_pure _) fun _ => scanFile_guards _ _ _ _ (fun _ => rfl) fun retval state => ?_
    refine .ite (fun _ => noHandles_pure _) fun _ => .bind (setMultiple_guards pfn _) fun _ => ?_
    exact .ite (fun _ => noHandles_pure _) fun _ => noHandles_pure _

/-- The calls of `Unlink`. -/
theorem unlink_guards (pfn : Bytes) (P : OpenHandles → Prop) : Guards P (unlink env pfn) fun _ => P := by
  refine Guards.of_logs (.bind (.step fun w => .one (hadoopConnect_calls w) trivial) fun _ => ?_) P
  refine .ite (.step fun w => .of_eq rfl) ?_
  refine .bind (.step fun w => .of_eq rfl) fun _ => .bind (.step fun w => .one (call_calls _ EIO _ w) trivial) fun _ => ?_
  refine .ite (.bind (.step fun w => ?_) fun _ => .step fun w => .of_eq rfl) (.pure _)
  unfold unlinkErrno
  split
  · exact .one (call_calls (.exists _) ENOENT _ { w with errno := 0 }) trivial
  · exact .of_eq rfl

theorem get_guards (pfn : Bytes) (cks : XrdCksData) : NoHandles (ChecksumManager.get env pfn cks) := by
  refine .bind (getFileContents_guards pfn) ?_
  rintro ⟨rc, text⟩
  refine .ite (fun _ => noHandles_pure _) fun _ => .ite (fun _ => noHandles_pure _) fun _ => ?_
  refine .ite (fun _ => .bind (unlink_guards pfn _) fun _ => noHandles_pure _) fun _ => ?_
  exact .ite (fun _ => noHandles_pure _) fun _ => noHandles_pure _

/-- **The entry points.** -/
theorem request_guards (pfn : Bytes) (r : Request) : NoHandles (r.run env pfn) := by
  cases r with
  | get cks => exact .bind (get_guards pfn cks) fun _ => noHandles_pure _
  | del => exact .bind (unlink_guards pfn _) fun _ => noHandles_pure _
  | list blen separator =>
    refine .bind (.bind (getFileContents_guards pfn) fun r => ?_) fun _ => noHandles_pure _
    exact .ite (fun _ => noHandles_pure _) fun _ => .ite (fun _ => noHandles_pure _) fun _ => noHandles_pure _
  | ver cks =>
    refine .bind (.bind (get_guards pfn {}) fun out => .ite (fun _ => ?_) fun _ => noHandles_pure _) fun _ =>
      noHandles_pure _
    refine .bind (calcDigest_guards pfn out.cks true) fun r => ?_
    exact .ite (fun _ => noHandles_pure _) fun _ => noHandles_pure _
  | set cks =>
    refine .bind (.bind (getFileContents_guards pfn) ?_) fun _ => noHandles_pure _
    rintro ⟨rc, text⟩
    dsimp only
    generalize parse text = p
    refine .ite (fun _ => noHandles_pure _) fun _ => .ite (fun _ => noHandles_pure _) fun _ => ?_
    cases ChecksumManager.merge cks (env.cks.Get cks) p.2 with
    | none => exact noHandles_pure _
    | some values => exact setMultiple_guards pfn values
  | calcDigest cks do_set => exact .bind (calcDigest_guards pfn cks do_set) fun _ => noHandles_pure _

/-! ### The name space -/

theorem withConnection_guards {x : Prog World ℤ} (hx : NoHandles x) : NoHandles (withConnection x) := by
  refine .bind (Guards.of_logs (.step fun w => .one (hadoopConnect_calls w) trivial) _) fun _ => ?_
  refine .ite (fun _ => Guards.of_logs (.step fun w => .of_eq rfl) _) fun _ => ?_
  exact .bind (Guards.of_logs (.step fun w => .of_eq rfl) _) fun _ => hx

theorem callOnce_guards {c : LibCall} (hc : c.Other) (e : ℤ) (f : Fs → Option Fs) (P : OpenHandles → Prop) :
    Guards P (callOnce (World.call c e f)) fun _ => P := by
  refine Guards.of_logs (.bind (.step fun w => .one (call_calls c e f w) hc) fun _ => ?_) P
  exact .ite (.step fun w => .of_eq rfl) (.pure _)

/-- A new file is closed again, whatever is done in between. -/
theorem withNewFile_guards (path : Bytes) {x : Prog World ℤ} (hx : ∀ P : OpenHandles → Prop, Guards P x fun _ => P) :
    NoHandles (withNewFile path x) := by
  refine withConnection_guards ?_
  refine Obeys.bind (hdfsOpenFile_guards path true) fun o => ?_
  cases o with
  | none => exact Guards.of_logs (.step fun w => .of_eq rfl) _
  | some fp =>
    refine .bind (hx _) fun retc => .bind (R := fun _ m => m = 0) (Obeys.step ?_) fun _ => noHandles_pure _
    rintro m w rfl
    exact ⟨0, rfl, hdfsCloseFile_moves fp w⟩

/-- **The operations on the name space.** -/
theorem operation_guards (op : Operation) : NoHandles (op.run env) := by
  cases op with
  | chmod path mode => exact withConnection_guards (callOnce_guards (c := .chmod _ _) trivial ENOENT _ _)
  | create path mode => exact withNewFile_guards _ fun P => callOnce_guards (c := .chmod _ _) trivial ENOENT _ P
  | mkdir path mode mkpath =>
    refine withConnection_guards (.ite (fun _ => callOnce_guards (c := .mkdir _) trivial EIO _ _) fun _ => ?_)
    cases trimSlashes (env.getRealPath path) with
    | none => exact noHandles_pure _
    | some t =>
      refine .bind (Guards.of_logs (.step fun w => ?_) _) fun _ => ?_
      · unfold parentMissing
        split
        · exact .of_eq rfl
        · exact .one (call_calls (.exists _) ENOENT _ w) trivial
      refine .ite (fun _ => Guards.of_logs (.step fun w => .of_eq rfl) _) fun _ => ?_
      exact .bind (Guards.of_logs (.step fun w => .of_eq rfl) _) fun _ => callOnce_guards (c := .mkdir _) trivial EIO _ _
  | remdir path => exact withConnection_guards (callOnce_guards (c := .delete _) trivial EIO _ _)
  | rename src dest => exact withConnection_guards (callOnce_guards (c := .rename _ _) trivial EIO _ _)
  | truncate path newsize => exact withNewFile_guards _ fun P => Obeys.pure fun _ hm => hm
  | unlink path => exact unlink_guards path _

/-- `Stat` and `Fstat`. -/
theorem statPath_guards (einfo : ErrInfo) (fname : Bytes) (P : OpenHandles → Prop) :
    Guards P (statPath einfo fname) fun _ => P := by
  refine Guards.of_logs (.bind (.step fun w => .one (hdfsGetPathInfo_calls fname w) trivial) ?_) P
  rintro (_ | info)
  · exact .bind (.step fun w => .of_eq rfl) fun _ => .pure _
  · exact .pure _

theorem stat_guards (m_cmsd_fs : Bool) (path : Bytes) (client : Bool) : NoHandles (stat env m_cmsd_fs path client) := by
  refine .bind (Guards.of_logs (.step fun w => ?_) _) fun _ => ?_
  · unfold statConnect
    split_ifs
    · exact .one (hadoopConnect_calls w) trivial
    · exact .of_eq rfl
    · exact .one (call_calls .connect EIO some w) trivial
  refine .ite (fun _ => .bind (Guards.of_logs (.step fun w => .of_eq rfl) _) fun _ => noHandles_pure _) fun _ => ?_
  exact .bind (statPath_guards _ _ _) fun _ => noHandles_pure _

/-! ### A server -/

/-- `~XrdHdfsFile`, which closes the handle of an object that was not closed. -/
def File.delete (f : File env) : Prog World Unit :=
  match f.fh with
  | none => f.destroy
  | some h => do
    let _ ← .step (hdfsCloseFile h)
    f.destroy

/-- What a server may ask for: the operations of the plugin, and those that return data. -/
inductive ServerOp where
  | plugin (op : PluginOp)
  | read (h : ℕ) (offset : ℤ) (blen : ℕ)
  | fstat (h : ℕ)
  | delete (h : ℕ)
  | stat (m_cmsd_fs : Bool) (path : Bytes) (client : Bool)
  | request (pfn : Bytes) (r : Request)

/-- The file objects after it. -/
def ServerOp.run (objects : Objects env) : ServerOp → Prog World (Objects env)
  | plugin op => do
    let (_, objects) ← op.run objects
    pure objects
  | read h offset blen =>
    match objects h with
    | none => pure objects
    | some f => do
      let (_, f) ← f.read offset blen
      pure (Function.update objects h (some f))
  | fstat h =>
    match objects h with
    | none => pure objects
    | some f => do
      let _ ← f.fstat
      pure objects
  | delete h =>
    match objects h with
    | none => pure objects
    | some f => do
      f.delete
      pure (Function.update objects h none)
  | stat m_cmsd_fs path client => do
    let _ ← XrdHdfs.stat env m_cmsd_fs path client
    pure objects
  | request pfn r => do
    r.run env pfn
    pure objects

/-- One after the other. -/
def serve : Objects env → List ServerOp → Prog World (Objects env)
  | objects, [] => pure objects
  | objects, op :: ops => do
    let objects ← op.run objects
    serve objects ops

/-- The open handles are those of the objects, of which each has one; `hs` are the numbers of the objects, at least. -/
structure HandlesOf (objects : Objects env) (hs : Finset ℕ) (m : OpenHandles) : Prop where
  numbers : ∀ h f, objects h = some f → h ∈ hs
  opened : ∀ h f, objects h = some f → f.fh ≠ none
  sum : m = ∑ h ∈ hs, (objects h).elim 0 File.handles

section Server

variable {objects : Objects env}

/-- The handle of one object, and those of the others. -/
theorem HandlesOf.split {hs : Finset ℕ} {m : OpenHandles} (hm : HandlesOf objects hs m) (h : ℕ) :
    ∃ k, m = (objects h).elim 0 File.handles + k ∧ ∀ o : Option (File env), (∀ f ∈ o, f.fh ≠ none) →
      HandlesOf (Function.update objects h o) (insert h hs) (o.elim 0 File.handles + k) := by
  refine ⟨∑ x ∈ (insert h hs).erase h, (objects x).elim 0 File.handles, ?_, fun o ho => ⟨?_, ?_, ?_⟩⟩
  · rw [Finset.add_sum_erase _ (fun x => (objects x).elim 0 File.handles) (Finset.mem_insert_self h hs), hm.sum]
    refine (Finset.sum_insert_of_eq_zero_if_notMem fun hnot => ?_).symm
    rcases hf : objects h with _ | f
    · rfl
    · exact absurd (hm.numbers h f hf) hnot
  · intro x f hf
    by_cases hx : x = h
    · exact hx ▸ Finset.mem_insert_self h hs
    · rw [Function.update_of_ne hx] at hf
      exact Finset.mem_insert_of_mem (hm.numbers x f hf)
  · intro x f hf
    by_cases hx : x = h
    · subst hx
      rw [Function.update_self] at hf
      exact ho f hf
    · rw [Function.update_of_ne hx] at hf
      exact hm.opened x f hf
  · rw [← Finset.add_sum_erase _ (fun x => (Function.update objects h o x).elim 0 File.handles)
      (Finset.mem_insert_self h hs), Function.update_self]
    refine congrArg _ (Finset.sum_congr rfl fun x hx => ?_)
    rw [Function.update_of_ne (Finset.ne_of_mem_erase hx)]

/-- The handles are those of the objects, whatever their numbers are. -/
def Balanced (objects : Objects env) (m : OpenHandles) : Prop := ∃ hs, HandlesOf objects hs m

/-- A program that needs no handles. -/
theorem NoHandles.framed {α : Type} {x : Prog World α} (h : NoHandles x) (P : OpenHandles → Prop) :
    Guards P x fun _ => P := by
  intro m w hm
  refine (h.frame handleStep_framed m m w ⟨0, rfl, (zero_add m).symm⟩).mono ?_
  rintro a w' ⟨m', ⟨_, rfl, rfl⟩, hmoves⟩
  exact ⟨0 + m, (zero_add m).symm ▸ hm, hmoves⟩

/-- **A program on one object**: what it does with its handle it does in the presence of the others. -/
theorem Balanced.on {α : Type} {x : Prog World α} {f : File env} {h : ℕ} {R : α → OpenHandles → Prop}
    (hf : objects h = some f) (hx : Guards f.Has x R) : Guards (Balanced objects) x fun a m =>
      ∃ m₀ k, R a m₀ ∧ m = m₀ + k ∧ ∀ o : Option (File env), (∀ f ∈ o, f.fh ≠ none) →
        Balanced (Function.update objects h o) (o.elim 0 File.handles + k) := by
  rintro m w ⟨hs, hm⟩
  obtain ⟨k, rfl, hk⟩ := hm.split h
  rw [hf]
  refine (hx.frame handleStep_framed k _ w ⟨_, ⟨hm.opened h f hf, rfl⟩, rfl⟩).mono ?_
  rintro a w' ⟨_, ⟨m₀, hR, rfl⟩, hmoves⟩
  exact ⟨m₀ + k, ⟨m₀, k, hR, rfl, fun o ho => ⟨_, hk o ho⟩⟩, hmoves⟩

theorem File.delete_guards (f : File env) : Guards f.Has f.delete fun _ m => m = 0 := by
  unfold File.delete
  intro m w hm
  obtain ⟨h, hfh, rfl⟩ := hm.eq
  rw [hfh]
  refine Obeys.bind (P := (· = Pi.single h 1)) (R := fun _ m => m = 0) (Obeys.step ?_)
    (fun _ => destroy_guards f) _ w rfl
  rintro m w rfl
  exact ⟨0, rfl, hdfsCloseFile_moves h w⟩

/-- **An operation of the plugin.** -/
theorem pluginOp_guards (op : PluginOp) : Guards (Balanced objects) (op.run objects) fun r => Balanced r.2 := by
  cases op with
  | openFile h path openMode =>
    unfold PluginOp.run
    dsimp only
    rcases hf : objects h with _ | f
    · refine Obeys.bind (R := fun o m => Balanced objects m ∧ ∀ f ∈ o, f.fh = none) (Obeys.step fun m w hm => ?_) fun o => ?_
      · refine ⟨m, ⟨hm, fun f hf => ?_⟩, .of_eq (newFile_calls w)⟩
        rw [newFile_spec w |>.2.1 f hf]
      rcases o with _ | f
      · exact Obeys.pure fun m hm => hm.1
      · rintro m w ⟨⟨hs, hm⟩, hnew⟩
        obtain ⟨k, rfl, hk⟩ := hm.split h
        rw [hf]
        have hopen := (f.openFile_guards (hnew f rfl) path openMode).frame handleStep_framed k
        refine Obeys.bind hopen ?_ _ w ⟨0, rfl, rfl⟩
        rintro ⟨rc, f'⟩
        refine Obeys.ite (fun hne => ?_) fun h0 => Obeys.pure ?_
        · refine (Obeys.bind ((destroy_guards f').framed _) fun _ => Obeys.pure fun m hm => ?_)
          obtain ⟨m₀, ⟨-, hm₀⟩, rfl⟩ := hm
          rw [hm₀ hne, ← Function.update_eq_self h objects, hf]
          exact ⟨_, hk none (by simp)⟩
        · rintro m ⟨m₀, ⟨hm₀, -⟩, rfl⟩
          obtain ⟨hfh, rfl⟩ := hm₀ (not_not.1 h0)
          exact ⟨_, hk (some f') (by rintro _ ⟨⟩; exact hfh)⟩
    · exact Obeys.pure fun m hm => hm
  | write h buff offset =>
    unfold PluginOp.run
    dsimp only
    rcases hf : objects h with _ | f
    · exact Obeys.pure fun m hm => hm
    · refine Obeys.bind (Balanced.on hf (f.write_guards buff offset)) ?_
      rintro ⟨rc, f'⟩
      refine Obeys.pure ?_
      rintro m ⟨m₀, k, ⟨hfh, rfl⟩, rfl, hk⟩
      exact hk (some f') (by rintro _ ⟨⟩; exact hfh)
  | close h =>
    unfold PluginOp.run
    dsimp only
    rcases hf : objects h with _ | f
    · exact Obeys.pure fun m hm => hm
    · refine Obeys.bind (Balanced.on hf f.close_guards) ?_
      rintro ⟨rc, f'⟩
      refine Obeys.bind ((destroy_guards f').framed _) fun _ => Obeys.pure ?_
      rintro m ⟨m₀, k, rfl, rfl, hk⟩
      exact hk none (by simp)
  | calcDigest pfn cks do_set =>
    exact Obeys.bind ((calcDigest_guards pfn cks do_set).framed _) fun _ => Obeys.pure fun m hm => hm
  | operation op => exact Obeys.bind ((operation_guards op).framed _) fun _ => Obeys.pure fun m hm => hm

/-- **An operation of the server.** -/
theorem serverOp_guards (op : ServerOp) : Guards (Balanced objects) (op.run objects) Balanced := by
  cases op with
  | plugin op => exact Obeys.bind (pluginOp_guards op) fun r => Obeys.pure fun m hm => hm
  | read h offset blen =>
    unfold ServerOp.run
    dsimp only
    rcases hf : objects h with _ | f
    · exact Obeys.pure fun m hm => hm
    · refine Obeys.bind (Balanced.on hf (f.read_guards offset blen)) ?_
      rintro ⟨out, f'⟩
      refine Obeys.pure ?_
      rintro m ⟨m₀, k, ⟨hfh, rfl⟩, rfl, hk⟩
      exact hk (some f') (by rintro _ ⟨⟩; exact hfh)
  | fstat h =>
    unfold ServerOp.run
    dsimp only
    rcases objects h with _ | f
    · exact Obeys.pure fun m hm => hm
    · exact Obeys.bind (statPath_guards _ _ _) fun _ => Obeys.pure fun m hm => hm
  | delete h =>
    unfold ServerOp.run
    dsimp only
    rcases hf : objects h with _ | f
    · exact Obeys.pure fun m hm => hm
    · refine Obeys.bind (Balanced.on hf f.delete_guards) fun _ => Obeys.pure ?_
      rintro m ⟨m₀, k, rfl, rfl, hk⟩
      exact hk none (by simp)
  | stat m_cmsd_fs path client =>
    exact Obeys.bind ((stat_guards m_cmsd_fs path client).framed _) fun _ => Obeys.pure fun m hm => hm
  | request pfn r => exact Obeys.bind ((request_guards pfn r).framed _) fun _ => Obeys.pure fun m hm => hm

end Server

theorem serve_guards (ops : List ServerOp) (objects : Objects env) :
    Guards (Balanced objects) (serve objects ops) Balanced := by
  induction ops generalizing objects with
  | nil => exact Obeys.pure fun m hm => hm
  | cons op ops ih => exact Obeys.bind (serverOp_guards op) fun objects => ih objects

end XrdHdfs
