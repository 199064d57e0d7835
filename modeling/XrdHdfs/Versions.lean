import XrdHdfs.Clients
import XrdHdfs.Handles
import XrdHdfs.Lib.Guarantee
import XrdHdfs.Transfer

/-!
# A reader keeps its version

While a file object is open for reading, a server does what it likes with the path that it was opened under, and with all
others.  A file is written to only through a handle that was opened for writing, and each of these has a new file of its own.
So the file that a reader has opened stays as it was then, unless somebody was writing it already; then it gets longer.  That
is what the reader reads, through its buffer or around it, however the buffer was filled before (`reader_keeps_version`).
-/

namespace XrdHdfs

open Lib World

variable {env : Env} {N : Set ℕ}

/-! ### Files that are not written to -/

/-- Files get longer at most, and those in `N` stay as they are. -/
structure Fs.Retains (N : Set ℕ) (fs fs' : Fs) : Prop where
  next_le : fs.next ≤ fs'.next
  longer : ∀ n < fs.next, (fs.data n).bytes <+: (fs'.data n).bytes
  same : ∀ n ∈ N, n < fs.next → fs'.data n = fs.data n

namespace Fs.Retains

variable {fs fs' fs'' : Fs}

theorem trans (h : fs.Retains N fs') (h' : fs'.Retains N fs'') : fs.Retains N fs'' where
  next_le := h.next_le.trans h'.next_le
  longer n hn := (h.longer n hn).trans (h'.longer n (hn.trans_le h.next_le))
  same n hN hn := (h'.same n hN (hn.trans_le h.next_le)).trans (h.same n hN hn)

/-- Only the tree has changed. -/
theorem of_data (hdata : fs'.data = fs.data) (hnext : fs'.next = fs.next) : fs.Retains N fs' :=
  ⟨hnext.ge, fun n _ => by rw [hdata], fun n _ _ => by rw [hdata]⟩

theorem of_grows {own : Option ℕ} (h : fs.Grows own fs') (hown : ∀ n ∈ own, n ∉ N) : fs.Retains N fs' :=
  ⟨h.next_le, h.longer, fun n hN hn => h.rest n hn fun e => hown n e hN⟩

theorem of_create {p : HPath} {i : ℕ} (h : fs.create p = some (i, fs')) : fs.Retains N fs' :=
  of_grows (.of_create h) (by simp)

theorem of_append {i : ℕ} {b : Bytes} (h : fs.append i b = some fs') (hi : i ∉ N) : fs.Retains N fs' :=
  of_grows (.of_append h) (by simpa using hi)

theorem of_delete {p : HPath} (h : fs.delete p = some fs') : fs.Retains N fs' := by
  obtain ⟨-, hdata, hnext⟩ := Fs.delete_eq_some h
  exact of_data hdata hnext

theorem of_chmod {p : HPath} {m : ℕ} (h : fs.chmod p m = some fs') : fs.Retains N fs' := by
  unfold Fs.chmod at h
  split_ifs at h
  cases h
  exact of_data rfl rfl

theorem of_mkdirs {p : HPath} (h : fs.mkdirs p = some fs') : fs.Retains N fs' := by
  unfold Fs.mkdirs at h
  split_ifs at h
  cases h
  exact of_data rfl rfl

theorem of_rename {src dst : HPath} (h : fs.rename src dst = some fs') : fs.Retains N fs' := by
  unfold Fs.rename at h
  dsimp only at h
  split_ifs at h
  · cases h
    exact of_data rfl rfl
  · cases h
    exact of_data rfl rfl

theorem of_did {op : Operation} (h : op.Did env fs fs') : fs.Retains N fs' := by
  cases op with
  | chmod path mode => exact of_chmod h
  | create path mode =>
    obtain ⟨i, fs₁, hc, hch⟩ := h
    exact (of_create hc).trans (of_chmod hch)
  | mkdir path mode mkpath =>
    rcases h with rfl | ⟨p, hp⟩
    · exact of_data rfl rfl
    · exact of_mkdirs hp
  | remdir path => exact of_delete h
  | rename src dest => exact of_rename h
  | truncate path newsize =>
    obtain ⟨i, hc⟩ := h
    exact of_create hc
  | unlink path => exact of_delete h

end Fs.Retains

abbrev Retains (N : Set ℕ) (w w' : World) : Prop := w.fs.Retains N w'.fs

instance isPreorder_retains (N : Set ℕ) : IsPreorder World (Retains N) where
  refl _ := .of_data rfl rfl
  trans _ _ _ := .trans

theorem World.Unchanged.retains {w w' : World} (h : Unchanged w w') : Retains N w w' :=
  .of_data (by rw [h.fs]) (by rw [h.fs])

/-- The files in `N` are there. -/
def Present (N : Set ℕ) (w : World) : Prop := ∀ n ∈ N, n < w.fs.next

theorem stable_present : Stable (Present N) (Retains N) := fun _ _ h hr n hn => (h n hn).trans_le hr.next_le

/-- **The files in `N` are spared**, when they are there. -/
abbrev Spares {α : Type} (N : Set ℕ) (x : Prog World α) (Q : α → Prop) : Prop := Guarantees (Present N) (Retains N) x Q

theorem Spares.of_unchanged {α : Type} {x : Prog World α} (h : ∀ w, Ends x w fun _ w' => Unchanged w w') :
    Spares N x fun _ => True :=
  .of_follows stable_present fun w => (h w).mono fun _ _ hu => hu.retains

/-! ### File objects -/

/-- The object is not one that writes to a file in `N`. -/
def File.Clear (N : Set ℕ) (f : File env) : Prop := ∀ h ∈ f.fh, h.writing → h.ino ∉ N

theorem File.Clear.of_fh {f f' : File env} (h : f.Clear N) (hfh : f'.fh = f.fh) : f'.Clear N := by
  unfold File.Clear
  rwa [hfh]

/-- **`Open`**: a file that is written is a new one. -/
theorem File.openFile_spares (f : File env) (hf : f.fh = none) (path : Bytes) (openMode : ℕ) :
    Spares N (f.openFile path openMode) fun r => r.1 = 0 → r.2.Clear N := by
  refine .of_ends stable_present fun w hw => (f.openFile_spec hf path openMode w).ends.mono ?_
  rintro ⟨rc, f'⟩ w' (⟨hneg, hu, -⟩ | ⟨-, -, h, hopened, hat, -⟩)
  · exact ⟨hu.retains, fun h0 => absurd h0 hneg.ne⟩
  unfold OpenedAt at hat
  split_ifs at hat with hwr
  · refine ⟨.of_create hat, fun _ h' hh' _ hN => ?_⟩
    obtain rfl : h = h' := Option.some.inj (hopened.fh.symm.trans hh')
    -- the new file has a number of its own
    have hlt := hw _ hN
    rw [(Fs.create_eq_some hat).1] at hlt
    exact absurd hlt (lt_irrefl _)
  · refine ⟨.of_data (by rw [hat.2]) (by rw [hat.2]), fun _ h' hh' hwr' => ?_⟩
    obtain rfl : h = h' := Option.some.inj (hopened.fh.symm.trans hh')
    exact absurd (hopened.kind.symm.trans hwr') hwr

theorem File.write_spares (f : File env) (hf : f.Clear N) (buff : Bytes) (offset : ℤ) :
    Spares N (f.write buff offset) fun r => r.2.fh = f.fh ∧ r.2.readbuf = f.readbuf := by
  unfold File.write
  refine .of_ends stable_present fun w _ => Ends.ite (fun _ => Ends.bind (Ends.step (Ends.pure ⟨?_, rfl, rfl⟩))) fun _ => ?_
  · exact (errorCode_unchanged _ _ w).retains
  refine Ends.bind (Ends.step (Ends.pure ⟨?_, rfl, rfl⟩))
  obtain ⟨-, ⟨h, n, hfh, hwr, -, -, -, happ, -⟩ | ⟨-, hfs, -⟩⟩ := hdfsWrite_spec f.fh buff w
  · exact .of_append happ (hf h hfh hwr)
  · exact .of_data (by rw [hfs]) (by rw [hfs])

theorem File.read_unchanged (f : File env) (offset : ℤ) (blen : ℕ) (w : World) :
    Ends (f.read offset blen) w fun r w' => Unchanged w w' ∧ r.2.fh = f.fh := by
  have hpre : IsPreorder World Unchanged := { refl := .refl, trans := fun _ _ _ => .trans }
  refine Ends.bind ((Readbuf.read_follows (fun pos len w => hdfsPread_unchanged f.fh pos len w) _ _ _ w).mono ?_)
  rintro ⟨out, rb⟩ w₁ hu
  exact Ends.bind (Ends.step (Ends.pure ⟨hu.trans (readReport_unchanged f.oid out w₁), rfl⟩))

theorem File.closeHandle_spares (f : File env) : Spares N (.step f.closeHandle) fun _ => True :=
  .of_unchanged fun w => Ends.step (f.closeHandle_spec w).1

theorem note_spares (oid : ℕ) (e : ObjEvent) : Spares N (.step (World.note oid e)) fun _ => True :=
  .of_unchanged fun w => Ends.step (note_unchanged oid e w)

/-! ### Files that are opened and closed -/

section Use

variable {β : Type} {close : File env → Prog World (ℤ × File env)}
  (hclose : ∀ f, f.Clear N → Spares N (close f) fun _ => True)

theorem withFile_spares (path : Bytes) (openMode : ℕ) (stop : ℤ → β) (use : File env → Prog World β)
    (huse : ∀ f, f.Clear N → Spares N (use f) fun _ => True) :
    Spares N (withFile env path openMode stop use) fun _ => True := by
  refine .bind (M := fun o => ∀ f ∈ o, f.fh = none) (.of_ends stable_present fun w _ => Ends.step ?_) fun o ho => ?_
  · obtain ⟨hu, hnew, -⟩ := @newFile_spec env w
    exact ⟨hu.retains, fun f hf => by rw [hnew f hf]⟩
  rcases o with _ | fh
  · exact .pure trivial
  refine .bind (fh.openFile_spares (ho fh rfl) path openMode) ?_
  rintro ⟨rc, fh⟩ hclear
  exact .ite (fun _ => .pure trivial) fun h0 => huse fh (hclear (not_not.1 h0))

theorem writeLoop_spares (text : Bytes) (b : File env × ℕ) (hb : b.1.Clear N) :
    Spares N (.loop (writeTurn text) b) fun r => r.2.Clear N := by
  refine .loop (P := fun b => b.1.Clear N) ?_ b hb
  rintro ⟨fh, offset⟩ hfh
  refine .bind (fh.write_spares hfh _ _) ?_
  rintro ⟨retval, fh'⟩ ⟨heq, -⟩
  have hfh' : fh'.Clear N := hfh.of_fh heq
  exact .ite (fun _ => .pure hfh') fun _ => .ite (fun _ => .pure hfh') fun _ => .pure hfh'

theorem scanLoop_spares {α : Type} (blen : ℕ) (g : α → Bytes → α) (b : File env × α × ℕ) (hb : b.1.Clear N) :
    Spares N (.loop (scanTurn blen g) b) fun r => r.2.2.Clear N := by
  refine .loop (P := fun b => b.1.Clear N) ?_ b hb
  rintro ⟨fh, acc, offset⟩ hfh
  refine .bind (M := fun r => r.2.Clear N) (.of_ends stable_present fun w _ => ?_) ?_
  · refine (fh.read_unchanged _ _ w).mono ?_
    rintro ⟨out, fh'⟩ w' ⟨hu, heq⟩
    exact ⟨hu.retains, hfh.of_fh heq⟩
  rintro ⟨out, fh'⟩ hfh'
  exact .ite (fun _ => .pure hfh') fun _ => .ite (fun _ => .pure hfh') fun _ => .pure hfh'

include hclose in
/-- **`SetMultiple`** writes to a file of its own. -/
theorem setMultipleWith_spares (pfn : Bytes) (values : ChecksumValues) :
    Spares N (setMultipleWith close pfn values) fun _ => True := by
  refine withFile_spares (getChecksumFilename pfn) O_WRONLY id (fun fh : File env => do
    let r ← .loop (writeTurn (serialise values)) (fh, 0)
    let r' ← close r.2
    r'.2.destroy
    pure (if r.1 < 0 then r.1 else 0)) fun f hf => ?_
  refine .bind (writeLoop_spares (serialise values) (f, 0) hf) ?_
  rintro ⟨retval, f₁⟩ hf₁
  refine .bind (hclose f₁ hf₁) fun r _ => .bind (note_spares _ _) fun _ _ => .pure trivial

end Use

/-- **`Close`**, with the record that it writes. -/
theorem File.close_spares (f : File env) (hf : f.Clear N) : Spares N f.close fun _ => True := by
  refine .fix (P := File.Clear N) (Q := fun _ _ => True) (fun close ih f _ => ?_) f hf
  refine .bind f.closeHandle_spares fun ret _ => .bind (note_spares _ _) fun _ _ => ?_
  cases f.m_state with
  | none => exact .pure trivial
  | some state =>
    refine .ite (fun _ => ?_) fun _ => .pure trivial
    exact .bind (note_spares _ _) fun _ _ => .bind (setMultipleWith_spares ih _ _) fun _ _ => .pure trivial

/-! ### The checksum manager -/

theorem setMultiple_spares (pfn : Bytes) (values : ChecksumValues) : Spares N (setMultiple env pfn values) fun _ => True :=
  setMultipleWith_spares File.close_spares pfn values

theorem getFileContents_spares (pfn : Bytes) : Spares N (ChecksumManager.getFileContents env pfn) fun _ => True :=
  .of_unchanged fun w => (getFileContents_mapped pfn w).ends.mono fun _ _ h => h.1

/-- **`Calc`** reads a file, and may record its digests. -/
theorem calcDigest_spares (pfn : Bytes) (cks : XrdCksData) (do_set : Bool) :
    Spares N (ChecksumManager.calcDigest env pfn cks do_set) fun _ => True := by
  rw [calcDigest_eq]
  rcases ChecksumManager.returnDigest cks with _ | digest
  · exact .pure trivial
  refine .ite (fun _ => .pure trivial) fun _ => ?_
  refine withFile_spares pfn O_RDONLY (fun rc => (rc, cks)) (fun fh : File env => do
    let acc ← .step (newState env.Z ((if do_set then ALL else 0) ||| digest))
    let r ← .loop (scanTurn 262144 ChecksumState.update) (fh, acc, 0)
    let r' ← r.2.2.close
    r'.2.destroy
    if r.1 < 0 then pure (- EIO, cks)
    else do
      let _ ← setState env pfn r.2.1.finalize
      if r.2.1.finalize.get digest = [] then pure (- EIO, cks)
      else pure (0, env.cks.Set cks (r.2.1.finalize.get digest))) fun f hf => ?_
  refine .bind (Spares.of_unchanged fun w => Ends.step (nextJunk_unchanged w)) fun acc _ => ?_
  refine .bind (scanLoop_spares _ _ (f, acc, 0) hf) ?_
  rintro ⟨retval, state, f₁⟩ hf₁
  refine .bind (f₁.close_spares hf₁) fun r _ => .bind (note_spares _ _) fun _ _ => ?_
  refine .ite (fun _ => .pure trivial) fun _ => .bind (setMultiple_spares pfn _) fun _ _ => ?_
  exact .ite (fun _ => .pure trivial) fun _ => .pure trivial

theorem Unlinked.retains {w w' : World} {p : HPath} (h : Unlinked w p w') : Retains N w w' := by
  obtain ⟨-, hdel | ⟨hfs, -⟩⟩ := h
  · exact .of_delete hdel
  · exact .of_data (by rw [hfs]) (by rw [hfs])

theorem GetDoesAt.retains {p q : HPath} {cks : XrdCksData} {w w' : World} {out : ChecksumManager.GetOut}
    (h : GetDoesAt env p q cks w out w') : Retains N w w' := by
  rcases h with ⟨-, -, hu, -⟩ | ⟨-, F, text, -, -, -, -, hkeep, hdel⟩
  · exact hu.retains
  · by_cases hl : Lacks text (ChecksumManager.requestedChecksum cks)
    · exact (hdel hl).retains
    · exact (hkeep hl).retains

theorem unlink_spares (pfn : Bytes) : Spares N (unlink env pfn) fun _ => True :=
  .of_follows stable_present fun w => (unlink_mapped pfn w).ends.mono fun _ _ h => h.1.retains

/-- **The entry points.** -/
theorem request_spares (pfn : Bytes) (r : Request) : Spares N (r.run env pfn) fun _ => True := by
  cases r with
  | get cks =>
    refine .bind (.of_follows stable_present fun w => ?_) fun _ _ => .pure trivial
    exact (get_mapped pfn cks w).ends.mono fun _ _ h => h.retains
  | del => exact .bind (unlink_spares pfn) fun _ _ => .pure trivial
  | list blen separator =>
    exact .bind (Spares.of_unchanged fun w => (list_spec pfn blen separator w).ends) fun _ _ => .pure trivial
  | ver cks =>
    refine .bind (.of_follows stable_present fun w => ?_) fun _ _ => .pure trivial
    refine (ver_mapped pfn cks w).ends.mono ?_
    rintro rc w' ⟨out, hget, -⟩
    exact hget.retains
  | set cks =>
    refine .bind (M := fun _ => True) (.bind (getFileContents_spares pfn) ?_) fun _ _ => .pure trivial
    rintro ⟨rc, text⟩ -
    dsimp only
    generalize parse text = p
    refine .ite (fun _ => .pure trivial) fun _ => .ite (fun _ => .pure trivial) fun _ => ?_
    cases ChecksumManager.merge cks (env.cks.Get cks) p.2 with
    | none => exact .pure trivial
    | some values => exact setMultiple_spares pfn values
  | calcDigest cks do_set => exact .bind (calcDigest_spares pfn cks do_set) fun _ _ => .pure trivial

theorem operation_spares (op : Operation) : Spares N (op.run env) fun _ => True := by
  refine .of_follows stable_present fun w => (operation_spec op w).ends.mono ?_
  rintro rc w' (⟨-, hdid⟩ | ⟨-, hfs, -⟩ | ⟨-, path, mode, i, -, -, hc⟩)
  · exact .of_did hdid
  · exact .of_data (by rw [hfs]) (by rw [hfs])
  · exact .of_create hc

theorem statPath_spares (einfo : ErrInfo) (fname : Bytes) : Spares N (statPath einfo fname) fun _ => True := by
  refine .bind (Spares.of_unchanged fun w => Ends.step (hdfsGetPathInfo_spec fname w)) ?_
  rintro (_ | info) -
  · exact .bind (Spares.of_unchanged fun w => Ends.step (errorCode_unchanged _ _ w)) fun _ _ => .pure trivial
  · exact .pure trivial

theorem stat_spares (m_cmsd_fs : Bool) (path : Bytes) (client : Bool) :
    Spares N (stat env m_cmsd_fs path client) fun _ => True := by
  refine .bind (Spares.of_unchanged fun w => Ends.step (statConnect_spec client m_cmsd_fs w).1) fun _ _ => ?_
  refine .ite (fun _ => .bind (Spares.of_unchanged fun w => Ends.step (errorCode_unchanged _ _ w)) fun _ _ => ?_) fun _ => ?_
  · exact .pure trivial
  · exact .bind (statPath_spares _ _) fun _ _ => .pure trivial

/-! ### A server -/

/-- None of the objects writes to a file in `N`. -/
def AllClear (N : Set ℕ) (objects : Objects env) : Prop := ∀ h, ∀ f ∈ objects h, f.Clear N

theorem AllClear.update {objects : Objects env} (h : AllClear N objects) (k : ℕ) {o : Option (File env)}
    (ho : ∀ f ∈ o, f.Clear N) : AllClear N (Function.update objects k o) := by
  intro j f hf
  by_cases hj : j = k
  · rw [hj, Function.update_self] at hf
    exact ho f hf
  · rw [Function.update_of_ne hj] at hf
    exact h j f hf

section Server

variable {objects : Objects env}

theorem File.delete_spares (f : File env) : Spares N f.delete fun _ => True := by
  unfold File.delete
  rcases f.fh with _ | h
  · exact note_spares _ _
  · exact .bind (Spares.of_unchanged fun w => Ends.step (hdfsCloseFile_spec h w).1) fun _ _ => note_spares _ _

/-- **An operation of the plugin.** -/
theorem pluginOp_spares (hobj : AllClear N objects) (op : PluginOp) :
    Spares N (op.run objects) fun r => AllClear N r.2 := by
  cases op with
  | openFile h path openMode =>
    unfold PluginOp.run
    dsimp only
    rcases objects h with _ | f
    · refine .bind (M := fun o => ∀ f ∈ o, f.fh = none) (.of_ends stable_present fun w _ => Ends.step ?_) fun o ho => ?_
      · obtain ⟨hu, hnew, -⟩ := @newFile_spec env w
        exact ⟨hu.retains, fun f hf => by rw [hnew f hf]⟩
      rcases o with _ | f
      · exact .pure hobj
      refine .bind (f.openFile_spares (ho f rfl) path openMode) ?_
      rintro ⟨rc, f'⟩ hclear
      refine .ite (fun _ => .bind (note_spares _ _) fun _ _ => .pure hobj) fun h0 => .pure (hobj.update h ?_)
      rintro _ ⟨⟩
      exact hclear (not_not.1 h0)
    · exact .pure hobj
  | write h buff offset =>
    unfold PluginOp.run
    dsimp only
    rcases hf : objects h with _ | f
    · exact .pure hobj
    refine .bind (f.write_spares (hobj h f hf) buff offset) ?_
    rintro ⟨rc, f'⟩ ⟨hfh, -⟩
    refine .pure (hobj.update h ?_)
    rintro _ ⟨⟩
    exact (hobj h f hf).of_fh hfh
  | close h =>
    unfold PluginOp.run
    dsimp only
    rcases hf : objects h with _ | f
    · exact .pure hobj
    refine .bind (f.close_spares (hobj h f hf)) fun r _ => .bind (note_spares _ _) fun _ _ => .pure (hobj.update h ?_)
    simp
  | calcDigest pfn cks do_set => exact .bind (calcDigest_spares pfn cks do_set) fun _ _ => .pure hobj
  | operation op => exact .bind (operation_spares op) fun _ _ => .pure hobj

/-- **An operation of the server.** -/
theorem serverOp_spares (hobj : AllClear N objects) (op : ServerOp) : Spares N (op.run objects) (AllClear N) := by
  cases op with
  | plugin op => exact .bind (pluginOp_spares hobj op) fun _ h => .pure h
  | read h offset blen =>
    unfold ServerOp.run
    dsimp only
    rcases hf : objects h with _ | f
    · exact .pure hobj
    refine .bind (M := fun r => r.2.fh = f.fh) (.of_ends stable_present fun w _ => ?_) fun r hr => .pure (hobj.update h ?_)
    · exact (f.read_unchanged offset blen w).mono fun r w' h => ⟨h.1.retains, h.2⟩
    · rintro _ ⟨⟩
      exact (hobj h f hf).of_fh hr
  | fstat h =>
    unfold ServerOp.run
    dsimp only
    rcases objects h with _ | f
    · exact .pure hobj
    · exact .bind (statPath_spares _ _) fun _ _ => .pure hobj
  | delete h =>
    unfold ServerOp.run
    dsimp only
    rcases objects h with _ | f
    · exact .pure hobj
    · exact .bind f.delete_spares fun _ _ => .pure (hobj.update h (by simp))
  | stat m_cmsd_fs path client => exact .bind (stat_spares m_cmsd_fs path client) fun _ _ => .pure hobj
  | request pfn r => exact .bind (request_spares pfn r) fun _ _ => .pure hobj

theorem serve_spares (ops : List ServerOp) (objects : Objects env) (hobj : AllClear N objects) :
    Spares N (serve objects ops) (AllClear N) := by
  induction ops generalizing objects with
  | nil => exact .pure hobj
  | cons op ops ih => exact .bind (serverOp_spares hobj op) ih

end Server

/-! ### A reader -/

/-- The object that the operation is on. -/
def ServerOp.object : ServerOp → Option ℕ
  | plugin op => op.object
  | read h _ _ | fstat h | delete h => some h
  | stat _ _ _ | request _ _ => none

/-- The operation does not open, close or delete the object `h`, and does not read from it at a negative offset. -/
def ServerOp.Keeps (h : ℕ) : ServerOp → Prop
  | plugin (.openFile k _ _) | plugin (.close k) | delete k => k ≠ h
  | read k offset _ => k = h → 0 ≤ offset ∧ offset < 2 ^ 63
  | _ => True

/-- The object `h`, if there is one, reads the file `i`, and its buffer holds a window of what is there. -/
structure Reads (i h : ℕ) (objects : Objects env) (w : World) : Prop where
  present : i < w.fs.next
  object : ∀ f ∈ objects h, f.fh = some ⟨i, false⟩ ∧ f.readbuf.BufferHolds (w.fs.data i).bytes

section Reader

variable {objects objects' : Objects env} {i h : ℕ} {w w' : World}

/-- What others do to the file is no harm. -/
theorem Reads.grow (hr : Reads i h objects w) (hw : Retains ∅ w w') (hobj : objects' h = objects h) :
    Reads i h objects' w' := by
  refine ⟨hr.present.trans_le hw.next_le, fun f hf => ?_⟩
  obtain ⟨hfh, hb⟩ := hr.object f (hobj ▸ hf)
  exact ⟨hfh, hb.grow (hw.longer i hr.present)⟩

/-- The object is replaced by one that reads the same file. -/
theorem Reads.update (hr : Reads i h objects w) (hw : Retains ∅ w w') {f' : File env} (hfh : f'.fh = some ⟨i, false⟩)
    (hb : f'.readbuf.BufferHolds (w'.fs.data i).bytes) : Reads i h (Function.update objects h (some f')) w' := by
  refine ⟨hr.present.trans_le hw.next_le, fun f hf => ?_⟩
  rw [Function.update_self] at hf
  obtain rfl := Option.some.inj hf
  exact ⟨hfh, hb⟩

/-- **`Read`** of the object returns what the file has. -/
theorem File.read_ok (f : File env) (hfh : f.fh = some ⟨i, false⟩) (hb : f.readbuf.BufferHolds (w.fs.data i).bytes)
    {offset : ℤ} {blen : ℕ} (ho : 0 ≤ offset) (ho' : offset < 2 ^ 63) :
    Ends (f.read offset blen) w fun r w' => Unchanged w w' ∧ r.2.fh = f.fh ∧
      r.2.readbuf.BufferHolds (w.fs.data i).bytes ∧
      Readbuf.ReadOk (w.fs.data i).bytes f.readbuf.size offset blen r.1 := by
  unfold File.read
  rw [hfh]
  have hread : Ends (f.readbuf.read (hdfsPread (some ⟨i, false⟩)) offset blen) w _ :=
    Readbuf.read_refines (hdfsPread_serves ⟨i, false⟩ w) f.readbuf w (.refl w) hb ho ho'
  refine Ends.bind (hread.mono ?_)
  rintro ⟨out, rb⟩ w₁ ⟨hu, hb₁, -, hok⟩
  exact Ends.bind (Ends.step (Ends.pure ⟨hu.trans (readReport_unchanged f.oid out w₁), rfl, hb₁, hok⟩))

/-- An operation leaves the other objects alone. -/
theorem serverOp_ne (op : ServerOp) (hop : op.object ≠ some h) (w : World) :
    Ends (op.run objects) w fun objects' _ => objects' h = objects h := by
  have hupdate : ∀ k, some k ≠ some h → ∀ o : Option (File env), Function.update objects k o h = objects h :=
    fun k hk o => Function.update_of_ne (fun e => hk (congrArg some e.symm)) _ _
  cases op with
  | plugin op =>
    suffices h₂ : Ends (op.run objects) w fun r _ => r.2 h = objects h from Ends.bind (h₂.mono fun r _ hr => Ends.pure hr)
    cases op with
    | openFile k path openMode =>
      unfold PluginOp.run
      dsimp only
      rcases objects k with _ | f
      · refine Ends.bind (Ends.step ?_)
        rcases (newFile env w).1 with _ | f
        · exact Ends.pure rfl
        refine Ends.bind fun _ r w' _ => Ends.ite (fun _ => Ends.bind fun _ _ _ _ => Ends.pure rfl) fun _ => ?_
        exact Ends.pure (hupdate k hop _)
      · exact Ends.pure rfl
    | write k buff offset =>
      unfold PluginOp.run
      dsimp only
      rcases objects k with _ | f
      · exact Ends.pure rfl
      · exact Ends.bind fun _ _ _ _ => Ends.pure (hupdate k hop _)
    | close k =>
      unfold PluginOp.run
      dsimp only
      rcases objects k with _ | f
      · exact Ends.pure rfl
      · exact Ends.bind fun _ _ _ _ => Ends.bind fun _ _ _ _ => Ends.pure (hupdate k hop _)
    | calcDigest pfn cks do_set => exact Ends.bind fun _ _ _ _ => Ends.pure rfl
    | operation op => exact Ends.bind fun _ _ _ _ => Ends.pure rfl
  | read k offset blen =>
    unfold ServerOp.run
    dsimp only
    rcases objects k with _ | f
    · exact Ends.pure rfl
    · exact Ends.bind fun _ _ _ _ => Ends.pure (hupdate k hop _)
  | fstat k =>
    unfold ServerOp.run
    dsimp only
    rcases objects k with _ | f
    · exact Ends.pure rfl
    · exact Ends.bind fun _ _ _ _ => Ends.pure rfl
  | delete k =>
    unfold ServerOp.run
    dsimp only
    rcases objects k with _ | f
    · exact Ends.pure rfl
    · exact Ends.bind fun _ _ _ _ => Ends.pure (hupdate k hop _)
  | stat m_cmsd_fs path client => exact Ends.bind fun _ _ _ _ => Ends.pure rfl
  | request pfn r => exact Ends.bind fun _ _ _ _ => Ends.pure rfl

/-- **A step of the server**, with the reader among the objects. -/
theorem serverOp_reads (hr : Reads i h objects w) (op : ServerOp) (hop : op.Keeps h) :
    Ends (op.run objects) w fun objects' w' => Reads i h objects' w' := by
  have hclear : AllClear ∅ objects := fun _ _ _ _ _ _ hN => hN.elim
  by_cases hne : op.object = some h
  swap
  · have hspares := serverOp_spares hclear op w fun _ hN => hN.elim
    refine (hspares.and (serverOp_ne op hne w)).mono ?_
    rintro objects' w' ⟨⟨hw, -⟩, hobj⟩
    exact hr.grow hw hobj
  cases op with
  | plugin op =>
    cases op with
    | openFile k path openMode => exact absurd (Option.some.inj hne) hop
    | write k buff offset =>
      obtain rfl := Option.some.inj hne
      simp only [ServerOp.run, PluginOp.run]
      rcases hf : objects k with _ | f
      · exact Ends.bind (Ends.pure (Ends.pure hr))
      obtain ⟨hfh, hb⟩ := hr.object f hf
      have hwrite := f.write_spares (hclear k f hf) buff offset w fun _ hN => hN.elim
      refine Ends.bind (Ends.bind (hwrite.mono ?_))
      rintro ⟨rc, f'⟩ w' ⟨hw, -, hfh', hrb⟩
      refine Ends.pure (Ends.pure (hr.update hw (hfh'.trans hfh) ?_))
      rw [hrb]
      exact hb.grow (hw.longer i hr.present)
    | close k => exact absurd (Option.some.inj hne) hop
    | calcDigest pfn cks do_set => cases hne
    | operation op => cases hne
  | read k offset blen =>
    obtain rfl := Option.some.inj hne
    simp only [ServerOp.run]
    rcases hf : objects k with _ | f
    · exact Ends.pure hr
    obtain ⟨hfh, hb⟩ := hr.object f hf
    obtain ⟨ho, ho'⟩ := hop rfl
    refine Ends.bind ((f.read_ok hfh hb ho ho').mono ?_)
    rintro ⟨out, f'⟩ w' ⟨hu, hfh', hb', -⟩
    exact Ends.pure (hr.update hu.retains (hfh'.trans hfh) (by rwa [hu.fs]))
  | fstat k =>
    simp only [ServerOp.run]
    rcases objects k with _ | f
    · exact Ends.pure hr
    · have hstat := statPath_spares (N := ∅) (.file f.oid) (f.fname.getD []) w fun _ hN => hN.elim
      exact Ends.bind (hstat.mono fun _ w' hw => Ends.pure (hr.grow hw.1 rfl))
  | delete k => exact absurd (Option.some.inj hne) hop
  | stat m_cmsd_fs path client => cases hne
  | request pfn r => cases hne

theorem serve_reads (ops : List ServerOp) (hops : ∀ op ∈ ops, op.Keeps h) (objects : Objects env) (w : World)
    (hr : Reads i h objects w) : Ends (serve objects ops) w fun objects' w' => Reads i h objects' w' := by
  induction ops generalizing objects w with
  | nil => exact Ends.pure hr
  | cons op ops ih =>
    rw [List.forall_mem_cons] at hops
    exact Ends.bind ((serverOp_reads hr op hops.1).mono fun objects' w' => ih hops.2 objects' w')

/-- **`Open`** for reading: the object reads the file that is at the path then. -/
theorem open_reads (hobj : objects h = none) (path : Bytes) (openMode : ℕ) (hrd : writing openMode = false)
    (hi : w.fs.tree.ino (resolve (env.getRealPath path)) = some i) :
    Ends ((ServerOp.plugin (.openFile h path openMode)).run objects) w fun objects' w' => Reads i h objects' w' := by
  have hlt := w.fs.valid.fresh _ _ hi
  have hnone : ∀ {w'}, Unchanged w w' → Reads i h objects w' := by
    intro w' hu
    refine ⟨by rwa [hu.fs], fun f hf => ?_⟩
    rw [hobj] at hf
    cases hf
  simp only [ServerOp.run, PluginOp.run, hobj]
  obtain ⟨hu, hnew, -⟩ := @newFile_spec env w
  refine Ends.bind (Ends.bind (Ends.step ?_))
  generalize newFile env w = r at hu hnew
  obtain ⟨o, w₁⟩ := r
  dsimp only at hu hnew ⊢
  rcases o with _ | f
  · exact Ends.pure (Ends.pure (hnone hu))
  obtain rfl := hnew f rfl
  refine Ends.bind ((File.openFile_spec _ rfl path openMode w₁).ends.mono ?_)
  rintro ⟨rc, f'⟩ w₂ (⟨hneg, hu₂, -⟩ | ⟨hrc, -, fh, hopened, hat, -⟩)
  · refine Ends.ite (fun _ => ?_) fun h0 => absurd (not_not.1 h0) hneg.ne
    exact Ends.bind (Ends.step (Ends.pure (Ends.pure (hnone ((hu.trans hu₂).trans (note_unchanged _ _ _))))))
  · refine Ends.ite (fun hne => absurd hrc hne) fun _ => Ends.pure (Ends.pure ?_)
    unfold File.OpenedAt at hat
    rw [if_neg (by simp [hrd]), hu.fs, hi] at hat
    obtain ⟨hino, hfs⟩ := hat
    refine ⟨by rwa [hfs], fun g hg => ?_⟩
    dsimp only at hg
    rw [Function.update_self] at hg
    obtain rfl := Option.some.inj hg
    obtain ⟨mem, hrb⟩ := hopened.readbuf
    refine ⟨?_, ?_⟩
    · rw [hopened.fh, Option.some.inj hino, ← hrd, ← hopened.kind]
    · rw [hrb]
      exact Readbuf.bufferHolds_open _ mem

end Reader

/-- **A reader keeps its version.**  When a server opens a file for reading, and then does whatever it likes, with any faults,
but close or delete this file object: the file that was at the path when it was opened gets longer at most, and stays as it
was if no file object was open for writing it; and a `Read` of the object that does not fail returns what is in this file,
whatever has become of the path. -/
theorem reader_keeps_version (objects : Objects env) (h : ℕ) (hobj : objects h = none) (path : Bytes) (openMode : ℕ)
    (hrd : writing openMode = false) (ops : List ServerOp) (hops : ∀ op ∈ ops, op.Keeps h) (w : World) (i : ℕ)
    (hi : w.fs.tree.ino (resolve (env.getRealPath path)) = some i) :
    Ends (serve objects (.plugin (.openFile h path openMode) :: ops)) w fun objects' w' =>
      (w.fs.data i).bytes <+: (w'.fs.data i).bytes ∧
      ((∀ k, ∀ f ∈ objects k, f.fh ≠ some ⟨i, true⟩) → w'.fs.data i = w.fs.data i) ∧
      ∀ f ∈ objects' h, ∀ offset blen, 0 ≤ offset → offset < 2 ^ 63 → Ends (f.read offset blen) w' fun r _ =>
        Readbuf.ReadOk (w'.fs.data i).bytes f.readbuf.size offset blen r.1 := by
  have hlt := w.fs.valid.fresh _ _ hi
  have hreads : Ends (serve objects (.plugin (.openFile h path openMode) :: ops)) w fun objects' w' =>
      Reads i h objects' w' :=
    Ends.bind ((open_reads hobj path openMode hrd hi).mono fun objects' w' => serve_reads ops hops objects' w')
  -- what is true of all files, and what of those that are not being written
  have hgrow := serve_spares (N := ∅) (.plugin (.openFile h path openMode) :: ops) objects
    (fun _ _ _ _ _ _ hN => hN.elim) w fun _ hN => hN.elim
  have hsame : Ends (serve objects (.plugin (.openFile h path openMode) :: ops)) w fun _ w' =>
      (∀ k, ∀ f ∈ objects k, f.fh ≠ some ⟨i, true⟩) → w'.fs.data i = w.fs.data i := by
    intro n objects' w' hrun hno
    refine (serve_spares (N := {i}) _ objects ?_ w ?_ n objects' w' hrun).1.same i rfl hlt
    · rintro k f hf ⟨j, wr⟩ hfh rfl rfl
      exact hno k f hf hfh
    · rintro _ rfl
      exact hlt
  refine ((hreads.and hgrow).and hsame).mono ?_
  rintro objects' w' ⟨⟨hr, hw, -⟩, hs⟩
  refine ⟨hw.longer i hlt, hs, fun f hf offset blen ho ho' => ?_⟩
  obtain ⟨hfh, hb⟩ := hr.object f hf
  exact (f.read_ok hfh hb ho ho').mono fun r _ hok => hok.2.2.2

/-- The path is removed, and another file is written there. -/
def overwritten : List ServerOp :=
  [.plugin (.operation (.unlink (str "/a"))), .plugin (.openFile 1 (str "/a") O_WRONLY), .plugin (.write 1 (str "yz") 0),
    .plugin (.close 1)]

theorem reader_keeps_version_a : Ends (serve (fun _ => none : Objects Reference.env)
      (.plugin (.openFile 0 (str "/a") O_RDONLY) :: overwritten)) onlyA fun objects' w' =>
    (onlyA.fs.data 0).bytes <+: (w'.fs.data 0).bytes ∧
    ((∀ k, ∀ f ∈ (fun _ => none : Objects Reference.env) k, f.fh ≠ some ⟨0, true⟩) → w'.fs.data 0 = onlyA.fs.data 0) ∧
    ∀ f ∈ objects' 0, ∀ offset blen, 0 ≤ offset → offset < 2 ^ 63 → Ends (f.read offset blen) w' fun r _ =>
      Readbuf.ReadOk (w'.fs.data 0).bytes f.readbuf.size offset blen r.1 :=
  reader_keeps_version (fun _ => none) 0 rfl (str "/a") O_RDONLY (by decide) overwritten
    (by simp [overwritten, ServerOp.Keeps]) onlyA 0 (by decide)

example : ((do
    let objects ← serve (fun _ => none : Objects Reference.env) (.plugin (.openFile 0 (str "/a") O_RDONLY) :: overwritten)
    match objects 0 with
    | none => pure []
    | some f => do
      let (out, _) ← f.read 0 9
      pure out.data : Prog World Bytes).run 9 onlyA).map (fun r => (r.1, r.2.fs.view (resolve (str "/a")))) =
    some (str "x", some (str "yz")) := by
  decide +kernel

end XrdHdfs
