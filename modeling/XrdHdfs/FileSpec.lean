import XrdHdfs.Calls
import XrdHdfs.File
import XrdHdfs.Put

/-!
# What `Open`, `Read`, `Write` and `Close` do

One lemma for each operation of `XrdHdfsFile`, over every script.  Each says that the operation returns, what it
did to the file system and to the object, and what it cannot fail at when the script has no faults.
-/

namespace XrdHdfs

open Lib World

variable {env : Env}

/-! ### Steps that leave the file system alone -/

namespace World

theorem malloc_spec (w : World) : Unchanged w (malloc env w).2 ∧ (w.Calm → (malloc env w).1 = some env.heap) := by
  refine ⟨take_unchanged, fun hw => ?_⟩
  have h := take_error (c := .malloc) hw
  simp only [reduceCtorEq, false_and, or_false] at h
  simp [malloc, h]

theorem nextJunk_unchanged (w : World) : Unchanged w w.nextJunk.2 := ⟨rfl, .of_script rfl⟩

theorem note_unchanged (oid : ℕ) (e : ObjEvent) (w : World) : Unchanged w (note oid e w).2 := ⟨rfl, .of_script rfl⟩

end World

/-- `newFile` gives `NULL` when its call fails, and else the next object, and writes that down. -/
theorem newFile_cases (env : Env) (w : World) :
    newFile env w = (none, (w.take .newFile).2) ∧ (w.take .newFile).1.error ≠ none ∨
      newFile env w = (some { oid := w.objects }, { (w.take .newFile).2 with
        objects := w.objects + 1
        ledger := (w.take .newFile).2.ledger ++ [(w.objects, .created)] }) := by
  have hobj := take_objects (w := w) (c := .newFile)
  unfold newFile
  dsimp only
  rw [hobj]
  cases h : (w.take .newFile).1.error with
  | some e => exact Or.inl ⟨rfl, by simp⟩
  | none => exact Or.inr rfl

theorem newFile_spec (w : World) : Unchanged w (newFile env w).2 ∧
    (∀ f, (newFile env w).1 = some f → f = { oid := w.objects }) ∧ (w.Calm → (newFile env w).1 ≠ none) := by
  rcases newFile_cases env w with ⟨h, herror⟩ | h
  · refine ⟨by rw [h]; exact take_unchanged, by simp [h], fun hw => ?_⟩
    have hcalm := take_error (c := .newFile) hw
    simp [herror] at hcalm
  · refine ⟨by rw [h]; exact take_unchanged.trans ⟨rfl, .of_script rfl⟩, by simp [h], by simp [h]⟩

theorem newFile_objects (w : World) :
    (newFile env w).2.objects = w.objects + if (newFile env w).1.isSome then 1 else 0 := by
  rcases newFile_cases env w with ⟨h, -⟩ | h
  · simp [h, take_objects]
  · simp [h]

namespace File

/-! ### Open -/

theorem openError_spec (fname : Bytes) (w : World) :
    Unchanged w (openError fname w).2 ∧ (openError fname w).1 < 0 := by
  have hu := hdfsGetPathInfo_spec fname w
  unfold openError
  revert hu
  rcases hdfsGetPathInfo fname w with ⟨_ | fileInfo, w₁⟩
  · exact fun hu => ⟨hu, by norm_num⟩
  · refine fun hu => ⟨hu, ?_⟩
    dsimp only
    split <;> norm_num

theorem openError_snd (fname : Bytes) (w : World) : (openError fname w).2 = (hdfsGetPathInfo fname w).2 := by
  unfold openError
  rcases hdfsGetPathInfo fname w with ⟨_ | _, w₁⟩ <;> rfl

theorem openError_called (fname : Bytes) (w : World) : Called (.getPathInfo fname) w (openError fname w).2 := by
  rw [openError_snd]
  exact hdfsGetPathInfo_called fname w

/-- **The frame of `Open`.** It calls the library, reports and takes notes, and for writing it constructs a checksum
state. -/
theorem openFile_follows {R : World → World → Prop} [IsPreorder World R] (f : File env) (path : Bytes) (openMode : ℕ)
    (htake : ∀ c w, R w (w.take c).2) (hcalled : ∀ c w w', Called c w w' → R w w')
    (herrno : ∀ w : World, R w { w with errno := 0 }) (herror : ∀ ecode w, R w (w.errorCode (.file f.oid) ecode).2)
    (hnote : ∀ e w, R w (World.note f.oid e w).2) (hjunk : writing openMode → ∀ w : World, R w w.nextJunk.2) :
    Follows R (f.openFile path openMode) := by
  unfold openFile
  refine .ite (.pure _) (.bind (.step fun w => ?_) fun mem => .bind (.step fun w => ?_) fun connected => ?_)
  · split
    · exact refl_of R w
    · exact htake .malloc w
  · exact trans_of R (herrno w) (hcalled _ _ _ (call_called .connect EIO some _))
  refine .ite (.bind (.step fun w => herror _ w) fun _ => .pure _) (.bind (.step fun w => ?_) ?_)
  · exact hcalled _ _ _ (hdfsOpenFile_called _ _ w)
  rintro (_ | h)
  · exact .bind (.step fun w => hcalled _ _ _ (openError_called _ w)) fun _ => .pure _
  refine .bind (.step fun w => hnote _ w) fun _ => ?_
  by_cases hstate : writing openMode ∧ !inCksums (env.getRealPath path)
  · rw [if_pos hstate]
    exact .bind (.step (hjunk hstate.1)) fun _ => .pure _
  · rw [if_neg hstate]
    exact .pure _

/-- The object that `Open` leaves behind when it succeeds. -/
structure Opened (f f' : File env) (path : Bytes) (openMode : ℕ) (h : Handle) : Prop where
  fh : f'.fh = some h
  kind : h.writing = writing openMode
  fname : f'.fname = some (env.getRealPath path)
  nextoff : f'.m_nextoff = f.m_nextoff
  readbuf : ∃ mem, f'.readbuf = f.readbuf.openReadbuf mem
  state : if writing openMode ∧ !inCksums (env.getRealPath path) then ∃ junk, f'.m_state = some (.new env.Z junk ALL)
    else f'.m_state = f.m_state

/-- What the name node does for an `Open` that succeeds, and the handle it gives. -/
def OpenedAt (fs : Fs) (p : HPath) (writing : Bool) (h : Handle) (fs' : Fs) : Prop :=
  if writing then fs.create p = some (h.ino, fs') else fs.tree.ino p = some h.ino ∧ fs' = fs

/-- There is nothing at `p` to open, or no place to create it. -/
def Unopenable (fs : Fs) (p : HPath) (writing : Bool) : Prop :=
  if writing then fs.create p = none else fs.tree.ino p = none

/-- **`Open`.** -/
theorem openFile_spec (f : File env) (hf : f.fh = none) (path : Bytes) (openMode : ℕ) (w : World) :
    Gives (f.openFile path openMode) w fun r w' =>
      (r.1 < 0 ∧ Unchanged w w' ∧ (w.Calm → Unopenable w.fs (resolve (env.getRealPath path)) (writing openMode))) ∨
      (r.1 = 0 ∧ Later w w' ∧ ∃ h, Opened f r.2 path openMode h ∧
        OpenedAt w.fs (resolve (env.getRealPath path)) (writing openMode) h w'.fs ∧
        (w.Calm → f.readbuf.mem = none → r.2.readbuf.size = 32768)) := by
  unfold openFile
  rw [if_neg (by simp [hf])]
  have hmem : Gives (.step (if f.readbuf.mem.isSome then fun w => (none, w) else World.malloc env)) w fun mem w₁ =>
      Unchanged w w₁ ∧ (w.Calm → f.readbuf.mem = none → mem = some env.heap) := by
    refine Gives.step ?_
    split
    · next h => exact ⟨.refl w, fun _ h0 => by simp [h0] at h⟩
    · exact ⟨(malloc_spec w).1, fun hw _ => (malloc_spec w).2 hw⟩
  refine Gives.bind (hmem.mono ?_)
  rintro mem w₁ ⟨hu₁, hmem⟩
  have hsize : w.Calm → f.readbuf.mem = none → (f.readbuf.openReadbuf mem).size = 32768 := by
    intro hw h0
    rw [hmem hw h0]
    unfold Readbuf.openReadbuf
    split
    · next m hm =>
      rw [h0] at hm
      cases hm
    · rfl
  obtain ⟨hu₂, hconn⟩ := hadoopConnect_spec w₁
  refine Gives.bind (Gives.step ?_)
  refine Gives.ite (fun hne => Gives.bind (Gives.step (Gives.pure (Or.inl ⟨emsg_neg _, ?_, fun hw => ?_⟩)))) fun _ => ?_
  · exact (hu₁.trans hu₂).trans (errorCode_unchanged _ _ _)
  · exact absurd (hconn (hu₁.later.calm hw)) hne
  replace hu₂ := hu₁.trans hu₂
  generalize (hadoopConnect w₁).2 = w₂ at hu₂
  obtain ⟨hl₃, hopen⟩ := hdfsOpenFile_spec (env.getRealPath path) (writing openMode) w₂
  refine Gives.bind (Gives.step ?_)
  generalize hdfsOpenFile (env.getRealPath path) (writing openMode) w₂ = r at hl₃ hopen
  obtain ⟨o, w₃⟩ := r
  dsimp only at hl₃ hopen ⊢
  rw [hu₂.fs] at hopen
  cases o with
  | none =>
    obtain ⟨hfs, hno⟩ := hopen
    have hu₃ : Unchanged w w₃ := ⟨hfs, hu₂.later.trans hl₃⟩
    obtain ⟨hu₄, hneg⟩ := openError_spec (env.getRealPath path) w₃
    refine Gives.bind (Gives.step (Gives.pure (Or.inl ⟨hneg, hu₃.trans hu₄, fun hw => ?_⟩)))
    exact hno (hu₂.later.calm hw)
  | some h =>
    obtain ⟨hkind, hat⟩ := hopen
    have hl : Later w w₃ := hu₂.later.trans hl₃
    refine Gives.bind (Gives.step (Gives.ite (fun hc => Gives.bind (Gives.step (Gives.pure (Or.inr ?_))))
      fun hc => Gives.pure (Or.inr ?_)))
    · exact ⟨rfl, hl.trans (.of_script rfl), h, ⟨rfl, hkind, rfl, rfl, ⟨mem, rfl⟩, by rw [if_pos hc]; exact ⟨_, rfl⟩⟩,
        hat, hsize⟩
    · exact ⟨rfl, hl.trans (.of_script rfl), h, ⟨rfl, hkind, rfl, rfl, ⟨mem, rfl⟩, by rw [if_neg hc]⟩, hat, hsize⟩

/-! ### Read -/

theorem readReport_unchanged (oid : ℕ) (out : ReadOut) (w : World) : Unchanged w (readReport oid out w).2 := by
  unfold readReport
  dsimp only
  split
  · exact errorCode_unchanged _ _ w
  · exact .refl w

/-- **`Read`** on a file open for reading, whose buffer holds a window of it. -/
theorem read_spec (f : File env) {h : Handle} (hfh : f.fh = some h) (hr : h.writing = false) (w : World)
    (hb : f.readbuf.BufferHolds (w.fs.data h.ino).bytes) {offset blen : ℕ} (ho : offset < 2 ^ 63) (hblen : blen < 2 ^ 31) :
    Gives (f.read offset blen) w fun r w' =>
      Unchanged w w' ∧ r.2 = { f with readbuf := r.2.readbuf } ∧ r.2.readbuf.size = f.readbuf.size ∧
      r.2.readbuf.BufferHolds (w.fs.data h.ino).bytes ∧
      Readbuf.ReadOk (w.fs.data h.ino).bytes f.readbuf.size offset blen r.1 ∧
      (r.1.ret = -EINTR → w'.preads < w.preads) ∧ (w.Calm → 0 ≤ r.1.ret ∨ r.1.ret = -EINTR) := by
  have ho₀ := Int.natCast_nonneg offset
  have hserves := hdfsPread_serves h w
  have hreturns := Readbuf.read_gives (hdfsPread_counted (some h)) f.readbuf offset blen w fun hsize hmiss => by
    obtain ⟨n, hn, -⟩ := Readbuf.serve_holds hb ho₀ (by omega) hsize hmiss
    omega
  have hrefines : Ends (f.readbuf.read (hdfsPread (some h)) offset blen) w _ :=
    Readbuf.read_refines hserves f.readbuf w (.refl w) hb ho₀ (by omega)
  have hcalm : Ends (f.readbuf.read (hdfsPread (some h)) offset blen) w fun r _ =>
      w.Calm → 0 ≤ r.1.ret ∨ r.1.ret = -EINTR := by
    intro n r w' hrun hw
    have := Readbuf.read_calm hserves (hdfsPread_calm hr hw) f.readbuf w (.refl w) hb ho₀ (by omega) hblen n r w' hrun
    exact this.imp_right And.right
  unfold read
  rw [hfh]
  refine Gives.bind (((hreturns.and_ends hrefines).and_ends hcalm).mono ?_)
  rintro ⟨out, rb⟩ w' ⟨⟨⟨-, hintr⟩, hu, hb', hsize, hok⟩, hcalm⟩
  have hreport := readReport_unchanged f.oid out w'
  refine Gives.bind (Gives.step (Gives.pure ⟨hu.trans hreport, rfl, hsize, hb', hok, fun hret => ?_, hcalm⟩))
  exact hreport.later.preads_le.trans_lt (hintr hret)

/-! ### Write -/

/-- What one `Write` on a file open for writing does: it is rejected; or HDFS takes the first `n` bytes; or HDFS
fails.  The checksum state is fed the whole buffer unless the call is rejected. -/
theorem write_spec (f : File env) {h : Handle} (hfh : f.fh = some h) (hr : h.writing) (buff : Bytes) (offset : ℤ)
    (w : World) :
    Gives (f.write buff offset) w fun r w' =>
      (offset ≠ f.m_nextoff ∧ r.1 < 0 ∧ r.2 = f ∧ Unchanged w w') ∨
      (offset = f.m_nextoff ∧ Later w w' ∧ r.1 = (hdfsWrite f.fh buff w).1 ∧
        ((∃ n ≤ buff.length, n < 2 ^ 31 ∧ w.fs.append h.ino (buff.take n) = some w'.fs ∧
            r = ((n : ℤ), { f with m_nextoff := f.m_nextoff + n, m_state := f.m_state.map fun st => st.update buff }) ∧
            (w.Calm → buff ≠ [] → buff.length < 2 ^ 31 → 1 ≤ n)) ∨
          (w'.fs = w.fs ∧ r = (-1, { f with m_state := f.m_state.map fun st => st.update buff }) ∧
            (w.Calm → buff.length < 2 ^ 31 → ∃ n ≤ buff.length, w.fs.append h.ino (buff.take n) = none)))) := by
  unfold write
  refine Gives.ite
    (fun hne => Gives.bind (Gives.step (Gives.pure (Or.inl ⟨hne, emsg_neg _, rfl, errorCode_unchanged _ _ w⟩))))
    fun heq => ?_
  rw [hfh]
  refine Gives.bind (Gives.step (Gives.pure (Or.inr ⟨not_not.1 heq, ?_⟩)))
  obtain ⟨hl, ⟨h', n, hh, -, hn, hn', hret, happ, hcalm⟩ | ⟨hret, hfs, hcalm⟩⟩ := hdfsWrite_spec (some h) buff w
  · obtain rfl := Option.some.inj hh
    refine ⟨hl, rfl, Or.inl ⟨n, hn, hn', happ, ?_, hcalm⟩⟩
    rw [hret, if_pos (Int.natCast_nonneg n)]
  · refine ⟨hl, rfl, Or.inr ⟨hfs, ?_, fun hw hlen => hcalm hw h rfl hr hlen⟩⟩
    rw [hret, if_neg (by norm_num)]

/-! ### Close -/

/-- **The frame of closing the handle.** -/
theorem closeHandle_follows {R : World → World → Prop} [IsPreorder World R] (f : File env)
    (hcalled : ∀ c w w', Called c w w' → R w w') (herror : ∀ ecode w, R w (w.errorCode (.file f.oid) ecode).2)
    (w : World) : R w (f.closeHandle w).2 := by
  unfold closeHandle
  split
  · exact refl_of R w
  · next h _ =>
    have hclose : R w (hdfsCloseFile h w).2 := hcalled _ _ _ (call_called (.closeFile h) EIO some w)
    dsimp only
    split
    · exact trans_of R hclose (herror _ _)
    · exact hclose

theorem closeHandle_spec (f : File env) (w : World) :
    Unchanged w (f.closeHandle w).2 ∧ (w.Calm → (f.closeHandle w).1 = 0) := by
  unfold closeHandle
  cases f.fh with
  | none => exact ⟨.refl w, fun _ => rfl⟩
  | some h =>
    obtain ⟨hu, hc⟩ := hdfsCloseFile_spec h w
    refine ⟨?_, fun hw => ?_⟩
    · dsimp only
      split
      · exact hu.trans (errorCode_unchanged _ _ _)
      · exact hu
    · dsimp only
      rw [hc hw, if_neg (by simp)]

/-- **`Close`** of an object that keeps no checksum state. -/
theorem close_spec (f : File env) (hf : f.m_state = none) (w : World) :
    Gives f.close w fun r w' => Unchanged w w' ∧ r.2 = f.closed ∧ (w.Calm → r.1 = 0) := by
  obtain ⟨hu, hc⟩ := closeHandle_spec f w
  unfold close
  refine Gives.fix (Gives.bind (Gives.step (Gives.bind (Gives.step ?_))))
  rw [hf]
  exact Gives.pure ⟨hu.trans (note_unchanged _ _ _), rfl, hc⟩

theorem destroy_spec (f : File env) (w : World) : Gives f.destroy w fun _ w' => Unchanged w w' :=
  Gives.step (note_unchanged _ _ _)

end File

end XrdHdfs
