import XrdHdfs.LibHdfs
import XrdHdfs.ReadRefines

/-!
# What the library calls do

One lemma for each call of `libhdfs`: what it does to the file system when it succeeds, that it leaves it alone
when it fails, and that without faults in the script it fails only where the name node refuses.

`World.Later w w'` is what every call keeps: a script without faults stays one, and the answers still to come
for `hdfsPread`, among them the interruptions, get fewer.
-/

namespace XrdHdfs

open Lib Readbuf

/-! ### Scripts without faults -/

/-- An answer that is no fault: a read may be short or interrupted, and a write may be short but takes
something. -/
def Answer.Calm : Call → Answer → Prop
  | .pread, .fail e => e = EINTR
  | .write, .part n => 1 ≤ n
  | _, .fail _ => False
  | _, _ => True

instance : ∀ (c : Call) (a : Answer), Decidable (a.Calm c) := by
  intro c a
  cases c <;> cases a <;> unfold Answer.Calm <;> infer_instance

namespace World

def Calm (w : World) : Prop := ∀ c, ∀ a ∈ w.script c, a.Calm c

/-- The answers still to come for `hdfsPread`. -/
def preads (w : World) : ℕ := (w.script .pread).length

structure Later (w w' : World) : Prop where
  calm : w.Calm → w'.Calm
  preads_le : w'.preads ≤ w.preads

/-- Calls were made, and the file system is as it was. -/
structure Unchanged (w w' : World) : Prop where
  fs : w'.fs = w.fs
  later : Later w w'

section Take

variable {w w' w'' : World} {c : Call}

theorem Later.refl (w : World) : Later w w := ⟨id, le_rfl⟩

theorem Later.trans (h : Later w w') (h' : Later w' w'') : Later w w'' :=
  ⟨fun hw => h'.calm (h.calm hw), h'.preads_le.trans h.preads_le⟩

/-- The script alone decides. -/
theorem Later.of_script (h : w'.script = w.script) : Later w w' :=
  ⟨fun hw c a ha => hw c a (by rwa [h] at ha), by rw [preads, preads, h]⟩

theorem Unchanged.refl (w : World) : Unchanged w w := ⟨rfl, .refl w⟩

theorem Unchanged.trans (h : Unchanged w w') (h' : Unchanged w' w'') : Unchanged w w'' :=
  ⟨h'.fs.trans h.fs, h.later.trans h'.later⟩

@[simp] theorem take_fs : (w.take c).2.fs = w.fs := by
  unfold take
  split <;> rfl

theorem take_objects : (w.take c).2.objects = w.objects := by
  unfold take
  split <;> rfl

theorem take_script : (w.take c).2.script = Function.update w.script c (w.script c).tail := by
  unfold take
  split
  · next h => rw [h, List.tail_nil, ← h, Function.update_eq_self]
  · next h => rw [h, List.tail_cons]

theorem take_later : Later w (w.take c).2 := by
  constructor
  · intro hw d b hb
    rw [take_script] at hb
    rcases eq_or_ne d c with rfl | hd
    · rw [Function.update_self] at hb
      exact hw d b (List.mem_of_mem_tail hb)
    · rw [Function.update_of_ne hd] at hb
      exact hw d b hb
  · unfold preads
    rw [take_script]
    rcases eq_or_ne Call.pread c with rfl | hd
    · rw [Function.update_self, List.length_tail]
      omega
    · rw [Function.update_of_ne hd]

theorem take_unchanged : Unchanged w (w.take c).2 := ⟨take_fs, take_later⟩

theorem take_calm (hw : w.Calm) : (w.take c).1.Calm c := by
  unfold take
  split
  · cases c <;> trivial
  · next a as h => exact hw c a (by simp [h])

/-- Without faults no call fails, but for interrupted reads. -/
theorem take_error (hw : w.Calm) : (w.take c).1.error = none ∨ c = .pread ∧ (w.take c).1.error = some EINTR := by
  have h := take_calm (c := c) hw
  revert h
  cases (w.take c).1 with
  | fail e => cases c <;> simp [Answer.Calm, Answer.error]
  | ok => simp [Answer.error]
  | part n => simp [Answer.error]

/-- A failure uses an answer of the script up. -/
theorem take_fail {e : ℤ} (h : (w.take .pread).1.error = some e) : (w.take .pread).2.preads < w.preads := by
  have hne : w.script .pread ≠ [] := by
    intro h0
    simp [take, h0, Answer.error] at h
  unfold preads
  rw [take_script, Function.update_self, List.length_tail]
  have := List.length_pos_iff.2 hne
  omega

end Take

/-! ### The calls -/

/-- A call either does `f`, or fails and changes nothing; without faults it fails only where `f` refuses. -/
theorem call_spec (c : LibCall) (e : ℤ) (f : Fs → Option Fs) (w : World) :
    Later w (w.call c e f).2 ∧
      ((w.call c e f).1 = 0 ∧ f w.fs = some (w.call c e f).2.fs ∨
        (w.call c e f).1 = -1 ∧ (w.call c e f).2.fs = w.fs ∧ (w.Calm → c.kind ≠ .pread → f w.fs = none)) := by
  have hl := take_later (w := w) (c := c.kind)
  have hc := take_error (w := w) (c := c.kind)
  have hfs := take_fs (w := w) (c := c.kind)
  unfold call
  revert hl hc hfs
  rcases w.take c.kind with ⟨a, w₁⟩
  intro hl hc hfs
  dsimp only at hl hc hfs ⊢
  rcases ha : a.error with _ | err
  swap
  · refine ⟨hl.trans (.of_script rfl), Or.inr ⟨rfl, hfs, fun hw hne => ?_⟩⟩
    simp [ha, hne] at hc
    exact absurd hw hc
  · rw [← hfs]
    cases h : f w₁.fs with
    | none => exact ⟨hl.trans (.of_script rfl), Or.inr ⟨rfl, rfl, fun _ _ => rfl⟩⟩
    | some fs => exact ⟨hl.trans (.of_script rfl), Or.inl ⟨rfl, rfl⟩⟩

/-- **The frame of a call**: it uses an answer up, is logged, and may change `errno` and the file system. -/
def Called (c : LibCall) (w w' : World) : Prop :=
  ∃ r errno fs, w' = { (w.take c.kind).2.did c r with errno := errno, fs := fs }

namespace Called

variable {c : LibCall} {w w' : World}

theorem ledger (h : Called c w w') : w'.ledger = w.ledger := by
  obtain ⟨r, errno, fs, rfl⟩ := h
  show (w.take c.kind).2.ledger = w.ledger
  unfold take
  split <;> rfl

theorem junk (h : Called c w w') : w'.junk = w.junk := by
  obtain ⟨r, errno, fs, rfl⟩ := h
  show (w.take c.kind).2.junk = w.junk
  unfold take
  split <;> rfl

theorem reports (h : Called c w w') : w'.reports = w.reports := by
  obtain ⟨r, errno, fs, rfl⟩ := h
  show (w.take c.kind).2.reports = w.reports
  unfold take
  split <;> rfl

theorem objects (h : Called c w w') : w'.objects = w.objects := by
  obtain ⟨r, errno, fs, rfl⟩ := h
  exact take_objects

end Called

theorem call_called (c : LibCall) (e : ℤ) (f : Fs → Option Fs) (w : World) : Called c w (w.call c e f).2 := by
  unfold Called call
  rcases w.take c.kind with ⟨a, w₁⟩
  dsimp only
  cases a.error with
  | some err => exact ⟨-1, err, w₁.fs, rfl⟩
  | none =>
    cases f w₁.fs with
    | some fs => exact ⟨0, w₁.errno, fs, rfl⟩
    | none => exact ⟨-1, e, w₁.fs, rfl⟩

/-- `Emsg` changes nothing but the error object. -/
theorem errorCode_unchanged (einfo : ErrInfo) (ecode : ErrorCode) (w : World) : Unchanged w (w.errorCode einfo ecode).2 :=
  ⟨rfl, .of_script rfl⟩

theorem errorCode_neg (einfo : ErrInfo) (ecode : ErrorCode) (w : World) : (w.errorCode einfo ecode).1 < 0 := emsg_neg _

end World

open World

theorem hadoopConnect_spec (w : World) :
    Unchanged w (hadoopConnect w).2 ∧ (w.Calm → (hadoopConnect w).1 = 0) := by
  have hclear : Later w { w with errno := 0 } := .of_script rfl
  obtain ⟨hl, ⟨h0, hfs⟩ | ⟨_, hfs, hc⟩⟩ := call_spec .connect EIO some { w with errno := 0 }
  · exact ⟨⟨(Option.some.inj hfs).symm, hclear.trans hl⟩, fun _ => h0⟩
  · exact ⟨⟨hfs, hclear.trans hl⟩, fun hw => absurd (hc (hclear.calm hw) (by simp [LibCall.kind])) (by simp)⟩

theorem hdfsCloseFile_spec (fh : Handle) (w : World) :
    Unchanged w (hdfsCloseFile fh w).2 ∧ (w.Calm → (hdfsCloseFile fh w).1 = 0) := by
  obtain ⟨hl, ⟨h0, hfs⟩ | ⟨_, hfs, hc⟩⟩ := call_spec (.closeFile fh) EIO some w
  · exact ⟨⟨(Option.some.inj hfs).symm, hl⟩, fun _ => h0⟩
  · exact ⟨⟨hfs, hl⟩, fun hw => absurd (hc hw (by simp [LibCall.kind])) (by simp)⟩

theorem hdfsGetPathInfo_spec (path : Bytes) (w : World) : Unchanged w (hdfsGetPathInfo path w).2 := by
  have hu := take_unchanged (w := w) (c := .getPathInfo)
  unfold hdfsGetPathInfo
  revert hu
  rcases w.take .getPathInfo with ⟨a, w₁⟩
  intro hu
  dsimp only at hu ⊢
  cases a.error with
  | some e => exact hu.trans ⟨rfl, .of_script rfl⟩
  | none =>
    dsimp only
    split
    · exact hu.trans ⟨rfl, .of_script rfl⟩
    · exact hu.trans ⟨rfl, .of_script rfl⟩

theorem hdfsGetPathInfo_called (path : Bytes) (w : World) :
    Called (.getPathInfo path) w (hdfsGetPathInfo path w).2 := by
  unfold Called hdfsGetPathInfo LibCall.kind
  rcases w.take .getPathInfo with ⟨a, w₁⟩
  dsimp only
  cases a.error with
  | some err => exact ⟨-1, err, w₁.fs, rfl⟩
  | none =>
    dsimp only
    cases w₁.fileInfo path with
    | some info => exact ⟨0, w₁.errno, w₁.fs, rfl⟩
    | none => exact ⟨-1, ENOENT, w₁.fs, rfl⟩

theorem hdfsOpenFile_called (path : Bytes) (writing : Bool) (w : World) :
    Called (.openFile path writing) w (hdfsOpenFile path writing w).2 := by
  unfold Called hdfsOpenFile LibCall.kind
  rcases w.take .openFile with ⟨a, w₁⟩
  dsimp only
  cases a.error with
  | some err => exact ⟨-1, err, w₁.fs, rfl⟩
  | none =>
    dsimp only
    split
    · cases w₁.fs.create (resolve path) with
      | some r => exact ⟨0, w₁.errno, r.2, rfl⟩
      | none => exact ⟨-1, EIO, w₁.fs, rfl⟩
    · cases w₁.fs.tree.ino (resolve path) with
      | some i => exact ⟨0, w₁.errno, w₁.fs, rfl⟩
      | none => exact ⟨-1, ENOENT, w₁.fs, rfl⟩

theorem hdfsPread_called (fh : Option Handle) (pos len : ℤ) (w : World) :
    Called (.pread fh pos len) w (hdfsPread fh pos len w).2 := by
  unfold Called hdfsPread LibCall.kind
  rcases w.take .pread with ⟨a, w₁⟩
  dsimp only
  rcases a.error with _ | err
  · rcases fh with _ | h
    · exact ⟨-1, EBADF, w₁.fs, rfl⟩
    · dsimp only
      split
      · exact ⟨-1, EINVAL, w₁.fs, rfl⟩
      · exact ⟨_, 0, w₁.fs, rfl⟩
  · exact ⟨-1, err, w₁.fs, rfl⟩

theorem hdfsWrite_called (fh : Option Handle) (buff : Bytes) (w : World) :
    Called (.write fh buff) w (hdfsWrite fh buff w).2 := by
  unfold Called hdfsWrite LibCall.kind
  rcases w.take .write with ⟨a, w₁⟩
  dsimp only
  rcases a.error with _ | err
  · rcases fh with _ | h
    · exact ⟨-1, EBADF, w₁.fs, rfl⟩
    · dsimp only
      split
      · exact ⟨-1, EINVAL, w₁.fs, rfl⟩
      · cases w₁.fs.append h.ino (buff.take (a.given (s32 buff.length).toNat 0)) with
        | some fs => exact ⟨_, w₁.errno, fs, rfl⟩
        | none => exact ⟨-1, EIO, w₁.fs, rfl⟩
  · exact ⟨-1, err, w₁.fs, rfl⟩

/-- What `hdfsOpenFile` returns: a handle on the inode it made or found, or nothing, and then, without faults,
because the name node made or found none. -/
theorem hdfsOpenFile_spec (path : Bytes) (writing : Bool) (w : World) :
    Later w (hdfsOpenFile path writing w).2 ∧
      match (hdfsOpenFile path writing w).1 with
      | some h => h.writing = writing ∧
          if writing then w.fs.create (resolve path) = some (h.ino, (hdfsOpenFile path writing w).2.fs)
          else w.fs.tree.ino (resolve path) = some h.ino ∧ (hdfsOpenFile path writing w).2.fs = w.fs
      | none => (hdfsOpenFile path writing w).2.fs = w.fs ∧
          (w.Calm → if writing then w.fs.create (resolve path) = none else w.fs.tree.ino (resolve path) = none) := by
  have hl := take_later (w := w) (c := .openFile)
  have hc := take_error (w := w) (c := .openFile)
  have hfs := take_fs (w := w) (c := .openFile)
  unfold hdfsOpenFile
  revert hl hc hfs
  rcases w.take .openFile with ⟨a, w₁⟩
  intro hl hc hfs
  dsimp only at hl hc hfs ⊢
  rcases ha : a.error with _ | e
  swap
  · refine ⟨hl.trans (.of_script rfl), hfs, fun hw => ?_⟩
    simp [ha] at hc
    exact absurd hw hc
  · rw [← hfs]
    cases writing with
    | true =>
      dsimp only
      cases h : w₁.fs.create (resolve path) with
      | none => exact ⟨hl.trans (.of_script rfl), rfl, fun _ => by simp⟩
      | some r => exact ⟨hl.trans (.of_script rfl), rfl, by simp⟩
    | false =>
      dsimp only
      cases h : w₁.fs.tree.ino (resolve path) with
      | none => exact ⟨hl.trans (.of_script rfl), rfl, fun _ => by simp⟩
      | some i => exact ⟨hl.trans (.of_script rfl), rfl, by simp [did]⟩

/-- What `hdfsWrite` does: it puts the bytes it accepts at the end of the inode, or it fails and changes
nothing.  Without faults it accepts some of the bytes where there are any. -/
theorem hdfsWrite_spec (fh : Option Handle) (buff : Bytes) (w : World) :
    Later w (hdfsWrite fh buff w).2 ∧
      ((∃ (h : Handle) (n : ℕ), fh = some h ∧ h.writing ∧ n ≤ buff.length ∧ n < 2 ^ 31 ∧
          (hdfsWrite fh buff w).1 = n ∧ w.fs.append h.ino (buff.take n) = some (hdfsWrite fh buff w).2.fs ∧
          (w.Calm → buff ≠ [] → buff.length < 2 ^ 31 → 1 ≤ n)) ∨
        (hdfsWrite fh buff w).1 = -1 ∧ (hdfsWrite fh buff w).2.fs = w.fs ∧
          (w.Calm → ∀ h, fh = some h → h.writing → buff.length < 2 ^ 31 →
            ∃ n ≤ buff.length, w.fs.append h.ino (buff.take n) = none)) := by
  have hl := take_later (w := w) (c := .write)
  have hc := take_error (w := w) (c := .write)
  have hcalm := take_calm (w := w) (c := .write)
  have hfs := take_fs (w := w) (c := .write)
  unfold hdfsWrite
  revert hl hc hcalm hfs
  rcases w.take .write with ⟨a, w₁⟩
  intro hl hc hcalm hfs
  dsimp only at hl hc hcalm hfs ⊢
  rcases ha : a.error with _ | e
  swap
  · refine ⟨hl.trans (.of_script rfl), Or.inr ⟨rfl, hfs, fun hw => ?_⟩⟩
    simp [ha] at hc
    exact absurd hw hc
  rcases fh with _ | h
  · exact ⟨hl.trans (.of_script rfl), Or.inr ⟨rfl, hfs, fun _ h hh => absurd hh (by simp)⟩⟩
  dsimp only
  rw [← hfs]
  split
  · next hcond =>
    refine ⟨hl.trans (.of_script rfl), Or.inr ⟨rfl, rfl, fun _ h' hh hw hlen => ?_⟩⟩
    simp only [Option.some.injEq] at hh
    subst hh
    rw [s32_of_lt (by omega) (by omega)] at hcond
    simp [hw] at hcond
    omega
  · next hcond =>
    have hn : a.given (s32 buff.length).toNat 0 ≤ buff.length := by
      have := a.given_le (s32 buff.length).toNat 0
      unfold s32 at *
      omega
    cases happ : w₁.fs.append h.ino (buff.take (a.given (s32 buff.length).toNat 0)) with
    | none => exact ⟨hl.trans (.of_script rfl), Or.inr ⟨rfl, rfl, fun _ h' hh _ _ => ⟨_, hn, by
        simp only [Option.some.injEq] at hh
        rw [← hh]
        exact happ⟩⟩⟩
    | some fs =>
      have hwriting : 0 ≤ s32 buff.length ∧ h.writing = true := by simpa using hcond
      refine ⟨hl.trans (.of_script rfl), Or.inl ⟨h, _, rfl, hwriting.2, hn, ?_, rfl, happ, fun hw hne hlen => ?_⟩⟩
      · have hgiven := a.given_le (s32 buff.length).toNat 0
        have hs32 : (s32 buff.length).toNat < 2 ^ 31 := by
          unfold s32
          omega
        omega
      rw [s32_of_lt (by omega) (by omega), Int.toNat_natCast]
      have hpos := List.length_pos_iff.2 hne
      have hcalm' := hcalm hw
      cases a with
      | ok => exact hpos
      | part k =>
        simp only [Answer.Calm] at hcalm'
        simp only [Answer.given]
        omega
      | fail e => simp [Answer.error] at ha

/-! ### `hdfsPread` -/

/-- `hdfsPread` changes nothing. -/
theorem hdfsPread_unchanged (fh : Option Handle) (pos len : ℤ) (w : World) :
    Unchanged w (hdfsPread fh pos len w).2 := by
  have hu := take_unchanged (w := w) (c := .pread)
  unfold hdfsPread
  revert hu
  rcases w.take .pread with ⟨a, w₁⟩
  intro hu
  dsimp only at hu ⊢
  rcases a.error with _ | e
  · rcases fh with _ | h
    · exact hu.trans ⟨rfl, .of_script rfl⟩
    · dsimp only
      split
      · exact hu.trans ⟨rfl, .of_script rfl⟩
      · exact hu.trans ⟨rfl, .of_script rfl⟩
  · exact hu.trans ⟨rfl, .of_script rfl⟩

/-- There are only so many interruptions in a script. -/
theorem hdfsPread_counted (fh : Option Handle) : Counted World.preads (hdfsPread fh) := by
  intro pos len w
  refine ⟨(hdfsPread_unchanged fh pos len w).later.preads_le, ?_⟩
  have hfail : ∀ e, _ := fun e => take_fail (w := w) (e := e)
  unfold hdfsPread
  revert hfail
  rcases w.take .pread with ⟨a, w₁⟩
  intro hfail
  dsimp only at hfail ⊢
  rcases ha : a.error with _ | e
  · rcases fh with _ | h
    · exact fun h => absurd h (show ¬ (EBADF = EINTR ∨ EBADF = -EINTR) by decide)
    · dsimp only
      split
      · exact fun h => absurd h (show ¬ (EINVAL = EINTR ∨ EINVAL = -EINTR) by decide)
      · exact fun h => absurd h (show ¬ ((0 : ℤ) = EINTR ∨ (0 : ℤ) = -EINTR) by decide)
  · exact fun _ => hfail e ha

/-- On a file open for reading, `hdfsPread` serves its content. -/
theorem hdfsPread_serves (h : Handle) (w : World) :
    Serves (Unchanged w) (w.fs.data h.ino).bytes (hdfsPread (some h)) := by
  intro pos len w₁ hu
  refine ⟨hu.trans (hdfsPread_unchanged (some h) pos len w₁), fun hpos => ?_⟩
  have htake := take_fs (w := w₁) (c := .pread)
  unfold hdfsPread
  revert htake
  rcases w₁.take .pread with ⟨a, w₂⟩
  intro htake
  dsimp only at htake ⊢
  rcases ha : a.error with _ | e
  swap
  · trivial
  dsimp only
  split
  · trivial
  · rw [← hu.fs, ← htake]
    have hg := a.given_le (min len.toNat 0x7fffffff) 1
    refine ⟨?_, List.take_prefix _ _, fun hd _ => ?_⟩
    · rw [length_slice]
      omega
    · -- no byte was given although at least one was asked for: the file has none there
      have hlen := congrArg List.length hd
      rw [length_slice, List.length_nil] at hlen
      have hpos' : 0 < len.toNat → 0 < a.given (min len.toNat 0x7fffffff) 1 := by
        unfold Answer.given
        split <;> omega
      omega

/-- Without faults, `hdfsPread` fails only when it is interrupted. -/
theorem hdfsPread_calm {h : Handle} (hr : h.writing = false) {w : World} (hw : w.Calm) :
    Readbuf.Calm (Unchanged w) (hdfsPread (some h)) := by
  intro pos len w₁ hu hpos hlen
  have hc := take_error (c := .pread) (hu.later.calm hw)
  unfold hdfsPread
  revert hc
  rcases w₁.take .pread with ⟨a, w₂⟩
  intro hc
  dsimp only at hc ⊢
  rcases ha : a.error with _ | e
  · left
    dsimp only
    rw [if_neg (by simp [hr]; omega)]
    exact ⟨rfl, Int.natCast_nonneg _⟩
  · right
    have he : e = EINTR := by simpa [ha] using hc
    rw [he]

end XrdHdfs
