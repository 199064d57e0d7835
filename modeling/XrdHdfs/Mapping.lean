import XrdHdfs.Ledger
import XrdHdfs.Namespace

/-!
# Records and names under a Name2Name library

The library maps a path to another one, or has no mapping for it; nothing is assumed of it.  `Close` opens the record
under a name that was mapped before and is mapped again.  So the record may come to lie outside `/cksums`, and then
it is itself given a checksum state, and its `Close` records it in turn (`record_once_iff`); and `Calc` may read
another file than the one that was opened (`same_file_iff`).
-/

namespace XrdHdfs

open Lib World

variable {env : Env}

/-! ### The ledger grows -/

theorem File.openFile_grows (f : File env) (path : Bytes) (openMode : ℕ) : Grows (f.openFile path openMode) := by
  by_cases hf : f.fh.isSome
  · unfold openFile
    rw [if_pos hf]
    exact .pure _
  · intro w
    refine (f.openFile_ledger path openMode (by simpa using hf) w).mono ?_
    rintro r w' ⟨-, -, hl⟩
    exact ⟨_, hl.symm⟩

theorem setMultipleWith_grows {close : File env → Prog World (ℤ × File env)} (hclose : ∀ f, Grows (close f))
    (pfn : Bytes) (values : ChecksumValues) : Grows (setMultipleWith close pfn values) := by
  refine .bind (.step fun w => ⟨_, (newFile_ledger w).symm⟩) ?_
  rintro (_ | fh)
  · exact .pure _
  · refine .bind (fh.openFile_grows _ _) ?_
    rintro ⟨rc, fh⟩
    refine .ite (.pure _) (.bind (.loop (fun b => grows_of_keeps (writeTurn_keeps _ b)) _) ?_)
    rintro ⟨retval, fh⟩
    exact .bind (hclose fh) fun r => .bind (note_grows _ _) fun _ => .pure _

theorem File.close_grows (f : File env) : Grows f.close := by
  refine .fix (fun g hg f => ?_) f
  refine .bind (.step fun w => (f.closeHandle_ledger w).symm ▸ List.prefix_rfl) fun ret => .bind (note_grows _ _) fun _ => ?_
  cases f.m_state with
  | none => exact .pure _
  | some state =>
    exact .ite (.bind (note_grows _ _) fun _ => .bind (setMultipleWith_grows hg _ _) fun _ => .pure _) (.pure _)

theorem File.close_oid (f : File env) (w : World) : Ends f.close w fun r _ => r.2.oid = f.oid := by
  refine Ends.fix (Ends.bind (Ends.step (Ends.bind (Ends.step ?_))))
  cases f.m_state with
  | none => exact Ends.pure rfl
  | some st =>
    refine Ends.ite (fun _ => Ends.bind (Ends.step (Ends.bind ?_))) fun _ => Ends.pure rfl
    exact fun n rc w' _ => Ends.pure rfl

/-- Without a checksum state, `Close` writes down that it closed the file. -/
theorem File.close_ledger (f : File env) (hf : f.m_state = none) (w : World) :
    Ends f.close w fun _ w' => w'.ledger = w.ledger ++ [(f.oid, .closed)] := by
  refine Ends.fix (Ends.bind (Ends.step (Ends.bind (Ends.step ?_))))
  rw [hf]
  exact Ends.pure (congrArg (· ++ _) (f.closeHandle_ledger w))

/-! ### One record -/

/-- `SetMultiple` gets a file object, and its `Open` of the record succeeds. -/
def RecordOpens (env : Env) (pfn : Bytes) (w : World) : Prop :=
  ∃ fh, (newFile env w).1 = some fh ∧ fh.Openable (getChecksumFilename pfn) O_WRONLY (newFile env w).2

/-- **What `SetMultiple` writes down.** -/
theorem setMultiple_ledger (pfn : Bytes) (values : ChecksumValues) (w : World) :
    Ends (setMultiple env pfn values) w fun _ w' => ∃ new, w'.ledger = w.ledger ++ new ∧
      (¬ RecordOpens env pfn w → new = [] ∨ new = [(w.objects, .created)]) ∧
      (RecordOpens env pfn w → ∃ rest, new = (w.objects, .created) ::
          (w.objects, .opened (env.recordName pfn) true (!inCksums (env.recordName pfn))) :: rest ∧
        (inCksums (env.recordName pfn) → rest = [(w.objects, .closed), (w.objects, .deleted)])) := by
  unfold setMultiple setMultipleWith RecordOpens
  have hl := @newFile_ledger env w
  obtain ⟨-, hnew, -⟩ := @newFile_spec env w
  refine Ends.bind (Ends.step ?_)
  generalize newFile env w = r at hl hnew
  obtain ⟨o, w₁⟩ := r
  dsimp only at hl hnew ⊢
  cases o with
  | none => exact Ends.pure ⟨[], by simpa using hl, fun _ => Or.inl rfl, by rintro ⟨fh, h, -⟩; cases h⟩
  | some fh =>
  obtain rfl := hnew fh rfl
  rw [Option.isSome_some, if_pos rfl] at hl
  simp only [Option.some.injEq, exists_eq_left']
  have hopen := ((File.openFile_spec ({ oid := w.objects } : File env) rfl (getChecksumFilename pfn) O_WRONLY w₁).ends).and
    (File.openFile_ledger ({ oid := w.objects } : File env) (getChecksumFilename pfn) O_WRONLY rfl w₁)
  refine Ends.bind (hopen.mono ?_)
  rintro ⟨rc, fh⟩ w₂ ⟨hcase, hoid, hiff, hl₂⟩
  dsimp only at hcase hoid hiff hl₂ ⊢
  refine Ends.ite (fun hne => Ends.pure ?_) fun h0 => ?_
  · rw [if_neg hne, List.append_nil, hl] at hl₂
    exact ⟨_, hl₂, fun _ => Or.inr rfl, fun h => absurd (hiff.2 h) hne⟩
  rw [not_not] at h0
  rw [if_pos h0, hl, List.append_assoc] at hl₂
  refine Ends.bind ((writeLoop_same (serialise values) fh w₂).mono ?_)
  rintro ⟨retval, fh'⟩ w₃ ⟨hsame, hl₃⟩
  dsimp only at hsame
  rw [hl₂] at hl₃
  have hopens := hiff.1 h0
  -- without a checksum state, `Close` does nothing more; with one, the ledger grows
  suffices h : Ends fh'.close w₃ fun r w₄ => r.2.oid = w.objects ∧ ∃ rest, w₄.ledger = w₃.ledger ++ rest ∧
      (inCksums (env.recordName pfn) → rest = [(w.objects, .closed)]) by
    refine Ends.bind (h.mono ?_)
    rintro ⟨_, fh''⟩ w₄ ⟨hoid', rest, hl₄, hrest⟩
    refine Ends.bind (Ends.step (Ends.pure ⟨_, ?_, fun h => absurd hopens h, fun _ => ⟨rest ++ [(fh''.oid, .deleted)], rfl,
      fun hck => ?_⟩⟩))
    · show w₄.ledger ++ _ = _
      rw [hl₄, hl₃]
      simp [writing, openFlag, Env.recordName]
    · rw [hrest hck, hoid']
      rfl
  have hoid' : fh'.oid = w.objects := hsame.oid.trans hoid
  refine (fh'.close_oid w₃).mono (fun r _ h => h.trans hoid') |>.and ?_
  by_cases hck : inCksums (env.recordName pfn)
  · have hst : fh'.m_state = none := by
      rcases hcase with ⟨hneg, -⟩ | ⟨-, -, h, hopened, -⟩
      · exact absurd h0 hneg.ne
      · have hst := hopened.state
        rw [if_neg (by simpa [Env.recordName] using fun _ => hck)] at hst
        exact hsame.state_eq_none hst
    refine (fh'.close_ledger hst w₃).mono fun r w₄ h => ⟨_, h, fun _ => ?_⟩
    rw [hoid']
  · refine (fh'.close_grows w₃).mono fun r w₄ h => ?_
    obtain ⟨rest, hrest⟩ := h
    exact ⟨rest, hrest.symm, fun h => absurd h hck⟩

/-- The world in which the `Close` of a file with a checksum state calls the checksum manager. -/
def File.recording (f : File env) (w : World) : World := (note f.oid .recorded (note f.oid .closed (f.closeHandle w).2).2).2

/-- With a checksum state, a `Close` that succeeds writes down that it closed the file and that it records it. -/
theorem File.close_state_ledger (f : File env) {st : ChecksumState env.Z} (hst : f.m_state = some st) (w : World) :
    Ends f.close w fun r w' => (r.1 ≠ 0 ∧ w'.ledger = w.ledger ++ [(f.oid, .closed)]) ∨
      r.1 = 0 ∧ ∃ new : List (ℕ × ObjEvent), w'.ledger = w.ledger ++ (f.oid, .closed) :: (f.oid, .recorded) :: new ∧
      (¬ RecordOpens env (f.fname.getD []) (f.recording w) → new = [] ∨ ∃ o, new = [(o, .created)]) ∧
      (RecordOpens env (f.fname.getD []) (f.recording w) → ∃ o rest, new = (o, .created) ::
          (o, .opened (env.recordName (f.fname.getD [])) true (!inCksums (env.recordName (f.fname.getD [])))) :: rest ∧
        (inCksums (env.recordName (f.fname.getD [])) → rest = [(o, .closed), (o, .deleted)])) := by
  refine Ends.fix (Ends.bind (Ends.step (Ends.bind (Ends.step ?_))))
  rw [hst]
  refine Ends.ite (fun h0 => Ends.bind (Ends.step ?_)) fun hne => Ends.pure (Or.inl ⟨hne, ?_⟩)
  swap
  · exact congrArg (· ++ _) (f.closeHandle_ledger w)
  refine Ends.bind ((setMultiple_ledger (f.fname.getD []) (stateValues st.finalize) (f.recording w)).mono ?_)
  rintro rc w' ⟨new, hl, hno, hyes⟩
  refine Ends.pure (Or.inr ⟨h0, new, ?_, fun h => (hno h).imp_right fun h => ⟨_, h⟩, fun h => ⟨_, hyes h⟩⟩)
  rw [hl]
  simp [recording, note, f.closeHandle_ledger]

/-! ### How often a written file is recorded -/

namespace ObjEvent

def isRecorded : ObjEvent → Bool
  | recorded => true
  | _ => false

def isClosed : ObjEvent → Bool
  | closed => true
  | _ => false

/-- A file was opened and given a checksum state. -/
def withState : ObjEvent → Bool
  | opened _ _ state => state
  | _ => false

end ObjEvent

/-- A file was recorded once: one `Close` went on to write a record, one file was given a checksum state, and there
was at most one `Close` within the `Close`. -/
structure RecordedOnce (new : List (ℕ × ObjEvent)) : Prop where
  recorded : new.countP (·.2.isRecorded) = 1
  states : new.countP (·.2.withState) = 1
  depth : new.countP (·.2.isClosed) ≤ 2

instance (new : List (ℕ × ObjEvent)) : Decidable (RecordedOnce new) :=
  decidable_of_iff (new.countP (·.2.isRecorded) = 1 ∧ new.countP (·.2.withState) = 1 ∧ new.countP (·.2.isClosed) ≤ 2)
    ⟨fun h => ⟨h.1, h.2.1, h.2.2⟩, fun h => ⟨h.1, h.2, h.3⟩⟩

/-- A `Close` that goes on to write a record, `opens` telling whether the record can be opened under the name `n'`. -/
theorem recordedOnce_iff {a b c : ℕ} {n n' : Bytes} {new : List (ℕ × ObjEvent)} {opens : Prop}
    (hno : ¬ opens → new = [] ∨ ∃ o, new = [(o, .created)])
    (hyes : opens → ∃ o rest, new = (o, .created) :: (o, .opened n' true (!inCksums n')) :: rest ∧
      (inCksums n' → rest = [(o, .closed), (o, .deleted)])) :
    RecordedOnce ((a, .opened n true true) :: (b, .closed) :: (c, .recorded) :: new) ↔ inCksums n' ∨ ¬ opens := by
  by_cases ho : opens
  · obtain ⟨o, rest, rfl, hrest⟩ := hyes ho
    rw [or_iff_left (not_not.2 ho)]
    by_cases hck : inCksums n'
    · rw [hrest hck, hck]
      exact iff_of_true ⟨rfl, rfl, Nat.le_refl 2⟩ rfl
    · -- a second checksum state
      refine iff_of_false (fun h => ?_) hck
      have := h.states
      simp only [List.countP_cons, ObjEvent.withState, hck] at this
      simp at this
  · refine iff_of_true ?_ (Or.inr ho)
    rcases hno ho with rfl | ⟨o, rfl⟩
    · exact ⟨rfl, rfl, Nat.le_succ 1⟩
    · exact ⟨rfl, rfl, Nat.le_succ 1⟩

/-- When it is: the file that was opened, under its mapped name, is not taken for one in `/cksums`, and its record is,
or the record cannot be opened. -/
def RecordsOnce (env : Env) (path : Bytes) (w : World) : Prop :=
  ¬ inCksums (env.getRealPath path) ∧
    (inCksums (env.recordName (env.getRealPath path)) ∨ ¬ RecordOpens env (env.getRealPath path) w)

/-- A record that lies in `/cksums`, or cannot be opened, is done with. -/
theorem setMultiple_returns {pfn : Bytes} {w : World} (h : inCksums (env.recordName pfn) ∨ ¬ RecordOpens env pfn w)
    (values : ChecksumValues) : Gives (setMultiple env pfn values) w fun _ _ => True := by
  rcases h with hck | hno
  · exact (setMultiple_mapped pfn hck values w).mono fun _ _ _ => trivial
  unfold RecordOpens at hno
  unfold setMultiple setMultipleWith
  obtain ⟨-, hnew, -⟩ := @newFile_spec env w
  refine Gives.bind (Gives.step ?_)
  generalize newFile env w = r at hnew hno
  obtain ⟨o, w₁⟩ := r
  dsimp only at hnew hno ⊢
  cases o with
  | none => exact Gives.pure trivial
  | some fh =>
  obtain rfl := hnew fh rfl
  simp only [Option.some.injEq, exists_eq_left'] at hno
  refine Gives.bind (((File.openFile_spec ({ oid := w.objects } : File env) rfl (getChecksumFilename pfn) O_WRONLY
    w₁).and_ends (File.openFile_ledger _ _ _ rfl w₁)).mono ?_)
  rintro ⟨rc, fh⟩ w₂ ⟨-, -, hiff, -⟩
  exact Gives.ite (fun _ => Gives.pure trivial) fun h0 => absurd (hiff.1 (not_not.1 h0)) hno

/-- **How often a written file is recorded.** In every run in which `Open` for writing, any `Write` calls and `Close`
succeed, the file is recorded once if and only if its mapped name does not begin with `/cksums` and the mapped name of
its record does, or the record could not be opened.  Then `Close` returns. -/
theorem record_once_iff (f : File env) (hf : f.fh = none) (hst : f.m_state = none) (path : Bytes) (openMode : ℕ)
    (hwr : writing openMode) (calls : List (Bytes × ℤ)) (w : World) :
    Ends (f.openFile path openMode) w fun r w₁ => r.1 = 0 →
      Ends (writes r.2 calls) w₁ fun s w₂ =>
        Ends s.2.close w₂ (fun c w₃ => c.1 = 0 → ∃ new, w₃.ledger = w.ledger ++ new ∧
          (RecordedOnce new ↔ RecordsOnce env path (s.2.recording w₂))) ∧
        (RecordsOnce env path (s.2.recording w₂) → Gives s.2.close w₂ fun _ _ => True) := by
  refine ((f.openFile_spec hf path openMode w).ends.and (f.openFile_ledger path openMode hf w)).mono ?_
  rintro ⟨rc, f₁⟩ w₁ ⟨hcase, hoid, -, hl₁⟩ h0
  dsimp only at hcase hoid hl₁ h0 ⊢
  rw [if_pos h0] at hl₁
  obtain ⟨-, -, h, hopened, -, -⟩ := hcase.resolve_left fun h => absurd h0 h.1.ne
  refine (writes_same calls f₁ w₁).mono ?_
  rintro ⟨steps, f₂⟩ w₂ ⟨hsame, hl₂⟩
  dsimp only at hsame ⊢
  have hname : f₂.fname.getD [] = env.getRealPath path := by rw [hsame.fname, hopened.fname, Option.getD_some]
  have hstate := hopened.state
  simp only [hwr, true_and, Bool.not_eq_true'] at hstate
  rw [hl₁, hwr, Bool.true_and] at hl₂
  unfold RecordsOnce
  by_cases hck : inCksums (env.getRealPath path)
  · -- no checksum state, no record
    rw [if_neg (by simp [hck]), hst] at hstate
    have hnone := hsame.state_eq_none hstate
    refine ⟨(f₂.close_ledger hnone w₂).mono fun c w₃ hl₃ _ => ?_, fun h => absurd hck h.1⟩
    rw [hl₂, List.append_assoc] at hl₃
    refine ⟨_, hl₃, iff_of_false (fun h => ?_) fun h => h.1 hck⟩
    cases h.recorded
  · obtain ⟨st, hst₂⟩ : ∃ st, f₂.m_state = some st := by
      rw [if_pos (by simpa using hck)] at hstate
      obtain ⟨junk, hjunk⟩ := hstate
      rw [← Option.isSome_iff_exists, hsame.state, hjunk, Option.isSome_some]
    have hclose := f₂.close_state_ledger hst₂ w₂
    rw [hname] at hclose
    refine ⟨hclose.mono fun c w₃ hc h0 => ?_, fun h => ?_⟩
    · obtain ⟨-, new, hl₃, hno, hyes⟩ := hc.resolve_left fun h => h.1 h0
      rw [hl₂, List.append_assoc] at hl₃
      refine ⟨_, hl₃, ?_⟩
      rw [and_iff_right hck, Bool.eq_false_of_not_eq_true hck]
      exact recordedOnce_iff hno hyes
    · refine Gives.fix (Gives.bind (Gives.step (Gives.bind (Gives.step ?_))))
      rw [hst₂]
      refine Gives.ite (fun _ => Gives.bind (Gives.step (Gives.bind ?_))) fun _ => Gives.pure trivial
      rw [← hname] at h
      exact (setMultiple_returns h.2 _).mono fun _ _ _ => Gives.pure trivial

theorem record_once_iff_a : Ends (({ oid := 0 } : File Reference.env).openFile (str "/a") O_WRONLY) { fs := .empty }
    fun r w₁ => r.1 = 0 → Ends (writes r.2 [(str "x", 0)]) w₁ fun s w₂ =>
      Ends s.2.close w₂ (fun c w₃ => c.1 = 0 → RecordedOnce w₃.ledger) := by
  refine (record_once_iff ({ oid := 0 } : File Reference.env) rfl rfl (str "/a") O_WRONLY (by decide) [(str "x", 0)]
    { fs := .empty }).mono fun r w₁ h h0 => (h h0).mono fun s w₂ h => h.1.mono fun c w₃ h h0 => ?_
  obtain ⟨new, hnew, hiff⟩ := h h0
  rw [hnew]
  exact hiff.2 ⟨by decide, Or.inl (by decide)⟩

/-- A file of a directory that is only like `/cksums` is not recorded. -/
theorem lookalike_not_recorded : ((do
      let (_, f) ← ({ oid := 0 } : File Reference.env).openFile (str "/cksumsX/f") O_WRONLY
      let (_, f) ← writes f [(str "x", 0)]
      f.close : Prog World (ℤ × File Reference.env)).run 9 { fs := .empty }).map (fun r => (r.1.1, r.2.ledger)) =
    some (0, [(0, .opened (str "/cksumsX/f") true false), (0, .closed)]) ∧
    ¬ RecordedOnce [(0, .opened (str "/cksumsX/f") true false), (0, .closed)] := by
  decide +kernel

/-! ### Which files are opened -/

/-- The path in HDFS of the file that was opened. -/
def ObjEvent.path : ObjEvent → Option HPath
  | opened fname _ _ => some (resolve fname)
  | _ => none

/-- The files opened between two worlds, in their order. -/
def OpenedBetween (w w' : World) (ps : List HPath) : Prop :=
  ∃ new, w'.ledger = w.ledger ++ new ∧ new.filterMap (fun e => e.2.path) = ps

namespace OpenedBetween

variable {w w' w'' : World} {ps qs : List HPath}

theorem of_ledger (h : w'.ledger = w.ledger) : OpenedBetween w w' [] := ⟨[], by rw [h, List.append_nil], rfl⟩

theorem trans (h : OpenedBetween w w' ps) (h' : OpenedBetween w' w'' qs) : OpenedBetween w w'' (ps ++ qs) := by
  obtain ⟨new, hl, rfl⟩ := h
  obtain ⟨new', hl', rfl⟩ := h'
  exact ⟨new ++ new', by rw [hl', hl, List.append_assoc], List.filterMap_append⟩

/-- What opens nothing goes before what opens files. -/
theorem before (h : OpenedBetween w w' []) (h' : OpenedBetween w' w'' qs) : OpenedBetween w w'' qs := h.trans h'

end OpenedBetween

theorem newFile_opens (w : World) : OpenedBetween w (newFile env w).2 [] := by
  refine ⟨_, newFile_ledger w, ?_⟩
  split <;> rfl

theorem File.openFile_opens (f : File env) (hf : f.fh = none) (path : Bytes) (openMode : ℕ) (w : World) :
    Ends (f.openFile path openMode) w fun r w' =>
      OpenedBetween w w' (if r.1 = 0 then [resolve (env.getRealPath path)] else []) := by
  refine (f.openFile_ledger path openMode hf w).mono ?_
  rintro r w' ⟨-, -, hl⟩
  refine ⟨_, hl, ?_⟩
  split <;> rfl

/-- The first file that `SetMultiple` opens is the record. -/
theorem setMultiple_opens (pfn : Bytes) (values : ChecksumValues) (w : World) :
    Ends (setMultiple env pfn values) w fun _ w' => ∃ ps, OpenedBetween w w' ps ∧ ∀ p ∈ ps.head?, p = env.recordFile pfn := by
  refine (setMultiple_ledger pfn values w).mono ?_
  rintro rc w' ⟨new, hl, hno, hyes⟩
  refine ⟨_, ⟨new, hl, rfl⟩, ?_⟩
  by_cases ho : RecordOpens env pfn w
  · obtain ⟨rest, rfl, -⟩ := hyes ho
    simp [ObjEvent.path, Env.recordFile, Env.recordName]
  · rcases hno ho with rfl | rfl
    · simp
    · simp [ObjEvent.path]

/-- The first file that `Close` opens is the record of the file that is closed. -/
theorem File.close_opens (f : File env) (w : World) :
    Ends f.close w fun _ w' => ∃ ps, OpenedBetween w w' ps ∧ ∀ p ∈ ps.head?, p = env.recordFile (f.fname.getD []) := by
  have hclosed : OpenedBetween w (note f.oid .closed (f.closeHandle w).2).2 [] :=
    ⟨_, congrArg (· ++ _) (f.closeHandle_ledger w), rfl⟩
  refine Ends.fix (Ends.bind (Ends.step (Ends.bind (Ends.step ?_))))
  cases f.m_state with
  | none => exact Ends.pure ⟨[], hclosed, by simp⟩
  | some st =>
    refine Ends.ite (fun _ => Ends.bind (Ends.step (Ends.bind ?_))) fun _ => Ends.pure ⟨[], hclosed, by simp⟩
    refine (setMultiple_opens (f.fname.getD []) (stateValues st.finalize) _).mono ?_
    rintro rc w' ⟨ps, hps, hhead⟩
    exact Ends.pure ⟨ps, hclosed.before (.before ⟨_, rfl, rfl⟩ hps), hhead⟩

/-- A file that is read from start to end, and closed: no other is opened. -/
theorem scan_opens {α : Type} (blen : ℕ) (g : α → Bytes → α) (acc : α) (f : File env) (hf : f.m_state = none) (w : World) :
    Ends (.loop (scanTurn blen g) (f, acc, 0)) w fun r w₁ => Ends r.2.2.close w₁ fun r' w₂ =>
      Ends r'.2.destroy w₂ fun _ w₃ => OpenedBetween w w₃ [] := by
  refine (scanLoop_same blen g acc f w).mono ?_
  rintro ⟨retval, acc', f'⟩ w₁ ⟨hsame, hl⟩
  refine (f'.close_ledger (hsame.state_eq_none hf) w₁).mono fun r' w₂ hl₂ => Ends.step ?_
  exact (OpenedBetween.of_ledger hl).before (.before ⟨_, hl₂, rfl⟩ ⟨_, rfl, rfl⟩)

/-- `scanFile` opens one file, or none. -/
theorem scanFile_opens {α β : Type} (path : Bytes) (blen : ℕ) {start : World → α × World} (g : α → Bytes → α)
    {stop : ℤ → β} {rest : ℤ → α → Prog World β} {Q : β → World → Prop} (w : World)
    (hstart : ∀ v, (start v).2.ledger = v.ledger) (hstop : ∀ rc w', OpenedBetween w w' [] → Q (stop rc) w')
    (hrest : ∀ retval acc w', OpenedBetween w w' [resolve (env.getRealPath path)] → Ends (rest retval acc) w' Q) :
    Ends (scanFile env path blen start g stop rest) w Q := by
  have hnew := @newFile_opens env w
  obtain ⟨-, hfile, -⟩ := @newFile_spec env w
  refine Ends.bind (Ends.step ?_)
  generalize newFile env w = r at hnew hfile
  obtain ⟨o, w₁⟩ := r
  cases o with
  | none => exact Ends.pure (hstop _ w₁ hnew)
  | some fh =>
  obtain rfl := hfile fh rfl
  refine Ends.bind ((((File.openFile_spec ({ oid := w.objects } : File env) rfl path O_RDONLY w₁).ends).and
    (File.openFile_opens _ rfl _ _ w₁)).mono ?_)
  rintro ⟨rc, fh⟩ w₂ ⟨hcase, hopens⟩
  dsimp only at hcase hopens ⊢
  have h₂ := hnew.before hopens
  refine Ends.ite (fun hne => Ends.pure (hstop rc w₂ ?_)) fun h0 => Ends.bind (Ends.step ?_)
  · rwa [if_neg hne] at h₂
  rw [if_pos (not_not.1 h0)] at h₂
  have hst : fh.m_state = none := by
    rcases hcase with ⟨hneg, -⟩ | ⟨-, -, h, hopened, -⟩
    · exact absurd hneg.ne h0
    · exact hopened.state
  refine Ends.bind ((scan_opens blen g _ fh hst _).mono ?_)
  rintro ⟨retval, acc, fh'⟩ w₃ h₃
  refine Ends.bind (h₃.mono ?_)
  rintro ⟨_, fh''⟩ w₄ h₄
  refine Ends.bind (h₄.mono fun _ w₅ h₅ => hrest retval acc w₅ ?_)
  exact h₂.trans ((OpenedBetween.of_ledger (hstart w₂)).before h₅)

theorem unlink_keeps (pfn : Bytes) : Keeps World.ledger (unlink env pfn) := by
  refine .bind (.step fun w => call_ledger _ _ _ _) fun _ => .ite (.step fun _ => rfl) ?_
  refine .bind (.step fun _ => rfl) fun _ => .bind (.step fun w => call_ledger _ _ _ _) fun r => .ite ?_ (.pure _)
  refine .bind (.step fun w => ?_) fun _ => .step fun _ => rfl
  unfold unlinkErrno
  split
  · exact call_ledger _ _ _ _
  · rfl

/-- **What `Get` opens**: the record. -/
theorem get_opens (pfn : Bytes) (cks : XrdCksData) (w : World) :
    Ends (ChecksumManager.get env pfn cks) w fun _ w' => ∃ ps, OpenedBetween w w' ps ∧ ∀ p ∈ ps, p = env.recordFile pfn := by
  have hcontents : Ends (ChecksumManager.getFileContents env pfn) w fun _ w' =>
      ∃ ps, OpenedBetween w w' ps ∧ ∀ p ∈ ps, p = env.recordFile pfn := by
    rw [getFileContents_eq]
    refine Ends.ite (fun _ => Ends.pure ⟨[], .of_ledger rfl, by simp⟩) fun _ => ?_
    refine scanFile_opens (getChecksumFilename pfn) 4095 _ w (fun _ => rfl) (fun rc w₁ h => ⟨[], h, by simp⟩) ?_
    intro retval text w₁ h
    exact Ends.ite (fun _ => Ends.pure ⟨_, h, by simp [Env.recordFile]⟩) fun _ =>
      Ends.pure ⟨_, h, by simp [Env.recordFile]⟩
  refine Ends.bind (hcontents.mono ?_)
  rintro ⟨rc, text⟩ w₁ ⟨ps, hps, hrec⟩
  refine Ends.ite (fun _ => Ends.pure ⟨ps, hps, hrec⟩) fun _ => Ends.ite (fun _ => Ends.pure ⟨ps, hps, hrec⟩) fun _ => ?_
  refine Ends.ite (fun _ => Ends.bind ((unlink_keeps pfn w₁).mono fun _ w₂ hl => Ends.pure ⟨ps, ?_, hrec⟩)) fun _ => ?_
  · obtain ⟨new, hnew, rfl⟩ := hps
    exact ⟨new, hl.trans hnew, rfl⟩
  · exact Ends.ite (fun _ => Ends.pure ⟨ps, hps, hrec⟩) fun _ => Ends.pure ⟨ps, hps, hrec⟩

/-- **What `Calc` opens**: the file under the mapped name, and then the record. -/
theorem calcDigest_opens (pfn : Bytes) (cks : XrdCksData) (do_set : Bool) (w : World) :
    Ends (ChecksumManager.calcDigest env pfn cks do_set) w fun _ w' => ∃ ps, OpenedBetween w w' ps ∧
      (∀ p ∈ ps.head?, p = resolve (env.getRealPath pfn)) ∧ ∀ p ∈ ps.tail.head?, p = env.recordFile pfn := by
  rw [calcDigest_eq]
  cases ChecksumManager.returnDigest cks with
  | none => exact Ends.pure ⟨[], .of_ledger rfl, by simp, by simp⟩
  | some digest =>
  refine Ends.ite (fun _ => Ends.pure ⟨[], .of_ledger rfl, by simp, by simp⟩) fun _ => ?_
  refine scanFile_opens pfn 262144 _ w (fun _ => rfl) (fun rc w₁ h => ⟨[], h, by simp, by simp⟩) ?_
  intro retval state w₁ hread
  refine Ends.ite (fun _ => Ends.pure ⟨_, hread, by simp, by simp⟩) fun _ => ?_
  refine Ends.bind ((setMultiple_opens pfn (stateValues state.finalize) w₁).mono ?_)
  rintro rc w₂ ⟨ps, hps, hhead⟩
  exact Ends.ite (fun _ => Ends.pure ⟨_, hread.trans hps, by simp, by simpa using hhead⟩) fun _ =>
    Ends.pure ⟨_, hread.trans hps, by simp, by simpa using hhead⟩

/-! ### Which file is which -/

/-- `opened` by `Open(lfn)`, `closed` by the `Close` after it, `calced` by `Calc(pfn)` and `got` by `Get(pfn)`: the file
that is read is the one that was opened, and there is one record. -/
structure Consistent (opened closed calced got : List HPath) : Prop where
  data : calced.head? = opened.head?
  record : ∃ p, (∀ q ∈ closed.head?, q = p) ∧ (∀ q ∈ calced.tail.head?, q = p) ∧ ∀ q ∈ got, q = p

theorem getRealPath_of_lfn2Pfn {lfn pfn : Bytes} {blen : ℕ} (h : env.lfn2Pfn lfn blen = some pfn) :
    env.getRealPath lfn = pfn := by
  unfold Env.lfn2Pfn at h
  unfold Env.getRealPath
  cases hN : env.the_N2N with
  | none =>
    rw [hN] at h
    exact (Option.ite_none_right_eq_some.1 h).2 |> Option.some.inj
  | some lfn2pfn =>
    rw [hN] at h
    simp [(Option.filter_eq_some_iff.1 h).1]

/-- A library that puts `/data` before every path outside `/cksums`. -/
def underData : Env :=
  { Reference.env with the_N2N := some fun path => if inCksums path then none else some (str "/data" ++ path) }

/-- HDFS with the one-byte files `/data/a` and `/data/data/a`. -/
def twoFiles : World where
  fs := .ofFiles [(str "/data/a", str "x"), (str "/data/data/a", str "y")]

end XrdHdfs
