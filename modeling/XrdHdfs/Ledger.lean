import XrdHdfs.FileSpec
import XrdHdfs.WriteSession
import XrdHdfs.ManagerSpec

/-!
# What the ledger says of a run

The ledger of a world has an event for everything that happens to a file object.  Reading, writing and the calls of
`libhdfs` leave it alone (`Keeps`); what `Open`, `Close` and the record writer add to it is said by one lemma for each.
-/

namespace XrdHdfs

open Lib World

variable {env : Env}

/-! ### What leaves the ledger alone -/

namespace World

@[simp] theorem take_ledger (c : Call) (w : World) : (w.take c).2.ledger = w.ledger := by
  unfold take
  split <;> rfl

@[simp] theorem call_ledger (c : LibCall) (e : ℤ) (f : Fs → Option Fs) (w : World) : (w.call c e f).2.ledger = w.ledger :=
  (call_called c e f w).ledger

@[simp] theorem malloc_ledger (w : World) : (malloc env w).2.ledger = w.ledger := take_ledger .malloc w

end World

@[simp] theorem hdfsOpenFile_ledger (path : Bytes) (writing : Bool) (w : World) :
    (hdfsOpenFile path writing w).2.ledger = w.ledger :=
  (hdfsOpenFile_called path writing w).ledger

@[simp] theorem hdfsGetPathInfo_ledger (path : Bytes) (w : World) : (hdfsGetPathInfo path w).2.ledger = w.ledger :=
  (hdfsGetPathInfo_called path w).ledger

@[simp] theorem hdfsPread_ledger (fh : Option Handle) (pos len : ℤ) (w : World) :
    (hdfsPread fh pos len w).2.ledger = w.ledger :=
  (hdfsPread_called fh pos len w).ledger

@[simp] theorem hdfsWrite_ledger (fh : Option Handle) (buff : Bytes) (w : World) :
    (hdfsWrite fh buff w).2.ledger = w.ledger :=
  (hdfsWrite_called fh buff w).ledger

theorem File.read_keeps (f : File env) (offset : ℤ) (blen : ℕ) : Keeps World.ledger (f.read offset blen) := by
  refine .bind (Readbuf.read_follows (hdfsPread_ledger f.fh) _ _ _) fun r => .bind (.step fun w => ?_) fun _ => .pure _
  unfold readReport
  dsimp only
  split <;> rfl

theorem File.write_keeps (f : File env) (buff : Bytes) (offset : ℤ) : Keeps World.ledger (f.write buff offset) :=
  .ite (.bind (.step fun _ => rfl) fun _ => .pure _) (.bind (.step (hdfsWrite_ledger f.fh buff)) fun _ => .pure _)

theorem writeTurn_keeps (text : Bytes) (b : File env × ℕ) : Keeps World.ledger (writeTurn text b) := by
  obtain ⟨fh, offset⟩ := b
  exact .bind (fh.write_keeps _ _) fun _ => .ite (.pure _) (.ite (.pure _) (.pure _))

/-! ### What is written down -/

/-- What was written down stays. -/
abbrev Grows {α : Type} (x : Prog World α) : Prop := Follows (fun w w' => w.ledger <+: w'.ledger) x

instance : IsPreorder World fun w w' => w.ledger <+: w'.ledger where
  refl _ := List.prefix_rfl
  trans _ _ _ h h' := h.trans h'

theorem grows_of_keeps {α : Type} {x : Prog World α} (h : Keeps World.ledger x) : Grows x :=
  h.mono fun _ _ h => h ▸ List.prefix_rfl

theorem note_grows (oid : ℕ) (e : ObjEvent) : Grows (.step (note oid e)) := .step fun _ => List.prefix_append _ _

theorem newFile_ledger (w : World) : (newFile env w).2.ledger =
    w.ledger ++ if (newFile env w).1.isSome then [(w.objects, .created)] else [] := by
  rcases newFile_cases env w with ⟨h, -⟩ | h
  · simp [h]
  · simp [h]

namespace File

variable (f : File env) (path : Bytes) (openMode : ℕ)

/-- The world in which `Open` calls `hdfsOpenFile`, and whether there is a connection. -/
def opening (w : World) : ℤ × World :=
  hadoopConnect ((if f.readbuf.mem.isSome then fun w => (none, w) else World.malloc env) w).2

/-- `Open` connects, and `hdfsOpenFile` gives it a file. -/
def Openable (w : World) : Prop :=
  (f.opening w).1 = 0 ∧ (hdfsOpenFile (env.getRealPath path) (writing openMode) (f.opening w).2).1 ≠ none

theorem opening_ledger (w : World) : (f.opening w).2.ledger = w.ledger := by
  unfold opening hadoopConnect
  rw [call_ledger]
  dsimp only
  split
  · rfl
  · exact malloc_ledger w

/-- **What `Open` writes down**: the name it opened, and whether it made a checksum state. -/
theorem openFile_ledger (hf : f.fh = none) (w : World) :
    Ends (f.openFile path openMode) w fun r w' => r.2.oid = f.oid ∧ (r.1 = 0 ↔ f.Openable path openMode w) ∧
      w'.ledger = w.ledger ++ if r.1 = 0 then
        [(f.oid, .opened (env.getRealPath path) (writing openMode) (writing openMode && !inCksums (env.getRealPath path)))]
        else [] := by
  have hl := f.opening_ledger w
  unfold openFile Openable
  rw [if_neg (by simp [hf])]
  refine Ends.bind (Ends.step (Ends.bind (Ends.step ?_)))
  change Ends _ (f.opening w).2 _
  refine Ends.ite (fun hne => Ends.bind (Ends.step (Ends.pure ?_))) fun h0 => Ends.bind (Ends.step ?_)
  · have hneg : ((f.opening w).2.errorCode (.file f.oid) (.fixed EIO)).1 ≠ 0 := (errorCode_neg _ _ _).ne
    refine ⟨rfl, iff_of_false hneg fun h => hne h.1, ?_⟩
    dsimp only
    rw [if_neg hneg, List.append_nil]
    exact hl
  have hopen := hdfsOpenFile_ledger (env.getRealPath path) (writing openMode) (f.opening w).2
  rw [hl] at hopen
  rw [and_iff_right (show (f.opening w).1 = 0 from not_not.1 h0)]
  generalize hdfsOpenFile (env.getRealPath path) (writing openMode) (f.opening w).2 = r at hopen
  obtain ⟨o, w₃⟩ := r
  dsimp only at hopen ⊢
  cases o with
  | none =>
    have hneg := (openError_spec (env.getRealPath path) w₃).2
    refine Ends.bind (Ends.step (Ends.pure ⟨rfl, iff_of_false hneg.ne (by simp), ?_⟩))
    rw [if_neg hneg.ne, List.append_nil, ← hopen]
    exact (openError_called (env.getRealPath path) w₃).ledger
  | some h =>
    refine Ends.bind (Ends.step (Ends.ite (fun _ => Ends.bind (Ends.step (Ends.pure ?_))) fun _ => Ends.pure ?_))
    · exact ⟨rfl, iff_of_true rfl (by simp), by rw [if_pos rfl, ← hopen]; rfl⟩
    · exact ⟨rfl, iff_of_true rfl (by simp), by rw [if_pos rfl, ← hopen]; rfl⟩

/-- What `Write` leaves alone of the object: who it is, and whether it has a checksum state. -/
structure Same (f f' : File env) : Prop where
  oid : f'.oid = f.oid
  fname : f'.fname = f.fname
  state : f'.m_state.isSome = f.m_state.isSome

theorem Same.trans {f f' f'' : File env} (h : Same f f') (h' : Same f' f'') : Same f f'' :=
  ⟨h'.oid.trans h.oid, h'.fname.trans h.fname, h'.state.trans h.state⟩

theorem Same.state_eq_none {f f' : File env} (h : Same f f') (hf : f.m_state = none) : f'.m_state = none := by
  have := h.state
  rwa [hf, Option.isSome_none, Option.isSome_eq_false_iff, Option.isNone_iff_eq_none] at this

theorem write_same (buff : Bytes) (offset : ℤ) (w : World) :
    Ends (f.write buff offset) w fun r w' => Same f r.2 ∧ w'.ledger = w.ledger := by
  refine Ends.and ?_ (f.write_keeps buff offset w)
  unfold write
  refine Ends.ite (fun _ => Ends.bind (Ends.step (Ends.pure ⟨rfl, rfl, rfl⟩))) fun _ => ?_
  exact Ends.bind (Ends.step (Ends.pure ⟨rfl, rfl, Option.isSome_map⟩))

theorem read_same (offset : ℤ) (blen : ℕ) (w : World) :
    Ends (f.read offset blen) w fun r w' => Same f r.2 ∧ w'.ledger = w.ledger := by
  refine Ends.and ?_ (f.read_keeps offset blen w)
  unfold read
  exact Ends.bind fun n r w' _ => Ends.bind (Ends.step (Ends.pure ⟨rfl, rfl, rfl⟩))

theorem closeHandle_ledger (w : World) : (f.closeHandle w).2.ledger = w.ledger :=
  @closeHandle_follows env (fun w w' => w'.ledger = w.ledger) _ f (fun _ _ _ h => h.ledger) (fun _ _ => rfl) w

end File

/-- `Write` calls write nothing down. -/
theorem writes_same (calls : List (Bytes × ℤ)) (f : File env) (w : World) :
    Ends (writes f calls) w fun r w' => File.Same f r.2 ∧ w'.ledger = w.ledger := by
  induction calls generalizing f w with
  | nil => exact Ends.pure ⟨⟨rfl, rfl, rfl⟩, rfl⟩
  | cons c calls ih =>
    refine Ends.bind (Ends.step (Ends.bind ((f.write_same c.1 c.2 w).mono ?_)))
    rintro ⟨ret, f'⟩ w' ⟨hsame, hl⟩
    refine Ends.bind (Ends.step (Ends.bind ((ih f' w').mono ?_)))
    rintro ⟨steps, f''⟩ w'' ⟨hsame', hl'⟩
    exact Ends.pure ⟨hsame.trans hsame', hl'.trans hl⟩

/-- Nor does a loop that reads a file from start to end. -/
theorem scanLoop_same {α : Type} (blen : ℕ) (g : α → Bytes → α) (acc : α) (f : File env) (w : World) :
    Ends (.loop (scanTurn blen g) (f, acc, 0)) w fun r w' => File.Same f r.2.2 ∧ w'.ledger = w.ledger := by
  refine Ends.loop (fun b w' => File.Same f b.1 ∧ w'.ledger = w.ledger) ?_ (f, acc, 0) w ⟨⟨rfl, rfl, rfl⟩, rfl⟩
  rintro ⟨fh, acc, offset⟩ w₁ ⟨hsame, hl⟩
  refine Ends.bind ((fh.read_same _ _ w₁).mono ?_)
  rintro ⟨out, fh'⟩ w₂ ⟨hsame', hl'⟩
  refine Ends.ite (fun _ => Ends.pure ⟨hsame.trans hsame', hl'.trans hl⟩) fun _ => ?_
  exact Ends.ite (fun _ => Ends.pure ⟨hsame.trans hsame', hl'.trans hl⟩) fun _ =>
    Ends.pure ⟨hsame.trans hsame', hl'.trans hl⟩

/-- Nor does the loop of `SetMultiple`. -/
theorem writeLoop_same (text : Bytes) (f : File env) (w : World) :
    Ends (.loop (writeTurn text) (f, 0)) w fun r w' => File.Same f r.2 ∧ w'.ledger = w.ledger := by
  refine Ends.loop (fun b w' => File.Same f b.1 ∧ w'.ledger = w.ledger) ?_ (f, 0) w ⟨⟨rfl, rfl, rfl⟩, rfl⟩
  rintro ⟨fh, offset⟩ w₁ ⟨hsame, hl⟩
  refine Ends.bind ((fh.write_same _ _ w₁).mono ?_)
  rintro ⟨retval, fh'⟩ w₂ ⟨hsame', hl'⟩
  refine Ends.ite (fun _ => Ends.pure ⟨hsame.trans hsame', hl'.trans hl⟩) fun _ => ?_
  exact Ends.ite (fun _ => Ends.pure ⟨hsame.trans hsame', hl'.trans hl⟩) fun _ =>
    Ends.pure ⟨hsame.trans hsame', hl'.trans hl⟩

end XrdHdfs
