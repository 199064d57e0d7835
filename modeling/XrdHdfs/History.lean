import XrdHdfs.CallLog
import XrdHdfs.ReadSafety

/-!
# The history of a file object

Calls of `Open`, `Read`, `Write` and `Close` on one `XrdHdfsFile`, in any order and with any outcomes.  `File.Sound` is
what they keep (`history_sound`): the window of the buffer is in order, and an object that is not open has no checksum
state, and either no buffer or one as it was allocated.  On a sound object `Read` and `Write` return (`ios_gives`).
-/

namespace XrdHdfs

open Lib World

variable {env : Env}

/-! ### Calls -/

/-- A call on a file that is open. -/
inductive IoCall where
  | read (c : Readbuf.ReadCall)
  | write (buff : Bytes) (offset : ℤ)

/-- A call of a file object. -/
inductive FileCall where
  | openFile (path : Bytes) (openMode : ℕ)
  | io (c : IoCall)
  | close

/-- What is seen of a call: the value returned, the bytes read, and the calls of `libhdfs` that were made. -/
structure Seen where
  ret : ℤ
  data : Bytes
  calls : List (LibCall × ℤ)
  deriving DecidableEq

namespace File

/-- `Read` or `Write`: what is returned and read. -/
def io (f : File env) : IoCall → Prog World ((ℤ × Bytes) × File env)
  | .read c => do
    let (out, f) ← f.read c.offset.toInt c.blen.toNat
    pure ((out.ret, out.data), f)
  | .write buff offset => do
    let (ret, f) ← f.write buff offset
    pure ((ret, []), f)

def perform (f : File env) : FileCall → Prog World ((ℤ × Bytes) × File env)
  | .openFile path openMode => do
    let (rc, f) ← f.openFile path openMode
    pure ((rc, []), f)
  | .io c => f.io c
  | .close => do
    let (ret, f) ← f.close
    pure ((ret, []), f)

def observe (f : File env) (c : FileCall) : Prog World (Seen × File env) := do
  let before ← .step fun w => (w.calls.length, w)
  let ((ret, data), f) ← f.perform c
  let calls ← .step fun w => (w.calls.drop before, w)
  pure (⟨ret, data, calls⟩, f)

def history : List FileCall → File env → Prog World (List Seen × File env)
  | [], f => pure ([], f)
  | c :: cs, f => do
    let (seen, f) ← f.observe c
    let (rest, f) ← history cs f
    pure (seen :: rest, f)

/-! ### What they keep -/

/-- **The invariant of a file object.** -/
structure Sound (f : File env) : Prop where
  window : f.readbuf.WindowOk
  state : f.fh = none → f.m_state = none
  mem : f.fh = none → ∀ mem ∈ f.readbuf.mem, mem = env.heap

theorem sound_new (oid : ℕ) : Sound ({ oid } : File env) :=
  ⟨⟨by norm_num, by norm_num, fun _ => rfl, by norm_num⟩, fun _ => rfl, fun _ _ h => absurd h (by simp)⟩

end File

/-- A read at a negative offset gives nothing. -/
theorem hdfsPread_neg (fh : Option Handle) {pos : ℤ} (h : pos < 0) (len : ℤ) (w : World) :
    (hdfsPread fh pos len w).1.n ≤ 0 := by
  unfold hdfsPread
  rcases w.take .pread with ⟨a, w₁⟩
  dsimp only
  rcases a.error with _ | e
  · rcases fh with _ | h'
    · exact (show (-1 : ℤ) ≤ 0 by norm_num)
    · dsimp only
      rw [if_pos (Or.inl h)]
      exact (show (-1 : ℤ) ≤ 0 by norm_num)
  · exact (show (-1 : ℤ) ≤ 0 by norm_num)

/-- Without a file nothing is read. -/
theorem hdfsPread_none (pos len : ℤ) (w : World) : (hdfsPread none pos len w).1.n < 0 := by
  unfold hdfsPread
  rcases w.take .pread with ⟨a, w₁⟩
  dsimp only
  rcases a.error with _ | e
  · exact (show (-1 : ℤ) < 0 by norm_num)
  · exact (show (-1 : ℤ) < 0 by norm_num)

namespace Readbuf

/-- A buffer that nothing is read into stays as it is. -/
theorem read_mem {σ : Type} {hdfsPread : ℤ → ℤ → σ → PreadAnswer × σ} (hneg : ∀ pos len s, (hdfsPread pos len s).1.n < 0)
    (rb : Readbuf) (offset : ℤ) (blen : ℕ) (s : σ) :
    Ends (rb.read hdfsPread offset blen) s fun r _ => r.2.mem = rb.mem := by
  have hserve : (rb.serve offset blen).2.mem = rb.mem := by
    unfold serve
    split <;> rfl
  unfold read
  refine Ends.ite (fun _ => Ends.bind (Ends.step (Ends.pure rfl))) fun _ => Ends.ite (fun _ => Ends.pure rfl) fun _ => ?_
  refine Ends.bind ((Ends.loop (Q := fun r _ => r.2.1.mem = rb.mem) (fun b _ => b.1.mem = rb.mem) ?_ _ s hserve).mono ?_)
  · rintro ⟨rb', acc⟩ t hmem
    refine refillTurn_cases hdfsPread _ rb' acc t (fun _ => hmem) ?_
    intro _ pos want a t' _ _ ha
    refine ⟨fun _ _ => hmem, fun _ _ => hmem, fun _ _ => hmem, fun hn => absurd (hneg pos want t) ?_⟩
    rw [ha]
    exact hn.le.not_gt
  · rintro ⟨err, rb', acc⟩ s' hmem
    cases err with
    | some errno => exact Ends.pure hmem
    | none => exact Ends.pure hmem

theorem windowOk_free {rb : Readbuf} (h : rb.WindowOk) : rb.free.WindowOk := by
  unfold free
  split
  · exact ⟨by norm_num, by norm_num, fun _ => rfl, by norm_num⟩
  · exact h

theorem free_mem (rb : Readbuf) : rb.free.mem = none := by
  unfold free
  split
  · rfl
  · next h => simpa using h

/-- What the buffer holds of a request is not negative in number. -/
theorem serve_nbytes {rb : Readbuf} (hw : rb.WindowOk) (o : ℤ) (blen : ℕ) : 0 ≤ (rb.serve o blen).1.nbytes := by
  unfold serve
  by_cases h : rb.PartialHit o
  · rw [if_pos h]
    obtain ⟨hle, hlt⟩ := h
    have hlow := hw.lower
    have hup := hw.upper
    have hlen := hw.len_lt
    have hsum : o < rb.offset + rb.len := by
      unfold s64 at hlt
      omega
    dsimp only
    rw [s64_of_lt (z := o - rb.offset) (by omega) (by omega), s64_of_lt (by omega) (by omega)]
    omega
  · rw [if_neg h]

end Readbuf

namespace File

section Sound

variable {f : File env}

theorem Sound.openFile (hf : f.Sound) (path : Bytes) (openMode : ℕ) (w : World) :
    Ends (f.openFile path openMode) w fun r _ => r.2.Sound ∧ r.2.oid = f.oid ∧ r.2.m_nextoff = f.m_nextoff := by
  unfold File.openFile
  refine Ends.ite (fun _ => Ends.pure ⟨hf, rfl, rfl⟩) fun hfh => ?_
  replace hfh : f.fh = none := by simpa using hfh
  refine Ends.bind (Ends.step ?_)
  have hheap :
      ∀ mem ∈ (f.readbuf.openReadbuf ((if f.readbuf.mem.isSome then fun w => (none, w) else World.malloc env) w).1).mem,
      mem = env.heap := by
    intro mem hmem
    unfold Readbuf.openReadbuf at hmem
    split at hmem
    · next m hm => exact hf.mem hfh mem (hm ▸ hmem)
    · next hm =>
      rw [if_neg (by simp [hm])] at hmem
      unfold World.malloc at hmem
      dsimp only at hmem
      split at hmem
      · cases hmem
      · exact (Option.some.inj hmem).symm
  generalize (if f.readbuf.mem.isSome then fun w => (none, w) else World.malloc env) w = r at hheap
  have hwindow := Readbuf.windowOk_open f.readbuf r.1
  refine Ends.bind (Ends.step (Ends.ite (fun _ => Ends.bind (Ends.step (Ends.pure ?_))) fun _ => Ends.bind (Ends.step ?_)))
  · exact ⟨⟨hwindow, hf.state, fun _ => hheap⟩, rfl, rfl⟩
  cases (hdfsOpenFile (env.getRealPath path) (writing openMode) (hadoopConnect r.2).2).1 with
  | none => exact Ends.bind (Ends.step (Ends.pure ⟨⟨hwindow, hf.state, fun _ => hheap⟩, rfl, rfl⟩))
  | some h =>
    refine Ends.bind (Ends.step (Ends.ite (fun _ => Ends.bind (Ends.step (Ends.pure ?_))) fun _ => Ends.pure ?_))
    · exact ⟨⟨hwindow, nofun, nofun⟩, rfl, rfl⟩
    · exact ⟨⟨hwindow, nofun, nofun⟩, rfl, rfl⟩

theorem Sound.read (hf : f.Sound) (c : Readbuf.ReadCall) (w : World) :
    Ends (f.read c.offset.toInt c.blen.toNat) w fun r _ =>
      r.2.Sound ∧ r.2.oid = f.oid ∧ r.2.m_nextoff = f.m_nextoff := by
  unfold File.read
  have hwindow := Readbuf.read_safe (fun pos len w h => hdfsPread_neg f.fh h len w) f.readbuf c w hf.window
  have hmem : Ends (f.readbuf.read (hdfsPread f.fh) c.offset.toInt c.blen.toNat) w fun r _ =>
      f.fh = none → r.2.mem = f.readbuf.mem := by
    intro n r w' hrun hfh
    rw [hfh] at hrun
    exact Readbuf.read_mem hdfsPread_none f.readbuf _ _ w n r w' hrun
  refine Ends.bind ((hwindow.and hmem).mono ?_)
  rintro ⟨out, rb⟩ w' ⟨⟨hwindow', -⟩, hmem'⟩
  refine Ends.bind (Ends.step (Ends.pure ⟨⟨hwindow', hf.state, fun hfh => ?_⟩, rfl, rfl⟩))
  dsimp only at hfh ⊢
  rw [hmem' hfh]
  exact hf.mem hfh

theorem Sound.write (hf : f.Sound) (buff : Bytes) (offset : ℤ) (w : World) :
    Ends (f.write buff offset) w fun r _ => r.2.Sound ∧ r.2.oid = f.oid := by
  unfold File.write
  refine Ends.ite (fun _ => Ends.bind (Ends.step (Ends.pure ⟨hf, rfl⟩))) fun _ => Ends.bind (Ends.step (Ends.pure ?_))
  refine ⟨⟨hf.window, fun hfh => ?_, hf.mem⟩, rfl⟩
  dsimp only
  rw [hf.state hfh, Option.map_none]

theorem Sound.io (hf : f.Sound) (c : IoCall) (w : World) :
    Ends (f.io c) w fun r _ => r.2.Sound ∧ r.2.oid = f.oid := by
  cases c with
  | read c =>
    refine Ends.bind ((hf.read c w).mono ?_)
    rintro ⟨out, f'⟩ w' ⟨hf', hoid, -⟩
    exact Ends.pure ⟨hf', hoid⟩
  | write buff offset => exact Ends.bind ((hf.write buff offset w).mono fun r w' h => Ends.pure h)

theorem Sound.closed (hf : f.Sound) : f.closed.Sound :=
  ⟨Readbuf.windowOk_free hf.window, fun _ => rfl, fun _ mem hmem => by
    rw [File.closed, Readbuf.free_mem] at hmem
    cases hmem⟩

/-- `Close` leaves the same object behind whatever happens. -/
theorem close_closed (f : File env) (w : World) : Ends f.close w fun r _ => r.2 = f.closed := by
  refine Ends.fix (Ends.bind (Ends.step (Ends.bind (Ends.step ?_))))
  cases f.m_state with
  | none => exact Ends.pure rfl
  | some state =>
    refine Ends.ite (fun _ => Ends.bind (Ends.step (Ends.bind fun n r w' _ => ?_))) fun _ => Ends.pure rfl
    exact Ends.pure rfl

theorem Sound.perform (hf : f.Sound) (c : FileCall) (w : World) :
    Ends (f.perform c) w fun r _ => r.2.Sound ∧ r.2.oid = f.oid := by
  cases c with
  | openFile path openMode =>
    refine Ends.bind ((hf.openFile path openMode w).mono ?_)
    rintro ⟨rc, f'⟩ w' ⟨hf', hoid, -⟩
    exact Ends.pure ⟨hf', hoid⟩
  | io c => exact hf.io c w
  | close =>
    refine Ends.bind ((f.close_closed w).mono ?_)
    rintro ⟨ret, f'⟩ w' rfl
    exact Ends.pure ⟨hf.closed, rfl⟩

theorem Sound.observe (hf : f.Sound) (c : FileCall) (w : World) :
    Ends (f.observe c) w fun r _ => r.2.Sound ∧ r.2.oid = f.oid := by
  refine Ends.bind (Ends.step (Ends.bind ((hf.perform c w).mono ?_)))
  rintro ⟨⟨ret, data⟩, f'⟩ w' h
  exact Ends.bind (Ends.step (Ends.pure h))

/-- **The invariant of a history.** -/
theorem Sound.history (hf : f.Sound) (cs : List FileCall) (w : World) :
    Ends (history cs f) w fun r _ => r.2.Sound ∧ r.2.oid = f.oid := by
  induction cs generalizing f w with
  | nil => exact Ends.pure ⟨hf, rfl⟩
  | cons c cs ih =>
    refine Ends.bind ((hf.observe c w).mono ?_)
    rintro ⟨seen, f'⟩ w' ⟨hf', hoid⟩
    refine Ends.bind ((ih hf' w').mono ?_)
    rintro ⟨rest, f''⟩ w'' ⟨hf'', hoid'⟩
    exact Ends.pure ⟨hf'', hoid'.trans hoid⟩

/-! ### Calls that return -/

theorem Sound.read_gives (hf : f.Sound) (c : Readbuf.ReadCall) (w : World) :
    Gives (f.read c.offset.toInt c.blen.toNat) w fun _ _ => True := by
  refine Gives.bind ((Readbuf.read_gives (hdfsPread_counted f.fh) f.readbuf _ _ w fun _ _ => ?_).mono fun r w' _ => ?_)
  · exact Readbuf.serve_nbytes hf.window _ _
  · exact Gives.bind (Gives.step (Gives.pure trivial))

theorem write_gives (f : File env) (buff : Bytes) (offset : ℤ) (w : World) :
    Gives (f.write buff offset) w fun _ _ => True := by
  unfold File.write
  refine Gives.ite (fun _ => Gives.bind (Gives.step (Gives.pure trivial))) fun _ => ?_
  exact Gives.bind (Gives.step (Gives.pure trivial))

theorem Sound.io_gives (hf : f.Sound) (c : IoCall) (w : World) : Gives (f.io c) w fun _ _ => True := by
  cases c with
  | read c => exact Gives.bind ((hf.read_gives c w).mono fun r w' _ => Gives.pure trivial)
  | write buff offset => exact Gives.bind ((f.write_gives buff offset w).mono fun r w' _ => Gives.pure trivial)

theorem Sound.observe_io (hf : f.Sound) (c : IoCall) (w : World) :
    Gives (f.observe (.io c)) w fun r _ => r.2.Sound := by
  have hreturns : Gives (f.observe (.io c)) w fun _ _ => True := by
    refine Gives.bind (Gives.step (Gives.bind ((hf.io_gives c w).mono ?_)))
    rintro ⟨⟨ret, data⟩, f'⟩ w' -
    exact Gives.bind (Gives.step (Gives.pure trivial))
  exact (hreturns.and_ends (hf.observe (.io c) w)).mono fun r w' h => h.2.1

theorem Sound.ios_gives (hf : f.Sound) (cs : List IoCall) (w : World) :
    Gives (File.history (cs.map .io) f) w fun _ _ => True := by
  induction cs generalizing f w with
  | nil => exact Gives.pure trivial
  | cons c cs ih =>
    refine Gives.bind ((hf.observe_io c w).mono ?_)
    rintro ⟨seen, f'⟩ w' hf'
    exact Gives.bind ((ih hf' w').mono fun r w'' _ => Gives.pure trivial)

end Sound

end File

end XrdHdfs
