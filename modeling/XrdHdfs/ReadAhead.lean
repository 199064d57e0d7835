import XrdHdfs.Readbuf
import XrdHdfs.Lib.Slice

/-!
# Sequences of reads through the read-ahead buffer

A run is a sequence of `XrdHdfsFile::Read` calls on one buffer.  `ends_reads` lifts what every call keeps to
whole runs, and `refillTurn_cases` says once what a turn of the loop that fills the buffer can do.
-/

namespace XrdHdfs.Readbuf

open Lib

/-- The arguments of one `Read`: any `off_t` and any `size_t`. -/
structure ReadCall where
  offset : Int64
  blen : UInt64

/-- One `Read` of a run: the buffer before it, its arguments and its result. -/
structure ReadStep where
  rb : Readbuf
  call : ReadCall
  out : ReadOut

section Run

variable {σ : Type} (hdfsPread : ℤ → ℤ → σ → PreadAnswer × σ)

/-- A sequence of `Read` calls on one buffer. -/
def reads : Readbuf → List ReadCall → Prog σ (List ReadStep × Readbuf)
  | rb, [] => pure ([], rb)
  | rb, c :: cs => do
    let (out, rb') ← rb.read hdfsPread c.offset.toInt c.blen.toNat
    let (steps, rb'') ← reads rb' cs
    pure (⟨rb, c, out⟩ :: steps, rb'')

/-- **The step rule of a run.**  What every `Read` keeps, and what it says about its own step, hold of a
whole run. -/
theorem ends_reads {I : Readbuf → σ → Prop} {P : ReadCall → Prop} {R : ReadStep → Prop}
    (hstep : ∀ rb (c : ReadCall) s, I rb s → P c → Ends (rb.read hdfsPread c.offset.toInt c.blen.toNat) s
      fun r s' => I r.2 s' ∧ R ⟨rb, c, r.1⟩) :
    ∀ (cs : List ReadCall) (rb : Readbuf) (s : σ), I rb s → (∀ c ∈ cs, P c) →
      Ends (reads hdfsPread rb cs) s fun r s' => I r.2 s' ∧ ∀ st ∈ r.1, R st := by
  intro cs
  induction cs with
  | nil =>
    intro rb s hI _
    exact Ends.pure ⟨hI, by simp⟩
  | cons c cs ih =>
    intro rb s hI hP
    refine Ends.bind ((hstep rb c s hI (hP c (by simp))).mono ?_)
    rintro ⟨out, rb'⟩ s' ⟨hI', hR⟩
    refine Ends.bind ((ih rb' s' hI' fun d hd => hP d (List.mem_cons_of_mem _ hd)).mono ?_)
    rintro ⟨steps, rb''⟩ s'' ⟨hI'', hRs⟩
    refine Ends.pure ⟨hI'', ?_⟩
    intro st hst
    rcases List.mem_cons.1 hst with rfl | hst
    · exact hR
    · exact hRs st hst

/-- Everything one turn of the filling loop can do. -/
theorem refillTurn_cases (offset : ℤ) (rb : Readbuf) (acc : List Access) (s : σ)
    {Q : (Readbuf × List Access) ⊕ (Option ℤ × Readbuf × List Access) → σ → Prop}
    (hfull : rb.size ≤ rb.len → Q (.inr (none, rb, acc)) s)
    (hturn : rb.len < rb.size → ∀ pos want a s', pos = s64 (offset + rb.len) → want = s32 (rb.size - rb.len) →
      hdfsPread pos want s = (a, s') →
      (a.n < 0 → a.errno = EINTR → Q (.inl (rb, acc ++ [.pread pos want a.n])) s') ∧
      (¬ (a.n < 0 ∧ a.errno = EINTR) → a.n < 0 ∨ (a.errno ≠ 0 ∧ a.n = 0) →
        Q (.inr (some a.errno, rb, acc ++ [.pread pos want a.n])) s') ∧
      (a.errno = 0 → a.n = 0 → Q (.inr (none, rb, acc ++ [.pread pos want a.n])) s') ∧
      (0 < a.n → Q (.inl (rb.store a.data,
        acc ++ [.pread pos want a.n] ++ [.fill rb.len a.data.length])) s')) :
    Ends (refillTurn hdfsPread offset (rb, acc)) s Q := by
  unfold refillTurn
  refine Ends.ite (fun hlt => ?_) (fun hge => Ends.pure (hfull (by omega)))
  obtain ⟨hintr, herr, hend, hgot⟩ := hturn hlt _ _ _ _ rfl rfl rfl
  refine Ends.bind (Ends.step ?_)
  refine Ends.ite (fun h => Ends.pure (hintr h.1 h.2)) (fun hni => ?_)
  refine Ends.ite (fun h => Ends.pure (herr hni h)) (fun hne => ?_)
  refine Ends.ite (fun h => Ends.pure (hend ?_ h)) (fun hn => Ends.pure (hgot (by omega)))
  exact not_not.1 fun he => hne (Or.inr ⟨he, h⟩)

/-- A turn by itself always returns. -/
theorem refillTurn_gives (offset : ℤ) (b : Readbuf × List Access) (s : σ) :
    Gives (refillTurn hdfsPread offset b) s fun _ _ => True := by
  unfold refillTurn
  refine Gives.ite (fun _ => Gives.bind (Gives.step ?_)) fun _ => Gives.pure trivial
  exact Gives.ite (fun _ => Gives.pure trivial) fun _ => Gives.ite (fun _ => Gives.pure trivial) fun _ =>
    Gives.ite (fun _ => Gives.pure trivial) fun _ => Gives.pure trivial

end Run

/-! ### What the fields say -/

@[simp] theorem store_offset (rb : Readbuf) (d : Bytes) : (rb.store d).offset = rb.offset := rfl
@[simp] theorem store_size (rb : Readbuf) (d : Bytes) : (rb.store d).size = rb.size := rfl
@[simp] theorem store_len (rb : Readbuf) (d : Bytes) : (rb.store d).len = rb.len + d.length := rfl
@[simp] theorem place_offset (rb : Readbuf) (o : ℤ) : (rb.place o).offset = o := rfl
@[simp] theorem place_size (rb : Readbuf) (o : ℤ) : (rb.place o).size = rb.size := rfl
@[simp] theorem place_len (rb : Readbuf) (o : ℤ) : (rb.place o).len = 0 := rfl

@[simp] theorem length_copyOut (rb : Readbuf) (start : ℤ) (n : ℕ) : (rb.copyOut start n).length = n := by
  simp [copyOut]

theorem size_le (rb : Readbuf) : rb.size ≤ 32768 := by
  rw [rb.alloc]
  split <;> omega

theorem openReadbuf_offset (rb : Readbuf) (malloc : Option (ℤ → UInt8)) : (rb.openReadbuf malloc).offset = 0 := by
  unfold openReadbuf
  split <;> rfl

theorem openReadbuf_len (rb : Readbuf) (malloc : Option (ℤ → UInt8)) : (rb.openReadbuf malloc).len = 0 := by
  unfold openReadbuf
  split <;> rfl

end XrdHdfs.Readbuf
