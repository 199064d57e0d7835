import XrdHdfs.Lib.Interleave
import XrdHdfs.Growing
import XrdHdfs.RecordIO

/-!
# A record that is being read

`GetFileContents` in steps: it opens the record, and then every step makes at most one `hdfsPread`, so that a `Read`
that fills the read-ahead buffer takes as many of them as its loop has turns; the last one closes the record.  Between
the steps others may write at the end of the file that is open (`Fetching.Holds.grow`).
-/

namespace XrdHdfs

open Lib World ChecksumManager

/-! ### `GetFileContents` in steps -/

variable {env : Env}

/-- Where `GetFileContents` stands. -/
inductive Fetching (env : Env) where
  | start
  | reading (fh : File env) (ss : Bytes) (offset : ℕ)
  /-- in a `Read`, before a turn of its loop -/
  | filling (fh : File env) (ss : Bytes) (offset : ℕ) (sv : Readbuf.Served) (acc : List Access)
  | read (retval : ℤ) (ss : Bytes) (fh : File env)
  | returned (rc : ℤ) (text : Bytes)

namespace Fetching

/-- A `Read` has returned. -/
def next (fh : File env) (ss : Bytes) (offset : ℕ) (out : ReadOut) : Fetching env :=
  if out.ret = -EINTR then reading fh ss offset
  else if 0 < out.ret then reading fh (ss ++ cstr (out.data.take out.ret.toNat)) (offset + out.ret.toNat)
  else read out.ret ss fh

def step (pfn : Bytes) : Fetching env → Prog World (Fetching env)
  | start =>
    if !env.g_hdfs_oss then pure (returned (-ENOMEM) [])
    else do
      match ← .step (newFile env) with
      | none => pure (returned (-ENOMEM) [])
      | some fh => do
        let (rc, fh) ← fh.openFile (getChecksumFilename pfn) O_RDONLY
        pure (if rc ≠ 0 then returned rc [] else reading fh [] 0)
  | reading fh ss offset => do
    match ← fh.readbuf.beginRead (hdfsPread fh.fh) offset 4095 with
    | .inl (out, rb) => do
      .step (File.readReport fh.oid out)
      pure (next { fh with readbuf := rb } ss offset out)
    | .inr (sv, rb, acc) => pure (filling { fh with readbuf := rb } ss offset sv acc)
  | filling fh ss offset sv acc => do
    match ← Readbuf.refillTurn (hdfsPread fh.fh) sv.offset (fh.readbuf, acc) with
    | .inl (rb, acc) => pure (filling { fh with readbuf := rb } ss offset sv acc)
    | .inr c => do
      let (out, rb) := Readbuf.endRead sv c
      .step (File.readReport fh.oid out)
      pure (next { fh with readbuf := rb } ss offset out)
  | read retval ss fh => do
    let (_, fh) ← fh.close
    fh.destroy
    pure (if retval < 0 then returned retval [] else returned 0 ss)
  | returned rc text => pure (returned rc text)

/-! ### They are those of `GetFileContents` -/

section Steps

variable {pfn : Bytes} {n : ℕ} {w w' : World}

/-- The loop that fills the buffer, turn by turn. -/
theorem reaches_refill {fh : File env} {ss : Bytes} {offset : ℕ} {sv : Readbuf.Served} {m : ℕ} {rb : Readbuf}
    {acc : List Access} {c : Option ℤ × Readbuf × List Access}
    (h : (Prog.turns (Readbuf.refillTurn (hdfsPread fh.fh) sv.offset) m (rb, acc)).run n w = some (c, w')) :
    Reaches (step pfn) n (filling { fh with readbuf := rb } ss offset sv acc, w)
      (next { fh with readbuf := (Readbuf.endRead sv c).2 } ss offset (Readbuf.endRead sv c).1,
        (File.readReport fh.oid (Readbuf.endRead sv c).1 w').2) := by
  induction m generalizing rb acc w with
  | zero => cases h
  | succ m ih =>
    obtain ⟨t, w₁, ht, hrest⟩ := Prog.run_bind_some.1 h
    rcases t with ⟨rb', acc'⟩ | c'
    · exact .head (Prog.run_bind_some.2 ⟨_, w₁, ht, rfl⟩) (ih hrest)
    · cases hrest
      exact .single (Prog.run_bind_some.2 ⟨_, w', ht, rfl⟩)

/-- A `Read`. -/
theorem reaches_read {fh fh' : File env} {ss : Bytes} {offset : ℕ} {out : ReadOut}
    (h : (fh.read offset 4095).run n w = some ((out, fh'), w')) :
    Reaches (step pfn) n (reading fh ss offset, w) (next fh' ss offset out, w') := by
  obtain ⟨⟨out', rb⟩, w₁, hread, h⟩ := Prog.run_bind_some.1 h
  obtain ⟨_, w₂, hreport, h⟩ := Prog.run_bind_some.1 h
  cases h
  cases hreport
  rcases Readbuf.run_read.1 hread with hbegin | ⟨sv, ⟨rb₀, acc⟩, w₃, c, hbegin, hloop, hend⟩
  · exact .single (Prog.run_bind_some.2 ⟨_, w₁, hbegin, rfl⟩)
  · have hrefill : Reaches (step pfn) n (filling { fh with readbuf := rb₀ } ss offset sv acc, w₃) _ := reaches_refill hloop
    rw [hend] at hrefill
    exact .head (Prog.run_bind_some.2 ⟨_, w₃, hbegin, rfl⟩) hrefill

/-- The loop over the record. -/
theorem reaches_turns {m : ℕ} {fh fh' : File env} {ss ss' : Bytes} {offset : ℕ} {retval : ℤ}
    (h : (Prog.turns contentsTurn m (fh, ss, offset)).run n w = some ((retval, ss', fh'), w')) :
    Reaches (step pfn) n (reading fh ss offset, w) (read retval ss' fh', w') := by
  induction m generalizing fh ss offset w with
  | zero => cases h
  | succ m ih =>
    obtain ⟨t, w₁, ht, hrest⟩ := Prog.run_bind_some.1 h
    obtain ⟨⟨out, fh₁⟩, w₂, hread, hturn⟩ := Prog.run_bind_some.1 ht
    refine Relation.ReflTransGen.trans (reaches_read hread) ?_
    unfold next
    dsimp only at hturn
    split_ifs at hturn ⊢ with hintr hpos
    · cases hturn
      exact ih hrest
    · cases hturn
      exact ih hrest
    · cases hturn
      cases hrest
      exact .refl

/-- **`GetFileContents` in steps.** What it returns, it returns after some of them. -/
theorem reaches_returned {rc : ℤ} {text : Bytes} (h : (getFileContents env pfn).run n w = some ((rc, text), w')) :
    Reaches (step pfn) n ((start : Fetching env), w) (returned rc text, w') := by
  unfold getFileContents at h
  by_cases hoss : !env.g_hdfs_oss
  · rw [if_pos hoss] at h
    cases h
    refine .single ?_
    unfold step
    rw [if_pos hoss]
    rfl
  rw [if_neg hoss] at h
  obtain ⟨o, w₁, hnew, h⟩ := Prog.run_bind_some.1 h
  have hstart : ∀ {p w₂}, (do
      match ← Prog.step (newFile env) with
      | none => pure (returned (-ENOMEM) [])
      | some fh => do
        let (rc, fh) ← fh.openFile (getChecksumFilename pfn) O_RDONLY
        pure (if rc ≠ 0 then returned rc [] else reading fh [] 0) : Prog World (Fetching env)).run n w = some (p, w₂) →
      (step pfn start).run n w = some (p, w₂) := by
    intro p w₂ hp
    unfold step
    rwa [if_neg hoss]
  cases o with
  | none =>
    cases h
    exact .single (hstart (Prog.run_bind_some.2 ⟨none, w', hnew, rfl⟩))
  | some fh =>
    obtain ⟨⟨rc', fh'⟩, w₂, hopen, h⟩ := Prog.run_bind_some.1 h
    have hopened := hstart (Prog.run_bind_some.2 ⟨some fh, w₁, hnew, Prog.run_bind_some.2 ⟨(rc', fh'), w₂, hopen, rfl⟩⟩)
    dsimp only at h hopened
    by_cases hrc : rc' ≠ 0
    · rw [if_pos hrc] at h hopened
      cases h
      exact .single hopened
    · rw [if_neg hrc] at h hopened
      obtain ⟨⟨retval, result, fh₃⟩, w₃, hloop, h⟩ := Prog.run_bind_some.1 h
      obtain ⟨⟨_, fh₄⟩, w₄, hclose, h⟩ := Prog.run_bind_some.1 h
      obtain ⟨_, w₅, hdestroy, h⟩ := Prog.run_bind_some.1 h
      have hlast : (step pfn (read retval result fh₃)).run n w₃ =
          some (if retval < 0 then returned retval [] else returned 0 result, w₅) :=
        Prog.run_bind_some.2 ⟨_, w₄, hclose, Prog.run_bind_some.2 ⟨_, w₅, hdestroy, rfl⟩⟩
      refine Relation.ReflTransGen.head hopened (Relation.ReflTransGen.tail (reaches_turns hloop) (hlast.trans ?_))
      dsimp only at h
      split_ifs at h ⊢ <;> cases h <;> rfl

end Steps

/-! ### A reader of a file that grows -/

/-- The text is that of a part of `F` from the start, which has at least what `first` has. -/
def MadeOf (first F text : Bytes) : Prop := ∃ G, IsText G text ∧ first <+: G ∧ G <+: F

/-- What was read is the text of the file up to the offset, and the buffer holds a window of the file. -/
structure Reads (n : ℕ) (F : Bytes) (fh : File env) (ss : Bytes) (offset : ℕ) : Prop where
  handle : fh.fh = some ⟨n, false⟩
  state : fh.m_state = none
  buffer : fh.readbuf.BufferHolds F
  offset_le : offset ≤ F.length
  text : IsText (F.take offset) ss

/-- **What holds of a reader** of the inode `n`, which has the content `F`, and had `first` when it was opened. -/
def Holds (n : ℕ) (first F : Bytes) : Fetching env → Prop
  | start => False
  | reading fh ss offset => Reads n F fh ss offset
  | filling fh ss offset sv _ => Reads n F fh ss offset ∧ 4095 ≤ fh.readbuf.size ∧ fh.readbuf.offset = sv.offset ∧
      Readbuf.Serving F offset 4095 sv
  | read retval ss fh => fh.m_state = none ∧ retval ≤ 0 ∧ (retval = 0 → MadeOf first F ss)
  | returned rc text => rc = 0 → MadeOf first F text

section Growing

variable {n : ℕ} {first F F' : Bytes}

theorem MadeOf.grow {text : Bytes} (h : MadeOf first F text) (hF : F <+: F') : MadeOf first F' text := by
  obtain ⟨G, htext, hfirst, hG⟩ := h
  exact ⟨G, htext, hfirst, hG.trans hF⟩

theorem Reads.grow {fh : File env} {ss : Bytes} {offset : ℕ} (h : Reads n F fh ss offset) (hF : F <+: F') :
    Reads n F' fh ss offset := by
  obtain ⟨hfh, hst, hb, hle, htext⟩ := h
  refine ⟨hfh, hst, hb.grow hF, hle.trans hF.length_le, ?_⟩
  obtain ⟨z, rfl⟩ := hF
  rwa [List.take_append_of_le_length hle]

/-- **Others may write at the end of the file.** -/
theorem Holds.grow {c : Fetching env} (h : c.Holds n first F) (hF : F <+: F') : c.Holds n first F' := by
  cases c with
  | start => exact h
  | reading fh ss offset => exact Reads.grow h hF
  | filling fh ss offset sv acc =>
    obtain ⟨hr, hsize, hoff, hsv⟩ := h
    exact ⟨hr.grow hF, hsize, hoff, hsv.grow hF⟩
  | read retval ss fh =>
    obtain ⟨hst, hle, hmade⟩ := h
    exact ⟨hst, hle, fun h0 => (hmade h0).grow hF⟩
  | returned rc text => exact fun h0 => (h h0).grow hF

end Growing

/-! ### Its steps -/

/-- After a `Read` that returned what the file has. -/
theorem next_holds {n size : ℕ} {first F : Bytes} {fh : File env} {ss : Bytes} {offset : ℕ} {out : ReadOut}
    (hok : Readbuf.ReadOk F size offset 4095 out) (h : Reads n F fh ss offset) (hfirst : first <+: F) :
    (next fh ss offset out).Holds n first F := by
  unfold next
  split_ifs with hintr hpos
  · exact h
  · obtain ⟨m, hm, hdata, -, hle, -⟩ := hok.next hpos.le (by norm_num) (by norm_num) h.offset_le
    have htoNat : out.ret.toNat = m := by omega
    rw [htoNat, hdata]
    obtain ⟨bs, hbs, htext⟩ := h.text
    refine ⟨h.handle, h.state, h.buffer, hle, bs ++ [slice F offset m], ?_, by simp [htext]⟩
    rw [List.flatten_append, hbs, List.flatten_singleton]
    exact List.take_add.symm
  · refine ⟨h.state, by omega, fun h0 => ⟨F, ?_, hfirst, List.prefix_rfl⟩⟩
    obtain ⟨m, hm, -, -, -, hend, -⟩ := hok.next (by omega) (by norm_num) (by norm_num) h.offset_le
    have htext := h.text
    rwa [hend (by omega), List.take_length] at htext

/-- **One step.** -/
theorem Holds.step {pfn : Bytes} {n : ℕ} {first : Bytes} {w : World} {c : Fetching env}
    (h : c.Holds n first (w.fs.data n).bytes) (hfirst : first <+: (w.fs.data n).bytes) :
    Gives (c.step pfn) w fun c' w' => Unchanged w w' ∧ c'.Holds n first (w.fs.data n).bytes := by
  have hlt := (w.fs.data n).length_lt
  have hserves : ∀ fh : File env, fh.fh = some ⟨n, false⟩ →
      Readbuf.Serves (Unchanged w) (w.fs.data n).bytes (hdfsPread fh.fh) := by
    intro fh hfh
    rw [hfh]
    exact hdfsPread_serves ⟨n, false⟩ w
  cases c with
  | start => exact absurd h id
  | reading fh ss offset =>
    have hr : Reads n (w.fs.data n).bytes fh ss offset := h
    have hle := hr.offset_le
    refine Gives.bind ((Readbuf.beginRead_grows (hserves fh hr.handle).growing fh.readbuf w (.refl w) hr.buffer
      (Int.natCast_nonneg offset) (by omega)).mono ?_)
    rintro _ w₁ ⟨hu, -, ⟨out, rb, rfl, hb, -, hok⟩ | ⟨rfl, -, hsize, hmiss⟩⟩
    · have hreport := File.readReport_unchanged fh.oid out w₁
      refine Gives.bind (Gives.step (Gives.pure ⟨hu.trans hreport, next_holds hok ?_ hfirst⟩))
      exact ⟨hr.handle, hr.state, hb, hle, hr.text⟩
    · obtain ⟨hsv, hsz, hplace⟩ := Readbuf.serving_serve hr.buffer (by omega) hsize hmiss
      refine Gives.pure ⟨hu, ⟨hr.handle, hr.state, hplace, hle, hr.text⟩, ?_, rfl, hsv⟩
      rwa [Readbuf.place_size, hsz]
  | filling fh ss offset sv acc =>
    obtain ⟨hr, hsize, hoff, hsv⟩ := h
    have hrefilling : Readbuf.Refilling (Unchanged w) (w.fs.data n).bytes sv.offset fh.readbuf.size (fh.readbuf, acc) w :=
      ⟨hr.buffer, hoff, rfl, .refl w⟩
    refine Gives.bind (((Readbuf.refillTurn_gives _ _ _ w).and_ends
      (Readbuf.refillTurn_holds (hserves fh hr.handle) _ w hrefilling)).mono ?_)
    rintro (⟨rb, acc'⟩ | c) w₁ ⟨-, hturn⟩
    · obtain ⟨hb, ho, hs, hu⟩ := hturn
      exact Gives.pure ⟨hu, ⟨hr.handle, hr.state, hb, hr.offset_le, hr.text⟩, by dsimp only at hs ⊢; omega, ho, hsv⟩
    · have hok := Readbuf.readOk_endRead hsv hsize hturn
      obtain ⟨⟨hb, -, -, hu⟩, -⟩ := hturn
      have hreport := File.readReport_unchanged fh.oid (Readbuf.endRead sv c).1 w₁
      refine Gives.bind (Gives.step (Gives.pure ⟨hu.trans hreport, next_holds hok ?_ hfirst⟩))
      exact ⟨hr.handle, hr.state, Readbuf.endRead_holds sv hb, hr.offset_le, hr.text⟩
  | read retval ss fh =>
    obtain ⟨hst, hle, hmade⟩ := h
    refine Gives.bind ((File.close_spec fh hst w).mono ?_)
    rintro ⟨_, fh'⟩ w₁ ⟨hu₁, -, -⟩
    refine Gives.bind ((File.destroy_spec fh' w₁).mono ?_)
    intro _ w₂ hu₂
    refine Gives.pure ⟨hu₁.trans hu₂, ?_⟩
    split_ifs with hneg
    · exact fun h0 => absurd h0 hneg.ne
    · exact fun _ => hmade (by omega)
  | returned rc text => exact Gives.pure ⟨.refl w, h⟩

/-- **The first step** opens the file that is there then. -/
theorem start_step (pfn : Bytes) (w : World) :
    Gives ((start : Fetching env).step pfn) w fun c w' => Unchanged w w' ∧ ((∃ rc, c = returned rc [] ∧ rc ≠ 0) ∨
      ∃ n, w.fs.tree.ino (env.recordFile pfn) = some n ∧ c.Holds n (w.fs.data n).bytes (w.fs.data n).bytes) := by
  unfold step
  refine Gives.ite (fun _ => Gives.pure ⟨.refl w, Or.inl ⟨_, rfl, by norm_num⟩⟩) fun _ => ?_
  obtain ⟨hu₁, hnew, -⟩ := @newFile_spec env w
  refine Gives.bind (Gives.step ?_)
  generalize newFile env w = r at hu₁ hnew
  obtain ⟨o, w₁⟩ := r
  dsimp only at hu₁ hnew ⊢
  cases o with
  | none => exact Gives.pure ⟨hu₁, Or.inl ⟨_, rfl, by norm_num⟩⟩
  | some fh =>
  obtain rfl := hnew fh rfl
  have hopen := File.openFile_spec ({ oid := w.objects } : File env) rfl (getChecksumFilename pfn) O_RDONLY w₁
  rw [hu₁.fs] at hopen
  refine Gives.bind (hopen.mono ?_)
  rintro ⟨rc, fh⟩ w₂ (⟨hrc, hu₂, -⟩ | ⟨rfl, hl₂, h, hopened, hat, -⟩)
  · dsimp only at hrc ⊢
    rw [if_pos hrc.ne]
    exact Gives.pure ⟨hu₁.trans hu₂, Or.inl ⟨rc, rfl, hrc.ne⟩⟩
  obtain ⟨hino, hfs⟩ : w.fs.tree.ino (env.recordFile pfn) = some h.ino ∧ w₂.fs = w.fs := hat
  have hkind : h.writing = false := hopened.kind
  have hst : fh.m_state = none := hopened.state
  obtain ⟨mem, hmem⟩ := hopened.readbuf
  dsimp only at hst hmem ⊢
  rw [if_neg (not_not.2 rfl)]
  refine Gives.pure ⟨⟨hfs, hu₁.later.trans hl₂⟩, Or.inr ⟨h.ino, hino, ?_, hst, ?_, Nat.zero_le _, [], ?_, rfl⟩⟩
  · rw [hopened.fh, ← hkind]
  · rw [hmem]
    exact Readbuf.bufferHolds_open _ mem
  · rw [List.take_zero]
    rfl

end Fetching

end XrdHdfs
