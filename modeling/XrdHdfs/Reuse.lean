import XrdHdfs.History
import XrdHdfs.Reference
import XrdHdfs.Lib.InStep

/-!
# File objects that are used again

A file object that was opened and closed before should be like a new one.  `Open` and `Close` set everything back but
`m_nextoff`, which stays what the sessions before left it: the first `Write` of the next session is expected there, and
not at 0.  `reuse_iff` says when this does not show.
-/

namespace XrdHdfs

open Lib World

variable {env : Env}

/-- A session: `Open`, calls of `Read` and `Write`, and, if it comes to that, `Close`. -/
def FileCall.session (path : Bytes) (openMode : ℕ) (calls : List IoCall) (closing : Bool) : List FileCall :=
  .openFile path openMode :: (calls.map .io ++ if closing then [.close] else [])

/-- The same is seen of the calls whichever of the two objects they are made on, and with one of them they return if and
only if they do with the other. -/
def File.Alike (f g : File env) (cs : List FileCall) (w : World) : Prop :=
  ∀ seen, (Gives (File.history cs f) w fun r _ => r.1 = seen) ↔ Gives (File.history cs g) w fun r _ => r.1 = seen

/-- **The object is like a new one** in a session, before the `Close` and with it.  The new object has the same number,
so that the two can only be told apart by what they do. -/
def File.LikeNew (f : File env) (path : Bytes) (openMode : ℕ) (calls : List IoCall) (w : World) : Prop :=
  ∀ closing, f.Alike { oid := f.oid } (FileCall.session path openMode calls closing) w

/-- A `Write` at the offset 0 or `k`. -/
def IoCall.At (k : ℤ) : IoCall → Prop
  | .read _ => False
  | .write _ offset => offset = 0 ∨ offset = k

/-! ### What is carried over -/

/-- What the `Write` calls of a history returned as written, in all. -/
def written : List FileCall → List Seen → ℤ
  | .io (.write _ _) :: cs, s :: seen => max s.ret 0 + written cs seen
  | _ :: cs, _ :: seen => written cs seen
  | _, _ => 0

namespace File

/-- **`m_nextoff`** counts what was ever written through the object. -/
theorem Sound.history_nextoff {f : File env} (hf : f.Sound) (cs : List FileCall) (w : World) :
    Ends (File.history cs f) w fun r _ => r.2.m_nextoff = f.m_nextoff + written cs r.1 := by
  induction cs generalizing f w with
  | nil => exact Ends.pure (by simp [written])
  | cons c cs ih =>
    have hstep : Ends (f.perform c) w fun r _ => r.2.m_nextoff = f.m_nextoff + written [c] [⟨r.1.1, r.1.2, []⟩] := by
      cases c with
      | openFile path openMode =>
        refine Ends.bind ((hf.openFile path openMode w).mono fun r w' h => Ends.pure ?_)
        simpa [written] using h.2.2
      | close =>
        refine Ends.bind ((f.close_closed w).mono ?_)
        rintro ⟨ret, f'⟩ w' rfl
        exact Ends.pure (by simp [written, File.closed])
      | io c =>
        cases c with
        | read c =>
          refine Ends.bind ((hf.read c w).mono fun r w' h => Ends.pure ?_)
          simpa [written] using h.2.2
        | write buff offset =>
          refine Ends.bind (Ends.ite (fun _ => Ends.bind (Ends.step (Ends.pure (Ends.pure ?_)))) fun _ => ?_)
          · have hneg := errorCode_neg (.file f.oid) (.fixed ENOTSUP) w
            simp only [written]
            omega
          · refine Ends.bind (Ends.step (Ends.pure (Ends.pure ?_)))
            simp only [written]
            split <;> omega
    refine Ends.bind (Ends.bind (Ends.step (Ends.bind (((hf.perform c w).and hstep).mono ?_))))
    rintro ⟨⟨ret, data⟩, f'⟩ w' ⟨⟨hf', -⟩, hnext⟩
    refine Ends.bind (Ends.step (Ends.pure (Ends.bind ((ih hf' w').mono ?_))))
    rintro ⟨rest, f''⟩ w'' hnext'
    refine Ends.pure ?_
    rw [hnext', hnext]
    rcases c with _ | (_ | _) | _ <;> simp only [written] <;> omega

/-! ### Two objects that differ in `m_nextoff` -/

/-- `g` is `f` with another `m_nextoff`: `k` for the one, 0 for the other. -/
structure Twin (k : ℤ) (f g : File env) : Prop where
  eq : g = { f with m_nextoff := 0 }
  nextoff : f.m_nextoff = k

section Twin

variable {k : ℤ} {f g : File env}

/-- A buffer that is there already serves as well as a new one. -/
theorem openReadbuf_eq {rb : Readbuf} {heap : ℤ → UInt8} (h : ∀ mem ∈ rb.mem, mem = heap) :
    rb.openReadbuf (if rb.mem.isSome then none else some heap) = ({} : Readbuf).openReadbuf (some heap) := by
  have hsize := rb.alloc
  unfold Readbuf.openReadbuf
  split
  · next m hm =>
    obtain rfl := h m hm
    rw [hm] at hsize
    simp [hsize]
  · next hm => simp [hm]

/-- **`Open`** makes a twin of a new object. -/
theorem Sound.twin_open (hf : f.Sound) (hfh : f.fh = none) (path : Bytes) (openMode : ℕ) {w : World}
    (hmalloc : w.script .malloc = []) :
    InStep (fun a b => a.1 = b.1 ∧ Twin f.m_nextoff a.2 b.2) (f.openFile path openMode)
      (({ oid := f.oid } : File env).openFile path openMode) w := by
  have hget : World.malloc env w = (some env.heap, w) := by
    unfold World.malloc World.take
    rw [hmalloc]
    rfl
  have hbuf := openReadbuf_eq (hf.mem hfh)
  have hst := hf.state hfh
  obtain ⟨oid, fh, fname, nextoff, rb, st⟩ := f
  dsimp only at hfh hst hbuf ⊢
  subst hfh hst
  have hclosed : ¬ (none : Option Handle).isSome = true := by simp
  unfold File.openFile
  rw [if_neg hclosed, if_neg hclosed]
  refine InStep.bind (R := fun mem mem' => rb.openReadbuf mem = ({} : Readbuf).openReadbuf mem') (fun _ => .some ?_) ?_
  · -- the buffer is allocated, or is there from an `Open` that failed
    by_cases hmem : rb.mem.isSome
    · rw [if_pos hmem] at hbuf
      rw [if_pos hmem]
      exact ⟨hbuf.trans (by rw [if_neg (by simp), hget]), by rw [if_neg (by simp), hget]⟩
    · rw [if_neg hmem] at hbuf
      rw [if_neg hmem, hget]
      exact ⟨hbuf.trans (by rw [if_neg (by simp), hget]), by rw [if_neg (by simp), hget]⟩
  intro mem mem' w₁ hbuf
  dsimp only
  rw [hbuf]
  refine InStep.step_bind (InStep.ite (fun _ => InStep.step_bind (InStep.pure ⟨rfl, rfl, rfl⟩)) fun _ => InStep.step_bind ?_)
  cases (hdfsOpenFile (env.getRealPath path) (writing openMode) (hadoopConnect w₁).2).1 with
  | none => exact InStep.step_bind (InStep.pure ⟨rfl, rfl, rfl⟩)
  | some h =>
    refine InStep.step_bind (InStep.ite (fun _ => InStep.step_bind (InStep.pure ⟨rfl, rfl, rfl⟩)) fun _ => ?_)
    exact InStep.pure ⟨rfl, rfl, rfl⟩
/-- A call that returns no bytes. -/
theorem coded_inStep {P : File env → File env → Prop} {x y : Prog World (ℤ × File env)} {w : World}
    (h : InStep (fun a b => a.1 = b.1 ∧ P a.2 b.2) x y w) :
    InStep (fun a b : (ℤ × Bytes) × File env => a.1 = b.1 ∧ P a.2 b.2) (do let (ret, f) ← x; pure ((ret, []), f))
      (do let (ret, f) ← y; pure ((ret, []), f)) w := by
  refine InStep.bind h ?_
  rintro ⟨ret, f'⟩ ⟨_, g'⟩ w' ⟨rfl, hP⟩
  exact InStep.pure ⟨rfl, hP⟩

theorem Twin.read (h : Twin k f g) (offset : ℤ) (blen : ℕ) (w : World) :
    InStep (fun a b => a.1 = b.1 ∧ Twin k a.2 b.2) (f.read offset blen) (g.read offset blen) w := by
  obtain ⟨rfl, rfl⟩ := h
  refine InStep.bind (InStep.common (R := Eq) _ fun _ _ _ _ => rfl) ?_
  rintro ⟨out, rb⟩ _ w₁ rfl
  refine InStep.step_bind ?_
  exact InStep.pure ⟨rfl, rfl, rfl⟩

/-- A `Write` is rejected by both. -/
theorem Twin.write (h : Twin k f g) {buff : Bytes} {offset : ℤ} (hc : ¬ (IoCall.write buff offset).At k) (w : World) :
    InStep (fun a b => a.1 = b.1 ∧ Twin k a.2 b.2) (f.write buff offset) (g.write buff offset) w := by
  obtain ⟨rfl, rfl⟩ := h
  obtain ⟨h0, hk⟩ := not_or.1 hc
  unfold File.write
  rw [if_pos hk, if_pos h0]
  exact InStep.step_bind (InStep.pure ⟨rfl, rfl, rfl⟩)

/-- A call that is no `Write` at 0 or `k` does the same on twins, and leaves twins. -/
theorem Twin.io (h : Twin k f g) {c : IoCall} (hc : ¬ c.At k) (w : World) :
    InStep (fun a b => a.1 = b.1 ∧ Twin k a.2 b.2) (f.io c) (g.io c) w := by
  cases c with
  | read c =>
    refine InStep.bind (h.read _ _ w) ?_
    rintro ⟨out, f'⟩ ⟨_, g'⟩ w₁ ⟨rfl, htwin⟩
    exact InStep.pure ⟨rfl, htwin⟩
  | write buff offset => exact coded_inStep (h.write hc w)

/-- **`Close`** does the same on twins: what it calls does not depend on `m_nextoff`. -/
theorem Twin.close (h : Twin k f g) (w : World) :
    InStep (fun a b => a.1 = b.1 ∧ Twin k a.2 b.2) f.close g.close w := by
  obtain ⟨rfl, rfl⟩ := h
  refine InStep.fix fun close => InStep.step_bind (InStep.step_bind ?_)
  cases f.m_state with
  | none => exact InStep.pure ⟨rfl, rfl, rfl⟩
  | some state =>
    refine InStep.ite (fun _ => InStep.step_bind ?_) fun _ => InStep.pure ⟨rfl, rfl, rfl⟩
    refine InStep.bind (InStep.common (R := fun _ _ => True) _ fun _ _ _ _ => trivial) ?_
    exact fun _ _ _ _ => InStep.pure ⟨rfl, rfl, rfl⟩

/-- What is seen of a call that does the same is the same. -/
theorem observe_inStep {c : FileCall} {P : File env → File env → Prop} {w : World}
    (h : InStep (fun a b => a.1 = b.1 ∧ P a.2 b.2) (f.perform c) (g.perform c) w) :
    InStep (fun a b => a.1 = b.1 ∧ P a.2 b.2) (f.observe c) (g.observe c) w := by
  refine InStep.step_bind (InStep.bind h ?_)
  rintro ⟨⟨ret, data⟩, f'⟩ ⟨_, g'⟩ w' ⟨rfl, hP⟩
  exact InStep.step_bind (InStep.pure ⟨rfl, hP⟩)

theorem Twin.observe_io (h : Twin k f g) {c : IoCall} (hc : ¬ c.At k) (w : World) :
    InStep (fun a b => a.1 = b.1 ∧ Twin k a.2 b.2) (f.observe (.io c)) (g.observe (.io c)) w :=
  observe_inStep (h.io hc w)

theorem Twin.observe_close (h : Twin k f g) (w : World) :
    InStep (fun a b => a.1 = b.1 ∧ Twin k a.2 b.2) (f.observe .close) (g.observe .close) w :=
  observe_inStep (coded_inStep (h.close w))

/-- **The rest of a session** does the same on twins. -/
theorem Twin.history (h : Twin k f g) {calls : List IoCall} (hc : k = 0 ∨ ∀ c ∈ calls, ¬ c.At k) (closing : Bool)
    (w : World) : InStep (fun a b => a.1 = b.1) (File.history (calls.map .io ++ if closing then [.close] else []) f)
      (File.history (calls.map .io ++ if closing then [.close] else []) g) w := by
  rcases hc with rfl | hc
  · -- the two are one object
    have hsame : g = f := by
      obtain ⟨rfl, h0⟩ := h
      rw [← h0]
    rw [hsame]
    exact InStep.common _ fun _ _ _ _ => rfl
  induction calls generalizing f g w with
  | nil =>
    cases closing with
    | false => exact InStep.pure rfl
    | true =>
      refine InStep.bind (h.observe_close w) ?_
      rintro ⟨seen, f'⟩ ⟨_, g'⟩ w' ⟨rfl, -⟩
      exact InStep.pure rfl
  | cons c calls ih =>
    obtain ⟨hc, hcalls⟩ := List.forall_mem_cons.1 hc
    refine InStep.bind (h.observe_io hc w) ?_
    rintro ⟨seen, f'⟩ ⟨_, g'⟩ w' ⟨rfl, htwin⟩
    refine InStep.bind (ih htwin w' hcalls) ?_
    rintro ⟨rest, f''⟩ ⟨_, g''⟩ w'' rfl
    exact InStep.pure rfl

/-! ### Where they differ -/

/-- `Write` calls `hdfsWrite` at the next offset only. -/
theorem observe_write (f : File env) (buff : Bytes) (offset : ℤ) (w : World) :
    Ends (f.observe (.io (.write buff offset))) w fun r _ => r.1.calls = [] ↔ offset ≠ f.m_nextoff := by
  refine Ends.bind (Ends.step (Ends.bind (Ends.bind (Ends.ite (fun hne => ?_) fun heq => ?_))))
  · refine Ends.bind (Ends.step (Ends.pure (Ends.pure (Ends.bind (Ends.step (Ends.pure (iff_of_true ?_ hne)))))))
    exact List.drop_length
  · refine Ends.bind (Ends.step (Ends.pure (Ends.pure (Ends.bind (Ends.step (Ends.pure (iff_of_false ?_ heq)))))))
    dsimp only
    rw [hdfsWrite_calls, List.drop_left]
    exact List.cons_ne_nil _ _

/-- What is seen after a call that was seen already. -/
theorem history_cons_iff {c : FileCall} {cs : List FileCall} {seen : Seen} {f' : File env} {n : ℕ} {w w' : World}
    (hrun : (f.observe c).run n w = some ((seen, f'), w')) (rest : List Seen) :
    (Gives (File.history (c :: cs) f) w fun r _ => r.1 = seen :: rest) ↔
      Gives (File.history cs f') w' fun r _ => r.1 = rest := by
  rw [File.history, Gives.bind_iff hrun]
  constructor
  · rintro ⟨m, r, w'', hr, hseen⟩
    obtain ⟨⟨rest', f''⟩, t, hrest, heq⟩ := Prog.run_bind_some.1 hr
    obtain ⟨rfl, rfl⟩ := Prod.mk.inj (Option.some.inj heq)
    exact ⟨m, _, _, hrest, (List.cons.inj hseen).2⟩
  · intro h
    refine Gives.bind (h.mono ?_)
    rintro ⟨rest', f''⟩ w'' rfl
    exact Gives.pure rfl

theorem Alike.tail {c : FileCall} {cs : List FileCall} {seen : Seen} {f' g' : File env} {n : ℕ} {w w' : World}
    (h : f.Alike g (c :: cs) w) (hf : (f.observe c).run n w = some ((seen, f'), w'))
    (hg : (g.observe c).run n w = some ((seen, g'), w')) : f'.Alike g' cs w' := by
  intro rest
  rw [← history_cons_iff hf, ← history_cons_iff hg]
  exact h (seen :: rest)

/-- **A `Write` at 0 or `k`** tells twins apart. -/
theorem Twin.not_alike (h : Twin k f g) (hk : k ≠ 0) (hf : f.Sound) {calls : List IoCall} (hc : ∃ c ∈ calls, c.At k)
    (w : World) : ¬ f.Alike g (calls.map .io) w := by
  intro halike
  induction calls generalizing f g w with
  | nil => simp at hc
  | cons c calls ih =>
    by_cases hat : c.At k
    · obtain ⟨n, ⟨seen, f'⟩, w', hrun, -⟩ := hf.ios_gives (c :: calls) w
      obtain ⟨m, ⟨seen', g'⟩, w'', hrun', hsame⟩ := (halike seen).1 ⟨n, _, _, hrun, rfl⟩
      dsimp only at hsame
      subst hsame
      cases c with
      | read c => exact hat
      | write buff offset =>
        obtain ⟨⟨s, f₁⟩, w₁, hs, hrest⟩ := Prog.run_bind_some.1 hrun
        obtain ⟨⟨t, g₁⟩, w₂, ht, hrest'⟩ := Prog.run_bind_some.1 hrun'
        obtain ⟨⟨rest, f₂⟩, w₃, -, heq⟩ := Prog.run_bind_some.1 hrest
        obtain ⟨⟨rest', g₂⟩, w₄, -, heq'⟩ := Prog.run_bind_some.1 hrest'
        have hseen := (Prod.mk.inj (Prod.mk.inj (Option.some.inj heq)).1).1
        have hseen' := (Prod.mk.inj (Prod.mk.inj (Option.some.inj heq')).1).1
        obtain rfl : s = t := (List.cons.inj (hseen.trans hseen'.symm)).1
        have hcalls := f.observe_write buff offset w _ _ _ hs
        have hcalls' := g.observe_write buff offset w _ _ _ ht
        obtain ⟨rfl, rfl⟩ := h
        dsimp only at hcalls hcalls'
        rcases hat with rfl | rfl
        · exact absurd rfl (hcalls'.1 (hcalls.2 hk.symm))
        · exact absurd rfl (hcalls.1 (hcalls'.2 hk))
    · have hmem : ∃ c ∈ calls, c.At k := by
        obtain ⟨c', hc', hat'⟩ := hc
        rcases List.mem_cons.1 hc' with rfl | hc'
        · exact absurd hat' hat
        · exact ⟨c', hc', hat'⟩
      obtain ⟨n, ⟨seen, f'⟩, w', hrun, hf'⟩ := hf.observe_io c w
      obtain ⟨⟨_, g'⟩, hrun', rfl, htwin⟩ := (h.observe_io hat w).of_left hrun
      exact ih htwin hf' hmem w' (halike.tail hrun hrun')

end Twin

/-- An `Open` that succeeds is of an object that is not open. -/
theorem fh_of_open {f : File env} {path : Bytes} {openMode : ℕ} {w : World}
    (h : Gives (f.openFile path openMode) w fun o _ => o.1 = 0) : f.fh = none := by
  by_contra hfh
  obtain ⟨n, o, w', hrun, h0⟩ := h
  have hbusy : f.openFile path openMode = pure (-EINVAL, f) := if_pos (Option.isSome_iff_ne_none.2 hfh)
  rw [hbusy] at hrun
  obtain ⟨rfl, -⟩ := Prod.mk.inj (Option.some.inj hrun)
  exact absurd h0 (show ¬ -EINVAL = 0 by decide)

/-- **When a reused object is like a new one.** For every history of an object, every session that starts with a
successful `Open` and every outcome of the calls in it, where the buffer can be allocated: if and only if nothing was
written through the object before, or no `Write` of the session is at offset 0 or where the object expects one. -/
theorem reuse_iff (oid : ℕ) (hist : List FileCall) (path : Bytes) (openMode : ℕ) (calls : List IoCall) (w₀ : World) :
    Ends (File.history hist ({ oid } : File env)) w₀ fun r w => w.script .malloc = [] →
      (Gives (r.2.openFile path openMode) w fun o _ => o.1 = 0) →
      (r.2.LikeNew path openMode calls w ↔ r.2.m_nextoff = 0 ∨ ∀ c ∈ calls, ¬ c.At r.2.m_nextoff) := by
  refine ((sound_new oid).history hist w₀).mono ?_
  rintro ⟨seen, f⟩ w ⟨hf, -⟩ hmalloc hopen
  have hopened : InStep (fun a b => a.1 = b.1 ∧ Twin f.m_nextoff a.2 b.2) (f.observe (.openFile path openMode))
      (({ oid := f.oid } : File env).observe (.openFile path openMode)) w :=
    observe_inStep (coded_inStep (hf.twin_open (fh_of_open hopen) path openMode hmalloc))
  constructor
  · intro hlike
    by_contra hno
    obtain ⟨hk, hno⟩ := not_or.1 hno
    have hc : ∃ c ∈ calls, c.At f.m_nextoff := by simpa using hno
    obtain ⟨n, o, w', hrun, -⟩ := hopen
    obtain ⟨m, ⟨s, f'⟩, w'', hs, -⟩ : Gives (f.observe (.openFile path openMode)) w fun _ _ => True :=
      Gives.bind (Gives.step (Gives.bind (Gives.bind
        ⟨n, o, w', hrun, Gives.pure (Gives.bind (Gives.step (Gives.pure trivial)))⟩)))
    obtain ⟨⟨_, g'⟩, ht, rfl, htwin⟩ := hopened.of_left hs
    have hf' := (hf.observe (.openFile path openMode) w m _ _ hs).1
    have halike := (hlike false).tail hs ht
    rw [if_neg (by simp), List.append_nil] at halike
    exact htwin.not_alike hk hf' hc w'' halike
  · intro hc closing seen'
    refine InStep.gives_iff (InStep.bind hopened ?_) seen'
    rintro ⟨s, f'⟩ ⟨_, g'⟩ w' ⟨rfl, htwin⟩
    refine InStep.bind (htwin.history hc closing w') ?_
    rintro ⟨rest, f''⟩ ⟨_, g''⟩ w'' rfl
    exact InStep.pure rfl

/-- A session that writes two bytes to `/a`. -/
def writeTwo : List FileCall := FileCall.session (str "/a") O_WRONLY [.write (str "ab") 0] true

/-- **The second session of an object**: where a new object writes two bytes, the reused one rejects the `Write`. -/
theorem second_session_rejects :
    ((do
      let (_, f) ← File.history writeTwo ({ oid := 0 } : File Reference.env)
      let (seen, _) ← File.history writeTwo f
      pure (f.m_nextoff, seen.map Seen.ret) : Prog World (ℤ × List ℤ)).run 9 { fs := .empty }).map (·.1) =
        some (2, [0, -1, 0]) ∧
    ((do
      let (_, f) ← File.history writeTwo ({ oid := 0 } : File Reference.env)
      let (seen, _) ← File.history writeTwo ({ oid := f.oid } : File Reference.env)
      pure (seen.map Seen.ret) : Prog World (List ℤ)).run 9 { fs := .empty }).map (·.1) = some [0, 2, 0] := by
  decide +kernel

end File

end XrdHdfs
