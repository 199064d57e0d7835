import XrdHdfs.Agreement
import XrdHdfs.Saving
import XrdHdfs.Verify
import XrdHdfs.Namespace

/-!
# Records that are fresh

Nothing takes a record away when its file changes: a record says what the file was when `Close` or `Calc` wrote it.  Here
are the operations of the plugin in any order, on any number of file objects.  An operation touches a path where it may
change what file is there or what that file holds (`Done.Touches`); a record that was written for what its file held stays
right until an operation touches the one or the other (`fresh_until_touched`).
-/

namespace XrdHdfs

open Lib World ChecksumState ChecksumManager

variable {env : Env}

/-! ### The operations -/

/-- The file objects that are open, by number. -/
abbrev Objects (env : Env) := ℕ → Option (File env)

inductive PluginOp where
  | openFile (h : ℕ) (path : Bytes) (openMode : ℕ)
  | write (h : ℕ) (buff : Bytes) (offset : ℤ)
  | close (h : ℕ)
  | calcDigest (pfn : Bytes) (cks : XrdCksData) (do_set : Bool)
  | operation (op : Operation)

namespace PluginOp

/-- The operation, and the file objects after it.  `Open` makes a new object, which is deleted when it fails; an object is
deleted after its `Close`. -/
def run (objects : Objects env) : PluginOp → Prog World (ℤ × Objects env)
  | openFile h path openMode =>
    match objects h with
    | some _ => pure (-EINVAL, objects)
    | none => do
      match ← .step (newFile env) with
      | none => pure (-ENOMEM, objects)
      | some f => do
        let (rc, f) ← f.openFile path openMode
        if rc ≠ 0 then do
          f.destroy
          pure (rc, objects)
        else pure (rc, Function.update objects h (some f))
  | write h buff offset =>
    match objects h with
    | none => pure (-EBADF, objects)
    | some f => do
      let (rc, f) ← f.write buff offset
      pure (rc, Function.update objects h (some f))
  | close h =>
    match objects h with
    | none => pure (-EBADF, objects)
    | some f => do
      let (rc, f) ← f.close
      f.destroy
      pure (rc, Function.update objects h none)
  | calcDigest pfn cks do_set => do
    let (rc, _) ← ChecksumManager.calcDigest env pfn cks do_set
    pure (rc, objects)
  | operation op => do
    let rc ← op.run env
    pure (rc, objects)

/-- The file object that an operation is on. -/
def object : PluginOp → Option ℕ
  | openFile h _ _ | write h _ _ | close h => some h
  | _ => none

end PluginOp

/-- An operation that was done: the objects and the world before it, what it returned, and what is there after it. -/
structure Done (env : Env) where
  op : PluginOp
  objects : Objects env
  w : World
  rc : ℤ
  objects' : Objects env
  w' : World

/-- Operations one after another. -/
def runAll : Objects env → List PluginOp → Prog World (List (Done env) × Objects env)
  | objects, [] => pure ([], objects)
  | objects, op :: ops => do
    let w ← .step fun w => (w, w)
    let (rc, objects') ← op.run objects
    let w' ← .step fun w => (w, w)
    let (done, objects'') ← runAll objects' ops
    pure (⟨op, objects, w, rc, objects', w'⟩ :: done, objects'')

/-! ### What an operation touches -/

/-- The paths at which an operation on the name space may put another file, or none. -/
def Operation.Touches (env : Env) (q : HPath) : Operation → Prop
  | chmod _ _ | mkdir _ _ _ => False
  | create path _ | truncate path _ | unlink path | remdir path => q = target env path
  | rename src dest => target env src <+: q ∨ target env dest <+: q

namespace Done

/-- **What an operation touches**: the path that it opens for writing, creates, truncates or removes; everything at or
below the two paths of a `Rename`; the path of the file that it writes to; and the record that it writes. -/
def Touches (x : Done env) (q : HPath) : Prop :=
  match x.op with
  | .openFile _ path openMode => writing openMode ∧ q = Operation.target env path
  | .write h _ _ => ∃ f ∈ x.objects h, ∃ fh ∈ f.fh, x.w.fs.tree.ino q = some fh.ino
  | .close h => ∃ f ∈ x.objects h, f.m_state ≠ none ∧ q = env.recordFile (f.fname.getD [])
  | .calcDigest pfn _ _ => q = env.recordFile pfn
  | .operation op => op.Touches env q

end Done

/-- The same file is at the path, with the same content. -/
structure Fs.Kept (fs : Fs) (q : HPath) (fs' : Fs) : Prop where
  ino : fs'.tree.ino q = fs.tree.ino q
  data : ∀ i, fs.tree.ino q = some i → fs'.data i = fs.data i

namespace Fs.Kept

variable {fs fs' fs'' : Fs} {q : HPath}

theorem of_eq (h : fs' = fs) : fs.Kept q fs' := by
  rw [h]
  exact ⟨rfl, fun _ _ => rfl⟩

theorem trans (h : fs.Kept q fs') (h' : fs'.Kept q fs'') : fs.Kept q fs'' := by
  refine ⟨h'.ino.trans h.ino, fun i hi => ?_⟩
  rw [h'.data i (by rw [h.ino, hi]), h.data i hi]

theorem view (h : fs.Kept q fs') : fs'.view q = fs.view q := Fs.view_congr h.ino h.data

end Fs.Kept

section Frame

variable {fs fs' : Fs} {p q : HPath} {t : Bytes} {i : ℕ}

theorem Fs.Put.kept (h : fs.Put p t fs') (hq : q ≠ p) : fs.Kept q fs' :=
  ⟨by rw [h.ino, if_neg hq], fun _ hi => h.data_of_ino hi⟩

theorem Fs.kept_of_delete (h : fs.delete p = some fs') (hq : q ≠ p) : fs.Kept q fs' := by
  obtain ⟨htree, hdata, -⟩ := delete_eq_some h
  refine ⟨?_, fun _ _ => by rw [hdata]⟩
  rw [htree, Tree.remove_ino, if_neg hq]

theorem Fs.kept_of_chmod {m : ℕ} (h : fs.chmod p m = some fs') : fs.Kept q fs' := by
  unfold Fs.chmod at h
  split_ifs at h with hp
  obtain rfl := Option.some.inj h
  exact ⟨Tree.chmod_ino m, fun _ _ => rfl⟩

theorem Fs.kept_of_mkdirs (h : fs.mkdirs p = some fs') : fs.Kept q fs' := by
  unfold Fs.mkdirs at h
  split_ifs at h with hp
  obtain rfl := Option.some.inj h
  exact ⟨Tree.mkdirs_ino, fun _ _ => rfl⟩

/-- What is neither below the old path nor below the new one stays. -/
theorem Fs.kept_of_rename {src dst : HPath} (h : fs.rename src dst = some fs') (hsrc : ¬ src <+: q) (hdst : ¬ dst <+: q) :
    fs.Kept q fs' := by
  have htarget : ¬ fs.renameTarget src dst <+: q := by
    unfold Fs.renameTarget
    split_ifs
    · exact fun hp => hdst ((List.prefix_append _ _).trans hp)
    · exact hdst
  unfold Fs.rename at h
  dsimp only at h
  split_ifs at h with hnone heq hren
  · exact .of_eq (Option.some.inj h).symm
  · obtain rfl := Option.some.inj h
    exact ⟨by rw [Tree.move_ino, if_neg htarget, if_neg hsrc], fun _ _ => rfl⟩

theorem Fs.kept_of_append {b : Bytes} (h : fs.append i b = some fs') (hq : fs.tree.ino q ≠ some i) : fs.Kept q fs' := by
  obtain ⟨htree, -, -, hframe⟩ := append_eq_some h
  refine ⟨by rw [htree], fun j hj => hframe j ?_⟩
  rintro rfl
  exact hq hj

end Frame

/-! ### Fresh records -/

/-- The path of the record of the file at `p`. -/
def recordAt (p : HPath) : HPath := str "cksums" :: p

/-- **The record of `p` is fresh**: it was written, as far as the writing went, for what the file at `p` holds. -/
def Fresh (Z : Digests) (p : HPath) (fs : Fs) : Prop :=
  ∃ D junk digests t, fs.view p = some D ∧ fs.view (recordAt p) = some t ∧ t <+: serialise (recordEntries Z junk D digests)

theorem Fresh.kept {Z : Digests} {p : HPath} {fs fs' : Fs} (h : Fresh Z p fs) (hp : fs.Kept p fs')
    (hrec : fs.Kept (recordAt p) fs') : Fresh Z p fs' := by
  obtain ⟨D, junk, digests, t, hD, ht, hprefix⟩ := h
  exact ⟨D, junk, digests, t, hp.view.trans hD, hrec.view.trans ht, hprefix⟩

/-- A record that was written for the content is fresh. -/
theorem Fresh.of_writtenAt {Z : Digests} {p : HPath} {D : Bytes} {junk : UInt32} {digests : ℕ} {w w' : World}
    (hD : w.fs.view p = some D) (hw : WrittenAt w (recordAt p) (recordEntries Z junk D digests) w')
    (hnew : w'.fs.tree.ino (recordAt p) ≠ w.fs.tree.ino (recordAt p)) : Fresh Z p w'.fs := by
  rcases hw.fs with hfs | ⟨t, ht, hput⟩
  · exact absurd (by rw [hfs]) hnew
  · have hne : p ≠ recordAt p := fun h => by simpa [recordAt] using congrArg List.length h
    exact ⟨D, junk, digests, t, (hput.view_of_ne hne).trans hD, hput.view, ht⟩

theorem WrittenAt.kept {p q : HPath} {values : ChecksumValues} {w w' : World} (h : WrittenAt w p values w') (hq : q ≠ p) :
    w.fs.Kept q w'.fs := by
  rcases h.fs with hfs | ⟨t, -, hput⟩
  · exact .of_eq hfs
  · exact hput.kept hq

/-! ### What each operation does -/

/-- **What an operation does**: it keeps what it does not touch, and the objects it is not on; an object that it opens for
writing starts with an empty file, and takes a buffer as HDFS takes it; and a record that it puts at its place is fresh,
where the object that is closed holds what its file holds. -/
structure Done.Ok (x : Done env) : Prop where
  kept : ∀ q, ¬ x.Touches q → x.w.fs.Kept q x.w'.fs
  others : ∀ h, x.op.object ≠ some h → x.objects' h = x.objects h
  opened : ∀ h path openMode, x.op = .openFile h path openMode → x.rc = 0 → writing openMode → inCksums path = false →
    ∃ f, x.objects' h = some f ∧ Uploading (resolve path) path [] f x.w'
  wrote : ∀ h buff offset, x.op = .write h buff offset → x.rc = buff.length → ∀ p fname D f, x.objects h = some f →
    Uploading p fname D f x.w → ∃ f', x.objects' h = some f' ∧ Uploading p fname (D ++ buff) f' x.w'
  rejected : ∀ h buff offset, x.op = .write h buff offset → ∀ f, x.objects h = some f → offset ≠ f.m_nextoff →
    x.objects' h = some f ∧ x.w'.fs = x.w.fs
  closed : ∀ h, x.op = .close h → ∀ path D f, x.objects h = some f → Uploading (resolve path) path D f x.w →
    x.w'.fs.tree.ino (recordPath path) ≠ x.w.fs.tree.ino (recordPath path) → Fresh env.Z (resolve path) x.w'.fs
  calculated : ∀ pfn cks do_set, x.op = .calcDigest pfn cks do_set →
    x.w'.fs.tree.ino (recordPath pfn) ≠ x.w.fs.tree.ino (recordPath pfn) → Fresh env.Z (resolve pfn) x.w'.fs

/-- An operation that does nothing. -/
theorem Done.Ok.refused {op : PluginOp} {objects : Objects env} {w w' : World} {rc : ℤ} (hrc : rc < 0) (hfs : w'.fs = w.fs) :
    Done.Ok ⟨op, objects, w, rc, objects, w'⟩ where
  kept _ _ := .of_eq hfs
  others _ _ := rfl
  opened _ _ _ _ h0 := absurd h0 hrc.ne
  wrote _ buff _ _ h0 := by
    dsimp only at h0
    omega
  rejected _ _ _ _ f hf _ := ⟨hf, hfs⟩
  closed _ _ _ _ _ _ _ hne := absurd (by rw [hfs]) hne
  calculated _ _ _ _ hne := absurd (by rw [hfs]) hne

theorem Operation.Did.kept {op : Operation} {fs fs' : Fs} {q : HPath} (h : op.Did env fs fs') (hq : ¬ op.Touches env q) :
    fs.Kept q fs' := by
  cases op with
  | chmod path mode => exact Fs.kept_of_chmod h
  | create path mode =>
    obtain ⟨i, fs₁, hc, hch⟩ := h
    exact ((Fs.Put.of_create hc).kept hq).trans (Fs.kept_of_chmod hch)
  | mkdir path mode mkpath =>
    rcases h with rfl | ⟨p, hp⟩
    · exact .of_eq rfl
    · exact Fs.kept_of_mkdirs hp
  | remdir path => exact Fs.kept_of_delete h hq
  | rename src dest => exact Fs.kept_of_rename h (fun hs => hq (Or.inl hs)) fun hd => hq (Or.inr hd)
  | truncate path newsize =>
    obtain ⟨i, hc⟩ := h
    exact (Fs.Put.of_create hc).kept hq
  | unlink path => exact Fs.kept_of_delete h hq

theorem operation_ok (objects : Objects env) (op : Operation) (w : World) :
    Gives ((PluginOp.operation op).run objects) w fun r w' => Done.Ok ⟨.operation op, objects, w, r.1, r.2, w'⟩ := by
  refine Gives.bind ((operation_spec op w).mono ?_)
  intro rc w' hspec
  have hkept : ∀ q, ¬ op.Touches env q → w.fs.Kept q w'.fs := by
    intro q hq
    rcases hspec with ⟨-, hdid⟩ | ⟨-, hfs, -⟩ | ⟨-, path, mode, i, rfl, -, hc⟩
    · exact hdid.kept hq
    · exact .of_eq hfs
    · exact (Fs.Put.of_create hc).kept hq
  refine Gives.pure ⟨hkept, fun _ _ => rfl, ?_, ?_, ?_, ?_, ?_⟩
  · rintro h path openMode ⟨⟩
  · rintro h buff offset ⟨⟩
  · rintro h buff offset ⟨⟩
  · rintro h ⟨⟩
  · rintro pfn cks do_set ⟨⟩

/-- What a `Write` keeps, on any object. -/
theorem File.write_kept (f : File env) (buff : Bytes) (offset : ℤ) (w : World) :
    Gives (f.write buff offset) w fun r w' => (∀ q, (∀ fh ∈ f.fh, w.fs.tree.ino q ≠ some fh.ino) → w.fs.Kept q w'.fs) ∧
      (offset ≠ f.m_nextoff → r.2 = f ∧ w'.fs = w.fs) := by
  unfold File.write
  refine Gives.ite (fun _ => Gives.bind (Gives.step (Gives.pure ⟨fun q _ => .of_eq rfl, fun _ => ⟨rfl, rfl⟩⟩))) fun heq => ?_
  refine Gives.bind (Gives.step (Gives.pure ⟨fun q hq => ?_, fun hne => absurd hne heq⟩))
  obtain ⟨-, ⟨h, n, hfh, -, -, -, -, happ, -⟩ | ⟨-, hfs, -⟩⟩ := hdfsWrite_spec f.fh buff w
  · exact Fs.kept_of_append happ (hq h hfh)
  · exact .of_eq hfs

theorem write_ok (objects : Objects env) (h : ℕ) (buff : Bytes) (offset : ℤ) (w : World) :
    Gives ((PluginOp.write h buff offset).run objects) w fun r w' =>
      Done.Ok ⟨.write h buff offset, objects, w, r.1, r.2, w'⟩ := by
  cases hf : objects h with
  | none =>
    simp only [PluginOp.run, hf]
    exact Gives.pure (Done.Ok.refused (show -EBADF < 0 by decide) rfl)
  | some f =>
    simp only [PluginOp.run, hf]
    -- an object that is writing a file goes on to do so
    have hup : Ends (f.write buff offset) w fun r w' => r.1 = buff.length →
        ∀ p fname D, Uploading p fname D f w → Uploading p fname (D ++ buff) r.2 w' :=
      fun n r w' hrun hret p fname D hup => (hup.write buff offset).ends n r w' hrun hret
    refine Gives.bind (((File.write_kept f buff offset w).and_ends hup).mono ?_)
    rintro ⟨rc, f'⟩ w' ⟨⟨hkept, hrej⟩, hup⟩
    refine Gives.pure ⟨fun q hq => hkept q fun fh hfh hino => hq ⟨f, hf, fh, hfh, hino⟩, fun k hk => ?_, ?_, ?_, ?_, ?_, ?_⟩
    · exact Function.update_of_ne (fun heq => hk (congrArg some heq.symm)) _ _
    · rintro k path openMode ⟨⟩
    · rintro k b o ⟨⟩ hrc p fname D f₀ hf₀ hup₀
      obtain rfl : f = f₀ := Option.some.inj (hf.symm.trans hf₀)
      exact ⟨f', Function.update_self _ _ _, hup hrc p fname D hup₀⟩
    · rintro k b o ⟨⟩ f₀ hf₀ hne
      obtain rfl : f = f₀ := Option.some.inj (hf.symm.trans hf₀)
      obtain ⟨rfl, hfs⟩ := hrej hne
      exact ⟨Function.update_self _ _ _, hfs⟩
    · rintro k ⟨⟩
    · rintro pfn cks do_set ⟨⟩

theorem openFile_ok (hN : env.the_N2N = none) (objects : Objects env) (h : ℕ) (path : Bytes) (openMode : ℕ) (w : World) :
    Gives ((PluginOp.openFile h path openMode).run objects) w fun r w' =>
      Done.Ok ⟨.openFile h path openMode, objects, w, r.1, r.2, w'⟩ := by
  cases hf : objects h with
  | some f =>
    simp only [PluginOp.run, hf]
    exact Gives.pure (Done.Ok.refused (show -EINVAL < 0 by decide) rfl)
  | none =>
    simp only [PluginOp.run, hf]
    obtain ⟨hu₁, hnew, -⟩ := @newFile_spec env w
    refine Gives.bind (Gives.step ?_)
    generalize newFile env w = r at hu₁ hnew
    obtain ⟨o, w₁⟩ := r
    dsimp only at hu₁ hnew ⊢
    cases o with
    | none => exact Gives.pure (Done.Ok.refused (show -ENOMEM < 0 by decide) hu₁.fs)
    | some f =>
    obtain rfl := hnew f rfl
    refine Gives.bind ((File.openFile_spec _ rfl path openMode w₁).mono ?_)
    rintro ⟨rc, f⟩ w₂ (⟨hrc, hu₂, -⟩ | ⟨hrc, -, hd, hopened, hat, -⟩)
    · dsimp only at hrc ⊢
      rw [if_pos hrc.ne]
      refine Gives.bind ((File.destroy_spec f w₂).mono fun _ w₃ hu₃ => Gives.pure ?_)
      exact Done.Ok.refused hrc (((hu₁.trans hu₂).trans hu₃).fs)
    · dsimp only at hrc hopened ⊢
      subst hrc
      rw [if_neg (not_not.2 rfl)]
      have hreal : env.getRealPath path = path := getRealPath_eq hN path
      refine Gives.pure ⟨fun q hq => ?_, fun k hk => ?_, ?_, ?_, ?_, ?_, ?_⟩
      · by_cases hwr : writing openMode
        · rw [File.OpenedAt, if_pos hwr, hu₁.fs] at hat
          exact (Fs.Put.of_create hat).kept fun heq => hq ⟨hwr, heq⟩
        · rw [File.OpenedAt, if_neg hwr, hu₁.fs] at hat
          exact .of_eq hat.2
      · exact Function.update_of_ne (fun heq => hk (congrArg some heq.symm)) _ _
      · rintro k path' openMode' ⟨⟩ - hwr hck
        refine ⟨f, Function.update_self _ _ _, ?_⟩
        have hup := uploading_opened hwr (by rwa [hreal]) hopened hat
        rwa [hreal] at hup
      · rintro k b o ⟨⟩
      · rintro k b o ⟨⟩
      · rintro k ⟨⟩
      · rintro pfn cks do_set ⟨⟩

theorem close_ok (hN : env.the_N2N = none) (objects : Objects env) (h : ℕ) (w : World) :
    Gives ((PluginOp.close h).run objects) w fun r w' => Done.Ok ⟨.close h, objects, w, r.1, r.2, w'⟩ := by
  cases hf : objects h with
  | none =>
    simp only [PluginOp.run, hf]
    exact Gives.pure (Done.Ok.refused (show -EBADF < 0 by decide) rfl)
  | some f =>
    simp only [PluginOp.run, hf]
    have hrec := recordInCksums hN (f.fname.getD [])
    -- nothing, or the record of what the state absorbed
    have hclose : Gives f.close w fun _ w' => w'.fs = w.fs ∨ ∃ st, f.m_state = some st ∧
        WrittenAt w (env.recordFile (f.fname.getD [])) (stateValues st.finalize) w' := by
      cases hst : f.m_state with
      | none => exact (File.close_spec f hst w).mono fun r w' hr => Or.inl hr.1.fs
      | some st =>
        refine (close_state_mapped f hst hrec w).mono ?_
        rintro r w' ⟨-, -, ⟨-, hu⟩ | ⟨-, hw⟩⟩
        · exact Or.inl hu.fs
        · exact Or.inr ⟨st, rfl, hw⟩
    refine Gives.bind (hclose.mono ?_)
    rintro ⟨rc, f'⟩ w₁ hcase
    refine Gives.bind ((File.destroy_spec f' w₁).mono fun _ w₂ hu => ?_)
    replace hcase : w₂.fs = w.fs ∨ ∃ st, f.m_state = some st ∧
        WrittenAt w (env.recordFile (f.fname.getD [])) (stateValues st.finalize) w₂ := by
      rcases hcase with hfs | ⟨st, hst, hl, hfs, hcalm⟩
      · exact Or.inl (hu.fs.trans hfs)
      · rw [← hu.fs] at hfs hcalm
        exact Or.inr ⟨st, hst, hl.trans hu.later, hfs, hcalm⟩
    refine Gives.pure ⟨fun q hq => ?_, fun k hk => ?_, ?_, ?_, ?_, ?_, ?_⟩
    · rcases hcase with hfs | ⟨st, hst, hw⟩
      · exact .of_eq hfs
      · exact hw.kept fun heq => hq ⟨f, hf, by rw [hst]; simp, heq⟩
    · exact Function.update_of_ne (fun heq => hk (congrArg some heq.symm)) _ _
    · rintro k path openMode ⟨⟩
    · rintro k b o ⟨⟩
    · rintro k b o ⟨⟩
    · rintro k ⟨⟩ path D f₀ hf₀ hup hne
      obtain rfl : f = f₀ := Option.some.inj (hf.symm.trans hf₀)
      obtain ⟨junk, st, hst, habs, hdig⟩ := hup.state
      rcases hcase with hfs | ⟨st', hst', hw⟩
      · exact absurd (by rw [hfs]) hne
      · obtain rfl : st = st' := Option.some.inj (hst.symm.trans hst')
        rw [hup.fname, Option.getD_some, recordFile_eq hN, stateValues_finalize habs] at hw
        exact Fresh.of_writtenAt hup.view hw hne
    · rintro pfn cks do_set ⟨⟩

theorem calcDigest_ok (hN : env.the_N2N = none) (objects : Objects env) (pfn : Bytes) (cks : XrdCksData) (do_set : Bool)
    (w : World) : Gives ((PluginOp.calcDigest pfn cks do_set).run objects) w fun r w' =>
      Done.Ok ⟨.calcDigest pfn cks do_set, objects, w, r.1, r.2, w'⟩ := by
  refine Gives.bind ((calc_spec hN pfn cks do_set w).mono ?_)
  intro r w' hcase
  refine Gives.pure ⟨fun q hq => ?_, fun _ _ => rfl, ?_, ?_, ?_, ?_, ?_⟩
  · rcases hcase with ⟨-, -, hu, -⟩ | ⟨-, digest, D, junk, st, -, -, -, -, hw, -⟩
    · exact .of_eq hu.fs
    · refine WrittenAt.kept hw fun heq => hq ?_
      rw [heq, ← recordFile_eq hN]
      rfl
  · rintro k path openMode ⟨⟩
  · rintro k b o ⟨⟩
  · rintro k b o ⟨⟩
  · rintro k ⟨⟩
  · rintro pfn' cks' do_set' ⟨⟩ hne
    rcases hcase with ⟨-, -, hu, -⟩ | ⟨-, digest, D, junk, st, -, hD, habs, -, hw, -⟩
    · exact absurd (by rw [hu.fs]) hne
    · rw [stateValues_finalize habs] at hw
      exact Fresh.of_writtenAt hD hw hne

/-- **One operation.** -/
theorem run_ok (hN : env.the_N2N = none) (objects : Objects env) (op : PluginOp) (w : World) :
    Gives (op.run objects) w fun r w' => Done.Ok ⟨op, objects, w, r.1, r.2, w'⟩ := by
  cases op with
  | openFile h path openMode => exact openFile_ok hN objects h path openMode w
  | write h buff offset => exact write_ok objects h buff offset w
  | close h => exact close_ok hN objects h w
  | calcDigest pfn cks do_set => exact calcDigest_ok hN objects pfn cks do_set w
  | operation op => exact operation_ok objects op w

/-! ### Any number of operations -/

/-- Operations that were done one after another, each of them as it should be. -/
inductive Trace : Objects env → World → List (Done env) → Objects env → World → Prop where
  | nil {objects : Objects env} {w : World} : Trace objects w [] objects w
  | cons {x : Done env} {done : List (Done env)} {objects' : Objects env} {w' : World} (hx : x.Ok)
      (h : Trace x.objects' x.w' done objects' w') : Trace x.objects x.w (x :: done) objects' w'

theorem runAll_trace (hN : env.the_N2N = none) (ops : List PluginOp) (objects : Objects env) (w : World) :
    Gives (runAll objects ops) w fun r w' => Trace objects w r.1 r.2 w' ∧ r.1.map Done.op = ops := by
  induction ops generalizing objects w with
  | nil => exact Gives.pure ⟨.nil, rfl⟩
  | cons op ops ih =>
    refine Gives.bind (Gives.step (Gives.bind ((run_ok hN objects op w).mono ?_)))
    rintro ⟨rc, objects'⟩ w₁ hok
    refine Gives.bind (Gives.step (Gives.bind ((ih objects' w₁).mono ?_)))
    rintro ⟨done, objects''⟩ w₂ ⟨htrace, rfl⟩
    exact Gives.pure ⟨.cons hok htrace, rfl⟩

namespace Trace

variable {objects objects' : Objects env} {w w' : World} {done done' : List (Done env)} {p q : HPath}

theorem of_append (h : Trace objects w (done ++ done') objects' w') :
    ∃ objects₁ w₁, Trace objects w done objects₁ w₁ ∧ Trace objects₁ w₁ done' objects' w' := by
  induction done generalizing objects w with
  | nil => exact ⟨objects, w, .nil, h⟩
  | cons x done ih =>
    cases h with
    | cons hx h =>
      obtain ⟨objects₁, w₁, h₁, h₂⟩ := ih h
      exact ⟨objects₁, w₁, .cons hx h₁, h₂⟩

/-- **What nothing touches stays.** -/
theorem kept (h : Trace objects w done objects' w') (hq : ∀ x ∈ done, ¬ x.Touches q) : w.fs.Kept q w'.fs := by
  induction h with
  | nil => exact .of_eq rfl
  | cons hx _ ih =>
    obtain ⟨hfirst, hrest⟩ := List.forall_mem_cons.1 hq
    exact (hx.kept q hfirst).trans (ih hrest)

end Trace

theorem Uploading.kept {p : HPath} {fname D : Bytes} {f : File env} {w w' : World} (h : Uploading p fname D f w)
    (hp : w.fs.Kept p w'.fs) : Uploading p fname D f w' := by
  obtain ⟨i, hfh, hino, hdata⟩ := h.fh
  exact ⟨⟨i, hfh, hp.ino.trans hino, by rw [hp.data i hino, hdata]⟩, h.state, h.fname⟩

/-- The upload through the object `h` to the file at `p` goes on: it takes a `Write` in full, or rejects one that is out of
order; or the operation is on something else, and does not touch `p`. -/
def Done.GoesOn (h : ℕ) (p : HPath) (x : Done env) : Prop :=
  (∃ buff offset, x.op = .write h buff offset ∧ (x.rc = buff.length ∨ ∃ f ∈ x.objects h, offset ≠ f.m_nextoff)) ∨
    x.op.object ≠ some h ∧ ¬ x.Touches p

/-- **An upload goes on**, whatever else is done in between. -/
theorem Trace.uploading {objects objects' : Objects env} {w w' : World} {done : List (Done env)} {h : ℕ} {p : HPath}
    {fname : Bytes} (ht : Trace objects w done objects' w') (hall : ∀ x ∈ done, x.GoesOn h p)
    (hup : ∃ D f, objects h = some f ∧ Uploading p fname D f w) :
    ∃ D f, objects' h = some f ∧ Uploading p fname D f w' := by
  induction ht with
  | nil => exact hup
  | @cons x done objects' w' hx _ ih =>
    obtain ⟨hfirst, hrest⟩ := List.forall_mem_cons.1 hall
    refine ih hrest ?_
    obtain ⟨D, f, hf, hup⟩ := hup
    rcases hfirst with ⟨buff, offset, hop, hrc | ⟨f', hf', hne⟩⟩ | ⟨hobj, hp⟩
    · obtain ⟨f', hf', hup'⟩ := hx.wrote h buff offset hop hrc p fname D f hf hup
      exact ⟨D ++ buff, f', hf', hup'⟩
    · obtain rfl : f = f' := Option.some.inj (hf.symm.trans hf')
      obtain ⟨hsame, hfs⟩ := hx.rejected h buff offset hop f hf hne
      exact ⟨D, f, hsame, hup.kept (.of_eq hfs)⟩
    · exact ⟨D, f, (hx.others h hobj).trans hf, hup.kept (hx.kept p hp)⟩

/-- **The operation recorded `p`**: it put a new record at its place, and is a `Calc` of the file at `p`, or the `Close` of
an object that was opened for writing there, whose upload went on from then to now. -/
def Done.Records (p : HPath) (before : List (Done env)) (x : Done env) : Prop :=
  x.w'.fs.tree.ino (recordAt p) ≠ x.w.fs.tree.ino (recordAt p) ∧
    ((∃ pfn cks do_set, x.op = .calcDigest pfn cks do_set ∧ resolve pfn = p) ∨
      ∃ h path openMode early y mid, x.op = .close h ∧ before = early ++ y :: mid ∧ y.op = .openFile h path openMode ∧
        y.rc = 0 ∧ writing openMode ∧ inCksums path = false ∧ resolve path = p ∧ ∀ z ∈ mid, z.GoesOn h p)

/-- **A record stays fresh until it is touched.** -/
theorem Trace.fresh {objects objects' : Objects env} {w w' : World} {before after : List (Done env)} {x : Done env} {p : HPath}
    (h : Trace objects w (before ++ x :: after) objects' w') (hx : x.Records p before)
    (hafter : ∀ y ∈ after, ¬ y.Touches p ∧ ¬ y.Touches (recordAt p)) : Fresh env.Z p w'.fs := by
  obtain ⟨objects₁, w₁, hbefore, hrest⟩ := h.of_append
  cases hrest with
  | cons hok hrest =>
    suffices hfresh : Fresh env.Z p x.w'.fs from
      hfresh.kept (hrest.kept fun y hy => (hafter y hy).1) (hrest.kept fun y hy => (hafter y hy).2)
    obtain ⟨hne, ⟨pfn, cks, do_set, hop, rfl⟩ |
      ⟨k, path, openMode, early, y, mid, hop, rfl, hopen, hrc, hwr, hck, rfl, hmid⟩⟩ := hx
    · exact hok.calculated pfn cks do_set hop hne
    · obtain ⟨objects₂, w₂, -, hmiddle⟩ := hbefore.of_append
      cases hmiddle with
      | cons hoky hmiddle =>
        obtain ⟨f, hf, hup⟩ := hoky.opened k path openMode hopen hrc hwr hck
        obtain ⟨D, f', hf', hup'⟩ := hmiddle.uploading hmid ⟨[], f, hf, hup⟩
        exact hok.closed k hop path D f' hf' hup' hne

/-! ### What `Get` reads -/

/-- The entries with the values that depend on the data alone. -/
theorem recordEntries_value {Z : Digests} {junk : UInt32} {D : Bytes} {digests : ℕ} {e : ChecksumValue}
    (he : e ∈ recordEntries Z junk D digests) {name requested : Bytes} {digest : ℕ}
    (hname : (name, digest) ∈ [(str "MD5", MD5), (str "ADLER32", ADLER32)]) (hreq : strcaseeq requested name)
    (hm : strcaseeq e.1 requested) : e = (name, human_readable_evp (digestOf Z digest D)) := by
  obtain ⟨d, hd, rfl⟩ := List.mem_map.1 he
  have hmem := List.mem_of_mem_filter hd
  have hsame : ∀ d ∈ digestNames, ∀ d' ∈ [(str "MD5", MD5), (str "ADLER32", ADLER32)], strcaseeq d.1 d'.1 → d = d' := by
    decide +kernel
  obtain rfl := hsame d hmem _ hname (strcaseeq_congr hm name ▸ hreq)
  simp only [List.mem_cons, List.not_mem_nil, or_false, Prod.mk.injEq] at hname
  rcases hname with ⟨rfl, rfl⟩ | ⟨rfl, rfl⟩
  · rfl
  · rfl

/-- **What `Get` reads from a fresh record**: the digest of what the file holds; or, where the writing of the record was
cut short in it, the part up to there. -/
theorem Fresh.get (hN : env.the_N2N = none) (pfn : Bytes) {w : World} (h : Fresh env.Z (resolve pfn) w.fs) :
    ∃ D, w.fs.view (resolve pfn) = some D ∧ ∀ cks name digest, (name, digest) ∈ [(str "MD5", MD5), (str "ADLER32", ADLER32)] →
      strcaseeq (requestedChecksum cks) name → Gives (get env pfn cks) w fun out _ => out.rc = 0 → ∃ v,
        out.recorded = some v ∧ (v = human_readable_evp (digestOf env.Z digest D) ∨
          ∃ seen, w.fs.view (recordPath pfn) = some seen ∧
            Torn seen (name, human_readable_evp (digestOf env.Z digest D)) v) := by
  obtain ⟨D, junk, digests, t, hD, ht, hprefix⟩ := h
  refine ⟨D, hD, fun cks name digest hname hreq => (get_mapped pfn cks w).mono ?_⟩
  intro out w' hget hrc
  obtain ⟨-, seen, text, hseen, htext, -, rfl⟩ := hget.eq_zero hrc
  obtain ⟨hp, hne, -, hrec, -⟩ := answer_eq_zero hrc
  rw [recordFile_eq hN] at hseen
  obtain rfl : t = seen := Option.some.inj (ht.symm.trans hseen)
  obtain ⟨e, he, hm, hcase⟩ := lastValue_cut htext hprefix hp hne
  refine ⟨_, hrec, ?_⟩
  have hgood := fun e he => (@goodEntry_recordEntries env.Z junk D digests e he).1
  rw [entryOf_serialise hgood] at he
  obtain ⟨e', he', rfl⟩ := List.mem_map.1 he
  have hup : upperName e' = e' := by
    rw [upperName, (goodEntry_recordEntries e' he').2]
  rw [hup] at hm hcase
  obtain rfl := recordEntries_value he' hname hreq hm
  rcases hcase with heq | htorn
  · exact Or.inl heq
  · exact Or.inr ⟨t, ht, htorn⟩

/-- **Records are fresh until they are touched.** For any operations, in any order: where the last one that touched the file
at `pfn` or its record is one that recorded it, a `Get` that returns 0 reads the MD5 or the Adler-32 of what the file holds,
or the start of it, if the writing of the record was cut short there. -/
theorem fresh_until_touched (hN : env.the_N2N = none) (pfn : Bytes) (ops : List PluginOp) (objects : Objects env) (w : World) :
    Gives (runAll objects ops) w fun r w' => ∀ before x after, r.1 = before ++ x :: after → x.Records (resolve pfn) before →
      (∀ y ∈ after, ¬ y.Touches (resolve pfn) ∧ ¬ y.Touches (recordPath pfn)) →
      ∃ D, w'.fs.view (resolve pfn) = some D ∧
        ∀ cks name digest, (name, digest) ∈ [(str "MD5", MD5), (str "ADLER32", ADLER32)] →
          strcaseeq (requestedChecksum cks) name → Gives (get env pfn cks) w' fun out _ => out.rc = 0 → ∃ v,
            out.recorded = some v ∧ (v = human_readable_evp (digestOf env.Z digest D) ∨
              ∃ seen, w'.fs.view (recordPath pfn) = some seen ∧
                Torn seen (name, human_readable_evp (digestOf env.Z digest D)) v) := by
  refine (runAll_trace hN ops objects w).mono ?_
  rintro ⟨done, objects'⟩ w' ⟨htrace, -⟩ before x after rfl hx hafter
  exact (htrace.fresh hx hafter).get hN pfn

/-- A file is written, and then truncated. -/
def writeAndTruncate : List PluginOp :=
  [.openFile 0 (str "/a") O_WRONLY, .write 0 (str "x") 0, .close 0, .operation (.truncate (str "/a") 0)]

/-- The `Close` recorded the file. -/
theorem records_a : Gives (runAll (fun _ => none : Objects Reference.env) (writeAndTruncate.take 3)) { fs := .empty } fun r _ =>
    ∃ before x, r.1 = before ++ [x] ∧ x.Records (resolve (str "/a")) before := by
  have hrun : ((runAll (fun _ => none : Objects Reference.env) (writeAndTruncate.take 3)).run 9 { fs := .empty }).map
      (fun r => r.1.1.map fun x => (x.rc, x.w.fs.tree.ino (recordAt (resolve (str "/a"))),
        x.w'.fs.tree.ino (recordAt (resolve (str "/a"))))) = some [(0, none, none), (1, none, none), (0, none, some 1)] := by
    decide +kernel
  obtain ⟨⟨r, w'⟩, hr, hlist⟩ := Option.map_eq_some_iff.1 hrun
  obtain ⟨-, hops⟩ := (@runAll_trace Reference.env rfl (writeAndTruncate.take 3) _ _).ends 9 r w' hr
  refine ⟨9, r, w', hr, ?_⟩
  obtain ⟨y, z, x, hxyz⟩ := List.length_eq_three.1 ((List.length_map Done.op).symm.trans (congrArg List.length hops))
  rw [hxyz] at hops hlist ⊢
  simp only [List.map_cons, List.map_nil, List.cons.injEq, Prod.mk.injEq, and_true] at hlist
  obtain ⟨⟨hy, -⟩, ⟨hz, -⟩, -, hold, hnew⟩ := hlist
  simp only [writeAndTruncate, List.take, List.map_cons, List.map_nil, List.cons.injEq, and_true] at hops
  obtain ⟨hopy, hopz, hopx⟩ := hops
  refine ⟨[y, z], x, rfl, by rw [hold, hnew]; simp, Or.inr ?_⟩
  refine ⟨0, str "/a", O_WRONLY, [], y, [z], hopx, rfl, hopy, hy, by decide, by decide, rfl, fun z' hz' => ?_⟩
  rw [List.mem_singleton.1 hz']
  exact Or.inl ⟨str "x", 0, hopz, Or.inl hz⟩

theorem fresh_until_touched_a : Gives (runAll (fun _ => none : Objects Reference.env) (writeAndTruncate.take 3))
    { fs := .empty } fun _ w' => ∃ D, w'.fs.view (resolve (str "/a")) = some D ∧
      ∀ cks name digest, (name, digest) ∈ [(str "MD5", MD5), (str "ADLER32", ADLER32)] →
        strcaseeq (requestedChecksum cks) name → Gives (get Reference.env (str "/a") cks) w' fun out _ => out.rc = 0 → ∃ v,
          out.recorded = some v ∧ (v = human_readable_evp (digestOf Reference.env.Z digest D) ∨
            ∃ seen, w'.fs.view (recordPath (str "/a")) = some seen ∧
              Torn seen (name, human_readable_evp (digestOf Reference.env.Z digest D)) v) := by
  have hfresh :=
    (@fresh_until_touched Reference.env rfl (str "/a") (writeAndTruncate.take 3) (fun _ => none) { fs := .empty }).ends
  refine (records_a.and_ends hfresh).mono ?_
  rintro r w' ⟨⟨before, x, hr, hx⟩, hfresh⟩
  exact hfresh before x [] hr hx (by simp)

/-- After the `Truncate` the file is empty, and `Get` reads the Adler-32 of what it was. -/
theorem stale_after_truncate : ((do
    let (done, _) ← runAll (fun _ => none : Objects Reference.env) writeAndTruncate
    let fs ← .step fun w => (w.fs, w)
    let out ← get Reference.env (str "/a") { Name := str "adler32" }
    pure (done.map Done.rc, fs.view (resolve (str "/a")), out.rc, out.recorded) :
      Prog World (List ℤ × Option Bytes × ℤ × Option Bytes)).run 9 { fs := .empty }).map (·.1) =
    some ([0, 1, 0, 0], some [], 0, some (str "00790079")) ∧
    human_readable_evp (digestOf Reference.digests ADLER32 []) = str "00000001" := by
  decide +kernel

end XrdHdfs
