import XrdHdfs.ManagerSpec

/-!
# A record that is being written

`SetMultiple` in steps: it creates the record, writes the text call by call, and closes it.  A reader that comes in
between sees the old record, or the start of the new text.  `Parse` takes a text that ends inside a line for complete
where the line has a name, a colon and a character behind it, so a `Get` that comes in between and returns 0 may have
read the start of a value; but then the text that it read ends in that value (`served_while_saving`).
-/

namespace XrdHdfs

open Lib World ChecksumManager

variable {env : Env}

/-! ### The steps -/

/-- A new file object and the `Open` of the record: an error, or the object. -/
def openRecord (env : Env) (pfn : Bytes) : Prog World (ℤ ⊕ File env) := do
  match ← .step (newFile env) with
  | none => pure (.inl (-ENOMEM))
  | some fh => do
    let (rc, fh) ← fh.openFile (getChecksumFilename pfn) O_WRONLY
    pure (if rc ≠ 0 then .inl rc else .inr fh)

/-- The `Close` of the record, and what `SetMultiple` returns. -/
def closeRecord (fh : File env) (retval : ℤ) : Prog World ℤ := do
  let (_, fh) ← fh.close
  fh.destroy
  pure (if retval < 0 then retval else 0)

/-- Where `SetMultiple` stands. -/
inductive Saving (env : Env) where
  | start
  | writing (fh : File env) (offset : ℕ)
  | written (retval : ℤ) (fh : File env)
  | returned (rc : ℤ)

/-- One step of `SetMultiple`; the writing takes one for each `Write`. -/
def Saving.step (pfn : Bytes) (values : ChecksumValues) : Saving env → Prog World (Saving env)
  | .start => do
    match ← openRecord env pfn with
    | .inl rc => pure (.returned rc)
    | .inr fh => pure (.writing fh 0)
  | .writing fh offset => do
    match ← writeTurn (serialise values) (fh, offset) with
    | .inl (fh, offset) => pure (.writing fh offset)
    | .inr (retval, fh) => pure (.written retval fh)
  | .written retval fh => do
    let rc ← closeRecord fh retval
    pure (.returned rc)
  | .returned rc => pure (.returned rc)

def Saving.steps (pfn : Bytes) (values : ChecksumValues) : ℕ → Saving env → Prog World (Saving env)
  | 0, s => pure s
  | k + 1, s => do
    let s ← s.step pfn values
    s.steps pfn values k

/-! ### They are those of `SetMultiple` -/

section Steps

variable {pfn : Bytes} {values : ChecksumValues} {n : ℕ} {w w' : World}

theorem Saving.run_succ {s s₁ s₂ : Saving env} {k : ℕ} {w₁ : World} (h : (s.step pfn values).run n w = some (s₁, w₁))
    (h' : (s₁.steps pfn values k).run n w₁ = some (s₂, w')) : (s.steps pfn values (k + 1)).run n w = some (s₂, w') :=
  Prog.run_bind_some.2 ⟨s₁, w₁, h, h'⟩

/-- A step after the others. -/
theorem Saving.run_last {s s₁ s₂ : Saving env} {k : ℕ} {w₁ : World} (h : (s.steps pfn values k).run n w = some (s₁, w₁))
    (h' : (s₁.step pfn values).run n w₁ = some (s₂, w')) : (s.steps pfn values (k + 1)).run n w = some (s₂, w') := by
  induction k generalizing s w with
  | zero =>
    simp only [steps, Prog.run_pure, Option.some.injEq, Prod.mk.injEq] at h
    obtain ⟨rfl, rfl⟩ := h
    exact run_succ h' rfl
  | succ k ih =>
    obtain ⟨s₃, w₃, h₃, hrest⟩ := Prog.run_bind_some.1 h
    exact run_succ h₃ (ih hrest)

/-- The loop is as many steps as it has turns. -/
theorem Saving.run_turns {m : ℕ} {b : File env × ℕ} {r : ℤ × File env}
    (h : (Prog.turns (writeTurn (serialise values)) m b).run n w = some (r, w')) :
    ∃ k, ((Saving.writing b.1 b.2).steps pfn values k).run n w = some (.written r.1 r.2, w') := by
  induction m generalizing b w with
  | zero => cases h
  | succ m ih =>
    obtain ⟨t, w₁, ht, hrest⟩ := Prog.run_bind_some.1 h
    rcases t with b' | c
    · obtain ⟨k, hk⟩ := ih hrest
      exact ⟨k + 1, run_succ (Prog.run_bind_some.2 ⟨_, w₁, ht, rfl⟩) hk⟩
    · simp only [Prog.run_pure, Option.some.injEq, Prod.mk.injEq] at hrest
      obtain ⟨rfl, rfl⟩ := hrest
      exact ⟨1, run_succ (Prog.run_bind_some.2 ⟨_, w₁, ht, rfl⟩) rfl⟩

/-- `SetMultiple` opens the record, and then writes and closes it. -/
theorem setMultiple_run {rc : ℤ} (h : (setMultiple env pfn values).run n w = some (rc, w')) :
    (openRecord env pfn).run n w = some (.inl rc, w') ∨ ∃ fh w₁ retval fh' w₂,
      (openRecord env pfn).run n w = some (.inr fh, w₁) ∧
      (Prog.loop (writeTurn (serialise values)) (fh, 0)).run n w₁ = some ((retval, fh'), w₂) ∧
      (closeRecord fh' retval).run n w₂ = some (rc, w') := by
  unfold setMultiple setMultipleWith at h
  obtain ⟨o, w₁, hnew, h⟩ := Prog.run_bind_some.1 h
  cases o with
  | none =>
    cases h
    exact Or.inl (Prog.run_bind_some.2 ⟨none, w', hnew, rfl⟩)
  | some fh =>
    obtain ⟨⟨rc', fh'⟩, w₂, hopen, h⟩ := Prog.run_bind_some.1 h
    have hrecord : (openRecord env pfn).run n w = some (if rc' ≠ 0 then .inl rc' else .inr fh', w₂) :=
      Prog.run_bind_some.2 ⟨some fh, w₁, hnew, Prog.run_bind_some.2 ⟨(rc', fh'), w₂, hopen, rfl⟩⟩
    dsimp only at h
    by_cases hrc : rc' ≠ 0
    · rw [if_pos hrc] at hrecord h
      cases h
      exact Or.inl hrecord
    · rw [if_neg hrc] at hrecord h
      obtain ⟨⟨retval, fh₃⟩, w₃, hloop, hclose⟩ := Prog.run_bind_some.1 h
      exact Or.inr ⟨fh', w₂, retval, fh₃, w₃, hrecord, hloop, hclose⟩

/-- **`SetMultiple` in steps.** What it returns, it returns after some of them. -/
theorem setMultiple_steps {rc : ℤ} (h : (setMultiple env pfn values).run n w = some (rc, w')) :
    ∃ k, ((Saving.start : Saving env).steps pfn values k).run n w = some (.returned rc, w') := by
  rcases setMultiple_run h with hopen | ⟨fh, w₁, retval, fh', w₂, hopen, hloop, hclose⟩
  · exact ⟨1, Saving.run_succ (Prog.run_bind_some.2 ⟨_, w', hopen, rfl⟩) rfl⟩
  · obtain ⟨k, hk⟩ := @Saving.run_turns env pfn values n w₁ w₂ n (fh, 0) (retval, fh') hloop
    refine ⟨k + 1 + 1, Saving.run_succ (Prog.run_bind_some.2 ⟨_, w₁, hopen, rfl⟩) (Saving.run_last hk ?_)⟩
    exact Prog.run_bind_some.2 ⟨rc, w', hclose, rfl⟩

end Steps

/-! ### What each step does -/

/-- **The first step** creates the record, or fails and changes nothing. -/
theorem openRecord_spec (pfn : Bytes) (hck : RecordInCksums env pfn) (w : World) :
    Gives (openRecord env pfn) w fun r w' => Later w w' ∧
      ((∃ rc, r = .inl rc ∧ rc ≠ 0 ∧ w'.fs = w.fs) ∨
        ∃ fh, r = .inr fh ∧ w.fs.create (env.recordFile pfn) = some (w.fs.next, w'.fs) ∧
          fh.fh = some ⟨w.fs.next, true⟩ ∧ fh.m_state = none ∧ fh.m_nextoff = 0) := by
  unfold openRecord
  obtain ⟨hu₁, hnew, -⟩ := @newFile_spec env w
  refine Gives.bind (Gives.step ?_)
  generalize newFile env w = r at hu₁ hnew
  obtain ⟨o, w₁⟩ := r
  dsimp only at hu₁ hnew ⊢
  cases o with
  | none => exact Gives.pure ⟨hu₁.later, Or.inl ⟨_, rfl, by norm_num, hu₁.fs⟩⟩
  | some fh =>
  obtain rfl := hnew fh rfl
  have hopen := File.openFile_spec ({ oid := w.objects } : File env) rfl (getChecksumFilename pfn) O_WRONLY w₁
  rw [hu₁.fs] at hopen
  refine Gives.bind (hopen.mono ?_)
  rintro ⟨rc, fh⟩ w₂ (⟨hrc, hu₂, -⟩ | ⟨rfl, hl₂, h, hopened, hat, -⟩)
  · dsimp only at hrc ⊢
    rw [if_pos hrc.ne]
    exact Gives.pure ⟨hu₁.later.trans hu₂.later, Or.inl ⟨rc, rfl, hrc.ne, hu₂.fs.trans hu₁.fs⟩⟩
  dsimp only at hopened ⊢
  rw [if_neg (not_not.2 rfl)]
  have hcreate : w.fs.create (env.recordFile pfn) = some (h.ino, w₂.fs) := hat
  have hino : h.ino = w.fs.next := (Fs.create_eq_some hcreate).1
  have hkind : h.writing = true := hopened.kind
  have hst := hopened.state
  rw [if_neg fun hc => by simpa [show inCksums (env.getRealPath (getChecksumFilename pfn)) = true from hck] using hc.2] at hst
  rw [hino] at hcreate
  refine Gives.pure ⟨hu₁.later.trans hl₂, Or.inr ⟨fh, rfl, hcreate, ?_, hst, hopened.nextoff⟩⟩
  rw [hopened.fh, ← hino, ← hkind]

/-- **The last step** leaves the file system alone. -/
theorem closeRecord_spec (fh : File env) (hst : fh.m_state = none) (retval : ℤ) (w : World) :
    Gives (closeRecord fh retval) w fun rc w' => Unchanged w w' ∧ rc = if retval < 0 then retval else 0 := by
  unfold closeRecord
  refine Gives.bind ((File.close_spec fh hst w).mono ?_)
  rintro ⟨_, fh'⟩ w₁ ⟨hu₁, -, -⟩
  refine Gives.bind ((File.destroy_spec fh' w₁).mono ?_)
  intro _ w₂ hu₂
  exact Gives.pure ⟨hu₁.trans hu₂, rfl⟩

/-- **What holds between the steps**: the record is the old one, or it holds the start of the new text. -/
def Saving.Holds (w : World) (p : HPath) (text : Bytes) (s : Saving env) (w' : World) : Prop :=
  match s with
  | .start => Unchanged w w'
  | .writing fh offset => Recording w p text (fh, offset) w'
  | .written retval fh => Recorded w p text (retval, fh) w'
  | .returned _ => w'.fs = w.fs ∨ ∃ t, t <+: text ∧ w.fs.Put p t w'.fs

theorem Saving.Holds.fs_cases {w w' : World} {p : HPath} {text : Bytes} {s : Saving env} (h : s.Holds w p text w') :
    w'.fs = w.fs ∨ ∃ t, t <+: text ∧ w.fs.Put p t w'.fs := by
  cases s with
  | start => exact Or.inl h.fs
  | writing fh offset => exact Or.inr ⟨_, List.take_prefix _ _, Recording.put h⟩
  | written retval fh =>
    obtain ⟨-, -, t, ht, hput, -⟩ := h
    exact Or.inr ⟨t, ht, hput⟩
  | returned rc => exact h

/-- One step. -/
theorem Saving.Holds.step {pfn : Bytes} (hck : RecordInCksums env pfn) {values : ChecksumValues} {w w₁ : World}
    {s : Saving env} (h : s.Holds w (env.recordFile pfn) (serialise values) w₁) :
    Gives (s.step pfn values) w₁ fun s' w' => s'.Holds w (env.recordFile pfn) (serialise values) w' := by
  cases s with
  | start =>
    have hopen := openRecord_spec pfn hck w₁
    rw [h.fs] at hopen
    refine Gives.bind (hopen.mono ?_)
    rintro _ w₂ ⟨hl, ⟨rc, rfl, -, hfs⟩ | ⟨fh, rfl, hcreate, hfh, hst, hnext⟩⟩
    · exact Gives.pure (Or.inl hfs)
    · refine Gives.pure ⟨h.later.trans hl, hfh, hst, hnext, Nat.zero_le _, ?_⟩
      rw [List.take_zero]
      exact Fs.Put.of_create hcreate
  | writing fh offset =>
    refine Gives.bind ((writeTurn_spec (fh, offset) w₁ h).mono ?_)
    rintro (⟨fh', offset'⟩ | ⟨retval, fh'⟩) w₂ hturn
    · exact Gives.pure hturn.1
    · exact Gives.pure hturn
  | written retval fh =>
    obtain ⟨-, hst, t, ht, hput, -⟩ := h
    refine Gives.bind ((closeRecord_spec fh hst retval w₁).mono ?_)
    rintro rc w₂ ⟨hu, -⟩
    refine Gives.pure (Or.inr ⟨t, ht, ?_⟩)
    rw [hu.fs]
    exact hput
  | returned rc => exact Gives.pure h

/-- Any number of them. -/
theorem Saving.Holds.steps {pfn : Bytes} (hck : RecordInCksums env pfn) {values : ChecksumValues} {w : World} (k : ℕ)
    {s : Saving env} {w₁ : World} (h : s.Holds w (env.recordFile pfn) (serialise values) w₁) :
    Gives (s.steps pfn values k) w₁ fun s' w' => s'.Holds w (env.recordFile pfn) (serialise values) w' := by
  induction k generalizing s w₁ with
  | zero => exact Gives.pure h
  | succ k ih => exact Gives.bind ((h.step hck).mono fun s' w' h' => ih h')

/-! ### What a reader is served -/

/-- A text has no NUL. -/
theorem IsText.not_mem_zero {F text : Bytes} (h : IsText F text) : 0 ∉ text := by
  obtain ⟨bs, -, rfl⟩ := h
  intro hmem
  obtain ⟨b, -, hb⟩ := List.mem_flatMap.1 hmem
  exact not_mem_zero_cstr b hb

/-- What is read from the start of a file is the start of what may be read from all of it. -/
theorem IsText.of_prefix {F G text : Bytes} (h : IsText F text) (hFG : F <+: G) : ∃ text', IsText G text' ∧ text <+: text' := by
  obtain ⟨bs, rfl, rfl⟩ := h
  obtain ⟨z, rfl⟩ := hFG
  exact ⟨(bs ++ [z]).flatMap cstr, ⟨bs ++ [z], by simp, rfl⟩, by simp⟩

theorem IsText.parse_eq {F text : Bytes} (h : IsText F text) : parse text = parseText text := by
  rw [parse, cstr_eq_self h.not_mem_zero]

/-- An entry of the record with the text `F`. -/
def EntryOf (F : Bytes) (e : ChecksumValue) : Prop := ∃ text, IsText F text ∧ e ∈ (parse text).2

/-- The entries of a record of the plugin are those it was made of. -/
theorem entryOf_serialise {values : ChecksumValues} (hgood : ∀ e ∈ values, GoodEntry e) (e : ChecksumValue) :
    EntryOf (serialise values) e ↔ e ∈ values.map upperName := by
  have h0 := not_mem_zero_serialise hgood
  constructor
  · rintro ⟨text, htext, he⟩
    rwa [htext.eq_self h0, parse_serialise hgood] at he
  · intro he
    refine ⟨serialise values, ⟨[serialise values], by simp, by simp [cstr_eq_self h0]⟩, ?_⟩
    rwa [parse_serialise hgood]

/-- The value `v` is the start, but not the whole, of that of an entry, and what was read ends there. -/
structure Torn (seen : Bytes) (e : ChecksumValue) (v : Bytes) : Prop where
  isPrefix : v <+: e.2
  ne : v ≠ e.2
  ends : ∃ text, IsText seen text ∧ e.1 ++ 58 :: v <:+ text

/-- What a reader sees of the record at `p`, which was there as `old` has it and is now as `new` has it: the old record;
or, when it was replaced, the start of the new one. -/
def Sees (old new : Fs) (p : HPath) (seen : Option Bytes) : Prop :=
  if new.tree.ino p = old.tree.ino p then seen = old.view p
  else ∃ F t, new.view p = some F ∧ t <+: F ∧ seen = some t

/-- **The last entry with the name, in a text that was cut off**: it is one of the whole text, or it is torn. -/
theorem lastValue_cut {seen new text : Bytes} (htext : IsText seen text) (hseen : seen <+: new)
    (hp : (parse text).1 = 0) {name : Bytes} (hne : lastValue (parse text).2 name ≠ []) :
    ∃ e, EntryOf new e ∧ strcaseeq e.1 name ∧
      (lastValue (parse text).2 name = e.2 ∨ Torn seen e (lastValue (parse text).2 name)) := by
  obtain ⟨text', htext', hprefix⟩ := htext.of_prefix hseen
  have hentry : ∀ e ∈ (parseText text').2, EntryOf new e := by
    intro e he
    refine ⟨text', htext', ?_⟩
    rwa [htext'.parse_eq]
  obtain ⟨us, hus⟩ : ∃ us, (parse text).2 = us := ⟨_, rfl⟩
  have hparse : parseText text = (0, us) := by
    rw [← htext.parse_eq]
    exact Prod.ext hp hus
  rw [hus] at hne ⊢
  rcases lastMatch_lastValue us name with ⟨pre, e, post, heq, hm, hv, -⟩ | ⟨hnil, -⟩
  swap
  · exact absurd hnil hne
  have hmem : e ∈ us := by
    rw [heq]
    simp
  rcases parseText_prefix hprefix hparse with hwhole | ⟨us₀, ename, v, v', rfl, hwhole, hvv, hvne, hvnil, hends⟩
  · exact ⟨e, hentry e (hwhole.subset hmem), hm, Or.inl hv.symm⟩
  rcases List.mem_append.1 hmem with hmem | hmem
  · exact ⟨e, hentry e (hwhole.subset (List.mem_append_left _ hmem)), hm, Or.inl hv.symm⟩
  · -- the last entry, which lost the end of its value
    obtain rfl := List.mem_singleton.1 hmem
    refine ⟨(ename, v), hentry _ (hwhole.subset (by simp)), hm, Or.inr ?_⟩
    rw [← hv]
    exact ⟨hvv, hvne, text, htext, hends⟩

/-- **What a `Get` is served while the record is being written.** After any number of steps of `SetMultiple`, whatever
went wrong in them, a `Get` that sees the start of what was written so far fails, or reads the value of an entry of the
old record or of the new one; and where it reads a part of a value of the new record, the text that it read ends in that
value. -/
theorem served_while_saving (pfn : Bytes) (hck : RecordInCksums env pfn) (values : ChecksumValues) (k : ℕ) (w : World) :
    Gives ((Saving.start : Saving env).steps pfn values k) w fun _ w' =>
      ∀ u : World, Sees w.fs w'.fs (env.recordFile pfn) (u.fs.view (env.recordFile pfn)) → ∀ cks,
        Gives (get env pfn cks) u fun out _ => out.rc = 0 → ∃ seen e v, u.fs.view (env.recordFile pfn) = some seen ∧
          out.recorded = some v ∧ strcaseeq e.1 (requestedChecksum cks) ∧
          ((w.fs.view (env.recordFile pfn) = some seen ∧ EntryOf seen e ∧ v = e.2) ∨
            (EntryOf (serialise values) e ∧ ((∀ x ∈ values, GoodEntry x) → e ∈ values.map upperName) ∧
              (v = e.2 ∨ Torn seen e v))) := by
  have hstart : (Saving.start : Saving env).Holds w (env.recordFile pfn) (serialise values) w := Unchanged.refl w
  refine (hstart.steps hck k).mono ?_
  intro s w' hholds u hsees cks
  refine (get_mapped pfn cks u).mono ?_
  intro out u' hget hrc
  obtain ⟨-, seen, text, hseen, htext, -, rfl⟩ := hget.eq_zero hrc
  obtain ⟨hp, hne, -, hrec, -⟩ := answer_eq_zero hrc
  rw [hseen] at hsees
  unfold Sees at hsees
  split_ifs at hsees with hino
  · rcases lastMatch_lastValue (parse text).2 (requestedChecksum cks) with ⟨pre, e, post, heq, hm, hv, -⟩ | ⟨hnil, -⟩
    · have hmem : e ∈ (parse text).2 := by
        rw [heq]
        simp
      exact ⟨seen, e, _, hseen, hrec, hm, Or.inl ⟨hsees.symm, ⟨text, htext, hmem⟩, hv.symm⟩⟩
    · exact absurd hnil hne
  · obtain ⟨F, t, hF, ht, heq⟩ := hsees
    obtain rfl := Option.some.inj heq
    rcases hholds.fs_cases with hfs | ⟨t, htext', hput⟩
    · exact absurd (by rw [hfs]) hino
    obtain rfl : t = F := Option.some.inj (hput.view.symm.trans hF)
    obtain ⟨e, he, hm, hcase⟩ := lastValue_cut htext (ht.trans htext') hp hne
    exact ⟨seen, e, _, hseen, hrec, hm, Or.inr ⟨he, fun hgood => (entryOf_serialise hgood e).1 he, hcase⟩⟩

/-- HDFS with a record of `/a`, and a script in which the first `hdfsWrite` takes six bytes. -/
def savingWorld : World where
  fs := .ofFiles [(str "/cksums/a", str "MD5:ccdd\n")]
  script c := if c = .write then [.part 6] else []

theorem served_while_saving_a : Gives ((Saving.start : Saving Reference.env).steps (str "/a") [(str "md5", str "aabb")] 2)
    savingWorld fun _ w' => ∀ u : World, Sees savingWorld.fs w'.fs (Reference.env.recordFile (str "/a"))
        (u.fs.view (Reference.env.recordFile (str "/a"))) → ∀ cks,
      Gives (get Reference.env (str "/a") cks) u fun out _ => out.rc = 0 → ∃ seen e v,
        u.fs.view (Reference.env.recordFile (str "/a")) = some seen ∧ out.recorded = some v ∧
        strcaseeq e.1 (requestedChecksum cks) ∧
        ((savingWorld.fs.view (Reference.env.recordFile (str "/a")) = some seen ∧ EntryOf seen e ∧ v = e.2) ∨
          (EntryOf (serialise [(str "md5", str "aabb")]) e ∧
            ((∀ x ∈ [(str "md5", str "aabb")], GoodEntry x) → e ∈ [(str "md5", str "aabb")].map upperName) ∧
            (v = e.2 ∨ Torn seen e v))) :=
  served_while_saving (str "/a") (by decide) [(str "md5", str "aabb")] 2 savingWorld

/-- After `Open` and one `Write`, the record is `MD5:aa`, and `Get` returns 0 and reads `aa`. -/
theorem half_written_served : ((do
    let _ ← (Saving.start : Saving Reference.env).steps (str "/a") [(str "md5", str "aabb")] 2
    let fs ← .step fun w => (w.fs, w)
    let out ← get Reference.env (str "/a") { Name := str "md5" }
    pure (fs.view (recordPath (str "/a")), out.rc, out.recorded) : Prog World (Option Bytes × ℤ × Option Bytes)).run 9
      savingWorld).map (·.1) = some (some (str "MD5:aa"), 0, some (str "aa")) := by
  decide +kernel

end XrdHdfs
