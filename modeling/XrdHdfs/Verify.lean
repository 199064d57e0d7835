import XrdHdfs.Update

/-!
# When `Ver` verifies

`Ver` should return 0 if and only if the caller's value is the digest of the file that the caller named.  But it asks
`Get` for a digest without a name, which is adler32, and `Calc` too, which knows no such digest; and it compares as many
bytes as the caller's value has.  `ver_iff` says when the answer is right all the same.
-/

namespace XrdHdfs

open Lib World ChecksumManager

variable {env : Env}

/-- The digest of a file, for the digests that `Ver` is asked for. -/
def digestOf (Z : Digests) (digest : ℕ) (F : Bytes) : Bytes :=
  if digest = MD5 then Z.md5.hash F else htonl (Z.adler32 1 F)

/-- The text of a record is right about a file. -/
structure Correct (Z : Digests) (F text : Bytes) : Prop where
  parse : (parse text).1 = 0
  md5 : lastValue (XrdHdfs.parse text).2 (str "md5") ∈ [[], human_readable_evp (digestOf Z MD5 F)]
  adler32 : lastValue (XrdHdfs.parse text).2 (str "adler32") ∈ [[], human_readable_evp (digestOf Z ADLER32 F)]

/-- The caller's value is the digest of the file. -/
def Right (Z : Digests) (digest : ℕ) (F : Bytes) (cks : XrdCksData) : Prop :=
  cks.Length = (digestOf Z digest F).length ∧ cks.Value.take cks.Length = digestOf Z digest F

instance (Z : Digests) (digest : ℕ) (F : Bytes) (cks : XrdCksData) : Decidable (Right Z digest F cks) := by
  unfold Right
  infer_instance

/-- As far as the caller's value goes, it is the adler32 of the file, filled up with zeros. -/
def Agrees (Z : Digests) (F : Bytes) (cks : XrdCksData) : Prop :=
  (digestOf Z ADLER32 F ++ List.replicate 60 0).take cks.Length = cks.Value.take cks.Length

/-- The record has a value for adler32. -/
def HasAdler (env : Env) (fs : Fs) (pfn : Bytes) : Prop :=
  ∃ R, fs.view (env.recordFile pfn) = some R ∧ lastValue (parse (readText R)).2 (str "adler32") ≠ []

/-- **What `Ver` answers.** -/
theorem ver_calm (hoss : env.g_hdfs_oss) (pfn F : Bytes) (cks : XrdCksData) (w : World)
    (hw : w.Calm) (hrec : ∀ R, w.fs.view (env.recordFile pfn) = some R → Correct env.Z F (readText R)) :
    Gives (ver env pfn cks) w fun rc _ => rc = 0 ↔ HasAdler env w.fs pfn ∧ Agrees env.Z F cks := by
  refine (ver_mapped pfn cks w).mono ?_
  rintro rc w' ⟨out, hget, rfl⟩
  have hfail : out.rc ≠ 0 → ¬ HasAdler env w.fs pfn → ((if out.rc ≠ 0 then -ENOTSUP else compareValue out.cks cks) = 0 ↔
      HasAdler env w.fs pfn ∧ Agrees env.Z F cks) := by
    intro hne hno
    rw [if_pos hne]
    exact iff_of_false (by norm_num) fun h => hno h.1
  rcases hget with ⟨hneg, -, -, hnone⟩ | ⟨-, R, text, hR, -, hcalm, rfl, -⟩
  · refine hfail hneg.ne ?_
    rintro ⟨R, hR, -⟩
    rw [hnone hw hoss] at hR
    cases hR
  obtain rfl := hcalm hw
  obtain ⟨hp, -, hadler⟩ := hrec R hR
  have hiff : HasAdler env w.fs pfn ↔ lastValue (parse (readText R)).2 (str "adler32") ≠ [] := by
    simp only [HasAdler, hR, Option.some.injEq, exists_eq_left']
  rcases List.mem_pair.1 hadler with h0 | hv
  · refine hfail ?_ (by rw [hiff, h0]; simp)
    simp [answer, requestedChecksum, h0]
  · -- the recorded value, in data that were all zero
    have hlen : (digestOf env.Z ADLER32 F).length = 4 := rfl
    have hne : human_readable_evp (digestOf env.Z ADLER32 F) ≠ [] := by
      intro h
      have := congrArg List.length h
      rw [length_human_readable_evp, hlen] at this
      cases this
    have hx := unhex_human_readable_evp (digestOf env.Z ADLER32 F)
    obtain ⟨-, hV⟩ := env.cks.set_hex {} _ _ hx (by rw [hlen]; decide)
    have hrest := env.cks.set_rest {} _ _ hx (by rw [hlen]; decide)
    rw [hlen] at hV hrest
    have hvalue : (env.cks.Set {} (human_readable_evp (digestOf env.Z ADLER32 F))).Value =
        digestOf env.Z ADLER32 F ++ List.replicate 60 0 := by
      rw [← List.take_append_drop 4 (env.cks.Set {} _).Value, hV, hrest]
      rfl
    have hanswer : answer env {} (readText R) =
        { rc := 0, cks := env.cks.Set {} (human_readable_evp (digestOf env.Z ADLER32 F)),
          recorded := some (human_readable_evp (digestOf env.Z ADLER32 F)) } := by
      unfold answer
      dsimp only [requestedChecksum]
      rw [if_pos rfl, hv, if_neg (by simp [hp, hne]), if_neg (by rw [length_human_readable_evp, hlen]; decide)]
    rw [hanswer, hiff, hv, and_iff_right hne]
    unfold compareValue Agrees
    rw [if_neg (not_not.2 rfl), hvalue]
    refine ⟨fun h => ?_, fun h => if_pos h⟩
    by_contra hne'
    rw [if_neg hne'] at h
    cases h

/-- When the answer of `Ver` is right: the record has a value for adler32, and this is what the caller asks for, with a
value of four bytes or one that does not agree with it, or it is asked for another digest, and the caller's value agrees
with it exactly if it is right; or the record has none, and the caller's value is wrong. -/
def VerWorks (env : Env) (fs : Fs) (pfn F : Bytes) (digest : ℕ) (cks : XrdCksData) : Prop :=
  (HasAdler env fs pfn → (digest = ADLER32 → cks.Length = 4 ∨ ¬ Agrees env.Z F cks) ∧
    (digest = MD5 → (Right env.Z MD5 F cks ↔ Agrees env.Z F cks))) ∧
  (¬ HasAdler env fs pfn → ¬ Right env.Z digest F cks)

/-- **When the answer of `Ver` is right.** Without faults, for a record that is right about a file `F` or absent, `Ver`
returns 0 if and only if the caller's value is the digest of `F`, exactly when `VerWorks` says so.  The file itself is
never read. -/
theorem ver_iff (hoss : env.g_hdfs_oss) (pfn F : Bytes) (cks : XrdCksData) {digest : ℕ}
    (hd : returnDigest cks = some digest) (hsupported : digest ∈ [MD5, ADLER32]) (w : World) (hw : w.Calm)
    (hrec : ∀ R, w.fs.view (env.recordFile pfn) = some R → Correct env.Z F (readText R)) :
    Gives (ver env pfn cks) w fun rc _ =>
      (rc = 0 ↔ Right env.Z digest F cks) ↔ VerWorks env w.fs pfn F digest cks := by
  refine (ver_calm hoss pfn F cks w hw hrec).mono ?_
  rintro rc - hiff
  rw [hiff]
  unfold VerWorks
  by_cases hadler : HasAdler env w.fs pfn
  · simp only [hadler, true_and, true_implies, not_true_eq_false, false_implies, and_true]
    rcases List.mem_pair.1 hsupported with rfl | rfl
    · simp only [true_implies, (by decide : (MD5 = ADLER32) = False), false_implies, true_and]
      exact iff_comm
    · simp only [true_implies, (by decide : (ADLER32 = MD5) = False), false_implies, and_true]
      unfold Right Agrees
      rw [show (digestOf env.Z ADLER32 F).length = 4 from rfl]
      by_cases h4 : cks.Length = 4
      · have htake : (digestOf env.Z ADLER32 F ++ List.replicate 60 0).take 4 = digestOf env.Z ADLER32 F := rfl
        rw [h4, htake]
        exact iff_of_true ⟨fun h => ⟨rfl, h.symm⟩, fun h => h.2.symm⟩ (Or.inl rfl)
      · simp [h4]
  · simp only [hadler, false_and, false_implies, true_and, not_false_eq_true, true_implies, false_iff]

/-- HDFS with a file and the record of both its digests. -/
def verified : World where
  fs := .ofFiles [(str "/a", str "abc"),
    (str "/cksums/a", str "ADLER32:024d0127\nMD5:900150983cd24fb0d6963f7d28e17f72\n")]

theorem verified_view : verified.fs.view (Reference.env.recordFile (str "/a")) =
    some (str "ADLER32:024d0127\nMD5:900150983cd24fb0d6963f7d28e17f72\n") := by
  decide +kernel

theorem ver_iff_abc : Gives (ver Reference.env (str "/a") (.of (str "adler32") [2, 0x4d, 1, 0x27])) verified fun rc _ =>
    (rc = 0 ↔ Right Reference.digests ADLER32 (str "abc") (.of (str "adler32") [2, 0x4d, 1, 0x27])) := by
  refine (@ver_iff Reference.env rfl (str "/a") (str "abc") (.of (str "adler32") [2, 0x4d, 1, 0x27])
    ADLER32 (by decide) (by decide) verified (fun c a ha => by cases ha) fun R hR => ?_).mono fun rc w' h =>
    h.2 ⟨fun _ => ⟨fun _ => Or.inl rfl, fun h => absurd h (by decide)⟩, fun h => ?_⟩
  · rw [verified_view, Option.some.injEq] at hR
    subst hR
    exact ⟨by decide +kernel, by decide +kernel, by decide +kernel⟩
  · exact absurd ⟨_, verified_view, by decide +kernel⟩ h

/-- The MD5 of the file is refused, and a value of no bytes is accepted. -/
theorem ver_of_md5 :
    Right Reference.digests MD5 (str "abc") (.of (str "md5") (Reference.md5 (str "abc"))) ∧
    ((ver Reference.env (str "/a") (.of (str "md5") (Reference.md5 (str "abc")))).run 9 verified).map (·.1) = some 1 ∧
    ¬ Right Reference.digests MD5 (str "abc") (.of (str "md5") []) ∧
    ((ver Reference.env (str "/a") (.of (str "md5") [])).run 9 verified).map (·.1) = some 0 := by
  decide +kernel

end XrdHdfs
