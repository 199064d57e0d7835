import XrdHdfs.Agreement
import XrdHdfs.Honest
import XrdHdfs.Verify

/-!
# What `do_set` means to `Calc`

With `do_set` = 0, `Calc` should leave every file alone; otherwise it should record all five digests; and it should lose
no value that was recorded.  But `do_set` decides only which digests are calculated: `Calc` calls `Set` in either case,
and what `Set` writes replaces the record.  `calc_asAsked_iff` says when `Calc` does what it is asked all the same.
-/

namespace XrdHdfs

open Lib World ChecksumState ChecksumManager

variable {env : Env}

/-! ### What is recorded -/

/-- The record has a value for the name, as `Get` reads it. -/
def HasValue (env : Env) (fs : Fs) (pfn name : Bytes) : Prop :=
  ∃ R, fs.view (env.recordFile pfn) = some R ∧ (parse (readText R)).1 = 0 ∧ lastValue (parse (readText R)).2 name ≠ []

/-- Where no value is empty, the names of the entries are those that have a value. -/
theorem lastValue_ne_nil_iff {vs : ChecksumValues} (hne : ∀ e ∈ vs, e.2 ≠ []) (name : Bytes) :
    lastValue vs name ≠ [] ↔ ∃ e ∈ vs, strcaseeq e.1 name := by
  rcases lastMatch_lastValue vs name with ⟨pre, e, post, heq, hm, hv, -⟩ | ⟨hnil, hno⟩
  · have he : e ∈ vs := by
      rw [heq]
      simp
    exact iff_of_true (hv ▸ hne e he) ⟨e, he, hm⟩
  · exact iff_of_false (not_not.2 hnil) fun ⟨e, he, hm⟩ => hno e he hm

/-- The record that the plugin makes of a file has a value for each digest it was made for, and for no other. -/
theorem hasValue_iff {fs : Fs} {pfn : Bytes} {junk : UInt32} {D : Bytes} {digests : ℕ}
    (h : fs.view (env.recordFile pfn) = some (serialise (recordEntries env.Z junk D digests))) (name : Bytes) :
    HasValue env fs pfn name ↔ ∃ e ∈ digestNames, digests &&& e.2 ≠ 0 ∧ strcaseeq e.1 name := by
  have htext : readText (serialise (recordEntries env.Z junk D digests)) = serialise (recordEntries env.Z junk D digests) :=
    (isText_readText _).eq_self (not_mem_zero_recordEntries env.Z junk D digests)
  have hne : ∀ e ∈ recordEntries env.Z junk D digests, e.2 ≠ [] := fun e he => (goodEntry_recordEntries e he).1.2.1
  simp only [HasValue, h, Option.some.injEq, exists_eq_left', htext, parse_recordEntries, true_and]
  rw [lastValue_ne_nil_iff hne]
  constructor
  · rintro ⟨e, he, hm⟩
    obtain ⟨d, hd, rfl⟩ := List.mem_map.1 he
    obtain ⟨hmem, hbit⟩ := List.mem_filter.1 hd
    exact ⟨d, hmem, by simpa using hbit, hm⟩
  · rintro ⟨d, hmem, hbit, hm⟩
    exact ⟨_, List.mem_map.2 ⟨d, List.mem_filter.2 ⟨hmem, by simpa using hbit⟩, rfl⟩, hm⟩

/-! ### What `Calc` should do -/

/-- Writing the record failed: it was not opened, a `Write` failed or took nothing, or its `Close` failed. -/
def RecordFails (env : Env) (pfn : Bytes) (outcomes : List (LibCall × ℤ)) : Prop :=
  ¬ RecordOpened env pfn outcomes ∨ (∃ r ∈ results .write outcomes, r ≤ 0) ∨
    ∃ i r, (.closeFile ⟨i, true⟩, r) ∈ outcomes ∧ r ≠ 0

/-- `Calc` does what `do_set` asks for. -/
structure AsAsked (env : Env) (pfn : Bytes) (do_set : Bool) (w : World) (rc : ℤ) (outcomes : List (LibCall × ℤ)) (w' : World) :
    Prop where
  unchanged : do_set = false → ∀ p, w'.fs.view p = w.fs.view p
  complete : do_set = true → rc = 0 → ¬ RecordFails env pfn outcomes → ∀ e ∈ digestNames, HasValue env w'.fs pfn e.1
  kept : (do_set = true → rc = 0 ∧ ¬ RecordFails env pfn outcomes) →
    ∀ name, HasValue env w.fs pfn name → HasValue env w'.fs pfn name

/-- The record already holds what `Calc` writes: of the line with the one digest, as much as HDFS takes. -/
def Already (env : Env) (pfn : Bytes) (digest : ℕ) (w : World) (outcomes : List (LibCall × ℤ)) : Prop :=
  ∃ D, w.fs.view (resolve (env.getRealPath pfn)) = some D ∧ w.fs.view (env.recordFile pfn) =
    some ((serialise (recordEntries env.Z (w.junk 0) D digest)).take (taken outcomes))

/-- When `Calc` does what it is asked: with `do_set` = 0, HDFS does not open the record for writing, or it already holds
what is written; otherwise, writing the record fails, or it had values for the five digests only. -/
def Harmless (env : Env) (pfn : Bytes) (digest : ℕ) (do_set : Bool) (w : World) (outcomes : List (LibCall × ℤ)) : Prop :=
  (do_set = false → ¬ RecordOpened env pfn outcomes ∨ Already env pfn digest w outcomes) ∧
    (do_set = true → RecordFails env pfn outcomes ∨
      ∀ name, HasValue env w.fs pfn name → ∃ e ∈ digestNames, strcaseeq e.1 name)

/-! ### What it does -/

section Outcomes

variable {pfn : Bytes} {w w' : World} {outcomes : List (LibCall × ℤ)}

/-- Nothing is changed, and the record is not opened: this is as it should be. -/
theorem asAsked_of_unchanged {do_set : Bool} {rc : ℤ} {digest : ℕ} (hopened : ¬ RecordOpened env pfn outcomes)
    (hfs : w'.fs = w.fs) :
    AsAsked env pfn do_set w rc outcomes w' ↔ Harmless env pfn digest do_set w outcomes := by
  refine iff_of_true ⟨fun _ p => by rw [hfs], fun _ _ h => absurd (Or.inl hopened) h, fun _ name h => by rwa [hfs]⟩ ?_
  exact ⟨fun _ => Or.inl hopened, fun _ => Or.inl (Or.inl hopened)⟩

variable {reads : List (LibCall × ℤ)} (hreads : ∀ c ∈ reads, c.1.Reading)

include hreads

theorem results_reading : results .write (reads ++ outcomes) = results .write outcomes := by
  rw [results_append, results_eq_nil fun c hc => ?_, List.nil_append]
  have h := hreads c hc
  revert h
  cases c.1 <;> first | exact fun h => h.elim | exact fun _ => by simp [LibCall.kind]

theorem taken_reading : taken (reads ++ outcomes) = taken outcomes := by
  rw [taken, results_reading hreads]
  rfl

/-- What changes no file does not open the record. -/
theorem recordOpened_reading : RecordOpened env pfn (reads ++ outcomes) ↔ RecordOpened env pfn outcomes := by
  unfold RecordOpened
  rw [List.mem_append]
  exact or_iff_right fun h => absurd (hreads _ h) (by simp [LibCall.Reading])

theorem recordFails_reading : RecordFails env pfn (reads ++ outcomes) ↔ RecordFails env pfn outcomes := by
  have hclose : ∀ i r, (LibCall.closeFile ⟨i, true⟩, r) ∈ reads ++ outcomes ↔
      (LibCall.closeFile ⟨i, true⟩, r) ∈ outcomes := by
    intro i r
    rw [List.mem_append]
    exact or_iff_right fun h => absurd (hreads _ h) (by simp [LibCall.Reading])
  unfold RecordFails
  rw [recordOpened_reading hreads, results_reading hreads]
  simp only [hclose]

end Outcomes

/-- A record that was written without a failure holds the whole text. -/
theorem Wrote.view_of_not_fails {w w' : World} {pfn : Bytes} {values : ChecksumValues} {outcomes : List (LibCall × ℤ)}
    {ret closed : ℤ} (h : Wrote env w pfn values outcomes ret closed w') (hok : ¬ RecordFails env pfn outcomes) :
    w'.fs.view (env.recordFile pfn) = some (serialise values) := by
  obtain ⟨took, hwrites, -⟩ := h.writes
  have hret : 0 < ret := by
    by_contra hle
    exact hok (Or.inr (Or.inl ⟨ret, by rw [hwrites]; simp, not_lt.1 hle⟩))
  rw [h.put.view, List.take_of_length_le (h.full hret)]

theorem recordEntries_ne_nil {Z : Digests} (junk : UInt32) (D : Bytes) {digests digest : ℕ}
    (hd : digest ∈ [MD5, CKSUM, CRC32, ADLER32]) (hdigests : digests = ALL ∨ digests = digest) :
    recordEntries Z junk D digests ≠ [] := by
  have hname : ∀ d ∈ [MD5, CKSUM, CRC32, ADLER32], ∃ e ∈ digestNames, d &&& e.2 ≠ 0 ∧ ALL &&& e.2 ≠ 0 := by decide
  obtain ⟨e, he, hbit, hall⟩ := hname digest hd
  unfold recordEntries
  rw [Ne, List.map_eq_nil_iff]
  refine List.ne_nil_of_mem (List.mem_filter.2 ⟨he, ?_⟩)
  rcases hdigests with rfl | rfl
  · simpa using hall
  · simpa using hbit

/-- A supported digest has a text. -/
theorem Calculated.answer_eq_zero {pfn : Bytes} {cks : XrdCksData} {do_set : Bool} {w w' : World} {digest : ℕ} {D : Bytes}
    {st : ChecksumState env.Z} (h : Calculated env pfn cks do_set w digest D st w') : (calcAnswer cks digest st).1 = 0 := by
  unfold calcAnswer
  rw [if_neg (finalize_ne_nil h.supported do_set h.absorbed h.digests)]

/-- **When `Calc` does what it is asked.** -/
theorem calc_asAsked_iff (pfn : Bytes) (hck : RecordInCksums env pfn) (cks : XrdCksData) {digest : ℕ}
    (hd : returnDigest cks = some digest) (do_set : Bool) (w : World) :
    Gives (calcDigest env pfn cks do_set) w fun r w' => ∃ outcomes, w'.calls = w.calls ++ outcomes ∧
      (AsAsked env pfn do_set w r.1 outcomes w' ↔ Harmless env pfn digest do_set w outcomes) := by
  refine calc_reads pfn cks do_set w ?_ ?_
  · rintro rc w' - hu ⟨reads, hcalls, hreads⟩ -
    refine ⟨reads, hcalls, asAsked_of_unchanged (fun h => ?_) hu.fs⟩
    exact absurd (hreads _ h) (by simp [LibCall.Reading])
  intro digest' D st w₁ h
  obtain rfl : digest = digest' := Option.some.inj (hd.symm.trans h.supported)
  obtain ⟨reads, hcalls₁, hreads⟩ := h.calls
  have hvalues := stateValues_finalize h.absorbed
  rw [h.digests] at hvalues
  have hdigests : (if do_set then ALL else 0) ||| digest = if do_set then ALL else digest := by
    cases do_set
    · exact Nat.zero_or digest
    · exact returnDigest_all hd
  rw [hdigests] at hvalues
  have hne : stateValues st.finalize ≠ [] := by
    rw [hvalues]
    refine recordEntries_ne_nil _ _ (returnDigest_mem hd) ?_
    cases do_set
    · exact Or.inr rfl
    · exact Or.inl rfl
  refine (setMultiple_outcomes pfn hck (stateValues st.finalize) hne w₁).mono ?_
  rintro rc w' ⟨outcomes, hcalls, hcase⟩
  rw [hcalls₁, List.append_assoc] at hcalls
  refine ⟨reads ++ outcomes, hcalls, ?_⟩
  rcases hcase with ⟨-, hkept⟩ | ⟨ret, closed, -, hwrote⟩
  · have hopened : ¬ RecordOpened env pfn (reads ++ outcomes) := fun ho =>
      hkept.opened ((recordOpened_reading hreads).1 ho)
    exact asAsked_of_unchanged hopened (hkept.fs.trans h.unchanged.fs)
  have hopened : RecordOpened env pfn (reads ++ outcomes) := (recordOpened_reading hreads).2 hwrote.opened
  have hother : ∀ p, p ≠ env.recordFile pfn → w'.fs.view p = w.fs.view p := by
    intro p hp
    rw [hwrote.put.view_of_ne hp, h.unchanged.fs]
  have hview := hwrote.put.view
  rw [hvalues, ← taken_reading hreads] at hview
  rw [h.answer_eq_zero]
  cases do_set with
  | false =>
    -- the record is overwritten
    have hiff : (∀ p, w'.fs.view p = w.fs.view p) ↔ Already env pfn digest w (reads ++ outcomes) := by
      unfold Already
      simp only [h.data, Option.some.injEq, exists_eq_left']
      constructor
      · intro hall
        rw [← hall]
        exact hview
      · intro hold p
        by_cases hp : p = env.recordFile pfn
        · rw [hp, hold]
          exact hview
        · exact hother p hp
    constructor
    · intro hasked
      exact ⟨fun _ => Or.inr (hiff.1 (hasked.unchanged rfl)), fun h => absurd h (by decide)⟩
    · intro hharmless
      have hall := hiff.2 ((hharmless.1 rfl).resolve_left (not_not.2 hopened))
      refine ⟨fun _ => hall, fun h => absurd h (by decide), fun _ name hname => ?_⟩
      unfold HasValue
      rwa [hall]
  | true =>
    have hrecord : ¬ RecordFails env pfn (reads ++ outcomes) → ∀ name,
        HasValue env w'.fs pfn name ↔ ∃ e ∈ digestNames, strcaseeq e.1 name := by
      intro hok name
      have hwhole := hwrote.view_of_not_fails fun hf => hok ((recordFails_reading hreads).2 hf)
      rw [hvalues] at hwhole
      have hbits : ∀ e ∈ digestNames, ALL &&& e.2 ≠ 0 := by decide
      rw [hasValue_iff hwhole]
      exact exists_congr fun e => and_congr_right fun he => and_iff_right (hbits e he)
    constructor
    · refine fun hasked => ⟨fun h => absurd h (by decide), fun _ => or_iff_not_imp_left.2 fun hok name hname => ?_⟩
      exact (hrecord hok name).1 (hasked.kept (fun _ => ⟨rfl, hok⟩) name hname)
    · refine fun hharmless => ⟨fun h => absurd h (by decide), fun _ _ hok e he => ?_, fun hgood name hname => ?_⟩
      · exact (hrecord hok e.1).2 ⟨e, he, by simp [strcaseeq]⟩
      · exact (hrecord (hgood rfl).2 name).2 ((hharmless.2 rfl).resolve_left (hgood rfl).2 name hname)

/-- The MD5 of a file whose record has its MD5 and its Adler-32. -/
theorem calc_asAsked_iff_abc : RecordInCksums Reference.env (str "/a") ∧ returnDigest { Name := str "md5" } = some MD5 ∧
    Gives (calcDigest Reference.env (str "/a") { Name := str "md5" } true) verified fun r w' =>
      ∃ outcomes, w'.calls = verified.calls ++ outcomes ∧
        (AsAsked Reference.env (str "/a") true verified r.1 outcomes w' ↔
          Harmless Reference.env (str "/a") MD5 true verified outcomes) :=
  have hck : RecordInCksums Reference.env (str "/a") := by decide
  have hd : returnDigest { Name := str "md5" } = some MD5 := by decide
  ⟨hck, hd, calc_asAsked_iff (str "/a") hck { Name := str "md5" } hd true verified⟩

/-- `Calc` without `do_set` overwrites the record, and the Adler-32 is lost. -/
theorem calc_overwrites : ¬ Gives (calcDigest Reference.env (str "/a") { Name := str "md5" } false) verified fun r w' =>
    AsAsked Reference.env (str "/a") false verified r.1 w'.calls w' := by
  have hrun : ((calcDigest Reference.env (str "/a") { Name := str "md5" } false).run 9 verified).map
      (fun r => (r.1.1, r.2.fs.view (Reference.env.recordFile (str "/a")))) =
      some (0, some (str "MD5:900150983cd24fb0d6963f7d28e17f72\n")) := by decide +kernel
  obtain ⟨⟨⟨rc, cks⟩, w'⟩, hrun, hout⟩ := Option.map_eq_some_iff.1 hrun
  obtain ⟨-, hview⟩ := Prod.mk.inj hout
  intro h
  have hsame := (h.ends 9 (rc, cks) w' hrun).unchanged rfl (Reference.env.recordFile (str "/a"))
  dsimp only at hview
  rw [hview, verified_view] at hsame
  exact absurd hsame (by decide)

end XrdHdfs
