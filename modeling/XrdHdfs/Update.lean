import XrdHdfs.Entries
import XrdHdfs.Decode

/-!
# `Set` as an update of the record

The record maps digest names, in any letter case, to values: `lastValue`, the last entry with a name counts.  `Set` of
one digest should change the value of that name and no other.  It does where the record exists, unless an earlier entry
already has the new value and the last one has another: then `Set` takes the record for unchanged
(`set_updates_iff`).
-/

namespace XrdHdfs

open Lib World ChecksumManager

variable {env : Env}

/-! ### Letter case -/

theorem upper_eq_iff {s t : Bytes} : upper s = upper t ↔ strcaseeq s t := by
  have hup : toupper ∘ tolower = toupper := funext (forall_byte (by decide +kernel))
  have hlow : tolower ∘ toupper = tolower := funext (forall_byte (by decide +kernel))
  unfold upper strcaseeq
  rw [beq_iff_eq]
  constructor
  · intro h
    have h' := congrArg (List.map tolower) h
    rwa [List.map_map, List.map_map, hlow] at h'
  · intro h
    have h' := congrArg (List.map toupper) h
    rwa [List.map_map, List.map_map, hup] at h'

theorem strcaseeq_congr {s t : Bytes} (h : strcaseeq s t) (u : Bytes) : strcaseeq s u = strcaseeq t u := by
  unfold strcaseeq at *
  rw [beq_iff_eq.1 h]

theorem strcaseeq_upper (s t : Bytes) : strcaseeq (upper s) t = strcaseeq s t :=
  strcaseeq_congr (upper_eq_iff.1 (upper_upper s)) t

/-! ### Entries that `Parse` makes -/

/-- Every entry that `Parse` makes could have been written by `SetMultiple`, but for the case of its name. -/
theorem goodEntry_parseText {s : Bytes} (h0 : 0 ∉ s) : ∀ e ∈ (parseText s).2, GoodEntry e := by
  -- by induction on the length: every turn of the loop takes a word off the text
  induction hn : s.length using Nat.strong_induction_on generalizing s with
  | _ n ih =>
    rcases hs : sscanf s with _ | ⟨w, r⟩
    · rw [parseText_of_none hs]
      simp
    obtain ⟨ws, hsc⟩ := scanned_of_sscanf hs
    rw [parseText_scanned hsc]
    rcases he : splitEntry w with _ | ⟨name, v⟩
    · simp [parseWord, he]
    obtain ⟨rfl, hname, hval⟩ := splitEntry_eq_some.1 he
    have hgood : GoodEntry (name, v) := by
      have hmem : ∀ c ∈ name ++ 58 :: v, !isspace c ∧ c ≠ 0 := by
        refine fun c hc => ⟨hsc.word c hc, ?_⟩
        rintro rfl
        exact h0 (by rw [hsc.eq]; simp only [List.mem_append] at hc ⊢; exact Or.inl (Or.inr hc))
      refine ⟨fun c hc => ⟨(hmem c (by simp [hc])).1, ?_, (hmem c (by simp [hc])).2⟩, hval, fun c hc => hmem c (by simp [hc])⟩
      rintro rfl
      exact hname hc
    cases r with
    | nil => simpa [parseWord, he] using hgood
    | cons c r =>
      have hlt := hsc.length_lt
      have hrest : ∀ e ∈ (parseText r).2, GoodEntry e := by
        refine ih r.length (by rw [List.length_cons] at hlt; omega) (fun hr => h0 ?_) rfl
        rw [hsc.eq]
        simp [hr]
      unfold parseWord
      rw [he]
      dsimp only
      split_ifs
      · simpa using hgood
      · simpa using hgood
      · exact List.forall_mem_cons.2 ⟨hgood, hrest⟩

theorem goodEntry_parse (text : Bytes) : ∀ e ∈ (parse text).2, GoodEntry e :=
  goodEntry_parseText (not_mem_zero_cstr text)

/-! ### The value of a name -/

/-- Entries under other names do not matter. -/
theorem lastValue_map {f : ChecksumValue → ChecksumValue} {name : Bytes} (hf : ∀ e, (f e).1 = e.1)
    (hother : ∀ e, strcaseeq e.1 name → (f e).2 = e.2) (vs : ChecksumValues) :
    lastValue (vs.map f) name = lastValue vs name := by
  induction vs using List.reverseRecOn with
  | nil => rfl
  | append_singleton vs e ih =>
    rw [List.map_append, List.map_singleton, lastValue_concat, lastValue_concat, hf, ih]
    by_cases he : strcaseeq e.1 name
    · rw [if_pos he, if_pos he, hother e he]
    · rw [if_neg he, if_neg he]

theorem lastValue_upperName (vs : ChecksumValues) (name : Bytes) :
    lastValue (vs.map upperName) name = lastValue vs name := by
  induction vs using List.reverseRecOn with
  | nil => rfl
  | append_singleton vs e ih =>
    rw [List.map_append, List.map_singleton, lastValue_concat, lastValue_concat, ih]
    simp only [upperName, strcaseeq_upper]

/-- Where all entries with the name have one value, that is the value of the name. -/
theorem lastValue_of_forall {vs : ChecksumValues} {name v : Bytes} (hall : ∀ e ∈ vs, strcaseeq e.1 name → e.2 = v)
    (hex : ∃ e ∈ vs, strcaseeq e.1 name) : lastValue vs name = v := by
  rcases lastMatch_lastValue vs name with ⟨pre, e, post, heq, hm, hv, -⟩ | ⟨-, hno⟩
  · rw [← hv]
    exact hall e (by rw [heq]; simp) hm
  · obtain ⟨e, he, hm⟩ := hex
    exact absurd hm (hno e he)

/-! ### What `Set` writes -/

section Merge

variable {cks : XrdCksData} {text : Bytes} {values values' : ChecksumValues}

/-- **What `Set` writes, and when it writes nothing.** Nothing if an entry with the name has the value already; otherwise
entries that give the name the new value, and every other name the value it had. -/
theorem merge_spec (cks : XrdCksData) (text : Bytes) (values : ChecksumValues) :
    (merge cks text values = none ↔ ∃ e ∈ values, strcaseeq e.1 cks.Name ∧ e.2 = text) ∧
      ∀ values', merge cks text values = some values' → lastValue values' cks.Name = text ∧
        ∀ name, ¬ strcaseeq name cks.Name → lastValue values' name = lastValue values name := by
  unfold merge mergeValue
  simp only [upper_eq_iff]
  constructor
  · simp
  · intro values' h
    -- no entry with the name has the value already
    simp only [Bool.not_eq_eq_eq_not, Bool.not_true, List.any_eq_false, decide_eq_true_eq, not_and,
      Option.ite_none_right_eq_some, Option.some.injEq] at h
    obtain ⟨-, rfl⟩ := h
    generalize hf : (fun e : ChecksumValue => if strcaseeq e.1 cks.Name ∧ e.2 ≠ text then (e.1, text) else e) = f
    have hname : ∀ e, (f e).1 = e.1 := by
      intro e
      rw [← hf]
      dsimp only
      split <;> rfl
    have hnew : ∀ e, strcaseeq e.1 cks.Name → (f e).2 = text := by
      intro e he
      rw [← hf]
      dsimp only
      by_cases hv : e.2 = text
      · rw [if_neg (fun h => h.2 hv), hv]
      · rw [if_pos ⟨he, hv⟩]
    have hother : ∀ name, ¬ strcaseeq name cks.Name → lastValue (values.map f) name = lastValue values name := by
      intro name hne
      refine lastValue_map hname (fun e he => ?_) values
      rw [← hf]
      dsimp only
      rw [if_neg fun h => hne (strcaseeq_congr he cks.Name ▸ h.1)]
    by_cases hex : ∃ e ∈ values, strcaseeq e.1 cks.Name
    · rw [if_pos (by simpa using hex)]
      refine ⟨lastValue_of_forall ?_ ?_, hother⟩
      · intro e he hm
        obtain ⟨e, -, rfl⟩ := List.mem_map.1 he
        rw [hname] at hm
        exact hnew e hm
      · obtain ⟨e, he, hm⟩ := hex
        exact ⟨f e, List.mem_map_of_mem he, by rwa [hname]⟩
    · rw [if_neg (by simpa using hex)]
      refine ⟨?_, fun name hne => ?_⟩
      · rw [lastValue_concat, if_pos (upper_eq_iff.1 (upper_upper _))]
      · rw [lastValue_concat, if_neg, hother name hne]
        rw [strcaseeq_upper]
        exact fun h => hne (upper_eq_iff.1 (upper_eq_iff.2 h).symm)

/-- What `Set` writes can be read back. -/
theorem goodEntry_merge (hname : ∀ c ∈ cks.Name, !isspace c ∧ c ≠ 58 ∧ c ≠ 0)
    (htext : text ≠ [] ∧ ∀ c ∈ text, !isspace c ∧ c ≠ 0) (hgood : ∀ e ∈ values, GoodEntry e)
    (h : merge cks text values = some values') : ∀ e ∈ values', GoodEntry e := by
  have hmap : ∀ e ∈ (mergeValue (upper cks.Name) text values).1, GoodEntry e := by
    intro e he
    obtain ⟨d, hd, rfl⟩ := List.mem_map.1 he
    split
    · exact ⟨(hgood d hd).1, htext⟩
    · exact hgood d hd
  unfold merge at h
  simp only [Option.ite_none_right_eq_some, Option.some.injEq] at h
  obtain ⟨-, rfl⟩ := h
  split
  · exact hmap
  · intro e he
    rcases List.mem_append.1 he with he | he
    · exact hmap e he
    · obtain rfl := List.mem_singleton.1 he
      exact goodEntry_upperName (e := (cks.Name, text)) ⟨hname, htext⟩

end Merge

/-! ### `Set` and `Get` without faults -/

theorem get_calm (hoss : env.g_hdfs_oss) {pfn : Bytes} {w : World} (hw : w.Calm) {F : Bytes}
    (hF : w.fs.view (env.recordFile pfn) = some F) (cks : XrdCksData) :
    Gives (ChecksumManager.get env pfn cks) w fun out _ => out = answer env cks (readText F) := by
  refine (get_mapped pfn cks w).mono ?_
  rintro out w' (⟨-, -, -, hno⟩ | ⟨-, F', text, hF', -, hcalm, rfl, -⟩)
  · rw [hno hw hoss] at hF
    cases hF
  · rw [hF, Option.some.injEq] at hF'
    rw [hF', hcalm hw]

/-- A file that is there can be replaced. -/
theorem Fs.create_of_view {fs : Fs} {p : HPath} {t : Bytes} (h : fs.view p = some t) : fs.create p ≠ none := by
  obtain ⟨i, hi, -⟩ := view_eq_some.1 h
  obtain ⟨m, hm⟩ := Tree.ino_eq_some.1 hi
  have hc : fs.tree.Creatable p := by
    refine ⟨?_, ?_, fun q hq hne => ?_⟩
    · rintro rfl
      obtain ⟨k, hk⟩ := fs.valid.root
      rw [hk] at hm
      cases hm
    · rintro ⟨k, hk⟩
      rw [hk] at hm
      cases hm
    · obtain ⟨r, rfl⟩ := (List.mem_inits q p).1 hq
      exact (fs.valid.isDir_of_prefix (r := r) (by rintro rfl; simp at hne) (by rw [hm]; simp)).ino
  unfold create
  rw [dif_pos hc]
  simp

/-- **`Set` without faults.** -/
theorem set_calm (hoss : env.g_hdfs_oss) (pfn : Bytes) (hck : RecordInCksums env pfn) (cks : XrdCksData) (w : World)
    (hw : w.Calm) (hparse : ∀ F, w.fs.view (env.recordFile pfn) = some F → (parse (readText F)).1 = 0) :
    Gives (ChecksumManager.set env pfn cks) w fun rc w' => w'.Calm ∧
      (w.fs.view (env.recordFile pfn) = none → rc ≠ 0) ∧
      ∀ F, w.fs.view (env.recordFile pfn) = some F →
        match merge cks (env.cks.Get cks) (parse (readText F)).2 with
        | none => rc = 0 ∧ w'.fs.view (env.recordFile pfn) = some F
        | some values => (serialise values).length < 2 ^ 31 →
          rc = 0 ∧ w'.fs.view (env.recordFile pfn) = some (serialise values) := by
  unfold ChecksumManager.set
  refine Gives.bind ((getFileContents_mapped pfn w).mono ?_)
  rintro ⟨rc, text⟩ w₁ ⟨hu, ⟨hrc, hno⟩ | ⟨rfl, -, F, hF, -, hcalm⟩⟩
  · dsimp only at hrc ⊢
    refine Gives.ite (fun hne => Gives.pure ⟨hu.later.calm hw, fun _ => hne, fun F hF => ?_⟩) fun h => absurd hrc (by omega)
    rw [hno hw hoss] at hF
    cases hF
  obtain rfl : text = readText F := hcalm hw
  have hp := hparse F hF
  have hsome : w.fs.view (env.recordFile pfn) ≠ none := by simp [hF]
  simp only [hF, Option.some.injEq, forall_eq']
  refine Gives.ite (fun h => absurd rfl h) fun _ => Gives.ite (fun h => absurd hp h) fun _ => ?_
  cases merge cks (env.cks.Get cks) (parse (readText F)).2 with
  | none => exact Gives.pure ⟨hu.later.calm hw, by simp, rfl, by rw [hu.fs, hF]⟩
  | some values =>
    refine (setMultiple_mapped pfn hck values w₁).mono ?_
    rintro rc w₂ ⟨hl, ⟨-, -, hno⟩ | ⟨-, t, -, hput, hall⟩⟩
    · refine absurd (hno (hu.later.calm hw)) (Fs.create_of_view (t := F) ?_)
      rw [hu.fs, hF]
    · refine ⟨hl.calm (hu.later.calm hw), by simp, fun hlen => ?_⟩
      obtain ⟨rfl, hrc⟩ := hall (hu.later.calm hw) hlen
      exact ⟨hrc, hput.view⟩

/-! ### The update -/

/-- **What `Set` should do**: return 0; a `Get` of the name, in any letter case, then reads a recorded text of the value,
and gives the value; a `Get` of any other digest answers what it answered before. -/
structure SetUpdates (env : Env) (pfn : Bytes) (cks : XrdCksData) (w : World) (rc : ℤ) (w' : World) : Prop where
  rc_eq : rc = 0
  same : ∀ c : XrdCksData, strcaseeq c.Name cks.Name → Gives (ChecksumManager.get env pfn c) w' fun out _ =>
    out.rc = 0 ∧ out.recorded.bind unhex = some (cks.Value.take cks.Length) ∧ out.cks.Length = cks.Length ∧
      out.cks.Value.take cks.Length = cks.Value.take cks.Length
  other : ∀ c : XrdCksData, ¬ strcaseeq (requestedChecksum c) cks.Name → Gives (ChecksumManager.get env pfn c) w
    fun before _ => Gives (ChecksumManager.get env pfn c) w' fun after _ =>
      after.rc = before.rc ∧ after.recorded = before.recorded

/-- An entry with the name has the text of the value, while the last entry with the name has the text of no such value. -/
def Shadowed (cks : XrdCksData) (values : ChecksumValues) : Prop :=
  (∃ e ∈ values, strcaseeq e.1 cks.Name ∧ e.2 = human_readable_evp (cks.Value.take cks.Length)) ∧
    unhex (lastValue values cks.Name) ≠ some (cks.Value.take cks.Length)

instance (cks : XrdCksData) (values : ChecksumValues) : Decidable (Shadowed cks values) := by
  unfold Shadowed
  infer_instance

/-- What `Get` answers depends on the value of the name only. -/
theorem answer_congr {c : XrdCksData} {text text' : Bytes} (h : (parse text).1 = 0) (h' : (parse text').1 = 0)
    (hv : lastValue (parse text').2 (requestedChecksum c) = lastValue (parse text).2 (requestedChecksum c)) :
    answer env c text' = answer env c text := by
  simp only [answer, h, h', hv]

theorem length_of_unhex : ∀ {v x : Bytes}, unhex v = some x → v.length = 2 * x.length
  | [], x, h => by
    obtain rfl : [] = x := Option.some.inj h
    rfl
  | [_], x, h => by cases h
  | a :: b :: s, x, h => by
    unfold unhex at h
    obtain ⟨hi, -, h⟩ := Option.bind_eq_some_iff.1 h
    obtain ⟨lo, -, h⟩ := Option.bind_eq_some_iff.1 h
    obtain ⟨rest, hrest, h⟩ := Option.bind_eq_some_iff.1 h
    obtain rfl := Option.some.inj h
    have := length_of_unhex hrest
    simp only [List.length_cons]
    omega

theorem lastValue_congr {name name' : Bytes} (h : strcaseeq name name') (vs : ChecksumValues) :
    lastValue vs name = lastValue vs name' := by
  have heq : ∀ s, strcaseeq s name = strcaseeq s name' := by
    intro s
    unfold strcaseeq at *
    rw [beq_iff_eq.1 h]
  simp only [lastValue, heq]

section Answer

variable {c cks : XrdCksData} {text : Bytes} (hne : cks.Name ≠ []) (hc : strcaseeq c.Name cks.Name)

include hne hc in
theorem requestedChecksum_eq : requestedChecksum c = c.Name := by
  refine if_neg ?_
  intro h0
  rw [h0, strcaseeq, beq_iff_eq, List.map_nil] at hc
  exact hne (List.map_eq_nil_iff.1 hc.symm)

include hne hc in
/-- What `Get` answers where the record has the text of a value. -/
theorem answer_value (hlen : 1 ≤ cks.Length ∧ cks.Length ≤ 32) (hval : cks.Value.length = ValuSize)
    (hp : (parse text).1 = 0) (hv : unhex (lastValue (parse text).2 cks.Name) = some (cks.Value.take cks.Length)) :
    (answer env c text).rc = 0 ∧ (answer env c text).recorded.bind unhex = some (cks.Value.take cks.Length) ∧
      (answer env c text).cks.Length = cks.Length ∧
      (answer env c text).cks.Value.take cks.Length = cks.Value.take cks.Length := by
  rw [← lastValue_congr hc, ← requestedChecksum_eq hne hc] at hv
  have h64 : ValuSize = 64 := rfl
  have hx : (cks.Value.take cks.Length).length = cks.Length := by
    rw [List.length_take, hval]
    omega
  have hl := length_of_unhex hv
  obtain ⟨hL, hV⟩ := env.cks.set_hex c _ _ hv (by omega)
  unfold answer
  dsimp only
  generalize lastValue (parse text).2 (requestedChecksum c) = v at *
  rw [if_neg, if_neg (by omega)]
  · rw [hx] at hL hV
    exact ⟨rfl, hv, hL, hV⟩
  · rintro (h | rfl)
    · exact h hp
    · simp only [List.length_nil] at hl
      omega

end Answer

/-- The record that `Set` writes, if it writes one, is below 2 GiB. -/
def Fits (env : Env) (cks : XrdCksData) (values : ChecksumValues) : Prop :=
  ∀ values', merge cks (env.cks.Get cks) values = some values' → (serialise values').length < 2 ^ 31

/-- **When `Set` updates the record.** On a record that `Parse` accepts, or none, and without faults: a `Set` that does
what it should found a record in which the name is not shadowed; and then it does, if what it writes is below 2 GiB. -/
theorem set_updates_iff (hoss : env.g_hdfs_oss) (pfn : Bytes) (hck : RecordInCksums env pfn) (cks : XrdCksData)
    (hne : cks.Name ≠ []) (hname : ∀ c ∈ cks.Name, !isspace c ∧ c ≠ 58 ∧ c ≠ 0)
    (hlen : 1 ≤ cks.Length ∧ cks.Length ≤ 32) (hval : cks.Value.length = ValuSize) (w : World) (hw : w.Calm)
    (hparse : ∀ F, w.fs.view (env.recordFile pfn) = some F → (parse (readText F)).1 = 0) :
    Gives (ChecksumManager.set env pfn cks) w fun rc w' =>
      (SetUpdates env pfn cks w rc w' →
        ∃ F, w.fs.view (env.recordFile pfn) = some F ∧ ¬ Shadowed cks (parse (readText F)).2) ∧
      ∀ F, w.fs.view (env.recordFile pfn) = some F → Fits env cks (parse (readText F)).2 →
        ¬ Shadowed cks (parse (readText F)).2 → SetUpdates env pfn cks w rc w' := by
  have htext : env.cks.Get cks = human_readable_evp (cks.Value.take cks.Length) := env.cks.get_hex cks
  refine (set_calm hoss pfn hck cks w hw hparse).mono ?_
  rintro rc w' ⟨hw', hnone, hsome⟩
  cases hF : w.fs.view (env.recordFile pfn) with
  | none => exact ⟨fun h => absurd h.rc_eq (hnone hF), by simp⟩
  | some F =>
  have hp := hparse F hF
  replace hsome := hsome F hF
  simp only [Option.some.injEq, exists_eq_left', forall_eq']
  obtain ⟨hmnone, hmsome⟩ := merge_spec cks (env.cks.Get cks) (parse (readText F)).2
  rw [htext] at hmnone
  -- what a `Get` answers before
  have hbefore := fun c => get_calm hoss hw hF c
  unfold Fits
  cases hm : merge cks (env.cks.Get cks) (parse (readText F)).2 with
  | none =>
    -- nothing is written
    rw [hm] at hsome
    obtain ⟨hrc, hF'⟩ := hsome
    have hafter := fun c => get_calm hoss hw' hF' c
    constructor
    · rintro hset ⟨-, hlast⟩
      have hself : strcaseeq cks.Name cks.Name := by simp [strcaseeq]
      obtain ⟨n, out, w₂, hrun, hrc', hrec, -⟩ := hset.same cks hself
      obtain rfl := (hafter cks).ends n out w₂ hrun
      obtain ⟨-, -, -, hv, -⟩ := answer_eq_zero hrc'
      rw [hv, Option.bind_some, requestedChecksum_eq hne hself] at hrec
      exact hlast hrec
    · intro _ hsh
      refine ⟨hrc, fun c hc => (hafter c).mono ?_, fun c _ => (hbefore c).mono ?_⟩
      · rintro out w₂ rfl
        refine answer_value hne hc hlen hval hp ?_
        by_contra hlast
        exact hsh ⟨hmnone.1 (htext ▸ hm), hlast⟩
      · rintro before w₂ rfl
        exact (hafter c).mono fun after w₃ h => by rw [h]; exact ⟨rfl, rfl⟩
  | some values =>
    rw [hm] at hsome
    have hgood : ∀ e ∈ values, GoodEntry e := by
      refine goodEntry_merge hname ⟨fun h0 => ?_, fun c hc => ?_⟩ (goodEntry_parse _) hm
      · have hl := congrArg List.length h0
        rw [htext, length_human_readable_evp, List.length_take, hval, List.length_nil] at hl
        have h64 : ValuSize = 64 := rfl
        omega
      · rw [htext] at hc
        exact isWord_hex hc
    obtain ⟨hnew, hold⟩ := hmsome values hm
    refine ⟨fun _ hsh => ?_, fun hfits _ => ?_⟩
    · have := hmnone.2 hsh.1
      rw [← htext, hm] at this
      cases this
    · obtain ⟨hrc, hF'⟩ := hsome (hfits values rfl)
      have hread : readText (serialise values) = serialise values :=
        (isText_readText _).eq_self (not_mem_zero_serialise hgood)
      have hparse' := parse_serialise hgood
      have hafter := fun c => get_calm hoss hw' hF' c
      rw [hread] at hafter
      have hp' : (parse (serialise values)).1 = 0 := by rw [hparse']
      refine ⟨hrc, fun c hc => (hafter c).mono ?_, fun c hc => (hbefore c).mono ?_⟩
      · rintro out w₂ rfl
        refine answer_value hne hc hlen hval hp' ?_
        rw [hparse', lastValue_upperName, hnew, htext, unhex_human_readable_evp]
      · rintro before w₂ rfl
        refine (hafter c).mono fun after w₃ h => ?_
        rw [h, answer_congr hp hp']
        · exact ⟨rfl, rfl⟩
        · rw [hparse', lastValue_upperName, hold _ hc]

/-- The data of a digest whose value is `x`. -/
def XrdCksData.of (name x : Bytes) : XrdCksData :=
  { Name := name, Value := x ++ List.replicate (64 - x.length) 0, Length := x.length }

/-- HDFS with a record of `/a` that has two values for its MD5. -/
def twoValues : World where
  fs := .ofFiles [(str "/a", str "x"), (str "/cksums/a", str "MD5:aa\nmd5:bb\n")]

theorem set_updates_iff_cc : Gives (ChecksumManager.set Reference.env (str "/a") (.of (str "md5") [0xcc])) twoValues
    fun rc w' => SetUpdates Reference.env (str "/a") (.of (str "md5") [0xcc]) twoValues rc w' := by
  have hF : twoValues.fs.view (Reference.env.recordFile (str "/a")) = some (str "MD5:aa\nmd5:bb\n") := by decide +kernel
  refine (@set_updates_iff Reference.env rfl (str "/a") (by decide) (.of (str "md5") [0xcc]) (by decide) (by decide +kernel)
    (by decide) (by decide) twoValues (fun c a ha => by cases ha) fun F hF' => ?_).mono fun rc w' h =>
    h.2 _ hF (fun values' hm => ?_) (by decide +kernel)
  · rw [hF, Option.some.injEq] at hF'
    subst hF'
    decide +kernel
  · have hm' : merge (.of (str "md5") [0xcc]) (Reference.env.cks.Get (.of (str "md5") [0xcc]))
        (parse (readText (str "MD5:aa\nmd5:bb\n"))).2 = some [(str "MD5", str "cc"), (str "md5", str "cc")] := by
      decide +kernel
    rw [hm', Option.some.injEq] at hm
    subst hm
    decide +kernel

/-- Without a record `Set` returns the error of its `Open`; and setting the value that the first of two entries has
returns 0, and the last entry keeps the other value. -/
theorem set_loses_update :
    ((ChecksumManager.set Reference.env (str "/a") (.of (str "md5") [0xaa])).run 9 { fs := .empty }).map (·.1) =
      some (-ENOENT) ∧
    ((ChecksumManager.set Reference.env (str "/a") (.of (str "md5") [0xaa])).run 9 twoValues).map
      (fun r => (r.1, r.2.fs.view (recordPath (str "/a")))) = some (0, some (str "MD5:aa\nmd5:bb\n")) ∧
    ((do
      let _ ← ChecksumManager.set Reference.env (str "/a") (.of (str "md5") [0xaa])
      ChecksumManager.get Reference.env (str "/a") { Name := str "md5" } : Prog World GetOut).run 9 twoValues).map
        (fun r => (r.1.rc, r.1.cks.Value.take r.1.cks.Length)) = some (0, [0xbb]) := by
  decide +kernel

end XrdHdfs
