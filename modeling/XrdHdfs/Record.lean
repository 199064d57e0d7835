import Mathlib.Data.List.TakeWhile
import XrdHdfs.Text

/-!
# The text of a checksum record

A record has one entry a line, the digest's name, a colon and the value.  `parse` is `ChecksumManager::Parse`
with its `sscanf` loop, `serialise` the text that `SetMultiple` builds and `lastValue` the loop with which `Get`
looks a digest up.

`parse_serialise` is the round trip.  `parse_prefix` says what is read from a text that is cut off: entries of
the whole text, of which only the last may have lost the end of its value, and then the text ends there.
-/

namespace XrdHdfs

abbrev ChecksumValue := Bytes × Bytes
abbrev ChecksumValues := List ChecksumValue

/-! ### Parse -/

/-- `isspace` in the C locale. -/
def isspace (c : UInt8) : Bool := c == 32 || (9 ≤ c && c ≤ 13)

/-- `sscanf(ptr, "%s%n", …)`: the first run of characters that are not white space, and what follows it. -/
def sscanf (ptr : Bytes) : Option (Bytes × Bytes) :=
  let s := ptr.dropWhile isspace
  if s = [] then none else some (s.takeWhile (!isspace ·), s.dropWhile (!isspace ·))

/-- An entry: at least two characters, a colon, and a value behind the first colon. -/
def splitEntry (token : Bytes) : Option ChecksumValue :=
  if token.length < 2 then none
  else
    match token.dropWhile (· != 58) with
    | _ :: c :: val => some (token.takeWhile (· != 58), c :: val)
    | _ => none

/-- One turn of the loop of `Parse` with a word, and `next` for the turns on what is left.  An error keeps what
was pushed before it. -/
def parseWord (next : Bytes → ℤ × ChecksumValues) (token rest : Bytes) : ℤ × ChecksumValues :=
  match splitEntry token with
  | none => (- EIO, [])
  | some entry =>
    match rest with
    | [] => (0, [entry])
    | c :: rest =>
      if c ≠ 10 then (- EIO, [entry])
      else if rest = [] then (0, [entry])
      else ((next rest).1, entry :: (next rest).2)

def parseLoop : ℕ → Bytes → ℤ × ChecksumValues
  | 0, _ => (0, [])
  | k + 1, ptr =>
    match sscanf ptr with
    | none => (0, [])
    | some (token, rest) => parseWord (parseLoop k) token rest

/-- The loop on a text, with turns for all of it. -/
def parseText (ptr : Bytes) : ℤ × ChecksumValues := parseLoop (ptr.length + 1) ptr

/-- `ChecksumManager::Parse`. -/
def parse (checksum_contents : Bytes) : ℤ × ChecksumValues := parseText (cstr checksum_contents)

/-! ### The text of a record and its entries -/

/-- One line of `SetMultiple`. -/
def line (e : ChecksumValue) : Bytes := upper e.1 ++ 58 :: e.2 ++ [10]

/-- The text that `SetMultiple` writes. -/
def serialise (values : ChecksumValues) : Bytes := values.flatMap line

/-- The value `Get` finds: that of the last entry with the name, or the empty string. -/
def lastValue (values : ChecksumValues) (name : Bytes) : Bytes :=
  values.foldl (fun v e => if strcaseeq e.1 name then e.2 else v) []

/-- The name as `SetMultiple` writes it. -/
def upperName (e : ChecksumValue) : ChecksumValue := (upper e.1, e.2)

/-- An entry whose line reads back. -/
def GoodEntry (e : ChecksumValue) : Prop :=
  (∀ c ∈ e.1, !isspace c ∧ c ≠ 58 ∧ c ≠ 0) ∧ e.2 ≠ [] ∧ ∀ c ∈ e.2, !isspace c ∧ c ≠ 0

instance (e : ChecksumValue) : Decidable (GoodEntry e) :=
  @instDecidableAnd _ _ (List.decidableBAll _ _) (@instDecidableAnd _ _ inferInstance (List.decidableBAll _ _))

/-! ### What `sscanf` reads -/

/-- White space, a word, and then the end or white space again. -/
structure Scanned (s ws w r : Bytes) : Prop where
  eq : s = ws ++ w ++ r
  space : ∀ c ∈ ws, isspace c
  ne : w ≠ []
  word : ∀ c ∈ w, !isspace c
  stop : ∀ c ∈ r.head?, isspace c

theorem Scanned.sscanf {s ws w r : Bytes} (h : Scanned s ws w r) : sscanf s = some (w, r) := by
  have hdrop : s.dropWhile isspace = w ++ r := by
    obtain ⟨c, w', rfl⟩ := List.exists_cons_of_ne_nil h.ne
    have hc := h.word c (by simp)
    rw [h.eq, List.append_assoc, List.dropWhile_append_of_pos h.space, List.cons_append,
      List.dropWhile_cons_of_neg (by simpa using hc)]
  have htake : (w ++ r).takeWhile (!isspace ·) = w ∧ (w ++ r).dropWhile (!isspace ·) = r := by
    rw [List.takeWhile_append_of_pos h.word, List.dropWhile_append_of_pos h.word]
    cases r with
    | nil => simp
    | cons c r =>
      have hc := h.stop c (by simp)
      simp [hc]
  unfold XrdHdfs.sscanf
  simp only [hdrop]
  rw [if_neg (by simp [h.ne]), htake.1, htake.2]

theorem sscanf_eq_none {s : Bytes} (h : sscanf s = none) : ∀ c ∈ s, isspace c := by
  unfold sscanf at h
  simp only [ite_eq_left_iff, reduceCtorEq, imp_false, not_not] at h
  exact List.dropWhile_eq_nil_iff.1 h

theorem scanned_of_sscanf {s w r : Bytes} (h : sscanf s = some (w, r)) : ∃ ws, Scanned s ws w r := by
  unfold sscanf at h
  simp only [Option.ite_none_left_eq_some, Option.some.injEq, Prod.mk.injEq] at h
  obtain ⟨hne, rfl, rfl⟩ := h
  refine ⟨s.takeWhile isspace, ?_, ?_, ?_, ?_, ?_⟩
  · rw [List.append_assoc, List.takeWhile_append_dropWhile, List.takeWhile_append_dropWhile]
  · exact fun c hc => List.mem_takeWhile_imp hc
  · obtain ⟨c, t, ht⟩ := List.exists_cons_of_ne_nil hne
    have hc : ¬ isspace c := by
      have := List.head?_dropWhile_not isspace s
      rw [ht] at this
      simpa using this
    rw [ht, List.takeWhile_cons_of_pos (by simpa using hc)]
    simp
  · exact fun c hc => List.mem_takeWhile_imp (p := (!isspace ·)) hc
  · intro c hc
    have := List.head?_dropWhile_not (!isspace ·) (s.dropWhile isspace)
    rw [hc] at this
    simpa using this

/-! ### The loop and its fuel -/

theorem Scanned.length_lt {s ws w r : Bytes} (h : Scanned s ws w r) : r.length < s.length := by
  have := List.length_pos_iff.2 h.ne
  rw [h.eq, List.length_append, List.length_append]
  omega

/-- A turn asks for what is read from the rest behind the line feed only. -/
theorem parseWord_congr {next next' : Bytes → ℤ × ChecksumValues} {w r : Bytes}
    (h : ∀ s, s.length < r.length → next s = next' s) : parseWord next w r = parseWord next' w r := by
  unfold parseWord
  cases splitEntry w with
  | none => rfl
  | some entry =>
    cases r with
    | nil => rfl
    | cons c r =>
      dsimp only
      rw [h r (by simp)]

/-- A turn for every character is enough. -/
theorem parseLoop_fuel {k l : ℕ} {s : Bytes} (hk : s.length < k) (hl : s.length < l) : parseLoop k s = parseLoop l s := by
  induction k generalizing l s with
  | zero => exact absurd hk (Nat.not_lt_zero _)
  | succ k ih =>
    obtain ⟨l, rfl⟩ : ∃ l', l = l' + 1 := ⟨l - 1, by omega⟩
    unfold parseLoop
    rcases hs : sscanf s with _ | ⟨token, r⟩
    · rfl
    obtain ⟨ws, hsc⟩ := scanned_of_sscanf hs
    have hlt := hsc.length_lt
    exact parseWord_congr fun t ht => ih (by omega) (by omega)

theorem parseText_nil : parseText [] = (0, []) := rfl

theorem parseText_of_none {s : Bytes} (h : sscanf s = none) : parseText s = (0, []) := by
  simp only [parseText, parseLoop, h]

/-- One turn of the loop on a text. -/
theorem parseText_scanned {s ws w r : Bytes} (h : Scanned s ws w r) : parseText s = parseWord parseText w r := by
  rw [parseText, parseLoop, h.sscanf]
  have hlt := h.length_lt
  exact parseWord_congr fun t ht => parseLoop_fuel (by omega) (by omega)

/-- A line feed at the very end is no different from one with more behind it. -/
theorem parseWord_newline {w : Bytes} {e : ChecksumValue} (he : splitEntry w = some e) (r : Bytes) :
    parseWord parseText w (10 :: r) = ((parseText r).1, e :: (parseText r).2) := by
  unfold parseWord
  rw [he]
  dsimp only
  rw [if_neg (by simp)]
  split
  · next hr => rw [hr, parseText_nil]
  · rfl

/-! ### Entries -/

theorem splitEntry_eq_some {w : Bytes} {e : ChecksumValue} :
    splitEntry w = some e ↔ w = e.1 ++ 58 :: e.2 ∧ 58 ∉ e.1 ∧ e.2 ≠ [] := by
  obtain ⟨name, val⟩ := e
  constructor
  · intro h
    unfold splitEntry at h
    split at h
    · cases h
    · split at h
      · next d c v hd =>
        simp only [Option.some.injEq, Prod.mk.injEq] at h
        obtain ⟨rfl, rfl⟩ := h
        have hcolon : d = 58 := by
          have := List.head?_dropWhile_not (· != 58) w
          rw [hd] at this
          simpa using this
        refine ⟨?_, fun hmem => ?_, by simp⟩
        · conv_lhs => rw [← List.takeWhile_append_dropWhile (p := (· != 58)) (l := w), hd, hcolon]
        · simpa using List.mem_takeWhile_imp hmem
      · cases h
  · rintro ⟨rfl, hname, hval⟩
    obtain ⟨c, v, rfl⟩ := List.exists_cons_of_ne_nil (show val ≠ [] from hval)
    have hpos : ∀ x ∈ name, (x != 58) = true := by
      intro x hx
      simp only [bne_iff_ne, ne_eq]
      rintro rfl
      exact hname hx
    unfold splitEntry
    dsimp only
    rw [if_neg (by simp; omega), List.dropWhile_append_of_pos hpos, List.takeWhile_append_of_pos hpos]
    simp

/-! ### The round trip -/

theorem toupper_good : ∀ c : UInt8, (!isspace c ∧ c ≠ 58 ∧ c ≠ 0) →
    (!isspace (toupper c) ∧ toupper c ≠ 58 ∧ toupper c ≠ 0) :=
  forall_byte (by decide +kernel)

theorem goodEntry_upperName {e : ChecksumValue} (h : GoodEntry e) : GoodEntry (upperName e) := by
  refine ⟨fun c hc => ?_, h.2⟩
  obtain ⟨d, hd, rfl⟩ := List.mem_map.1 hc
  exact toupper_good d (h.1 d hd)

theorem upper_upper (s : Bytes) : upper (upper s) = upper s := by
  have h : ∀ c : UInt8, toupper (toupper c) = toupper c := forall_byte (by decide +kernel)
  simp [upper, h]

/-- The word on a line. -/
theorem scanned_line {e : ChecksumValue} (h : GoodEntry e) (s : Bytes) :
    Scanned (line e ++ s) [] (upper e.1 ++ 58 :: e.2) (10 :: s) := by
  have hup := (goodEntry_upperName h).1
  refine ⟨by simp [line], by simp, by simp, fun c hc => ?_, fun c hc => ?_⟩
  · rcases List.mem_append.1 hc with hc | hc
    · exact (hup c hc).1
    · rcases List.mem_cons.1 hc with rfl | hc
      · decide
      · exact (h.2.2 c hc).1
  · simp only [List.head?_cons, Option.mem_some_iff] at hc
    subst hc
    decide

theorem parseText_line {e : ChecksumValue} (h : GoodEntry e) (s : Bytes) :
    parseText (line e ++ s) = ((parseText s).1, upperName e :: (parseText s).2) := by
  have hsplit : splitEntry (upper e.1 ++ 58 :: e.2) = some (upperName e) :=
    splitEntry_eq_some.2 ⟨rfl, fun hc => ((goodEntry_upperName h).1 58 hc).2.1 rfl, h.2.1⟩
  rw [parseText_scanned (scanned_line h s), parseWord_newline hsplit]

theorem parseText_serialise {vs : ChecksumValues} (h : ∀ e ∈ vs, GoodEntry e) :
    parseText (serialise vs) = (0, vs.map upperName) := by
  induction vs with
  | nil => rfl
  | cons e vs ih =>
    have hrest := ih fun f hf => h f (List.mem_cons_of_mem _ hf)
    show parseText (line e ++ serialise vs) = _
    rw [parseText_line (h e (by simp)), hrest]
    rfl

theorem not_mem_zero_serialise {vs : ChecksumValues} (h : ∀ e ∈ vs, GoodEntry e) : 0 ∉ serialise vs := by
  intro hmem
  obtain ⟨e, he, hc⟩ := List.mem_flatMap.1 hmem
  have hg := h e he
  simp only [line, List.append_assoc, List.cons_append, List.mem_append, List.mem_cons, List.not_mem_nil,
    or_false] at hc
  rcases hc with hc | hc | hc | hc
  · exact ((goodEntry_upperName hg).1 0 hc).2.2 rfl
  · exact absurd hc (by decide)
  · exact (hg.2.2 0 hc).2 rfl
  · exact absurd hc (by decide)

/-- **The record format round-trips.** -/
theorem parse_serialise {vs : ChecksumValues} (h : ∀ e ∈ vs, GoodEntry e) :
    parse (serialise vs) = (0, vs.map upperName) := by
  rw [parse, cstr_eq_self (not_mem_zero_serialise h), parseText_serialise h]

theorem serialise_upperName (vs : ChecksumValues) : serialise (vs.map upperName) = serialise vs := by
  rw [serialise, List.flatMap_map]
  exact congrArg (vs.flatMap ·) (funext fun e => by simp only [line, upperName, upper_upper])

/-! ### Looking a digest up -/

/-- `v` is the value of the last entry with the name. -/
def LastMatch (vs : ChecksumValues) (name v : Bytes) : Prop :=
  ∃ pre e post, vs = pre ++ e :: post ∧ strcaseeq e.1 name ∧ e.2 = v ∧ ∀ x ∈ post, ¬ strcaseeq x.1 name

theorem lastValue_concat (vs : ChecksumValues) (e : ChecksumValue) (name : Bytes) :
    lastValue (vs ++ [e]) name = if strcaseeq e.1 name then e.2 else lastValue vs name := by
  simp [lastValue, List.foldl_append]

theorem lastValue_of_not_mem {vs : ChecksumValues} {name : Bytes} (h : ∀ x ∈ vs, ¬ strcaseeq x.1 name) (pre : ChecksumValues) :
    lastValue (pre ++ vs) name = lastValue pre name := by
  induction vs using List.reverseRecOn with
  | nil => rw [List.append_nil]
  | append_singleton vs e ih =>
    rw [← List.append_assoc, lastValue_concat, if_neg (h e (by simp))]
    exact ih fun x hx => h x (by simp [hx])

/-- **The loop of `Get`** finds the last entry with the name, or the empty string. -/
theorem lastMatch_lastValue (vs : ChecksumValues) (name : Bytes) :
    LastMatch vs name (lastValue vs name) ∨ lastValue vs name = [] ∧ ∀ x ∈ vs, ¬ strcaseeq x.1 name := by
  induction vs using List.reverseRecOn with
  | nil => exact Or.inr ⟨rfl, by simp⟩
  | append_singleton vs e ih =>
    rw [lastValue_concat]
    by_cases he : strcaseeq e.1 name
    · rw [if_pos he]
      exact Or.inl ⟨vs, e, [], rfl, he, rfl, by simp⟩
    · rw [if_neg he]
      rcases ih with ⟨pre, e', post, heq, hm, hv, hpost⟩ | ⟨hnil, hno⟩
      · refine Or.inl ⟨pre, e', post ++ [e], by conv_lhs => rw [heq, List.append_assoc, List.cons_append], hm, hv, ?_⟩
        intro x hx
        rcases List.mem_append.1 hx with hx | hx
        · exact hpost x hx
        · rwa [List.mem_singleton.1 hx]
      · refine Or.inr ⟨hnil, fun x hx => ?_⟩
        rcases List.mem_append.1 hx with hx | hx
        · exact hno x hx
        · rwa [List.mem_singleton.1 hx]

theorem LastMatch.lastValue_eq {vs : ChecksumValues} {name v : Bytes} (h : LastMatch vs name v) : lastValue vs name = v := by
  obtain ⟨pre, e, post, rfl, hm, rfl, hpost⟩ := h
  have hsplit : pre ++ e :: post = (pre ++ [e]) ++ post := by simp
  rw [hsplit, lastValue_of_not_mem hpost, lastValue_concat, if_pos hm]

/-! ### Texts that are cut off -/

/-- How the entries of a text that is cut off relate to those of the whole text: they are the first ones, or
they are the first ones and a last one that lost the end of its value, and then the text ends in that value. -/
def CutOff (t : Bytes) (us vs : ChecksumValues) : Prop :=
  us <+: vs ∨ ∃ us₀ name v v', us = us₀ ++ [(name, v')] ∧ us₀ ++ [(name, v)] <+: vs ∧ v' <+: v ∧ v' ≠ v ∧ v' ≠ [] ∧
    name ++ 58 :: v' <:+ t

theorem CutOff.cons {t t' : Bytes} {us vs : ChecksumValues} (h : CutOff t us vs) (e : ChecksumValue) (ht : t <:+ t') :
    CutOff t' (e :: us) (e :: vs) := by
  rcases h with h | ⟨us₀, name, v, v', rfl, hvs, hv, hne, hnil, hend⟩
  · exact Or.inl (List.cons_prefix_cons.2 ⟨rfl, h⟩)
  · exact Or.inr ⟨e :: us₀, name, v, v', rfl, List.cons_prefix_cons.2 ⟨rfl, hvs⟩, hv, hne, hnil, hend.trans ht⟩

/-- **What is read from a text that is cut off.** -/
theorem parseText_prefix {t s : Bytes} {us : ChecksumValues} (hts : t <+: s) (h : parseText t = (0, us)) :
    CutOff t us (parseText s).2 := by
  -- by induction on the length: every turn of the loop takes a line off both texts
  induction hn : t.length using Nat.strong_induction_on generalizing t s us with
  | _ n ih =>
    obtain ⟨z, rfl⟩ := hts
    rcases hs : sscanf t with _ | ⟨w, r⟩
    · rw [parseText_of_none hs] at h
      simp only [Prod.mk.injEq, true_and] at h
      exact Or.inl (h ▸ List.nil_prefix)
    obtain ⟨ws, hsc⟩ := scanned_of_sscanf hs
    rw [parseText_scanned hsc] at h
    rcases he : splitEntry w with _ | ⟨name, v'⟩
    · simp only [parseWord, he, Prod.mk.injEq] at h
      exact absurd h.1 (by decide)
    cases r with
    | cons c r =>
      -- the word ends inside the text, so the whole text has the same word
      have hsc' : Scanned (t ++ z) ws w (c :: (r ++ z)) :=
        ⟨by rw [hsc.eq]; simp, hsc.space, hsc.ne, hsc.word, hsc.stop⟩
      rcases eq_or_ne c 10 with rfl | hc
      swap
      · simp only [parseWord, he, if_pos hc, Prod.mk.injEq] at h
        exact absurd h.1 (by decide)
      rw [parseWord_newline he, Prod.mk.injEq] at h
      rw [parseText_scanned hsc', parseWord_newline he]
      obtain ⟨h0, rfl⟩ := h
      have hlt := hsc.length_lt
      rw [List.length_cons] at hlt
      refine (ih r.length (by omega) (List.prefix_append r z) (Prod.ext h0 rfl) rfl).cons _ ?_
      exact ⟨ws ++ w ++ [10], by rw [hsc.eq]; simp⟩
    | nil =>
      -- the text ends with the word: the whole text may go on with it
      simp only [parseWord, he, Prod.mk.injEq, true_and] at h
      subst h
      have hz := List.takeWhile_append_dropWhile (p := (!isspace ·)) (l := z)
      have hsc' : Scanned (t ++ z) ws (w ++ z.takeWhile (!isspace ·)) (z.dropWhile (!isspace ·)) := by
        refine ⟨?_, hsc.space, by simp [hsc.ne], fun c hc => ?_, fun c hc => ?_⟩
        · conv_lhs => rw [← hz]
          rw [hsc.eq]
          simp
        · rcases List.mem_append.1 hc with hc | hc
          · exact hsc.word c hc
          · exact List.mem_takeWhile_imp (p := (!isspace ·)) hc
        · have := List.head?_dropWhile_not (!isspace ·) z
          rw [hc] at this
          simpa using this
      obtain ⟨hw, hname, hval⟩ := splitEntry_eq_some.1 he
      have he' : splitEntry (w ++ z.takeWhile (!isspace ·)) = some (name, v' ++ z.takeWhile (!isspace ·)) :=
        splitEntry_eq_some.2 ⟨by rw [hw]; simp, hname, by simp [hval]⟩
      -- that word is an entry, whatever stands behind it
      have hfirst : [(name, v' ++ z.takeWhile (!isspace ·))] <+: (parseText (t ++ z)).2 := by
        rw [parseText_scanned hsc']
        unfold parseWord
        rw [he']
        cases z.dropWhile (!isspace ·) with
        | nil => exact List.prefix_rfl
        | cons c r =>
          dsimp only
          split_ifs
          · exact List.prefix_rfl
          · exact List.prefix_rfl
          · exact List.cons_prefix_cons.2 ⟨rfl, List.nil_prefix⟩
      rcases eq_or_ne (z.takeWhile (!isspace ·)) [] with hnil | hnil
      · rw [hnil, List.append_nil] at hfirst
        exact Or.inl hfirst
      · refine Or.inr ⟨[], name, v' ++ z.takeWhile (!isspace ·), v', rfl, hfirst, List.prefix_append _ _, ?_, hval, ?_⟩
        · simpa using hnil
        · exact ⟨ws, by rw [hsc.eq, List.append_nil, hw]⟩

end XrdHdfs
