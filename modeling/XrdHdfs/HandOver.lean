import XrdHdfs.Budget

/-!
# When the environment is handed over

The three variables come over when all that is written fits in one line of `fgets`.  When a value has a line feed in it
`cur_pos` stays where the first line ended, so that the next line is read from its middle on; it is exactly at the equals
sign of `LIBHDFS_OPTS` when `CLASSPATH` is one character and a line feed, and then the variables come over too
(`Shifted`).
-/

namespace XrdHdfs

open Lib

theorem name_clean (x : Variable) : ∀ c ∈ x.name, c ≠ 0 ∧ c ≠ 10 ∧ c ≠ 61 := by
  cases x <;> decide +kernel

theorem not_mem_name (x : Variable) : 0 ∉ x.name ∧ 10 ∉ x.name ∧ 61 ∉ x.name :=
  ⟨fun h => (name_clean x _ h).1 rfl, fun h => (name_clean x _ h).2.1 rfl, fun h => (name_clean x _ h).2.2 rfl⟩

theorem not_mem_zero_formatted {x : Variable} {v : Bytes} (hv : 0 ∉ v) : 0 ∉ formatted x v := by
  simp [formatted, hv, (not_mem_name x).1]

theorem length_formatted (x : Variable) (v : Bytes) : (formatted x v).length = x.name.length + 1 + v.length := by
  rw [formatted, List.length_append, List.length_cons]
  omega

/-! ### An entry in its place -/

section

variable {d : Decoder} (hd : d.AtRest) {P T u : Bytes} {x : Variable} (hP : P.length = d.cur_pos) (h10 : 10 ∉ P)
  (hT : ∀ c ∈ T, c ≠ 0 ∧ c ≠ 10 ∧ c ≠ 61) (hu : 0 ∉ u) (htakes : Takes d.env T x) (hx : d.env x = none)

include hd hP h10 hT hu htakes hx

/-- The last entry. -/
theorem final_last : d.final (P ++ (T ++ 61 :: u) ++ [0]) = Function.update d.env x (some u) ↔
    10 ∉ u.dropLast ∧ d.cur_pos + (T.length + 1 + u.length) ≤ 8190 := by
  refine ⟨fun h => hd.fits_of_takes hP h10 hT hu htakes hx (R := []) ?_, fun ⟨hin, hfits⟩ => ?_⟩
  · rw [h, Function.update_self]
  · obtain ⟨d', fp', hd', hcur, henv, hfinal, hfp⟩ := hd.takes_of_fits hP h10 hT hu htakes hin hfits (R := [])
    rw [hfinal, ← henv]
    refine hd'.final_of_le (Or.inr ?_)
    rcases hfp with ⟨-, -, rfl⟩ | ⟨-, rfl⟩
    · simp only [List.length_append, List.length_cons, List.length_nil]
      omega
    · simp only [List.length_cons, List.length_nil]
      omega

end

/-! ### An entry that is read from its middle on -/

/-- The first variable that is needed takes a string that begins with an equals sign. -/
theorem exists_takes_nil {env : Environment} {x : Variable} (h : ¬ ∀ y, y.ctorIdx < x.ctorIdx → env y ≠ none) :
    ∃ y, y.ctorIdx < x.ctorIdx ∧ env y = none ∧ Takes env [] y := by
  push Not at h
  obtain ⟨y, hy, hnone⟩ := h
  by_cases hc : env .classpath = none
  · refine ⟨.classpath, ?_, hc, takes_of_first (by simp) hc List.nil_prefix fun z hz => absurd hz (Nat.not_lt_zero _)⟩
    exact lt_of_le_of_lt (Nat.zero_le _) hy
  · refine ⟨y, hy, hnone, takes_of_first (by simp) hnone List.nil_prefix fun z hz => Or.inl ?_⟩
    -- there is one variable between `CLASSPATH` and the last one
    cases x <;> cases y <;> cases z <;> first | exact hc | exact absurd hy (by decide) | exact absurd hz (by decide)

theorem no_match_suffix {x : Variable} {k : ℕ} (hk : 11 ≤ k) (hx : k < x.name.length) :
    ∀ y : Variable, ¬ x.name.drop k <+: y.name := by
  intro y
  cases x
  · exact absurd hx (by simp [Variable.name, str]; omega)
  · obtain rfl : k = 11 := by
      have : k < 12 := hx
      omega
    cases y <;> decide
  · have hk' : k < 15 := hx
    interval_cases k <;> cases y <;> decide

/-- The strings of an entry and what stands before it. -/
theorem splitOn_entry {s e : Bytes} (hs : 0 ∉ s) (he : 0 ∉ e) : (s ++ 0 :: (e ++ [0])).splitOn 0 = [s, e, []] := by
  rw [List.splitOn_append_cons_self_of_not_mem hs, List.splitOn_append_cons_self_of_not_mem he]
  simp

theorem splitOn_last {s : Bytes} (hs : 0 ∉ s) : (s ++ [0]).splitOn 0 = [s, []] := by
  rw [List.splitOn_append_cons_self_of_not_mem hs]
  simp

section

variable {d : Decoder} (hd : d.AtRest)

section

variable {P T u R : Bytes} (hP : P.length = d.cur_pos) (h10 : 10 ∉ P) (hT : ∀ c ∈ T, c ≠ 0 ∧ c ≠ 10 ∧ c ≠ 61) (hu : 0 ∉ u)
  (hfits : d.cur_pos + T.length < 8190)

include hd hP h10 hT hu hfits

/-- An entry of which nothing is left in front of its equals sign that a name begins with sets no variable. -/
theorem passed_over (hno : ∀ y : Variable, ¬ T <+: y.name) :
    (10 ∉ u ∧ ∃ d' : Decoder, d'.AtRest ∧ d'.cur_pos = d.cur_pos + (T.length + 1 + u.length) + 1 ∧ d'.env = d.env ∧
      d.final (P ++ (T ++ 61 :: u) ++ 0 :: R) = d'.final (P ++ (T ++ 61 :: u) ++ 0 :: R)) ∨
    ∃ s u' : Bytes, u = s ++ u' ∧ ∃ d' : Decoder, d'.AtRest ∧ d'.env = d.env ∧
      d.final (P ++ (T ++ 61 :: u) ++ 0 :: R) = d'.final (u' ++ 0 :: R) := by
  have hT61 : 61 ∉ T := fun h => (hT _ h).2.2 rfl
  have h0 : 0 ∉ T ++ 61 :: u := by
    have hT0 : 0 ∉ T := fun h => (hT _ h).1 rfl
    simp [hT0, hu]
  have hpass := @checkEnvVars_of_no_match d.env T hT61 hno
  rcases hd.string hP h10 (by omega) (by simp) h0 (R := R) with
    ⟨ht10, -, d', hd', hcur, henv, hfinal⟩ | ⟨t₁, t₂, hcut, d', hd', -, henv, hfinal⟩
  · refine Or.inl ⟨fun h => ht10 (by simp [h]), d', hd', ?_, by rw [henv, hpass], hfinal⟩
    rw [hcur, List.length_append, List.length_cons]
    omega
  · rcases hcut.cases_equals ⟨fun h => (hT _ h).2.1 rfl, hT61⟩ with ⟨-, hend, hle⟩ | ⟨s, rfl, rfl⟩
    · omega
    · exact Or.inr ⟨s, t₂, rfl, d', hd', by rw [henv, hpass], hfinal⟩

/-- An entry that a variable takes leaves it set. -/
theorem final_ne_none {y : Variable} (htakes : Takes d.env T y) : d.final (P ++ (T ++ 61 :: u) ++ 0 :: R) y ≠ none := by
  have h0 : 0 ∉ T ++ 61 :: u := by
    have hT0 : 0 ∉ T := fun h => (hT _ h).1 rfl
    simp [hT0, hu]
  have hset : ∀ d' : Decoder, ∀ s fp, d'.env = checkEnvVars d.env (T ++ 61 :: s) → d'.final fp y ≠ none := by
    intro d' s fp henv
    rw [Decoder.final_keeps (by rw [henv, htakes, Function.update_self])]
    exact Option.some_ne_none s
  rcases hd.string hP h10 (by omega) (by simp) h0 (R := R) with
    ⟨-, -, d', -, -, henv, hfinal⟩ | ⟨t₁, t₂, hcut, d', -, -, henv, hfinal⟩
  · rw [hfinal]
    exact hset d' u _ henv
  · rcases hcut.cases_equals ⟨fun h => (hT _ h).2.1 rfl, fun h => (hT _ h).2.2 rfl⟩ with ⟨-, hend, hle⟩ | ⟨s, rfl, rfl⟩
    · omega
    · rw [hfinal]
      exact hset d' s _ henv

end

include hd

/-- A value is too long for what is left of it. -/
theorem final_ne_of_short {x : Variable} (hx : d.env x = none) {fp s u : Bytes} {p : ℕ} (hp : p ≤ d.cur_pos)
    (h10 : 10 ∉ fp.take p) (hdrop : fp.drop p = s ++ [0]) (hs : 0 ∉ s) (hlen : s.length ≤ u.length) :
    d.final fp x ≠ some u := by
  have hstart : Short x u.length d.env ((fp.drop p).splitOn 0) := by
    rw [hdrop, splitOn_last hs]
    refine ⟨by rw [hx]; exact Nat.zero_le _, ?_⟩
    have := reach_le_length s
    simp only [List.forall_mem_cons]
    exact ⟨by omega, Nat.zero_le _, by simp⟩
  obtain ⟨L, hL⟩ := (budget_short x _).final_atRest hd hp h10 hstart
  exact hL.ne

/-- **The last entry, behind a line feed.**  It begins in a new line, behind a NUL, and is read from `cur_pos` on. -/
theorem displaced_last {x : Variable} {u : Bytes} (hcur : 12 ≤ d.cur_pos) (hx : d.env x = none) (hu : 0 ∉ u) :
    d.final (0 :: (formatted x u ++ [0])) = Function.update d.env x (some u) ↔
      d.cur_pos = x.name.length + 1 ∧ (∀ y, y.ctorIdx < x.ctorIdx → d.env y ≠ none) ∧ 10 ∉ u.dropLast ∧
        d.cur_pos + (1 + u.length) ≤ 8190 := by
  obtain ⟨h0, h10, h61⟩ := not_mem_name x
  have hname : x.name.length ≤ 15 := by cases x <;> decide
  rcases lt_trichotomy d.cur_pos (x.name.length + 1) with hlt | heq | hgt
  · -- `cur_pos` is in the name, and no name begins like what is read
    refine iff_of_false (fun h => ?_) (by omega)
    have hx' := congrFun h x
    rw [Function.update_self] at hx'
    obtain ⟨k, hk⟩ := Nat.exists_eq_add_of_le' (show 1 ≤ d.cur_pos by omega)
    have hfp : 0 :: (formatted x u ++ [0]) = (0 :: x.name.take k) ++ (x.name.drop k ++ 61 :: u) ++ [0] := by
      rw [List.cons_append, ← List.append_assoc, List.take_append_drop]
      rfl
    rw [hfp] at hx'
    rcases passed_over hd (P := 0 :: x.name.take k) (T := x.name.drop k) (R := []) (by simp; omega)
      (by simpa using fun h => h10 (List.mem_of_mem_take h)) (fun c hc => name_clean x c (List.mem_of_mem_drop hc)) hu
      (by rw [List.length_drop]; omega) (no_match_suffix (by omega) (by omega)) with
      ⟨-, d', hd', hcur', henv, hfinal⟩ | ⟨s, u', rfl, d', hd', henv, hfinal⟩
    · rw [List.length_drop] at hcur'
      rw [hfinal, hd'.final_of_le (Or.inr (by simp; omega)), henv, hx] at hx'
      cases hx'
    · rw [hfinal] at hx'
      exact final_ne_of_short hd' (henv ▸ hx) (p := 0) (Nat.zero_le _) (by simp) (List.drop_zero)
        (fun h => hu (List.mem_append_right _ h)) (by simp) hx'
  · -- `cur_pos` is at the equals sign
    have hfp : 0 :: (formatted x u ++ [0]) = (0 :: x.name) ++ ([] ++ 61 :: u) ++ [0] := by simp [formatted]
    have hP : (0 :: x.name).length = d.cur_pos := by simp [heq]
    have hP10 : 10 ∉ 0 :: x.name := by simp [h10]
    rw [hfp, and_iff_right heq]
    by_cases hfirst : ∀ y, y.ctorIdx < x.ctorIdx → d.env y ≠ none
    · have htakes : Takes d.env [] x :=
        takes_of_first (by simp) hx List.nil_prefix fun y hy => Or.inl (hfirst y hy)
      rw [and_iff_right hfirst, final_last hd hP hP10 (by simp) hu htakes hx]
      simp
    · -- another variable gets the value
      refine iff_of_false (fun h => ?_) fun h => hfirst h.1
      obtain ⟨y, hyx, hy, htakes⟩ := exists_takes_nil hfirst
      have hne : y ≠ x := fun h => by rw [h] at hyx; exact lt_irrefl _ hyx
      have hset := final_ne_none hd hP hP10 (T := []) (by simp) hu (by simp; omega) (R := []) htakes
      rw [h, Function.update_of_ne hne] at hset
      exact hset hy
  · -- a part of the value is skipped
    refine iff_of_false (fun h => ?_) (by omega)
    have htake : (0 :: (formatted x u ++ [0])).take (x.name.length + 2) = 0 :: (x.name ++ [61]) := by
      simp [formatted, List.take_append]
    have hdrop : (0 :: (formatted x u ++ [0])).drop (x.name.length + 2) = u ++ [0] := by
      simp [formatted, List.drop_append]
    exact final_ne_of_short hd hx hgt (by simp [htake, h10]) hdrop hu le_rfl (by rw [h, Function.update_self])

end

/-! ### Two entries -/

section

variable {d : Decoder} (hd : d.AtRest)

section

variable {P T v u : Bytes} {x y : Variable} (hP : P.length = d.cur_pos) (h10 : 10 ∉ P)
  (hT : ∀ c ∈ T, c ≠ 0 ∧ c ≠ 10 ∧ c ≠ 61) (hv : 0 ∉ v) (hu : 0 ∉ u) (htakes : Takes d.env T x)
  (hxy : x ≠ y) (hx : d.env x = none) (hy : d.env y = none)

include hd hP h10 hT hv hu htakes hxy hx hy

/-- **The last two entries.**  The second is in the same line, or the first ends with a line feed and `cur_pos` comes to
stand at the equals sign of the second. -/
theorem final_two (hcur : v ≠ [] → 12 ≤ d.cur_pos + (T.length + 1 + v.length) + 1) :
    d.final (P ++ (T ++ 61 :: v) ++ 0 :: (formatted y u ++ [0])) =
        Function.update (Function.update d.env x (some v)) y (some u) ↔
      (10 ∉ v ∧ 10 ∉ u.dropLast ∧ d.cur_pos + (T.length + 1 + v.length) + 1 + (formatted y u).length ≤ 8190) ∨
      (10 ∈ v ∧ 10 ∉ v.dropLast ∧ d.cur_pos + (T.length + 1 + v.length) = y.name.length ∧
        (∀ z, z.ctorIdx < y.ctorIdx → Function.update d.env x (some v) z ≠ none) ∧ 10 ∉ u.dropLast ∧
        (formatted y u).length + 1 ≤ 8190) := by
  rw [length_formatted]
  have hname := not_mem_name y
  have hyname : y.name.length ≤ 15 := by cases y <;> decide
  -- the second entry, when the first was read and the line goes on, and when it does not
  have hsame : ∀ d' : Decoder, d'.AtRest → d'.cur_pos = d.cur_pos + (T.length + 1 + v.length) + 1 → 10 ∉ v →
      d'.env = Function.update d.env x (some v) →
      (d'.final (P ++ (T ++ 61 :: v) ++ 0 :: (formatted y u ++ [0])) = Function.update d'.env y (some u) ↔
        10 ∉ u.dropLast ∧ d'.cur_pos + (y.name.length + 1 + u.length) ≤ 8190) := by
    intro d' hd' hcur' hv10 henv
    have hT10 : 10 ∉ T := fun h => (hT _ h).2.1 rfl
    have hy' : d'.env y = none := by rw [henv, Function.update_of_ne hxy.symm, hy]
    have h := final_last hd' (P := P ++ (T ++ 61 :: v) ++ [0]) (by simp; omega) (by simp [h10, hT10, hv10])
      (name_clean y) hu (takes_name hy') hy'
    simpa [formatted] using h
  have hnext : ∀ d' : Decoder, d'.AtRest → d'.cur_pos = d.cur_pos + (T.length + 1 + v.length) + 1 → 10 ∈ v →
      d'.env = Function.update d.env x (some v) →
      (d'.final (0 :: (formatted y u ++ [0])) = Function.update d'.env y (some u) ↔
        d'.cur_pos = y.name.length + 1 ∧ (∀ z, z.ctorIdx < y.ctorIdx → d'.env z ≠ none) ∧ 10 ∉ u.dropLast ∧
          d'.cur_pos + (1 + u.length) ≤ 8190) := by
    intro d' hd' hcur' hv10 henv
    have hy' : d'.env y = none := by rw [henv, Function.update_of_ne hxy.symm, hy]
    exact displaced_last hd' (by rw [hcur']; exact hcur (List.ne_nil_of_mem hv10)) hy' hu
  constructor
  · intro h
    have hvalue : d.final (P ++ (T ++ 61 :: v) ++ 0 :: (formatted y u ++ [0])) x = some v := by
      rw [h, Function.update_of_ne hxy, Function.update_self]
    obtain ⟨hin, hfits⟩ := hd.fits_of_takes hP h10 hT hv htakes hx hvalue
    obtain ⟨d', fp', hd', hcur', henv, hfinal, ⟨hv10, -, rfl⟩ | ⟨hend, rfl⟩⟩ :=
      hd.takes_of_fits hP h10 hT hv htakes hin hfits (R := formatted y u ++ [0])
    · rw [hfinal, ← henv, hsame d' hd' hcur' hv10 henv] at h
      exact Or.inl ⟨hv10, h.1, by omega⟩
    · rcases hend with hv10 | hfull
      · rw [hfinal, ← henv, hnext d' hd' hcur' hv10 henv, henv] at h
        exact Or.inr ⟨hv10, hin, by omega, h.2.1, h.2.2.1, by omega⟩
      · have hy' := congrFun h y
        rw [Function.update_self, hfinal, hd'.final_of_le (Or.inl (by omega)), henv, Function.update_of_ne hxy.symm,
          hy] at hy'
        cases hy'
  · rintro (⟨hv10, hin, hfits⟩ | ⟨hv10, hin, hplace, hset, hu10, hfits⟩)
    · obtain ⟨d', fp', hd', hcur', henv, hfinal, ⟨-, -, rfl⟩ | ⟨hend, rfl⟩⟩ := hd.takes_of_fits hP h10 hT hv htakes
        (fun h => hv10 (List.mem_of_mem_dropLast h)) (by omega) (R := formatted y u ++ [0])
      · rw [hfinal, ← henv, hsame d' hd' hcur' hv10 henv]
        exact ⟨hin, by omega⟩
      · rcases hend with h | h
        · exact absurd h hv10
        · omega
    · obtain ⟨d', fp', hd', hcur', henv, hfinal, ⟨h, -, rfl⟩ | ⟨hend, rfl⟩⟩ := hd.takes_of_fits hP h10 hT hv htakes
        hin (by omega) (R := formatted y u ++ [0])
      · exact absurd hv10 h
      · rw [hfinal, ← henv, hnext d' hd' hcur' hv10 henv, henv]
        exact ⟨by omega, hset, hu10, by omega⟩

end

/-- No two of the strings that are left are long enough for the two variables. -/
theorem rivals_start {env : Environment} {w u s : Bytes} (hs : 0 ∉ s) (hlen : s.length ≤ w.length) (hu : 0 ∉ u)
    {x y : Variable} (hx : env x = none) (hy : env y = none) :
    Rivals x y (w.length + 1) (u.length + 1) env ((s ++ 0 :: (formatted y u ++ [0])).splitOn 0) := by
  rw [splitOn_entry hs (not_mem_zero_formatted hu)]
  have hreach := reach_le_length s
  have hentry : reach (formatted y u) = u.length + 1 := reach_entry (not_mem_name y).2.2 u
  have hnil : reach [] = 0 := rfl
  refine ⟨?_, ?_, ?_, ?_⟩
  · simp only [List.forall_mem_cons, hentry, hnil]
    exact ⟨by omega, by omega, by omega, by simp⟩
  · simp only [List.pairwise_cons, List.forall_mem_cons, hentry, hnil]
    refine ⟨⟨by omega, by omega, by simp⟩, ⟨by omega, by simp⟩, by simp, List.Pairwise.nil⟩
  · rw [hx, valueSize]
    omega
  · rw [hy, valueSize]
    omega

include hd

/-- Two values are too long for what is left of them. -/
theorem final_ne_of_rivals {w u : Bytes} {x y : Variable} (hxy : x ≠ y) (hx : d.env x = none) (hy : d.env y = none)
    (hu : 0 ∉ u) {fp s : Bytes} {p : ℕ} (hp : p ≤ d.cur_pos) (h10 : 10 ∉ fp.take p)
    (hdrop : fp.drop p = s ++ 0 :: (formatted y u ++ [0])) (hs : 0 ∉ s) (hlen : s.length ≤ w.length) :
    ¬ (d.final fp x = some w ∧ d.final fp y = some u) := by
  obtain ⟨L, hL⟩ := (budget_rivals hxy (w.length + 1) (u.length + 1)).final_atRest hd hp h10
    (by rw [hdrop]; exact rivals_start hs hlen hu hx hy)
  exact hL.ne

/-- **The last two entries, behind a line feed.** -/
theorem displaced_two {w u : Bytes} (hcur : 12 ≤ d.cur_pos) (hc : d.env .classpath ≠ none)
    (hl : d.env .libhdfs_opts = none) (hld : d.env .ld_library_path = none) (hw : 0 ∉ w) (hu : 0 ∉ u) :
    d.final (0 :: (formatted .libhdfs_opts w ++ 0 :: (formatted .ld_library_path u ++ [0]))) =
        Function.update (Function.update d.env .libhdfs_opts (some w)) .ld_library_path (some u) ↔
      d.cur_pos = 13 ∧ 10 ∉ u.dropLast ∧
        (10 ∉ w ∧ (formatted .libhdfs_opts w).length + (formatted .ld_library_path u).length + 2 ≤ 8190 ∨
          w = [10] ∧ (formatted .ld_library_path u).length + 1 ≤ 8190) := by
  have hlen : (formatted .libhdfs_opts w).length = 13 + w.length := by
    rw [length_formatted]
    rfl
  have hboth : d.final (0 :: (formatted .libhdfs_opts w ++ 0 :: (formatted .ld_library_path u ++ [0]))) =
      Function.update (Function.update d.env .libhdfs_opts (some w)) .ld_library_path (some u) →
      d.final (0 :: (formatted .libhdfs_opts w ++ 0 :: (formatted .ld_library_path u ++ [0]))) .libhdfs_opts = some w ∧
      d.final (0 :: (formatted .libhdfs_opts w ++ 0 :: (formatted .ld_library_path u ++ [0]))) .ld_library_path = some u := by
    intro h
    rw [h]
    exact ⟨rfl, rfl⟩
  rcases (by omega : d.cur_pos = 12 ∨ d.cur_pos = 13 ∨ 14 ≤ d.cur_pos) with h12 | h13 | h14
  · -- `cur_pos` is at the last letter of the name
    refine iff_of_false (fun h => ?_) (by omega)
    obtain ⟨hw', hu'⟩ := hboth h
    have hfp : 0 :: (formatted .libhdfs_opts w ++ 0 :: (formatted .ld_library_path u ++ [0])) =
        str "\x00LIBHDFS_OPT" ++ (str "S" ++ 61 :: w) ++ 0 :: (formatted .ld_library_path u ++ [0]) := rfl
    rw [hfp] at hw' hu'
    rcases passed_over hd (P := str "\x00LIBHDFS_OPT") (T := str "S") (R := formatted .ld_library_path u ++ [0]) h12.symm
      (by decide) (by decide +kernel) hw (by rw [h12]; decide) (fun y => by cases y <;> decide +kernel) with
      ⟨hw10, d', hd', hcur', henv, hfinal⟩ | ⟨s, w', rfl, d', hd', henv, hfinal⟩
    · have hfp' : str "\x00LIBHDFS_OPT" ++ (str "S" ++ 61 :: w) ++ 0 :: (formatted .ld_library_path u ++ [0]) =
          (str "\x00LIBHDFS_OPTS=" ++ w ++ [0]) ++ (Variable.ld_library_path.name ++ 61 :: u) ++ [0] := by
        simp [str, formatted]
      have hP : (str "\x00LIBHDFS_OPTS=" ++ w ++ [0]).length = d'.cur_pos := by
        rw [hcur', h12]
        simp [str]
        omega
      have hP10 : 10 ∉ str "\x00LIBHDFS_OPTS=" ++ w ++ [0] := by
        simp only [List.mem_append, not_or]
        exact ⟨⟨by decide, hw10⟩, by decide⟩
      have htakes := takes_name (henv ▸ hld)
      rw [hfinal, hfp'] at hw' hu'
      have hfits := hd'.fits_of_takes hP hP10 (name_clean _) hu htakes (henv ▸ hld) (R := []) hu'
      rw [(final_last hd' hP hP10 (name_clean _) hu htakes (henv ▸ hld)).2 hfits, Function.update_of_ne (by decide), henv,
        hl] at hw'
      cases hw'
    · rw [hfinal] at hw' hu'
      exact final_ne_of_rivals hd' (by decide) (henv ▸ hl) (henv ▸ hld) hu (p := 0) (Nat.zero_le _) (by simp)
        List.drop_zero (fun h => hw (List.mem_append_right _ h)) (by simp) ⟨hw', hu'⟩
  · -- `cur_pos` is at the equals sign
    have htakes : Takes d.env [] .libhdfs_opts := by
      refine takes_of_first (by simp) hl List.nil_prefix fun y hy => Or.inl ?_
      cases y <;> first | exact hc | exact absurd hy (by decide)
    have h := final_two hd (P := 0 :: str "LIBHDFS_OPTS") (T := []) (x := .libhdfs_opts) (y := .ld_library_path) h13.symm
      (by decide) (by simp) hw hu htakes (by decide) hl hld (fun _ => by omega)
    have hname : Variable.ld_library_path.name.length = 15 := rfl
    refine Iff.trans h ?_
    rw [List.length_nil, hname, and_iff_right h13]
    constructor
    · rintro (⟨hw10, hu10, hfits⟩ | ⟨hw10, -, hplace, -, hu10, hfits⟩)
      · exact ⟨hu10, Or.inl ⟨hw10, by omega⟩⟩
      · obtain ⟨c, rfl⟩ := List.length_eq_one_iff.1 (show w.length = 1 by omega)
        obtain rfl := List.mem_singleton.1 hw10
        exact ⟨hu10, Or.inr ⟨rfl, hfits⟩⟩
    · rintro ⟨hu10, ⟨hw10, hfits⟩ | ⟨rfl, hfits⟩⟩
      · exact Or.inl ⟨hw10, hu10, by omega⟩
      · refine Or.inr ⟨by simp, by simp, by rw [h13]; rfl, fun z hz => ?_, hu10, hfits⟩
        cases z
        · rw [Function.update_of_ne (by decide)]
          exact hc
        · simp
        · exact absurd hz (lt_irrefl _)
  · -- a part of the value is skipped
    refine iff_of_false (fun h => ?_) (by omega)
    have h10 : 10 ∉ str "\x00LIBHDFS_OPTS=" := by decide
    exact final_ne_of_rivals hd (by decide) hl hld hu (p := 14) h14 (by exact h10) (by rfl) hw le_rfl (hboth h)

end

/-! ### The hand-over -/

/-- What is written for a variable. -/
def entryOf (x : Variable) : Option Bytes → Bytes
  | none => []
  | some v => formatted x v ++ [0]

/-- What is written for the variables when every value fits the buffer. -/
def stream (vars : Environment) : Bytes :=
  entryOf .classpath (vars .classpath) ++
    (entryOf .libhdfs_opts (vars .libhdfs_opts) ++ entryOf .ld_library_path (vars .ld_library_path))

/-- What is written fits the buffer, and has no line feed but perhaps as its last character. -/
def OneLine (S : Bytes) : Prop := S.length < BUFSIZE ∧ 10 ∉ S.dropLast.dropLast

/-- `CLASSPATH` is one character and a line feed, so that the next line is read from the equals sign of `LIBHDFS_OPTS`
on.  If this has a line feed too it is all of it, so that the third line is read from its equals sign on. -/
def Shifted (vars : Environment) : Prop :=
  ∃ c w, c ≠ 10 ∧ vars .classpath = some [c, 10] ∧ vars .libhdfs_opts = some w ∧
    match vars .ld_library_path with
    | none => 10 ∉ w.dropLast ∧ (formatted .libhdfs_opts w).length + 2 < BUFSIZE
    | some u => 10 ∉ u.dropLast ∧
        (10 ∉ w ∧ (formatted .libhdfs_opts w).length + (formatted .ld_library_path u).length + 3 < BUFSIZE ∨
          w = [10] ∧ (formatted .ld_library_path u).length + 2 < BUFSIZE)

theorem oneLine_append (A : Bytes) (x : Variable) (v : Bytes) : OneLine (A ++ (formatted x v ++ [0])) ↔
    10 ∉ A ∧ 10 ∉ v.dropLast ∧ A.length + (formatted x v).length ≤ 8190 := by
  have hdrop : (A ++ (formatted x v ++ [0])).dropLast.dropLast = A ++ (x.name ++ (61 :: v).dropLast) := by
    rw [← List.append_assoc, List.dropLast_concat, List.dropLast_append_of_ne_nil (by simp [formatted]), formatted,
      List.dropLast_append_of_ne_nil (by simp)]
  have hv : 10 ∈ (61 :: v).dropLast ↔ 10 ∈ v.dropLast := by
    cases v <;> simp
  have hname := (not_mem_name x).2.1
  have hB : BUFSIZE = 8192 := rfl
  rw [OneLine, hdrop, hB]
  simp only [List.mem_append, hname, hv, false_or, not_or, List.length_append, List.length_cons, List.length_nil]
  constructor
  · rintro ⟨hlen, hA, hv⟩
    exact ⟨hA, hv, by omega⟩
  · rintro ⟨hA, hv, hlen⟩
    exact ⟨by omega, hA, hv⟩

theorem ten_mem_formatted (x : Variable) (v : Bytes) : 10 ∈ formatted x v ↔ 10 ∈ v := by
  simp [formatted, (not_mem_name x).2.1]

/-- One variable. -/
theorem single_iff (x : Variable) {v : Bytes} (hv : 0 ∉ v) :
    determineEnvironment (formatted x v ++ [0]) = Function.update (fun _ => none) x (some v) ↔
      OneLine (formatted x v ++ [0]) := by
  have h := final_last Decoder.atRest_new (P := []) rfl (by simp) (name_clean x) hv (takes_name rfl) rfl
  have hone := oneLine_append [] x v
  rw [List.nil_append, length_formatted, List.length_nil] at hone
  refine Iff.trans h ?_
  rw [hone, and_iff_right (List.not_mem_nil)]

/-- Two variables. -/
theorem pair_iff {x y : Variable} (hxy : x.ctorIdx < y.ctorIdx) {v u : Bytes} (hv : 0 ∉ v) (hu : 0 ∉ u) :
    determineEnvironment (formatted x v ++ 0 :: (formatted y u ++ [0])) =
        Function.update (Function.update (fun _ => none) x (some v)) y (some u) ↔
      OneLine (formatted x v ++ 0 :: (formatted y u ++ [0])) ∨
        (y = .libhdfs_opts ∧ ∃ c, c ≠ 10 ∧ v = [c, 10]) ∧ 10 ∉ u.dropLast ∧ (formatted y u).length + 1 ≤ 8190 := by
  have hne : x ≠ y := fun h => by rw [h] at hxy; exact lt_irrefl _ hxy
  have hlen := length_formatted x v
  have hname : 9 ≤ x.name.length := by cases x <;> decide
  have h := final_two Decoder.atRest_new (P := []) rfl (by simp) (name_clean x) hv hu (takes_name rfl) hne rfl rfl
    (fun hne => by have := List.length_pos_iff.2 hne; dsimp only; omega)
  have hone := oneLine_append (formatted x v ++ [0]) y u
  simp only [List.append_assoc, List.cons_append, List.nil_append, List.length_append, List.length_cons,
    List.length_nil] at hone
  refine Iff.trans h (or_congr ?_ ?_)
  · have hcur : ({} : Decoder).cur_pos = 0 := rfl
    rw [hone, hcur, hlen]
    simp only [List.mem_append, ten_mem_formatted, List.mem_singleton, (by decide : (10 : UInt8) ≠ 0), or_false]
    constructor
    · rintro ⟨hv10, hu10, hfits⟩
      exact ⟨hv10, hu10, by omega⟩
    · rintro ⟨hv10, hu10, hfits⟩
      exact ⟨hv10, hu10, by omega⟩
  · constructor
    · rintro ⟨hv10, hin, hplace, hset, hu10, hfits⟩
      refine ⟨?_, hu10, hfits⟩
      -- the only variable before the second one is the first one
      obtain ⟨rfl, rfl⟩ : x = .classpath ∧ y = .libhdfs_opts := by
        cases x <;> cases y
        · exact absurd rfl hne
        · exact ⟨rfl, rfl⟩
        · exact absurd rfl (hset .libhdfs_opts (by decide))
        · exact absurd hxy (by decide)
        · exact absurd rfl hne
        · exact absurd rfl (hset .classpath (by decide))
        · exact absurd hxy (by decide)
        · exact absurd hxy (by decide)
        · exact absurd rfl hne
      have hv2 : v.length = 2 := by
        have hx : Variable.classpath.name.length = 9 := rfl
        have hy : Variable.libhdfs_opts.name.length = 12 := rfl
        have hcur : ({} : Decoder).cur_pos = 0 := rfl
        omega
      obtain ⟨c, c', rfl⟩ := List.length_eq_two.1 hv2
      have hc : c ≠ 10 := by simpa using Ne.symm (by simpa using hin)
      obtain rfl : 10 = c' := by simpa [hc.symm] using hv10
      exact ⟨rfl, c, hc, rfl⟩
    · rintro ⟨⟨rfl, c, hc, rfl⟩, hu10, hfits⟩
      obtain rfl : x = .classpath := by
        cases x <;> first | rfl | exact absurd hxy (by decide)
      refine ⟨by simp, by simpa using hc.symm, rfl, fun z hz => ?_, hu10, hfits⟩
      obtain rfl : z = .classpath := by
        cases z <;> first | rfl | exact absurd hz (by decide)
      rw [Function.update_self]
      exact Option.some_ne_none _

/-- Three variables. -/
theorem triple_iff {v w u : Bytes} (hv : 0 ∉ v) (hw : 0 ∉ w) (hu : 0 ∉ u) :
    determineEnvironment (formatted .classpath v ++ 0 :: (formatted .libhdfs_opts w ++ 0 ::
        (formatted .ld_library_path u ++ [0]))) =
        Function.update (Function.update (Function.update (fun _ => none) .classpath (some v)) .libhdfs_opts (some w))
          .ld_library_path (some u) ↔
      OneLine (formatted .classpath v ++ 0 :: (formatted .libhdfs_opts w ++ 0 :: (formatted .ld_library_path u ++ [0]))) ∨
        (∃ c, c ≠ 10 ∧ v = [c, 10]) ∧ 10 ∉ u.dropLast ∧
          (10 ∉ w ∧ (formatted .libhdfs_opts w).length + (formatted .ld_library_path u).length + 2 ≤ 8190 ∨
            w = [10] ∧ (formatted .ld_library_path u).length + 1 ≤ 8190) := by
  have hlen : (formatted .classpath v).length = 10 + v.length := by
    rw [length_formatted]
    rfl
  have hlen₂ : (formatted .libhdfs_opts w).length = 13 + w.length := by
    rw [length_formatted]
    rfl
  have hT : Variable.classpath.name.length + 1 + v.length = 10 + v.length := rfl
  have hd := Decoder.atRest_new
  have htakes : Takes ({} : Decoder).env Variable.classpath.name .classpath := takes_name rfl
  have hcur : ({} : Decoder).cur_pos = 0 := rfl
  have hone := oneLine_append (formatted .classpath v ++ 0 :: (formatted .libhdfs_opts w ++ [0])) .ld_library_path u
  simp only [List.append_assoc, List.cons_append, List.nil_append, List.length_append, List.length_cons,
    List.length_nil, List.mem_append, List.mem_cons, ten_mem_formatted, List.not_mem_nil, or_false,
    (by decide : (10 : UInt8) ≠ 0), false_or, not_or] at hone
  -- the other two entries, when the first was read and the line goes on, and when it does not
  have hsame : ∀ d' : Decoder, d'.AtRest → d'.cur_pos = 11 + v.length → 10 ∉ v →
      d'.env = Function.update (fun _ => none) .classpath (some v) →
      (d'.final (formatted .classpath v ++ 0 :: (formatted .libhdfs_opts w ++ 0 :: (formatted .ld_library_path u ++ [0]))) =
        Function.update (Function.update d'.env .libhdfs_opts (some w)) .ld_library_path (some u) ↔
        10 ∉ w ∧ 10 ∉ u.dropLast ∧
          10 + v.length + (13 + w.length) + (formatted .ld_library_path u).length + 2 ≤ 8190) := by
    intro d' hd' hcur' hv10 henv
    have hl : d'.env .libhdfs_opts = none := by rw [henv]; rfl
    have hld : d'.env .ld_library_path = none := by rw [henv]; rfl
    have h := final_two hd' (P := formatted .classpath v ++ [0]) (by simp; omega)
      (by simp [ten_mem_formatted, hv10]) (name_clean _) hw hu (takes_name hl) (by decide) hl hld (fun _ => by omega)
    have hT₂ : Variable.libhdfs_opts.name.length + 1 + w.length = 13 + w.length := rfl
    have hld15 : Variable.ld_library_path.name.length = 15 := rfl
    rw [List.append_assoc, List.append_assoc, hT₂, hld15, hcur', or_iff_left (by omega)] at h
    refine Iff.trans h (and_congr Iff.rfl (and_congr Iff.rfl ?_))
    omega
  have hnext : ∀ d' : Decoder, d'.AtRest → d'.cur_pos = 11 + v.length → 10 ∈ v →
      d'.env = Function.update (fun _ => none) .classpath (some v) →
      (d'.final (0 :: (formatted .libhdfs_opts w ++ 0 :: (formatted .ld_library_path u ++ [0]))) =
        Function.update (Function.update d'.env .libhdfs_opts (some w)) .ld_library_path (some u) ↔
        d'.cur_pos = 13 ∧ 10 ∉ u.dropLast ∧
          (10 ∉ w ∧ (formatted .libhdfs_opts w).length + (formatted .ld_library_path u).length + 2 ≤ 8190 ∨
            w = [10] ∧ (formatted .ld_library_path u).length + 1 ≤ 8190)) := by
    intro d' hd' hcur' hv10 henv
    have := List.length_pos_iff.2 (List.ne_nil_of_mem hv10)
    exact displaced_two hd' (by omega) (by rw [henv]; exact Option.some_ne_none v) (by rw [henv]; rfl) (by rw [henv]; rfl)
      hw hu
  constructor
  · intro h
    have hvalue := congrFun h .classpath
    obtain ⟨hin, hfits⟩ := hd.fits_of_takes (P := []) rfl (by simp) (name_clean _) hv htakes rfl hvalue
    obtain ⟨d', fp', hd', hcur', henv, hfinal, ⟨hv10, -, rfl⟩ | ⟨hend, rfl⟩⟩ :=
      hd.takes_of_fits (P := []) rfl (by simp) (name_clean _) hv htakes hin hfits
        (R := formatted .libhdfs_opts w ++ 0 :: (formatted .ld_library_path u ++ [0]))
    · have h' := (hsame d' hd' (by omega) hv10 henv).1 (hfinal.symm.trans (h.trans (by rw [henv])))
      exact Or.inl (hone.2 ⟨⟨hv10, h'.1⟩, h'.2.1, by omega⟩)
    · rcases hend with hv10 | hfull
      · have h' := (hnext d' hd' (by omega) hv10 henv).1 (hfinal.symm.trans (h.trans (by rw [henv])))
        obtain ⟨c, c', rfl⟩ := List.length_eq_two.1 (show v.length = 2 by omega)
        have hc : c ≠ 10 := by simpa using Ne.symm (by simpa using hin)
        obtain rfl : 10 = c' := by simpa [hc.symm] using hv10
        exact Or.inr ⟨⟨c, hc, rfl⟩, h'.2⟩
      · have hw' := congrFun (hfinal.symm.trans h) .libhdfs_opts
        rw [hd'.final_of_le (Or.inl (by omega)), henv] at hw'
        cases hw'
  · rintro (h | ⟨⟨c, hc, rfl⟩, hrest⟩)
    · obtain ⟨⟨hv10, hw10⟩, hu10, hfits⟩ := hone.1 h
      obtain ⟨d', fp', hd', hcur', henv, hfinal, ⟨-, -, rfl⟩ | ⟨hend, rfl⟩⟩ :=
        hd.takes_of_fits (P := []) rfl (by simp) (name_clean _) hv htakes (fun h => hv10 (List.mem_of_mem_dropLast h))
          (by omega) (R := formatted .libhdfs_opts w ++ 0 :: (formatted .ld_library_path u ++ [0]))
      · have h' := (hsame d' hd' (by omega) hv10 henv).2 ⟨hw10, hu10, by omega⟩
        exact hfinal.trans (h'.trans (by rw [henv]))
      · rcases hend with h | h
        · exact absurd h hv10
        · omega
    · obtain ⟨d', fp', hd', hcur', henv, hfinal, ⟨h, -, rfl⟩ | ⟨hend, rfl⟩⟩ :=
        hd.takes_of_fits (P := []) rfl (by simp) (name_clean _) hv htakes (by simpa using hc.symm) (by simp; decide)
          (R := formatted .libhdfs_opts w ++ 0 :: (formatted .ld_library_path u ++ [0]))
      · exact absurd (by simp) h
      · have h' := (hnext d' hd' hcur' (by simp) henv).2 ⟨hcur', hrest⟩
        exact hfinal.trans (h'.trans (by rw [henv]))

/-- An environment of one variable. -/
theorem single_case {vars : Environment} {x : Variable} {v : Bytes} (hx : vars x = some v) (hv : 0 ∉ v)
    (hother : ∀ z, z ≠ x → vars z = none) :
    determineEnvironment (stream vars) = vars ↔ OneLine (stream vars) := by
  have hvars : vars = Function.update (fun _ => none) x (some v) := by
    funext z
    rcases eq_or_ne z x with rfl | hz
    · rw [hx, Function.update_self]
    · rw [hother z hz, Function.update_of_ne hz]
  have hstream : stream vars = formatted x v ++ [0] := by
    rw [hvars]
    cases x <;> simp [stream, entryOf]
  rw [hstream, hvars]
  exact single_iff x hv

/-- An environment of two variables. -/
theorem pair_case {vars : Environment} {x y : Variable} (hxy : x.ctorIdx < y.ctorIdx) {v u : Bytes} (hx : vars x = some v)
    (hv : 0 ∉ v) (hy : vars y = some u) (hu : 0 ∉ u) (hother : ∀ z, z ≠ x → z ≠ y → vars z = none) :
    determineEnvironment (stream vars) = vars ↔ OneLine (stream vars) ∨
      (y = .libhdfs_opts ∧ ∃ c, c ≠ 10 ∧ v = [c, 10]) ∧ 10 ∉ u.dropLast ∧ (formatted y u).length + 1 ≤ 8190 := by
  have hvars : vars = Function.update (Function.update (fun _ => none) x (some v)) y (some u) := by
    funext z
    rcases eq_or_ne z y with rfl | hzy
    · rw [hy, Function.update_self]
    rw [Function.update_of_ne hzy]
    rcases eq_or_ne z x with rfl | hzx
    · rw [hx, Function.update_self]
    · rw [hother z hzx hzy, Function.update_of_ne hzx]
  have hstream : stream vars = formatted x v ++ 0 :: (formatted y u ++ [0]) := by
    rw [hvars]
    cases x <;> cases y <;> first | exact absurd hxy (by decide) | simp [stream, entryOf]
  rw [hstream, hvars]
  exact pair_iff hxy hv hu

/-- **When the environment is decoded.** -/
theorem determineEnvironment_iff (vars : Environment) (h0 : ∀ x v, vars x = some v → 0 ∉ v) :
    determineEnvironment (stream vars) = vars ↔ OneLine (stream vars) ∨ Shifted vars := by
  have hB : BUFSIZE = 8192 := rfl
  have hshift : vars .classpath = none ∨ vars .libhdfs_opts = none → ¬ Shifted vars := by
    rintro hnone ⟨a, w, -, hc', hl', -⟩
    rw [hc', hl'] at hnone
    simp at hnone
  cases hc : vars .classpath with
  | none =>
    rw [or_iff_left (hshift (Or.inl hc))]
    cases hl : vars .libhdfs_opts with
    | none =>
      cases hu : vars .ld_library_path with
      | none =>
        have hvars : vars = fun _ => none := by
          funext x
          cases x <;> assumption
        have hstream : stream vars = [] := by simp [stream, hc, hl, hu, entryOf]
        rw [hstream, hvars]
        exact iff_of_true rfl ⟨by decide, by simp⟩
      | some u => exact single_case hu (h0 _ _ hu) (by rintro (_ | _ | _) <;> simp [hc, hl])
    | some w =>
      cases hu : vars .ld_library_path with
      | none => exact single_case hl (h0 _ _ hl) (by rintro (_ | _ | _) <;> simp [hc, hu])
      | some u =>
        rw [pair_case (by decide) hl (h0 _ _ hl) hu (h0 _ _ hu) (by rintro (_ | _ | _) <;> simp [hc]), or_iff_left]
        rintro ⟨⟨hne, -⟩, -⟩
        cases hne
  | some v =>
    cases hl : vars .libhdfs_opts with
    | none =>
      rw [or_iff_left (hshift (Or.inr hl))]
      cases hu : vars .ld_library_path with
      | none => exact single_case hc (h0 _ _ hc) (by rintro (_ | _ | _) <;> simp [hl, hu])
      | some u =>
        rw [pair_case (by decide) hc (h0 _ _ hc) hu (h0 _ _ hu) (by rintro (_ | _ | _) <;> simp [hl]), or_iff_left]
        rintro ⟨⟨hne, -⟩, -⟩
        cases hne
    | some w =>
      cases hu : vars .ld_library_path with
      | none =>
        rw [pair_case (by decide) hc (h0 _ _ hc) hl (h0 _ _ hl) (by rintro (_ | _ | _) <;> simp [hu])]
        refine or_congr_right ?_
        simp only [Shifted, hc, hl, hu, Option.some.injEq, hB]
        constructor
        · rintro ⟨⟨-, c, hc10, rfl⟩, hin, hfits⟩
          exact ⟨c, w, hc10, rfl, rfl, hin, by omega⟩
        · rintro ⟨c, w', hc10, rfl, rfl, hin, hfits⟩
          exact ⟨⟨trivial, c, hc10, rfl⟩, hin, by omega⟩
      | some u =>
        have hvars : vars = Function.update (Function.update (Function.update (fun _ => none) .classpath (some v))
            .libhdfs_opts (some w)) .ld_library_path (some u) := by
          funext x
          cases x <;> assumption
        have hstream : stream vars = formatted .classpath v ++ 0 :: (formatted .libhdfs_opts w ++ 0 ::
            (formatted .ld_library_path u ++ [0])) := by
          simp [stream, hc, hl, hu, entryOf]
        have hshifted : Shifted vars ↔ (∃ c, c ≠ 10 ∧ v = [c, 10]) ∧ 10 ∉ u.dropLast ∧
            (10 ∉ w ∧ (formatted .libhdfs_opts w).length + (formatted .ld_library_path u).length + 2 ≤ 8190 ∨
              w = [10] ∧ (formatted .ld_library_path u).length + 1 ≤ 8190) := by
          simp only [Shifted, hc, hl, hu, Option.some.injEq, hB]
          constructor
          · rintro ⟨c, w', hc10, rfl, rfl, hu10, ⟨hw10, hfits⟩ | ⟨rfl, hfits⟩⟩
            · exact ⟨⟨c, hc10, rfl⟩, hu10, Or.inl ⟨hw10, by omega⟩⟩
            · exact ⟨⟨c, hc10, rfl⟩, hu10, Or.inr ⟨rfl, by omega⟩⟩
          · rintro ⟨⟨c, hc10, rfl⟩, hu10, ⟨hw10, hfits⟩ | ⟨rfl, hfits⟩⟩
            · exact ⟨c, w, hc10, rfl, rfl, hu10, Or.inl ⟨hw10, by omega⟩⟩
            · exact ⟨c, _, hc10, rfl, rfl, hu10, Or.inr ⟨rfl, by omega⟩⟩
        rw [hshifted, hstream, hvars]
        exact triple_iff (h0 _ _ hc) (h0 _ _ hl) (h0 _ _ hu)

/-! ### What is written -/

/-- Every `safe_write` of the buffer wrote what the buffer held of the text, and no more. -/
def EnvCheck.Within (s : EnvCheck) : Prop := ∀ p ∈ s.writes, p.2 ≤ p.1

/-- The text fits the buffer, or it is so long that `snprintf` fails and nothing is written. -/
def FitsOrFails (x : Variable) (v : Bytes) : Prop := (formatted x v).length < BUFSIZE ∨ 2 ^ 31 ≤ (formatted x v).length

/-- The value, if `snprintf` does not fail. -/
def kept (x : Variable) (value : Option Bytes) : Option Bytes := value.filter fun v => (formatted x v).length < 2 ^ 31

theorem kept_eq_self {x : Variable} {value : Option Bytes} (h : ∀ v, value = some v → (formatted x v).length < BUFSIZE) :
    kept x value = value := by
  have hB : BUFSIZE = 8192 := rfl
  cases value with
  | none => rfl
  | some v =>
    have := h v rfl
    exact Option.filter_some_pos (decide_eq_true (by omega))

theorem length_entry_kept {x : Variable} {value : Option Bytes} (h : ∀ v, value = some v → FitsOrFails x v) :
    (entryOf x (kept x value)).length ≤ BUFSIZE := by
  cases hk : kept x value with
  | none => exact Nat.zero_le _
  | some v =>
    obtain ⟨hv, hlt⟩ := Option.filter_eq_some_iff.1 hk
    have := h v hv
    unfold FitsOrFails at this
    simp only [decide_eq_true_eq] at hlt
    rw [entryOf, List.length_append]
    exact this.resolve_right (by omega)

/-- One variable. -/
theorem EnvCheck.put_spec (x : Variable) (value : Option Bytes) (s : EnvCheck) :
    ((s.put x value).Within ↔ s.Within ∧ ∀ v, value = some v → FitsOrFails x v) ∧
    ((∀ v, value = some v → FitsOrFails x v) → (s.put x value).out = s.out ++ entryOf x (kept x value)) := by
  have hB : BUFSIZE = 8192 := rfl
  cases value with
  | none => simp [put, kept, entryOf]
  | some v =>
    simp only [Option.some.injEq, forall_eq', FitsOrFails, hB]
    rcases Nat.lt_or_ge (formatted x v).length (2 ^ 31) with hlt | hge
    · have hkept : kept x (some v) = some v := Option.filter_some_pos (decide_eq_true hlt)
      rw [hkept, or_iff_left (by omega)]
      simp only [put, snprintf, if_pos hlt, Int.natCast_nonneg, if_true, Within, hB, Int.toNat_natCast]
      refine ⟨?_, fun h => ?_⟩
      · simp only [List.forall_mem_append, List.forall_mem_singleton]
        exact and_congr Iff.rfl (by omega)
      · have hbuf : (List.range (formatted x v).length).map (fun i =>
            if i < min (formatted x v).length (8192 - 1) then (formatted x v).getD i 0
            else if i = min (formatted x v).length (8192 - 1) then 0 else s.buf i) = formatted x v := by
          rw [Nat.min_eq_left (by omega)]
          refine List.ext_getElem (by simp) fun i h₁ h₂ => ?_
          simp [h₂]
        rw [hbuf, entryOf, List.append_assoc]
    · have hkept : kept x (some v) = none := Option.filter_some_neg (decide_eq_false (not_lt.2 hge))
      have hneg : ¬ (0 : ℤ) ≤ -1 := by decide
      rw [hkept]
      simp only [put, snprintf, if_neg (not_lt.2 hge), if_neg hneg, Within, entryOf, List.append_nil]
      exact ⟨⟨fun h => ⟨h, Or.inr hge⟩, fun h => h.1⟩, fun _ => trivial⟩

/-- `main`. -/
theorem envcheck_spec (vars : Environment) (stack : ℕ → UInt8) :
    ((envcheck vars stack).Within ↔ ∀ x v, vars x = some v → FitsOrFails x v) ∧
    ((∀ x v, vars x = some v → FitsOrFails x v) → (envcheck vars stack).out = stream fun x => kept x (vars x)) := by
  unfold envcheck
  dsimp only
  generalize hs : ({ buf := fun i => if i < BUFSIZE + 1 then 0 else stack i } : EnvCheck) = s
  have hwithin : s.Within := by
    subst hs
    simp [EnvCheck.Within]
  have hout : s.out = [] := by
    subst hs
    rfl
  clear hs
  generalize hs₁ : s.put .classpath (vars .classpath) = s₁
  generalize hs₂ : s₁.put .libhdfs_opts (vars .libhdfs_opts) = s₂
  have h₁ := EnvCheck.put_spec .classpath (vars .classpath) s
  have h₂ := EnvCheck.put_spec .libhdfs_opts (vars .libhdfs_opts) s₁
  have h₃ := EnvCheck.put_spec .ld_library_path (vars .ld_library_path) s₂
  rw [hs₁] at h₁
  rw [hs₂] at h₂
  refine ⟨?_, fun h => ?_⟩
  · rw [h₃.1, h₂.1, h₁.1]
    constructor
    · rintro ⟨⟨⟨-, hc⟩, hl⟩, hld⟩ x
      cases x
      · exact hc
      · exact hl
      · exact hld
    · exact fun h => ⟨⟨⟨hwithin, h _⟩, h _⟩, h _⟩
  · rw [h₃.2 (h _), h₂.2 (h _), h₁.2 (h _), hout, List.nil_append, List.append_assoc]
    rfl

/-- The output of `envcheck` sets every variable to its value, and nothing else was written. -/
def Lossless (vars : Environment) (stack : ℕ → UInt8) : Prop :=
  (envcheck vars stack).Within ∧ determineEnvironment (envcheck vars stack).out = vars

/-- Every value fits the buffer, and what is written is one line or shifted. -/
def HandsOver (vars : Environment) : Prop :=
  (∀ x v, vars x = some v → (formatted x v).length < BUFSIZE) ∧ (OneLine (stream vars) ∨ Shifted vars)

/-- **When the environment is handed over.** -/
theorem lossless_iff (vars : Environment) (h0 : ∀ x v, vars x = some v → 0 ∉ v) (stack : ℕ → UInt8) :
    Lossless vars stack ↔ HandsOver vars := by
  have hB : BUFSIZE = 8192 := rfl
  obtain ⟨hwithin, hout⟩ := envcheck_spec vars stack
  have hfits : (∀ x v, vars x = some v → (formatted x v).length < BUFSIZE) →
      (Lossless vars stack ↔ OneLine (stream vars) ∨ Shifted vars) := by
    intro hfit
    have hfit' : ∀ x v, vars x = some v → FitsOrFails x v := fun x v hv => Or.inl (hfit x v hv)
    have hkept : (fun x => kept x (vars x)) = vars := funext fun x => kept_eq_self (hfit x)
    rw [Lossless, hwithin, and_iff_right hfit', hout hfit', hkept]
    exact determineEnvironment_iff vars h0
  refine ⟨fun h => ?_, fun h => (hfits h.1).2 h.2⟩
  have hfit' := hwithin.1 h.1
  have hfit : ∀ x v, vars x = some v → (formatted x v).length < BUFSIZE := by
    intro x v hv
    refine (hfit' x v hv).resolve_right fun hlong => ?_
    -- all that is written is shorter than the value
    have hdecode := congrFun h.2 x
    rw [hv, hout hfit'] at hdecode
    have hstream : (stream fun x => kept x (vars x)).length ≤ 3 * BUFSIZE := by
      have h₁ := length_entry_kept (hfit' .classpath)
      have h₂ := length_entry_kept (hfit' .libhdfs_opts)
      have h₃ := length_entry_kept (hfit' .ld_library_path)
      simp only [stream, List.length_append]
      omega
    have hname : x.name.length ≤ 15 := by cases x <;> decide
    rw [length_formatted] at hlong
    have hstart : Short x v.length ({} : Decoder).env
        (((stream fun x => kept x (vars x)).drop 0).splitOn 0) := by
      refine ⟨Nat.zero_le _, fun r hr => ?_⟩
      have h₁ := reach_le_length r
      have h₂ := length_le_of_mem_splitOn hr
      rw [List.drop_zero] at h₂
      omega
    obtain ⟨L, hL⟩ := (budget_short x _).final_atRest Decoder.atRest_new (p := 0) le_rfl (by simp) hstart
    exact hL.ne hdecode
  exact ⟨hfit, (hfits hfit).1 h⟩

/-- Two values that fit one line. -/
def twoPaths : Environment :=
  Function.update (Function.update (fun _ => none) .classpath (some (str "/a.jar"))) .ld_library_path (some (str "/lib"))

theorem lossless_iff_paths : Lossless twoPaths fun _ => 1 := by
  refine (lossless_iff twoPaths (fun x v hv => ?_) fun _ => 1).2 ⟨fun x v hv => ?_, Or.inl ⟨?_, ?_⟩⟩
  · cases x <;> cases hv <;> decide
  · cases x <;> cases hv <;> decide
  · decide
  · decide

/-- A line feed in `CLASSPATH` ends its value, and the variable behind it is not set; and of a `CLASSPATH` of 8182
characters 8192 bytes are written of a buffer that holds 8191 of them. -/
theorem not_lossless :
    (determineEnvironment (envcheck (Function.update twoPaths .classpath (some (str "/a\n/b"))) fun _ => 1).out .classpath,
      determineEnvironment (envcheck (Function.update twoPaths .classpath (some (str "/a\n/b"))) fun _ => 1).out
        .ld_library_path) = (some (str "/a\n"), none) ∧
    ¬ (envcheck (Function.update (fun _ => none) .classpath (some (List.replicate 8182 97))) fun _ => 1).Within := by
  refine ⟨by decide +kernel, fun h => ?_⟩
  have hfits := (envcheck_spec _ _).1.1 h .classpath _ rfl
  have hlen : (formatted .classpath (List.replicate 8182 97)).length = 8192 := by
    rw [length_formatted, List.length_replicate]
    rfl
  have hB : BUFSIZE = 8192 := rfl
  unfold FitsOrFails at hfits
  omega

end XrdHdfs
