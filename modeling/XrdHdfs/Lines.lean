import XrdHdfs.Environment

/-!
# How `DetermineEnvironment` takes its input apart

`fgets` cuts the input into lines; the inner loop takes the strings of a line from `cur_pos` on, and `cur_pos` stays
where it is when the next line is loaded at the start of the buffer.  After most lines the buffer holds nothing but
zeros behind `cur_pos` (`Decoder.AtRest`).  Then a line that is no longer than `cur_pos` does nothing, and of a longer
one the part behind `cur_pos` is read (`Decoder.AtRest.string`).
-/

namespace XrdHdfs

/-! ### Lines -/

theorem fgetsLine_eq (fp : Bytes) : fgetsLine fp =
    if 10 ∈ fp.take 8190 then (fp.take 8190).take ((fp.take 8190).idxOf 10 + 1) else fp.take 8190 := rfl

theorem prefix_fgetsLine (fp : Bytes) : fgetsLine fp <+: fp := by
  rw [fgetsLine_eq]
  split_ifs
  · exact (List.take_prefix _ _).trans (List.take_prefix _ _)
  · exact List.take_prefix _ _

theorem fgetsLine_length_le (fp : Bytes) : (fgetsLine fp).length ≤ 8190 := by
  rw [fgetsLine_eq]
  split_ifs <;> simp only [List.length_take] <;> omega

theorem fgetsLine_append_drop (fp : Bytes) : fgetsLine fp ++ fp.drop (fgetsLine fp).length = fp :=
  List.prefix_iff_eq_append.1 (prefix_fgetsLine fp)

theorem fgetsLine_pos {fp : Bytes} (h : fp ≠ []) : 0 < (fgetsLine fp).length := by
  have := List.length_pos_iff.2 h
  rw [fgetsLine_eq]
  split_ifs with h10
  · have := List.idxOf_lt_length_of_mem h10
    simp only [List.length_take] at this ⊢
    omega
  · simp only [List.length_take]
    omega

/-- What has no line feed and is not too long is in the line. -/
theorem fgetsLine_extends {A : Bytes} (h10 : 10 ∉ A) (hA : A.length ≤ 8190) (R : Bytes) :
    ∃ R₁, fgetsLine (A ++ R) = A ++ R₁ := by
  have htake : (A ++ R).take 8190 = A ++ R.take (8190 - A.length) := by
    rw [List.take_append, List.take_of_length_le hA]
  rw [fgetsLine_eq, htake]
  split_ifs
  · refine ⟨(R.take (8190 - A.length)).take ((R.take (8190 - A.length)).idxOf 10 + 1), ?_⟩
    rw [List.idxOf_append_of_notMem h10, Nat.add_assoc, List.take_length_add_append]
  · exact ⟨_, rfl⟩

/-- Without a line feed the line is as long as it can be. -/
theorem fgetsLine_full {A : Bytes} (h10 : 10 ∉ A) (hA : A.length = 8190) (R : Bytes) : fgetsLine (A ++ R) = A := by
  have htake : (A ++ R).take 8190 = A := by rw [← hA, List.take_left]
  rw [fgetsLine_eq, htake, if_neg h10]

/-- A line ends at its line feed. -/
theorem fgetsLine_newline {A : Bytes} (h10 : 10 ∉ A) (hA : A.length < 8190) (R : Bytes) :
    fgetsLine (A ++ 10 :: R) = A ++ [10] := by
  have htake : (A ++ 10 :: R).take 8190 = A ++ 10 :: R.take (8190 - A.length - 1) := by
    rw [List.take_append, List.take_of_length_le hA.le, show 8190 - A.length = 8190 - A.length - 1 + 1 by omega,
      List.take_succ_cons]
    rfl
  have hidx : (A ++ 10 :: R.take (8190 - A.length - 1)).idxOf 10 = A.length := by
    rw [List.idxOf_append_of_notMem h10, List.idxOf_cons_self, Nat.add_zero]
  rw [fgetsLine_eq, htake, if_pos (by simp), hidx, List.take_length_add_append]
  rfl

/-- How a string `t` is cut when the line has room for what stands before `cur` and no more than 8190 characters: `t₁` is
the part in the line, which ends with a line feed or at the limit. -/
structure Cut (cur : ℕ) (t t₁ t₂ : Bytes) : Prop where
  eq : t = t₁ ++ t₂
  ne_nil : t₁ ≠ []
  inner : 10 ∉ t₁.dropLast
  le : cur + t₁.length ≤ 8190
  ends : 10 ∈ t₁ ∨ cur + t₁.length = 8190

theorem Cut.newline {cur : ℕ} {a b : Bytes} (ha : 10 ∉ a) (hlen : cur + a.length < 8190) :
    Cut cur (a ++ 10 :: b) (a ++ [10]) b where
  eq := by simp
  ne_nil := by simp
  inner := by simpa using ha
  le := by simp; omega
  ends := Or.inl (by simp)

theorem Cut.full {cur : ℕ} {a b : Bytes} (hne : a ≠ []) (ha : 10 ∉ a) (hlen : cur + a.length = 8190) :
    Cut cur (a ++ b) a b where
  eq := rfl
  ne_nil := hne
  inner h := ha (List.mem_of_mem_dropLast h)
  le := hlen.le
  ends := Or.inr hlen

/-- The line ends in what stands before the equals sign, at the limit, or behind it. -/
theorem Cut.cases_equals {cur : ℕ} {T u t₁ t₂ : Bytes} (h : Cut cur (T ++ 61 :: u) t₁ t₂) (hT : 10 ∉ T ∧ 61 ∉ T) :
    (61 ∉ t₁ ∧ cur + t₁.length = 8190 ∧ t₁.length ≤ T.length) ∨ ∃ s, t₁ = T ++ 61 :: s ∧ u = s ++ t₂ := by
  have hname : ∀ T', T = t₁ ++ T' → 61 ∉ t₁ ∧ cur + t₁.length = 8190 ∧ t₁.length ≤ T.length := by
    rintro T' rfl
    refine ⟨fun h61 => hT.2 (List.mem_append_left _ h61), h.ends.resolve_left fun h10 => ?_, by simp⟩
    exact hT.1 (List.mem_append_left _ h10)
  rcases List.append_eq_append_iff.1 h.eq with ⟨s, rfl, hs⟩ | ⟨T', hT', -⟩
  · cases s with
    | nil => exact Or.inl (hname [] (by simp))
    | cons c s =>
      rw [List.cons_append, List.cons.injEq] at hs
      obtain ⟨rfl, rfl⟩ := hs
      exact Or.inr ⟨s, rfl, rfl⟩
  · exact Or.inl (hname T' hT')

/-- A line that begins with `P`, when the input goes on with the string `t`: it has all of the string and the NUL behind
it, or a part of the string. -/
theorem fgetsLine_cases {P t R : Bytes} (h10 : 10 ∉ P) (hP : P.length < 8190) (ht : t ≠ []) :
    (10 ∉ t ∧ P.length + t.length + 1 ≤ 8190 ∧ ∃ R₁, fgetsLine (P ++ t ++ 0 :: R) = P ++ t ++ 0 :: R₁) ∨
    ∃ t₁ t₂, Cut P.length t t₁ t₂ ∧ fgetsLine (P ++ t ++ 0 :: R) = P ++ t₁ := by
  have hnewline : ∀ a b, t = a ++ 10 :: b → 10 ∉ a → P.length + a.length < 8190 →
      ∃ t₁ t₂, Cut P.length t t₁ t₂ ∧ fgetsLine (P ++ t ++ 0 :: R) = P ++ t₁ := by
    rintro a b rfl ha hlen
    have := @fgetsLine_newline (P ++ a) (by simp [h10, ha]) (by simpa using hlen) (b ++ 0 :: R)
    exact ⟨_, _, .newline ha hlen, by simpa using this⟩
  by_cases hroom : P.length + t.length + 1 ≤ 8190
  · by_cases ht10 : 10 ∈ t
    · obtain ⟨a, b, rfl, ha⟩ := List.eq_append_cons_of_mem ht10
      refine Or.inr (hnewline a b rfl ha ?_)
      simp only [List.length_append, List.length_cons] at hroom
      omega
    · have hA : 10 ∉ P ++ t ++ [0] := by simp [h10, ht10]
      obtain ⟨R₁, hR⟩ := fgetsLine_extends hA (by simpa [Nat.add_assoc] using hroom) R
      exact Or.inl ⟨ht10, hroom, R₁, by simpa using hR⟩
  · have hcut := List.take_append_drop (8190 - P.length) t
    have hlen : (t.take (8190 - P.length)).length = 8190 - P.length := by
      rw [List.length_take]
      omega
    generalize t.take (8190 - P.length) = a at hcut hlen
    generalize t.drop (8190 - P.length) = b at hcut
    subst hcut
    have hne : a ≠ [] := List.length_pos_iff.1 (by omega)
    by_cases ha10 : 10 ∈ a
    · obtain ⟨a, a', rfl, ha⟩ := List.eq_append_cons_of_mem ha10
      refine Or.inr (hnewline a (a' ++ b) (by simp) ha ?_)
      rw [List.length_append, List.length_cons] at hlen
      omega
    · have := @fgetsLine_full (P ++ a) (by simp [h10, ha10]) (by rw [List.length_append]; omega) (b ++ 0 :: R)
      exact Or.inr ⟨_, _, .full hne ha10 (by omega), by simpa using this⟩

/-! ### The inner loop -/

namespace Decoder

theorem scanLoop_succ (k : ℕ) (d : Decoder) (h : d.environ_buffer.length ≤ d.cur_pos + k) :
    scanLoop (k + 1) d = scanLoop k d := by
  induction k generalizing d with
  | zero =>
    have hnil : d.environ_buffer.drop d.cur_pos = [] := List.drop_eq_nil_of_le (by omega)
    simp [scanLoop, hnil, cstr]
  | succ k ih =>
    unfold scanLoop
    dsimp only
    split_ifs with hinput
    · rfl
    · exact ih _ (by dsimp only; omega)

/-- One turn of the inner loop. -/
theorem scan_string {d : Decoder} (hlen : d.environ_buffer.length ≤ BUFSIZE) {t b : Bytes} (h0 : 0 ∉ t) (ht : t ≠ [])
    (htail : d.environ_buffer.drop d.cur_pos = t ++ 0 :: b) :
    d.scan = scan { d with cur_pos := d.cur_pos + (t.length + 1), env := checkEnvVars d.env t } := by
  have hcstr : cstr (d.environ_buffer.drop d.cur_pos) = t := by
    rw [htail, cstr_append h0]
  have h := scanLoop_succ BUFSIZE d (by omega)
  rw [scan, ← h, scanLoop, hcstr, if_neg ht]
  rfl

theorem scan_stop {d : Decoder} (h : cstr (d.environ_buffer.drop d.cur_pos) = []) : d.scan = d := by
  rw [scan, show BUFSIZE = 8191 + 1 from rfl, scanLoop]
  exact if_pos h

theorem length_load {d : Decoder} {line : Bytes} (hline : line.length < d.environ_buffer.length) :
    (d.load line).environ_buffer.length = d.environ_buffer.length := by
  simp only [load, List.length_append, List.length_cons, List.length_drop]
  omega

/-- What stands behind `cur_pos` when a line is loaded. -/
theorem load_tail (line : Bytes) (d : Decoder) : (d.load line).environ_buffer.drop (d.load line).cur_pos =
    (line ++ [0]).drop d.cur_pos ++ (d.environ_buffer.drop d.cur_pos).drop (line.length + 1 - d.cur_pos) := by
  have hload : (d.load line).environ_buffer = (line ++ [0]) ++ d.environ_buffer.drop (line.length + 1) := by simp [load]
  rw [hload, List.drop_append, List.drop_drop, List.drop_drop]
  simp only [List.length_append, List.length_cons, List.length_nil, load]
  congr 2
  omega

/-- A line that begins with what stands before `cur_pos`. -/
theorem load_tail_append {P : Bytes} {d : Decoder} (hP : P.length = d.cur_pos) (s : Bytes) :
    (d.load (P ++ s)).environ_buffer.drop (d.load (P ++ s)).cur_pos =
      s ++ 0 :: (d.environ_buffer.drop d.cur_pos).drop (s.length + 1) := by
  rw [load_tail, List.append_assoc, List.drop_left' hP, List.length_append, hP, Nat.add_assoc, Nat.add_sub_cancel_left,
    List.append_assoc]
  rfl

/-! ### The outer loop -/

/-- The variables that are set when the rest of the input is read. -/
def final (d : Decoder) (fp : Bytes) : Environment := (readLoop (fp.length + 1) fp d).env

theorem readLoop_succ (k : ℕ) (fp : Bytes) (d : Decoder) (h : fp.length ≤ k) :
    readLoop (k + 1) fp d = readLoop k fp d := by
  induction k generalizing fp d with
  | zero =>
    obtain rfl := List.length_eq_zero_iff.1 (Nat.le_zero.1 h)
    rfl
  | succ k ih =>
    unfold readLoop
    split_ifs with hfp
    · rfl
    · refine ih _ _ ?_
      have := fgetsLine_pos hfp
      rw [List.length_drop]
      omega

theorem final_eq {k : ℕ} {fp : Bytes} (h : fp.length ≤ k) (d : Decoder) : d.final fp = (readLoop k fp d).env := by
  have hk : ∀ j, (readLoop (fp.length + j) fp d).env = (readLoop fp.length fp d).env := by
    intro j
    induction j with
    | zero => rfl
    | succ j ih => rw [← Nat.add_assoc, readLoop_succ _ _ _ (by omega), ih]
  obtain ⟨j, rfl⟩ := Nat.exists_eq_add_of_le h
  rw [final, hk 1, hk j]

theorem final_nil (d : Decoder) : d.final [] = d.env := rfl

theorem final_line {fp : Bytes} (h : fp ≠ []) (d : Decoder) :
    d.final fp = (d.load (fgetsLine fp)).scan.final (fp.drop (fgetsLine fp).length) := by
  have hpos := fgetsLine_pos h
  rw [final, readLoop, if_neg h]
  exact (final_eq (by rw [List.length_drop]; omega) _).symm

/-! ### At rest -/

/-- The buffer has nothing but zeros from `cur_pos` on. -/
structure AtRest (d : Decoder) : Prop where
  length : d.environ_buffer.length = 8192
  zeros : ∀ c ∈ d.environ_buffer.drop d.cur_pos, c = 0

theorem atRest_new : AtRest {} where
  length := List.length_replicate
  zeros _ hc := List.eq_of_mem_replicate (List.mem_of_mem_drop hc)

namespace AtRest

variable {d : Decoder} (hd : d.AtRest)

include hd

theorem scan_eq : d.scan = d := by
  apply scan_stop
  have h := hd.zeros
  cases hb : d.environ_buffer.drop d.cur_pos with
  | nil => rfl
  | cons c b =>
    obtain rfl := h c (by simp [hb])
    simp [cstr]

/-- A line that is no longer than `cur_pos` does nothing. -/
theorem quiet {line : Bytes} (hline : line.length ≤ 8190) (h : line.length ≤ d.cur_pos) : (d.load line).AtRest where
  length := (length_load (by rw [hd.length]; omega)).trans hd.length
  zeros c hc := by
    rw [load_tail, List.mem_append] at hc
    rcases hc with hc | hc
    · rw [List.drop_append, List.drop_eq_nil_of_le h, List.nil_append] at hc
      simpa using List.mem_of_mem_drop hc
    · exact hd.zeros c (List.mem_of_mem_drop hc)

theorem final_quiet {fp : Bytes} (h : (fgetsLine fp).length ≤ d.cur_pos) :
    d.final fp = (d.load (fgetsLine fp)).final (fp.drop (fgetsLine fp).length) := by
  by_cases hfp : fp = []
  · subst hfp
    rfl
  · rw [final_line hfp, (hd.quiet (fgetsLine_length_le fp) h).scan_eq]

omit hd in
/-- When all the lines that can come are short nothing changes. -/
theorem final_stuck (n : ℕ) : ∀ {d : Decoder}, d.AtRest → ∀ {fp : Bytes}, fp.length ≤ n →
    8190 ≤ d.cur_pos ∨ fp.length ≤ d.cur_pos → d.final fp = d.env := by
  induction n with
  | zero =>
    intro d _ fp hn _
    rw [List.length_eq_zero_iff.1 (Nat.le_zero.1 hn), final_nil]
  | succ n ih =>
    intro d hd fp hn h
    have hle := fgetsLine_length_le fp
    have hline : (fgetsLine fp).length ≤ d.cur_pos := by
      have := (prefix_fgetsLine fp).length_le
      omega
    by_cases hfp : fp = []
    · rw [hfp, final_nil]
    · have hpos := fgetsLine_pos hfp
      have hlen := List.length_drop (i := (fgetsLine fp).length) (l := fp)
      rw [hd.final_quiet hline, ih (hd.quiet hle hline) (by omega) (by dsimp only [load]; omega)]
      rfl

theorem final_of_le {fp : Bytes} (h : 8190 ≤ d.cur_pos ∨ fp.length ≤ d.cur_pos) : d.final fp = d.env :=
  final_stuck _ hd le_rfl h

/-- **A string behind `cur_pos`.**  The input begins with `P`, which the line skips, and goes on with the string `t`.
Either all of it is in the line and is read, and the rest of the line is read as if `cur_pos` had been behind the string
before; or the line ends in it, and its part `t₁` is read. -/
theorem string {P t R : Bytes} (hP : P.length = d.cur_pos) (h10 : 10 ∉ P) (hlt : d.cur_pos < 8190) (ht : t ≠ [])
    (h0 : 0 ∉ t) :
    (10 ∉ t ∧ d.cur_pos + t.length + 1 ≤ 8190 ∧ ∃ d' : Decoder, d'.AtRest ∧ d'.cur_pos = d.cur_pos + (t.length + 1) ∧
      d'.env = checkEnvVars d.env t ∧ d.final (P ++ t ++ 0 :: R) = d'.final (P ++ t ++ 0 :: R)) ∨
    ∃ t₁ t₂, Cut d.cur_pos t t₁ t₂ ∧ ∃ d' : Decoder, d'.AtRest ∧ d'.cur_pos = d.cur_pos + (t₁.length + 1) ∧
      d'.env = checkEnvVars d.env t₁ ∧ d.final (P ++ t ++ 0 :: R) = d'.final (t₂ ++ 0 :: R) := by
  have hfp : P ++ t ++ 0 :: R ≠ [] := by simp
  have hlength : (d.load (fgetsLine (P ++ t ++ 0 :: R))).environ_buffer.length ≤ BUFSIZE := by
    have := fgetsLine_length_le (P ++ t ++ 0 :: R)
    rw [length_load (by rw [hd.length]; omega), hd.length]
  rcases fgetsLine_cases h10 (hP ▸ hlt) ht (R := R) with ⟨ht10, hroom, R₁, hline⟩ | ⟨t₁, t₂, hcut, hline⟩
  · refine Or.inl ⟨ht10, hP ▸ hroom, { d with cur_pos := d.cur_pos + (t.length + 1), env := checkEnvVars d.env t },
      ⟨hd.length, fun c hc => ?_⟩, rfl, rfl, ?_⟩
    · rw [← List.drop_drop] at hc
      exact hd.zeros c (List.mem_of_mem_drop hc)
    · have htail := load_tail_append hP (t ++ 0 :: R₁)
      rw [List.append_assoc t, List.cons_append, ← List.append_assoc, ← hline] at htail
      rw [final_line hfp, final_line hfp, scan_string hlength h0 ht htail]
      rfl
  · have htail := load_tail_append hP t₁
    rw [← hline] at htail
    have h0₁ : 0 ∉ t₁ := fun h => h0 (by rw [hcut.eq]; exact List.mem_append_left _ h)
    have hscan := scan_string hlength h0₁ hcut.ne_nil htail
    rw [hline] at htail hscan
    have hrest : AtRest { d.load (P ++ t₁) with
        cur_pos := d.cur_pos + (t₁.length + 1), env := checkEnvVars d.env t₁ } := by
      refine ⟨?_, fun c hc => ?_⟩
      · have := hcut.le
        exact (length_load (by rw [hd.length, List.length_append]; omega)).trans hd.length
      · have hdrop := congrArg (List.drop (t₁.length + 1)) htail
        rw [List.drop_drop, List.drop_length_add_append, List.drop_one, List.tail_cons] at hdrop
        exact hd.zeros c (List.mem_of_mem_drop (hdrop ▸ hc))
    refine Or.inr ⟨t₁, t₂, hP ▸ hcut, _, hrest, rfl, rfl, ?_⟩
    have hdrop : (P ++ t ++ 0 :: R).drop (P ++ t₁).length = t₂ ++ 0 :: R := by
      rw [hcut.eq]
      simp
    rw [final_line hfp, hline, hscan, hdrop]
    exact congrArg (final · _) hrest.scan_eq

end AtRest

end Decoder

/-! ### The variables that are set -/

/-- `CheckEnvVar` of all the variables sets one of those that are needed, or none. -/
theorem checkEnvVars_cases (env : Environment) (t : Bytes) : checkEnvVars env t = env ∨
    ∃ z, env z = none ∧ 61 ∈ t ∧ checkEnvVars env t = Function.update env z (some (valueOf t)) := by
  unfold checkEnvVars
  split_ifs with h₁ h₂ h₃
  · exact Or.inr ⟨_, h₁.1, h₁.2.1, rfl⟩
  · exact Or.inr ⟨_, h₂.1, h₂.2.1, rfl⟩
  · exact Or.inr ⟨_, h₃.1, h₃.2.1, rfl⟩
  · exact Or.inl rfl

theorem checkEnvVars_of_not_mem {t : Bytes} (h : 61 ∉ t) (env : Environment) : checkEnvVars env t = env := by
  rcases checkEnvVars_cases env t with heq | ⟨_, _, hmem, _⟩
  · exact heq
  · exact absurd hmem h

theorem checkEnvVars_keeps {env : Environment} {x : Variable} {v : Bytes} (h : env x = some v) (t : Bytes) :
    checkEnvVars env t x = some v := by
  rcases checkEnvVars_cases env t with heq | ⟨z, hz, _, heq⟩
  · rw [heq, h]
  · have hne : x ≠ z := by
      rintro rfl
      rw [hz] at h
      cases h
    rw [heq, Function.update_of_ne hne, h]

namespace Decoder

theorem scanLoop_keeps {x : Variable} {v : Bytes} (k : ℕ) (d : Decoder) (h : d.env x = some v) :
    (scanLoop k d).env x = some v := by
  induction k generalizing d with
  | zero => exact h
  | succ k ih =>
    unfold scanLoop
    dsimp only
    split_ifs
    · exact h
    · exact ih _ (checkEnvVars_keeps h _)

/-- A variable that is set is not set again. -/
theorem final_keeps {x : Variable} {v : Bytes} {d : Decoder} (h : d.env x = some v) (fp : Bytes) :
    d.final fp x = some v := by
  unfold final
  induction fp.length + 1 generalizing fp d with
  | zero => exact h
  | succ k ih =>
    unfold readLoop
    split_ifs
    · exact h
    · exact ih (scanLoop_keeps BUFSIZE (d.load (fgetsLine fp)) h) _

end Decoder

/-- A string that begins with `T=` sets the variable. -/
def Takes (env : Environment) (T : Bytes) (x : Variable) : Prop :=
  ∀ u, checkEnvVars env (T ++ 61 :: u) = Function.update env x (some u)

theorem matches_append {T : Bytes} (hT : 61 ∉ T) (x : Variable) (u : Bytes) : Matches x (T ++ 61 :: u) ↔ T <+: x.name := by
  have htake : (T ++ 61 :: u).takeWhile (· != 61) = T := by
    rw [List.takeWhile_append_of_pos (by simpa using fun c hc => ne_of_mem_of_not_mem hc hT)]
    simp
  simp [Matches, htake]

theorem valueOf_append {T : Bytes} (hT : 61 ∉ T) (u : Bytes) : valueOf (T ++ 61 :: u) = u := by
  rw [valueOf, List.dropWhile_append_of_pos (by simpa using fun c hc => ne_of_mem_of_not_mem hc hT)]
  simp

/-- The first of the variables that are needed, of those whose name begins with `T`, is set. -/
theorem takes_of_first {env : Environment} {T : Bytes} (hT : 61 ∉ T) {x : Variable} (hx : env x = none)
    (hmatch : T <+: x.name) (hfirst : ∀ y, y.ctorIdx < x.ctorIdx → env y ≠ none ∨ ¬ T <+: y.name) : Takes env T x := by
  intro u
  simp only [checkEnvVars, matches_append hT, valueOf_append hT]
  cases x with
  | classpath => rw [if_pos ⟨hx, hmatch⟩]
  | libhdfs_opts =>
    have h₁ := hfirst .classpath (by decide)
    rw [if_neg fun h => h₁.elim (· h.1) (· h.2), if_pos ⟨hx, hmatch⟩]
  | ld_library_path =>
    have h₁ := hfirst .classpath (by decide)
    have h₂ := hfirst .libhdfs_opts (by decide)
    rw [if_neg fun h => h₁.elim (· h.1) (· h.2), if_neg fun h => h₂.elim (· h.1) (· h.2), if_pos ⟨hx, hmatch⟩]

theorem takes_name {env : Environment} {x : Variable} (hx : env x = none) : Takes env x.name x := by
  refine takes_of_first ?_ hx List.prefix_rfl ?_
  · cases x <;> decide
  · intro y hy
    refine Or.inr ?_
    cases x <;> cases y <;> revert hy <;> decide

/-- A string that begins with `T=`, where no name that is needed begins with `T`, is passed over. -/
theorem checkEnvVars_of_no_match {env : Environment} {T : Bytes} (hT : 61 ∉ T) (h : ∀ x : Variable, ¬ T <+: x.name) (u : Bytes) :
    checkEnvVars env (T ++ 61 :: u) = env := by
  simp [checkEnvVars, matches_append hT, h]

namespace Decoder.AtRest

variable {d : Decoder} (hd : d.AtRest) {P T u R : Bytes} {x : Variable} (hP : P.length = d.cur_pos) (h10 : 10 ∉ P)
  (hT : ∀ c ∈ T, c ≠ 0 ∧ c ≠ 10 ∧ c ≠ 61) (hu : 0 ∉ u)

include hd hP h10 hT hu

/-- **An entry that is read.**  If its value has a line feed at its end at most, and the line has room for it, the
variable gets its value, and it goes on in the line, or with the NUL behind the entry in the next one. -/
theorem takes_of_fits (htakes : Takes d.env T x) (hin : 10 ∉ u.dropLast)
    (hfits : d.cur_pos + (T.length + 1 + u.length) ≤ 8190) :
    ∃ (d' : Decoder) (fp' : Bytes), d'.AtRest ∧ d'.cur_pos = d.cur_pos + (T.length + 1 + u.length) + 1 ∧
      d'.env = Function.update d.env x (some u) ∧ d.final (P ++ (T ++ 61 :: u) ++ 0 :: R) = d'.final fp' ∧
      (10 ∉ u ∧ d'.cur_pos ≤ 8190 ∧ fp' = P ++ (T ++ 61 :: u) ++ 0 :: R ∨
        (10 ∈ u ∨ d'.cur_pos = 8191) ∧ fp' = 0 :: R) := by
  have hT10 : 10 ∉ T := fun h => (hT _ h).2.1 rfl
  have h0 : 0 ∉ T ++ 61 :: u := by
    have hT0 : 0 ∉ T := fun h => (hT _ h).1 rfl
    simp [hT0, hu]
  have hlen : (T ++ 61 :: u).length = T.length + 1 + u.length := by simp; omega
  rcases hd.string hP h10 (by omega) (by simp) h0 (R := R) with ⟨ht10, hroom, d', hd', hcur, henv, hfinal⟩ |
    ⟨t₁, t₂, hcut, d', hd', hcur, henv, hfinal⟩
  · refine ⟨d', _, hd', by omega, by rw [henv, htakes], hfinal, Or.inl ⟨fun h => ht10 (by simp [h]), by omega, rfl⟩⟩
  · have h₂ : t₂ = [] := by
      by_contra hne
      have hlen₂ := List.length_pos_iff.2 hne
      have hsum := congrArg List.length hcut.eq
      rw [hlen, List.length_append] at hsum
      rcases hcut.ends with h | h
      · have hmem : 10 ∈ (T ++ 61 :: u).dropLast := by
          rw [hcut.eq, List.dropLast_append_of_ne_nil hne]
          exact List.mem_append_left _ h
        rw [List.dropLast_append_of_ne_nil (by simp)] at hmem
        cases u <;> simp_all
      · omega
    subst h₂
    have h₁ := hcut.eq
    rw [List.append_nil] at h₁
    subst h₁
    refine ⟨d', _, hd', by omega, by rw [henv, htakes], hfinal, Or.inr ⟨?_, rfl⟩⟩
    rcases hcut.ends with h | h
    · exact Or.inl (by simpa [hT10] using h)
    · exact Or.inr (by omega)

/-- **An entry that does not fit.**  Otherwise the variable does not get its value. -/
theorem fits_of_takes (htakes : Takes d.env T x) (hx : d.env x = none)
    (hfinal : d.final (P ++ (T ++ 61 :: u) ++ 0 :: R) x = some u) :
    10 ∉ u.dropLast ∧ d.cur_pos + (T.length + 1 + u.length) ≤ 8190 := by
  have hT10 : 10 ∉ T := fun h => (hT _ h).2.1 rfl
  have h0 : 0 ∉ T ++ 61 :: u := by
    have hT0 : 0 ∉ T := fun h => (hT _ h).1 rfl
    simp [hT0, hu]
  have hlen : (T ++ 61 :: u).length = T.length + 1 + u.length := by simp; omega
  have hstart : d.cur_pos < 8190 := by
    by_contra h
    rw [hd.final_of_le (Or.inl (by omega)), hx] at hfinal
    cases hfinal
  rcases hd.string hP h10 hstart (by simp) h0 (R := R) with ⟨ht10, hroom, -⟩ |
    ⟨t₁, t₂, hcut, d', hd', hcur, henv, heq⟩
  · exact ⟨fun h => ht10 (by simp [List.mem_of_mem_dropLast h]), by omega⟩
  · rw [heq] at hfinal
    rcases hcut.cases_equals ⟨hT10, fun h => (hT _ h).2.2 rfl⟩ with ⟨h61, hend, -⟩ | ⟨s, rfl, rfl⟩
    · rw [hd'.final_of_le (Or.inl (by omega)), henv, checkEnvVars_of_not_mem h61, hx] at hfinal
      cases hfinal
    · have hset : d'.env x = some s := by rw [henv, htakes, Function.update_self]
      rw [final_keeps hset, Option.some.injEq, List.self_eq_append_right] at hfinal
      subst hfinal
      have hin := hcut.inner
      have hle := hcut.le
      rw [List.append_nil] at hlen ⊢
      rw [List.dropLast_append_of_ne_nil (by simp)] at hin
      refine ⟨fun h => hin (List.mem_append_right _ ?_), by omega⟩
      cases s with
      | nil => cases h
      | cons c s => exact List.mem_cons_of_mem _ h

end Decoder.AtRest

end XrdHdfs
