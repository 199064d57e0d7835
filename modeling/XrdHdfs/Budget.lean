import XrdHdfs.Lines
import XrdHdfs.Lib.Runs

/-!
# What the strings that are left can still do

What `DetermineEnvironment` has not read yet is in the buffer behind `cur_pos` and in the rest of the input.  Its
strings can be skipped, cut in two and read; so a relation between the variables that are set and these strings which
survives all that (`Budget`) holds to the end.  `reach` bounds the value that a string can give a variable, and the two
budgets here say that there is no value left that is long enough for one variable, or for two of them.
-/

namespace XrdHdfs

open Lib

/-! ### Budgets -/

/-- A relation that survives when strings are forgotten, cut and read. -/
structure Budget (I : Environment → List Bytes → Prop) : Prop where
  closed : ∀ env, CutClosed (I env)
  read : ∀ {env r L}, I env (r :: L) → I (checkEnvVars env r) L

namespace Budget

variable {I : Environment → List Bytes → Prop} (hI : Budget I)

include hI

theorem load {d : Decoder} {line rest : Bytes} {p : ℕ} (hp : p ≤ d.cur_pos) {L : List Bytes}
    (h : I d.env ((d.environ_buffer.drop d.cur_pos).splitOn 0 ++ ((line.drop p ++ rest).splitOn 0 ++ L))) :
    I (d.load line).env (((d.load line).environ_buffer.drop (d.load line).cur_pos).splitOn 0 ++ (rest.splitOn 0 ++ L)) := by
  have hC := hI.closed d.env
  have h' := hC.perm (List.perm_append_comm_assoc _ _ _) h
  rw [Decoder.load_tail]
  rcases Nat.lt_or_ge line.length d.cur_pos with hlt | hge
  · rw [List.drop_eq_nil_of_le (by simpa using hlt), Nat.sub_eq_zero_of_le hlt, List.drop_zero, List.nil_append]
    have hrest := hC.drop (line.drop p).length h'
    rw [List.drop_left] at hrest
    exact hC.perm (List.perm_append_comm_assoc _ _ _) hrest
  · rw [List.drop_append_of_le_length hge, List.append_assoc, List.cons_append, List.nil_append,
      List.splitOn_append_cons_self, List.append_assoc]
    have hline := hC.drop (d.cur_pos - p) (hC.append h')
    rw [List.drop_drop, Nat.add_sub_cancel' hp] at hline
    have htail : ((line.drop d.cur_pos).splitOn 0 ++ (rest.splitOn 0 ++
        ((d.environ_buffer.drop d.cur_pos).splitOn 0 ++ L))).Perm ((d.environ_buffer.drop d.cur_pos).splitOn 0 ++
        ((line.drop d.cur_pos).splitOn 0 ++ (rest.splitOn 0 ++ L))) :=
      (List.Perm.append_left _ (List.perm_append_comm_assoc _ _ _)).trans (List.perm_append_comm_assoc _ _ _)
    exact hC.perm (List.perm_append_comm_assoc _ _ _) (hC.drop _ (hC.perm htail hline))

theorem scan {d : Decoder} {r : Bytes} {L : List Bytes}
    (h : I d.env ((d.environ_buffer.drop d.cur_pos).splitOn 0 ++ r :: L)) :
    I d.scan.env ((d.scan.environ_buffer.drop d.scan.cur_pos).splitOn 0 ++ r :: L) := by
  unfold Decoder.scan
  induction BUFSIZE generalizing d with
  | zero => exact h
  | succ k ih =>
    unfold Decoder.scanLoop
    dsimp only
    split_ifs with hinput
    · exact h
    · refine ih ?_
      dsimp only
      rw [← List.drop_drop]
      generalize d.environ_buffer.drop d.cur_pos = b at h hinput
      by_cases h0 : 0 ∈ b
      · obtain ⟨t, b, rfl, ht⟩ := List.eq_append_cons_of_mem h0
        rw [List.splitOn_append_cons_self_of_not_mem ht] at h
        rw [cstr_append ht, List.drop_length_add_append]
        exact hI.read h
      · rw [List.splitOn_eq_singleton h0] at h
        rw [cstr_eq_self h0, List.drop_eq_nil_of_le (by omega)]
        exact (hI.closed _).nil (hI.read h)

theorem final {d : Decoder} {fp : Bytes} (h : I d.env ((d.environ_buffer.drop d.cur_pos).splitOn 0 ++ fp.splitOn 0)) :
    ∃ L, I (d.final fp) L := by
  unfold Decoder.final
  induction fp.length + 1 generalizing fp d with
  | zero => exact ⟨_, h⟩
  | succ k ih =>
    unfold Decoder.readLoop
    split_ifs with hfp
    · exact ⟨_, h⟩
    · refine ih ?_
      obtain ⟨r, L, hr⟩ := exists_splitOn (z := 0) (fp.drop (fgetsLine fp).length)
      rw [← fgetsLine_append_drop fp] at h
      have hload := hI.load (p := 0) (Nat.zero_le _) (L := []) (by simpa using h)
      rw [List.append_nil, hr] at hload
      rw [hr]
      exact hI.scan hload

/-- A budget for what stands behind `p` in the input, where there are no line feeds before `p` and `cur_pos` is not
before it. -/
theorem final_atRest {d : Decoder} (hd : d.AtRest) {fp : Bytes} {p : ℕ} (hp : p ≤ d.cur_pos) (h10 : 10 ∉ fp.take p)
    (h : I d.env ((fp.drop p).splitOn 0)) : ∃ L, I (d.final fp) L := by
  rcases le_or_gt (min 8190 fp.length) d.cur_pos with hle | hlt
  · rw [hd.final_of_le (by omega)]
    exact ⟨_, h⟩
  · have hlen : (fp.take p).length = p := by rw [List.length_take]; omega
    have hfp : fp ≠ [] := List.length_pos_iff.1 (by omega)
    obtain ⟨R, hline⟩ := fgetsLine_extends h10 (by omega) (fp.drop p)
    rw [List.take_append_drop] at hline
    have hparts : fp.drop p = (fgetsLine fp).drop p ++ fp.drop (fgetsLine fp).length := by
      have hple : p ≤ (fgetsLine fp).length := by rw [hline, List.length_append]; omega
      rw [← List.drop_append_of_le_length hple, fgetsLine_append_drop]
    have hzeros : d.environ_buffer.drop d.cur_pos = List.replicate (d.environ_buffer.drop d.cur_pos).length 0 :=
      List.eq_replicate_of_mem hd.zeros
    have hstart : I d.env ((d.environ_buffer.drop d.cur_pos).splitOn 0 ++
        (((fgetsLine fp).drop p ++ fp.drop (fgetsLine fp).length).splitOn 0 ++ [])) := by
      obtain ⟨r, L, hr⟩ := exists_splitOn (z := 0) (fp.drop p)
      rw [hr] at h
      rw [List.append_nil, ← hparts, hr, hzeros]
      exact (hI.closed _).separators _ h
    obtain ⟨r, L, hr⟩ := exists_splitOn (z := 0) (fp.drop (fgetsLine fp).length)
    have hload := hI.load hp hstart
    rw [List.append_nil, hr] at hload
    rw [Decoder.final_line hfp]
    refine hI.final ?_
    rw [hr]
    exact hI.scan hload

end Budget

/-! ### The values that strings can give -/

/-- One more than the length of the longest value that the string or a part of it can give a variable, or 0 when it
gives none. -/
def reach (r : Bytes) : ℕ := if 61 ∈ r then (valueOf r).length + 1 else 0

/-- One more than the length of a value that is set. -/
def valueSize : Option Bytes → ℕ
  | none => 0
  | some v => v.length + 1

theorem reach_of_not_mem {r : Bytes} (h : 61 ∉ r) : reach r = 0 := if_neg h

theorem reach_entry {T : Bytes} (hT : 61 ∉ T) (u : Bytes) : reach (T ++ 61 :: u) = u.length + 1 := by
  rw [reach, if_pos (by simp), valueOf_append hT]

theorem reach_le_length (r : Bytes) : reach r ≤ r.length := by
  by_cases h : 61 ∈ r
  · obtain ⟨a, b, rfl, ha⟩ := List.eq_append_cons_of_mem h
    rw [reach_entry ha, List.length_append, List.length_cons]
    omega
  · rw [reach_of_not_mem h]
    exact Nat.zero_le _

theorem reach_append (a b : Bytes) : reach a + reach b ≤ reach (a ++ b) := by
  by_cases h : 61 ∈ a
  · obtain ⟨s, t, rfl, hs⟩ := List.eq_append_cons_of_mem h
    have hb := reach_le_length b
    rw [List.append_assoc, List.cons_append, reach_entry hs, reach_entry hs, List.length_append]
    omega
  · rw [reach_of_not_mem h, Nat.zero_add]
    by_cases hb : 61 ∈ b
    · obtain ⟨s, t, rfl, hs⟩ := List.eq_append_cons_of_mem hb
      have has : 61 ∉ a ++ s := by simp [h, hs]
      rw [← List.append_assoc, reach_entry hs, reach_entry has]
    · rw [reach_of_not_mem hb]
      exact Nat.zero_le _

/-- What reading a string does to the sizes. -/
theorem valueSize_checkEnvVars (env : Environment) (r : Bytes) : checkEnvVars env r = env ∨
    ∃ z, valueSize (checkEnvVars env r z) = reach r ∧ ∀ x ≠ z, checkEnvVars env r x = env x := by
  rcases checkEnvVars_cases env r with h | ⟨z, -, h61, h⟩
  · exact Or.inl h
  · refine Or.inr ⟨z, ?_, fun x hx => ?_⟩
    · rw [h, Function.update_self, reach, if_pos h61, valueSize]
    · rw [h, Function.update_of_ne hx]

/-! ### One variable -/

/-- The variable is not set to a value of `n` bytes or more, and no string can do it. -/
def Short (x : Variable) (n : ℕ) (env : Environment) (L : List Bytes) : Prop :=
  valueSize (env x) ≤ n ∧ ∀ r ∈ L, reach r ≤ n

theorem budget_short (x : Variable) (n : ℕ) : Budget (Short x n) where
  closed env :=
    { perm := fun hp h => ⟨h.1, fun r hr => h.2 r (hp.mem_iff.2 hr)⟩
      forget := fun h => ⟨h.1, fun r hr => h.2 r (List.mem_cons_of_mem _ hr)⟩
      cut := by
        rintro a b L ⟨hx, hL⟩
        have hab := hL _ List.mem_cons_self
        have := reach_append a b
        refine ⟨hx, fun r hr => ?_⟩
        rcases List.mem_cons.1 hr with rfl | hr
        · omega
        rcases List.mem_cons.1 hr with rfl | hr
        · omega
        · exact hL r (List.mem_cons_of_mem _ hr) }
  read := by
    rintro env r L ⟨hx, hL⟩
    refine ⟨?_, fun r hr => hL r (List.mem_cons_of_mem _ hr)⟩
    rcases valueSize_checkEnvVars env r with h | ⟨z, hz, hrest⟩
    · rwa [h]
    · rcases eq_or_ne x z with rfl | hne
      · rw [hz]
        exact hL r List.mem_cons_self
      · rwa [hrest x hne]

/-- A variable never gets a value that is too long for all the strings. -/
theorem Short.ne {x : Variable} {u : Bytes} {env : Environment} {L : List Bytes} (h : Short x u.length env L) :
    env x ≠ some u := by
  intro heq
  have := h.1
  rw [heq, valueSize] at this
  omega

/-! ### Two variables -/

/-- No two strings can make the two variables longer than `a` and `b`, and neither can one do it when it is cut. -/
structure Rivals (x y : Variable) (a b : ℕ) (env : Environment) (L : List Bytes) : Prop where
  total : ∀ r ∈ L, reach r < a + b
  apart : L.Pairwise fun r r' => ¬ (a ≤ reach r ∧ b ≤ reach r') ∧ ¬ (a ≤ reach r' ∧ b ≤ reach r)
  left : a ≤ valueSize (env x) → valueSize (env y) < b ∧ ∀ r ∈ L, reach r < b
  right : b ≤ valueSize (env y) → valueSize (env x) < a ∧ ∀ r ∈ L, reach r < a

theorem budget_rivals {x y : Variable} (hxy : x ≠ y) (a b : ℕ) : Budget (Rivals x y a b) where
  closed env :=
    { perm := fun hp h =>
        { total := fun r hr => h.total r (hp.mem_iff.2 hr)
          apart := (hp.pairwise_iff fun h => ⟨h.2, h.1⟩).1 h.apart
          left := fun hx => ⟨(h.left hx).1, fun r hr => (h.left hx).2 r (hp.mem_iff.2 hr)⟩
          right := fun hy => ⟨(h.right hy).1, fun r hr => (h.right hy).2 r (hp.mem_iff.2 hr)⟩ }
      forget := fun h =>
        { total := fun r hr => h.total r (List.mem_cons_of_mem _ hr)
          apart := (List.pairwise_cons.1 h.apart).2
          left := fun hx => ⟨(h.left hx).1, fun r hr => (h.left hx).2 r (List.mem_cons_of_mem _ hr)⟩
          right := fun hy => ⟨(h.right hy).1, fun r hr => (h.right hy).2 r (List.mem_cons_of_mem _ hr)⟩ }
      cut := by
        rintro s t L ⟨htotal, hapart, hleft, hright⟩
        have hst := reach_append s t
        rw [List.pairwise_cons] at hapart
        simp only [List.forall_mem_cons] at htotal hleft hright
        refine ⟨?_, ?_, fun hx => ?_, fun hy => ?_⟩
        · simp only [List.forall_mem_cons]
          exact ⟨by omega, by omega, htotal.2⟩
        · simp only [List.pairwise_cons, List.forall_mem_cons]
          refine ⟨⟨by omega, fun r hr => ?_⟩, fun r hr => ?_, hapart.2⟩
          · have := hapart.1 r hr
            omega
          · have := hapart.1 r hr
            omega
        · obtain ⟨hy, hr, hL⟩ := hleft hx
          simp only [List.forall_mem_cons]
          exact ⟨hy, by omega, by omega, hL⟩
        · obtain ⟨hx, hr, hL⟩ := hright hy
          simp only [List.forall_mem_cons]
          exact ⟨hx, by omega, by omega, hL⟩ }
  read := by
    rintro env r L ⟨htotal, hapart, hleft, hright⟩
    rw [List.pairwise_cons] at hapart
    simp only [List.forall_mem_cons] at htotal hleft hright
    rcases valueSize_checkEnvVars env r with h | ⟨z, hz, hrest⟩
    · rw [h]
      exact ⟨htotal.2, hapart.2, fun hx => ⟨(hleft hx).1, (hleft hx).2.2⟩, fun hy => ⟨(hright hy).1, (hright hy).2.2⟩⟩
    refine ⟨htotal.2, hapart.2, fun hx => ?_, fun hy => ?_⟩
    · rcases eq_or_ne x z with rfl | hxz
      · rw [hz] at hx
        rw [hrest y hxy.symm]
        refine ⟨?_, fun r' hr' => ?_⟩
        · by_contra hy
          have := (hright (by omega)).2.1
          omega
        · have := hapart.1 r' hr'
          omega
      · rw [hrest x hxz] at hx
        obtain ⟨hy, hr, hL⟩ := hleft hx
        refine ⟨?_, hL⟩
        rcases eq_or_ne y z with rfl | hyz
        · rwa [hz]
        · rwa [hrest y hyz]
    · rcases eq_or_ne y z with rfl | hyz
      · rw [hz] at hy
        rw [hrest x hxy]
        refine ⟨?_, fun r' hr' => ?_⟩
        · by_contra hx
          have := (hleft (by omega)).2.1
          omega
        · have := hapart.1 r' hr'
          omega
      · rw [hrest y hyz] at hy
        obtain ⟨hx, hr, hL⟩ := hright hy
        refine ⟨?_, hL⟩
        rcases eq_or_ne x z with rfl | hxz
        · rwa [hz]
        · rwa [hrest x hxz]

/-- Two variables do not both get their values when no two strings are long enough for them. -/
theorem Rivals.ne {x y : Variable} {u v : Bytes} {env : Environment} {L : List Bytes}
    (h : Rivals x y (u.length + 1) (v.length + 1) env L) : ¬ (env x = some u ∧ env y = some v) := by
  rintro ⟨hx, hy⟩
  have := (h.left (by rw [hx, valueSize])).1
  rw [hy, valueSize] at this
  omega

end XrdHdfs
