import XrdHdfs.Lines

/-!
# Which record sets which variable

`CheckEnvVar` compares the text before the first equals sign with as many characters of a variable's name, so that a
record may abbreviate the name, down to nothing.  A short output in one line is read record by record
(`final_records`), and each variable takes the first record that begins its name and that no variable before it has
taken.

`determineEnvironment_names_iff`: only exactly named variables are imported if and only if wherever that record only
abbreviates the name, one that names the variable follows, and the first of these has the same value.
-/

namespace XrdHdfs

/-! ### Finding and erasing -/

section Find

variable {α : Type} {p q : α → Bool} {L : List α} {a : α}

/-- What does not satisfy `q` may be erased. -/
theorem find?_eraseP_of_disjoint (h : ∀ a, p a → ¬ q a) : (L.eraseP p).find? q = L.find? q := by
  induction L with
  | nil => rfl
  | cons b L ih =>
    by_cases hb : p b
    · rw [List.eraseP_cons_of_pos hb, List.find?_cons_of_neg (h b hb)]
    · rw [List.eraseP_cons_of_neg hb, List.find?_cons, List.find?_cons, ih]

/-- The first of many, if it is one of the few, is the first of the few. -/
theorem find?_of_imp (h : ∀ a, q a → p a) (hfind : L.find? p = some a) (ha : q a) : L.find? q = some a := by
  obtain ⟨-, as, bs, rfl, hbefore⟩ := List.find?_eq_some_iff_append.1 hfind
  refine List.find?_eq_some_iff_append.2 ⟨ha, as, bs, rfl, fun b hb => ?_⟩
  have hp := hbefore b hb
  have himp := h b
  revert hp himp
  cases q b <;> cases p b <;> simp

theorem find?_eq_none_of_imp (h : ∀ a, q a → p a) (hfind : L.find? p = none) : L.find? q = none :=
  List.find?_eq_none.2 fun b hb hq => List.find?_eq_none.1 hfind b hb (h b hq)

end Find

/-! ### The records of an output -/

/-- The output with the records. -/
def output (records : List Bytes) : Bytes := records.flatMap fun r => r ++ [0]

/-- A record without NUL and line feed. -/
def IsRecord (r : Bytes) : Prop := r ≠ [] ∧ 0 ∉ r ∧ 10 ∉ r

instance (r : Bytes) : Decidable (IsRecord r) := by unfold IsRecord; infer_instance

/-- The text before the first equals sign is the variable's name. -/
def Names (x : Variable) (r : Bytes) : Prop := 61 ∈ r ∧ r.takeWhile (· != 61) = x.name

instance (x : Variable) (r : Bytes) : Decidable (Names x r) := by unfold Names; infer_instance

/-- A short output in one line is read record by record. -/
theorem Decoder.AtRest.final_records {records : List Bytes} (hrec : ∀ r ∈ records, IsRecord r) :
    ∀ {d : Decoder}, d.AtRest → ∀ {P : Bytes}, P.length = d.cur_pos → 10 ∉ P → P.length + (output records).length ≤ 8000 →
      d.final (P ++ output records) = records.foldl checkEnvVars d.env := by
  induction records with
  | nil =>
    intro d hd P hP _ _
    rw [show output [] = [] from rfl, List.append_nil]
    exact hd.final_of_le (Or.inr hP.le)
  | cons r records ih =>
    intro d hd P hP h10 hlen
    obtain ⟨⟨hne, h0, hline⟩, hrec'⟩ := List.forall_mem_cons.1 hrec
    have hout : output (r :: records) = r ++ 0 :: output records := by simp [output]
    rw [hout, List.length_append, List.length_cons] at hlen
    rw [hout, ← List.append_assoc]
    rcases hd.string hP h10 (by omega) hne h0 with ⟨-, -, d', hd', hcur, henv, hfinal⟩ | ⟨t₁, t₂, hcut, -⟩
    · have hstep := ih hrec' hd' (P := P ++ r ++ [0]) (by simp; omega) (by simp [h10, hline]) (by simp; omega)
      rw [hfinal, List.foldl_cons, ← henv, ← hstep]
      simp
    · -- the line has room for the record and no line feed to end at
      have hle : t₁.length ≤ r.length := by
        rw [hcut.eq]
        simp
      rcases hcut.ends with h | h
      · exact absurd (by rw [hcut.eq]; exact List.mem_append_left _ h) hline
      · omega

theorem determineEnvironment_output {records : List Bytes} (hrec : ∀ r ∈ records, IsRecord r)
    (hlen : (output records).length ≤ 8000) :
    determineEnvironment (output records) = records.foldl checkEnvVars fun _ => none :=
  Decoder.atRest_new.final_records hrec (P := []) rfl (by simp) (by simpa using hlen)

/-! ### The record that a variable takes -/

/-- What a variable leaves of the records, where it is still needed. -/
def leave (env : Environment) (x : Variable) (records : List Bytes) : List Bytes :=
  if env x = none then records.eraseP (Matches x ·) else records

/-- The records that are tried on a variable. -/
def offered (env : Environment) (records : List Bytes) : Variable → List Bytes
  | .classpath => records
  | .libhdfs_opts => leave env .classpath records
  | .ld_library_path => leave env .libhdfs_opts (leave env .classpath records)

/-- The record that a variable takes: the first one that begins its name and that no variable before it takes. -/
def reaches (x : Variable) (records : List Bytes) : Option Bytes :=
  (offered (fun _ => none) records x).find? (Matches x ·)

section Step

variable {env : Environment} {x y : Variable} {r : Bytes} {records : List Bytes}

theorem leave_taken (hx : env x = none) (hr : Matches x r) : leave env x (r :: records) = records := by
  rw [leave, if_pos hx, List.eraseP_cons_of_pos (by simpa using hr)]

theorem leave_passed (h : ¬ (env x = none ∧ Matches x r)) : leave env x (r :: records) = r :: leave env x records := by
  unfold leave
  split_ifs with hx
  · exact List.eraseP_cons_of_neg (by simpa using fun hr => h ⟨hx, hr⟩)
  · rfl

theorem leave_update_self {v : Bytes} : leave (Function.update env x (some v)) x records = records := by
  rw [leave, Function.update_self, if_neg (by simp)]

theorem leave_update_of_ne {v : Bytes} (h : y ≠ x) :
    leave (Function.update env x (some v)) y records = leave env y records := by
  rw [leave, leave, Function.update_of_ne h]

/-- A variable that takes nothing of the record, and is needed or not. -/
theorem or_find?_passed (h : ¬ (env x = none ∧ Matches x r)) :
    (env x).or (((r :: records).find? (Matches x ·)).map valueOf) =
      (env x).or ((records.find? (Matches x ·)).map valueOf) := by
  rcases hx : env x with _ | v
  · rw [List.find?_cons_of_neg (by simpa using fun hr => h ⟨hx, hr⟩)]
  · rfl

theorem or_find?_taken (hx : env x = none) (hr : Matches x r) :
    (env x).or (((r :: records).find? (Matches x ·)).map valueOf) = some (valueOf r) := by
  rw [hx, List.find?_cons_of_pos (by simpa using hr)]
  rfl

/-- What a variable ends up with, before the record and after it. -/
theorem or_offered_cons (env : Environment) (r : Bytes) (records : List Bytes) (x : Variable) :
    (env x).or (((offered env (r :: records) x).find? (Matches x ·)).map valueOf) =
      (checkEnvVars env r x).or (((offered (checkEnvVars env r) records x).find? (Matches x ·)).map valueOf) := by
  -- the variable that takes the record sees it first, those before it pass it on, and those after it do not see it
  unfold checkEnvVars
  split_ifs with h₁ h₂ h₃
  · cases x with
    | classpath =>
      rw [offered, or_find?_taken h₁.1 h₁.2, Function.update_self]
      rfl
    | libhdfs_opts =>
      rw [Function.update_of_ne (by decide), offered, offered, leave_taken h₁.1 h₁.2, leave_update_self]
    | ld_library_path =>
      rw [Function.update_of_ne (by decide), offered, offered, leave_taken h₁.1 h₁.2, leave_update_self,
        leave_update_of_ne (by decide)]
  · cases x with
    | classpath =>
      rw [Function.update_of_ne (by decide), offered, offered, or_find?_passed h₁]
    | libhdfs_opts =>
      rw [offered, leave_passed h₁, or_find?_taken h₂.1 h₂.2, Function.update_self]
      rfl
    | ld_library_path =>
      rw [Function.update_of_ne (by decide), offered, offered, leave_passed h₁, leave_taken h₂.1 h₂.2,
        leave_update_self, leave_update_of_ne (by decide)]
  · cases x with
    | classpath =>
      rw [Function.update_of_ne (by decide), offered, offered, or_find?_passed h₁]
    | libhdfs_opts =>
      rw [Function.update_of_ne (by decide), offered, offered, leave_passed h₁, or_find?_passed h₂,
        leave_update_of_ne (by decide)]
    | ld_library_path =>
      rw [offered, leave_passed h₁, leave_passed h₂, or_find?_taken h₃.1 h₃.2, Function.update_self]
      rfl
  · cases x with
    | classpath => rw [offered, offered, or_find?_passed h₁]
    | libhdfs_opts => rw [offered, offered, leave_passed h₁, or_find?_passed h₂]
    | ld_library_path => rw [offered, offered, leave_passed h₁, leave_passed h₂, or_find?_passed h₃]

end Step

theorem foldl_checkEnvVars (records : List Bytes) (env : Environment) (x : Variable) :
    records.foldl checkEnvVars env x = (env x).or (((offered env records x).find? (Matches x ·)).map valueOf) := by
  induction records generalizing env with
  | nil => cases x <;> simp [offered, leave]
  | cons r records ih => rw [List.foldl_cons, ih, or_offered_cons]

/-- **What is set**: the value of the record that the variable takes. -/
theorem determineEnvironment_reaches {records : List Bytes} (hrec : ∀ r ∈ records, IsRecord r)
    (hlen : (output records).length ≤ 8000) (x : Variable) :
    determineEnvironment (output records) x = (reaches x records).map valueOf := by
  rw [determineEnvironment_output hrec hlen, foldl_checkEnvVars]
  rfl

/-! ### Names in full -/

section Exact

variable {x y : Variable} {r : Bytes} {records : List Bytes}

theorem Names.matches (h : Names x r) : Matches x r := ⟨h.1, h.2 ▸ List.prefix_rfl⟩

/-- No name begins another. -/
theorem Names.not_matches (hr : Names x r) (hne : y ≠ x) : ¬ Matches y r := by
  rintro ⟨-, hprefix⟩
  rw [hr.2] at hprefix
  revert hne hprefix
  cases x <;> cases y <;> decide

/-- The variables before `x` take no record that names it. -/
theorem find?_names_leave (hne : y ≠ x) {env : Environment} :
    (leave env y records).find? (Names x ·) = records.find? (Names x ·) := by
  unfold leave
  split
  · refine find?_eraseP_of_disjoint fun r hmatch => ?_
    simp only [decide_eq_true_eq] at hmatch ⊢
    exact fun hr => hr.not_matches hne hmatch
  · rfl

theorem find?_names_offered {env : Environment} :
    (offered env records x).find? (Names x ·) = records.find? (Names x ·) := by
  cases x with
  | classpath => rfl
  | libhdfs_opts => exact find?_names_leave (by decide)
  | ld_library_path =>
    rw [offered, find?_names_leave (by decide), find?_names_leave (by decide)]

theorem find?_names_of_reaches (h : reaches x records = some r) (hr : Names x r) :
    records.find? (Names x ·) = some r := by
  have hfind := find?_of_imp (q := (Names x ·)) (fun a ha => ?_) h (by simpa using hr)
  · rwa [find?_names_offered] at hfind
  · simp only [decide_eq_true_eq] at ha ⊢
    exact ha.matches

theorem find?_names_of_reaches_none (h : reaches x records = none) : records.find? (Names x ·) = none := by
  have hfind := find?_eq_none_of_imp (q := (Names x ·)) (fun a ha => ?_) h
  · rwa [find?_names_offered] at hfind
  · simp only [decide_eq_true_eq] at ha ⊢
    exact ha.matches

end Exact

/-- **When only exactly named variables are imported**, each with the value of the first record that names it: if and
only if wherever the record that a variable takes only abbreviates its name, one that names it is there too, and the
first of these has the same value. -/
theorem determineEnvironment_names_iff {records : List Bytes} (hrec : ∀ r ∈ records, IsRecord r)
    (hlen : (output records).length ≤ 8000) :
    (∀ x, determineEnvironment (output records) x = (records.find? (Names x ·)).map valueOf) ↔
      ∀ x r, reaches x records = some r → ¬ Names x r →
        ∃ e, records.find? (Names x ·) = some e ∧ valueOf e = valueOf r := by
  constructor
  · intro h x r hr _
    have hx := h x
    rw [determineEnvironment_reaches hrec hlen, hr] at hx
    obtain ⟨e, he, hval⟩ := Option.map_eq_some_iff.1 hx.symm
    exact ⟨e, he, hval⟩
  · intro h x
    rw [determineEnvironment_reaches hrec hlen]
    rcases hr : reaches x records with _ | r
    · rw [find?_names_of_reaches_none hr]
    · by_cases hname : Names x r
      · rw [find?_names_of_reaches hr hname]
      · obtain ⟨e, he, hval⟩ := h x r hr hname
        rw [he, Option.map_some, Option.map_some, hval]

/-- Among other records, an abbreviation that comes too late. -/
def somePaths : List Bytes := [str "PATH=/bin", str "LD_LIBRARY_PATH=/lib", str "LD=/usr", str "CLASSPATH=a=b"]

theorem determineEnvironment_names_iff_paths : (∀ r ∈ somePaths, IsRecord r) ∧ (output somePaths).length ≤ 8000 ∧
    ((∀ x, determineEnvironment (output somePaths) x = (somePaths.find? (Names x ·)).map valueOf) ↔
      ∀ x r, reaches x somePaths = some r → ¬ Names x r →
        ∃ e, somePaths.find? (Names x ·) = some e ∧ valueOf e = valueOf r) :=
  have hrec : ∀ r ∈ somePaths, IsRecord r := by decide
  have hlen : (output somePaths).length ≤ 8000 := by decide
  ⟨hrec, hlen, determineEnvironment_names_iff hrec hlen⟩

/-- A variable `LD` is imported as `LD_LIBRARY_PATH`. -/
theorem abbreviation_imported :
    ¬ ∀ x, determineEnvironment (output [str "LD=/usr"]) x = ([str "LD=/usr"].find? (Names x ·)).map valueOf := by
  intro h
  have hld := h .ld_library_path
  rw [determineEnvironment_reaches (by decide) (by decide)] at hld
  exact absurd hld (by decide)

end XrdHdfs
