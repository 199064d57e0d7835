import XrdHdfs.CallLog
import XrdHdfs.Update

/-!
# When `SetMultiple` may say that it succeeded

`SetMultiple` returns 0 unless `Open` or the last `Write` fails: a `Write` that takes nothing ends its loop, and what
`Close` answers is not looked at.  `setMultiple_honest_iff`: what it says is right if and only if no `Write` takes
nothing, and a `Write` fails or `Close` does not.

The loop is followed with the calls it makes: the record holds the text up to the offset, and every `Write` so far took
something.
-/

namespace XrdHdfs

open Lib World

variable {env : Env}

/-! ### The outcomes -/

/-- What the calls of a kind returned. -/
def results (k : Call) (calls : List (LibCall × ℤ)) : List ℤ := (calls.filter (·.1.kind = k)).map Prod.snd

theorem results_append (k : Call) (calls calls' : List (LibCall × ℤ)) :
    results k (calls ++ calls') = results k calls ++ results k calls' := by
  simp [results]

theorem results_eq_nil {k : Call} {calls : List (LibCall × ℤ)} (h : ∀ c ∈ calls, c.1.kind ≠ k) : results k calls = [] := by
  simpa [results] using h

/-- No `Write` takes nothing, and a `Write` fails or `Close` does not. -/
def Honest (outcomes : List (LibCall × ℤ)) : Prop :=
  0 ∉ results .write outcomes ∧
    ((∃ r ∈ results .write outcomes, r < 0) ∨ ∀ r ∈ results .closeFile outcomes, r = 0)

instance (outcomes : List (LibCall × ℤ)) : Decidable (Honest outcomes) := by unfold Honest; infer_instance

/-- The record of `pfn` was closed, and holds the whole text. -/
def WholeRecord (env : Env) (pfn : Bytes) (values : ChecksumValues) (outcomes : List (LibCall × ℤ)) (w : World) : Prop :=
  ∃ i, (.closeFile ⟨i, true⟩, 0) ∈ outcomes ∧ w.fs.tree.ino (env.recordFile pfn) = some i ∧
    (w.fs.data i).bytes = serialise values

/-- A call of the loop: a `Write` that took something. -/
def Took (c : LibCall × ℤ) : Prop := c.1.kind = .write ∧ 0 < c.2

/-- Calls that are no `Write` and no `Close`. -/
theorem LibCall.Opening.kind_ne {c : LibCall} {writing : Bool} (h : c.Opening writing) :
    c.kind ≠ .write ∧ c.kind ≠ .closeFile := by
  cases c <;> first | exact h.elim | exact ⟨by simp [LibCall.kind], by simp [LibCall.kind]⟩

theorem LibCall.Opening.results {writing : Bool} {calls : List (LibCall × ℤ)} (h : ∀ c ∈ calls, c.1.Opening writing) :
    results .write calls = [] ∧ results .closeFile calls = [] :=
  ⟨results_eq_nil fun c hc => (h c hc).kind_ne.1, results_eq_nil fun c hc => (h c hc).kind_ne.2⟩

theorem Took.results {calls : List (LibCall × ℤ)} (h : ∀ c ∈ calls, Took c) :
    (∀ r ∈ results .write calls, 0 < r) ∧ results .closeFile calls = [] := by
  refine ⟨fun r hr => ?_, results_eq_nil fun c hc => by rw [(h c hc).1]; decide⟩
  obtain ⟨c, hc, rfl⟩ := List.mem_map.1 hr
  exact (h c (List.mem_of_mem_filter hc)).2

/-- How many bytes the `Write` calls took. -/
def taken (calls : List (LibCall × ℤ)) : ℕ := ((results .write calls).map Int.toNat).sum

theorem taken_append (calls calls' : List (LibCall × ℤ)) : taken (calls ++ calls') = taken calls + taken calls' := by
  rw [taken, results_append, List.map_append, List.sum_append]
  rfl

theorem taken_write (fh : Option Handle) (buff : Bytes) (ret : ℤ) : taken [(.write fh buff, ret)] = ret.toNat :=
  Nat.add_zero _

/-! ### The loop -/

/-- **A turn of the loop of `SetMultiple`**, with the `Write` it makes. -/
theorem writeTurn_outcome {fh : File env} {i offset : ℕ} (hfh : fh.fh = some ⟨i, true⟩) (hst : fh.m_state = none)
    (hoff : fh.m_nextoff = offset) (text : Bytes) (w : World) :
    Gives (writeTurn text (fh, offset)) w fun r w' => ∃ ret : ℤ,
      w'.calls = w.calls ++ [(.write (some ⟨i, true⟩) (text.drop offset), ret)] ∧
      ((∃ n : ℕ, ret = n ∧ n ≤ text.length - offset ∧ w.fs.append i ((text.drop offset).take n) = some w'.fs) ∨
        ret = -1 ∧ w'.fs = w.fs) ∧
      Sum.elim
        (fun b => b.1.fh = some ⟨i, true⟩ ∧ b.1.m_state = none ∧ b.1.m_nextoff = b.2 ∧ 0 < ret ∧ b.2 = offset + ret.toNat ∧
          b.2 < text.length)
        (fun r => r.1 = ret ∧ r.2.fh = some ⟨i, true⟩ ∧ r.2.m_state = none ∧ (0 < ret → text.length ≤ offset + ret.toNat)) r := by
  have hcalls := hdfsWrite_calls fh.fh (text.drop offset) w
  unfold writeTurn File.write
  obtain ⟨-, hcase⟩ := hdfsWrite_spec fh.fh (text.drop offset) w
  rw [hfh] at hcalls hcase
  refine Gives.bind (Gives.ite (fun hne => absurd hoff.symm hne) fun _ => Gives.bind (Gives.step (Gives.pure ?_)))
  rw [hfh]
  generalize hdfsWrite (some ⟨i, true⟩) (text.drop offset) w = out at hcalls hcase
  obtain ⟨ret, w₁⟩ := out
  dsimp only at hcalls hcase ⊢
  rcases hcase with ⟨h, n, hh, -, hn, -, rfl, happ, -⟩ | ⟨rfl, hfs, -⟩
  · obtain rfl := Option.some.inj hh
    rw [List.length_drop] at hn
    refine Gives.ite (fun h => absurd h (by norm_num; omega)) fun _ => ?_
    refine Gives.ite (fun hgo => Gives.pure ?_) fun hstop => Gives.pure ?_
    · rw [if_pos hgo.1] at hgo ⊢
      refine ⟨n, hcalls, Or.inl ⟨n, rfl, hn, happ⟩, rfl, by simp [hst], ?_, hgo.1, rfl, hgo.2⟩
      rw [if_pos (Int.natCast_nonneg n)]
      simpa using hoff
    · refine ⟨n, hcalls, Or.inl ⟨n, rfl, hn, happ⟩, rfl, rfl, by simp [hst], fun hpos => ?_⟩
      rw [if_pos hpos] at hstop
      by_contra hlt
      exact hstop ⟨hpos, by omega⟩
  · refine Gives.ite (fun h => absurd h (by norm_num)) fun _ => Gives.ite (fun h => absurd h.1 (by norm_num))
      fun _ => Gives.pure ?_
    exact ⟨-1, hcalls, Or.inr ⟨rfl, hfs⟩, rfl, rfl, by simp [hst], fun h => absurd h (by norm_num)⟩

/-- The loop has put the text up to the offset into the record, in calls that took something. -/
structure Filling (w : World) (p : HPath) (text : Bytes) (calls : List (LibCall × ℤ)) (b : File env × ℕ) (w' : World) :
    Prop where
  fh : b.1.fh = some ⟨w.fs.next, true⟩
  state : b.1.m_state = none
  nextoff : b.1.m_nextoff = b.2
  offset_lt : b.2 < text.length
  put : w.fs.Put p (text.take b.2) w'.fs
  calls : ∃ took, w'.calls = calls ++ took ∧ (∀ c ∈ took, Took c) ∧ taken took = b.2

/-- The loop is over: what the last `Write` returned tells whether the text is complete. -/
structure Filled (w : World) (p : HPath) (text : Bytes) (calls : List (LibCall × ℤ)) (r : ℤ × File env) (w' : World) :
    Prop where
  fh : r.2.fh = some ⟨w.fs.next, true⟩
  state : r.2.m_state = none
  calls : ∃ took buff, w'.calls = calls ++ (took ++ [(.write (some ⟨w.fs.next, true⟩) buff, r.1)]) ∧ (∀ c ∈ took, Took c) ∧
    w.fs.Put p (text.take (taken took + r.1.toNat)) w'.fs ∧ (0 < r.1 → text.length ≤ taken took + r.1.toNat) ∧
    (r.1 = 0 → taken took < text.length)

theorem Filling.turn {w w₁ : World} {p : HPath} {text : Bytes} {calls : List (LibCall × ℤ)} {b : File env × ℕ}
    (h : Filling w p text calls b w₁) :
    Gives (writeTurn text b) w₁ fun r w' => Sum.elim
      (fun b' => Filling w p text calls b' w' ∧ text.length - b'.2 < text.length - b.2)
      (fun r => Filled w p text calls r w') r := by
  obtain ⟨fh, offset⟩ := b
  obtain ⟨hfh, hst, hoff, hlt, hput, took, hcalls, htook, hcount⟩ := h
  dsimp only at hfh hst hoff hlt hput hcount
  refine (writeTurn_outcome hfh hst hoff text w₁).mono ?_
  rintro r w₂ ⟨ret, hcalls₂, hcase, hr⟩
  -- the record after the call, whose bytes are counted by what it returned
  have hput' : w.fs.Put p (text.take (offset + ret.toNat)) w₂.fs := by
    rcases hcase with ⟨n, rfl, -, happ⟩ | ⟨rfl, hfs⟩
    · have := hput.append happ
      rwa [← List.take_add, ← Int.toNat_natCast n] at this
    · rw [hfs]
      simpa using hput
  rw [hcalls, List.append_assoc] at hcalls₂
  rcases r with ⟨fh', offset'⟩ | ⟨retval, fh'⟩
  · obtain ⟨hfh', hst', hoff', hpos, rfl, hlt'⟩ := hr
    refine ⟨⟨hfh', hst', hoff', hlt', hput', _, hcalls₂, fun c hc => ?_, ?_⟩, ?_⟩
    · rcases List.mem_append.1 hc with hc | hc
      · exact htook c hc
      · rw [List.mem_singleton.1 hc]
        exact ⟨rfl, hpos⟩
    · rw [taken_append, taken_write, hcount]
    · dsimp only
      omega
  · obtain ⟨rfl, hfh', hst', hall⟩ := hr
    rw [← hcount] at hput' hall
    exact ⟨hfh', hst', took, _, hcalls₂, htook, hput', hall, fun _ => by rw [hcount]; exact hlt⟩

/-! ### `SetMultiple` -/

/-- The text of a list that is not empty is not empty. -/
theorem serialise_ne_nil {values : ChecksumValues} (h : values ≠ []) : serialise values ≠ [] := by
  obtain ⟨e, rest, rfl⟩ := List.exists_cons_of_ne_nil h
  simp [serialise, line]

/-- The record was opened for writing. -/
def RecordOpened (env : Env) (pfn : Bytes) (outcomes : List (LibCall × ℤ)) : Prop :=
  (.openFile (env.recordName pfn) true, 0) ∈ outcomes

instance (env : Env) (pfn : Bytes) (outcomes : List (LibCall × ℤ)) : Decidable (RecordOpened env pfn outcomes) := by
  unfold RecordOpened; infer_instance

/-- `SetMultiple` opened the record, wrote to it until a `Write` returned `ret` and closed it, and `Close` returned
`closed`. -/
structure Wrote (env : Env) (w : World) (pfn : Bytes) (values : ChecksumValues) (outcomes : List (LibCall × ℤ)) (ret closed : ℤ)
    (w' : World) : Prop where
  opened : RecordOpened env pfn outcomes
  writes : ∃ took, results .write outcomes = took ++ [ret] ∧ ∀ r ∈ took, 0 < r
  closes : outcomes.filter (·.1.kind = .closeFile) = [(.closeFile ⟨w.fs.next, true⟩, closed)]
  put : w.fs.Put (env.recordFile pfn) ((serialise values).take (taken outcomes)) w'.fs
  full : 0 < ret → (serialise values).length ≤ taken outcomes
  cut : ret = 0 → taken outcomes < (serialise values).length

/-- It is not opened, and there is no `Write` and no `Close`. -/
structure Kept (env : Env) (w : World) (pfn : Bytes) (outcomes : List (LibCall × ℤ)) (w' : World) : Prop where
  opened : ¬ RecordOpened env pfn outcomes
  writes : results .write outcomes = []
  closes : outcomes.filter (·.1.kind = .closeFile) = []
  fs : w'.fs = w.fs

/-- **What `SetMultiple` does**, with the calls it makes. -/
theorem setMultiple_outcomes (pfn : Bytes) (hck : RecordInCksums env pfn) (values : ChecksumValues) (hne : values ≠ [])
    (w : World) :
    Gives (setMultiple env pfn values) w fun rc w' => ∃ outcomes, w'.calls = w.calls ++ outcomes ∧
      (rc < 0 ∧ Kept env w pfn outcomes w' ∨
        ∃ ret closed, rc = (if ret < 0 then ret else 0) ∧ Wrote env w pfn values outcomes ret closed w') := by
  unfold setMultiple setMultipleWith
  obtain ⟨hu₁, hnew, -⟩ := @newFile_spec env w
  have hcalls₁ := @newFile_calls env w
  refine Gives.bind (Gives.step ?_)
  generalize newFile env w = r at hu₁ hnew hcalls₁
  obtain ⟨o, w₁⟩ := r
  dsimp only at hu₁ hnew hcalls₁ ⊢
  cases o with
  | none => exact Gives.pure ⟨[], by simpa using hcalls₁, Or.inl ⟨by norm_num, by simp [RecordOpened], rfl, rfl, hu₁.fs⟩⟩
  | some fh =>
  obtain rfl := hnew fh rfl
  have hopen := (File.openFile_spec ({ oid := w.objects } : File env) rfl (getChecksumFilename pfn) O_WRONLY w₁).and_ends
    (File.openFile_calls ({ oid := w.objects } : File env) rfl (getChecksumFilename pfn) O_WRONLY w₁)
  rw [hu₁.fs] at hopen
  refine Gives.bind (hopen.mono ?_)
  rintro ⟨rc, fh⟩ w₂ ⟨hcase, pre, hcalls₂, hpre, hopened₀⟩
  rw [hcalls₁] at hcalls₂
  obtain ⟨hpre₁, hpre₂⟩ := LibCall.Opening.results hpre
  have hpre₃ : pre.filter (·.1.kind = .closeFile) = [] := by
    simpa using fun c r hc => (hpre (c, r) hc).kind_ne.2
  rcases hcase with ⟨hrc, hu₂, -⟩ | ⟨hrc, -, h, hopened, hat, -⟩
  · -- the record is not opened: no `Write`, no `Close`
    dsimp only at hrc hopened₀ ⊢
    refine Gives.ite (fun _ => Gives.pure ⟨pre, hcalls₂, Or.inl ⟨hrc, fun h => ?_, hpre₁, hpre₃, ?_⟩⟩)
      fun h0 => absurd h0 (by omega)
    · exact absurd (hopened₀.2 h) hrc.ne
    · exact hu₂.fs.trans hu₁.fs
  dsimp only at hrc hopened hopened₀ ⊢
  subst hrc
  refine Gives.ite (fun h => absurd rfl h) fun _ => ?_
  have hcreate : w.fs.create (env.recordFile pfn) = some (h.ino, w₂.fs) := hat
  have hst : fh.m_state = none := by
    have hstate := hopened.state
    unfold RecordInCksums at hck
    rwa [if_neg (by simp [hck])] at hstate
  have hh : h = ⟨w.fs.next, true⟩ := by
    have hino := (Fs.create_eq_some hcreate).1
    have hkind : h.writing = true := hopened.kind
    rw [← hino, ← hkind]
  have hpos := List.length_pos_iff.2 (serialise_ne_nil hne)
  have hinit : Filling w (env.recordFile pfn) (serialise values) w₂.calls (fh, 0) w₂ :=
    ⟨by rw [← hh]; exact hopened.fh, hst, hopened.nextoff, hpos, by rw [List.take_zero]; exact Fs.Put.of_create hcreate,
      [], by rw [List.append_nil], by simp, rfl⟩
  refine Gives.bind ((Gives.loop _ (fun b _ => (serialise values).length - b.2) (fun b s h => h.turn) (fh, 0) w₂ hinit).mono
    ?_)
  rintro ⟨retval, fh'⟩ w₃ ⟨hfh', hst', took, buff, hcalls₃, htook, hput, hfull, hcut⟩
  dsimp only at hfh' hst' hcalls₃ hput hfull hcut ⊢
  refine Gives.bind (((File.close_spec fh' hst' w₃).and_ends (File.close_calls fh' hfh' hst' w₃)).mono ?_)
  rintro ⟨_, fh''⟩ w₄ ⟨⟨hu₄, -, -⟩, hcalls₄⟩
  refine Gives.bind (Gives.step (Gives.pure ?_))
  obtain ⟨htook₁, -⟩ := Took.results htook
  have htook₂ : took.filter (·.1.kind = .closeFile) = [] := by
    simpa using fun c r hc => by rw [(htook (c, r) hc).1]; decide
  rw [hcalls₃, hcalls₂, List.append_assoc, List.append_assoc] at hcalls₄
  -- of all the calls, those of the loop took bytes
  have hwrites : ∀ closed, results .write (pre ++ (took ++ [(.write (some ⟨w.fs.next, true⟩) buff, retval)] ++
      [(.closeFile ⟨w.fs.next, true⟩, closed)])) = results .write took ++ [retval] := by
    intro closed
    rw [results_append, results_append, results_append, hpre₁, List.nil_append]
    exact List.append_nil _
  have htaken : ∀ closed, taken (pre ++ (took ++ [(.write (some ⟨w.fs.next, true⟩) buff, retval)] ++
      [(.closeFile ⟨w.fs.next, true⟩, closed)])) = taken took + retval.toNat := by
    intro closed
    unfold taken
    rw [hwrites, List.map_append, List.sum_append]
    rfl
  refine ⟨_, hcalls₄, Or.inr ⟨retval, (hdfsCloseFile ⟨w.fs.next, true⟩ w₃).1, rfl, ?_,
    ⟨results .write took, hwrites _, htook₁⟩, ?_, ?_, ?_, ?_⟩⟩
  · exact List.mem_append_left _ (hopened₀.1 rfl)
  · rw [List.filter_append, List.filter_append, List.filter_append, hpre₃, htook₂]
    rfl
  · rw [htaken]
    show w.fs.Put _ _ w₄.fs
    rw [hu₄.fs]
    exact hput
  · rw [htaken]
    exact hfull
  · intro h0
    rw [htaken, h0]
    exact hcut h0

theorem Kept.honest {w w' : World} {pfn : Bytes} {outcomes : List (LibCall × ℤ)} (h : Kept env w pfn outcomes w') :
    Honest outcomes := by
  unfold Honest
  have hcloses : results .closeFile outcomes = [] := by rw [results, h.closes, List.map_nil]
  rw [h.writes, hcloses]
  exact ⟨by simp, Or.inr (by simp)⟩

namespace Wrote

variable {w w' : World} {pfn : Bytes} {values : ChecksumValues} {outcomes : List (LibCall × ℤ)} {ret closed : ℤ}

theorem honest_iff (h : Wrote env w pfn values outcomes ret closed w') : Honest outcomes ↔ ret < 0 ∨ 0 < ret ∧ closed = 0 := by
  obtain ⟨took, hwrites, htook⟩ := h.writes
  have hcloses : results .closeFile outcomes = [closed] := by rw [results, h.closes, List.map_singleton]
  have h0 : 0 ∉ took := fun h0 => absurd (htook 0 h0) (lt_irrefl 0)
  have hneg : (∃ r ∈ took ++ [ret], r < 0) ↔ ret < 0 := by
    constructor
    · rintro ⟨r, hr, hlt⟩
      rcases List.mem_append.1 hr with hr | hr
      · exact absurd (htook r hr) (not_lt.2 hlt.le)
      · rwa [List.mem_singleton.1 hr] at hlt
    · exact fun hlt => ⟨ret, by simp, hlt⟩
  unfold Honest
  rw [hwrites, hcloses, hneg]
  simp only [List.mem_append, h0, List.mem_singleton, false_or, forall_eq]
  omega

/-- The record is closed, and holds the whole text, if and only if the last `Write` took something and `Close` did not
fail. -/
theorem wholeRecord_iff (h : Wrote env w pfn values outcomes ret closed w') (hret : 0 ≤ ret) :
    WholeRecord env pfn values outcomes w' ↔ 0 < ret ∧ closed = 0 := by
  have hmem : ∀ i, (LibCall.closeFile ⟨i, true⟩, (0 : ℤ)) ∈ outcomes ↔ i = w.fs.next ∧ closed = 0 := by
    intro i
    have hiff : (LibCall.closeFile ⟨i, true⟩, (0 : ℤ)) ∈ outcomes ↔
        (LibCall.closeFile ⟨i, true⟩, (0 : ℤ)) ∈ outcomes.filter (·.1.kind = .closeFile) := by
      rw [List.mem_filter]
      exact (and_iff_left (by simp [LibCall.kind])).symm
    rw [hiff, h.closes, List.mem_singleton, Prod.mk.injEq, LibCall.closeFile.injEq, Handle.mk.injEq, and_iff_left rfl,
      eq_comm (a := (0 : ℤ))]
  constructor
  · rintro ⟨i, hclosed, hino, hdata⟩
    refine ⟨lt_of_le_of_ne hret fun h0 => ?_, ((hmem i).1 hclosed).2⟩
    have hview : w'.fs.view (env.recordFile pfn) = some (serialise values) := Fs.view_eq_some.2 ⟨i, hino, hdata⟩
    rw [h.put.view] at hview
    have hlen := congrArg List.length (Option.some.inj hview)
    have := h.cut h0.symm
    rw [List.length_take] at hlen
    omega
  · rintro ⟨hpos, hclosed⟩
    refine ⟨w.fs.next, (hmem _).2 ⟨rfl, hclosed⟩, by rw [h.put.ino, if_pos rfl], ?_⟩
    rw [h.put.data, List.take_of_length_le (h.full hpos)]

end Wrote

/-- **When `SetMultiple` is right to return 0**: if and only if no `Write` of the record took nothing, and a `Write` failed
or `Close` did not. -/
theorem setMultiple_honest_iff (pfn : Bytes) (hck : RecordInCksums env pfn) (values : ChecksumValues) (hne : values ≠ [])
    (w : World) :
    Gives (setMultiple env pfn values) w fun rc w' => ∃ outcomes, w'.calls = w.calls ++ outcomes ∧
      ((rc = 0 → WholeRecord env pfn values outcomes w') ↔ Honest outcomes) := by
  refine (setMultiple_outcomes pfn hck values hne w).mono ?_
  rintro rc w' ⟨outcomes, hcalls, ⟨hrc, hkept⟩ | ⟨ret, closed, rfl, hwrote⟩⟩
  · exact ⟨outcomes, hcalls, iff_of_true (fun h0 => absurd h0 hrc.ne) hkept.honest⟩
  refine ⟨outcomes, hcalls, ?_⟩
  rw [hwrote.honest_iff]
  rcases lt_or_ge ret 0 with hneg | hret
  · rw [if_pos hneg]
    exact iff_of_true (fun h0 => absurd h0 hneg.ne) (Or.inl hneg)
  · rw [if_neg hret.not_gt, or_iff_right hret.not_gt, ← hwrote.wholeRecord_iff hret]
    exact ⟨fun h => h rfl, fun h _ => h⟩

/-- The record of `/a` in two calls. -/
theorem setMultiple_honest_iff_a : RecordInCksums Reference.env (str "/a") ∧ [(str "MD5", str "0aff")] ≠ [] ∧
    Gives (setMultiple Reference.env (str "/a") [(str "MD5", str "0aff")])
      { fs := .empty, script := fun c => if c = .write then [.part 3] else [] } fun rc w' =>
      ∃ outcomes, w'.calls = [] ++ outcomes ∧
        ((rc = 0 → WholeRecord Reference.env (str "/a") [(str "MD5", str "0aff")] outcomes w') ↔ Honest outcomes) :=
  have hck : RecordInCksums Reference.env (str "/a") := by decide
  have hne : [(str "MD5", str "0aff")] ≠ [] := by decide
  ⟨hck, hne, setMultiple_honest_iff (str "/a") hck [(str "MD5", str "0aff")] hne
    { fs := .empty, script := fun c => if c = .write then [.part 3] else [] }⟩

/-- `Close` fails, and `SetMultiple` returns 0. -/
theorem close_not_looked_at : ¬ Gives (setMultiple Reference.env (str "/a") [(str "MD5", str "0aff")])
    { fs := .empty, script := fun c => if c = .closeFile then [.fail EIO] else [] } fun rc w' =>
      rc = 0 → WholeRecord Reference.env (str "/a") [(str "MD5", str "0aff")] w'.calls w' := by
  have hrun : ((setMultiple Reference.env (str "/a") [(str "MD5", str "0aff")]).run 9
      { fs := .empty, script := fun c => if c = .closeFile then [.fail EIO] else [] }).map
        (fun r => (r.1, results .closeFile r.2.calls)) = some (0, [-1]) := by decide +kernel
  obtain ⟨⟨rc, w'⟩, hrun, hout⟩ := Option.map_eq_some_iff.1 hrun
  obtain ⟨rfl, hclosed⟩ := Prod.mk.inj hout
  intro h
  obtain ⟨i, hmem, -⟩ := h.ends 9 0 w' hrun rfl
  have hzero : (0 : ℤ) ∈ results .closeFile w'.calls :=
    List.mem_map.2 ⟨_, List.mem_filter.2 ⟨hmem, by simp [LibCall.kind]⟩, rfl⟩
  dsimp only at hclosed
  rw [hclosed] at hzero
  exact absurd hzero (by decide)

end XrdHdfs
