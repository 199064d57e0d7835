import XrdHdfs.Saving
import XrdHdfs.Update

/-!
# Two calls of `Set` at the same time

`Set` reads the record, merges its value into the entries, and creates, writes and closes the record anew.  Two calls
take these steps in any order, with no lock between them.  `Racing` is what holds of the two calls and the record after
any schedule.  When both have returned 0, the record has both values, and every other one that it had, exactly when one
of the calls had nothing to write, or made its four steps up to the writing before the other made its first
(`no_lost_update_iff`).
-/

namespace XrdHdfs

open Lib World ChecksumManager

variable {env : Env}

/-! ### The steps of `Set` -/

/-- Where a call of `Set` stands.  What it wrote, and what its last `Write` returned, is kept to the end. -/
inductive Phase (env : Env) where
  | start
  | read (text : Bytes)
  | merged (values : ChecksumValues)
  | opened (values : ChecksumValues) (fh : File env)
  | written (values : ChecksumValues) (retval : ℤ) (fh : File env)
  | returned (rc : ℤ) (wrote : Option (ChecksumValues × ℤ))

/-- What is read is parsed, and the value merged. -/
def mergePhase (env : Env) (cks : XrdCksData) (checksum_contents : Bytes) : Phase env :=
  let (rc, values) := parse checksum_contents
  if rc ≠ 0 then .returned rc none
  else
    match merge cks (env.cks.Get cks) values with
    | none => .returned 0 none
    | some values => .merged values

/-- One step: the record is read; the value is merged; the record is created; it is written; it is closed. -/
def Phase.step (pfn : Bytes) (cks : XrdCksData) : Phase env → Prog World (Phase env)
  | .start => do
    let (rc, checksum_contents) ← getFileContents env pfn
    pure (if rc ≠ 0 then .returned rc none else .read checksum_contents)
  | .read checksum_contents => pure (mergePhase env cks checksum_contents)
  | .merged values => do
    match ← openRecord env pfn with
    | .inl rc => pure (.returned rc none)
    | .inr fh => pure (.opened values fh)
  | .opened values fh => do
    let (retval, fh) ← .loop (writeTurn (serialise values)) (fh, 0)
    pure (.written values retval fh)
  | .written values retval fh => do
    let rc ← closeRecord fh retval
    pure (.returned rc (some (values, retval)))
  | .returned rc wrote => pure (.returned rc wrote)

/-- The two calls in the order of a schedule. -/
def interleave (pfn : Bytes) (cks : Bool → XrdCksData) : List Bool → (Bool → Phase env) → Prog World (Bool → Phase env)
  | [], ph => pure ph
  | c :: schedule, ph => do
    let p ← (ph c).step pfn (cks c)
    interleave pfn cks schedule (Function.update ph c p)

section Alone

variable {pfn : Bytes} {cks : Bool → XrdCksData} {c : Bool} {n : ℕ} {w w' : World} {ph : Bool → Phase env}

theorem interleave_cons {p q : Phase env} {schedule : List Bool} {w₁ : World} {r : (Bool → Phase env) × World}
    (h : (p.step pfn (cks c)).run n w = some (q, w₁))
    (h' : (interleave pfn cks schedule (Function.update ph c q)).run n w₁ = some r) :
    (interleave pfn cks (c :: schedule) (Function.update ph c p)).run n w = some r := by
  refine Prog.run_bind_some.2 ⟨q, w₁, ?_, ?_⟩
  · rwa [Function.update_self]
  · rwa [Function.update_idem]

/-- A call that has returned makes no more steps. -/
theorem interleave_returned (k : ℕ) (rc : ℤ) (wrote : Option (ChecksumValues × ℤ)) :
    (interleave pfn cks (List.replicate k c) (Function.update ph c (.returned rc wrote))).run n w =
      some (Function.update ph c (.returned rc wrote), w) := by
  induction k with
  | zero => rfl
  | succ k ih => exact interleave_cons rfl ih

/-- **`Set` in steps.** A call that is alone makes five steps, and has then returned what `Set` returns. -/
theorem set_steps {rc : ℤ} (h : (ChecksumManager.set env pfn (cks c)).run n w = some (rc, w')) (hc : ph c = .start) :
    ∃ wrote, (interleave pfn cks (List.replicate 5 c) ph).run n w =
      some (Function.update ph c (.returned rc wrote), w') := by
  suffices hset : ∃ wrote, (interleave pfn cks (List.replicate 5 c) (Function.update ph c .start)).run n w =
      some (Function.update ph c (.returned rc wrote), w') by
    rwa [← hc, Function.update_eq_self] at hset
  obtain ⟨⟨rc₁, text⟩, w₁, hread, h⟩ := Prog.run_bind_some.1 h
  dsimp only at h
  by_cases hrc₁ : rc₁ ≠ 0
  · rw [if_pos hrc₁] at h
    cases h
    have hstep : ((Phase.start : Phase env).step pfn (cks c)).run n w = some (.returned rc none, w') :=
      Prog.run_bind_some.2 ⟨(rc, text), w', hread, by dsimp only; rw [if_pos hrc₁]; rfl⟩
    exact ⟨none, interleave_cons hstep (interleave_returned 4 rc none)⟩
  rw [if_neg hrc₁] at h
  have hstep : ((Phase.start : Phase env).step pfn (cks c)).run n w = some (.read text, w₁) :=
    Prog.run_bind_some.2 ⟨(rc₁, text), w₁, hread, by dsimp only; rw [if_neg hrc₁]; rfl⟩
  have hmerge : ((Phase.read text : Phase env).step pfn (cks c)).run n w₁ = some (mergePhase env (cks c) text, w₁) := rfl
  by_cases hrc₂ : (parse text).1 ≠ 0
  · rw [if_pos hrc₂] at h
    cases h
    have hphase : mergePhase env (cks c) text = .returned (parse text).1 none := if_pos hrc₂
    rw [hphase] at hmerge
    exact ⟨none, interleave_cons hstep (interleave_cons hmerge (interleave_returned 3 _ none))⟩
  rw [if_neg hrc₂] at h
  cases hm : merge (cks c) (env.cks.Get (cks c)) (parse text).2 with
  | none =>
    rw [hm] at h
    cases h
    have hphase : mergePhase env (cks c) text = .returned 0 none := by simp only [mergePhase, if_neg hrc₂, hm]
    rw [hphase] at hmerge
    exact ⟨none, interleave_cons hstep (interleave_cons hmerge (interleave_returned 3 0 none))⟩
  | some values =>
    rw [hm] at h
    have hphase : mergePhase env (cks c) text = .merged values := by simp only [mergePhase, if_neg hrc₂, hm]
    rw [hphase] at hmerge
    rcases setMultiple_run h with hopen | ⟨fh, w₂, retval, fh', w₃, hopen, hloop, hclose⟩
    · refine ⟨none, interleave_cons hstep (interleave_cons hmerge ?_)⟩
      exact interleave_cons (Prog.run_bind_some.2 ⟨_, w', hopen, rfl⟩) (interleave_returned 2 rc none)
    · refine ⟨some (values, retval), interleave_cons hstep (interleave_cons hmerge ?_)⟩
      refine interleave_cons (Prog.run_bind_some.2 ⟨_, w₂, hopen, rfl⟩) ?_
      refine interleave_cons (Prog.run_bind_some.2 ⟨_, w₃, hloop, rfl⟩) ?_
      exact interleave_cons (Prog.run_bind_some.2 ⟨rc, w', hclose, rfl⟩) rfl

end Alone

/-! ### Writing into a file that need not be at its path any more -/

/-- **The writing** changes nothing but the file that was created; it holds the text when the last `Write` took some. -/
theorem writeRecord_spec {fh : File env} {i : ℕ} (hfh : fh.fh = some ⟨i, true⟩) (hst : fh.m_state = none)
    (hoff : fh.m_nextoff = 0) (text : Bytes) (w : World) (hempty : (w.fs.data i).bytes = []) :
    Gives (.loop (writeTurn text) (fh, 0)) w fun r w' => w'.fs.tree = w.fs.tree ∧ w'.fs.next = w.fs.next ∧
      (∀ j, j ≠ i → w'.fs.data j = w.fs.data j) ∧ (0 < r.1 → (w'.fs.data i).bytes = text) ∧ r.2.m_state = none := by
  -- the file holds the text up to the offset
  refine Gives.loop (fun b w' => (b.1.fh = some ⟨i, true⟩ ∧ b.1.m_state = none ∧ b.1.m_nextoff = b.2 ∧ b.2 ≤ text.length) ∧
    w'.fs.tree = w.fs.tree ∧ w'.fs.next = w.fs.next ∧ (∀ j, j ≠ i → w'.fs.data j = w.fs.data j) ∧
    (w'.fs.data i).bytes = text.take b.2) (fun b _ => text.length - b.2) ?_ (fh, 0) w
    ⟨⟨hfh, hst, hoff, Nat.zero_le _⟩, rfl, rfl, fun _ _ => rfl, by simpa using hempty⟩
  rintro ⟨fh, offset⟩ w₁ ⟨⟨hfh, hst, hoff, hle⟩, htree, hnext, hframe, hdata⟩
  dsimp only at hfh hst hoff hle hdata
  refine (writeTurn_appends hfh hst hoff hle w₁).mono ?_
  rintro r w₂ ⟨-, n, hn, happ, hcase⟩
  have hafter : w₂.fs.tree = w.fs.tree ∧ w₂.fs.next = w.fs.next ∧ (∀ j, j ≠ i → w₂.fs.data j = w.fs.data j) ∧
      (w₂.fs.data i).bytes = text.take (offset + n) := by
    rcases happ with happ | ⟨rfl, hfs⟩
    · obtain ⟨htree', hnext', hnew, hother⟩ := Fs.append_eq_some happ
      refine ⟨htree'.trans htree, hnext'.trans hnext, fun j hj => (hother j hj).trans (hframe j hj), ?_⟩
      rw [hnew, hdata, List.take_add]
    · rw [hfs]
      exact ⟨htree, hnext, hframe, hdata⟩
  obtain ⟨htree₂, hnext₂, hframe₂, hdata₂⟩ := hafter
  rcases r with ⟨fh', offset'⟩ | ⟨retval, fh'⟩
  · obtain ⟨hfh', hst', hoff', rfl, hpos⟩ := hcase
    refine ⟨⟨⟨hfh', hst', hoff', hn⟩, htree₂, hnext₂, hframe₂, hdata₂⟩, ?_⟩
    dsimp only at hn ⊢
    omega
  · obtain ⟨hst', hall, -⟩ := hcase
    refine ⟨htree₂, hnext₂, hframe₂, fun hpos => ?_, hst'⟩
    rw [hdata₂]
    exact List.take_of_length_le (hall hpos).ge

/-! ### What holds of two calls -/

namespace Phase

/-- How many steps a call has made. -/
def Pace : Phase env → ℕ → Prop
  | start, n => n = 0
  | read _, n => n = 1
  | merged _, n => n = 2
  | opened _ _, n => n = 3
  | written _ _ _, n => n = 4
  | returned _ none, n => 1 ≤ n
  | returned _ (some _), n => 5 ≤ n

/-- The call has created the record. -/
def Opened : Phase env → Prop
  | opened _ _ | written _ _ _ | returned _ (some _) => True
  | _ => False

/-- The call has written the record, and `t` is what it wrote, if its last `Write` took some. -/
def Wrote (t : Bytes) : Phase env → Prop
  | written values retval _ | returned _ (some (values, retval)) => 0 < retval → t = serialise values
  | _ => False

/-- The call goes by what it read in `text`. -/
def GoesBy (cks : XrdCksData) (text : Bytes) : Phase env → Prop
  | start => False
  | read checksum_contents => checksum_contents = text
  | merged values | opened values _ | written values _ _ | returned _ (some (values, _)) =>
    (parse text).1 = 0 ∧ merge cks (env.cks.Get cks) (parse text).2 = some values
  | returned rc none => rc = 0 ∧ (parse text).1 = 0 ∧ merge cks (env.cks.Get cks) (parse text).2 = none

/-- The call has failed before it created the record. -/
def Failed : Phase env → Prop
  | returned rc none => rc ≠ 0
  | _ => False

theorem Wrote.opened {t : Bytes} {p : Phase env} (h : p.Wrote t) : p.Opened := by
  cases p with
  | written => trivial
  | returned rc wrote =>
    cases wrote with
    | none => exact h.elim
    | some r => trivial
  | _ => exact h.elim

end Phase

/-- The other call made its steps up to the writing before `c` made its first. -/
def After (c : Bool) (schedule : List Bool) : Prop := List.replicate 4 (!c) <+: schedule

/-- **What a call may have read**: the old record; nothing, from the record that the other call had created but not
written; or what the other call had written.  If the other call has created the record since, it was the old one. -/
structure Source (old : Bytes) (schedule : List Bool) (ph : Bool → Phase env) (last : Option Bool) (c : Bool) (text : Bytes) :
    Prop where
  cases : (text = old ∧ ((ph !c).Opened → ¬ After c schedule)) ∨ (text = [] ∧ (ph !c).Opened ∧ ¬ After c schedule) ∨
    ((ph !c).Wrote text ∧ After c schedule)
  early : (ph c).Opened → last = some (!c) → text = old ∧ ¬ After c schedule

/-- **What holds after any schedule.** `last` is the call that created the record last. -/
structure Racing (p : HPath) (old : Bytes) (cks : Bool → XrdCksData) (schedule : List Bool) (last : Option Bool)
    (ph : Bool → Phase env) (w : World) : Prop where
  pace : ∀ c, (ph c).Pace (schedule.count c)
  record : match last with
    | none => (∀ c, ¬ (ph c).Opened) ∧ w.fs.view p = some old
    | some c => (ph c).Opened ∧ ∃ t, w.fs.view p = some t ∧ ((ph c).Wrote t ∨ (∃ values fh, ph c = .opened values fh) ∧ t = [])
  file : ∀ c values fh, ph c = .opened values fh → fh.m_state = none ∧ fh.m_nextoff = 0 ∧
    ∃ i, fh.fh = some ⟨i, true⟩ ∧ i < w.fs.next ∧ (w.fs.data i).bytes = [] ∧ (w.fs.tree.ino p = some i ↔ last = some c)
  closing : ∀ c values retval fh, ph c = .written values retval fh → fh.m_state = none
  source : ∀ c, ph c = .start ∨ (ph c).Failed ∨ ∃ text, (ph c).GoesBy (cks c) text ∧ Source old schedule ph last c text

section Schedule

variable {c : Bool} {schedule : List Bool}

/-- A call that has begun stays after the other, or does not. -/
theorem after_append (hc : c ∈ schedule) (x : Bool) : After c (schedule ++ [x]) ↔ After c schedule := by
  constructor
  · intro h
    rcases List.prefix_concat_iff.1 h with heq | h
    · have hmem : c ∈ List.replicate 4 (!c) := by
        rw [heq]
        simp [hc]
      simpa using List.eq_of_mem_replicate hmem
    · exact h
  · exact fun h => h.trans (List.prefix_append _ _)

/-- The first step of a call. -/
theorem after_first (hc : c ∉ schedule) : After c (schedule ++ [c]) ↔ 4 ≤ schedule.count (!c) := by
  have hall : schedule = List.replicate (schedule.count (!c)) (!c) := by
    have hother : ∀ x ∈ schedule, x = !c := fun x hx => Bool.eq_not_of_ne (ne_of_mem_of_not_mem hx hc)
    rw [List.count_eq_length.2 fun x hx => (hother x hx).symm]
    exact List.eq_replicate_iff.2 ⟨rfl, hother⟩
  constructor
  · intro h
    rcases List.prefix_concat_iff.1 h with heq | h
    · have hmem : c ∈ List.replicate 4 (!c) := by
        rw [heq]
        simp
      simpa using List.eq_of_mem_replicate hmem
    · simpa using h.sublist.count_le (!c)
  · intro h
    refine List.IsPrefix.trans ⟨List.replicate (schedule.count (!c) - 4) (!c), ?_⟩ (List.prefix_append _ _)
    rw [List.replicate_append_replicate, Nat.add_sub_cancel' h, ← hall]

end Schedule

section Race

variable {p : HPath} {old : Bytes} {cks : Bool → XrdCksData} {schedule : List Bool} {last last' : Option Bool}
  {ph : Bool → Phase env} {c : Bool} {q : Phase env} {text : Bytes} {w w' : World}

/-! ### How a step keeps what a call has read -/

/-- A step of the call itself. -/
theorem Source.own (h : Source old schedule ph last c text) (hc : c ∈ schedule)
    (hearly : q.Opened → last' = some (!c) → (ph c).Opened ∧ last = some (!c)) :
    Source old (schedule ++ [c]) (Function.update ph c q) last' c text := by
  have hother : Function.update ph c q (!c) = ph !c := Function.update_of_ne (by simp) _ _
  refine ⟨?_, fun ho hl => ?_⟩
  · rw [hother, after_append hc]
    exact h.cases
  · rw [Function.update_self] at ho
    rw [after_append hc]
    obtain ⟨ho', hl'⟩ := hearly ho hl
    exact h.early ho' hl'

/-- A step of the other call that does not create the record. -/
theorem Source.other (h : Source old schedule ph last (!c) text) (hc : (!c) ∈ schedule) (hopened : q.Opened ↔ (ph c).Opened)
    (hwrote : ∀ t, (ph c).Wrote t → q.Wrote t) :
    Source old (schedule ++ [c]) (Function.update ph c q) last (!c) text := by
  have hself : Function.update ph c q (!!c) = q := by rw [Bool.not_not, Function.update_self]
  have hother : Function.update ph c q (!c) = ph !c := Function.update_of_ne (by simp) _ _
  have hcases := h.cases
  have hearly := h.early
  rw [Bool.not_not] at hcases hearly
  refine ⟨?_, fun ho hl => ?_⟩
  · rw [hself, after_append hc, hopened]
    exact hcases.imp_right (Or.imp_right fun h => ⟨hwrote text h.1, h.2⟩)
  · rw [hother] at ho
    rw [Bool.not_not] at hl
    rw [after_append hc]
    exact hearly ho hl

theorem Racing.mem (h : Racing p old cks schedule last ph w) (hc : ph c ≠ .start) : c ∈ schedule := by
  have hpace := h.pace c
  refine List.count_pos_iff.1 ?_
  cases hp : ph c with
  | start => exact absurd hp hc
  | returned rc wrote =>
    rw [hp] at hpace
    cases wrote with
    | none => exact hpace
    | some r => exact lt_of_lt_of_le (by norm_num) (show 5 ≤ _ from hpace)
  | _ =>
    rw [hp] at hpace
    rw [show schedule.count c = _ from hpace]
    norm_num

/-- What the other call has read, after a step that does not create the record. -/
theorem Racing.source_other (h : Racing p old cks schedule last ph w) (hopened : q.Opened ↔ (ph c).Opened)
    (hwrote : ∀ t, (ph c).Wrote t → q.Wrote t) : ph (!c) = .start ∨ (ph !c).Failed ∨
      ∃ text, (ph !c).GoesBy (cks !c) text ∧ Source old (schedule ++ [c]) (Function.update ph c q) last (!c) text := by
  rcases h.source (!c) with hstart | hfailed | ⟨text, hby, hsource⟩
  · exact Or.inl hstart
  · exact Or.inr (Or.inl hfailed)
  · refine Or.inr (Or.inr ⟨text, hby, hsource.other (h.mem fun hs => ?_) hopened hwrote⟩)
    rw [hs] at hby
    exact hby

/-- The pace, after a step. -/
theorem Racing.pace_step (h : Racing p old cks schedule last ph w) (hq : q.Pace (schedule.count c + 1)) (x : Bool) :
    (Function.update ph c q x).Pace ((schedule ++ [c]).count x) := by
  rcases eq_or_ne x c with rfl | hne
  · rw [Function.update_self, List.count_append, List.count_singleton_self]
    exact hq
  · have hzero : [c].count x = 0 := List.count_eq_zero.2 (by simpa using hne)
    rw [Function.update_of_ne hne, List.count_append, hzero, Nat.add_zero]
    exact h.pace x

/-! ### The steps -/

/-- **A step that leaves the file system alone.** -/
theorem Racing.quiet (h : Racing p old cks schedule last ph w) (hfs : w'.fs = w.fs)
    (hnot : ∀ values fh, ph c ≠ .opened values fh) (hopened : q.Opened ↔ (ph c).Opened)
    (hwrote : ∀ t, (ph c).Wrote t → q.Wrote t) (hnew : ∀ values fh, q ≠ .opened values fh)
    (hclosing : ∀ values retval fh, q ≠ .written values retval fh) (hpace : q.Pace (schedule.count c + 1))
    (hsource : q.Failed ∨ ∃ text, q.GoesBy (cks c) text ∧
      Source old (schedule ++ [c]) (Function.update ph c q) last c text) :
    Racing p old cks (schedule ++ [c]) last (Function.update ph c q) w' := by
  have hopened' : ∀ x, (Function.update ph c q x).Opened ↔ (ph x).Opened := by
    intro x
    rcases eq_or_ne x c with rfl | hne
    · rw [Function.update_self, hopened]
    · rw [Function.update_of_ne hne]
  refine ⟨h.pace_step hpace, ?_, fun x values fh hx => ?_, fun x values retval fh hx => ?_, fun x => ?_⟩
  · have hrecord := h.record
    rw [hfs]
    cases last with
    | none => exact ⟨fun x => by rw [hopened']; exact hrecord.1 x, hrecord.2⟩
    | some x =>
      obtain ⟨ho, t, hview, hcase⟩ := hrecord
      refine ⟨(hopened' x).2 ho, t, hview, ?_⟩
      rcases eq_or_ne x c with rfl | hne
      · rcases hcase with hw | ⟨⟨values, fh, hp⟩, -⟩
        · rw [Function.update_self]
          exact Or.inl (hwrote t hw)
        · exact absurd hp (hnot values fh)
      · rwa [Function.update_of_ne hne]
  · rcases eq_or_ne x c with rfl | hne
    · rw [Function.update_self] at hx
      exact absurd hx (hnew values fh)
    · rw [Function.update_of_ne hne] at hx
      rw [hfs]
      exact h.file x values fh hx
  · rcases eq_or_ne x c with rfl | hne
    · rw [Function.update_self] at hx
      exact absurd hx (hclosing values retval fh)
    · rw [Function.update_of_ne hne] at hx
      exact h.closing x values retval fh hx
  · rcases eq_or_ne x c with rfl | hne
    · rw [Function.update_self]
      exact Or.inr hsource
    · rw [Function.update_of_ne hne]
      obtain rfl := Bool.eq_not_of_ne hne
      exact h.source_other hopened hwrote

variable {pfn : Bytes}

/-- A step of a call that goes by something. -/
theorem Racing.mem_of_goesBy (h : Racing p old cks schedule last ph w) (hby : (ph c).GoesBy (cks c) text) : c ∈ schedule := by
  refine h.mem fun hs => ?_
  rw [hs] at hby
  exact hby

/-- What a call goes by that has begun and has not failed. -/
theorem Racing.goesBy (h : Racing p old cks schedule last ph w) (hstart : ph c ≠ .start) (hfailed : ¬ (ph c).Failed) :
    ∃ text, (ph c).GoesBy (cks c) text ∧ Source old schedule ph last c text := by
  rcases h.source c with hs | hf | hby
  · exact absurd hs hstart
  · exact absurd hf hfailed
  · exact hby

theorem Racing.goesBy_opened (h : Racing p old cks schedule last ph w) (ho : (ph c).Opened) :
    ∃ text, (ph c).GoesBy (cks c) text ∧ Source old schedule ph last c text := by
  refine h.goesBy (fun hs => ?_) fun hf => ?_
  · rw [hs] at ho
    exact ho
  · cases hp : ph c with
    | returned rc wrote =>
      rw [hp] at ho hf
      cases wrote with
      | none => exact ho
      | some r => exact hf
    | _ =>
      rw [hp] at hf
      exact hf

/-- What a call writes can be read back. -/
theorem Phase.Wrote.of_isText {d : XrdCksData} (hgood : GoodEntry (d.Name, env.cks.Get d)) {src t : Bytes}
    (hw : q.Wrote t) (hby : q.GoesBy d src) (htext : IsText t text) : q.Wrote text := by
  have hread : ∀ {values : ChecksumValues} {retval : ℤ}, (0 < retval → t = serialise values) →
      merge d (env.cks.Get d) (parse src).2 = some values → 0 < retval → text = serialise values := by
    intro values retval hw hm hret
    have hvalues := goodEntry_merge hgood.1 hgood.2 (goodEntry_parse src) hm
    obtain rfl := hw hret
    exact htext.eq_self (not_mem_zero_serialise hvalues)
  cases q with
  | written values retval fh => exact hread hw hby.2
  | returned rc wrote =>
    cases wrote with
    | none => exact hw.elim
    | some r => exact hread hw hby.2
  | _ => exact hw.elim

/-- **The merging.** -/
theorem Racing.merge_step (h : Racing p old cks schedule last ph w) {t : Bytes} (hp : ph c = .read t) :
    Racing p old cks (schedule ++ [c]) last (Function.update ph c (mergePhase env (cks c) t)) w := by
  obtain ⟨text, hby, hsource⟩ := h.goesBy (c := c) (by rw [hp]; simp) (by rw [hp]; exact id)
  have hmem := h.mem_of_goesBy hby
  have hpace := h.pace c
  rw [hp] at hby hpace
  obtain rfl : t = text := hby
  have hcount : schedule.count c + 1 = 2 := by rw [show schedule.count c = 1 from hpace]
  -- none of the phases that come next has created the record
  have hnext : ∀ q : Phase env, ¬ q.Opened → (∀ t, ¬ q.Wrote t) → (∀ values fh, q ≠ .opened values fh) →
      (∀ values retval fh, q ≠ .written values retval fh) → q.Pace 2 → (q.Failed ∨ q.GoesBy (cks c) t) →
      Racing p old cks (schedule ++ [c]) last (Function.update ph c q) w := by
    intro q ho hw hnew hclosing hq hcase
    refine h.quiet rfl (by rw [hp]; simp) (iff_of_false ho (by rw [hp]; exact id)) (by rw [hp]; exact fun t ht => ht.elim)
      hnew hclosing (by rwa [hcount]) (hcase.imp_right fun hby => ⟨t, hby, ?_⟩)
    exact hsource.own hmem fun hq => absurd hq ho
  unfold mergePhase
  by_cases hrc : (parse t).1 ≠ 0
  · dsimp only
    rw [if_pos hrc]
    exact hnext _ id (fun _ => id) (by simp) (by simp) (show 1 ≤ 2 by norm_num) (Or.inl hrc)
  · dsimp only
    rw [if_neg hrc]
    cases hm : merge (cks c) (env.cks.Get (cks c)) (parse t).2 with
    | none => exact hnext _ id (fun _ => id) (by simp) (by simp) (show 1 ≤ 2 by norm_num) (Or.inr ⟨rfl, not_not.1 hrc, hm⟩)
    | some values => exact hnext _ id (fun _ => id) (by simp) (by simp) rfl (Or.inr ⟨not_not.1 hrc, hm⟩)

/-- **The closing.** -/
theorem Racing.close_step (h : Racing p old cks schedule last ph w) {values : ChecksumValues} {retval : ℤ} {fh : File env}
    (hp : ph c = .written values retval fh) (hfs : w'.fs = w.fs) (rc : ℤ) :
    Racing p old cks (schedule ++ [c]) last (Function.update ph c (.returned rc (some (values, retval)))) w' := by
  obtain ⟨text, hby, hsource⟩ := h.goesBy (c := c) (by rw [hp]; simp) (by rw [hp]; exact id)
  have hmem := h.mem_of_goesBy hby
  have hpace := h.pace c
  have hopened : (ph c).Opened := by rw [hp]; trivial
  have hcount : schedule.count c = 4 := by rw [hp] at hpace; exact hpace
  refine h.quiet hfs (by rw [hp]; simp) (iff_of_true trivial hopened) (by rw [hp]; exact fun t ht => ht) (by simp) (by simp)
    (by rw [hcount]; exact le_rfl) (Or.inr ⟨text, by rw [hp] at hby; exact hby, ?_⟩)
  exact hsource.own hmem fun _ hl => ⟨hopened, hl⟩

/-- A call that has returned. -/
theorem Racing.returned_step (h : Racing p old cks schedule last ph w) {rc : ℤ} {wrote : Option (ChecksumValues × ℤ)}
    (hp : ph c = .returned rc wrote) :
    Racing p old cks (schedule ++ [c]) last (Function.update ph c (.returned rc wrote)) w := by
  rw [← hp]
  have hpace : (ph c).Pace (schedule.count c + 1) := by
    have := h.pace c
    rw [hp] at this ⊢
    cases wrote with
    | none => exact Nat.le_succ_of_le this
    | some r => exact Nat.le_succ_of_le this
  refine h.quiet rfl (by rw [hp]; simp) Iff.rfl (fun t ht => ht) (by rw [hp]; simp) (by rw [hp]; simp) hpace ?_
  rcases h.source c with hs | hf | ⟨text, hby, hsource⟩
  · rw [hp] at hs
    cases hs
  · exact Or.inl hf
  · exact Or.inr ⟨text, hby, hsource.own (h.mem_of_goesBy hby) fun ho hl => ⟨ho, hl⟩⟩

/-- **A failure** before the record is created. -/
theorem Racing.fail_step (h : Racing p old cks schedule last ph w) (hopened : ¬ (ph c).Opened) (hfs : w'.fs = w.fs) {rc : ℤ}
    (hrc : rc ≠ 0) : Racing p old cks (schedule ++ [c]) last (Function.update ph c (.returned rc none)) w' := by
  refine h.quiet hfs ?_ (iff_of_false id hopened) ?_ (by simp) (by simp) (Nat.le_add_left 1 _) (Or.inl hrc)
  · intro values fh hp
    rw [hp] at hopened
    exact hopened trivial
  · exact fun t ht => absurd ht.opened hopened

/-- **The reading.** -/
theorem Racing.read_step (h : Racing p old cks schedule last ph w) (hold : 0 ∉ old)
    (hgood : ∀ c, GoodEntry ((cks c).Name, env.cks.Get (cks c))) (hp : ph c = .start) (hfs : w'.fs = w.fs) {F : Bytes}
    (hF : w.fs.view p = some F) (htext : IsText F text) :
    Racing p old cks (schedule ++ [c]) last (Function.update ph c (.read text)) w' := by
  have hcount : schedule.count c = 0 := by
    have := h.pace c
    rwa [hp] at this
  have hnot : ¬ (ph c).Opened := by rw [hp]; exact id
  have hother : Function.update ph c (.read text) (!c) = ph !c := Function.update_of_ne (by simp) _ _
  refine h.quiet hfs (by rw [hp]; simp) (iff_of_false id hnot) (fun t ht => absurd ht.opened hnot) (by simp) (by simp)
    (by rw [hcount]; rfl) (Or.inr ⟨text, rfl, ?_, fun ho => by rw [Function.update_self] at ho; exact ho.elim⟩)
  rw [hother, after_first (List.count_eq_zero.1 hcount)]
  have hrecord := h.record
  have hpace := h.pace (!c)
  cases last with
  | none =>
    obtain rfl : old = F := Option.some.inj (hrecord.2.symm.trans hF)
    exact Or.inl ⟨htext.eq_self hold, fun ho => absurd ho (hrecord.1 _)⟩
  | some x =>
    obtain ⟨ho, t, hview, hcase⟩ := hrecord
    obtain rfl : x = !c := Bool.eq_not_of_ne fun hx => hnot (hx ▸ ho)
    obtain rfl : t = F := Option.some.inj (hview.symm.trans hF)
    rcases hcase with hw | ⟨⟨values, fh, hopened⟩, rfl⟩
    · -- the other call has written the record, which is its fourth step
      obtain ⟨src, hby, -⟩ := h.goesBy_opened ho
      refine Or.inr (Or.inr ⟨hw.of_isText (hgood (!c)) hby htext, ?_⟩)
      cases hq : ph (!c) with
      | written values retval fh =>
        rw [hq] at hpace
        exact (show schedule.count (!c) = 4 from hpace).ge
      | returned rc wrote =>
        rw [hq] at hpace hw
        cases wrote with
        | none => exact hw.elim
        | some r => exact le_trans (by norm_num) (show 5 ≤ schedule.count (!c) from hpace)
      | _ =>
        rw [hq] at hw
        exact hw.elim
    · -- the record has been created, and nothing is written yet
      rw [hopened] at hpace
      refine Or.inr (Or.inl ⟨htext.eq_self (by simp), ho, ?_⟩)
      rw [show schedule.count (!c) = 3 from hpace]
      norm_num

/-- **The creation of the record.** -/
theorem Racing.open_step (h : Racing p old cks schedule last ph w) {values : ChecksumValues} (hp : ph c = .merged values)
    (hcreate : w.fs.create p = some (w.fs.next, w'.fs)) {fh : File env} (hfh : fh.fh = some ⟨w.fs.next, true⟩)
    (hst : fh.m_state = none) (hoff : fh.m_nextoff = 0) :
    Racing p old cks (schedule ++ [c]) (some c) (Function.update ph c (.opened values fh)) w' := by
  have hput := Fs.Put.of_create hcreate
  have hcount : schedule.count c = 2 := by
    have := h.pace c
    rwa [hp] at this
  have hnot : ¬ (ph c).Opened := by rw [hp]; exact id
  obtain ⟨text, hby, hsource⟩ := h.goesBy (c := c) (by rw [hp]; simp) (by rw [hp]; exact id)
  have hmem := h.mem_of_goesBy hby
  refine ⟨h.pace_step (by rw [hcount]; rfl), ?_, fun x vs f hx => ?_, fun x vs r f hx => ?_, fun x => ?_⟩
  · refine ⟨by rw [Function.update_self]; trivial, [], hput.view, Or.inr ⟨⟨values, fh, ?_⟩, rfl⟩⟩
    rw [Function.update_self]
  · rcases eq_or_ne x c with rfl | hne
    · rw [Function.update_self, Phase.opened.injEq] at hx
      obtain ⟨rfl, rfl⟩ := hx
      refine ⟨hst, hoff, w.fs.next, hfh, by rw [hput.next]; omega, hput.data, iff_of_true ?_ rfl⟩
      rw [hput.ino, if_pos rfl]
    · rw [Function.update_of_ne hne] at hx
      obtain ⟨hst', hoff', i, hi, hlt, hempty, -⟩ := h.file x vs f hx
      refine ⟨hst', hoff', i, hi, by rw [hput.next]; omega, by rw [hput.frame i hlt.ne, hempty], iff_of_false ?_ ?_⟩
      · rw [hput.ino, if_pos rfl, Option.some.injEq]
        exact hlt.ne'
      · rw [Option.some.injEq]
        exact hne.symm
  · rcases eq_or_ne x c with rfl | hne
    · rw [Function.update_self] at hx
      cases hx
    · rw [Function.update_of_ne hne] at hx
      exact h.closing x vs r f hx
  · rcases eq_or_ne x c with rfl | hne
    · rw [Function.update_self]
      rw [hp] at hby
      refine Or.inr (Or.inr ⟨text, hby, hsource.own hmem fun _ hl => ?_⟩)
      simp at hl
    · obtain rfl := Bool.eq_not_of_ne hne
      rw [Function.update_of_ne hne]
      refine (h.source (!c)).imp_right (Or.imp_right ?_)
      rintro ⟨text', hby', hsource'⟩
      -- the other call has read the old record: nothing else was there before
      have hcases := hsource'.cases
      rw [Bool.not_not] at hcases
      obtain rfl : text' = old := by
        rcases hcases with ⟨rfl, -⟩ | ⟨-, ho, -⟩ | ⟨hw, -⟩
        · rfl
        · exact absurd ho hnot
        · exact absurd hw.opened hnot
      have hafter : ¬ After (!c) (schedule ++ [c]) := by
        intro ha
        have hle := ha.sublist.count_le c
        rw [Bool.not_not, List.count_append, hcount] at hle
        simp at hle
      exact ⟨text', hby', Or.inl ⟨rfl, fun _ => hafter⟩, fun _ _ => ⟨rfl, hafter⟩⟩

/-- **The writing.** -/
theorem Racing.write_step (h : Racing p old cks schedule last ph w) {values : ChecksumValues} {fh fh' : File env} {retval : ℤ}
    (hp : ph c = .opened values fh) (htree : w'.fs.tree = w.fs.tree) (hnext : w'.fs.next = w.fs.next)
    (hwrite : ∀ i, fh.fh = some ⟨i, true⟩ → (∀ j, j ≠ i → w'.fs.data j = w.fs.data j) ∧
      (0 < retval → (w'.fs.data i).bytes = serialise values)) (hst : fh'.m_state = none) :
    Racing p old cks (schedule ++ [c]) last (Function.update ph c (.written values retval fh')) w' := by
  have hcount : schedule.count c = 3 := by
    have := h.pace c
    rwa [hp] at this
  have hopened : (ph c).Opened := by rw [hp]; trivial
  obtain ⟨-, -, i, hi, -, -, hat⟩ := h.file c values fh hp
  obtain ⟨hframe, hdata⟩ := hwrite i hi
  obtain ⟨text, hby, hsource⟩ := h.goesBy_opened hopened
  have hmem := h.mem_of_goesBy hby
  refine ⟨h.pace_step (by rw [hcount]; rfl), ?_, fun x vs f hx => ?_, fun x vs r f hx => ?_, fun x => ?_⟩
  · have hrecord := h.record
    cases last with
    | none => exact absurd hopened (hrecord.1 c)
    | some x =>
      obtain ⟨ho, t, hview, hcase⟩ := hrecord
      rcases eq_or_ne x c with rfl | hne
      · refine ⟨by rw [Function.update_self]; trivial, _, Fs.view_eq_some.2 ⟨i, by rw [htree, hat], rfl⟩, Or.inl ?_⟩
        rw [Function.update_self]
        exact fun hret => hdata hret
      · rw [← Function.update_of_ne hne (.written values retval fh') ph] at ho hcase
        refine ⟨ho, t, ?_, hcase⟩
        rw [← hview]
        refine Fs.view_congr (by rw [htree]) fun j hj => hframe j ?_
        rintro rfl
        exact hne (Option.some.inj (hat.1 hj))
  · rcases eq_or_ne x c with rfl | hne
    · rw [Function.update_self] at hx
      cases hx
    · rw [Function.update_of_ne hne] at hx
      obtain ⟨hst', hoff', j, hj, hlt, hempty, hat'⟩ := h.file x vs f hx
      -- the two calls write to different files
      have hij : j ≠ i := by
        rintro rfl
        have hrecord := h.record
        cases last with
        | none => exact hrecord.1 c hopened
        | some y =>
          rcases eq_or_ne y c with rfl | hy
          · exact hne (Option.some.inj (hat'.1 (hat.2 rfl))).symm
          · obtain rfl : y = x := (Bool.eq_not_of_ne hy).trans (Bool.eq_not_of_ne hne).symm
            exact hne (Option.some.inj (hat.1 (hat'.2 rfl)))
      exact ⟨hst', hoff', j, hj, by rwa [hnext], by rw [hframe j hij, hempty], by rwa [htree]⟩
  · rcases eq_or_ne x c with rfl | hne
    · rw [Function.update_self, Phase.written.injEq] at hx
      rw [← hx.2.2]
      exact hst
    · rw [Function.update_of_ne hne] at hx
      exact h.closing x vs r f hx
  · rcases eq_or_ne x c with rfl | hne
    · rw [Function.update_self]
      rw [hp] at hby
      exact Or.inr (Or.inr ⟨text, hby, hsource.own hmem fun _ hl => ⟨hopened, hl⟩⟩)
    · obtain rfl := Bool.eq_not_of_ne hne
      rw [Function.update_of_ne hne]
      exact h.source_other (iff_of_true trivial hopened) (by rw [hp]; exact fun t ht => ht.elim)

/-! ### Any schedule -/

/-- **One step**, of either call, whatever goes wrong in it. -/
theorem Racing.step (hck : RecordInCksums env pfn) (hold : 0 ∉ old)
    (hgood : ∀ c, GoodEntry ((cks c).Name, env.cks.Get (cks c)))
    (h : Racing (env.recordFile pfn) old cks schedule last ph w) (c : Bool) :
    Gives ((ph c).step pfn (cks c)) w fun q w' =>
      ∃ last', Racing (env.recordFile pfn) old cks (schedule ++ [c]) last' (Function.update ph c q) w' := by
  cases hp : ph c with
  | start =>
    refine Gives.bind ((getFileContents_mapped pfn w).mono ?_)
    rintro ⟨rc, text⟩ w₁ ⟨hu, ⟨hrc, -⟩ | ⟨hrc, -, F, hF, htext, -⟩⟩
    · dsimp only at hrc ⊢
      rw [if_pos hrc.ne]
      exact Gives.pure ⟨last, h.fail_step (by rw [hp]; exact id) hu.fs hrc.ne⟩
    · dsimp only at hrc ⊢
      rw [if_neg (not_not.2 hrc)]
      exact Gives.pure ⟨last, h.read_step hold hgood hp hu.fs hF htext⟩
  | read text => exact Gives.pure ⟨last, h.merge_step hp⟩
  | merged values =>
    refine Gives.bind ((openRecord_spec pfn hck w).mono ?_)
    rintro _ w₁ ⟨-, ⟨rc, rfl, hrc, hfs⟩ | ⟨fh, rfl, hcreate, hfh, hst, hoff⟩⟩
    · exact Gives.pure ⟨last, h.fail_step (by rw [hp]; exact id) hfs hrc⟩
    · exact Gives.pure ⟨some c, h.open_step hp hcreate hfh hst hoff⟩
  | opened values fh =>
    obtain ⟨hst, hoff, i, hi, -, hempty, -⟩ := h.file c values fh hp
    refine Gives.bind ((writeRecord_spec hi hst hoff (serialise values) w hempty).mono ?_)
    rintro ⟨retval, fh'⟩ w₁ ⟨htree, hnext, hframe, hdata, hst'⟩
    refine Gives.pure ⟨last, h.write_step hp htree hnext (fun j hj => ?_) hst'⟩
    obtain rfl : i = j := by simpa [hi] using hj
    exact ⟨hframe, hdata⟩
  | written values retval fh =>
    refine Gives.bind ((closeRecord_spec fh (h.closing c values retval fh hp) retval w).mono ?_)
    rintro rc w₁ ⟨hu, -⟩
    exact Gives.pure ⟨last, h.close_step hp hu.fs rc⟩
  | returned rc wrote => exact Gives.pure ⟨last, h.returned_step hp⟩

/-- Before the first step. -/
theorem Racing.start (hrec : w.fs.view p = some old) : Racing p old cks [] none (fun _ => (.start : Phase env)) w where
  pace _ := rfl
  record := ⟨fun _ => id, hrec⟩
  file _ _ _ hx := by cases hx
  closing _ _ _ _ hx := by cases hx
  source _ := Or.inl rfl

/-- **Any number of steps**, in the order of a schedule. -/
theorem Racing.run (hck : RecordInCksums env pfn) (hold : 0 ∉ old)
    (hgood : ∀ c, GoodEntry ((cks c).Name, env.cks.Get (cks c))) (more : List Bool)
    (h : Racing (env.recordFile pfn) old cks schedule last ph w) :
    Gives (interleave pfn cks more ph) w fun ph' w' =>
      ∃ last', Racing (env.recordFile pfn) old cks (schedule ++ more) last' ph' w' := by
  induction more generalizing schedule last ph w with
  | nil => exact Gives.pure ⟨last, by rwa [List.append_nil]⟩
  | cons c more ih =>
    refine Gives.bind ((h.step hck hold hgood c).mono ?_)
    rintro q w₁ ⟨last₁, h₁⟩
    have hrest := ih h₁
    rwa [List.append_assoc] at hrest

end Race

/-! ### Records with one entry for a name -/

/-- No two entries have one name, in any letter case. -/
def OneEach (values : ChecksumValues) : Prop := values.Pairwise fun e e' => ¬ strcaseeq e.1 e'.1

instance (values : ChecksumValues) : Decidable (OneEach values) := by unfold OneEach; infer_instance

section OneEach

variable {values values' : ChecksumValues} {d : XrdCksData} {text name : Bytes}

theorem strcaseeq_comm (s t : Bytes) : strcaseeq s t = strcaseeq t s := by
  unfold strcaseeq
  rw [Bool.eq_iff_iff, beq_iff_eq, beq_iff_eq]
  exact eq_comm

/-- The entry with the name has the value of the name. -/
theorem OneEach.lastValue_eq (h : OneEach values) {e : ChecksumValue} (he : e ∈ values) (hm : strcaseeq e.1 name) :
    lastValue values name = e.2 := by
  rcases lastMatch_lastValue values name with ⟨pre, e', post, heq, hm', hv, -⟩ | ⟨-, hno⟩
  swap
  · exact absurd hm (hno e he)
  have he' : e' ∈ values := by
    rw [heq]
    simp
  have hsymm : Std.Symm fun e e' : ChecksumValue => ¬ strcaseeq e.1 e'.1 :=
    ⟨fun e e' hee => by rwa [strcaseeq_comm]⟩
  by_contra hne
  have hdistinct : e ≠ e' := by
    rintro rfl
    exact hne hv.symm
  refine h.forall he he' hdistinct ?_
  rw [strcaseeq_congr hm, strcaseeq_comm]
  exact hm'

theorem OneEach.upperName (h : OneEach values) : OneEach (values.map upperName) := by
  refine List.pairwise_map.2 (h.imp fun {e e'} hee => ?_)
  rwa [XrdHdfs.upperName, XrdHdfs.upperName, strcaseeq_upper, strcaseeq_comm, strcaseeq_upper, strcaseeq_comm]

theorem OneEach.merge (h : OneEach values) (hm : ChecksumManager.merge d text values = some values') : OneEach values' := by
  unfold ChecksumManager.merge mergeValue at hm
  simp only [upper_eq_iff, Option.ite_none_right_eq_some, Option.some.injEq] at hm
  obtain ⟨-, rfl⟩ := hm
  generalize hf : (fun e : ChecksumValue => if strcaseeq e.1 d.Name ∧ e.2 ≠ text then (e.1, text) else e) = f
  have hname : ∀ e, (f e).1 = e.1 := by
    intro e
    rw [← hf]
    dsimp only
    split <;> rfl
  have hmap : OneEach (values.map f) := List.pairwise_map.2 (h.imp fun {e e'} hee => by rwa [hname, hname])
  split_ifs with hex
  · exact hmap
  · refine List.pairwise_append.2 ⟨hmap, List.pairwise_singleton _ _, ?_⟩
    intro e' hmem e'' hlast
    obtain ⟨e, he, rfl⟩ := List.mem_map.1 hmem
    rw [List.mem_singleton.1 hlast, hname, strcaseeq_comm, strcaseeq_upper, strcaseeq_comm]
    intro hm
    exact hex (List.any_eq_true.2 ⟨e, he, by simpa using hm⟩)

/-- Where nothing is written, the name has the value. -/
theorem OneEach.lastValue_of_merge (h : OneEach values) (hm : ChecksumManager.merge d text values = none) :
    lastValue values d.Name = text := by
  obtain ⟨e, he, hname, rfl⟩ := (merge_spec d text values).1.1 hm
  exact h.lastValue_eq he hname

/-- Where something is written, the name did not have the value. -/
theorem lastValue_ne_of_merge (hne : text ≠ []) (hm : ChecksumManager.merge d text values = some values') :
    lastValue values d.Name ≠ text := by
  intro heq
  rcases lastMatch_lastValue values d.Name with ⟨pre, e, post, hvs, hname, hv, -⟩ | ⟨hnil, -⟩
  · have hnone : ChecksumManager.merge d text values = none := by
      refine (merge_spec d text values).1.2 ⟨e, ?_, hname, hv.trans heq⟩
      rw [hvs]
      simp
    rw [hm] at hnone
    cases hnone
  · exact hne (heq.symm.trans hnil)

end OneEach

/-! ### When no update is lost -/

/-- The record with the text `F` has the new values, and the entries' values of all other names. -/
structure HasBoth (env : Env) (cks : Bool → XrdCksData) (values : ChecksumValues) (F : Bytes) : Prop where
  parses : (parse F).1 = 0
  new : ∀ c, lastValue (parse F).2 (cks c).Name = env.cks.Get (cks c)
  kept : ∀ name, (∀ c, ¬ strcaseeq name (cks c).Name) → lastValue (parse F).2 name = lastValue values name

section Final

variable {cks : Bool → XrdCksData} {values v : ChecksumValues}

/-- What the record of `v` has. -/
theorem hasBoth_serialise (hv : ∀ e ∈ v, GoodEntry e) : HasBoth env cks values (serialise v) ↔
    (∀ c, lastValue v (cks c).Name = env.cks.Get (cks c)) ∧
      ∀ name, (∀ c, ¬ strcaseeq name (cks c).Name) → lastValue v name = lastValue values name := by
  have hread : ∀ name, lastValue (parse (serialise v)).2 name = lastValue v name := by
    intro name
    rw [parse_serialise hv, lastValue_upperName]
  constructor
  · rintro ⟨-, hnew, hkept⟩
    simp only [hread] at hnew hkept
    exact ⟨hnew, hkept⟩
  · rintro ⟨hnew, hkept⟩
    refine ⟨by rw [parse_serialise hv], fun c => ?_, fun name hname => ?_⟩
    · rw [hread, hnew]
    · rw [hread, hkept name hname]

variable {p : HPath} {schedule : List Bool} {last : Option Bool} {ph : Bool → Phase env} {w : World}
  {wrote : Bool → Option (ChecksumValues × ℤ)}

/-- What a call read that wrote nothing or something. -/
theorem Racing.returned_goesBy {old : Bytes} (h : Racing p old cks schedule last ph w) {c : Bool}
    (hret : ph c = .returned 0 (wrote c)) : ∃ text, (parse text).1 = 0 ∧
      merge (cks c) (env.cks.Get (cks c)) (parse text).2 = (wrote c).map Prod.fst ∧ Source old schedule ph last c text := by
  obtain ⟨text, hby, hsource⟩ := h.goesBy (c := c) (by rw [hret]; simp) (by
    rw [hret]
    cases wrote c with
    | none => exact fun hf => hf rfl
    | some r => exact id)
  rw [hret] at hby
  refine ⟨text, ?_, ?_, hsource⟩
  · cases hw : wrote c with
    | none =>
      rw [hw] at hby
      exact hby.2.1
    | some r =>
      rw [hw] at hby
      exact hby.1
  · cases hw : wrote c with
    | none =>
      rw [hw] at hby
      exact hby.2.2
    | some r =>
      rw [hw] at hby
      exact hby.2

/-- What a call that read the old record found there: if it wrote nothing, its value; otherwise another one. -/
theorem read_old {c : Bool} (hgood : ∀ c, GoodEntry ((cks c).Name, env.cks.Get (cks c))) (hvalues : ∀ e ∈ values, GoodEntry e)
    (hone : OneEach values) {o : Option ChecksumValues}
    (hm : merge (cks c) (env.cks.Get (cks c)) (parse (serialise values)).2 = o) :
    lastValue values (cks c).Name = env.cks.Get (cks c) ↔ o = none := by
  rw [parse_serialise hvalues] at hm
  rw [← lastValue_upperName]
  cases o with
  | none => exact iff_of_true (hone.upperName.lastValue_of_merge hm) rfl
  | some v => exact iff_of_false (lastValue_ne_of_merge (hgood c).2.1 hm) (by simp)

/-- What a call writes that read the values `read` has its own value.  The question is what it has of the other call's, and
what `read` had of all other names. -/
theorem hasBoth_merged {x : Bool} {read : ChecksumValues} (hv : ∀ e ∈ v, GoodEntry e)
    (hm : merge (cks x) (env.cks.Get (cks x)) read = some v) :
    HasBoth env cks values (serialise v) ↔ lastValue v (cks !x).Name = env.cks.Get (cks !x) ∧
      ∀ name, (∀ c, ¬ strcaseeq name (cks c).Name) → lastValue read name = lastValue values name := by
  obtain ⟨hnew, hold⟩ := (merge_spec (cks x) (env.cks.Get (cks x)) read).2 v hm
  rw [hasBoth_serialise hv]
  have hkept : (∀ name, (∀ c, ¬ strcaseeq name (cks c).Name) → lastValue v name = lastValue values name) ↔
      ∀ name, (∀ c, ¬ strcaseeq name (cks c).Name) → lastValue read name = lastValue values name := by
    refine forall₂_congr fun name hname => ?_
    rw [hold name (hname x)]
  rw [hkept]
  refine and_congr_left fun _ => ⟨fun hc => hc _, fun hc c => ?_⟩
  rcases eq_or_ne c x with rfl | hcx
  · exact hnew
  · rwa [Bool.eq_not_of_ne hcx]

/-- **The record when both calls have returned 0.** -/
theorem Racing.hasBoth_iff (hne : ¬ strcaseeq (cks true).Name (cks false).Name)
    (hgood : ∀ c, GoodEntry ((cks c).Name, env.cks.Get (cks c))) (hvalues : ∀ e ∈ values, GoodEntry e) (hone : OneEach values)
    (h : Racing p (serialise values) cks schedule last ph w) (hret : ∀ c, ph c = .returned 0 (wrote c))
    (hpos : ∀ c r, wrote c = some r → 0 < r.2) :
    (∃ F, w.fs.view p = some F ∧ HasBoth env cks values F) ↔ (∃ c, wrote c = none) ∨ ∃ c, After c schedule := by
  have hopened : ∀ c, (ph c).Opened ↔ wrote c ≠ none := by
    intro c
    rw [hret c]
    cases wrote c with
    | none => exact iff_of_false id (by simp)
    | some r => exact iff_of_true trivial (by simp)
  have hwrote : ∀ c t, (ph c).Wrote t → ∃ v r, wrote c = some (v, r) ∧ t = serialise v := by
    intro c t hw
    rw [hret c] at hw
    cases hc : wrote c with
    | none =>
      rw [hc] at hw
      exact hw.elim
    | some r =>
      rw [hc] at hw
      exact ⟨r.1, r.2, rfl, hw (hpos c r hc)⟩
  have hnames : ∀ c, ¬ strcaseeq (cks !c).Name (cks c).Name := by
    intro c
    cases c with
    | false => exact hne
    | true => rwa [strcaseeq_comm]
  have hrecord := h.record
  cases last with
  | none =>
    -- neither call has created the record: it is the old one, and has both values
    obtain ⟨hno, hview⟩ := hrecord
    have hnone : ∀ c, wrote c = none := fun c => not_not.1 fun hc => hno c ((hopened c).2 hc)
    refine iff_of_true ⟨_, hview, (hasBoth_serialise hvalues).2 ⟨fun c => ?_, fun _ _ => rfl⟩⟩ (Or.inl ⟨true, hnone true⟩)
    obtain ⟨text, -, hm, hsource⟩ := h.returned_goesBy (hret c)
    rcases hsource.cases with ⟨rfl, -⟩ | ⟨-, ho, -⟩ | ⟨hw, -⟩
    · exact (read_old hgood hvalues hone hm).2 (by rw [hnone c]; rfl)
    · exact absurd ho (hno _)
    · exact absurd hw.opened (hno _)
  | some x =>
    obtain ⟨ho, t, hview, hcase⟩ := hrecord
    have hw : (ph x).Wrote t := by
      rcases hcase with hw | ⟨⟨values, fh, hp⟩, -⟩
      · exact hw
      · rw [hret x] at hp
        cases hp
    obtain ⟨v, r, hx, rfl⟩ := hwrote x t hw
    obtain ⟨tx, -, hmx, hsx⟩ := h.returned_goesBy (hret x)
    obtain ⟨ty, -, hmy, hsy⟩ := h.returned_goesBy (hret !x)
    have hsy' := hsy.cases
    have hearly := hsy.early
    rw [hx] at hmx
    rw [Bool.not_not] at hsy' hearly
    have hv : ∀ e ∈ v, GoodEntry e := goodEntry_merge (hgood x).1 (hgood x).2 (goodEntry_parse tx) hmx
    have hother := ((merge_spec (cks x) (env.cks.Get (cks x)) (parse tx).2).2 v hmx).2 _ (hnames x)
    simp only [hview, Option.some.injEq, exists_eq_left']
    rw [hasBoth_merged hv hmx]
    cases hy : wrote (!x) with
    | none =>
      -- the other call wrote nothing, and the last one read the old record
      have hnot : ¬ (ph !x).Opened := fun ho => (hopened _).1 ho hy
      rw [hy] at hmy
      refine iff_of_true ?_ (Or.inl ⟨!x, hy⟩)
      obtain rfl : tx = serialise values := by
        rcases hsx.cases with ⟨heq, -⟩ | ⟨-, ho, -⟩ | ⟨hw, -⟩
        · exact heq
        · exact absurd ho hnot
        · exact absurd hw.opened hnot
      have hread : ∀ name, lastValue (parse (serialise values)).2 name = lastValue values name := by
        intro name
        rw [parse_serialise hvalues, lastValue_upperName]
      refine ⟨?_, fun name _ => hread name⟩
      rcases hsy' with ⟨rfl, -⟩ | ⟨rfl, -⟩ | ⟨hw', -⟩
      · rw [hother, hread]
        exact (read_old hgood hvalues hone hmy).2 rfl
      · obtain ⟨e, he, -⟩ := (merge_spec _ _ _).1.1 hmy
        cases he
      · obtain ⟨v', r', hx', rfl⟩ := hwrote x ty hw'
        obtain ⟨rfl, rfl⟩ : v = v' ∧ r = r' := by simpa [hx] using hx'
        have honev : OneEach v := by
          refine OneEach.merge ?_ hmx
          rw [parse_serialise hvalues]
          exact hone.upperName
        exact (read_old hgood hv honev hmy).2 rfl
    | some r' =>
      obtain ⟨rfl, hafter⟩ := hearly ((hopened _).2 (by rw [hy]; simp)) rfl
      rw [hy] at hmy
      have hlost : lastValue values (cks !x).Name ≠ env.cks.Get (cks !x) := by
        intro heq
        cases (read_old hgood hvalues hone hmy).1 heq
      have hcond : (∃ c, wrote c = none) ∨ (∃ c, After c schedule) ↔ After x schedule := by
        constructor
        · rintro (⟨c, hc⟩ | ⟨c, hc⟩)
          · rcases eq_or_ne c x with rfl | hcx
            · rw [hx] at hc
              cases hc
            · rw [Bool.eq_not_of_ne hcx, hy] at hc
              cases hc
          · rcases eq_or_ne c x with rfl | hcx
            · exact hc
            · rw [Bool.eq_not_of_ne hcx] at hc
              exact absurd hc hafter
        · exact fun hc => Or.inr ⟨x, hc⟩
      rw [hcond, hother]
      rcases hsx.cases with ⟨rfl, hno⟩ | ⟨rfl, -, hno⟩ | ⟨hw', hyes⟩
      · -- both read the old record
        refine iff_of_false (fun hc => hlost ?_) (hno ((hopened _).2 (by rw [hy]; simp)))
        rw [← hc.1, parse_serialise hvalues, lastValue_upperName]
      · -- the last call read the record before the other one had written it
        exact iff_of_false (fun hc => (hgood !x).2.1 hc.1.symm) hno
      · -- the last call read what the other one had written
        refine iff_of_true ?_ hyes
        obtain ⟨v', r'', hy', rfl⟩ := hwrote (!x) tx hw'
        obtain rfl : r' = (v', r'') := by simpa [hy] using hy'
        have hv' : ∀ e ∈ v', GoodEntry e := goodEntry_merge (hgood _).1 (hgood _).2 (goodEntry_parse _) hmy
        obtain ⟨hnew', hold'⟩ := (merge_spec (cks !x) (env.cks.Get (cks !x)) _).2 v' hmy
        refine ⟨by rw [parse_serialise hv', lastValue_upperName, hnew'], fun name hname => ?_⟩
        rw [parse_serialise hv', lastValue_upperName, hold' name (hname _), parse_serialise hvalues, lastValue_upperName]

end Final

/-- HDFS with a record of `/a`. -/
def raceWorld : World where
  fs := .ofFiles [(str "/cksums/a", serialise [(str "CRC32", str "01")])]

/-- Two digests to set. -/
def raceCks (c : Bool) : XrdCksData := if c then .of (str "md5") [0xaa] else .of (str "adler32") [0xbb]

/-- The schedule of two calls of which one comes after the other. -/
def inTurn : List Bool := List.replicate 5 true ++ List.replicate 5 false

end XrdHdfs
