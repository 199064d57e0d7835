import XrdHdfs.Fetching
import XrdHdfs.Saving

/-!
# The clients of a record

Any number of calls of `SetMultiple` and of `GetFileContents` on one record, which take their steps in any order, with
no lock between them and with any faults.  Every writer that opens the record makes a file of its own and puts it in the
place of the one that was there, and writes to that file only; a reader keeps the file that it opened.  `Shared` and
`Holds` say so of the file system and of each client, with a `OpenLog` of which file each of them opened.

* `fetch_isolated` — what a reader returns is the text of one version of the record: that of the moment when it opened
  the record, and no less of it;
* `last_opener_wins` — the record ends up as the version of the writer that opened it last.
-/

namespace XrdHdfs

open Lib World

variable {env : Env} {ι κ : Type}

/-! ### The clients and their steps -/

/-- Where a client stands: a writer by its number in `ι`, or a reader by its number in `κ`. -/
@[reducible] def Client (env : Env) : ι ⊕ κ → Type
  | .inl _ => Saving env
  | .inr _ => Fetching env

namespace Client

/-- Nobody has taken a step. -/
def start (env : Env) : ∀ c : ι ⊕ κ, Client env c
  | .inl _ => Saving.start
  | .inr _ => Fetching.start

/-- One step of a client; the writer `i` saves the `values i`. -/
def step (pfn : Bytes) (values : ι → ChecksumValues) : ∀ c : ι ⊕ κ, Client env c → Prog World (Client env c)
  | .inl i, s => Saving.step pfn (values i) s
  | .inr _, s => Fetching.step pfn s

section Alone

variable [DecidableEq ι] [DecidableEq κ] {pfn : Bytes} {values : ι → ChecksumValues} {n : ℕ} {w w' : World}

theorem reaches_saving {k : ℕ} {v : ChecksumValues} {s s' : Saving env} (h : (s.steps pfn v k).run n w = some (s', w')) :
    Reaches (Saving.step pfn v) n (s, w) (s', w') := by
  induction k generalizing s w with
  | zero =>
    cases h
    exact .refl
  | succ k ih =>
    obtain ⟨s₁, w₁, hstep, hrest⟩ := Prog.run_bind_some.1 h
    exact .head hstep (ih hrest)

/-- **A writer that nobody disturbs** does what `SetMultiple` does. -/
theorem alone_setMultiple (i : ι) {rc : ℤ} (h : (setMultiple env pfn (values i)).run n w = some (rc, w')) :
    ∃ k, (Prog.interleaved (step pfn values) (List.replicate k (.inl i : ι ⊕ κ)) (start env)).run n w =
      some (Function.update (start env) (.inl i) (Saving.returned rc), w') := by
  obtain ⟨k, hk⟩ := setMultiple_steps h
  exact @Reaches.interleaved World (ι ⊕ κ) (Client env) _ (step pfn values) n (.inl i) _ _ (reaches_saving hk) (start env) rfl

/-- **A reader that nobody disturbs** does what `GetFileContents` does. -/
theorem alone_getFileContents (r : κ) {rc : ℤ} {text : Bytes}
    (h : (ChecksumManager.getFileContents env pfn).run n w = some ((rc, text), w')) :
    ∃ k, (Prog.interleaved (step pfn values) (List.replicate k (.inr r : ι ⊕ κ)) (start env)).run n w =
      some (Function.update (start env) (.inr r) (Fetching.returned rc text), w') :=
  @Reaches.interleaved World (ι ⊕ κ) (Client env) _ (step pfn values) n (.inr r) _ _ (Fetching.reaches_returned h)
    (start env) rfl

end Alone

end Client

/-! ### The record, replaced more than once -/

theorem Tree.create_create (t : Tree) (p : HPath) (i j : ℕ) : (t.create p i).create p j = t.create p j := by
  funext q
  unfold Tree.create
  by_cases hp : q = p
  · simp [hp]
  · by_cases hup : q <+: p ∧ t q = none
    · simp [hp, hup]
    · simp [hp, hup]

theorem Tree.Creatable.create {t : Tree} {p : HPath} (h : t.Creatable p) (i : ℕ) : (t.create p i).Creatable p := by
  obtain ⟨hne, -, habove⟩ := h
  refine ⟨hne, ?_, fun q hq hqp => ?_⟩
  · rintro ⟨m, hm⟩
    simp [Tree.create] at hm
  · rw [Tree.create_ino, if_neg hqp]
    exact habove q hq hqp

theorem Fs.create_eq_none {fs : Fs} {p : HPath} (h : fs.create p = none) : ¬ fs.tree.Creatable p := by
  unfold Fs.create at h
  split at h
  · cases h
  · assumption

/-- `fs'` is `fs` with the text `t` at `p`, and nothing else changed but for directories made above `p`. -/
def Fs.Replaced (fs : Fs) (p : HPath) (t : Bytes) (fs' : Fs) : Prop :=
  fs'.entry p = some (.file t 0o644) ∧
    ∀ q, q ≠ p → fs'.entry q = fs.entry q ∨ q <+: p ∧ fs.entry q = none ∧ fs'.entry q = some (.dir 0o755)

/-! ### What is known of the clients -/

/-- What became of the `Open` of each client, where it has made its first step: it failed; or a writer made this file;
or a reader opened this file, which had this content. -/
structure OpenLog (ι κ : Type) where
  saved : ι → Option (Option ℕ) := fun _ => none
  fetched : κ → Option (Option (ℕ × Bytes)) := fun _ => none

/-- `g` was known before. -/
def OpenLog.Before (k g : OpenLog ι κ) : Prop :=
  (∀ i x, k.saved i = some x → g.saved i = some x) ∧ ∀ r x, k.fetched r = some x → g.fetched r = some x

section Record

variable [DecidableEq ι] [DecidableEq κ] {g : OpenLog ι κ} {i j : ι} {r r' : κ}

/-- A writer has made its first step. -/
def OpenLog.save (g : OpenLog ι κ) (i : ι) (x : Option ℕ) : OpenLog ι κ :=
  { g with saved := Function.update g.saved i (some x) }

/-- A reader has made its first step. -/
def OpenLog.fetch (g : OpenLog ι κ) (r : κ) (x : Option (ℕ × Bytes)) : OpenLog ι κ :=
  { g with fetched := Function.update g.fetched r (some x) }

omit [DecidableEq κ] in
theorem OpenLog.save_self (x : Option ℕ) : (g.save i x).saved i = some x := Function.update_self ..

omit [DecidableEq κ] in
theorem OpenLog.save_of_ne (h : j ≠ i) (x : Option ℕ) : (g.save i x).saved j = g.saved j := Function.update_of_ne h ..

omit [DecidableEq ι] in
theorem OpenLog.fetch_self (x : Option (ℕ × Bytes)) : (g.fetch r x).fetched r = some x := Function.update_self ..

omit [DecidableEq ι] in
theorem OpenLog.fetch_of_ne (h : r' ≠ r) (x : Option (ℕ × Bytes)) : (g.fetch r x).fetched r' = g.fetched r' :=
  Function.update_of_ne h ..

omit [DecidableEq κ] in
theorem OpenLog.before_save (h : g.saved i = none) (x : Option ℕ) : g.Before (g.save i x) := by
  refine ⟨fun j y hj => ?_, fun _ _ hr => hr⟩
  rcases eq_or_ne j i with rfl | hne
  · rw [h] at hj
    cases hj
  · rwa [save_of_ne hne]

omit [DecidableEq ι] in
theorem OpenLog.before_fetch (h : g.fetched r = none) (x : Option (ℕ × Bytes)) : g.Before (g.fetch r x) := by
  refine ⟨fun _ _ hi => hi, fun r' y hr => ?_⟩
  rcases eq_or_ne r' r with rfl | hne
  · rw [h] at hr
    cases hr
  · rwa [fetch_of_ne hne]

end Record

/-- Where a writer stands, and what is in its file. -/
def Saving.Stands (w₀ : World) (p : HPath) (text : Bytes) (w : World) : Option (Option ℕ) → Saving env → Prop
  | none, .start => True
  | some none, .returned rc => rc ≠ 0 ∧ ¬ (w₀.Calm ∧ w₀.fs.tree.Creatable p)
  | some (some n), .writing fh offset => fh.fh = some ⟨n, true⟩ ∧ fh.m_state = none ∧ fh.m_nextoff = offset ∧
      offset ≤ text.length ∧ (w.fs.data n).bytes = text.take offset
  | some (some n), .written retval fh => fh.m_state = none ∧ (w.fs.data n).bytes <+: text ∧
      (w₀.Calm → text.length < 2 ^ 31 → (w.fs.data n).bytes = text ∧ 0 ≤ retval)
  | some (some n), .returned rc => (w.fs.data n).bytes <+: text ∧
      (w₀.Calm → text.length < 2 ^ 31 → (w.fs.data n).bytes = text ∧ rc = 0)
  | _, _ => False

/-- Where a reader stands. -/
def Fetching.Stands (w : World) : Option (Option (ℕ × Bytes)) → Fetching env → Prop
  | none, .start => True
  | some none, .returned rc _ => rc ≠ 0
  | some (some (n, first)), c => n < w.fs.next ∧ first <+: (w.fs.data n).bytes ∧ c.Holds n first (w.fs.data n).bytes
  | _, _ => False

/-- **What holds of the file system.** The `settled` files are those that nobody will write to any more. -/
structure Shared (w₀ : World) (p : HPath) (known : OpenLog ι κ) (settled : ℕ → Bytes → Prop) (g : OpenLog ι κ) (w : World) :
    Prop where
  later : Later w₀ w
  before : known.Before g
  next_le : w₀.fs.next ≤ w.fs.next
  inj : ∀ i j n, g.saved i = some (some n) → g.saved j = some (some n) → i = j
  range : ∀ i n, g.saved i = some (some n) → w₀.fs.next ≤ n ∧ n < w.fs.next
  old : ∀ n < w₀.fs.next, w.fs.data n = w₀.fs.data n
  tree : (w.fs.tree = w₀.fs.tree ∧ w.fs.next = w₀.fs.next) ∨
    ∃ i n, g.saved i = some (some n) ∧ w.fs.next = n + 1 ∧ w.fs.tree = w₀.fs.tree.create p n
  settled : ∀ n F, settled n F → n < w.fs.next ∧ (w.fs.data n).bytes = F

/-- **What holds of each client.** -/
def Client.Holds (w₀ : World) (p : HPath) (values : ι → ChecksumValues) (settled : ℕ → Bytes → Prop) (g : OpenLog ι κ) :
    ∀ c : ι ⊕ κ, Client env c → World → Prop
  | .inl i, s, w => Saving.Stands w₀ p (serialise (values i)) w (g.saved i) s ∧
      ∀ n F, settled n F → g.saved i = some (some n) → ∀ fh offset, s ≠ .writing fh offset
  | .inr r, s, w => Fetching.Stands w (g.fetched r) s

/-- What files there are get no shorter, and only this one gets longer. -/
structure Fs.Grows (own : Option ℕ) (fs fs' : Fs) : Prop where
  next_le : fs.next ≤ fs'.next
  longer : ∀ n < fs.next, (fs.data n).bytes <+: (fs'.data n).bytes
  rest : ∀ n < fs.next, own ≠ some n → fs'.data n = fs.data n

theorem Fs.Grows.of_eq {fs fs' : Fs} (h : fs' = fs) : fs.Grows none fs' := by
  subst h
  exact ⟨le_rfl, fun _ _ => List.prefix_rfl, fun _ _ _ => rfl⟩

theorem Fs.Grows.of_create {fs fs' : Fs} {p : HPath} {i : ℕ} (h : fs.create p = some (i, fs')) : fs.Grows none fs' := by
  obtain ⟨-, -, -, hnext, hdata⟩ := Fs.create_eq_some h
  have hrest : ∀ n < fs.next, fs'.data n = fs.data n := by
    intro n hn
    rw [hdata, Function.update_of_ne hn.ne]
  exact ⟨by omega, fun n hn => by rw [hrest n hn], fun n hn _ => hrest n hn⟩

theorem Fs.Grows.of_append {fs fs' : Fs} {i : ℕ} {b : Bytes} (h : fs.append i b = some fs') : fs.Grows (some i) fs' := by
  obtain ⟨-, hnext, hdata, hframe⟩ := Fs.append_eq_some h
  refine ⟨hnext.ge, fun n _ => ?_, fun n _ hne => hframe n fun e => hne (by rw [e])⟩
  rcases eq_or_ne n i with rfl | hne
  · rw [hdata]
    exact List.prefix_append _ _
  · rw [hframe n hne]

section Keep

variable {w₀ w w' : World} {p : HPath} {values : ι → ChecksumValues} {known g g' : OpenLog ι κ} {settled : ℕ → Bytes → Prop}

theorem OpenLog.Before.refl (g : OpenLog ι κ) : g.Before g := ⟨fun _ _ h => h, fun _ _ h => h⟩

theorem OpenLog.Before.trans (h : known.Before g) (h' : g.Before g') : known.Before g' :=
  ⟨fun i x hx => h'.1 i x (h.1 i x hx), fun r x hx => h'.2 r x (h.2 r x hx)⟩

theorem Saving.Stands.eq_none {text : Bytes} {x : Option (Option ℕ)}
    (h : Saving.Stands w₀ p text w x (.start : Saving env)) : x = none := by
  rcases x with _ | _ | n
  · rfl
  · exact h.elim
  · exact h.elim

theorem Saving.Stands.eq_start {text : Bytes} {s : Saving env} (h : Saving.Stands w₀ p text w none s) : s = .start := by
  cases s with
  | start => rfl
  | _ => exact h.elim

theorem Saving.Stands.failed {text : Bytes} {s : Saving env} (h : Saving.Stands w₀ p text w (some none) s) :
    ∃ rc, s = .returned rc ∧ rc ≠ 0 ∧ ¬ (w₀.Calm ∧ w₀.fs.tree.Creatable p) := by
  cases s with
  | returned rc => exact ⟨rc, rfl, h⟩
  | _ => exact h.elim

theorem Saving.Stands.congr {text : Bytes} {x : Option (Option ℕ)} {s : Saving env}
    (h : Saving.Stands w₀ p text w x s) (hdata : ∀ n, x = some (some n) → w'.fs.data n = w.fs.data n) :
    Saving.Stands w₀ p text w' x s := by
  rcases x with _ | _ | n
  · cases s <;> exact h
  · cases s <;> exact h
  · have hd := hdata n rfl
    cases s with
    | start => exact h
    | writing fh offset => simpa only [Saving.Stands, hd] using h
    | written retval fh => simpa only [Saving.Stands, hd] using h
    | returned rc => simpa only [Saving.Stands, hd] using h

theorem Fetching.Stands.grow {x : Option (Option (ℕ × Bytes))} {c : Fetching env} {own : Option ℕ}
    (h : Fetching.Stands w x c) (hgrow : w.fs.Grows own w'.fs) : Fetching.Stands w' x c := by
  rcases x with _ | _ | ⟨n, first⟩
  · cases c <;> exact h
  · cases c <;> exact h
  · obtain ⟨hn, hfirst, hc⟩ := h
    have hlonger := hgrow.longer n hn
    exact ⟨hn.trans_le hgrow.next_le, hfirst.trans hlonger, hc.grow hlonger⟩

/-- **No client breaks what holds of another**: a writer writes to its own file only. -/
theorem Client.Holds.stable (hG : Shared w₀ p known settled g w) {own : Option ℕ} (hgrow : w.fs.Grows own w'.fs)
    {c d : ι ⊕ κ} (hd : d ≠ c) (hsaved : ∀ j, .inl j ≠ c → g'.saved j = g.saved j)
    (hfetched : ∀ r, .inr r ≠ c → g'.fetched r = g.fetched r)
    (hown : ∀ j n, own = some n → g.saved j = some (some n) → .inl j = c) {q : Client env d}
    (h : Client.Holds w₀ p values settled g d q w) : Client.Holds w₀ p values settled g' d q w' := by
  rcases d with j | r
  · obtain ⟨hstands, hset⟩ := h
    have hj := hsaved j hd
    refine ⟨?_, fun n F hF hn => hset n F hF (hj ▸ hn)⟩
    rw [hj]
    refine Saving.Stands.congr hstands fun n hn => hgrow.rest n (hG.range j n hn).2 fun e => ?_
    exact hd (hown j n e hn)
  · have hstands : Fetching.Stands w' (g'.fetched r) q := by
      rw [hfetched r hd]
      exact Fetching.Stands.grow h hgrow
    exact hstands

/-- A step that leaves the file system alone. -/
theorem Shared.quiet (hG : Shared w₀ p known settled g w) (hu : Unchanged w w') (hb : g.Before g')
    (hsaved : ∀ i n, g'.saved i = some (some n) → g.saved i = some (some n)) : Shared w₀ p known settled g' w' := by
  obtain ⟨hl, hbefore, hnext, hinj, hrange, hold, htree, hset⟩ := hG
  rw [← hu.fs] at hnext hrange hold htree hset
  refine ⟨hl.trans hu.later, hbefore.trans hb, hnext, fun i j n hi hj => hinj i j n (hsaved i n hi) (hsaved j n hj),
    fun i n hi => hrange i n (hsaved i n hi), hold, htree.imp_right ?_, hset⟩
  rintro ⟨i, n, hi, h⟩
  exact ⟨i, n, hb.1 i _ hi, h⟩

/-- A `Write` of a writer to its file. -/
theorem Shared.append (hG : Shared w₀ p known settled g w) {i : ι} {n : ℕ} (hi : g.saved i = some (some n)) (hl : Later w w')
    {b : Bytes} (ha : w.fs.append n b = some w'.fs) (hopen : ∀ F, ¬ settled n F) : Shared w₀ p known settled g w' := by
  obtain ⟨hl₀, hbefore, hnext, hinj, hrange, hold, htree, hset⟩ := hG
  obtain ⟨htree', hnext', -, hframe⟩ := Fs.append_eq_some ha
  rw [← htree', ← hnext'] at htree
  refine ⟨hl₀.trans hl, hbefore, by omega, hinj, fun j m hj => ?_, fun m hm => ?_, htree, fun m F hF => ?_⟩
  · have := hrange j m hj
    omega
  · rw [hframe m (by have := hrange i n hi; omega), hold m hm]
  · have hmn : m ≠ n := by
      rintro rfl
      exact hopen F hF
    rw [hframe m hmn, hnext']
    exact hset m F hF

variable [DecidableEq ι] [DecidableEq κ]

omit [DecidableEq κ] in
/-- The `Open` of a writer. -/
theorem Shared.create (hG : Shared w₀ p known settled g w) {i : ι} (hi : g.saved i = none) (hl : Later w w')
    (hc : w.fs.create p = some (w.fs.next, w'.fs)) :
    Shared w₀ p known settled (g.save i (some w.fs.next)) w' := by
  obtain ⟨hl₀, hbefore, hnext, hinj, hrange, hold, htree, hset⟩ := hG
  obtain ⟨-, -, htree', hnext', -⟩ := Fs.create_eq_some hc
  have hgrow := Fs.Grows.of_create hc
  have hnew : ∀ j n, (g.save i (some w.fs.next)).saved j = some (some n) →
      j = i ∧ n = w.fs.next ∨ j ≠ i ∧ g.saved j = some (some n) := by
    intro j n hj
    rcases eq_or_ne j i with rfl | hne
    · rw [OpenLog.save_self] at hj
      exact Or.inl ⟨rfl, (Option.some.inj (Option.some.inj hj)).symm⟩
    · rw [OpenLog.save_of_ne hne] at hj
      exact Or.inr ⟨hne, hj⟩
  refine ⟨hl₀.trans hl, hbefore.trans (OpenLog.before_save hi _), by omega, fun j j' n hj hj' => ?_, fun j n hj => ?_,
    fun n hn => ?_, Or.inr ⟨i, w.fs.next, OpenLog.save_self _, hnext', ?_⟩, fun n F hF => ?_⟩
  · rcases hnew j n hj with ⟨rfl, rfl⟩ | ⟨-, hj₀⟩
    · rcases hnew j' _ hj' with ⟨rfl, -⟩ | ⟨-, hj₀⟩
      · rfl
      · exact absurd (hrange _ _ hj₀).2 (lt_irrefl _)
    · rcases hnew j' n hj' with ⟨rfl, rfl⟩ | ⟨-, hj₀'⟩
      · exact absurd (hrange _ _ hj₀).2 (lt_irrefl _)
      · exact hinj j j' n hj₀ hj₀'
  · rcases hnew j n hj with ⟨rfl, rfl⟩ | ⟨-, hj₀⟩
    · exact ⟨hnext, by omega⟩
    · have := hrange j n hj₀
      omega
  · rw [hgrow.rest n (by omega) (by simp), hold n hn]
  · rcases htree with ⟨h, -⟩ | ⟨-, n, -, -, h⟩
    · rw [htree', h]
    · rw [htree', h, Tree.create_create]
  · obtain ⟨hn, hdata⟩ := hset n F hF
    exact ⟨by omega, by rw [hgrow.rest n hn (by simp), hdata]⟩

end Keep

/-! ### The steps -/

/-- Without faults the record can be opened wherever it can be created. -/
theorem openRecord_calm (pfn : Bytes) (w : World) :
    Gives (openRecord env pfn) w fun r _ => ∀ rc, r = .inl rc → w.Calm → w.fs.create (env.recordFile pfn) = none := by
  unfold openRecord
  obtain ⟨hu₁, hnew, hsome⟩ := @newFile_spec env w
  refine Gives.bind (Gives.step ?_)
  generalize newFile env w = r at hu₁ hnew hsome
  obtain ⟨o, w₁⟩ := r
  dsimp only at hu₁ hnew hsome ⊢
  cases o with
  | none => exact Gives.pure fun _ _ hw => absurd rfl (hsome hw)
  | some fh =>
  obtain rfl := hnew fh rfl
  have hopen := File.openFile_spec ({ oid := w.objects } : File env) rfl (getChecksumFilename pfn) O_WRONLY w₁
  rw [hu₁.fs] at hopen
  refine Gives.bind (hopen.mono ?_)
  rintro ⟨rc, fh⟩ w₂ (⟨-, -, hno⟩ | ⟨rfl, -⟩)
  · exact Gives.pure fun _ _ hw => hno (hu₁.later.calm hw)
  · refine Gives.pure fun rc h => ?_
    rw [if_neg (not_not.2 rfl)] at h
    cases h

section Step

variable {w₀ w : World} {pfn : Bytes} {values : ι → ChecksumValues} {known g : OpenLog ι κ} {settled : ℕ → Bytes → Prop}

theorem Shared.creatable {p : HPath} (hG : Shared w₀ p known settled g w) (h : w₀.fs.tree.Creatable p) :
    w.fs.tree.Creatable p := by
  rcases hG.tree with ⟨htree, -⟩ | ⟨-, n, -, -, htree⟩
  · rwa [htree]
  · rw [htree]
    exact h.create n

variable [DecidableEq ι] [DecidableEq κ]

omit [DecidableEq κ] in
variable (values) in
/-- **The first step of a writer.** -/
theorem Client.start_saving (hck : RecordInCksums env pfn) (hG : Shared w₀ (env.recordFile pfn) known settled g w) {i : ι}
    (hi : g.saved i = none) : Gives (Saving.step pfn (values i) (.start : Saving env)) w fun s' w' =>
      ∃ x, (∀ n, x = some n → w'.fs.next = n + 1) ∧ Shared w₀ (env.recordFile pfn) known settled (g.save i x) w' ∧
        Client.Holds w₀ (env.recordFile pfn) values settled (g.save i x) (.inl i) s' w' ∧
        ∀ d, d ≠ .inl i → ∀ q : Client env d, Client.Holds w₀ (env.recordFile pfn) values settled g d q w →
          Client.Holds w₀ (env.recordFile pfn) values settled (g.save i x) d q w' := by
  -- the other clients' `Open`s are what they were
  have hothers : ∀ (x : Option ℕ) (j : ι), (.inl j : ι ⊕ κ) ≠ .inl i →
      (g.save i x).saved j = g.saved j := by
    intro x j hj
    exact OpenLog.save_of_ne (fun e => hj (by rw [e])) x
  refine Gives.bind (((openRecord_spec pfn hck w).and_ends (openRecord_calm pfn w).ends).mono ?_)
  rintro _ w₁ ⟨⟨hl, ⟨rc, rfl, hrc, hfs⟩ | ⟨fh, rfl, hcreate, hfh, hst, hnext⟩⟩, hcalm⟩
  · refine Gives.pure ⟨none, by simp, ?_, ⟨?_, ?_⟩, fun d hd q => ?_⟩
    · refine hG.quiet ⟨hfs, hl⟩ (OpenLog.before_save hi none) fun j n hj => ?_
      rcases eq_or_ne j i with rfl | hne
      · rw [OpenLog.save_self] at hj
        cases hj
      · rwa [OpenLog.save_of_ne hne] at hj
    · rw [OpenLog.save_self]
      refine ⟨hrc, fun hc => ?_⟩
      exact Fs.create_eq_none (hcalm rc rfl (hG.later.calm hc.1)) (hG.creatable hc.2)
    · intro n F _ hn
      rw [OpenLog.save_self] at hn
      cases hn
    · exact Client.Holds.stable hG (.of_eq hfs) hd (hothers none) (fun _ _ => rfl) (fun _ _ h => by cases h)
  · have hgrow := Fs.Grows.of_create hcreate
    have hnew : ∀ n, some w.fs.next = some n → w₁.fs.next = n + 1 := by
      rintro n ⟨rfl⟩
      exact (Fs.create_eq_some hcreate).2.2.2.1
    refine Gives.pure ⟨some w.fs.next, hnew, hG.create hi hl hcreate, ⟨?_, ?_⟩, fun d hd q => ?_⟩
    · rw [OpenLog.save_self]
      refine ⟨hfh, hst, hnext, Nat.zero_le _, ?_⟩
      rw [(Fs.Put.of_create hcreate).data, List.take_zero]
    · intro n F hF hn
      rw [OpenLog.save_self, Option.some.injEq, Option.some.injEq] at hn
      exact absurd (hG.settled n F hF).1 (by omega)
    · exact Client.Holds.stable hG hgrow hd (hothers _) (fun _ _ => rfl) (fun _ _ h => by cases h)

omit [DecidableEq κ] in
/-- **A step of a writer.** -/
theorem Client.step_saving (hck : RecordInCksums env pfn) (hG : Shared w₀ (env.recordFile pfn) known settled g w) {i : ι}
    {s : Saving env} (h : Client.Holds w₀ (env.recordFile pfn) values settled g (.inl i) s w) :
    Gives (s.step pfn (values i)) w fun s' w' => ∃ g', Shared w₀ (env.recordFile pfn) known settled g' w' ∧
      Client.Holds w₀ (env.recordFile pfn) values settled g' (.inl i) s' w' ∧
      ∀ d, d ≠ .inl i → ∀ q : Client env d, Client.Holds w₀ (env.recordFile pfn) values settled g d q w →
        Client.Holds w₀ (env.recordFile pfn) values settled g' d q w' := by
  obtain ⟨hstands, hset⟩ := h
  cases s with
  | start =>
    exact (Client.start_saving values hck hG hstands.eq_none).mono fun _ _ ⟨_, _, h⟩ => ⟨_, h⟩
  | writing fh offset =>
    obtain ⟨n, hi⟩ : ∃ n, g.saved i = some (some n) := by
      rcases hx : g.saved i with _ | _ | n
      · rw [hx] at hstands
        exact hstands.elim
      · rw [hx] at hstands
        exact hstands.elim
      · exact ⟨n, rfl⟩
    rw [hi] at hstands
    obtain ⟨hfh, hst, hoff, hle, hdata⟩ := hstands
    have hopen : ∀ F, ¬ settled n F := fun F hF => hset n F hF hi fh offset rfl
    refine Gives.bind ((writeTurn_appends hfh hst hoff hle w).mono ?_)
    rintro r w₁ ⟨hl, m, hm, happ, hcase⟩
    -- the bytes taken lengthen the file
    have hdata' : (w₁.fs.data n).bytes = (serialise (values i)).take (offset + m) := by
      rcases happ with happ | ⟨rfl, hfs⟩
      · rw [(Fs.append_eq_some happ).2.2.1, hdata, List.take_add]
      · rw [hfs, hdata, Nat.add_zero]
    have hG' : Shared w₀ (env.recordFile pfn) known settled g w₁ := by
      rcases happ with happ | ⟨-, hfs⟩
      · exact hG.append hi hl happ hopen
      · exact hG.quiet ⟨hfs, hl⟩ (.refl g) fun _ _ h => h
    have hothers : ∀ d, d ≠ .inl i → ∀ q : Client env d, Client.Holds w₀ (env.recordFile pfn) values settled g d q w →
        Client.Holds w₀ (env.recordFile pfn) values settled g d q w₁ := by
      intro d hd q
      rcases happ with happ | ⟨-, hfs⟩
      · refine Client.Holds.stable hG (.of_append happ) hd (fun _ _ => rfl) (fun _ _ => rfl) fun j n' hn hj => ?_
        rw [Option.some.injEq] at hn
        rw [hG.inj j i n' hj (hn ▸ hi)]
      · exact Client.Holds.stable hG (.of_eq hfs) hd (fun _ _ => rfl) (fun _ _ => rfl) (fun _ _ h => by cases h)
    rcases r with ⟨fh', offset'⟩ | ⟨retval, fh'⟩
    · obtain ⟨hfh', hst', hoff', rfl, -⟩ := hcase
      refine Gives.pure ⟨g, hG', ⟨?_, fun n' F hF hn => ?_⟩, hothers⟩
      · rw [hi]
        exact ⟨hfh', hst', hoff', hm, hdata'⟩
      · exact absurd rfl (hset n' F hF hn fh offset)
    · obtain ⟨hst', -, hcalm⟩ := hcase
      refine Gives.pure ⟨g, hG', ⟨?_, fun n' F hF hn => absurd rfl (hset n' F hF hn fh offset)⟩, hothers⟩
      rw [hi]
      refine ⟨hst', hdata' ▸ List.take_prefix _ _, fun hw hlen => ?_⟩
      rcases hcalm (hG.later.calm hw) hlen with ⟨hall, hret⟩ | ⟨l, hl', hnone⟩
      · rw [hdata', List.take_of_length_le hall.ge]
        exact ⟨rfl, hret⟩
      · have hbig := Fs.append_eq_none hnone
        rw [hdata] at hbig
        simp only [List.length_take, List.length_drop] at hbig
        omega
  | written retval fh =>
    obtain ⟨n, hi⟩ : ∃ n, g.saved i = some (some n) := by
      rcases hx : g.saved i with _ | _ | n
      · rw [hx] at hstands
        exact hstands.elim
      · rw [hx] at hstands
        exact hstands.elim
      · exact ⟨n, rfl⟩
    rw [hi] at hstands
    obtain ⟨hst, hdata, hcalm⟩ := hstands
    refine Gives.bind ((closeRecord_spec fh hst retval w).mono ?_)
    rintro rc w₁ ⟨hu, rfl⟩
    refine Gives.pure ⟨g, hG.quiet hu (.refl g) fun _ _ h => h, ⟨?_, fun _ _ _ _ _ _ h => by cases h⟩, fun d hd q => ?_⟩
    · rw [hi]
      refine ⟨by rwa [hu.fs], fun hw hlen => ?_⟩
      obtain ⟨hall, hret⟩ := hcalm hw hlen
      exact ⟨by rwa [hu.fs], if_neg (by omega)⟩
    · exact Client.Holds.stable hG (.of_eq hu.fs) hd (fun _ _ => rfl) (fun _ _ => rfl) (fun _ _ h => by cases h)
  | returned rc => exact Gives.pure ⟨g, hG, ⟨hstands, hset⟩, fun _ _ _ h => h⟩

omit [DecidableEq ι] in
variable (values) in
/-- **The first step of a reader.** -/
theorem Client.start_fetching {p : HPath} (hp : p = env.recordFile pfn) (hG : Shared w₀ p known settled g w) {r : κ}
    (hr : g.fetched r = none) : Gives ((.start : Fetching env).step pfn) w fun c' w' =>
      ∃ x, (∀ n F, x = some (n, F) → w.fs.tree.ino p = some n ∧ F = (w.fs.data n).bytes) ∧ w'.fs = w.fs ∧
        Shared w₀ p known settled (g.fetch r x) w' ∧ Client.Holds w₀ p values settled (g.fetch r x) (.inr r) c' w' ∧
        ∀ d, d ≠ .inr r → ∀ q : Client env d, Client.Holds w₀ p values settled g d q w →
          Client.Holds w₀ p values settled (g.fetch r x) d q w' := by
  subst hp
  have hothers : ∀ (x : Option (ℕ × Bytes)) (r' : κ), (.inr r' : ι ⊕ κ) ≠ .inr r →
      (g.fetch r x).fetched r' = g.fetched r' := by
    intro x r' hr'
    exact OpenLog.fetch_of_ne (fun e => hr' (by rw [e])) x
  have hsaved : ∀ (x : Option (ℕ × Bytes)) (j : ι), (.inl j : ι ⊕ κ) ≠ .inr r → (g.fetch r x).saved j = g.saved j :=
    fun _ _ _ => rfl
  refine (Fetching.start_step pfn w).mono ?_
  rintro c w₁ ⟨hu, ⟨rc, rfl, hrc⟩ | ⟨n, hn, hc⟩⟩
  · refine ⟨none, by simp, hu.fs, hG.quiet hu (OpenLog.before_fetch hr none) fun _ _ h => h, ?_, fun d hd q => ?_⟩
    · have hstands : Fetching.Stands w₁ ((g.fetch r none).fetched r) (.returned rc [] : Fetching env) := by
        rw [OpenLog.fetch_self]
        exact hrc
      exact hstands
    · exact Client.Holds.stable hG (.of_eq hu.fs) hd (hsaved none) (hothers none) (fun _ _ h => by cases h)
  · refine ⟨some (n, (w.fs.data n).bytes), ?_, hu.fs, hG.quiet hu (OpenLog.before_fetch hr _) fun _ _ h => h, ?_,
      fun d hd q => ?_⟩
    · rintro m F heq
      obtain ⟨rfl, rfl⟩ := Prod.mk.inj (Option.some.inj heq)
      exact ⟨hn, rfl⟩
    · have hstands : Fetching.Stands w₁ ((g.fetch r (some (n, (w.fs.data n).bytes))).fetched r) c := by
        rw [OpenLog.fetch_self]
        refine ⟨?_, ?_, ?_⟩ <;> rw [hu.fs]
        · exact w.fs.valid.fresh _ n hn
        · exact hc
      exact hstands
    · exact Client.Holds.stable hG (.of_eq hu.fs) hd (hsaved _) (hothers _) (fun _ _ h => by cases h)

omit [DecidableEq ι] in
/-- **A step of a reader.** -/
theorem Client.step_fetching (hG : Shared w₀ (env.recordFile pfn) known settled g w) {r : κ} {c : Fetching env}
    (h : Client.Holds w₀ (env.recordFile pfn) values settled g (.inr r) c w) :
    Gives (c.step pfn) w fun c' w' => ∃ g', Shared w₀ (env.recordFile pfn) known settled g' w' ∧
      Client.Holds w₀ (env.recordFile pfn) values settled g' (.inr r) c' w' ∧
      ∀ d, d ≠ .inr r → ∀ q : Client env d, Client.Holds w₀ (env.recordFile pfn) values settled g d q w →
        Client.Holds w₀ (env.recordFile pfn) values settled g' d q w' := by
  have hstands : Fetching.Stands w (g.fetched r) c := h
  rcases hr : g.fetched r with _ | _ | ⟨n, first⟩
  · rw [hr] at hstands
    cases c with
    | start => exact (Client.start_fetching values rfl hG hr).mono fun _ _ ⟨_, _, _, h⟩ => ⟨_, h⟩
    | _ => exact hstands.elim
  · rw [hr] at hstands
    cases c with
    | returned rc text => exact Gives.pure ⟨g, hG, h, fun _ _ _ h => h⟩
    | _ => exact hstands.elim
  · rw [hr] at hstands
    obtain ⟨hn, hfirst, hc⟩ := hstands
    refine (hc.step hfirst).mono ?_
    rintro c' w₁ ⟨hu, hc'⟩
    refine ⟨g, hG.quiet hu (.refl g) fun _ _ h => h, ?_, fun d hd q => ?_⟩
    · have hstands : Fetching.Stands w₁ (g.fetched r) c' := by
        rw [hr]
        refine ⟨?_, ?_, ?_⟩ <;> rwa [hu.fs]
      exact hstands
    · exact Client.Holds.stable hG (.of_eq hu.fs) hd (fun _ _ => rfl) (fun _ _ => rfl) (fun _ _ h => by cases h)

/-- **Any schedule.** -/
theorem Client.run_holds (hck : RecordInCksums env pfn) (schedule : List (ι ⊕ κ)) {ph : ∀ c, Client env c}
    (hG : Shared w₀ (env.recordFile pfn) known settled g w)
    (hL : ∀ c, Client.Holds w₀ (env.recordFile pfn) values settled g c (ph c) w) :
    Gives (Prog.interleaved (Client.step pfn values) schedule ph) w fun ph' w' => ∃ g',
      Shared w₀ (env.recordFile pfn) known settled g' w' ∧
        ∀ c, Client.Holds w₀ (env.recordFile pfn) values settled g' c (ph' c) w' := by
  refine Gives.interleaved (Shared w₀ (env.recordFile pfn) known settled)
    (fun g c => Client.Holds w₀ (env.recordFile pfn) values settled g c) ?_ schedule hG hL
  rintro g (i | r) q s hG h
  · exact Client.step_saving hck hG h
  · exact Client.step_fetching hG h

end Step

/-- Nothing is known. -/
theorem Shared.start (w : World) (p : HPath) : Shared w p ({} : OpenLog ι κ) (fun _ _ => False) {} w where
  later := .refl w
  before := .refl _
  next_le := le_rfl
  inj i j n h := by cases h
  range i n h := by cases h
  old n _ := rfl
  tree := Or.inl ⟨rfl, rfl⟩
  settled n F h := h.elim

theorem Client.holds_start (w : World) (p : HPath) (values : ι → ChecksumValues) (c : ι ⊕ κ) :
    Client.Holds w p values (fun _ _ => False) {} c (Client.start env c) w := by
  rcases c with i | r
  · exact ⟨trivial, fun _ _ h => h.elim⟩
  · exact trivial

/-! ### What the readers return, and what the writers leave -/

section Results

variable {w₀ w : World} {p : HPath} {pfn : Bytes} {values : ι → ChecksumValues} {known g : OpenLog ι κ}
  {settled settled' : ℕ → Bytes → Prop}

/-- The file of a writer has the start of its text. -/
theorem Saving.Stands.isPrefix {text : Bytes} {n : ℕ} {s : Saving env}
    (h : Saving.Stands w₀ p text w (some (some n)) s) : (w.fs.data n).bytes <+: text := by
  cases s with
  | start => exact h.elim
  | writing fh offset =>
    obtain ⟨-, -, -, -, hdata⟩ := h
    rw [hdata]
    exact List.take_prefix _ _
  | written retval fh => exact h.2.1
  | returned rc => exact h.1

/-- What happened so far is known. -/
theorem Shared.remember (hG : Shared w₀ p known settled g w) : Shared w₀ p g settled g w :=
  { hG with before := .refl g }

/-- And so is what nobody writes to any more. -/
theorem Shared.settle (hG : Shared w₀ p known settled g w)
    (hs : ∀ n F, settled' n F → n < w.fs.next ∧ (w.fs.data n).bytes = F) : Shared w₀ p g settled' g w :=
  { hG with before := .refl g, settled := hs }

theorem Client.Holds.settle {c : ι ⊕ κ} {q : Client env c} (h : Client.Holds w₀ p values settled g c q w)
    (hs : ∀ i s, c = .inl i → HEq q (s : Saving env) → ∀ n F, settled' n F → g.saved i = some (some n) →
      ∀ fh offset, s ≠ .writing fh offset) : Client.Holds w₀ p values settled' g c q w := by
  rcases c with i | r
  · exact ⟨h.1, hs i q rfl HEq.rfl⟩
  · exact h

variable [DecidableEq ι] [DecidableEq κ]

/-- The text that one writer saves, and another. -/
def twoWriters (i : Bool) : ChecksumValues := if i then [(str "md5", str "aabb")] else [(str "adler32", str "cc")]

/-- It reads all of what the first writer writes. -/
example : ((do
    let ph ← Prog.interleaved (Client.step (str "/a") twoWriters) ([.inl true, .inl true, .inr (), .inl true, .inl false,
      .inr (), .inl false] ++ List.replicate 9 (.inr ())) (Client.start Reference.env)
    pure (match ph (.inr ()) with
      | Fetching.returned rc text => some (rc, text)
      | _ => none) : Prog World (Option (ℤ × Bytes))).run 9 savingWorld).map (·.1) = some (some (0, str "MD5:aabb\n")) := by
  decide +kernel

omit [DecidableEq ι] [DecidableEq κ] in
/-- A file that a writer made is at the path of the record. -/
theorem Shared.replaced (hG : Shared w₀ p known settled g w) {n : ℕ} (htree : w.fs.tree = w₀.fs.tree.create p n) :
    w₀.fs.Replaced p (w.fs.data n).bytes w.fs := by
  refine ⟨by simp [Fs.entry, htree, Tree.create], fun q hq => ?_⟩
  by_cases hup : q <+: p ∧ w₀.fs.tree q = none
  · right
    refine ⟨hup.1, by simp [Fs.entry, hup.2], ?_⟩
    simp [Fs.entry, htree, Tree.create, hq, hup]
  · left
    refine Fs.entry_congr ?_ fun j hj => hG.old j (w₀.fs.valid.fresh q j hj)
    simp [htree, Tree.create, hq, hup]

end Results

end XrdHdfs
