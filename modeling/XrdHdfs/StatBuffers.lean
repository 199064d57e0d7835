import XrdHdfs.Lib.Numbered
import XrdHdfs.CallLog
import XrdHdfs.Directory

/-!
# One directory object, from its constructor to its destructor

Any calls of `Opendir`, `Readdir`, `StatRet` and `Close` on one `XrdHdfsDirectory`, with whatever others do to HDFS in
between.  `Close` forgets the listing, but not the buffer that `StatRet` registered, and nor does `Opendir`: the next
session begins with a buffer of the last one.  `buffers_iff` says when this shows: when such a session begins with a
`Readdir`.  Every array of `hdfsListDirectory` is freed once, with its number of entries.
-/

namespace XrdHdfs

open Lib World

variable {env : Env}

/-! ### What happens in a run -/

/-- What happens to an array of `hdfsListDirectory`, and with which number of entries. -/
inductive ArrayEvent where
  | obtained (numEntries : ℕ)
  | freed (numEntries : ℕ)
  deriving DecidableEq

/-- An array is obtained or freed, `Opendir` or `StatRet` succeeds, or `Readdir` writes to a buffer for `Stat`. -/
inductive DirEvent where
  | array (number : ℕ) (e : ArrayEvent)
  | opened
  | registered (buf : Option ℕ)
  | filled (buf : ℕ)
  deriving DecidableEq

/-- A call on the object, or what others do between two calls. -/
inductive DirOp where
  | opendir (dir_path : Bytes)
  | readdir (blen : ℕ)
  | statRet (buf : Option ℕ)
  | close
  | others (fs : Fs) (listings : HPath → Option (List FileInfo)) (script : Call → List Answer)

/-- A call with the object before and after it, what it returned, and what happened in it. -/
structure DirStep where
  op : DirOp
  before : Directory
  ret : ℤ
  after : Directory
  events : List DirEvent

/-- The object; when `dh` is not `NULL`, it points to the array with the number `array`. -/
structure DirObject where
  d : Directory := {}
  array : ℕ := 0

/-- How many arrays `hdfsListDirectory` has returned; they are numbered in that order. -/
def World.arrays (w : World) : ℕ := w.calls.countP fun c => c.1.kind = .listDirectory ∧ c.2 = 0

namespace DirObject

/-- `hdfsFreeFileInfo(dh, numEntries)`, if there is an array: what `Close` and the destructor begin with. -/
def free (o : DirObject) : List DirEvent := if o.d.dh.isSome then [.array o.array (.freed o.d.numEntries)] else []

def perform (env : Env) (o : DirObject) : DirOp → Prog World (DirStep × DirObject)
  | .opendir dir_path => do
    let before ← .step fun w => (w.arrays, w)
    let (ret, d) ← o.d.opendir env dir_path
    let after ← .step fun w => (w.arrays, w)
    let obtained := if before < after then [.array before (.obtained d.entries.length)] else []
    pure (⟨.opendir dir_path, o.d, ret, d, obtained ++ if ret = 0 then [.opened] else []⟩,
      ⟨d, if before < after then before else o.array⟩)
  | .readdir blen => do
    let (out, d) ← o.d.readdir blen
    pure (⟨.readdir blen, o.d, out.ret, d, (out.stat.map fun s => .filled s.1).toList⟩, { o with d })
  | .statRet buf => do
    let (ret, d) ← o.d.statRet buf
    pure (⟨.statRet buf, o.d, ret, d, if ret = 0 then [.registered buf] else []⟩, { o with d })
  | .close =>
    let (ret, d) := o.d.close
    pure (⟨.close, o.d, ret, d, if o.d.isopen then o.free else []⟩, { o with d })
  | .others fs listings script => do
    .step fun w => ((), { w with fs, listings, script })
    pure (⟨.others fs listings script, o.d, 0, o.d, []⟩, o)

/-- The calls in turn, and then the destructor. -/
def run (env : Env) : List DirOp → DirObject → Prog World (List DirStep × List DirEvent)
  | [], o => pure ([], o.free)
  | op :: ops, o => do
    let (s, o) ← o.perform env op
    let (steps, events) ← run env ops o
    pure (s :: steps, s.events ++ events)

end DirObject

/-! ### What should hold of it, and when it does -/

/-- `Readdir` writes only to buffers of `regs`, and to those that are registered, since the last successful `Opendir`. -/
def FillsRegistered : List (Option ℕ) → List DirEvent → Prop
  | _, [] => True
  | _, .opened :: events => FillsRegistered [] events
  | regs, .registered buf :: events => FillsRegistered (buf :: regs) events
  | regs, .filled buf :: events => some buf ∈ regs ∧ FillsRegistered regs events
  | regs, .array _ _ :: events => FillsRegistered regs events

/-- What is said of the arrays. -/
def arrayLog (events : List DirEvent) : List (ℕ × ArrayEvent) :=
  events.filterMap fun e => match e with
    | .array number e => some (number, e)
    | _ => none

/-- An array is freed once, with the number of entries it was returned with. -/
def FreedOnce (es : List ArrayEvent) : Prop := ∃ numEntries, es = [.obtained numEntries, .freed numEntries]

/-- **What a run should do** with buffers and arrays: the arrays are all those that were returned in it. -/
structure Respects (w w' : World) (events : List DirEvent) : Prop where
  buffers : FillsRegistered [] events
  arrays : Span FreedOnce w.arrays w'.arrays (arrayLog events)

/-- After an `Opendir` that finds entries, and a buffer registered before it, the next `StatRet` or `Close` comes before
the next `Readdir`.  `stale` says that such an `Opendir` was the last of these calls. -/
def RegistersAgain : Bool → List DirStep → Prop
  | _, [] => True
  | stale, s :: steps =>
    match s.op with
    | .opendir _ => RegistersAgain (if s.ret = 0 then s.before.m_stat_buf.isSome && s.after.dh.isSome else stale) steps
    | .readdir _ => stale = false ∧ RegistersAgain stale steps
    | .statRet _ => RegistersAgain false steps
    | .close => RegistersAgain false steps
    | .others _ _ _ => RegistersAgain stale steps

/-! ### What each call does -/

/-- `hdfsListDirectory` returns `NULL`, or a new array, which is not empty. -/
theorem hdfsListDirectory_cases (path : Bytes) (w : World) :
    (hdfsListDirectory path w).1 = none ∧ (hdfsListDirectory path w).2.arrays = w.arrays ∨
      ∃ e l, (hdfsListDirectory path w).1 = some (e :: l) ∧ (hdfsListDirectory path w).2.arrays = w.arrays + 1 := by
  have htake := take_calls .listDirectory w
  unfold hdfsListDirectory
  revert htake
  rcases w.take .listDirectory with ⟨a, w₁⟩
  intro htake
  dsimp only at htake ⊢
  cases a.error with
  | some e => exact Or.inl ⟨rfl, by simp [arrays, did, htake]⟩
  | none =>
    dsimp only
    split
    · exact Or.inl ⟨rfl, by simp [arrays, did, htake]⟩
    · next e l _ => exact Or.inr ⟨e, l, rfl, by simp [arrays, did, htake, LibCall.kind]⟩
    · exact Or.inl ⟨rfl, by simp [arrays, did, htake]⟩

theorem hadoopConnect_arrays (w : World) : (hadoopConnect w).2.arrays = w.arrays := by
  unfold arrays
  rw [hadoopConnect_calls, List.countP_append]
  simp [LibCall.kind]

/-- What `Opendir` changes when it fails, and what it does when it succeeds. -/
theorem Directory.opendir_cases (d : Directory) (hd : d.isopen = false → d.dh = none) (dir_path : Bytes) (w : World) :
    Gives (d.opendir env dir_path) w fun r w' => r.2.m_stat_buf = d.m_stat_buf ∧
      (r.1 ≠ 0 ∧ w'.arrays = w.arrays ∧ r.2.isopen = d.isopen ∧ r.2.dh = d.dh ∧ (d.isopen → r.2 = d) ∨
        r.1 = 0 ∧ d.isopen = false ∧ r.2.isopen ∧ r.2.dirPos = 0 ∧
          (r.2.dh = none ∧ w'.arrays = w.arrays ∨ ∃ e l, r.2.dh = some (e :: l) ∧ w'.arrays = w.arrays + 1)) := by
  unfold opendir
  refine Gives.ite (fun h => Gives.pure ⟨rfl, Or.inl ⟨by norm_num, rfl, rfl, rfl, fun _ => rfl⟩⟩) fun h => ?_
  replace h : d.isopen = false := by simpa using h
  have hconn := hadoopConnect_arrays w
  refine Gives.bind (Gives.step (Gives.ite (fun _ => Gives.bind (Gives.step (Gives.pure ⟨rfl, Or.inl ?_⟩))) fun _ => ?_))
  · exact ⟨(errorCode_neg .directory (.fixed EIO) _).ne, hconn, rfl, rfl, fun _ => rfl⟩
  refine Gives.bind (Gives.step (Gives.bind (Gives.step (Gives.bind (Gives.step ?_)))))
  have hlist := hdfsListDirectory_cases (env.getRealPath dir_path) (hadoopConnect w).2.clearErrno.2
  replace hconn : (hadoopConnect w).2.clearErrno.2.arrays = w.arrays := hconn
  rw [hconn] at hlist
  generalize hdfsListDirectory (env.getRealPath dir_path) (hadoopConnect w).2.clearErrno.2 = r at hlist
  obtain ⟨dh, w₂⟩ := r
  dsimp only at hlist ⊢
  refine Gives.ite (fun hc => Gives.pure ⟨rfl, Or.inl ?_⟩) fun hc => Gives.pure ⟨rfl, Or.inr ?_⟩
  · obtain ⟨rfl, herrno⟩ := hc
    have harr : w₂.arrays = w.arrays := by simpa using hlist
    refine ⟨?_, harr, h.symm, (hd h).symm, fun h' => absurd h' (by simp [h])⟩
    dsimp only
    split
    · norm_num
    · simpa using herrno
  · exact ⟨rfl, h, rfl, rfl, hlist⟩

/-- `Readdir` leaves the listing and the registered buffer alone, and fills the buffer when it gives an entry. -/
theorem Directory.readdir_cases (d : Directory) (blen : ℕ) (w : World) :
    Gives (d.readdir blen) w fun r w' => w'.arrays = w.arrays ∧ r.2.dh = d.dh ∧ r.2.isopen = d.isopen ∧
      r.2.m_stat_buf = d.m_stat_buf ∧
      (r.1.stat = none ∧ ¬ (d.isopen ∧ d.dh ≠ none ∧ d.dirPos < d.numEntries) ∨
        d.isopen ∧ d.dh ≠ none ∧ ∃ st, r.1.stat = d.m_stat_buf.map fun buf => (buf, st)) := by
  unfold readdir
  refine Gives.ite (fun h => Gives.pure ⟨rfl, rfl, rfl, rfl, Or.inl ⟨rfl, fun h' => by simp [h'.1] at h⟩⟩) fun h => ?_
  split
  · next hle => exact Gives.pure ⟨rfl, rfl, rfl, rfl, Or.inl ⟨rfl, fun h' => by omega⟩⟩
  split
  · next hdh => exact Gives.bind (Gives.step (Gives.pure ⟨rfl, rfl, rfl, rfl, Or.inl ⟨rfl, fun h' => h'.2.1 hdh⟩⟩))
  · next dh hdh => exact Gives.pure ⟨rfl, rfl, rfl, rfl, Or.inr ⟨by simpa using h, by simp [hdh], _, rfl⟩⟩

/-- `StatRet` registers the buffer, or there is no listing. -/
theorem Directory.statRet_cases (d : Directory) (buf : Option ℕ) (w : World) :
    Gives (d.statRet buf) w fun r w' => w'.arrays = w.arrays ∧ (r.1 = 0 ∧ r.2 = { d with m_stat_buf := buf } ∨
      r.1 ≠ 0 ∧ r.2 = d ∧ (d.isopen = false ∨ d.dh = none)) := by
  unfold statRet
  refine Gives.ite (fun h => Gives.pure ⟨rfl, Or.inr ⟨by norm_num, rfl, Or.inl (by simpa using h)⟩⟩) fun _ => ?_
  refine Gives.ite (fun h => Gives.bind (Gives.step (Gives.pure ⟨rfl, Or.inr ⟨by norm_num, rfl, Or.inr h.2⟩⟩))) fun _ => ?_
  exact Gives.pure ⟨rfl, Or.inl ⟨rfl, rfl⟩⟩

theorem Directory.close_cases (d : Directory) : d.isopen = false ∧ d.close = (-EBADF, d) ∨
    d.isopen = true ∧ d.close.1 = 0 ∧ d.close.2.isopen = false ∧ d.close.2.dh = none := by
  unfold close
  cases hopen : d.isopen with
  | false => exact Or.inl ⟨rfl, rfl⟩
  | true => exact Or.inr ⟨rfl, rfl, rfl, rfl⟩

theorem DirObject.perform_close (o : DirObject) : o.perform env .close =
    pure (⟨.close, o.d, o.d.close.1, o.d.close.2, if o.d.isopen then o.free else []⟩, ⟨o.d.close.2, o.array⟩) :=
  rfl

/-! ### The arrays -/

@[simp] theorem arrayLog_append (es es' : List DirEvent) : arrayLog (es ++ es') = arrayLog es ++ arrayLog es' :=
  List.filterMap_append

/-- All arrays since `lo` have been freed, but for one that `dh` still points to; it is the last of them. -/
def Owns (lo : ℕ) (o : DirObject) (w : World) (log : List (ℕ × ArrayEvent)) : Prop :=
  o.d.dh = none ∧ Span FreedOnce lo w.arrays log ∨
    ∃ l log', o.d.dh = some l ∧ o.d.isopen = true ∧ Span FreedOnce lo o.array log' ∧
      log = log' ++ eventsOf o.array [.obtained l.length] ∧ w.arrays = o.array + 1

namespace Owns

variable {lo : ℕ} {o : DirObject} {w : World} {log : List (ℕ × ArrayEvent)}

theorem closed (h : Owns lo o w log) (hc : o.d.isopen = false) : o.d.dh = none := by
  rcases h with ⟨hdh, -⟩ | ⟨l, log', -, hopen, -⟩
  · exact hdh
  · rw [hc] at hopen
    cases hopen

/-- Who frees the array that is left has freed them all. -/
theorem free (h : Owns lo o w log) : Span FreedOnce lo w.arrays (log ++ arrayLog o.free) := by
  unfold DirObject.free
  rcases h with ⟨hdh, hspan⟩ | ⟨l, log', hdh, -, hspan, rfl, harr⟩
  · rw [hdh]
    simpa [arrayLog] using hspan
  · have hheld : Span FreedOnce o.array (o.array + 1)
        (eventsOf o.array [.obtained l.length] ++ [] ++ eventsOf o.array [.freed l.length]) :=
      Span.held (Span.nil _) ⟨l.length, rfl⟩
    rw [harr, hdh, o.d.listed l hdh]
    rw [List.append_nil] at hheld
    exact List.append_assoc log' _ _ ▸ hspan.append hheld

/-- What does not touch the listing keeps the arrays. -/
theorem of_eq (h : Owns lo o w log) {o' : DirObject} {w' : World} (hdh : o'.d.dh = o.d.dh)
    (hopen : o'.d.isopen = o.d.isopen) (harray : o'.array = o.array) (harr : w'.arrays = w.arrays) :
    Owns lo o' w' log := by
  unfold Owns
  rw [hdh, hopen, harray, harr]
  exact h

end Owns

/-- **A call keeps the arrays.** -/
theorem Owns.perform {lo : ℕ} {o : DirObject} {w : World} {log : List (ℕ × ArrayEvent)} (h : Owns lo o w log)
    (op : DirOp) : Gives (o.perform env op) w fun r w' => Owns lo r.2 w' (log ++ arrayLog r.1.events) := by
  cases op with
  | opendir dir_path =>
    refine Gives.bind (Gives.step (Gives.bind ((o.d.opendir_cases h.closed dir_path w).mono ?_)))
    rintro ⟨ret, d⟩ w' ⟨-, ⟨hret, harr, hopen, hdh, -⟩ | ⟨rfl, hclosed, hopen, -, hlist⟩⟩
    · refine Gives.bind (Gives.step (Gives.pure ?_))
      dsimp only at hret harr hopen hdh ⊢
      rw [harr, if_neg (lt_irrefl _), if_neg (lt_irrefl _), if_neg hret]
      have hown : Owns lo ⟨d, o.array⟩ w' log := h.of_eq hdh hopen rfl harr
      simpa [arrayLog] using hown
    · obtain ⟨-, hspan⟩ | ⟨l, log', -, ho, -⟩ := h
      · refine Gives.bind (Gives.step (Gives.pure ?_))
        dsimp only at hopen hlist ⊢
        rcases hlist with ⟨hdh, harr⟩ | ⟨e, l, hdh, harr⟩
        · refine Or.inl ⟨hdh, ?_⟩
          rw [harr, if_neg (lt_irrefl _)]
          simpa [arrayLog] using hspan
        · refine Or.inr ⟨e :: l, log, hdh, hopen, ?_⟩
          rw [harr, if_pos (Nat.lt_succ_self _), if_pos (Nat.lt_succ_self _)]
          refine ⟨hspan, ?_, rfl⟩
          simp [arrayLog, eventsOf, Directory.entries, hdh]
      · rw [hclosed] at ho
        cases ho
  | readdir blen =>
    refine Gives.bind ((o.d.readdir_cases blen w).mono ?_)
    rintro ⟨out, d⟩ w' ⟨harr, hdh, hopen, -, -⟩
    refine Gives.pure ?_
    have hlog : arrayLog (out.stat.map fun s => DirEvent.filled s.1).toList = [] := by cases out.stat <;> rfl
    dsimp only
    rw [hlog, List.append_nil]
    exact h.of_eq hdh hopen rfl harr
  | statRet buf =>
    refine Gives.bind ((o.d.statRet_cases buf w).mono ?_)
    rintro ⟨ret, d⟩ w' ⟨harr, hcases⟩
    refine Gives.pure ?_
    have hlog : arrayLog (if ret = 0 then [.registered buf] else []) = [] := by split <;> rfl
    dsimp only at hcases ⊢
    rw [hlog, List.append_nil]
    rcases hcases with ⟨-, rfl⟩ | ⟨-, rfl, -⟩
    · exact h.of_eq rfl rfl rfl harr
    · exact h.of_eq rfl rfl rfl harr
  | close =>
    rw [DirObject.perform_close]
    refine Gives.pure ?_
    dsimp only
    rcases o.d.close_cases with ⟨hopen, hclose⟩ | ⟨hopen, -, -, hdh⟩
    · rw [hclose, hopen]
      simpa [arrayLog] using h
    · rw [if_pos hopen]
      exact Or.inl ⟨hdh, h.free⟩
  | others fs listings script =>
    refine Gives.bind (Gives.step (Gives.pure ?_))
    have hown : Owns lo o { w with fs, listings, script } log := h.of_eq rfl rfl rfl rfl
    simpa [arrayLog] using hown

/-- So does a run, and its destructor frees what is left. -/
theorem Owns.run {lo : ℕ} {o : DirObject} {w : World} {log : List (ℕ × ArrayEvent)} (ops : List DirOp)
    (h : Owns lo o w log) : Gives (DirObject.run env ops o) w fun r w' =>
      Span FreedOnce lo w'.arrays (log ++ arrayLog r.2) := by
  induction ops generalizing o w log with
  | nil => exact Gives.pure h.free
  | cons op ops ih =>
    refine Gives.bind ((h.perform op).mono ?_)
    rintro ⟨s, o'⟩ w' h'
    refine Gives.bind ((ih h').mono ?_)
    rintro ⟨steps, events⟩ w'' hspan
    refine Gives.pure ?_
    rw [arrayLog_append, ← List.append_assoc]
    exact hspan

/-! ### The buffers -/

/-- `regs` are the buffers registered since the last successful `Opendir`, and where there are entries, the object's
buffer is one of them, unless it is `stale`. -/
structure Registers (regs : List (Option ℕ)) (stale : Bool) (d : Directory) : Prop where
  closed : d.isopen = false → d.dh = none ∧ stale = false
  fresh : stale = false → d.dh ≠ none → ∀ buf ∈ d.m_stat_buf, some buf ∈ regs
  stale : stale = true → d.dh ≠ none ∧ d.dirPos < d.numEntries ∧ ∃ buf, d.m_stat_buf = some buf ∧ some buf ∉ regs

/-- **A call and the buffers**: it fills a buffer that is not registered if and only if it is a `Readdir` too early. -/
theorem Registers.perform {regs : List (Option ℕ)} {stale : Bool} {o : DirObject} (h : Registers regs stale o.d)
    (op : DirOp) (w : World) : Gives (o.perform env op) w fun r _ => ∃ (ok : Prop) (regs' : List (Option ℕ)) (stale' : Bool),
      (ok → Registers regs' stale' r.2.d) ∧
      (∀ events, FillsRegistered regs (r.1.events ++ events) ↔ ok ∧ FillsRegistered regs' events) ∧
      ∀ steps, RegistersAgain stale (r.1 :: steps) ↔ ok ∧ RegistersAgain stale' steps := by
  cases op with
  | opendir dir_path =>
    refine Gives.bind (Gives.step (Gives.bind ((o.d.opendir_cases (fun hc => (h.closed hc).1) dir_path w).mono ?_)))
    rintro ⟨ret, d⟩ w' ⟨hbuf, ⟨hret, harr, hopen, hdh, hsame⟩ | ⟨rfl, -, hopen, hpos, hlist⟩⟩
    · refine Gives.bind (Gives.step (Gives.pure ⟨True, regs, stale, fun _ => ?_, fun events => ?_, fun steps => ?_⟩))
      · dsimp only at hopen hdh hbuf hsame ⊢
        cases hc : o.d.isopen with
        | true => rwa [hsame hc]
        | false =>
          obtain ⟨hnone, rfl⟩ := h.closed hc
          rw [hc] at hopen
          rw [hnone] at hdh
          exact ⟨fun _ => ⟨hdh, rfl⟩, fun _ hne => absurd hdh hne, fun h => by cases h⟩
      · dsimp only at hret harr ⊢
        rw [harr, if_neg (lt_irrefl _), if_neg hret]
        simp
      · simp only [RegistersAgain, if_neg hret, true_and]
    · refine Gives.bind (Gives.step (Gives.pure
        ⟨True, [], o.d.m_stat_buf.isSome && d.dh.isSome, fun _ => ?_, fun events => ?_, fun steps => ?_⟩))
      · dsimp only at hopen hpos hbuf hlist ⊢
        refine ⟨fun hc => ?_, fun hstale hne buf hmem => ?_, fun hstale => ?_⟩
        · rw [hopen] at hc
          cases hc
        · rw [hbuf, Option.mem_def] at hmem
          simp [hmem, Option.isSome_eq_false_iff] at hstale
          exact absurd hstale hne
        · rw [Bool.and_eq_true] at hstale
          obtain ⟨buf, hmem⟩ := Option.isSome_iff_exists.1 hstale.1
          rcases hlist with ⟨hdh, -⟩ | ⟨e, l, hdh, -⟩
          · simp [hdh] at hstale
          · refine ⟨by simp [hdh], ?_, buf, hbuf.trans hmem, by simp⟩
            rw [hpos, d.listed _ hdh, List.length_cons]
            omega
      · dsimp only
        split <;> simp [FillsRegistered]
      · simp only [RegistersAgain, if_true, true_and]
  | readdir blen =>
    refine Gives.bind ((o.d.readdir_cases blen w).mono ?_)
    rintro ⟨out, d⟩ w' ⟨-, hdh, hopen, hbuf, hcases⟩
    refine Gives.pure ⟨stale = false, regs, stale, fun hs => ?_, fun events => ?_, fun steps => by simp only [RegistersAgain]⟩
    · subst hs
      dsimp only at hdh hopen hbuf ⊢
      refine ⟨?_, ?_, fun hs => by cases hs⟩
      · rw [hopen, hdh]
        exact h.closed
      · rw [hdh, hbuf]
        exact h.fresh
    · dsimp only at hcases ⊢
      cases stale with
      | true =>
        obtain ⟨hne, hlt, buf, hsome, hnot⟩ := h.stale rfl
        have hisopen : o.d.isopen = true := by
          by_contra hc
          exact absurd (h.closed (by simpa using hc)).2 (by simp)
        obtain ⟨-, -, st, hst⟩ := hcases.resolve_left fun hc => hc.2 ⟨hisopen, hne, hlt⟩
        rw [hst, hsome]
        simp [FillsRegistered, hnot]
      | false =>
        rcases hcases with ⟨hst, -⟩ | ⟨hisopen, hne, st, hst⟩
        · simp [hst]
        · rw [hst]
          cases hm : o.d.m_stat_buf with
          | none => simp
          | some buf => simp [FillsRegistered, h.fresh rfl hne buf hm]
  | statRet buf =>
    refine Gives.bind ((o.d.statRet_cases buf w).mono ?_)
    rintro ⟨ret, d⟩ w' ⟨-, ⟨rfl, rfl⟩ | ⟨hret, rfl, hno⟩⟩
    · refine Gives.pure ⟨True, buf :: regs, false, fun _ => ?_, fun events => by simp [FillsRegistered], fun steps => by
        simp only [RegistersAgain, true_and]⟩
      refine ⟨fun hc => ⟨(h.closed hc).1, rfl⟩, fun _ _ b hb => ?_, fun hs => by cases hs⟩
      rw [← Option.mem_def.1 hb]
      exact List.mem_cons_self
    · have hstale : stale = false := by
        by_contra hs
        obtain ⟨hne, -⟩ := h.stale (by simpa using hs)
        rcases hno with hc | hdh
        · exact hs (h.closed hc).2
        · exact hne hdh
      subst hstale
      exact Gives.pure ⟨True, regs, false, fun _ => h, fun events => by simp [if_neg hret], fun steps => by
        simp only [RegistersAgain, true_and]⟩
  | close =>
    rw [DirObject.perform_close]
    refine Gives.pure ⟨True, regs, false, fun _ => ?_, fun events => ?_, fun steps => by
      simp only [RegistersAgain, true_and]⟩
    · dsimp only
      rcases o.d.close_cases with ⟨hc, hclose⟩ | ⟨-, -, hc, hdh⟩
      · obtain ⟨hdh, rfl⟩ := h.closed hc
        rwa [hclose]
      · exact ⟨fun _ => ⟨hdh, rfl⟩, fun _ hne => absurd hdh hne, fun hs => by cases hs⟩
    · unfold DirObject.free
      dsimp only
      split
      · split <;> simp [FillsRegistered]
      · simp
  | others fs listings script =>
    refine Gives.bind (Gives.step (Gives.pure ⟨True, regs, stale, fun _ => h, fun events => by simp, fun steps => by
      simp only [RegistersAgain, true_and]⟩))

theorem Registers.run {regs : List (Option ℕ)} {stale : Bool} {o : DirObject} (ops : List DirOp)
    (h : Registers regs stale o.d) (w : World) : Ends (DirObject.run env ops o) w fun r _ =>
      (FillsRegistered regs r.2 ↔ RegistersAgain stale r.1) := by
  induction ops generalizing regs stale o w with
  | nil =>
    refine Ends.pure (iff_of_true ?_ trivial)
    unfold DirObject.free
    split <;> simp [FillsRegistered]
  | cons op ops ih =>
    refine Ends.bind ((h.perform op w).ends.mono ?_)
    rintro ⟨s, o'⟩ w' ⟨ok, regs', stale', h', hevents, hsteps⟩
    dsimp only at h' hevents hsteps ⊢
    by_cases hok : ok
    · refine Ends.bind ((ih (h' hok) w').mono ?_)
      rintro ⟨steps, events⟩ w'' hiff
      refine Ends.pure ?_
      rw [hevents, hsteps, hiff]
    · -- too early already
      refine Ends.bind fun n r w'' _ => Ends.pure ?_
      rw [hevents, hsteps]
      exact iff_of_false (fun hp => hok hp.1) fun hp => hok hp.1

/-- **When stat buffers do not outlive their session.**  Every sequence of calls on a new object returns; its destructor
included, it writes only to buffers registered in the session, and frees every array of `hdfsListDirectory` once with its
number of entries, if and only if a session that begins with a buffer of an earlier one, and entries, registers again or
ends before its first `Readdir`. -/
theorem buffers_iff (env : Env) (ops : List DirOp) (w : World) : Gives (DirObject.run env ops {}) w fun r w' =>
    Respects w w' r.2 ↔ RegistersAgain false r.1 := by
  have howns : Owns w.arrays {} w [] := Or.inl ⟨rfl, Span.nil _⟩
  have hregs : Registers [] false ({} : DirObject).d := ⟨fun _ => ⟨rfl, rfl⟩, fun _ h => absurd rfl h, fun h => by cases h⟩
  refine ((howns.run ops).and_ends (hregs.run ops w)).mono ?_
  rintro r w' ⟨hspan, hiff⟩
  exact ⟨fun h => hiff.1 h.buffers, fun h => ⟨hiff.2 h, hspan⟩⟩

/-- **A buffer of the last session is written to**: `/d` is opened, a buffer registered, and `/d` closed, opened again and
read. -/
theorem stale_buffer_filled : ((DirObject.run Reference.env [.opendir (str "/d"), .statRet (some 7), .close,
      .opendir (str "/d"), .readdir 256] {}).run 1 Directory.oneEntry).map (·.1.2) =
      some [.array 0 (.obtained 1), .opened, .registered (some 7), .array 0 (.freed 1), .array 1 (.obtained 1), .opened,
        .filled 7, .array 1 (.freed 1)] ∧
    ¬ Gives (DirObject.run Reference.env [.opendir (str "/d"), .statRet (some 7), .close, .opendir (str "/d"),
      .readdir 256] {}) Directory.oneEntry fun r w' => Respects Directory.oneEntry w' r.2 := by
  have hrun : ((DirObject.run Reference.env [.opendir (str "/d"), .statRet (some 7), .close, .opendir (str "/d"),
      .readdir 256] {}).run 1 Directory.oneEntry).map (·.1.2) =
      some [.array 0 (.obtained 1), .opened, .registered (some 7), .array 0 (.freed 1), .array 1 (.obtained 1), .opened,
        .filled 7, .array 1 (.freed 1)] := by
    decide +kernel
  refine ⟨hrun, fun h => ?_⟩
  obtain ⟨⟨r, w'⟩, hw', hevents⟩ := Option.map_eq_some_iff.1 hrun
  have hfills := (h.ends 1 r w' hw').buffers
  dsimp only at hevents
  rw [hevents] at hfills
  simp [FillsRegistered] at hfills

end XrdHdfs
