import XrdHdfs.Lib.Numbered
import XrdHdfs.Mapping
import XrdHdfs.Requests

/-!
# Which file objects the checksum manager releases

`GetFileContents`, `SetMultiple` and `Calc` each take a file object from `newFile`, open it, use it, close it and delete
it; `Close` may in turn record a checksum, with a file object of its own.  An object whose `Open` fails is returned
from without being deleted, as the first file object of a `Get` without a record is (`Accounted`).  So a call releases
every object if and only if none of its `Open`s fails (`released_iff`), and leaves one behind for each that does
(`Accounts.outstanding`).
-/

namespace XrdHdfs

open Lib World

variable {env : Env}

/-! ### Released objects -/

namespace ObjEvent

def IsOpened : ObjEvent → Prop
  | opened _ _ _ => True
  | _ => False

instance : DecidablePred IsOpened := fun e => by cases e <;> unfold IsOpened <;> infer_instance

/-- By how much an event changes the number of outstanding objects. -/
def weight : ObjEvent → ℤ
  | created => 1
  | deleted => -1
  | _ => 0

end ObjEvent

/-- How many objects were created and not deleted. -/
def World.outstanding (w : World) : ℤ := (w.ledger.map fun e => e.2.weight).sum

/-- `Open` succeeded on the object with this history. -/
def WasOpened (es : List ObjEvent) : Prop := ∃ e ∈ es, e.IsOpened

instance (es : List ObjEvent) : Decidable (WasOpened es) := by unfold WasOpened; infer_instance

/-- **The object was released**: deleted once, and if it was opened, closed once before that. -/
structure Released (es : List ObjEvent) : Prop where
  deleted : es.count .deleted = 1
  closed : WasOpened es → es.count .closed = 1 ∧ ∃ pre post, es = pre ++ .deleted :: post ∧ .closed ∈ pre

/-- What the ledger says of a run from `w` to `w'`. -/
def newEvents (w w' : World) : List (ℕ × ObjEvent) := w'.ledger.drop w.ledger.length

/-- Every object of the run is released, and no more are outstanding than before. -/
structure AllReleased (w w' : World) : Prop where
  each : ∀ oid, (oid, .created) ∈ newEvents w w' → Released (history oid (newEvents w w'))
  outstanding : w'.outstanding = w.outstanding

/-- No `Open` of the run fails. -/
def OpensSucceed (w w' : World) : Prop := ∀ oid, (oid, .created) ∈ newEvents w w' → WasOpened (history oid (newEvents w w'))

/-! ### What becomes of an object -/

/-- What is done with an object between `newFile` and the return of the function that called it. -/
def Accounted (es : List ObjEvent) : Prop :=
  es = [.created] ∨ ∃ fname writing state, ∃ record ∈ [[], [ObjEvent.recorded]],
    es = .created :: .opened fname writing state :: .closed :: record ++ [.deleted]

namespace Accounted

variable {es : List ObjEvent}

theorem released_iff_opened (h : Accounted es) : Released es ↔ WasOpened es := by
  rcases h with rfl | ⟨fname, writing, state, record, hrec, rfl⟩
  · refine iff_of_false (fun h => absurd h.deleted (by decide)) (by decide)
  · refine iff_of_true ⟨?_, fun _ => ⟨?_, _, [], rfl, by simp⟩⟩ ⟨.opened fname writing state, by simp, trivial⟩
    all_goals
      simp only [List.mem_cons, List.not_mem_nil, or_false] at hrec
      rcases hrec with rfl | rfl <;> simp

/-- One object is left behind where `Open` failed. -/
theorem sum_weight (h : Accounted es) : (es.map ObjEvent.weight).sum = if WasOpened es then 0 else 1 := by
  rcases h with rfl | ⟨fname, writing, state, record, hrec, rfl⟩
  · rfl
  · rw [if_pos ⟨.opened fname writing state, by simp, trivial⟩]
    simp only [List.mem_cons, List.not_mem_nil, or_false] at hrec
    rcases hrec with rfl | rfl <;> rfl

end Accounted

/-- **The bookkeeping of a run**: the ledger goes on about the run's own objects, and each is accounted for. -/
def Accounts (w w' : World) : Prop :=
  ∃ new, w'.ledger = w.ledger ++ new ∧ Span Accounted w.objects w'.objects new

namespace Accounts

variable {w w₁ w₂ w' : World}

theorem of_eq (hl : w'.ledger = w.ledger) (ho : w'.objects = w.objects) : Accounts w w' :=
  ⟨[], by rw [hl, List.append_nil], ho ▸ Span.nil _⟩

instance : IsPreorder World Accounts where
  refl _ := of_eq rfl rfl
  trans _ _ _ := by
    rintro ⟨new, hl, hspan⟩ ⟨new', hl', hspan'⟩
    exact ⟨new ++ new', by rw [hl', hl, List.append_assoc], hspan.append hspan'⟩

/-- An object is created, and whatever else is done while it is held is accounted for. -/
theorem held {es : List ObjEvent} (es' : List ObjEvent) (ho : w₁.objects = w.objects + 1)
    (hl : w₁.ledger = w.ledger ++ eventsOf w.objects es) (h : Accounts w₁ w₂) (ho' : w'.objects = w₂.objects)
    (hl' : w'.ledger = w₂.ledger ++ eventsOf w.objects es') (hes : Accounted (es ++ es')) : Accounts w w' := by
  obtain ⟨new, hnew, hspan⟩ := h
  rw [ho, ← ho'] at hspan
  exact ⟨_, by rw [hl', hnew, hl, List.append_assoc, List.append_assoc, ← List.append_assoc (eventsOf _ es)],
    hspan.held hes⟩

/-- An object that could not be opened is accounted for, but not released. -/
theorem leaked (ho : w'.objects = w.objects + 1) (hl : w'.ledger = w.ledger ++ eventsOf w.objects [.created]) :
    Accounts w w' :=
  held [] ho hl (refl_of Accounts w') rfl (by simp [eventsOf]) (Or.inl rfl)

/-- The objects of the run are those that `newFile` gave it. -/
theorem created_iff (h : Accounts w w') (oid : ℕ) :
    (oid, .created) ∈ newEvents w w' ↔ w.objects ≤ oid ∧ oid < w'.objects := by
  obtain ⟨new, hl, hspan⟩ := h
  unfold newEvents
  rw [hl, List.drop_left]
  refine ⟨fun hmem => hspan.range _ hmem, fun ⟨hlo, hhi⟩ => mem_history.1 ?_⟩
  rcases hspan.each oid hlo hhi with h | ⟨fname, writing, state, record, -, h⟩ <;> simp [h]

theorem accounted (h : Accounts w w') {oid : ℕ} (hoid : (oid, .created) ∈ newEvents w w') :
    Accounted (history oid (newEvents w w')) := by
  obtain ⟨hlo, hhi⟩ := (h.created_iff oid).1 hoid
  obtain ⟨new, hl, hspan⟩ := h
  unfold newEvents
  rw [hl, List.drop_left]
  exact hspan.each oid hlo hhi

/-- **What is left behind**: one object for each `Open` that failed. -/
theorem outstanding (h : Accounts w w') : w'.outstanding = w.outstanding +
    ((Finset.Ico w.objects w'.objects).filter fun oid => ¬ WasOpened (history oid (newEvents w w'))).card := by
  obtain ⟨new, hl, hspan⟩ := h
  have hnew : newEvents w w' = new := by
    unfold newEvents
    rw [hl, List.drop_left]
  have hsum : (new.map fun e => e.2.weight).sum =
      ∑ oid ∈ Finset.Ico w.objects w'.objects, if ¬ WasOpened (history oid new) then (1 : ℤ) else 0 := by
    rw [Span.sum_log _ hspan.range]
    refine Finset.sum_congr rfl fun oid hoid => ?_
    obtain ⟨hlo, hhi⟩ := Finset.mem_Ico.1 hoid
    rw [(hspan.each oid hlo hhi).sum_weight, ite_not]
  unfold World.outstanding
  rw [hnew, hl, List.map_append, List.sum_append, hsum, Finset.sum_boole]

/-- A run releases everything if and only if no `Open` of it fails. -/
theorem allReleased_iff (h : Accounts w w') : AllReleased w w' ↔ OpensSucceed w w' := by
  constructor
  · exact fun hall oid hoid => (h.accounted hoid).released_iff_opened.1 (hall.each oid hoid)
  · refine fun hopen => ⟨fun oid hoid => (h.accounted hoid).released_iff_opened.2 (hopen oid hoid), ?_⟩
    rw [h.outstanding, Finset.filter_eq_empty_iff.2, Finset.card_empty, Nat.cast_zero, add_zero]
    intro oid hoid
    exact not_not.2 (hopen oid ((h.created_iff oid).2 (Finset.mem_Ico.1 hoid)))

end Accounts

/-! ### What leaves the number of objects alone -/

namespace File

variable (f : File env)

theorem openFile_objects (path : Bytes) (openMode : ℕ) : Keeps World.objects (f.openFile path openMode) :=
  f.openFile_follows path openMode (fun _ _ => take_objects) (fun _ _ _ h => h.objects) (fun _ => rfl) (fun _ _ => rfl)
    (fun _ _ => rfl) fun _ _ => rfl

theorem read_objects (offset : ℤ) (blen : ℕ) : Keeps World.objects (f.read offset blen) := by
  refine .bind (Readbuf.read_follows (fun pos len w => (hdfsPread_called f.fh pos len w).objects) _ _ _) fun r => ?_
  refine .bind (.step fun w => ?_) fun _ => .pure _
  unfold readReport
  dsimp only
  split <;> rfl

theorem write_objects (buff : Bytes) (offset : ℤ) : Keeps World.objects (f.write buff offset) :=
  .ite (.bind (.step fun _ => rfl) fun _ => .pure _)
    (.bind (.step fun w => (hdfsWrite_called f.fh buff w).objects) fun _ => .pure _)

theorem closeHandle_objects (w : World) : (f.closeHandle w).2.objects = w.objects :=
  @closeHandle_follows env (fun w w' => w'.objects = w.objects) _ f (fun _ _ _ h => h.objects) (fun _ _ => rfl) w

end File

theorem scanLoop_objects {α : Type} (blen : ℕ) (g : α → Bytes → α) (b : File env × α × ℕ) :
    Keeps World.objects (.loop (scanTurn blen g) b) := by
  refine .loop ?_ b
  rintro ⟨fh, acc, offset⟩
  exact .bind (fh.read_objects _ _) fun _ => .ite (.pure _) (.ite (.pure _) (.pure _))

theorem writeLoop_objects (text : Bytes) (b : File env × ℕ) : Keeps World.objects (.loop (writeTurn text) b) := by
  refine .loop ?_ b
  rintro ⟨fh, offset⟩
  exact .bind (fh.write_objects _ _) fun _ => .ite (.pure _) (.ite (.pure _) (.pure _))

theorem unlink_objects (pfn : Bytes) : Keeps World.objects (unlink env pfn) := by
  refine .bind (.step fun w => (call_called .connect EIO some _).objects) fun _ => .ite (.step fun _ => rfl) ?_
  refine .bind (.step fun _ => rfl) fun _ => .bind (.step fun w => (call_called _ _ _ _).objects) fun r => .ite ?_ (.pure _)
  refine .bind (.step fun w => ?_) fun _ => .step fun _ => rfl
  unfold unlinkErrno
  split
  · exact (call_called _ _ _ { w with errno := 0 }).objects
  · rfl

theorem unlink_accounts (pfn : Bytes) : Follows Accounts (unlink env pfn) := fun w =>
  ((unlink_keeps pfn w).and (unlink_objects pfn w)).mono fun _ _ h => .of_eq h.1 h.2

/-! ### From `newFile` to `delete` -/

/-- Since `w`, one object was created, and opened; it is the object `oid`. -/
structure Held (w : World) (oid : ℕ) (w' : World) : Prop where
  oid : oid = w.objects
  objects : w'.objects = w.objects + 1
  ledger : ∃ fname writing state, w'.ledger = w.ledger ++ eventsOf w.objects [.created, .opened fname writing state]

theorem Held.of_eq {w w₁ w₂ : World} {oid : ℕ} (h : Held w oid w₁) (hl : w₂.ledger = w₁.ledger)
    (ho : w₂.objects = w₁.objects) : Held w oid w₂ :=
  ⟨h.oid, ho.trans h.objects, hl ▸ h.ledger⟩

/-- What `Close` does to the bookkeeping: it notes that it closed the object, and perhaps that it was recorded; the
objects of the record are accounted for. -/
def ClosesAs (oid : ℕ) (w w' : World) : Prop :=
  ∃ w₁, ∃ record ∈ [[], [ObjEvent.recorded]], w₁.objects = w.objects ∧
    w₁.ledger = w.ledger ++ eventsOf oid (.closed :: record) ∧ Accounts w₁ w'

/-- What is opened, closed and deleted is accounted for. -/
theorem Held.released {w w₁ w₂ : World} {oid : ℕ} (h : Held w oid w₁) (hclose : ClosesAs oid w₁ w₂) :
    Accounts w (note oid .deleted w₂).2 := by
  obtain ⟨fname, writing, state, hl⟩ := h.ledger
  obtain ⟨w', record, hrec, ho', hl', hacc⟩ := hclose
  obtain rfl := h.oid
  refine .held [.deleted] (ho'.trans h.objects) ?_ hacc rfl rfl
    (Or.inr ⟨fname, writing, state, record, hrec, rfl⟩)
  rw [hl', hl, List.append_assoc]
  rfl

section Acquire

variable {β : Type} {close : File env → Prog World (ℤ × File env)}
  (hclose : ∀ f w, Ends (close f) w fun r w' => r.2.oid = f.oid ∧ ClosesAs f.oid w w')

/-- `newFile` and `Open`, up to the return where one of them fails. -/
def withFile (env : Env) (path : Bytes) (openMode : ℕ) (stop : ℤ → β) (use : File env → Prog World β) : Prog World β := do
  match ← .step (newFile env) with
  | none => pure (stop (-ENOMEM))
  | some fh => do
    let (rc, fh) ← fh.openFile path openMode
    if rc ≠ 0 then pure (stop rc) else use fh

/-- **The rule of `withFile`.** -/
theorem withFile_accounts (path : Bytes) (openMode : ℕ) (stop : ℤ → β) (use : File env → Prog World β)
    (huse : ∀ f w w', Held w f.oid w' → Ends (use f) w' fun _ w'' => Accounts w w'') :
    Follows Accounts (withFile env path openMode stop use) := by
  intro w
  have hledger := @newFile_ledger env w
  obtain ⟨-, hnew, -⟩ := @newFile_spec env w
  have hobjects := @newFile_objects env w
  refine Ends.bind (Ends.step ?_)
  generalize newFile env w = r at hledger hnew hobjects
  obtain ⟨o, w₁⟩ := r
  dsimp only at hledger hnew hobjects ⊢
  cases o with
  | none => exact Ends.pure (.of_eq (by simpa using hledger) (by simpa using hobjects))
  | some fh =>
  obtain rfl := hnew fh rfl
  simp only [Option.isSome_some, if_true] at hledger hobjects
  refine Ends.bind (((File.openFile_ledger ({ oid := w.objects } : File env) path openMode rfl w₁).and
    (File.openFile_objects _ path openMode w₁)).mono ?_)
  rintro ⟨rc, fh⟩ w₂ ⟨⟨hoid, -, hl⟩, ho⟩
  dsimp only at hoid hl ho ⊢
  refine Ends.ite (fun hne => Ends.pure ?_) fun h0 => ?_
  · rw [if_neg hne, List.append_nil, hledger] at hl
    exact .leaked (ho.trans hobjects) hl
  · rw [if_pos (not_not.1 h0), hledger, List.append_assoc] at hl
    exact huse fh w w₂ ⟨hoid, ho.trans hobjects, _, _, _, hl⟩

include hclose in
/-- A held object is closed and deleted. -/
theorem close_accounts (f : File env) {w w' : World} (h : Held w f.oid w') :
    Ends (close f) w' fun r w₁ => Ends r.2.destroy w₁ fun _ w₂ => Accounts w w₂ := by
  refine (hclose f w').mono ?_
  rintro ⟨ret, f'⟩ w₁ ⟨hoid, hcloses⟩
  dsimp only at hoid ⊢
  refine Ends.step ?_
  rw [hoid]
  exact h.released hcloses

include hclose in
/-- **`SetMultiple`**, where the `Close` of a file object does what it should. -/
theorem setMultipleWith_accounts (pfn : Bytes) (values : ChecksumValues) :
    Follows Accounts (setMultipleWith close pfn values) := by
  refine withFile_accounts (getChecksumFilename pfn) O_WRONLY id
    (fun fh : File env => do
      let (retval, fh) ← .loop (writeTurn (serialise values)) (fh, 0)
      let (_, fh) ← close fh
      fh.destroy
      pure (if retval < 0 then retval else 0)) fun f w w' hheld => ?_
  refine Ends.bind (((writeLoop_same (serialise values) f w').and (writeLoop_objects _ (f, 0) w')).mono ?_)
  rintro ⟨retval, f₁⟩ w₁ ⟨⟨hsame, hl⟩, ho⟩
  dsimp only at hsame ⊢
  replace hheld := hheld.of_eq hl ho
  rw [← hsame.oid] at hheld
  refine Ends.bind ((close_accounts hclose f₁ hheld).mono fun r w₂ h => ?_)
  exact Ends.bind (h.mono fun _ _ h => Ends.pure h)

end Acquire

/-- **`Close`.** -/
theorem File.close_closesAs (f : File env) (w : World) :
    Ends f.close w fun r w' => r.2.oid = f.oid ∧ ClosesAs f.oid w w' := by
  refine Ends.fix_induct (P := fun f w (r : ℤ × File env) w' => r.2.oid = f.oid ∧ ClosesAs f.oid w w')
    (fun close ih f w => ?_) f w
  have hl : (note f.oid .closed (f.closeHandle w).2).2.ledger = w.ledger ++ eventsOf f.oid [.closed] :=
    congrArg (· ++ _) (f.closeHandle_ledger w)
  have ho : (note f.oid .closed (f.closeHandle w).2).2.objects = w.objects := f.closeHandle_objects w
  have hplain : ClosesAs f.oid w (note f.oid .closed (f.closeHandle w).2).2 :=
    ⟨_, [], by simp, ho, hl, refl_of Accounts _⟩
  refine Ends.bind (Ends.step (Ends.bind (Ends.step ?_)))
  cases f.m_state with
  | none => exact Ends.pure ⟨rfl, hplain⟩
  | some state =>
    refine Ends.ite (fun _ => Ends.bind (Ends.step (Ends.bind ?_))) fun _ => Ends.pure ⟨rfl, hplain⟩
    refine (setMultipleWith_accounts ih (f.fname.getD []) (stateValues state.finalize) _).mono fun rc w' hacc => ?_
    refine Ends.pure ⟨rfl, (note f.oid .recorded (note f.oid .closed (f.closeHandle w).2).2).2, [.recorded], by simp, ho,
      ?_, hacc⟩
    exact (congrArg (· ++ _) hl).trans (List.append_assoc _ _ _)

/-! ### The entry points -/

theorem setMultiple_accounts (pfn : Bytes) (values : ChecksumValues) : Follows Accounts (setMultiple env pfn values) :=
  setMultipleWith_accounts File.close_closesAs pfn values

/-- A file that is read from start to end. -/
theorem scanFile_accounts {α β : Type} (path : Bytes) (blen : ℕ) {start : World → α × World} (g : α → Bytes → α)
    (stop : ℤ → β) {rest : ℤ → α → Prog World β} (hledger : ∀ v, (start v).2.ledger = v.ledger)
    (hobjects : ∀ v, (start v).2.objects = v.objects) (hrest : ∀ retval acc, Follows Accounts (rest retval acc)) :
    Follows Accounts (scanFile env path blen start g stop rest) := by
  refine withFile_accounts path O_RDONLY stop (fun fh : File env => do
    let acc ← .step start
    let (retval, acc, fh) ← .loop (scanTurn blen g) (fh, acc, 0)
    let (_, fh) ← fh.close
    fh.destroy
    rest retval acc) fun f w w' hheld => Ends.bind (Ends.step ?_)
  replace hheld := hheld.of_eq (hledger w') (hobjects w')
  refine Ends.bind (((scanLoop_same blen g _ f _).and (scanLoop_objects blen g (f, (start w').1, 0) _)).mono ?_)
  rintro ⟨retval, acc, f₁⟩ w₁ ⟨⟨hsame, hl⟩, ho⟩
  dsimp only at hsame ⊢
  replace hheld := hheld.of_eq hl ho
  rw [← hsame.oid] at hheld
  refine Ends.bind ((close_accounts File.close_closesAs f₁ hheld).mono fun r w₂ h => Ends.bind (h.mono ?_))
  exact fun _ w₃ hacc => (hrest retval acc w₃).mono fun _ _ => trans_of Accounts hacc

theorem getFileContents_accounts (pfn : Bytes) : Follows Accounts (ChecksumManager.getFileContents env pfn) := by
  rw [getFileContents_eq]
  refine .ite (.pure _) (scanFile_accounts _ _ _ _ (fun _ => rfl) (fun _ => rfl) fun retval acc => ?_)
  exact .ite (.pure _) (.pure _)

theorem calcDigest_accounts (pfn : Bytes) (cks : XrdCksData) (do_set : Bool) :
    Follows Accounts (ChecksumManager.calcDigest env pfn cks do_set) := by
  rw [calcDigest_eq]
  cases ChecksumManager.returnDigest cks with
  | none => exact .pure _
  | some digest =>
  refine .ite (.pure _) (scanFile_accounts _ _ _ _ (fun _ => rfl) (fun _ => rfl) fun retval state => ?_)
  exact .ite (.pure _) (.bind (setMultiple_accounts pfn _) fun _ => .ite (.pure _) (.pure _))

theorem get_accounts (pfn : Bytes) (cks : XrdCksData) : Follows Accounts (ChecksumManager.get env pfn cks) := by
  refine .bind (getFileContents_accounts pfn) ?_
  rintro ⟨rc, text⟩
  refine .ite (.pure _) (.ite (.pure _) (.ite (.bind (unlink_accounts pfn) fun _ => .pure _) ?_))
  exact .ite (.pure _) (.pure _)

/-- A call of the checksum manager: one of its entry points, or one of the two functions that read and write records. -/
inductive ManagerCall where
  | getFileContents
  | setMultiple (values : ChecksumValues)
  | request (r : Request)

/-- Carry the call out. -/
def ManagerCall.run (env : Env) (pfn : Bytes) : ManagerCall → Prog World Unit
  | getFileContents => do let _ ← ChecksumManager.getFileContents env pfn
  | setMultiple values => do let _ ← XrdHdfs.setMultiple env pfn values
  | request r => r.run env pfn

theorem request_accounts (pfn : Bytes) (r : Request) : Follows Accounts (r.run env pfn) := by
  cases r with
  | get cks => exact .bind (get_accounts pfn cks) fun _ => .pure _
  | del => exact .bind (unlink_accounts pfn) fun _ => .pure _
  | list blen separator =>
    refine .bind (.bind (getFileContents_accounts pfn) ?_) fun _ => .pure _
    exact fun r => .ite (.pure _) (.ite (.pure _) (.pure _))
  | ver cks =>
    refine .bind (.bind (get_accounts pfn {}) fun out => .ite ?_ (.pure _)) fun _ => .pure _
    exact .bind (calcDigest_accounts pfn out.cks true) fun r => .ite (.pure _) (.pure _)
  | set cks =>
    refine .bind (.bind (getFileContents_accounts pfn) ?_) fun _ => .pure _
    rintro ⟨rc, text⟩
    dsimp only
    generalize parse text = p
    refine .ite (.pure _) (.ite (.pure _) ?_)
    cases ChecksumManager.merge cks (env.cks.Get cks) p.2 with
    | none => exact .pure _
    | some values => exact setMultiple_accounts pfn values
  | calcDigest cks do_set => exact .bind (calcDigest_accounts pfn cks do_set) fun _ => .pure _

/-- **When every file object is released.**  Whatever the script, on every exit of a call each object that `newFile` gave
it has been deleted once, closed once before that if it was opened, and no more objects are outstanding than before, if
and only if no `Open` of the call failed. -/
theorem released_iff (pfn : Bytes) (c : ManagerCall) (w : World) :
    Ends (c.run env pfn) w fun _ w' => AllReleased w w' ↔ OpensSucceed w w' := by
  have haccounts : Follows Accounts (c.run env pfn) := by
    cases c with
    | getFileContents => exact .bind (getFileContents_accounts pfn) fun _ => .pure _
    | setMultiple values => exact .bind (setMultiple_accounts pfn values) fun _ => .pure _
    | request r => exact request_accounts pfn r
  exact (haccounts w).mono fun _ _ h => h.allReleased_iff

/-- **A file without a record leaves an object behind**: `Get` returns, and the file object it had is not deleted. -/
theorem get_without_record_leaks :
    (((ManagerCall.request (.get { Name := str "md5" })).run Reference.env (str "/a")).run 9 { fs := .empty }).map
      (fun r => (r.2.ledger, r.2.outstanding)) = some ([(0, .created)], 1) ∧
    ¬ Ends ((ManagerCall.request (.get { Name := str "md5" })).run Reference.env (str "/a"))
      { fs := .empty } fun _ w' => AllReleased { fs := .empty } w' := by
  have hrun : (((ManagerCall.request (.get { Name := str "md5" })).run Reference.env (str "/a")).run 9 { fs := .empty }).map
      (fun r => (r.2.ledger, r.2.outstanding)) = some ([(0, .created)], 1) := by
    decide +kernel
  refine ⟨hrun, fun h => ?_⟩
  obtain ⟨⟨_, w'⟩, hw', hout⟩ := Option.map_eq_some_iff.1 hrun
  have hone : w'.outstanding = 1 := congrArg Prod.snd hout
  have hzero : w'.outstanding = 0 := (h 9 _ w' hw').outstanding
  omega

end XrdHdfs
