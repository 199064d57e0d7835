import XrdHdfs.ManagerSpec
import XrdHdfs.Reference

/-!
# What the checksum manager may change

`Request` is a call of one of the six entry points for `pfn`.  `request_spec` sums up what a request does: it
changes nothing, or writes the record, or unlinks what is at `pfn` itself.  The last happens in `Del`, and
in `Get` and `Ver` when the record is well formed and lacks the digest; `only_record_iff` says that this is
exactly when a request changes anything but the record.
-/

namespace XrdHdfs

open Lib World ChecksumManager

variable {env : Env}

/-- A call of the checksum manager for a file. -/
inductive Request where
  | get (cks : XrdCksData)
  | del
  | list (blen : ℕ) (separator : UInt8)
  | ver (cks : XrdCksData)
  | set (cks : XrdCksData)
  | calcDigest (cks : XrdCksData) (do_set : Bool)

namespace Request

/-- Carry the request out; what it returns does not matter here. -/
def run (env : Env) (pfn : Bytes) : Request → Prog World Unit
  | .get cks => do let _ ← ChecksumManager.get env pfn cks
  | .del => do let _ ← ChecksumManager.del env pfn
  | .list blen separator => do let _ ← ChecksumManager.list env pfn blen separator
  | .ver cks => do let _ ← ChecksumManager.ver env pfn cks
  | .set cks => do let _ ← ChecksumManager.set env pfn cks
  | .calcDigest cks do_set => do let _ ← ChecksumManager.calcDigest env pfn cks do_set

/-- The digest a request looks up in the record. -/
def lookup : Request → Option Bytes
  | .get cks => some (requestedChecksum cks)
  | .ver _ => some (requestedChecksum {})
  | _ => none

/-- The request is `Del`, or it looks a digest up that the record lacks; `R` says which texts a record is read as. -/
def Unlinks (env : Env) (R : Bytes → Bytes → Prop) (fs : Fs) (pfn : Bytes) : Request → Prop
  | .del => True
  | r => env.g_hdfs_oss ∧ ∃ name ∈ r.lookup, ∃ F text, fs.view (recordPath pfn) = some F ∧ R F text ∧ Lacks text name

end Request

/-- Only the record of `pfn` may have changed, apart from directories made above it. -/
structure OnlyRecord (pfn : Bytes) (fs fs' : Fs) : Prop where
  data : fs'.view (resolve pfn) = fs.view (resolve pfn)
  others : ∀ q, q ≠ recordPath pfn → fs'.entry q = fs.entry q ∨
    q <+: recordPath pfn ∧ fs.entry q = none ∧ fs'.entry q = some (.dir 0o755)

theorem resolve_ne_recordPath (pfn : Bytes) : resolve pfn ≠ recordPath pfn := by
  intro h
  have := congrArg List.length h
  simp [recordPath] at this

theorem OnlyRecord.of_eq {pfn : Bytes} {fs fs' : Fs} (h : fs' = fs) : OnlyRecord pfn fs fs' := by
  subst h
  exact ⟨rfl, fun _ _ => Or.inl rfl⟩

theorem Written.onlyRecord {w w' : World} {pfn : Bytes} {values : ChecksumValues} (h : Written w pfn values w') :
    OnlyRecord pfn w.fs w'.fs := by
  rcases h.fs with hfs | ⟨t, -, hput⟩
  · exact .of_eq hfs
  · exact ⟨hput.view_of_ne (resolve_ne_recordPath pfn), fun q hq => hput.entry_of_ne hq⟩

/-- What a request can do: nothing or write the record, and then it does not unlink, or unlink. -/
def Request.Does (env : Env) (pfn : Bytes) (r : Request) (w w' : World) : Prop :=
  ((Unchanged w w' ∨ ∃ values, Written w pfn values w') ∧
    (w.Calm → ¬ r.Unlinks env (fun F text => text = readText F) w.fs pfn)) ∨
  (Unlinked w (resolve pfn) w' ∧ r.Unlinks env IsText w.fs pfn ∧
    (w.Calm → r.Unlinks env (fun F text => text = readText F) w.fs pfn))

theorem Request.unlinks_iff {r : Request} {R : Bytes → Bytes → Prop} {fs : Fs} {pfn name : Bytes}
    (hr : r.lookup = some name) : r.Unlinks env R fs pfn ↔
      env.g_hdfs_oss ∧ ∃ F text, fs.view (recordPath pfn) = some F ∧ R F text ∧ Lacks text name := by
  cases r with
  | del => cases hr
  | _ => simp only [Request.Unlinks, hr, Option.mem_def, Option.some.injEq, exists_eq_left']

/-- A request that calls `Get`. -/
theorem GetDoes.does {pfn : Bytes} {cks : XrdCksData} {w w' : World} {out : GetOut} {r : Request}
    (h : GetDoes env pfn cks w out w') (hr : r.lookup = some (requestedChecksum cks)) : r.Does env pfn w w' := by
  unfold Request.Does
  simp only [Request.unlinks_iff hr]
  rcases h with ⟨-, -, hu, hno⟩ | ⟨hoss, F, text, hF, htext, hcalm, -, hkeep, hdel⟩
  · left
    refine ⟨Or.inl hu, ?_⟩
    rintro hw ⟨hoss, F, text, hF, -⟩
    rw [hno hw hoss] at hF
    cases hF
  · by_cases hl : Lacks text (requestedChecksum cks)
    · exact Or.inr ⟨hdel hl, ⟨hoss, F, text, hF, htext, hl⟩, fun hw => ⟨hoss, F, text, hF, hcalm hw, hl⟩⟩
    · left
      refine ⟨Or.inl (hkeep hl), ?_⟩
      rintro hw ⟨-, F', t, hF', rfl, hl'⟩
      rw [hF, Option.some.injEq] at hF'
      subst hF'
      exact hl (hcalm hw ▸ hl')

/-- **What a request does.** -/
theorem request_spec (hN : env.the_N2N = none) (pfn : Bytes) (r : Request) (w : World) :
    Gives (r.run env pfn) w fun _ w' => r.Does env pfn w w' := by
  cases r with
  | get cks =>
    refine Gives.bind ((get_spec hN pfn cks w).mono fun out w' h => Gives.pure ?_)
    exact h.does rfl
  | del =>
    refine Gives.bind ((unlink_spec hN pfn w).mono fun rc w' h => Gives.pure ?_)
    exact Or.inr ⟨h.1, trivial, fun _ => trivial⟩
  | list blen separator =>
    refine Gives.bind ((list_spec pfn blen separator w).mono fun out w' h => Gives.pure ?_)
    exact Or.inl ⟨Or.inl h, fun _ h => by simp [Request.Unlinks, Request.lookup] at h⟩
  | ver cks =>
    refine Gives.bind ((ver_spec hN pfn cks w).mono ?_)
    rintro rc w' ⟨out, h, -⟩
    exact Gives.pure (h.does rfl)
  | set cks =>
    refine Gives.bind ((set_spec hN pfn cks w).mono fun out w' h => Gives.pure ?_)
    exact Or.inl ⟨h, fun _ h => by simp [Request.Unlinks, Request.lookup] at h⟩
  | calcDigest cks do_set =>
    refine Gives.bind ((calc_spec hN pfn cks do_set w).mono ?_)
    rintro r w' (⟨-, -, hu, -⟩ | ⟨-, digest, D, junk, st, -, -, -, -, hw, -⟩)
    · exact Gives.pure (Or.inl ⟨Or.inl hu, fun _ h => by simp [Request.Unlinks, Request.lookup] at h⟩)
    · exact Gives.pure (Or.inl ⟨Or.inr ⟨_, hw⟩, fun _ h => by simp [Request.Unlinks, Request.lookup] at h⟩)

/-- **What a request may change.**  On a file at `pfn`: without faults, a request changes only the record if and only
if it does not unlink; and with faults, a request that cannot unlink changes only the record. -/
theorem only_record_iff (hN : env.the_N2N = none) (pfn D : Bytes) (r : Request) (w : World)
    (hD : w.fs.view (resolve pfn) = some D) :
    Gives (r.run env pfn) w fun _ w' =>
      (w.Calm → (OnlyRecord pfn w.fs w'.fs ↔ ¬ r.Unlinks env (fun F text => text = readText F) w.fs pfn)) ∧
      (¬ r.Unlinks env IsText w.fs pfn → OnlyRecord pfn w.fs w'.fs) := by
  refine (request_spec hN pfn r w).mono ?_
  rintro _ w' (⟨hdoes, hno⟩ | ⟨⟨-, hdel⟩, hyes, hcalm⟩)
  · have honly : OnlyRecord pfn w.fs w'.fs := by
      rcases hdoes with hu | ⟨values, hw⟩
      · exact .of_eq hu.fs
      · exact hw.onlyRecord
    exact ⟨fun hw => ⟨fun _ => hno hw, fun _ => honly⟩, fun _ => honly⟩
  · refine ⟨fun hw => ⟨fun honly => ?_, fun h => absurd (hcalm hw) h⟩, fun h => absurd hyes h⟩
    -- the file is there, so it could be deleted
    obtain ⟨i, hi, -⟩ := Fs.view_eq_some.1 hD
    obtain ⟨fs', hfs', htree, -⟩ := Fs.delete_file hi
    rcases hdel with h | ⟨-, h⟩
    · rw [hfs'] at h
      obtain rfl := Option.some.inj h
      have hgone : w'.fs.view (resolve pfn) = none := by
        rw [Fs.view_eq_none, htree, Tree.remove_ino, if_pos rfl]
      rw [honly.data, hD] at hgone
      cases hgone
    · rw [h hw] at hfs'
      cases hfs'

/-- A file with a record that has its MD5 only. -/
def onlyMd5 : World where
  fs := .ofFiles [(str "/a", str "x"), (str "/cksums/a", str "MD5:9dd4e461268c8034f5c8564e155c67a6\n")]

/-- Asking for the recorded digest changes nothing but the record. -/
theorem only_record_iff_md5 : Gives ((Request.get { Name := str "md5" }).run Reference.env (str "/a")) onlyMd5
    fun _ w' => OnlyRecord (str "/a") onlyMd5.fs w'.fs := by
  refine (only_record_iff rfl (str "/a") (str "x") (.get { Name := str "md5" }) onlyMd5 (by decide +kernel)).mono
    fun _ w' h => (h.1 (fun c a ha => by cases ha)).2 ?_
  rw [Request.unlinks_iff rfl]
  rintro ⟨-, F, text, hF, rfl, hl⟩
  have hrec : onlyMd5.fs.view (recordPath (str "/a")) = some (str "MD5:9dd4e461268c8034f5c8564e155c67a6\n") := by
    decide +kernel
  rw [hrec, Option.some.injEq] at hF
  subst hF
  exact absurd hl (by decide +kernel)

/-- Asking for another digest deletes the file. -/
theorem get_unlinks_data_file : onlyMd5.fs.view (resolve (str "/a")) = some (str "x") ∧
    ((ChecksumManager.get Reference.env (str "/a") { Name := str "adler32" }).run 9 onlyMd5).map
      (fun r => (r.1.rc, r.2.fs.view (resolve (str "/a")))) = some (-ESRCH, none) := by
  decide +kernel

end XrdHdfs
