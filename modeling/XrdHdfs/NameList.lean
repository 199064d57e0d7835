import XrdHdfs.Lib.Memory
import XrdHdfs.ManagerSpec

/-!
# `List`, and the buffer of its caller

`List` copies the names of the recorded digests, with a separator between them, to a buffer of `blen` bytes.  It clamps
what it copies to the buffer, but copies no NUL behind it, as `Readdir` does with its `strlcpy`; `list_usable_iff` says
when there is one nevertheless.
-/

namespace XrdHdfs

open Lib World

variable {env : Env}

/-! ### The source -/

/-- `(static_cast<unsigned>(blen) < result.size()) ? blen : result.size()`. -/
def memToCopy (blen : ℤ) (size : ℕ) : ℕ := if u32 blen < size then (u64 blen).toNat else size

/-- The loop of `List` over the entries. -/
def joinLoop (separator : UInt8) : ChecksumValues → Bool → Bytes → Bytes
  | [], _, ss => ss
  | e :: values, first_entry, ss => joinLoop separator values false ((if first_entry then ss else ss ++ [separator]) ++ e.1)

/-- `ChecksumManager::List` with the memory from `buff` on: `none` for `NULL`, or the memory afterwards. -/
def listInto (env : Env) (pfn : Bytes) (buff : ℕ → UInt8) (blen : ℤ) (separator : UInt8) :
    Prog World (Option (ℕ → UInt8)) := do
  let (rc, checksum_contents) ← ChecksumManager.getFileContents env pfn
  if rc ≠ 0 then pure none
  else
    let (rc, values) := parse checksum_contents
    if rc ≠ 0 then pure none
    else
      let result := joinLoop separator values true []
      let mem_to_copy := memToCopy blen result.length
      pure (some (put buff 0 (result.take mem_to_copy)))

/-! ### The joined names -/

/-- The recorded names in their order, with the separator between them. -/
def joined (separator : UInt8) (values : ChecksumValues) : Bytes := List.intercalate [separator] (values.map Prod.fst)

theorem joinLoop_eq (separator : UInt8) (values : ChecksumValues) (ss : Bytes) :
    joinLoop separator values false ss = ss ++ values.flatMap fun e => separator :: e.1 := by
  induction values generalizing ss with
  | nil => simp [joinLoop]
  | cons e values ih => simp [joinLoop, ih]

theorem joinLoop_true (separator : UInt8) (values : ChecksumValues) :
    joinLoop separator values true [] = joined separator values := by
  cases values with
  | nil => rfl
  | cons e values =>
    have hrest : ∀ (vs : ChecksumValues) (name : Bytes), List.intercalate [separator] (name :: vs.map Prod.fst) =
        name ++ vs.flatMap fun e => separator :: e.1 := by
      intro vs
      induction vs with
      | nil => simp [List.intercalate]
      | cons e vs ih => simp [List.intercalate_cons_cons, ih]
    rw [joinLoop, if_pos rfl, List.nil_append, joinLoop_eq, joined, List.map_cons, hrest]

/-- For a buffer of positive length the clamp is the minimum. -/
theorem memToCopy_eq {blen : ℤ} (hpos : 0 < blen) (hint : blen < 2 ^ 31) (size : ℕ) :
    memToCopy blen size = min blen.toNat size := by
  unfold memToCopy
  rw [u32_of_lt (by omega) (by omega), u64_of_lt (by omega) (by omega)]
  split <;> omega

/-- The buffer is what `ChecksumManager.list` says is copied to it. -/
theorem listInto_run (pfn : Bytes) (buff : ℕ → UInt8) {blen : ℤ} (hpos : 0 < blen) (hint : blen < 2 ^ 31)
    (separator : UInt8) (n : ℕ) (w : World) : (listInto env pfn buff blen separator).run n w =
      ((ChecksumManager.list env pfn blen.toNat separator).run n w).map fun r => (r.1.map (put buff 0), r.2) := by
  unfold listInto ChecksumManager.list
  change ((ChecksumManager.getFileContents env pfn).run n w).bind _ =
    (((ChecksumManager.getFileContents env pfn).run n w).bind _).map _
  rcases (ChecksumManager.getFileContents env pfn).run n w with _ | ⟨⟨rc, text⟩, w'⟩
  · rfl
  dsimp only [Option.bind_some]
  by_cases hrc : rc ≠ 0
  · rw [if_pos hrc, if_pos hrc]
    rfl
  rw [if_neg hrc, if_neg hrc]
  by_cases hparse : (parse text).1 ≠ 0
  · rw [if_pos hparse, if_pos hparse]
    rfl
  rw [if_neg hparse, if_neg hparse, joinLoop_true, memToCopy_eq hpos hint]
  have hclamp : ∀ m : ℕ, min blen.toNat m = if blen.toNat < m then blen.toNat else m := by
    intro m
    split <;> omega
  rw [hclamp]
  rfl

/-! ### The string in the buffer -/

/-- **What a caller relies on**: a NUL in the buffer, a string that is the list as far as there is room for it, and nothing
written behind the buffer. -/
structure UsableString (names : Bytes) (blen : ℕ) (buff buff' : ℕ → UInt8) : Prop where
  terminated : 0 ∈ region buff' 0 blen
  start : cstr (region buff' 0 blen) <+: names
  whole : names.length < blen → cstr (region buff' 0 blen) = names
  behind : ∀ i, blen ≤ i → buff' i = buff i

/-- When it can: there is a NUL behind the list already, or one in the part of it that is copied. -/
def Terminated (names : Bytes) (blen : ℕ) (buff : ℕ → UInt8) : Prop :=
  if names.length < blen then 0 ∉ names ∧ buff names.length = 0 else 0 ∈ names.take blen

theorem region_copied {blen n : ℕ} (names : Bytes) (buff : ℕ → UInt8) (hn : n ≤ names.length) (hle : n ≤ blen) :
    region (put buff 0 (names.take n)) 0 blen = names.take n ++ region buff n (blen - n) := by
  have hlen : (names.take n).length = n := by rw [List.length_take, Nat.min_eq_left hn]
  obtain ⟨k, rfl⟩ := Nat.exists_eq_add_of_le hle
  rw [region_add, Nat.zero_add, Nat.add_sub_cancel_left, region_put hlen, region_put_behind (by rw [hlen, Nat.zero_add])]

theorem usable_iff (names : Bytes) (blen : ℕ) (buff : ℕ → UInt8) :
    UsableString names blen buff (put buff 0 (names.take (min blen names.length))) ↔ Terminated names blen buff := by
  have hbehind : ∀ i, blen ≤ i → put buff 0 (names.take (min blen names.length)) i = buff i := by
    intro i hi
    refine put_of_le ?_
    rw [List.length_take]
    omega
  have hregion := region_copied names buff (Nat.min_le_right blen _) (Nat.min_le_left _ _)
  unfold Terminated
  split
  · next hlt =>
    -- the list, and then what was there before
    obtain ⟨k, hk⟩ := Nat.exists_eq_add_of_lt hlt
    rw [Nat.min_eq_right hlt.le, List.take_length, show blen - names.length = k + 1 by omega, region_succ] at hregion
    rw [Nat.min_eq_right hlt.le, List.take_length] at hbehind ⊢
    constructor
    · intro h
      have hwhole := h.whole hlt
      rw [hregion] at hwhole
      have h0 : 0 ∉ names := by
        rw [← hwhole]
        exact not_mem_zero_cstr _
      refine ⟨h0, ?_⟩
      by_contra hne
      have hlen := congrArg List.length hwhole
      rw [cstr_append_of_not_mem h0, List.length_append, cstr, List.takeWhile_cons_of_pos (by simpa using hne),
        List.length_cons] at hlen
      omega
    · rintro ⟨h0, hnul⟩
      rw [hnul] at hregion
      have hcstr : cstr (region (put buff 0 names) 0 blen) = names := by rw [hregion, cstr_append h0]
      exact ⟨by rw [hregion]; simp, by rw [hcstr], fun _ => hcstr, hbehind⟩
  · next hge =>
    -- only the list
    rw [Nat.min_eq_left (by omega), Nat.sub_self, region_zero, List.append_nil] at hregion
    rw [Nat.min_eq_left (by omega)] at hbehind ⊢
    constructor
    · intro h
      rw [← hregion]
      exact h.terminated
    · intro h
      refine ⟨by rwa [hregion], ?_, fun h => absurd h hge, hbehind⟩
      rw [hregion]
      exact (List.takeWhile_prefix _).trans (List.take_prefix _ _)

/-! ### `List` -/

/-- What `List` copies is the list, clamped to the buffer. -/
theorem listInto_spec (pfn : Bytes) (buff : ℕ → UInt8) {blen : ℤ} (hpos : 0 < blen) (hint : blen < 2 ^ 31)
    (separator : UInt8) (w : World) : Gives (listInto env pfn buff blen separator) w fun out _ => ∀ buff' ∈ out,
      ∃ F text values, w.fs.view (env.recordFile pfn) = some F ∧ IsText F text ∧ (w.Calm → text = readText F) ∧
        parse text = (0, values) ∧
        buff' = put buff 0 ((joined separator values).take (min blen.toNat (joined separator values).length)) := by
  refine Gives.bind ((getFileContents_mapped pfn w).mono ?_)
  rintro ⟨rc, text⟩ w' ⟨-, ⟨hrc, -⟩ | ⟨rfl, -, F, hF, htext, hcalm⟩⟩
  · exact Gives.ite (fun _ => Gives.pure (by simp)) fun h => absurd hrc (by simp at h; omega)
  refine Gives.ite (fun h => absurd rfl h) fun _ => ?_
  dsimp only at htext hcalm ⊢
  rcases hparse : parse text with ⟨rc, values⟩
  refine Gives.ite (fun _ => Gives.pure (by simp)) fun h0 => Gives.pure ?_
  obtain rfl : rc = 0 := not_not.1 h0
  intro buff' hbuff'
  obtain rfl := Option.some.inj hbuff'
  refine ⟨F, text, values, hF, htext, hcalm, hparse, ?_⟩
  rw [joinLoop_true, memToCopy_eq hpos hint]

/-- **When `List` leaves a usable string.**  Whatever the script, the separator and the buffer of positive length with
whatever it held: when `List` does not return `NULL`, it was a record that `Parse` accepts, and the caller has what it
relies on if and only if the list is shorter than the buffer, has no NUL in it and ends before one that was there, or is
not shorter and has a NUL in the part that was copied. -/
theorem list_usable_iff (pfn : Bytes) (buff : ℕ → UInt8) {blen : ℤ} (hpos : 0 < blen) (hint : blen < 2 ^ 31)
    (separator : UInt8) (w : World) : Gives (listInto env pfn buff blen separator) w fun out _ => ∀ buff' ∈ out,
      ∃ F text values, w.fs.view (env.recordFile pfn) = some F ∧ IsText F text ∧ (w.Calm → text = readText F) ∧
        parse text = (0, values) ∧
        (UsableString (joined separator values) blen.toNat buff buff' ↔
          Terminated (joined separator values) blen.toNat buff) := by
  refine (listInto_spec pfn buff hpos hint separator w).mono fun out w' h buff' hbuff' => ?_
  obtain ⟨F, text, values, hF, htext, hcalm, hparse, rfl⟩ := h buff' hbuff'
  exact ⟨F, text, values, hF, htext, hcalm, hparse, usable_iff _ _ _⟩

/-- The records of two digests. -/
def twoDigests : World where
  fs := .ofFiles [(str "/cksums/a", str "MD5:0aff\nADLER32:00620062\n")]

theorem list_usable_iff_a : (0 : ℤ) < 12 ∧ (12 : ℤ) < 2 ^ 31 ∧
    Gives (listInto Reference.env (str "/a") (fun _ => 0) 12 44) twoDigests fun out _ => ∀ buff' ∈ out,
      ∃ F text values, twoDigests.fs.view (Reference.env.recordFile (str "/a")) = some F ∧ IsText F text ∧
        (twoDigests.Calm → text = readText F) ∧ parse text = (0, values) ∧
        (UsableString (joined 44 values) 12 (fun _ => 0) buff' ↔ Terminated (joined 44 values) 12 fun _ => 0) :=
  ⟨by norm_num, by norm_num, list_usable_iff (str "/a") (fun _ => 0) (by norm_num) (by norm_num) 44 twoDigests⟩

/-- **The list is not terminated**: in a buffer that was not cleared, what was there before follows the names. -/
theorem list_not_terminated :
    ((listInto Reference.env (str "/a") (fun _ => 120) 16 44).run 9 twoDigests).map
      (fun r => r.1.map fun buff' => region buff' 0 16) = some (some (str "MD5,ADLER32xxxxx")) ∧
    ¬ Gives (listInto Reference.env (str "/a") (fun _ => 120) 16 44) twoDigests fun out _ => ∀ buff' ∈ out,
      ∃ names, UsableString names 16 (fun _ => 120) buff' := by
  have hrun : ((listInto Reference.env (str "/a") (fun _ => 120) 16 44).run 9 twoDigests).map
      (fun r => r.1.map fun buff' => region buff' 0 16) = some (some (str "MD5,ADLER32xxxxx")) := by
    decide +kernel
  refine ⟨hrun, fun h => ?_⟩
  obtain ⟨⟨out, w'⟩, hw', hout⟩ := Option.map_eq_some_iff.1 hrun
  obtain ⟨buff', rfl, hregion⟩ := Option.map_eq_some_iff.1 hout
  obtain ⟨names, husable⟩ := h.ends 9 _ w' hw' buff' rfl
  have hnul := husable.terminated
  rw [hregion] at hnul
  exact absurd hnul (by decide +kernel)

end XrdHdfs
