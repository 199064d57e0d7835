import XrdHdfs.CallLog
import XrdHdfs.System

/-!
# `Mkdir` on the bytes of its path

`Mkdir` takes the trailing slashes off in place, from the back, and cuts the path behind its last slash to ask whether
the directory above is there; then it puts the byte back.  `mkdirInPlace` does this on the buffer, and notes which places
it reads or writes; `inPlace_eq` says that what comes out are `trimSlashes` and `parentDir`.

`mkdir_once`: one directory is made at most, at the path without its trailing slashes, and only where there is nothing
above it but the root, or `hdfsExists` said that the directory above is there.
-/

namespace XrdHdfs

open Lib World

variable {env : Env}

/-! ### The buffer -/

/-- A path in memory, its NUL included, and the places that were read or written. -/
structure PathBuffer where
  bytes : Bytes
  touched : List ℕ := []

namespace PathBuffer

def get (i : ℕ) (p : PathBuffer) : UInt8 × PathBuffer := (p.bytes.getD i 0, { p with touched := p.touched ++ [i] })

def set (i : ℕ) (c : UInt8) (p : PathBuffer) : PathBuffer :=
  { bytes := p.bytes.set i c, touched := p.touched ++ [i] }

/-- What goes over the whole string, as `strlen` does. -/
def scanned (p : PathBuffer) : PathBuffer :=
  { p with touched := p.touched ++ List.range ((cstr p.bytes).length + 1) }

/-- `strrchr`: where the last `c` is. -/
def strrchr (c : UInt8) (p : PathBuffer) : Option ℕ × PathBuffer :=
  match (cstr p.bytes).rdropWhile (· ≠ c) with
  | [] => (none, p.scanned)
  | _ :: s => (some s.length, p.scanned)

/-- The loop of `Mkdir`, with `len` before it is decremented: whether it came to the first byte, and the buffer. -/
def trimLoop : ℕ → PathBuffer → Bool × PathBuffer
  | 0, p => (false, (p.get (2 ^ 64 - 1)).2)
  | len + 1, p =>
    if len = 0 then (true, p)
    else
      let (c, p) := p.get len
      let p := if c = 47 then p.set len 0 else p
      let (c, p) := p.get len
      if c = 0 then trimLoop len p else (false, p)

/-- The path is cut behind its last slash, where this is not its first byte, and put together again: the part for
`hdfsExists`, and the path. -/
def cutParent (p : PathBuffer) : (Option Bytes × Bytes) × PathBuffer :=
  match p.strrchr 47 with
  | (some (k + 1), p) =>
    let parent_dir := k + 2
    let (old_value, p) := p.get parent_dir
    let p := p.set parent_dir 0
    let parent := cstr p.bytes
    let p := p.set parent_dir old_value
    ((some parent, cstr p.bytes), p)
  | (_, p) => ((none, cstr p.bytes), p)

end PathBuffer

open PathBuffer

/-- What `Mkdir` without `mkpath` makes of its path: nothing where it was asked for the root; else the string it gives to
`hdfsExists`, if it does, and the one it gives to `hdfsCreateDirectory`. -/
def inPlace (path : Bytes) : Option (Option Bytes × Bytes) × PathBuffer :=
  match trimLoop path.length (scanned { bytes := path ++ [0] }) with
  | (true, p) => (none, p)
  | (false, p) => (some (cutParent p).1, (cutParent p).2)

/-- `Mkdir`, on the buffer. -/
def mkdirInPlace (env : Env) (req_path : Bytes) (_mode : ℕ) (mkpath : Bool) : Prog World ℤ :=
  let path := env.getRealPath req_path
  withConnection <|
    if mkpath then callOnce (hdfsCreateDirectory path)
    else
      match (inPlace path).1 with
      | none => pure 0
      | some (parent, path) => do
        let missing ← .step (match parent with
          | none => fun w => (0, w)
          | some parent => hdfsExists parent)
        if missing ≠ 0 then .step (World.errorCode .sys (.errnoOr ENOENT))
        else do
          .step World.clearErrno
          callOnce (hdfsCreateDirectory path)

/-! ### The loop -/

theorem trimSlashes_slash {s : Bytes} (hs : s ≠ []) : trimSlashes (s ++ [47]) = trimSlashes s := by
  have hpos := List.length_pos_iff.2 hs
  unfold trimSlashes
  rw [List.take_append_of_le_length (by omega), List.drop_append_of_le_length (by omega),
    List.rdropWhile_concat_pos _ _ _ (by simp)]

theorem trimSlashes_concat {s : Bytes} (hs : s ≠ []) {c : UInt8} (hc : c ≠ 47) : trimSlashes (s ++ [c]) = some (s ++ [c]) := by
  have hpos := List.length_pos_iff.2 hs
  unfold trimSlashes
  rw [List.take_append_of_le_length (by omega), List.drop_append_of_le_length (by omega),
    List.rdropWhile_concat_neg _ _ _ (by simpa using hc), ← List.append_assoc, List.take_append_drop]
  dsimp only
  rw [if_neg (by rw [List.length_append, List.length_singleton]; omega)]

theorem trimSlashes_single (c : UInt8) : trimSlashes [c] = none := by
  simp [trimSlashes]

section Access

variable (s : Bytes) (c : UInt8) (rest : Bytes) (touched : List ℕ)

theorem get_middle : PathBuffer.get s.length ⟨s ++ c :: rest, touched⟩ = (c, ⟨s ++ c :: rest, touched ++ [s.length]⟩) := by
  simp [PathBuffer.get]

theorem set_middle (d : UInt8) :
    PathBuffer.set s.length d ⟨s ++ c :: rest, touched⟩ = ⟨s ++ d :: rest, touched ++ [s.length]⟩ := by
  simp [PathBuffer.set]

end Access

/-- All the places are inside a string of `n` bytes, its NUL included. -/
def PathBuffer.Inside (n : ℕ) (p : PathBuffer) : Prop := ∀ i ∈ p.touched, i ≤ n

/-- **The loop takes the trailing slashes off**, and puts NULs in their place.  It stays inside the string. -/
theorem trimLoop_spec (s : Bytes) (hs : s ≠ []) (h0 : 0 ∉ s) (m : ℕ) (touched : List ℕ) {n : ℕ} (hn : s.length ≤ n)
    (htouched : ∀ i ∈ touched, i ≤ n) :
    ∃ p : PathBuffer, p.Inside n ∧
      match trimSlashes s with
      | none => trimLoop s.length ⟨s ++ 0 :: List.replicate m 0, touched⟩ = (true, p)
      | some t => trimLoop s.length ⟨s ++ 0 :: List.replicate m 0, touched⟩ = (false, p) ∧ t <+: s ∧ 2 ≤ t.length ∧
          ∃ k, p.bytes = t ++ 0 :: List.replicate k 0 := by
  induction s using List.reverseRecOn generalizing m touched with
  | nil => exact absurd rfl hs
  | append_singleton s c ih =>
    rcases eq_or_ne s [] with rfl | hne
    · exact ⟨⟨[] ++ [c] ++ 0 :: List.replicate m 0, touched⟩, htouched, by rw [List.nil_append, trimSlashes_single]; rfl⟩
    have hpos := List.length_pos_iff.2 hne
    rw [List.length_append, List.length_singleton] at hn
    have hin : ∀ l : List ℕ, (∀ i ∈ l, i = s.length) → ∀ i ∈ touched ++ l, i ≤ n := by
      intro l hl i hi
      rcases List.mem_append.1 hi with hi | hi
      · exact htouched i hi
      · rw [hl i hi]
        omega
    rw [List.length_append, List.length_singleton, List.append_assoc, List.singleton_append, trimLoop, if_neg hpos.ne',
      get_middle]
    dsimp only
    rcases eq_or_ne c 47 with rfl | hc
    · rw [if_pos rfl, set_middle, get_middle, trimSlashes_slash hne]
      dsimp only
      rw [if_pos rfl]
      have h := ih hne (fun h => h0 (List.mem_append_left _ h)) (m + 1) (touched ++ [s.length] ++ [s.length] ++ [s.length])
        (by omega) (by simpa using hin [s.length, s.length, s.length] (by simp))
      obtain ⟨p, hp, hmatch⟩ := h
      refine ⟨p, hp, ?_⟩
      rcases htrim : trimSlashes s with _ | t
      · rw [htrim] at hmatch
        exact hmatch
      · rw [htrim] at hmatch
        obtain ⟨hloop, hpre, hlen, hbytes⟩ := hmatch
        exact ⟨hloop, hpre.trans (List.prefix_append _ _), hlen, hbytes⟩
    · have hc0 : c ≠ 0 := by
        rintro rfl
        exact h0 (by simp)
      rw [if_neg hc, get_middle, trimSlashes_concat hne hc]
      dsimp only
      rw [if_neg hc0]
      refine ⟨_, ?_, rfl, List.prefix_rfl, ?_, m, by simp⟩
      · intro i hi
        exact hin [s.length, s.length] (by simp) i (by simpa using hi)
      · rw [List.length_append, List.length_singleton]
        omega

/-! ### What comes out -/

theorem Inside.scanned {n : ℕ} {p : PathBuffer} (hp : p.Inside n) (h : (cstr p.bytes).length ≤ n) : p.scanned.Inside n := by
  intro i hi
  rcases List.mem_append.1 hi with hi | hi
  · exact hp i hi
  · have := List.mem_range.1 hi
    omega

/-- `strrchr` finds the end of the directory above. -/
theorem strrchr_eq {p : PathBuffer} {t : Bytes} (h : cstr p.bytes = t) : p.strrchr 47 =
    (if (parentDir t).length = 0 then none else some ((parentDir t).length - 1), p.scanned) := by
  have hparent : (cstr p.bytes).rdropWhile (· ≠ 47) = parentDir t := by rw [h]; rfl
  unfold PathBuffer.strrchr
  rw [hparent]
  rcases parentDir t with _ | ⟨c, s⟩
  · rfl
  · simp

/-- **What comes of the cut**: the directory above, unless it is the root, and the path as it was. -/
theorem cutParent_spec {p : PathBuffer} {t : Bytes} (h0 : 0 ∉ t) {k n : ℕ} (hbytes : p.bytes = t ++ 0 :: List.replicate k 0)
    (hp : p.Inside n) (hn : t.length ≤ n) : (cutParent p).2.Inside n ∧
      (cutParent p).1 = (if (parentDir t).length ≤ 1 then none else some (parentDir t), t) := by
  have hcstr : cstr p.bytes = t := by rw [hbytes, cstr_append h0]
  have hscan : p.scanned.Inside n := Inside.scanned hp (by rw [hcstr]; exact hn)
  have hpre : parentDir t <+: t := List.rdropWhile_prefix _ t
  -- the byte behind the last slash
  obtain ⟨c, rest, hcut⟩ : ∃ c rest, p.bytes = parentDir t ++ c :: rest := by
    obtain ⟨r, hr⟩ := hpre
    rw [hbytes]
    nth_rewrite 1 [← hr]
    rcases r with _ | ⟨c, r⟩
    · exact ⟨0, _, by rw [List.append_nil]⟩
    · exact ⟨c, r ++ 0 :: List.replicate k 0, by simp⟩
  unfold cutParent
  rw [strrchr_eq hcstr]
  rcases hlen : (parentDir t).length with _ | _ | j
  · exact ⟨hscan, by rw [← hcstr]; rfl⟩
  · exact ⟨hscan, by rw [← hcstr]; rfl⟩
  have hget : PathBuffer.get (j + 2) p.scanned = (c, ⟨p.bytes, p.scanned.touched ++ [j + 2]⟩) := by
    have := get_middle (parentDir t) c rest p.scanned.touched
    rw [hlen, ← hcut] at this
    exact this
  have hset : ∀ (d e : UInt8) (l : List ℕ), PathBuffer.set (j + 2) e ⟨parentDir t ++ d :: rest, l⟩ =
      ⟨parentDir t ++ e :: rest, l ++ [j + 2]⟩ := by
    intro d e l
    have := set_middle (parentDir t) d rest l e
    rwa [hlen] at this
  have hj : j + 2 ≤ n := by
    have := hpre.length_le
    omega
  simp only [Nat.add_one_sub_one, Nat.add_eq_zero_iff, one_ne_zero, and_false, if_false]
  rw [hget]
  dsimp only
  rw [hcut, hset, hset, ← hcut, hcstr, cstr_append fun h => h0 (hpre.subset h), if_neg (by omega)]
  refine ⟨fun i hi => ?_, rfl⟩
  simp only [List.append_assoc, List.mem_append, List.mem_singleton] at hi
  rcases hi with hi | hi | hi | hi
  · exact hscan i hi
  · omega
  · omega
  · omega

/-- **What `Mkdir` makes of its path**, all inside the string. -/
theorem inPlace_eq {path : Bytes} (hne : path ≠ []) (h0 : 0 ∉ path) : (inPlace path).2.Inside path.length ∧
    (inPlace path).1 = (trimSlashes path).map fun t =>
      (if (parentDir t).length ≤ 1 then none else some (parentDir t), t) := by
  have hstart : PathBuffer.scanned { bytes := path ++ [0] } =
      ⟨path ++ 0 :: List.replicate 0 0, List.range (path.length + 1)⟩ := by
    unfold PathBuffer.scanned
    dsimp only
    rw [show path ++ [0] = path ++ 0 :: [] from rfl, cstr_append h0]
    rfl
  obtain ⟨p, hp, hmatch⟩ := trimLoop_spec path hne h0 0 (List.range (path.length + 1)) le_rfl
    fun i hi => by have := List.mem_range.1 hi; omega
  unfold inPlace
  rw [hstart]
  rcases htrim : trimSlashes path with _ | t
  · rw [htrim] at hmatch
    dsimp only at hmatch
    rw [hmatch]
    exact ⟨hp, rfl⟩
  · rw [htrim] at hmatch
    obtain ⟨hloop, hpre, -, k, hbytes⟩ := hmatch
    obtain ⟨hin, hcut⟩ := cutParent_spec (fun h => h0 (hpre.subset h)) hbytes hp hpre.length_le
    rw [hloop]
    exact ⟨hin, congrArg some hcut⟩

/-- On the buffer, `Mkdir` does what it does on the string. -/
theorem mkdirInPlace_eq {req_path : Bytes} (hne : env.getRealPath req_path ≠ []) (h0 : 0 ∉ env.getRealPath req_path)
    (mode : ℕ) (mkpath : Bool) : mkdirInPlace env req_path mode mkpath = mkdir env req_path mode mkpath := by
  unfold mkdirInPlace mkdir
  dsimp only
  rw [(inPlace_eq hne h0).2]
  rcases trimSlashes (env.getRealPath req_path) with _ | t
  · rfl
  · unfold parentMissing
    simp only [Option.map_some]
    split_ifs <;> rfl

/-! ### One directory at most -/

theorem trimSlashes_eq_some {s t : Bytes} (h : trimSlashes s = some t) : t = s.rdropWhile (· = 47) := by
  induction s using List.reverseRecOn with
  | nil => simp [trimSlashes] at h
  | append_singleton s c ih =>
    rcases eq_or_ne s [] with rfl | hne
    · rw [List.nil_append, trimSlashes_single] at h
      cases h
    rcases eq_or_ne c 47 with rfl | hc
    · rw [trimSlashes_slash hne] at h
      rw [ih h, List.rdropWhile_concat_pos _ _ _ (by simp)]
    · rw [trimSlashes_concat hne hc, Option.some.injEq] at h
      rw [← h, List.rdropWhile_concat_neg _ _ _ (by simpa using hc)]

theorem trimSlashes_slashes {s : Bytes} (h : ∀ c ∈ s, c = 47) : trimSlashes s = none := by
  induction s using List.reverseRecOn with
  | nil => rfl
  | append_singleton s c ih =>
    obtain rfl : c = 47 := h c (by simp)
    rcases eq_or_ne s [] with rfl | hne
    · exact trimSlashes_single 47
    · rw [trimSlashes_slash hne]
      exact ih fun c hc => h c (List.mem_append_left _ hc)

/-- A path whose directory above is not asked for has no slash but its first byte. -/
theorem not_mem_tail {t : Bytes} (h : (parentDir t).length ≤ 1) : 47 ∉ t.tail := by
  have hcut : parentDir t ++ t.rtakeWhile (· ≠ 47) = t := List.rdropWhile_append_rtakeWhile
  have hrest : 47 ∉ t.rtakeWhile (· ≠ 47) := fun hmem => by simpa using List.mem_rtakeWhile_imp hmem
  intro hmem
  rw [← hcut] at hmem
  rcases hp : parentDir t with _ | ⟨c, _ | ⟨d, s⟩⟩
  · rw [hp, List.nil_append] at hmem
    exact hrest (List.mem_of_mem_tail hmem)
  · rw [hp] at hmem
    exact hrest hmem
  · rw [hp] at h
    simp at h

/-- The calls of a `Mkdir` of `path` without `mkpath`, in their order, that returned `rc`. -/
structure MkdirCalls (path : Bytes) (calls : List (LibCall × ℤ)) (rc : ℤ) : Prop where
  once : calls.countP (·.1.kind = .mkdir) ≤ 1
  made : ∀ before c after, calls = before ++ c :: after → c.1.kind = .mkdir →
    c.1 = .mkdir (path.rdropWhile (· = 47)) ∧ (47 ∉ (path.rdropWhile (· = 47)).tail ∨
      (.exists (parentDir (path.rdropWhile (· = 47))), 0) ∈ before)
  root : (∀ c ∈ path, c = 47) → (∀ c ∈ calls, c.1.kind ≠ .mkdir) ∧ (rc = 0 ∨ (.connect, -1) ∈ calls)

/-- Calls that make no directory. -/
theorem MkdirCalls.of_none {path : Bytes} {calls : List (LibCall × ℤ)} {rc : ℤ} (h : ∀ c ∈ calls, c.1.kind ≠ .mkdir)
    (hroot : (∀ c ∈ path, c = 47) → rc = 0 ∨ (.connect, -1) ∈ calls) : MkdirCalls path calls rc where
  once := by
    rw [List.countP_eq_zero.2 fun c hc => by simpa using h c hc]
    exact Nat.zero_le 1
  made before c after heq hc := absurd hc (h c (by simp [heq]))
  root hall := ⟨h, hroot hall⟩

/-- The directory is made at the end. -/
theorem MkdirCalls.of_last {path t : Bytes} {calls : List (LibCall × ℤ)} {r rc : ℤ} (ht : trimSlashes path = some t)
    (h : ∀ c ∈ calls, c.1.kind ≠ .mkdir) (hparent : (parentDir t).length ≤ 1 ∨ (.exists (parentDir t), 0) ∈ calls) :
    MkdirCalls path (calls ++ [(.mkdir t, r)]) rc where
  once := by
    rw [List.countP_append, List.countP_eq_zero.2 fun c hc => by simpa using h c hc]
    simp [LibCall.kind]
  made before c after heq hc := by
    have hlast : before = calls ∧ c = (.mkdir t, r) := by
      rcases List.eq_nil_or_concat after with rfl | ⟨after, d, rfl⟩
      · obtain ⟨rfl, hlast⟩ := List.append_inj' heq rfl
        exact ⟨rfl, (List.cons.inj hlast).1.symm⟩
      · rw [List.concat_eq_append, ← List.cons_append, ← List.append_assoc] at heq
        obtain ⟨rfl, -⟩ := List.append_inj' heq rfl
        exact absurd hc (h c (by simp))
    obtain ⟨rfl, rfl⟩ := hlast
    rw [← trimSlashes_eq_some ht]
    exact ⟨rfl, hparent.imp_left not_mem_tail⟩
  root hall := by
    rw [trimSlashes_slashes hall] at ht
    cases ht

/-- What is asked about the directory above. -/
theorem parentMissing_calls (path : Bytes) (w : World) : ∃ asked, (parentMissing path w).2.calls = w.calls ++ asked ∧
    (∀ c ∈ asked, c.1.kind ≠ .mkdir) ∧
    ((parentMissing path w).1 = 0 → (parentDir path).length ≤ 1 ∨ (.exists (parentDir path), 0) ∈ asked) := by
  unfold parentMissing
  split_ifs with h
  · exact ⟨[], by simp, by simp, fun _ => Or.inl h⟩
  · refine ⟨_, call_calls (.exists (parentDir path)) ENOENT _ w, by simp [LibCall.kind], fun h0 => Or.inr ?_⟩
    exact List.mem_singleton.2 (Prod.ext rfl h0.symm)

/-- **`Mkdir` without `mkpath`** reads and writes its path only, and makes one directory at most: at the path without its
trailing slashes, where the only slash in it is the first byte, or `hdfsExists` said before that what stands up to the
last one exists.  Of a path of slashes it makes nothing, and succeeds if it is connected. -/
theorem mkdir_once (env : Env) (req_path : Bytes) (mode : ℕ) (hslash : (env.getRealPath req_path).head? = some 47)
    (h0 : 0 ∉ env.getRealPath req_path) (w : World) :
    (inPlace (env.getRealPath req_path)).2.Inside (env.getRealPath req_path).length ∧
      Gives (mkdirInPlace env req_path mode false) w fun rc w' => ∃ calls, w'.calls = w.calls ++ calls ∧
        MkdirCalls (env.getRealPath req_path) calls rc := by
  have hne : env.getRealPath req_path ≠ [] := by
    intro h
    rw [h] at hslash
    cases hslash
  refine ⟨(inPlace_eq hne h0).1, ?_⟩
  rw [mkdirInPlace_eq hne h0]
  unfold mkdir withConnection
  dsimp only
  have hconn := hadoopConnect_calls w
  have hret : (hadoopConnect w).1 = 0 ∨ (hadoopConnect w).1 = -1 := by
    obtain ⟨-, ⟨hret, -⟩ | ⟨hret, -⟩⟩ := call_spec .connect EIO some { w with errno := 0 }
    · exact Or.inl hret
    · exact Or.inr hret
  refine Gives.bind (Gives.step (Gives.ite (fun hne => Gives.step ?_) fun hzero => Gives.bind (Gives.step ?_)))
  · rw [hret.resolve_left hne] at hconn
    exact ⟨_, hconn, .of_none (by simp [LibCall.kind]) fun _ => Or.inr (by simp)⟩
  rw [not_not.1 hzero] at hconn
  generalize (hadoopConnect w).2 = w₁ at hconn
  rcases ht : trimSlashes (env.getRealPath req_path) with _ | t
  · exact Gives.pure ⟨_, hconn, .of_none (by simp [LibCall.kind]) fun _ => Or.inl rfl⟩
  have hroot : ¬ ∀ c ∈ env.getRealPath req_path, c = 47 := by
    intro hall
    rw [trimSlashes_slashes hall] at ht
    cases ht
  obtain ⟨asked, hasked, hkind, hparent⟩ := parentMissing_calls t (clearErrno w₁).2
  have hbefore : ∀ c ∈ (LibCall.connect, (0 : ℤ)) :: asked, c.1.kind ≠ .mkdir :=
    List.forall_mem_cons.2 ⟨by simp [LibCall.kind], hkind⟩
  have hcalls₂ : (parentMissing t (clearErrno w₁).2).2.calls = w.calls ++ (.connect, 0) :: asked := by
    rw [hasked]
    show w₁.calls ++ asked = _
    rw [hconn, List.append_assoc]
    rfl
  refine Gives.bind (Gives.step (Gives.ite (fun _ => Gives.step ?_) fun hfound => Gives.bind (Gives.step ?_)))
  · exact ⟨_, hcalls₂, .of_none hbefore fun hall => absurd hall hroot⟩
  rw [not_not] at hfound
  generalize (parentMissing t (clearErrno w₁).2).2 = w₂ at hcalls₂
  have hmade := call_calls (.mkdir t) EIO (fun fs => fs.mkdirs (resolve t)) (clearErrno w₂).2
  have hlast : ∀ r rc, MkdirCalls (env.getRealPath req_path) ((.connect, 0) :: asked ++ [(.mkdir t, r)]) rc :=
    fun r rc => .of_last ht hbefore ((hparent hfound).imp_right (List.mem_cons_of_mem _))
  have hcalls₃ : (hdfsCreateDirectory t (clearErrno w₂).2).2.calls =
      w.calls ++ ((.connect, 0) :: asked ++ [(.mkdir t, (hdfsCreateDirectory t (clearErrno w₂).2).1)]) := by
    rw [← List.append_assoc, ← hcalls₂]
    exact hmade
  refine Gives.bind (Gives.step (Gives.ite (fun _ => Gives.step ?_) fun _ => Gives.pure ?_))
  · exact ⟨_, hcalls₃, hlast _ _⟩
  · exact ⟨_, hcalls₃, hlast _ _⟩

/-- A directory with slashes to spare, below one that is not there. -/
theorem mkdir_once_missing : (Reference.env.getRealPath (str "//a//b//")).head? = some 47 ∧
    0 ∉ Reference.env.getRealPath (str "//a//b//") ∧
    (inPlace (Reference.env.getRealPath (str "//a//b//"))).2.Inside (Reference.env.getRealPath (str "//a//b//")).length ∧
      Gives (mkdirInPlace Reference.env (str "//a//b//") 0o755 false) { fs := .empty } fun rc w' =>
        ∃ calls, w'.calls = [] ++ calls ∧ MkdirCalls (Reference.env.getRealPath (str "//a//b//")) calls rc :=
  have hslash : (Reference.env.getRealPath (str "//a//b//")).head? = some 47 := by decide
  have h0 : 0 ∉ Reference.env.getRealPath (str "//a//b//") := by decide
  ⟨hslash, h0, mkdir_once Reference.env (str "//a//b//") 0o755 hslash h0 { fs := .empty }⟩

example : ((mkdirInPlace Reference.env (str "/a//") 0o755 false).run 1 { fs := .empty }).map (fun r => (r.1, r.2.calls)) =
    some (0, [(.connect, 0), (.mkdir (str "/a"), 0)]) := by decide +kernel

end XrdHdfs
