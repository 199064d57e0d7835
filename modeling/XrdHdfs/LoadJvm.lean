import Mathlib.Data.List.GetD
import XrdHdfs.Lib.Memory
import XrdHdfs.Lib.Prog
import XrdHdfs.Environment

/-!
# The search for the JVM

`loadJvm` walks through the components of `LD_LIBRARY_PATH`.  Each that is not empty is put into a buffer with the name of
the library behind it, and opened, until that succeeds.  A component that does not fit the buffer ends the search, so that
those behind it are not tried (`loadJvm_search`).
-/

namespace XrdHdfs

open Lib

/-! ### The source -/

/-- What can be seen of the search: the names given to `dlopen`, and where in the buffer was written, with how many bytes. -/
structure JvmLog where
  opened : List Bytes := []
  writes : List (ℕ × ℕ) := []

abbrev libjvm : Bytes := str "/libjvm.so"

/-- `strchr(s + path, c)`, as an index. -/
def strchr (s : Bytes) (path : ℕ) (c : UInt8) : Option ℕ :=
  if c ∈ s.drop path then some (path + (s.drop path).idxOf c) else none

/-- `next ? (next-path) : strlen(path)`. -/
def spanTo (s : Bytes) (path : ℕ) (next : Option ℕ) : ℕ :=
  match next with
  | some next => next - path
  | none => s.length - path

/-- The bytes are written to `buf + offset`. -/
def store (buf : ℕ → UInt8) (offset : ℕ) (bytes : Bytes) : Prog JvmLog (ℕ → UInt8) :=
  .step fun log => (put buf offset bytes, { log with writes := log.writes ++ [(offset, bytes.length)] })

/-- `memset(buf + offset, c, n)`. -/
def memset (buf : ℕ → UInt8) (offset : ℕ) (c : UInt8) (n : ℕ) : Prog JvmLog (ℕ → UInt8) :=
  store buf offset (List.replicate n c)

/-- The bytes that `strncpy(…, src, n)` writes: the string, and NULs up to the length. -/
def strncpyBytes (src : Bytes) (n : ℕ) : Bytes := (cstr src ++ List.replicate n 0).take n

/-- `strncpy(buf + offset, src, n)`. -/
def strncpy (buf : ℕ → UInt8) (offset : ℕ) (src : Bytes) (n : ℕ) : Prog JvmLog (ℕ → UInt8) :=
  store buf offset (strncpyBytes src n)

/-- `dlopen(buf, …)`: whether there is a library with the name in the buffer. -/
def dlopen (loadable : Bytes → Bool) (buf : ℕ → UInt8) : Prog JvmLog Bool :=
  .step fun log => (loadable (cstr (region buf 0 BUFSIZE)),
    { log with opened := log.opened ++ [cstr (region buf 0 BUFSIZE)] })

/-- The variables of `loadJvm`; pointers are indices into the string. -/
structure JvmSearch where
  path : ℕ
  next : Option ℕ
  len : ℕ
  buf : ℕ → UInt8

/-- `if (len) …`: the component is tried. -/
def JvmSearch.tryComponent (loadable : Bytes → Bool) (s : Bytes) (v : JvmSearch) : Prog JvmLog (Bool × (ℕ → UInt8)) :=
  if v.len = 0 then pure (false, v.buf)
  else do
    let buf ← strncpy v.buf 0 (s.drop v.path) v.len
    let buf ← strncpy buf v.len libjvm (BUFSIZE - v.len)
    let handle ← dlopen loadable buf
    pure (handle, buf)

/-- The turn of the loop, on the string `s`. -/
def JvmSearch.turn (loadable : Bytes → Bool) (s : Bytes) (v : JvmSearch) : Prog JvmLog (JvmSearch ⊕ ℤ) :=
  if BUFSIZE ≤ v.len + libjvm.length then pure (.inr 1)
  else do
    let (handle, buf) ← v.tryComponent loadable s
    if handle then pure (.inr 0)
    else
      match v.next with
      | none => pure (.inr 1)
      | some next =>
        let path := next + 1
        if s.getD path 0 = 0 then pure (.inr 1)
        else pure (.inl { path, next := strchr s path 58, len := spanTo s path (strchr s path 58), buf })

/-- `loadJvm`; `loadable` are the libraries there are, and `stack` is what the buffer and the memory behind it held. -/
def loadJvm (loadable : Bytes → Bool) (stack : ℕ → UInt8) (vars : Environment) : Prog JvmLog ℤ :=
  match vars .ld_library_path with
  | none => pure 1
  | some value => do
    let s := cstr value
    let buf ← memset stack 0 0 BUFSIZE
    .loop (JvmSearch.turn loadable s) { path := 0, next := strchr s 0 58, len := spanTo s 0 (strchr s 0 58), buf }

/-! ### What it should do -/

/-- The components of the path. -/
def components (vars : Environment) : List Bytes :=
  match vars .ld_library_path with
  | none => []
  | some value => (cstr value).splitOn 58

/-- The component, the name of the library and a NUL fit the buffer. -/
def FitsBuffer (c : Bytes) : Prop := c.length + libjvm.length < BUFSIZE

instance : DecidablePred FitsBuffer := fun c => by unfold FitsBuffer; infer_instance

/-- The names of the library in the components that are not empty. -/
def libraryNames (components : List Bytes) : List Bytes := (components.filter (· ≠ [])).map (· ++ libjvm)

/-- The names up to and including the first that can be loaded. -/
def untilLoaded (loadable : Bytes → Bool) (names : List Bytes) : List Bytes :=
  names.takeWhile (fun name => !loadable name) ++ (names.find? loadable).toList

/-- **A search through some names**: nothing is written behind the buffer, the names are tried in their order until one is
loaded, and 0 is returned if and only if there is one. -/
structure Searches (loadable : Bytes → Bool) (names : List Bytes) (ret : ℤ) (log : JvmLog) : Prop where
  writes : ∀ x ∈ log.writes, x.1 + x.2 ≤ BUFSIZE
  opened : log.opened = untilLoaded loadable names
  ret : ret = 0 ↔ ∃ name ∈ names, loadable name = true

/-! ### One name in the buffer -/

@[simp] theorem length_strncpyBytes (src : Bytes) (n : ℕ) : (strncpyBytes src n).length = n := by
  simp [strncpyBytes]

/-- Only as much as there is. -/
theorem strncpyBytes_start {c tail : Bytes} (h : 0 ∉ c) : strncpyBytes (c ++ tail) c.length = c := by
  rw [strncpyBytes, cstr_append_of_not_mem h, List.append_assoc, List.take_left]

/-- The string, and the rest cleared. -/
theorem strncpyBytes_pad {c : Bytes} (h : 0 ∉ c) (n : ℕ) : strncpyBytes c (c.length + n) = c ++ List.replicate n 0 := by
  rw [strncpyBytes, cstr_eq_self h, List.take_length_add_append, List.take_replicate, Nat.min_eq_left (by omega)]

/-- **The name in the buffer** is that of the component, whatever was there before. -/
theorem cstr_buffer {c tail : Bytes} (hc : 0 ∉ c) (hfits : FitsBuffer c) (buf : ℕ → UInt8) :
    cstr (region (put (put buf 0 (strncpyBytes (c ++ tail) c.length)) c.length
      (strncpyBytes libjvm (BUFSIZE - c.length))) 0 BUFSIZE) = c ++ libjvm := by
  unfold FitsBuffer at hfits
  obtain ⟨k, hk⟩ : ∃ k, BUFSIZE - c.length = libjvm.length + (k + 1) := ⟨BUFSIZE - c.length - libjvm.length - 1, by omega⟩
  have hsize : BUFSIZE = c.length + (libjvm.length + (k + 1)) := by omega
  have hlib : 0 ∉ libjvm := by decide
  rw [hk, strncpyBytes_start hc, strncpyBytes_pad hlib, hsize, region_add, Nat.zero_add,
    region_put_before (by rw [Nat.zero_add]), region_put rfl,
    region_put (by rw [List.length_append, List.length_replicate]), ← List.append_assoc, List.replicate_succ]
  exact cstr_append (by simp [hc, hlib]) _

/-! ### The names that are tried -/

/-- The names of the components in front of the first that does not fit. -/
def candidates (components : List Bytes) : List Bytes := libraryNames (components.takeWhile fun c => FitsBuffer c)

section Names

variable {loadable : Bytes → Bool} {c : Bytes} {cs : List Bytes}

theorem candidates_of_long (h : ¬ FitsBuffer c) : candidates (c :: cs) = [] := by
  rw [candidates, List.takeWhile_cons_of_neg (by simpa using h)]
  rfl

theorem candidates_nil_cons : candidates ([] :: cs) = candidates cs := by
  rw [candidates, List.takeWhile_cons_of_pos (by decide)]
  rfl

theorem candidates_cons (h : FitsBuffer c) (hc : c ≠ []) : candidates (c :: cs) = (c ++ libjvm) :: candidates cs := by
  rw [candidates, List.takeWhile_cons_of_pos (by simpa using h), libraryNames,
    List.filter_cons_of_pos (by simpa using hc)]
  rfl

theorem untilLoaded_of_loadable {name : Bytes} {names : List Bytes} (h : loadable name = true) :
    untilLoaded loadable (name :: names) = [name] := by
  simp [untilLoaded, h]

theorem untilLoaded_cons {name : Bytes} {names : List Bytes} (h : loadable name = false) :
    untilLoaded loadable (name :: names) = name :: untilLoaded loadable names := by
  simp [untilLoaded, h]

end Names

/-! ### The walk through the components -/

/-- The search stands at the component `c` of the string, with `cs` behind it. -/
structure JvmSearch.At (s : Bytes) (v : JvmSearch) (c : Bytes) (cs : List Bytes) : Prop where
  split : (s.drop v.path).splitOn 58 = c :: cs
  here : ∃ tail, s.drop v.path = c ++ tail
  len : v.len = c.length
  last : v.next = none → cs = []
  next : ∀ next ∈ v.next, v.path ≤ next ∧ (s.drop (next + 1)).splitOn 58 = cs

/-- `strchr` finds the end of the component. -/
theorem JvmSearch.at_strchr (s : Bytes) (path : ℕ) (buf : ℕ → UInt8) :
    ∃ c cs, JvmSearch.At s ⟨path, strchr s path 58, spanTo s path (strchr s path 58), buf⟩ c cs := by
  unfold strchr
  by_cases h : 58 ∈ s.drop path
  · rw [if_pos h]
    obtain ⟨c, t, hct, hc⟩ := List.eq_append_cons_of_mem h
    have hidx : (s.drop path).idxOf 58 = c.length := by
      rw [hct, List.idxOf_append_of_notMem hc, List.idxOf_cons_self, Nat.add_zero]
    rw [hidx]
    have hnext : s.drop (path + c.length + 1) = t := by
      rw [Nat.add_assoc, ← List.drop_drop, hct, ← List.drop_drop, List.drop_left, List.drop_one, List.tail_cons]
    refine ⟨c, t.splitOn 58, ?_, ⟨_, hct⟩, Nat.add_sub_cancel_left _ _, (fun h => by cases h), fun next hnext' => ?_⟩
    · dsimp only
      rw [hct, List.splitOn_append_cons_self_of_not_mem hc]
    · obtain rfl := Option.some.inj hnext'
      exact ⟨Nat.le_add_right _ _, by rw [hnext]⟩
  · rw [if_neg h]
    refine ⟨s.drop path, [], List.splitOn_eq_singleton h, ⟨[], (List.append_nil _).symm⟩, List.length_drop.symm,
      fun _ => rfl, ?_⟩
    simp

/-- The invariant: the candidates are those that were tried, of which none could be loaded, and those of the components
from here on. -/
structure Searching (loadable : Bytes → Bool) (s : Bytes) (cs : List Bytes) (log : JvmLog) : Prop where
  writes : ∀ x ∈ log.writes, x.1 + x.2 ≤ BUFSIZE
  opened : untilLoaded loadable (candidates (s.splitOn 58)) = log.opened ++ untilLoaded loadable (candidates cs)
  ret : (∃ name ∈ candidates (s.splitOn 58), loadable name = true) ↔ ∃ name ∈ candidates cs, loadable name = true

namespace Searching

variable {loadable : Bytes → Bool} {s c : Bytes} {cs : List Bytes} {log : JvmLog}

/-- Where there is nothing left to try, the search has failed. -/
theorem done (h : Searching loadable s cs log) (hcs : candidates cs = []) :
    Searches loadable (candidates (s.splitOn 58)) 1 log := by
  refine ⟨h.writes, ?_, ?_⟩
  · rw [h.opened, hcs]
    exact (List.append_nil _).symm
  · rw [h.ret, hcs]
    simp

/-- **The component is tried.** -/
theorem tryComponent (h : Searching loadable s (c :: cs) log) (h0 : 0 ∉ s) {v : JvmSearch} (hv : v.At s c cs)
    (hfits : FitsBuffer c) : Gives (v.tryComponent loadable s) log fun r log' =>
      r.1 = true ∧ Searches loadable (candidates (s.splitOn 58)) 0 log' ∨
        r.1 = false ∧ Searching loadable s cs log' := by
  obtain ⟨tail, htail⟩ := hv.here
  have hc : 0 ∉ c := by
    intro hmem
    refine h0 (List.mem_of_mem_drop (i := v.path) ?_)
    rw [htail]
    exact List.mem_append_left _ hmem
  have hle : v.len ≤ BUFSIZE := by
    have hlt := hfits
    unfold FitsBuffer at hlt
    rw [hv.len]
    omega
  refine Gives.ite (fun hlen => Gives.pure (Or.inr ⟨rfl, ?_⟩)) fun hlen => ?_
  · obtain rfl : c = [] := List.eq_nil_of_length_eq_zero (hv.len.symm.trans hlen)
    exact ⟨h.writes, by rw [h.opened, candidates_nil_cons], by rw [h.ret, candidates_nil_cons]⟩
  have hne : c ≠ [] := by
    rintro rfl
    exact hlen hv.len
  have hwrites : ∀ x ∈ log.writes ++ [(0, (strncpyBytes (s.drop v.path) v.len).length)] ++
      [(v.len, (strncpyBytes libjvm (BUFSIZE - v.len)).length)], x.1 + x.2 ≤ BUFSIZE := by
    simp only [List.forall_mem_append, List.forall_mem_singleton, length_strncpyBytes]
    exact ⟨⟨h.writes, by omega⟩, by omega⟩
  have hname : cstr (region (put (put v.buf 0 (strncpyBytes (s.drop v.path) v.len)) v.len
      (strncpyBytes libjvm (BUFSIZE - v.len))) 0 BUFSIZE) = c ++ libjvm := by
    rw [hv.len, htail]
    exact cstr_buffer hc hfits v.buf
  have hopened := h.opened
  have hret := h.ret
  rw [candidates_cons hfits hne] at hopened hret
  refine Gives.bind (Gives.step (Gives.bind (Gives.step (Gives.bind (Gives.step (Gives.pure ?_))))))
  dsimp only
  rw [hname]
  cases hload : loadable (c ++ libjvm) with
  | true =>
    refine Or.inl ⟨rfl, hwrites, ?_, ?_⟩
    · rw [hopened, untilLoaded_of_loadable hload]
    · rw [hret]
      simp [hload]
  | false =>
    refine Or.inr ⟨rfl, hwrites, ?_, ?_⟩
    · rw [hopened, untilLoaded_cons hload, List.append_assoc]
      rfl
    · rw [hret]
      simp [hload]

/-- **A turn** ends the search, or goes on to the next component. -/
theorem turn (h : Searching loadable s (c :: cs) log) (h0 : 0 ∉ s) {v : JvmSearch} (hv : v.At s c cs) :
    Gives (v.turn loadable s) log fun r log' =>
      Sum.elim
        (fun v' => v.path < v'.path ∧ v'.path < s.length ∧
          ∃ c' cs', v'.At s c' cs' ∧ Searching loadable s (c' :: cs') log')
        (fun ret => Searches loadable (candidates (s.splitOn 58)) ret log') r := by
  have hfits : v.len + libjvm.length < BUFSIZE ↔ FitsBuffer c := by
    rw [hv.len]
    exact Iff.rfl
  refine Gives.ite (fun hlong => Gives.pure (h.done (candidates_of_long fun hf => ?_))) fun hshort => ?_
  · exact absurd (hfits.2 hf) (by omega)
  refine Gives.bind ((h.tryComponent h0 hv (hfits.1 (by omega))).mono ?_)
  rintro ⟨handle, buf⟩ log' (⟨rfl, hfound⟩ | ⟨rfl, hgo⟩)
  · exact Gives.ite (fun _ => Gives.pure hfound) fun h => absurd rfl h
  refine Gives.ite (fun h => absurd h (by simp)) fun _ => ?_
  cases hnext : v.next with
  | none =>
    rw [hv.last hnext] at hgo
    exact Gives.pure (hgo.done rfl)
  | some next =>
    obtain ⟨hle, hcs⟩ := hv.next next hnext
    refine Gives.ite (fun hnul => Gives.pure (hgo.done ?_)) fun hnul => Gives.pure ?_
    · -- the string ends here
      have hend : s.length ≤ next + 1 := by
        by_contra hlt
        rw [List.getD_eq_getElem _ _ (by omega)] at hnul
        exact h0 (hnul ▸ List.getElem_mem _)
      rw [← hcs, List.drop_of_length_le hend]
      rfl
    · have hlt : next + 1 < s.length := by
        by_contra hge
        exact hnul (List.getD_eq_default _ _ (by omega))
      obtain ⟨c', cs', hat⟩ := JvmSearch.at_strchr s (next + 1) buf
      refine ⟨Nat.lt_succ_of_le hle, hlt, c', cs', hat, ?_⟩
      rw [← hat.split]
      exact hcs ▸ hgo

end Searching

/-- The walk through a C string. -/
theorem search_spec (loadable : Bytes → Bool) (stack : ℕ → UInt8) (value : Bytes) {vars : Environment}
    (hvars : vars .ld_library_path = some value) : Gives (loadJvm loadable stack vars) {} fun ret log =>
      Searches loadable (candidates ((cstr value).splitOn 58)) ret log := by
  unfold loadJvm
  rw [hvars]
  dsimp only
  have h0 := not_mem_zero_cstr value
  generalize cstr value = s at h0
  refine Gives.bind (Gives.step ?_)
  refine Gives.loop (fun v log => v.path ≤ s.length ∧ ∃ c cs, v.At s c cs ∧ Searching loadable s (c :: cs) log)
    (fun v _ => s.length - v.path) ?_ _ _ ?_
  · rintro v log ⟨-, c, cs, hat, h⟩
    refine (h.turn h0 hat).mono ?_
    rintro (v' | ret) log' hr
    · obtain ⟨hlt, hlt', hat'⟩ := hr
      exact ⟨⟨hlt'.le, hat'⟩, by omega⟩
    · exact hr
  · generalize put stack 0 (List.replicate BUFSIZE 0) = buf
    obtain ⟨c, cs, hat⟩ := JvmSearch.at_strchr s 0 buf
    refine ⟨Nat.zero_le _, c, cs, hat, ?_⟩
    have hsplit := hat.split
    rw [List.drop_zero] at hsplit
    rw [← hsplit]
    exact ⟨by simp, rfl, Iff.rfl⟩

/-- **The search for the JVM.**  Whatever `LD_LIBRARY_PATH` is, and whatever can be loaded, `loadJvm` ends, writes nothing
behind its buffer, and opens exactly the library in each component that is not empty, of those in front of the first that
does not fit the buffer, in their order until one is loaded; it returns 0 if and only if there is one among these. -/
theorem loadJvm_search (loadable : Bytes → Bool) (stack : ℕ → UInt8) (vars : Environment) :
    Gives (loadJvm loadable stack vars) {} fun ret log =>
      Searches loadable (libraryNames ((components vars).takeWhile fun c => FitsBuffer c)) ret log := by
  cases hvars : vars .ld_library_path with
  | none =>
    unfold loadJvm components
    rw [hvars]
    exact Gives.pure ⟨by simp, rfl, by simp [libraryNames]⟩
  | some value =>
    unfold components
    rw [hvars]
    exact search_spec loadable stack value hvars

/-- A component that does not fit, and one with the library in it. -/
def longFirst : Environment := fun _ => some (List.replicate 8182 97 ++ 58 :: str "/j")

/-- **What is behind a component that does not fit is not tried**: the library there could be loaded. -/
theorem long_component_ends_search : ¬ Gives (loadJvm (· == str "/j/libjvm.so") (fun _ => 0) longFirst) {} fun ret log =>
    Searches (· == str "/j/libjvm.so") (libraryNames ((components longFirst).filter fun c => FitsBuffer c)) ret log := by
  intro h
  have h0 : (0 : UInt8) ∉ List.replicate 8182 97 ++ 58 :: str "/j" := by
    simp only [List.mem_append, List.mem_replicate, not_or]
    exact ⟨by decide, by decide⟩
  have hcolon : (58 : UInt8) ∉ List.replicate 8182 97 := by
    simp only [List.mem_replicate]
    decide
  have hlong : ¬ FitsBuffer (List.replicate 8182 97) := by
    unfold FitsBuffer
    rw [List.length_replicate]
    decide
  have hsplit : (cstr (List.replicate 8182 97 ++ 58 :: str "/j")).splitOn 58 = [List.replicate 8182 97, str "/j"] := by
    rw [cstr_eq_self h0, List.splitOn_append_cons_self_of_not_mem hcolon]
    rfl
  have hvars : longFirst .ld_library_path = some (List.replicate 8182 97 ++ 58 :: str "/j") := rfl
  have hspec := search_spec (· == str "/j/libjvm.so") (fun _ => 0) _ hvars
  obtain ⟨n, ret, log, hrun, hboth⟩ := h.and_ends hspec.ends
  obtain ⟨hclaim, hreal⟩ := hboth
  rw [hsplit, candidates_of_long hlong] at hreal
  have hcomponents : components longFirst = [List.replicate 8182 97, str "/j"] := hsplit
  rw [hcomponents, List.filter_cons_of_neg (by rwa [decide_eq_true_eq])] at hclaim
  have hret : ret = 0 := hclaim.ret.2 ⟨str "/j/libjvm.so", by decide +kernel, by decide +kernel⟩
  simpa using hreal.ret.1 hret

end XrdHdfs
