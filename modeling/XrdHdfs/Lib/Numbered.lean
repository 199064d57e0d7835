import Mathlib.Algebra.BigOperators.Group.Finset.Piecewise
import Mathlib.Algebra.BigOperators.Group.List.Basic
import Mathlib.Order.Interval.Finset.Nat

/-!
# Logs about numbered objects

Objects get the numbers `0`, `1`, `2`, … as they are created, and a log has an entry for everything that happens to one
of them.

* `history o l` — what the log `l` says of the object `o`;
* `Span P lo hi l` — the log `l` is about the objects from `lo` up to `hi` only, and each has a history with `P`;
* `Span.append` and `Span.held` — one log after the other, and a log made while an object was held;
* `Span.sum_log` — what is summed over a log can be summed over the histories.
-/

namespace XrdHdfs.Lib

variable {ε : Type}

/-! ### Histories -/

/-- What the log says of the object `o`, in its order. -/
def history (o : ℕ) (l : List (ℕ × ε)) : List ε := (l.filter fun e => e.1 = o).map Prod.snd

/-- The events of one object, as they stand in a log. -/
def eventsOf (o : ℕ) (es : List ε) : List (ℕ × ε) := es.map fun e => (o, e)

section History

variable {o p : ℕ} {l l' : List (ℕ × ε)}

@[simp] theorem history_append : history o (l ++ l') = history o l ++ history o l' := by simp [history]

theorem history_eq_nil (h : ∀ e ∈ l, e.1 ≠ o) : history o l = [] := by
  unfold history
  rw [List.filter_eq_nil_iff.2 (by simpa using h), List.map_nil]

@[simp] theorem history_eventsOf (es : List ε) : history o (eventsOf o es) = es := by
  unfold history eventsOf
  rw [List.filter_eq_self.2 (by simp), List.map_map]
  exact List.map_id es

theorem history_eventsOf_ne (h : p ≠ o) (es : List ε) : history o (eventsOf p es) = [] := by
  refine history_eq_nil fun e he => ?_
  obtain ⟨x, -, rfl⟩ := List.mem_map.1 he
  exact h

theorem mem_history {e : ε} : e ∈ history o l ↔ (o, e) ∈ l := by
  unfold history
  simp [List.mem_map, List.mem_filter]

end History

/-! ### Logs about a range of objects -/

/-- A log about the objects from `lo` up to `hi`, each of which has a history with `P`. -/
structure Span (P : List ε → Prop) (lo hi : ℕ) (l : List (ℕ × ε)) : Prop where
  le : lo ≤ hi
  range : ∀ e ∈ l, lo ≤ e.1 ∧ e.1 < hi
  each : ∀ o, lo ≤ o → o < hi → P (history o l)

namespace Span

variable {P : List ε → Prop} {lo mid hi : ℕ} {l l' : List (ℕ × ε)}

theorem nil (lo : ℕ) : Span P lo lo [] := ⟨le_rfl, by simp, fun o h h' => absurd h (by omega)⟩

/-- Nothing is said of an object outside the range. -/
theorem history_outside (h : Span P lo hi l) {o : ℕ} (ho : o < lo ∨ hi ≤ o) : history o l = [] := by
  refine history_eq_nil fun e he => ?_
  have := h.range e he
  omega

theorem append (h : Span P lo mid l) (h' : Span P mid hi l') : Span P lo hi (l ++ l') := by
  refine ⟨h.le.trans h'.le, fun e he => ?_, fun o hlo hhi => ?_⟩
  · have hle := h.le
    have hle' := h'.le
    rcases List.mem_append.1 he with he | he
    · have := h.range e he
      omega
    · have := h'.range e he
      omega
  · rw [history_append]
    rcases Nat.lt_or_ge o mid with hmid | hmid
    · rw [h'.history_outside (Or.inl hmid), List.append_nil]
      exact h.each o hlo hmid
    · rw [h.history_outside (Or.inr hmid), List.nil_append]
      exact h'.each o hmid hhi

/-- **An object is held while the log goes on.** -/
theorem held (h : Span P (lo + 1) hi l) {es es' : List ε} (hP : P (es ++ es')) :
    Span P lo hi (eventsOf lo es ++ l ++ eventsOf lo es') := by
  have hle := h.le
  refine ⟨by omega, fun e he => ?_, fun o hlo hhi => ?_⟩
  · rw [List.mem_append, List.mem_append] at he
    rcases he with (he | he) | he
    · obtain ⟨x, -, rfl⟩ := List.mem_map.1 he
      exact ⟨le_rfl, by dsimp only; omega⟩
    · have := h.range e he
      omega
    · obtain ⟨x, -, rfl⟩ := List.mem_map.1 he
      exact ⟨le_rfl, by dsimp only; omega⟩
  · rw [history_append, history_append]
    rcases Nat.eq_or_lt_of_le hlo with rfl | hlt
    · rw [history_eventsOf, history_eventsOf, h.history_outside (Or.inl (Nat.lt_succ_self _)), List.append_nil]
      exact hP
    · rw [history_eventsOf_ne hlt.ne, history_eventsOf_ne hlt.ne, List.nil_append, List.append_nil]
      exact h.each o hlt hhi

/-- What is summed over the log can be summed over the objects. -/
theorem sum_log {M : Type} [AddCommMonoid M] (f : ε → M) (h : ∀ e ∈ l, lo ≤ e.1 ∧ e.1 < hi) :
    (l.map fun e => f e.2).sum = ∑ o ∈ Finset.Ico lo hi, ((history o l).map f).sum := by
  induction l with
  | nil => simp [history]
  | cons e l ih =>
    have hcons : ∀ o, ((history o (e :: l)).map f).sum = (if e.1 = o then f e.2 else 0) + ((history o l).map f).sum := by
      intro o
      by_cases ho : e.1 = o <;> simp [history, ho]
    rw [List.map_cons, List.sum_cons, ih fun x hx => h x (List.mem_cons_of_mem e hx)]
    simp only [hcons]
    rw [Finset.sum_add_distrib, Finset.sum_ite_eq, if_pos (Finset.mem_Ico.2 (h e List.mem_cons_self))]

end Span

end XrdHdfs.Lib
