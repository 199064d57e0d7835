import XrdHdfs.Lib.Prog

/-!
# Two programs in step

`InStep R x y s`: run from `s` with the same fuel, `x` and `y` both return, in one state and with results that `R`
relates, or neither does.  The rules are those of one run, with a relation in the place of the postcondition; what the
two have in common is said once for both (`InStep.common`).
-/

namespace XrdHdfs.Lib

variable {σ α β γ δ : Type}

/-- From `s`, the two programs do the same to the state, and `R` relates what they return. -/
def InStep (R : α → β → Prop) (x : Prog σ α) (y : Prog σ β) (s : σ) : Prop :=
  ∀ n, Option.Rel (fun p q => R p.1 q.1 ∧ q.2 = p.2) (x.run n s) (y.run n s)

namespace InStep

variable {R : α → β → Prop} {s : σ}

theorem pure {a : α} {b : β} (h : R a b) : InStep R (Pure.pure a : Prog σ α) (Pure.pure b) s :=
  fun _ => .some ⟨h, rfl⟩

/-- A step is in step with itself. -/
theorem step {R : α → α → Prop} {f : σ → α × σ} (h : R (f s).1 (f s).1) : InStep R (Prog.step f) (Prog.step f) s :=
  fun _ => .some ⟨h, rfl⟩

/-- **What the two have in common**: both run `x` to its end. -/
theorem common {R : α → α → Prop} (x : Prog σ α) (h : Ends x s fun a _ => R a a) : InStep R x x s := by
  intro n
  cases hx : x.run n s with
  | none => exact .none
  | some p => exact .some ⟨h n p.1 p.2 hx, rfl⟩

theorem bind {S : γ → δ → Prop} {x : Prog σ α} {y : Prog σ β} {f : α → Prog σ γ} {g : β → Prog σ δ} (h : InStep R x y s)
    (hfg : ∀ a b s', R a b → InStep S (f a) (g b) s') : InStep S (x >>= f) (y >>= g) s := by
  intro n
  show Option.Rel _ ((x.run n s).bind fun p => (f p.1).run n p.2) ((y.run n s).bind fun q => (g q.1).run n q.2)
  have hn := h n
  revert hn
  generalize x.run n s = r, y.run n s = t
  rintro (⟨hR, hstate⟩ | _)
  · rw [Option.bind_some, Option.bind_some, hstate]
    exact hfg _ _ _ hR n
  · exact .none

/-- Both take a step, and go on from where it leads. -/
theorem step_bind {f : σ → γ × σ} {x : γ → Prog σ α} {y : γ → Prog σ β}
    (h : InStep R (x (f s).1) (y (f s).1) (f s).2) : InStep R (Prog.step f >>= x) (Prog.step f >>= y) s := h

theorem ite {c : Prop} [Decidable c] {x x' : Prog σ α} {y y' : Prog σ β} (h : c → InStep R x y s)
    (h' : ¬ c → InStep R x' y' s) : InStep R (if c then x else x') (if c then y else y') s := by
  by_cases hc : c
  · rw [if_pos hc, if_pos hc]
    exact h hc
  · rw [if_neg hc, if_neg hc]
    exact h' hc

/-- A recursive procedure is in step with itself where its body is, whatever it calls. -/
theorem fix {R : β → β → Prop} {F : (α → Prog σ β) → α → Prog σ β} {hF : Prog.Recursive F} {a a' : α}
    (h : ∀ g, InStep R (F g a) (F g a') s) : InStep R (Prog.fix F hF a) (Prog.fix F hF a') s := by
  intro n
  show Option.Rel _ ((Prog.unfolded F n a).run n s) ((Prog.unfolded F n a').run n s)
  cases n with
  | zero => exact .none
  | succ n => exact h _ (n + 1)

/-! ### What follows for one run -/

variable {x : Prog σ α} {y : Prog σ β}

theorem of_left (h : InStep R x y s) {n : ℕ} {a : α} {s' : σ} (hx : x.run n s = some (a, s')) :
    ∃ b, y.run n s = some (b, s') ∧ R a b := by
  have hn := h n
  rw [hx] at hn
  generalize y.run n s = r at hn
  cases hn with
  | @some _ q hpq =>
    obtain ⟨b, t⟩ := q
    obtain ⟨hR, rfl⟩ := hpq
    exact ⟨b, rfl, hR⟩

theorem of_right (h : InStep R x y s) {n : ℕ} {b : β} {s' : σ} (hy : y.run n s = some (b, s')) :
    ∃ a, x.run n s = some (a, s') ∧ R a b := by
  have hn := h n
  rw [hy] at hn
  generalize x.run n s = r at hn
  cases hn with
  | @some p _ hpq =>
    obtain ⟨a, t⟩ := p
    obtain ⟨hR, rfl⟩ := hpq
    exact ⟨a, rfl, hR⟩

/-- Two programs in step return the same things, as far as `p` and `q` see them. -/
theorem gives_iff {p : α → γ} {q : β → γ} (h : InStep (fun a b => p a = q b) x y s) (c : γ) :
    (Gives x s fun a _ => p a = c) ↔ Gives y s fun b _ => q b = c := by
  constructor
  · rintro ⟨n, a, s', hx, rfl⟩
    obtain ⟨b, hy, hab⟩ := h.of_left hx
    exact ⟨n, b, s', hy, hab.symm⟩
  · rintro ⟨n, b, s', hy, rfl⟩
    obtain ⟨a, hx, hab⟩ := h.of_right hy
    exact ⟨n, a, s', hx, hab⟩

end InStep

end XrdHdfs.Lib
