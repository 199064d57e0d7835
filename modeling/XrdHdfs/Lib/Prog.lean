import Mathlib.Tactic

/-!
# Programs over a state, with loops and recursion

A program reads and writes a state `σ` and may fail to return.  It is run with some `fuel`, which bounds the
turns of its loops and the depth of its recursion; more fuel never changes what it returned (`Prog.mono`), so
a program has at most one result from a state, and "it returns" means that it does so with some fuel.

* `Ends x s Q` — partial correctness: whatever `x` returns from `s` satisfies `Q`;
* `Gives x s Q` — total correctness: `x` returns from `s`, and what it returns satisfies `Q`;
* `Prog.loop body b` — run `body` until it leaves with `Sum.inr`; `Ends.loop` is its invariant rule and
  `Gives.loop` the same rule with a variant;
* `Prog.fix F` — the recursive procedure with the body `F`; `Ends.fix` and `Gives.fix` unfold it once;
* `Prog.zoom` — a program on a part of the state;
* `Follows R x` — `x` changes the state along the preorder `R` only; `Keeps g x`, it leaves `g` alone.
-/

namespace XrdHdfs.Lib

/-- A program over the state `σ`; `none` is a run that has not returned. -/
structure Prog (σ α : Type) where
  run : ℕ → σ → Option (α × σ)
  mono : ∀ {m n s r}, m ≤ n → run m s = some r → run n s = some r

namespace Prog

variable {σ α β γ : Type}

instance : Monad (Prog σ) where
  pure a := ⟨fun _ s => some (a, s), fun _ h => h⟩
  bind x f := ⟨fun n s => (x.run n s).bind fun p => (f p.1).run n p.2, by
    intro m n s r hmn h
    obtain ⟨p, hx, hf⟩ := Option.bind_eq_some_iff.1 h
    exact Option.bind_eq_some_iff.2 ⟨p, x.mono hmn hx, (f p.1).mono hmn hf⟩⟩

/-- A step that always returns. -/
def step (f : σ → α × σ) : Prog σ α := ⟨fun _ s => some (f s), fun _ h => h⟩

/-- The program that never returns. -/
def stuck : Prog σ α := ⟨fun _ _ => none, fun _ h => h⟩

/-! ### Runs -/

@[simp] theorem run_pure (a : α) (n : ℕ) (s : σ) : (pure a : Prog σ α).run n s = some (a, s) := rfl

@[simp] theorem run_step (f : σ → α × σ) (n : ℕ) (s : σ) : (step f).run n s = some (f s) := rfl

theorem run_bind_some {x : Prog σ α} {f : α → Prog σ β} {n : ℕ} {s : σ} {r : β × σ} :
    (x >>= f).run n s = some r ↔ ∃ a s', x.run n s = some (a, s') ∧ (f a).run n s' = some r := by
  refine Option.bind_eq_some_iff.trans ⟨?_, ?_⟩
  · rintro ⟨⟨a, s'⟩, hx, hf⟩
    exact ⟨a, s', hx, hf⟩
  · rintro ⟨a, s', hx, hf⟩
    exact ⟨(a, s'), hx, hf⟩

/-- A program has at most one result. -/
theorem run_unique {x : Prog σ α} {m n : ℕ} {s : σ} {r r' : α × σ} (h : x.run m s = some r)
    (h' : x.run n s = some r') : r = r' := by
  have h₁ := x.mono (Nat.le_max_left m n) h
  have h₂ := x.mono (Nat.le_max_right m n) h'
  exact Option.some.inj (h₁.symm.trans h₂)

/-! ### Programs compared at one amount of fuel -/

/-- With `n` units of fuel, whatever `x` returns `y` returns. -/
def Below (n : ℕ) (x y : Prog σ α) : Prop := ∀ s r, x.run n s = some r → y.run n s = some r

theorem Below.refl {n : ℕ} (x : Prog σ α) : Below n x x := fun _ _ h => h

theorem Below.bind {n : ℕ} {x y : Prog σ α} {f g : α → Prog σ β} (hx : Below n x y)
    (hf : ∀ a, Below n (f a) (g a)) : Below n (x >>= f) (y >>= g) := by
  intro s r h
  obtain ⟨a, s', ha, hr⟩ := run_bind_some.1 h
  exact run_bind_some.2 ⟨a, s', hx s _ ha, hf a s' r hr⟩

theorem Below.ite {n : ℕ} {c : Prop} [Decidable c] {x y x' y' : Prog σ α} (h : Below n x x')
    (h' : Below n y y') : Below n (if c then x else y) (if c then x' else y') := by
  split
  · exact h
  · exact h'

/-! ### Loops -/

/-- At most `k` turns of `body`. -/
def turns (body : β → Prog σ (β ⊕ γ)) : ℕ → β → Prog σ γ
  | 0, _ => stuck
  | k + 1, b => do
    match ← body b with
    | .inl b' => turns body k b'
    | .inr c => pure c

theorem turns_mono (body : β → Prog σ (β ⊕ γ)) {k l n : ℕ} (hkl : k ≤ l) (b : β) :
    Below n (turns body k b) (turns body l b) := by
  induction k generalizing l b with
  | zero =>
    intro s r h
    cases h
  | succ k ih =>
    obtain ⟨l, rfl⟩ : ∃ l', l = l' + 1 := ⟨l - 1, by omega⟩
    refine Below.bind (Below.refl _) ?_
    rintro (b' | c)
    · exact ih (by omega) b'
    · exact Below.refl _

/-- Run `body` from `b` until it leaves with a result. -/
def loop (body : β → Prog σ (β ⊕ γ)) (b : β) : Prog σ γ where
  run n := (turns body n b).run n
  mono {m _ s r} hmn h := turns_mono body hmn b s r ((turns body m b).mono hmn h)

/-! ### Recursion -/

section Fix

variable (F : (α → Prog σ β) → α → Prog σ β)

/-- `F` treats its recursive calls as a program does: with the same fuel, better calls give no other results. -/
def Recursive : Prop := ∀ n g h, (∀ a, Below n (g a) (h a)) → ∀ a, Below n (F g a) (F h a)

/-- The body unfolded `k` times. -/
def unfolded : ℕ → α → Prog σ β
  | 0 => fun _ => stuck
  | k + 1 => F (unfolded k)

variable {F}

theorem unfolded_mono (hF : Recursive F) {k l n : ℕ} (hkl : k ≤ l) :
    ∀ a, Below n (unfolded F k a) (unfolded F l a) := by
  induction k generalizing l with
  | zero =>
    intro a s r h
    cases h
  | succ k ih =>
    obtain ⟨l, rfl⟩ : ∃ l', l = l' + 1 := ⟨l - 1, by omega⟩
    exact hF n _ _ (ih (by omega))

/-- The recursive procedure with the body `F`. -/
def fix (F : (α → Prog σ β) → α → Prog σ β) (hF : Recursive F) (a : α) : Prog σ β where
  run n := (unfolded F n a).run n
  mono {m _ s r} hmn h := unfolded_mono hF hmn a s r ((unfolded F m a).mono hmn h)

/-- The procedure is its body, with itself for the recursive calls. -/
theorem run_fix (hF : Recursive F) (a : α) (s : σ) (r : β × σ) :
    (∃ n, (fix F hF a).run n s = some r) ↔ ∃ n, (F (fix F hF) a).run n s = some r := by
  constructor
  · rintro ⟨n, h⟩
    cases n with
    | zero => cases h
    | succ n =>
      refine ⟨n + 1, hF (n + 1) (unfolded F n) _ (fun b t q hq => ?_) a s r h⟩
      exact unfolded_mono hF n.le_succ b t q hq
  · rintro ⟨n, h⟩
    refine ⟨n + 1, (unfolded F (n + 1) a).mono n.le_succ ?_⟩
    exact hF n (fix F hF) (unfolded F n) (fun b => Below.refl _) a s r h

end Fix

end Prog

variable {σ α β γ : Type}

/-- Whatever `x` returns from `s` satisfies `Q`. -/
def Ends (x : Prog σ α) (s : σ) (Q : α → σ → Prop) : Prop :=
  ∀ n a s', x.run n s = some (a, s') → Q a s'

/-- `x` returns from `s`, and what it returns satisfies `Q`. -/
def Gives (x : Prog σ α) (s : σ) (Q : α → σ → Prop) : Prop :=
  ∃ n a s', x.run n s = some (a, s') ∧ Q a s'

/-! ### The two readings -/

/-- A program returns one thing only, so a total specification is also a partial one. -/
theorem Gives.ends {x : Prog σ α} {s : σ} {Q : α → σ → Prop} (h : Gives x s Q) : Ends x s Q := by
  obtain ⟨n, a, s', hx, hQ⟩ := h
  intro m b t hb
  have heq := Prog.run_unique hx hb
  simp only [Prod.mk.injEq] at heq
  obtain ⟨rfl, rfl⟩ := heq
  exact hQ

theorem Ends.mono {x : Prog σ α} {s : σ} {P Q : α → σ → Prop} (h : Ends x s P)
    (hPQ : ∀ a s', P a s' → Q a s') : Ends x s Q :=
  fun n a s' hx => hPQ a s' (h n a s' hx)

theorem Gives.mono {x : Prog σ α} {s : σ} {P Q : α → σ → Prop} (h : Gives x s P)
    (hPQ : ∀ a s', P a s' → Q a s') : Gives x s Q := by
  obtain ⟨n, a, s', hx, hP⟩ := h
  exact ⟨n, a, s', hx, hPQ a s' hP⟩

theorem Ends.and {x : Prog σ α} {s : σ} {P Q : α → σ → Prop} (hP : Ends x s P) (hQ : Ends x s Q) :
    Ends x s fun a s' => P a s' ∧ Q a s' :=
  fun n a s' hx => ⟨hP n a s' hx, hQ n a s' hx⟩

/-- What a program is known to return, together with what is known of whatever it returns. -/
theorem Gives.and_ends {x : Prog σ α} {s : σ} {P Q : α → σ → Prop} (hP : Gives x s P) (hQ : Ends x s Q) :
    Gives x s fun a s' => P a s' ∧ Q a s' := by
  obtain ⟨n, a, s', hx, h⟩ := hP
  exact ⟨n, a, s', hx, h, hQ n a s' hx⟩

/-! ### Straight-line programs -/

section Straight

variable {s : σ} {Q : β → σ → Prop}

theorem Ends.bind {x : Prog σ α} {f : α → Prog σ β} (h : Ends x s fun a s' => Ends (f a) s' Q) :
    Ends (x >>= f) s Q := by
  intro n b t hb
  obtain ⟨a, s', hx, hf⟩ := Prog.run_bind_some.1 hb
  exact h n a s' hx n b t hf

theorem Gives.bind {x : Prog σ α} {f : α → Prog σ β} (h : Gives x s fun a s' => Gives (f a) s' Q) :
    Gives (x >>= f) s Q := by
  obtain ⟨m, a, s', hx, n, b, t, hf, hQ⟩ := h
  refine ⟨max m n, b, t, Prog.run_bind_some.2 ⟨a, s', ?_, ?_⟩, hQ⟩
  · exact x.mono (Nat.le_max_left m n) hx
  · exact (f a).mono (Nat.le_max_right m n) hf

/-- What is given once `x` has returned is what the rest gives. -/
theorem Gives.bind_iff {x : Prog σ α} {f : α → Prog σ β} {n : ℕ} {a : α} {s' : σ} (hx : x.run n s = some (a, s')) :
    Gives (x >>= f) s Q ↔ Gives (f a) s' Q := by
  constructor
  · rintro ⟨m, b, t, hb, hQ⟩
    obtain ⟨a', s'', hx', hf⟩ := Prog.run_bind_some.1 hb
    obtain ⟨rfl, rfl⟩ := Prod.mk.inj (Prog.run_unique hx hx')
    exact ⟨m, b, t, hf, hQ⟩
  · exact fun h => Gives.bind ⟨n, a, s', hx, h⟩

theorem Ends.pure {b : β} (h : Q b s) : Ends (Pure.pure b : Prog σ β) s Q := by
  intro n a s' ha
  cases ha
  exact h

theorem Gives.pure {b : β} (h : Q b s) : Gives (Pure.pure b : Prog σ β) s Q :=
  ⟨0, b, s, rfl, h⟩

theorem Ends.step {f : σ → β × σ} (h : Q (f s).1 (f s).2) : Ends (Prog.step f) s Q := by
  intro n a s' ha
  rw [Prog.run_step, Option.some.injEq] at ha
  rwa [ha] at h

theorem Gives.step {f : σ → β × σ} (h : Q (f s).1 (f s).2) : Gives (Prog.step f) s Q :=
  ⟨0, (f s).1, (f s).2, rfl, h⟩

theorem Ends.ite {c : Prop} [Decidable c] {x y : Prog σ β} (hx : c → Ends x s Q)
    (hy : ¬ c → Ends y s Q) : Ends (if c then x else y) s Q := by
  by_cases h : c
  · rw [if_pos h]; exact hx h
  · rw [if_neg h]; exact hy h

theorem Gives.ite {c : Prop} [Decidable c] {x y : Prog σ β} (hx : c → Gives x s Q)
    (hy : ¬ c → Gives y s Q) : Gives (if c then x else y) s Q := by
  by_cases h : c
  · rw [if_pos h]; exact hx h
  · rw [if_neg h]; exact hy h

end Straight

/-! ### Loops and recursion -/

/-- **The invariant rule.** An invariant that every turn keeps, and from which leaving gives `Q`. -/
theorem Ends.loop {body : β → Prog σ (β ⊕ γ)} {Q : γ → σ → Prop} (I : β → σ → Prop)
    (hbody : ∀ b s, I b s → Ends (body b) s fun r s' => Sum.elim (fun b' => I b' s') (fun c => Q c s') r)
    (b : β) (s : σ) (hI : I b s) : Ends (Prog.loop body b) s Q := by
  have hturns : ∀ k b s, I b s → Ends (Prog.turns body k b) s Q := by
    intro k
    induction k with
    | zero =>
      intro b s _ n c s' h
      cases h
    | succ k ih =>
      intro b s hI
      refine Ends.bind ((hbody b s hI).mono ?_)
      rintro (b' | c) s' h
      · exact ih b' s' h
      · exact Ends.pure h
  intro n c s' h
  exact hturns n b s hI n c s' h

/-- **The invariant rule with a variant.** Every turn that goes on lowers `μ`. -/
theorem Gives.loop {body : β → Prog σ (β ⊕ γ)} {Q : γ → σ → Prop} (I : β → σ → Prop) (μ : β → σ → ℕ)
    (hbody : ∀ b s, I b s → Gives (body b) s fun r s' =>
      Sum.elim (fun b' => I b' s' ∧ μ b' s' < μ b s) (fun c => Q c s') r)
    (b : β) (s : σ) (hI : I b s) : Gives (Prog.loop body b) s Q := by
  have hturns : ∀ k b s, I b s → μ b s < k → Gives (Prog.turns body k b) s Q := by
    intro k
    induction k with
    | zero =>
      intro b s _ h
      exact absurd h (Nat.not_lt_zero _)
    | succ k ih =>
      intro b s hI hμ
      refine Gives.bind ((hbody b s hI).mono ?_)
      rintro (b' | c) s' h
      · exact ih b' s' h.1 (by have := h.2; omega)
      · exact Gives.pure h
  obtain ⟨n, c, s', h, hQ⟩ := hturns (μ b s + 1) b s hI (Nat.lt_succ_self _)
  refine ⟨max n (μ b s + 1), c, s', ?_, hQ⟩
  exact Prog.turns_mono body (Nat.le_max_right _ _) b s _ ((Prog.turns body _ b).mono (Nat.le_max_left _ _) h)

section Fix

variable {F : (α → Prog σ β) → α → Prog σ β} {hF : Prog.Recursive F} {a : α} {s : σ} {Q : β → σ → Prop}

theorem Ends.fix (h : Ends (F (Prog.fix F hF) a) s Q) : Ends (Prog.fix F hF a) s Q := by
  intro n b s' hb
  obtain ⟨m, hm⟩ := (Prog.run_fix hF a s (b, s')).1 ⟨n, hb⟩
  exact h m b s' hm

theorem Gives.fix (h : Gives (F (Prog.fix F hF) a) s Q) : Gives (Prog.fix F hF a) s Q := by
  obtain ⟨n, b, s', hb, hQ⟩ := h
  obtain ⟨m, hm⟩ := (Prog.run_fix hF a s (b, s')).2 ⟨n, hb⟩
  exact ⟨m, b, s', hm, hQ⟩

end Fix

/-- What every unfolding of the body has, the procedure has. -/
theorem Ends.fix_induct {F : (α → Prog σ β) → α → Prog σ β} {hF : Prog.Recursive F} {P : α → σ → β → σ → Prop}
    (h : ∀ g, (∀ a s, Ends (g a) s (P a s)) → ∀ a s, Ends (F g a) s (P a s)) (a : α) (s : σ) :
    Ends (Prog.fix F hF a) s (P a s) := by
  have hunfolded : ∀ k a s, Ends (Prog.unfolded F k a) s (P a s) := by
    intro k
    induction k with
    | zero =>
      intro a s n b s' hb
      cases hb
    | succ k ih => exact h _ ih
  intro n b s' hb
  exact hunfolded n a s n b s' hb

/-! ### A part of the state -/

section Zoom

variable {τ : Type} (get : τ → σ) (set : σ → τ → τ)

/-- The program on the part of the state that `get` reads and `set` writes. -/
def Prog.zoom (x : Prog σ α) : Prog τ α where
  run n t := (x.run n (get t)).map fun r => (r.1, set r.2 t)
  mono hmn h := by
    obtain ⟨r, hx, heq⟩ := Option.map_eq_some_iff.1 h
    exact Option.map_eq_some_iff.2 ⟨r, x.mono hmn hx, heq⟩

theorem Gives.zoom {x : Prog σ α} {t : τ} {Q : α → τ → Prop} (h : Gives x (get t) fun a s => Q a (set s t)) :
    Gives (x.zoom get set) t Q := by
  obtain ⟨n, a, s, hx, hQ⟩ := h
  exact ⟨n, a, set s t, Option.map_eq_some_iff.2 ⟨(a, s), hx, rfl⟩, hQ⟩

end Zoom

/-! ### What a program does to the state at most -/

/-- Whatever `x` returns, the states before and after are related. -/
def Follows (R : σ → σ → Prop) (x : Prog σ α) : Prop := ∀ s, Ends x s fun _ s' => R s s'

/-- Whatever `x` returns, `g` has the value it had. -/
abbrev Keeps {δ : Type} (g : σ → δ) (x : Prog σ α) : Prop := Follows (fun s s' => g s' = g s) x

instance isPreorder_keeps {δ : Type} (g : σ → δ) : IsPreorder σ fun s s' => g s' = g s where
  refl _ := rfl
  trans _ _ _ h h' := h'.trans h

namespace Follows

variable {R : σ → σ → Prop}

theorem step {f : σ → α × σ} (h : ∀ s, R s (f s).2) : Follows R (Prog.step f) := fun s => Ends.step (h s)

theorem ite {c : Prop} [Decidable c] {x y : Prog σ α} (hx : Follows R x) (hy : Follows R y) :
    Follows R (if c then x else y) :=
  fun s => Ends.ite (fun _ => hx s) fun _ => hy s

theorem mono {R' : σ → σ → Prop} (hR : ∀ s s', R s s' → R' s s') {x : Prog σ α} (hx : Follows R x) : Follows R' x :=
  fun s => (hx s).mono fun _ _ => hR _ _

theorem fix {F : (α → Prog σ β) → α → Prog σ β} {hF : Prog.Recursive F}
    (h : ∀ g, (∀ a, Follows R (g a)) → ∀ a, Follows R (F g a)) (a : α) : Follows R (Prog.fix F hF a) :=
  fun s => Ends.fix_induct (fun g hg a s => h g hg a s) a s

variable [IsPreorder σ R]

theorem pure (a : α) : Follows R (Pure.pure a : Prog σ α) := fun s => Ends.pure (refl_of R s)

theorem bind {x : Prog σ α} {f : α → Prog σ β} (hx : Follows R x) (hf : ∀ a, Follows R (f a)) : Follows R (x >>= f) :=
  fun s => Ends.bind ((hx s).mono fun a s' h => (hf a s').mono fun _ _ h' => trans_of R h h')

theorem loop {body : β → Prog σ (β ⊕ γ)} (h : ∀ b, Follows R (body b)) (b : β) : Follows R (Prog.loop body b) := by
  intro s
  refine Ends.loop (fun _ s' => R s s') (fun b s' hI => (h b s').mono ?_) b s (refl_of R s)
  rintro (b' | c) s'' h'
  · exact trans_of R hI h'
  · exact trans_of R hI h'

end Follows

end XrdHdfs.Lib
