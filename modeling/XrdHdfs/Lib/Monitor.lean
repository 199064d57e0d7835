import XrdHdfs.Lib.Prog

/-!
# Programs that keep a protocol

A monitor reads the events of a log one after the other; it has a state, which each event changes, and it refuses what is
out of order.  Where an event does not show all that happens, the monitor may have more than one state to go to.  A program
adds events to the log.  `Obeys P x Q` says that a monitor in a state with `P` can accept what `x` adds, whatever `x`
returns, and is in a state with `Q` then.

The rules follow the structure of the program.  Where the states of the monitor can be added and more never hurts, what a
program needs can be put into a larger state (`Obeys.frame`).
-/

namespace XrdHdfs.Lib

variable {M E σ α β γ : Type} {next : M → E → M → Prop} {log : σ → List E}

/-- The monitor gets from a state to another along the events. -/
inductive Passes (next : M → E → M → Prop) : M → List E → M → Prop
  | nil (m : M) : Passes next m [] m
  | cons {m m' m'' : M} {e : E} {es : List E} : next m e m' → Passes next m' es m'' → Passes next m (e :: es) m''

/-- What was added to the log takes the monitor from `m` to `m'`. -/
def Moves (next : M → E → M → Prop) (log : σ → List E) (m : M) (s : σ) (m' : M) (s' : σ) : Prop :=
  ∃ es, log s' = log s ++ es ∧ Passes next m es m'

/-- **The monitor accepts the program.** -/
def Obeys (next : M → E → M → Prop) (log : σ → List E) (P : M → Prop) (x : Prog σ α) (Q : α → M → Prop) : Prop :=
  ∀ m s, P m → Ends x s fun a s' => ∃ m', Q a m' ∧ Moves next log m s m' s'

/-- More never hurts: what the monitor accepts it accepts in a larger state too. -/
def Framed [Add M] (next : M → E → M → Prop) : Prop := ∀ m e m' k, next m e m' → next (m + k) e (m' + k)

namespace Passes

variable {m m' m'' : M} {es es' : List E}

theorem append (h : Passes next m es m') (h' : Passes next m' es' m'') : Passes next m (es ++ es') m'' := by
  induction h with
  | nil => exact h'
  | cons he _ ih => exact .cons he (ih h')

/-- Events that leave the state as it is. -/
theorem of_forall (h : ∀ e ∈ es, next m e m) : Passes next m es m := by
  induction es with
  | nil => exact .nil m
  | cons e es ih =>
    rw [List.forall_mem_cons] at h
    exact .cons h.1 (ih h.2)

theorem frame [Add M] (hnext : Framed next) (h : Passes next m es m') (k : M) : Passes next (m + k) es (m' + k) := by
  induction h with
  | nil m => exact .nil (m + k)
  | cons he _ ih => exact .cons (hnext _ _ _ k he) ih

end Passes

namespace Moves

variable {m m' m'' : M} {s s' s'' : σ}

theorem of_eq (h : log s' = log s) : Moves next log m s m s' := ⟨[], by rw [h, List.append_nil], .nil m⟩

theorem one {e : E} (h : log s' = log s ++ [e]) (he : next m e m') : Moves next log m s m' s' :=
  ⟨[e], h, .cons he (.nil m')⟩

theorem trans (h : Moves next log m s m' s') (h' : Moves next log m' s' m'' s'') : Moves next log m s m'' s'' := by
  obtain ⟨es, hes, hp⟩ := h
  obtain ⟨es', hes', hp'⟩ := h'
  exact ⟨es ++ es', by rw [hes', hes, List.append_assoc], hp.append hp'⟩

end Moves

namespace Obeys

variable {P P' : M → Prop} {Q : β → M → Prop}

theorem mono {Q' : β → M → Prop} {x : Prog σ β} (h : Obeys next log P x Q) (hP : ∀ m, P' m → P m)
    (hQ : ∀ a m, Q a m → Q' a m) : Obeys next log P' x Q' := by
  intro m s hm
  refine (h m s (hP m hm)).mono ?_
  rintro a s' ⟨m', hq, hmoves⟩
  exact ⟨m', hQ a m' hq, hmoves⟩

theorem pure {a : β} (h : ∀ m, P m → Q a m) : Obeys next log P (Pure.pure a : Prog σ β) Q :=
  fun m _ hm => Ends.pure ⟨m, h m hm, .of_eq rfl⟩

theorem bind {x : Prog σ α} {f : α → Prog σ β} {R : α → M → Prop} (hx : Obeys next log P x R)
    (hf : ∀ a, Obeys next log (R a) (f a) Q) : Obeys next log P (x >>= f) Q := by
  intro m s hm
  refine Ends.bind ((hx m s hm).mono ?_)
  rintro a s' ⟨m', hr, hmoves⟩
  refine (hf a m' s' hr).mono ?_
  rintro b s'' ⟨m'', hq, hmoves'⟩
  exact ⟨m'', hq, hmoves.trans hmoves'⟩

/-- A step, which may be that of any state with `P`. -/
theorem step {f : σ → β × σ} (h : ∀ m s, P m → ∃ m', Q (f s).1 m' ∧ Moves next log m s m' (f s).2) :
    Obeys next log P (Prog.step f) Q := fun m s hm => Ends.step (h m s hm)

theorem ite {c : Prop} [Decidable c] {x y : Prog σ β} (hx : c → Obeys next log P x Q)
    (hy : ¬ c → Obeys next log P y Q) : Obeys next log P (if c then x else y) Q :=
  fun m s hm => Ends.ite (fun h => hx h m s hm) fun h => hy h m s hm

/-- **The loop rule.** Every turn keeps the invariant, or leaves with `Q`. -/
theorem loop {body : α → Prog σ (α ⊕ β)} (I : α → M → Prop)
    (hbody : ∀ a, Obeys next log (I a) (body a) fun r => Sum.elim I Q r) (a : α) :
    Obeys next log (I a) (Prog.loop body a) Q := by
  intro m s hm
  refine Ends.loop (fun a s' => ∃ m', I a m' ∧ Moves next log m s m' s') ?_ a s ⟨m, hm, .of_eq rfl⟩
  rintro a s' ⟨m', hI, hmoves⟩
  refine (hbody a m' s' hI).mono ?_
  rintro (a' | b) s'' ⟨m'', h, hmoves'⟩
  · exact ⟨m'', h, hmoves.trans hmoves'⟩
  · exact ⟨m'', h, hmoves.trans hmoves'⟩

/-- **The rule for a recursive procedure.** -/
theorem fix {F : (α → Prog σ β) → α → Prog σ β} {hF : Prog.Recursive F} {P : α → M → Prop} {Q : α → β → M → Prop}
    (h : ∀ g, (∀ a, Obeys next log (P a) (g a) (Q a)) → ∀ a, Obeys next log (P a) (F g a) (Q a)) (a : α) :
    Obeys next log (P a) (Prog.fix F hF a) (Q a) := by
  have hfix : ∀ a s, Ends (Prog.fix F hF a) s fun b s' => ∀ m, P a m → ∃ m', Q a b m' ∧ Moves next log m s m' s' := by
    refine fun a s => Ends.fix_induct
      (P := fun a s b s' => ∀ m, P a m → ∃ m', Q a b m' ∧ Moves next log m s m' s') (fun g hg a s => ?_) a s
    intro n b s' hrun m hm
    exact h g (fun a m s hm => (hg a s).mono fun b s' hb => hb m hm) a m s hm n b s' hrun
  exact fun m s hm => (hfix a s).mono fun b s' hb => hb m hm

/-- **The frame rule.** -/
theorem frame [Add M] (hnext : Framed next) {x : Prog σ β} (h : Obeys next log P x Q) (k : M) :
    Obeys next log (fun m => ∃ m₀, P m₀ ∧ m = m₀ + k) x fun b m => ∃ m₀, Q b m₀ ∧ m = m₀ + k := by
  rintro m s ⟨m₀, hm, rfl⟩
  refine (h m₀ s hm).mono ?_
  rintro b s' ⟨m', hq, es, hes, hp⟩
  exact ⟨m' + k, ⟨m', hq, rfl⟩, es, hes, hp.frame hnext k⟩

end Obeys

end XrdHdfs.Lib
