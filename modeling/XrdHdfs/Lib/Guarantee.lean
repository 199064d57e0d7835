import XrdHdfs.Lib.Prog

/-!
# Programs that give a guarantee

`Guarantees I R x Q` says of a program that from a state with `I`, whatever it returns, it has changed the state as `R` allows
and kept `I`, and what it returns is in `Q`.  `I` is what the program relies on; where `R` itself keeps it (`Stable`), it need
not be shown anew at every step (`Guarantees.of_ends`).
-/

namespace XrdHdfs.Lib

variable {σ α β : Type} {I : σ → Prop} {R : σ → σ → Prop}

/-- What `R` allows does not break `I`. -/
def Stable (I : σ → Prop) (R : σ → σ → Prop) : Prop := ∀ s s', I s → R s s' → I s'

/-- **The guarantee.** -/
def Guarantees (I : σ → Prop) (R : σ → σ → Prop) (x : Prog σ α) (Q : α → Prop) : Prop :=
  ∀ s, I s → Ends x s fun a s' => R s s' ∧ I s' ∧ Q a

namespace Guarantees

variable {Q : β → Prop}

theorem of_ends (hI : Stable I R) {x : Prog σ β} (h : ∀ s, I s → Ends x s fun a s' => R s s' ∧ Q a) : Guarantees I R x Q :=
  fun s hs => (h s hs).mono fun _ s' hR => ⟨hR.1, hI s s' hs hR.1, hR.2⟩

theorem of_follows (hI : Stable I R) {x : Prog σ β} (h : Follows R x) : Guarantees I R x fun _ => True :=
  of_ends hI fun s _ => (h s).mono fun _ _ hR => ⟨hR, trivial⟩

theorem ite {c : Prop} [Decidable c] {x y : Prog σ β} (hx : c → Guarantees I R x Q) (hy : ¬ c → Guarantees I R y Q) :
    Guarantees I R (if c then x else y) Q :=
  fun s hs => Ends.ite (fun h => hx h s hs) fun h => hy h s hs

/-- **The rule for a recursive procedure.** -/
theorem fix {F : (α → Prog σ β) → α → Prog σ β} {hF : Prog.Recursive F} {P : α → Prop} {Q : α → β → Prop}
    (h : ∀ g, (∀ a, P a → Guarantees I R (g a) (Q a)) → ∀ a, P a → Guarantees I R (F g a) (Q a)) (a : α) (ha : P a) :
    Guarantees I R (Prog.fix F hF a) (Q a) := by
  have hfix : ∀ a s, Ends (Prog.fix F hF a) s fun b s' => P a → I s → R s s' ∧ I s' ∧ Q a b := by
    refine fun a s => Ends.fix_induct (P := fun a s b s' => P a → I s → R s s' ∧ I s' ∧ Q a b) (fun g hg a s => ?_) a s
    intro n b s' hrun ha hs
    exact h g (fun a ha s hs => (hg a s).mono fun b s' hb => hb ha hs) a ha s hs n b s' hrun
  exact fun s hs => (hfix a s).mono fun b s' hb => hb ha hs

variable [IsPreorder σ R]

theorem pure {a : β} (h : Q a) : Guarantees I R (Pure.pure a : Prog σ β) Q :=
  fun s hs => Ends.pure ⟨refl_of R s, hs, h⟩

theorem bind {x : Prog σ α} {f : α → Prog σ β} {M : α → Prop} (hx : Guarantees I R x M)
    (hf : ∀ a, M a → Guarantees I R (f a) Q) : Guarantees I R (x >>= f) Q := by
  intro s hs
  refine Ends.bind ((hx s hs).mono ?_)
  rintro a s' ⟨hR, hs', hm⟩
  exact (hf a hm s' hs').mono fun b s'' h => ⟨trans_of R hR h.1, h.2⟩

/-- **The loop rule.** Every turn keeps `P`, or leaves with `Q`. -/
theorem loop {body : α → Prog σ (α ⊕ β)} {P : α → Prop} (h : ∀ a, P a → Guarantees I R (body a) fun r => Sum.elim P Q r)
    (a : α) (ha : P a) : Guarantees I R (Prog.loop body a) Q := by
  intro s hs
  refine Ends.loop (fun a s' => R s s' ∧ I s' ∧ P a) ?_ a s ⟨refl_of R s, hs, ha⟩
  rintro a s' ⟨hR, hs', ha⟩
  refine (h a ha s' hs').mono ?_
  rintro (a' | b) s'' ⟨hR', hs'', hr⟩
  · exact ⟨trans_of R hR hR', hs'', hr⟩
  · exact ⟨trans_of R hR hR', hs'', hr⟩

end Guarantees

end XrdHdfs.Lib
