import Mathlib.Data.List.Induction

/-! Finite runs of a labelled step relation. A run carries the list of its
labels, oldest first, so a property of a whole history is an invariant of
the pair (labels so far, state reached). -/

namespace LastPicked.LabelledRuns

variable {σ : Type*} {ℓ : Type*} {step : σ → ℓ → σ → Prop}

inductive Run (step : σ → ℓ → σ → Prop) (s : σ) : List ℓ → σ → Prop
  | nil : Run step s [] s
  | snoc {ls : List ℓ} {t u : σ} {l : ℓ} :
      Run step s ls t → step t l u → Run step s (ls ++ [l]) u

theorem Run.single {s t : σ} {l : ℓ} (h : step s l t) : Run step s [l] t := by
  simpa using Run.nil.snoc h

theorem Run.mono {step' : σ → ℓ → σ → Prop} {s t : σ} {ls : List ℓ}
    (weaker : ∀ s l t, step s l t → step' s l t) (h : Run step s ls t) : Run step' s ls t := by
  induction h with
  | nil => exact .nil
  | snoc _ last ih => exact ih.snoc (weaker _ _ _ last)

theorem Run.append {s t u : σ} {as bs : List ℓ}
    (h : Run step s as t) (k : Run step t bs u) : Run step s (as ++ bs) u := by
  induction k with
  | nil => simpa using h
  | snoc _ last ih => simpa only [List.append_assoc] using ih.snoc last

theorem Run.cons {s t u : σ} {l : ℓ} {ls : List ℓ}
    (h : step s l t) (k : Run step t ls u) : Run step s (l :: ls) u :=
  (Run.single h).append k

theorem Run.snoc_inv {s u : σ} {ls : List ℓ} {l : ℓ} (h : Run step s (ls ++ [l]) u) :
    ∃ t, Run step s ls t ∧ step t l u := by
  generalize same : ls ++ [l] = all at h
  cases h with
  | nil => simp at same
  | @snoc before t _ l' run last =>
    obtain ⟨rfl, eq⟩ := List.append_inj' same rfl
    simp only [List.cons.injEq, and_true] at eq
    subst eq
    exact ⟨t, run, last⟩

theorem Run.split {s u : σ} (as bs : List ℓ) (h : Run step s (as ++ bs) u) :
    ∃ t, Run step s as t ∧ Run step t bs u := by
  induction bs using List.reverseRecOn generalizing u with
  | nil => exact ⟨u, by simpa using h, .nil⟩
  | append_singleton bs l ih =>
    rw [← List.append_assoc] at h
    obtain ⟨v, run, last⟩ := h.snoc_inv
    obtain ⟨t, first, second⟩ := ih run
    exact ⟨t, first, second.snoc last⟩

theorem Run.around {s v : σ} {pre post : List ℓ} {l : ℓ} (h : Run step s (pre ++ l :: post) v) :
    ∃ t u, Run step s pre t ∧ step t l u ∧ Run step u post v := by
  rw [List.append_cons] at h
  obtain ⟨u, upto, after⟩ := h.split (pre ++ [l]) post
  obtain ⟨t, before, here⟩ := upto.snoc_inv
  exact ⟨t, u, before, here, after⟩

/-- History induction: a property of (labels, state) that holds at the start
and is kept by every step of a run holds of the whole run. -/
theorem Run.history {s t : σ} {ls : List ℓ} (I : List ℓ → σ → Prop) (start : I [] s)
    (keep : ∀ ls t l u, Run step s ls t → I ls t → step t l u → I (ls ++ [l]) u)
    (h : Run step s ls t) : I ls t := by
  induction h with
  | nil => exact start
  | snoc run last ih => exact keep _ _ _ _ run ih last

theorem Run.invariant {s t : σ} {ls : List ℓ} (I : σ → Prop) (start : I s)
    (keep : ∀ t l u, I t → step t l u → I u) (h : Run step s ls t) : I t :=
  h.history (fun _ t => I t) start fun _ t l u _ => keep t l u

end LastPicked.LabelledRuns
