import LastPicked.LabelledRuns
import Mathlib.Logic.Basic

/-! Machines that move on an input, showing something, or are stuck. Two machines are in
lockstep through a relation of their states when related states are stuck on the same inputs,
and otherwise show the same and stay related. -/

namespace LastPicked.LockstepRuns
open LabelledRuns

variable {σ σ' τ ε : Type*} {step : σ → τ → Option (σ × ε)} {step' : σ' → τ → Option (σ' × ε)}
  {R : σ → σ' → Prop} {s : σ} {s' : σ'}

def runAll (step : σ → τ → Option (σ × ε)) (s : σ) : List τ → Option (List ε × σ)
  | [] => some ([], s)
  | t :: ts => (step s t).bind fun moved =>
      (runAll step moved.1 ts).map fun later => (moved.2 :: later.1, later.2)

theorem run_of_runAll {ts : List τ} {es : List ε} {t : σ} (h : runAll step s ts = some (es, t)) :
    Run (fun s e t => ∃ i, step s i = some (t, e)) s es t := by
  induction ts generalizing s es with
  | nil =>
    cases h
    exact .nil
  | cons i ts ih =>
    obtain ⟨moved, first, h⟩ := Option.bind_eq_some_iff.mp h
    obtain ⟨later, rest, same⟩ := Option.map_eq_some_iff.mp h
    cases same
    exact .cons ⟨i, first⟩ (ih rest)

abbrev Agree (R : σ → σ' → Prop) : Option (σ × ε) → Option (σ' × ε) → Prop :=
  Option.Rel fun p p' => R p.1 p'.1 ∧ p.2 = p'.2

def Lockstep (step : σ → τ → Option (σ × ε)) (step' : σ' → τ → Option (σ' × ε))
    (R : σ → σ' → Prop) : Prop :=
  ∀ s s' t, R s s' → Agree R (step s t) (step' s' t)

theorem Lockstep.runAll (locked : Lockstep step step' R) (start : R s s') (ts : List τ) :
    Option.Rel (fun p p' => p.1 = p'.1 ∧ R p.2 p'.2) (runAll step s ts) (runAll step' s' ts) := by
  induction ts generalizing s s' with
  | nil => exact .some ⟨rfl, start⟩
  | cons t ts ih =>
    have agree := locked s s' t start
    rw [LockstepRuns.runAll, LockstepRuns.runAll]
    generalize step s t = here, step' s' t = there at agree ⊢
    cases agree with
    | none => exact .none
    | some both =>
      have later := ih both.1
      rw [Option.bind_some, Option.bind_some]
      generalize LockstepRuns.runAll step _ ts = rest,
        LockstepRuns.runAll step' _ ts = rest' at later ⊢
      cases later with
      | none => exact .none
      | some both' => exact .some ⟨congrArg₂ List.cons both.2 both'.1, both'.2⟩

end LastPicked.LockstepRuns
