import Mathlib.Algebra.BigOperators.Group.Finset.Piecewise
import Mathlib.Algebra.Order.BigOperators.Group.Finset
import Mathlib.Algebra.Order.Group.Nat
import Mathlib.Data.Fintype.BigOperators

/-! Sums and counts over a finite family of local states, and how they change
when one member of the family does. -/

namespace LastPicked.Tallies

variable {ι : Type*} [Fintype ι] [DecidableEq ι] {α : Type*}

theorem sum_update (f : ι → Nat) (i : ι) (value : Nat) :
    ∑ j, Function.update f i value j + f i = ∑ j, f j + value := by
  rw [Finset.sum_update_of_mem (Finset.mem_univ i),
    Finset.sum_eq_add_sum_sdiff_singleton i f fun h => absurd (Finset.mem_univ i) h]
  omega

def tally (p : α → Bool) (family : ι → α) : Nat := ∑ i, (p (family i)).toNat

theorem tally_update (p : α → Bool) (family : ι → α) (i : ι) (a : α) :
    tally p (Function.update family i a) + (p (family i)).toNat = tally p family + (p a).toNat := by
  have moved : (fun j => (p (Function.update family i a j)).toNat) =
      Function.update (fun j => (p (family j)).toNat) i (p a).toNat := by
    funext j
    exact Function.apply_update (fun _ b => (p b).toNat) family i a j
  rw [tally, moved]
  exact sum_update _ i _

omit [DecidableEq ι] in
theorem tally_congr {p : α → Bool} {f g : ι → α} (same : ∀ i, p (f i) = p (g i)) :
    tally p f = tally p g :=
  Finset.sum_congr rfl fun i _ => by rw [same]

omit [DecidableEq ι] in
theorem tally_eq_zero (p : α → Bool) (family : ι → α) :
    tally p family = 0 ↔ ∀ i, p (family i) = false := by
  simp [tally, Finset.sum_eq_zero_iff]

omit [DecidableEq ι] in
theorem tally_le {p q : α → Bool} (family : ι → α) (le : ∀ a, p a = true → q a = true) :
    tally p family ≤ tally q family := by
  refine Finset.sum_le_sum fun i _ => ?_
  cases h : p (family i)
  · exact Nat.zero_le _
  · rw [le _ h]

omit [DecidableEq ι] in
theorem tally_add_not (p : α → Bool) (family : ι → α) :
    tally p family + tally (fun a => !p a) family = Fintype.card ι := by
  rw [tally, tally, ← Finset.sum_add_distrib, ← Finset.card_univ, Finset.card_eq_sum_ones]
  exact Finset.sum_congr rfl fun i _ => by cases p (family i) <;> rfl

omit [DecidableEq ι] in
theorem tally_eq_card (p : α → Bool) (family : ι → α) :
    tally p family = Fintype.card ι ↔ ∀ i, p (family i) = true := by
  have both := tally_add_not p family
  have rest := tally_eq_zero (fun a => !p a) family
  simp only [Bool.not_eq_false'] at rest
  rw [← rest]
  omega

theorem length_eq_tally {p : α → Bool} {family : ι → α} {l : List ι} (distinct : l.Nodup)
    (listed : ∀ i, i ∈ l ↔ p (family i) = true) : l.length = tally p family := by
  have same : l.toFinset = Finset.univ.filter fun i => p (family i) = true := by
    ext i
    simp [listed]
  rw [← List.toFinset_card_of_nodup distinct, same, Finset.card_filter, tally]
  exact Finset.sum_congr rfl fun i _ => by cases p (family i) <;> rfl

end LastPicked.Tallies
