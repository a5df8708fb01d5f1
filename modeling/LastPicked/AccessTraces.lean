import LastPicked.CMemory

/-! Computations together with the places they touch, in the order in which they
touch them. A computation without a result ends there, and what it touched
before is on record. -/

namespace LastPicked.AccessTraces
open CMemory

universe u v

structure Traced (ι : Type u) (α : Type v) where
  accesses : List ι
  result : Option α

namespace Traced

variable {ι : Type u} {α β : Type v} {p : ι → Prop}

instance : Monad (Traced ι) where
  pure a := ⟨[], some a⟩
  bind t f :=
    match t.result with
    | none => ⟨t.accesses, none⟩
    | some a => ⟨t.accesses ++ (f a).accesses, (f a).result⟩

def lift (result : Option α) : Traced ι α := ⟨[], result⟩

def access (i : ι) (result : Option α) : Traced ι α := ⟨[i], result⟩

def Within (p : ι → Prop) (t : Traced ι α) : Prop := ∀ i ∈ t.accesses, p i

@[simp] theorem pure_result (a : α) : (pure a : Traced ι α).result = some a := rfl

@[simp] theorem lift_result (result : Option α) : (lift result : Traced ι α).result = result := rfl

@[simp] theorem access_result (i : ι) (result : Option α) : (access i result).result = result := rfl

@[simp] theorem bind_result (t : Traced ι α) (f : α → Traced ι β) :
    (t >>= f).result = t.result.bind fun a => (f a).result := by
  obtain ⟨accesses, result⟩ := t
  cases result <;> rfl

@[simp] theorem ite_result (c : Prop) [Decidable c] (t t' : Traced ι α) :
    (if c then t else t').result = if c then t.result else t'.result := apply_ite result c t t'

@[simp] theorem within_pure (a : α) : (pure a : Traced ι α).Within p := nofun

@[simp] theorem within_lift (result : Option α) : (lift result : Traced ι α).Within p := nofun

@[simp] theorem within_access (i : ι) (result : Option α) : (access i result).Within p ↔ p i := by
  simp [Within, access]

@[simp] theorem within_bind (t : Traced ι α) (f : α → Traced ι β) :
    (t >>= f).Within p ↔ t.Within p ∧ ∀ a, t.result = some a → (f a).Within p := by
  obtain ⟨accesses, result⟩ := t
  cases result with
  | none => simp [Within, bind]
  | some a => simp [Within, bind, or_imp, forall_and]

@[simp] theorem within_lift_bind (result : Option α) (f : α → Traced ι β) :
    (lift result >>= f).Within p ↔ ∀ a, result = some a → (f a).Within p := by
  rw [within_bind, lift_result]
  exact and_iff_right (within_lift result)

theorem within_access_bind {i : ι} {a : α} (inside : p i) (f : α → Traced ι β) :
    (access i (some a) >>= f).Within p ↔ (f a).Within p := by
  rw [within_bind, within_access]
  simp [inside]

def search (place : Nat → ι) (q : α → Option Bool) : List α → Nat → Traced ι Nat
  | [], k => pure k
  | x :: xs, k => do
      if ← access (place k) (q x) then pure k else search place q xs (k + 1)

theorem search_result (place : Nat → ι) (q : α → Option Bool) (xs : List α) (k : Nat) :
    (search place q xs k).result = (firstIndex q xs).map (· + k) := by
  induction xs generalizing k with
  | nil => simp [search, firstIndex]
  | cons x xs ih =>
    simp only [search, firstIndex, bind_result, access_result, ite_result, pure_result, ih,
      Option.bind_eq_bind]
    cases q x with
    | none => rfl
    | some found =>
      cases found with
      | true => simp
      | false =>
        simp only [Option.bind_some, Bool.false_eq_true, if_false, Option.map_map]
        congr 1
        funext j
        exact (Nat.succ_add_eq_add_succ j k).symm

theorem search_within (place : Nat → ι) (q : α → Option Bool) (xs : List α) (k : Nat)
    (inside : ∀ j, k ≤ j → j < k + xs.length → p (place j)) : (search place q xs k).Within p := by
  induction xs generalizing k with
  | nil => exact within_pure k
  | cons x xs ih =>
    rw [List.length_cons] at inside
    have first := inside k (Nat.le_refl k) (by omega)
    have rest := ih (k + 1) fun j hj hj' => inside j (by omega) (by omega)
    rw [search, within_bind, within_access]
    refine ⟨first, fun found _ => ?_⟩
    cases found with
    | true => exact within_pure k
    | false => exact rest

end Traced

end LastPicked.AccessTraces
