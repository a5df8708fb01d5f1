import Mathlib.Data.List.AList
import Mathlib.Data.List.Induction

/-! Doubly linked chains in a heap. A heap is a finite map from addresses to
cells; `view` shows of each live cell its two links and its data. A chain is
a list of (address, data) pairs threaded through such a heap. Every update
of a chain is stated by what the new view shows at the touched addresses, so
any program that performs these writes in any order can use the rules. -/

namespace LastPicked.LinkedChain

variable {α : Type*} {β : Type*}

structure Node (α : Type*) (β : Type*) where
  prev : Option α
  next : Option α
  data : β

def first (n : Option α) : List (α × β) → Option α
  | [] => n
  | x :: _ => some x.1

def final (p : Option α) : List (α × β) → Option α
  | [] => p
  | x :: xs => final (some x.1) xs

@[simp] theorem first_nil (n : Option α) : first n ([] : List (α × β)) = n := rfl
@[simp] theorem first_cons (n : Option α) (x : α × β) (xs : List (α × β)) :
    first n (x :: xs) = some x.1 := rfl
@[simp] theorem final_nil (p : Option α) : final p ([] : List (α × β)) = p := rfl
@[simp] theorem final_cons (p : Option α) (x : α × β) (xs : List (α × β)) :
    final p (x :: xs) = final (some x.1) xs := rfl

theorem first_append (n : Option α) (xs ys : List (α × β)) :
    first n (xs ++ ys) = first (first n ys) xs := by
  cases xs <;> rfl

theorem final_append (p : Option α) (xs ys : List (α × β)) :
    final p (xs ++ ys) = final (final p xs) ys := by
  induction xs generalizing p with
  | nil => rfl
  | cons x xs ih => exact ih _

@[simp] theorem final_snoc (p : Option α) (xs : List (α × β)) (x : α × β) :
    final p (xs ++ [x]) = some x.1 := by
  rw [final_append]
  rfl

theorem final_eq_getLast (xs : List (α × β)) :
    final none xs = xs.getLast?.map Prod.fst := by
  induction xs using List.reverseRecOn with
  | nil => rfl
  | append_singleton xs x _ => simp

/-- `xs` is threaded from the link `p` before it to the link `n` behind it. -/
def Chain (view : α → Option (Node α β)) : Option α → List (α × β) → Option α → Prop
  | _, [], _ => True
  | p, x :: xs, n => view x.1 = some ⟨p, first n xs, x.2⟩ ∧ Chain view (some x.1) xs n

variable {view view' : α → Option (Node α β)} {p n : Option α}

@[simp] theorem chain_nil : Chain view p [] n := trivial

@[simp] theorem chain_cons {x : α × β} {xs : List (α × β)} :
    Chain view p (x :: xs) n ↔
      view x.1 = some ⟨p, first n xs, x.2⟩ ∧ Chain view (some x.1) xs n := Iff.rfl

theorem chain_append {xs ys : List (α × β)} :
    Chain view p (xs ++ ys) n ↔
      Chain view p xs (first n ys) ∧ Chain view (final p xs) ys n := by
  induction xs generalizing p with
  | nil => simp
  | cons x xs ih =>
      simp only [List.cons_append, chain_cons, ih, first_append, final_cons, and_assoc]

theorem chain_snoc {xs : List (α × β)} {x : α × β} :
    Chain view p (xs ++ [x]) n ↔
      Chain view p xs (some x.1) ∧ view x.1 = some ⟨final p xs, n, x.2⟩ := by
  simp [chain_append]

theorem Chain.at {xs ys : List (α × β)} {x : α × β} (h : Chain view p (xs ++ x :: ys) n) :
    view x.1 = some ⟨final p xs, first n ys, x.2⟩ :=
  (chain_append.mp h).2.1

theorem Chain.mem {xs : List (α × β)} {x : α × β} (h : Chain view p xs n) (hx : x ∈ xs) :
    ∃ q m, view x.1 = some ⟨q, m, x.2⟩ := by
  obtain ⟨before, after, rfl⟩ := List.append_of_mem hx
  exact ⟨_, _, h.at⟩

theorem Chain.frame {xs : List (α × β)} (h : Chain view p xs n)
    (same : ∀ x ∈ xs, view' x.1 = view x.1) : Chain view' p xs n := by
  induction xs generalizing p with
  | nil => trivial
  | cons x xs ih =>
    refine ⟨(same x (by simp)).trans h.1, ih h.2 fun y hy => same y (by simp [hy])⟩

theorem Chain.relinkFirst {xs : List (α × β)} {x : α × β} {p' : Option α} {b : β}
    (h : Chain view p (x :: xs) n) (new : view' x.1 = some ⟨p', first n xs, b⟩)
    (same : ∀ y ∈ xs, view' y.1 = view y.1) : Chain view' p' ((x.1, b) :: xs) n :=
  ⟨new, h.2.frame same⟩

theorem Chain.relinkLast {xs : List (α × β)} {x : α × β} {n' : Option α} {b : β}
    (h : Chain view p (xs ++ [x]) n) (new : view' x.1 = some ⟨final p xs, n', b⟩)
    (same : ∀ y ∈ xs, view' y.1 = view y.1) : Chain view' p (xs ++ [(x.1, b)]) n' :=
  chain_snoc.mpr ⟨(chain_snoc.mp h).1.frame same, new⟩

/-- The addresses that are met from the link `p` on, when `link` gives the one behind each
address and the last of them has none. -/
inductive Visits (link : α → Option α) : Option α → List α → Prop
  | nil : Visits link none []
  | cons {a : α} {as : List α} : Visits link (link a) as → Visits link (some a) (a :: as)

theorem Chain.visits_next {xs : List (α × β)} (h : Chain view p xs none) :
    Visits (fun a => (view a).bind Node.next) (first none xs) (xs.map Prod.fst) := by
  induction xs generalizing p with
  | nil => exact .nil
  | cons x xs ih =>
    refine .cons ?_
    rw [h.1]
    exact ih h.2

theorem Chain.visits_prev {xs : List (α × β)} (h : Chain view none xs n) :
    Visits (fun a => (view a).bind Node.prev) (final none xs) (xs.map Prod.fst).reverse := by
  induction xs using List.reverseRecOn generalizing n with
  | nil => exact .nil
  | append_singleton xs x ih =>
    obtain ⟨front, last⟩ := chain_snoc.mp h
    rw [final_snoc, List.map_append, List.reverse_append]
    refine .cons ?_
    rw [last]
    exact ih front

/-- A chain of distinct live cells is no longer than the heap is large. -/
theorem length_le_heap {ν : Type*} [DecidableEq α] (heap : AList (fun _ : α => ν))
    {xs : List (α × β)} (distinct : (xs.map Prod.fst).Nodup)
    (live : ∀ x ∈ xs, (heap.lookup x.1).isSome) : xs.length ≤ heap.keys.length := by
  have sub : xs.map Prod.fst ⊆ heap.keys := by
    intro a ha
    obtain ⟨x, hx, rfl⟩ := List.mem_map.mp ha
    exact AList.mem_keys.mp (AList.lookup_isSome.mp (live x hx))
  simpa using (List.subperm_of_subset distinct sub).length_le

end LastPicked.LinkedChain
