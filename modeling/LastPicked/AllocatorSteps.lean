import LastPicked.AllocatorChain

/-! What each function of mymem.c does to the chain of cells, one lemma for
each. The loops over the list are functions of the chain; taking a block
carves it, and giving it back joins it with its free neighbours. -/

namespace LastPicked.Allocator
open CIntegers LinkedChain GapTiling

variable {m m' : Mem} {xs pre post : List Cell} {x : Cell}

namespace Mem

def settings (m : Mem) : Strategies × Nat × Option Addr := (m.myStrategy, m.mySize, m.myMemory)

theorem settings_of_globals {m m' : Mem} (h : m'.globals = m.globals) :
    m'.settings = m.settings ∧ m'.lastAllocated = m.lastAllocated := by
  simp only [globals, Prod.mk.injEq] at h
  simp [settings, h]

end Mem

theorem follow_chain {p : Option Addr} (chain : Chain m.view p xs none) {fuel : Nat}
    (enough : xs.length ≤ fuel) : m.follow fuel (first none xs) = some (nodesOf p xs) := by
  induction xs generalizing p fuel with
  | nil => cases fuel <;> rfl
  | cons x xs ih =>
    obtain ⟨fuel, rfl⟩ : ∃ k, fuel = k + 1 := ⟨fuel - 1, by simp at enough; omega⟩
    have rest := ih chain.2 (by simpa using enough)
    simp [Mem.follow, Mem.view_eq_some.mp chain.1, rest, nodesOf]

theorem overList_chain {α : Type} (update : α → MemoryList → α) {p : Option Addr}
    (chain : Chain m.view p xs none) {fuel : Nat} (enough : xs.length ≤ fuel) (count : α) :
    overList m update fuel (first none xs) count =
      some ((nodesOf p xs).foldl (fun count n => update count n.2) count) := by
  induction xs generalizing p fuel count with
  | nil => cases fuel <;> rfl
  | cons x xs ih =>
    obtain ⟨fuel, rfl⟩ : ∃ k, fuel = k + 1 := ⟨fuel - 1, by simp at enough; omega⟩
    have rest := ih chain.2 (by simpa using enough) (update count (cell p (first none xs) x.2))
    simpa [overList, Mem.view_eq_some.mp chain.1, nodesOf] using rest

theorem suitable_cell (p n : Option Addr) (e : Extent) (r : Nat) :
    suitable (cell p n e) r = true ↔ e.used = false ∧ r ≤ e.len := by
  rw [suitable, Bool.and_eq_true, decide_eq_true_eq, decide_eq_true_eq, cell_alloc_free, cell_size]

theorem firstSearch_chain {r : Nat} {p : Option Addr} (chain : Chain m.view p xs none) {fuel : Nat}
    (enough : xs.length ≤ fuel) :
    firstSearch m r fuel (first none xs) =
      some ((xs.find? fun x => !x.2.used && decide (r ≤ x.2.len)).map Prod.fst) := by
  induction xs generalizing p fuel with
  | nil => cases fuel <;> rfl
  | cons x xs ih =>
    obtain ⟨fuel, rfl⟩ : ∃ k, fuel = k + 1 := ⟨fuel - 1, by simp at enough; omega⟩
    have rest := ih chain.2 (by simpa using enough)
    simp only [firstSearch, first_cons, Mem.view_eq_some.mp chain.1, Option.bind_eq_bind,
      Option.bind_some, suitable_cell, List.find?_cons]
    by_cases fits : x.2.used = false ∧ r ≤ x.2.len
    · simp [fits]
    · rw [if_neg fits]
      simp only [not_and_or, Bool.not_eq_false] at fits
      rcases fits with h | h <;> simp [h, cell, rest]

/-- `bestSearch` and `worstSearch` scan the list the same way: they keep a
candidate and an `int`, and replace both at a suitable block that `better` prefers. -/
def scan (better : Extent → Int → Bool) (r : Nat) :
    List Cell → Option Addr × Int → Option Addr × Int
  | [], held => held
  | x :: xs, held =>
      scan better r xs (if (!x.2.used && decide (r ≤ x.2.len)) && better x.2 held.2
        then (some x.1, toInt x.2.len) else held)

theorem bestSearch_chain {r : Nat} {p : Option Addr} (chain : Chain m.view p xs none) {fuel : Nat}
    (enough : xs.length ≤ fuel) (toUse : Option Addr) (bestSize : Int) :
    bestSearch m r fuel (first none xs) toUse bestSize =
      some (scan (fun e held => e.len < toSize held) r xs (toUse, bestSize)).1 := by
  induction xs generalizing p fuel toUse bestSize with
  | nil => cases fuel <;> rfl
  | cons x xs ih =>
    obtain ⟨fuel, rfl⟩ : ∃ k, fuel = k + 1 := ⟨fuel - 1, by simp at enough; omega⟩
    have rest := ih chain.2 (by simpa using enough)
    simp only [bestSearch, first_cons, Mem.view_eq_some.mp chain.1, Option.bind_eq_bind,
      Option.bind_some, scan]
    cases used : x.2.used <;> simp only [suitable, cell, used] <;>
      by_cases fits : r ≤ x.2.len <;> by_cases small : x.2.len < toSize bestSize <;>
      simp [fits, small, rest]

theorem worstSearch_chain {r : Nat} {p : Option Addr} (chain : Chain m.view p xs none) {fuel : Nat}
    (enough : xs.length ≤ fuel) (toUse : Option Addr) (worstSize : Int) :
    worstSearch m r fuel (first none xs) toUse worstSize =
      some (scan (fun e held => toSize held < e.len) r xs (toUse, worstSize)).1 := by
  induction xs generalizing p fuel toUse worstSize with
  | nil => cases fuel <;> rfl
  | cons x xs ih =>
    obtain ⟨fuel, rfl⟩ : ∃ k, fuel = k + 1 := ⟨fuel - 1, by simp at enough; omega⟩
    have rest := ih chain.2 (by simpa using enough)
    simp only [worstSearch, first_cons, Mem.view_eq_some.mp chain.1, Option.bind_eq_bind,
      Option.bind_some, scan]
    cases used : x.2.used <;> simp only [suitable, cell, used] <;>
      by_cases fits : r ≤ x.2.len <;> by_cases large : toSize worstSize < x.2.len <;>
      simp [fits, large, rest]

def Fits (xs : List Cell) (r : Nat) (a : Addr) : Prop :=
  ∃ x ∈ xs, x.1 = a ∧ x.2.used = false ∧ r ≤ x.2.len

theorem scan_fits {better : Extent → Int → Bool} {r : Nat} {held : Option Addr × Int}
    (whole : List Cell) (inside : xs ⊆ whole) (start : ∀ a ∈ held.1, Fits whole r a) :
    ∀ a ∈ (scan better r xs held).1, Fits whole r a := by
  induction xs generalizing held with
  | nil => exact start
  | cons x xs ih =>
    obtain ⟨here, rest⟩ := List.cons_subset.mp inside
    refine ih rest ?_
    split
    · rename_i take
      simp only [Bool.and_eq_true, Bool.not_eq_true', decide_eq_true_eq] at take
      simpa using ⟨x, here, rfl, take.1⟩
    · exact start

theorem nextSearch_suitable {r fuel : Nat} {cur : Option Addr} {a : Addr}
    (found : nextSearch m r fuel cur = some (some a)) :
    ∃ n, m.node a = some n ∧ suitable n r = true := by
  induction fuel generalizing cur with
  | zero => simp [nextSearch] at found
  | succ fuel ih =>
    simp only [nextSearch, Option.bind_eq_bind, Option.bind_eq_some_iff] at found
    obtain ⟨c, -, n, -, b, -, met, here, found⟩ := found
    split at found
    · simp at found
    · split at found
      · rename_i fits
        simp only [Option.some.injEq] at found
        subst found
        exact ⟨met, here, fits⟩
      · exact ih found

theorem nextSearch_fits {r : Nat} (h : Linked m xs) {fuel : Nat} {cur : Option Addr} {a : Addr}
    (found : nextSearch m r fuel cur = some (some a)) : Fits xs r a := by
  obtain ⟨n, here, fits⟩ := nextSearch_suitable found
  obtain ⟨x, hx, name⟩ := List.mem_map.mp (h.live a (by simp [here]))
  obtain ⟨q, n, shown⟩ := h.chain.mem hx
  have same := Option.some.inj (here.symm.trans (name ▸ Mem.view_eq_some.mp shown))
  rw [same, suitable_cell] at fits
  exact ⟨x, hx, name, fits⟩

theorem search_fits (h : Linked m xs) {r : Nat} {a : Addr} (found : search m r = some (some a)) :
    Fits xs r a := by
  have enough := h.length_le_fuel
  unfold search at found
  rw [h.head] at found
  cases hs : m.myStrategy <;> simp only [hs] at found
  · simp at found
  · rw [bestSearch_chain h.chain enough, Option.some.injEq] at found
    exact scan_fits xs (List.Subset.refl _) (by simp) a found
  · rw [worstSearch_chain h.chain enough, Option.some.injEq] at found
    exact scan_fits xs (List.Subset.refl _) (by simp) a found
  · rw [firstSearch_chain h.chain enough, Option.some.injEq, Option.map_eq_some_iff] at found
    obtain ⟨x, hx, name⟩ := found
    have fits := List.find?_some hx
    simp only [Bool.and_eq_true, Bool.not_eq_true', decide_eq_true_eq] at fits
    exact ⟨x, List.mem_of_find?_eq_some hx, name, fits⟩
  · exact nextSearch_fits h found

theorem search_total (h : Linked m xs) (r : Nat) (set : m.myStrategy ≠ .notSet)
    (other : m.myStrategy ≠ .next) : ∃ t, search m r = some t := by
  have enough := h.length_le_fuel
  unfold search
  rw [h.head]
  cases hs : m.myStrategy <;> simp_all only [ne_eq, not_true_eq_false, reduceCtorEq,
    not_false_eq_true]
  · exact ⟨_, bestSearch_chain h.chain enough _ _⟩
  · exact ⟨_, worstSearch_chain h.chain enough _ _⟩
  · exact ⟨_, firstSearch_chain h.chain enough⟩

end LastPicked.Allocator
