import LastPicked.AllocatorInit

/-! The block list of the program, node by node, and what is always true of
it: the links, the addresses, the sizes and the maximality of the holes. -/

namespace LastPicked.Allocator
open CIntegers LabelledRuns LinkedChain GapTiling

variable {m m' : Mem} {xs : List Cell} {base sz : Nat}

theorem nodesOf_names (p : Option Addr) (xs : List Cell) :
    (nodesOf p xs).map Prod.fst = xs.map Prod.fst := by
  induction xs generalizing p with
  | nil => rfl
  | cons x xs ih => simp [nodesOf, ih]

theorem nodesOf_extents (p : Option Addr) (xs : List Cell) :
    (nodesOf p xs).map (fun x => extentOf x.2) = xs.map Prod.snd := by
  induction xs generalizing p with
  | nil => rfl
  | cons x xs ih => simp [nodesOf, ih]

theorem nodesOf_links (p : Option Addr) (xs : List Cell) :
    (nodesOf p xs).IsChain fun x y => x.2.next = some y.1 ∧ y.2.prev = some x.1 := by
  induction xs generalizing p with
  | nil => exact .nil
  | cons x xs ih =>
    refine List.isChain_cons.mpr ⟨fun y hy => ?_, ih _⟩
    cases xs with
    | nil => simp [nodesOf] at hy
    | cons z xs =>
      obtain rfl : _ = y := by simpa [nodesOf] using hy
      simp

theorem Linked.blockList_eq (h : Linked m xs) : m.blockList = some (nodesOf none xs) := by
  rw [Mem.blockList, h.head]
  exact follow_chain h.chain h.length_le_fuel

theorem Linked.free_node_iff (h : Linked m xs) {Q : Nat → Nat → Prop} :
    (∃ nodes, m.blockList = some nodes ∧ ∃ x ∈ nodes, x.2.alloc = .memFree ∧ Q x.2.ptr x.2.size) ↔
      ∃ x ∈ xs, x.2.used = false ∧ Q x.2.start x.2.len := by
  simp only [h.blockList_eq, Option.some.injEq, exists_eq_left']
  constructor
  · rintro ⟨y, hy, free, holds⟩
    have there := List.mem_map_of_mem (f := fun x => extentOf x.2) hy
    obtain ⟨x, hx, same⟩ := List.mem_map.mp (nodesOf_extents none xs ▸ there)
    exact ⟨x, hx, by simp [same, extentOf, free], by simpa [same, extentOf] using holds⟩
  · rintro ⟨x, hx, free, holds⟩
    have there := List.mem_map_of_mem (f := Prod.snd) hx
    obtain ⟨y, hy, same⟩ := List.mem_map.mp (nodesOf_extents none xs ▸ there)
    rw [← same] at free holds
    refine ⟨y, hy, ?_, holds⟩
    cases alloc : y.2.alloc <;> simp_all [extentOf]

/-- `nodes` is the list that starts at `head`, and it is intact. -/
structure BlockList (m : Mem) (sz : Nat) (nodes : List (Addr × MemoryList)) : Prop where
  follows : m.blockList = some nodes
  reachesLast : nodes.getLast?.map Prod.fst = m.last
  headPrev : ∀ x ∈ nodes.head?, some x.1 = m.head ∧ x.2.prev = none
  lastNext : ∀ x ∈ nodes.getLast?, x.2.next = none
  links : nodes.IsChain fun x y => x.2.next = some y.1 ∧ y.2.prev = some x.1
  base : nodes.head?.map (fun x => x.2.ptr) = m.myMemory
  adjacent : nodes.IsChain fun x y => x.2.ptr + x.2.size = y.2.ptr
  sizePos : ∀ x ∈ nodes, 1 ≤ x.2.size
  total : (nodes.map fun x => x.2.size).sum = sz
  holes : nodes.IsChain fun x y => ¬ (x.2.alloc = .memFree ∧ y.2.alloc = .memFree)

theorem nodesOf_head (p : Option Addr) (xs : List Cell) :
    ∀ x ∈ (nodesOf p xs).head?, some x.1 = first none xs ∧ x.2.prev = p := by
  cases xs <;> simp [nodesOf]

theorem nodesOf_last (p : Option Addr) (xs : List Cell) :
    ∀ x ∈ (nodesOf p xs).getLast?, x.2.next = none := by
  induction xs generalizing p with
  | nil => simp [nodesOf]
  | cons x xs ih =>
    cases xs with
    | nil => simp [nodesOf]
    | cons y xs => simpa only [nodesOf, List.getLast?_cons_cons] using ih (some x.1)

theorem Pool.blockList (h : Pool m base sz xs) (pos : 1 ≤ sz) :
    BlockList m sz (nodesOf none xs) := by
  have extents := nodesOf_extents none xs
  have tiles := h.tiles
  have separated := h.separated
  rw [← extents] at tiles separated
  refine ⟨h.linked.blockList_eq, ?_, ?_, nodesOf_last none xs, nodesOf_links none xs, ?_,
    ?_, ?_, ?_, ?_⟩
  · rw [← List.getLast?_map, nodesOf_names, h.linked.last, final_eq_getLast, List.getLast?_map]
  · intro x hx
    exact ⟨((nodesOf_head none xs) x hx).1.trans h.linked.head.symm,
      ((nodesOf_head none xs) x hx).2⟩
  · cases xs with
    | nil =>
      have none_left : base = base + sz := h.tiles
      omega
    | cons x xs =>
      rw [h.memory]
      exact congrArg some h.tiles.1
  · exact (List.isChain_map _).mp tiles.adjacent
  · exact fun x hx => (tiles.bounds (List.mem_map_of_mem hx)).2.1
  · have whole := tiles.hi_eq
    rw [cover, List.map_map] at whole
    exact (Nat.add_left_cancel whole).symm
  · refine ((List.isChain_map _).mp separated).imp fun x y either both => ?_
    simp [extentOf, both.1, both.2] at either

/-- In every state that calls lead to, whatever the strategy and however many
earlier `initmem` calls there were, the list is intact and its sizes add up
to the size of the current pool. -/
theorem session_blockList {strategy : Strategies} {calls : List Call}
    (h : Session strategy sz calls m) : ∃ nodes, BlockList m sz nodes := by
  obtain ⟨base, xs, pool, -⟩ := h.pool
  obtain ⟨_, _, _, init, _⟩ := h.began
  exact ⟨_, pool.blockList init.1⟩

theorem session_blockList_fourTaken : ∃ nodes, BlockList fourTaken 10 nodes :=
  session_blockList session_fourTaken

end LastPicked.Allocator
