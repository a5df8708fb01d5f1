import LastPicked.AllocatorModel

/-! The block list as a chain of (address, extent) pairs, and what the two
list operations of mymem.c do to such a chain. -/

namespace LastPicked.Allocator
open LinkedChain GapTiling

abbrev Cell := Addr × Extent

def extentOf (n : MemoryList) : Extent := ⟨n.ptr, n.size, n.alloc = .memUsed⟩

def toNode (n : MemoryList) : Node Addr Extent := ⟨n.prev, n.next, extentOf n⟩

/-- The node between the links `p` and `n` that stands for `e`. -/
def cell (p n : Option Addr) (e : Extent) : MemoryList :=
  ⟨p, n, e.len, if e.used then .memUsed else .memFree, e.start⟩

@[simp] theorem cell_prev (p n : Option Addr) (e : Extent) : (cell p n e).prev = p := rfl
@[simp] theorem cell_next (p n : Option Addr) (e : Extent) : (cell p n e).next = n := rfl
@[simp] theorem cell_size (p n : Option Addr) (e : Extent) : (cell p n e).size = e.len := rfl
@[simp] theorem cell_ptr (p n : Option Addr) (e : Extent) : (cell p n e).ptr = e.start := rfl

@[simp] theorem cell_alloc_free (p n : Option Addr) (e : Extent) :
    (cell p n e).alloc = .memFree ↔ e.used = false := by
  cases h : e.used <;> simp [cell, h]

@[simp] theorem cell_alloc_used (p n : Option Addr) (e : Extent) :
    (cell p n e).alloc = .memUsed ↔ e.used = true := by
  cases h : e.used <;> simp [cell, h]

@[simp] theorem extentOf_cell (p n : Option Addr) (e : Extent) : extentOf (cell p n e) = e := by
  obtain ⟨start, len, used⟩ := e
  cases used <;> simp [extentOf, cell]

theorem toNode_eq_iff {c : MemoryList} {p n : Option Addr} {e : Extent} :
    toNode c = ⟨p, n, e⟩ ↔ c = cell p n e := by
  constructor
  · intro h
    obtain ⟨prev, next, size, alloc, ptr⟩ := c
    simp only [toNode, extentOf, Node.mk.injEq] at h
    obtain ⟨rfl, rfl, rfl⟩ := h
    cases alloc <;> simp [cell]
  · rintro rfl
    exact congrArg (Node.mk p n) (extentOf_cell p n e)

namespace Mem

def view (m : Mem) (a : Addr) : Option (Node Addr Extent) := (m.node a).map toNode

@[simp] theorem node_put (m : Mem) (a b : Addr) (n : MemoryList) :
    (m.put a n).node b = if b = a then some n else m.node b := by
  by_cases h : b = a
  · subst h
    simp [node, put]
  · simp [node, put, h, AList.lookup_insert_ne]

@[simp] theorem node_drop (m : Mem) (a b : Addr) :
    (m.drop a).node b = if b = a then none else m.node b := by
  by_cases h : b = a
  · subst h
    simp [node, drop]
  · simp [node, drop, h, AList.lookup_erase_ne]

@[simp] theorem head_put (m : Mem) (a : Addr) (n : MemoryList) : (m.put a n).head = m.head := rfl
@[simp] theorem last_put (m : Mem) (a : Addr) (n : MemoryList) : (m.put a n).last = m.last := rfl
@[simp] theorem head_drop (m : Mem) (a : Addr) : (m.drop a).head = m.head := rfl
@[simp] theorem last_drop (m : Mem) (a : Addr) : (m.drop a).last = m.last := rfl

theorem store_eq {m : Mem} {a : Addr} {n : MemoryList} (h : m.node a = some n)
    (f : MemoryList → MemoryList) : m.store a f = some (m.put a (f n)) := by
  simp [store, h]

theorem free_eq {m : Mem} {a : Addr} {n : MemoryList} (h : m.node a = some n) :
    m.free a = some (m.drop a) := by
  simp [free, h]

theorem view_eq_some {m : Mem} {a : Addr} {p n : Option Addr} {e : Extent} :
    m.view a = some ⟨p, n, e⟩ ↔ m.node a = some (cell p n e) := by
  simp [view, Option.map_eq_some_iff, toNode_eq_iff]

theorem view_put_self (m : Mem) (a : Addr) (n : MemoryList) :
    (m.put a n).view a = some (toNode n) := by
  simp [view]

theorem view_of_node {m m' : Mem} {a : Addr} (h : m'.node a = m.node a) :
    m'.view a = m.view a := by
  simp [view, h]

/-- What no list operation touches. -/
def globals (m : Mem) : Strategies × Nat × Option Addr × Option Addr :=
  (m.myStrategy, m.mySize, m.myMemory, m.lastAllocated)

end Mem

def nodesOf : Option Addr → List Cell → List (Addr × MemoryList)
  | _, [] => []
  | p, x :: xs => (x.1, cell p (first none xs) x.2) :: nodesOf (some x.1) xs

/-- The list of the program is exactly `xs`, and no other node is live. -/
structure Linked (m : Mem) (xs : List Cell) : Prop where
  chain : Chain m.view none xs none
  distinct : (xs.map Prod.fst).Nodup
  head : m.head = first none xs
  last : m.last = final none xs
  live : ∀ a, (m.node a).isSome → a ∈ xs.map Prod.fst

theorem distinct_around {β : Type} {pre post : List (Addr × β)} {x : Addr × β}
    (h : ((pre ++ x :: post).map Prod.fst).Nodup) :
    (∀ y ∈ pre, y.1 ≠ x.1) ∧ (∀ y ∈ post, y.1 ≠ x.1) ∧ ∀ y ∈ pre, ∀ z ∈ post, y.1 ≠ z.1 := by
  simp only [List.map_append, List.map_cons, List.nodup_append, List.nodup_cons, List.mem_cons,
    List.mem_map] at h
  obtain ⟨-, ⟨notPost, -⟩, apart⟩ := h
  refine ⟨fun y hy => apart _ ⟨y, hy, rfl⟩ _ (.inl rfl), fun y hy same => notPost ⟨y, hy, same⟩, ?_⟩
  exact fun y hy z hz => apart _ ⟨y, hy, rfl⟩ _ (.inr ⟨z, hz, rfl⟩)

namespace Linked

variable {m m' : Mem} {xs pre post : List Cell} {x : Cell}

theorem node_at (h : Linked m (pre ++ x :: post)) :
    m.node x.1 = some (cell (final none pre) (first none post) x.2) :=
  Mem.view_eq_some.mp h.chain.at

theorem length_le_fuel (h : Linked m xs) : xs.length ≤ m.fuel :=
  length_le_heap m.heap h.distinct fun x hx => by
    obtain ⟨q, n, shown⟩ := h.chain.mem hx
    exact Option.isSome_iff_exists.mpr ⟨_, Mem.view_eq_some.mp shown⟩

theorem withLastAllocated (h : Linked m xs) (l : Option Addr) :
    Linked { m with lastAllocated := l } xs :=
  ⟨h.chain, h.distinct, h.head, h.last, h.live⟩

theorem setData (h : Linked m (pre ++ x :: post)) (f : MemoryList → MemoryList) {e : Extent}
    (keeps : f (cell (final none pre) (first none post) x.2) =
      cell (final none pre) (first none post) e) :
    ∃ m', m.store x.1 f = some m' ∧ Linked m' (pre ++ (x.1, e) :: post) ∧
      m'.globals = m.globals := by
  obtain ⟨notPre, notPost, -⟩ := distinct_around h.distinct
  have parts := chain_append.mp h.chain
  refine ⟨_, Mem.store_eq h.node_at f, ⟨chain_append.mpr ⟨?_, ?_⟩, ?_, ?_, ?_, ?_⟩, rfl⟩
  · exact parts.1.frame fun y hy => Mem.view_of_node (by simp [notPre y hy])
  · refine parts.2.relinkFirst ?_ fun y hy => Mem.view_of_node (by simp [notPost y hy])
    rw [Mem.view_put_self, keeps]
    exact congrArg some (toNode_eq_iff.mpr rfl)
  · simpa using h.distinct
  · simpa [first_append] using h.head
  · simpa [final_append] using h.last
  · intro a alive
    by_cases same : a = x.1
    · simp [same]
    · simpa using h.live a (by simpa [same] using alive)

end Linked

/-- `m'` differs from `m` only at the nodes of `xs`, and has the same live nodes. -/
structure Touches (xs : List Cell) (m m' : Mem) : Prop where
  globals : m'.globals = m.globals
  frame : ∀ b, (∀ y ∈ xs, y.1 ≠ b) → m'.node b = m.node b
  live : ∀ b, (m'.node b).isSome ↔ (m.node b).isSome

theorem setNextOf_final {m : Mem} {xs : List Cell} {n : Option Addr} (n' : Option Addr)
    (chain : Chain m.view none xs n) (distinct : (xs.map Prod.fst).Nodup)
    (head : m.head = first n xs) :
    ∃ m', setNextOf m (final none xs) n' = some m' ∧ Chain m'.view none xs n' ∧
      m'.head = first n' xs ∧ m'.last = m.last ∧ Touches xs m m' := by
  induction xs using List.reverseRecOn with
  | nil => exact ⟨_, rfl, trivial, rfl, rfl, rfl, fun _ _ => rfl, fun _ => Iff.rfl⟩
  | append_singleton xs x _ =>
    have others : ∀ y ∈ xs, y.1 ≠ x.1 := (distinct_around distinct).1
    have here := Mem.view_eq_some.mp (chain_snoc.mp chain).2
    have run := Mem.store_eq here fun c => { c with next := n' }
    rw [final_snoc]
    refine ⟨_, run, ?_, ?_, rfl, rfl, ?_, ?_⟩
    · refine chain.relinkLast ?_ fun y hy => Mem.view_of_node (by simp [others y hy])
      rw [Mem.view_put_self]
      exact congrArg some (toNode_eq_iff.mpr rfl)
    · simpa [first_append] using head
    · intro b away
      simp [(away x (by simp)).symm]
    · intro b
      by_cases same : b = x.1 <;> simp [same, here]

theorem setPrevOf_first {m : Mem} {xs : List Cell} {p : Option Addr} (p' : Option Addr)
    (chain : Chain m.view p xs none) (distinct : (xs.map Prod.fst).Nodup)
    (last : m.last = final p xs) :
    ∃ m', setPrevOf m (first none xs) p' = some m' ∧ Chain m'.view p' xs none ∧
      m'.last = final p' xs ∧ m'.head = m.head ∧ Touches xs m m' := by
  cases xs with
  | nil => exact ⟨_, rfl, trivial, rfl, rfl, rfl, fun _ _ => rfl, fun _ => Iff.rfl⟩
  | cons x xs =>
    have others : ∀ y ∈ xs, y.1 ≠ x.1 :=
      (distinct_around (List.nil_append (x :: xs) ▸ distinct)).2.1
    have here := Mem.view_eq_some.mp chain.1
    have run := Mem.store_eq here fun c => { c with prev := p' }
    refine ⟨_, run, ?_, last, rfl, rfl, ?_, ?_⟩
    · refine chain.relinkFirst ?_ fun y hy => Mem.view_of_node (by simp [others y hy])
      rw [Mem.view_put_self]
      exact congrArg some (toNode_eq_iff.mpr rfl)
    · intro b away
      simp [(away x (by simp)).symm]
    · intro b
      by_cases same : b = x.1 <;> simp [same, here]

namespace Linked

variable {m m' : Mem} {xs pre post : List Cell} {x : Cell}

theorem remove (h : Linked m (pre ++ x :: post)) :
    ∃ m', removeFromList m x.1 = some m' ∧ Linked m' (pre ++ post) ∧ m'.globals = m.globals := by
  obtain ⟨notPre, notPost, apart⟩ := distinct_around h.distinct
  have parts := chain_append.mp h.chain
  have names := h.distinct
  simp only [List.map_append, List.map_cons, List.nodup_append, List.nodup_cons] at names
  obtain ⟨namesPre, ⟨-, namesPost⟩, -⟩ := names
  obtain ⟨m₁, run₁, chain₁, head₁, last₁, touch₁⟩ :=
    setNextOf_final (first none post) parts.1 namesPre (h.head.trans (first_append ..))
  have back : Chain m₁.view (some x.1) post none :=
    parts.2.2.frame fun y hy => Mem.view_of_node (touch₁.frame _ fun z hz => apart z hz y hy)
  obtain ⟨m₂, run₂, chain₂, last₂, head₂, touch₂⟩ :=
    setPrevOf_first (final none pre) back namesPost
      (by rw [last₁, h.last, final_append, final_cons])
  have here : m₂.node x.1 = some (cell (final none pre) (first none post) x.2) := by
    rw [touch₂.frame _ notPost, touch₁.frame _ notPre, h.node_at]
  refine ⟨m₂.drop x.1, ?_, ⟨chain_append.mpr ⟨?_, ?_⟩, ?_, ?_, ?_, ?_⟩, ?_⟩
  · simp only [removeFromList, h.node_at, Option.bind_eq_bind, Option.bind_some, cell, run₁, run₂]
    exact Mem.free_eq here
  · refine chain₁.frame fun y hy => Mem.view_of_node ?_
    rw [Mem.node_drop, if_neg (notPre y hy), touch₂.frame _ fun z hz => (apart y hy z hz).symm]
  · exact chain₂.frame fun y hy => Mem.view_of_node (by rw [Mem.node_drop, if_neg (notPost y hy)])
  · rw [List.map_append, List.nodup_append]
    refine ⟨namesPre, namesPost, fun a ha b hb => ?_⟩
    obtain ⟨y, hy, rfl⟩ := List.mem_map.mp ha
    obtain ⟨z, hz, rfl⟩ := List.mem_map.mp hb
    exact apart y hy z hz
  · rw [Mem.head_drop, head₂, head₁, first_append]
  · rw [Mem.last_drop, last₂, final_append]
  · intro a alive
    have other : a ≠ x.1 := by
      rintro rfl
      simp at alive
    rw [Mem.node_drop, if_neg other, touch₂.live, touch₁.live] at alive
    simpa [other] using h.live a alive
  · exact touch₂.globals.trans touch₁.globals

theorem insertAfter (h : Linked m (pre ++ x :: post)) {a : Addr} (stale : MemoryList)
    (fresh : m.node a = none) :
    ∃ m', insertIntoList m (some (a, stale)) (some x.1) = some (some a, m') ∧
      Linked m' (pre ++ x :: (a, extentOf stale) :: post) ∧ m'.globals = m.globals := by
  have unlisted : ∀ y ∈ pre ++ x :: post, y.1 ≠ a := by
    rintro y hy rfl
    obtain ⟨_, _, shown⟩ := h.chain.mem hy
    simp [Mem.view, fresh] at shown
  have split : pre ++ x :: post = (pre ++ [x]) ++ post := by simp
  rw [split] at unlisted
  have parts := chain_append.mp (split ▸ h.chain)
  have names := h.distinct
  rw [split, List.map_append, List.nodup_append] at names
  obtain ⟨namesPre, namesPost, apart⟩ := names
  have apart' : ∀ y ∈ pre ++ [x], ∀ z ∈ post, y.1 ≠ z.1 := fun y hy z hz =>
    apart _ (List.mem_map_of_mem hy) _ (List.mem_map_of_mem hz)
  obtain ⟨m₁, run₁, chain₁, head₁, last₁, touch₁⟩ :=
    setNextOf_final (some a) parts.1 namesPre (by rw [h.head, split, first_append])
  rw [final_snoc] at run₁
  let m₂ := m₁.put a { stale with prev := some x.1, next := first none post }
  have back : Chain m₂.view (some x.1) post none := by
    rw [final_snoc] at parts
    refine parts.2.frame fun y hy => Mem.view_of_node ?_
    rw [Mem.node_put, if_neg (unlisted y (by simp [hy])), touch₁.frame _ fun z hz =>
      apart' z hz y hy]
  obtain ⟨m₃, run₃, chain₃, last₃, head₃, touch₃⟩ :=
    setPrevOf_first (some a) back namesPost (by
      rw [Mem.last_put, last₁, h.last, split, final_append, final_snoc])
  refine ⟨m₃, ?_, ⟨?_, ?_, ?_, ?_, ?_⟩, touch₃.globals.trans touch₁.globals⟩
  · simp only [insertIntoList, followerOf, h.node_at, Option.map_some, cell, Option.bind_eq_bind,
      Option.bind_some, run₁]
    exact congrArg (fun r => r.bind fun m => some (some a, m)) run₃
  · rw [show pre ++ x :: (a, extentOf stale) :: post =
        (pre ++ [x]) ++ (a, extentOf stale) :: post by
      simp, chain_append]
    have away : ∀ y ∈ pre ++ [x], m₃.view y.1 = m₁.view y.1 := fun y hy => Mem.view_of_node (by
      rw [touch₃.frame _ fun z hz => (apart' y hy z hz).symm, Mem.node_put,
        if_neg (unlisted y (by simp only [List.mem_append] at hy ⊢; exact .inl hy))])
    refine ⟨chain₁.frame away, ?_, chain₃⟩
    rw [final_snoc, Mem.view_of_node (touch₃.frame a fun z hz => unlisted z (by simp [hz])),
      Mem.view_put_self]
    rfl
  · rw [show pre ++ x :: (a, extentOf stale) :: post =
        (pre ++ [x]) ++ (a, extentOf stale) :: post by
      simp, List.map_append, List.map_cons, List.nodup_append, List.nodup_cons]
    refine ⟨namesPre, ⟨?_, namesPost⟩, ?_⟩
    · intro there
      obtain ⟨z, hz, same⟩ := List.mem_map.mp there
      exact unlisted z (by simp [hz]) same
    · intro b hb c hc
      rcases List.mem_cons.mp hc with rfl | hc
      · obtain ⟨y, hy, rfl⟩ := List.mem_map.mp hb
        exact unlisted y (List.mem_append_left _ hy)
      · exact apart b hb c hc
  · rw [head₃, Mem.head_put, head₁]
    simp [first_append]
  · rw [last₃]
    simp [final_append]
  · intro b alive
    rw [touch₃.live, Mem.node_put] at alive
    by_cases same : b = a
    · simp [same]
    · rw [if_neg same, touch₁.live] at alive
      have before := h.live b alive
      simp only [List.map_append, List.map_cons, List.mem_append, List.mem_cons] at before ⊢
      tauto

end Linked

end LastPicked.Allocator
