import LastPicked.AllocatorBytes
import LastPicked.AllocatorFits

/-! Fragmentation and memory safety. A request that is small enough for the number of
live allocations is served whatever the history was, and no call ever uses a bookkeeping
node that was given back or loses one. -/

namespace LastPicked.Allocator
open CIntegers LabelledRuns LinkedChain GapTiling

variable {m : Mem} {xs : List Cell} {base sz r : Nat} {strategy : Strategies} {calls : List Call}
  {fresh : Addr × MemoryList}

def freeBytes (sz : Nat) (calls : List Call) : Nat := sz - ((liveOf calls).map Prod.snd).sum

theorem usedOf_length (xs : List Cell) :
    (usedOf xs).length = ((xs.map Prod.snd).filter Extent.used).length := by
  rw [usedOf, List.length_map]

theorem Pool.gaps_sum (h : Pool m base sz xs) :
    ((gaps (xs.map Prod.snd)).map Prod.snd).sum = sz - ((usedOf xs).map Prod.snd).sum := by
  have whole := h.tiles.hi_eq
  have parts := cover_eq (xs.map Prod.snd)
  have used : ((usedOf xs).map Prod.snd) =
      ((xs.map Prod.snd).filter Extent.used).map Extent.len := by
    rw [usedOf, List.map_map]
    rfl
  rw [used]
  omega

/-- A pool with `k` live allocations has at most `k + 1` holes, so that one of them has more than
the average. -/
theorem Pool.exists_admitted (h : Pool m base sz xs)
    (enough : ((usedOf xs).length + 1) * (r - 1) < sz - ((usedOf xs).map Prod.snd).sum) :
    ∃ x ∈ xs, Admits r x.2 := by
  rw [← h.gaps_sum, usedOf_length] at enough
  obtain ⟨e, he, free, large⟩ := h.separated.exists_gap enough
  obtain ⟨x, hx, rfl⟩ := List.mem_map.mp he
  exact ⟨x, hx, free, large⟩

/-- Only a fragmented pool refuses a request, and `k` live allocations cannot fragment it
into more than `k + 1` holes. -/
theorem session_obtains (h : Session strategy sz calls m) (scans : Scans strategy)
    (small : sz ≤ sizeLimit strategy) (obtains : Obtains m (some fresh))
    (enough : ((liveOf calls).length + 1) * (r - 1) < freeBytes sz calls) :
    ∃ p m', mymalloc m r (some fresh) = some (some p, m') := by
  obtain ⟨base, xs, pool, perm⟩ := h.pool
  obtain rfl := h.strategy
  rw [freeBytes, ← perm.length_eq, ← (perm.map Prod.snd).sum_eq] at enough
  obtain ⟨x, hx, admits⟩ := pool.exists_admitted enough
  obtain ⟨o, found, nothing, chosen⟩ := pool.search_preferred scans small r
  cases o with
  | none => exact absurd admits (nothing rfl x hx)
  | some y =>
    obtain ⟨pre, post, rfl⟩ := List.append_of_mem (chosen y rfl).1
    obtain ⟨z, -, -, -, -, -, m', -, -, call, -⟩ := pool.linked.takes (obtains fresh rfl).1 found
    exact ⟨_, m', call⟩

theorem session_obtains_fourTaken :
    ∃ p m', mymalloc fourTaken 3 (some (3, blank)) = some (some p, m') := by
  refine session_obtains session_fourTaken (.inl rfl) (by decide) ?_ (by decide)
  intro c hc
  obtain rfl : _ = c := Option.some.inj hc
  exact ⟨rfl, by simp [fourTaken]⟩

theorem Linked.live_iff (h : Linked m xs) {a : Addr} : (m.node a).isSome ↔ a ∈ xs.map Prod.fst := by
  refine ⟨h.live a, fun listed => ?_⟩
  obtain ⟨x, hx, rfl⟩ := List.mem_map.mp listed
  obtain ⟨pre, post, rfl⟩ := List.append_of_mem hx
  rw [h.node_at]
  rfl

theorem Linked.freed (h : Linked m xs) (block : Addr) : ∃ m', myfree m block = some m' := by
  rw [myfree_chain h]
  cases found : xs.find? fun x => x.2.start = block with
  | none => exact ⟨m, rfl⟩
  | some x =>
    obtain ⟨pre, post, rfl⟩ := List.append_of_mem (List.mem_of_find?_eq_some found)
    obtain ⟨m', -, run, -⟩ := release_chain h
    cases used : x.2.used with
    | false => exact ⟨m, by simp [used]⟩
    | true => exact ⟨m', by simpa [used] using run⟩

theorem Linked.obtained (h : Linked m xs) (scans : Scans m.myStrategy) {new : NewNode}
    (unused : Unused m new) :
    ∃ result, mymalloc m r new = some result := by
  have other : m.myStrategy ≠ .notSet ∧ m.myStrategy ≠ .next := by
    rcases scans with set | set | set <;> simp [set]
  obtain ⟨o, found⟩ := search_total h r other.1 other.2
  rw [mymalloc, found, Option.bind_eq_bind, Option.bind_some]
  cases o with
  | none => exact ⟨_, rfl⟩
  | some a =>
    obtain ⟨x, hx, rfl, -⟩ := search_fits h found
    obtain ⟨pre, post, rfl⟩ := List.append_of_mem hx
    rcases useBlock_chain h r unused with ⟨-, failed⟩ | ⟨m', -, done, -⟩
    · exact ⟨_, failed⟩
    · exact ⟨_, done⟩

theorem Linked.restarts (h : Linked m xs) (set : Strategies) (n base a : Nat) (stale : MemoryList) :
    ∃ m', Allocator.initmem m set n (some base) (some (a, stale)) = some m' ∧
      ∀ b, (m'.node b).isSome ↔ b = a := by
  have named : Linked { m with myStrategy := set, mySize := n } xs :=
    ⟨h.chain, h.distinct, h.head, h.last, h.live⟩
  obtain ⟨m₁, run₁, linked₁, -⟩ := named.clear
  have placed : Linked { m₁ with myMemory := some base } [] :=
    ⟨linked₁.chain, linked₁.distinct, linked₁.head, linked₁.last, linked₁.live⟩
  obtain ⟨m₂, run₂, linked₂, -⟩ := placed.insertFirst a stale
  have alone : Linked m₂ ([] ++ (a, extentOf stale) :: []) := linked₂
  obtain ⟨m₃, run₃, linked₃, -⟩ := alone.setData
    (fun c => { c with ptr := base, size := n, alloc := .memFree }) (e := ⟨base, n, false⟩) rfl
  refine ⟨{ m₃ with lastAllocated := some base }, ?_, fun b => ?_⟩
  · simp only [Allocator.initmem, run₁, run₂, Option.bind_eq_bind, Option.bind_some]
    rw [run₃]
    rfl
  · exact linked₃.live_iff.trans (by simp)

theorem Linked.givesUp (h : Linked m xs) (set : Strategies) (n : Nat) (new : NewNode) :
    ∃ m', Allocator.initmem m set n none new = some m' ∧ m'.head = none ∧ ∀ b,
      m'.node b = none := by
  have named : Linked { m with myStrategy := set, mySize := n } xs :=
    ⟨h.chain, h.distinct, h.head, h.last, h.live⟩
  obtain ⟨m₁, run₁, linked₁, -⟩ := named.clear
  refine ⟨{ m₁ with myMemory := none }, ?_, linked₁.head, fun b => ?_⟩
  · simp [Allocator.initmem, run₁]
  · by_contra alive
    simpa using linked₁.live b (Option.isSome_iff_ne_none.mpr alive)

/-- The bookkeeping of `m` is sound: the live nodes are those of the list, which names each of them
once, and no call follows a pointer to a node that is not live. -/
structure Safe (m : Mem) : Prop where
  owns : ∃ nodes, m.blockList = some nodes ∧ (nodes.map Prod.fst).Nodup ∧
    ∀ a, (m.node a).isSome ↔ a ∈ nodes.map Prod.fst
  frees : ∀ block, ∃ m', myfree m block = some m'
  obtains : Scans m.myStrategy → ∀ r new, Unused m new → ∃ result, mymalloc m r new = some result
  restarts : ∀ set n base a stale, ∃ m', initmem m set n (some base) (some (a, stale)) = some m' ∧
    ∀ b, (m'.node b).isSome ↔ b = a
  givesUp : ∀ set n new, ∃ m', initmem m set n none new = some m' ∧ m'.head = none ∧
    ∀ b, m'.node b = none
  asks : ∀ ptr, ∃ answer, memIsAlloc m ptr = some answer

/-- Whatever calls led to `m`, no node was lost and none is freed twice. -/
theorem reached_safe (h : Reached m) : Safe m := by
  obtain ⟨xs, linked⟩ := h.linked
  refine ⟨⟨_, linked.blockList_eq, ?_, fun a => ?_⟩, linked.freed, fun scans r new unused => ?_,
    linked.restarts, linked.givesUp, fun ptr => ?_⟩
  · rw [nodesOf_names]
    exact linked.distinct
  · rw [nodesOf_names]
    exact linked.live_iff
  · exact linked.obtained scans unused
  · rw [memIsAlloc_chain linked]
    cases xs.find? fun x => x.2.start = ptr <;> exact ⟨_, rfl⟩

/-- Behind the four bytes of ten three more are taken and given back, which splits
the block there and merges it again. -/
theorem reached_safe_merged :
    ∃ m₁ m₂, mymalloc fourTaken 3 (some (3, blank)) = some (some 104, m₁) ∧
    myfree m₁ 104 = some m₂ ∧ (m₁.node 3).isSome ∧ m₂.node 3 = none ∧ Safe m₂ := by
  obtain ⟨m₁, m₂, taken, freed, split, merged⟩ : ∃ m₁ m₂,
      mymalloc fourTaken 3 (some (3, blank)) = some (some 104, m₁) ∧ myfree m₁ 104 = some m₂ ∧
      (m₁.node 3).isSome ∧ m₂.node 3 = none := ⟨_, _, rfl, rfl, rfl, rfl⟩
  have obtains : Obtains fourTaken (some (3, blank)) := by
    intro c hc
    obtain rfl : _ = c := Option.some.inj hc
    exact ⟨rfl, by simp [fourTaken]⟩
  have session := (session_fourTaken.mymalloc (by decide) obtains taken).snoc (.myfree freed)
  exact ⟨m₁, m₂, taken, freed, split, merged, reached_safe session.reached⟩

end LastPicked.Allocator
