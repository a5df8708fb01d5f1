import LastPicked.AllocatorBlockList

/-! The allocator as its clients see it: a finite map from the addresses
handed out to the sizes asked for. -/

namespace LastPicked.Allocator
open CIntegers LabelledRuns LinkedChain GapTiling

variable {m m' : Mem} {xs : List Cell} {base sz : Nat}

def usedNodes (nodes : List (Addr × MemoryList)) : List (Addr × Nat) :=
  (nodes.filter fun x => x.2.alloc = .memUsed).map fun x => (x.2.ptr, x.2.size)

theorem usedNodes_nodesOf (p : Option Addr) (xs : List Cell) :
    usedNodes (nodesOf p xs) = usedOf xs := by
  induction xs generalizing p with
  | nil => rfl
  | cons x xs ih =>
    rw [usedOf_cons, ← ih (some x.1), usedNodes, nodesOf, List.filter_cons]
    cases h : x.2.used <;> simp [h, usedNodes]

theorem addSize_exact {count size : Nat} (small : ((count + size : Nat) : Int) ≤ intMax) :
    addSize count size = (count + size : Nat) := by
  have bound : intMax < 2 ^ 64 := by decide
  have count' : (toSize count : Int) = count := toSize_of_nonneg (by omega) (by omega)
  have kept : toSize count = count := by omega
  rw [addSize, kept, Nat.mod_eq_of_lt (by omega)]
  exact toInt_of_range (by unfold intMin; omega) small

theorem addSize_foldl (alloc : Alloc) (nodes : List (Addr × MemoryList)) (count : Nat)
    (small :
      ((count + ((nodes.filter fun x => x.2.alloc = alloc).map fun x => x.2.size).sum : Nat) :
        Int) ≤ intMax) :
    nodes.foldl (fun count n => if n.2.alloc = alloc then addSize count n.2.size else count)
        (count : Int) =
      (count + ((nodes.filter fun x => x.2.alloc = alloc).map fun x => x.2.size).sum : Nat) := by
  induction nodes generalizing count with
  | nil => simp
  | cons x nodes ih =>
    by_cases counted : x.2.alloc = alloc
    · simp only [counted, decide_true, List.filter_cons_of_pos, List.map_cons, List.sum_cons,
        ← Nat.add_assoc] at small ⊢
      rw [← ih (count + x.2.size) small, List.foldl_cons, if_pos counted, addSize_exact (by omega)]
    · rw [List.filter_cons_of_neg (by simpa using counted)] at small ⊢
      rw [← ih count small, List.foldl_cons, if_neg counted]

theorem Pool.used_sum_le (h : Pool m base sz xs) : ((usedOf xs).map Prod.snd).sum ≤ sz := by
  have whole := h.tiles.hi_eq
  have part : ((usedOf xs).map Prod.snd).Sublist ((xs.map Prod.snd).map Extent.len) := by
    rw [usedOf, List.map_map]
    exact List.filter_sublist.map _
  have le := part.sum_le_sum fun _ _ => Nat.zero_le _
  unfold cover at whole
  omega

theorem Pool.memAllocated (h : Pool m base sz xs) (small : (sz : Int) ≤ intMax) :
    memAllocated m = some (((usedOf xs).map Prod.snd).sum : Nat) := by
  have le := h.used_sum_le
  have sizes : ((nodesOf none xs).filter fun x => x.2.alloc = .memUsed).map (fun x => x.2.size) =
      (usedOf xs).map Prod.snd := by
    rw [← usedNodes_nodesOf none, usedNodes, List.map_map]
    rfl
  rw [Allocator.memAllocated, h.linked.head,
    overList_chain _ h.linked.chain h.linked.length_le_fuel]
  have sum := addSize_foldl .memUsed (nodesOf none xs) 0 (by rw [sizes]; omega)
  simp only [sizes, Nat.zero_add, Int.natCast_zero] at sum
  exact congrArg some sum

theorem Pool.mymalloc_none (h : Pool m base sz xs) {r : Nat} (s : Step m (.mymalloc r none) m') :
    m' = m := by
  cases s with
  | mymalloc pos sel obtains run =>
    rcases h.useBlock pos sel obtains run with ⟨-, same⟩ | ⟨p, ys, found, -⟩
    · exact same
    · contradiction

/-- The pool of `m`, of `sz` bytes, stands for the map `live` from the
addresses handed out to the sizes of the allocations there. -/
structure StandsFor (m : Mem) (sz : Nat) (live : List (Addr × Nat)) : Prop where
  disjoint : live.Pairwise fun a b => a.1 + a.2 ≤ b.1 ∨ b.1 + b.2 ≤ a.1
  inside : ∃ base, m.myMemory = some base ∧ ∀ a ∈ live, base ≤ a.1 ∧ a.1 + a.2 ≤ base + sz
  used : ∃ nodes, m.blockList = some nodes ∧ (usedNodes nodes).Perm live
  allocated : memAllocated m = some ((live.map Prod.snd).sum : Nat)
  freesLive : ∀ a ∈ live, ∃ m' nodes, myfree m a.1 = some m' ∧ m'.blockList = some nodes ∧
    (usedNodes nodes).Perm (live.erase a)
  freesDead : ∀ p, (∀ r, (p, r) ∉ live) → myfree m p = some m
  noBlock : ∀ r m', Step m (.mymalloc r none) m' → m' = m

theorem Pool.used_starts (h : Pool m base sz xs) : ((usedOf xs).map Prod.fst).Nodup := by
  rw [List.Nodup, List.pairwise_map]
  refine h.used_ordered.imp_of_mem fun {a b} ha _ (apart : a.1 + a.2 ≤ b.1) same => ?_
  have pos := (h.used_bounds ha).2.1
  rw [same] at apart
  exact absurd apart (Nat.lt_add_of_pos_right pos).not_ge

theorem filter_start_eq_erase {live : List (Addr × Nat)} (distinct : (live.map Prod.fst).Nodup)
    {a : Addr × Nat} (ha : a ∈ live) : live.filter (fun b => b.1 ≠ a.1) = live.erase a := by
  rw [distinct.of_map.erase_eq_filter]
  refine List.filter_congr fun b hb => ?_
  have same : b.1 = a.1 ↔ b = a := ⟨List.inj_on_of_nodup_map distinct hb ha, congrArg _⟩
  simp only [ne_eq, same]
  by_cases h : b = a <;> simp [h]

theorem Pool.standsFor (h : Pool m base sz xs) (small : (sz : Int) ≤ intMax)
    {live : List (Addr × Nat)} (perm : (usedOf xs).Perm live) : StandsFor m sz live where
  disjoint := (perm.pairwise_iff fun hab => hab.symm).mp (h.used_ordered.imp .inl)
  inside := ⟨base, h.memory, fun a ha =>
    have bounds := h.used_bounds (perm.mem_iff.mpr ha)
    ⟨bounds.1, bounds.2.2⟩⟩
  used := ⟨_, h.linked.blockList_eq, by rwa [usedNodes_nodesOf]⟩
  allocated := by rw [h.memAllocated small, (perm.map Prod.snd).sum_eq]
  freesLive := by
    intro a ha
    obtain ⟨m', ys, run, pool, busy⟩ := h.myfree a.1
    refine ⟨m', _, run, pool.linked.blockList_eq, ?_⟩
    rw [usedNodes_nodesOf, busy, filter_start_eq_erase h.used_starts (perm.mem_iff.mpr ha)]
    exact perm.erase a
  freesDead := fun p dead => h.myfree_unused fun r hr => dead r (perm.mem_iff.mp hr)
  noBlock := fun _ _ s => h.mymalloc_none s

/-- After any calls the pool stands for the live allocations that the calls record. -/
theorem session_standsFor {strategy : Strategies} {calls : List Call}
    (h : Session strategy sz calls m) (small : (sz : Int) ≤ intMax) :
    StandsFor m sz (liveOf calls) := by
  obtain ⟨base, xs, pool, perm⟩ := h.pool
  exact pool.standsFor small perm

theorem session_standsFor_fourTaken : StandsFor fourTaken 10 [(100, 4)] :=
  session_standsFor session_fourTaken (by decide)

end LastPicked.Allocator
