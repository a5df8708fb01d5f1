import LastPicked.AllocatorLive
import LastPicked.GapRuns

/-! The statistics of mymem.c. Each of them walks the block list, and each
says something about the bytes of the pool that no live allocation covers. -/

namespace LastPicked.Allocator
open CIntegers LabelledRuns LinkedChain GapTiling

variable {m m' : Mem} {xs : List Cell} {base sz : Nat} {live : List (Addr × Nat)}

def Vacant (base sz : Nat) (live : List (Addr × Nat)) (i : Nat) : Prop :=
  base ≤ i ∧ i < base + sz ∧ ∀ a ∈ live, ¬(a.1 ≤ i ∧ i < a.1 + a.2)

def holesOf (base sz : Nat) (live : List (Addr × Nat)) : Set (Nat × Nat) :=
  {x | MaximalRun (Vacant base sz live) x.1 x.2}

theorem Pool.uncovered_iff (perm : (usedOf xs).Perm live) {i : Nat} :
    Vacant base sz live i ↔ Uncovered base (base + sz) (xs.map Prod.snd) i := by
  have covered : (∀ a ∈ live, ¬(a.1 ≤ i ∧ i < a.1 + a.2)) ↔
      ∀ e ∈ xs.map Prod.snd, e.used = true → ¬(e.start ≤ i ∧ i < e.finish) := by
    constructor
    · intro away e he used
      exact away (e.start, e.len) (perm.mem_iff.mp (List.mem_map.mpr ⟨e, by simp [he, used], rfl⟩))
    · intro away a ha
      obtain ⟨e, he, rfl⟩ := List.mem_map.mp (perm.mem_iff.mpr ha)
      exact away e (List.mem_filter.mp he).1 (List.mem_filter.mp he).2
  rw [Vacant, Uncovered, covered]

theorem Pool.mem_holesOf (h : Pool m base sz xs) (perm : (usedOf xs).Perm live) {x : Nat × Nat} :
    x ∈ holesOf base sz live ↔ x ∈ gaps (xs.map Prod.snd) := by
  obtain ⟨a, n⟩ := x
  change MaximalRun _ a n ↔ _
  rw [MaximalRun.congr fun _ => Pool.uncovered_iff perm,
    h.tiles.maximalRun_iff h.separated, mem_gaps]

theorem Pool.encard_holesOf (h : Pool m base sz xs) (perm : (usedOf xs).Perm live)
    (p : Nat → Bool) :
    {x ∈ holesOf base sz live | p x.2}.encard =
      ((gaps (xs.map Prod.snd)).countP fun x => p x.2 : Nat) := by
  rw [← h.tiles.encard_maximalRuns h.separated p]
  congr 1
  ext x
  simp only [Set.mem_ofPred_eq, holesOf, MaximalRun.congr fun _ => Pool.uncovered_iff perm]

theorem countNodes_foldl (counts : MemoryList → Bool) (nodes : List (Addr × MemoryList))
    (count : Nat) (small : ((count + nodes.countP fun x => counts x.2 : Nat) : Int) ≤ intMax) :
    nodes.foldl (fun count n => if counts n.2 then count.bind fun c => addInt c 1 else count)
        (some (count : Int)) =
      some ((count + nodes.countP fun x => counts x.2 : Nat) : Int) := by
  induction nodes generalizing count with
  | nil => rfl
  | cons x nodes ih =>
    by_cases counted : counts x.2 = true
    · rw [List.countP_cons_of_pos (by exact counted), ← Nat.add_assoc,
        Nat.add_right_comm] at small ⊢
      have next : addInt count 1 = some ((count + 1 : Nat) : Int) :=
        addInt_eq_some.mpr ⟨by simp, by unfold intMin; omega, by omega⟩
      rw [← ih (count + 1) small, List.foldl_cons, if_pos counted, Option.bind_some, next]
    · rw [List.countP_cons_of_neg (by exact counted)] at small ⊢
      rw [← ih count small, List.foldl_cons, if_neg counted]

theorem Pool.countNodes (h : Pool m base sz xs) (small : (sz : Int) ≤ intMax)
    {counts : MemoryList → Bool} {p : Nat → Bool}
    (picks : ∀ n, counts n = (!(extentOf n).used && p n.size)) :
    countNodes m counts = some (((gaps (xs.map Prod.snd)).countP fun x => p x.2 : Nat) : Int) := by
  have counted : (nodesOf none xs).countP (fun x => counts x.2) =
      (gaps (xs.map Prod.snd)).countP fun x => p x.2 := by
    rw [← nodesOf_extents none xs, gaps, List.countP_map, List.countP_filter, List.countP_map]
    refine List.countP_congr fun x _ => ?_
    simp [picks, extentOf, and_comm]
  have few : (gaps (xs.map Prod.snd)).countP (fun x => p x.2) ≤ sz := by
    have whole := h.tiles.hi_eq
    calc
      _ ≤ (gaps (xs.map Prod.snd)).length := List.countP_le_length
      _ ≤ cover (xs.map Prod.snd) := h.tiles.gaps_length_le
      _ = sz := by omega
  rw [Allocator.countNodes, h.linked.head,
    overList_chain _ h.linked.chain h.linked.length_le_fuel, Option.join_some,
    ← Int.natCast_zero, countNodes_foldl counts _ 0 (by rw [counted]; omega), counted, Nat.zero_add]

theorem Pool.memFree (h : Pool m base sz xs) (small : (sz : Int) ≤ intMax) :
    memFree m = some (((gaps (xs.map Prod.snd)).map Prod.snd).sum : Nat) := by
  have sizes : ((nodesOf none xs).filter fun x => x.2.alloc = .memFree).map (fun x => x.2.size) =
      (gaps (xs.map Prod.snd)).map Prod.snd := by
    rw [← nodesOf_extents none xs, gaps, List.map_map, List.filter_map, List.map_map]
    congr 1
    refine List.filter_congr fun x _ => ?_
    cases alloc : x.2.alloc <;> simp [extentOf, alloc]
  have whole := h.tiles.hi_eq
  have parts := cover_eq (xs.map Prod.snd)
  rw [Allocator.memFree, h.linked.head, overList_chain _ h.linked.chain h.linked.length_le_fuel]
  have sum := addSize_foldl .memFree (nodesOf none xs) 0 (by rw [sizes]; omega)
  simp only [sizes, Nat.zero_add, Int.natCast_zero] at sum
  exact congrArg some sum

theorem largest_step {most : Nat} {n : MemoryList} (start : (most : Int) ≤ intMax)
    (small : (n.size : Int) ≤ intMax) :
    (if n.alloc = .memFree && toSize most < n.size then toInt n.size else (most : Int)) =
      (if n.alloc = .memFree then max most n.size else most : Nat) := by
  have bound : intMax < 2 ^ 64 := by decide
  have held : (toSize most : Int) = most := toSize_of_nonneg (by omega) (by omega)
  have size : toInt n.size = (n.size : Int) :=
    toInt_of_range (le_trans (by decide) (Int.natCast_nonneg n.size)) small
  by_cases free : n.alloc = .memFree
  · by_cases larger : toSize most < n.size
    · simp only [free, larger, decide_true, Bool.and_self, if_true, size]
      exact congrArg _ (Nat.max_eq_right (by omega)).symm
    · simp only [free, larger, decide_true, decide_false, Bool.and_false, Bool.false_eq_true,
        if_false, if_true]
      exact congrArg _ (Nat.max_eq_left (by omega)).symm
  · simp [free]

theorem largest_foldl (nodes : List (Addr × MemoryList)) (most : Nat)
    (start : (most : Int) ≤ intMax) (small : ∀ x ∈ nodes, (x.2.size : Int) ≤ intMax) :
    ∃ l : Nat, nodes.foldl (fun most n =>
        if n.2.alloc = .memFree && toSize most < n.2.size then toInt n.2.size
          else most) (most : Int) = l ∧
      most ≤ l ∧ (∀ x ∈ nodes, x.2.alloc = .memFree → x.2.size ≤ l) ∧
      (l = most ∨ ∃ x ∈ nodes, x.2.alloc = .memFree ∧ x.2.size = l) := by
  induction nodes generalizing most with
  | nil => exact ⟨most, rfl, le_rfl, by simp, .inl rfl⟩
  | cons x nodes ih =>
    have here := small x List.mem_cons_self
    have later := fun y hy => small y (List.mem_cons_of_mem _ hy)
    rw [List.foldl_cons, largest_step start here]
    by_cases free : x.2.alloc = .memFree
    · simp only [free, if_true]
      obtain ⟨l, run, least, upper, attained⟩ := ih (max most x.2.size) (by omega) later
      have parts := Nat.max_le.mp least
      refine ⟨l, run, parts.1, ?_, ?_⟩
      · rintro y hy free'
        rcases List.mem_cons.mp hy with rfl | hy
        · exact parts.2
        · exact upper y hy free'
      · rcases attained with rfl | ⟨y, hy, there⟩
        · rcases Nat.le_total most x.2.size with le | le
          · exact .inr ⟨x, List.mem_cons_self, free, (Nat.max_eq_right le).symm⟩
          · exact .inl (Nat.max_eq_left le)
        · exact .inr ⟨y, List.mem_cons_of_mem _ hy, there⟩
    · simp only [free, if_false]
      obtain ⟨l, run, least, upper, attained⟩ := ih most start later
      refine ⟨l, run, least, fun y hy free' => ?_, ?_⟩
      · rcases List.mem_cons.mp hy with rfl | hy
        · exact absurd free' free
        · exact upper y hy free'
      · exact attained.imp_right fun ⟨y, hy, there⟩ => ⟨y, List.mem_cons_of_mem _ hy, there⟩

theorem Pool.size_le (h : Pool m base sz xs) {x : Addr × MemoryList} (hx : x ∈ nodesOf none xs) :
    x.2.size ≤ sz := by
  have there : extentOf x.2 ∈ xs.map Prod.snd :=
    nodesOf_extents none xs ▸ List.mem_map_of_mem (f := fun x => extentOf x.2) hx
  have bounds := h.tiles.bounds there
  have len : (extentOf x.2).len = x.2.size := rfl
  unfold Extent.finish at bounds
  omega

theorem Pool.memLargestFree (h : Pool m base sz xs) (small : (sz : Int) ≤ intMax) :
    ∃ l : Nat, memLargestFree m = some (l : Int) ∧
      IsGreatest (insert 0 {n | ∃ x ∈ nodesOf none xs, x.2.alloc = .memFree ∧ x.2.size = n}) l := by
  obtain ⟨l, run, -, upper, attained⟩ :=
      largest_foldl (nodesOf none xs) 0 (by decide) fun x hx => by
    have le := h.size_le hx
    omega
  refine ⟨l, ?_, ?_, ?_⟩
  · rw [Allocator.memLargestFree, h.linked.head,
      overList_chain _ h.linked.chain h.linked.length_le_fuel, ← run]
    rfl
  · exact attained
  · rintro n (rfl | ⟨x, hx, free, rfl⟩)
    · exact Nat.zero_le l
    · exact upper x hx free

theorem mem_gaps_nodesOf {p : Option Addr} {n : Nat} :
    (∃ x ∈ nodesOf p xs, x.2.alloc = .memFree ∧ x.2.size = n) ↔ ∃ a, (a, n) ∈ gaps
    (xs.map Prod.snd) := by
  simp only [mem_gaps, ← nodesOf_extents p xs, List.mem_map]
  constructor
  · rintro ⟨x, hx, free, rfl⟩
    exact ⟨x.2.ptr, x, hx, by simp [extentOf, free]⟩
  · rintro ⟨a, x, hx, same⟩
    simp only [extentOf, Extent.mk.injEq, decide_eq_false_iff_not] at same
    refine ⟨x, hx, ?_, same.2.1⟩
    cases alloc : x.2.alloc <;> simp_all

/-- The statistics of `m` are right about its live allocations and its holes. -/
structure StatisticsOf (m : Mem) (live : List (Addr × Nat)) (holes : Set (Nat × Nat)) : Prop where
  total : ∃ a f, memAllocated m = some a ∧ memFree m = some f ∧ addInt a f = some (memTotal m)
  count : ∃ n : Nat, memHoles m = some (n : Int) ∧ holes.encard = n ∧ n ≤ live.length + 1
  largest : ∃ l : Nat, memLargestFree m = some (l : Int) ∧
    IsGreatest (insert 0 (Prod.snd '' holes)) l
  small : ∀ k : Nat, (k : Int) ≤ intMax → ∃ n : Nat, memSmallFree m k = some (n : Int) ∧
    {x ∈ holes | x.2 ≤ k}.encard = n
  agree : (memLargestFree m).bind (memSmallFree m) = memHoles m

theorem Pool.memHoles (h : Pool m base sz xs) (small : (sz : Int) ≤ intMax) :
    memHoles m = some ((gaps (xs.map Prod.snd)).length : Int) := by
  have counted : Allocator.countNodes m (fun n => n.alloc = .memFree) =
      some (((gaps (xs.map Prod.snd)).countP fun _ => true : Nat) : Int) :=
    h.countNodes small (p := fun _ => true) fun n => by
      cases alloc : n.alloc <;> simp [extentOf, alloc]
  simpa [Allocator.memHoles] using counted

theorem Pool.memSmallFree (h : Pool m base sz xs) (small : (sz : Int) ≤ intMax) {k : Nat}
    (range : (k : Int) ≤ intMax) :
    memSmallFree m k = some (((gaps (xs.map Prod.snd)).countP fun x => x.2 ≤ k : Nat) : Int) := by
  have bound : intMax < 2 ^ 64 := by decide
  have held : toSize k = k := by
    have exact : (toSize k : Int) = k := toSize_of_nonneg (by omega) (by omega)
    omega
  rw [Allocator.memSmallFree, held]
  refine h.countNodes small (p := fun n => n ≤ k) fun n => ?_
  cases alloc : n.alloc <;> simp [extentOf, alloc]

theorem Pool.statisticsOf (h : Pool m base sz xs) (small : (sz : Int) ≤ intMax)
    (perm : (usedOf xs).Perm live) : StatisticsOf m live (holesOf base sz live) := by
  have sizes : Prod.snd '' holesOf base sz live =
      {n | ∃ x ∈ nodesOf none xs, x.2.alloc = .memFree ∧ x.2.size = n} := by
    ext n
    rw [Set.mem_ofPred_eq, mem_gaps_nodesOf, Set.mem_image]
    simp [h.mem_holesOf perm]
  obtain ⟨l, run, greatest⟩ := h.memLargestFree small
  refine ⟨?_, ⟨_, h.memHoles small, ?_, ?_⟩, ⟨l, run, sizes ▸ greatest⟩, ?_, ?_⟩
  · have whole := h.tiles.hi_eq
    have parts := cover_eq (xs.map Prod.snd)
    have size : toInt sz = sz := toInt_of_range (by unfold intMin; omega) small
    refine ⟨_, _, h.memAllocated small, h.memFree small, addInt_eq_some.mpr ?_⟩
    rw [memTotal, h.size, size, usedOf, List.map_map]
    refine ⟨?_, by unfold intMin; omega, small⟩
    change (sz : Int) = (((xs.map Prod.snd).filter Extent.used).map Extent.len).sum + _
    omega
  · simpa using h.encard_holesOf perm fun _ => true
  · rw [← perm.length_eq, usedOf, List.length_map]
    exact h.separated.gaps_le.1
  · intro k range
    refine ⟨_, h.memSmallFree small range, ?_⟩
    simpa using h.encard_holesOf perm fun n => n ≤ k
  · have le : l ≤ sz := by
      rcases greatest.1 with rfl | ⟨x, hx, -, rfl⟩
      · exact Nat.zero_le sz
      · exact h.size_le hx
    rw [run, Option.bind_some, h.memSmallFree small (by omega), h.memHoles small,
      List.countP_eq_length.mpr fun x hx => ?_]
    have there := greatest.2 (.inr (mem_gaps_nodesOf.mpr ⟨x.1, hx⟩))
    simpa using there

/-- After any calls the five statistics agree with each other and with the
bytes that the live allocations cover. -/
theorem session_statistics {strategy : Strategies} {calls : List Call}
    (h : Session strategy sz calls m) (small : (sz : Int) ≤ intMax) :
    ∃ base, memPool m = some base ∧
      StatisticsOf m (liveOf calls) (holesOf base sz (liveOf calls)) := by
  obtain ⟨base, xs, pool, perm⟩ := h.pool
  exact ⟨base, pool.memory, pool.statisticsOf small perm⟩

theorem session_statistics_fourTaken :
    ∃ base, memPool fourTaken = some base ∧
      StatisticsOf fourTaken [(100, 4)] (holesOf base 10 [(100, 4)]) :=
  session_statistics session_fourTaken (by decide)

end LastPicked.Allocator
