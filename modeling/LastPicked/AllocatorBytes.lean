import LastPicked.AllocatorStatistics

/-! Asking for a single byte of the pool. `mem_is_alloc` compares its argument
with the first byte of each block and with no other one. -/

namespace LastPicked.Allocator
open CIntegers LabelledRuns LinkedChain GapTiling

variable {m m' : Mem} {xs : List Cell} {base sz : Nat} {live : List (Addr × Nat)} {p : Nat}

theorem isAllocFrom_chain {q : Option Addr} (chain : Chain m.view q xs none) {fuel : Nat}
    (enough : xs.length ≤ fuel) :
    isAllocFrom m p fuel (first none xs) =
      match xs.find? (fun x => x.2.start = p) with
      | none => some .memUsed
      | some x => some (if x.2.used then .memUsed else .memFree) := by
  induction xs generalizing q fuel with
  | nil => cases fuel <;> rfl
  | cons x xs ih =>
    obtain ⟨fuel, rfl⟩ : ∃ k, fuel = k + 1 := ⟨fuel - 1, by simp at enough; omega⟩
    have rest := ih chain.2 (by simpa using enough)
    simp only [isAllocFrom, first_cons, Mem.view_eq_some.mp chain.1, Option.bind_eq_bind,
      Option.bind_some, cell_ptr, cell_next, List.find?_cons]
    by_cases here : x.2.start = p
    · simp [here, cell]
    · simp [here, rest]

theorem memIsAlloc_chain (h : Linked m xs) (p : Addr) :
    memIsAlloc m p = match xs.find? (fun x => x.2.start = p) with
      | none => some .memUsed
      | some x => some (if x.2.used then .memUsed else .memFree) := by
  rw [memIsAlloc, h.head, isAllocFrom_chain h.chain h.length_le_fuel]

def InLive (live : List (Addr × Nat)) (p : Nat) : Prop := ∃ a ∈ live, a.1 ≤ p ∧ p < a.1 + a.2

def InFreeBlock (m : Mem) (p : Nat) : Prop :=
  ∃ nodes, m.blockList = some nodes ∧
    ∃ x ∈ nodes, x.2.alloc = .memFree ∧ x.2.ptr ≤ p ∧ p < x.2.ptr + x.2.size

def FreeBlockAt (m : Mem) (p : Nat) : Prop :=
  ∃ nodes, m.blockList = some nodes ∧ ∃ x ∈ nodes, x.2.alloc = .memFree ∧ x.2.ptr = p

/-- The query is answered, and right about the byte at `p`. -/
def AnswersByte (m : Mem) (live : List (Addr × Nat)) (p : Nat) : Prop :=
  ∃ answer, memIsAlloc m p = some answer ∧ (InLive live p → answer = .memUsed) ∧
    (InFreeBlock m p → answer = .memFree)

theorem inLive_iff (perm : (usedOf xs).Perm live) :
    InLive live p ↔ ∃ x ∈ xs, x.2.used = true ∧ x.2.start ≤ p ∧ p < x.2.finish := by
  constructor
  · rintro ⟨a, ha, inside⟩
    obtain ⟨x, hx, used, rfl⟩ := mem_usedOf.mp (perm.mem_iff.mpr ha)
    exact ⟨x, hx, used, inside⟩
  · rintro ⟨x, hx, used, inside⟩
    exact ⟨_, perm.mem_iff.mp (mem_usedOf.mpr ⟨x, hx, used, rfl⟩), inside⟩

/-- Inside a pool the query is right about the bytes of live allocations and
about the first byte of a free block. Every other byte it calls allocated. -/
theorem Pool.answersByte_iff (h : Pool m base sz xs) (perm : (usedOf xs).Perm live)
    (low : base ≤ p) (high : p < base + sz) :
    AnswersByte m live p ↔ InLive live p ∨ FreeBlockAt m p := by
  obtain ⟨e, he, inside⟩ := h.tiles.exists_mem low high
  obtain ⟨x, hx, rfl⟩ := List.mem_map.mp he
  have only : ∀ y ∈ xs, y.2.start ≤ p ∧ p < y.2.finish → y.2 = x.2 := fun y hy inside' =>
    h.tiles.eq_of_mem (List.mem_map_of_mem hy) he inside' inside
  have first : ∀ y ∈ xs, y.2.start = p → y.2 = x.2 := fun y hy start =>
    only y hy ⟨start.le, by
      have pos := (h.tiles.bounds (List.mem_map_of_mem (f := Prod.snd) hy)).2.1
      unfold Extent.finish
      omega⟩
  rw [AnswersByte, memIsAlloc_chain h.linked, inLive_iff perm, InFreeBlock, FreeBlockAt,
    h.linked.free_node_iff (Q := fun start len => start ≤ p ∧ p < start + len),
    h.linked.free_node_iff (Q := fun start _ => start = p)]
  cases used : x.2.used with
  | true =>
    refine iff_of_true ⟨.memUsed, ?_, fun _ => rfl, ?_⟩ (.inl ⟨x, hx, used, inside⟩)
    · cases found : xs.find? fun y => y.2.start = p with
      | none => rfl
      | some y =>
        have start : y.2.start = p := by simpa using List.find?_some found
        simp [first y (List.mem_of_find?_eq_some found) start, used]
    · rintro ⟨y, hy, free, inside'⟩
      rw [only y hy inside', used] at free
      contradiction
  | false =>
    have none_live : ¬∃ y ∈ xs, y.2.used = true ∧ y.2.start ≤ p ∧ p < y.2.finish := by
      rintro ⟨y, hy, busy, inside'⟩
      rw [only y hy inside', used] at busy
      contradiction
    rw [or_iff_right none_live]
    constructor
    · rintro ⟨answer, run, -, right⟩
      rw [right ⟨x, hx, used, inside⟩] at run
      cases found : xs.find? fun y => y.2.start = p with
      | none => simp [found] at run
      | some y =>
        have start : y.2.start = p := by simpa using List.find?_some found
        have hy := List.mem_of_find?_eq_some found
        exact ⟨y, hy, by rw [first y hy start, used], start⟩
    · rintro ⟨y, hy, free, start⟩
      refine ⟨.memFree, ?_, fun live => absurd live none_live, fun _ => rfl⟩
      obtain ⟨z, found⟩ : ∃ z, xs.find? (fun z => z.2.start = p) = some z :=
        Option.isSome_iff_exists.mp (List.find?_isSome.mpr ⟨y, hy, decide_eq_true start⟩)
      have start' : z.2.start = p := by simpa using List.find?_some found
      simp [found, first z (List.mem_of_find?_eq_some found) start', used]

/-- After any calls, and for every byte of the pool. -/
theorem session_answersByte {strategy : Strategies} {calls : List Call}
    (h : Session strategy sz calls m) {i : Nat} (inside : i < sz) :
    ∃ base, memPool m = some base ∧ (AnswersByte m (liveOf calls) (base + i) ↔
      InLive (liveOf calls) (base + i) ∨ FreeBlockAt m (base + i)) := by
  obtain ⟨base, xs, pool, perm⟩ := h.pool
  exact ⟨base, pool.memory, pool.answersByte_iff perm (by omega) (by omega)⟩

theorem session_answersByte_fourTaken :
    ∃ base, memPool fourTaken = some base ∧ (AnswersByte fourTaken [(100, 4)] (base + 5) ↔
      InLive [(100, 4)] (base + 5) ∨ FreeBlockAt fourTaken (base + 5)) :=
  session_answersByte session_fourTaken (by decide)

theorem answersByte_interior : ¬∀ (strategy : Strategies) (sz : Nat) (calls : List Call) (m : Mem),
    Session strategy sz calls m → ∀ i < sz, ∀ base ∈ memPool m,
      AnswersByte m (liveOf calls) (base + i) := by
  intro right
  obtain ⟨answer, run, -, free⟩ := right _ _ _ _ session_tenBytes 1 (by decide) 100 rfl
  have used : memIsAlloc tenBytes 101 = some .memUsed := rfl
  have inside : InFreeBlock tenBytes 101 :=
    ⟨_, rfl, _, List.mem_cons_self, rfl, by decide, by decide⟩
  obtain rfl := Option.some.inj (used.symm.trans run)
  exact absurd (free inside) (by decide)

end LastPicked.Allocator
