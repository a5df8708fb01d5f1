import LastPicked.AllocatorLive

/-! The layout of the pool is a function of the live allocations: the free
space is always held as its maximal gaps, so neither the strategy nor the
order of the calls leaves a trace in it. -/

namespace LastPicked.Allocator
open LabelledRuns LinkedChain GapTiling

variable {m m' : Mem} {xs ys : List Cell} {base base' sz : Nat}

def offset (m : Mem) (p : Addr) : Nat := p - m.myMemory.getD 0

/-- Where each block of the list starts in the pool, its size and its mark. -/
def layout (m : Mem) : Option (List (Nat × Nat × Alloc)) :=
  m.blockList.map fun nodes => nodes.map fun x => (offset m x.2.ptr, x.2.size, x.2.alloc)

def liveOffsets (m : Mem) (calls : List Call) : List (Nat × Nat) :=
  (liveOf calls).map fun a => (offset m a.1, a.2)

def freeAll (m : Mem) : List Addr → Option Mem
  | [] => some m
  | p :: ps => do
      let m ← myfree m p
      freeAll m ps

def blockOf (e : Extent) : Nat × Nat × Alloc :=
  (e.start, e.len, if e.used then .memUsed else .memFree)

def relativeOf (base : Nat) (xs : List Cell) : List Extent :=
  (xs.map Prod.snd).map (Extent.relative base)

theorem layout_nodesOf (base : Nat) (p : Option Addr) (xs : List Cell) :
    (nodesOf p xs).map (fun x => (x.2.ptr - base, x.2.size, x.2.alloc)) =
      (relativeOf base xs).map blockOf := by
  induction xs generalizing p with
  | nil => rfl
  | cons x xs ih => simpa [nodesOf, relativeOf, blockOf, cell, Extent.relative] using ih (some x.1)

theorem Pool.layout_eq (h : Pool m base sz xs) :
    layout m = some ((relativeOf base xs).map blockOf) := by
  rw [layout, h.linked.blockList_eq, Option.map_some, ← layout_nodesOf base none]
  simp only [offset, h.memory, Option.getD_some]

theorem Pool.relative_tiles (h : Pool m base sz xs) : Tiles 0 (relativeOf base xs) sz := by
  have moved := h.tiles.relative (Nat.le_refl base)
  rwa [Nat.sub_self, Nat.add_sub_cancel_left] at moved

theorem Pool.relative_separated (h : Pool m base sz xs) : Separated (relativeOf base xs) :=
  (separated_map_relative base).mpr h.separated

theorem mem_relativeOf_used {e : Extent} (used : e.used = true) :
    e ∈ relativeOf base xs ↔ (e.start, e.len) ∈ (usedOf xs).map fun a => (a.1 - base, a.2) := by
  simp only [relativeOf, List.mem_map, mem_usedOf]
  constructor
  · rintro ⟨_, ⟨x, hx, rfl⟩, rfl⟩
    exact ⟨_, ⟨x, hx, used, rfl⟩, rfl⟩
  · rintro ⟨_, ⟨x, hx, busy, rfl⟩, same⟩
    obtain ⟨start, len⟩ := Prod.mk.inj same
    exact ⟨_, ⟨x, hx, rfl⟩, by cases e; simp_all [Extent.relative]⟩

/-- Two pools of one size with the same used blocks hold the same gaps. -/
theorem Pool.relative_eq (h : Pool m base sz xs) (k : Pool m' base' sz ys)
    (same : ∀ a, a ∈ (usedOf xs).map (fun a => (a.1 - base, a.2)) ↔
      a ∈ (usedOf ys).map fun a => (a.1 - base', a.2)) : relativeOf base xs = relativeOf base' ys :=
  h.relative_tiles.determined k.relative_tiles h.relative_separated k.relative_separated
    fun _ used => (mem_relativeOf_used used).trans ((same _).trans (mem_relativeOf_used used).symm)

theorem Pool.layout_eq_of_used (h : Pool m base sz xs) (k : Pool m' base sz ys)
    (same : ∀ a, a ∈ usedOf xs ↔ a ∈ usedOf ys) : layout m = layout m' := by
  rw [h.layout_eq, k.layout_eq, h.relative_eq k fun a => by simp only [List.mem_map, same]]

theorem Pool.freeAll (h : Pool m base sz xs) (ps : List Addr) :
    ∃ m' ys, freeAll m ps = some m' ∧ Pool m' base sz ys ∧
      usedOf ys = (usedOf xs).filter fun a => a.1 ∉ ps := by
  induction ps generalizing m xs with
  | nil => exact ⟨m, xs, rfl, h, by simp⟩
  | cons p ps ih =>
    obtain ⟨m₁, ys, run, pool, busy⟩ := h.myfree p
    obtain ⟨m₂, zs, rest, pool', busy'⟩ := ih pool
    refine ⟨m₂, zs, by simp [Allocator.freeAll, run, rest], pool', ?_⟩
    rw [busy', busy, List.filter_filter]
    refine List.filter_congr fun a _ => ?_
    simp only [List.mem_cons, not_or, ne_eq, ← Bool.decide_and, and_comm]

theorem Pool.myfree_mymalloc (h : Pool m base sz xs) {r : Nat} {p : Addr}
    (s : Step m (.mymalloc r (some p)) m') :
    ∃ m'' zs, Allocator.myfree m' p = some m'' ∧ Pool m'' base sz zs ∧ ∀ a, a ∈ usedOf zs ↔
      a ∈ usedOf xs := by
  obtain ⟨ys, pool, perm⟩ := h.step s
  obtain ⟨m'', zs, run, pool', busy⟩ := pool.myfree p
  refine ⟨m'', zs, run, pool', fun a => ?_⟩
  have distinct := (perm.map Prod.fst).nodup_iff.mp pool.used_starts
  rw [busy, List.mem_filter, perm.mem_iff]
  simp only [record, List.map_cons, List.nodup_cons, List.mem_map, not_exists, not_and] at distinct
  constructor
  · rintro ⟨here, away⟩
    rcases List.mem_cons.mp here with rfl | there
    · simp at away
    · exact there
  · intro there
    exact ⟨List.mem_cons_of_mem _ there, by simpa using distinct.1 a there⟩

theorem Pool.layout_idle (h : Pool m base sz xs) (pos : 1 ≤ sz) (idle : usedOf xs = []) :
    layout m = some [(0, sz, .memFree)] := by
  have whole : Tiles 0 [⟨0, sz, false⟩] sz := ⟨rfl, pos, by simp [Tiles]⟩
  have same : relativeOf base xs = [⟨0, sz, false⟩] :=
    h.relative_tiles.determined whole h.relative_separated (.singleton _) fun e used => by
      rw [mem_relativeOf_used used, idle]
      simp only [List.map_nil, List.not_mem_nil, List.mem_singleton, false_iff]
      rintro rfl
      contradiction
  rw [h.layout_eq, same]
  rfl

/-- The layout depends on the pool size and the live allocations alone. -/
theorem session_layout {strategy : Strategies} {calls : List Call}
    (h : Session strategy sz calls m) :
    (∀ strategy' calls' m', Session strategy' sz calls' m' →
      (∀ a, a ∈ liveOffsets m calls ↔ a ∈ liveOffsets m' calls') →
      ∃ blocks, layout m = some blocks ∧ layout m' = some blocks) ∧
    (∀ r p m', Step m (.mymalloc r (some p)) m' →
      ∃ m'', myfree m' p = some m'' ∧ layout m'' = layout m) ∧
    (∀ ps qs, ps.Perm qs →
      ∃ m₁ m₂, freeAll m ps = some m₁ ∧ freeAll m qs = some m₂ ∧ layout m₁ = layout m₂) ∧
    ∀ ps, (∀ a ∈ liveOf calls, a.1 ∈ ps) →
      ∃ m', freeAll m ps = some m' ∧ layout m' = some [(0, sz, .memFree)] := by
  obtain ⟨base, xs, pool, perm⟩ := h.pool
  refine ⟨?_, ?_, ?_, ?_⟩
  · intro strategy' calls' m' h' same
    obtain ⟨base', ys, pool', perm'⟩ := h'.pool
    refine ⟨_, pool.layout_eq, ?_⟩
    rw [pool'.layout_eq, pool.relative_eq pool' fun a => ?_]
    rw [(perm.map _).mem_iff, (perm'.map _).mem_iff]
    simpa only [liveOffsets, offset, pool.memory, pool'.memory, Option.getD_some] using same a
  · intro r p m' s
    obtain ⟨m'', zs, run, pool', same⟩ := pool.myfree_mymalloc s
    exact ⟨m'', run, pool'.layout_eq_of_used pool same⟩
  · intro ps qs reordered
    obtain ⟨m₁, ys, run, pool₁, busy⟩ := pool.freeAll ps
    obtain ⟨m₂, zs, run', pool₂, busy'⟩ := pool.freeAll qs
    refine ⟨m₁, m₂, run, run', pool₁.layout_eq_of_used pool₂ fun a => ?_⟩
    simp only [busy, busy', List.mem_filter, reordered.mem_iff]
  · intro ps every
    obtain ⟨m', ys, run, pool', busy⟩ := pool.freeAll ps
    obtain ⟨_, _, _, init, _⟩ := h.began
    refine ⟨m', run, pool'.layout_idle init.1 ?_⟩
    rw [busy, List.filter_eq_nil_iff]
    intro a ha
    simpa using every a (perm.mem_iff.mp ha)

theorem session_layout_fourTaken :
    ∃ m', freeAll fourTaken [100] = some m' ∧ layout m' = some [(0, 10, .memFree)] :=
  (session_layout session_fourTaken).2.2.2 [100] (by decide)

end LastPicked.Allocator
