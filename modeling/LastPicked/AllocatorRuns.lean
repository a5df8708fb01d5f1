import LastPicked.AllocatorBlocks

/-! Runs of client calls. A step of a run is one call of `mymalloc` or
`myfree`, with whatever the system `malloc` answers; under Next the search may
end on any suitable block of the list, or on none, so that nothing depends on
where `last_allocated` points. -/

namespace LastPicked.Allocator
open LabelledRuns LinkedChain GapTiling

inductive Call
  | mymalloc (requested : Nat) (result : Option Addr)
  | myfree (block : Addr)
  deriving DecidableEq

/-- The nodes that following `next` from `head` meets. -/
inductive InList (m : Mem) : Addr → Prop
  | head {a : Addr} : m.head = some a → InList m a
  | next {a b : Addr} {n : MemoryList} :
      InList m a → m.node a = some n → n.next = some b → InList m b

/-- Where the search of `mymalloc` may end. -/
inductive Selects (m : Mem) (requested : Nat) : Option Addr → Prop
  | searched {toUse : Option Addr} :
      m.myStrategy ≠ .next → search m requested = some toUse → Selects m requested toUse
  | nextNone : m.myStrategy = .next → Selects m requested none
  | nextBlock {a : Addr} {n : MemoryList} : m.myStrategy = .next → InList m a →
      m.node a = some n → suitable n requested = true → Selects m requested (some a)

/-- The system `malloc` may return this node: it is neither live nor in the pool. -/
def Obtains (m : Mem) (new : NewNode) : Prop :=
  ∀ a ∈ new, m.node a.1 = none ∧ ∀ base ∈ m.myMemory, ¬ (base ≤ a.1 ∧ a.1 < base + m.mySize)

inductive Step : Mem → Call → Mem → Prop
  | mymalloc {m m' : Mem} {requested : Nat} {toUse result : Option Addr} {new : NewNode} :
      1 ≤ requested → Selects m requested toUse → Obtains m new →
      useBlock m requested new toUse = some (result, m') → Step m (.mymalloc requested result) m'
  | myfree {m m' : Mem} {block : Addr} :
      myfree m block = some m' → Step m (.myfree block) m'

/-- A call of `initmem` for which both system `malloc` calls succeed. -/
def Initialises (m : Mem) (strategy : Strategies) (sz : Nat) (m' : Mem) : Prop :=
  1 ≤ sz ∧ ∃ base a stale, ¬ (base ≤ a ∧ a < base + sz) ∧
    initmem m strategy sz (some base) (some (a, stale)) = some m'

/-- Every state that successful `initmem` calls and client calls lead to. -/
inductive Reached : Mem → Prop
  | start : Reached Mem.start
  | initmem {m m' : Mem} {strategy : Strategies} {sz : Nat} :
      Reached m → Initialises m strategy sz m' → Reached m'
  | call {m m' : Mem} {c : Call} : Reached m → Step m c m' → Reached m'

variable {m m' : Mem} {xs : List Cell} {base sz : Nat}

/-- The pool `[base, base + sz)` is cut into the cells of the list, with no
two free cells next to each other. -/
structure Pool (m : Mem) (base sz : Nat) (xs : List Cell) : Prop where
  linked : Linked m xs
  tiles : Tiles base (xs.map Prod.snd) (base + sz)
  separated : Separated (xs.map Prod.snd)
  memory : m.myMemory = some base
  size : m.mySize = sz

theorem Linked.inList_iff (h : Linked m xs) {a : Addr} : InList m a ↔ a ∈ xs.map Prod.fst := by
  constructor
  · intro there
    induction there with
    | head here =>
      cases xs with
      | nil => simp [h.head] at here
      | cons x xs => simp_all [h.head]
    | @next a b n _ here next ih =>
      obtain ⟨x, hx, rfl⟩ := List.mem_map.mp ih
      obtain ⟨pre, post, rfl⟩ := List.append_of_mem hx
      have same := here.symm.trans h.node_at
      simp only [Option.some.injEq] at same
      rw [same, cell_next] at next
      cases post with
      | nil => simp at next
      | cons y post => simp_all
  · intro listed
    obtain ⟨x, hx, rfl⟩ := List.mem_map.mp listed
    obtain ⟨pre, post, rfl⟩ := List.append_of_mem hx
    clear hx listed
    induction pre using List.reverseRecOn generalizing x post with
    | nil => exact .head h.head
    | append_singleton pre y ih =>
      rw [List.append_assoc] at h
      exact .next (ih y (x :: post) h) h.node_at rfl

theorem Selects.fits (h : Linked m xs) {r : Nat} {a : Addr} (s : Selects m r (some a)) :
    Fits xs r a := by
  cases s with
  | searched _ found => exact search_fits h found
  | nextBlock _ listed here fits =>
    obtain ⟨x, hx, rfl⟩ := List.mem_map.mp (h.inList_iff.mp listed)
    obtain ⟨pre, post, rfl⟩ := List.append_of_mem hx
    have same := here.symm.trans h.node_at
    simp only [Option.some.injEq] at same
    rw [same, suitable_cell] at fits
    exact ⟨x, hx, rfl, fits⟩

theorem mymalloc_step (h : Linked m xs) {r : Nat} {new : NewNode} {result : Option Addr}
    (pos : 1 ≤ r) (obtains : Obtains m new) (run : mymalloc m r new = some (result, m')) :
    Step m (.mymalloc r result) m' := by
  simp only [mymalloc, Option.bind_eq_bind, Option.bind_eq_some_iff] at run
  obtain ⟨toUse, found, run⟩ := run
  refine .mymalloc pos ?_ obtains run
  by_cases strategy : m.myStrategy = .next
  · cases toUse with
    | none => exact .nextNone strategy
    | some a =>
      obtain ⟨x, hx, rfl, fits⟩ := search_fits h found
      obtain ⟨pre, post, rfl⟩ := List.append_of_mem hx
      exact .nextBlock strategy (h.inList_iff.mpr (List.mem_map_of_mem hx)) h.node_at
        ((suitable_cell _ _ _ _).mpr fits)
  · exact .searched strategy found

theorem Pool.used_bounds (h : Pool m base sz xs) {a : Addr × Nat} (ha : a ∈ usedOf xs) :
    base ≤ a.1 ∧ 0 < a.2 ∧ a.1 + a.2 ≤ base + sz := by
  obtain ⟨e, he, rfl⟩ := List.mem_map.mp ha
  exact h.tiles.bounds (List.mem_filter.mp he).1

theorem Pool.used_ordered (h : Pool m base sz xs) :
    (usedOf xs).Pairwise fun a b => a.1 + a.2 ≤ b.1 := by
  rw [usedOf, List.pairwise_map]
  exact h.tiles.ordered.filter _

def record (live : List (Addr × Nat)) : Call → List (Addr × Nat)
  | .mymalloc r (some p) => (p, r) :: live
  | .mymalloc _ none => live
  | .myfree p => live.filter fun a => a.1 ≠ p

/-- The allocations returned by a call and not freed since, latest first. -/
def liveOf (calls : List Call) : List (Addr × Nat) := calls.foldl record []

theorem liveOf_snoc (calls : List Call) (c : Call) :
    liveOf (calls ++ [c]) = record (liveOf calls) c := by
  simp [liveOf]

theorem record_perm {live live' : List (Addr × Nat)} (h : live.Perm live') (c : Call) :
    (record live c).Perm (record live' c) := by
  match c with
  | .mymalloc _ (some _) => exact h.cons _
  | .mymalloc _ none => exact h
  | .myfree _ => exact h.filter _

theorem start_ne {lo hi : Nat} {pre post : List Cell} {x : Cell}
    (tiles : Tiles lo ((pre ++ x :: post).map Prod.snd) hi) :
    (∀ y ∈ pre, y.2.start ≠ x.2.start) ∧ ∀ y ∈ post, y.2.start ≠ x.2.start := by
  rw [List.map_append, List.map_cons] at tiles
  exact ⟨fun y hy => tiles.start_ne.1 _ (List.mem_map_of_mem hy),
    fun y hy => tiles.start_ne.2 _ (List.mem_map_of_mem hy)⟩

theorem find_start {lo hi : Nat} {pre post : List Cell} {x : Cell}
    (tiles : Tiles lo ((pre ++ x :: post).map Prod.snd) hi) :
    (pre ++ x :: post).find? (fun y => y.2.start = x.2.start) = some x := by
  rw [List.find?_append, List.find?_eq_none.mpr fun y hy => by simpa using (start_ne tiles).1 y hy]
  simp

theorem usedOf_other {ys : List Cell} {p : Addr} (away : ∀ y ∈ ys, y.2.start ≠ p) :
    (usedOf ys).filter (fun a => a.1 ≠ p) = usedOf ys := by
  refine List.filter_eq_self.mpr fun a ha => ?_
  obtain ⟨e, he, rfl⟩ := List.mem_map.mp ha
  obtain ⟨y, hy, rfl⟩ := List.mem_map.mp (List.mem_filter.mp he).1
  simpa using away y hy

theorem usedOf_erase {lo hi : Nat} {pre post : List Cell} {x : Cell}
    (tiles : Tiles lo ((pre ++ x :: post).map Prod.snd) hi) :
    (usedOf (pre ++ x :: post)).filter (fun a => a.1 ≠ x.2.start) = usedOf pre ++ usedOf post := by
  obtain ⟨before, after⟩ := start_ne tiles
  rw [usedOf_append, usedOf_cons, List.filter_append, usedOf_other before]
  split
  · rw [List.filter_cons_of_neg (by simp), usedOf_other after]
  · rw [usedOf_other after]

theorem mem_usedOf {ys : List Cell} {a : Addr × Nat} :
    a ∈ usedOf ys ↔ ∃ x ∈ ys, x.2.used = true ∧ (x.2.start, x.2.len) = a := by
  simp only [usedOf, List.mem_map, List.mem_filter]
  constructor
  · rintro ⟨e, ⟨⟨x, hx, rfl⟩, used⟩, rfl⟩
    exact ⟨x, hx, used, rfl⟩
  · rintro ⟨x, hx, used, rfl⟩
    exact ⟨x.2, ⟨⟨x, hx, rfl⟩, used⟩, rfl⟩

/-- A request that got no block changed nothing; one that did carved it out
of a free cell. -/
theorem Pool.useBlock (h : Pool m base sz xs) {r : Nat} {toUse result : Option Addr}
    {new : NewNode} (pos : 1 ≤ r) (sel : Selects m r toUse) (obtains : Obtains m new)
    (run : useBlock m r new toUse = some (result, m')) :
    (result = none ∧ m' = m) ∨
    ∃ p ys, result = some p ∧ Pool m' base sz ys ∧ (usedOf ys).Perm ((p, r) :: usedOf xs) := by
  cases toUse with
  | none =>
    simp only [Allocator.useBlock, Option.some.injEq, Prod.mk.injEq] at run
    exact .inl ⟨run.1.symm, run.2.symm⟩
  | some a =>
    obtain ⟨x, hx, rfl, free, fits⟩ := sel.fits h.linked
    obtain ⟨pre, post, rfl⟩ := List.append_of_mem hx
    rcases useBlock_chain h.linked r fun c hc => (obtains c hc).1 with ⟨-, failed⟩ | found
    · rw [failed] at run
      simp only [Option.some.injEq, Prod.mk.injEq] at run
      exact .inl ⟨run.1.symm, run.2.symm⟩
    · obtain ⟨m₁, rest, done, linked, left, same, -⟩ := found
      rw [done] at run
      simp only [Option.some.injEq, Prod.mk.injEq] at run
      obtain ⟨rfl, rfl⟩ := run
      have tiles := h.tiles
      have sep := h.separated
      simp only [Mem.settings, Prod.mk.injEq] at same
      simp only [List.map_append, List.map_cons] at tiles sep
      refine .inr ⟨_, _, rfl, ⟨linked, ?_, ?_, same.2.2.trans h.memory, same.2.1.trans h.size⟩, ?_⟩
      · simp only [List.map_append, List.map_cons, left]
        exact tiles.carve pos fits
      · simp only [List.map_append, List.map_cons, left]
        exact sep.carve free
      · have gap : usedOf rest = [] := by
          rw [usedOf, left, List.filter_eq_nil_iff.mpr fun e he => by simp [remainder_free he]]
          rfl
        simp [usedOf_cons, free, gap, List.perm_middle]

theorem Pool.myfree_used {pre post : List Cell} {x : Cell} (h : Pool m base sz (pre ++ x :: post))
    (used : x.2.used = true) :
    ∃ m' ys, myfree m x.2.start = some m' ∧ Pool m' base sz ys ∧
      usedOf ys = usedOf pre ++ usedOf post := by
  obtain ⟨m', ys, run, linked, rel, same, -⟩ := release_chain h.linked
  obtain ⟨tiles, sep, busy⟩ := rel.sound h.tiles h.separated
  simp only [Mem.settings, Prod.mk.injEq] at same
  refine ⟨m', ys, ?_, ⟨linked, tiles, sep, same.2.2.trans h.memory, same.2.1.trans h.size⟩, busy⟩
  rw [myfree_chain h.linked, find_start h.tiles]
  simpa [used] using run

theorem Pool.myfree_unused (h : Pool m base sz xs) {p : Addr} (dead : ∀ r, (p, r) ∉ usedOf xs) :
    myfree m p = some m := by
  rw [myfree_chain h.linked]
  cases found : xs.find? fun x => x.2.start = p with
  | none => rfl
  | some x =>
    have here : x.2.start = p := by simpa using List.find?_some found
    have free : x.2.used = false := by
      by_contra used
      exact dead x.2.len (mem_usedOf.mpr
        ⟨x, List.mem_of_find?_eq_some found, by simpa using used, by rw [here]⟩)
    simp [free]

/-- `myfree` always returns, and takes what starts at `p` out of the used blocks. -/
theorem Pool.myfree (h : Pool m base sz xs) (p : Addr) :
    ∃ m' ys, myfree m p = some m' ∧ Pool m' base sz ys ∧
      usedOf ys = (usedOf xs).filter fun a => a.1 ≠ p := by
  by_cases live : ∃ r, (p, r) ∈ usedOf xs
  · obtain ⟨r, hr⟩ := live
    obtain ⟨x, hx, used, same⟩ := mem_usedOf.mp hr
    obtain ⟨rfl, rfl⟩ := Prod.mk.inj same
    obtain ⟨pre, post, rfl⟩ := List.append_of_mem hx
    obtain ⟨m', ys, run, pool, busy⟩ := h.myfree_used used
    exact ⟨m', ys, run, pool, busy.trans (usedOf_erase h.tiles).symm⟩
  · refine ⟨m, xs, h.myfree_unused fun r hr => live ⟨r, hr⟩, h, ?_⟩
    refine (List.filter_eq_self.mpr fun a ha => ?_).symm
    simp only [ne_eq, decide_not, Bool.not_eq_true', decide_eq_false_iff_not]
    rintro rfl
    exact live ⟨a.2, ha⟩

theorem Pool.step (h : Pool m base sz xs) {c : Call} (s : Step m c m') :
    ∃ ys, Pool m' base sz ys ∧ (usedOf ys).Perm (record (usedOf xs) c) := by
  cases s with
  | mymalloc pos sel obtains run =>
    rcases h.useBlock pos sel obtains run with ⟨rfl, rfl⟩ | ⟨p, ys, rfl, pool, perm⟩
    · exact ⟨xs, h, .refl _⟩
    · exact ⟨ys, pool, perm⟩
  | myfree run =>
    obtain ⟨m₁, ys, done, pool, busy⟩ := h.myfree _
    obtain rfl : m₁ = m' := Option.some.inj (done.symm.trans run)
    exact ⟨ys, pool, .of_eq busy⟩

/-- The blocks in use are the recorded live allocations after any run. -/
theorem Pool.run {m₀ : Mem} {ys : List Cell} (h : Pool m₀ base sz ys) (idle : usedOf ys = [])
    {calls : List Call} (run : Run Step m₀ calls m) :
    ∃ xs, Pool m base sz xs ∧ (usedOf xs).Perm (liveOf calls) := by
  refine run.history (fun calls m => ∃ xs, Pool m base sz xs ∧ (usedOf xs).Perm (liveOf calls))
    ⟨ys, h, .of_eq idle⟩ ?_
  rintro calls m₁ c m₂ - ⟨xs, pool, perm⟩ s
  obtain ⟨zs, pool', perm'⟩ := pool.step s
  exact ⟨zs, pool', perm'.trans (liveOf_snoc calls c ▸ record_perm perm c)⟩

end LastPicked.Allocator
