import LastPicked.AllocatorRuns

/-! `initmem` throws the old list away and starts with one free block, in
every state that calls can lead to. -/

namespace LastPicked.Allocator
open LabelledRuns LinkedChain GapTiling

variable {m m' : Mem} {xs : List Cell} {x : Cell} {base sz : Nat}

theorem clearFrom_chain {p : Option Addr} (chain : Chain m.view p (x :: xs) none)
    (distinct : ((x :: xs).map Prod.fst).Nodup) {fuel : Nat} (enough : xs.length < fuel) :
    ∃ m', clearFrom fuel x.1 m = some m' ∧ m'.globals = m.globals ∧
      ∀ a, (m'.node a).isSome → (m.node a).isSome ∧ a ∉ (x :: xs).map Prod.fst := by
  have here := Mem.view_eq_some.mp chain.1
  induction xs generalizing p x m fuel with
  | nil =>
    obtain ⟨fuel, rfl⟩ : ∃ k, fuel = k + 1 := ⟨fuel - 1, by omega⟩
    refine ⟨m.drop x.1, by simp [clearFrom, here, Mem.free_eq here], rfl, fun a alive => ?_⟩
    by_cases same : a = x.1 <;> simp_all
  | cons y xs ih =>
    obtain ⟨fuel, rfl⟩ : ∃ k, fuel = k + 1 := ⟨fuel - 1, by omega⟩
    obtain ⟨notLater, distinct'⟩ := List.nodup_cons.mp distinct
    have chain' : Chain (m.drop x.1).view (some x.1) (y :: xs) none :=
      chain.2.frame fun z hz => Mem.view_of_node (by
        rw [Mem.node_drop, if_neg]
        exact fun same => notLater (same ▸ List.mem_map_of_mem hz))
    have there := Mem.view_eq_some.mp chain.2.1
    obtain ⟨m', run, same, gone⟩ := ih chain' distinct' (by simpa using enough)
      (Mem.view_eq_some.mp chain'.1)
    refine ⟨m', ?_, same, fun a alive => ?_⟩
    · simp [clearFrom, here, there, Mem.free_eq here, run]
    · obtain ⟨before, away⟩ := gone a alive
      have other : a ≠ x.1 := by
        rintro rfl
        simp at before
      refine ⟨by simpa [other] using before, ?_⟩
      rw [List.map_cons, List.mem_cons]
      exact not_or.mpr ⟨other, away⟩

theorem Linked.clear (h : Linked m xs) :
    ∃ m', clearList m = some m' ∧ Linked m' [] ∧ m'.globals = m.globals := by
  cases xs with
  | nil => exact ⟨m, by simp [clearList, h.head], h, rfl⟩
  | cons x xs =>
    have enough : xs.length < m.fuel := Nat.lt_of_succ_le (by simpa using h.length_le_fuel)
    obtain ⟨m', run, same, gone⟩ := clearFrom_chain h.chain h.distinct enough
    refine ⟨{ m' with head := none, last := none }, ?_, ⟨trivial, .nil, rfl, rfl, ?_⟩, same⟩
    · simp [clearList, h.head, run]
    · intro a alive
      obtain ⟨before, away⟩ := gone a alive
      exact absurd (h.live a before) away

theorem Linked.insertFirst (h : Linked m []) (a : Addr) (stale : MemoryList) :
    ∃ m', insertIntoList m (some (a, stale)) none = some (some a, m') ∧
      Linked m' [(a, extentOf stale)] ∧ m'.globals = m.globals := by
  have none_live : ∀ b, m.node b = none := fun b => by
    by_contra alive
    simpa using h.live b (Option.isSome_iff_ne_none.mpr alive)
  let m₁ : Mem := ({ m with head := some a } : Mem).put a { stale with prev := none, next := none }
  have run : insertIntoList m (some (a, stale)) none =
      some (some a, { m₁ with last := some a }) := by
    simp [insertIntoList, followerOf, setNextOf, setPrevOf, h.head, m₁]
  refine ⟨_, run, ⟨⟨?_, trivial⟩, by simp, rfl, rfl, ?_⟩, rfl⟩
  · exact Mem.view_put_self _ a _
  · intro b alive
    by_cases same : b = a
    · simp [same]
    · have dead : m₁.node b = none :=
        (Mem.node_put _ _ _ _).trans (by rw [if_neg same]; exact none_live b)
      change (m₁.node b).isSome at alive
      simp [dead] at alive

theorem Linked.initmem (h : Linked m xs) {strategy : Strategies} {base sz : Nat} {a : Addr}
    {stale : MemoryList} (run : initmem m strategy sz (some base) (some (a, stale)) = some m') :
    Linked m' [(a, ⟨base, sz, false⟩)] ∧ m'.myStrategy = strategy ∧ m'.mySize = sz ∧
      m'.myMemory = some base ∧ m'.lastAllocated = some base := by
  have set : Linked { m with myStrategy := strategy, mySize := sz } xs :=
    ⟨h.chain, h.distinct, h.head, h.last, h.live⟩
  obtain ⟨m₁, run₁, linked₁, same₁⟩ := set.clear
  have placed : Linked { m₁ with myMemory := some base } [] :=
    ⟨linked₁.chain, linked₁.distinct, linked₁.head, linked₁.last, linked₁.live⟩
  obtain ⟨m₂, run₂, linked₂, same₂⟩ := placed.insertFirst a stale
  have alone : Linked m₂ ([] ++ (a, extentOf stale) :: []) := linked₂
  obtain ⟨m₃, run₃, linked₃, same₃⟩ := alone.setData
    (fun n => { n with ptr := base, size := sz, alloc := .memFree }) (e := ⟨base, sz, false⟩) rfl
  simp only [Allocator.initmem, run₁, run₂, Option.bind_eq_bind, Option.bind_some] at run
  rw [run₃] at run
  simp only [Option.bind_some, Option.some.injEq] at run
  subst run
  simp only [Mem.globals, Prod.mk.injEq] at same₁ same₂ same₃
  refine ⟨linked₃.withLastAllocated _, ?_, ?_, ?_, rfl⟩
  · exact same₃.1.trans (same₂.1.trans same₁.1)
  · exact same₃.2.1.trans (same₂.2.1.trans same₁.2.1)
  · exact same₃.2.2.1.trans same₂.2.2.1

theorem Linked.step (h : Linked m xs) {c : Call} (s : Step m c m') :
    ∃ ys, Linked m' ys ∧ m'.settings = m.settings := by
  cases s with
  | @mymalloc _ r toUse _ _ _ sel obtains run =>
    cases toUse with
    | none =>
      simp only [useBlock, Option.some.injEq, Prod.mk.injEq] at run
      exact ⟨xs, run.2 ▸ h, run.2 ▸ rfl⟩
    | some a =>
      obtain ⟨x, hx, rfl, -⟩ := sel.fits h
      obtain ⟨pre, post, rfl⟩ := List.append_of_mem hx
      rcases useBlock_chain h r fun c hc => (obtains c hc).1 with
        ⟨-, failed⟩ | ⟨m₁, rest, done, linked, -, same, -⟩
      · rw [failed] at run
        simp only [Option.some.injEq, Prod.mk.injEq] at run
        exact ⟨_, run.2 ▸ h, run.2 ▸ rfl⟩
      · rw [done] at run
        simp only [Option.some.injEq, Prod.mk.injEq] at run
        exact ⟨_, run.2 ▸ linked, run.2 ▸ same⟩
  | myfree run =>
    rw [myfree_chain h] at run
    split at run
    · simp only [Option.some.injEq] at run
      exact ⟨xs, run ▸ h, run ▸ rfl⟩
    · rename_i x found
      split at run
      · obtain ⟨pre, post, rfl⟩ := List.append_of_mem (List.mem_of_find?_eq_some found)
        obtain ⟨m₁, ys, done, linked, -, same, -⟩ := release_chain h
        obtain rfl : m₁ = m' := Option.some.inj (done.symm.trans run)
        exact ⟨ys, linked, same⟩
      · simp only [Option.some.injEq] at run
        exact ⟨xs, run ▸ h, run ▸ rfl⟩

theorem Reached.linked (h : Reached m) : ∃ xs, Linked m xs := by
  induction h with
  | start =>
      exact ⟨[], trivial, .nil, rfl, rfl, fun a alive => by simp [Mem.node, Mem.start] at alive⟩
  | initmem _ init ih =>
    obtain ⟨xs, linked⟩ := ih
    obtain ⟨-, base, a, stale, -, run⟩ := init
    exact ⟨_, (linked.initmem run).1⟩
  | call _ s ih =>
    obtain ⟨xs, linked⟩ := ih
    obtain ⟨ys, linked', -⟩ := linked.step s
    exact ⟨ys, linked'⟩

theorem Initialises.pool {strategy : Strategies} (prior : Reached m)
    (init : Initialises m strategy sz m') :
    ∃ base a, Pool m' base sz [(a, ⟨base, sz, false⟩)] ∧ m'.myStrategy = strategy := by
  obtain ⟨xs, linked⟩ := prior.linked
  obtain ⟨pos, base, a, stale, -, run⟩ := init
  obtain ⟨one, strategy, size, memory, -⟩ := linked.initmem run
  exact ⟨base, a, ⟨one, ⟨rfl, pos, rfl⟩, .singleton _, memory, size⟩, strategy⟩

/-- `m` is reached from `initmem` with the pool size `sz` by these calls. -/
structure Session (strategy : Strategies) (sz : Nat) (calls : List Call) (m : Mem) : Prop where
  began : ∃ prior m₀, Reached prior ∧ Initialises prior strategy sz m₀ ∧ Run Step m₀ calls m

theorem Session.start {strategy : Strategies} {base a : Addr} {stale : MemoryList} (pos : 1 ≤ sz)
    (away : ¬ (base ≤ a ∧ a < base + sz))
    (run : Allocator.initmem Mem.start strategy sz (some base) (some (a, stale)) = some m) :
    Session strategy sz [] m :=
  ⟨Mem.start, m, .start, ⟨pos, base, a, stale, away, run⟩, .nil⟩

theorem Session.snoc {strategy : Strategies} {calls : List Call} {c : Call}
    (h : Session strategy sz calls m) (s : Step m c m') :
    Session strategy sz (calls ++ [c]) m' := by
  obtain ⟨prior, m₀, reached, init, run⟩ := h.began
  exact ⟨prior, m₀, reached, init, run.snoc s⟩

theorem Session.reached {strategy : Strategies} {calls : List Call}
    (h : Session strategy sz calls m) :
    Reached m := by
  obtain ⟨prior, m₀, reached, init, run⟩ := h.began
  exact run.invariant Reached (.initmem reached init) fun _ _ _ before step => .call before step

theorem Session.pool {strategy : Strategies} {calls : List Call} (h : Session strategy sz calls m) :
    ∃ base xs, Pool m base sz xs ∧ (usedOf xs).Perm (liveOf calls) := by
  obtain ⟨prior, m₀, reached, init, run⟩ := h.began
  obtain ⟨base, a, pool, -⟩ := init.pool reached
  obtain ⟨xs, pool', perm⟩ := pool.run (by simp [usedOf]) run
  exact ⟨base, xs, pool', perm⟩

theorem Session.strategy {strategy : Strategies} {calls : List Call}
    (h : Session strategy sz calls m) :
    m.myStrategy = strategy := by
  obtain ⟨prior, m₀, reached, init, run⟩ := h.began
  obtain ⟨base, a, pool, set⟩ := init.pool reached
  refine (run.history (fun _ m => (∃ ys, Linked m ys) ∧ m.myStrategy = strategy)
    ⟨⟨_, pool.linked⟩, set⟩ ?_).2
  rintro calls m₁ c m₂ - ⟨⟨ys, linked⟩, kept⟩ s
  obtain ⟨zs, linked', same⟩ := linked.step s
  exact ⟨⟨zs, linked'⟩, (Prod.mk.inj same).1.trans kept⟩

/-- The calls of the program itself, its own Next search included, make sessions. -/
theorem Session.mymalloc {strategy : Strategies} {calls : List Call} {r : Nat} {new : NewNode}
    {result : Option Addr} (h : Session strategy sz calls m) (pos : 1 ≤ r) (obtains : Obtains m new)
    (run : Allocator.mymalloc m r new = some (result, m')) :
    Session strategy sz (calls ++ [.mymalloc r result]) m' := by
  obtain ⟨base, xs, pool, -⟩ := h.pool
  exact h.snoc (mymalloc_step pool.linked pos obtains run)

def tenBytes : Mem :=
  ⟨.first, 10, some 100, some 1, some 1, some 100,
    (∅ : AList fun _ : Addr => MemoryList).insert 1 ⟨none, none, 10, .memFree, 100⟩⟩

def fourTaken : Mem :=
  ⟨.first, 10, some 100, some 1, some 2, some 1,
    ((∅ : AList fun _ : Addr => MemoryList).insert 2 ⟨some 1, none, 6, .memFree, 104⟩).insert 1
      ⟨none, some 2, 4, .memUsed, 100⟩⟩

def blank : MemoryList := ⟨none, none, 0, .memFree, 0⟩

theorem session_tenBytes : Session .first 10 [] tenBytes := by
  have run : Allocator.initmem Mem.start .first 10 (some 100) (some (1, blank)) = some tenBytes :=
    rfl
  exact .start (by decide) (by decide) run

theorem session_fourTaken : Session .first 10 [.mymalloc 4 (some 100)] fourTaken := by
  have run : Allocator.mymalloc tenBytes 4 (some (2, blank)) = some (some 100, fourTaken) := rfl
  refine session_tenBytes.mymalloc (by decide) ?_ run
  intro c hc
  obtain rfl : _ = c := Option.some.inj hc
  exact ⟨rfl, by simp [tenBytes]⟩

end LastPicked.Allocator
