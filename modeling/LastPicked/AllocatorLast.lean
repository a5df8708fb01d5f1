import LastPicked.AllocatorInit

/-! Where `last_allocated` points. `initmem` stores the address of the pool in
it, which is no node, so that the first search of Next reads the bytes of the
pool as if they were one. From the first block that is handed out on, every call
leaves it on a node of the list. -/

namespace LastPicked.Allocator
open CIntegers LabelledRuns LinkedChain GapTiling

variable {m m' : Mem} {xs : List Cell} {base sz : Nat}

def LastListed (m : Mem) : Prop := ∃ a, m.lastAllocated = some a ∧ InList m a

/-- The pointers that the Next search follows, from `last_allocated` on. -/
inductive NextMeets (m : Mem) : Addr → Prop
  | start {a : Addr} : m.lastAllocated = some a → NextMeets m a
  | step {a b : Addr} {n : MemoryList} :
      NextMeets m a → m.node a = some n → (n.next <|> m.head) = some b → NextMeets m b

theorem LastListed.meets (h : LastListed m) {a : Addr} (met : NextMeets m a) : InList m a := by
  induction met with
  | start here =>
    obtain ⟨b, last, listed⟩ := h
    obtain rfl := Option.some.inj (last.symm.trans here)
    exact listed
  | @step a b n _ here follows listed =>
    cases next : n.next with
    | none => exact .head (by simpa [next] using follows)
    | some c =>
      obtain rfl : c = b := by simpa [next] using follows
      exact .next listed here next

theorem Linked.lastListed (h : Linked m xs) {c : Cell} (hc : c ∈ xs)
    (last : m.lastAllocated = some c.1) : LastListed m :=
  ⟨c.1, last, h.inList_iff.mpr (List.mem_map_of_mem hc)⟩

theorem Linked.useBlock_last (h : Linked m xs) {r : Nat} {toUse result : Option Addr}
    {new : NewNode} (sel : Selects m r toUse) (obtains : Obtains m new)
    (run : useBlock m r new toUse = some (result, m')) :
    result = none ∧ m' = m ∨ (∃ p, result = some p) ∧ LastListed m' := by
  cases toUse with
  | none =>
    simp only [Allocator.useBlock, Option.some.injEq, Prod.mk.injEq] at run
    exact .inl ⟨run.1.symm, run.2.symm⟩
  | some a =>
    obtain ⟨x, hx, rfl, -⟩ := sel.fits h
    obtain ⟨pre, post, rfl⟩ := List.append_of_mem hx
    rcases useBlock_chain h r fun c hc => (obtains c hc).1 with
      ⟨-, failed⟩ | ⟨m₁, rest, done, linked, -, -, last⟩
    · rw [failed] at run
      simp only [Option.some.injEq, Prod.mk.injEq] at run
      exact .inl ⟨run.1.symm, run.2.symm⟩
    · rw [done] at run
      simp only [Option.some.injEq, Prod.mk.injEq] at run
      obtain ⟨rfl, rfl⟩ := run
      exact .inr ⟨⟨_, rfl⟩, linked.lastListed (List.mem_append_right _ List.mem_cons_self) last⟩

theorem Linked.myfree_last (h : Linked m xs) {p : Addr} (run : myfree m p = some m') :
    m' = m ∨ LastListed m' := by
  rw [myfree_chain h] at run
  split at run
  case h_1 => exact .inl (Option.some.inj run).symm
  case h_2 x found =>
    split at run
    case isTrue =>
      obtain ⟨pre, post, rfl⟩ := List.append_of_mem (List.mem_of_find?_eq_some found)
      obtain ⟨m₁, ys, done, linked, -, -, c, hc, last⟩ := release_chain h
      obtain rfl : m₁ = m' := Option.some.inj (done.symm.trans run)
      exact .inr (linked.lastListed hc last)
    case isFalse => exact .inl (Option.some.inj run).symm

/-- A call leaves everything as it is, or leaves `last_allocated` on a node. -/
theorem Linked.last_step (h : Linked m xs) {c : Call} (s : Step m c m') :
    m' = m ∨ LastListed m' := by
  cases s with
  | mymalloc _ sel obtains run =>
    rcases h.useBlock_last sel obtains run with ⟨-, same⟩ | ⟨-, last⟩
    · exact .inl same
    · exact .inr last
  | myfree run => exact h.myfree_last run

/-- A call as the program makes it, with what the bytes of the pool read as and
what the system `malloc` answers. -/
inductive Input
  | mymalloc (requested : Nat) (pool : MemoryList) (new : NewNode)
  | myfree (block : Addr)

inductive Performs : Mem → Input → Mem → Prop
  | mymalloc {m m' : Mem} {requested : Nat} {pool : MemoryList} {new : NewNode}
      {result : Option Addr} :
      1 ≤ requested → Obtains m new → mymallocOver m pool requested new = some (result, m') →
      Performs m (.mymalloc requested pool new) m'
  | myfree {m m' : Mem} {block : Addr} :
      Allocator.myfree m block = some m' → Performs m (.myfree block) m'

/-- In `m`, with one free block that fills the pool, the search finds it: it is
large enough, Best does not start from an `int` that has wrapped to less than its
size, and the pointer that Next reads out of the pool is NULL or its node. -/
def Finds (m : Mem) (pool : MemoryList) (requested : Nat) : Prop :=
  requested ≤ m.mySize ∧
    (m.myStrategy = .best → m.mySize < toSize (toInt ((m.mySize + 1) % 2 ^ 64 : Nat))) ∧
    (m.myStrategy = .next → pool.next = none ∨ pool.next = m.head)

def Input.Serves (m : Mem) : Input → Prop
  | .mymalloc requested pool new => Finds m pool requested ∧ (requested = m.mySize ∨ new ≠ none)
  | .myfree _ => False

section
variable {pool : MemoryList} {r : Nat} {new : NewNode}

theorem Mem.node_reading (a : Addr) :
    (m.reading pool).node a = if m.node a = none ∧ m.myMemory = some a then some pool
      else m.node a := by
  unfold reading
  split
  case h_1 none => simp [none]
  case h_2 base here =>
    split
    case isTrue live =>
      by_cases same : a = base
      · subst same
        rw [if_neg (fun both => by simp [both.1] at live)]
      · rw [if_neg (fun both => same (Option.some.inj (both.2.symm.trans here)))]
    case isFalse dead =>
      rw [Mem.node_put]
      by_cases same : a = base
      · subst same
        rw [if_pos rfl, if_pos ⟨by simpa using dead, here⟩]
      · rw [if_neg same, if_neg (fun both => same (Option.some.inj (both.2.symm.trans here)))]

theorem Mem.node_reading_live {a : Addr} {n : MemoryList} (live : m.node a = some n) :
    (m.reading pool).node a = some n := by
  rw [node_reading, if_neg (fun both => by simp [live] at both), live]

theorem Mem.reading_globals :
    (m.reading pool).globals = m.globals ∧ (m.reading pool).head = m.head := by
  unfold reading
  split
  case h_1 => exact ⟨rfl, rfl⟩
  case h_2 => split <;> exact ⟨rfl, rfl⟩

theorem Linked.reading_chain (h : Linked m xs) : Chain (m.reading pool).view none xs none := by
  refine h.chain.frame fun x hx => Mem.view_of_node ?_
  obtain ⟨q, n, shown⟩ := h.chain.mem hx
  have live := Mem.view_eq_some.mp shown
  rw [live, Mem.node_reading_live live]

theorem Linked.reading_fuel (h : Linked m xs) : xs.length ≤ (m.reading pool).fuel :=
  length_le_heap _ h.distinct fun x hx => by
    obtain ⟨q, n, shown⟩ := h.reading_chain.mem hx
    exact Option.isSome_iff_exists.mpr ⟨_, Mem.view_eq_some.mp shown⟩

theorem Linked.search_reading (h : Linked m xs) (other : m.myStrategy ≠ .next) :
    search (m.reading pool) r = search m r := by
  obtain ⟨globals, head⟩ := @Mem.reading_globals m pool
  simp only [Mem.globals, Prod.mk.injEq] at globals
  unfold search
  rw [globals.1, globals.2.1, head, h.head]
  cases set : m.myStrategy with
  | notSet => rfl
  | best =>
      rw [bestSearch_chain h.reading_chain h.reading_fuel,
        bestSearch_chain h.chain h.length_le_fuel]
  | worst =>
      rw [worstSearch_chain h.reading_chain h.reading_fuel,
        worstSearch_chain h.chain h.length_le_fuel]
  | first =>
      rw [firstSearch_chain h.reading_chain h.reading_fuel,
        firstSearch_chain h.chain h.length_le_fuel]
  | next => exact absurd set other

/-- A search that is led to a node ends where a search may end. -/
theorem Linked.mymallocOver_step (h : Linked m xs) {result : Option Addr} (pos : 1 ≤ r)
    (obtains : Obtains m new) (run : mymallocOver m pool r new = some (result, m')) :
    Step m (.mymalloc r result) m' := by
  obtain ⟨toUse, found, run⟩ := Option.bind_eq_some_iff.mp run
  refine .mymalloc pos ?_ obtains run
  by_cases strategy : m.myStrategy = .next
  · cases toUse with
    | none => exact .nextNone strategy
    | some a =>
      obtain ⟨n, live, -⟩ := Option.bind_eq_some_iff.mp run
      have same := (@Mem.reading_globals m pool).1
      simp only [Mem.globals, Prod.mk.injEq] at same
      unfold search at found
      rw [same.1, strategy] at found
      obtain ⟨met, here, fits⟩ := nextSearch_suitable found
      obtain rfl := Option.some.inj (here.symm.trans (Mem.node_reading_live live))
      exact .nextBlock strategy (h.inList_iff.mpr (h.live a (by simp [live]))) live fits
  · rw [h.search_reading strategy] at found
    exact .searched strategy found

theorem Linked.performs_step (h : Linked m xs) {input : Input} (step : Performs m input m') :
    ∃ c, Step m c m' := by
  cases step with
  | mymalloc pos obtains run => exact ⟨_, h.mymallocOver_step pos obtains run⟩
  | myfree run => exact ⟨_, .myfree run⟩

structure Fresh (m : Mem) (base a : Addr) : Prop where
  linked : Linked m [(a, ⟨base, m.mySize, false⟩)]
  away : a ≠ base
  memory : m.myMemory = some base
  last : m.lastAllocated = some base
  pos : 1 ≤ m.mySize

theorem Initialises.fresh {strategy : Strategies} (prior : Reached m)
    (init : Initialises m strategy sz m') : ∃ base a, Fresh m' base a := by
  obtain ⟨xs, linked⟩ := prior.linked
  obtain ⟨pos, base, a, stale, outside, run⟩ := init
  obtain ⟨one, -, rfl, memory, last⟩ := linked.initmem run
  exact ⟨base, a, one, fun same =>
    outside ⟨Nat.le_of_eq same.symm, same ▸ Nat.lt_add_of_pos_right pos⟩, memory, last, pos⟩

namespace Fresh
variable {a : Addr} (h : Fresh m base a)

include h

theorem node : m.node a = some (cell none none ⟨base, m.mySize, false⟩) :=
  @Linked.node_at m [] [] (a, _) h.linked

theorem node_other {b : Addr} (other : b ≠ a) : m.node b = none := by
  by_contra live
  exact other (by simpa using h.linked.live b (Option.isSome_iff_ne_none.mpr live))

theorem reading_base : (m.reading pool).node base = some pool := by
  rw [Mem.node_reading, if_pos ⟨h.node_other h.away.symm, h.memory⟩]

theorem reading_other {b : Addr} (other : b ≠ a) (outside : b ≠ base) :
    (m.reading pool).node b = none := by
  have elsewhere : ¬(m.node b = none ∧ m.myMemory = some b) := fun both =>
    outside (Option.some.inj (both.2.symm.trans h.memory))
  rw [Mem.node_reading, if_neg elsewhere, h.node_other other]

theorem not_listed : ¬LastListed m := by
  rintro ⟨b, last, listed⟩
  obtain rfl := Option.some.inj (h.last.symm.trans last)
  have here : base = a := by simpa using h.linked.inList_iff.mp listed
  exact h.away here.symm

theorem nextSearch_small (small : m.mySize < r) (fuel : Nat) :
    nextSearch (m.reading pool) r fuel (some a) = none := by
  obtain ⟨globals, head⟩ := @Mem.reading_globals m pool
  simp only [Mem.globals, Prod.mk.injEq] at globals
  have live := @Mem.node_reading_live m pool a _ h.node
  have other : ¬some a = m.lastAllocated := fun same => h.away (Option.some.inj (same.trans h.last))
  have short : ¬suitable (cell none none ⟨base, m.mySize, false⟩) r = true := by
    rw [suitable_cell]
    exact fun fits => Nat.not_lt.mpr fits.2 small
  induction fuel with
  | zero => rfl
  | succ fuel ih =>
    have around : ((none : Option Addr) <|> m.head) = some a := h.linked.head
    simp only [nextSearch, live, head, around, globals.2.2.2, Option.bind_eq_bind, Option.bind_some,
      cell_next, if_neg other, if_neg short, ih]

theorem search_next (strategy : m.myStrategy = .next) {toUse : Option Addr}
    (found : search (m.reading pool) r = some toUse) :
    toUse = some a ∧ Finds m pool r ∨ toUse = none ∧ ¬Finds m pool r := by
  obtain ⟨globals, head⟩ := @Mem.reading_globals m pool
  simp only [Mem.globals, Prod.mk.injEq] at globals
  have first : m.head = some a := h.linked.head
  have finds : Finds m pool r ↔ r ≤ m.mySize ∧ (pool.next = none ∨ pool.next = some a) := by
    simp [Finds, strategy, first]
  have live := @Mem.node_reading_live m pool a _ h.node
  obtain ⟨fuel, enough⟩ := Nat.exists_eq_succ_of_ne_zero
    (Nat.ne_of_gt (Nat.lt_of_lt_of_le Nat.zero_lt_one (@Linked.reading_fuel m _ pool h.linked)))
  unfold search at found
  rw [globals.1, strategy, enough, nextSearch, globals.2.2.2, h.last] at found
  simp only [Option.bind_eq_bind, Option.bind_some, h.reading_base, head, first] at found
  obtain ⟨b, follows, found⟩ := Option.bind_eq_some_iff.mp found
  obtain ⟨met, here, found⟩ := Option.bind_eq_some_iff.mp found
  have leads : pool.next = none ∧ b = a ∨ pool.next = some b := by
    cases next : pool.next with
    | none => exact .inl ⟨rfl, by simpa [next] using follows.symm⟩
    | some c => exact .inr (by simpa [next] using follows)
  rw [finds]
  by_cases back : b = base
  · -- the bytes lead back to the pool, where the search gives up
    subst back
    rw [if_pos rfl] at found
    refine .inr ⟨(Option.some.inj found).symm, fun finds => ?_⟩
    rcases leads with ⟨-, same⟩ | self
    · exact h.away same.symm
    · rcases finds.2 with null | node
      · rw [null] at self
        cases self
      · exact h.away (Option.some.inj (node.symm.trans self))
  · obtain rfl : b = a := by
      by_contra other
      rw [h.reading_other other back] at here
      cases here
    obtain rfl := Option.some.inj (live.symm.trans here)
    rw [if_neg (fun same => back (Option.some.inj same))] at found
    by_cases large : r ≤ m.mySize
    · rw [if_pos ((suitable_cell _ _ _ _).mpr ⟨rfl, large⟩)] at found
      exact .inl ⟨(Option.some.inj found).symm, large, leads.imp_left And.left⟩
    · rw [if_neg (fun fits => large ((suitable_cell _ _ _ _).mp fits).2),
        h.nextSearch_small (Nat.not_le.mp large)] at found
      cases found

theorem search_other (strategy : m.myStrategy ≠ .next) {toUse : Option Addr}
    (found : search (m.reading pool) r = some toUse) :
    toUse = some a ∧ Finds m pool r ∨ toUse = none ∧ ¬Finds m pool r := by
  rw [h.linked.search_reading strategy] at found
  have one : [(a, (⟨base, m.mySize, false⟩ : Extent))].length ≤ m.fuel := h.linked.length_le_fuel
  have finds : Finds m pool r ↔ r ≤ m.mySize ∧
      (m.myStrategy = .best → m.mySize < toSize (toInt ((m.mySize + 1) % 2 ^ 64 : Nat))) := by
    simp [Finds, strategy]
  rw [finds]
  unfold search at found
  rw [h.linked.head] at found
  cases set : m.myStrategy with
  | notSet =>
    rw [set] at found
    cases found
  | best =>
    rw [set] at found
    have searched := Option.some.inj ((bestSearch_chain h.linked.chain one _ _).symm.trans found)
    rw [scan, scan] at searched
    split at searched
    case isTrue fits =>
      simp only [Bool.and_eq_true, decide_eq_true_eq] at fits
      exact .inl ⟨searched.symm, fits.1.2, fun _ => fits.2⟩
    case isFalse misses =>
      simp only [Bool.and_eq_true, decide_eq_true_eq] at misses
      exact .inr ⟨searched.symm, fun finds => misses ⟨⟨rfl, finds.1⟩, finds.2 rfl⟩⟩
  | worst =>
    rw [set] at found
    have searched := Option.some.inj ((worstSearch_chain h.linked.chain one _ _).symm.trans found)
    rw [scan, scan] at searched
    split at searched
    case isTrue fits =>
      simp only [Bool.and_eq_true, decide_eq_true_eq] at fits
      exact .inl ⟨searched.symm, fits.1.2, fun other => absurd other (by decide)⟩
    case isFalse misses =>
      simp only [Bool.and_eq_true, decide_eq_true_eq] at misses
      exact .inr ⟨searched.symm, fun finds => misses ⟨⟨rfl, finds.1⟩, h.pos⟩⟩
  | first =>
    rw [set] at found
    have searched := Option.some.inj ((firstSearch_chain h.linked.chain one).symm.trans found)
    by_cases large : r ≤ m.mySize
    · exact .inl ⟨by rw [← searched]; simp [large], large, fun other => absurd other (by decide)⟩
    · exact .inr ⟨by rw [← searched]; simp [large], fun finds => large finds.1⟩
  | next => exact absurd set strategy

theorem search_finds {toUse : Option Addr} (found : search (m.reading pool) r = some toUse) :
    toUse = some a ∧ Finds m pool r ∨ toUse = none ∧ ¬Finds m pool r := by
  by_cases strategy : m.myStrategy = .next
  · exact h.search_next strategy found
  · exact h.search_other strategy found

theorem useBlock_cases {result : Option Addr} (obtains : Obtains m new)
    (run : useBlock m r new (some a) = some (result, m')) :
    m' = m ∧ r < m.mySize ∧ new = none ∨ LastListed m' ∧ ¬(r < m.mySize ∧ new = none) := by
  by_cases larger : r < m.mySize
  · rcases @useBlock_chain m [] [] (a, _) h.linked r new fun c hc => (obtains c hc).1 with
      ⟨rfl, failed⟩ | ⟨m₁, rest, done, linked, -, -, last⟩
    · exact .inl ⟨(Prod.mk.inj (Option.some.inj (run.symm.trans failed))).2, larger, rfl⟩
    · cases new with
      | none =>
        rw [useBlock, h.node, Option.bind_eq_bind, Option.bind_some, cell_size,
          if_pos larger] at run
        exact .inl ⟨(Prod.mk.inj (Option.some.inj run)).2.symm, larger, rfl⟩
      | some fresh =>
        obtain ⟨-, same⟩ := Prod.mk.inj (Option.some.inj (done.symm.trans run))
        exact .inr ⟨same ▸ linked.lastListed List.mem_cons_self last, fun both =>
          Option.some_ne_none _ both.2⟩
  · obtain ⟨m₁, done, linked, -, last⟩ := @markUsed_chain m [] [] (a, _) h.linked r
    rw [useBlock, h.node, Option.bind_eq_bind, Option.bind_some, cell_size, if_neg larger] at run
    obtain ⟨-, same⟩ := Prod.mk.inj (Option.some.inj (done.symm.trans run))
    exact .inr ⟨same ▸ linked.lastListed List.mem_cons_self last, fun both => larger both.1⟩

theorem performs {input : Input} (step : Performs m input m') :
    m' = m ∧ ¬input.Serves m ∨ input.Serves m ∧ LastListed m' := by
  cases step with
  | @myfree _ block run =>
    rw [myfree_chain h.linked] at run
    refine .inl ⟨?_, id⟩
    by_cases here : base = block
    · simpa [here] using run.symm
    · simpa [here] using run.symm
  | @mymalloc _ r pool new result pos obtains run =>
    obtain ⟨toUse, found, run⟩ := Option.bind_eq_some_iff.mp run
    rcases h.search_finds found with ⟨rfl, finds⟩ | ⟨rfl, misses⟩
    · rcases h.useBlock_cases obtains run with ⟨same, smaller, none⟩ | ⟨last, obtained⟩
      · refine .inl ⟨same, fun serves => ?_⟩
        rcases serves.2 with whole | given
        · exact absurd whole (Nat.ne_of_lt smaller)
        · exact given none
      · refine .inr ⟨⟨finds, ?_⟩, last⟩
        by_cases whole : r = m.mySize
        · exact .inl whole
        · exact .inr fun none => obtained ⟨Nat.lt_of_le_of_ne finds.1 whole, none⟩
    · exact .inl ⟨(Prod.mk.inj (Option.some.inj run)).2.symm, fun serves => misses serves.1⟩

end Fresh

end

/-- The calls since `initmem` either changed nothing, none of them having got
memory, or left `last_allocated` on a node. -/
theorem last_run {m₀ : Mem} {inputs : List Input} {strategy : Strategies} {prior : Mem}
    (reached : Reached prior) (init : Initialises prior strategy sz m₀)
    (run : Run Performs m₀ inputs m) :
    m = m₀ ∧ (∀ input ∈ inputs, ¬input.Serves m₀) ∨
      (∃ input ∈ inputs, input.Serves m₀) ∧ LastListed m := by
  obtain ⟨base, a, fresh⟩ := init.fresh reached
  refine (run.history (fun inputs m =>
    (∃ xs, Linked m xs) ∧ (m = m₀ ∧ (∀ input ∈ inputs, ¬input.Serves m₀) ∨
    (∃ input ∈ inputs, input.Serves m₀) ∧
    LastListed m)) ⟨⟨_, fresh.linked⟩, .inl ⟨rfl, by simp⟩⟩ ?_).2
  rintro inputs t input u - ⟨⟨xs, linked⟩, sofar⟩ step
  obtain ⟨c, known⟩ := linked.performs_step step
  obtain ⟨ys, linked', -⟩ := linked.step known
  refine ⟨⟨ys, linked'⟩, ?_⟩
  rcases sofar with ⟨rfl, idle⟩ | ⟨⟨earlier, there, serves⟩, last⟩
  · rcases fresh.performs step with ⟨rfl, fails⟩ | ⟨serves, last⟩
    · refine .inl ⟨rfl, fun input' there => ?_⟩
      rcases List.mem_append.mp there with before | here
      · exact idle input' before
      · exact List.mem_singleton.mp here ▸ fails
    · exact .inr ⟨⟨input, by simp, serves⟩, last⟩
  · refine .inr ⟨⟨earlier, List.mem_append_left _ there, serves⟩, ?_⟩
    rcases linked.last_step known with rfl | last'
    · exact last
    · exact last'

/-- However often `initmem` was called before: `last_allocated`, and with it every
pointer the Next search follows, is a node of the list exactly when some call since
the latest `initmem` was one that gets memory from the fresh pool. -/
theorem run_lastListed {m₀ : Mem} {inputs : List Input} {strategy : Strategies} {prior : Mem}
    (reached : Reached prior) (init : Initialises prior strategy sz m₀)
    (run : Run Performs m₀ inputs m) :
    (LastListed m ∧ ∀ a, NextMeets m a → InList m a) ↔ ∃ input ∈ inputs, input.Serves m₀ := by
  obtain ⟨base, a, fresh⟩ := init.fresh reached
  rcases last_run reached init run with ⟨rfl, idle⟩ | ⟨served, last⟩
  · exact ⟨fun ⟨last, _⟩ => absurd last fresh.not_listed,
      fun ⟨input, there, serves⟩ => absurd serves (idle input there)⟩
  · exact ⟨fun _ => served, fun _ => ⟨last, fun _ => last.meets⟩⟩

theorem initialises_tenBytes : Initialises Mem.start .first 10 tenBytes :=
  ⟨by decide, 100, 1, blank, by decide, rfl⟩

theorem initialises_tenNext :
    Initialises Mem.start .next 10 { tenBytes with myStrategy := .next } :=
  ⟨by decide, 100, 1, blank, by decide, rfl⟩

/-- Under Next, on a pool whose bytes are all zero. -/
theorem run_lastListed_fourTaken : LastListed { fourTaken with myStrategy := .next } := by
  have obtains : Obtains { tenBytes with myStrategy := .next } (some (2, blank)) := by
    intro c hc
    obtain rfl : _ = c := Option.some.inj hc
    exact ⟨rfl, by simp [tenBytes]⟩
  have call : Performs { tenBytes with myStrategy := .next } (.mymalloc 4 blank (some (2, blank)))
      { fourTaken with myStrategy := .next } :=
        @Performs.mymalloc _ _ 4 blank _ (some 100) (by decide) obtains rfl
  have serves :
      Input.Serves { tenBytes with myStrategy := .next } (.mymalloc 4 blank (some (2, blank))) :=
    ⟨⟨by decide, fun best => absurd best (by decide), fun _ => .inl rfl⟩,
      .inr (Option.some_ne_none _)⟩
  exact ((run_lastListed .start initialises_tenNext (.single call)).mpr ⟨_,
    List.mem_singleton_self _, serves⟩).1

theorem lastListed_lost :
    ¬∀ (prior m₀ m : Mem) (strategy : Strategies) (sz : Nat) (inputs : List Input),
      Reached prior → Initialises prior strategy sz m₀ → Run Performs m₀ inputs m →
        LastListed m := by
  intro kept
  obtain ⟨base, a, fresh⟩ := initialises_tenBytes.fresh .start
  exact fresh.not_listed (kept _ _ _ _ _ [] .start initialises_tenBytes .nil)

end LastPicked.Allocator
