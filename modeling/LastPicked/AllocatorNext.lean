import LastPicked.AllocatorFits
import LastPicked.AllocatorLast
import LastPicked.RotatingCursor

/-! Next fit. The search goes round the list from `last_allocated`, but it
gives up when it is back there even when that block is suitable. -/

namespace LastPicked.Allocator
open CIntegers LabelledRuns LinkedChain GapTiling

variable {m m' : Mem} {xs : List Cell} {base sz r : Nat}

theorem nodesOf_node {p : Option Addr} (chain : Chain m.view p xs none) :
    ∀ y ∈ nodesOf p xs, m.node y.1 = some y.2 := by
  induction xs generalizing p with
  | nil => simp [nodesOf]
  | cons x xs ih =>
    intro y hy
    rcases List.mem_cons.mp hy with rfl | hy
    · exact Mem.view_eq_some.mp chain.1
    · exact ih chain.2 y hy

/-- The nodes in the order in which Next meets them: the first one is behind
`last`, and `last` itself comes at the end. -/
def roundFrom (last : Addr) (nodes : List (Addr × MemoryList)) : List (Addr × MemoryList) :=
  nodes.rotate ((nodes.map Prod.fst).idxOf last + 1)

theorem roundFrom_split {pre post : List (Addr × MemoryList)} {x : Addr × MemoryList}
    (distinct : ((pre ++ x :: post).map Prod.fst).Nodup) :
    roundFrom x.1 (pre ++ x :: post) = post ++ pre ++ [x] := by
  have place := RotatingCursor.idxOf_split distinct (List.map_append ..)
  have upto : pre.length + 1 = (pre ++ [x]).length := by simp
  rw [roundFrom, place, List.length_map, List.append_cons, upto, List.rotate_append_length_eq,
    List.append_assoc]

theorem nextSearch_walk {ys : List (Addr × MemoryList)} {a x : Addr × MemoryList}
    (here : ∀ y ∈ a :: (ys ++ [x]), m.node y.1 = some y.2)
    (links : (a :: (ys ++ [x])).IsChain fun y z => (y.2.next <|> m.head) = some z.1)
    (stop : m.lastAllocated = some x.1) (others : ∀ y ∈ ys, y.1 ≠ x.1) {fuel : Nat}
    (enough : ys.length < fuel) :
    nextSearch m r fuel (some a.1) = some ((ys.find? fun y => suitable y.2 r).map Prod.fst) := by
  induction ys generalizing a fuel with
  | nil =>
    obtain ⟨fuel, rfl⟩ : ∃ k, fuel = k + 1 := ⟨fuel - 1, by omega⟩
    have follows := (List.isChain_cons_cons.mp links).1
    simp only [nextSearch, here a (by simp), here x (by simp), follows, stop, Option.bind_eq_bind,
      Option.bind_some, if_true]
    rfl
  | cons y ys ih =>
    obtain ⟨fuel, rfl⟩ : ∃ k, fuel = k + 1 := ⟨fuel - 1, by omega⟩
    obtain ⟨follows, later⟩ := List.isChain_cons_cons.mp links
    have rest := ih (fun z hz => here z (List.mem_cons_of_mem _ hz)) later
      (fun z hz => others z (List.mem_cons_of_mem _ hz)) (Nat.lt_of_succ_lt_succ enough)
    have other : y.1 ≠ x.1 := others y List.mem_cons_self
    simp only [nextSearch, here a (by simp), here y (by simp), follows, stop, Option.bind_eq_bind,
      Option.bind_some, Option.some.injEq, other, if_false, List.find?_cons]
    cases suitable y.2 r <;> simp [rest]

theorem Linked.round_links (h : Linked m xs) {pre post : List (Addr × MemoryList)}
    {x : Addr × MemoryList} (split : nodesOf none xs = pre ++ x :: post) :
    (x :: (post ++ pre ++ [x])).IsChain fun y z => (y.2.next <|> m.head) = some z.1 := by
  have links : (pre ++ x :: post).IsChain fun y z => (y.2.next <|> m.head) = some z.1 := by
    rw [← split]
    refine (nodesOf_links none xs).imp fun y z link => ?_
    simp [link.1]
  have around := links
  rw [List.append_cons] at links
  obtain ⟨front, -, -⟩ := List.isChain_append.mp links
  obtain ⟨-, back, -⟩ := List.isChain_append.mp around
  rw [List.append_assoc, ← List.cons_append]
  refine List.isChain_append.mpr ⟨back, front, fun y hy z hz => ?_⟩
  have ends : y.2.next = none := by
    refine nodesOf_last none xs y ?_
    rw [split, List.getLast?_append_of_ne_nil _ (List.cons_ne_nil _ _)]
    exact hy
  have starts : some z.1 = m.head := by
    rw [h.head]
    refine (nodesOf_head none xs z ?_).1
    rw [split, List.append_cons, List.head?_append_of_ne_nil _ (by simp)]
    exact hz
  simp [ends, starts]

/-- With `last_allocated` on a node the search ends, on the first suitable block
of the round that is not the one it started from. -/
theorem Linked.search_next (h : Linked m xs) (strategy : m.myStrategy = .next)
    {pre post : List (Addr × MemoryList)} {x : Addr × MemoryList}
    (split : nodesOf none xs = pre ++ x :: post) (last : m.lastAllocated = some x.1) :
    search m r = some (((post ++ pre).find? fun y => suitable y.2 r).map Prod.fst) := by
  have names := h.distinct
  rw [← nodesOf_names none, split] at names
  obtain ⟨notPre, notPost, -⟩ := distinct_around names
  have length : (post ++ pre).length < m.fuel := by
    have whole := congrArg List.length (nodesOf_names none xs)
    have enough := h.length_le_fuel
    rw [split] at whole
    simp only [List.map_append, List.map_cons, List.length_append, List.length_cons,
      List.length_map] at whole ⊢
    omega
  rw [search, strategy, last]
  refine nextSearch_walk (fun y hy => ?_) (h.round_links split) last (fun y hy same => ?_) length
  · refine nodesOf_node h.chain y ?_
    rw [split]
    simp only [List.mem_cons, List.mem_append, List.not_mem_nil, or_false] at hy ⊢
    tauto
  · rcases List.mem_append.mp hy with there | there
    · exact notPost y there same
    · exact notPre y there same

/-- The call takes the first suitable block of the round, the block it started
from being the last one it considers, and returns NULL only if there is none. -/
def ServesNext (m : Mem) (r : Nat) (new : NewNode) : Prop :=
  ∃ nodes last, m.blockList = some nodes ∧ m.lastAllocated = some last ∧
    match (roundFrom last nodes).find? fun y => suitable y.2 r with
    | none => mymalloc m r new = some (none, m)
    | some y => Takes m r new y

/-- The block `last_allocated` points at is suitable, and no other one is. -/
def OnlyLastFits (m : Mem) (r : Nat) : Prop :=
  ∃ nodes, m.blockList = some nodes ∧ ∃ x ∈ nodes, m.lastAllocated = some x.1 ∧
    suitable x.2 r = true ∧ ∀ y ∈ nodes, y.1 ≠ x.1 → suitable y.2 r = false

theorem Linked.takes_node (h : Linked m xs) {y : Addr × MemoryList} (hy : y ∈ nodesOf none xs)
    {fresh : Addr × MemoryList} (unused : m.node fresh.1 = none)
    (found : search m r = some (some y.1)) : Takes m r (some fresh) y := by
  obtain ⟨c, hc, name⟩ := List.mem_map.mp (nodesOf_names none xs ▸ List.mem_map_of_mem hy)
  obtain ⟨pre, post, rfl⟩ := List.append_of_mem hc
  obtain ⟨z, hz, same, -, takes⟩ := h.takes unused (name ▸ found)
  have data := nodesOf_node h.chain z hz
  rw [same, name, nodesOf_node h.chain y hy] at data
  obtain rfl : y = z := Prod.ext (name.symm.trans same.symm) (Option.some.inj data)
  exact takes

theorem Linked.onlyLastFits_iff (h : Linked m xs) {pre post : List (Addr × MemoryList)}
    {x : Addr × MemoryList} (split : nodesOf none xs = pre ++ x :: post)
    (last : m.lastAllocated = some x.1) :
    OnlyLastFits m r ↔ suitable x.2 r = true ∧ ∀ y ∈ post ++ pre, suitable y.2 r = false := by
  have names := h.distinct
  rw [← nodesOf_names none, split] at names
  obtain ⟨notPre, notPost, -⟩ := distinct_around names
  simp only [OnlyLastFits, h.blockList_eq, split, last, Option.some.injEq, exists_eq_left']
  constructor
  · rintro ⟨y, hy, same, fits, others⟩
    obtain rfl : y = x := by
      simp only [List.mem_append, List.mem_cons] at hy
      rcases hy with there | rfl | there
      · exact absurd same.symm (notPre y there)
      · rfl
      · exact absurd same.symm (notPost y there)
    refine ⟨fits, fun z hz => ?_⟩
    rcases List.mem_append.mp hz with there | there
    · exact others z (by simp [there]) (notPost z there)
    · exact others z (by simp [there]) (notPre z there)
  · rintro ⟨fits, others⟩
    refine ⟨x, by simp, rfl, fits, fun y hy other => others y ?_⟩
    simp only [List.mem_append, List.mem_cons] at hy ⊢
    rcases hy with there | rfl | there
    · exact .inr there
    · exact absurd rfl other
    · exact .inl there

theorem Linked.servesNext_iff (h : Linked m xs) (strategy : m.myStrategy = .next)
    (last : LastListed m) {fresh : Addr × MemoryList} (unused : m.node fresh.1 = none) :
    (∃ result m', mymalloc m r (some fresh) = some (result, m')) ∧
      (ServesNext m r (some fresh) ↔ ¬OnlyLastFits m r) := by
  obtain ⟨a, last, listed⟩ := last
  obtain ⟨x, hx, rfl⟩ := List.mem_map.mp (nodesOf_names none xs ▸ h.inList_iff.mp listed)
  obtain ⟨pre, post, split⟩ := List.append_of_mem hx
  have names := h.distinct
  rw [← nodesOf_names none, split] at names
  have found := h.search_next (r := r) strategy split last
  rw [h.onlyLastFits_iff split last]
  have serves : ServesNext m r (some fresh) ↔
      match (post ++ pre ++ [x]).find? fun y => suitable y.2 r with
      | none => mymalloc m r (some fresh) = some (none, m)
      | some y => Takes m r (some fresh) y := by
    rw [← roundFrom_split names, ← split]
    simp only [ServesNext, h.blockList_eq, last, Option.some.injEq, exists_and_left,
      exists_eq_left']
  rw [serves, List.find?_append]
  cases first : (post ++ pre).find? fun y => suitable y.2 r with
  | some y =>
    have inside := List.mem_of_find?_eq_some first
    have takes : Takes m r (some fresh) y := by
      refine h.takes_node ?_ unused (by rw [found, first]; rfl)
      rw [split]
      simp only [List.mem_append, List.mem_cons] at inside ⊢
      tauto
    have fits : suitable y.2 r = true := by simpa using List.find?_some first
    obtain ⟨_, _, m', _, _, run, _⟩ := id takes
    refine ⟨⟨_, m', run⟩, iff_of_true takes fun only => ?_⟩
    rw [only.2 y inside] at fits
    contradiction
  | none =>
    have missed : ∀ y ∈ post ++ pre, suitable y.2 r = false := by
      simpa using List.find?_eq_none.mp first
    have run : mymalloc m r (some fresh) = some (none, m) := by
      rw [mymalloc, found, first]
      rfl
    refine ⟨⟨_, _, run⟩, ?_⟩
    cases fits : suitable x.2 r with
    | true =>
      refine iff_of_false (fun takes => ?_) (not_not.mpr ⟨rfl, missed⟩)
      simp only [Option.none_or, List.find?_cons, fits] at takes
      obtain ⟨_, _, m', _, _, taken, _⟩ := takes
      rw [run] at taken
      simp at taken
    | false =>
      refine iff_of_true ?_ fun only => Bool.false_ne_true only.1
      simpa [fits] using run

/-- In every state of a session under Next whose `last_allocated` is a node,
the search ends; it serves every request except one that only the block at
`last_allocated` could hold. -/
theorem session_servesNext {calls : List Call} (h : Session .next sz calls m) (last : LastListed m)
    {fresh : Addr × MemoryList} (obtains : Obtains m (some fresh)) :
    (∃ result m', mymalloc m r (some fresh) = some (result, m')) ∧
      (ServesNext m r (some fresh) ↔ ¬OnlyLastFits m r) := by
  obtain ⟨base, xs, pool, -⟩ := h.pool
  exact pool.linked.servesNext_iff h.strategy last (obtains fresh rfl).1

def tenFreed : Mem :=
  ⟨.next, 10, some 100, some 1, some 1, some 1,
    (∅ : AList fun _ : Addr => MemoryList).insert 1 ⟨none, none, 10, .memFree, 100⟩⟩

theorem session_tenFreed : Session .next 10 [.mymalloc 10 (some 100), .myfree 100] tenFreed := by
  let m₀ : Mem := { tenFreed with lastAllocated := some 100 }
  let m₁ : Mem := ⟨.next, 10, some 100, some 1, some 1, some 1,
    (∅ : AList fun _ : Addr => MemoryList).insert 1 ⟨none, none, 10, .memUsed, 100⟩⟩
  have init : initmem Mem.start .next 10 (some 100) (some (1, blank)) = some m₀ := rfl
  have taken : mymallocOver m₀ blank 10 none = some (some 100, m₁) := rfl
  have freed : myfree m₁ 100 = some tenFreed := rfl
  have start : Session .next 10 [] m₀ := .start (by decide) (by decide) init
  obtain ⟨base, xs, pool, -⟩ := start.pool
  -- the first search is led to the node by the zeros in the pool
  have first := pool.linked.mymallocOver_step (by decide) (by simp [Obtains]) taken
  exact (start.snoc first).snoc (.myfree freed)

theorem lastListed_tenFreed : LastListed tenFreed := ⟨1, rfl, .head rfl⟩

theorem obtains_tenFreed : Obtains tenFreed (some (2, blank)) := by
  intro c hc
  obtain rfl : _ = c := Option.some.inj hc
  exact ⟨rfl, by simp [tenFreed]⟩

theorem session_servesNext_tenFreed :
    ServesNext tenFreed 1 (some (2, blank)) ↔ ¬OnlyLastFits tenFreed 1 :=
  (session_servesNext session_tenFreed lastListed_tenFreed obtains_tenFreed).2

/-- One byte is asked for, ten are free, and the answer is NULL. -/
theorem servesNext_missed : ¬∀ (sz : Nat) (calls : List Call) (m : Mem), Session .next sz calls m →
    LastListed m → ∀ r, 1 ≤ r → ∀ fresh, Obtains m (some fresh) → ServesNext m r (some fresh) := by
  intro serves
  obtain ⟨nodes, last, listed, here, outcome⟩ := serves _ _ _ session_tenFreed lastListed_tenFreed 1
    (by decide) _ obtains_tenFreed
  obtain rfl : _ = nodes := Option.some.inj listed
  obtain rfl : _ = last := Option.some.inj here
  obtain ⟨_, _, m', _, _, run, _⟩ := outcome
  have failed : mymalloc tenFreed 1 (some (2, blank)) = some (none, tenFreed) := rfl
  rw [failed] at run
  simp at run

end LastPicked.Allocator
