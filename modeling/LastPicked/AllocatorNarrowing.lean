import LastPicked.AllocatorFits

/-! Best fit and worst fit in large pools. The size they hold is an `int`, which keeps the
sizes of the blocks apart up to a limit of the pool and not beyond it. -/

namespace LastPicked.Allocator
open CIntegers LabelledRuns LinkedChain GapTiling

variable {m m' : Mem} {xs ys pre post : List Cell} {x y : Cell} {base sz r : Nat}
  {strategy : Strategies}
  {calls : List Call} {fresh : Addr × MemoryList}

def Fittest (strategy : Strategies) (es : List Extent) (r : Nat) (e : Extent) : Prop :=
  Admits r e ∧ match strategy with
    | .best => ∀ f ∈ es, Admits r f → e.len ≤ f.len
    | .worst => ∀ f ∈ es, f.used = false → f.len ≤ e.len
    | _ => True

/-- The request is served from such a block, or no block is suitable and the call returns NULL. -/
def Chooses (strategy : Strategies) (m : Mem) (r : Nat) (new : NewNode) : Prop :=
  ∃ nodes, m.blockList = some nodes ∧
    ((∀ e ∈ extents nodes, ¬Admits r e) ∧ mymalloc m r new = some (none, m) ∨
      ∃ x ∈ nodes, Fittest strategy (extents nodes) r (extentOf x.2) ∧ Takes m r new x)

/-- In every state of a pool of `sz` bytes every request gets the block it is to get. -/
def Lossless (strategy : Strategies) (sz : Nat) : Prop :=
  ∀ (calls : List Call) (m : Mem) (r : Nat) (fresh : Addr × MemoryList),
    Session strategy sz calls m → 1 ≤ r → r ≤ sz → Obtains m (some fresh) →
    Chooses strategy m r (some fresh)

theorem Preferred.fittest {es : List Extent} {e : Extent}
    (ints : strategy = .best ∨ strategy = .worst) (h : Preferred strategy es r e) :
    Fittest strategy es r e := by
  obtain ⟨admits, rest⟩ := h
  refine ⟨admits, ?_⟩
  rcases ints with rfl | rfl
  · intro f hf suitable
    rcases rest f hf suitable with less | same
    · exact less.le
    · exact same.1.le
  · intro f hf free
    rcases rest f hf free with less | same
    · exact less.le
    · exact same.1.ge

theorem lossless_of_le (ints : strategy = .best ∨ strategy = .worst)
    (small : sz ≤ sizeLimit strategy) :
    Lossless strategy sz := by
  intro calls m r fresh session pos _ obtains
  obtain ⟨base, xs, pool, -⟩ := session.pool
  obtain rfl := session.strategy
  obtain ⟨o, found, nothing, chosen⟩ := pool.search_preferred (.inr ints) small r
  have listed : extents (nodesOf none xs) = xs.map Prod.snd := nodesOf_extents none xs
  refine ⟨_, pool.linked.blockList_eq, ?_⟩
  rw [listed]
  cases o with
  | none =>
    refine .inl ⟨?_, ?_⟩
    · intro e he
      obtain ⟨y, hy, rfl⟩ := List.mem_map.mp he
      exact nothing rfl y hy
    · rw [mymalloc, found]
      rfl
  | some x =>
    obtain ⟨hx, preferred⟩ := chosen x rfl
    obtain ⟨pre, post, rfl⟩ := List.append_of_mem hx
    obtain ⟨y, hy, -, same, takes⟩ := pool.linked.takes (obtains fresh rfl).1 found
    exact .inr ⟨y, hy, by rw [same]; exact preferred.fittest ints, takes⟩

theorem nodesOf_injective {p : Option Addr} (same : nodesOf p xs = nodesOf p ys) : xs = ys := by
  induction xs generalizing p ys with
  | nil =>
    cases ys with
    | nil => rfl
    | cons y ys => cases same
  | cons x xs ih =>
    cases ys with
    | nil => cases same
    | cons y ys =>
      obtain ⟨first, rest⟩ := List.cons.inj same
      obtain ⟨name, node⟩ := Prod.mk.inj first
      have place : x.2 = y.2 := by simpa using congrArg extentOf node
      have both : x = y := Prod.ext name place
      subst both
      rw [ih rest]

theorem Session.pool_of (h : Session strategy sz calls m) (linked : Linked m xs) :
    ∃ base, Pool m base sz xs := by
  obtain ⟨base, ys, pool, -⟩ := h.pool
  obtain rfl : xs = ys :=
    nodesOf_injective (Option.some.inj (linked.blockList_eq.symm.trans pool.linked.blockList_eq))
  exact ⟨base, pool⟩

theorem exists_obtains (m : Mem) : ∃ fresh, Obtains m (some fresh) := by
  obtain ⟨a, away⟩ := Infinite.exists_notMem_finset
    (m.heap.keys.toFinset ∪ Finset.Ico (m.myMemory.getD 0) (m.myMemory.getD 0 + m.mySize))
  simp only [Finset.mem_union, List.mem_toFinset, Finset.mem_Ico, not_or] at away
  refine ⟨(a, blank), ?_⟩
  intro c hc
  obtain rfl : _ = c := Option.some.inj hc
  refine ⟨AList.lookup_eq_none.mpr fun there => away.1 (AList.mem_keys.mpr there), ?_⟩
  intro base hbase
  have memory : m.myMemory = some base := hbase
  rw [memory, Option.getD_some] at away
  exact away.2

theorem exists_begun (strategy : Strategies) (pos : 1 ≤ sz) :
    ∃ m x, Session strategy sz [] m ∧ Linked m [x] ∧ x.2.used = false ∧ x.2.len = sz := by
  obtain ⟨m, run⟩ : ∃ m, initmem Mem.start strategy sz (some 100) (some (1, blank)) = some m :=
    ⟨_, rfl⟩
  have away : ¬(100 ≤ 1 ∧ 1 < 100 + sz) := by omega
  obtain ⟨base, a, pool, -⟩ := Initialises.pool .start ⟨pos, 100, 1, blank, away, run⟩
  exact ⟨m, _, .start pos away run, pool.linked, rfl, rfl⟩

theorem Session.take (h : Session strategy sz calls m) (linked : Linked m (pre ++ x :: post))
    (pos : 1 ≤ r) (found : search m r = some (some x.1)) :
    ∃ calls' m' rest, Session strategy sz calls' m' ∧
      Linked m' (pre ++ (x.1, ⟨x.2.start, r, true⟩) :: (rest ++ post)) ∧
      rest.map Prod.snd = remainder x.2 r := by
  obtain ⟨fresh, obtains⟩ := exists_obtains m
  rcases useBlock_chain linked r fun c hc => (obtains c hc).1 with
    ⟨none_left, -⟩ | ⟨m', rest, run, linked', left, -⟩
  · cases none_left
  · have call : Allocator.mymalloc m r (some fresh) = some (some x.2.start, m') := by
      rw [Allocator.mymalloc, found]
      exact run
    exact ⟨_, m', rest, h.mymalloc pos obtains call, linked', left⟩

theorem JoinsPrev.eq_nil {pre' : List Cell} {c c' : Cell} (j : JoinsPrev pre c pre' c')
    (none : pre = []) :
    pre' = [] ∧ c' = c := by
  cases j with
  | apart => exact ⟨none, rfl⟩
  | merged => simp at none

theorem Session.release (h : Session strategy sz calls m) (linked : Linked m (x :: y :: post))
    (used : x.2.used = true) (beside : y.2.used = true) :
    ∃ calls' m', Session strategy sz calls' m' ∧
    Linked m' ((x.1, { x.2 with used := false }) :: y :: post) := by
  obtain ⟨m', ys, run, linked', released, -⟩ :=
    release_chain (show Linked m ([] ++ x :: y :: post) from linked)
  obtain ⟨before, after⟩ := released
  obtain ⟨rfl, rfl⟩ := before.eq_nil rfl
  have call : Allocator.myfree m x.2.start = some m' := by
    rw [myfree_chain linked]
    simpa [used] using run
  cases after with
  | apart => exact ⟨_, m', h.snoc (.myfree call), linked'⟩
  | merged free =>
    rw [beside] at free
    cases free

def better : Strategies → Extent → Int → Bool
  | .best, e, held => e.len < toSize held
  | _, e, held => toSize held < e.len

theorem better_best {e : Extent} {held : Int} : better .best e held = true ↔ e.len < toSize held :=
  decide_eq_true_iff

theorem better_worst {e : Extent} {held : Int} :
    better .worst e held = true ↔ toSize held < e.len := decide_eq_true_iff

def heldFirst : Strategies → Nat → Int
  | .best, sz => toInt ((sz + 1) % 2 ^ 64 : Nat)
  | _, _ => 0

theorem Pool.search_scan (h : Pool m base sz xs)
    (ints : m.myStrategy = .best ∨ m.myStrategy = .worst) :
    search m r = some (scan (better m.myStrategy) r xs (none, heldFirst m.myStrategy sz)).1 := by
  rcases ints with strategy | strategy
  · simp only [search, strategy, h.size, h.linked.head, heldFirst]
    exact bestSearch_chain h.linked.chain h.linked.length_le_fuel _ _
  · simp only [search, strategy, h.linked.head, heldFirst]
    exact worstSearch_chain h.linked.chain h.linked.length_le_fuel _ _

def TakesFirst (strategy : Strategies) (sz : Nat) : Prop :=
  ∀ e : Extent, 0 < e.len → e.len ≤ sz → better strategy e (heldFirst strategy sz) = true

theorem exists_spoiled (ints : strategy = .best ∨ strategy = .worst) (large : 2 ^ 32 + 2 ≤ sz)
    (first : TakesFirst strategy sz) :
    ∃ calls m x y z, Session strategy sz calls m ∧ Linked m [x, y, z] ∧ x.2.used = false ∧
    x.2.len = 2 ^ 32 ∧
      y.2.used = true ∧ z.2.used = false ∧ z.2.len = 1 := by
  obtain ⟨m, x, session, linked, free, len⟩ := exists_begun strategy (show 1 ≤ sz by omega)
  have found : search m (2 ^ 32) = some (some x.1) := by
    obtain ⟨base, pool⟩ := session.pool_of linked
    obtain rfl := session.strategy
    rw [pool.search_scan ints, scan_takes ⟨free, by omega⟩ (first x.2 (by omega) (by omega))]
    rfl
  obtain ⟨calls₁, m₁, rest, session₁, linked₁, left⟩ :=
    session.take (show Linked m ([] ++ x :: []) from linked) (by decide) found
  rw [remainder, if_pos (by omega)] at left
  obtain ⟨y, rfl, shape⟩ := List.map_eq_singleton_iff.mp left
  have used (start r : Nat) : ¬Admits (sz - 2 ^ 32 - 1) ⟨start, r, true⟩ :=
    fun admits => Bool.noConfusion admits.1
  have found₁ : search m₁ (sz - 2 ^ 32 - 1) = some (some y.1) := by
    obtain ⟨base, pool⟩ := session₁.pool_of linked₁
    obtain rfl := session₁.strategy
    have suits : Admits (sz - 2 ^ 32 - 1) y.2 := by
      rw [shape]
      exact ⟨rfl, by dsimp only; omega⟩
    have taken : better m₁.myStrategy y.2 (heldFirst m₁.myStrategy sz) = true := by
      refine first y.2 ?_ ?_ <;> rw [shape] <;> dsimp only <;> omega
    rw [pool.search_scan ints]
    change some (scan _ _ [_, y] _).1 = _
    rw [scan_rejects (used _ _), scan_takes suits taken]
    rfl
  obtain ⟨calls₂, m₂, rest, session₂, linked₂, left⟩ := session₁.take
    (show Linked m₁ ([(x.1, ⟨x.2.start, 2 ^ 32, true⟩)] ++ y :: []) from linked₁) (by omega) found₁
  rw [shape, remainder, if_pos (by dsimp only; omega)] at left
  obtain ⟨z, rfl, shape'⟩ := List.map_eq_singleton_iff.mp left
  obtain ⟨calls₃, m₃, session₃, linked₃⟩ := session₂.release linked₂ rfl rfl
  refine ⟨calls₃, m₃, _, _, z, session₃, linked₃, rfl, rfl, rfl, ?_, ?_⟩
  · rw [shape']
  · rw [shape']
    dsimp only
    omega

theorem Pool.not_chooses (h : Pool m base sz (pre ++ x :: post))
    (found : search m r = some (some x.1)) (obtains : Obtains m (some fresh))
    (unfit : ¬Fittest strategy ((pre ++ x :: post).map Prod.snd) r x.2) :
    ¬Chooses strategy m r (some fresh) := by
  rintro ⟨nodes, listed, outcome⟩
  obtain rfl := Option.some.inj (h.linked.blockList_eq.symm.trans listed)
  have there : extents (nodesOf none (pre ++ x :: post)) = (pre ++ x :: post).map Prod.snd :=
    nodesOf_extents none _
  obtain ⟨y, hy, -, same, -, -, m₁, -, -, call, -⟩ := h.linked.takes (obtains fresh rfl).1 found
  rcases outcome with ⟨-, null⟩ | ⟨z, hz, fittest, -, -, m₂, -, -, call', -⟩
  · rw [call] at null
    cases null
  · rw [call, Option.some.injEq, Prod.mk.injEq, Option.some.injEq] at call'
    have inside {n : Addr × MemoryList} (hn : n ∈ nodesOf none (pre ++ x :: post)) :
        extentOf n.2 ∈ (pre ++ x :: post).map Prod.snd := there ▸ List.mem_map_of_mem hn
    have one : extentOf y.2 = extentOf z.2 := h.tiles.eq_of_start (inside hy) (inside hz) call'.1
    rw [there, ← one, same] at fittest
    exact unfit fittest

theorem toSize_spoiled {len : Nat} (h : len = 2 ^ 32) : toSize (toInt len) = 0 := by
  rw [toSize_toInt, h]
  rfl

theorem not_lossless_worst (large : sizeLimit .worst < sz) : ¬Lossless .worst sz := by
  intro lossless
  have large : 2 ^ 32 + 2 ≤ sz := large
  obtain ⟨calls, m, x, y, z, session, linked, free, len, busy, free', len'⟩ :=
    exists_spoiled (.inr rfl) large fun e pos _ => better_worst.mpr pos
  obtain ⟨base, pool⟩ := session.pool_of linked
  obtain ⟨fresh, obtains⟩ := exists_obtains m
  have found : search m 1 = some (some z.1) := by
    have strategy := session.strategy
    have first : better .worst x.2 ((none : Option Addr), (0 : Int)).2 = true :=
      better_worst.mpr (show toSize 0 < x.2.len by rw [len]; decide)
    have second : better .worst z.2 (some x.1, toInt x.2.len).2 = true :=
      better_worst.mpr (by rw [toSize_spoiled len, len']; exact Nat.one_pos)
    have skipped : ¬Admits 1 y.2 := fun admits => Bool.noConfusion (busy.symm.trans admits.1)
    have run : scan (better .worst) 1 [x, y, z] (none, 0) = (some z.1, toInt z.2.len) := calc
      _ = scan (better .worst) 1 [y, z] (some x.1, toInt x.2.len) :=
        scan_takes ⟨free, by rw [len]; decide⟩ first
      _ = scan (better .worst) 1 [z] (some x.1, toInt x.2.len) := scan_rejects skipped
      _ = (some z.1, toInt z.2.len) := scan_takes ⟨free', len'.ge⟩ second
    rw [pool.search_scan (.inr strategy), strategy]
    exact congrArg (some ∘ Prod.fst) run
  have around : Pool m base sz ([x, y] ++ z :: []) := pool
  refine around.not_chooses found obtains ?_ (lossless _ _ _ _ session le_rfl (by omega) obtains)
  intro fittest
  have largest := fittest.2 x.2 (by simp) free
  rw [len, len'] at largest
  exact absurd largest (by decide)

theorem not_lossless_best (size : sz < 2 ^ 64) (large : sizeLimit .best < sz) :
    ¬Lossless .best sz := by
  intro lossless
  have large : 2 ^ 32 - 1 ≤ sz := large
  have start : toSize (heldFirst .best sz) = _ := toSize_toInt ((sz + 1) % 2 ^ 64)
  by_cases low : (sz + 1) % 2 ^ 64 % 2 ^ 32 < 2 ^ 31
  · rw [if_pos low] at start
    obtain ⟨m, x, session, linked, free, len⟩ := exists_begun .best (show 1 ≤ sz by omega)
    obtain ⟨base, pool⟩ := session.pool_of linked
    obtain ⟨fresh, obtains⟩ := exists_obtains m
    have strategy := session.strategy
    have beyond : better .best x.2 ((none : Option Addr), heldFirst .best sz).2 = false := by
      rw [Bool.eq_false_iff, ne_eq, better_best, start]
      omega
    have null : mymalloc m 1 (some fresh) = some (none, m) := by
      rw [mymalloc, pool.search_scan (.inl strategy), strategy, scan_keeps beyond]
      rfl
    obtain ⟨nodes, listed, ⟨unfit, -⟩ | ⟨y, -, -, -, -, m₁, -, -, call, -⟩⟩ :=
      lossless _ _ _ _ session le_rfl (by omega) obtains
    · obtain rfl := Option.some.inj (linked.blockList_eq.symm.trans listed)
      refine unfit x.2 ?_ ⟨free, by omega⟩
      rw [extents, nodesOf_extents]
      exact List.mem_cons_self
    · rw [null] at call
      cases call
  · rw [if_neg low] at start
    obtain ⟨calls, m, x, y, z, session, linked, free, len, busy, free', len'⟩ :=
      exists_spoiled (.inl rfl)
      (show 2 ^ 32 + 2 ≤ sz by omega) fun e _ le => better_best.mpr (by rw [start]; omega)
    obtain ⟨base, pool⟩ := session.pool_of linked
    obtain ⟨fresh, obtains⟩ := exists_obtains m
    have found : search m 1 = some (some x.1) := by
      have strategy := session.strategy
      have first : better .best x.2 ((none : Option Addr), heldFirst .best sz).2 = true :=
        better_best.mpr (by rw [start]; omega)
      have second : better .best z.2 (some x.1, toInt x.2.len).2 = false := by
        rw [Bool.eq_false_iff, ne_eq, better_best, toSize_spoiled len]
        exact Nat.not_lt_zero _
      have skipped : ¬Admits 1 y.2 := fun admits => Bool.noConfusion (busy.symm.trans admits.1)
      have run : scan (better .best) 1 [x, y, z] (none, heldFirst .best sz) =
        (some x.1, toInt x.2.len) := calc
        _ = scan (better .best) 1 [y, z] (some x.1, toInt x.2.len) :=
          scan_takes ⟨free, by rw [len]; decide⟩ first
        _ = scan (better .best) 1 [z] (some x.1, toInt x.2.len) := scan_rejects skipped
        _ = (some x.1, toInt x.2.len) := scan_keeps second
      rw [pool.search_scan (.inl strategy), strategy]
      exact congrArg (some ∘ Prod.fst) run
    have around : Pool m base sz ([] ++ x :: [y, z]) := pool
    refine around.not_chooses found obtains ?_ (lossless _ _ _ _ session le_rfl (by omega) obtains)
    intro fittest
    have smallest := fittest.2 z.2 (by simp) ⟨free', len'.ge⟩
    rw [len, len'] at smallest
    exact absurd smallest (by decide)

/-- The sizes of the pools that the `int`s of Best and Worst are large enough for. -/
theorem lossless_iff (ints : strategy = .best ∨ strategy = .worst) (size : sz < 2 ^ 64) :
    Lossless strategy sz ↔ sz ≤ sizeLimit strategy := by
  refine ⟨fun lossless => ?_, lossless_of_le ints⟩
  by_contra large
  rcases ints with rfl | rfl
  · exact not_lossless_best size (Nat.lt_of_not_le large) lossless
  · exact not_lossless_worst (Nat.lt_of_not_le large) lossless

theorem lossless_limit : Lossless .best (2 ^ 32 - 2) :=
  (lossless_iff (.inl rfl) (by decide)).mpr (by decide)

/-- With 2^32 - 1 bytes the held size is 0 at first, and with more it becomes 0 on the way. -/
theorem lossless_missed :
    ¬∀ strategy sz, strategy = .best ∨ strategy = .worst → 1 ≤ sz → sz < 2 ^ 64 →
      Lossless strategy sz :=
  fun all => not_lossless_best (by decide) (by decide)
    (all .best (2 ^ 32 - 1) (.inl rfl) (by decide) (by decide))

end LastPicked.Allocator
