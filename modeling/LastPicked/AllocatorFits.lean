import LastPicked.AllocatorStatistics

/-! Which block a request gets. First fit, best fit and worst fit each end on
the leftmost of the blocks they prefer, and give up only when no free block is
large enough, which `mem_largest_free` tells beforehand. -/

namespace LastPicked.Allocator
open CIntegers LabelledRuns LinkedChain GapTiling

variable {m m' : Mem} {xs pre post : List Cell} {x : Cell} {base sz r : Nat}

def Admits (r : Nat) (e : Extent) : Prop := e.used = false ∧ r ≤ e.len

instance (r : Nat) : DecidablePred (Admits r) := fun _ => inferInstanceAs (Decidable (_ ∧ _))

theorem decide_admits (r : Nat) (e : Extent) :
    decide (Admits r e) = (!e.used && decide (r ≤ e.len)) := by
  cases used : e.used <;> simp [Admits, used]

/-- Among the blocks `es`, `e` is the one the strategy is to take. -/
def Preferred (strategy : Strategies) (es : List Extent) (r : Nat) (e : Extent) : Prop :=
  Admits r e ∧ match strategy with
    | .first => ∀ f ∈ es, Admits r f → e.start ≤ f.start
    | .best => ∀ f ∈ es, Admits r f → e.len < f.len ∨ e.len = f.len ∧ e.start ≤ f.start
    | .worst => ∀ f ∈ es, f.used = false → f.len < e.len ∨ e.len = f.len ∧ e.start ≤ f.start
    | _ => False

def extents (nodes : List (Addr × MemoryList)) : List Extent := nodes.map fun x => extentOf x.2

/-- The call returns the address of the block `x` of the list; the request is
carved out of its start, and all other blocks stay as they are. -/
def Takes (m : Mem) (r : Nat) (new : NewNode) (x : Addr × MemoryList) : Prop :=
  ∃ pre post m' nodes, m.blockList = some (pre ++ x :: post) ∧
    mymalloc m r new = some (some x.2.ptr, m') ∧ m'.blockList = some nodes ∧
    extents nodes =
      extents pre ++ ⟨x.2.ptr, r, true⟩ :: (remainder (extentOf x.2) r ++ extents post)

/-- The request is served from the block the strategy is to take, or there is
no free block of its size and the call returns NULL. -/
def Serves (strategy : Strategies) (m : Mem) (r : Nat) (new : NewNode) : Prop :=
  ∃ nodes largest, m.blockList = some nodes ∧ memLargestFree m = some largest ∧
    (largest < r ∧ (∀ e ∈ extents nodes, ¬Admits r e) ∧ mymalloc m r new = some (none, m) ∨
      r ≤ largest ∧ ∃ x ∈ nodes, Preferred strategy (extents nodes) r (extentOf x.2) ∧
        Takes m r new x)

theorem nodesOf_split (p : Option Addr) (pre : List Cell) (x : Cell) (post : List Cell) :
    ∃ front back, nodesOf p (pre ++ x :: post) =
        front ++ (x.1, cell (final p pre) (first none post) x.2) :: back ∧
      extents front = pre.map Prod.snd ∧ extents back = post.map Prod.snd := by
  induction pre generalizing p with
  | nil => exact ⟨[], _, rfl, rfl, nodesOf_extents _ post⟩
  | cons y pre ih =>
    obtain ⟨front, back, split, before, after⟩ := ih (some y.1)
    refine ⟨(y.1, cell p (first none (pre ++ x :: post)) y.2) :: front, back, ?_, ?_, after⟩
    · rw [List.cons_append, nodesOf, split, final_cons, List.cons_append]
    · simpa [extents] using before

theorem Linked.takes (h : Linked m (pre ++ x :: post)) {fresh : Addr × MemoryList}
    (unused : m.node fresh.1 = none) (found : search m r = some (some x.1)) :
    ∃ y ∈ nodesOf none (pre ++ x :: post), y.1 = x.1 ∧ extentOf y.2 = x.2 ∧
      Takes m r (some fresh) y := by
  obtain ⟨front, back, split, before, after⟩ := nodesOf_split none pre x post
  have free : Unused m (some fresh) := by
    intro a ha
    obtain rfl : fresh = a := Option.some.inj ha
    exact unused
  rcases useBlock_chain h r free with ⟨none_left, -⟩ | ⟨m', rest, run, linked, left, -⟩
  · contradiction
  · rw [split]
    refine ⟨_, List.mem_append_right _ List.mem_cons_self, rfl, extentOf_cell .., front,
      back, m', _, ?_, ?_, linked.blockList_eq, ?_⟩
    · rw [h.blockList_eq, split]
    · rw [mymalloc, found, Option.bind_eq_bind, Option.bind_some, run, cell_ptr]
    · rw [extents, nodesOf_extents, before, after, extentOf_cell]
      simp [left]

section Scan

variable {better : Extent → Int → Bool} {held : Option Addr × Int}

theorem scan_takes (admits : Admits r x.2) (wins : better x.2 held.2 = true) :
    scan better r (x :: xs) held = scan better r xs (some x.1, toInt x.2.len) := by
  rw [scan, ← decide_admits, decide_eq_true admits, wins, Bool.and_self, if_pos rfl]

theorem scan_rejects (unfit : ¬Admits r x.2) :
    scan better r (x :: xs) held = scan better r xs held := by
  rw [scan, ← decide_admits, decide_eq_false unfit, Bool.false_and, if_neg Bool.false_ne_true]

theorem scan_keeps (loses : better x.2 held.2 = false) :
    scan better r (x :: xs) held = scan better r xs held := by
  rw [scan, loses, Bool.and_false, if_neg Bool.false_ne_true]

end Scan

def Holds (start : Int) (best : Option Cell) (held : Option Addr × Int) : Prop :=
  held.1 = best.map Prod.fst ∧ match best with
    | none => held.2 = start
    | some c => held.2 = toInt c.2.len

theorem holds_some (start : Int) (c : Cell) : Holds start (some c) (some c.1, toInt c.2.len) := by
  simp only [Holds, Option.map_some, and_self]

/-- Both scans keep the leftmost block that no later one beats, as long as a later block is
compared with an earlier one as their sizes are. -/
theorem scan_eq_foldl {better : Extent → Int → Bool} {start : Int} {beats : Cell → Cell → Prop}
    [DecidableRel beats] (fresh : ∀ x ∈ xs, Admits r x.2 → better x.2 start = true)
    (newer : xs.Pairwise fun c x =>
      Admits r c.2 → Admits r x.2 → better x.2 (toInt c.2.len) = decide (beats x c))
    {best : Option Cell} {held : Option Addr × Int}
    (known : ∀ c ∈ best, ∀ x ∈ xs, Admits r x.2 → better x.2 (toInt c.2.len) = decide (beats x c))
    (stands : Holds start best held) :
    (scan better r xs held).1 =
      ((xs.filter fun x => Admits r x.2).foldl (List.argAux beats) best).map Prod.fst := by
  induction xs generalizing best held with
  | nil => exact stands.1
  | cons x xs ih =>
    obtain ⟨first, later⟩ := List.pairwise_cons.mp newer
    have fresh_later := fun y hy => fresh y (List.mem_cons_of_mem x hy)
    have kept :=
      ih fresh_later later (fun c hc y hy => known c hc y (List.mem_cons_of_mem x hy)) stands
    by_cases admits : Admits r x.2
    · have taken : (scan better r xs (some x.1, toInt x.2.len)).1 =
          ((xs.filter fun x => Admits r x.2).foldl (List.argAux beats) (some x)).map Prod.fst := by
        refine ih fresh_later later (fun c hc y hy => ?_) (holds_some start x)
        obtain rfl : x = c := Option.some.inj hc
        exact first y hy admits
      rw [List.filter_cons_of_pos (by simpa using admits), List.foldl_cons]
      cases best with
      | none =>
        have only : List.argAux beats none x = some x := rfl
        rw [scan_takes admits (by rw [stands.2]; exact fresh x List.mem_cons_self admits),
          taken, only]
      | some c =>
        have either : List.argAux beats (some c) x = if beats x c then some x else some c := rfl
        have compared := known c rfl x List.mem_cons_self admits
        rw [← stands.2] at compared
        rw [either]
        by_cases wins : beats x c
        · rw [scan_takes admits (compared.trans (decide_eq_true wins)), if_pos wins, taken]
        · rw [scan_keeps (compared.trans (decide_eq_false wins)), if_neg wins, kept]
    · rw [List.filter_cons_of_neg (by simpa using admits), scan_rejects admits, kept]

theorem search_first (h : Linked m xs) (strategy : m.myStrategy = .first) :
    search m r = some ((xs.find? fun x => Admits r x.2).map Prod.fst) := by
  rw [search, strategy, h.head]
  simpa only [decide_admits] using firstSearch_chain (r := r) h.chain h.length_le_fuel

theorem Pool.len_le (h : Pool m base sz xs) (hx : x ∈ xs) : 0 < x.2.len ∧ x.2.len ≤ sz := by
  have bounds := h.tiles.bounds (List.mem_map_of_mem (f := Prod.snd) hx)
  unfold Extent.finish at bounds
  omega

theorem start_le_of_idxOf_le {α : Type} [DecidableEq α] {l : List α} {place : α → Extent}
    (ordered : l.Pairwise fun x y => (place x).finish ≤ (place y).start) {c d : α} (hc : c ∈ l)
    (hd : d ∈ l) (le : l.idxOf c ≤ l.idxOf d) : (place c).start ≤ (place d).start := by
  rcases le.eq_or_lt with same | lt
  · rw [(List.idxOf_inj hc).mp same]
  · have before := List.pairwise_iff_getElem.mp ordered _ _ (List.idxOf_lt_length_of_mem hc)
      (List.idxOf_lt_length_of_mem hd) lt
    rw [List.getElem_idxOf, List.getElem_idxOf] at before
    unfold Extent.finish at before
    omega

theorem Pool.cells_ordered (h : Pool m base sz xs) :
    xs.Pairwise fun x y => x.2.finish ≤ y.2.start := List.pairwise_map.mp h.tiles.ordered

/-- Two blocks do not fit in the pool together when both are larger than half of it. -/
theorem Pool.len_add_le (h : Pool m base sz xs) :
    xs.Pairwise fun c x => c.2.len + x.2.len ≤ sz := by
  refine h.cells_ordered.imp_of_mem fun {c x} hc hx apart => ?_
  have low := h.tiles.bounds (List.mem_map_of_mem (f := Prod.snd) hc)
  have high := h.tiles.bounds (List.mem_map_of_mem (f := Prod.snd) hx)
  unfold Extent.finish at apart high
  omega

theorem Pool.free_add_lt (h : Pool m base sz xs) :
    xs.Pairwise fun c x => c.2.used = false → x.2.used = false → c.2.len + x.2.len < sz := by
  refine h.cells_ordered.imp_of_mem fun {c x} hc hx apart free free' => ?_
  have hc := List.mem_map_of_mem (f := Prod.snd) hc
  have hx := List.mem_map_of_mem (f := Prod.snd) hx
  have low := h.tiles.bounds hc
  have high := h.tiles.bounds hx
  have gap : c.2.finish ≠ x.2.start := fun meet => by
    simpa [free, free'] using h.tiles.used_of_adjacent h.separated hc hx meet
  unfold Extent.finish at apart high gap
  omega

/-- The sizes of pools in which Best compares the blocks as their sizes are: an `int` from
2^31 on comes back as more than any size, and two blocks of 2^31 bytes are too much. -/
theorem Pool.search_best (h : Pool m base sz xs) (strategy : m.myStrategy = .best)
    (small : sz ≤ 2 ^ 32 - 2) :
    search m r =
      some (((xs.filter fun x => Admits r x.2).argmin fun x => x.2.len).map Prod.fst) := by
  have size : (m.mySize + 1) % 2 ^ 64 = sz + 1 := by
    rw [h.size, Nat.mod_eq_of_lt (by omega)]
  have stands : Holds (toInt (sz + 1 : Nat)) none (none, toInt (sz + 1 : Nat)) := by
    simp only [Holds, Option.map_none, and_self]
  rw [search, strategy, size, h.linked.head,
    bestSearch_chain h.linked.chain h.linked.length_le_fuel]
  refine congrArg some (scan_eq_foldl ?_ ?_ (by simp) stands)
  · intro x hx _
    have le := (h.len_le hx).2
    rw [toSize_toInt, decide_eq_true_eq]
    split <;> omega
  · refine h.len_add_le.imp fun {c x} sum _ _ => decide_eq_decide.mpr ?_
    change x.2.len < toSize (toInt c.2.len) ↔ x.2.len < c.2.len
    rw [toSize_toInt]
    split <;> omega

theorem Pool.search_worst (h : Pool m base sz xs) (strategy : m.myStrategy = .worst)
    (small : sz ≤ 2 ^ 32 + 1) :
    search m r =
      some (((xs.filter fun x => Admits r x.2).argmax fun x => x.2.len).map Prod.fst) := by
  have stands : Holds 0 none (none, 0) := ⟨rfl, rfl⟩
  rw [search, strategy, h.linked.head, worstSearch_chain h.linked.chain h.linked.length_le_fuel]
  refine congrArg some (scan_eq_foldl ?_ ?_ (by simp) stands)
  · intro x hx _
    exact decide_eq_true (h.len_le hx).1
  · refine h.free_add_lt.imp_of_mem fun {c x} _ hx sum admits admits' => decide_eq_decide.mpr ?_
    have pos := (h.len_le hx).1
    have apart := sum admits.1 admits'.1
    change toSize (toInt c.2.len) < x.2.len ↔ c.2.len < x.2.len
    rw [toSize_toInt]
    split <;> omega

theorem preferred_first (h : Pool m base sz xs)
    (found : (xs.find? fun y => Admits r y.2) = some x) :
    x ∈ xs ∧ Preferred .first (xs.map Prod.snd) r x.2 := by
  obtain ⟨admits, front, back, rfl, missed⟩ := List.find?_eq_some_iff_append.mp found
  refine ⟨by simp, of_decide_eq_true admits, ?_⟩
  rintro f hf admits'
  obtain ⟨y, hy, rfl⟩ := List.mem_map.mp hf
  obtain ⟨-, later, -⟩ := List.pairwise_append.mp h.cells_ordered
  rcases List.mem_append.mp hy with hy | hy
  · simpa [admits'] using missed y hy
  · rcases List.mem_cons.mp hy with rfl | hy
    · exact le_rfl
    · have after := List.rel_of_pairwise_cons later hy
      unfold Extent.finish at after
      omega

theorem preferred_best (h : Pool m base sz xs)
    (found : x ∈ (xs.filter fun y => Admits r y.2).argmin fun y => y.2.len) :
    x ∈ xs ∧ Preferred .best (xs.map Prod.snd) r x.2 := by
  obtain ⟨hx, least, leftmost⟩ := List.mem_argmin_iff.mp found
  obtain ⟨listed, admits⟩ := List.mem_filter.mp hx
  refine ⟨listed, of_decide_eq_true admits, ?_⟩
  rintro f hf admits'
  obtain ⟨y, hy, rfl⟩ := List.mem_map.mp hf
  have hy' : y ∈ xs.filter fun y => Admits r y.2 := List.mem_filter.mpr ⟨hy, decide_eq_true admits'⟩
  rcases (least y hy').lt_or_eq with lt | same
  · exact .inl lt
  · exact .inr ⟨same,
      start_le_of_idxOf_le (h.cells_ordered.filter _) hx hy' (leftmost y hy' same.ge)⟩

theorem preferred_worst (h : Pool m base sz xs)
    (found : x ∈ (xs.filter fun y => Admits r y.2).argmax fun y => y.2.len) :
    x ∈ xs ∧ Preferred .worst (xs.map Prod.snd) r x.2 := by
  obtain ⟨hx, largest, leftmost⟩ := List.mem_argmax_iff.mp found
  obtain ⟨listed, admits⟩ := List.mem_filter.mp hx
  have admits : Admits r x.2 := of_decide_eq_true admits
  refine ⟨listed, admits, ?_⟩
  rintro f hf free
  obtain ⟨y, hy, rfl⟩ := List.mem_map.mp hf
  rcases Nat.lt_or_ge y.2.len x.2.len with lt | le
  · exact .inl lt
  · have hy' : y ∈ xs.filter fun y => Admits r y.2 :=
      List.mem_filter.mpr ⟨hy, decide_eq_true ⟨free, admits.2.trans le⟩⟩
    refine .inr ⟨le.antisymm (largest y hy'), ?_⟩
    exact start_le_of_idxOf_le (h.cells_ordered.filter _) hx hy' (leftmost y hy' le)

def Scans (strategy : Strategies) : Prop := strategy = .first ∨ strategy = .best ∨ strategy = .worst

/-- The pool sizes up to which the `int` of a strategy tells the sizes of blocks apart. -/
def sizeLimit : Strategies → Nat
  | .best => 2 ^ 32 - 2
  | _ => 2 ^ 32 + 1

theorem Pool.search_preferred (h : Pool m base sz xs) (scans : Scans m.myStrategy)
    (small : sz ≤ sizeLimit m.myStrategy) (r : Nat) :
    ∃ o : Option Cell, search m r = some (o.map Prod.fst) ∧
      (o = none → ∀ x ∈ xs, ¬Admits r x.2) ∧
      ∀ x ∈ o, x ∈ xs ∧ Preferred m.myStrategy (xs.map Prod.snd) r x.2 := by
  have nothing : (xs.filter fun x => Admits r x.2) = [] → ∀ x ∈ xs, ¬Admits r x.2 := by
    simp [List.filter_eq_nil_iff]
  rcases scans with strategy | strategy | strategy
  · refine ⟨_, search_first h.linked strategy, by simp, fun x found => ?_⟩
    rw [strategy]
    exact preferred_first h found
  · refine ⟨_, h.search_best strategy (by rwa [strategy] at small), fun empty => ?_,
      fun x found => ?_⟩
    · exact nothing (List.argmin_eq_none.mp empty)
    · rw [strategy]
      exact preferred_best h found
  · refine ⟨_, h.search_worst strategy (by rwa [strategy] at small), fun empty => ?_,
      fun x found => ?_⟩
    · exact nothing (List.argmax_eq_none.mp empty)
    · rw [strategy]
      exact preferred_worst h found

theorem Pool.largest_lt_iff (h : Pool m base sz xs) (small : (sz : Int) ≤ intMax) (pos : 1 ≤ r) :
    ∃ l : Nat, Allocator.memLargestFree m = some (l : Int) ∧ (l < r ↔ ∀ x ∈ xs, ¬Admits r x.2) := by
  obtain ⟨l, run, attained, upper⟩ := h.memLargestFree small
  have sizes : ∀ n, (∃ x ∈ nodesOf none xs, x.2.alloc = .memFree ∧ x.2.size = n) ↔
      ∃ x ∈ xs, x.2.used = false ∧ x.2.len = n := fun n => by
    simpa [h.linked.blockList_eq] using
      h.linked.free_node_iff (Q := fun _ len => len = n)
  refine ⟨l, run, fun lt x hx admits => ?_, fun none_fits => ?_⟩
  · have le := upper (.inr ((sizes _).mpr ⟨x, hx, admits.1, rfl⟩))
    exact absurd (admits.2.trans le) (Nat.not_le_of_lt lt)
  · rcases attained with rfl | there
    · exact pos
    · obtain ⟨x, hx, free, rfl⟩ := (sizes l).mp there
      exact Nat.lt_of_not_le fun fits => none_fits x hx ⟨free, fits⟩

theorem Pool.serves (h : Pool m base sz xs) (scans : Scans m.myStrategy)
    (small : (sz : Int) ≤ intMax - 1) (pos : 1 ≤ r) {fresh : Addr × MemoryList}
    (unused : m.node fresh.1 = none) : Serves m.myStrategy m r (some fresh) := by
  have kept : sz ≤ sizeLimit m.myStrategy := by
    unfold intMax at small
    unfold sizeLimit
    split <;> omega
  obtain ⟨l, run, bound⟩ := h.largest_lt_iff (by omega) pos
  obtain ⟨o, found, nothing, chosen⟩ := h.search_preferred scans kept r
  have listed : extents (nodesOf none xs) = xs.map Prod.snd := nodesOf_extents none xs
  refine ⟨_, l, h.linked.blockList_eq, run, ?_⟩
  rw [listed]
  cases o with
  | none =>
    have none_fits := nothing rfl
    refine .inl ⟨Int.ofNat_lt.mpr (bound.mpr none_fits), ?_, ?_⟩
    · intro e he
      obtain ⟨y, hy, rfl⟩ := List.mem_map.mp he
      exact none_fits y hy
    · rw [mymalloc, found]
      rfl
  | some x =>
    obtain ⟨hx, preferred⟩ := chosen x rfl
    have le : r ≤ l := by
      by_contra beyond
      exact bound.mp (by omega) x hx preferred.1
    obtain ⟨pre, post, rfl⟩ := List.append_of_mem hx
    obtain ⟨y, hy, -, same, takes⟩ := h.linked.takes unused found
    exact .inr ⟨Int.ofNat_le.mpr le, y, hy, by rwa [same], takes⟩

/-- After any calls, for every request, and whatever node the system `malloc` hands out. -/
theorem session_serves {strategy : Strategies} {calls : List Call} (h : Session strategy sz calls m)
    (scans : Scans strategy) (small : (sz : Int) ≤ intMax - 1) (pos : 1 ≤ r)
    {fresh : Addr × MemoryList} (obtains : Obtains m (some fresh)) :
    Serves strategy m r (some fresh) := by
  obtain ⟨base, xs, pool, -⟩ := h.pool
  obtain rfl := h.strategy
  exact pool.serves scans small pos (obtains fresh rfl).1

theorem session_serves_fourTaken : Serves .first fourTaken 3 (some (3, blank)) := by
  refine session_serves session_fourTaken (.inl rfl) (by decide) (by decide) ?_
  intro c hc
  obtain rfl : _ = c := Option.some.inj hc
  exact ⟨rfl, by simp [fourTaken]⟩

end LastPicked.Allocator
