import LastPicked.AllocatorSteps

/-! Taking a block and giving it back. Each spec lemma says what the chain of
cells is afterwards; the order of the stores is gone from here on. -/

namespace LastPicked.Allocator
open LinkedChain GapTiling

variable {m m' : Mem} {xs pre post : List Cell} {x c c' : Cell}

theorem markUsed_chain (h : Linked m (pre ++ x :: post)) (r : Nat) :
    ∃ m', markUsed m x.1 r = some (some x.2.start, m') ∧
      Linked m' (pre ++ (x.1, ⟨x.2.start, r, true⟩) :: post) ∧
      m'.settings = m.settings ∧ m'.lastAllocated = some x.1 := by
  obtain ⟨m₁, run, linked, same⟩ := h.setData
    (fun n => { n with alloc := .memUsed, size := r }) (e := ⟨x.2.start, r, true⟩) rfl
  refine ⟨_, ?_, linked.withLastAllocated (some x.1), (Mem.settings_of_globals same).1, rfl⟩
  have here : m₁.node x.1 = _ := linked.node_at
  simp [markUsed, run, here]

def Unused (m : Mem) (new : NewNode) : Prop := ∀ a ∈ new, m.node a.1 = none

/-- Using a suitable block either fails for want of a node, changing nothing,
or carves the request out of the block's start. -/
theorem useBlock_chain (h : Linked m (pre ++ x :: post)) (r : Nat) {new : NewNode}
    (unused : Unused m new) :
    (new = none ∧ useBlock m r new (some x.1) = some (none, m)) ∨
    ∃ m' rest, useBlock m r new (some x.1) = some (some x.2.start, m') ∧
      Linked m' (pre ++ (x.1, ⟨x.2.start, r, true⟩) :: (rest ++ post)) ∧
      rest.map Prod.snd = remainder x.2 r ∧
      m'.settings = m.settings ∧ m'.lastAllocated = some x.1 := by
  by_cases larger : r < x.2.len
  · cases new with
    | none => exact .inl ⟨rfl, by simp [useBlock, h.node_at, larger, insertIntoList]⟩
    | some fresh =>
      obtain ⟨a, stale⟩ := fresh
      right
      obtain ⟨m₁, run₁, linked₁, same₁⟩ := h.insertAfter stale (unused (a, stale) rfl)
      have split : pre ++ x :: (a, extentOf stale) :: post =
          (pre ++ [x]) ++ (a, extentOf stale) :: post := by simp
      rw [split] at linked₁
      obtain ⟨m₂, run₂, linked₂, same₂⟩ := linked₁.setData
        (fun l => { l with alloc := .memFree, ptr := x.2.start + r, size := x.2.len - r })
        (e := ⟨x.2.start + r, x.2.len - r, false⟩) rfl
      rw [List.append_assoc] at linked₂
      obtain ⟨m₃, run₃, linked₃, same₃, last₃⟩ := markUsed_chain linked₂ r
      refine ⟨m₃, [(a, ⟨x.2.start + r, x.2.len - r, false⟩)], ?_, linked₃, ?_, ?_, last₃⟩
      · simp [useBlock, h.node_at, larger, run₁, run₂, run₃]
      · simp [remainder, larger]
      · rw [same₃, (Mem.settings_of_globals same₂).1, (Mem.settings_of_globals same₁).1]
  · right
    obtain ⟨m₁, run₁, linked₁, same₁, last₁⟩ := markUsed_chain h r
    refine ⟨m₁, [], ?_, linked₁, ?_, same₁, last₁⟩
    · simp [useBlock, h.node_at, larger, run₁]
    · simp [remainder, larger]

inductive JoinsPrev : List Cell → Cell → List Cell → Cell → Prop
  | apart {pre : List Cell} {c : Cell} :
      (∀ p ∈ pre.getLast?, p.2.used = true) → JoinsPrev pre c pre c
  | merged {pre : List Cell} {p c : Cell} : p.2.used = false →
      JoinsPrev (pre ++ [p]) c pre (p.1, { p.2 with len := p.2.len + c.2.len })

inductive JoinsNext : Cell → List Cell → Cell → List Cell → Prop
  | apart {post : List Cell} {c : Cell} :
      (∀ q ∈ post.head?, q.2.used = true) → JoinsNext c post c post
  | merged {post : List Cell} {c q : Cell} : q.2.used = false →
      JoinsNext c (q :: post) (c.1, { c.2 with len := c.2.len + q.2.len }) post

theorem coalescePrev_chain (h : Linked m (pre ++ c :: post)) :
    ∃ m' pre' c', coalescePrev m c.1 = some (c'.1, m') ∧ Linked m' (pre' ++ c' :: post) ∧
      JoinsPrev pre c pre' c' ∧ m'.globals = m.globals := by
  induction pre using List.reverseRecOn with
  | nil =>
    refine ⟨m, [], c, ?_, h, .apart (by simp), rfl⟩
    have here : m.node c.1 = _ := h.node_at
    simp [coalescePrev, here]
  | append_singleton pre p _ =>
    have here : m.node c.1 = _ := h.node_at
    rw [List.append_assoc] at h
    have before : m.node p.1 = _ := h.node_at
    by_cases free : p.2.used = false
    · obtain ⟨m₁, run₁, linked₁, same₁⟩ := h.setData
        (fun n => { n with size := n.size + c.2.len })
        (e := { p.2 with len := p.2.len + c.2.len }) rfl
      have joined : m₁.node p.1 = _ := linked₁.node_at
      have split : pre ++ (p.1, { p.2 with len := p.2.len + c.2.len }) :: ([] ++ c :: post) =
          (pre ++ [(p.1, { p.2 with len := p.2.len + c.2.len })]) ++ c :: post := by simp
      obtain ⟨m₂, run₂, linked₂, same₂⟩ := (split ▸ linked₁).remove
      refine ⟨m₂, pre, _, ?_, by simpa using linked₂, .merged free, same₂.trans same₁⟩
      simp [coalescePrev, here, before, free, run₁, joined, run₂]
    · refine ⟨m, pre ++ [p], c, ?_, by simpa using h, .apart (by simpa using free), rfl⟩
      simp [coalescePrev, here, before, free]

theorem coalesceNext_chain (h : Linked m (pre ++ c :: post)) :
    ∃ m' c' post', coalesceNext m c.1 = some m' ∧ Linked m' (pre ++ c' :: post') ∧
      c'.1 = c.1 ∧ JoinsNext c post c' post' ∧ m'.globals = m.globals := by
  have here : m.node c.1 = _ := h.node_at
  cases post with
  | nil => exact ⟨m, c, [], by simp [coalesceNext, here], h, rfl, .apart (by simp), rfl⟩
  | cons q post =>
    have split : pre ++ c :: q :: post = (pre ++ [c]) ++ q :: post := by simp
    have after : m.node q.1 = _ := (split ▸ h).node_at
    by_cases free : q.2.used = false
    · obtain ⟨m₁, run₁, linked₁, same₁⟩ := h.setData
        (fun n => { n with size := n.size + q.2.len })
        (e := { c.2 with len := c.2.len + q.2.len }) rfl
      rw [← List.singleton_append, ← List.append_assoc] at linked₁
      obtain ⟨m₂, run₂, linked₂, same₂⟩ := linked₁.remove
      refine ⟨m₂, (c.1, { c.2 with len := c.2.len + q.2.len }), post, ?_, by simpa using linked₂,
        rfl, .merged free, same₂.trans same₁⟩
      simp [coalesceNext, here, after, free, run₁, run₂]
    · refine ⟨m, c, q :: post, ?_, h, rfl, .apart (by simpa using free), rfl⟩
      simp [coalesceNext, here, after, free]

/-- The chain after the block `x` was given back: `x` is free, and joined
with the free neighbours it had. -/
inductive Released (pre : List Cell) (x : Cell) (post : List Cell) : List Cell → Prop
  | joined {pre' post' : List Cell} {d c : Cell} :
      JoinsPrev pre (x.1, { x.2 with used := false }) pre' d → JoinsNext d post c post' →
      Released pre x post (pre' ++ c :: post')

theorem release_chain (h : Linked m (pre ++ x :: post)) :
    ∃ m' ys, release m x.1 = some m' ∧ Linked m' ys ∧ Released pre x post ys ∧
      m'.settings = m.settings ∧ ∃ c ∈ ys, m'.lastAllocated = some c.1 := by
  obtain ⟨m₁, run₁, linked₁, same₁⟩ := h.setData (fun n => { n with alloc := .memFree })
    (e := { x.2 with used := false }) rfl
  obtain ⟨m₂, pre', d, run₂, linked₂, join₂, same₂⟩ := coalescePrev_chain linked₁
  obtain ⟨m₃, c, post', run₃, linked₃, name, join₃, same₃⟩ := coalesceNext_chain linked₂
  refine ⟨{ m₃ with lastAllocated := some d.1 }, _, ?_, linked₃.withLastAllocated _,
    .joined join₂ join₃, ?_, c, by simp, by simp [name]⟩
  · simp only [release, run₁, Option.bind_eq_bind, Option.bind_some]
    simp only [run₂, Option.bind_some, run₃]
  · exact (Mem.settings_of_globals (same₃.trans (same₂.trans same₁))).1

theorem freeFrom_chain {block : Addr} {p : Option Addr} (chain : Chain m.view p xs none)
    {fuel : Nat} (enough : xs.length ≤ fuel) :
    freeFrom m block fuel (first none xs) =
      match xs.find? (fun x => x.2.start = block) with
      | none => some m
      | some x => if x.2.used then release m x.1 else some m := by
  induction xs generalizing p fuel with
  | nil => cases fuel <;> rfl
  | cons x xs ih =>
    obtain ⟨fuel, rfl⟩ : ∃ k, fuel = k + 1 := ⟨fuel - 1, by simp at enough; omega⟩
    have rest := ih chain.2 (by simpa using enough)
    simp only [freeFrom, first_cons, Mem.view_eq_some.mp chain.1, Option.bind_eq_bind,
      Option.bind_some, cell_ptr, cell_next, cell_alloc_free, List.find?_cons]
    by_cases here : x.2.start = block
    · cases used : x.2.used <;> simp [here, used]
    · simp [here, rest]

theorem myfree_chain (h : Linked m xs) (block : Addr) :
    myfree m block = match xs.find? (fun x => x.2.start = block) with
      | none => some m
      | some x => if x.2.used then release m x.1 else some m := by
  rw [myfree, h.head, freeFrom_chain h.chain h.length_le_fuel]

def usedOf (xs : List Cell) : List (Addr × Nat) :=
  ((xs.map Prod.snd).filter Extent.used).map fun e => (e.start, e.len)

@[simp] theorem usedOf_append (xs ys : List Cell) : usedOf (xs ++ ys) = usedOf xs ++ usedOf ys := by
  simp [usedOf]

theorem usedOf_cons (x : Cell) (xs : List Cell) :
    usedOf (x :: xs) = if x.2.used then (x.2.start, x.2.len) :: usedOf xs else usedOf xs := by
  by_cases h : x.2.used = true <;> simp [usedOf, h]

theorem JoinsPrev.tiles {pre' : List Cell} {lo hi : Nat} (j : JoinsPrev pre c pre' c')
    (h : Tiles lo ((pre ++ c :: post).map Prod.snd) hi) :
    Tiles lo ((pre' ++ c' :: post).map Prod.snd) hi := by
  cases j with
  | apart => exact h
  | merged =>
    simp only [List.map_append, List.map_cons, List.append_assoc, List.cons_append,
      List.nil_append] at h ⊢
    exact h.merge

theorem JoinsNext.tiles {post' : List Cell} {lo hi : Nat} (j : JoinsNext c post c' post')
    (h : Tiles lo ((pre ++ c :: post).map Prod.snd) hi) :
    Tiles lo ((pre ++ c' :: post').map Prod.snd) hi := by
  cases j with
  | apart => exact h
  | merged =>
    simp only [List.map_append, List.map_cons] at h ⊢
    exact h.merge

theorem JoinsPrev.used {pre' : List Cell} (j : JoinsPrev pre c pre' c')
    (free : c.2.used = false) : c'.2.used = false ∧ usedOf pre' = usedOf pre := by
  cases j with
  | apart => exact ⟨free, rfl⟩
  | merged gap => exact ⟨gap, by simp [usedOf_cons, gap, show usedOf [] = [] from rfl]⟩

theorem JoinsNext.used {post' : List Cell} (j : JoinsNext c post c' post')
    (free : c.2.used = false) : c'.2.used = false ∧ usedOf post' = usedOf post := by
  cases j with
  | apart => exact ⟨free, rfl⟩
  | merged gap => exact ⟨free, by simp [usedOf_cons, gap]⟩

/-- One merge is enough: behind the free neighbour that was absorbed there
is a used one, because no two free cells were adjacent. -/
theorem JoinsPrev.separated {pre' : List Cell} (j : JoinsPrev pre c pre' c')
    (h : Separated (pre.map Prod.snd)) :
    Separated (pre'.map Prod.snd) ∧ ∀ p ∈ pre'.getLast?, p.2.used = true := by
  cases j with
  | apart used => exact ⟨h, used⟩
  | merged gap =>
    rw [List.map_append] at h
    obtain ⟨front, -, meet⟩ := List.isChain_append.mp h
    refine ⟨front, fun q hq => ?_⟩
    have either := meet q.2 (by simpa using ⟨_, hq⟩) _ rfl
    simpa [gap] using either

theorem JoinsNext.separated {post' : List Cell} (j : JoinsNext c post c' post')
    (h : Separated (post.map Prod.snd)) :
    Separated (post'.map Prod.snd) ∧ ∀ q ∈ post'.head?, q.2.used = true := by
  cases j with
  | apart used => exact ⟨h, used⟩
  | merged gap =>
    obtain ⟨meet, back⟩ := List.isChain_cons.mp h
    refine ⟨back, fun q hq => ?_⟩
    have either := meet q.2 (by simpa using ⟨_, hq⟩)
    simpa [gap] using either

/-- Giving a block back keeps the tiling, leaves no two gaps adjacent and
takes exactly that block out of the used ones. -/
theorem Released.sound {ys : List Cell} {lo hi : Nat} (rel : Released pre x post ys)
    (tiles : Tiles lo ((pre ++ x :: post).map Prod.snd) hi)
    (sep : Separated ((pre ++ x :: post).map Prod.snd)) :
    Tiles lo (ys.map Prod.snd) hi ∧ Separated (ys.map Prod.snd) ∧
      usedOf ys = usedOf pre ++ usedOf post := by
  obtain ⟨before, after⟩ := rel
  rename_i pre' post' d c
  rw [List.map_append, List.map_cons] at tiles sep
  have freed : Tiles lo ((pre ++ (x.1, { x.2 with used := false }) :: post).map Prod.snd) hi := by
    rw [List.map_append, List.map_cons]
    exact tiles.setUsed false
  obtain ⟨gap, usedPre⟩ := before.used rfl
  obtain ⟨gap', usedPost⟩ := after.used gap
  obtain ⟨front, back, -⟩ := List.isChain_append.mp sep
  obtain ⟨front', busy⟩ := before.separated front
  obtain ⟨back', busy'⟩ := after.separated back.tail
  refine ⟨after.tiles (before.tiles freed), ?_, ?_⟩
  · rw [List.map_append, List.map_cons]
    refine List.isChain_append.mpr ⟨front', List.isChain_cons.mpr ⟨?_, back'⟩, ?_⟩
    · intro e he
      obtain ⟨q, hq, rfl⟩ := Option.map_eq_some_iff.mp (List.head?_map ▸ he)
      exact .inr (busy' q hq)
    · intro e he f _
      obtain ⟨p, hp, rfl⟩ := Option.map_eq_some_iff.mp (List.getLast?_map ▸ he)
      exact .inl (busy p hp)
  · rw [usedOf_append, usedOf_cons, gap', usedPre, usedPost]
    simp

end LastPicked.Allocator
