import LastPicked.GapTiling

/-! Maximal runs of addresses with a property. In a separated tiling the free
extents are the maximal runs of addresses that no used extent covers, so there
is at most one more of them than there are used extents. -/

namespace LastPicked.GapTiling

/-- The addresses from `a` on, `n` of them, have the property, and neither
neighbour of them does. -/
structure MaximalRun (P : Nat → Prop) (a n : Nat) : Prop where
  pos : 0 < n
  inside : ∀ i, a ≤ i → i < a + n → P i
  before : ∀ i, i + 1 = a → ¬P i
  after : ¬P (a + n)

namespace MaximalRun

variable {P Q : Nat → Prop} {a b i n k : Nat}

theorem congr (same : ∀ i, P i ↔ Q i) : MaximalRun P a n ↔ MaximalRun Q a n := by
  obtain rfl : P = Q := funext fun i => propext (same i)
  rfl

theorem start_le (h : MaximalRun P a n) (h' : MaximalRun P b k) (low : b ≤ i) (high : i < a + n) :
    b ≤ a := by
  by_contra inner
  exact h'.before (b - 1) (by omega) (h.inside (b - 1) (by omega) (by omega))

theorem finish_le (h : MaximalRun P a n) (h' : MaximalRun P b k) (low : b ≤ i) (high : i < a + n) :
    b + k ≤ a + n := by
  by_contra beyond
  exact h.after (h'.inside (a + n) (by omega) (by omega))

theorem eq_of_mem (h : MaximalRun P a n) (h' : MaximalRun P b k) (low : a ≤ i) (high : i < a + n)
    (low' : b ≤ i) (high' : i < b + k) : a = b ∧ n = k := by
  have start := h.start_le h' low' high
  have start' := h'.start_le h low high'
  have finish := h.finish_le h' low' high
  have finish' := h'.finish_le h low high'
  omega

end MaximalRun

variable {lo hi : Nat} {es : List Extent} {e f : Extent}

def Uncovered (lo hi : Nat) (es : List Extent) (i : Nat) : Prop :=
  lo ≤ i ∧ i < hi ∧ ∀ e ∈ es, e.used = true → ¬(e.start ≤ i ∧ i < e.finish)

theorem Tiles.exists_mem (h : Tiles lo es hi) {i : Nat} (low : lo ≤ i) (high : i < hi) :
    ∃ e ∈ es, e.start ≤ i ∧ i < e.finish := by
  induction es generalizing lo with
  | nil =>
    have empty : lo = hi := h
    omega
  | cons e es ih =>
    obtain ⟨start, -, rest⟩ := h
    by_cases here : i < lo + e.len
    · exact ⟨e, List.mem_cons_self, start.trans_le low, by unfold Extent.finish; omega⟩
    · obtain ⟨f, hf, inside⟩ := ih rest (by omega)
      exact ⟨f, List.mem_cons_of_mem _ hf, inside⟩

theorem Tiles.apart (h : Tiles lo es hi) (he : e ∈ es) (hf : f ∈ es) (other : e ≠ f) :
    e.finish ≤ f.start ∨ f.finish ≤ e.start := by
  have symm : Std.Symm fun e f : Extent => e.finish ≤ f.start ∨ f.finish ≤ e.start :=
    ⟨fun _ _ => Or.symm⟩
  have either : es.Pairwise fun e f => e.finish ≤ f.start ∨ f.finish ≤ e.start :=
    h.ordered.imp Or.inl
  exact either.forall he hf other

theorem Tiles.eq_of_mem (h : Tiles lo es hi) (he : e ∈ es) (hf : f ∈ es) {i : Nat}
    (inside : e.start ≤ i ∧ i < e.finish) (inside' : f.start ≤ i ∧ i < f.finish) : e = f := by
  by_contra other
  have apart := h.apart he hf other
  omega

theorem Tiles.used_of_adjacent (h : Tiles lo es hi) (sep : Separated es) (he : e ∈ es) (hf : f ∈ es)
    (meet : e.finish = f.start) : e.used = true ∨ f.used = true := by
  have bound := h.bounds he
  induction es generalizing lo with
  | nil => simp at he
  | cons g es ih =>
    obtain ⟨start, pos, rest⟩ := id h
    rcases List.mem_cons.mp hf with rfl | later'
    · unfold Extent.finish at meet
      omega
    · rcases List.mem_cons.mp he with rfl | later
      · cases es with
        | nil => simp at later'
        | cons k es =>
          have first : k.start = f.start := by
            rw [rest.1, ← meet, Extent.finish, start]
          obtain rfl := rest.eq_of_start List.mem_cons_self later' first
          exact (List.isChain_cons_cons.mp sep).1
      · exact ih rest sep.tail later later' (rest.bounds later)

theorem Tiles.free_maximalRun (h : Tiles lo es hi) (sep : Separated es) (he : e ∈ es)
    (free : e.used = false) : MaximalRun (Uncovered lo hi es) e.start e.len := by
  have bounds := h.bounds he
  -- an uncovered address beside `e` lies in a free extent that touches `e`
  have beside : ∀ i, Uncovered lo hi es i → i < e.start ∨ e.finish ≤ i →
      ∃ f ∈ es, f.used = false ∧ (f.start ≤ i ∧ i < f.finish) ∧
      (e.finish ≤ f.start ∨ f.finish ≤ e.start) := by
    intro i ⟨low, high, away⟩ out
    obtain ⟨f, hf, inside⟩ := h.exists_mem low high
    refine ⟨f, hf, by simpa using fun used => away f hf used inside, inside, h.apart he hf ?_⟩
    rintro rfl
    omega
  refine ⟨bounds.2.1, fun i low high => ⟨bounds.1.trans low, high.trans_le bounds.2.2, ?_⟩, ?_, ?_⟩
  · intro f hf used within
    rcases h.apart he hf (by rintro rfl; simp [free] at used) with ahead | ahead
    · unfold Extent.finish at ahead
      omega
    · omega
  · intro i next open'
    obtain ⟨f, hf, free', inside, order⟩ := beside i open' (.inl (by omega))
    have meet : f.finish = e.start := by
      unfold Extent.finish at order inside ⊢
      omega
    simpa [free, free'] using h.used_of_adjacent sep hf he meet
  · intro open'
    obtain ⟨f, hf, free', inside, order⟩ := beside _ open' (.inr le_rfl)
    have meet : e.finish = f.start := by
      unfold Extent.finish at order inside ⊢
      omega
    simpa [free, free'] using h.used_of_adjacent sep he hf meet

theorem Tiles.maximalRun_iff (h : Tiles lo es hi) (sep : Separated es) {a n : Nat} :
    MaximalRun (Uncovered lo hi es) a n ↔ ⟨a, n, false⟩ ∈ es := by
  constructor
  · intro run
    have here := run.inside a le_rfl (Nat.lt_add_of_pos_right run.pos)
    obtain ⟨e, he, inside⟩ := h.exists_mem here.1 here.2.1
    have free : e.used = false := by simpa using fun used => here.2.2 e he used inside
    obtain ⟨rfl, rfl⟩ := run.eq_of_mem (h.free_maximalRun sep he free) le_rfl
      (Nat.lt_add_of_pos_right run.pos) inside.1 inside.2
    rw [← free]
    exact he
  · intro there
    exact h.free_maximalRun sep there rfl

def gaps (es : List Extent) : List (Nat × Nat) :=
  (es.filter fun e => !e.used).map fun e => (e.start, e.len)

@[simp] theorem gaps_nil : gaps [] = [] := rfl

@[simp] theorem gaps_cons (e : Extent) (es : List Extent) :
    gaps (e :: es) = if e.used then gaps es else (e.start, e.len) :: gaps es := by
  cases used : e.used <;> simp [gaps, used]

theorem mem_gaps {a n : Nat} : (a, n) ∈ gaps es ↔ ⟨a, n, false⟩ ∈ es := by
  simp only [gaps, List.mem_map, List.mem_filter, Bool.not_eq_true', Prod.mk.injEq]
  constructor
  · rintro ⟨⟨start, len, used⟩, ⟨he, rfl⟩, rfl, rfl⟩
    exact he
  · intro he
    exact ⟨_, ⟨he, rfl⟩, rfl, rfl⟩

theorem Tiles.gaps_nodup (h : Tiles lo es hi) : (gaps es).Nodup := by
  refine (h.nodup.filter _).map_on fun e he f hf same => ?_
  exact h.eq_of_start (List.mem_filter.mp he).1 (List.mem_filter.mp hf).1 (Prod.mk.inj same).1

theorem cover_eq (es : List Extent) :
    cover es = ((es.filter Extent.used).map Extent.len).sum + ((gaps es).map Prod.snd).sum := by
  induction es with
  | nil => rfl
  | cons e es ih =>
    cases used : e.used <;> simp [used, ih] <;> omega

theorem Tiles.gaps_length_le (h : Tiles lo es hi) : (gaps es).length ≤ cover es := by
  have sizes : ((gaps es).map Prod.snd).length ≤ ((gaps es).map Prod.snd).sum := by
    refine List.length_le_sum_of_one_le _ fun n hn => ?_
    obtain ⟨x, hx, rfl⟩ := List.mem_map.mp hn
    exact (h.bounds (mem_gaps.mp hx)).2.1
  rw [List.length_map] at sizes
  have whole := cover_eq es
  omega

theorem Tiles.encard_maximalRuns (h : Tiles lo es hi) (sep : Separated es) (p : Nat → Bool) :
    {x : Nat × Nat | MaximalRun (Uncovered lo hi es) x.1 x.2 ∧ p x.2}.encard =
      ((gaps es).countP fun x => p x.2 : Nat) := by
  have listed : {x : Nat × Nat | MaximalRun (Uncovered lo hi es) x.1 x.2 ∧ p x.2} =
      ((gaps es).filter fun x => p x.2).toFinset := by
    ext ⟨a, n⟩
    simp [h.maximalRun_iff sep, mem_gaps]
  rw [listed, Set.encard_coe_eq_coe_finsetCard, List.toFinset_card_of_nodup (h.gaps_nodup.filter _),
    List.countP_eq_length_filter]

theorem Separated.gaps_le (sep : Separated es) :
    (gaps es).length ≤ (es.filter Extent.used).length + 1 ∧
      ((∀ e ∈ es.head?, e.used = true) → (gaps es).length ≤ (es.filter Extent.used).length) := by
  induction es with
  | nil => simp
  | cons e es ih =>
    obtain ⟨more, exact⟩ := ih sep.tail
    cases used : e.used with
    | true =>
      simp only [gaps_cons, used, if_true, List.filter_cons_of_pos, List.length_cons]
      exact ⟨by omega, fun _ => more⟩
    | false =>
      have next : ∀ f ∈ es.head?, f.used = true := fun f hf => by
        simpa [used] using (List.isChain_cons.mp sep).1 f hf
      simpa [used] using exact next

theorem Separated.exists_gap (sep : Separated es) {r : Nat}
    (enough : ((es.filter Extent.used).length + 1) * (r - 1) < ((gaps es).map Prod.snd).sum) :
    ∃ e ∈ es, e.used = false ∧ r ≤ e.len := by
  by_contra none_fits
  have small : ∀ n ∈ (gaps es).map Prod.snd, n ≤ r - 1 := by
    intro n hn
    obtain ⟨⟨a, n⟩, hg, rfl⟩ := List.mem_map.mp hn
    have unfit : ¬r ≤ n := fun large => none_fits ⟨_, mem_gaps.mp hg, rfl, large⟩
    dsimp only
    omega
  have total := List.sum_le_card_nsmul _ _ small
  rw [List.length_map, smul_eq_mul] at total
  have few := Nat.mul_le_mul_right (r - 1) sep.gaps_le.1
  omega

end LastPicked.GapTiling
