import Mathlib

/-! Tilings of an interval of addresses by used and free extents. Where no
two free extents touch, every free extent is a maximal gap, and the used
extents alone determine the whole tiling. -/

namespace LastPicked.GapTiling

structure Extent where
  start : Nat
  len : Nat
  used : Bool
  deriving DecidableEq

namespace Extent

def finish (e : Extent) : Nat := e.start + e.len

def relative (base : Nat) (e : Extent) : Extent := { e with start := e.start - base }

@[simp] theorem relative_used (base : Nat) (e : Extent) : (e.relative base).used = e.used := rfl

end Extent

def cover (es : List Extent) : Nat := (es.map Extent.len).sum

@[simp] theorem cover_nil : cover [] = 0 := rfl
@[simp] theorem cover_cons (e : Extent) (es : List Extent) :
    cover (e :: es) = e.len + cover es := by
  simp [cover]
/-- Non-empty extents laid end to end from `lo` to `hi`. -/
def Tiles : Nat → List Extent → Nat → Prop
  | lo, [], hi => lo = hi
  | lo, e :: es, hi => e.start = lo ∧ 0 < e.len ∧ Tiles (lo + e.len) es hi

variable {lo hi : Nat} {es fs : List Extent}

theorem tiles_cons {e : Extent} :
    Tiles lo (e :: es) hi ↔ e.start = lo ∧ 0 < e.len ∧ Tiles (lo + e.len) es hi := Iff.rfl

theorem Tiles.hi_eq (h : Tiles lo es hi) : hi = lo + cover es := by
  induction es generalizing lo with
  | nil => simpa using h.symm
  | cons e es ih =>
    have rest := ih h.2.2
    rw [rest, cover_cons]
    omega

theorem tiles_append :
    Tiles lo (es ++ fs) hi ↔ Tiles lo es (lo + cover es) ∧ Tiles (lo + cover es) fs hi := by
  induction es generalizing lo with
  | nil => simp [Tiles]
  | cons e es ih =>
      simp only [List.cons_append, tiles_cons, ih, cover_cons, and_assoc, Nat.add_assoc]

theorem Tiles.bounds (h : Tiles lo es hi) {e : Extent} (he : e ∈ es) :
    lo ≤ e.start ∧ 0 < e.len ∧ e.finish ≤ hi := by
  induction es generalizing lo with
  | nil => simp at he
  | cons f es ih =>
    obtain ⟨start, pos, rest⟩ := h
    have bound := rest.hi_eq
    rcases List.mem_cons.mp he with rfl | he
    · exact ⟨start.ge, pos, by unfold Extent.finish; omega⟩
    · have inner := ih rest he
      exact ⟨by omega, inner.2⟩

theorem Tiles.ordered (h : Tiles lo es hi) : es.Pairwise fun e f => e.finish ≤ f.start := by
  induction es generalizing lo with
  | nil => exact .nil
  | cons e es ih =>
    refine List.pairwise_cons.mpr ⟨fun f hf => ?_, ih h.2.2⟩
    have start := h.1
    have bound := (h.2.2.bounds hf).1
    unfold Extent.finish
    omega

theorem Tiles.adjacent (h : Tiles lo es hi) : es.IsChain fun e f => e.finish = f.start := by
  induction es generalizing lo with
  | nil => exact .nil
  | cons e es ih =>
    refine List.isChain_cons.mpr ⟨fun f hf => ?_, ih h.2.2⟩
    cases es with
    | nil => simp at hf
    | cons g es =>
      obtain rfl : g = f := by simpa using hf
      unfold Extent.finish
      rw [h.1, h.2.2.1]

theorem Tiles.eq_of_start (h : Tiles lo es hi) {e f : Extent} (he : e ∈ es) (hf : f ∈ es)
    (same : e.start = f.start) : e = f := by
  have ordered := h.ordered
  induction es generalizing lo with
  | nil => simp at he
  | cons g es ih =>
    obtain ⟨front, rest⟩ := List.pairwise_cons.mp ordered
    have pos := h.2.1
    rcases List.mem_cons.mp he with rfl | later <;> rcases List.mem_cons.mp hf with rfl | later'
    · rfl
    · have apart := front f later'
      unfold Extent.finish at apart
      omega
    · have apart := front e later
      unfold Extent.finish at apart
      omega
    · exact ih h.2.2 later later' rest

theorem Tiles.nodup (h : Tiles lo es hi) : es.Nodup := by
  refine h.ordered.imp_of_mem fun {e f} he _ apart same => ?_
  subst same
  have pos := (h.bounds he).2.1
  unfold Extent.finish at apart
  omega

theorem Tiles.start_ne {e : Extent} (h : Tiles lo (es ++ e :: fs) hi) :
    (∀ f ∈ es, f.start ≠ e.start) ∧ ∀ f ∈ fs, f.start ≠ e.start := by
  have distinct := h.nodup
  rw [List.nodup_append] at distinct
  obtain ⟨-, back, apart⟩ := distinct
  constructor
  · intro f hf same
    exact apart f hf e (by simp) (h.eq_of_start (by simp [hf]) (by simp) same)
  · intro f hf same
    have eq := h.eq_of_start (e := f) (f := e) (by simp [hf]) (by simp) same
    exact (List.nodup_cons.mp back).1 (eq ▸ hf)

theorem Tiles.relative (h : Tiles lo es hi) {base : Nat} (below : base ≤ lo) :
    Tiles (lo - base) (es.map (Extent.relative base)) (hi - base) := by
  induction es generalizing lo with
  | nil => exact congrArg (· - base) h
  | cons e es ih =>
    obtain ⟨start, pos, rest⟩ := h
    refine ⟨by simp [Extent.relative, start], pos, ?_⟩
    have shifted := ih rest (by omega)
    rwa [show lo + e.len - base = lo - base + e.len by omega] at shifted

def Separated (es : List Extent) : Prop :=
  es.IsChain fun e f => e.used = true ∨ f.used = true

theorem separated_map_relative (base : Nat) :
    Separated (es.map (Extent.relative base)) ↔ Separated es := by
  simp [Separated, List.isChain_map]

theorem Separated.tail {e : Extent} (h : Separated (e :: es)) : Separated es :=
  List.IsChain.tail h

def remainder (e : Extent) (r : Nat) : List Extent :=
  if r < e.len then [⟨e.start + r, e.len - r, false⟩] else []

theorem remainder_free {e f : Extent} {r : Nat} (h : f ∈ remainder e r) : f.used = false := by
  unfold remainder at h
  split at h <;> simp_all

theorem Tiles.carve {e : Extent} {r : Nat} (h : Tiles lo (es ++ e :: fs) hi) (pos : 0 < r)
    (fits : r ≤ e.len) : Tiles lo (es ++ ⟨e.start, r, true⟩ :: (remainder e r ++ fs)) hi := by
  obtain ⟨front, start, -, rest⟩ := tiles_append.mp h
  refine tiles_append.mpr ⟨front, start, pos, ?_⟩
  unfold remainder
  split
  · refine ⟨by rw [start], by dsimp only; omega, ?_⟩
    rwa [Nat.add_assoc, show r + (e.len - r) = e.len by omega]
  · rwa [show r = e.len by omega]

theorem Separated.carve {e : Extent} {r : Nat} (h : Separated (es ++ e :: fs))
    (free : e.used = false) : Separated (es ++ ⟨e.start, r, true⟩ :: (remainder e r ++ fs)) := by
  obtain ⟨front, back, _⟩ := List.isChain_append.mp h
  refine List.isChain_append.mpr ⟨front, List.isChain_cons.mpr ⟨by simp, ?_⟩, by simp⟩
  unfold remainder
  split
  · refine List.isChain_cons.mpr ⟨fun f hf => ?_, back.tail⟩
    simpa [free] using (List.isChain_cons.mp back).1 f hf
  · exact back.tail

theorem Tiles.merge {e f : Extent} (h : Tiles lo (es ++ e :: f :: fs) hi) :
    Tiles lo (es ++ { e with len := e.len + f.len } :: fs) hi := by
  obtain ⟨front, start, pos, -, -, rest⟩ := tiles_append.mp h
  refine tiles_append.mpr ⟨front, start, by dsimp only; omega, ?_⟩
  rwa [Nat.add_assoc] at rest

theorem Tiles.setUsed {e : Extent} (b : Bool) (h : Tiles lo (es ++ e :: fs) hi) :
    Tiles lo (es ++ { e with used := b } :: fs) hi := by
  obtain ⟨front, start, pos, rest⟩ := tiles_append.mp h
  exact tiles_append.mpr ⟨front, start, pos, rest⟩

/-- In a separated tiling whose first extent is free, a gap that starts with
it ends where the next used extent starts, or where the interval ends. -/
theorem first_gap_le {e f : Extent} (h : Tiles lo (e :: es) hi) (k : Tiles lo (f :: fs) hi)
    (sep : Separated (e :: es)) (free : e.used = false) (free' : f.used = false)
    (used : ∀ g, g.used = true → g ∈ es → g ∈ f :: fs) : f.len ≤ e.len := by
  obtain ⟨_, _, rest⟩ := h
  obtain ⟨_, _, rest'⟩ := k
  cases es with
  | nil =>
    have beyond := rest'.hi_eq
    have exact : lo + e.len = hi := rest
    omega
  | cons g gs =>
    have busy : g.used = true := by
      rcases (List.isChain_cons_cons.mp sep).1 with h | h
      · rw [free] at h
        contradiction
      · exact h
    rcases List.mem_cons.mp (used g busy (by simp)) with rfl | there
    · rw [busy] at free'
      contradiction
    · have starts := rest.1
      have after := (rest'.bounds there).1
      omega

/-- The used extents determine a separated tiling. -/
theorem Tiles.determined (h : Tiles lo es hi) (k : Tiles lo fs hi)
    (sep : Separated es) (sep' : Separated fs)
    (used : ∀ e, e.used = true → (e ∈ es ↔ e ∈ fs)) : es = fs := by
  induction es generalizing lo fs with
  | nil => cases fs with
    | nil => rfl
    | cons f fs =>
      have here : lo = hi := h
      have beyond := k.2.2.hi_eq
      have pos := k.2.1
      omega
  | cons e es ih => cases fs with
    | nil =>
      have here : lo = hi := k
      have beyond := h.2.2.hi_eq
      have pos := h.2.1
      omega
    | cons f fs =>
      have start : e.start = f.start := h.1.trans k.1.symm
      have same : e = f := by
        by_cases busy : e.used = true
        · exact k.eq_of_start ((used e busy).mp (by simp)) (by simp) start
        · by_cases busy' : f.used = true
          · exact h.eq_of_start (by simp) ((used f busy').mpr (by simp)) start
          · simp only [Bool.not_eq_true] at busy busy'
            have le := first_gap_le h k sep busy busy' fun g hg hm =>
              (used g hg).mp (List.mem_cons_of_mem _ hm)
            have ge := first_gap_le k h sep' busy' busy fun g hg hm =>
              (used g hg).mpr (List.mem_cons_of_mem _ hm)
            cases e
            cases f
            simp_all only [Extent.mk.injEq, and_true, true_and]
            exact Nat.le_antisymm ge le
      subst same
      rw [ih h.2.2 k.2.2 sep.tail sep'.tail fun g busy => ?_]
      have notHere : ∀ {gs}, Tiles (lo + e.len) gs hi → e ∉ gs := fun t there => by
        have := (t.bounds there).1
        have := h.1
        have := h.2.1
        omega
      constructor
      · intro there
        rcases List.mem_cons.mp ((used g busy).mp (List.mem_cons_of_mem _ there)) with rfl | there'
        · exact absurd there (notHere h.2.2)
        · exact there'
      · intro there
        rcases List.mem_cons.mp ((used g busy).mpr (List.mem_cons_of_mem _ there)) with rfl | there'
        · exact absurd there (notHere k.2.2)
        · exact there'

end LastPicked.GapTiling
