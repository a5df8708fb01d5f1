import LastPicked.ShellParser

/-! The loop of `splitCommandAndArgs` is the scan for tokens between spaces. -/

namespace LastPicked.Shell
open CIntegers HeapCells Tokens

variable {before after t mem : List UInt8} {line i k n c : Nat} {ptrs : List Nat} {st : State}
  {r : Split}

def stateOf (inside : Bool) : State := if inside then .whitespace else .character

def reached (mem : List UInt8) (st : State) (i : Nat) (ptrs : List Nat) (c : Nat) : Split :=
  ⟨mem, st, i, ptrs.length, filled (ptrs.map some) c⟩

theorem splitLoop_next {s s' : Split} (turn : splitTurn line s = some (some s')) :
    splitLoop line (k + 1) s = splitLoop line k s' := by
  rw [splitLoop, turn]
  rfl

theorem splitLoop_break {s : Split} (turn : splitTurn line s = some none) :
    splitLoop line (k + 1) s = some s := by
  rw [splitLoop, turn]
  rfl

section Turns

variable {b : UInt8} (place : before.length = line + i)

include place

theorem splitTurn_end (ends : b = semicolon ∨ b = 0) :
    splitTurn line (reached (before ++ b :: after) st i ptrs c) = some none := by
  have found := getElem?_behind before b after
  rw [place] at found
  rw [splitTurn, reached]
  simp only [found, Option.bind_eq_bind, Option.bind_some, if_pos ends]

theorem splitTurn_gap :
    splitTurn line (reached (before ++ space :: after) .character i ptrs c) =
      some (some (reached (before ++ space :: after) .character (toUnsigned (i + 1)) ptrs c)) := by
  have found := getElem?_behind before space after
  rw [place] at found
  rw [splitTurn, reached]
  simp only [found, Option.bind_eq_bind, Option.bind_some]
  rfl

theorem splitTurn_word (plain : b ≠ semicolon ∧ b ≠ 0) (other : b ≠ space)
    (few : ptrs.length + 1 < 2 ^ 32) :
    splitTurn line (reached (before ++ b :: after) .character i ptrs c) =
      some (some (reached (before ++ b :: after) .whitespace (toUnsigned (i + 1))
        (ptrs ++ [line + i]) 0)) := by
  have found := getElem?_behind before b after
  rw [place] at found
  have last : toUnsigned (ptrs.length + 1 + (2 ^ 32 - 1)) = ptrs.length := by
    unfold toUnsigned
    omega
  have grown := realloc_filled (c := c) (show (ptrs.map some).length ≤ ptrs.length + 1 by simp)
  have stored := put_filled (ptrs.map some) 0 (some (line + i))
  rw [List.length_map] at grown stored
  rw [Nat.succ_sub le_rfl, Nat.sub_self] at grown
  rw [splitTurn, reached]
  simp only [found, Option.bind_eq_bind, Option.bind_some, not_or.mpr plain, if_false, if_neg other,
    toUnsigned_of_lt few, last, grown, stored, reached, List.length_append, List.length_singleton,
    List.map_append, List.map_singleton]

theorem splitTurn_inside (plain : b ≠ semicolon ∧ b ≠ 0) (other : b ≠ space) :
    splitTurn line (reached (before ++ b :: after) .whitespace i ptrs c) =
      some (some (reached (before ++ b :: after) .whitespace (toUnsigned (i + 1)) ptrs c)) := by
  have found := getElem?_behind before b after
  rw [place] at found
  rw [splitTurn, reached]
  simp only [found, Option.bind_eq_bind, Option.bind_some, not_or.mpr plain, if_false, if_pos other]
  rfl

theorem splitTurn_cut :
    splitTurn line (reached (before ++ space :: after) .whitespace i ptrs c) =
      some (some (reached (before ++ 0 :: after) .character (toUnsigned (i + 1)) ptrs c)) := by
  have found := getElem?_behind before space after
  rw [place] at found
  have stored : (before ++ space :: after).set (line + i) 0 = before ++ 0 :: after := by
    rw [← place, List.set_append_right _ _ le_rfl, Nat.sub_self, List.set_cons_zero]
  rw [splitTurn, reached]
  simp only [found, Option.bind_eq_bind, Option.bind_some, stored]
  rfl

end Turns

/-- A turn over a byte of the command is a step of the scan. -/
theorem splitLoop_turn {b : UInt8} (plain : b ≠ semicolon ∧ b ≠ 0)
    (place : before.length = line + i) (inside : Bool)
    (few : ptrs.length + (starts space inside (line + i) [b]).length < 2 ^ 32) :
    ∃ c', splitLoop line (k + 1) (reached (before ++ b :: after) (stateOf inside) i ptrs c) =
      splitLoop line k
        (reached (before ++ (cut space 0 inside [b] ++ after)) (stateOf (inToken space inside [b]))
        (toUnsigned (i + 1)) (ptrs ++ starts space inside (line + i) [b]) c') := by
  by_cases gap : b = space
  · subst gap
    cases inside with
    | false =>
        refine ⟨c, ?_⟩
        simpa [starts, cut, inToken, stateOf] using splitLoop_next (splitTurn_gap place)
    | true =>
        refine ⟨c, ?_⟩
        simpa [starts, cut, inToken, stateOf] using splitLoop_next (splitTurn_cut place)
  · cases inside with
    | false =>
      have one : ptrs.length + 1 < 2 ^ 32 := by simpa [starts, gap] using few
      exact ⟨0, by simpa [starts, cut, inToken, stateOf, gap] using
        splitLoop_next (splitTurn_word place plain gap one)⟩
    | true =>
      refine ⟨c, ?_⟩
      simpa [starts, cut, inToken, stateOf, gap] using
        splitLoop_next (splitTurn_inside place plain gap)

theorem splitLoop_scan (plain : ∀ b ∈ t, b ≠ semicolon ∧ b ≠ 0) (place : before.length = line + i)
    (fits : i + t.length ≤ 2 ^ 32) (inside : Bool)
    (few : ptrs.length + (starts space inside (line + i) t).length < 2 ^ 32) :
    ∃ c', splitLoop line (t.length + k)
        (reached (before ++ (t ++ after)) (stateOf inside) (toUnsigned i) ptrs c) =
      splitLoop line k
        (reached (before ++ (cut space 0 inside t ++ after)) (stateOf (inToken space inside t))
        (toUnsigned (i + t.length)) (ptrs ++ starts space inside (line + i) t) c') := by
  induction t generalizing before i inside ptrs c with
  | nil =>
    refine ⟨c, ?_⟩
    rw [List.length_nil, Nat.zero_add, Nat.add_zero, starts, List.append_nil, cut, inToken]
  | cons b t ih =>
    obtain ⟨first, plain⟩ := List.forall_mem_cons.mp plain
    rw [List.length_cons] at fits
    have whole := starts_append inside (line + i) [b] t (d := space)
    rw [List.singleton_append, List.length_singleton, Nat.add_assoc] at whole
    rw [whole, List.length_append] at few
    obtain ⟨c₁, turn⟩ := @splitLoop_turn before (t ++ after) line i (t.length + k) c ptrs b first
      place inside (by omega)
    have next : (before ++ cut space 0 inside [b]).length = line + (i + 1) := by simp [place]; omega
    obtain ⟨c₂, later⟩ :=
      @ih _ (i + 1) c₁ (ptrs ++ starts space inside (line + i) [b]) plain next (by omega)
      (inToken space inside [b]) (by rw [List.length_append]; omega)
    have turns : (b :: t).length + k = t.length + k + 1 := by rw [List.length_cons]; omega
    have index : i + (b :: t).length = i + 1 + t.length := by rw [List.length_cons]; omega
    have bytes := cut_append (d := space) (z := 0) inside [b] t
    have word := inToken_append (d := space) inside [b] t
    rw [List.singleton_append] at bytes word
    refine ⟨c₂, ?_⟩
    rw [List.append_assoc, List.append_assoc] at later
    rw [turns, toUnsigned_of_lt (show i < 2 ^ 32 by omega), List.cons_append, turn, later, index,
      whole, bytes, word, List.append_assoc, List.append_assoc]

theorem splitLoop_string (before after : List UInt8) (plain : ∀ b ∈ t, b ≠ semicolon ∧ b ≠ 0)
    (short : t.length < 2 ^ 32) (inside : Bool) (c : Nat) {ptrs : List Nat}
    (few : ptrs.length + (starts space inside before.length t).length < 2 ^ 32) :
    ∃ c', splitLoop before.length (t.length + 1)
        (reached (before ++ (t ++ 0 :: after)) (stateOf inside) 0 ptrs c) =
      some (reached (before ++ (cut space 0 inside t ++ 0 :: after))
        (stateOf (inToken space inside t)) t.length
        (ptrs ++ starts space inside before.length t) c') := by
  obtain ⟨c', turns⟩ :=
    @splitLoop_scan before (0 :: after) t before.length 0 1 c ptrs plain rfl (by omega) inside few
  have last : (before ++ cut space 0 inside t).length = before.length + t.length := by simp
  have ended := @splitTurn_end _ after _ _ c' (ptrs ++ starts space inside before.length t)
    (stateOf (inToken space inside t)) 0 last (.inr rfl)
  rw [List.append_assoc] at ended
  rw [Nat.zero_add, Nat.add_zero, toUnsigned_of_lt short] at turns
  exact ⟨c', turns.trans (splitLoop_break ended)⟩

theorem splitLoop_round (before after : List UInt8) (plain : ∀ b ∈ t, b ≠ semicolon ∧ b ≠ 0)
    (long : t.length = 2 ^ 32) (inside : Bool) (k c : Nat) {ptrs : List Nat}
    (few : ptrs.length + (starts space inside before.length t).length < 2 ^ 32) :
    ∃ c', splitLoop before.length (t.length + k)
        (reached (before ++ (t ++ after)) (stateOf inside) 0 ptrs c) =
      splitLoop before.length k
        (reached (before ++ (cut space 0 inside t ++ after)) (stateOf (inToken space inside t)) 0
        (ptrs ++ starts space inside before.length t) c') := by
  obtain ⟨c', turns⟩ :=
    @splitLoop_scan before after t before.length 0 k c ptrs plain rfl (by omega) inside few
  have wrapped : toUnsigned (0 + t.length) = 0 := by
    rw [long]
    decide
  rw [wrapped] at turns
  exact ⟨c', turns⟩

/-- A round that changes nothing is repeated for ever. -/
theorem splitLoop_never (before after : List UInt8) (plain : ∀ b ∈ t, b ≠ semicolon ∧ b ≠ 0)
    (long : t.length = 2 ^ 32) (inside : Bool) (same : cut space 0 inside t = t)
    (none : starts space inside before.length t = []) (again : inToken space inside t = inside)
    {ptrs : List Nat} (few : ptrs.length < 2 ^ 32) (k c : Nat) :
    splitLoop before.length k (reached (before ++ (t ++ after)) (stateOf inside) 0 ptrs c) =
      Option.none := by
  induction k using Nat.strong_induction_on generalizing c with
  | _ k ih =>
    rcases Nat.lt_or_ge k t.length with part | round
    · have whole := starts_append inside before.length (t.take k) (t.drop k) (d := space)
      rw [List.take_append_drop, none] at whole
      have found := (List.append_eq_nil_iff.mp whole.symm).1
      obtain ⟨c', turns⟩ :=
        @splitLoop_scan before (t.drop k ++ after) (t.take k) before.length 0 0 c ptrs
          (fun b there => plain b (List.mem_of_mem_take there)) rfl
          (by rw [List.length_take]; omega) inside
          (by rw [Nat.add_zero, found, List.length_nil]; omega)
      rw [← List.append_assoc (t.take k), List.take_append_drop, List.length_take,
        Nat.min_eq_left (by omega)] at turns
      exact turns
    · obtain ⟨k', rfl⟩ := Nat.exists_eq_add_of_le round
      obtain ⟨c', turns⟩ := splitLoop_round before after plain long inside k' c
        (show ptrs.length + (starts space inside before.length t).length <
          2 ^ 32 by rw [none, List.length_nil]; omega)
      rw [turns, same, none, again, List.append_nil]
      exact ih k' (by omega) c'

theorem splitLoop_more {s : Split} (h : splitLoop line k s = some r) (n : Nat) :
    splitLoop line (k + n) s = some r := by
  induction k generalizing s with
  | zero => cases h
  | succ k ih =>
    obtain ⟨turn, done, h⟩ := Option.bind_eq_some_iff.mp h
    rw [Nat.add_right_comm, splitLoop, done]
    cases turn with
    | none => exact h
    | some s' => exact ih h

theorem splitTurn_keeps {s s' : Split} (turn : splitTurn line s = some (some s'))
    {t after before : List UInt8} (mem : s.mem = before ++ (t ++ 0 :: after))
    (place : before.length = line) (within : s.i ≤ t.length) :
    ∃ t', s'.mem = before ++ (t' ++ 0 :: after) ∧ t'.length = t.length ∧ s'.i ≤ t.length := by
  obtain ⟨b, found, turn⟩ := Option.bind_eq_some_iff.mp turn
  dsimp only at turn
  split at turn
  case isTrue => simp at turn
  case isFalse goes_on =>
    have here : s.i < t.length := by
      by_contra behind
      obtain same : s.i = t.length := by omega
      have last := getElem?_behind (before ++ t) 0 after
      rw [List.append_assoc, List.length_append, place, ← mem, ← same, found] at last
      exact goes_on (.inr (Option.some.inj last))
    have next : toUnsigned (s.i + 1) ≤ t.length := (Nat.mod_le _ _).trans here
    have stored : (before ++ (t ++ 0 :: after)).set (line + s.i) 0 =
        before ++ (t.set s.i 0 ++ 0 :: after) := by
      rw [← place, List.set_append_right _ _ (Nat.le_add_right _ _), Nat.add_sub_cancel_left,
        List.set_append_left _ _ here]
    split at turn
    · split at turn
      · simp only [Option.some.injEq] at turn
        exact ⟨t, by rw [← turn, ← mem], rfl, by rw [← turn]; exact next⟩
      · obtain ⟨ret, -, turn⟩ := Option.bind_eq_some_iff.mp turn
        simp only [Option.some.injEq] at turn
        exact ⟨t, by rw [← turn, ← mem], rfl, by rw [← turn]; exact next⟩
    · split at turn
      · simp only [Option.some.injEq] at turn
        exact ⟨t, by rw [← turn, ← mem], rfl, by rw [← turn]; exact next⟩
      · simp only [Option.some.injEq] at turn
        exact ⟨t.set s.i 0, by rw [← turn, ← stored, ← mem], List.length_set,
          by rw [← turn]; exact next⟩

theorem splitLoop_frame {s : Split} (h : splitLoop line k s = some r) {t after before : List UInt8}
    (mem : s.mem = before ++ (t ++ 0 :: after)) (place : before.length = line)
    (within : s.i ≤ t.length) :
    ∃ t', r.mem = before ++ (t' ++ 0 :: after) ∧ t'.length = t.length := by
  induction k generalizing s t with
  | zero => cases h
  | succ k ih =>
    obtain ⟨turn, done, h⟩ := Option.bind_eq_some_iff.mp h
    cases turn with
    | none =>
      obtain rfl := Option.some.inj h
      exact ⟨t, mem, rfl⟩
    | some s' =>
      obtain ⟨t₁, mem₁, length₁, within₁⟩ := splitTurn_keeps done mem place within
      obtain ⟨t₂, mem₂, length₂⟩ := ih h mem₁ (length₁ ▸ within₁)
      exact ⟨t₂, mem₂, length₂.trans length₁⟩

theorem splitCommandAndArgs_eq {mem' : List UInt8} {was : Int}
    (loop : splitLoop line k (reached mem .character 0 [] 1) = some (reached mem' st i ptrs c))
    (few : ptrs.length + 1 < 2 ^ 32) :
    splitCommandAndArgs k mem (some line) was =
      some (some (filled (ptrs.map some ++ [none]) 0), toInt ptrs.length, mem') := by
  have grown := realloc_filled (c := c) (show (ptrs.map some).length ≤ ptrs.length + 1 by simp)
  have stored := put_filled (ptrs.map some) 0 none
  rw [List.length_map] at grown stored
  rw [Nat.succ_sub le_rfl, Nat.sub_self] at grown
  change (splitLoop line k (reached mem .character 0 [] 1)).bind _ = _
  rw [loop, Option.bind_some]
  change (put (realloc (filled (ptrs.map some) c) (toUnsigned (ptrs.length + 1)))
    ptrs.length none).bind _ = _
  rw [toUnsigned_of_lt few, grown, stored, Option.bind_some]
  rfl

theorem splitCommandAndArgs_unique {was : Int}
    {x y : Option (Cells (Option Nat)) × Int × List UInt8}
    (h : splitCommandAndArgs k mem (some line) was = some x)
    (h' : splitCommandAndArgs n mem (some line) was = some y) : x = y := by
  obtain ⟨s, loop, h⟩ := Option.bind_eq_some_iff.mp h
  obtain ⟨s', loop', h'⟩ := Option.bind_eq_some_iff.mp h'
  have same := splitLoop_more loop n
  rw [Nat.add_comm, splitLoop_more loop' k] at same
  cases same
  exact Option.some.inj (h.symm.trans h')

end LastPicked.Shell
