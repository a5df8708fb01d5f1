import LastPicked.ShellSplit

/-! The words of a command. The index of the loop is an `unsigned int`, so that a
command of 2^32 bytes is read a second time from its start on, and what is there then
are the NULs behind its first words. -/

namespace LastPicked.Shell
open CIntegers HeapCells Tokens

variable {before after s t u v mem mem' : List UInt8} {ws : List (List UInt8)} {ptrs : List Nat}
  {i k n c p : Nat}
  {st : State}

def words (s : List UInt8) : List (List UInt8) := tokens space s

def Splits (mem : List UInt8) (p : Nat) (ws : List (List UInt8)) : Prop :=
  ∀ was, ∃ (k : Nat) (ptrs : List Nat) (mem' : List UInt8), splitCommandAndArgs k mem (some p) was =
      some (some (filled (ptrs.map some ++ [none]) 0), (ws.length : Int), mem') ∧
    ptrs.map (textAt mem') = ws.map some

theorem toInt_natCast (n : Nat) (small : n < 2 ^ 32) : toInt n = n ↔ n < 2 ^ 31 := by
  unfold toInt Int.bmod
  dsimp only
  split <;> omega

theorem filled_injective {xs ys : List Nat}
    (same : filled (xs.map some ++ [none]) 0 = filled (ys.map some ++ [none]) 0) :
    xs = ys := by
  have inside : Function.Injective (some ∘ some : Nat → Option (Option Nat)) :=
    fun x y h => by simpa using h
  exact List.map_injective_iff.mpr inside (by simpa [filled] using same)

theorem splits_of_loop
    (loop : splitLoop p k (reached mem .character 0 [] 1) = some (reached mem' st i ptrs c))
    (few : ptrs.length + 1 < 2 ^ 32) :
    Splits mem p ws ↔ ws.length < 2 ^ 31 ∧ ptrs.map (textAt mem') = ws.map some := by
  constructor
  · intro splits
    obtain ⟨k', ptrs', mem₁, call, texts⟩ := splits 0
    have same := splitCommandAndArgs_unique (splitCommandAndArgs_eq loop few) call
    simp only [Prod.mk.injEq, Option.some.injEq] at same
    obtain ⟨cells, number, rfl⟩ := same
    obtain rfl := filled_injective cells
    have length : ptrs.length = ws.length := by simpa using congrArg List.length texts
    rw [← length] at number ⊢
    exact ⟨(toInt_natCast _ (by omega)).mp number, texts⟩
  · rintro ⟨small, texts⟩ was
    have length : ptrs.length = ws.length := by simpa using congrArg List.length texts
    refine ⟨k, ptrs, mem', ?_, texts⟩
    rw [splitCommandAndArgs_eq loop few, (toInt_natCast _ (by omega)).mpr (length ▸ small), length]

theorem not_splits (never : ∀ k, splitLoop p k (reached mem .character 0 [] 1) = none) :
    ¬Splits mem p ws := by
  intro splits
  obtain ⟨k, ptrs, mem', call, -⟩ := splits 0
  change (splitLoop p k (reached mem .character 0 [] 1)).bind _ = _ at call
  rw [never k] at call
  cases call

theorem word_of_text (texts : ptrs.map (textAt mem) = ws.map some) (there : p ∈ ptrs)
    (text : textAt mem p = some s) :
    s ∈ ws := by
  have member := List.mem_map_of_mem (f := textAt mem) there
  rw [texts, text] at member
  simpa using member

theorem nul_not_mem (plain : ∀ b ∈ s, b ≠ semicolon ∧ b ≠ 0) : 0 ∉ s :=
  fun there => (plain 0 there).2 rfl

theorem splits_short (plain : ∀ b ∈ s, b ≠ semicolon ∧ b ≠ 0) (short : s.length < 2 ^ 32)
    (before after : List UInt8) :
    Splits (before ++ (s ++ 0 :: after)) before.length (words s) ↔ (words s).length < 2 ^ 31 := by
  have few := starts_few false before.length s (d := space)
  obtain ⟨c, loop⟩ := splitLoop_string before after plain short false 1
    (show List.length [] + _ < _ by rw [List.length_nil]; omega)
  rw [List.nil_append] at loop
  have texts :=
    map_textAt (d := space) (nul_not_mem plain) before List.mem_cons_self fun _ => ⟨after, rfl⟩
  rw [splits_of_loop loop (by omega), words]
  exact and_iff_left texts

section Around

variable (before : List UInt8) (plain : ∀ b ∈ u, b ≠ semicolon ∧ b ≠ 0) (long : u.length = 2 ^ 32)

include plain long

theorem round_first (after : List UInt8) (k : Nat) :
    ∃ c, splitLoop before.length (u.length + k)
        (reached (before ++ (u ++ after)) .character 0 [] 1) =
      splitLoop before.length k
        (reached (before ++ (cut space 0 false u ++ after)) (stateOf (inToken space false u)) 0
        (starts space false before.length u) c) := by
  have few := starts_few false before.length u (d := space)
  exact splitLoop_round before after plain long false k 1 (show List.length [] + _ <
    _ by rw [List.length_nil]; omega)

theorem not_splits_spaces (shape : u = List.replicate n space) :
    ¬Splits (before ++ (u ++ after)) before.length ws := by
  refine not_splits fun k => ?_
  refine splitLoop_never before after plain long false ?_ ?_ ?_
    (show List.length [] < _ by decide) k 1
  · rw [shape, cut_none]
  · rw [shape, starts_none]
  · rw [shape, inToken_none]

theorem not_splits_word (one : space ∉ u) : ¬Splits (before ++ (u ++ after)) before.length ws := by
  have some : u ≠ [] := by
    rintro rfl
    cases long
  refine not_splits fun k => ?_
  obtain ⟨c, loop⟩ := round_first before plain long after k
  have found := starts_last some one before.length
  have never :=
    splitLoop_never before after plain long true (cut_last true one) (starts_inside one _)
    (inToken_last true some one) (show [before.length].length <
      _ by rw [List.length_singleton]; decide) k c
  rw [found, cut_last false one, inToken_last false some one, never] at loop
  cases result : splitLoop before.length k (reached (before ++ (u ++ after)) .character 0 [] 1) with
  | none => rfl
  | some r =>
    rw [Nat.add_comm, splitLoop_more result u.length] at loop
    cases loop

theorem not_splits_gap {ys : List UInt8} (shape : u = List.replicate (n + 1) space ++ ys)
    (some : ys ≠ []) (one : space ∉ ys) (unmarked : 0 ∉ v) :
    ¬Splits (before ++ (u ++ (v ++ 0 :: after))) before.length (words (u ++ v)) := by
  intro splits
  have unmarked' : 0 ∉ ys ++ v := by
    have whole := nul_not_mem plain
    rw [shape] at whole
    exact fun there =>
      (List.mem_append.mp there).elim (fun there => whole (List.mem_append_right _ there)) unmarked
  have same : cut space 0 false u = u := by rw [shape, cut_delimiters, cut_last false one]
  have word : inToken space false u = true := by
    rw [shape, inToken_delimiters, inToken_last false some one]
  have found : starts space false before.length u = [before.length + (n + 1)] := by
    rw [shape, starts_delimiters, starts_last some one]
  have marked : cut space 0 true u = 0 :: (List.replicate n space ++ ys) := by
    rw [shape, List.replicate_succ, List.cons_append, cut, if_pos rfl, if_pos rfl, cut_delimiters,
      cut_last false one]
  have found_again : starts space true before.length u = [before.length + (n + 1)] := by
    rw [shape, List.replicate_succ, List.cons_append, starts, if_pos rfl, starts_delimiters,
      starts_last some one, Nat.add_assoc, Nat.add_comm 1]
  obtain ⟨c₁, first⟩ := round_first before plain long (v ++ 0 :: after) (u.length + 1)
  obtain ⟨c₂, second⟩ := splitLoop_round before (v ++ 0 :: after) plain long true 1 c₁
    (show [before.length + (n + 1)].length + _ < _ by
      rw [found_again, List.length_singleton]; decide)
  rw [same, word, found, second, marked, found_again] at first
  have ended :=
    @splitTurn_end before (List.replicate n space ++ ys ++ (v ++ 0 :: after)) before.length 0 c₂
    ([before.length + (n + 1)] ++ [before.length + (n + 1)]) (stateOf (inToken space true u)) 0 rfl
      (.inr rfl)
  rw [List.cons_append, splitLoop_break (k := 0) ended] at first
  have texts :=
    ((splits_of_loop first (by rw [List.length_append, List.length_singleton]; decide)).mp splits).2
  have text : textAt (before ++ 0 :: (List.replicate n space ++ ys ++ (v ++ 0 :: after)))
      (before.length + (n + 1)) = Option.some (ys ++ v) := by
    have read :=
      textAt_append (s := ys ++ v) unmarked' (before ++ 0 :: List.replicate n space) after
    simpa using read
  rw [List.map_append, List.map_singleton, text] at texts
  have twice : words (u ++ v) = [ys ++ v, ys ++ v] := by
    refine (List.map_injective_iff.mpr (Option.some_injective _) ?_).symm
    simpa using texts
  have full : ys ++ v ≠ [] := by simp [some]
  have once : words (u ++ v) = [ys ++ v] := by
    have plain_word : space ∉ ys ++ v :=
      (token_spec (show ys ++ v ∈ words (u ++ v) by simp [twice])).2
    rw [words, shape, List.append_assoc, tokens_delimiters, tokens_last full plain_word]
  rw [twice] at once
  cases once

theorem splits_round (after : List UInt8) (ws : List (List UInt8)) {t rest : List UInt8}
    (shape : cut space 0 false u = t ++ 0 :: rest)
    (few : (starts space (inToken space false u) before.length t).length ≤ 1)
    (plain' : ∀ b ∈ t, b ≠ semicolon ∧ b ≠ 0) :
    Splits (before ++ (u ++ after)) before.length ws ↔
      ws.length < 2 ^ 31 ∧
        (starts space false before.length u ++ starts space (inToken space false u)
          before.length t).map
          (textAt (before ++ (cut space 0 (inToken space false u) t ++ 0 :: (rest ++ after)))) =
            ws.map some := by
  have some := starts_few false before.length u (d := space)
  have short : t.length < u.length := by
    rw [← cut_length false u (d := space) (z := 0), shape, List.length_append, List.length_cons]
    omega
  obtain ⟨c₁, first⟩ := round_first before plain long after (t.length + 1)
  obtain ⟨c₂, second⟩ :=
    splitLoop_string before (rest ++ after) plain' (long ▸ short) (inToken space false u) c₁
    (show (starts space false before.length u).length + _ < _ by omega)
  rw [shape, List.append_assoc, List.cons_append] at first
  exact splits_of_loop (first.trans second) (by rw [List.length_append]; omega)

variable {ys rest : List UInt8} (shape : u = List.replicate n space ++ (ys ++ space :: rest))
  (some : ys ≠ []) (one : space ∉ ys)

include shape some one

/-- Where the first round ends outside of a word, the second one adds the first word of
the first one. -/
theorem splits_outside (outside : inToken space false u = false) :
    Splits (before ++ (u ++ (v ++ 0 :: after))) before.length (words (u ++ v)) ↔
      (words (u ++ v)).length < 2 ^ 31 ∧ words v = [ys] := by
  have unmarked' := nul_not_mem plain
  have marked :
      cut space 0 false u = List.replicate n space ++ ys ++ 0 :: cut space 0 false rest := by
    rw [shape, cut_delimiters, cut_token false some one, List.append_assoc]
  have found :
      starts space false before.length (List.replicate n space ++ ys) = [before.length + n] := by
    rw [starts_delimiters, starts_last some one]
  have same : cut space 0 false (List.replicate n space ++ ys) = List.replicate n space ++ ys := by
    rw [cut_delimiters, cut_last false one]
  have texts := map_textAt (d := space) unmarked' before (show 0 ∈ v ++ 0 :: after by simp)
    fun inside => by rw [outside] at inside; cases inside
  have first : textAt (before ++ (cut space 0 false u ++ (v ++ 0 :: after))) (before.length + n) =
      Option.some ys := by
    have read := textAt_append (s := ys) (fun there => unmarked' (by simp [shape, there]))
      (before ++ List.replicate n space) (cut space 0 false rest ++ (v ++ 0 :: after))
    rw [marked]
    simpa using read
  have round := splits_round before plain long (v ++ 0 :: after) (words (u ++ v)) marked
    (by rw [outside, found]; exact le_rfl) fun b there => plain b (by
      rw [shape]
      rcases List.mem_append.mp there with there | there <;> simp [there])
  rw [outside, found, same, ← List.cons_append, ← List.append_assoc (List.replicate n space ++ ys),
    ← marked, List.map_append, texts, List.map_singleton, first] at round
  rw [round, words, tokens_append outside, words, List.map_append, List.append_cancel_left_eq,
    ← List.map_singleton, (List.map_injective_iff.mpr (Option.some_injective _)).eq_iff,
    eq_comm (a := [ys])]

/-- Where it ends in a word, the second one finds no word if there is no space in front
of the first. The bytes from 2^32 on belong to the last word. -/
theorem splits_inside (inside : inToken space false u = true) (unmarked : 0 ∉ v) :
    Splits (before ++ (u ++ (v ++ 0 :: after))) before.length (words (u ++ v)) ↔
      (words (u ++ v)).length < 2 ^ 31 ∧ n = 0 ∧ space ∉ v := by
  have unmarked' := nul_not_mem plain
  have marked :
      cut space 0 false u = List.replicate n space ++ ys ++ 0 :: cut space 0 false rest := by
    rw [shape, cut_delimiters, cut_token false some one, List.append_assoc]
  have few : (starts space true before.length (List.replicate n space ++ ys)).length = if n =
      0 then 0 else 1 := by
    cases n with
    | zero => rw [List.replicate_zero, List.nil_append, starts_inside one]; rfl
    | succ n =>
        rw [List.replicate_succ, List.cons_append, starts, if_pos rfl, starts_delimiters,
          starts_last some one]
        rfl
  have round := splits_round before plain long (v ++ 0 :: after) (words (u ++ v)) marked
    (by rw [inside, few]; split <;> decide) fun b there => plain b (by
      rw [shape]
      rcases List.mem_append.mp there with there | there <;> simp [there])
  rw [inside] at round
  rw [round]
  refine and_congr_right fun _ => ?_
  have behind :
    inToken space false rest = true := by rwa [shape, inToken_delimiters, inToken_token] at inside
  obtain ⟨front, last, rfl, outside, full, plain_last⟩ := exists_last behind
  have whole : u = List.replicate n space ++ (ys ++ space :: front) ++ last := by simp [shape]
  have outside_last :
      inToken space false (List.replicate n space ++ (ys ++ space :: front)) = false := by
    rw [inToken_delimiters, inToken_token, outside]
  constructor
  · intro texts
    have length := congrArg List.length texts
    have there : before.length + (List.replicate n space ++ (ys ++ space :: front)).length ∈
        starts space false before.length u := by
      rw [whole, starts_append, outside_last, starts_last full plain_last]
      exact List.mem_append_right _ List.mem_cons_self
    have text : textAt (before ++ (cut space 0 true (List.replicate n space ++ ys) ++
        0 :: (cut space 0 false (front ++ last) ++ (v ++ 0 :: after))))
          (before.length + (List.replicate n space ++ (ys ++ space :: front)).length) =
              Option.some (last ++ v) := by
      have unmarked_last : 0 ∉ last ++ v := fun there => (List.mem_append.mp there).elim
        (fun there => unmarked' (by rw [whole]; exact List.mem_append_right _ there)) unmarked
      have read := textAt_append unmarked_last
        (before ++ (cut space 0 true (List.replicate n space ++ ys) ++ 0 :: cut space
          0 false front)) after
      rw [cut_append false front last, outside, cut_last false plain_last]
      simpa [Nat.add_assoc] using read
    have plain_word := (token_spec (word_of_text texts (List.mem_append_left _ there) text)).2
    have split : words (u ++ v) = tokens space (List.replicate n space ++ (ys ++ space :: front)) ++
        [last ++ v] := by
      rw [words, whole, List.append_assoc, tokens_append outside_last,
        tokens_last (by simp [full]) plain_word]
    have split_first : tokens space u =
        tokens space (List.replicate n space ++ (ys ++ space :: front)) ++ [last] := by
      rw [whole, tokens_append outside_last, tokens_last full plain_last]
    rw [List.length_map, List.length_map, List.length_append, few, starts_length, split,
      split_first, List.length_append, List.length_append] at length
    refine ⟨?_, fun there => plain_word (List.mem_append_right _ there)⟩
    by_contra some
    simp [some] at length
  · rintro ⟨rfl, plain_v⟩
    rw [if_pos rfl] at few
    have starts_whole :
        starts space false before.length (u ++ v) = starts space false before.length u := by
      rw [starts_append, inside, starts_inside plain_v, List.append_nil]
    have cut_whole :
        cut space 0 false (u ++ v) = ys ++ 0 :: (cut space 0 false (front ++ last) ++ v) := by
      rw [cut_append, inside, cut_last true plain_v, marked]
      simp
    have unmarked_whole : 0 ∉ u ++ v :=
      fun there => (List.mem_append.mp there).elim unmarked' unmarked
    have texts :=
      map_textAt (d := space) unmarked_whole before List.mem_cons_self fun _ => ⟨after, rfl⟩
    rw [starts_whole, cut_whole] at texts
    rw [List.length_eq_zero_iff.mp few, List.append_nil, List.replicate_zero, List.nil_append,
      cut_last true one, words, ← texts]
    simp

end Around

/-- The commands of 2^32 bytes and more that are split into their words: the first 2^32
bytes start and end in a word, have a space, and there is none behind them, or they end in
a space, and the one word behind them is the first one again. -/
def Around (s : List UInt8) : Prop :=
  ∃ u v, s = u ++ v ∧ u.length = 2 ^ 32 ∧
    (u.getLast? ≠ some space ∧ u.head? ≠ some space ∧ space ∈ u ∧ space ∉ v ∨
      u.getLast? = some space ∧ ∃ w, (words u).head? = some w ∧ words v = [w])

theorem around_append (long : u.length = 2 ^ 32) : Around (u ++ v) ↔
    inToken space false u = true ∧ u.head? ≠ some space ∧ space ∈ u ∧ space ∉ v ∨
      inToken space false u = false ∧ ∃ w, (words u).head? = some w ∧ words v = [w] := by
  have full : u ≠ [] := by
    rintro rfl
    cases long
  have inside := inToken_iff (d := space) false full
  have outside : inToken space false u = false ↔ u.getLast? = some space := by
    rw [← Bool.not_eq_true, inside, not_not]
  rw [inside, outside]
  constructor
  · rintro ⟨u', v', whole, long', cases⟩
    obtain ⟨rfl, rfl⟩ := List.append_inj whole (long.trans long'.symm)
    exact cases
  · exact fun cases => ⟨u, v, rfl, long, cases⟩

/-- Which commands are split into their words: the number of words is an `int`, and the
index did not wrap around, or did no harm. -/
def Fits (s : List UInt8) : Prop := (words s).length < 2 ^ 31 ∧ (s.length < 2 ^ 32 ∨ Around s)

theorem splits_iff (plain : ∀ b ∈ s, b ≠ semicolon ∧ b ≠ 0) (before after : List UInt8) :
    Splits (before ++ (s ++ 0 :: after)) before.length (words s) ↔ Fits s := by
  unfold Fits
  rcases Nat.lt_or_ge s.length (2 ^ 32) with short | long
  · rw [splits_short plain short]
    exact (and_iff_left (.inl short)).symm
  · obtain ⟨u, v, rfl, long'⟩ : ∃ u v, s = u ++ v ∧ u.length = 2 ^ 32 :=
      ⟨_, _, (List.take_append_drop (2 ^ 32) s).symm, List.length_take_of_le long⟩
    have plain_u : ∀ b ∈ u, b ≠ semicolon ∧ b ≠ 0 :=
      fun b there => plain b (List.mem_append_left v there)
    have unmarked : 0 ∉ v := fun there => nul_not_mem plain (List.mem_append_right u there)
    rw [or_iff_right (Nat.not_lt.mpr long), around_append long', List.append_assoc]
    induction u using token_induction space with
    | delimiters n =>
      refine iff_of_false (not_splits_spaces before plain_u long' rfl) ?_
      rintro ⟨-, ⟨inside, -⟩ | ⟨-, w, first, -⟩⟩
      · rw [inToken_none] at inside
        cases inside
      · rw [words, tokens_none] at first
        cases first
    | last n ys full absent =>
      have inside : inToken space false (List.replicate n space ++ ys) = true := by
        rw [inToken_delimiters, inToken_last false full absent]
      cases n with
      | zero =>
        refine iff_of_false (not_splits_word before plain_u long' absent) ?_
        rintro ⟨-, ⟨-, -, gap, -⟩ | ⟨outside, -⟩⟩
        · exact absent gap
        · rw [inside] at outside
          cases outside
      | succ n =>
        refine iff_of_false (not_splits_gap before plain_u long' rfl full absent unmarked) ?_
        rintro ⟨-, ⟨-, first, -⟩ | ⟨outside, -⟩⟩
        · exact first rfl
        · rw [inside] at outside
          cases outside
    | token n ys rest full absent _ =>
      cases ends : inToken space false (List.replicate n space ++ (ys ++ space :: rest)) with
      | false =>
        have first : (words (List.replicate n space ++ (ys ++ space :: rest))).head? = some ys := by
          rw [words, tokens_delimiters, tokens_token full absent]
          rfl
        rw [splits_outside before plain_u long' rfl full absent ends, first]
        simp
      | true =>
        have gap : space ∈ List.replicate n space ++ (ys ++ space :: rest) := by simp
        have first : (List.replicate n space ++ (ys ++ space :: rest)).head? ≠ some space ↔
            n = 0 := by
          cases n with
          | zero =>
            obtain ⟨y, more, rfl⟩ := List.exists_cons_of_ne_nil full
            have other : y ≠ space := fun same => absent (by rw [same]; exact List.mem_cons_self)
            simp [other]
          | succ n => simp [List.replicate_succ]
        rw [splits_inside before plain_u long' rfl full absent ends unmarked, first]
        simp [gap]

end LastPicked.Shell
