import LastPicked.ShellModel

/-! The lines of a batch file. The byte 255 converts to the `char` that `EOF` is,
and the length of a line is counted in an `unsigned int`. -/

namespace LastPicked.Shell
open CIntegers HeapCells

variable {file rest line : List UInt8} {b : UInt8}

theorem toChar_newline (b : UInt8) : toChar b.toNat = newline.toNat ↔ b = newline := by
  have small := b.toNat_lt
  rw [← UInt8.toNat_inj]
  unfold toChar newline Int.bmod
  simp only [UInt8.toNat_ofNat]
  split <;> omega

theorem toChar_eq_eof (b : UInt8) : toChar b.toNat = eof ↔ b = 255 := by
  have small := b.toNat_lt
  rw [← UInt8.toNat_inj]
  unfold toChar eof Int.bmod
  simp only [UInt8.toNat_ofNat]
  split <;> omega

theorem ofInt_toChar (b : UInt8) : UInt8.ofInt (toChar b.toNat) = b := by
  have small := b.toNat_lt
  have low : (toChar b.toNat % 2 ^ 8 : Int) = b.toNat := by
    unfold toChar Int.bmod
    simp only
    split <;> omega
  rw [UInt8.ofInt, low, Int.toNat_natCast, UInt8.ofNat_toNat]

def Plain (b : UInt8) : Prop := b ≠ newline ∧ b ≠ 255

theorem not_ends (plain : Plain b) : ¬(toChar b.toNat = newline.toNat ∨ toChar b.toNat = eof) := by
  rw [toChar_newline, toChar_eq_eof]
  exact not_or.mpr plain

theorem lineLoop_turn (plain : Plain b) (seen rest : List UInt8) :
    lineLoop (b :: rest) (filled seen 1) seen.length = lineLoop rest
      (realloc (filled (seen ++ [b]) 0) (toUnsigned (toUnsigned (seen.length + 1) + 1)))
      (toUnsigned (seen.length + 1)) := by
  rw [lineLoop, ofInt_toChar, put_filled]
  exact if_neg (not_ends plain)

theorem lineLoop_line (plain : ∀ b ∈ line, Plain b) (seen : List UInt8)
    (short : seen.length + line.length < 2 ^ 32 - 1) :
    lineLoop (line ++ rest) (filled seen 1) seen.length =
      lineLoop rest (filled (seen ++ line) 1) (seen ++ line).length := by
  induction line generalizing seen with
  | nil => rw [List.append_nil, List.nil_append]
  | cons b line ih =>
    rw [List.length_cons] at short
    have counted : seen.length + 1 = (seen ++ [b]).length := by simp
    have more :=
      ih (fun x there => plain x (List.mem_cons_of_mem b there)) (seen ++ [b]) (by simp; omega)
    have grown :
        realloc (filled (seen ++ [b]) 0) ((seen ++ [b]).length + 1) = filled (seen ++ [b]) 1 := by
      rw [realloc_filled (Nat.le_succ _), Nat.succ_sub (Nat.le_refl _), Nat.sub_self]
    rw [List.cons_append, lineLoop_turn (plain b List.mem_cons_self),
      toUnsigned_of_lt (by omega : seen.length + 1 < _), toUnsigned_of_lt (by omega), counted,
      grown, more, List.append_assoc, List.singleton_append]

theorem split_at {n : Nat} (inside : n < line.length) :
    ∃ first b later, line = first ++ b :: later ∧ first.length = n :=
  ⟨line.take n, (line)[n], line.drop (n + 1),
    by rw [← List.drop_eq_getElem_cons inside, List.take_append_drop],
    by rw [List.length_take]; omega⟩

theorem lineLoop_full (file : List UInt8) (len : Nat) {c : Int} {str : Cells UInt8} {len' : Nat}
    (h : lineLoop file [] len = some (c, str, len', rest)) (x : UInt8) : put str len' x = none := by
  cases file with
  | nil =>
    rw [lineLoop] at h
    simp only [Option.some.injEq, Prod.mk.injEq] at h
    obtain ⟨-, rfl, -⟩ := h
    rfl
  | cons b file =>
    rw [lineLoop] at h
    dsimp only at h
    split at h
    case isTrue =>
      simp only [Option.some.injEq, Prod.mk.injEq] at h
      obtain ⟨-, rfl, -⟩ := h
      rfl
    case isFalse => cases h

/-- A line of 2^32 - 1 bytes makes the block shrink to nothing. -/
theorem getStringFromFile_long (plain : ∀ b ∈ line, Plain b) (long : 2 ^ 32 - 1 ≤ line.length) :
    getStringFromFile (line ++ rest) = none := by
  obtain ⟨first, b, later, rfl, length⟩ := split_at (show 2 ^ 32 - 2 < line.length by omega)
  have start :=
    @lineLoop_line (b :: (later ++ rest)) first (fun x there => plain x (by simp [there])) []
    (by rw [length]; decide)
  have turn := lineLoop_turn (plain b (by simp)) first (later ++ rest)
  have wrapped : toUnsigned (toUnsigned (first.length + 1) + 1) = 0 := by
    rw [length]
    decide
  have empty : realloc (filled (first ++ [b]) 0) 0 = [] := by simp [realloc]
  rw [wrapped, empty] at turn
  rw [List.nil_append, List.length_nil, turn] at start
  rw [List.append_assoc, List.cons_append, getStringFromFile, malloc_eq, start]
  cases loop : lineLoop (later ++ rest) [] (toUnsigned (first.length + 1)) with
  | none => rfl
  | some s =>
    obtain ⟨c, str, len, left⟩ := s
    have none := lineLoop_full (later ++ rest) _ loop 0
    simp only [Option.bind_eq_bind, Option.bind_some, none, Option.bind_none]

theorem getStringFromFile_short (plain : ∀ b ∈ line, Plain b) (short : line.length < 2 ^ 32 - 1) :
    getStringFromFile line =
        some (if line = [] then none else some (filled (line ++ [0]) 0), []) ∧
      getStringFromFile (line ++ newline :: rest) = some (some (filled (line ++ [0]) 0), rest) ∧
      getStringFromFile (line ++ 255 :: rest) =
        some (if line = [] then none else some (filled (line ++ [0]) 0), rest) := by
  have turns (file : List UInt8) : lineLoop (line ++ file) (filled [] 1) 0 =
      lineLoop file (filled line 1) line.length := by
    have turns := @lineLoop_line file line plain [] (by simpa using short)
    rwa [List.nil_append, List.length_nil] at turns
  have first := turns []
  rw [List.append_nil] at first
  have no_char : ¬((newline.toNat : Int) = eof ∧ line.length = 0) := by
    exact fun both => absurd both.1 (by decide)
  refine ⟨?_, ?_, ?_⟩
  · simp only [getStringFromFile, malloc_eq, first, lineLoop, put_filled, toChar_eof,
      List.length_eq_zero_iff, true_and, Option.bind_eq_bind, Option.bind_some]
  · have c := (toChar_newline newline).mpr rfl
    simp only [getStringFromFile, malloc_eq, turns, lineLoop, put_filled, c, true_or, if_true,
      no_char, if_false, Option.bind_eq_bind, Option.bind_some]
  · have c := (toChar_eq_eof 255).mpr rfl
    simp only [getStringFromFile, malloc_eq, turns, lineLoop, put_filled, c, or_true, if_true,
      List.length_eq_zero_iff, true_and, Option.bind_eq_bind, Option.bind_some]

theorem exists_line (file : List UInt8) : ∃ line, (∀ b ∈ line, Plain b) ∧
    (file = line ∨ ∃ rest, file = line ++ newline :: rest ∨ file = line ++ 255 :: rest) := by
  induction file with
  | nil => exact ⟨[], nofun, .inl rfl⟩
  | cons b file ih =>
    by_cases plain : Plain b
    · obtain ⟨line, all, cases⟩ := ih
      refine ⟨b :: line, List.forall_mem_cons.mpr ⟨plain, all⟩, ?_⟩
      rcases cases with rfl | ⟨rest, rfl | rfl⟩
      · exact .inl rfl
      · exact .inr ⟨rest, .inl rfl⟩
      · exact .inr ⟨rest, .inr rfl⟩
    · refine ⟨[], nofun, .inr ⟨file, ?_⟩⟩
      rcases not_and_or.mp plain with ends | ends
      · exact .inl (by rw [not_not.mp ends]; rfl)
      · exact .inr (by rw [not_not.mp ends]; rfl)

theorem readBatch_null (h : getStringFromFile file = some (none, rest)) :
    readBatch file = some ([], rest) := by
  rw [readBatch]
  split
  case h_1 again => simp [h] at again
  case h_2 again =>
    rw [h] at again
    cases again
    rfl
  case h_3 again => simp [h] at again

theorem readBatch_line {str : Cells UInt8} (h : getStringFromFile file = some (some str, rest)) :
    readBatch file = (upTo 0 str).bind fun line => (readBatch rest).map fun s =>
      (line :: s.1, s.2) := by
  rw [readBatch]
  split
  case h_1 again => simp [h] at again
  case h_2 again => simp [h] at again
  case h_3 again =>
    rw [h] at again
    cases again
    cases upTo 0 str with
    | none => rfl
    | some line => cases readBatch rest <;> rfl

theorem readBatch_stuck (h : getStringFromFile file = none) : readBatch file = none := by
  rw [readBatch]
  split
  case h_1 => rfl
  case h_2 again => simp [h] at again
  case h_3 again => simp [h] at again

/-- The bytes between newlines, and those behind the last one unless there are none. -/
def linesOf (file : List UInt8) : List (List UInt8) :=
  let parts := file.splitOn newline
  if parts.getLast? = some [] then parts.dropLast else parts

theorem linesOf_newline (inside : newline ∉ line) (rest : List UInt8) :
    linesOf (line ++ newline :: rest) = line :: linesOf rest := by
  have parts := List.splitOn_append_cons_self_of_not_mem inside rest
  obtain ⟨first, later, cons⟩ := List.exists_cons_of_ne_nil (List.splitOn_ne_nil newline rest)
  simp only [linesOf, parts, cons, List.getLast?_cons_cons, List.dropLast_cons_cons]
  split <;> rfl

theorem linesOf_last (inside : newline ∉ line) :
    linesOf line = if line = [] then [] else [line] := by
  simp [linesOf, List.splitOn_eq_singleton inside]

theorem linesOf_byte (inside : newline ∉ line) (other : b ≠ newline) (rest : List UInt8) :
    ∃ u later, linesOf (line ++ b :: rest) = (line ++ b :: u) :: later := by
  by_cases ends : newline ∈ rest
  · obtain ⟨u, v, rfl, before⟩ := List.eq_append_cons_of_mem ends
    refine ⟨u, linesOf v, ?_⟩
    rw [← linesOf_newline (by simp [inside, other.symm, before]), List.append_assoc,
      List.cons_append]
  · refine ⟨rest, [], ?_⟩
    rw [linesOf_last (by simp [inside, other.symm, ends]), if_neg (by simp)]

theorem readBatch_long (plain : ∀ b ∈ line, Plain b) (long : ¬line.length < 2 ^ 32 - 1)
    (rest : List UInt8) :
    readBatch (line ++ rest) = none :=
  readBatch_stuck (getStringFromFile_long plain (Nat.not_lt.mp long))

theorem readBatch_last (plain : ∀ b ∈ line, Plain b) (noNul : 0 ∉ line) :
    readBatch line = some (linesOf line, []) ↔ ∀ l ∈ linesOf line, l.length < 2 ^ 32 - 1 := by
  have inside : newline ∉ line := fun there => (plain _ there).1 rfl
  rw [linesOf_last inside]
  by_cases short : line.length < 2 ^ 32 - 1
  · have first := (@getStringFromFile_short [] line plain short).1
    by_cases empty : line = []
    · rw [if_pos empty] at first ⊢
      exact iff_of_true (readBatch_null first) nofun
    · rw [if_neg empty] at first ⊢
      have ended : readBatch [] = some ([], []) :=
        readBatch_null (@getStringFromFile_short [] [] nofun (by decide)).1
      have read : upTo 0 (filled (line ++ [0]) 0) = some line := upTo_filled noNul
      rw [readBatch_line first, read, Option.bind_some, ended]
      exact iff_of_true rfl (List.forall_mem_singleton.mpr short)
  · have given : line ≠ [] := by
      rintro rfl
      exact short (by decide)
    have none := readBatch_long plain short []
    rw [List.append_nil] at none
    rw [none, if_neg given]
    exact iff_of_false nofun fun all => short (all line List.mem_cons_self)

theorem readBatch_newline (plain : ∀ b ∈ line, Plain b) (noNul : 0 ∉ line) (rest : List UInt8) :
    readBatch (line ++ newline :: rest) = some (line :: linesOf rest, []) ↔
      line.length < 2 ^ 32 - 1 ∧ readBatch rest = some (linesOf rest, []) := by
  by_cases short : line.length < 2 ^ 32 - 1
  · have second := (@getStringFromFile_short rest line plain short).2.1
    have read : upTo 0 (filled (line ++ [0]) 0) = some line := upTo_filled noNul
    rw [readBatch_line second, read, Option.bind_some, and_iff_right short]
    cases readBatch rest with
    | none => simp
    | some s =>
      obtain ⟨lines, last⟩ := s
      simp
  · rw [readBatch_long plain short]
    exact iff_of_false nofun fun both => short both.1

/-- A line with the byte 255 behind it: the line that is read, if any, stops at the byte. -/
theorem readBatch_eof (plain : ∀ b ∈ line, Plain b) (noNul : 0 ∉ line) (rest : List UInt8) :
    readBatch (line ++ 255 :: rest) ≠ some (linesOf (line ++ 255 :: rest), []) := by
  intro all
  have inside : newline ∉ line := fun there => (plain _ there).1 rfl
  obtain ⟨u, later, lines⟩ := linesOf_byte inside (show (255 : UInt8) ≠ newline by decide) rest
  by_cases short : line.length < 2 ^ 32 - 1
  · have third := (@getStringFromFile_short rest line plain short).2.2
    by_cases empty : line = []
    · rw [if_pos empty] at third
      rw [readBatch_null third, lines] at all
      cases all
    · rw [if_neg empty] at third
      have read : upTo 0 (filled (line ++ [0]) 0) = some line := upTo_filled noNul
      rw [readBatch_line third, read, Option.bind_some, lines] at all
      obtain ⟨s, -, same⟩ := Option.map_eq_some_iff.mp all
      have head := (List.cons.inj (Prod.mk.inj same).1).1
      have shorter := congrArg List.length head
      rw [List.length_append, List.length_cons] at shorter
      omega
  · rw [readBatch_long plain short] at all
    cases all

/-- With every byte but 255, and lines whose length and NUL an `unsigned int` counts,
the batch loop gets all lines. -/
theorem readBatch_lines (file : List UInt8) (noNul : 0 ∉ file) :
    readBatch file = some (linesOf file, []) ↔
      255 ∉ file ∧ ∀ line ∈ linesOf file, line.length < 2 ^ 32 - 1 := by
  induction length : file.length using Nat.strongRecOn generalizing file with
  | ind n ih =>
    subst length
    obtain ⟨line, plain, cases⟩ := exists_line file
    have inside : newline ∉ line := fun there => (plain _ there).1 rfl
    have other : 255 ∉ line := fun there => (plain _ there).2 rfl
    rcases cases with rfl | ⟨rest, rfl | rfl⟩
    · rw [readBatch_last plain noNul, and_iff_right other]
    · simp only [List.mem_append, List.mem_cons, not_or] at noNul
      obtain ⟨nul, -, noNul⟩ := noNul
      have later := ih rest.length (by simp; omega) rest noNul rfl
      have behind : 255 ∉ line ++ newline :: rest ↔ 255 ∉ rest := by
        have byte : (255 : UInt8) ≠ newline := by decide
        simp [other, byte]
      rw [linesOf_newline inside, readBatch_newline plain nul, later, behind, List.forall_mem_cons]
      exact and_left_comm
    · have nul : 0 ∉ line := fun there => noNul (List.mem_append_left _ there)
      exact iff_of_false (readBatch_eof plain nul rest) fun both => both.1 (by simp)

section

theorem readBatch_lines_two : readBatch [97, 10, 10, 98] = some ([[97], [], [98]], []) :=
  (readBatch_lines [97, 10, 10, 98] (by decide)).mpr (by decide)

/-- The line of the single byte 255 is lost, and the one behind it is not read. -/
theorem readBatch_ended :
    ¬∀ file : List UInt8, 0 ∉ file → readBatch file = some (linesOf file, []) := by
  intro lines
  have all := lines [255, 10, 97] (by decide)
  exact ((readBatch_lines [255, 10, 97] (by decide)).mp all).1 (by decide)

end

end LastPicked.Shell
