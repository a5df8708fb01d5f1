import LastPicked.ShellParser
import LastPicked.Tokens

/-! The commands of a line. The semicolons are counted in as many bytes as the length
of the line is when it is converted to an `int`. -/

namespace LastPicked.Shell
open CIntegers HeapCells Tokens

variable {line rest before after s mem : List UInt8} {delim : UInt8} {p : Nat}

def segments (line : List UInt8) : List (List UInt8) := tokens semicolon line

theorem strtok_skips {b : UInt8} (other : b ≠ delim) (n : Nat) (before after : List UInt8) :
    ((before ++ (List.replicate n delim ++ b :: after)).drop before.length).takeWhile (· = delim) =
      List.replicate n delim := by
  rw [List.drop_left]
  exact takeWhile_stop (fun c there => by simpa using (List.mem_replicate.mp there).2)
    (by simpa using other) after

theorem strtok_none (nonzero : delim ≠ 0) (n : Nat) (before after : List UInt8) :
    strtok (before ++ (List.replicate n delim ++ 0 :: after)) before.length delim =
      some (none, before.length + n, before ++ (List.replicate n delim ++ 0 :: after)) := by
  have found := getElem?_behind (before ++ List.replicate n delim) 0 after
  rw [List.append_assoc, List.length_append, List.length_replicate] at found
  rw [strtok, strtok_skips nonzero.symm, List.length_replicate, found]
  rfl

theorem strtok_token {ys : List UInt8} (some : ys ≠ []) (absent : delim ∉ ys) (plain : 0 ∉ ys)
    {c : UInt8} (ends : c = 0 ∨ c = delim) (n : Nat) (before after : List UInt8) :
    strtok (before ++ (List.replicate n delim ++ (ys ++ c :: after))) before.length delim =
      Option.some (Option.some (before.length + n),
        if c = 0 then (before.length + n + ys.length,
          before ++ (List.replicate n delim ++ (ys ++ c :: after)))
        else (before.length + n + ys.length + 1,
          before ++ (List.replicate n delim ++ (ys ++ 0 :: after)))) := by
  obtain ⟨y, more, rfl⟩ := List.exists_cons_of_ne_nil some
  have other : y ≠ delim := fun same => absent (by simp [same])
  have nonzero : y ≠ 0 := fun same => plain (by simp [same])
  have found := getElem?_behind (before ++ List.replicate n delim) y (more ++ c :: after)
  have found_last := getElem?_behind (before ++ List.replicate n delim ++ y :: more) c after
  have taken :
      ((before ++ (List.replicate n delim ++ (y :: more ++ c :: after))).drop
        (before.length + n)).takeWhile
      (fun b => b ≠ delim ∧ b ≠ 0) = y :: more := by
    have place : before.length + n = (before ++ List.replicate n delim).length := by simp
    rw [← List.append_assoc before, place, List.drop_left]
    refine takeWhile_stop ?_ (by rcases ends with rfl | rfl <;> simp) after
    intro b there
    simpa using And.intro (ne_of_mem_of_not_mem there absent) (ne_of_mem_of_not_mem there plain)
  have stored : (before ++ (List.replicate n delim ++ (y :: more ++ c :: after))).set
      (before.length + n + (y :: more).length) 0 =
        before ++ (List.replicate n delim ++ (y :: more ++ 0 :: after)) := by
    have place : before.length + n + (y :: more).length =
        (before ++ List.replicate n delim ++ y :: more).length := by
      simp; omega
    rw [← List.append_assoc before, ← List.append_assoc (before ++ _), place,
      List.set_append_right _ _ le_rfl, Nat.sub_self, List.set_cons_zero, List.append_assoc,
      List.append_assoc]
  rw [List.append_assoc, List.length_append, List.length_replicate] at found
  rw [List.append_assoc, List.append_assoc, List.length_append, List.length_append,
    List.length_replicate] at found_last
  rw [strtok, List.cons_append, strtok_skips other, List.length_replicate, found]
  rw [List.cons_append] at taken found_last stored
  simp only [Option.bind_eq_bind, Option.bind_some, if_neg nonzero, taken, found_last, stored]
  split <;> rfl

theorem strtok_string {mem : List UInt8} (text : textAt mem p = some s) (nonempty : s ≠ [])
    (absent : delim ∉ s) :
    ∃ save', strtok mem p delim = some (some p, save', mem) := by
  obtain ⟨plain, before, after, rfl, rfl⟩ := textAt_eq_some.mp text
  exact ⟨_, strtok_token nonempty absent plain (.inl rfl) 0 before after⟩

theorem strtok_found (plain : 0 ∉ rest) {others : List Nat}
    (found : starts delim false before.length rest = p :: others) :
    ∃ save' mem', strtok (before ++ (rest ++ 0 :: after)) before.length delim =
      some (some p, save', mem') := by
  induction rest using token_induction delim with
  | delimiters n =>
    rw [starts_none] at found
    cases found
  | last n ys nonempty absent =>
    have call := strtok_token nonempty absent (fun there => plain (List.mem_append_right _ there))
      (.inl rfl) n before after
    rw [starts_delimiters, starts_last nonempty absent] at found
    obtain ⟨rfl, -⟩ := List.cons.inj found
    rw [List.append_assoc]
    exact ⟨_, _, call⟩
  | token n ys rest nonempty absent _ =>
    have call :=
      strtok_token nonempty absent (fun there => plain (by simp [there])) (.inr rfl) n before
      (rest ++ 0 :: after)
    rw [starts_delimiters, starts_token nonempty absent] at found
    obtain ⟨rfl, -⟩ := List.cons.inj found
    rw [List.append_assoc, List.append_assoc]
    exact ⟨_, _, call⟩

theorem tokenLoop_none {save save' i : Nat} {mem' : List UInt8} {list : Cells (Option Nat)}
    (h : strtok mem save semicolon = some (none, save', mem')) :
    tokenLoop mem save i list = (put list i none).map (·, mem') := by
  rw [tokenLoop]
  split
  case h_1 again => simp [h] at again
  case h_2 again =>
    rw [h] at again
    cases again
    rfl
  case h_3 again => simp [h] at again

theorem tokenLoop_some {save save' i : Nat} {mem' : List UInt8} {list : Cells (Option Nat)}
    (h : strtok mem save semicolon = some (some p, save', mem')) :
    tokenLoop mem save i list = (put list i (some p)).bind (tokenLoop mem' save' (i + 1)) := by
  rw [tokenLoop]
  split
  case h_1 again => simp [h] at again
  case h_2 again => simp [h] at again
  case h_3 again =>
    rw [h] at again
    cases again
    rfl

section TokenLoop

variable {ys : List UInt8} (before : List UInt8) (i : Nat) (list : Cells (Option Nat))

theorem tokenLoop_delimiters (n : Nat) :
    tokenLoop (before ++ (List.replicate n semicolon ++ [0])) before.length i list =
      (put list i none).map (·, before ++ (List.replicate n semicolon ++ [0])) :=
  tokenLoop_none (strtok_none (show semicolon ≠ 0 by decide) n before [])

theorem tokenLoop_last (nonempty : ys ≠ []) (absent : semicolon ∉ ys) (plain : 0 ∉ ys) (n : Nat) :
    tokenLoop (before ++ (List.replicate n semicolon ++ (ys ++ [0]))) before.length i list =
      (put list i (some (before.length + n))).bind fun list =>
        (put list (i + 1) none).map (·, before ++ (List.replicate n semicolon ++ (ys ++ [0]))) := by
  have call := strtok_token nonempty absent plain (.inl rfl) n before []
  have place : before.length + n + ys.length =
    (before ++ (List.replicate n semicolon ++ ys)).length := by simp; omega
  have again := tokenLoop_delimiters (before ++ (List.replicate n semicolon ++ ys)) (i + 1)
  rw [tokenLoop_some call, place]
  refine congrArg (Option.bind _) (funext fun list => ?_)
  simpa using again list 0

theorem tokenLoop_token (nonempty : ys ≠ []) (absent : semicolon ∉ ys) (plain : 0 ∉ ys) (n : Nat)
    (rest : List UInt8) :
    tokenLoop (before ++ (List.replicate n semicolon ++ (ys ++ semicolon :: rest)))
        before.length i list =
      (put list i (some (before.length + n))).bind
        (tokenLoop (before ++ (List.replicate n semicolon ++ (ys ++ [0])) ++ rest)
          (before ++ (List.replicate n semicolon ++ (ys ++ [0]))).length (i + 1)) := by
  have call := strtok_token nonempty absent plain (.inr rfl) n before rest
  have place : before.length + n + ys.length + 1 =
      (before ++ (List.replicate n semicolon ++ (ys ++ [0]))).length := by
    simp
    omega
  rw [tokenLoop_some call, place]
  simp

end TokenLoop

theorem tokenLoop_line (plain : 0 ∉ rest) (before : List UInt8) (ptrs : List (Option Nat))
    (c : Nat) :
    tokenLoop (before ++ (rest ++ [0])) before.length ptrs.length
        (filled ptrs ((starts semicolon false before.length rest).length + 1 + c)) =
      some (filled (ptrs ++ ((starts semicolon false before.length rest).map some ++ [none])) c,
        before ++ (cut semicolon 0 false rest ++ [0])) := by
  have counted (ptrs : List (Option Nat)) (p : Option Nat) :
    ptrs.length + 1 = (ptrs ++ [p]).length := by simp
  induction rest using token_induction semicolon generalizing before ptrs with
  | delimiters n =>
    rw [tokenLoop_delimiters, starts_none, cut_none, List.length_nil, Nat.zero_add,
      Nat.add_comm, put_filled]
    rfl
  | last n ys nonempty absent =>
    rw [starts_delimiters, starts_last nonempty absent, cut_delimiters, cut_last false absent,
      List.append_assoc, tokenLoop_last before _ _ nonempty absent fun there =>
        plain (List.mem_append_right _ there),
      List.length_singleton, Nat.add_comm, put_filled, Option.bind_some, counted, put_filled]
    simp
  | token n ys rest nonempty absent ih =>
    have cells (k : Nat) : k + 1 + 1 + c = k + 1 + c + 1 := by omega
    have place : before.length + n + ys.length + 1 =
        (before ++ (List.replicate n semicolon ++ (ys ++ [0]))).length := by
      simp
      omega
    rw [starts_delimiters, starts_token nonempty absent, cut_delimiters,
      cut_token false nonempty absent, List.append_assoc, List.append_assoc, List.cons_append,
      tokenLoop_token before _ _ nonempty absent (fun there => plain (by simp [there])),
      List.length_cons, cells,
      put_filled, Option.bind_some, counted, place, ih (fun there => plain (by simp [there]))]
    simp

theorem tokenLoop_full (plain : 0 ∉ rest) (before : List UInt8) (ptrs : List (Option Nat)) {c : Nat}
    (few : c ≤ (starts semicolon false before.length rest).length) :
    tokenLoop (before ++ (rest ++ [0])) before.length ptrs.length (filled ptrs c) = none := by
  have counted (p : Option Nat) : ptrs.length + 1 = (ptrs ++ [p]).length := by simp
  induction rest using token_induction semicolon generalizing before ptrs c with
  | delimiters n =>
    rw [starts_none] at few
    obtain rfl := Nat.le_zero.mp few
    rw [tokenLoop_delimiters, put_full]
    rfl
  | last n ys nonempty absent =>
    rw [starts_delimiters, starts_last nonempty absent, List.length_singleton] at few
    rw [List.append_assoc, tokenLoop_last before _ _ nonempty absent fun there =>
      plain (List.mem_append_right _ there)]
    cases c with
    | zero => rw [put_full]; rfl
    | succ c =>
      obtain rfl : c = 0 := by omega
      rw [put_filled, Option.bind_some, counted, put_full]
      rfl
  | token n ys rest nonempty absent ih =>
    have place : before.length + n + ys.length + 1 =
        (before ++ (List.replicate n semicolon ++ (ys ++ [0]))).length := by
      simp
      omega
    rw [starts_delimiters, starts_token nonempty absent, place, List.length_cons] at few
    rw [List.append_assoc, List.append_assoc, List.cons_append,
      tokenLoop_token before _ _ nonempty absent fun there => plain (by simp [there])]
    cases c with
    | zero => rw [put_full]; rfl
    | succ c =>
      rw [put_filled, Option.bind_some, counted]
      exact ih (fun there => plain (by simp [there])) _ _ (Nat.le_of_succ_le_succ few)
        fun p => by simp

theorem countLoop_eq (mem : List UInt8) (k i : Nat) (inside : i + k ≤ mem.length) {count : Int}
    (low : 0 ≤ count) (high : count ≤ intMax) :
    countLoop mem k i count =
      if count + (((mem.drop i).take k).count semicolon : Nat) ≤ intMax then
        some (count + (((mem.drop i).take k).count semicolon : Nat))
      else none := by
  induction k generalizing i count with
  | zero => simp [countLoop, high]
  | succ k ih =>
    have within : i < mem.length := by omega
    rw [countLoop, List.getElem?_eq_getElem within, List.drop_eq_getElem_cons within,
      List.take_succ_cons]
    by_cases found : mem[i] = semicolon
    · rw [found, List.count_cons_self]
      by_cases more : count + 1 ≤ intMax
      · have added : addInt count 1 = some (count + 1) :=
          addInt_eq_some.mpr ⟨rfl, by unfold intMin; omega, more⟩
        have next := ih (i + 1) (by omega) (show 0 ≤ count + 1 by omega) more
        simp only [Option.bind_eq_bind, Option.bind_some, if_true, added, next, Nat.cast_add,
          Nat.cast_one, add_assoc, add_comm (1 : Int)]
      · have overflow : addInt count 1 = none := if_neg fun both => more both.2
        rw [if_neg (by omega)]
        simp only [Option.bind_eq_bind, Option.bind_some, if_true, overflow, Option.bind_none]
    · rw [List.count_cons_of_ne found]
      simp only [Option.bind_eq_bind, Option.bind_some, if_neg found,
        ih (i + 1) (by omega) low high]

def counted (line : List UInt8) : Nat := (line.take (toInt line.length).toNat).count semicolon

theorem toInt_le (n : Nat) : (toInt n).toNat ≤ n := by
  unfold toInt Int.bmod
  dsimp only
  split <;> omega

theorem countLoop_line (line : List UInt8) :
    countLoop (line ++ [0]) (toInt line.length).toNat 0 1 =
      if 1 + (counted line : Int) ≤ intMax then some (1 + (counted line : Int)) else none := by
  have size := toInt_le line.length
  have count := countLoop_eq (line ++ [0]) (toInt line.length).toNat 0
    (by rw [List.length_append]; omega) (show (0 : Int) ≤ 1 by decide) (show 1 ≤ intMax by decide)
  rw [List.drop_zero, List.take_append_of_le_length size, ← counted] at count
  exact count

theorem getCommands_some (mem : List UInt8) :
    getCommands (some mem) = (strlen mem 0).bind fun length =>
      (countLoop mem (toInt length).toNat 0 1).bind fun count => (addInt 1 count).bind fun cells =>
        (tokenLoop mem 0 0 (malloc (Option Nat) cells.toNat)).bind fun made => some
        (some made.1, made.2) := rfl

theorem getCommands_line (plain : 0 ∉ line) :
    getCommands (some (line ++ [0])) =
      if counted line + 2 ≤ intMax ∧ (segments line).length ≤ counted line + 1 then
        some (some (filled ((starts semicolon false 0 line).map some ++ [none])
          (counted line + 1 - (segments line).length)), cut semicolon 0 false line ++ [0])
      else none := by
  have length : strlen (line ++ [0]) 0 = some line.length := by
    have text := textAt_append plain [] []
    rw [List.nil_append, List.length_nil] at text
    rw [strlen, text, Option.map_some]
  have same : (segments line).length = (starts semicolon false 0 line).length :=
    (starts_length 0 line).symm
  rw [getCommands_some, length, Option.bind_some, countLoop_line]
  by_cases room : (counted line : Int) + 2 ≤ intMax
  · have cells : addInt 1 (1 + counted line) = some ((counted line + 2 : Nat) : Int) :=
      addInt_eq_some.mpr ⟨by push_cast; omega, by unfold intMin; omega, by push_cast; omega⟩
    rw [if_pos (by omega), Option.bind_some, cells, Option.bind_some, Int.toNat_natCast, malloc_eq]
    by_cases few : (segments line).length ≤ counted line + 1
    · obtain ⟨c, enough⟩ := Nat.exists_eq_add_of_le few
      have loop := tokenLoop_line plain [] [] c
      rw [List.length_nil, ← same, Nat.add_right_comm, ← enough, List.nil_append, List.nil_append,
        List.nil_append, List.length_nil] at loop
      rw [loop, Option.bind_some, if_pos ⟨room, few⟩, enough, Nat.add_sub_cancel_left]
    · have loop :=
        tokenLoop_full plain [] [] (c := counted line + 2) (by rw [List.length_nil, ← same]; omega)
      rw [List.length_nil, List.length_nil, List.nil_append] at loop
      rw [loop, if_neg fun both => few both.2, Option.bind_none]
  · have closed :
        ¬((counted line : Int) + 2 ≤ intMax ∧ (segments line).length ≤ counted line + 1) :=
      fun both => room both.1
    rw [if_neg closed]
    by_cases summed : 1 + (counted line : Int) ≤ intMax
    · have overflow : addInt 1 (1 + counted line) = none :=
        if_neg fun both => room (by have := both.2; omega)
      rw [if_pos summed, Option.bind_some, overflow, Option.bind_none]
    · rw [if_neg summed, Option.bind_none]

end LastPicked.Shell
