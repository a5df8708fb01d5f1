import LastPicked.MyShellModel
import LastPicked.ShellCommands
import LastPicked.ShellWords

/-! What the older shell hands over for a line. The newline is cut off the last
argument, so that there has to be more of that argument than the newline. -/

namespace LastPicked.MyShell
open HeapCells Shell Tokens

variable {line rest buff buff' : List UInt8} {args : Args} {save save' i p : Nat}

theorem slot_append (known : List (Option Nat)) (x : Option Nat) (others : Args) :
    slot (known.map some ++ some x :: others) known.length = some x := by
  rw [slot, List.getElem?_append_right (by rw [List.length_map]), List.length_map, Nat.sub_self]
  rfl

theorem argsLoop_none (h : strtok buff save space = some (none, save', buff')) :
    argsLoop buff save i args = (put args i none).map (i, ·, save', buff') := by
  rw [argsLoop]
  split
  case h_1 again => simp [h] at again
  case h_2 again =>
    rw [h] at again
    cases again
    rfl
  case h_3 again => simp [h] at again

theorem argsLoop_some (h : strtok buff save space = some (some p, save', buff')) :
    argsLoop buff save i args = (put args i (some p)).bind (argsLoop buff' save' (i + 1)) := by
  rw [argsLoop]
  split
  case h_1 again => simp [h] at again
  case h_2 again => simp [h] at again
  case h_3 again =>
    rw [h] at again
    cases again
    rfl

theorem argsLoop_line (unmarked : 0 ∉ rest) (before after : List UInt8) (known : List (Option Nat))
    {stale : Args} (room : (starts space false before.length rest).length < stale.length) :
    argsLoop (before ++ (rest ++ 0 :: after)) before.length known.length (known.map some ++ stale) =
      some (known.length + (starts space false before.length rest).length,
        (known ++ ((starts space false before.length rest).map some ++ [none])).map some ++
          stale.drop ((starts space false before.length rest).length + 1),
        before.length + rest.length, before ++ (cut space 0 false rest ++ 0 :: after)) := by
  have ended (n : Nat) (before : List UInt8) (known : List (Option Nat)) (stale : Args)
      (room : 0 < stale.length) :
      argsLoop (before ++ (List.replicate n space ++ 0 :: after)) before.length known.length
        (known.map some ++ stale) =
          some (known.length, (known ++ [none]).map some ++ stale.drop 1, before.length + n,
            before ++ (List.replicate n space ++ 0 :: after)) := by
    obtain ⟨old, others, rfl⟩ := List.exists_cons_of_length_pos room
    rw [argsLoop_none (strtok_none (show space ≠ 0 by decide) n before after), put_append]
    rfl
  have counted (p : Nat) (known : List (Option Nat)) :
    known.length + 1 = (known ++ [some p]).length := by simp
  induction rest using token_induction space generalizing before known stale with
  | delimiters n =>
    rw [starts_none] at room ⊢
    rw [cut_none, ended n before known stale room]
    simp
  | last n ys nonempty absent =>
    rw [starts_delimiters, starts_last nonempty absent, List.length_singleton] at room ⊢
    obtain ⟨old, others, rfl⟩ := List.exists_cons_of_length_pos (Nat.zero_lt_of_lt room)
    rw [List.length_cons] at room
    have plain : 0 ∉ ys := fun there => unmarked (List.mem_append_right _ there)
    have call := strtok_token nonempty absent plain (.inl rfl) n before after
    have place : before.length + n + ys.length =
      (before ++ (List.replicate n space ++ ys)).length := by simp; omega
    have again := ended 0 (before ++ (List.replicate n space ++ ys))
      (known ++ [some (before.length + n)]) others
      (by omega)
    rw [cut_delimiters, cut_last false absent, List.append_assoc, argsLoop_some call, put_append,
      Option.bind_some, counted (before.length + n), place]
    simpa [Nat.add_assoc] using again
  | token n ys rest nonempty absent ih =>
    have place : before.length + n + ys.length + 1 =
        (before ++ (List.replicate n space ++ (ys ++ [0]))).length := by
      simp
      omega
    rw [starts_delimiters, starts_token nonempty absent, place, List.length_cons] at room ⊢
    obtain ⟨old, others, rfl⟩ := List.exists_cons_of_length_pos (Nat.zero_lt_of_lt room)
    rw [List.length_cons] at room
    have plain : 0 ∉ ys := fun there => unmarked (by simp [there])
    have call := strtok_token nonempty absent plain (.inr rfl) n before (rest ++ 0 :: after)
    have later := ih (fun there => unmarked (by simp [there]))
      (before ++ (List.replicate n space ++ (ys ++ [0])))
      (known ++ [some (before.length + n)]) (show _ < others.length by omega)
    rw [cut_delimiters, cut_token false nonempty absent, List.append_assoc, List.append_assoc,
      List.cons_append, argsLoop_some call, put_append, Option.bind_some,
      counted (before.length + n), place]
    have whole : before ++ (List.replicate n space ++ (ys ++ 0 :: (rest ++ 0 :: after))) =
        before ++ (List.replicate n space ++ (ys ++ [0])) ++ (rest ++ 0 :: after) := by simp
    rw [whole, later]
    simp
    omega

theorem splitLine_some (h : strtok buff 0 space = some (some p, save', buff')) :
    splitLine buff args = (argsLoop buff 0 0 args).bind fun found =>
      (slot found.2.1 (found.1 - 1)).bind fun last =>
        (strtok found.2.2.2 (last.getD found.2.2.1) newline).bind fun token =>
          (put found.2.1 (found.1 - 1) token.1).bind fun args => some
          (found.1, args, token.2.2) := by
  rw [splitLine, h, argsLoop_some h]
  change (put args 0 (some p)).bind _ = _
  cases put args 0 (some p) <;> rfl

theorem splitLine_words (unmarked : 0 ∉ line) {front : List Nat} {l : Nat} {string : Option Nat}
    {after : List UInt8} (found : starts space false 0 line = front ++ [l])
    (room : front.length + 1 < args.length)
    (last : strtok (cut space 0 false line ++ 0 :: after) l newline = some (string, save', buff')) :
    splitLine (line ++ 0 :: after) args =
      some (front.length + 1,
        (front.map some ++ [string, none]).map some ++ args.drop (front.length + 2), buff') := by
  obtain ⟨q, others, first⟩ :=
    List.exists_cons_of_ne_nil (show starts space false 0 line ≠ [] by simp [found])
  have length : (starts space false 0 line).length = front.length + 1 := by simp [found]
  have loop := argsLoop_line unmarked [] after []
    (show _ < args.length by rw [List.length_nil, length]; exact room)
  obtain ⟨save₁, buff₁, call⟩ := @strtok_found line [] after space q unmarked others first
  have slots : ((starts space false 0 line).map some ++ [none]).map some ++
      args.drop (front.length + 1 + 1) =
        (front.map some).map some ++ some (some l) :: some none ::
          args.drop (front.length + 2) := by
    simp [found]
  have held := slot_append (front.map some) (some l) (some none :: args.drop (front.length + 2))
  have stored :=
    put_append (front.map some) (some (some l)) (some none :: args.drop (front.length + 2)) string
  rw [List.length_map] at held stored
  simp only [List.length_nil, List.nil_append, List.map_nil, Nat.zero_add, length, slots] at loop
  rw [List.nil_append, List.length_nil] at call
  rw [splitLine_some call, loop, Option.bind_some]
  simp only [Nat.add_sub_cancel, held, Option.bind_some, Option.getD_some, last, stored]
  simp

theorem splitLine_spaces (n : Nat) (after : List UInt8) (room : 1 < args.length) :
    splitLine (List.replicate n space ++ 0 :: after) args =
      some (1, [some none, some none] ++ args.drop 2, List.replicate n space ++ 0 :: after) := by
  obtain ⟨old, others, rfl⟩ := List.exists_cons_of_length_pos (Nat.zero_lt_of_lt room)
  obtain ⟨older, others, rfl⟩ := List.exists_cons_of_length_pos (Nat.lt_of_succ_lt_succ room)
  have call := strtok_none (show space ≠ 0 by decide) n [] after
  have again := strtok_none (show space ≠ 0 by decide) 0 (List.replicate n space) after
  have last := strtok_none (show newline ≠ 0 by decide) 0 (List.replicate n space) after
  rw [List.nil_append, List.length_nil, Nat.zero_add] at call
  rw [List.replicate_zero, List.nil_append, List.length_replicate, Nat.add_zero] at again last
  have loop : argsLoop (List.replicate n space ++ 0 :: after) n 1 (some none :: older :: others) =
      some (1, [some none, some none] ++ others, n, List.replicate n space ++ 0 :: after) := by
    rw [argsLoop_none again]
    rfl
  rw [splitLine, call]
  change (argsLoop (List.replicate n space ++ 0 :: after) n 1 (some none :: older :: others)).bind
    _ = _
  rw [loop]
  change (strtok (List.replicate n space ++ 0 :: after) n newline).bind _ = _
  rw [last]
  rfl

def Gets (line : List UInt8) : Prop :=
  line ≠ [] ∧ line.length < maxLine ∧ 0 ∉ line ∧ newline ∉ line.dropLast

def command (line : List UInt8) : List UInt8 := line.takeWhile (· ≠ newline)

/-- Whatever is left in `buff` and in `args`, `processManager` gets the words of the line,
one at least, with NULL behind them, and the child gives `execvp` a file. -/
def HandsOver (line : List UInt8) : Prop :=
  ∀ (buff : List UInt8) (args : Args), buff.length = maxLine → args.length = maxLine / 2 + 1 →
    ∃ (ptrs : List Nat) (args' : Args) (buff' : List UInt8),
      turn (fgets line buff) args = some (some (ptrs.length, args', buff')) ∧ ptrs ≠ [] ∧
      args' = (ptrs.map some ++ [none]).map some ++ args.drop (ptrs.length + 1) ∧
      ptrs.map (textAt buff') = (words (command line)).map some ∧
      ∃ file args'', processManager buff' args' ptrs.length = some (some file, args'')

/-- There is a word, the newline does not stand alone, and `&` does not either. -/
def Ready (line : List UInt8) : Prop :=
  words (command line) ≠ [] ∧ words (command line) ≠ [ampersand] ∧
    (newline ∈ line → (command line).getLast? ≠ some space)

theorem turn_eq {after : List UInt8} (unmarked : 0 ∉ line) (other : line ≠ exitLine) :
    turn (line ++ 0 :: after) args = (splitLine (line ++ 0 :: after) args).map some := by
  have text := textAt_append unmarked [] after
  rw [List.nil_append, List.length_nil] at text
  rw [turn, text]
  exact if_neg other

theorem processManager_eq {args' : Args} {l : Nat} {w : List UInt8} {file : Option Nat}
    (last : slot args (i - 1) = some (some l)) (text : textAt buff l = some w)
    (marked : (if w = ampersand then put args (i - 1) none else some args) = some args')
    (first : slot args' 0 = some file) : processManager buff args i = some (file, args') := by
  rw [processManager, last]
  change (textAt buff l).bind _ = _
  rw [text, Option.bind_some]
  change ((if w = ampersand then put args (i - 1) none else some args).bind _) = _
  rw [marked]
  change (slot args' 0).bind _ = _
  rw [first]
  rfl

/-- An `&` in place of the last word is dropped, and then there has to be another. -/
theorem processManager_file {ptrs : List Nat} {ws : List (List UInt8)}
    (texts : ptrs.map (textAt buff) = ws.map some) (pos : ptrs ≠ []) (others : Args) :
    ∃ file args', processManager buff ((ptrs.map some ++ [none]).map some ++ others) ptrs.length =
      some (file, args') ∧
      (file = none ↔ ws = [ampersand]) := by
  obtain ⟨front, l, rfl⟩ := (List.eq_nil_or_concat' ptrs).resolve_left pos
  obtain ⟨words, w, rfl⟩ :=
    (List.eq_nil_or_concat' ws).resolve_left fun none => by simp [none] at texts
  obtain ⟨others_read, text⟩ :
    front.map (textAt buff) = words.map some ∧ textAt buff l = some w := by simpa using texts
  have same : front.length = words.length := by simpa using congrArg List.length others_read
  have slots : ((front ++ [l]).map some ++ [none]).map some ++ others =
      (front.map some).map some ++ some (some l) :: some none :: others := by simp
  have held := slot_append (front.map some) (some l) (some none :: others)
  have stored := put_append (front.map some) (some (some l)) (some none :: others) none
  rw [List.length_map] at held stored
  rw [slots, List.length_append, List.length_singleton]
  by_cases alone : w = ampersand
  · refine ⟨_, _, processManager_eq held text ((if_pos alone).trans stored) (show slot _ 0 =
      some front.head? by cases front <;> rfl), ?_⟩
    cases front with
    | nil =>
      obtain rfl := List.length_eq_zero_iff.mp same.symm
      simp [alone]
    | cons p front =>
      obtain ⟨v, words, rfl⟩ :=
        List.exists_cons_of_length_pos (show 0 < words.length by rw [← same]; exact Nat.succ_pos _)
      simp
  · refine ⟨_, _, processManager_eq held text (if_neg alone) (show slot _ 0 =
      some (front ++ [l]).head? by cases front <;> rfl), ?_⟩
    cases words with
    | nil => simp [alone]
    | cons v words => simp

section Outcomes

variable (unmarked : 0 ∉ line) (other : line ≠ exitLine)

include unmarked other

theorem handsOver_words {ptrs : List Nat} (pos : ptrs ≠ []) (written : List UInt8 → List UInt8)
    (split : ∀ (after : List UInt8) (args : Args), args.length = maxLine / 2 + 1 →
      splitLine (line ++ 0 :: after) args =
        some (ptrs.length, (ptrs.map some ++ [none]).map some ++ args.drop (ptrs.length + 1),
          written after))
    (texts : ∀ after, ptrs.map (textAt (written after)) = (words (command line)).map some) :
    HandsOver line ↔ words (command line) ≠ [ampersand] := by
  constructor
  · intro hands
    obtain ⟨ptrs', args', buff', call, -, same, texts', p, args'', child⟩ :=
      hands (List.replicate maxLine 0) (List.replicate (maxLine / 2 + 1) none) List.length_replicate
        List.length_replicate
    rw [fgets, turn_eq unmarked other, split _ _ List.length_replicate, Option.map_some] at call
    simp only [Option.some.injEq, Prod.mk.injEq] at call
    obtain ⟨length, rfl, rfl⟩ := call
    obtain ⟨file, args', child', null⟩ := processManager_file (texts _) pos _
    rw [← length, child'] at child
    intro alone
    rw [null.mpr alone] at child
    cases child
  · intro other_words buff args size slots
    obtain ⟨file, args', child, null⟩ :=
      processManager_file (texts (buff.drop (line.length + 1))) pos
      (args.drop (ptrs.length + 1))
    obtain ⟨p, rfl⟩ := Option.ne_none_iff_exists'.mp fun none => other_words (null.mp none)
    refine ⟨ptrs, _, _, ?_, pos, rfl, texts _, p, args', child⟩
    rw [fgets, turn_eq unmarked other, split _ args slots, Option.map_some]

theorem not_handsOver (front : List (Option Nat))
    (split : ∀ (after : List UInt8) (args : Args), args.length = maxLine / 2 + 1 → ∃ others buff',
      splitLine (line ++ 0 :: after) args =
        some (front.length + 1, (front ++ [none, none]).map some ++ others, buff')) :
    ¬HandsOver line := by
  intro hands
  obtain ⟨ptrs, args', buff', call, -, same, -⟩ :=
    hands (List.replicate maxLine 0) (List.replicate (maxLine / 2 + 1) none) List.length_replicate
      List.length_replicate
  obtain ⟨behind, written, split⟩ := split _ _ List.length_replicate
  rw [fgets, turn_eq unmarked other, split, Option.map_some] at call
  simp only [Option.some.injEq, Prod.mk.injEq] at call
  obtain ⟨length, rfl, -⟩ := call
  obtain ⟨others, p, rfl⟩ :=
    (List.eq_nil_or_concat' ptrs).resolve_left fun none => by simp [none] at length
  have length : front.length = others.length := by simpa using length
  have null := slot_append front none ([some none] ++ behind)
  have pointer := slot_append (others.map some) (some p)
    ([some none] ++ (List.replicate (maxLine / 2 + 1) none).drop ((others ++ [p]).length + 1))
  rw [List.length_map, ← length] at pointer
  have slots : front.map some ++ some none :: ([some none] ++ behind) =
      (others.map some).map some ++ some (some p) ::
        ([some none] ++ (List.replicate (maxLine / 2 + 1) none).drop
            ((others ++ [p]).length + 1)) := by
    simpa using same
  rw [slots, pointer] at null
  cases null

end Outcomes

variable {body : List UInt8}

theorem splits_few (short : line.length < maxLine) {front : List Nat} {l : Nat}
    (found : starts space false 0 line = front ++ [l]) : front.length + 1 < maxLine / 2 + 1 := by
  have few := starts_few false 0 line (d := space)
  rw [found, List.length_append, List.length_singleton] at few
  unfold maxLine at *
  omega

theorem handsOver_plain (short : line.length < maxLine) (unmarked : 0 ∉ line)
    (cut_off : newline ∉ line) :
    HandsOver line ↔ words line ≠ [] ∧ words line ≠ [ampersand] := by
  have other : line ≠ exitLine := by
    rintro rfl
    exact cut_off (by decide)
  have whole : command line = line := List.takeWhile_eq_self_iff.mpr fun b there => by
    simpa using ne_of_mem_of_not_mem there cut_off
  have counted : (starts space false 0 line).length = (words line).length := starts_length 0 line
  rcases List.eq_nil_or_concat' (starts space false 0 line) with none | ⟨front, l, found⟩
  · rw [none, List.length_nil, eq_comm, List.length_eq_zero_iff] at counted
    obtain ⟨n, rfl⟩ := tokens_eq_nil.mp counted
    refine iff_of_false (not_handsOver unmarked other [] fun after args slots => ?_) fun ready =>
      ready.1 counted
    exact ⟨_, _, splitLine_spaces n after (by rw [slots]; decide)⟩
  · have texts (after : List UInt8) :
        (front ++ [l]).map (textAt (cut space 0 false line ++ 0 :: after)) =
            (words line).map some := by
      have texts := map_textAt (d := space) unmarked []
        (List.mem_cons_self (a := 0) (l := after)) fun _ => ⟨after, rfl⟩
      rwa [List.length_nil, found, List.nil_append] at texts
    have some_word : words line ≠ [] := by
      rw [← List.length_pos_iff, ← counted, found]
      simp
    have hands := handsOver_words unmarked other (show front ++ [l] ≠ [] by simp)
      (fun after => cut space 0 false line ++ 0 :: after) ?_ (by rwa [whole])
    · rw [hands, whole]
      exact (and_iff_right some_word).symm
    · intro after args slots
      obtain ⟨others, w, split⟩ := (List.eq_nil_or_concat' (words line)).resolve_left some_word
      obtain ⟨-, text⟩ :
          front.map (textAt (cut space 0 false line ++ 0 :: after)) = others.map some ∧
          textAt (cut space 0 false line ++ 0 :: after) l = some w := by
            simpa [split] using texts after
      have there : w ∈ words line := by simp [split]
      obtain ⟨save', call⟩ := strtok_string text (token_spec there).1 fun inside =>
        cut_off ((token_sublist there).subset inside)
      have room : front.length + 1 < args.length := by
        rw [slots]
        exact splits_few short found
      simpa using splitLine_words unmarked found room call

theorem handsOver_newline (short : (body ++ [newline]).length < maxLine)
    (unmarked : 0 ∉ body ++ [newline])
    (one : newline ∉ body) (other : body ++ [newline] ≠ exitLine) :
    HandsOver (body ++ [newline]) ↔ words body ≠ [] ∧ words body ≠ [ampersand] ∧
    body.getLast? ≠ some space := by
  have whole : command (body ++ [newline]) = body :=
    takeWhile_stop (fun b there => by simpa using ne_of_mem_of_not_mem there one) (by simp) []
  have inside : inToken space false (body ++ [newline]) = true := by
    rw [inToken_append]
    rfl
  obtain ⟨front, t, shape, outside, nonempty, absent⟩ := exists_last inside
  obtain ⟨w, b, rfl⟩ := (List.eq_nil_or_concat' t).resolve_left nonempty
  rw [← List.append_assoc] at shape
  obtain ⟨rfl, same⟩ := List.append_inj' shape rfl
  obtain rfl := List.singleton_injective same
  have found : starts space false 0 (front ++ w ++ [newline]) =
      starts space false 0 front ++ [front.length] := by
    rw [List.append_assoc, starts_append, outside, starts_last nonempty absent, Nat.zero_add]
  have written : cut space 0 false (front ++ w ++ [newline]) =
      cut space 0 false front ++ (w ++ [newline]) := by
    rw [List.append_assoc, cut_append, outside, cut_last false absent]
  have room := splits_few short found
  have place : (cut space 0 false front).length = front.length := cut_length false front
  by_cases bare : w = []
  · subst bare
    refine iff_of_false (not_handsOver unmarked other ((starts space false 0 front).map some) ?_) ?_
    · intro after args slots
      have call := strtok_none (show newline ≠ 0 by decide) 1 (cut space 0 false front) after
      rw [List.nil_append] at written
      rw [place, List.replicate_one, ← List.append_assoc, ← written] at call
      rw [List.length_map]
      exact ⟨_, _, splitLine_words unmarked found (by rw [slots]; exact room) call⟩
    · rintro ⟨word, -, ends⟩
      rw [List.append_nil] at word ends
      have some_byte : front ≠ [] := by
        rintro rfl
        exact word rfl
      have last := (inToken_iff false some_byte).mpr ends
      rw [outside] at last
      cases last
  · have plain : 0 ∉ w := fun there => unmarked (by simp [there])
    have cut_off : newline ∉ w := fun there => one (List.mem_append_right _ there)
    have spaces : space ∉ w := fun there => absent (List.mem_append_left _ there)
    have whole_starts :
        starts space false 0 (front ++ w) = starts space false 0 front ++ [front.length] := by
      rw [starts_append, outside, starts_last bare spaces, Nat.zero_add]
    have whole_cut : cut space 0 false (front ++ w) = cut space 0 false front ++ w := by
      rw [cut_append, outside, cut_last false spaces]
    have texts (after : List UInt8) :
        (starts space false 0 (front ++ w)).map
          (textAt (cut space 0 false (front ++ w) ++ 0 :: 0 :: after)) =
          (words (front ++ w)).map some :=
      map_textAt (fun there => unmarked (List.mem_append_left _ there)) [] List.mem_cons_self
        fun _ => ⟨0 :: after, rfl⟩
    have counted : (starts space false 0 (front ++ w)).length = (words (front ++ w)).length :=
      starts_length 0 _
    have some_ptr : starts space false 0 (front ++ w) ≠ [] := by simp [whole_starts]
    have some_word : words (front ++ w) ≠ [] := by
      rwa [← List.length_pos_iff, ← counted, List.length_pos_iff]
    have ends : (front ++ w).getLast? ≠ some space := by
      rw [← inToken_iff false (by simp [bare]), inToken_append, outside]
      exact inToken_last false bare spaces
    have hands := handsOver_words unmarked other some_ptr
      (fun after => cut space 0 false (front ++ w) ++ 0 :: 0 :: after) ?_ ?_
    · rw [hands, whole, and_iff_right some_word, and_iff_left ends]
    · intro after args slots
      have call :=
        strtok_token bare cut_off plain (.inr rfl) 0 (cut space 0 false front) (0 :: after)
      rw [if_neg (show newline ≠ 0 by decide), place, Nat.add_zero, List.replicate_zero,
        List.nil_append, List.nil_append] at call
      have stored : cut space 0 false front ++ (w ++ newline :: 0 :: after) =
          cut space 0 false (front ++ w ++ [newline]) ++ 0 :: after := by
        rw [written, List.append_assoc, List.append_assoc, List.singleton_append]
      rw [stored] at call
      rw [← slots] at room
      rw [splitLine_words unmarked found room call, whole_starts, whole_cut]
      simp
    · rw [whole]
      exact texts

/-- Exactly these lines are handed over as they should be. -/
theorem handsOver_iff (gets : Gets line) (other : line ≠ exitLine) :
    HandsOver line ↔ Ready line := by
  obtain ⟨-, short, unmarked, one⟩ := gets
  by_cases there : newline ∈ line
  · obtain ⟨body, last, rfl⟩ :=
      (List.eq_nil_or_concat' line).resolve_left (List.ne_nil_of_mem there)
    rw [List.dropLast_concat] at one
    obtain rfl : newline = last := by simpa [one] using there
    have whole : command (body ++ [newline]) = body :=
      takeWhile_stop (fun b there => by simpa using ne_of_mem_of_not_mem there one) (by simp) []
    rw [handsOver_newline short unmarked one other, Ready, whole]
    simp
  · have whole : command line = line := List.takeWhile_eq_self_iff.mpr fun b inside => by
      simpa using ne_of_mem_of_not_mem inside there
    rw [handsOver_plain short unmarked there, Ready, whole]
    simp [there]

theorem handsOver_ls : Gets [108, 115, 32, 45, 108, 10] ∧ HandsOver [108, 115, 32, 45, 108, 10] :=
  ⟨by unfold Gets; decide,
    (handsOver_iff (by unfold Gets; decide) (by decide)).mpr (by unfold Ready; decide)⟩

/-- The blank line leaves NULL in place of the last word. -/
theorem handsOver_missed : ¬∀ line, Gets line → line ≠ exitLine → HandsOver line := by
  intro all
  have hands := all [newline] (by unfold Gets; decide) (by decide)
  have newline_ready :=
    (handsOver_newline (show ([] ++ [newline]).length < maxLine by decide) (by decide) (by decide)
    (by decide)).mp hands
  exact newline_ready.1 rfl

end LastPicked.MyShell
