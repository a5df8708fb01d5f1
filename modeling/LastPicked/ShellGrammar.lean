import LastPicked.ShellCommands
import LastPicked.ShellWords

/-! The commands of a line and the words of each of them, in whatever order the
commands are split. A call writes into the string of its command only. -/

namespace LastPicked.Shell
open CIntegers HeapCells Tokens

variable {line s t mem mem' : List UInt8} {p q : Nat} {ptrs : List Nat}

def Call (p : Nat) (mem mem' : List UInt8) : Prop :=
  ∃ k was ret number, splitCommandAndArgs k mem (some p) was = some (ret, number, mem')

def OtherCalls (ptrs : List Nat) (p : Nat) : List UInt8 → List UInt8 → Prop :=
  Relation.ReflTransGen fun mem mem' => ∃ q ∈ ptrs, q ≠ p ∧ Call q mem mem'

/-- The list has the commands of the line, a NULL behind them. Whatever calls were made
for the others, a command is still there, and the call for it gives its words. -/
def Parses (line : List UInt8) : Prop :=
  ∃ (ptrs : List Nat) (c : Nat) (mem : List UInt8),
    getCommands (some (line ++ [0])) = some (some (filled (ptrs.map some ++ [none]) c), mem) ∧
    ptrs.length ≤ line.count semicolon + 1 ∧
    List.Forall₂ (fun p s => ∀ mem', OtherCalls ptrs p mem mem' →
      textAt mem' p = some s ∧ Splits mem' p (words s)) ptrs (segments line)

theorem segment_plain (unmarked : 0 ∉ line) (there : s ∈ segments line) :
    ∀ b ∈ s, b ≠ semicolon ∧ b ≠ 0 := by
  intro b inside
  refine ⟨?_, ?_⟩
  · rintro rfl
    exact (token_spec there).2 inside
  · rintro rfl
    exact unmarked ((token_sublist there).subset inside)

theorem textAt_congr (text : textAt mem p = some s)
    (same : ∀ j, p ≤ j → j ≤ p + s.length → mem'[j]? = mem[j]?) :
    textAt mem' p = some s := by
  obtain ⟨unmarked, before, after, rfl, rfl⟩ := textAt_eq_some.mp text
  have bytes : (mem'.drop before.length).take (s.length + 1) = s ++ [0] := by
    apply List.ext_getElem?
    intro j
    rw [List.getElem?_take]
    split
    case isTrue within =>
      rw [List.getElem?_drop, same _ (Nat.le_add_right _ _) (by omega),
        List.getElem?_append_right (Nat.le_add_right _ _), Nat.add_sub_cancel_left,
        List.append_cons, List.getElem?_append_left (by simp; omega)]
    case isFalse beyond => exact (List.getElem?_eq_none (by simp; omega)).symm
  have whole := List.take_append_drop (s.length + 1) (mem'.drop before.length)
  rw [bytes, List.append_assoc, List.singleton_append] at whole
  exact textAt_of_drop unmarked whole.symm

theorem call_frame (call : Call q mem mem') (text : textAt mem q = some t) :
    (∃ t', textAt mem' q = some t' ∧ t'.length ≤ t.length) ∧
      ∀ j, j < q ∨ q + t.length ≤ j → mem'[j]? = mem[j]? := by
  obtain ⟨k, was, ret, number, call⟩ := call
  obtain ⟨unmarked, before, after, rfl, rfl⟩ := textAt_eq_some.mp text
  obtain ⟨r, loop, call⟩ := Option.bind_eq_some_iff.mp call
  obtain ⟨t', written, length⟩ := splitLoop_frame loop rfl rfl (Nat.zero_le _)
  obtain ⟨ret', -, call⟩ := Option.bind_eq_some_iff.mp call
  simp only [Option.some.injEq, Prod.mk.injEq] at call
  obtain ⟨-, -, rfl⟩ := call
  rw [written]
  refine ⟨?_, ?_⟩
  · obtain ⟨x, rest, whole, plain, ends⟩ := exists_token 0 (t' ++ 0 :: after)
    rcases ends with rfl | ⟨more, rfl⟩
    · rw [List.append_nil] at whole
      exact absurd (by rw [← whole]; simp) plain
    · refine ⟨x, by rw [whole]; exact textAt_append plain before more, ?_⟩
      by_contra longer
      have nul := getElem?_behind t' 0 after
      rw [whole, List.getElem?_append_left (by omega)] at nul
      exact plain (List.mem_of_getElem? nul)
  · rintro j (front | behind)
    · rw [List.getElem?_append_left front, List.getElem?_append_left front]
    · rw [List.getElem?_append_right (by omega), List.getElem?_append_right (by omega),
        List.getElem?_append_right (by omega), List.getElem?_append_right (by omega), length]

section Calls

variable {ss : List (List UInt8)}
  (spaced : (ptrs.zip ss).Pairwise fun a b => a.1 + a.2.length < b.1)

include spaced

theorem disjoint_of_ne {a b : Nat × List UInt8} (ha : a ∈ ptrs.zip ss) (hb : b ∈ ptrs.zip ss)
    (other : a.1 ≠ b.1) :
    a.1 + a.2.length < b.1 ∨ b.1 + b.2.length < a.1 := by
  have sides : Std.Symm fun a b : Nat × List UInt8 =>
      a.1 ≠ b.1 → a.1 + a.2.length < b.1 ∨ b.1 + b.2.length < a.1 :=
        ⟨fun _ _ h other => (h other.symm).symm⟩
  have either : (ptrs.zip ss).Pairwise fun a b => a.1 ≠ b.1 → a.1 + a.2.length < b.1 ∨
      b.1 + b.2.length < a.1 :=
    spaced.imp fun front _ => .inl front
  exact List.Pairwise.forall_of_forall (fun a _ other => absurd rfl other) either ha hb other

theorem otherCalls_keep (full : ptrs.length ≤ ss.length)
    (texts : ∀ a ∈ ptrs.zip ss, textAt mem a.1 = some a.2) (there : (p, s) ∈ ptrs.zip ss)
    (calls : OtherCalls ptrs p mem mem') :
    textAt mem' p = some s ∧ ∀ a ∈ ptrs.zip ss, ∃ t, textAt mem' a.1 = some t ∧
    t.length ≤ a.2.length := by
  induction calls with
  | refl => exact ⟨texts _ there, fun a ha => ⟨a.2, texts a ha, le_rfl⟩⟩
  | tail _ call ih =>
    obtain ⟨q, hq, other, call⟩ := call
    obtain ⟨kept, short⟩ := ih
    obtain ⟨b, hb, rfl⟩ : ∃ b ∈ ptrs.zip ss, b.1 = q := by
      rw [← List.map_fst_zip full] at hq
      exact List.mem_map.mp hq
    obtain ⟨x, text, fits⟩ := short b hb
    obtain ⟨⟨y, text', fits'⟩, frame⟩ := call_frame call text
    refine ⟨textAt_congr kept fun j low high => frame j ?_, fun a ha => ?_⟩
    · rcases disjoint_of_ne spaced there hb (Ne.symm other) with front | behind
      · exact .inl (by dsimp only at front; omega)
      · exact .inr (by dsimp only at behind; omega)
    · obtain ⟨z, text_a, fits_a⟩ := short a ha
      by_cases same : a.1 = b.1
      · rw [same, text] at text_a
        obtain rfl := Option.some.inj text_a
        exact ⟨y, by rw [same, text'], fits'.trans fits_a⟩
      · refine ⟨z, textAt_congr text_a fun j low high => frame j ?_, fits_a⟩
        rcases disjoint_of_ne spaced ha hb same with front | behind
        · exact .inl (by omega)
        · exact .inr (by omega)

end Calls

/-- Which lines have a list that fits its block: the number of cells is an `int`, and no
semicolon between commands is missing from the count. -/
def Room (line : List UInt8) : Prop :=
  counted line + 2 ≤ intMax ∧ (segments line).length ≤ counted line + 1

theorem room_of_list {x : Option (Cells (Option Nat)) × List UInt8} (unmarked : 0 ∉ line)
    (list : getCommands (some (line ++ [0])) = some x) : Room line := by
  by_contra full
  rw [getCommands_line unmarked] at list
  split at list
  case isTrue room => exact full room
  case isFalse => cases list

theorem counted_le (line : List UInt8) : counted line ≤ line.count semicolon :=
  (List.take_sublist _ _).count_le _

theorem parses_of_room (unmarked : 0 ∉ line) (room : Room line)
    (fits : ∀ s ∈ segments line, Fits s) : Parses line := by
  have length : (starts semicolon false 0 line).length = (segments line).length :=
    starts_length 0 line
  have texts : List.Forall₂ (fun p s => textAt (cut semicolon 0 false line ++ [0]) p = some s)
      (starts semicolon false 0 line) (segments line) := by
    have texts :=
      map_textAt (d := semicolon) unmarked [] (List.mem_singleton_self 0) fun _ => ⟨[], rfl⟩
    rw [← List.forall₂_eq_eq_eq, List.forall₂_map_left_iff, List.forall₂_map_right_iff] at texts
    exact texts
  refine ⟨_, _, _, (getCommands_line unmarked).trans (if_pos room), ?_, ?_⟩
  · rw [length]
    exact room.2.trans (Nat.succ_le_succ (counted_le line))
  · refine List.forall₂_iff_zip.mpr ⟨length, fun pair mem' calls => ?_⟩
    have kept := (otherCalls_keep (starts_spaced 0 line) length.le
      (fun a ha => (List.forall₂_iff_zip.mp texts).2 ha) pair calls).1
    refine ⟨kept, ?_⟩
    obtain ⟨-, before, after, rfl, rfl⟩ := textAt_eq_some.mp kept
    have there := (List.of_mem_zip pair).2
    exact (splits_iff (segment_plain unmarked there) before after).mpr (fits _ there)

theorem parses_short (unmarked : 0 ∉ line) (short : line.length < 2 ^ 31)
    (few : line.count semicolon + 2 ≤ intMax) :
    Parses line := by
  have all : counted line = line.count semicolon := by
    rw [counted, (toInt_natCast _ (short.trans (by decide))).mpr short, Int.toNat_natCast,
      List.take_length]
  refine parses_of_room unmarked ⟨all ▸ few, all ▸ tokens_few line⟩ fun s there => ?_
  have length := (token_sublist there).length_le
  have words_few := starts_few false 0 s (d := space)
  rw [starts_length] at words_few
  exact ⟨by rw [words]; omega, .inl (by omega)⟩

/-- Exactly these lines are parsed. -/
theorem parses_iff (unmarked : 0 ∉ line) :
    Parses line ↔ Room line ∧ ∀ s ∈ segments line, Fits s := by
  constructor
  · rintro ⟨ptrs, c, mem, list, -, commands⟩
    refine ⟨room_of_list unmarked list, fun s there => ?_⟩
    obtain ⟨length, pairs⟩ := List.forall₂_iff_zip.mp commands
    obtain ⟨p, pair⟩ : ∃ p, (p, s) ∈ ptrs.zip (segments line) := by
      rw [← List.map_snd_zip length.ge] at there
      obtain ⟨⟨p, s'⟩, pair, rfl⟩ := List.mem_map.mp there
      exact ⟨p, pair⟩
    obtain ⟨text, splits⟩ := pairs pair mem .refl
    obtain ⟨-, before, after, rfl, rfl⟩ := textAt_eq_some.mp text
    exact (splits_iff (segment_plain unmarked there) before after).mp splits
  · rintro ⟨room, fits⟩
    exact parses_of_room unmarked room fits

theorem parses_words : Parses [59, 32, 97, 98, 32, 32, 99, 59, 59, 32, 59, 100, 32] := by
  have commands : segments [59, 32, 97, 98, 32, 32, 99, 59, 59, 32, 59, 100, 32] =
      [[32, 97, 98, 32, 32, 99], [32], [100, 32]] := by decide
  refine (parses_iff (by decide)).mpr ⟨⟨by decide, by decide⟩, ?_⟩
  rw [commands]
  intro s there
  fin_cases there
  · exact ⟨by decide, .inl (by decide)⟩
  · exact ⟨by decide, .inl (by decide)⟩
  · exact ⟨by decide, .inl (by decide)⟩

/-- Of a line of 2^31 bytes no semicolon is counted, and the NULL behind the second
command is stored behind the block. -/
theorem not_room_long {n : Nat} (long : n + 1 + 1 = 2 ^ 31) :
    ¬Room (97 :: semicolon :: List.replicate n 98) := by
  have negative : (toInt ((2 ^ 31 : Nat) : Int)).toNat = 0 := by decide
  have none : counted (97 :: semicolon :: List.replicate n 98) = 0 := by
    rw [counted, List.length_cons, List.length_cons, List.length_replicate, long, negative,
      List.take_zero, List.count_nil]
  have two : (segments ([97] ++ semicolon :: List.replicate n 98)).length = 2 := by
    rw [segments, tokens_token (by simp) (by decide), tokens_last]
    · rfl
    · simp
      omega
    · rw [List.mem_replicate]
      exact fun both => absurd both.2 (by decide)
  rw [List.singleton_append] at two
  intro room
  have few := room.2
  rw [none, two] at few
  exact absurd few (by decide)

theorem parses_missed : 0 ∉ 97 :: semicolon :: List.replicate (2 ^ 31 - 2) 98 ∧
    ¬Parses (97 :: semicolon :: List.replicate (2 ^ 31 - 2) 98) := by
  have unmarked (n : Nat) : 0 ∉ 97 :: semicolon :: List.replicate n 98 := by simp [semicolon]
  refine ⟨unmarked _, ?_⟩
  rintro ⟨ptrs, c, mem, list, -⟩
  exact not_room_long (show 2 ^ 31 - 2 + 1 + 1 = 2 ^ 31 by decide) (room_of_list (unmarked _) list)

end LastPicked.Shell
