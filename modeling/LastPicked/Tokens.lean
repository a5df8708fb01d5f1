import Mathlib.Data.List.TakeWhile

/-! The tokens of a sequence between delimiters, found by a scan with two states.
The scan notes where each token starts, and overwrites the delimiter behind it with
a mark, so that each token can be read from its start up to the next mark. -/

namespace LastPicked.Tokens

universe u

variable {α : Type u} [DecidableEq α] {d z : α} {xs ys : List α}

def tokens (d : α) (xs : List α) : List (List α) := (xs.splitOn d).filter fun ys => ys ≠ []

def inToken (d : α) : (inside : Bool) → List α → Bool
  | inside, [] => inside
  | _, x :: xs => inToken d (x ≠ d) xs

def starts (d : α) : (inside : Bool) → (p : Nat) → List α → List Nat
  | _, _, [] => []
  | inside, p, x :: xs =>
      if x = d then starts d false (p + 1) xs
      else if inside then starts d true (p + 1) xs
      else p :: starts d true (p + 1) xs

def cut (d z : α) : (inside : Bool) → List α → List α
  | _, [] => []
  | inside, x :: xs =>
      if x = d then (if inside then z else x) :: cut d z false xs else x :: cut d z true xs

theorem exists_delimiters (d : α) (xs : List α) :
    ∃ n rest, xs = List.replicate n d ++ rest ∧ rest.head? ≠ some d := by
  induction xs with
  | nil => exact ⟨0, [], rfl, nofun⟩
  | cons x xs ih =>
    by_cases same : x = d
    · obtain ⟨n, rest, rfl, other⟩ := ih
      exact ⟨n + 1, rest, by rw [same, List.replicate_succ, List.cons_append], other⟩
    · exact ⟨0, x :: xs, rfl, by simpa using same⟩

theorem exists_token (d : α) (xs : List α) :
    ∃ ys rest, xs = ys ++ rest ∧ d ∉ ys ∧ (rest = [] ∨ ∃ more, rest = d :: more) := by
  induction xs with
  | nil => exact ⟨[], [], rfl, nofun, .inl rfl⟩
  | cons x xs ih =>
    by_cases same : x = d
    · exact ⟨[], x :: xs, rfl, nofun, .inr ⟨xs, by rw [same]⟩⟩
    · obtain ⟨ys, rest, rfl, absent, ends⟩ := ih
      exact ⟨x :: ys, rest, rfl, by simpa [Ne.symm same] using absent, ends⟩

/-- Token by token: there is nothing but delimiters, or a token with nothing behind
it, or a token, its delimiter and the rest. -/
theorem token_induction {motive : List α → Prop} (d : α)
    (delimiters : ∀ n, motive (List.replicate n d))
    (last : ∀ n ys, ys ≠ [] → d ∉ ys → motive (List.replicate n d ++ ys))
    (token : ∀ n ys rest, ys ≠ [] → d ∉ ys → motive rest →
      motive (List.replicate n d ++ (ys ++ d :: rest)))
    (xs : List α) : motive xs := by
  induction size : xs.length using Nat.strong_induction_on generalizing xs with
  | _ size ih =>
    obtain ⟨n, behind, rfl, other⟩ := exists_delimiters d xs
    obtain ⟨ys, rest, rfl, absent, rfl | ⟨more, rfl⟩⟩ := exists_token d behind
    · by_cases none : ys = []
      · rw [none, List.append_nil, List.append_nil]
        exact delimiters n
      · rw [List.append_nil]
        exact last n ys none absent
    · have some : ys ≠ [] := by
        rintro rfl
        exact other rfl
      exact token n ys more some absent (ih more.length (by simp at size; omega) more rfl)

section Tokens

@[simp] theorem tokens_delimiters (n : Nat) (xs : List α) :
    tokens d (List.replicate n d ++ xs) = tokens d xs := by
  induction n with
  | zero => rfl
  | succ n ih =>
    rw [List.replicate_succ, List.cons_append, tokens, List.splitOn_cons_eq_if_modifyHead,
      if_pos (beq_self_eq_true d), ← ih]
    rfl

@[simp] theorem tokens_none (n : Nat) : tokens d (List.replicate n d) = [] := by
  rw [← List.append_nil (List.replicate n d), tokens_delimiters]
  rfl

theorem tokens_last (some : ys ≠ []) (absent : d ∉ ys) : tokens d ys = [ys] := by
  rw [tokens, List.splitOn_eq_singleton absent]
  simp [some]

theorem tokens_token (some : ys ≠ []) (absent : d ∉ ys) (rest : List α) :
    tokens d (ys ++ d :: rest) = ys :: tokens d rest := by
  rw [tokens, List.splitOn_append_cons_self_of_not_mem absent]
  simp [some, tokens]

end Tokens

section Scan

variable (inside : Bool)

@[simp] theorem inToken_append (xs ys : List α) :
    inToken d inside (xs ++ ys) = inToken d (inToken d inside xs) ys := by
  induction xs generalizing inside with
  | nil => rfl
  | cons x xs ih => exact ih _

@[simp] theorem cut_length (xs : List α) : (cut d z inside xs).length = xs.length := by
  induction xs generalizing inside with
  | nil => rfl
  | cons x xs ih =>
    rw [cut]
    split <;> rw [List.length_cons, List.length_cons, ih]

theorem cut_append (xs ys : List α) :
    cut d z inside (xs ++ ys) = cut d z inside xs ++ cut d z (inToken d inside xs) ys := by
  induction xs generalizing inside with
  | nil => rfl
  | cons x xs ih =>
    rw [List.cons_append, cut, cut, inToken]
    split
    case isTrue same => rw [ih, List.cons_append, decide_eq_false (not_not.mpr same)]
    case isFalse other => rw [ih, List.cons_append, decide_eq_true other]

theorem starts_append (p : Nat) (xs ys : List α) :
    starts d inside p (xs ++ ys) =
      starts d inside p xs ++ starts d (inToken d inside xs) (p + xs.length) ys := by
  induction xs generalizing inside p with
  | nil => rfl
  | cons x xs ih =>
    have place : p + 1 + xs.length = p + (x :: xs).length := by rw [List.length_cons]; omega
    rw [List.cons_append, starts, starts, inToken]
    split
    case isTrue same => rw [ih, place, decide_eq_false (not_not.mpr same)]
    case isFalse other =>
      rw [ih, place, decide_eq_true other]
      split <;> rfl

@[simp] theorem inToken_delimiters (n : Nat) (xs : List α) :
    inToken d false (List.replicate n d ++ xs) = inToken d false xs := by
  induction n with
  | zero => rfl
  | succ n ih =>
      rw [List.replicate_succ, List.cons_append, inToken, decide_eq_false (not_not.mpr rfl), ih]

@[simp] theorem inToken_none (n : Nat) : inToken d false (List.replicate n d) = false := by
  simpa [inToken] using inToken_delimiters (d := d) n []

@[simp] theorem cut_delimiters (n : Nat) (xs : List α) :
    cut d z false (List.replicate n d ++ xs) = List.replicate n d ++ cut d z false xs := by
  induction n with
  | zero => rfl
  | succ n ih => rw [List.replicate_succ, List.cons_append, cut, if_pos rfl, ih]; rfl

@[simp] theorem starts_delimiters (p n : Nat) (xs : List α) :
    starts d false p (List.replicate n d ++ xs) = starts d false (p + n) xs := by
  induction n generalizing p with
  | zero => rfl
  | succ n ih =>
      rw [List.replicate_succ, List.cons_append, starts, if_pos rfl, ih, Nat.add_assoc,
        Nat.add_comm 1]

@[simp] theorem cut_none (n : Nat) : cut d z false (List.replicate n d) = List.replicate n d := by
  simpa [cut] using cut_delimiters (d := d) (z := z) n []

@[simp] theorem starts_none (p n : Nat) : starts d false p (List.replicate n d) = [] := by
  simpa [starts] using starts_delimiters (d := d) p n []

theorem inToken_last (some : ys ≠ []) (absent : d ∉ ys) : inToken d inside ys = true := by
  induction ys generalizing inside with
  | nil => exact absurd rfl some
  | cons y ys ih =>
    obtain ⟨other, absent⟩ := not_or.mp (List.mem_cons.not.mp absent)
    rw [inToken, decide_eq_true (Ne.symm other)]
    by_cases last : ys = []
    · rw [last, inToken]
    · exact ih true last absent

theorem cut_last (absent : d ∉ ys) : cut d z inside ys = ys := by
  induction ys generalizing inside with
  | nil => rfl
  | cons y ys ih =>
    obtain ⟨other, absent⟩ := not_or.mp (List.mem_cons.not.mp absent)
    rw [cut, if_neg (Ne.symm other), ih true absent]

theorem starts_inside (absent : d ∉ ys) (p : Nat) : starts d true p ys = [] := by
  induction ys generalizing p with
  | nil => rfl
  | cons y ys ih =>
    obtain ⟨other, absent⟩ := not_or.mp (List.mem_cons.not.mp absent)
    rw [starts, if_neg (Ne.symm other), if_pos rfl, ih absent]

theorem starts_last (some : ys ≠ []) (absent : d ∉ ys) (p : Nat) : starts d false p ys = [p] := by
  cases ys with
  | nil => exact absurd rfl some
  | cons y ys =>
    obtain ⟨other, absent⟩ := not_or.mp (List.mem_cons.not.mp absent)
    rw [starts, if_neg (Ne.symm other), if_neg Bool.false_ne_true, starts_inside absent]

theorem inToken_token (ys rest : List α) :
    inToken d inside (ys ++ d :: rest) = inToken d false rest := by
  rw [inToken_append, inToken, decide_eq_false (not_not.mpr rfl)]

theorem cut_token (some : ys ≠ []) (absent : d ∉ ys) (rest : List α) :
    cut d z inside (ys ++ d :: rest) = ys ++ z :: cut d z false rest := by
  rw [cut_append, cut_last inside absent, inToken_last inside some absent, cut,
    if_pos rfl, if_pos rfl]

theorem starts_token (some : ys ≠ []) (absent : d ∉ ys) (p : Nat) (rest : List α) :
    starts d false p (ys ++ d :: rest) = p :: starts d false (p + ys.length + 1) rest := by
  rw [starts_append, starts_last some absent, starts, if_pos rfl]
  rfl

end Scan

theorem tokens_eq_nil : tokens d xs = [] ↔ ∃ n, xs = List.replicate n d := by
  constructor
  · intro none
    induction xs using token_induction d with
    | delimiters n => exact ⟨n, rfl⟩
    | last n ys some absent =>
      rw [tokens_delimiters, tokens_last some absent] at none
      cases none
    | token n ys rest some absent _ =>
      rw [tokens_delimiters, tokens_token some absent] at none
      cases none
  · rintro ⟨n, rfl⟩
    exact tokens_none n

theorem tokens_append (outside : inToken d false xs = false) (more : List α) :
    tokens d (xs ++ more) = tokens d xs ++ tokens d more := by
  induction xs using token_induction d with
  | delimiters n => rw [tokens_delimiters, tokens_none, List.nil_append]
  | last n ys some absent =>
    rw [inToken_delimiters, inToken_last false some absent] at outside
    cases outside
  | token n ys rest some absent ih =>
    rw [inToken_delimiters, inToken_token] at outside
    rw [List.append_assoc, List.append_assoc, List.cons_append, tokens_delimiters,
      tokens_delimiters, tokens_token some absent, tokens_token some absent, ih outside,
      List.cons_append]

theorem exists_last (inside : inToken d false xs = true) :
    ∃ front ys, xs = front ++ ys ∧ inToken d false front = false ∧ ys ≠ [] ∧ d ∉ ys := by
  induction xs using token_induction d with
  | delimiters n =>
    rw [inToken_none] at inside
    cases inside
  | last n ys some absent => exact ⟨_, ys, rfl, inToken_none n, some, absent⟩
  | token n ys rest some absent ih =>
    rw [inToken_delimiters, inToken_token] at inside
    obtain ⟨front, zs, rfl, outside, last⟩ := ih inside
    exact ⟨List.replicate n d ++ (ys ++ d :: front), zs, by simp,
      by rw [inToken_delimiters, inToken_token, outside], last⟩

theorem inToken_iff (inside : Bool) (some : xs ≠ []) :
    inToken d inside xs = true ↔ xs.getLast? ≠ Option.some d := by
  obtain ⟨front, x, rfl⟩ := (List.eq_nil_or_concat xs).resolve_left some
  simp [inToken]

theorem token_spec (there : ys ∈ tokens d xs) : ys ≠ [] ∧ d ∉ ys := by
  induction xs using token_induction d with
  | delimiters n => rw [tokens_none] at there; cases there
  | last n zs some absent =>
    rw [tokens_delimiters, tokens_last some absent, List.mem_singleton] at there
    rw [there]
    exact ⟨some, absent⟩
  | token n zs rest some absent ih =>
    rw [tokens_delimiters, tokens_token some absent] at there
    rcases List.mem_cons.mp there with rfl | there
    · exact ⟨some, absent⟩
    · exact ih there

theorem token_sublist (there : ys ∈ tokens d xs) : ys.Sublist xs := by
  induction xs using token_induction d with
  | delimiters n => rw [tokens_none] at there; cases there
  | last n zs some absent =>
    rw [tokens_delimiters, tokens_last some absent, List.mem_singleton] at there
    rw [there]
    exact List.sublist_append_right _ _
  | token n zs rest some absent ih =>
    rw [tokens_delimiters, tokens_token some absent] at there
    refine .trans ?_ (List.sublist_append_right _ _)
    rcases List.mem_cons.mp there with rfl | there
    · exact List.sublist_append_left _ _
    · exact (ih there).trans ((List.sublist_cons_self d rest).trans (List.sublist_append_right _ _))

theorem tokens_few (xs : List α) : (tokens d xs).length ≤ xs.count d + 1 := by
  induction xs using token_induction d with
  | delimiters n => rw [tokens_none]; exact Nat.zero_le _
  | last n ys some absent =>
    rw [tokens_delimiters, tokens_last some absent, List.length_singleton]
    exact Nat.le_add_left _ _
  | token n ys rest some absent ih =>
    rw [tokens_delimiters, tokens_token some absent, List.length_cons, List.count_append,
      List.count_append, List.count_cons_self]
    omega

theorem starts_length (p : Nat) (xs : List α) :
    (starts d false p xs).length = (tokens d xs).length := by
  induction xs using token_induction d generalizing p with
  | delimiters n => rw [starts_none, tokens_none]; rfl
  | last n ys some absent =>
    rw [starts_delimiters, tokens_delimiters, starts_last some absent, tokens_last some absent]
    rfl
  | token n ys rest some absent ih =>
    rw [starts_delimiters, tokens_delimiters, starts_token some absent, tokens_token some absent,
      List.length_cons, List.length_cons, ih]

theorem starts_few (inside : Bool) (p : Nat) (xs : List α) :
    2 * (starts d inside p xs).length ≤ xs.length + 1 := by
  suffices 2 * (starts d inside p xs).length ≤ xs.length + if inside then 0 else 1 by
    cases inside <;> simp at this ⊢ <;> omega
  induction xs generalizing inside p with
  | nil => exact Nat.zero_le _
  | cons x xs ih =>
    have outside := ih false (p + 1)
    have within := ih true (p + 1)
    rw [if_neg Bool.false_ne_true] at outside
    rw [if_pos rfl] at within
    rw [starts, List.length_cons]
    split
    case isTrue => omega
    case isFalse =>
      split
      case isTrue => omega
      case isFalse => rw [List.length_cons]; omega

omit [DecidableEq α] in
theorem takeWhile_stop {test : α → Bool} {x : α} (pass : ∀ y ∈ ys, test y = true)
    (fail : test x = false) (rest : List α) : (ys ++ x :: rest).takeWhile test = ys := by
  rw [List.takeWhile_append_of_pos pass, List.takeWhile_cons_of_neg (by simp [fail]),
    List.append_nil]

omit [DecidableEq α] in
theorem takeWhile_fails {test : α → Bool} {x : α}
    (h : xs[(xs.takeWhile test).length]? = some x) : test x = false := by
  induction xs with
  | nil => cases h
  | cons y ys ih =>
    cases pass : test y with
    | true =>
      rw [List.takeWhile_cons_of_pos pass, List.length_cons, List.getElem?_cons_succ] at h
      exact ih h
    | false =>
      rw [List.takeWhile_cons_of_neg (by simp [pass])] at h
      cases h
      exact pass

/-- Read from their starts in the sequence that was cut, with anything in front, the
tokens are the ones between the delimiters. A mark has to follow where the scan ends in
a token. -/
theorem map_starts (absent : z ∉ xs) (before : List α) {after : List α}
    (ends : inToken d false xs = true → ∃ more, after = z :: more) :
    (starts d false before.length xs).map
        (fun p => ((before ++ (cut d z false xs ++ after)).drop p).takeWhile (· ≠ z)) =
          tokens d xs := by
  have reads (before ys after : List α) (plain : z ∉ ys) :
      ((before ++ (ys ++ z :: after)).drop before.length).takeWhile (· ≠ z) = ys := by
    rw [List.drop_left]
    exact takeWhile_stop (fun y there => by simpa using ne_of_mem_of_not_mem there plain)
      (by simp) after
  have shift (before : List α) (n : Nat) :
    before.length + n = (before ++ List.replicate n d).length := by simp
  induction xs using token_induction d generalizing before with
  | delimiters n => rw [starts_none, tokens_none]; rfl
  | last n ys some other =>
    obtain ⟨more, rfl⟩ := ends (by rw [inToken_delimiters, inToken_last false some other])
    rw [starts_delimiters, tokens_delimiters, starts_last some other, tokens_last some other,
      cut_delimiters, cut_last false other, List.map_singleton, List.append_assoc,
      ← List.append_assoc before, shift, reads]
    exact fun there => absent (List.mem_append_right _ there)
  | token n ys rest some other ih =>
    have behind : (before ++ List.replicate n d).length + ys.length + 1 =
        (before ++ List.replicate n d ++ (ys ++ [z])).length := by simp; omega
    have whole : before ++ (List.replicate n d ++ (ys ++ z :: cut d z false rest) ++ after) =
        before ++ List.replicate n d ++ (ys ++ [z]) ++ (cut d z false rest ++ after) := by simp
    have first : before ++ List.replicate n d ++ (ys ++ [z]) ++ (cut d z false rest ++ after) =
        before ++ List.replicate n d ++ (ys ++ z :: (cut d z false rest ++ after)) := by simp
    rw [inToken_delimiters, inToken_token] at ends
    rw [starts_delimiters, tokens_delimiters, starts_token some other, tokens_token some other,
      cut_delimiters, cut_token false some other, List.map_cons, whole, shift]
    refine congrArg₂ List.cons ?_ ?_
    · rw [first]
      exact reads _ ys _ fun there => absent (by simp [there])
    · rw [behind]
      exact ih (fun there => absent (by simp [there])) _ ends

theorem starts_range {q : Nat} (inside : Bool) {p : Nat} (there : q ∈ starts d inside p xs) :
    p ≤ q ∧ q < p + xs.length := by
  induction xs generalizing inside p with
  | nil => cases there
  | cons x xs ih =>
    have later {b : Bool} (there : q ∈ starts d b (p + 1) xs) :
        p ≤ q ∧ q < p + (x :: xs).length := by
      have range := ih b there
      rw [List.length_cons]
      omega
    rw [starts] at there
    split at there
    case isTrue => exact later there
    case isFalse =>
      split at there
      case isTrue => exact later there
      case isFalse =>
        rcases List.mem_cons.mp there with rfl | there
        · exact ⟨le_rfl, by rw [List.length_cons]; omega⟩
        · exact later there

theorem starts_spaced (p : Nat) (xs : List α) :
    List.Pairwise (fun s t => s.1 + s.2.length < t.1)
      ((starts d false p xs).zip (tokens d xs)) := by
  induction xs using token_induction d generalizing p with
  | delimiters n => rw [tokens_none, List.zip_nil_right]; exact .nil
  | last n ys some absent =>
    rw [starts_delimiters, tokens_delimiters, starts_last some absent, tokens_last some absent]
    exact List.pairwise_singleton _ _
  | token n ys rest some absent ih =>
    rw [starts_delimiters, tokens_delimiters, starts_token some absent, tokens_token some absent,
      List.zip_cons_cons]
    refine .cons ?_ (ih _)
    intro t there
    have range := starts_range false (List.of_mem_zip there).1
    dsimp only
    omega

end LastPicked.Tokens
