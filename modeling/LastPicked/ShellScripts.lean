import LastPicked.ShellMain
import LastPicked.ShellBatch
import LastPicked.ShellGrammar

/-! What the shell does with a batch file, line by line: it forks once for each command, with
the words of the command, and no child is left when it reads the next line. -/

namespace LastPicked.Shell
open CIntegers HeapCells ChildProcesses Tokens

def Background (ws : Argv) : Prop := ws.getLast? = some ampersand

instance (ws : Argv) : Decidable (Background ws) := inferInstanceAs (Decidable (_ = _))

def jobs (line : List UInt8) : List Argv :=
  ((segments line).map words).filter fun ws => ws ≠ [] ∧ ws.head? ≠ some quit

def Quits (line : List UInt8) : Prop := some quit ∈ (segments line).map fun s => (words s).head?

instance (line : List UInt8) : Decidable (Quits line) := inferInstanceAs (Decidable (_ ∈ _))

/-- The lines up to the first that quits, and behind each line its commands. -/
def script : List (List UInt8) → List (List UInt8 ⊕ Argv)
  | [] => []
  | line :: lines => .inl line :: (jobs line).map .inr ++ if Quits line then [] else script lines

/-- A line is read when there is no child, and a command is started among jobs only. -/
def Orderly (children : List (Pid × Argv)) : Event → Prop
  | .fork _ _ => ∀ child ∈ children, Background child.2
  | .other _ => children = []
  | .wait _ => True

variable {os : System Argv (List UInt8)} {execvp : List Event → Argv → Bool} {turns k : Nat}
  {line file mem mem' : List UInt8} {events : List Event}
  {ws : Argv} {ptrs : List Nat} {p : Nat}

theorem splitCommandAndArgs_more {was : Int} {x : Option (Cells (Option Nat)) × Int × List UInt8}
    (h : splitCommandAndArgs k mem (some p) was = some x) (enough : k ≤ turns) :
    splitCommandAndArgs turns mem (some p) was = some x := by
  obtain ⟨n, rfl⟩ := Nat.exists_eq_add_of_le enough
  obtain ⟨s, loop, rest⟩ := Option.bind_eq_some_iff.mp h
  rw [splitCommandAndArgs, splitLoop_more loop]
  exact rest

theorem upTo_null (ptrs : List Nat) (c : Nat) :
    upTo none (filled (ptrs.map some ++ [none]) c) = some (ptrs.map some) :=
  upTo_filled (by simp)

section Arguments

variable (texts : ptrs.map (textAt mem) = ws.map some)

include texts

theorem argument_eq (j : Nat) (inside : j < ws.length) :
    argument mem (filled (ptrs.map some ++ [none]) 0) j = ws[j]? := by
  have length : ptrs.length = ws.length := by simpa using congrArg List.length texts
  have there : j < ptrs.length := length ▸ inside
  have text : textAt mem ptrs[j] = some ws[j] := by
    have at_j := congrArg (·[j]?) texts
    simpa [there, inside] using at_j
  simp [argument, filled, List.getElem?_append, there, inside, text]

theorem argv_eq : argv mem (filled (ptrs.map some ++ [none]) 0) = some ws := by
  rw [argv, upTo_null, Option.bind_some]
  induction ptrs generalizing ws with
  | nil =>
    obtain rfl : ws = [] := by simpa using texts.symm
    rfl
  | cons q ptrs ih =>
    cases ws with
    | nil => cases texts
    | cons w ws =>
      obtain ⟨text, texts⟩ := List.cons.inj texts
      have rest := ih texts
      rw [List.map_cons, List.mapM_cons, rest]
      simp [text]

end Arguments

def start (os : System Argv (List UInt8)) (ws : Argv) (events : List Event) : List Event :=
  let pid := os.fork events
  if Background ws then events ++ [.fork pid ws] else os.waitpid (events ++ [.fork pid ws]) pid

def perform (os : System Argv (List UInt8)) (s : Bool × List Event) (ws : Argv) :
    Bool × List Event :=
  if ws = [] then s else if ws.head? = some quit then (false, s.2) else (s.1, start os ws s.2)

variable (os)

theorem command_eq (splits : Splits mem p ws)
    (found : ws ≠ [] → ws.head? ≠ some quit → ∀ events, execvp events ws = true) :
    ∃ k mem', Call p mem mem' ∧
    ∀ turns, k ≤ turns → ∀ s, command os execvp turns ⟨mem, s.1, s.2⟩ p =
      some ⟨mem', (perform os s ws).1, (perform os s ws).2⟩ := by
  obtain ⟨k, ptrs, mem', call, texts⟩ := splits 0
  refine ⟨k, mem', ⟨k, 0, _, _, call⟩, fun turns enough s => ?_⟩
  have call := splitCommandAndArgs_more call enough
  simp only [command, call, Option.bind_eq_bind, Option.bind_some, Int.natCast_eq_zero,
    List.length_eq_zero_iff]
  by_cases empty : ws = []
  · rw [if_pos empty, perform, if_pos empty]
  · have several := List.length_pos_of_ne_nil empty
    have last : argument mem' (filled (ptrs.map Option.some ++ [none]) 0)
        (ws.length - 1 : Int).toNat = ws.getLast? := by
      rw [argument_eq texts _ (by omega), List.getLast?_eq_getElem?]
      congr 1
      omega
    obtain ⟨w, last_eq⟩ := Option.ne_none_iff_exists'.mp (mt List.getLast?_eq_none_iff.mp empty)
    have first := argument_eq texts 0 several
    rw [← List.head?_eq_getElem?] at first
    obtain ⟨v, first_eq⟩ := Option.ne_none_iff_exists'.mp (mt List.head?_eq_none_iff.mp empty)
    rw [if_neg empty, first, first_eq, Option.bind_some, perform, if_neg empty, first_eq]
    by_cases quits : v = quit
    · rw [if_pos quits, if_pos (congrArg Option.some quits)]
    · have other : ws.head? ≠ some quit := by rwa [first_eq, Ne, Option.some.injEq]
      have started : ¬(os.fork s.2 ≠ none ∧ execvp s.2 ws = false) := by
        rw [found empty other]
        exact fun failed => Bool.noConfusion failed.2
      rw [if_neg quits, if_neg (mt Option.some.inj quits), argv_eq texts, Option.bind_some, last,
        last_eq, Option.bind_some, start]
      have job : Background ws ↔ ¬w ≠ ampersand := by
        rw [Background, last_eq, Option.some.injEq, not_not]
      simp only [if_neg started, job, ite_not]

theorem commandLoop_eq {all todo : List Nat} {ss : List (List UInt8)} (distinct : todo.Nodup)
    (inside : ∀ p ∈ todo, p ∈ all)
    (splits : List.Forall₂
      (fun p s => ∀ mem', OtherCalls all p mem mem' → Splits mem' p (words s)) todo ss)
    (found : ∀ s ∈ ss, words s ≠ [] → (words s).head? ≠ some quit →
      ∀ events, execvp events (words s) = true)
    (c i : Nat) :
    ∃ k, ∀ turns, k ≤ turns → ∀ b, ∃ mem',
      commandLoop os execvp turns (filled (todo.map some ++ [none]) c) ⟨mem, b.1, b.2⟩ i =
        some (⟨mem', ((ss.map words).foldl (perform os) b).1,
          ((ss.map words).foldl (perform os) b).2⟩, i + ss.length) := by
  induction todo generalizing mem ss i with
  | nil =>
    cases splits
    exact ⟨0, fun turns _ b => ⟨mem, rfl⟩⟩
  | cons p todo ih =>
    obtain ⟨s, ss, split, others, rfl⟩ := List.forall₂_cons_left_iff.mp splits
    obtain ⟨here, distinct⟩ := List.nodup_cons.mp distinct
    obtain ⟨first, found⟩ := List.forall_mem_cons.mp found
    obtain ⟨k, mem₁, call, runs⟩ := command_eq os (split mem .refl) first
    have later : List.Forall₂ (fun q s => ∀ mem', OtherCalls all q mem₁ mem' →
        Splits mem' q (words s)) todo ss := by
      refine List.forall₂_iff_zip.mpr ⟨others.length_eq, fun pair mem' calls => ?_⟩
      have other : p ≠ _ := fun same => here (same ▸ (List.of_mem_zip pair).1)
      exact (List.forall₂_iff_zip.mp others).2 pair mem'
        (.head ⟨p, inside p List.mem_cons_self, other, call⟩ calls)
    obtain ⟨k', runs'⟩ :=
      ih distinct (fun q there => inside q (List.mem_cons_of_mem p there)) later found (i + 1)
    refine ⟨max k k', fun turns enough b => ?_⟩
    obtain ⟨mem', rest⟩ := runs' turns (le_of_max_le_right enough) (perform os b (words s))
    refine ⟨mem', ?_⟩
    have cells : filled ((p :: todo).map some ++ [none]) c =
      some (some p) :: filled (todo.map some ++ [none]) c := rfl
    rw [cells, commandLoop, runs turns (le_of_max_le_left enough), Option.bind_eq_bind,
      Option.bind_some, rest, List.map_cons, List.foldl_cons, List.length_cons, Nat.add_right_comm,
      Nat.add_assoc]

theorem starts_nodup (d : UInt8) (p : Nat) (xs : List UInt8) : (starts d false p xs).Nodup := by
  have length : (starts d false p xs).length = (tokens d xs).length := starts_length p xs
  have increasing : ((starts d false p xs).zip (tokens d xs)).Pairwise fun a b => a.1 < b.1 :=
    (starts_spaced p xs).imp fun {a b} front => by omega
  rw [← List.pairwise_map (f := Prod.fst) (R := (· < ·)), List.map_fst_zip length.le] at increasing
  exact increasing.imp Nat.ne_of_lt

theorem runLine_eq (unmarked : 0 ∉ line) (parses : Parses line)
    (found : ∀ ws ∈ jobs line, ∀ events, execvp events ws = true) :
    ∃ k, ∀ turns, k ≤ turns → ∀ events,
    runLine os execvp turns line events =
      some ((((segments line).map words).foldl (perform os) (true, events)).1,
        os.waitLoop (segments line).length
          (((segments line).map words).foldl (perform os) (true, events)).2) := by
  obtain ⟨ptrs, c, mem, list, -, commands⟩ := parses
  have commands_eq := list
  rw [getCommands_line unmarked] at commands_eq
  have same : ptrs = starts semicolon false 0 line := by
    split at commands_eq
    case isFalse => cases commands_eq
    case isTrue =>
      have cells :=
        congrArg (upTo none) (Option.some.inj (Prod.mk.inj (Option.some.inj commands_eq)).1)
      rw [upTo_null, upTo_null] at cells
      exact (List.map_injective_iff.mpr (Option.some_injective Nat) (Option.some.inj cells)).symm
  have distinct : ptrs.Nodup := same ▸ starts_nodup semicolon 0 line
  have splits := commands.imp fun p s kept mem' calls => (kept mem' calls).2
  have named : ∀ s ∈ segments line, words s ≠ [] → (words s).head? ≠ some quit →
      ∀ events, execvp events (words s) = true := fun s there some other =>
    found (words s) (List.mem_filter.mpr ⟨List.mem_map_of_mem there, decide_eq_true ⟨some, other⟩⟩)
  obtain ⟨k, runs⟩ := commandLoop_eq os distinct (fun p there => there) splits named c 0
  refine ⟨k, fun turns enough events => ?_⟩
  obtain ⟨mem', loop⟩ := runs turns enough (true, events)
  simp only [runLine, list, Option.bind_eq_bind, Option.bind_some, loop, Nat.zero_add]

def runLines (os : System Argv (List UInt8)) (execvp : List Event → Argv → Bool) (turns : Nat) :
    List (List UInt8) → List Event → Option (List Event)
  | [], events => some events
  | line :: lines, events => (runLine os execvp turns line (events ++ [.other line])).bind fun r =>
      if r.1 then runLines os execvp turns lines r.2 else some r.2

theorem mainLoop_lines {lines : List (List UInt8)} {rest : List UInt8}
    (read : readBatch file = some (lines, rest)) :
    mainLoop os execvp turns file events = runLines os execvp turns lines events := by
  induction length : file.length using Nat.strongRecOn generalizing file lines events with
  | ind n ih =>
    subst length
    rw [mainLoop]
    split
    case h_1 stuck =>
      rw [readBatch_stuck stuck] at read
      cases read
    case h_2 ended =>
      rw [readBatch_null ended] at read
      cases read
      rfl
    case h_3 str left given =>
      rw [readBatch_line given] at read
      obtain ⟨line, found, read⟩ := Option.bind_eq_some_iff.mp read
      obtain ⟨⟨later, rest'⟩, left_read, same⟩ := Option.map_eq_some_iff.mp read
      cases same
      rw [found, Option.bind_eq_bind, Option.bind_some, runLines]
      cases ran : runLine os execvp turns line (events ++ [.other line]) with
      | none => rfl
      | some r =>
        obtain ⟨keepRunning, after⟩ := r
        rw [Option.bind_eq_bind, Option.bind_some, Option.bind_some]
        dsimp only
        split
        case isTrue => exact ih _ (getStringFromFile_rest given) left_read rfl
        case isFalse => rfl

def performLine (os : System Argv (List UInt8)) (line : List UInt8) (events : List Event) :
    Bool × List Event :=
  let r := ((segments line).map words).foldl (perform os) (true, events ++ [.other line])
  (r.1, os.waitLoop (segments line).length r.2)

def performLines (os : System Argv (List UInt8)) : List (List UInt8) → List Event → List Event
  | [], events => events
  | line :: lines, events =>
      let r := performLine os line events
      if r.1 then performLines os lines r.2 else r.2

structure Within (n : Nat) (events : List Event) : Prop where
  orderly : Throughout Orderly events
  background : ∀ child ∈ children events, Background child.2
  few : (children events).length ≤ n

theorem Within.start {n : Nat} (h : Within n events) (ws : Argv) :
    Within (n + 1) (start os ws events) := by
  have forked (pid : Option Pid) : Throughout Orderly (events ++ [.fork pid ws]) :=
    h.orderly.snoc h.background
  have free (cs : List (Pid × Argv)) (pid : Option Pid) : Orderly cs (.wait pid) := trivial
  have few := h.few
  unfold Shell.start
  dsimp only
  split
  case isTrue job =>
    refine ⟨forked _, ?_, ?_⟩ <;> rw [children_snoc] <;> cases os.fork events
    case refine_1.none => exact h.background
    case refine_1.some pid => exact List.forall_mem_cons.mpr ⟨job, h.background⟩
    case refine_2.none => exact Nat.le_succ_of_le few
    case refine_2.some pid => exact Nat.succ_le_succ few
  case isFalse =>
    cases os.fork events with
    | some pid =>
      have same := children_foreground os events pid ws
      exact ⟨(forked _).waitpid free _, by rw [same]; exact h.background, by rw [same]; omega⟩
    | none =>
      have fewer :=
        children_wait_sublist (events ++ [.fork none ws]) (os.wait (events ++ [.fork none ws]))
      have same : children (events ++ [.fork none ws]) = children events := children_snoc _
      rw [same] at fewer
      exact ⟨(forked _).waitpid free _, fun child there => h.background child (fewer.subset there),
        fewer.length_le.trans (Nat.le_succ_of_le few)⟩

theorem Within.perform {n : Nat} (h : Within n events) (b : Bool) (ws : Argv) :
    Within (n + 1) (perform os (b, events) ws).2 := by
  have more : Within (n + 1) events := ⟨h.orderly, h.background, Nat.le_succ_of_le h.few⟩
  unfold Shell.perform
  split
  case isTrue => exact more
  case isFalse =>
    split
    case isTrue => exact more
    case isFalse => exact h.start os ws

theorem Within.foldl {n : Nat} {b : Bool × List Event} (h : Within n b.2) (wss : List Argv) :
    Within (n + wss.length) (wss.foldl (Shell.perform os) b).2 := by
  induction wss generalizing n b with
  | nil => exact h
  | cons ws wss ih =>
    have next := ih (h.perform os b.1 ws)
    rwa [Nat.add_right_comm, Nat.add_assoc] at next

theorem acts_start (ws : Argv) : acts (start os ws events) = acts events ++ [.inr ws] := by
  unfold start
  dsimp only
  split
  case isTrue => exact acts_fork _ ws
  case isFalse => exact (acts_waitpid _).trans (acts_fork _ ws)

theorem acts_perform (b : Bool × List Event) (ws : Argv) : acts (perform os b ws).2 =
    acts b.2 ++ ([ws].filter fun ws => ws ≠ [] ∧ ws.head? ≠ some quit).map .inr := by
  unfold perform
  by_cases empty : ws = []
  · simp [empty]
  · by_cases quits : ws.head? = some quit
    · simp [empty, quits]
    · simp [empty, quits, acts_start]

theorem acts_foldl (b : Bool × List Event) (wss : List Argv) : acts (wss.foldl (perform os) b).2 =
    acts b.2 ++ (wss.filter fun ws => ws ≠ [] ∧ ws.head? ≠ some quit).map .inr := by
  induction wss generalizing b with
  | nil => exact (List.append_nil _).symm
  | cons ws wss ih =>
    rw [List.foldl_cons, ih, acts_perform, List.append_assoc, ← List.map_append,
      ← List.filter_append, List.singleton_append]

theorem foldl_keepRunning (b : Bool × List Event) (wss : List Argv) :
    (wss.foldl (perform os) b).1 = true ↔ b.1 = true ∧ some quit ∉ wss.map List.head? := by
  induction wss generalizing b with
  | nil => simp
  | cons ws wss ih =>
    rw [List.foldl_cons, ih, List.map_cons, List.mem_cons, not_or, ← and_assoc]
    refine and_congr_left fun _ => ?_
    unfold perform
    by_cases empty : ws = []
    · simp [empty]
    · by_cases quits : ws.head? = some quit
      · simp [empty, quits]
      · simp [empty, quits, Ne.symm quits]

theorem performLine_keepRunning (line : List UInt8) (events : List Event) :
    (performLine os line events).1 = true ↔ ¬Quits line := by
  rw [performLine, foldl_keepRunning, List.map_map]
  exact and_iff_right rfl

/-- The lines are run up to the one that quits, so nothing is asked of those behind it. -/
theorem runLines_eq {lines : List (List UInt8)} (parses : ∀ line ∈ lines, 0 ∉ line ∧ Parses line)
    (found : ∀ ws, .inr ws ∈ script lines → ∀ events, execvp events ws = true) :
    ∃ k, ∀ turns, k ≤ turns → ∀ events,
      runLines os execvp turns lines events = some (performLines os lines events) := by
  induction lines with
  | nil => exact ⟨0, fun _ _ _ => rfl⟩
  | cons line lines ih =>
    obtain ⟨here, later⟩ := List.forall_mem_cons.mp parses
    have first : ∀ ws ∈ jobs line, ∀ events, execvp events ws = true := fun ws there =>
      found ws (List.mem_append_left _ (List.mem_cons_of_mem _ (List.mem_map_of_mem there)))
    obtain ⟨k, runs⟩ := runLine_eq os here.1 here.2 first
    by_cases quits : Quits line
    · refine ⟨k, fun turns enough events => ?_⟩
      have stops : ¬(performLine os line events).1 = true := fun on =>
        (performLine_keepRunning os line events).mp on quits
      rw [runLines, runs turns enough, Option.bind_some, performLines]
      exact (if_neg stops).trans (congrArg some (if_neg stops).symm)
    · have rest : ∀ ws, .inr ws ∈ script lines → ∀ events, execvp events ws = true :=
        fun ws there => found ws (List.mem_append_right _ (by rwa [if_neg quits]))
      obtain ⟨k', runs'⟩ := ih later rest
      refine ⟨max k k', fun turns enough events => ?_⟩
      have goes := (performLine_keepRunning os line events).mpr quits
      rw [runLines, runs turns (le_of_max_le_left enough), Option.bind_some, performLines]
      exact (if_pos goes).trans ((runs' turns (le_of_max_le_right enough) _).trans
        (congrArg some (if_pos goes).symm))

theorem performLine_acts (line : List UInt8) (events : List Event) :
    acts (performLine os line events).2 =
      acts events ++ .inl line :: (jobs line).map .inr := by
  rw [performLine, acts_waitLoop, acts_foldl, acts_other, List.append_assoc]
  rfl

theorem performLine_children (line : List UInt8) (orderly : Throughout Orderly events)
    (none : children events = []) :
    Throughout Orderly (performLine os line events).2 ∧
    children (performLine os line events).2 = [] := by
  have read : Within 0 (events ++ [.other line]) := by
    refine ⟨orderly.snoc none, ?_, ?_⟩ <;> rw [children_snoc, Event.after, none]
    · exact List.forall_mem_nil _
    · exact Nat.le_refl 0
  have ran := Within.foldl os (b := (true, events ++ [.other line])) read
    ((segments line).map words)
  rw [Nat.zero_add, List.length_map] at ran
  exact ⟨ran.orderly.waitLoop (fun _ _ => trivial) _, children_waitLoop ran.few⟩

theorem performLines_script (lines : List (List UInt8)) (orderly : Throughout Orderly events)
    (none : children events = []) :
    acts (performLines os lines events) = acts events ++ script lines ∧
      Throughout Orderly (performLines os lines events) ∧
      children (performLines os lines events) = [] := by
  induction lines generalizing events with
  | nil => exact ⟨(List.append_nil _).symm, orderly, none⟩
  | cons line lines ih =>
    obtain ⟨orderly', none'⟩ := performLine_children os line orderly none
    have shown := performLine_acts os line events
    have goes := performLine_keepRunning os line events
    rw [performLines, script]
    by_cases quits : Quits line
    · rw [if_neg (fun on => goes.mp on quits), if_pos quits, List.append_nil]
      exact ⟨shown, orderly', none'⟩
    · rw [if_pos (goes.mpr quits), if_neg quits]
      obtain ⟨acted, rest⟩ := ih orderly' none'
      refine ⟨?_, rest⟩
      rw [acted, shown, List.append_assoc]

theorem subset_of_linesOf (there : line ∈ linesOf file) : line ⊆ file := by
  have part : line ∈ file.splitOn newline := by
    unfold linesOf at there
    dsimp only at there
    split at there
    case isTrue => exact List.mem_of_mem_dropLast there
    case isFalse => exact there
  by_cases empty : line = []
  · rw [empty]
    exact List.nil_subset file
  · exact (token_sublist (List.mem_filter.mpr ⟨part, decide_eq_true empty⟩)).subset

/-- However the children end: when no line is too long and each program is found, the shell reads
the lines up to one that quits, forks for their commands in order, and each child has been waited
for before the next line. -/
theorem mainLoop_script (os : System Argv (List UInt8)) (execvp : List Event → Argv → Bool)
    (file : List UInt8) (noNul : 0 ∉ file) (noEof : 255 ∉ file)
    (short : ∀ line ∈ linesOf file, (line.length : Int) + 2 ≤ intMax)
    (found : ∀ ws, .inr ws ∈ script (linesOf file) → ∀ events, execvp events ws = true) :
    ∃ k, ∀ turns, k ≤ turns →
      ∃ events, mainLoop os execvp turns file [] = some events ∧
      acts events = script (linesOf file) ∧
        Throughout Orderly events ∧ children events = [] := by
  have large : intMax = 2 ^ 31 - 1 := rfl
  have read : readBatch file = some (linesOf file, []) := by
    refine (readBatch_lines file noNul).mpr ⟨noEof, fun line there => ?_⟩
    have short := short line there
    omega
  have parses : ∀ line ∈ linesOf file, 0 ∉ line ∧ Parses line := by
    intro line there
    have unmarked : 0 ∉ line := fun inside => noNul (subset_of_linesOf there inside)
    have short := short line there
    have few : line.count semicolon ≤ line.length := List.count_le_length
    exact ⟨unmarked, parses_short unmarked (by omega) (by omega)⟩
  obtain ⟨k, runs⟩ := runLines_eq os parses found
  refine ⟨k, fun turns enough => ⟨_, (mainLoop_lines os read).trans (runs turns enough []), ?_⟩⟩
  exact performLines_script os (linesOf file) .nil rfl

def largest (children : List (Pid × Argv)) : Nat := children.foldr (fun child m => max child.1 m) 0

theorem le_largest {children : List (Pid × Argv)} {child : Pid × Argv} (there : child ∈ children) :
    child.1 ≤ largest children := by
  induction children with
  | nil => cases there
  | cons c children ih =>
    rcases List.mem_cons.mp there with rfl | there
    · exact le_max_left _ _
    · exact (ih there).trans (le_max_right _ _)

/-- Pids count on from the largest that is in use, and the child made last ends first. -/
def counting : System Argv (List UInt8) where
  fork events := some (largest (children events) + 1)
  wait events := (children events).head?.map Prod.fst
  fresh _ _ given _ there :=
    Nat.ne_of_lt (Option.some.inj given ▸ Nat.lt_succ_of_le (le_largest there))
  ended _ _ given :=
    have ⟨child, first, same⟩ := Option.map_eq_some_iff.mp given
    ⟨child, List.mem_of_head? first, same⟩
  childless _ none := List.head?_eq_none_iff.mp (Option.map_eq_none_iff.mp none)

/-- `a b &;quit`, and a line behind it that is not read. -/
theorem mainLoop_script_quit : ∃ k, ∀ turns, k ≤ turns → ∃ events,
    mainLoop counting (fun _ ws => ws.head? = some [97]) turns
      [97, 32, 98, 32, 38, 59, 113, 117, 105, 116, 10, 99] [] = some events ∧
      acts events = [.inl [97, 32, 98, 32, 38, 59, 113, 117, 105, 116],
        .inr [[97], [98], [38]]] := by
  have lines : linesOf [97, 32, 98, 32, 38, 59, 113, 117, 105, 116, 10, 99] =
      [[97, 32, 98, 32, 38, 59, 113, 117, 105, 116], [99]] := by decide
  have short : ∀ line ∈ linesOf [97, 32, 98, 32, 38, 59, 113, 117, 105, 116, 10, 99],
      (line.length : Int) + 2 ≤ intMax := by
    rw [lines]
    decide
  have acts : script (linesOf [97, 32, 98, 32, 38, 59, 113, 117, 105, 116, 10, 99]) =
      [.inl [97, 32, 98, 32, 38, 59, 113, 117, 105, 116], .inr [[97], [98], [38]]] := by
    rw [lines]
    decide
  have found :
      ∀ ws, .inr ws ∈ script (linesOf [97, 32, 98, 32, 38, 59, 113, 117, 105, 116, 10, 99]) →
      ∀ _ : List Event, decide (ws.head? = some [97]) = true := by
    intro ws there _
    rw [acts] at there
    rcases List.mem_cons.mp there with other | here
    · cases other
    · obtain rfl := Sum.inr.inj (List.mem_singleton.mp here)
      decide
  obtain ⟨k, runs⟩ :=
    mainLoop_script counting _ [97, 32, 98, 32, 38, 59, 113, 117, 105, 116, 10, 99] (by decide)
    (by decide) short found
  refine ⟨k, fun turns enough => ?_⟩
  obtain ⟨events, run, acted, -⟩ := runs turns enough
  exact ⟨events, run, acted.trans acts⟩

end LastPicked.Shell
