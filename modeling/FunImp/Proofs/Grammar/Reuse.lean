import FunImp.Proofs.Grammar.Errors
import FunImp.Proofs.Grammar.Log
import FunImp.Proofs.Rows

/-! # Asking a parser again

An error leaves a parser half way: the rules that were open stay open, and what was taken is gone.
Asked again it does what a new parser of the rest would do with the rest of the budget, inside the
rules that are open. -/

namespace FunImp

namespace Tree

/-- The reader fails with so many open rules at most, and with just as many where rules are nested
too deeply. -/
def Reader.Opens (n : Nat) {α : Type} (p : Reader α) : Prop :=
  ∀ ls e, p.run ls = .error e →
    e.rules.length ≤ n ∧ (e.obstacle = .tooDeep → e.rules.length = n)

open Reader

theorem passed_opens : Passed fun n {_} p => p.Opens n where
  pure _ a := failsOnly_pure a
  peek _ := failsOnly_peek
  unexpected _ _ := failsOnly_fail fun _ => ⟨Nat.zero_le _, nofun⟩
  tooDeep := failsOnly_fail fun _ => ⟨Nat.le_refl _, fun _ => rfl⟩
  require _ _ _ heof := failsOnly_require heof fun _ => ⟨Nat.zero_le _, nofun⟩
  bind hp hq := FailsOnly.bind hp hq
  many hp more hs := FailsOnly.many hp more hs
  within hp _ := FailsOnly.within hp fun _ ⟨hle, htooDeep⟩ =>
    ⟨Nat.succ_le_succ hle, fun hobstacle => congrArg Nat.succ (htooDeep hobstacle)⟩

end Tree

namespace Parser

/-- The tokens that are left in front of the end. -/
def pending (p : Parser) : List Token := p.leaves.flatMap Leaf.tokens ++ p.trailing

end Parser

/-- The error inside rules that are open around it. -/
def SyntaxError.under (rules : List Rule) (e : SyntaxError) : SyntaxError :=
  { e with rules := rules ++ e.rules }

namespace Parser

def under (rules : List Rule) (p : Parser) : Parser := { p with opened := rules ++ p.opened }

/-- The rules that are open take their part of the budget and stand in front of those of errors,
and make no other difference. -/
theorem readProgram_eq_under (p : Parser) :
    p.readProgram = Prod.map (Except.mapError (.under p.opened)) (under p.opened)
      (readProgramUpTo (maxDepth - p.opened.length) { p with opened := [] }) := by
  have hprogram : programUpTo (maxDepth - p.opened.length) { p with opened := [] } = p.program :=
    rfl
  rw [readProgram_eq, readProgramUpTo, hprogram]
  cases p.program.run p.leaves with
  | ok r => simp [Except.mapError, under]
  | error e => simp [Except.mapError, under, SyntaxError.under]

/-- What parsers are like that were made from tokens and asked any number of times. -/
structure Regular (p : Parser) : Prop where
  leaves : ∀ l ∈ p.leaves, l.Tidy ∧ l.kind ≠ .eof
  trailing : ∀ w ∈ p.trailing, w.kind = .whitespace
  eof : p.eof.kind = .eof
  opened : p.opened.length ≤ maxDepth

variable {p : Parser}

theorem regular_ofTokens (tokens : List Token) (source : Source) :
    (ofTokens tokens source).Regular := by
  obtain ⟨ls, ws, e, hparser, hls, hws, he, -⟩ := ofTokens_spec tokens source
  rw [hparser]
  exact ⟨hls, hws, he, Nat.zero_le _⟩

theorem Regular.kind_ne_eof (hp : p.Regular) : ∀ t ∈ p.pending, t.kind ≠ .eof :=
  List.forall_mem_append.2 ⟨Leaf.kind_ne_eof_of_mem_tokens hp.leaves, fun w hw heof => by
    simp [hp.trailing w hw] at heof⟩

/-- A parser that has no open rules is the one that is made from what it has left. -/
theorem Regular.ofTokens_pending (hp : p.Regular) (source : Source) :
    ofTokens (p.pending ++ [p.eof]) source = { p with opened := [] } := by
  have hend := hp.kind_ne_eof
  have htake : (p.pending ++ [p.eof]).takeWhile (·.kind ≠ .eof) = p.pending := by
    rw [List.takeWhile_append_of_pos (by simpa using hend)]
    simp [hp.eof]
  have hfind : (p.pending ++ [p.eof]).find? (·.kind = .eof) = some p.eof := by
    rw [List.find?_append, List.find?_eq_none.2 (by simpa using hend)]
    simp [hp.eof]
  have hgather : Leaf.gather p.pending = (p.leaves, p.trailing) :=
    Leaf.gather_tokens (fun l hl => (hp.leaves l hl).1) hp.trailing
  simp only [ofTokens, htake, hfind, hgather, Option.getD_some]

theorem passed_program {P : Nat → ∀ {α : Type}, Tree.Reader α → Prop} (h : Tree.Passed P)
    (p : Parser) : P (maxDepth - p.opened.length) p.program :=
  h.opened _ (fun n => h.bind (h.functions n) fun _ => h.pure n _) _

/-- A call answers a program of all that is left and takes it, or it takes some leaves and leaves
some rules open. -/
theorem Regular.readProgram_cases (hp : p.Regular) :
    (∃ tree, p.readProgram = (.ok tree, { p with leaves := [], trailing := [] }) ∧
      tree.WellFormed ∧ tree.tokens = p.pending ++ [p.eof] ∧ p.opened.length < maxDepth) ∨
    ∃ obstacle rules front rest, p.leaves = front ++ rest ∧
      p.readProgram = (.error ⟨obstacle, (rest.head?.map (·.token)).getD p.eof, p.opened ++ rules⟩,
        { p with opened := p.opened ++ rules, leaves := rest }) ∧
      (p.opened ++ rules).length ≤ maxDepth ∧
      (obstacle = .tooDeep → (p.opened ++ rules).length = maxDepth) := by
  have hbudget := hp.opened
  rw [readProgram_eq]
  cases hrun : p.program.run p.leaves with
  | ok r =>
    obtain ⟨tree, _⟩ := r
    obtain ⟨n, hn, hbody⟩ := Tree.opened_of_run hrun
    obtain ⟨fs, rest, hfs, hpure⟩ := Tree.Reader.run_bind_eq_ok.1 hbody
    obtain ⟨rfl, rfl⟩ := Tree.Reader.run_pure_eq_ok.1 hpure
    obtain ⟨hfunctions, hleaves, hnext⟩ := Tree.functions_of_run hfs
    obtain rfl : rest = [] := by
      cases rest with
      | nil => rfl
      | cons l rest => exact absurd hnext (hp.leaves l (by simp [hleaves])).2
    rw [List.append_nil] at hleaves
    have hwf := Tree.wellFormed_program (fun f hf => (hfunctions f hf).1) hp.eof hp.trailing
      fun l hl => (hp.leaves l (hleaves ▸ hl)).1
    refine .inl ⟨_, rfl, hwf, ?_, by omega⟩
    rw [hwf.isProgram.tokens_eq, pending, hleaves]
    simp [Tree.leaves, Tree.forestLeaves, Leaf.tokens]
  | error e =>
    obtain ⟨obstacle, rules, rest⟩ := e
    obtain ⟨front, hfront, -⟩ := (passed_program Tree.passed_foresighted p).error hrun
    obtain ⟨hle, htooDeep⟩ := passed_program Tree.passed_opens p _ _ hrun
    change rules.length ≤ _ at hle
    refine .inr ⟨obstacle, rules, front, rest, hfront, rfl, ?_, fun hobstacle => ?_⟩
    · rw [List.length_append]
      omega
    · have hlength : rules.length = maxDepth - p.opened.length := htooDeep hobstacle
      rw [List.length_append]
      omega

theorem Regular.next (hp : p.Regular) : p.readProgram.2.Regular := by
  rcases hp.readProgram_cases with ⟨_, hread, -⟩ | ⟨_, rules, front, rest, hleaves, hread, hle, -⟩
  · rw [hread]
    exact ⟨List.forall_mem_nil _, List.forall_mem_nil _, hp.eof, hp.opened⟩
  · rw [hread]
    refine ⟨fun l hl => hp.leaves l ?_, hp.trailing, hp.eof, hle⟩
    rw [hleaves]
    exact List.mem_append_right _ hl

theorem Regular.prefix_opened (hp : p.Regular) : p.opened <+: p.readProgram.2.opened := by
  rcases hp.readProgram_cases with ⟨_, hread, -⟩ | ⟨_, rules, _, _, -, hread, -⟩
  · exact ⟨[], by rw [hread, List.append_nil]⟩
  · exact ⟨rules, by rw [hread]⟩

theorem Regular.eof_readProgram (hp : p.Regular) : p.readProgram.2.eof = p.eof := by
  rcases hp.readProgram_cases with ⟨_, hread, -⟩ | ⟨_, _, _, _, -, hread, -⟩
  · rw [hread]
  · rw [hread]

def consumed (p : Parser) : List Token :=
  p.pending.take (p.pending.length - p.readProgram.2.pending.length)

theorem Regular.pending_eq (hp : p.Regular) :
    p.pending = p.consumed ++ p.readProgram.2.pending := by
  have hsuffix : p.readProgram.2.pending <:+ p.pending := by
    rcases hp.readProgram_cases with ⟨_, hread, -⟩ | ⟨_, rules, front, rest, hleaves, hread, -⟩
    · rw [hread]
      exact List.nil_suffix
    · rw [hread, pending, pending, hleaves, List.flatMap_append, List.append_assoc]
      exact List.suffix_append _ _
  conv_lhs => rw [← List.take_append_drop (p.pending.length - p.readProgram.2.pending.length)
    p.pending]
  rw [← List.suffix_iff_eq_drop.1 hsuffix]
  rfl

/-- With nothing left but the end a program is empty. -/
theorem readProgram_of_pending_nil (hp : p.opened.length < maxDepth) (hleaves : p.leaves = [])
    (htrailing : p.trailing = []) :
    p.readProgram = (.ok (.node .program [Tree.ofLeaf ⟨[], p.eof⟩]), p) := by
  obtain ⟨opened, leaves, trailing, eof⟩ := p
  obtain rfl : leaves = [] := hleaves
  obtain rfl : trailing = [] := htrailing
  obtain ⟨n, hn⟩ : ∃ n, maxDepth - opened.length = n + 1 := ⟨_, (Nat.sub_add_cancel
    (Nat.sub_pos_of_lt hp)).symm⟩
  have hfunctions : (Tree.functions n).run (Tree.forestLeaves [] ++ []) = .ok ([], []) :=
    Tree.run_functions (List.forall_mem_nil _) (List.forall_mem_nil _) rfl
  change (Tree.functions n).run [] = .ok ([], []) at hfunctions
  simp [readProgram_eq, program, programUpTo, hn, Tree.opened, Tree.Reader.within, hfunctions]

theorem readProgram_of_full (hp : p.opened.length = maxDepth) :
    p.readProgram =
      (.error ⟨.tooDeep, (p.leaves.head?.map (·.token)).getD p.eof, p.opened⟩, p) := by
  simp [readProgram_eq, program, programUpTo, hp, Tree.opened, Tree.Reader.fail]

def after : Nat → Parser → Parser
  | 0, p => p
  | n + 1, p => after n p.readProgram.2

theorem after_succ (n : Nat) (p : Parser) : p.after (n + 1) = (p.after n).readProgram.2 := by
  induction n generalizing p with
  | zero => rfl
  | succ n ih => exact ih p.readProgram.2

theorem parseTimes_eq_map (n : Nat) (p : Parser) :
    p.parseTimes n = (List.range n).map fun i => (p.after i).readProgram.1 := by
  induction n generalizing p with
  | zero => rfl
  | succ n ih =>
    change p.readProgram.1 :: parseTimes n p.readProgram.2 = _
    rw [ih, List.range_succ_eq_map, List.map_cons, List.map_map]
    rfl

theorem Regular.after (hp : p.Regular) (n : Nat) : (p.after n).Regular := by
  induction n with
  | zero => exact hp
  | succ n ih =>
    rw [after_succ]
    exact ih.next

theorem Regular.eof_after (hp : p.Regular) (n : Nat) : (p.after n).eof = p.eof := by
  induction n with
  | zero => rfl
  | succ n ih =>
    rw [after_succ, ← ih]
    exact (hp.after n).eof_readProgram

theorem Regular.prefix_opened_after (hp : p.Regular) (n : Nat) :
    p.opened <+: (p.after n).opened := by
  induction n with
  | zero => exact List.prefix_rfl
  | succ n ih =>
    rw [after_succ]
    exact ih.trans (hp.after n).prefix_opened

/-- What calls take is what is gone, in order and once. -/
theorem Regular.pending_eq_flatMap (hp : p.Regular) (n : Nat) :
    p.pending = (List.range n).flatMap (fun i => (p.after i).consumed) ++ (p.after n).pending := by
  induction n with
  | zero => rfl
  | succ n ih =>
    rw [List.range_succ, List.flatMap_append, List.flatMap_singleton, List.append_assoc, after_succ,
      ← (hp.after n).pending_eq]
    exact ih

theorem after_of_readProgram_eq {answer : Except SyntaxError Tree}
    (h : p.readProgram = (answer, p)) (n : Nat) : p.after n = p := by
  induction n with
  | zero => rfl
  | succ n ih => rw [after_succ, ih, h]

theorem pending_ofTokens (tokens : List Token) (source : Source) :
    (ofTokens tokens source).pending = tokens.takeWhile (·.kind ≠ .eof) :=
  (Leaf.gather_spec _).1.symm

/-- A program holds all that was left, and leaves nothing but the end for later calls. -/
theorem Regular.readProgram_eq_ok (hp : p.Regular) {tree : Tree}
    (h : p.readProgram.1 = .ok tree) :
    p.readProgram.2.opened = p.opened ∧ p.readProgram.2.pending = [] ∧
      tree.tokens = p.consumed ++ [p.eof] ∧
      ∀ k, (p.readProgram.2.after k).readProgram.1 =
        .ok (.node .program [Tree.ofLeaf ⟨[], p.eof⟩]) := by
  rcases hp.readProgram_cases with ⟨_, hread, -, htokens, hopened⟩ | ⟨_, _, _, _, -, hread, -⟩
  · have hpending := hp.pending_eq
    rw [hread] at h hpending ⊢
    obtain rfl := Except.ok.inj h
    let last : Parser := { p with leaves := [], trailing := [] }
    have hlast : last.readProgram = (.ok (.node .program [Tree.ofLeaf ⟨[], p.eof⟩]), last) :=
      readProgram_of_pending_nil hopened rfl rfl
    refine ⟨rfl, rfl, ?_, fun k => ?_⟩
    · rw [htokens, hpending]
      exact congrArg (· ++ [p.eof]) (List.append_nil _)
    · change (last.after k).readProgram.1 = _
      rw [after_of_readProgram_eq hlast, hlast]
  · rw [hread] at h
    cases h

/-- An error leaves the rules open that it tells. The depth limit is reported only if the budget is
used up then. -/
theorem Regular.opened_of_error (hp : p.Regular) {e : SyntaxError}
    (h : p.readProgram.1 = .error e) :
    p.readProgram.2.opened = e.rules ∧ (e.obstacle = .tooDeep → e.rules.length = maxDepth) := by
  rcases hp.readProgram_cases with ⟨_, hread, -⟩ | ⟨_, _, _, _, -, hread, -, htooDeep⟩
  · rw [hread] at h
    cases h
  · rw [hread] at h ⊢
    obtain rfl := Except.error.inj h
    exact ⟨rfl, htooDeep⟩

theorem leaves_readProgram (p : Parser) :
    p.readProgram.2.leaves = Tree.Logs.remaining (p.program.run p.leaves) := by
  rw [readProgram_eq]
  cases p.program.run p.leaves with
  | ok r => rfl
  | error e => rfl

/-- On the stack of a call, above the rules that were open, there are at its end those that it
leaves open. -/
theorem stackAfter_readProgram {log : Tree.Log}
    {answer : Except Tree.Failure (Tree × List Leaf)}
    (h : Tree.Logs p.program p.leaves log answer) :
    log.stackAfter p.readProgram.1.toBool p.opened = p.readProgram.2.opened := by
  obtain rfl := h.run_eq
  have hstack := h.stackAfter_eq p.opened
  rw [readProgram_eq]
  cases hrun : p.program.run p.leaves with
  | ok r =>
    rw [hrun] at hstack
    exact hstack.trans (List.append_nil _)
  | error e =>
    rw [hrun] at hstack
    exact hstack

/-- Every call has a log, which takes leaves off the front of those that are left and pushes rules
on the open ones up to the limit. -/
theorem Regular.exists_log (hp : p.Regular) :
    ∃ log, Tree.Logs p.program p.leaves log (p.program.run p.leaves) ∧
      p.opened.length + log.depth ≤ maxDepth ∧
      log.stackAfter p.readProgram.1.toBool p.opened = p.readProgram.2.opened ∧
      p.leaves = log.taken ++ p.readProgram.2.leaves := by
  obtain ⟨log, hlog, hdepth, -⟩ := passed_program Tree.passed_logged p p.leaves
  have hopened := hp.opened
  refine ⟨log, hlog, by omega, stackAfter_readProgram hlog, ?_⟩
  rw [leaves_readProgram]
  exact hlog.eq_taken_append

/-- Whoever asks again gets what a new parser of the rest would answer that has only the rest of the
budget, with the open rules in front of those of an error. Step by step a call pushes its rules on
the open ones, and the limit is met only where the stack is full. So open rules become no fewer, no
token is taken twice, and behind a program there is only the end. With the budget used up nothing
is taken any more. -/
theorem readProgram_after (tokens : List Token) (source : Source) (n : Nat) :
    let start := ofTokens tokens source
    let p := start.after n
    let fresh := (ofTokens (p.pending ++ [p.eof]) source).readProgramUpTo
      (maxDepth - p.opened.length)
    (start.parseTimes (n + 1))[n]? = some p.readProgram.1 ∧
    p.readProgram = Prod.map (Except.mapError (.under p.opened)) (under p.opened) fresh ∧
    (∃ log, Tree.Logs p.program p.leaves log (p.program.run p.leaves) ∧
      p.opened.length + log.depth ≤ maxDepth ∧
      log.stackAfter p.readProgram.1.toBool p.opened = p.readProgram.2.opened ∧
      p.leaves = log.taken ++ p.readProgram.2.leaves) ∧
    (∀ tree, fresh.1 = .ok tree → p.readProgram.1 = .ok tree ∧
      p.readProgram.2.opened = p.opened ∧ p.readProgram.2.pending = [] ∧
      tree.tokens = p.consumed ++ [p.eof] ∧
      ∀ k, (p.readProgram.2.after k).readProgram.1 =
        .ok (.node .program [Tree.ofLeaf ⟨[], p.eof⟩])) ∧
    (∀ e, fresh.1 = .error e →
      p.readProgram.1 = .error ⟨e.obstacle, e.found, p.opened ++ e.rules⟩ ∧
      p.readProgram.2.opened = p.opened ++ e.rules ∧
      (e.obstacle = .tooDeep →
        (e.under p.opened).depthLimit = some 128 ∧ (e.under p.opened).rules.length = 128)) ∧
    p.opened.length ≤ maxDepth ∧ (∀ k, p.opened <+: (p.after k).opened) ∧
    p.eof = start.eof ∧
    tokens.takeWhile (·.kind ≠ .eof) =
      (List.range n).flatMap (fun i => (start.after i).consumed) ++ p.pending ∧
    (p.opened.length = maxDepth → ∀ k, (p.after k).pending = p.pending ∧
      (p.after k).readProgram.1 =
        .error ⟨.tooDeep, (p.leaves.head?.map (·.token)).getD p.eof, p.opened⟩) := by
  intro start p fresh
  have hstart : start.Regular := regular_ofTokens tokens source
  have hp : p.Regular := hstart.after n
  have hunder : p.readProgram = Prod.map (Except.mapError (.under p.opened)) (under p.opened)
      fresh := by
    rw [readProgram_eq_under, ← hp.ofTokens_pending source]
  refine ⟨?_, hunder, hp.exists_log, fun tree h => ?_, fun e h => ?_, hp.opened,
    hp.prefix_opened_after, hstart.eof_after n, ?_, fun hfull k => ?_⟩
  · rw [parseTimes_eq_map]
    simp [p]
  · have hread : p.readProgram.1 = .ok tree := by
      rw [hunder, Prod.map_fst, h]
      rfl
    exact ⟨hread, hp.readProgram_eq_ok hread⟩
  · have hread : p.readProgram.1 = .error (e.under p.opened) := by
      rw [hunder, Prod.map_fst, h]
      rfl
    obtain ⟨hopened, htooDeep⟩ := hp.opened_of_error hread
    refine ⟨hread, hopened, fun hobstacle => ⟨?_, htooDeep hobstacle⟩⟩
    simp [SyntaxError.depthLimit, SyntaxError.under, hobstacle, maxDepth]
  · rw [← pending_ofTokens tokens source]
    exact hstart.pending_eq_flatMap n
  · have hfail := readProgram_of_full hfull
    rw [after_of_readProgram_eq hfail, hfail]
    exact ⟨rfl, rfl⟩

private def bareToken (kind : Token.Kind) : Token := ⟨kind, none, default, "sample"⟩

/-- The tokens of `f f(): int { }`. -/
private def stutter : List Token :=
  ([.identifier, .identifier, .leftParen, .rightParen, .colon, .identifier, .leftBrace,
    .rightBrace] : List Token.Kind).map bareToken

private def nowhere : Source := ⟨"sample", ""⟩

theorem readProgram_after_sample :
    let start := ofTokens stutter nowhere
    let stuck := (ofTokens [bareToken .plus] nowhere).after 128
    (∃ e log, start.readProgram.1 = .error e ∧ start.readProgram.2.opened = e.rules ∧
        Tree.Logs start.program start.leaves log (start.program.run start.leaves) ∧
        log.stackAfter false [] = e.rules) ∧
      (∃ tree, (start.after 1).readProgram.1 = .ok tree ∧
        tree.tokens = (start.after 1).consumed ++ [(start.after 1).eof] ∧
        (start.after 2).readProgram.1 =
          .ok (.node .program [Tree.ofLeaf ⟨[], (start.after 1).eof⟩])) ∧
      stuck.opened.length = maxDepth ∧
      (stuck.after 1).readProgram.1 = .error ⟨.tooDeep, bareToken .plus, stuck.opened⟩ := by
  intro start stuck
  have hfull : stuck.opened.length = maxDepth := by decide +kernel
  have hplus : (stuck.leaves.head?.map (·.token)).getD stuck.eof = bareToken .plus := by
    decide +kernel
  obtain ⟨-, -, ⟨log, hlog, -, hstack, -⟩, -, herror, -⟩ := readProgram_after stutter nowhere 0
  obtain ⟨-, -, -, hok, -⟩ := readProgram_after stutter nowhere 1
  obtain ⟨-, -, -, -, -, -, -, -, -, hstuck⟩ := readProgram_after [bareToken .plus] nowhere 128
  refine ⟨?_, ?_, hfull, ?_⟩
  · obtain ⟨e, he⟩ := Option.isSome_iff_exists.1 (by decide +kernel :
      (thrown? ((ofTokens (start.pending ++ [start.eof]) nowhere).readProgramUpTo 128).1).isSome)
    obtain ⟨hread, hopened, -⟩ := herror e (thrown?_eq_some_iff.1 he)
    rw [hread, hopened] at hstack
    exact ⟨_, log, hread, hopened, hlog, hstack⟩
  · let once := start.after 1
    obtain ⟨tree, htree⟩ := thrown?_eq_none_iff.1 (by decide +kernel :
      thrown? ((ofTokens (once.pending ++ [once.eof]) nowhere).readProgramUpTo
        (maxDepth - once.opened.length)).1 = none)
    obtain ⟨hread, -, -, htokens, hbare⟩ := hok tree htree
    exact ⟨tree, hread, htokens, hbare 0⟩
  · rw [← hplus]
    exact (hstuck hfull 1).2

end Parser

end FunImp
