import FunImp.Proofs.Lowering.Lossless
import FunImp.Proofs.Typing.Validate

/-! # Several sources

Sources that are compiled together are compiled as if each was alone: their programs, their errors
and what happens on the way are those of the sources one after the other. -/

namespace FunImp

/-- What is told of the result of a phase, if all phases up to it succeed. -/
def Phase.told? (options : Options) (source : Source) : Phase → Option Event
  | lexing => do
    let tokens ← (lex source).toOption
    return .tokens tokens
  | parsing => do
    let tokens ← (lex source).toOption
    let tree ← (parse tokens source).toOption
    return .tree tree
  | lowering => do
    let tokens ← (lex source).toOption
    let tree ← (parse tokens source).toOption
    let program ← (lower tree).toOption
    return .program program
  | validation => do
    let tokens ← (lex source).toOption
    let tree ← (parse tokens source).toOption
    let program ← (lower tree).toOption
    let typed ← (validate options program).toOption
    return .typed typed

/-- The ends of phases in a row, each in front of its result, up to the first that has none. -/
def toldInTurn (options : Options) (source : Source) : List Phase → List Event
  | [] => []
  | phase :: phases =>
    .finished source phase ::
      match phase.told? options source with
      | some event => event :: toldInTurn options source phases
      | none => []

/-- All that happens while a source is compiled. -/
def toldOf (options : Options) (source : Source) : List Event :=
  .started source :: toldInTurn options source [.lexing, .parsing, .lowering, .validation]

section One

variable {options : Options} {source : Source} {p : Program} {e : CompileError}

theorem compileWithEvents_fst (options : Options) (source : Source) :
    (compileWithEvents options source).1 = toldOf options source := by
  rw [compileWithEvents, toldOf]
  refine congrArg (Event.started source :: ·) ?_
  simp only [allPhases, toldInTurn, Phase.told?]
  cases lex source with
  | error errors => rfl
  | ok tokens =>
    simp only [Observed.phase, Except.mapError, Except.toOption, Option.bind_some, Option.pure_def,
      Option.bind_eq_bind]
    cases parse tokens source with
    | error error => rfl
    | ok tree =>
      simp only [Option.bind_some]
      cases lower tree with
      | error error => rfl
      | ok program =>
        simp only [Option.bind_some]
        cases validate options program <;> rfl

theorem validate_ne_error_nil : validate options p ≠ .error [] := by
  unfold validate
  obtain ⟨errors, table⟩ := p.declareIn .new
  simp only
  split
  · split
    · exact nofun
    · rename_i hne
      exact fun h => hne (by rw [Except.error.inj h]; rfl)
  · rename_i hne
    exact fun h => hne (by rw [Except.error.inj h]; rfl)

theorem FailsWith.diagnostics_ne_nil {cause : Cause} (h : FailsWith options source cause) :
    cause.diagnostics source ≠ [] := by
  cases h with
  | lexing => exact List.cons_ne_nil _ _
  | parsing => exact List.cons_ne_nil _ _
  | lowering => exact List.cons_ne_nil _ _
  | validation _ _ _ hvalidate =>
    intro hnil
    rw [List.map_eq_nil_iff.1 hnil] at hvalidate
    exact validate_ne_error_nil hvalidate

theorem Cause.source_of_mem_diagnostics {cause : Cause} {d : Diagnostic}
    (h : d ∈ cause.diagnostics source) : d.source = source.id := by
  have hlocate {message : String} {span : Span} (hd : d = .locate source message span) :
      d.source = source.id := by
    rw [hd]
    rfl
  cases cause with
  | lexing errors =>
    obtain ⟨_, -, rfl⟩ := List.mem_map.1 h
    exact hlocate rfl
  | parsing error => exact hlocate (List.mem_singleton.1 h)
  | lowering error => exact hlocate (List.mem_singleton.1 h)
  | validation errors =>
    obtain ⟨_, -, rfl⟩ := List.mem_map.1 h
    exact hlocate rfl

/-- The error of a source shows something, and nothing outside the source. -/
theorem diagnostics_of_compile (h : compile options source = .error e) :
    e.diagnostics ≠ [] ∧ ∀ d ∈ e.diagnostics, d.source = source.id := by
  obtain ⟨cause, rfl, hfails⟩ := failsWith_of_compile h
  rw [CompileError.diagnostics]
  exact ⟨hfails.diagnostics_ne_nil, fun d => Cause.source_of_mem_diagnostics⟩

end One

/-- The errors of those sources that fail when they are compiled alone. -/
def failures (options : Options) (sources : List Source) : List CompileError :=
  sources.filterMap fun source =>
    match compile options source with
    | .ok _ => none
    | .error e => some e

theorem failures_cons (options : Options) (source : Source) (sources : List Source) :
    failures options (source :: sources) =
      match compile options source with
      | .ok _ => failures options sources
      | .error e => e :: failures options sources := by
  rw [failures, List.filterMap_cons]
  cases compile options source <;> rfl

theorem compileEach_eq (options : Options) (sources : List Source) :
    compileEach options sources =
      (sources.flatMap (toldOf options), sources.filterMap fun s => (compile options s).toOption,
        failures options sources) := by
  induction sources with
  | nil => rfl
  | cons source sources ih =>
    rw [compileEach, ih, failures_cons, List.flatMap_cons, ← compileWithEvents_fst,
      List.filterMap_cons, compile]
    obtain ⟨events, outcome⟩ := compileWithEvents options source
    cases outcome <;> rfl

theorem failures_eq_nil_iff {options : Options} {sources : List Source} :
    failures options sources = [] ↔
      ∀ source ∈ sources, ∃ typed, compile options source = .ok typed := by
  induction sources with
  | nil => simp [failures]
  | cons source sources ih =>
    rw [failures_cons, List.forall_mem_cons]
    cases compile options source with
    | ok typed => simpa using ih
    | error e => simp

theorem forall₂_compile_iff {options : Options} {sources : List Source}
    {programs : List TypedProgram} :
    List.Forall₂ (fun source typed => compile options source = .ok typed) sources programs ↔
      failures options sources = [] ∧
        sources.filterMap (fun s => (compile options s).toOption) = programs := by
  induction sources generalizing programs with
  | nil => simp [failures, eq_comm]
  | cons source sources ih =>
    rw [failures_cons, List.filterMap_cons, List.forall₂_cons_left_iff]
    cases compile options source with
    | ok typed =>
      have htyped : (Except.ok (ε := CompileError) typed).toOption = some typed := rfl
      simp [ih, and_assoc, @eq_comm _ _ programs, htyped]
    | error e => simp

theorem CompileError.allDiagnostics_eq (errors : List CompileError) :
    allDiagnostics errors = errors.flatMap diagnostics := by
  induction errors with
  | nil => rfl
  | cons e errors ih => rw [allDiagnostics, ih, List.flatMap_cons]

/-- Compiling many sources is compiling each alone, in what comes out, in what goes wrong and in
what is told on the way. -/
theorem compileAll_eq_compile_each (options : Options) (sources : List Source) :
    (∀ programs, (compileAll options sources).2 = .ok programs ↔
      List.Forall₂ (fun source typed => compile options source = .ok typed) sources programs) ∧
    ((∃ programs, (compileAll options sources).2 = .ok programs) ↔
      ∀ source ∈ sources, ∃ typed, compile options source = .ok typed) ∧
    (∀ e, failures options sources = [e] → (compileAll options sources).2 = .error e) ∧
    (2 ≤ (failures options sources).length →
      (compileAll options sources).2 = .error (.multi (failures options sources) none)) ∧
    (∀ e, (compileAll options sources).2 = .error e →
      e.diagnostics = (failures options sources).flatMap CompileError.diagnostics) ∧
    (∀ source ∈ sources, ∀ e, compile options source = .error e →
      e.diagnostics ≠ [] ∧ ∀ d ∈ e.diagnostics, d.source = source.id) ∧
    (compileAll options sources).1 =
      sources.flatMap (fun source => (compileWithEvents options source).1) ∧
    ∀ source, (compileWithEvents options source).1 = toldOf options source := by
  simp only [forall₂_compile_iff, ← failures_eq_nil_iff, compileWithEvents_fst]
  rw [compileAll, compileEach_eq]
  have hdiagnostics : ∀ source ∈ sources, ∀ e, compile options source = .error e →
      e.diagnostics ≠ [] ∧ ∀ d ∈ e.diagnostics, d.source = source.id :=
    fun _ _ _ => diagnostics_of_compile
  rcases hfailures : failures options sources with _ | ⟨e, _ | ⟨e', errors⟩⟩
  · simpa using hdiagnostics
  · simpa using hdiagnostics
  · simpa [CompileError.diagnostics, CompileError.allDiagnostics_eq] using hdiagnostics

private def straySource (id : String) : Source := ⟨id, "#"⟩

private def strayError (id : String) : CompileError :=
  .single (.lexing ⟨⟨'#', .covering .origin ['#']⟩, []⟩) (some (straySource id))

theorem compileAll_eq_compile_each_sample :
    (∃ typed, (compileAll default [⟨"empty", ""⟩]).2 = .ok [typed]) ∧
    (compileAll default [⟨"empty", ""⟩, straySource "a"]).2 = .error (strayError "a") ∧
    (compileAll default [straySource "a", ⟨"empty", ""⟩, straySource "b"]).2 =
      .error (.multi [strayError "a", strayError "b"] none) ∧
    (CompileError.multi [strayError "a", strayError "b"] none).diagnostics =
      (strayError "a").diagnostics ++ (strayError "b").diagnostics ∧
    (strayError "a").diagnostics ≠ [] := by
  obtain ⟨typed, hempty⟩ : ∃ typed, compile default ⟨"empty", ""⟩ = .ok typed :=
    thrown?_eq_none_iff.1 (by decide +kernel)
  have hfirst : compile default (straySource "a") = .error (strayError "a") :=
    compile_eq_error_of_thrown (by decide +kernel)
  have hsecond : compile default (straySource "b") = .error (strayError "b") :=
    compile_eq_error_of_thrown (by decide +kernel)
  have hone : failures default [⟨"empty", ""⟩, straySource "a"] = [strayError "a"] := by
    simp [failures, hempty, hfirst]
  have htwo : failures default [straySource "a", ⟨"empty", ""⟩, straySource "b"] =
      [strayError "a", strayError "b"] := by
    simp [failures, hempty, hfirst, hsecond]
  obtain ⟨hok, -⟩ := compileAll_eq_compile_each default [⟨"empty", ""⟩]
  obtain ⟨-, -, hsingle, -, -, hshown, -⟩ :=
    compileAll_eq_compile_each default [⟨"empty", ""⟩, straySource "a"]
  obtain ⟨-, -, -, hmulti, hdiagnostics, -⟩ :=
    compileAll_eq_compile_each default [straySource "a", ⟨"empty", ""⟩, straySource "b"]
  rw [htwo] at hmulti hdiagnostics
  have hfailed := hmulti (Nat.le_refl 2)
  refine ⟨⟨typed, (hok _).2 (.cons hempty .nil)⟩, hsingle _ hone, hfailed, ?_,
    (hshown _ (by simp) _ hfirst).1⟩
  rw [hdiagnostics _ hfailed]
  simp

end FunImp
