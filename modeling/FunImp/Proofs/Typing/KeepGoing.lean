import FunImp.Proofs.Typing.Blames
import FunImp.Proofs.Typing.Discovery
import FunImp.Proofs.Typing.Frames

/-! # Keeping going

Bodies are checked against what could be declared, whether or not all functions could be. A function
with an unknown type is then passed over, and any other has one error at most. So who keeps going
sees the errors of bodies behind those of declarations, and who does not sees less but nothing
else. -/

namespace FunImp

/-- The error in the body of the function, if the table says what its signature is. -/
def FunctionDecl.bodyError? (f : FunctionDecl) (table : SymbolTable) : Option SemanticError :=
  match f.signatureIn table with
  | .error _ => none
  | .ok signature =>
    match ((f.checkIn table signature).run.run ∅).1 with
    | .ok _ => none
    | .error e => some e

namespace FunctionDecl

variable {f : FunctionDecl} {table : SymbolTable}

theorem toList_bodyError? (f : FunctionDecl) (table : SymbolTable) :
    (f.bodyError? table).toList = (f.aloneIn table).1 := by
  cases h : f.signatureIn table with
  | error e => simp [bodyError?, h, aloneIn_of_error h]
  | ok signature =>
    rw [aloneIn_of_ok h]
    cases hrun : ((f.checkIn table signature).run.run ∅).1 <;> simp [bodyError?, h, hrun]

theorem blames_of_bodyError? {e : SemanticError} (h : f.bodyError? table = some e) :
    f.Blames e := by
  unfold bodyError? at h
  split at h
  · cases h
  · rename_i signature hsignature
    split at h
    · cases h
    · rename_i hrun
      cases h
      exact throws_checkIn hsignature ∅ _ _ (Prod.ext hrun rfl)

theorem bodyError?_of_unknown (h : table.KnowsBuiltins) {e : SemanticError}
    (hf : f.unknownType? = some e) : f.bodyError? table = none := by
  rw [bodyError?, signatureIn_eq h, resolution, hf]

end FunctionDecl

/-- The errors in the bodies of a program, checked against what could be declared. -/
def Program.bodyErrors (p : Program) : List SemanticError :=
  p.functions.filterMap (·.bodyError? (p.declareIn .new).2)

namespace Program

theorem fst_declareIn_new (p : Program) :
    (p.declareIn .new).1 = declarationErrors p.functions :=
  (discovered_declareFunctions p.functions).1

theorem fst_checkIn (p : Program) (types : TypeTable) :
    (p.checkIn (p.declareIn .new).2 types).1 = p.bodyErrors := by
  rw [checkIn, checkFunctions_eq_alone, bodyErrors, List.filterMap_eq_flatMap_toList]
  simp only [FunctionDecl.toList_bodyError?]

end Program

/-- The errors are those of declarations, and behind them those of bodies if these are looked
for. -/
theorem validate_eq_error_iff {options : Options} {p : Program} {errors : List SemanticError} :
    validate options p = .error errors ↔
      errors ≠ [] ∧ errors = declarationErrors p.functions ++
        if declarationErrors p.functions = [] ∨ options.keepGoing then p.bodyErrors else [] := by
  rw [← p.fst_declareIn_new, ← p.fst_checkIn ∅]
  unfold validate
  obtain ⟨declared, table⟩ := p.declareIn .new
  dsimp only
  obtain ⟨bodies, types⟩ := p.checkIn table ∅
  have herror {found : List SemanticError} (hne : found ≠ []) :
      (Except.error found : Except (List SemanticError) TypedProgram) = .error errors ↔
        errors ≠ [] ∧ errors = found := by
    constructor
    · rintro ⟨⟩
      exact ⟨hne, rfl⟩
    · rintro ⟨-, rfl⟩
      rfl
  by_cases hbodies : declared = [] ∨ options.keepGoing = true
  · have hrun : (declared.isEmpty || options.keepGoing) = true := by simpa using hbodies
    simp only [hrun, hbodies, if_true]
    cases declared ++ bodies with
    | nil => simp
    | cons e errors => exact herror (List.cons_ne_nil e errors)
  · have hstop : ¬(declared.isEmpty || options.keepGoing) = true := by simpa using hbodies
    simp only [hstop, hbodies, if_false, List.append_nil]
    exact herror fun hnil => hbodies (.inl hnil)

/-- Whether bodies are checked in any case makes no difference to what is accepted and with which
types, and only adds errors behind those that are reported anyway. All errors together are those
of declarations and behind them those of bodies, in the order of the functions: one at most in
each declaration and one in each body, none in the body of a function with an unknown type. -/
theorem validate_keepGoing (p : Program) :
    (∀ typed, validate ⟨true⟩ p = .ok typed ↔ validate ⟨false⟩ p = .ok typed) ∧
    (∀ errors more, validate ⟨false⟩ p = .error errors → validate ⟨true⟩ p = .error more →
      errors <+: more) ∧
    (∀ more, validate ⟨true⟩ p = .error more ↔ more ≠ [] ∧ more =
      p.functions.zipIdx.filterMap (fun (f, i) => f.declarationError? (p.functions.take i)) ++
        p.functions.filterMap (·.bodyError? (p.declareIn .new).2)) ∧
    (∀ f ∈ p.functions, ∀ e, f.bodyError? (p.declareIn .new).2 = some e →
      f.Blames e ∧ f.unknownType? = none) ∧
    ∀ options errors, validate options p = .error errors → errors ≠ [] := by
  refine ⟨fun typed => by rw [validate_eq_ok_iff, validate_eq_ok_iff], fun errors more h h' => ?_,
    fun more => ?_, fun f _ e he => ⟨f.blames_of_bodyError? he, ?_⟩,
    fun options errors h => (validate_eq_error_iff.1 h).1⟩
  · obtain ⟨-, rfl⟩ := validate_eq_error_iff.1 h
    obtain ⟨-, rfl⟩ := validate_eq_error_iff.1 h'
    simp only [or_true, if_true]
    refine (List.prefix_append_right_inj _).2 ?_
    split
    · exact List.prefix_rfl
    · exact List.nil_prefix
  · rw [validate_eq_error_iff]
    simp only [or_true, if_true]
    rfl
  · by_contra hknown
    obtain ⟨unknown, hunknown⟩ := Option.ne_none_iff_exists'.1 hknown
    have htable : (p.declareIn .new).2.KnowsBuiltins :=
      (discovered_declareFunctions p.functions).2.knowsBuiltins
    rw [FunctionDecl.bodyError?_of_unknown htable hunknown] at he
    cases he

/-- The type that is declared for the result of `same` is unknown, so that `main` cannot call it. -/
private def brokenSample : Program :=
  let result : TypeSpec :=
    ⟨Program.sampleSame.result.colon, ⟨[], ⟨.identifier, some "bool", default, "sample"⟩⟩⟩
  { Program.sample with functions := [{ Program.sampleSame with result }, Program.sampleMain] }

theorem validate_keepGoing_sample :
    let unknown : SemanticError := ⟨.unknownType "bool", default⟩
    let missing : SemanticError := ⟨.notAFunction "same", default⟩
    validate ⟨false⟩ brokenSample = .error [unknown] ∧
      validate ⟨true⟩ brokenSample = .error [unknown, missing] ∧
      [unknown] <+: [unknown, missing] ∧
      Program.sampleMain.bodyError? (brokenSample.declareIn .new).2 = some missing ∧
      Program.sampleMain.Blames missing := by
  intro unknown missing
  have hstop : validate ⟨false⟩ brokenSample = .error [unknown] := rfl
  have hgo : validate ⟨true⟩ brokenSample = .error [unknown, missing] := rfl
  have hbody : Program.sampleMain.bodyError? (brokenSample.declareIn .new).2 = some missing :=
    rfl
  have hmem : Program.sampleMain ∈ brokenSample.functions := by simp [brokenSample]
  obtain ⟨-, hprefix, -, hblames, -⟩ := validate_keepGoing brokenSample
  exact ⟨hstop, hgo, hprefix _ _ hstop hgo, hbody, (hblames _ hmem _ hbody).1⟩

end FunImp
