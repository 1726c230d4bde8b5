import FunImp.CommandLine.Run
import FunImp.Proofs.CommandLine.Lines

/-! # Programs entered line by line

The lines that are not blank fall into paragraphs, which blank lines keep apart. An interactive run
compiles the paragraphs in order, also one that the end of the input breaks off, and then it
ends. -/

namespace FunImp.CommandLine

/-- The longest runs of lines that are not blank, in order. -/
inductive Paragraphs : List String → List (List String) → Prop where
  | none {lines} (hblank : ∀ line ∈ lines, isBlankLine line = true) : Paragraphs lines []
  | cons {gap paragraph rest paragraphs} (hgap : ∀ line ∈ gap, isBlankLine line = true)
      (hne : paragraph ≠ []) (hfull : ∀ line ∈ paragraph, isBlankLine line = false)
      (hend : ∀ line ∈ rest.head?, isBlankLine line = true) (hrest : Paragraphs rest paragraphs) :
      Paragraphs (gap ++ paragraph ++ rest) (paragraph :: paragraphs)

def ended (begun : List String) : List (List String) :=
  if begun = [] then [] else [begun]

/-- The paragraphs of the lines behind those of the paragraph that has begun. -/
def paragraphsFrom (begun : List String) : List String → List (List String)
  | [] => ended begun
  | line :: lines =>
    if isBlankLine line then ended begun ++ paragraphsFrom [] lines
    else paragraphsFrom (begun ++ [line]) lines

variable {lines gap paragraph begun : List String} {paragraphs : List (List String)}

theorem Paragraphs.blank {line : String} (hline : isBlankLine line = true)
    (h : Paragraphs lines paragraphs) : Paragraphs (line :: lines) paragraphs := by
  cases h with
  | none hblank => exact .none (List.forall_mem_cons.2 ⟨hline, hblank⟩)
  | @cons gap _ _ _ hgap hne hfull hend hrest =>
    have hlonger : ∀ other ∈ line :: gap, isBlankLine other = true :=
      List.forall_mem_cons.2 ⟨hline, hgap⟩
    exact .cons hlonger hne hfull hend hrest

/-- The first paragraph needs nothing in front. -/
theorem Paragraphs.first (hne : paragraph ≠ [])
    (hfull : ∀ line ∈ paragraph, isBlankLine line = false)
    (hend : ∀ line ∈ lines.head?, isBlankLine line = true) (hrest : Paragraphs lines paragraphs) :
    Paragraphs (paragraph ++ lines) (paragraph :: paragraphs) :=
  have hgap : ∀ line ∈ ([] : List String), isBlankLine line = true := List.forall_mem_nil _
  .cons hgap hne hfull hend hrest

theorem paragraphs_paragraphsFrom (hbegun : ∀ line ∈ begun, isBlankLine line = false) :
    Paragraphs (begun ++ lines) (paragraphsFrom begun lines) := by
  induction lines generalizing begun with
  | nil =>
    rw [paragraphsFrom, ended]
    split
    · rename_i hnil
      exact .none (by simp [hnil])
    · rename_i hne
      exact .first hne hbegun nofun (.none (List.forall_mem_nil _))
  | cons line lines ih =>
    rw [paragraphsFrom]
    split
    · rename_i hline
      have hrest := (ih (List.forall_mem_nil _)).blank hline
      rw [ended]
      split
      · rename_i hnil
        rw [hnil]
        exact hrest
      · rename_i hne
        exact .first hne hbegun (by simpa using hline) hrest
    · rename_i hline
      rw [List.append_cons]
      apply ih
      rw [List.forall_mem_append]
      exact ⟨hbegun, by simpa using hline⟩

theorem paragraphsFrom_gap (hgap : ∀ line ∈ gap, isBlankLine line = true) (lines : List String) :
    paragraphsFrom [] (gap ++ lines) = paragraphsFrom [] lines := by
  induction gap with
  | nil => rfl
  | cons line gap ih =>
    obtain ⟨hline, hgap⟩ := List.forall_mem_cons.1 hgap
    rw [List.cons_append, paragraphsFrom, if_pos hline, ih hgap]
    rfl

theorem paragraphsFrom_append (hfull : ∀ line ∈ paragraph, isBlankLine line = false)
    (begun lines : List String) :
    paragraphsFrom begun (paragraph ++ lines) = paragraphsFrom (begun ++ paragraph) lines := by
  induction paragraph generalizing begun with
  | nil => rw [List.append_nil, List.nil_append]
  | cons line paragraph ih =>
    obtain ⟨hline, hfull⟩ := List.forall_mem_cons.1 hfull
    rw [List.cons_append, paragraphsFrom, hline, if_neg Bool.false_ne_true, ih hfull,
      List.append_assoc]
    rfl

theorem paragraphsFrom_end (hend : ∀ line ∈ lines.head?, isBlankLine line = true) :
    paragraphsFrom begun lines = ended begun ++ paragraphsFrom [] lines := by
  cases lines with
  | nil => exact (List.append_nil _).symm
  | cons line lines =>
    have hline : isBlankLine line = true := hend line rfl
    rw [paragraphsFrom, if_pos hline, paragraphsFrom, if_pos hline]
    rfl

theorem paragraphs_iff : Paragraphs lines paragraphs ↔ paragraphs = paragraphsFrom [] lines := by
  constructor
  · intro h
    induction h with
    | @none lines hblank =>
      have hgap := paragraphsFrom_gap hblank []
      rw [List.append_nil] at hgap
      exact hgap.symm
    | @cons gap paragraph rest paragraphs hgap hne hfull hend _ ih =>
      rw [List.append_assoc, paragraphsFrom_gap hgap, paragraphsFrom_append hfull, List.nil_append,
        paragraphsFrom_end hend, ended, if_neg hne, ← ih]
      rfl
  · rintro rfl
    exact @paragraphs_paragraphsFrom lines [] (List.forall_mem_nil _)

/-- Every line that is not blank is in a paragraph once, and the order is kept. -/
theorem Paragraphs.flatten_eq (h : Paragraphs lines paragraphs) :
    paragraphs.flatten = lines.filter (!isBlankLine ·) := by
  induction h with
  | none hblank => exact (List.filter_eq_nil_iff.2 (by simpa using hblank)).symm
  | @cons gap paragraph rest paragraphs hgap _ hfull _ _ ih =>
    have hnone : gap.filter (!isBlankLine ·) = [] :=
      List.filter_eq_nil_iff.2 (by simpa using hgap)
    have hall : paragraph.filter (!isBlankLine ·) = paragraph :=
      List.filter_eq_self.2 (by simpa using hfull)
    rw [List.flatten_cons, ih, List.filter_append, List.filter_append, hnone, hall,
      List.nil_append]

/-- The lines as a text, with a line feed behind each. -/
def written (lines : List String) : String := String.join (lines.map (· ++ "\n"))

theorem written_concat (lines : List String) (line : String) :
    written (lines ++ [line]) = written lines ++ line ++ "\n" := by
  simp [written, String.join_append, String.append_assoc]

theorem written_eq_empty_iff : written lines = "" ↔ lines = [] := by
  constructor
  · intro h
    induction lines using List.reverseRecOn with
    | nil => rfl
    | append_singleton lines line _ =>
      have hlist := congrArg String.toList h
      simp [written_concat] at hlist
  · rintro rfl
    rfl

def Turn.text? : Turn → Option String
  | .prompt => none
  | .compile text => some text

def turnsOf (stdin : ByteArray) : List Turn :=
  let (lines, complete) := decodeLines (splitLines stdin)
  if complete then Turn.ofLines lines else Turn.ofBrokenLines lines

theorem filterMap_entered (begun : List String) :
    (Turn.entered (written begun)).filterMap Turn.text? = (ended begun).map written := by
  rw [Turn.entered, ended]
  by_cases hbegun : begun = []
  · rw [if_pos hbegun, if_pos (written_eq_empty_iff.2 hbegun)]
    rfl
  · rw [if_neg hbegun, if_neg (mt written_eq_empty_iff.1 hbegun)]
    rfl

theorem filterMap_follow (begun lines : List String) :
    let (turns, text) := Turn.follow (written begun) lines
    (turns ++ Turn.entered text).filterMap Turn.text? =
      (paragraphsFrom begun lines).map written := by
  induction lines generalizing begun with
  | nil => exact filterMap_entered begun
  | cons line lines ih =>
    rw [Turn.follow, Turn.ofLine, paragraphsFrom]
    by_cases hline : isBlankLine line = true
    · have hrest := ih []
      simp only [hline, if_true, List.append_assoc, List.filterMap_append, filterMap_entered,
        List.map_append] at hrest ⊢
      rw [← hrest]
      rfl
    · have hrest := ih (begun ++ [line])
      rw [written_concat] at hrest
      simpa only [hline, Bool.false_eq_true, if_false, List.nil_append] using hrest

theorem filterMap_turnsOf (text : String) :
    (turnsOf text.toUTF8).filterMap Turn.text? =
      (paragraphsFrom [] ((linesOf text.toList).map .ofList)).map written := by
  rw [turnsOf, decodeLines_splitLines]
  exact filterMap_follow [] _

/-- With a text as its input an interactive run compiles the paragraphs of its lines, one after the
other, and ends without an error of its own, whatever the compiler finds. -/
theorem interact_paragraphs [Console] (terminal : Terminal) (arguments : Arguments)
    (stdin : ByteArray) (text : String) (h : decode? stdin = some text) :
    interact terminal arguments stdin =
      ⟨(turnsOf stdin).flatMap (takeTurn terminal arguments), 0, []⟩ ∧
    ∃ paragraphs, Paragraphs ((linesOf text.toList).map .ofList) paragraphs ∧
      (∀ others, Paragraphs ((linesOf text.toList).map .ofList) others → others = paragraphs) ∧
      (turnsOf stdin).filterMap Turn.text? = paragraphs.map written ∧
      paragraphs.flatten = ((linesOf text.toList).map .ofList).filter (!isBlankLine ·) := by
  rw [decode?_eq_some_iff] at h
  subst h
  constructor
  · rw [interact, turnsOf, decodeLines_splitLines]
    rfl
  · have hparagraphs := paragraphs_iff.2 (Eq.refl
      (paragraphsFrom [] ((linesOf text.toList).map .ofList)))
    exact ⟨_, hparagraphs, fun _ => paragraphs_iff.1, filterMap_turnsOf text,
      hparagraphs.flatten_eq⟩

/-- Lines of white space keep programs apart, a carriage return ends with its line, and the last
program needs no end. -/
theorem interact_paragraphs_sample :
    decode? "1\r\n2\n \n\n3".toUTF8 = some "1\r\n2\n \n\n3" ∧
    (interact ⟨false, fun _ _ => ""⟩ .none "1\r\n2\n \n\n3".toUTF8).fatal = [] ∧
    (turnsOf "1\r\n2\n \n\n3".toUTF8).filterMap Turn.text? = ["1\n2\n", "3\n"] := by
  have htext := decode?_eq_some_iff.2 (Eq.refl "1\r\n2\n \n\n3".toUTF8)
  obtain ⟨hrun, paragraphs, hparagraphs, -, hturns, -⟩ :=
    interact_paragraphs ⟨false, fun _ _ => ""⟩ .none _ _ htext
  refine ⟨htext, congrArg Outcome.fatal hrun, hturns.trans ?_⟩
  rw [paragraphs_iff.1 hparagraphs]
  decide

/-- The lines of a text without a carriage return at their end, however they end. -/
def bareLinesOf (text : List Char) : List (List Char) :=
  let rows := text.splitOn '\n'
  (rows.dropLast ++ rows.getLast?.toList.filter (· ≠ [])).map withoutReturn

/-- A carriage return at the end of the input stays in the program. -/
theorem return_kept_at_end :
    ¬ ∀ stdin text, decode? stdin = some text →
      ∃ paragraphs, Paragraphs ((bareLinesOf text.toList).map .ofList) paragraphs ∧
        (turnsOf stdin).filterMap Turn.text? = paragraphs.map written := by
  intro h
  obtain ⟨paragraphs, hparagraphs, hturns⟩ := h _ "1\r" (decode?_eq_some_iff.2 rfl)
  rw [filterMap_turnsOf, paragraphs_iff.1 hparagraphs] at hturns
  revert hturns
  decide

end FunImp.CommandLine
