import FunImp.CommandLine.Console

/-! # Painted text

Of a painter it is assumed that it shows texts as they are where colors are off, and puts a text
between the opening sequence of its style and a reset where colors are on. Then colors change
nothing about a diagnostic but these sequences, and who skips escape sequences gets its plain
rendering back. -/

namespace FunImp

/-- What is assumed of a painter. -/
structure Painter.Wraps (painter : Painter) (opening reset : Style → EscapeSequence) : Prop where
  off : ∀ style text, painter.paint false style text = text
  on : ∀ style text,
    painter.paint true style text = (opening style).text ++ text ++ (reset style).text

variable {opening reset : Style → EscapeSequence}

/-- What is shown is the plain text with every one of the marked stretches, in order, put between
the opening sequence of its style and the reset of that style, and with nothing else added. -/
inductive Painted (opening reset : Style → EscapeSequence) :
    List (Style × String) → List Char → List Char → Prop where
  | nil : Painted opening reset [] [] []
  | char {marks : List (Style × String)} {plain shown : List Char} (c : Char)
      (rest : Painted opening reset marks plain shown) :
      Painted opening reset marks (c :: plain) (c :: shown)
  | mark {marks : List (Style × String)} {plain shown : List Char} (style : Style) (text : String)
      (rest : Painted opening reset marks plain shown) :
      Painted opening reset ((style, text) :: marks) (text.toList ++ plain)
        ((opening style).text.toList ++ text.toList ++ (reset style).text.toList ++ shown)

/-- The text without its escape sequences, each of which ends with the first `m`; `inside` tells
that one has begun. -/
def withoutEscapes (inside : Bool) : List Char → List Char
  | [] => []
  | c :: cs =>
    if inside then withoutEscapes (c ≠ 'm') cs
    else if c = '\x1b' then withoutEscapes true cs
    else c :: withoutEscapes false cs

section Escapes

variable {cs : List Char}

theorem withoutEscapes_append (h : '\x1b' ∉ cs) (rest : List Char) :
    withoutEscapes false (cs ++ rest) = cs ++ withoutEscapes false rest := by
  induction cs with
  | nil => rfl
  | cons c cs ih =>
    obtain ⟨hc, hcs⟩ := not_or.1 (mt List.mem_cons.2 h)
    rw [List.cons_append, withoutEscapes, if_neg Bool.false_ne_true, if_neg (Ne.symm hc), ih hcs,
      List.cons_append]

theorem withoutEscapes_inside (h : 'm' ∉ cs) (rest : List Char) :
    withoutEscapes true (cs ++ 'm' :: rest) = withoutEscapes false rest := by
  induction cs with
  | nil => rfl
  | cons c cs ih =>
    obtain ⟨hc, hcs⟩ := not_or.1 (mt List.mem_cons.2 h)
    rw [List.cons_append, withoutEscapes, if_pos rfl, decide_eq_true (Ne.symm hc), ih hcs]

theorem withoutEscapes_escape (e : EscapeSequence) (rest : List Char) :
    withoutEscapes false (e.text.toList ++ rest) = withoutEscapes false rest := by
  have hbracket : 'm' ∉ '[' :: e.parameters :=
    not_or.2 ⟨by decide, e.closed⟩ ∘ List.mem_cons.1
  have htext : e.text.toList ++ rest = '\x1b' :: (('[' :: e.parameters) ++ 'm' :: rest) := by
    simp [EscapeSequence.text]
  rw [htext, withoutEscapes, if_neg Bool.false_ne_true, if_pos rfl,
    withoutEscapes_inside hbracket]

end Escapes

namespace Painted

variable {marks marks' : List (Style × String)} {plain plain' shown shown' : List Char}

theorem append (h : Painted opening reset marks plain shown)
    (h' : Painted opening reset marks' plain' shown') :
    Painted opening reset (marks ++ marks') (plain ++ plain') (shown ++ shown') := by
  induction h with
  | nil => exact h'
  | char c _ ih => exact .char c ih
  | mark style text _ ih =>
    have hmark := Painted.mark style text ih
    rw [List.append_assoc, List.append_assoc _ _ shown']
    exact hmark

theorem of_plain (plain : List Char) : Painted opening reset [] plain plain := by
  induction plain with
  | nil => exact .nil
  | cons c cs ih => exact .char c ih

/-- Skipping escape sequences takes back the paint. -/
theorem withoutEscapes_eq (h : Painted opening reset marks plain shown)
    (hplain : '\x1b' ∉ plain) : withoutEscapes false shown = plain := by
  induction h with
  | nil => rfl
  | char c _ ih =>
    obtain ⟨hc, hplain⟩ := not_or.1 (mt List.mem_cons.2 hplain)
    rw [withoutEscapes, if_neg Bool.false_ne_true, if_neg (Ne.symm hc), ih hplain]
  | mark style text _ ih =>
    rw [List.mem_append, not_or] at hplain
    rw [List.append_assoc, List.append_assoc, withoutEscapes_escape,
      withoutEscapes_append hplain.1, withoutEscapes_escape, ih hplain.2]

end Painted

section Fragments

variable [painter : Painter]

namespace Fragment

/-- The painted stretches of a drawing. -/
def marks (fs : List Fragment) : List (Style × String) :=
  fs.filterMap fun f => f.style.map (·, f.text)

theorem renderAll_cons (colors : Bool) (f : Fragment) (fs : List Fragment) :
    (renderAll colors (f :: fs)).toList =
      (f.render colors).toList ++ (renderAll colors fs).toList := by
  simp [renderAll, String.join_cons]

/-- Without colors only the texts are left. -/
theorem render_false (h : painter.Wraps opening reset) (f : Fragment) :
    f.render false = f.text := by
  obtain ⟨_ | style, text⟩ := f
  · rfl
  · exact h.off style text

theorem renderAll_false (h : painter.Wraps opening reset) (fs : List Fragment) :
    renderAll false fs = String.join (fs.map Fragment.text) := by
  rw [renderAll, funext (render_false h)]

theorem painted_render (h : painter.Wraps opening reset) (f : Fragment) :
    Painted opening reset (marks [f]) (f.render false).toList (f.render true).toList := by
  rw [render_false h]
  obtain ⟨_ | style, text⟩ := f
  · exact .of_plain text.toList
  · have hmark : Painted opening reset [(style, text)] _ _ := .mark style text .nil
    have hshown : render true ⟨some style, text⟩ =
        (opening style).text ++ text ++ (reset style).text := h.on style text
    rw [List.append_nil, List.append_nil] at hmark
    rw [hshown, String.toList_append, String.toList_append]
    exact hmark

theorem painted_renderAll (h : painter.Wraps opening reset) (fs : List Fragment) :
    Painted opening reset (marks fs) (renderAll false fs).toList (renderAll true fs).toList := by
  induction fs with
  | nil => exact .nil
  | cons f fs ih =>
    rw [renderAll_cons, renderAll_cons, ← List.singleton_append, marks, List.filterMap_append]
    exact (painted_render h f).append ih

end Fragment

namespace Diagnostic

open Fragment

/-- The stretches of a diagnostic that are painted, each in its style. -/
def marks (d : Diagnostic) : List (Style × String) :=
  let row := toString d.span.start.row
  let gutter := repeated row.length ' ' ++ " |"
  [(.redBold, "error"), (.bold, ": " ++ d.message), (.blueBold, "->"), (.blueBold, gutter),
    (.blueBold, row ++ " |"), (.blueBold, gutter), (.redBold, d.underline)]

/-- Without colors the pieces of the drawing are the lines of the plain rendering. -/
theorem colored_false (h : painter.Wraps opening reset) (d : Diagnostic) :
    d.colored false = d.plain := by
  rw [colored, renderAll_false h]
  apply String.toList_injective
  simp [fragments, styled, unstyled, plain, plainLines]

/-- Without colors a diagnostic is drawn as its plain rendering. With colors it is the same text
with each of its marks between an opening sequence and a reset, and skipping escape sequences
gives the plain rendering back if it has none of its own. -/
theorem colored_paints_plain (h : painter.Wraps opening reset) (d : Diagnostic) :
    d.colored false = d.plain ∧
      Painted opening reset d.marks d.plain.toList (d.colored true).toList ∧
      ('\x1b' ∉ d.plain.toList →
        withoutEscapes false (d.colored true).toList = d.plain.toList) := by
  have hpainted : Painted opening reset d.marks d.plain.toList (d.colored true).toList := by
    rw [← colored_false h d]
    exact painted_renderAll h d.fragments
  exact ⟨colored_false h d, hpainted, hpainted.withoutEscapes_eq⟩

end Diagnostic

end Fragments

namespace Diagnostic

/-- A message of two lines about a stretch of no width behind the end of a line. -/
private def twoLines : Diagnostic :=
  ⟨"no name\nbut a sign", "input", "fun f() ", .point ⟨108, 12, 9⟩⟩

open CommandLine

theorem colored_paints_plain_sample :
    Console.toPainter.Wraps Console.opening Console.reset ∧ '\x1b' ∉ twoLines.plain.toList ∧
      twoLines.plain =
        "error: no name\nbut a sign\n  -> input:12:9\n   |\n12 | fun f()\n   | --------^" ∧
      twoLines.colored false = twoLines.plain ∧
      twoLines.colored true =
        "\x1b[91;1merror\x1b[0m\x1b[1m: no name\nbut a sign\x1b[0m\n" ++
        "  \x1b[94;1m->\x1b[0m input:12:9\n\x1b[94;1m   |\x1b[0m\n" ++
        "\x1b[94;1m12 |\x1b[0m fun f()\n\x1b[94;1m   |\x1b[0m \x1b[91;1m--------^\x1b[0m" ∧
      Painted Console.opening Console.reset twoLines.marks twoLines.plain.toList
        (twoLines.colored true).toList ∧
      withoutEscapes false (twoLines.colored true).toList = twoLines.plain.toList := by
  have hwraps : Console.toPainter.Wraps Console.opening Console.reset :=
    ⟨fun _ _ => rfl, fun _ _ => rfl⟩
  have hplain : twoLines.plain =
      "error: no name\nbut a sign\n  -> input:12:9\n   |\n12 | fun f()\n   | --------^" := by
    decide +kernel
  have hfree : '\x1b' ∉ twoLines.plain.toList := by
    rw [hplain]
    decide
  obtain ⟨hoff, hpainted, hskipped⟩ := colored_paints_plain hwraps twoLines
  exact ⟨hwraps, hfree, hplain, hoff, by decide +kernel, hpainted, hskipped hfree⟩

end Diagnostic

end FunImp
