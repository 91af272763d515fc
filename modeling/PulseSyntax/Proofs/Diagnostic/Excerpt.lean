import PulseSyntax.Diagnostic.Excerpt
import PulseSyntax.Proofs.Source.Lines

namespace PulseSyntax

namespace Text

def onLine (part text : List Char) : List Char :=
  (firstLine text).take (part.takeWhile (· != '\n')).length

theorem firstLine_starts (text : List Char) : firstLine text <+: text.takeWhile (· != '\n') := by
  rcases takeWhile_feed text with ⟨noFeed, same⟩ | ⟨later, cut⟩
  · exact (if_neg noFeed).trans same.symm ▸ List.prefix_refl _
  · have feed : '\n' ∈ text := by
      rw [cut]
      simp
    rw [firstLine, if_pos feed]
    exact withoutReturn_starts _

theorem takeWhile_part (part after : List Char) :
    '\n' ∉ part ∧ part.takeWhile (· != '\n') = part ∨
      '\n' ∈ part ∧ (part ++ after).takeWhile (· != '\n') = part.takeWhile (· != '\n') := by
  rcases takeWhile_feed part with noFeed | ⟨later, own⟩
  · exact .inl noFeed
  · refine .inr ⟨by rw [own]; simp, ?_⟩
    nth_rewrite 1 [own]
    rw [List.append_assoc, takeWhile_append_plain (notMem_takeWhile part)]
    simp

theorem onLine_starts (part after : List Char) : onLine part (part ++ after) <+: part := by
  have short : onLine part (part ++ after) <+: part ++ after :=
    (List.take_prefix _ _).trans ((firstLine_starts _).trans (List.takeWhile_prefix _))
  have within : (onLine part (part ++ after)).length ≤ part.length :=
    (List.length_take_le _ _).trans (List.takeWhile_prefix _).length_le
  exact List.prefix_of_prefix_length_le short (List.prefix_append part after) within

theorem exists_onLine (part after : List Char) : ∃ right,
    firstLine (part ++ after) = onLine part (part ++ after) ++ right ∧
      (right = [] ∨ onLine part (part ++ after) = part) := by
  refine ⟨(firstLine (part ++ after)).drop (part.takeWhile (· != '\n')).length,
    (List.take_append_drop _ _).symm, ?_⟩
  rcases takeWhile_part part after with ⟨-, same⟩ | ⟨-, same⟩
  · rcases Nat.lt_or_ge part.length (firstLine (part ++ after)).length with more | ended
    · refine .inr ((onLine_starts part after).eq_of_length ?_)
      rw [onLine, List.length_take, same]
      omega
    · rw [same]
      exact .inl (List.drop_eq_nil_of_le ended)
  · rw [← same]
    exact .inl (List.drop_eq_nil_of_le (firstLine_starts _).length_le)

theorem length_onLine (part after : List Char) :
    (onLine part (part ++ after)).length =
      min (firstLine part).length (firstLine (part ++ after)).length := by
  rw [onLine, List.length_take]
  rcases takeWhile_part part after with ⟨noFeed, same⟩ | ⟨feed, same⟩
  · have own : firstLine part = part := if_neg noFeed
    rw [same, own]
  · have own : firstLine (part ++ after) = firstLine part := by
      rw [firstLine, firstLine, if_pos feed, if_pos (List.mem_append_left after feed), same]
    rw [own, Nat.min_self]
    exact Nat.min_eq_right (firstLine_starts part).length_le

end Text

namespace Excerpt

def row (width : Nat) (margin text : List Char) : List Char :=
  Text.padLeft width margin ++ " | ".toList ++ text

/-- A line stands in a drawing with its number beside it, and below its first so many characters,
    which nothing marks, carets for so many more. -/
def Underlines (drawing : List Char) (number : Nat) (line : List Char) (space carets : Nat) : Prop :=
  ∃ width front back, (toString number).toList.length ≤ width ∧
    drawing = front ++ '\n' :: (row width (toString number).toList line ++
      '\n' :: (row width [] (List.replicate space ' ' ++ List.replicate carets '^') ++ '\n' :: back))

section

variable {d : Diagnostic} {source line : List Char}

theorem draw_of_none (none : (Text.lines source)[d.place.line - 1]? = none) (file : List Char) :
    draw .plain d source file = draw .plain d [] file := by
  have empty : (Text.lines [])[d.place.line - 1]? = Option.none := by
    simp [Text.lines, Text.splitLines]
  unfold draw
  rw [none, empty]

theorem draw_of_some (found : (Text.lines source)[d.place.line - 1]? = some line)
    (file : List Char) : ∃ heading tail, draw .plain d source file =
      heading ++ (sourceLines .plain d.place source line ++ tail) := by
  unfold draw
  rw [found]
  extract_lets heading body help docs
  clear_value heading help docs
  exact ⟨heading, help ++ (docs ++ ['\n']), by simp only [body, List.append_assoc]⟩

theorem sourceLines_plain (place : Place) (source line : List Char) :
    ∃ front, sourceLines .plain place source line =
      front ++ '\n' :: (row (gutter place.line) (toString place.line).toList line ++
        '\n' :: (row (gutter place.line) [] (List.replicate (place.column - 1) ' ' ++
          List.replicate (caretCount source line place.column place.span) '^') ++ ['\n'])) := by
  refine ⟨Text.padLeft (gutter place.line) [] ++ " |".toList, ?_⟩
  unfold sourceLines row Paint.plain
  generalize gutter place.line = width
  generalize caretCount source line place.column place.span = carets
  generalize (toString place.line).toList = number
  simp

theorem underlines_draw (found : (Text.lines source)[d.place.line - 1]? = some line)
    (file : List Char) :
    Underlines (draw .plain d source file) d.place.line line (d.place.column - 1)
      (caretCount source line d.place.column d.place.span) := by
  obtain ⟨heading, tail, whole⟩ := draw_of_some found file
  obtain ⟨front, rows⟩ := sourceLines_plain d.place source line
  refine ⟨gutter d.place.line, heading ++ front, tail, le_max_left _ _, ?_⟩
  rw [whole, rows]
  simp only [List.append_assoc, List.cons_append, List.nil_append]

theorem caretCount_eq {before part after : List Char} {column : Nat} {span : Span}
    (cut : source = before ++ (part ++ after)) (start : Text.byteSize before = span.start)
    (stop : Text.byteSize (before ++ part) = span.stop)
    (count : column = 1 + (Text.lastLine before).length) :
    caretCount source (Text.firstLine (Text.lastLine before ++ (part ++ after))) column span =
      max (Text.onLine part (part ++ after)).length 1 := by
  have covered : Text.slice? source span.start span.stop = some part :=
    Text.slice?_eq_some.mpr ⟨before, after, cut, start, stop⟩
  have rest := Text.drop_firstLine (Text.notMem_lastLine before) (part ++ after)
  rw [caretCount, covered, Text.length_onLine, ← rest, List.length_drop, count,
    Nat.add_sub_cancel_left]
  dsimp only
  rw [Text.head?_lines]

end

end Excerpt

/-- The span starts where the source does, or where its last line feed ends, and the source ends
    there too. -/
def Diagnostic.AtEmptyEnd (d : Diagnostic) (source : String) : Prop :=
  d.place.span.start = Text.byteSize source.toList ∧ Text.lastLine source.toList = []

theorem Diagnostic.atEmptyEnd_iff {d : Diagnostic} {source : String} {before rest : List Char}
    (cut : source.toList = before ++ rest) (start : Text.byteSize before = d.place.span.start) :
    d.AtEmptyEnd source ↔ Text.lastLine before ++ rest = [] := by
  rw [AtEmptyEnd, cut, ← start, Text.byteSize_append, Nat.left_eq_add, List.append_eq_nil_iff]
  constructor
  · rintro ⟨none, last⟩
    have rest := Text.eq_nil_of_byteSize none
    rw [rest, List.append_nil] at last
    exact ⟨last, rest⟩
  · rintro ⟨last, rfl⟩
    rw [List.append_nil]
    exact ⟨rfl, last⟩

/-- The drawing shows the line on which the span starts, with its number, and the carets stand under
    what the line has of the span, or under one position where it has nothing of it. At the end of a
    source that is empty or ends with a line feed no line is shown: the drawing is the one for no
    source. -/
theorem Diagnostic.render_excerpt {d : Diagnostic} {source file : String} {part : List Char}
    (covers : Text.slice? source.toList d.place.span.start d.place.span.stop = some part)
    (starts : d.place.StartsIn source.toList) :
    (d.AtEmptyEnd source → d.render source file = d.render "" file) ∧
    (¬ d.AtEmptyEnd source → ∃ start left line ending later own right,
      Text.IsLine source.toList start line ending later ∧ '\n' ∉ left ∧
      Text.takeBytes? source.toList d.place.span.start = some (start ++ left) ∧
      line.drop left.length = own ++ right ∧ own <+: part ∧ (right = [] ∨ own = part) ∧
      Excerpt.Underlines (d.render source file).toList (start.count '\n' + 1) line left.length
        (max own.length 1)) := by
  obtain ⟨before, after, cut, start, stop⟩ := Text.slice?_eq_some.mp covers
  obtain ⟨before', taken, number, column⟩ := starts
  have taken' : Text.takeBytes? source.toList d.place.span.start = some before := by
    rw [cut, ← start]
    exact Text.takeBytes?_append before (part ++ after)
  obtain rfl : before = before' := Option.some.inj (taken'.symm.trans taken)
  have found := Text.getElem?_lines before (part ++ after)
  rw [← cut, show before.count '\n' = d.place.line - 1 by omega] at found
  have empty := atEmptyEnd_iff cut start
  refine ⟨fun atEnd => ?_, fun onLine => ?_⟩
  · rw [if_pos (empty.mp atEnd)] at found
    exact congrArg String.ofList (Excerpt.draw_of_none found file.toList)
  · have begun := mt empty.mpr onLine
    rw [if_neg begun] at found
    obtain ⟨begin_, ending, later, whole, count, isLine⟩ := Text.exists_isLine begun
    obtain ⟨right, own, reaches⟩ := Text.exists_onLine part after
    have drawn := Excerpt.underlines_draw found file.toList
    rw [Excerpt.caretCount_eq cut start stop column, column, Nat.add_sub_cancel_left] at drawn
    have number' : d.place.line = begin_.count '\n' + 1 := by omega
    refine ⟨begin_, Text.lastLine before, _, ending, later, _, right, cut ▸ isLine,
      Text.notMem_lastLine before, whole ▸ taken, ?_, Text.onLine_starts part after, reaches, ?_⟩
    · rw [Text.drop_firstLine (Text.notMem_lastLine before), own]
    · rw [← number', render, String.toList_ofList]
      exact drawn

/-- A span over the end of its line, after a space and under a letter of two bytes; and one after the
    last line feed. -/
theorem Diagnostic.render_excerpt_returns :
    (∃ line own right, line.drop 1 = own ++ right ∧ own <+: "é\r\nb".toList ∧
      (right = [] ∨ own = "é\r\nb".toList) ∧
      Excerpt.Underlines (render ⟨.invalidToken, "no", ⟨2, 2, ⟨4, 9⟩⟩, none, none⟩
        "a\r\n é\r\nb" "x").toList 2 line 1 (max own.length 1)) ∧
    render ⟨.unexpectedEof, "no", ⟨2, 1, ⟨7, 7⟩⟩, none, none⟩ r"view {
" "x" =
      render ⟨.unexpectedEof, "no", ⟨2, 1, ⟨7, 7⟩⟩, none, none⟩ "" "x" := by
  constructor
  · have covers : Text.slice? "a\r\n é\r\nb".toList 4 9 = some "é\r\nb".toList := by decide +kernel
    have taken : Text.takeBytes? "a\r\n é\r\nb".toList 4 = some "a\r\n ".toList := by decide +kernel
    obtain ⟨start, left, line, ending, later, own, right, isLine, plain, before, drop, inPart, all,
        drawn⟩ := (@render_excerpt ⟨.invalidToken, "no", ⟨2, 2, ⟨4, 9⟩⟩, none, none⟩ _ "x" _
      covers ⟨_, taken, by decide +kernel, by decide +kernel⟩).2
      fun atEnd => absurd atEnd.1 (by decide +kernel)
    have both : start ++ left = "a\r\n ".toList := Option.some.inj (before.symm.trans taken)
    have space : left = [' '] := by
      have last : Text.lastLine (start ++ left) = Text.lastLine start ++ left :=
        Text.lastLine_append plain
      rw [both, isLine.first, List.nil_append] at last
      rw [← last]
      decide +kernel
    have count : start.count '\n' = 1 := by
      have feeds := congrArg (List.count '\n') both
      rw [List.count_append, space] at feeds
      exact feeds.trans (by decide +kernel)
    rw [count, space] at drawn
    rw [space] at drop
    exact ⟨line, own, right, drop, inPart, all, drawn⟩
  · refine (@render_excerpt ⟨.unexpectedEof, "no", ⟨2, 1, ⟨7, 7⟩⟩, none, none⟩ _ "x" []
      (by decide +kernel) ⟨r"view {
".toList, ?_, ?_, ?_⟩).1 ⟨?_, ?_⟩ <;> decide +kernel

end PulseSyntax
