import PulseSyntax.Diagnostic.Excerpt
import PulseSyntax.Proofs.Source.Lines

namespace PulseSyntax

namespace Text

def isParameter (c : Char) : Bool := c.isDigit || c == ';'

/-- The length of the escape sequence that a text starts with. -/
def sequenceLength? : List Char → Option Nat
  | '\x1b' :: '[' :: cs =>
    let parameters := cs.takeWhile isParameter
    if cs[parameters.length]? == some 'm' then some (parameters.length + 3) else none
  | _ => none

/-- The text without its escape sequences. Its first `skip` characters belong to one of them. -/
def unpainted : Nat → List Char → List Char
  | _, [] => []
  | skip + 1, _ :: cs => unpainted skip cs
  | 0, c :: cs =>
    match sequenceLength? (c :: cs) with
    | some length => unpainted (length - 1) cs
    | none => c :: unpainted 0 cs

def IsSequence (text : List Char) : Prop :=
  ∃ parameters, (∀ c ∈ parameters, isParameter c) ∧ text = '\x1b' :: '[' :: (parameters ++ ['m'])

def Shows (own plain : List Char) : Prop :=
  ∀ rest, unpainted 0 (own ++ rest) = plain ++ unpainted 0 rest

section

variable {own plain own' plain' text : List Char} {c : Char}

theorem unpainted_skip (own rest : List Char) :
    unpainted own.length (own ++ rest) = unpainted 0 rest := by
  induction own with
  | nil => rfl
  | cons c own ih => exact ih

theorem sequenceLength?_of_ne (h : c ≠ '\x1b') (cs : List Char) :
    sequenceLength? (c :: cs) = none := by
  unfold sequenceLength?
  split
  · next same =>
    obtain ⟨rfl, -⟩ := List.cons.inj same
    exact absurd rfl h
  · rfl

theorem sequenceLength?_sequence {parameters : List Char} (h : ∀ c ∈ parameters, isParameter c)
    (rest : List Char) :
    sequenceLength? ('\x1b' :: '[' :: (parameters ++ 'm' :: rest)) =
      some (parameters.length + 3) := by
  have stop : ('m' :: rest).takeWhile isParameter = [] := rfl
  have taken : (parameters ++ 'm' :: rest).takeWhile isParameter = parameters := by
    rw [List.takeWhile_append_of_pos h, stop, List.append_nil]
  simp [sequenceLength?, taken]

theorem shows_nil : Shows [] [] := fun _ => rfl

theorem Shows.cons (h : c ≠ '\x1b') (others : Shows own plain) :
    Shows (c :: own) (c :: plain) := by
  intro rest
  rw [List.cons_append, unpainted, sequenceLength?_of_ne h, others rest]
  rfl

theorem Shows.append (h : Shows own plain) (h' : Shows own' plain') :
    Shows (own ++ own') (plain ++ plain') := by
  intro rest
  rw [List.append_assoc, h, h', List.append_assoc]

theorem shows_self (h : '\x1b' ∉ text) : Shows text text := by
  induction text with
  | nil => exact shows_nil
  | cons c text ih =>
    obtain ⟨other, plain⟩ : '\x1b' ≠ c ∧ '\x1b' ∉ text := by simpa using h
    exact .cons other.symm (ih plain)

theorem IsSequence.shows (h : IsSequence own) : Shows own [] := by
  obtain ⟨parameters, all, rfl⟩ := h
  intro rest
  have whole : '[' :: (parameters ++ ['m']) ++ rest = '[' :: (parameters ++ 'm' :: rest) := by simp
  have length : parameters.length + 3 - 1 = ('[' :: (parameters ++ ['m'])).length := by simp
  rw [List.cons_append, whole, unpainted, sequenceLength?_sequence all, ← whole]
  simp only [length, unpainted_skip, List.nil_append]

theorem Shows.eq (h : Shows own plain) : unpainted 0 own = plain := by
  simpa [unpainted] using h []

end

end Text

structure Paint.Escapes (paint : Paint) : Prop where
  red : Text.IsSequence paint.red
  bold : Text.IsSequence paint.bold
  dim : Text.IsSequence paint.dim
  cyan : Text.IsSequence paint.cyan
  reset : Text.IsSequence paint.reset

theorem Paint.terminal_escapes : Paint.terminal.Escapes where
  red := ⟨"1;31".toList, List.all_eq_true.mp (by decide), rfl⟩
  bold := ⟨"1".toList, List.all_eq_true.mp (by decide), rfl⟩
  dim := ⟨"2".toList, List.all_eq_true.mp (by decide), rfl⟩
  cyan := ⟨"1;38;5;73".toList, List.all_eq_true.mp (by decide), rfl⟩
  reset := ⟨"0".toList, List.all_eq_true.mp (by decide), rfl⟩

namespace Text

theorem escape_notMem_toString (n : Nat) : '\x1b' ∉ (toString n).toList := by
  intro member
  have digit : '\x1b'.isDigit :=
    Nat.isDigit_of_mem_toDigits (b := 10) (by decide) (by decide) (by simpa using member)
  exact absurd digit (by decide)

theorem escape_notMem_padLeft {text : List Char} (h : '\x1b' ∉ text) (width : Nat) :
    '\x1b' ∉ padLeft width text := by
  simp [padLeft, h]

end Text

namespace Excerpt

open Text

section

variable {paint : Paint} (escapes : paint.Escapes) {line : List Char} {lines : List (List Char)}

include escapes

theorem shows_sourceLines (place : Place) (source : List Char) (plain : '\x1b' ∉ line) :
    Shows (sourceLines paint place source line) (sourceLines .plain place source line) := by
  have blank := shows_self (escape_notMem_padLeft List.not_mem_nil (gutter place.line))
  have number :=
    shows_self (escape_notMem_padLeft (escape_notMem_toString place.line) (gutter place.line))
  have bar : Shows " |".toList " |".toList := shows_self (by decide)
  have text : Shows (' ' :: line) (' ' :: line) := .cons (by decide) (shows_self plain)
  have margin (n : Nat) : Shows (' ' :: List.replicate n ' ') (' ' :: List.replicate n ' ') :=
    .cons (by decide) (shows_self (by simp [List.mem_replicate]))
  have carets (n : Nat) : Shows (List.replicate n '^') (List.replicate n '^') :=
    shows_self (by simp [List.mem_replicate])
  have feed : Shows ['\n'] ['\n'] := shows_self (by decide)
  have ⟨red, _, dim, _, reset⟩ := escapes
  exact dim.shows.append blank |>.append bar |>.append reset.shows |>.append feed
    |>.append dim.shows |>.append number |>.append bar |>.append reset.shows
    |>.append text |>.append feed
    |>.append dim.shows |>.append blank |>.append bar |>.append reset.shows
    |>.append (margin _) |>.append red.shows |>.append (carets _) |>.append reset.shows
    |>.append feed

theorem shows_helpLines (plain : ∀ line ∈ lines, '\x1b' ∉ line) :
    Shows (helpLines paint lines) (helpLines .plain lines) := by
  cases lines with
  | nil => exact shows_nil
  | cons first others =>
    have label : Shows "help:".toList "help:".toList := shows_self (by decide)
    have text : Shows (' ' :: first) (' ' :: first) :=
      .cons (by decide) (shows_self (plain first List.mem_cons_self))
    have feed : Shows ['\n'] ['\n'] := shows_self (by decide)
    have more : '\x1b' ∉ others.flatMap fun line => "       ".toList ++ line ++ ['\n'] := by
      intro member
      obtain ⟨line, own, inside⟩ := List.mem_flatMap.mp member
      have := plain line (List.mem_cons_of_mem first own)
      simp [this] at inside
    have ⟨_, _, _, cyan, reset⟩ := escapes
    exact Shows.cons (by decide) cyan.shows |>.append label |>.append reset.shows
      |>.append text |>.append feed |>.append (shows_self more)

theorem shows_draw {d : Diagnostic} {source file : List Char}
    (message : '\x1b' ∉ d.message.toList) (help : ∀ help ∈ d.help, '\x1b' ∉ help.toList)
    (docs : ∀ docs ∈ d.docs, '\x1b' ∉ docs.toList) (own : '\x1b' ∉ source)
    (name : '\x1b' ∉ file) : Shows (draw paint d source file) (draw .plain d source file) := by
  have ⟨red, bold, dim, _, reset⟩ := escapes
  have feed : Shows ['\n'] ['\n'] := shows_self (by decide)
  have code : '\x1b' ∉ d.kind.code.toList := by cases d.kind <;> decide
  have number (n : Nat) : Shows (':' :: (toString n).toList) (':' :: (toString n).toList) :=
    .cons (by decide) (shows_self (escape_notMem_toString n))
  have spaced {text : List Char} (plain : '\x1b' ∉ text) : Shows (' ' :: text) (' ' :: text) :=
    .cons (by decide) (shows_self plain)
  have heading := Shows.cons (c := '\n') (by decide) red.shows
    |>.append (shows_self (by decide : '\x1b' ∉ "error[".toList))
    |>.append (shows_self code)
    |>.append (shows_self (by decide : '\x1b' ∉ "]:".toList)) |>.append reset.shows
    |>.append (.cons (c := ' ') (by decide) bold.shows) |>.append (shows_self message)
    |>.append reset.shows |>.append feed
    |>.append (.cons (c := ' ') (by decide) dim.shows)
    |>.append (shows_self (by decide : '\x1b' ∉ "-->".toList)) |>.append reset.shows
    |>.append (spaced name) |>.append (number d.place.line) |>.append (number d.place.column)
    |>.append feed
  refine heading.append ?_ |>.append ?_ |>.append ?_ |>.append feed
  · cases found : (lines source)[d.place.line - 1]? with
    | none => exact shows_nil
    | some line =>
      exact shows_sourceLines escapes _ _ fun member =>
        own (subset_of_mem_lines (List.mem_of_getElem? found) member)
  · cases given : d.help with
    | none => exact shows_nil
    | some text =>
      exact .cons (by decide) (shows_helpLines escapes fun line member inside =>
        help text given (subset_of_mem_lines member inside))
  · cases given : d.docs with
    | none => exact shows_nil
    | some text =>
      exact Shows.cons (by decide) dim.shows
        |>.append (shows_self (by decide : '\x1b' ∉ "docs:".toList)) |>.append reset.shows
        |>.append (spaced (docs text given)) |>.append feed

end

end Excerpt

/-- Without its escape sequences the colored drawing of an error is the plain one, if nothing that
    is drawn holds an escape character. -/
theorem Diagnostic.unpainted_renderColored {d : Diagnostic} {source file : String}
    (message : '\x1b' ∉ d.message.toList) (help : ∀ help ∈ d.help, '\x1b' ∉ help.toList)
    (docs : ∀ docs ∈ d.docs, '\x1b' ∉ docs.toList) (own : '\x1b' ∉ source.toList)
    (name : '\x1b' ∉ file.toList) :
    Text.unpainted 0 (d.renderColored source file).toList = (d.render source file).toList := by
  rw [renderColored, render, String.toList_ofList, String.toList_ofList]
  exact (Excerpt.shows_draw Paint.terminal_escapes message help docs own name).eq

/-- Two lines of advice, a section of the guide and a line of the source. -/
theorem Diagnostic.unpainted_renderColored_advice :
    let d : Diagnostic :=
      ⟨.duplicateBlock, "Duplicate 'state' block", ⟨2, 1, ⟨6, 11⟩⟩, some "Merge\nthem", some "#state"⟩
    '\x1b' ∈ (d.renderColored "state\nstate\n" "app.pulse").toList ∧
      Text.unpainted 0 (d.renderColored "state\nstate\n" "app.pulse").toList =
        (d.render "state\nstate\n" "app.pulse").toList := by
  refine ⟨?_, Diagnostic.unpainted_renderColored ?_ ?_ ?_ ?_ ?_⟩
  · rw [renderColored, String.toList_ofList]
    decide +kernel
  all_goals decide

end PulseSyntax
