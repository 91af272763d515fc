import PulseSyntax.Diagnostic.Basic
import PulseSyntax.Text.Basic

namespace PulseSyntax

/-- The escape sequences that color the parts of an excerpt. -/
structure Paint where
  red : List Char
  bold : List Char
  dim : List Char
  cyan : List Char
  reset : List Char

namespace Paint

def plain : Paint := ⟨[], [], [], [], []⟩

def terminal : Paint where
  red := "\x1b[1;31m".toList
  bold := "\x1b[1m".toList
  dim := "\x1b[2m".toList
  cyan := "\x1b[1;38;5;73m".toList
  reset := "\x1b[0m".toList

end Paint

namespace Excerpt

def gutter (line : Nat) : Nat := max (toString line).toList.length 2

/-- How many carets stand under the part of the span on the error's line: at least one, and none
    beyond the end of the line. A span that is no part of the source counts as one character. -/
def caretCount (source line : List Char) (column : Nat) (span : Span) : Nat :=
  let covered := match Text.slice? source span.start span.stop with
    | some part => ((Text.lines part).head?.getD []).length
    | none => 1
  max (min covered (line.length - (column - 1))) 1

/-- The line of the source that holds the error, between two lines of its frame. -/
def sourceLines (paint : Paint) (place : Place) (source line : List Char) : List Char :=
  let width := gutter place.line
  let blank := Text.padLeft width []
  let number := Text.padLeft width (toString place.line).toList
  let space := List.replicate (place.column - 1) ' '
  let carets := List.replicate (caretCount source line place.column place.span) '^'
  paint.dim ++ blank ++ " |".toList ++ paint.reset ++ ['\n'] ++
    paint.dim ++ number ++ " |".toList ++ paint.reset ++ ' ' :: line ++ ['\n'] ++
    paint.dim ++ blank ++ " |".toList ++ paint.reset ++ ' ' :: space ++
      paint.red ++ carets ++ paint.reset ++ ['\n']

def helpLines (paint : Paint) : List (List Char) → List Char
  | [] => []
  | first :: others =>
    ' ' :: paint.cyan ++ "help:".toList ++ paint.reset ++ ' ' :: first ++ ['\n'] ++
      others.flatMap fun line => "       ".toList ++ line ++ ['\n']

def draw (paint : Paint) (d : Diagnostic) (source file : List Char) : List Char :=
  let heading :=
    '\n' :: paint.red ++ "error[".toList ++ d.kind.code.toList ++ "]:".toList ++ paint.reset ++
      ' ' :: paint.bold ++ d.message.toList ++ paint.reset ++ ['\n'] ++
      ' ' :: paint.dim ++ "-->".toList ++ paint.reset ++ ' ' :: file ++
      ':' :: (toString d.place.line).toList ++ ':' :: (toString d.place.column).toList ++ ['\n']
  let body := match (Text.lines source)[d.place.line - 1]? with
    | some line => sourceLines paint d.place source line
    | none => []
  let help := match d.help with
    | some help => '\n' :: helpLines paint (Text.lines help.toList)
    | none => []
  let docs := match d.docs with
    | some docs => ' ' :: paint.dim ++ "docs:".toList ++ paint.reset ++ ' ' :: docs.toList ++ ['\n']
    | none => []
  heading ++ body ++ help ++ docs ++ ['\n']

end Excerpt

namespace Diagnostic

def render (d : Diagnostic) (source file : String) : String :=
  String.ofList (Excerpt.draw .plain d source.toList file.toList)

def renderColored (d : Diagnostic) (source file : String) : String :=
  String.ofList (Excerpt.draw .terminal d source.toList file.toList)

end Diagnostic

end PulseSyntax
