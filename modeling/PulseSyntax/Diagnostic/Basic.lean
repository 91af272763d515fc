import PulseSyntax.Json.Basic
import PulseSyntax.Source.Position

namespace PulseSyntax

inductive ErrorKind where
  | unexpectedToken | unexpectedEof | invalidToken
  | duplicateBlock | unknownTopLevel | invalidImport
  | invalidDirective | invalidModifier | invalidAssignment | invalidInterpolation
  | invalidStyle | nestingTooDeep
deriving DecidableEq, Repr, Inhabited

namespace ErrorKind

def name : ErrorKind → String
  | unexpectedToken => "UnexpectedToken"
  | unexpectedEof => "UnexpectedEof"
  | invalidToken => "InvalidToken"
  | duplicateBlock => "DuplicateBlock"
  | unknownTopLevel => "UnknownTopLevel"
  | invalidImport => "InvalidImport"
  | invalidDirective => "InvalidDirective"
  | invalidModifier => "InvalidModifier"
  | invalidAssignment => "InvalidAssignment"
  | invalidInterpolation => "InvalidInterpolation"
  | invalidStyle => "InvalidStyle"
  | nestingTooDeep => "NestingTooDeep"

def title : ErrorKind → String
  | unexpectedToken => "Unexpected token"
  | unexpectedEof => "Unexpected end of file"
  | invalidToken => "Invalid token"
  | duplicateBlock => "Duplicate block"
  | unknownTopLevel => "Unknown top-level declaration"
  | invalidImport => "Invalid import"
  | invalidDirective => "Invalid directive"
  | invalidModifier => "Invalid modifier"
  | invalidAssignment => "Invalid assignment target"
  | invalidInterpolation => "Invalid interpolation"
  | invalidStyle => "Invalid style"
  | nestingTooDeep => "Nesting too deep"

def code : ErrorKind → String
  | unexpectedToken => "P0101"
  | unexpectedEof => "P0102"
  | invalidToken => "P0103"
  | duplicateBlock => "P0201"
  | unknownTopLevel => "P0202"
  | invalidImport => "P0203"
  | invalidDirective => "P0301"
  | invalidModifier => "P0302"
  | invalidInterpolation => "P0303"
  | invalidAssignment => "P0401"
  | invalidStyle => "P0501"
  | nestingTooDeep => "P0601"

def all : List ErrorKind := [
  unexpectedToken, unexpectedEof, invalidToken, duplicateBlock, unknownTopLevel, invalidImport,
  invalidDirective, invalidModifier, invalidAssignment, invalidInterpolation, invalidStyle,
  nestingTooDeep]

def ofName? (name : String) : Option ErrorKind := all.find? (·.name == name)

end ErrorKind

/-- An error in words, with its place, advice and a section of the guide. -/
structure Diagnostic where
  kind : ErrorKind
  message : String
  place : Place
  help : Option String
  docs : Option String
deriving DecidableEq, Repr

namespace Diagnostic

def display (d : Diagnostic) : String :=
  d.message ++ " [" ++ d.kind.code ++ "] at " ++ toString d.place.line ++ ":" ++
    toString d.place.column

def toJson (d : Diagnostic) : Json :=
  .object [
    ("error", .string d.kind.name),
    ("message", .string d.message),
    ("code", .string d.kind.code),
    ("line", .natural d.place.line),
    ("column", .natural d.place.column),
    ("span", d.place.span.toJson),
    ("help", .ofOption .string d.help),
    ("docs", .ofOption .string d.docs),
    ("display", .string d.display)]

end Diagnostic

end PulseSyntax
