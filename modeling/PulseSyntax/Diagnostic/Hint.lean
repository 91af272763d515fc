import PulseSyntax.Diagnostic.Basic
import PulseSyntax.Token.Kind

namespace PulseSyntax

/-- A sentence of advice and the section of the guide that explains it. -/
structure Hint where
  help : String
  anchor : String
deriving DecidableEq, Repr

namespace Hint

def docs (h : Hint) : String := "docs/syntax.md#" ++ h.anchor

def forMismatch? (expected found : TokenKind) : Option Hint :=
  match expected, found with
  | .symbol .closeBrace, .endOfFile =>
    some ⟨r"A block was opened with '{' but never closed. Add the matching '}'", "blocks"⟩
  | .symbol .closeParen, .endOfFile | .symbol .closeParen, .symbol .openBrace =>
    some ⟨"Close the argument list with ')' before the block", "expressions"⟩
  | .symbol .closeBracket, _ =>
    some ⟨"Array literals and computed members end with ']'", "expressions"⟩
  | .symbol .openParen, .symbol .openBrace =>
    some ⟨"Directives take their argument in parentheses: @if (condition) { ... }",
      "control-flow"⟩
  | .symbol .openBrace, .symbol .colon =>
    some ⟨"Block names are not followed by ':'. Write `state { count: 0 }`", "blocks"⟩
  | .symbol .openBrace, .symbol .eq =>
    some ⟨"Blocks are not assigned. Write `state { ... }` instead of " ++
      "`state = { ... }`", "blocks"⟩
  | .symbol .colon, .symbol .eq =>
    some ⟨"Properties use ':' rather than '=': `count: 0`", "state"⟩
  | .symbol .colon, .identifier | .symbol .colon, .number | .symbol .colon, .string =>
    some ⟨"Each property needs a ':' between its name and value", "state"⟩
  | .keyword .in_, _ | .keyword .of, _ =>
    some ⟨"Loops name the item and the list: @for (item of items) { ... }", "loops"⟩
  | .string, .identifier =>
    some ⟨"Paths and names here are string literals. Wrap the value in quotes", "imports"⟩
  | .keyword .from_, .string =>
    some ⟨"Named imports need 'from' before the module path: import { a } from \"./a\"",
      "imports"⟩
  | .identifier, .number => some ⟨"Names cannot start with a digit", "expressions"⟩
  | .identifier, .keyword _ => some ⟨"Reserved words cannot be used as names here", "keywords"⟩
  | .symbol .arrow, _ =>
    some ⟨"Arrow functions need '=>' after the parameter list", "expressions"⟩
  | _, _ => none

def forKind? : ErrorKind → Option Hint
  | .duplicateBlock =>
    some ⟨"Each block may appear once per file. Merge the two blocks into one", "blocks"⟩
  | .unknownTopLevel =>
    some ⟨"A component file contains imports, @page, @route and the blocks props, state, view, " ++
      "actions, style, router, store", "file-structure"⟩
  | .invalidImport =>
    some ⟨"Supported forms: import X from \"m\", import { a, b as c } from \"m\", " ++
      "import * as ns from \"m\", import \"m\"", "imports"⟩
  | .invalidModifier =>
    some ⟨"@model accepts the modifiers .lazy, .trim and .number", "two-way-binding"⟩
  | .invalidDirective =>
    some ⟨"Check the directive's argument list against the directive reference", "directives"⟩
  | .invalidAssignment =>
    some ⟨"Only names and member expressions can be assigned to", "expressions"⟩
  | .invalidInterpolation =>
    some ⟨r"Interpolations look like {expression}. Escape a literal brace as \{", "text"⟩
  | .invalidStyle =>
    some ⟨"Preprocessor syntax is kept as raw CSS unless strict style parsing is enabled",
      "style"⟩
  | .nestingTooDeep =>
    some ⟨"Split deeply nested markup or expressions into smaller components", "limits"⟩
  | .invalidToken =>
    some ⟨"Remove the character or wrap it in a string literal", "lexical-structure"⟩
  | .unexpectedToken | .unexpectedEof => none

end Hint

end PulseSyntax
