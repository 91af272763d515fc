import PulseSyntax.Source.Position

namespace PulseSyntax

structure StyleDeclaration where
  property : String
  value : String
  important : Bool
  span : Span
deriving DecidableEq, Repr

/-- A rule or an at-rule. An at-rule without a block ends with a semicolon. -/
inductive StyleNode where
  | rule (selector : String) (declarations : List StyleDeclaration) (rules : List StyleNode)
      (span : Span)
  | atRule (name prelude : String) (hasBlock : Bool) (declarations : List StyleDeclaration)
      (rules : List StyleNode) (span : Span)

def StyleNode.span : StyleNode → Span
  | rule _ _ _ s | atRule _ _ _ _ _ s => s

/-- A style block: its text, its rules, and why there are none if the text cannot be read as
    rules. -/
structure StyleBlock where
  raw : String
  rules : List StyleNode
  parseError : Option String
  span : Span

end PulseSyntax
