import PulseSyntax.Token.Basic

namespace PulseSyntax.Style

/-- What a run of tokens forms. In a selector a colon joins what follows it. -/
inductive Part where
  | selector | value
deriving DecidableEq, Repr

def lower (text : String) : String := String.ofList (text.toList.map Char.toLower)

def units : List String := [
  "%", "px", "em", "rem", "ex", "ch", "vh", "vw", "vmin", "vmax", "svh", "lvh", "dvh", "cm", "mm",
  "q", "in", "pt", "pc", "s", "ms", "deg", "rad", "grad", "turn", "fr", "dpi", "dpcm", "dppx", "x"]

def functions : List String := [
  "rgb", "rgba", "hsl", "hsla", "hwb", "lab", "lch", "oklab", "oklch", "color", "color-mix",
  "calc", "min", "max", "clamp", "var", "env", "attr", "url", "image-set", "linear-gradient",
  "radial-gradient", "conic-gradient", "repeating-linear-gradient", "repeating-radial-gradient",
  "repeating-conic-gradient", "translate", "translatex", "translatey", "translatez", "translate3d",
  "rotate", "rotatex", "rotatey", "rotatez", "rotate3d", "scale", "scalex", "scaley", "scalez",
  "scale3d", "skew", "skewx", "skewy", "matrix", "matrix3d", "perspective", "blur", "brightness",
  "contrast", "drop-shadow", "grayscale", "hue-rotate", "invert", "opacity", "saturate", "sepia",
  "cubic-bezier", "steps", "repeat", "minmax", "fit-content", "format", "local", "counter",
  "counters", "nth-child", "nth-of-type", "nth-last-child", "nth-last-of-type", "is", "where",
  "has", "lang", "dir"]

def vendors : List String := ["webkit-", "moz-", "ms-", "o-"]

def withoutLead (leads : List (List Char)) (name : List Char) : List Char :=
  match leads.find? (·.isPrefixOf name) with
  | some lead => name.drop lead.length
  | none => name

def isUnit (t : Token) : Bool := units.contains (lower t.raw)

def isFunction (t : Token) : Bool :=
  let name := (lower t.raw).toList.dropWhile (· == '-')
  t.kind == .identifier &&
    functions.contains (String.ofList (withoutLead (vendors.map String.toList) name))

def isOpener : TokenKind → Bool
  | .symbol .openParen | .symbol .openBracket | .symbol .dot | .symbol .hash
  | .symbol .atSign => true
  | _ => false

def isCloser : TokenKind → Bool
  | .symbol .closeParen | .symbol .closeBracket | .symbol .comma | .symbol .semicolon => true
  | _ => false

def needsSpace (part : Part) (before next : Token) : Bool :=
  if before.span.stop == next.span.start then false
  else if before.kind == .number && isUnit next then false
  else if next.kind == .symbol .openParen && isFunction before then false
  else if part == .selector && before.kind == .symbol .colon then false
  else !isOpener before.kind && !isCloser next.kind

def lineAfter (part : Part) : Token → List Token → List Char
  | _, [] => []
  | before, t :: rest =>
    (if needsSpace part before t then [' '] else []) ++ t.raw.toList ++ lineAfter part t rest

def line (part : Part) : List Token → String
  | [] => ""
  | t :: rest => String.ofList (t.raw.toList ++ lineAfter part t rest)

def depthAfter (depth : Nat) (t : Token) : Nat :=
  if t.kind == .symbol .openBrace then depth + 1 else depth

def depthAt (depth : Nat) (t : Token) : Nat :=
  if t.kind == .symbol .closeBrace then depth - 1 else depth

def lineBreak (depth : Nat) : List Char := '\n' :: List.replicate (2 * depth) ' '

def blockAfter : Nat → Token → List Token → List Char
  | _, _, [] => []
  | depth, before, t :: rest =>
    let depth := depthAt depth t
    let gap :=
      if before.line < t.line then lineBreak depth
      else if needsSpace .value before t then [' ']
      else []
    gap ++ t.raw.toList ++ blockAfter (depthAfter depth t) t rest

/-- The text of tokens on the lines on which they start, indented by their open braces. -/
def block : List Token → String
  | [] => ""
  | t :: rest => String.ofList (t.raw.toList ++ blockAfter (depthAfter (depthAt 0 t) t) t rest)

end PulseSyntax.Style
