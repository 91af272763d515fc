import PulseSyntax.Program.Parser
import PulseSyntax.Token.Lexer

namespace PulseSyntax

/-- The tokens of a source. The last is the end of the file. -/
def tokenize (source : String) : List Token := Lexer.tokens source.toList

/-- A component file with the source and the tokens it was read from. -/
structure Component where
  program : Program
  tokens : List Token
  source : String

namespace Component

def rawText (c : Component) (r : TokenRange) : String :=
  String.ofList (r.text c.source.toList (c.tokens.map (·.span)))

def rawTokens (c : Component) (r : TokenRange) : List Token := r.tokens c.tokens

def parse (source : String) (options : Options) : Except ParseError Component :=
  let stream := TokenStream.ofList (tokenize source)
  match Program.parser.run ⟨stream, options, none⟩ .initial with
  | .ok program _ => .ok ⟨program, stream.toList, source⟩
  | .error e _ => .error e

end Component

/-- Several parses over one token sequence: each goes on in the state that the one before it
    left. -/
def parseAgain (stream : TokenStream) (options : Options) :
    Nat → ParserState → List (Except ParseError Program)
  | 0, _ => []
  | calls + 1, state =>
    match Program.parser.run ⟨stream, options, none⟩ state with
    | .ok program next => .ok program :: parseAgain stream options calls next
    | .error e next => .error e :: parseAgain stream options calls next

/-- Several parses over one token sequence, the first one from a cursor on. -/
def parseRepeatedly (stream : TokenStream) (options : Options) (calls cursor : Nat) :
    List (Except ParseError Program) :=
  parseAgain stream options calls ⟨cursor, 0⟩

end PulseSyntax
