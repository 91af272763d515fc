import PulseSyntax.Command.Arguments
import PulseSyntax.Command.FileTree
import PulseSyntax.Component
import PulseSyntax.Diagnostic.Excerpt
import PulseSyntax.Program.Json
import PulseSyntax.Text.Basic
import PulseSyntax.Text.CodePoints
import PulseSyntax.Token.Json

namespace PulseSyntax

/-- How many files were read and how many of them failed. -/
structure Summary where
  files : Nat
  failed : Nat
deriving DecidableEq, Repr

/-- The summary as a line after an empty one; `bold` for a terminal. -/
def Summary.text (s : Summary) (bold : Bool) (elapsed : String) : String :=
  let files := toString s.files ++ if s.files = 1 then " file" else " files"
  let failed := if s.failed = 0 then "" else ", " ++ toString s.failed ++ " failed"
  let line := "✨ Parsed " ++ files ++ failed ++ " in " ++ elapsed
  if bold then "\n\x1b[1m" ++ line ++ "\x1b[0m\n" else "\n" ++ line ++ "\n"

def elapsedText (micros : Nat) : String :=
  let places (n unit digits : Nat) : String :=
    let one := Nat.pow 10 digits
    let scaled := (2 * n * one + unit) / (2 * unit)
    let fraction := toString (scaled % one)
    toString (scaled / one) ++ "." ++
      String.ofList (List.replicate (digits - fraction.length) '0') ++ fraction
  if micros < 1000 then toString micros ++ "μs"
  else if micros < 1000000 then places micros 1000 1 ++ "ms"
  else places micros 1000000 2 ++ "s"

/-- What a command leaves: its output, a summary to follow it, and whether it succeeded. -/
structure Outcome where
  out : String
  err : String
  summary : Option Summary
  ok : Bool
deriving DecidableEq, Repr

namespace Outcome

def silent : Outcome := ⟨"", "", none, true⟩

def failure (message : String) : Outcome := ⟨"", message ++ "\n", none, false⟩

end Outcome

namespace Command

def paint (colored : Bool) (color text : String) : String :=
  if colored then "\x1b[" ++ color ++ "m" ++ text ++ "\x1b[0m" else text

def tokenLine (t : Token) : String :=
  String.ofList (Text.padLeft 4 (toString t.place.line).toList ++ ':' ::
    Text.padRight 3 (toString t.place.column).toList ++ ' ' ::
    Text.padRight 14 t.kind.name.toList ++ ' ' :: Text.visible t.raw.toList ++ ['\n'])

def listTokens (source : String) (json : Bool) : Outcome :=
  let tokens := tokenize source
  let out :=
    if json then (Json.ofList Token.toJson tokens).pretty ++ "\n"
    else String.join (tokens.map tokenLine)
  { Outcome.silent with out := out }

def errorText (colored : Bool) (e : ParseError) (source name : String) : String :=
  if colored then e.toDiagnostic.renderColored source name
  else e.toDiagnostic.render source name

def programText (c : Component) : String := c.program.toJson.pretty ++ "\n"

def styleWarning (colored : Bool) (path : String) (c : Component) : String :=
  match c.program.style.bind (·.parseError) with
  | some message =>
    "  " ++ paint colored "33" "!" ++ " " ++ path ++ ": style kept as raw text (" ++ message ++
      ")\n"
  | none => ""

def readFailure (name : String) (e : ReadError) : Outcome :=
  .failure ("Error: failed to read " ++ name ++ ": " ++ e.message)

def parseStandard (colored : Bool) (content : Except ReadError String) (json : Bool)
    (options : Options) : Outcome :=
  match content with
  | .error e => readFailure "stdin" e
  | .ok source =>
    match Component.parse source options with
    | .ok c => { Outcome.silent with out := if json then programText c else "" }
    | .error e => ⟨"", errorText colored e source "<stdin>", none, false⟩

def parseFile (colored : Bool) (path : String) (content : Except ReadError String) (json : Bool)
    (options : Options) : Outcome :=
  match content with
  | .error e => readFailure path e
  | .ok source =>
    match Component.parse source options with
    | .error e => ⟨"", errorText colored e source path, none, false⟩
    | .ok c =>
      let warning := styleWarning colored path c
      if json then { Outcome.silent with out := programText c, err := warning }
      else
        { Outcome.silent with
          err := warning ++ "  " ++ paint colored "32" "✓" ++ " " ++ path ++ "\n" }

/-- Reads the components in a directory: all entries with their extension. -/
def parseDirectory (colored : Bool) (path : String) (tree : FileTree) (options : Options) :
    Outcome :=
  let entries := (tree.walk path).filter fun (path, _) => Path.isComponent path
  let outcomes := entries.map fun (path, tree) =>
    parseFile colored path (tree.read path) false options
  let failed := outcomes.countP fun o => !o.ok
  if entries.isEmpty then .failure ("No .pulse files found in " ++ path)
  else ⟨"", String.join (outcomes.map (·.err)), some ⟨entries.length, failed⟩, failed == 0⟩

def parsePath (colored : Bool) (path : String) (found : Except ReadError FileTree) (json : Bool)
    (options : Options) : Outcome :=
  match found with
  | .error _ => .failure ("Error: " ++ path ++ " does not exist")
  | .ok (.file content) =>
    if !Path.isComponent path then .failure ("Error: " ++ path ++ " is not a .pulse file")
    else
      let o := parseFile colored path content json options
      if o.ok && !json then { o with summary := some ⟨1, 0⟩ } else o
  | .ok (.directory entries) =>
    if json then .failure "Error: --json needs a single file"
    else parseDirectory colored path (.directory entries) options

def path? : Command → Option String
  | tokens (.path path) _ | parse (.path path) _ _ => some path
  | _ => none

def listsDirectory : Command → Bool
  | tokens .. => false
  | parse _ json _ => !json

def tokensOf (name : String) (content : Except ReadError String) (json : Bool) : Outcome :=
  match content with
  | .ok source => listTokens source json
  | .error e => readFailure name e

/-- Runs a command, given what is on standard input and what its path leads to. -/
def run (colored : Bool) (stdin : Except ReadError String) (found : Except ReadError FileTree) :
    Command → Outcome
  | tokens .standard json => tokensOf "stdin" stdin json
  | tokens (.path path) json => tokensOf path (found.bind (FileTree.read path)) json
  | parse .standard json options => parseStandard colored stdin json options
  | parse (.path path) json options => parsePath colored path found json options

end Command

end PulseSyntax
