import PulseSyntax.Parser.Basic

namespace PulseSyntax

inductive Input where
  | standard
  | path (path : String)
deriving DecidableEq, Repr

inductive Command where
  | tokens (input : Input) (json : Bool)
  | parse (input : Input) (json : Bool) (options : Options)
deriving DecidableEq, Repr

/-- Why no command runs: help is asked for, or the arguments are wrong. -/
inductive Refusal where
  | help | usage
deriving DecidableEq, Repr

namespace Arguments

inductive Verb where
  | tokens | parse
deriving DecidableEq, Repr

def Verb.ofName? : String → Option Verb
  | "tokens" => some tokens
  | "parse" => some parse
  | _ => none

structure Given where
  path : Option String
  stdin : Bool
  json : Bool
  strictStyle : Bool
  maxDepth : Option Nat
deriving Repr

def Given.nothing : Given := ⟨none, false, false, false, none⟩

def number? (text : String) : Option Nat :=
  let digits := if text.startsWith "+" then text.toList.drop 1 else text.toList
  let n := digits.foldl (fun n c => n * 10 + (c.toNat - '0'.toNat)) 0
  if digits.isEmpty || !digits.all (·.isDigit) || Nat.pow 2 64 ≤ n then none else some n

def shortFlags? (arg : String) : Option (List Char) :=
  match arg.toList with
  | '-' :: c :: cs => if c == '-' then none else some (c :: cs)
  | _ => none

/-- Flags that every command takes: those that ask for more messages, which none shows here, and
    those that ask for help. -/
def general? (arg : String) : Option (Except Refusal Unit) :=
  if arg == "--verbose" then some (.ok ())
  else if arg == "--help" then some (.error .help)
  else match shortFlags? arg with
    | none => none
    | some flags => some <|
      match flags.dropWhile (· == 'v') with
      | [] => .ok ()
      | c :: _ => .error (if c == 'h' then .help else .usage)

def Given.addPath (g : Given) (path : String) : Except Refusal Given :=
  if path == "" || g.path.isSome then .error .usage else .ok { g with path := some path }

def Given.addDepth (g : Given) (text : String) : Except Refusal Given :=
  match g.maxDepth, number? text with
  | none, some n => .ok { g with maxDepth := some n }
  | _, _ => .error .usage

def depthText? (arg : String) : Option String :=
  if arg.startsWith "--max-depth=" then some (arg.drop 12).toString else none

/-- Reads the arguments of a command. Each flag is taken once; after `--` all are paths. -/
def read (verb : Verb) (g : Given) : List String → Except Refusal Given
  | [] => .ok g
  | "--" :: paths => paths.foldlM Given.addPath g
  | "--stdin" :: rest =>
    if g.stdin then .error .usage else read verb { g with stdin := true } rest
  | "--json" :: rest =>
    if g.json then .error .usage else read verb { g with json := true } rest
  | arg :: rest =>
    if verb == .parse && arg == "--strict-style" then
      if g.strictStyle then .error .usage else read verb { g with strictStyle := true } rest
    else if verb == .parse && arg == "--max-depth" then
      match rest with
      | [] => .error .usage
      | text :: rest => do read verb (← g.addDepth text) rest
    else match if verb == .parse then depthText? arg else none with
      | some text => do read verb (← g.addDepth text) rest
      | none =>
        match general? arg with
        | some (.ok ()) => read verb g rest
        | some (.error refusal) => .error refusal
        | none =>
          if arg.startsWith "-" && arg != "-" then .error .usage
          else do read verb (← g.addPath arg) rest

def Given.input (g : Given) : Except Refusal Input :=
  if g.stdin then .ok .standard
  else match g.path with
    | some path => .ok (.path path)
    | none => .error .usage

def Given.command (g : Given) : Verb → Except Refusal Command
  | .tokens => do return .tokens (← g.input) g.json
  | .parse => do
    return .parse (← g.input) g.json ⟨!g.strictStyle, g.maxDepth.getD Options.standard.maxDepth⟩

def command : List String → Except Refusal Command
  | [] => .error .usage
  | "help" :: rest =>
    match rest with
    | [] => .error .help
    | [name] => .error (if (Verb.ofName? name).isSome || name == "help" then .help else .usage)
    | _ => .error .usage
  | arg :: rest =>
    match Verb.ofName? arg with
    | some verb => do (← read verb .nothing rest).command verb
    | none =>
      match general? arg with
      | some (.ok ()) => command rest
      | some (.error refusal) => .error refusal
      | none => .error .usage

end Arguments

end PulseSyntax
