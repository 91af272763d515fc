import PulseSyntax.Parser.Basic

namespace PulseSyntax.Parser

def iterate (step : σ → Parser (ForInStep σ)) : Nat → σ → Parser σ
  | 0, state => pure state
  | rounds + 1, state => do
    match ← step state with
    | .done state => return state
    | .yield state => iterate step rounds state

def loop (step : σ → Parser (ForInStep σ)) (state : σ) : Parser σ := fun scope s =>
  iterate step (scope.stream.size - s.cursor + 1) state scope s

def chainRound (step : α → Parser (Option α)) (a : α) : Parser (ForInStep α) := do
  match ← step a with
  | some next => return .yield next
  | none => return .done a

def chain (step : α → Parser (Option α)) (first : α) : Parser α := loop (chainRound step) first

/-- Reads items up to a closing symbol or the end of the file, which are not read. An item may
    depend on those before it. -/
def manyAfter (close : Symbol) (item : Array α → Parser α) : Parser (List α) := do
  let items ← loop (fun (items : Array α) => do
    let kind := (← current).kind
    if kind == .symbol close || kind == .endOfFile then return .done items
    else return .yield (items.push (← item items))) #[]
  return items.toList

def many (close : Symbol) (item : Parser α) : Parser (List α) := manyAfter close fun _ => item

/-- One more item and the comma after it. Without a comma there are no more. -/
def commaRound (close : Symbol) (item : Array α → Parser α) (items : Array α) :
    Parser (ForInStep (Array α)) := do
  if ← isSymbol close then return .done items
  else
    let items := items.push (← item items)
    if ← eatSymbol .comma then return .yield items else return .done items

/-- Reads items with commas between them, up to a closing symbol that is not read; a comma may
    stand before it. An item may depend on those before it. -/
def commaSeparatedAfter (close : Symbol) (item : Array α → Parser α) : Parser (List α) := do
  let items ← loop (commaRound close item) #[]
  return items.toList

def commaSeparated (close : Symbol) (item : Parser α) : Parser (List α) :=
  commaSeparatedAfter close fun _ => item

def skipSeparators : Parser Unit :=
  loop (fun _ => do
    let kind := (← current).kind
    if kind == .symbol .comma || kind == .symbol .semicolon then
      let _ ← advance
      return .yield ()
    else return .done ()) ()

def entry (item : Parser α) : Parser α := do
  let a ← item
  skipSeparators
  return a

/-- Reads the entries of a block, each of which adds to a state, up to its closing brace or the end
    of the file, which are not read. -/
def foldEntries (add : σ → Parser σ) (state : σ) : Parser σ :=
  loop (fun state => do
    let kind := (← current).kind
    if kind == .symbol .closeBrace || kind == .endOfFile then return .done state
    else return .yield (← entry (add state))) state

/-- Reads `open item* close` and answers with the items and the span of the whole. -/
def braced (item : Parser α) : Parser (List α × Span) := do
  let opening ← expectSymbol .openBrace
  let items ← many .closeBrace item
  let closing ← expectSymbol .closeBrace
  return (items, opening.span.cover closing.span)

end PulseSyntax.Parser
