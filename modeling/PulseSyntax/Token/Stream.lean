import PulseSyntax.Token.Basic

namespace PulseSyntax

def suffixes : List α → List (List α)
  | [] => [[]]
  | a :: as => (a :: as) :: suffixes as

theorem getElem?_suffixes_getD (as : List α) (i : Nat) :
    (suffixes as)[i]?.getD [] = as.drop i := by
  induction as generalizing i with
  | nil => cases i <;> simp [suffixes]
  | cons a as ih => cases i <;> simp [suffixes, ih]

structure TokenStream where
  tokens : Array Token
  /-- The tokens from each index on. -/
  rests : Array (List Token)
  nonempty : 0 < tokens.size
  ends : (tokens.back nonempty).kind = .endOfFile
  rests_eq : ∀ i, rests[i]?.getD [] = tokens.toList.drop i

namespace TokenStream

def size (s : TokenStream) : Nat := s.tokens.size

/-- The end of the file that closes the sequence. -/
def last (s : TokenStream) : Token := s.tokens.back s.nonempty

/-- The token at an index; beyond the sequence, the end of the file. -/
def get (s : TokenStream) (i : Nat) : Token := s.tokens[i]?.getD s.last

def endAfter (t : Token) : Token where
  kind := .endOfFile
  value := .none
  raw := ""
  place := ⟨t.place.line, t.place.column + t.raw.length, ⟨t.span.stop, t.span.stop⟩⟩

def ofEnded (tokens : List Token) (last : Token) (h : tokens.getLast? = some last)
    (hk : last.kind = .endOfFile) : TokenStream where
  tokens := tokens.toArray
  rests := (suffixes tokens).toArray
  nonempty := by cases tokens <;> simp_all
  ends := by
    obtain ⟨_, hl⟩ := List.getLast?_eq_some_iff.1 h
    simp [hl, Array.back, hk]
  rests_eq i := by simpa using getElem?_suffixes_getD tokens i

/-- The sequence of a list; an end of the file is added where it is missing. -/
def ofList (tokens : List Token) : TokenStream :=
  match h : tokens.getLast? with
  | none => ofEnded [.endOfFile .origin] _ rfl rfl
  | some t =>
    if ht : t.kind = .endOfFile then ofEnded tokens t h ht
    else ofEnded (tokens ++ [endAfter t]) (endAfter t) (by simp) rfl

def toList (s : TokenStream) : List Token := s.tokens.toList

def tokensFrom (s : TokenStream) (i : Nat) : List Token := s.rests[i]?.getD []

def between (s : TokenStream) (i j : Nat) : List Token := (s.tokens.extract i j).toList

theorem tokensFrom_eq (s : TokenStream) (i : Nat) : s.tokensFrom i = s.toList.drop i := s.rests_eq i

theorem last_kind (s : TokenStream) : s.last.kind = .endOfFile := s.ends

end TokenStream

end PulseSyntax

namespace PulseSyntax

/-- The tokens from index `start` up to, not including, `stop`. -/
structure TokenRange where
  start : Nat
  stop : Nat
deriving DecidableEq, Repr, Inhabited

namespace TokenRange

def length (r : TokenRange) : Nat := r.stop - r.start

def isEmpty (r : TokenRange) : Bool := r.length == 0

/-- The tokens of the range; of a range that passes the end, those up to the end. -/
def tokens (r : TokenRange) (all : List Token) : List Token :=
  (all.drop r.start).take r.length

/-- The part of a text from the first token of the range to its last one, given the span of each
    token. An empty range, and one that passes the end, have no text. -/
def text (r : TokenRange) (source : List Char) (spans : List Span) : List Char :=
  match spans[r.start]?, spans[r.stop - 1]? with
  | some first, some last =>
    if r.isEmpty then [] else (Text.slice? source first.start last.stop).getD []
  | _, _ => []

end TokenRange

end PulseSyntax
