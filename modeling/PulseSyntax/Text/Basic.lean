namespace PulseSyntax.Text

def byteSize : List Char → Nat
  | [] => 0
  | c :: cs => c.utf8Size + byteSize cs

def dropBytes? : List Char → Nat → Option (List Char)
  | cs, 0 => some cs
  | [], _ + 1 => none
  | c :: cs, n + 1 => if c.utf8Size ≤ n + 1 then dropBytes? cs (n + 1 - c.utf8Size) else none

/-- The first `n` bytes, if a character ends there. -/
def takeBytes? : List Char → Nat → Option (List Char)
  | _, 0 => some []
  | [], _ + 1 => none
  | c :: cs, n + 1 =>
    if c.utf8Size ≤ n + 1 then (takeBytes? cs (n + 1 - c.utf8Size)).map (c :: ·) else none

/-- The text from byte `start` to byte `stop`, if both are boundaries of characters in order. -/
def slice? (text : List Char) (start stop : Nat) : Option (List Char) :=
  if start ≤ stop then (dropBytes? text start).bind (takeBytes? · (stop - start)) else none

theorem byteSize_append (a b : List Char) : byteSize (a ++ b) = byteSize a + byteSize b := by
  induction a with
  | nil => simp [byteSize]
  | cons c a ih => simp [byteSize, ih, Nat.add_assoc]

def withoutReturn (line : List Char) : List Char :=
  if line.getLast? == some '\r' then line.dropLast else line

/-- The lines that end with a line feed, and what is left after the last of them. -/
def splitLines : List Char → List (List Char) × List Char
  | [] => ([], [])
  | c :: cs =>
    if c == '\n' then ([] :: (splitLines cs).1, (splitLines cs).2)
    else match splitLines cs with
      | ([], rest) => ([], c :: rest)
      | (line :: ended, rest) => ((c :: line) :: ended, rest)

/-- The lines of a text. A carriage return at the end of an unended last line stays. -/
def lines (text : List Char) : List (List Char) :=
  let (ended, rest) := splitLines text
  ended.map withoutReturn ++ if rest.isEmpty then [] else [rest]

example : lines ['a', '\r', '\n', '\n', 'b', '\r'] = [['a'], [], ['b', '\r']] := by decide

example : lines ['a', '\n'] = [['a']] := by decide

def padLeft (width : Nat) (text : List Char) : List Char :=
  List.replicate (width - text.length) ' ' ++ text

def padRight (width : Nat) (text : List Char) : List Char :=
  text ++ List.replicate (width - text.length) ' '

def capitalized (text : String) : String :=
  match text.toList with
  | [] => text
  | c :: cs => String.ofList (c.toUpper :: cs)

/-- A capitalized compound in capitals, an underscore before each of its later parts. -/
def screaming (name : String) : String :=
  match name.toList with
  | [] => name
  | c :: cs => String.ofList (c.toUpper :: cs.flatMap fun d =>
      if d.isUpper then ['_', d] else [d.toUpper])

example : capitalized "beforeEach" = "BeforeEach" := by decide

example : screaming "EqEqEq" = "EQ_EQ_EQ" ∧ screaming "BigInt" = "BIG_INT" := by decide

end PulseSyntax.Text
