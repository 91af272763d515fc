import PulseSyntax.Token.Stream

namespace PulseSyntax

/-- The kind of the first of the tokens, or else the end of the file. -/
def firstKind : List Token → TokenKind
  | [] => .endOfFile
  | t :: _ => t.kind

namespace TokenStream

variable {stream : TokenStream} {i : Nat} {t : Token} {rest : List Token}

theorem get_eq (stream : TokenStream) (i : Nat) :
    stream.get i = (stream.toList[i]?).getD stream.last := by
  simp [get, toList]

theorem get_of_tokensFrom (h : stream.tokensFrom i = t :: rest) : stream.get i = t := by
  rw [tokensFrom_eq] at h
  have at_i : stream.toList[i]? = some t := by
    have head := congrArg List.head? h
    rwa [List.head?_drop] at head
  rw [get_eq, at_i, Option.getD_some]

theorem tokensFrom_add (stream : TokenStream) (i n : Nat) :
    stream.tokensFrom (i + n) = (stream.tokensFrom i).drop n := by
  rw [tokensFrom_eq, tokensFrom_eq, List.drop_drop]

theorem tokensFrom_succ (h : stream.tokensFrom i = t :: rest) :
    stream.tokensFrom (i + 1) = rest := by
  rw [tokensFrom_add, h, List.drop_one, List.tail_cons]

theorem tokensFrom_append {own : List Token} (h : stream.tokensFrom i = own ++ rest) :
    stream.tokensFrom (i + own.length) = rest := by
  rw [tokensFrom_add, h, List.drop_left]

theorem between_of_tokensFrom {own : List Token} (h : stream.tokensFrom i = own ++ rest) :
    stream.between i (i + own.length) = own := by
  rw [tokensFrom_eq, toList] at h
  rw [between, Array.toList_extract, List.extract_eq_take_drop, Nat.add_sub_cancel_left, h,
    List.take_left]

theorem between_self (stream : TokenStream) (i : Nat) : stream.between i i = [] := by
  simp [between]

theorem exists_tokensFrom (h : i < stream.size) :
    ∃ rest, stream.tokensFrom i = stream.get i :: rest := by
  have bound : i < stream.toList.length := h
  refine ⟨stream.toList.drop (i + 1), ?_⟩
  rw [tokensFrom_eq, get_eq, List.getElem?_eq_getElem bound, Option.getD_some,
    List.getElem_cons_drop]

theorem get_kind_of_size_le (h : stream.size ≤ i + 1) : (stream.get i).kind = .endOfFile := by
  rw [get_eq]
  rcases Nat.lt_or_ge i stream.toList.length with inside | beyond
  · have last : i = stream.tokens.size - 1 := by
      simp only [toList, Array.length_toList] at inside
      simp only [size] at h
      omega
    subst last
    have close := stream.last_kind
    rwa [List.getElem?_eq_getElem inside]
  · rw [List.getElem?_eq_none beyond]
    exact stream.last_kind

theorem firstKind_tokensFrom (stream : TokenStream) (i : Nat) :
    firstKind (stream.tokensFrom i) = (stream.get i).kind := by
  rcases Nat.lt_or_ge i stream.size with inside | beyond
  · obtain ⟨rest, tokens⟩ := exists_tokensFrom inside
    rw [tokens, firstKind]
  · have none : stream.toList.drop i = [] := List.drop_eq_nil_of_le beyond
    rw [tokensFrom_eq, none, firstKind, get_kind_of_size_le (Nat.le_succ_of_le beyond)]

theorem lt_size_of_kind_ne (h : (stream.get i).kind ≠ .endOfFile) : i + 1 < stream.size :=
  Nat.lt_of_not_le fun beyond => h (get_kind_of_size_le beyond)

theorem tokensFrom_of_kind_ne (h : (stream.get i).kind ≠ .endOfFile) :
    stream.tokensFrom i = stream.get i :: stream.tokensFrom (i + 1) := by
  have inside : i < stream.size := Nat.lt_of_succ_lt (lt_size_of_kind_ne h)
  obtain ⟨rest, whole⟩ := exists_tokensFrom inside
  rw [tokensFrom_succ whole, whole]

end TokenStream

/-- The number of braces that are open after tokens before which `depth` are open, if none closes
    that is not open. -/
def openBraces? : Nat → List Token → Option Nat
  | depth, [] => some depth
  | depth, t :: rest =>
    match t.kind with
    | .symbol .openBrace => openBraces? (depth + 1) rest
    | .symbol .closeBrace =>
      match depth with
      | 0 => none
      | depth + 1 => openBraces? depth rest
    | _ => openBraces? depth rest

/-- Every brace among the tokens has its partner among them. -/
def BracesMatch (tokens : List Token) : Prop := openBraces? 0 tokens = some 0

instance (tokens : List Token) : Decidable (BracesMatch tokens) :=
  inferInstanceAs (Decidable (openBraces? 0 tokens = some 0))

def TokenKind.isBrace : TokenKind → Bool
  | .symbol .openBrace | .symbol .closeBrace => true
  | _ => false

theorem TokenKind.not_isBrace_of_isName {kind : TokenKind} (h : kind.isName) :
    kind.isBrace = false := by
  cases kind with
  | symbol sign => simp [isName, isContextualKeyword] at h
  | _ => rfl

theorem TokenKind.not_isBrace_of_isKeyword {kind : TokenKind} (h : kind.isKeyword) :
    kind.isBrace = false := by
  cases kind with
  | keyword => rfl
  | _ => cases h

theorem TokenKind.not_isBrace_of_word {kind : TokenKind}
    (h : kind = .identifier ∨ kind.isKeyword) : kind.isBrace = false := by
  rcases h with rfl | keyword
  · rfl
  · exact not_isBrace_of_isKeyword keyword

theorem TokenKind.not_isBrace_of_ne {kind : TokenKind} (h : kind ≠ .symbol .openBrace)
    (h' : kind ≠ .symbol .closeBrace) : kind.isBrace = false := by
  unfold isBrace
  split
  · contradiction
  · contradiction
  · rfl

theorem TokenKind.eq_of_isBrace {kind : TokenKind} (h : kind.isBrace) :
    kind = .symbol .openBrace ∨ kind = .symbol .closeBrace := by
  unfold isBrace at h
  split at h
  · exact .inl rfl
  · exact .inr rfl
  · cases h

section

variable {xs ys : List Token} {t : Token} {depth d : Nat}

theorem openBraces?_cons (depth : Nat) (t : Token) (xs : List Token) :
    openBraces? depth (t :: xs) = (openBraces? depth [t]).bind (openBraces? · xs) := by
  obtain ⟨kind, _⟩ := t
  cases kind with
  | symbol sign =>
    cases sign with
    | closeBrace => cases depth <;> rfl
    | _ => rfl
  | _ => rfl

theorem openBraces?_plain (h : t.kind.isBrace = false) : openBraces? depth [t] = some depth := by
  obtain ⟨kind, _⟩ := t
  cases kind with
  | symbol sign =>
    cases sign with
    | openBrace | closeBrace => cases h
    | _ => rfl
  | _ => rfl

theorem openBraces?_opening (h : t.kind = .symbol .openBrace) :
    openBraces? depth [t] = some (depth + 1) := by
  obtain ⟨kind, _⟩ := t
  cases h
  rfl

theorem openBraces?_closing (h : t.kind = .symbol .closeBrace) :
    openBraces? (depth + 1) [t] = some depth := by
  obtain ⟨kind, _⟩ := t
  cases h
  rfl

theorem openBraces?_append (xs ys : List Token) (depth : Nat) :
    openBraces? depth (xs ++ ys) = (openBraces? depth xs).bind (openBraces? · ys) := by
  induction xs generalizing depth with
  | nil => rfl
  | cons t xs ih =>
    rw [List.cons_append, openBraces?_cons, openBraces?_cons depth t xs, Option.bind_assoc]
    exact congrArg _ (funext fun d => ih d)

theorem openBraces?_add (h : openBraces? depth xs = some d) (more : Nat) :
    openBraces? (depth + more) xs = some (d + more) := by
  induction xs generalizing depth with
  | nil => cases h; rfl
  | cons t xs ih =>
    simp only [openBraces?] at h ⊢
    split at h
    · rw [Nat.add_right_comm]
      exact ih h
    · cases depth with
      | zero => cases h
      | succ depth =>
        rw [Nat.add_right_comm]
        exact ih h
    · exact ih h

end

/-- From index `i` up to `j` the tokens leave `depth` braces open, and close none that is not. -/
structure TokenStream.Open (stream : TokenStream) (i j depth : Nat) : Prop where
  le : i ≤ j
  inside : i < j → j < stream.size
  braces : openBraces? 0 (stream.between i j) = some depth

namespace TokenStream

theorem between_append (stream : TokenStream) {i j k : Nat} (hi : i ≤ j) (hj : j ≤ k) :
    stream.between i k = stream.between i j ++ stream.between j k := by
  rw [between, between, between, ← Array.toList_append, Array.extract_append_extract,
    Nat.min_eq_left hi, Nat.max_eq_right hj]

theorem between_append_tokensFrom (stream : TokenStream) {i j : Nat} (le : i ≤ j) :
    stream.between i j ++ stream.tokensFrom j = stream.tokensFrom i := by
  obtain ⟨n, rfl⟩ := Nat.exists_eq_add_of_le le
  rw [tokensFrom_add, tokensFrom_eq, between, Array.toList_extract, List.extract_eq_take_drop,
    Nat.add_sub_cancel_left]
  exact List.take_append_drop ..

theorem between_succ {stream : TokenStream} {i : Nat} (h : i < stream.size) :
    stream.between i (i + 1) = [stream.get i] := by
  obtain ⟨rest, tokens⟩ := exists_tokensFrom h
  have own : stream.tokensFrom i = [stream.get i] ++ rest := tokens
  exact between_of_tokensFrom own

section

variable {stream : TokenStream} {i j k : Nat}

theorem between_eq (stream : TokenStream) (i j : Nat) :
    stream.between i j = (stream.toList.drop i).take (j - i) := by
  rw [between, Array.toList_extract, List.extract_eq_take_drop]
  rfl

theorem length_between (size : j ≤ stream.size) : (stream.between i j).length = j - i := by
  have size : j ≤ stream.tokens.size := size
  rw [between, Array.length_toList, Array.size_extract, Nat.min_eq_left size]

theorem between_congr {other : TokenStream} (n : Nat) (le : i + n ≤ stream.size) (le' : j + n ≤ other.size)
    (same : ∀ k, k < n → stream.get (i + k) = other.get (j + k)) :
    stream.between i (i + n) = other.between j (j + n) := by
  induction n with
  | zero => rw [Nat.add_zero, Nat.add_zero, between_self, between_self]
  | succ n ih =>
    have last {stream : TokenStream} {i : Nat} (le : i + n + 1 ≤ stream.size) :
        stream.between i (i + n + 1) = stream.between i (i + n) ++ [stream.get (i + n)] := by
      rw [stream.between_append (Nat.le_add_right i n) (Nat.le_succ _), between_succ le]
    rw [← Nat.add_assoc, ← Nat.add_assoc, last le, last le', same n (Nat.lt_succ_self n),
      ih (Nat.le_of_succ_le le) (Nat.le_of_succ_le le') fun k lt => same k (Nat.lt_succ_of_lt lt)]

theorem exists_of_mem_between {t : Token}
    (member : t ∈ stream.between i j) : ∃ k, i ≤ k ∧ k < j ∧ stream.get k = t := by
  rw [between_eq] at member
  obtain ⟨n, lt, rfl⟩ := List.mem_iff_getElem.mp member
  rw [List.length_take, List.length_drop] at lt
  refine ⟨i + n, Nat.le_add_right i n, by omega, ?_⟩
  rw [get_eq, List.getElem?_eq_getElem (by omega), Option.getD_some, List.getElem_take,
    List.getElem_drop]

theorem get_mem_between (le : i ≤ k) (lt : k < j) (size : k < stream.size) :
    stream.get k ∈ stream.between i j := by
  rw [stream.between_append le (Nat.le_of_lt lt), stream.between_append (Nat.le_succ k) lt,
    between_succ size]
  simp

end

namespace Open

variable {stream : TokenStream} {i j k depth d : Nat}

theorem refl (stream : TokenStream) (i : Nat) : stream.Open i i 0 :=
  ⟨Nat.le_refl i, fun less => absurd less (Nat.lt_irrefl i), by rw [between_self]; rfl⟩

theorem trans (h : stream.Open i j depth) (h' : stream.Open j k d) :
    stream.Open i k (d + depth) where
  le := Nat.le_trans h.le h'.le
  inside less := by
    rcases Nat.eq_or_lt_of_le h'.le with rfl | further
    · exact h.inside less
    · exact h'.inside further
  braces := by
    rw [between_append stream h.le h'.le, openBraces?_append, h.braces]
    simpa using openBraces?_add h'.braces depth

theorem snoc (h : stream.Open i j depth) (he : (stream.get j).kind ≠ .endOfFile)
    (next : openBraces? depth [stream.get j] = some d) : stream.Open i (j + 1) d where
  le := Nat.le_succ_of_le h.le
  inside _ := lt_size_of_kind_ne he
  braces := by
    rw [between_append stream h.le (Nat.le_succ j), openBraces?_append, h.braces,
      between_succ (Nat.lt_of_succ_lt (lt_size_of_kind_ne he))]
    exact next

theorem before (h : stream.Open i j depth) (hi : i ≤ k) (hj : k ≤ j) :
    ∃ d, openBraces? 0 (stream.between i k) = some d := by
  have whole := h.braces
  rw [between_append stream hi hj, openBraces?_append] at whole
  obtain ⟨d, first, -⟩ := Option.bind_eq_some_iff.mp whole
  exact ⟨d, first⟩

end Open

end TokenStream

end PulseSyntax
