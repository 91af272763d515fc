import PulseSyntax.Proofs.Expr.Room
import PulseSyntax.Proofs.Markup.Balance
import PulseSyntax.Proofs.Markup.Nodes

namespace PulseSyntax

open PulseSyntax.Parser Lexeme

/-- A fragment that is kept as it was parsed: no function has a block, and no text an
    interpolation. -/
def Fragment.IsPlain : Fragment → Prop
  | body .. => True
  | expression e => ArePlain e.arrows
  | text t => t.isInterpolated = false

instance : (f : Fragment) → Decidable f.IsPlain
  | .body .. => .isTrue trivial
  | .expression e => inferInstanceAs (Decidable (ArePlain e.arrows))
  | .text t => inferInstanceAs (Decidable (t.isInterpolated = false))

def Fragment.ArePlain (fs : List Fragment) : Prop := ∀ f ∈ fs, f.IsPlain

instance (fs : List Fragment) : Decidable (Fragment.ArePlain fs) :=
  inferInstanceAs (Decidable (∀ f ∈ fs, f.IsPlain))

namespace Fragment

variable {α : Type} {fs gs : List Fragment} {e : Expr} {t : TextNode} {xs : List α}
  {f : α → List Fragment} {es : List Expr} {ts : List TextNode}

@[simp] theorem arePlain_nil : ArePlain [] := fun _ member => nomatch member

@[simp] theorem arePlain_expression :
    ArePlain (.expression e :: fs) ↔ PulseSyntax.ArePlain e.arrows ∧ ArePlain fs :=
  List.forall_mem_cons

@[simp] theorem arePlain_text : ArePlain (.text t :: fs) ↔ t.isInterpolated = false ∧ ArePlain fs :=
  List.forall_mem_cons

@[simp] theorem arePlain_append : ArePlain (fs ++ gs) ↔ ArePlain fs ∧ ArePlain gs :=
  List.forall_mem_append

@[simp] theorem arePlain_flatMap : ArePlain (xs.flatMap f) ↔ ∀ x ∈ xs, ArePlain (f x) :=
  List.forall_mem_flatMap

@[simp] theorem arePlain_expressions :
    ArePlain (es.map .expression) ↔ ∀ e ∈ es, PulseSyntax.ArePlain e.arrows := List.forall_mem_map

@[simp] theorem arePlain_texts :
    ArePlain (ts.map .text) ↔ ∀ t ∈ ts, t.isInterpolated = false := List.forall_mem_map

end Fragment

variable {scope : Scope} {first depth braces levels : Nat} {s : ParserState} {expr : Parser Expr}

namespace Expr

/-- The expression can be written within so many levels, unless one of its functions has a block. -/
def CanWriteIn (levels : Nat) (e : Expr) : Prop := ArePlain e.arrows → e.IsWritableIn levels

def ItemCanWriteIn (levels : Nat) (e : Expr) : Prop := ArePlain e.arrows → e.ItemIsWritableIn levels

theorem CanWriteIn.item {e : Expr} (h : e.CanWriteIn levels) : e.ItemCanWriteIn levels :=
  fun plain => ⟨CanWrite.item (fun plain => (h plain).1) plain, (h plain).2⟩

theorem parser_findsIn (spelled : scope.IsSpelled first) :
    Finds scope first depth (CanWriteIn (scope.options.maxDepth - depth)) parser := by
  intro braces s o
  refine ((parser_finds spelled o).and parser_room).mono fun e t found => ?_
  obtain ⟨⟨o', writable⟩, room⟩ := found
  rw [o.depth] at room
  exact ⟨o', fun plain => ⟨writable plain, room plain⟩⟩

theorem arguments_findsIn (h : Finds scope first depth (CanWriteIn levels) expr) :
    Finds scope first depth (∀ e ∈ ·.1, e.ItemCanWriteIn levels) (arguments expr) :=
  finds_arguments h (fun _ _ writable => writable) fun _ writable => writable.item

end Expr

namespace ParserState.InBlock

theorem spelled_afterAt (o : s.InBlock scope first depth braces) (h : scope.IsSpelled first)
    (atSign : (scope.stream.get s.cursor).kind = .symbol .atSign) :
    (scope.stream.get (s.cursor + 1)).own.IsSpelled true := by
  have here := o.braces.read atSign rfl
  rw [ParserState.next_of_kind atSign (by simp)] at here
  have spelled := h here
  change IsSpelled ((scope.stream.get s.cursor).kind == .symbol .atSign) _ at spelled
  rwa [atSign, beq_self_eq_true] at spelled

end ParserState.InBlock

def Scope.IsBeforeWord (scope : Scope) (i : Nat) : Prop :=
  (scope.stream.get (i + 1)).kind = .identifier ∨ (scope.stream.get (i + 1)).kind.isKeyword

theorem Scope.IsBeforeWord.next (h : scope.IsBeforeWord s.cursor)
    (atSign : (scope.stream.get s.cursor).kind = .symbol .atSign) :
    (s.next scope).next scope = s.ahead 2 := by
  have noEnd : (scope.stream.get (s.ahead 1).cursor).kind ≠ .endOfFile := by
    intro atEnd
    change (scope.stream.get (s.cursor + 1)).kind = .endOfFile at atEnd
    rw [Scope.IsBeforeWord, atEnd] at h
    rcases h with h | h <;> cases h
  rw [ParserState.next_of_kind atSign (by simp), ParserState.next_of_kind rfl noEnd]
  rfl

theorem ParserState.InBlock.readHead (o : s.InBlock scope first depth braces)
    (atSign : (scope.stream.get s.cursor).kind = .symbol .atSign) (name : scope.IsBeforeWord s.cursor) :
    ((s.next scope).next scope).InBlock scope first depth braces := by
  have braces' := o.braces.readTwo atSign (by simp) rfl rfl (TokenKind.not_isBrace_of_word name)
  rw [name.next atSign] at braces' ⊢
  refine ⟨o.depth, braces', fun same => ?_⟩
  change (scope.stream.get (s.cursor + 1)).kind = .symbol .atSign at same
  rw [Scope.IsBeforeWord, same] at name
  rcases name with name | name <;> cases name

theorem IsAttributeName.snoc {name : String} {text : List Char} (h : IsAttributeName name)
    (isWord : Word.IsWord text) : IsAttributeName (name ++ "-" ++ String.ofList text) := by
  obtain ⟨first, others, same, head, isName, words⟩ := h
  refine ⟨first, others ++ [text], by simp [same], head, isName, ?_⟩
  simpa [or_imp, forall_and] using ⟨words, isWord⟩

theorem ParserState.InBlock.word_of_isName (o : s.InBlock scope first depth braces)
    (spelled : scope.IsSpelled first) (name : (scope.stream.get s.cursor).kind.isName) :
    Word.IsWord (scope.stream.get s.cursor).raw.toList ∧
      (word (scope.stream.get s.cursor).raw).kind.isName := by
  obtain ⟨isWord, own⟩ := Expr.word_of_isSpelled (o.spelled spelled) (by
    rcases Expr.kind_of_isName name with kind | ⟨word, kind, -⟩ <;> simp [kind, TokenKind.isKeyword])
  exact ⟨isWord, own ▸ name⟩

theorem ParserState.InBlock.word_of_identifier (o : s.InBlock scope first depth braces)
    (spelled : scope.IsSpelled first) (kind : (scope.stream.get s.cursor).kind = .identifier) :
    Word.IsWord (scope.stream.get s.cursor).raw.toList ∧
      (word (scope.stream.get s.cursor).raw).kind = .identifier := by
  obtain ⟨isWord, own⟩ := Expr.word_of_isSpelled (o.spelled spelled) (.inl kind)
  exact ⟨isWord, own ▸ kind⟩

theorem finds_attributeName (spelled : scope.IsSpelled first) :
    Finds scope first depth (IsAttributeName ·.1) attributeName := by
  intro braces s o
  simp only [attributeName_eq, yields_bind, yields_expectName]
  intro name
  refine Finds.chain (I := fun a : String × Span => IsAttributeName a.1) (fun a holds => ?_) ?_
    (o.readName name)
  · intro braces s o
    obtain ⟨name, span⟩ := a
    simp [hyphenPart]
    refine ⟨fun minus _ _ isWord => ?_, fun _ => o⟩
    have o := o.read minus rfl (by simp)
    have next : (s.next scope).cursor = s.cursor + 1 := by
      rw [ParserState.next_of_kind minus (by simp)]
      rfl
    rw [← next] at isWord ⊢
    obtain ⟨own, -⟩ := Expr.word_of_isSpelled (o.spelled spelled) isWord
    refine ⟨o.readWord isWord, ?_⟩
    simpa using holds.snoc own
  · obtain ⟨isWord, kind⟩ := o.word_of_isName spelled name
    exact ⟨_, [], by simp, isWord, by rwa [String.ofList_toList], by simp⟩

namespace ElementProp

theorem finds_namedParser (h : Finds scope first depth (Expr.CanWriteIn levels) expr)
    (spelled : scope.IsSpelled first) :
    Finds scope first depth (fun p => Fragment.ArePlain p.fragments → p.IsWritable levels)
      (namedParser expr) := by
  have valued {name : String} {e : Expr} (isName : IsAttributeName name)
      (writable : e.CanWriteIn levels) (span : Span) :
      Fragment.ArePlain (named name e false span).fragments →
        (named name e false span).IsWritable levels := by
    intro plain
    simp [fragments, ElementProp.expr] at plain
    exact ⟨isName, writable plain⟩
  intro braces s o
  simp [namedParser]
  refine (finds_attributeName spelled).step o fun name t o isName => ⟨fun eq => ?_, fun _ => ⟨o, ?_⟩⟩
  · have o := o.read eq rfl (by simp)
    refine ⟨fun opening => ?_, fun _ => ?_⟩
    · exact h.step (o.opening opening) fun e t o writable closing =>
        ⟨o.closing closing, valued isName writable _⟩
    · exact h.step o fun e t o writable => ⟨o, valued isName writable _⟩
  · exact fun _ => ⟨isName, _, rfl⟩

theorem parser_finds (h : Finds scope first depth (Expr.CanWriteIn levels) expr)
    (spelled : scope.IsSpelled first) :
    Finds scope first depth (fun p => Fragment.ArePlain p.fragments → p.IsWritable levels)
      (parser expr) := by
  intro braces s o
  simp [parser]
  refine ⟨fun sign => h.step (o.read sign rfl (by simp)) fun e t o writable => ⟨o, fun plain => ?_⟩,
    fun _ => finds_namedParser h spelled o⟩
  simp [fragments, ElementProp.expr] at plain
  exact writable plain

theorem finds_listParser (h : Finds scope first depth (Expr.CanWriteIn levels) expr)
    (spelled : scope.IsSpelled first) :
    Finds scope first depth (∀ p ∈ ·, Fragment.ArePlain p.fragments → p.IsWritable levels)
      (listParser expr) := by
  intro braces s o
  simp [listParser]
  intro opening
  exact (Finds.commaSeparated _ (parser_finds h spelled)).step (o.read opening rfl (by simp))
    fun props t o writable closing => ⟨o.read closing rfl (by simp), writable⟩

end ElementProp

theorem directive_of_isSpelled {t : Token} (spelled : t.own.IsSpelled true)
    (kind : t.kind = .identifier) :
    Word.IsDirective t.text.toList ∧ (directive t.text.toList).kind = .identifier := by
  have named : t.own.IsName true := by simpa [Lexeme.IsSpelled, Token.own, kind] using spelled
  obtain ⟨name, isDirective, -, same, own, -⟩ := named
  have text : t.text = String.ofList name := text_of_own (own kind)
  rw [text, String.toList_ofList]
  exact ⟨isDirective, same.symm.trans kind⟩

theorem modifier_of_isSpelled {t : Token} (spelled : t.own.IsSpelled false) (kind : t.kind = .modifier) :
    Word.IsWord t.text.toList := by
  obtain ⟨name, isWord, own⟩ : ∃ name, Word.IsWord name ∧ t.own = modifier name := by
    simpa [Lexeme.IsSpelled, Token.own, kind] using spelled
  have text : t.text = String.ofList name := text_of_own own
  rwa [text, String.toList_ofList]

theorem yields_directiveHead_words (spelled : scope.IsSpelled first)
    (o : s.InBlock scope first depth braces) (name : scope.IsBeforeWord s.cursor)
    (allowModifiers : Bool) :
    Yields (directiveHead allowModifiers) scope s fun head t =>
      t.InBlock scope first depth braces ∧ ∀ m ∈ head.1, Word.IsWord m.text.toList := by
  simp only [directiveHead_eq, yields_bind, yields_expectSymbol, yields_advance, yields_pure]
  intro atSign
  refine (Finds.chain (I := fun a : Array Token × Span => ∀ m ∈ a.1, Word.IsWord m.text.toList)
    (fun a words => ?_) (by simp)).step (o.readHead atSign name)
      fun head t o words => ⟨o, by simpa using words⟩
  intro braces s o
  obtain ⟨modifiers, span⟩ := a
  simp [modifierPart]
  refine ⟨fun kind _ => ⟨o.read kind rfl (by simp), ?_⟩, fun _ => o⟩
  have word := modifier_of_isSpelled (o.spelled spelled) kind
  simpa [or_imp, forall_and] using ⟨words, word⟩

theorem yields_plainHead_in (spelled : scope.IsSpelled first)
    (o : s.InBlock scope first depth braces) (name : scope.IsBeforeWord s.cursor) :
    Yields plainHead scope s fun _ t => t.InBlock scope first depth braces := by
  simp only [plainHead, yields_bind, yields_pure]
  exact (yields_directiveHead_words spelled o name _).mono fun _ t found => found.1

theorem EventHandler.parser_canWrite (h : Finds scope first depth (Expr.CanWriteIn levels) expr)
    (spelled : scope.IsSpelled first) (o : s.InBlock scope first depth braces)
    (atSign : (scope.stream.get s.cursor).kind = .symbol .atSign)
    (name : (scope.stream.get (s.cursor + 1)).kind = .identifier)
    (free : (scope.stream.get (s.cursor + 1)).text ∉ reserved) :
    Yields (parser expr) scope s fun a t => t.InBlock scope first depth braces ∧
      (Fragment.ArePlain a.1.fragments → a.1.IsWritable levels) := by
  obtain ⟨isDirective, plain⟩ := directive_of_isSpelled (o.spelled_afterAt spelled atSign) name
  simp [parser]
  refine (yields_directiveHead_words spelled o (.inl name) _).mono fun head t found =>
    ⟨fun _ => ⟨found.1, ?_⟩, fun _ => ?_⟩
  · exact ⟨isDirective, plain, free, by simpa using found.2, by simp⟩
  · refine (Expr.arguments_findsIn h).step found.1 fun args t o writable => ?_
    split
    · simp
    · refine yields_pure.mpr ⟨o, fun inner => ?_⟩
      refine ⟨isDirective, plain, free, by simpa using found.2, fun e own => ?_⟩
      simp at inner
      exact writable e (List.mem_of_mem_head? own) (inner e own)

theorem yields_plainHead_exactly (name : scope.IsBeforeWord s.cursor) :
    Yields plainHead scope s fun _ t => t.cursor = s.cursor + 2 := by
  simp only [plainHead, directiveHead_eq, yields_bind, yields_expectSymbol, yields_advance, yields_pure]
  intro atSign
  refine yields_loop (I := fun _ u => u.cursor = s.cursor + 2) (fun a u same => ?_) ?_
  · obtain ⟨modifiers, span⟩ := a
    simp [chainRound, modifierPart]
    exact fun _ => same
  · rw [name.next atSign]
    rfl

theorem BoundaryTarget.parser_reads (spelled : scope.IsSpelled first)
    (o : s.InBlock scope first depth braces) (name : scope.IsBeforeWord s.cursor) :
    Yields parser scope s fun _ t =>
      t.InBlock scope first depth braces ∧ t.cursor = s.cursor + 2 := by
  simp [parser]
  exact ((yields_plainHead_in spelled o name).and (yields_plainHead_exactly name)).mono
    fun _ _ found _ => found

variable {inner : MarkupInner}

theorem MarkupInner.finds_condition (h : Finds scope first depth (Expr.CanWriteIn levels) inner.expr) :
    Finds scope first depth (Expr.CanWriteIn levels) inner.condition := by
  intro braces s o
  simp [condition]
  exact fun opening => h.step (o.read opening rfl (by simp)) fun e t o writable closing =>
    ⟨o.read closing rfl (by simp), writable⟩

namespace Directive

theorem finds_modelModifiers (ts : List Token) :
    Finds scope first depth (fun _ => True) (modelModifiers ts) := by
  induction ts with
  | nil => exact fun braces s o => yields_pure.mpr ⟨o, trivial⟩
  | cons t ts ih =>
    intro braces s o
    unfold modelModifiers
    split
    · exact yields_failAt.mpr trivial
    · exact yields_bind.mpr (ih.step o fun _ t o _ => yields_pure.mpr ⟨o, trivial⟩)

/-- The directive is read, and can be written if it is plain. -/
def CanWrite (scope : Scope) (first depth braces levels : Nat) (d : Directive) (t : ParserState) :
    Prop :=
  t.InBlock scope first depth braces ∧ (Fragment.ArePlain d.fragments → d.IsWritable levels)

theorem modelParser_canWrite (h : Finds scope first depth (Expr.CanWriteIn levels) inner.expr)
    (spelled : scope.IsSpelled first) (o : s.InBlock scope first depth braces)
    (name : scope.IsBeforeWord s.cursor) :
    Yields (modelParser inner) scope s fun d t =>
      CanWrite scope first depth braces levels d t ∧ d.isBoundary = false := by
  simp [modelParser]
  refine (yields_directiveHead_words spelled o name _).mono fun head t found => ?_
  refine (finds_modelModifiers _).step found.1 fun modifiers t o _ => ?_
  refine (MarkupInner.finds_condition h).step o fun e t o writable assignable =>
    ⟨⟨o, fun plain => ?_⟩, rfl⟩
  simp [fragments] at plain
  exact ⟨assignable, writable plain⟩

theorem finds_attributeParser (h : Finds scope first depth (Expr.CanWriteIn levels) expr)
    (spelled : scope.IsSpelled first) :
    Finds scope first depth (fun a => IsAttributeName a.name ∧ a.value.CanWriteIn levels)
      (attributeParser expr) := by
  intro braces s o
  simp [attributeParser]
  refine (finds_attributeName spelled).step o fun name t o isName eq => ?_
  exact h.step (o.read eq rfl (by simp)) fun e t o writable => ⟨o, isName, writable⟩

theorem a11yParser_canWrite (h : Finds scope first depth (Expr.CanWriteIn levels) expr)
    (spelled : scope.IsSpelled first) (o : s.InBlock scope first depth braces)
    (name : scope.IsBeforeWord s.cursor) :
    Yields (a11yParser expr) scope s fun d t =>
      CanWrite scope first depth braces levels d t ∧ d.isBoundary = false := by
  simp [a11yParser]
  refine (yields_plainHead_in spelled o name).mono fun head t o opening => ?_
  refine (Finds.commaSeparated _ (finds_attributeParser h spelled)).step (o.read opening rfl (by simp))
    fun attributes t o writable closing => ⟨⟨o.read closing rfl (by simp), fun plain => ?_⟩, rfl⟩
  simp [fragments] at plain
  exact fun a member => ⟨(writable a member).1, (writable a member).2 (plain a member)⟩

theorem finds_optionalArgument {α : Type} {P : α → Prop} {item : Parser α}
    (h : Finds scope first depth P item) (span : Span) :
    Finds scope first depth (fun a => ∀ b ∈ a.1, P b) (optionalArgument item span) := by
  intro braces s o
  simp [optionalArgument]
  refine ⟨fun opening => ?_, fun _ => o⟩
  have o := o.read opening rfl (by simp)
  refine ⟨fun closing => o.read closing rfl (by simp), fun _ => ?_⟩
  exact h.step o fun a t o holds closing => ⟨o.read closing rfl (by simp), by simpa using holds⟩

theorem liveParser_canWrite (spelled : scope.IsSpelled first)
    (o : s.InBlock scope first depth braces) (name : scope.IsBeforeWord s.cursor) :
    Yields liveParser scope s fun d t =>
      CanWrite scope first depth braces levels d t ∧ d.isBoundary = false := by
  have priority : Finds scope first depth (fun _ => True) (expectStringOr .identifier) := by
    intro braces s o
    simp
    exact fun value => value.elim (o.read · rfl (by simp)) (o.read · rfl (by simp))
  simp [liveParser]
  refine (yields_plainHead_in spelled o name).mono fun head t o => ?_
  exact (finds_optionalArgument priority _).step o fun _ t o _ => ⟨⟨o, fun _ => trivial⟩, rfl⟩

theorem focusTrapParser_canWrite (h : Finds scope first depth (Expr.CanWriteIn levels) expr)
    (spelled : scope.IsSpelled first) (o : s.InBlock scope first depth braces)
    (name : scope.IsBeforeWord s.cursor) :
    Yields (focusTrapParser expr) scope s fun d t =>
      CanWrite scope first depth braces levels d t ∧ d.isBoundary = false := by
  simp [focusTrapParser]
  refine (yields_plainHead_in spelled o name).mono fun head t o => ?_
  refine (finds_optionalArgument h _).step o fun options t o writable => ⟨⟨o, fun plain => ?_⟩, rfl⟩
  simp [fragments] at plain
  exact fun e own => writable e own (plain e own)

theorem parser_canWrite (h : Finds scope first depth (Expr.CanWriteIn levels) inner.expr)
    (spelled : scope.IsSpelled first) (o : s.InBlock scope first depth braces)
    (atSign : (scope.stream.get s.cursor).kind = .symbol .atSign)
    (name : (scope.stream.get (s.cursor + 1)).kind = .identifier)
    (noBranch : (scope.stream.get (s.cursor + 1)).text ≠ "else-if") :
    Yields (parser inner) scope s fun d t => CanWrite scope first depth braces levels d t ∧
      (d.isBoundary → ((scope.stream.get (s.cursor + 1)).text = "client" ∨
        (scope.stream.get (s.cursor + 1)).text = "server") ∧ t.cursor = s.cursor + 2) := by
  have word : scope.IsBeforeWord s.cursor := .inl name
  have plain {d : Directive} {t : ParserState} (found : CanWrite scope first depth braces levels d t ∧
      d.isBoundary = false) : CanWrite scope first depth braces levels d t ∧
        (d.isBoundary → ((scope.stream.get (s.cursor + 1)).text = "client" ∨
        (scope.stream.get (s.cursor + 1)).text = "server") ∧ t.cursor = s.cursor + 2) :=
    ⟨found.1, fun boundary => by simp [found.2] at boundary⟩
  simp [parser]
  refine ⟨fun _ => (modelParser_canWrite h spelled o word).mono fun _ _ => plain, fun noModel =>
    ⟨fun _ => (a11yParser_canWrite h spelled o word).mono fun _ _ => plain, fun noA11y =>
    ⟨fun _ => (liveParser_canWrite spelled o word).mono fun _ _ => plain, fun noLive =>
    ⟨fun _ => (focusTrapParser_canWrite h spelled o word).mono fun _ _ => plain, fun noTrap =>
    ⟨fun _ => ?_, fun noSr => ⟨fun boundary => ?_, fun noClient noServer => ?_⟩⟩⟩⟩⟩⟩
  · exact (yields_plainHead_in spelled o word).mono fun _ t o => plain ⟨⟨o, fun _ => trivial⟩, rfl⟩
  · exact (BoundaryTarget.parser_reads spelled o word).mono fun _ t found =>
      ⟨⟨found.1, fun _ => trivial⟩, fun _ => ⟨boundary, found.2⟩⟩
  · have free : (scope.stream.get (s.cursor + 1)).text ∉ EventHandler.reserved := by
      simp [EventHandler.reserved, *]
    exact (EventHandler.parser_canWrite h spelled o atSign name free).mono fun _ t found =>
      plain ⟨found, rfl⟩

end Directive

end PulseSyntax
