import PulseSyntax.Proofs.Markup.Restored

namespace PulseSyntax

open PulseSyntax.Parser PulseSyntax.Piece Lexeme

def Branch.condition : Branch → Expr
  | mk condition _ _ => condition

def Branch.nodes : Branch → List MarkupNode
  | mk _ nodes _ => nodes

namespace MarkupNode

/-- An element without a block would take the node for a part of itself. -/
def isPart : MarkupNode → Bool
  | event .. => true
  | text t => t.alone.kind == .string
  | _ => false

/-- No element without a block stands before what it would take. -/
def AreApart (nodes : List MarkupNode) : Prop :=
  nodes.IsChain fun a b => a.isOpen → b.isPart = false

inductive IsWritable : Nat → MarkupNode → Prop
  | element {levels : Nat} {tag : String} {ps : List ElementProp} {ds : List Directive}
      {ts : List TextNode} {ns : List MarkupNode} {span : Span}
      (head : (Lexeme.selector tag.toList).IsStable (·.inMarkup))
      (props : ∀ p ∈ ps, p.IsWritable levels) (directives : ∀ d ∈ ds, d.IsWritable levels)
      (texts : ∀ t ∈ ts, t.IsPlain) (block : endsOpen ds ts → ns = [])
      (children : ∀ n ∈ ns, IsWritable levels n) (apart : AreApart ns) :
      IsWritable (levels + 1) (element tag ps ds ts ns span)
  | text {levels : Nat} {t : TextNode} (plain : t.IsPlain) : IsWritable (levels + 1) (text t)
  | conditional {levels : Nat} {e : Expr} {ns : List MarkupNode} {bs : List Branch}
      {last : Option (List MarkupNode)} {span : Span} (condition : e.IsWritableIn levels)
      (consequent : ∀ n ∈ ns, IsWritable levels n) (apart : AreApart ns)
      (conditions : ∀ b ∈ bs, b.condition.IsWritableIn levels)
      (branches : ∀ b ∈ bs, ∀ n ∈ b.nodes, IsWritable levels n)
      (branchesApart : ∀ b ∈ bs, AreApart b.nodes)
      (alternate : ∀ nodes ∈ last, ∀ n ∈ nodes, IsWritable levels n)
      (alternateApart : ∀ nodes ∈ last, AreApart nodes) :
      IsWritable (levels + 1) (conditional e ns bs last span)
  | loop {levels : Nat} {h : LoopHead} {ns : List MarkupNode} {span : Span}
      (head : h.IsWritable levels) (body : ∀ n ∈ ns, IsWritable levels n) (apart : AreApart ns) :
      IsWritable (levels + 1) (loop h ns span)
  | event {levels : Nat} {h : EventHandler} {ns : List MarkupNode} {span : Span}
      (handler : h.IsWritable levels) (children : ∀ n ∈ ns, IsWritable levels n)
      (apart : AreApart ns) : IsWritable (levels + 1) (event h ns span)
  | boundary {levels : Nat} {target : BoundaryTarget} {ns : List MarkupNode} {span : Span}
      (children : ∀ n ∈ ns, IsWritable levels n) (apart : AreApart ns) :
      IsWritable (levels + 1) (boundary target ns span)
  | slot {levels : Nat} {name : Option String} {ns : List MarkupNode} {span : Span}
      (fallback : ∀ n ∈ ns, IsWritable levels n) (apart : AreApart ns) :
      IsWritable (levels + 1) (slot name ns span)
  | link {levels : Nat} {path : Expr} {options : Option Expr} {text : Option TextNode}
      {ns : List MarkupNode} {span : Span}
      (arguments : ∀ e ∈ path :: options.toList, e.ItemIsWritableIn levels)
      (caption : ∀ t ∈ text, t.IsPlain) (children : ∀ n ∈ ns, IsWritable levels n)
      (apart : AreApart ns) : IsWritable (levels + 1) (link path options text ns span)
  | outlet {levels : Nat} {e : Option Expr} {span : Span}
      (container : ∀ e' ∈ e, e'.ItemIsWritableIn levels) : IsWritable (levels + 1) (outlet e span)
  | navigate {levels : Nat} {path : Expr} {options : Option Expr} {span : Span}
      (arguments : ∀ e ∈ path :: options.toList, e.ItemIsWritableIn levels) :
      IsWritable (levels + 1) (navigate path options span)
  | back {levels : Nat} {span : Span} : IsWritable (levels + 1) (back span)
  | forward {levels : Nat} {span : Span} : IsWritable (levels + 1) (forward span)

end MarkupNode

namespace Lexer.ReadsBack

open MarkupNode

variable {levels : Nat}

theorem flatMap {α : Type} {n : Nat} {items : List α} {pieces : α → List Piece}
    (h : ∀ a ∈ items, ReadsBack n n (pieces a)) : ReadsBack n n (items.flatMap pieces) := by
  induction items with
  | nil => exact nil
  | cons a items ih =>
    obtain ⟨first, others⟩ := List.forall_mem_cons.mp h
    exact first.append (ih others)

theorem nodes {ns : List MarkupNode} (h : ∀ n ∈ ns, ReadsBack 0 0 n.printed) :
    ReadsBack 0 0 (Lexeme.inBraces (printedAll ns)) := by
  rw [printedAll_eq]
  exact inBraces (flatMap h)

theorem branch {b : Branch} (h : b.condition.IsWritableIn levels)
    (inside : ∀ n ∈ b.nodes, ReadsBack 0 0 n.printed) : ReadsBack 0 0 (printedBranch b) := by
  cases b with
  | mk e ns span =>
    exact (directiveHead isDirective_elseIf (by simp)).append ((condition h).append (nodes inside))

theorem node {n : MarkupNode} (h : n.IsWritable levels) : ReadsBack 0 0 n.printed := by
  induction h with
  | @element _ _ _ ds ts _ _ head props directives texts' _ _ _ children =>
    refine (selector head).append ((elementProps props).append
      ((flatMap fun d member => directive (directives d member)).append ((texts texts').append ?_)))
    split
    · exact nil
    · exact nodes children
  | text plain => exact alone plain
  | @conditional _ _ _ bs last _ e' _ _ conditions _ _ _ _ consequent branches alternate =>
    refine (plainHead "if" (by decide)).append ((condition e').append ((nodes consequent).append ?_))
    rw [printedBranches_eq]
    refine (flatMap fun b member => branch (conditions b member) (branches b member)).append ?_
    cases last with
    | none => exact nil
    | some ns => exact (plainHead "else" (by decide)).append (nodes (alternate ns rfl))
  | loop head _ _ body =>
    rw [printed]
    exact (loopHead head).append (nodes body)
  | event handler _ _ children => exact (eventHandler handler).append (nodes children)
  | @boundary _ target _ _ _ _ children =>
    exact (plainHead _ (by cases target <;> decide)).append (nodes children)
  | @slot _ name _ _ _ _ fallback =>
    have word : ReadsBack 0 0 (spaced [Lexeme.word "slot"]) := by
      have slot : (Lexeme.word "slot").IsStable (·.inStyle = false) := stable_keyword (by decide) rfl
      exact plain (slot.mono fun _ here => here.noStyle) rfl (by decide)
    refine append ?_ (nodes fallback)
    cases name with
    | none => exact word
    | some text => exact word.append (string text)
  | @link _ _ _ text' _ _ arguments' caption _ _ children =>
    refine (plainHead "link" (by decide)).append
      ((arguments arguments').append (append ?_ (nodes children)))
    cases text' with
    | none => exact nil
    | some t => exact text (caption t rfl)
  | @outlet _ e _ container =>
    refine (plainHead "outlet" (by decide)).append ?_
    cases e with
    | none => exact nil
    | some e => exact arguments (by simpa using container)
  | navigate arguments' => exact (plainHead "navigate" (by decide)).append (arguments arguments')
  | back => exact plainHead "back" (by decide)
  | forward => exact plainHead "forward" (by decide)

end Lexer.ReadsBack

namespace MarkupNode

variable {scope : Scope} {depth levels : Nat} {inner : MarkupInner} {rest : List Token}
  {l : Lexeme} {ls : List Lexeme} {ps : List Piece}

def startsBranch : List Token → Bool
  | t :: name :: _ => t.kind == .symbol .atSign &&
      (name.kind == .identifier && name.text == "else-if" || name.kind == .keyword .else_)
  | _ => false

def joins (rest : List Token) : Bool :=
  match firstKind rest with
  | .string | .template => true
  | .symbol .atSign => Directive.joins rest
  | _ => false

/-- What may follow every node, but for an element without a block. -/
structure Ends (rest : List Token) : Prop where
  head : EndsHead rest
  noBrace : firstKind rest ≠ .symbol .openBrace
  noBranch : startsBranch rest = false

/-- What may follow the node. -/
def Allows (n : MarkupNode) (rest : List Token) : Prop := Ends rest ∧ (n.isOpen → joins rest = false)

theorem Ends.plain (first : firstKind rest ∉
    [.modifier, .symbol .openParen, .symbol .openBrace, .symbol .atSign]) : Ends rest := by
  simp only [List.mem_cons, List.not_mem_nil, or_false, not_or] at first
  obtain ⟨noModifier, noParen, noBrace, noAt⟩ := first
  refine ⟨⟨noModifier, noParen⟩, noBrace, ?_⟩
  unfold startsBranch
  split
  · next t name _ =>
    rw [show (t.kind == .symbol .atSign) = false from beq_eq_false_iff_ne.mpr noAt, Bool.false_and]
  · rfl

theorem Ends.named {t name : Token} (atSign : t.kind = .symbol .atSign)
    (noElse : name.kind ≠ .keyword .else_)
    (noBranch : name.kind = .identifier → name.text ≠ "else-if") : Ends (t :: name :: rest) := by
  refine ⟨⟨by simp [firstKind, atSign], by simp [firstKind, atSign]⟩, by simp [firstKind, atSign], ?_⟩
  rw [startsBranch, show (name.kind == .keyword .else_) = false from beq_eq_false_iff_ne.mpr noElse,
    Bool.or_false]
  by_cases kind : name.kind = .identifier
  · rw [show (name.text == "else-if") = false from beq_eq_false_iff_ne.mpr (noBranch kind),
      Bool.and_false, Bool.and_false]
  · rw [show (name.kind == .identifier) = false from beq_eq_false_iff_ne.mpr kind, Bool.false_and,
      Bool.and_false]

theorem allows_of_close (n : MarkupNode) (h : firstKind rest = .symbol .closeBrace) : n.Allows rest := by
  refine ⟨.plain (by rw [h]; decide), fun _ => ?_⟩
  rw [joins, h]

theorem elementPart_of_not_joins {s : ParserState} (h : joins (scope.remaining s) = false)
    (tail : ElementTail) : elementPart inner tail scope s = .ok none s := by
  have kind : (scope.stream.get s.cursor).kind = firstKind (scope.remaining s) :=
    Scope.kind_of_remaining rfl
  rw [elementPart, bind_of_ok current_apply]
  rw [joins, ← kind] at h
  generalize (scope.stream.get s.cursor).kind = first at h
  split
  · rw [bind_of_ok (Directive.attaches_joins scope s)]
    dsimp only at h
    rw [h]
    rfl
  · cases h
  · cases h
  · rfl

theorem branchHead_of_not_startsBranch {s : ParserState}
    (h : startsBranch (scope.remaining s) = false) : branchHead scope s = .ok none s := by
  have here : (scope.stream.get s.cursor).kind = firstKind (scope.remaining s) :=
    Scope.kind_of_remaining rfl
  rw [branchHead, bind_of_ok peek_apply, bind_of_ok (isSymbol_apply _)]
  by_cases atSign : firstKind (scope.remaining s) = .symbol .atSign
  · have noName : ((scope.stream.get (s.cursor + 1)).kind == .identifier &&
        (scope.stream.get (s.cursor + 1)).text == "else-if") = false ∧
        ((scope.stream.get (s.cursor + 1)).kind == .keyword .else_) = false := by
      cases tokens : scope.remaining s with
      | nil =>
        rw [tokens] at atSign
        cases atSign
      | cons t rest =>
        have next : scope.remaining (s.ahead 1) = rest := Scope.remaining_ahead_one tokens
        have kind : (scope.stream.get (s.cursor + 1)).kind = firstKind rest :=
          Scope.kind_of_remaining next
        cases rest with
        | nil =>
          rw [kind]
          exact ⟨rfl, rfl⟩
        | cons name rest =>
          have own : scope.stream.get (s.cursor + 1) = name := Scope.get_of_remaining next
          rw [tokens] at atSign h
          have first : t.kind = .symbol .atSign := atSign
          rw [startsBranch, first] at h
          rw [own]
          simpa using h
    rw [here, atSign, noName.1, noName.2]
    rfl
  · rw [here, beq_eq_false_iff_ne.mpr atSign]
    rfl

def IsRestored (scope : Scope) (depth : Nat) (node : Parser MarkupNode) (n : MarkupNode) : Prop :=
  Restores scope depth n.printed n.Allows node (·.content = n.content)

def plainKinds : List TokenKind := .selector :: .keyword .slot :: TextNode.aloneKinds

/-- How what is written of a node starts, if an element without a block would take it or not. -/
inductive Starts : Bool → List Lexeme → Prop
  | plain {part : Bool} {l : Lexeme} {ls : List Lexeme} (kind : l.kind ∈ plainKinds)
      (noString : part = false → l.kind ≠ .string) : Starts part (l :: ls)
  | word {part : Bool} {name : String} {ls : List Lexeme} {k : Keyword}
      (keyword : (directive name.toList).kind = .keyword k) (noElse : k ≠ .else_) :
      Starts part (Lexeme.symbol .atSign :: directive name.toList :: ls)
  | boundary {part : Bool} (target : BoundaryTarget) {ls : List Lexeme} :
      Starts part
        (Lexeme.symbol .atSign :: directive target.name.toList :: Lexeme.symbol .openBrace :: ls)
  | event {name : String} {ls : List Lexeme} (plain : (directive name.toList).kind = .identifier)
      (noBranch : name ≠ "else-if") :
      Starts true (Lexeme.symbol .atSign :: directive name.toList :: ls)

theorem starts_headed {part : Bool} {name : String} (k : Keyword)
    (keyword : (directive name.toList).kind = .keyword k) (noElse : k ≠ .else_) (ps : List Piece) :
    Starts part (lexemes (printedHead name [] ++ ps)) := by
  rw [lexemes_headed]
  exact .word keyword noElse

theorem IsWritable.starts {n : MarkupNode} (h : n.IsWritable levels) :
    Starts n.isPart (lexemes n.printed) := by
  cases h with
  | element =>
    rw [printed, lexemes_append, lexemes_spaced]
    exact .plain (by simp [Lexeme.selector, plainKinds]) (by simp [Lexeme.selector])
  | @text _ t plain =>
    rw [printed, lexemes_spaced]
    refine .plain (List.mem_cons_of_mem _ (List.mem_cons_of_mem _ plain.kind_alone)) ?_
    simp [isPart]
  | conditional => exact starts_headed .if_ rfl (by decide) _
  | @loop _ head =>
    rw [printed, LoopHead.printed, List.append_assoc]
    cases head.keyword with
    | for_ => exact starts_headed .for_ rfl (by decide) _
    | each => exact starts_headed .each rfl (by decide) _
  | event handler =>
    rw [printed, EventHandler.printed, List.append_assoc, lexemes_headed]
    refine .event handler.plain fun same => handler.free ?_
    rw [same]
    exact List.mem_cons_self
  | boundary =>
    rw [printed, lexemes_headed, lexemes_inBraces]
    exact .boundary _
  | slot =>
    rw [printed, lexemes_append, lexemes_spaced]
    exact .plain (by decide) fun _ => by decide
  | link => exact starts_headed .link rfl (by decide) _
  | outlet => exact starts_headed .outlet rfl (by decide) _
  | navigate => exact starts_headed .navigate rfl (by decide) _
  | back =>
    rw [printed, ← List.append_nil (printedHead _ _)]
    exact starts_headed .back rfl (by decide) _
  | forward =>
    rw [printed, ← List.append_nil (printedHead _ _)]
    exact starts_headed .forward rfl (by decide) _

theorem Starts.first {part : Bool} (h : Starts part ls) :
    ∃ l ls', ls = l :: ls' ∧ l.kind ≠ .symbol .closeBrace ∧ l.kind ≠ .endOfFile := by
  have other : ∀ kind ∈ plainKinds, kind ≠ .symbol .closeBrace ∧ kind ≠ .endOfFile := by decide
  cases h with
  | plain kind => exact ⟨_, _, rfl, other _ kind⟩
  | word | boundary | event => exact ⟨_, _, rfl, by decide, by decide⟩

theorem Starts.ends {part : Bool} (h : Starts part (lexemes ps)) (pos : Position) (rest : List Token) :
    Ends (Lexer.placed pos ps ++ rest) ∧
      (part = false → joins (Lexer.placed pos ps ++ rest) = false) := by
  generalize same : lexemes ps = ls at h
  cases h with
  | @plain _ l ls kind noString =>
    have first := firstKind_placed same pos rest
    have other : ∀ kind ∈ plainKinds, kind ∉
        [.modifier, .symbol .openParen, .symbol .openBrace, .symbol .atSign] ∧
          kind ≠ .template := by decide
    obtain ⟨noEnd, noTemplate⟩ := other _ kind
    refine ⟨.plain (by rwa [first]), fun own => ?_⟩
    have noString := noString own
    have noAt : l.kind ≠ .symbol .atSign := fun atSign => noEnd (by simp [atSign])
    rw [joins, first]
    split <;> first | contradiction | rfl
  | @word _ name ls k keyword noElse =>
    obtain ⟨t, ts, placed, atSign, others⟩ := exists_placed same pos
    obtain ⟨u, us, rfl, own, -⟩ := List.map_eq_cons_iff.mp others
    have first : t.kind = .symbol .atSign := congrArg Lexeme.kind atSign
    have kind : u.kind = .keyword k := (congrArg Lexeme.kind own).trans keyword
    rw [placed]
    refine ⟨.named first (by simpa [kind] using noElse) (by simp [kind]), fun _ => ?_⟩
    simp [joins, firstKind, first, Directive.joins, kind]
  | @boundary _ target ls =>
    obtain ⟨t, ts, placed, atSign, others⟩ := exists_placed same pos
    obtain ⟨u, us, rfl, own, others⟩ := List.map_eq_cons_iff.mp others
    obtain ⟨v, vs, rfl, opens, -⟩ := List.map_eq_cons_iff.mp others
    have first : t.kind = .symbol .atSign := congrArg Lexeme.kind atSign
    have text : u.text = target.name := text_directive own
    have third : v.kind = .symbol .openBrace := congrArg Lexeme.kind opens
    have kind : u.kind = .identifier := (congrArg Lexeme.kind own).trans (by cases target <;> rfl)
    rw [placed]
    refine ⟨.named first (by simp [kind]) fun _ => ?_, fun _ => ?_⟩
    · rw [text]
      cases target <;> decide
    · have named : (target.name == "client" || target.name == "server") = true := by
        cases target <;> decide
      simp only [joins, firstKind, first, List.cons_append, Directive.joins, kind, text, named, third]
      simp
  | @event name ls plain noBranch =>
    obtain ⟨t, ts, placed, atSign, others⟩ := exists_placed same pos
    obtain ⟨u, us, rfl, own, -⟩ := List.map_eq_cons_iff.mp others
    have first : t.kind = .symbol .atSign := congrArg Lexeme.kind atSign
    have kind : u.kind = .identifier := (congrArg Lexeme.kind own).trans plain
    rw [placed]
    refine ⟨.named first (by simp [kind]) fun _ => ?_, by simp⟩
    rwa [text_directive own]

theorem restores_children {node : Parser MarkupNode} {ns : List MarkupNode}
    (writable : ∀ n ∈ ns, n.IsWritable levels) (h : ∀ n ∈ ns, IsRestored scope depth node n)
    (apart : AreApart ns) :
    Restores scope depth (inBraces (printedAll ns)) (fun _ => True) (braced node)
      (contentAll ·.1 = contentAll ns) := by
  refine .andThen (.expectSymbol .openBrace) fun _ _ => ?_
  rw [printedAll_eq, contentAll_eq]
  have between : Between Allows printed ns := by
    refine List.IsChain.imp_of_mem_imp ?_ apart
    intro a b _ member separate pos rest
    obtain ⟨ends, noJoin⟩ := (writable b member).starts.ends pos rest
    exact ⟨ends, fun open_ => noJoin (separate open_)⟩
  have items : Restores scope depth (ns.flatMap printed) (firstKind · = .symbol .closeBrace)
      (many .closeBrace node) (List.Forall₂ (fun n n' => n'.content = n.content) ns) :=
    .many h (fun n member => (writable n member).starts.first) between fun n _ _ => allows_of_close n
  refine items.bind (fun _ _ _ => firstKind_placed lexemes_spaced _ _) fun ns' same => ?_
  refine (Restores.expectSymbol .closeBrace).returns fun _ _ => ?_
  rw [contentAll_eq]
  exact map_eq_map_of_forall₂ same

end MarkupNode

end PulseSyntax
