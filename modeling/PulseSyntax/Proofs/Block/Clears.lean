import PulseSyntax.Proofs.Block.Balance
import PulseSyntax.Proofs.Expr.Edges
import PulseSyntax.Proofs.Parser.Clears

namespace PulseSyntax

open PulseSyntax.Parser

section

namespace Expr

variable {scope : Scope} {piece : Piece} {i j : Nat}

def KeepsBlock (scope : Scope) (arrows : List (Span × ArrowBody)) (r : TokenRange) : Prop :=
  ∃ span, (span, body scope r) ∈ arrows ∧ scope.Encloses span r

/-- The bodies in a piece that starts at index `i`. A block of its own is not yet that of a
    function. -/
def Piece.Keep (scope : Scope) (i : Nat) : Piece → TokenRange → Prop
  | .expr e | .item e => KeepsBlock scope e.arrows
  | .params es | .items es => KeepsBlock scope (es.flatMap Expr.arrows)
  | .body b close => fun r => KeepsBlock scope b.arrows r ∨
      (b = Expr.body scope r ∧ close = (scope.stream.get r.stop).span ∧ i < r.start ∧
        scope.Delimits r)
  | .key k => KeepsBlock scope k.arrows
  | .member m => KeepsBlock scope m.arrows
  | .members ms => KeepsBlock scope (ms.flatMap ObjectMember.arrows)

theorem KeepsBlock.mono {arrows more : List (Span × ArrowBody)} (sub : ∀ a ∈ arrows, a ∈ more)
    (r : TokenRange) (h : KeepsBlock scope arrows r) : KeepsBlock scope more r :=
  let ⟨span, present, encloses⟩ := h
  ⟨span, sub _ present, encloses⟩

theorem literalOf?_valid {t : Token} {e : Expr} (h : literalOf? t = some e) : t.kind ≠ .invalid := by
  intro invalid
  simp [literalOf?, invalid] at h

theorem keyOf?_valid {t : Token} {key : PropertyKey} (h : keyOf? t = some key) :
    t.kind ≠ .invalid := by
  intro invalid
  simp [keyOf?, invalid] at h

theorem Dotted.clears {kept : TokenRange → Prop} {optional : Bool}
    (h : Dotted scope optional i j) : scope.Clears kept i j := by
  cases h with
  | plain => exact .refl _
  | optional hd => exact .token hd nofun

attribute [local simp] mkMember mkIndex mkCall mkBinary ofName in
theorem Stands.clears (h : Stands scope piece i j) : scope.Clears (piece.Keep scope i) i j := by
  have part {arrows more : List (Span × ArrowBody)} {i j : Nat}
      (ih : scope.Clears (KeepsBlock scope arrows) i j) (sub : ∀ a ∈ arrows, a ∈ more) :
      scope.Clears (KeepsBlock scope more) i j := ih.mono (KeepsBlock.mono sub)
  have function {params : List Expr} {b : ArrowBody} {close : Span} {isAsync : Bool} {i j k l : Nat}
      (list : scope.Clears (KeepsBlock scope (params.flatMap Expr.arrows)) j k) (le : i ≤ j)
      (ha : (scope.stream.get k).kind = .symbol .arrow)
      (inner : scope.Clears (Piece.Keep scope (k + 1) (.body b close)) (k + 1) l) :
      scope.Clears (KeepsBlock scope
        (Expr.arrow params b isAsync ((scope.stream.get i).span.cover close)).arrows) j l := by
    have before := list.le
    refine .trans (part list fun a member => by simp [member]) (.trans (.token ha nofun)
      (inner.mono ?_))
    rintro r (inside | ⟨rfl, rfl, first, delimits⟩)
    · exact KeepsBlock.mono (fun a member => by simp [member]) r inside
    · exact ⟨_, List.mem_cons_self, delimits, i, by omega, rfl⟩
  induction h with
  | name hk => exact .token rfl (TokenKind.valid_of_isName hk)
  | importName hk => exact .token hk nofun
  | literal read => exact .token rfl (literalOf?_valid read)
  | bareParam hk | shorthand hk => exact .token hk nofun
  | plainKey read => exact .token rfl (keyOf?_valid read)
  | noItems | noMembers => exact .refl _
  | group ho _ hc ih | paramList ho _ hc ih | computedKey ho _ hc ih =>
    exact .trans (.token ho nofun) (ih.trans (.token hc nofun))
  | array ho _ hc ih | object ho _ hc ih =>
    exact .trans (.token ho nofun) (.trans (part ih (by simp)) (.token hc nofun))
  | arrow _ _ ha _ list inner => exact function list (Nat.le_refl _) ha inner
  | asyncArrow hw _ _ _ ha _ list inner =>
    exact .trans (.token hw nofun) (function list (Nat.le_succ _) ha inner)
  | parsedBody _ _ ih => exact ih.mono fun r own => .inl own
  | block first delimits => exact .block first delimits (.inr ⟨rfl, rfl, by omega, delimits⟩)
  | property _ hd hk ih =>
    exact .trans (part ih (by simp)) (.trans (.token hd (by split <;> nofun))
      (.token rfl (TokenKind.valid_of_word hk)))
  | index _ dotted ho _ hc ih inner =>
    exact .trans (part ih (by simp +contextual)) (dotted.clears.trans (.trans (.token ho nofun)
      (.trans (part inner (by simp +contextual)) (.token hc nofun))))
  | call _ dotted ho _ hc ih inner =>
    exact .trans (part ih (by simp +contextual)) (dotted.clears.trans (.trans (.token ho nofun)
      (.trans (part inner (by simp +contextual)) (.token hc nofun))))
  | updateAfter _ _ ht ih => exact .trans (part ih (by simp)) (.token ht nofun)
  | unary ht _ ih | updateBefore ht _ _ ih | spreadItem ht _ ih | spreadMember ht _ ih =>
    exact .trans (.token ht nofun) (part ih (by simp))
  | binary _ ht _ left right | assignment _ _ ht _ left right =>
    exact .trans (part left (by simp +contextual)) (.trans (.token ht nofun)
      (part right (by simp +contextual)))
  | conditional _ hq _ hc _ test one other =>
    exact .trans (part test (by simp +contextual)) (.trans (.token hq nofun)
      (.trans (part one (by simp +contextual)) (.trans (.token hc nofun)
        (part other (by simp +contextual)))))
  | item _ ih => exact ih
  | lastItem _ ih | lastMember _ ih => exact part ih (by simp)
  | moreItems _ hc _ first rest | moreMembers _ hc _ first rest =>
    exact .trans (part first (by simp +contextual)) (.trans (.token hc nofun)
      (part rest (by simp +contextual)))
  | keyed _ hc _ key value =>
    exact .trans (part key (by simp +contextual)) (.trans (.token hc nofun)
      (part value (by simp +contextual)))

theorem accounts_of_clears (inFile : scope.quotation = none) {es : List Expr}
    (h : scope.Clears (KeepsBlock scope (es.flatMap Expr.arrows)) i j) :
    scope.Accounts i j (es.map .expression) := by
  refine ⟨h.mono fun r ⟨span, present, _⟩ => ⟨span, ?_⟩⟩
  have own : body scope r = .block r := by simp [body, inFile]
  rw [own] at present
  obtain ⟨e, among, block⟩ := List.mem_flatMap.mp present
  rw [List.flatMap_map]
  exact List.mem_flatMap.mpr ⟨e, among, mem_blocksOf.mpr block⟩

/-- The expression accounts for what the parser passes over. -/
abbrev IsClean (scope : Scope) (p : Parser Expr) : Prop := Clean scope (fun e => [.expression e]) p

variable {expr : Parser Expr} {s : ParserState}

theorem Sound.clean (inFile : scope.quotation = none) (h : Sound scope expr) : IsClean scope expr :=
  fun s => (h s).mono fun e _ own =>
    show scope.Accounts _ _ ([e].map .expression) from
      accounts_of_clears inFile (Stands.lastItem own.item).clears

theorem parser_clean (inFile : scope.quotation = none) : IsClean scope parser :=
  (parser_sound scope).clean inFile

theorem clean_arguments (inFile : scope.quotation = none) (h : Sound scope expr) :
    Clean scope (·.1.map .expression) (arguments expr) := by
  intro s
  refine (yields_arguments_stands h).mono ?_
  rintro ⟨es, _⟩ t ⟨close, ht, -, opening, own, closing⟩
  rw [ht]
  have inner := accounts_of_clears inFile own.clears
  exact ⟨.trans (.token opening nofun) (inner.clears.trans (.token closing nofun))⟩

end Expr

end

variable {scope : Scope} {i : Nat} {s : ParserState} {fs : List Fragment}

theorem Property.parser_clean (inFile : scope.quotation = none) :
    Clean scope fragments parser := by
  intro s
  have value {t : ParserState} (o : scope.Accounts s.cursor t.cursor []) (name : Token)
      (colon : (scope.stream.get t.cursor).kind = .symbol .colon) :
      Yields Expr.parser scope (t.next scope) fun value u => scope.Accounts s.cursor u.cursor
        (⟨name.text, value, name.span.cover value.span⟩ : Property).fragments :=
    (Expr.parser_clean inFile).step (o.read colon (by simp)) fun e u o => o
  have o : scope.Accounts s.cursor s.cursor [] := .refl _
  simp [parser]
  exact ⟨fun quoted => value (o.read quoted (by simp)) _, fun _ name => value (o.readName name) _⟩

theorem PropertyBlock.parser_clean (inFile : scope.quotation = none) (word : Keyword) :
    Clean scope fragments (parser word) := by
  intro s
  simp [parser]
  intro word
  exact (Property.parser_clean inFile).entry.braced.step
    ((Scope.Accounts.refl _).read word (by simp))
    fun properties t o => o

theorem Param.parser_clean (inFile : scope.quotation = none) (before : Array Param) :
    Clean scope fragments (parser before) := by
  intro s
  have o : scope.Accounts s.cursor s.cursor [] := .refl _
  simp [parser]
  refine fun _ => ⟨fun spread name _ => (o.read spread (by simp)).readName name,
    fun _ name => ⟨fun eq => ?_, fun _ => o.readName name⟩⟩
  exact (Expr.parser_clean inFile).step ((o.readName name).read eq (by simp)) fun e t o => o

theorem Param.clean_listParser (inFile : scope.quotation = none) :
    Clean scope (·.flatMap fragments) listParser := by
  intro s
  simp [listParser]
  intro opening
  exact (Clean.commaSeparatedAfter _ (Param.parser_clean inFile)).step
    ((Scope.Accounts.refl _).read opening (by simp))
    fun params t o closing => o.read closing (by simp)

theorem yields_params_body_clean (inFile : scope.quotation = none)
    (o : scope.Accounts i s.cursor []) :
    Yields Param.listParser scope s fun params t => Yields rawBlock scope t fun body u =>
      ∀ owner, scope.Accounts i u.cursor (.body owner body :: params.flatMap Param.fragments) :=
  (Param.clean_listParser inFile).step o fun params t o =>
    (yields_rawBlock_clean o).mono fun body u o owner => (o owner).widen (by simp [or_comm])

theorem Action.parser_clean (inFile : scope.quotation = none) : Clean scope fragments parser := by
  intro s
  refine yields_bind.mpr (yields_current.mpr (yields_bind.mpr (yields_peek.mpr ?_)))
  extract_lets isAsync rest
  have tail {t : ParserState} (o : scope.Accounts s.cursor t.cursor []) :
      Yields (rest ()) scope t fun a u => scope.Accounts s.cursor u.cursor a.fragments := by
    simp [rest]
    intro name
    exact (yields_params_body_clean inFile (o.readName name)).mono fun params u own =>
      own.mono fun body v o => o _
  have o : scope.Accounts s.cursor s.cursor [] := .refl _
  simp [isAsync]
  exact ⟨fun word _ _ => tail (o.read word (by simp)), fun _ => tail o⟩

theorem ActionsBlock.parser_clean (inFile : scope.quotation = none) :
    Clean scope fragments parser := by
  intro s
  simp [parser, many]
  intro word opening
  exact (Clean.manyAfter _ fun _ => (Action.parser_clean inFile).entry).step
    (((Scope.Accounts.refl _).read word (by simp)).read opening (by simp))
    fun functions t o closing => o.read closing (by simp)

theorem Route.parser_clean (inFile : scope.quotation = none) (before : Array Route) :
    Clean scope fragments (parser before) := by
  intro s
  simp [parser]
  intro path _ colon
  exact (Expr.parser_clean inFile).step
    (((Scope.Accounts.refl _).read path (by simp)).read colon (by simp)) fun e t o => o

theorem Route.clean_listParser (inFile : scope.quotation = none) :
    Clean scope (·.flatMap fragments) listParser := by
  intro s
  simp [listParser]
  intro word
  have routes {t : ParserState} (o : scope.Accounts s.cursor t.cursor [])
      (opening : (scope.stream.get t.cursor).kind = .symbol .openBrace) :
      Yields (manyAfter .closeBrace fun before => entry (Route.parser before)) scope (t.next scope)
        fun routes u => (scope.stream.get u.cursor).kind = .symbol .closeBrace →
          scope.Accounts s.cursor (u.next scope).cursor (routes.flatMap fragments) :=
    (Clean.manyAfter _ fun before => (Route.parser_clean inFile before).entry).step
      (o.read opening (by simp)) fun routes u o closing => o.read closing (by simp)
  have o := (Scope.Accounts.refl s.cursor : scope.Accounts _ _ []).read word (by simp)
  exact ⟨fun colon => routes (o.read colon (by simp)), fun _ => routes o⟩

theorem Guard.parser_yields_clean (inFile : scope.quotation = none)
    (o : scope.Accounts i (s.next scope).cursor []) :
    Yields parser scope s fun g t => scope.Accounts i t.cursor g.fragments := by
  simp [parser]
  exact (yields_params_body_clean inFile o).mono fun params u own => own.mono fun body v o => o _

def RouterFields.fragments (fields : RouterFields) : List Fragment :=
  (fields.routes.getD []).flatMap Route.fragments ++ (fields.beforeEach.toList.flatMap Guard.fragments ++
    fields.afterEach.toList.flatMap Guard.fragments)

theorem RouterFields.yields_add_clean (inFile : scope.quotation = none) (fields : RouterFields)
    (o : scope.Accounts i s.cursor fields.fragments) :
    Yields fields.add scope s fun next t => scope.Accounts i t.cursor next.fragments := by
  have guard {word : Keyword} (word : (scope.stream.get s.cursor).kind = .keyword word) :
      Yields Guard.parser scope s fun g t => scope.Accounts s.cursor t.cursor g.fragments :=
    Guard.parser_yields_clean inFile ((Scope.Accounts.refl _).read word (by simp))
  refine yields_bind.mpr (yields_current.mpr ?_)
  split
  · next word =>
    simp [fieldColon]
    intro _ colon value
    have o := (o.read word (by simp)).read colon (by simp)
    exact value.elim (o.read · (by simp)) (o.read · (by simp))
  · next word =>
    simp [fieldColon]
    exact fun _ colon value => ((o.read word (by simp)).read colon (by simp)).read value (by simp)
  · simp
    refine fun unseen => (Route.clean_listParser inFile).step o fun routes t o => o.widen ?_
    simp [fragments, unseen]
    grind
  · next word =>
    simp
    refine fun unseen => (guard word).mono fun g t own => (o.append own).widen ?_
    simp [fragments, unseen]
    grind
  · next word =>
    simp
    refine fun unseen => (guard word).mono fun g t own => (o.append own).widen ?_
    simp [fragments, unseen]
  · exact yields_failWanted.mpr trivial

theorem RouterBlock.parser_clean (inFile : scope.quotation = none) :
    Clean scope fragments parser := by
  intro s
  simp [parser]
  intro word opening
  exact (Clean.foldEntries (fun fields i s => RouterFields.yields_add_clean inFile fields) rfl).step
    (((Scope.Accounts.refl _).read word (by simp)).read opening (by simp))
    fun fields t o closing => o.read closing (by simp)

theorem Getter.parser_clean : Clean scope fragments parser := by
  intro s
  have body {t : ParserState} (o : scope.Accounts s.cursor t.cursor []) (name : String) :
      Yields rawBlock scope t fun body u => scope.Accounts s.cursor u.cursor
        (⟨name, body, (scope.stream.get s.cursor).span.cover
          (scope.stream.get (u.cursor - 1)).span⟩ : Getter).fragments :=
    (yields_rawBlock_clean o).mono fun body u o => o _
  have o : scope.Accounts s.cursor s.cursor [] := .refl _
  simp [parser]
  exact fun name => ⟨fun opening closing =>
    body (((o.readName name).read opening (by simp)).read closing (by simp)) _,
    fun _ => body (o.readName name) _⟩

theorem Getter.clean_listParser : Clean scope (·.flatMap fragments) listParser := by
  intro s
  simp [listParser]
  intro word
  exact Getter.parser_clean.entry.braced.step ((Scope.Accounts.refl _).read word (by simp))
    fun getters t o => o

def StoreFields.fragments (fields : StoreFields) : List Fragment :=
  fields.state.toList.flatMap PropertyBlock.fragments ++
    ((fields.getters.getD []).flatMap Getter.fragments ++
      (fields.actions.toList.flatMap ActionsBlock.fragments ++
        fields.plugins.toList.map .expression))

theorem StoreFields.yields_add_clean (inFile : scope.quotation = none) (fields : StoreFields)
    (o : scope.Accounts i s.cursor fields.fragments) :
    Yields fields.add scope s fun next t => scope.Accounts i t.cursor next.fragments := by
  refine yields_bind.mpr (yields_current.mpr ?_)
  split
  · simp
    refine fun unseen => (PropertyBlock.parser_clean inFile .state).step o fun b t o => o.widen ?_
    simp [fragments, unseen]
    grind
  · simp
    refine fun unseen => Getter.clean_listParser.step o fun getters t o => o.widen ?_
    simp [fragments, unseen]
    grind
  · simp
    refine fun unseen => (ActionsBlock.parser_clean inFile).step o fun b t o => o.widen ?_
    simp [fragments, unseen]
    grind
  · next word =>
    simp [fieldColon]
    intro _ colon
    have o := (o.read word (by simp)).read colon (by simp)
    split
    · next value =>
      simp
      exact o.read value (by simp)
    · next value =>
      simp
      exact o.read value (by simp)
    · exact yields_failWanted.mpr trivial
  · next word =>
    simp [fieldColon]
    exact fun _ colon value => ((o.read word (by simp)).read colon (by simp)).read value (by simp)
  · next word =>
    simp [fieldColon]
    refine fun unseen colon _ => (Expr.parser_clean inFile).step
      ((o.read word (by simp)).read colon (by simp)) fun e t o => o.widen ?_
    simp [fragments, unseen]
  · exact yields_failWanted.mpr trivial

theorem StoreBlock.parser_clean (inFile : scope.quotation = none) :
    Clean scope fragments parser := by
  intro s
  simp [parser]
  intro word opening
  exact (Clean.foldEntries (fun fields i s => StoreFields.yields_add_clean inFile fields) rfl).step
    (((Scope.Accounts.refl _).read word (by simp)).read opening (by simp))
    fun fields t o closing => o.read closing (by simp)

end PulseSyntax
