import PulseSyntax.Proofs.Expr.Stands
import PulseSyntax.Proofs.Json.Value
import PulseSyntax.Proofs.Token.Order
import PulseSyntax.Proofs.Token.Spelled

namespace PulseSyntax

section

namespace Lexeme

variable {l l' : Lexeme}

theorem IsStable.eq_of_raw {among : Context → Prop} (h : l.IsStable among) (h' : l'.IsStable among)
    (ctx : Context) (here : among ctx) (same : l.raw = l'.raw) : l = l' := by
  obtain ⟨c, cs, raw, reads⟩ := h
  obtain ⟨c', cs', raw', reads'⟩ := h'
  rw [← same, raw] at raw'
  cases raw'
  have pieces : [l.piece] = [l'.piece] := (reads ctx [] here).symm.trans (reads' ctx [] here)
  rw [List.cons.injEq, piece, piece, Piece.lexeme.injEq] at pieces
  obtain ⟨kind, value, raw⟩ := l
  obtain ⟨kind', value', raw'⟩ := l'
  obtain ⟨⟨rfl, rfl, -⟩, -⟩ := pieces
  cases same
  rfl

/-- What a literal or a reserved word is, wherever it stands. -/
def IsExact (l : Lexeme) : Prop :=
  match l.kind with
  | .string => (∃ text, l.value = .text text) ∧ l.IsStable fun _ => True
  | .number => (∃ n, l.value = .number n) ∧ l.IsStable fun _ => True
  | .bigInt => (∃ digits, l.value = .bigInt digits) ∧ l.IsStable fun _ => True
  | .keyword k => l.raw = k.spelling
  | _ => True

end Lexeme

namespace Lexer

theorem isExact_of_mem {ctx : Context} {skip : Nat} {text own : List Char} {kind : TokenKind}
    {value : TokenValue} (member : .lexeme kind value own ∈ pieces ctx skip text) :
    (⟨kind, value, String.ofList own⟩ : Lexeme).IsExact := by
  obtain ⟨ctx, c, cs, member⟩ := exists_scan_of_mem member
  have scanned := scanned_scan ctx c cs
  generalize scan ctx c cs = ps at scanned member
  cases scanned with
  | bare h =>
    have bare := h _ member
    cases kind with
    | keyword k =>
      have word : k.spelling.toList = own := by simpa using bare
      rw [Lexeme.IsExact, ← word, String.ofList_toList]
    | string | number | bigInt => simp at bare
    | _ => trivial
  | number starts =>
    obtain ⟨_, _, _, read, counts, stable⟩ := exists_stable_number starts
    rw [read] at member
    cases List.mem_singleton.mp member
    cases counts with
    | number => exact ⟨⟨_, rfl⟩, stable⟩
    | bigInt => exact ⟨⟨_, rfl⟩, stable⟩
    | invalid => trivial
  | symbol =>
    unfold scanSymbol at member
    split at member <;> cases List.mem_singleton.mp member <;> trivial
  | string quote =>
    unfold Quoted.scanString at member
    split at member
    · next read =>
      cases List.mem_singleton.mp member
      exact ⟨⟨_, rfl⟩, stable_string quote read⟩
    · cases List.mem_singleton.mp member
      trivial
  | template =>
    unfold Quoted.scanTemplate at member
    split at member <;> cases List.mem_singleton.mp member <;> trivial

theorem isExact_of_place {p : Position} {ctx : Context} {skip : Nat} {text : List Char} {t : Token}
    (member : t ∈ place p (pieces ctx skip text)) : t.own.IsExact := by
  by_cases atEnd : t.kind = .endOfFile
  · rw [Lexeme.IsExact, Token.own, atEnd]
    trivial
  · obtain ⟨before, own, rest, whole, raw, -⟩ := exists_piece_of_mem member atEnd
    rw [Token.own, raw]
    have here : .lexeme t.kind t.value own ∈ pieces ctx skip text := by simp [whole]
    exact isExact_of_mem here

end Lexer

/-- The literals among the tokens are told by their texts. -/
def Scope.IsExact (scope : Scope) : Prop := ∀ t ∈ scope.stream.toList, t.own.IsExact

theorem Scope.isExact_tokenize {scope : Scope} {source : String}
    (h : scope.stream = .ofList (tokenize source)) : scope.IsExact := by
  intro t member
  rw [h, TokenStream.toList_ofList_tokenize] at member
  exact Lexer.isExact_of_place member

end

theorem Symbol.spelling_injective : Function.Injective spelling := fun s s' same =>
  List.inj_on_of_nodup_map (f := spelling) (by decide +kernel : (all.map spelling).Nodup)
    (mem_all s) (mem_all s') same

theorem BinaryOp.symbol_injective : Function.Injective symbol := by
  intro op op' same
  have found (op : BinaryOp) : all.find? (·.symbol == op.symbol) = some op := by cases op <;> rfl
  exact Option.some.inj ((found op).symm.trans (same ▸ found op'))

theorem UnaryOp.symbol_injective : Function.Injective symbol := by
  intro op op' same
  have found (op : UnaryOp) : ofKind? (.symbol op.symbol) = some op := by cases op <;> rfl
  exact Option.some.inj ((found op).symm.trans (same ▸ found op'))

theorem UpdateOp.symbol_injective : Function.Injective symbol := by
  intro op op' same
  have found (op : UpdateOp) : ofKind? (.symbol op.symbol) = some op := by cases op <;> rfl
  exact Option.some.inj ((found op).symm.trans (same ▸ found op'))

theorem AssignOp.symbol_injective : Function.Injective symbol := by
  intro op op' same
  have found (op : AssignOp) : ofKind? (.symbol op.symbol) = some op := by cases op <;> rfl
  exact Option.some.inj ((found op).symm.trans (same ▸ found op'))

/-- The text writes the literal and no other. That of a truth value is not asked for. -/
def LiteralValue.IsWritten (raw : String) : LiteralValue → Prop
  | string text => (⟨.string, .text text, raw⟩ : Lexeme).IsStable fun _ => True
  | number n => (⟨.number, .number n, raw⟩ : Lexeme).IsStable fun _ => True
  | bigInt digits => (⟨.bigInt, .bigInt digits, raw⟩ : Lexeme).IsStable fun _ => True
  | bool _ => True
  | null => raw = "null"

namespace Expr

/-- The expression is no literal, or its text writes it. -/
def IsWritten : Expr → Prop
  | literal value raw _ => value.IsWritten raw
  | _ => True

theorem isWritten_of_literalOf? {t : Token} {e : Expr} (exact : t.own.IsExact)
    (h : literalOf? t = some e) : e.IsWritten := by
  unfold literalOf? at h
  unfold Lexeme.IsExact at exact
  split at h <;> cases h
  · next kind =>
    simp only [Token.own, kind] at exact
    obtain ⟨⟨n, value⟩, stable⟩ := exact
    simpa [ofLiteral, IsWritten, LiteralValue.IsWritten, Token.number?, value] using stable
  · next kind =>
    simp only [Token.own, kind] at exact
    obtain ⟨⟨digits, value⟩, stable⟩ := exact
    simpa [ofLiteral, IsWritten, LiteralValue.IsWritten, Token.text, value] using stable
  · next kind =>
    simp only [Token.own, kind] at exact
    obtain ⟨⟨text, value⟩, stable⟩ := exact
    simpa [ofLiteral, IsWritten, LiteralValue.IsWritten, Token.text, value] using stable
  · trivial
  · trivial
  · next kind =>
    simp only [Token.own, kind] at exact
    exact exact
  · trivial

end Expr

theorem Json.injects_number : Injects (fun _ => True) number := by
  rintro a b - - h
  rw [value, value] at h
  split at h <;> split at h <;> simp_all

theorem not_isWritten_null (n : Binary64) : ¬(LiteralValue.number n).IsWritten "null" := by
  intro stable
  have letters : Word.isPart 'u' ∧ Word.isPart 'l' := by decide
  have word : Word.IsWord "null".toList :=
    ⟨'n', ['u', 'l', 'l'], rfl, by decide, by simpa using letters⟩
  have here : Context.initial.InCode := ⟨rfl, rfl⟩
  have same := (stable.mono fun _ _ => trivial).eq_of_raw (Lexeme.stable_word word) .initial here rfl
  cases same

theorem LiteralValue.eq_of_toJson {value value' : LiteralValue} {raw : String}
    (h : value.IsWritten raw) (h' : value'.IsWritten raw)
    (same : value.toJson.value = value'.toJson.value) : value = value' := by
  have kinds {kind kind' : TokenKind} {v v' : TokenValue}
      (h : (⟨kind, v, raw⟩ : Lexeme).IsStable fun _ => True)
      (h' : (⟨kind', v', raw⟩ : Lexeme).IsStable fun _ => True) : kind = kind' :=
    congrArg Lexeme.kind (h.eq_of_raw h' .initial trivial rfl)
  cases value with
  | string text =>
    cases value' with
    | string text' => simpa [toJson] using same
    | bigInt digits => cases kinds h h'
    | number n => simp [toJson] at same; split at same <;> cases same
    | bool b => cases same
    | null => cases same
  | bigInt digits =>
    cases value' with
    | bigInt digits' => simpa [toJson] using same
    | string text => cases kinds h h'
    | number n => simp [toJson] at same; split at same <;> cases same
    | bool b => cases same
    | null => cases same
  | number n =>
    cases value' with
    | number n' => rw [Json.injects_number trivial trivial same]
    | null =>
      obtain rfl : raw = "null" := h'
      exact absurd h (not_isWritten_null n)
    | string | bigInt | bool => simp [toJson] at same; split at same <;> cases same
  | bool b =>
    cases value' with
    | bool b' => simpa [toJson] using same
    | number n => simp [toJson] at same; split at same <;> cases same
    | string | bigInt | null => cases same
  | null =>
    cases value' with
    | null => rfl
    | number n =>
      obtain rfl : raw = "null" := h
      exact absurd h' (not_isWritten_null n)
    | string | bigInt | bool => cases same

def AreWritten (es : List Expr) : Prop := ∀ e ∈ es, e.IsWritten

section

variable {e : Expr} {es es' : List Expr}

@[simp] theorem areWritten_nil : AreWritten [] := List.forall_mem_nil _

@[simp] theorem areWritten_cons : AreWritten (e :: es) ↔ e.IsWritten ∧ AreWritten es :=
  List.forall_mem_cons

@[simp] theorem areWritten_append : AreWritten (es ++ es') ↔ AreWritten es ∧ AreWritten es' :=
  List.forall_mem_append

end

theorem TokenRange.injects_toJson : Json.Injects (fun _ => True) toJson := by
  rintro ⟨start, stop⟩ ⟨start', stop'⟩ - - h
  simpa using Json.fields_injective h rfl (by simp)

namespace Expr

theorem exists_node (e : Expr) : ∃ type fields span, e.toJson = .node type fields span := by
  cases e <;> exact ⟨_, _, _, rfl⟩

theorem value_toJson_ne_null (e : Expr) : e.toJson.value ≠ .null := by
  obtain ⟨type, fields, span, node⟩ := e.exists_node
  rw [node]
  exact nofun

theorem value_toJson_ne_string (e : Expr) (text : String) :
    e.toJson.value ≠ (Json.string text).value := by
  obtain ⟨type, fields, span, node⟩ := e.exists_node
  rw [node]
  exact nofun

theorem value_toJson_ne_range (e : Expr) (r : TokenRange) : e.toJson.value ≠ r.toJson.value := by
  obtain ⟨type, fields, span, node⟩ := e.exists_node
  rw [node, Json.node, TokenRange.toJson, Json.value, Json.value, ne_eq, JsonValue.object.injEq]
  intro same
  simpa [Json.fieldValue] using congrFun same "type"

end Expr

attribute [local simp] Expr.IsWritten Expr.nodes

mutual

theorem Expr.eq_of_toJson : ∀ e e' : Expr, AreWritten e.nodes → AreWritten e'.nodes →
    e.toJson.value = e'.toJson.value → e = e'
  | .identifier name span, e', he, he', h => by
    cases e' with
    | identifier =>
      obtain ⟨fields, rfl⟩ := Json.node_injective h rfl (by simp)
      simpa using fields
    | _ => exact absurd (Json.node_type h) (by simp)
  | .literal value raw span, e', he, he', h => by
    cases e' with
    | literal value' raw' =>
      obtain ⟨fields, rfl⟩ := Json.node_injective h rfl (by simp)
      simp at fields he he'
      obtain ⟨same, rfl⟩ := fields
      rw [LiteralValue.eq_of_toJson he he' same]
    | _ => exact absurd (Json.node_type h) (by simp)
  | .template text raw span, e', he, he', h => by
    cases e' with
    | template =>
      obtain ⟨fields, rfl⟩ := Json.node_injective h rfl (by simp)
      simpa using fields
    | _ => exact absurd (Json.node_type h) (by simp)
  | .array es span, e', he, he', h => by
    cases e' with
    | array es' =>
      obtain ⟨fields, rfl⟩ := Json.node_injective h rfl (by simp)
      simp at fields he he'
      rw [Expr.list_eq_of_toJson es es' he he' fields]
    | _ => exact absurd (Json.node_type h) (by simp)
  | .object ms span, e', he, he', h => by
    cases e' with
    | object ms' =>
      obtain ⟨fields, rfl⟩ := Json.node_injective h rfl (by simp)
      simp at fields he he'
      rw [ObjectMember.list_eq_of_toJson ms ms' he he' fields]
    | _ => exact absurd (Json.node_type h) (by simp)
  | .spread e span, e', he, he', h => by
    cases e' with
    | spread inner =>
      obtain ⟨fields, rfl⟩ := Json.node_injective h rfl (by simp)
      simp at fields he he'
      rw [Expr.eq_of_toJson e inner (by simp [he]) (by simp [he']) fields]
    | _ => exact absurd (Json.node_type h) (by simp)
  | .binary op left right span, e', he, he', h => by
    cases e' with
    | binary op' left' right' =>
      obtain ⟨fields, rfl⟩ := Json.node_injective h rfl (by simp)
      simp at fields he he'
      obtain ⟨same, first, second⟩ := fields
      rw [BinaryOp.symbol_injective (Symbol.spelling_injective same),
        Expr.eq_of_toJson left left' (by simp [he]) (by simp [he']) first,
        Expr.eq_of_toJson right right' (by simp [he]) (by simp [he']) second]
    | _ => exact absurd (Json.node_type h) (by simp)
  | .unary op e span, e', he, he', h => by
    cases e' with
    | unary op' inner =>
      obtain ⟨fields, rfl⟩ := Json.node_injective h rfl (by simp)
      simp at fields he he'
      obtain ⟨same, own⟩ := fields
      rw [UnaryOp.symbol_injective (Symbol.spelling_injective same),
        Expr.eq_of_toJson e inner (by simp [he]) (by simp [he']) own]
    | _ => exact absurd (Json.node_type h) (by simp)
  | .update op before e span, e', he, he', h => by
    cases e' with
    | update op' before' inner =>
      obtain ⟨fields, rfl⟩ := Json.node_injective h rfl (by simp)
      simp at fields he he'
      obtain ⟨same, rfl, own⟩ := fields
      rw [UpdateOp.symbol_injective (Symbol.spelling_injective same),
        Expr.eq_of_toJson e inner (by simp [he]) (by simp [he']) own]
    | _ => exact absurd (Json.node_type h) (by simp)
  | .assignment op target value span, e', he, he', h => by
    cases e' with
    | assignment op' target' value' =>
      obtain ⟨fields, rfl⟩ := Json.node_injective h rfl (by simp)
      simp at fields he he'
      obtain ⟨same, first, second⟩ := fields
      rw [AssignOp.symbol_injective (Symbol.spelling_injective same),
        Expr.eq_of_toJson target target' (by simp [he]) (by simp [he']) first,
        Expr.eq_of_toJson value value' (by simp [he]) (by simp [he']) second]
    | _ => exact absurd (Json.node_type h) (by simp)
  | .conditional test consequent alternate span, e', he, he', h => by
    cases e' with
    | conditional test' consequent' alternate' =>
      obtain ⟨fields, rfl⟩ := Json.node_injective h rfl (by simp)
      simp at fields he he'
      obtain ⟨first, second, third⟩ := fields
      rw [Expr.eq_of_toJson test test' (by simp [he]) (by simp [he']) first,
        Expr.eq_of_toJson consequent consequent' (by simp [he]) (by simp [he']) second,
        Expr.eq_of_toJson alternate alternate' (by simp [he]) (by simp [he']) third]
    | _ => exact absurd (Json.node_type h) (by simp)
  | .arrow params body isAsync span, e', he, he', h => by
    cases e' with
    | arrow params' body' isAsync' =>
      obtain ⟨fields, rfl⟩ := Json.node_injective h rfl (by simp)
      simp at fields he he'
      obtain ⟨first, second, rfl⟩ := fields
      rw [Expr.list_eq_of_toJson params params' he.1 he'.1 first,
        ArrowBody.eq_of_toJson body body' he.2 he'.2 second]
    | _ => exact absurd (Json.node_type h) (by simp)
  | .member object property computed optional span, e', he, he', h => by
    cases e' with
    | member object' property' computed' optional' =>
      obtain ⟨fields, rfl⟩ := Json.node_injective h rfl (by simp)
      simp at fields he he'
      obtain ⟨first, second, rfl, rfl⟩ := fields
      rw [Expr.eq_of_toJson object object' (by simp [he]) (by simp [he']) first,
        Expr.eq_of_toJson property property' (by simp [he]) (by simp [he']) second]
    | _ => exact absurd (Json.node_type h) (by simp)
  | .call callee args optional span, e', he, he', h => by
    cases e' with
    | call callee' args' optional' =>
      obtain ⟨fields, rfl⟩ := Json.node_injective h rfl (by simp)
      simp at fields he he'
      obtain ⟨first, second, rfl⟩ := fields
      rw [Expr.eq_of_toJson callee callee' (by simp [he]) (by simp [he']) first,
        Expr.list_eq_of_toJson args args' he.2.2 he'.2.2 second]
    | _ => exact absurd (Json.node_type h) (by simp)

theorem Expr.list_eq_of_toJson : ∀ es es' : List Expr, AreWritten (Expr.nodesOfList es) →
    AreWritten (Expr.nodesOfList es') →
    Json.values (Expr.listToJson es) = Json.values (Expr.listToJson es') → es = es'
  | [], [], _, _, _ => rfl
  | [], _ :: _, _, _, h => nomatch h
  | _ :: _, [], _, _, h => nomatch h
  | e :: es, e' :: es', he, he', h => by
    simp [Expr.listToJson] at h he he'
    rw [Expr.eq_of_toJson e e' (by simp [he]) (by simp [he']) h.1,
      Expr.list_eq_of_toJson es es' he.2.2 he'.2.2 h.2]

theorem ObjectMember.eq_of_toJson : ∀ m m' : ObjectMember, AreWritten m.nodes →
    AreWritten m'.nodes → m.toJson.value = m'.toJson.value → m = m'
  | .property key value shorthand span, m', hm, hm', h => by
    cases m' with
    | property key' value' shorthand' =>
      obtain ⟨fields, rfl⟩ := Json.node_injective h rfl (by simp)
      simp at fields hm hm'
      obtain ⟨first, second, rfl⟩ := fields
      rw [PropertyKey.eq_of_toJson key key' hm.1 hm'.1 first,
        Expr.eq_of_toJson value value' (by simp [hm]) (by simp [hm']) second]
    | spread => exact absurd (Json.node_type h) (by simp)
  | .spread e span, m', hm, hm', h => by
    cases m' with
    | spread inner =>
      obtain ⟨fields, rfl⟩ := Json.node_injective h rfl (by simp)
      simp at fields hm hm'
      rw [Expr.eq_of_toJson e inner (by simp [hm]) (by simp [hm']) fields]
    | property => exact absurd (Json.node_type h) (by simp)

theorem ObjectMember.list_eq_of_toJson : ∀ ms ms' : List ObjectMember,
    AreWritten (ObjectMember.nodesOfList ms) → AreWritten (ObjectMember.nodesOfList ms') →
    Json.values (ObjectMember.listToJson ms) = Json.values (ObjectMember.listToJson ms') → ms = ms'
  | [], [], _, _, _ => rfl
  | [], _ :: _, _, _, h => nomatch h
  | _ :: _, [], _, _, h => nomatch h
  | m :: ms, m' :: ms', hm, hm', h => by
    simp [ObjectMember.listToJson] at h hm hm'
    rw [ObjectMember.eq_of_toJson m m' hm.1 hm'.1 h.1,
      ObjectMember.list_eq_of_toJson ms ms' hm.2 hm'.2 h.2]

theorem PropertyKey.eq_of_toJson : ∀ key key' : PropertyKey, AreWritten key.nodes →
    AreWritten key'.nodes → key.toJson.value = key'.toJson.value → key = key'
  | .identifier name, key', hk, hk', h => by
    cases key' <;> have fields := Json.fields_injective h rfl (by simp) <;> simp_all
  | .string text, key', hk, hk', h => by
    cases key' <;> have fields := Json.fields_injective h rfl (by simp) <;> simp_all
  | .number n, key', hk, hk', h => by
    cases key' <;> have fields := Json.fields_injective h rfl (by simp)
    case number n' =>
      obtain ⟨own, -⟩ := List.cons.inj (List.cons.inj fields).2
      rw [Json.injects_number trivial trivial own]
    all_goals simp at fields
  | .computed e, key', hk, hk', h => by
    cases key' <;> have fields := Json.fields_injective h rfl (by simp)
    case computed e' =>
      simp at fields hk hk'
      rw [Expr.eq_of_toJson e e' (by simp [hk]) (by simp [hk']) fields]
    all_goals simp at fields

theorem ArrowBody.eq_of_toJson : ∀ b b' : ArrowBody, AreWritten b.nodes → AreWritten b'.nodes →
    b.toJson.value = b'.toJson.value → b = b'
  | .expression e, b', hb, hb', h => by
    cases b' with
    | expression e' => rw [Expr.eq_of_toJson e e' hb hb' h]
    | block r => exact absurd h (e.value_toJson_ne_range r)
    | inline text => exact absurd h (e.value_toJson_ne_string text)
  | .block r, b', hb, hb', h => by
    cases b' with
    | expression e => exact absurd h.symm (e.value_toJson_ne_range r)
    | block r' => rw [TokenRange.injects_toJson trivial trivial h]
    | inline text => cases h
  | .inline text, b', hb, hb', h => by
    cases b' with
    | expression e => exact absurd h.symm (e.value_toJson_ne_string text)
    | block r => cases h
    | inline text' => rw [Json.injects_string trivial trivial h]

end

end PulseSyntax
