import Mathlib.Data.List.Nodup
import PulseSyntax.Block.Json

namespace PulseSyntax

/-- A JSON value. An object is a map from names, so the order of its fields is no part of it. -/
inductive JsonValue where
  | null
  | bool (value : Bool)
  | natural (value : Nat)
  | number (value : Binary64)
  | string (value : String)
  | array (items : List JsonValue)
  | object (fields : String → Option JsonValue)

namespace Json

mutual

def value : Json → JsonValue
  | null => .null
  | bool b => .bool b
  | natural n => .natural n
  | number n => if n = .infinite then .null else .number n
  | string s => .string s
  | array items => .array (values items)
  | object fields => .object (fieldValue fields)

def values : List Json → List JsonValue
  | [] => []
  | item :: items => item.value :: values items

def fieldValue : List (String × Json) → String → Option JsonValue
  | [], _ => none
  | (name, field) :: fields, key =>
    if key = name then some field.value else fieldValue fields key

end

attribute [simp] value values

variable {α : Type} {fields fields' : List (String × Json)} {span span' : Span} {name : String}

theorem fieldValue_eq_none (h : name ∉ fields.map Prod.fst) : fieldValue fields name = none := by
  induction fields with
  | nil => rfl
  | cons field fields ih =>
    rw [List.map_cons, List.mem_cons, not_or] at h
    rw [fieldValue, if_neg h.1, ih h.2]

theorem fields_injective (h : (object fields).value = (object fields').value)
    (names : fields.map Prod.fst = fields'.map Prod.fst) (distinct : (fields.map Prod.fst).Nodup) :
    fields.map (·.2.value) = fields'.map (·.2.value) := by
  rw [value, value, JsonValue.object.injEq] at h
  induction fields generalizing fields' with
  | nil =>
    cases List.map_eq_nil_iff.mp names.symm
    rfl
  | cons field fields ih =>
    obtain ⟨name, first⟩ := field
    obtain ⟨⟨name', first'⟩, rest, rfl, same, others⟩ := List.map_eq_cons_iff.mp names.symm
    obtain rfl : name' = name := same
    rw [List.map_cons, List.nodup_cons] at distinct
    have here := congrFun h name'
    simp only [fieldValue, ↓reduceIte, Option.some.injEq] at here
    rw [List.map_cons, List.map_cons, here]
    refine congrArg _ (ih (funext fun key => ?_) others.symm distinct.2)
    by_cases own : key = name'
    · subst own
      rw [fieldValue_eq_none distinct.1, fieldValue_eq_none (others ▸ distinct.1)]
    · simpa only [fieldValue, if_neg own] using congrFun h key

/-- Among the things of which `P` holds, each has a value of its own. -/
def Injects (P : α → Prop) (encode : α → Json) : Prop :=
  ∀ ⦃a b⦄, P a → P b → (encode a).value = (encode b).value → a = b

theorem injects_string : Injects (fun _ => True) string := by
  rintro a b - - h
  simpa using h

theorem injects_bool : Injects (fun _ => True) bool := by
  rintro a b - - h
  simpa using h

theorem injects_span : Injects (fun _ => True) Span.toJson := by
  rintro ⟨start, stop⟩ ⟨start', stop'⟩ - - h
  simpa using fields_injective h rfl (by simp)

section

variable {P : α → Prop} {encode : α → Json}

theorem Injects.list (h : Injects P encode) :
    Injects (∀ a ∈ ·, P a) (ofList encode) := by
  intro as bs has hbs same
  rw [ofList, ofList, value, value, JsonValue.array.injEq] at same
  induction as generalizing bs with
  | nil =>
    cases bs with
    | nil => rfl
    | cons => cases same
  | cons a as ih =>
    cases bs with
    | nil => cases same
    | cons b bs =>
      rw [List.forall_mem_cons] at has hbs
      simp only [List.map_cons, values, List.cons.injEq] at same
      rw [h has.1 hbs.1 same.1, ih has.2 hbs.2 same.2]

theorem Injects.option (h : Injects P encode) (some : ∀ a, (encode a).value ≠ .null) :
    Injects (∀ a ∈ ·, P a) (ofOption encode) := by
  intro a? b? ha hb same
  cases a? with
  | none =>
    cases b? with
    | none => rfl
    | some b => exact absurd same.symm (some b)
  | some a =>
    cases b? with
    | none => exact absurd same (some a)
    | some b => rw [h (ha a rfl) (hb b rfl) same]

theorem Injects.mono {Q : α → Prop} (h : Injects P encode) (imp : ∀ a, Q a → P a) :
    Injects Q encode := fun a b ha hb => h (imp a ha) (imp b hb)

end

theorem value_record_ne_null : (record fields span).value ≠ .null := nofun

theorem record_injective (h : (record fields span).value = (record fields' span').value)
    (names : fields.map Prod.fst = fields'.map Prod.fst)
    (distinct : (fields.map Prod.fst ++ ["span"]).Nodup) :
    fields.map (·.2.value) = fields'.map (·.2.value) ∧ span = span' := by
  have all := fields_injective h (by simp [names]) (by simpa using distinct)
  rw [List.map_append, List.map_append] at all
  obtain ⟨own, last⟩ := List.append_inj' all rfl
  exact ⟨own, injects_span trivial trivial (List.cons.inj last).1⟩

variable {type type' : String}

theorem node_eq_record (type : String) (fields : List (String × Json)) (span : Span) :
    node type fields span = record (("type", string type) :: fields) span := rfl

theorem object_type (h : (object (("type", string type) :: fields)).value =
    (object (("type", string type') :: fields')).value) : type = type' := by
  rw [value, value, JsonValue.object.injEq] at h
  simpa [fieldValue] using congrFun h "type"

theorem node_type (h : (node type fields span).value = (node type' fields' span').value) :
    type = type' := object_type h

theorem node_injective (h : (node type fields span).value = (node type fields' span').value)
    (names : fields.map Prod.fst = fields'.map Prod.fst)
    (distinct : ("type" :: fields.map Prod.fst ++ ["span"]).Nodup) :
    fields.map (·.2.value) = fields'.map (·.2.value) ∧ span = span' := by
  rw [node_eq_record, node_eq_record] at h
  obtain ⟨all, same⟩ := record_injective h (by simp [names]) distinct
  exact ⟨(List.cons.inj all).2, same⟩

end Json

end PulseSyntax
