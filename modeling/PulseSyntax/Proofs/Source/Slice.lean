import Mathlib.Data.List.DropRight
import PulseSyntax.Source.Position

namespace PulseSyntax

namespace Text

def lastLine (text : List Char) : List Char := text.rtakeWhile (· != '\n')

theorem byteSize_toList (s : String) : byteSize s.toList = s.utf8ByteSize := by
  have chars (text : List Char) : byteSize text = (String.ofList text).utf8ByteSize := by
    induction text with
    | nil => simp [byteSize]
    | cons c cs ih =>
      have split : String.ofList (c :: cs) = String.ofList [c] ++ String.ofList cs := by
        rw [← String.ofList_append]; rfl
      have one : (String.ofList [c]).utf8ByteSize = c.utf8Size := by
        rw [← String.singleton_eq_ofList, String.utf8ByteSize_singleton]
      rw [byteSize, ih, split, String.utf8ByteSize_append, one]
  rw [chars, String.ofList_toList]

theorem byteSize_pos {text : List Char} (nonempty : text ≠ []) : 0 < byteSize text := by
  cases text with
  | nil => exact absurd rfl nonempty
  | cons c cs => simp only [byteSize]; have := c.utf8Size_pos; omega

theorem dropBytes?_append (before after : List Char) :
    dropBytes? (before ++ after) (byteSize before) = some after := by
  induction before with
  | nil => cases after <;> rfl
  | cons c cs ih =>
    obtain ⟨n, size⟩ : ∃ n, byteSize (c :: cs) = n + 1 :=
      Nat.exists_eq_add_one.mpr (byteSize_pos (by simp))
    have rest : n + 1 - c.utf8Size = byteSize cs := by simp only [byteSize] at size; omega
    have fits : c.utf8Size ≤ n + 1 := by simp only [byteSize] at size; omega
    simp only [List.cons_append, size, dropBytes?, fits, ↓reduceIte, rest, ih]

theorem takeBytes?_append (before after : List Char) :
    takeBytes? (before ++ after) (byteSize before) = some before := by
  induction before with
  | nil => cases after <;> rfl
  | cons c cs ih =>
    obtain ⟨n, size⟩ : ∃ n, byteSize (c :: cs) = n + 1 :=
      Nat.exists_eq_add_one.mpr (byteSize_pos (by simp))
    have rest : n + 1 - c.utf8Size = byteSize cs := by simp only [byteSize] at size; omega
    have fits : c.utf8Size ≤ n + 1 := by simp only [byteSize] at size; omega
    simp only [List.cons_append, size, takeBytes?, fits, ↓reduceIte, rest, ih, Option.map_some]

theorem slice?_middle (before text after : List Char) :
    slice? (before ++ (text ++ after)) (byteSize before) (byteSize (before ++ text)) = some text := by
  have length : byteSize (before ++ text) - byteSize before = byteSize text := by
    rw [byteSize_append]; omega
  have ordered : byteSize before ≤ byteSize (before ++ text) := by rw [byteSize_append]; omega
  simp only [slice?, ordered, ↓reduceIte, dropBytes?_append, Option.bind_some, length,
    takeBytes?_append]

theorem eq_nil_of_byteSize {text : List Char} (h : byteSize text = 0) : text = [] := by
  by_contra nonempty
  exact Nat.ne_of_gt (byteSize_pos nonempty) h

theorem dropBytes?_eq_some {text rest : List Char} {n : Nat} (h : dropBytes? text n = some rest) :
    ∃ before, text = before ++ rest ∧ byteSize before = n := by
  induction text generalizing n with
  | nil =>
    cases n with
    | zero => cases h; exact ⟨[], rfl, rfl⟩
    | succ n => cases h
  | cons c cs ih =>
    cases n with
    | zero => cases h; exact ⟨[], rfl, rfl⟩
    | succ n =>
      rw [dropBytes?] at h
      split at h
      · next fits =>
        obtain ⟨before, rfl, size⟩ := ih h
        exact ⟨c :: before, rfl, by rw [byteSize]; omega⟩
      · cases h

theorem takeBytes?_eq_some {text own : List Char} {n : Nat} (h : takeBytes? text n = some own) :
    ∃ rest, text = own ++ rest ∧ byteSize own = n := by
  induction text generalizing n own with
  | nil =>
    cases n with
    | zero => cases h; exact ⟨[], rfl, rfl⟩
    | succ n => cases h
  | cons c cs ih =>
    cases n with
    | zero => cases h; exact ⟨c :: cs, rfl, rfl⟩
    | succ n =>
      rw [takeBytes?] at h
      split at h
      · next fits =>
        obtain ⟨own, taken, rfl⟩ := Option.map_eq_some_iff.mp h
        obtain ⟨rest, rfl, size⟩ := ih taken
        exact ⟨rest, rfl, by rw [byteSize]; omega⟩
      · cases h

theorem slice?_eq_some {text own : List Char} {start stop : Nat} :
    slice? text start stop = some own ↔ ∃ before after, text = before ++ (own ++ after) ∧
      byteSize before = start ∧ byteSize (before ++ own) = stop := by
  constructor
  · intro h
    rw [slice?] at h
    split at h
    · obtain ⟨rest, dropped, taken⟩ := Option.bind_eq_some_iff.mp h
      obtain ⟨before, rfl, rfl⟩ := dropBytes?_eq_some dropped
      obtain ⟨after, rfl, size⟩ := takeBytes?_eq_some taken
      exact ⟨before, after, rfl, rfl, by rw [byteSize_append]; omega⟩
    · cases h
  · rintro ⟨before, after, rfl, rfl, rfl⟩
    exact slice?_middle before own after

theorem slice?_join {text first last : List Char} {a b c d : Nat} (h : slice? text a b = some first)
    (h' : slice? text c d = some last) (le : b ≤ c) :
    ∃ between, slice? text a d = some (first ++ between ++ last) := by
  obtain ⟨before, after, rfl, rfl, rfl⟩ := slice?_eq_some.mp h
  obtain ⟨before', after', whole, rfl, rfl⟩ := slice?_eq_some.mp h'
  have own : before ++ first <+: before' ++ (last ++ after') := by
    rw [← whole, ← List.append_assoc]
    exact List.prefix_append _ _
  have other : before' <+: before' ++ (last ++ after') := List.prefix_append _ _
  obtain ⟨between, rfl⟩ : before ++ first <+: before' := by
    rcases List.prefix_or_prefix_of_prefix own other with inside | ⟨more, beyond⟩
    · exact inside
    · rw [← beyond, byteSize_append] at le
      obtain rfl := eq_nil_of_byteSize (show byteSize more = 0 by omega)
      exact ⟨[], by rw [← beyond, List.append_nil, List.append_nil]⟩
  refine ⟨between, slice?_eq_some.mpr ⟨before, after', ?_, rfl, by simp only [List.append_assoc]⟩⟩
  rw [whole]
  simp only [List.append_assoc]

end Text

namespace Position

theorem after_line (p : Position) (text : List Char) :
    (p.after text).line = p.line + text.count '\n' := by
  induction text generalizing p with
  | nil => rfl
  | cons c cs ih =>
    rw [after_cons, ih, List.count_cons]
    by_cases lineFeed : c = '\n'
    · simp only [advance, lineFeed, ↓reduceIte, beq_self_eq_true]; omega
    · simp [advance, lineFeed]

theorem origin_after_column (text : List Char) :
    (origin.after text).column = 1 + (Text.lastLine text).length := by
  induction text using List.reverseRecOn with
  | nil => rfl
  | append_singleton text c ih =>
    rw [after_append, after_cons, after_nil]
    by_cases lineFeed : c = '\n'
    · simp [advance, lineFeed, Text.lastLine]
    · simp only [Text.lastLine] at ih
      simp [advance, lineFeed, Text.lastLine, ih, Nat.add_assoc]

theorem origin_after_byte (text : List Char) : (origin.after text).byte = Text.byteSize text := by
  rw [after_byte]; exact Nat.zero_add _

end Position

namespace Text

variable {text first second own : List Char} {start stop : Nat}

theorem slice?_of_takeBytes? (h : takeBytes? text start = some first)
    (h' : takeBytes? text stop = some second) (le : start ≤ stop) :
    ∃ own, second = first ++ own ∧ slice? text start stop = some own := by
  obtain ⟨rest, rfl, rfl⟩ := takeBytes?_eq_some h
  obtain ⟨after, whole, rfl⟩ := takeBytes?_eq_some h'
  obtain ⟨own, rfl⟩ : first <+: second := by
    rcases List.prefix_or_prefix_of_prefix (List.prefix_append first rest)
      (whole ▸ List.prefix_append second after) with inside | ⟨more, beyond⟩
    · exact inside
    · rw [← beyond, byteSize_append] at le
      obtain rfl := eq_nil_of_byteSize (show byteSize more = 0 by omega)
      exact ⟨[], by rw [← beyond, List.append_nil, List.append_nil]⟩
  refine ⟨own, rfl, slice?_eq_some.mpr ⟨first, after, ?_, rfl, rfl⟩⟩
  rw [whole, List.append_assoc]

theorem takeBytes?_of_slice? (h : slice? text start stop = some own) :
    ∃ first, takeBytes? text start = some first ∧ takeBytes? text stop = some (first ++ own) := by
  obtain ⟨first, after, rfl, rfl, rfl⟩ := slice?_eq_some.mp h
  refine ⟨first, takeBytes?_append first _, ?_⟩
  rw [← List.append_assoc]
  exact takeBytes?_append (first ++ own) after

theorem lastLine_append (plain : '\n' ∉ own) : lastLine (first ++ own) = lastLine first ++ own := by
  induction own using List.reverseRecOn with
  | nil => simp
  | append_singleton own c ih =>
    obtain ⟨before, last⟩ : '\n' ∉ own ∧ '\n' ≠ c := by simpa using plain
    have ih := ih before
    unfold lastLine at ih ⊢
    rw [← List.append_assoc, List.rtakeWhile_concat_pos _ _ _ (by simpa using last.symm), ih,
      List.append_assoc]

theorem lastLine_of_plain (plain : '\n' ∉ own) : lastLine own = own := by
  have alone : lastLine ([] ++ own) = lastLine [] ++ own := lastLine_append plain
  simpa [lastLine] using alone

theorem lastLine_cons_of_mem {c : Char} {cs : List Char} (feed : '\n' ∈ c :: cs) :
    lastLine (c :: cs) = lastLine cs := by
  induction cs using List.reverseRecOn with
  | nil =>
    obtain rfl : '\n' = c := by simpa using feed
    rfl
  | append_singleton cs d ih =>
    unfold lastLine at ih ⊢
    rw [← List.cons_append] at feed ⊢
    by_cases last : d = '\n'
    · rw [List.rtakeWhile_concat_neg _ _ _ (by simpa using last),
        List.rtakeWhile_concat_neg _ _ _ (by simpa using last)]
    · rw [List.rtakeWhile_concat_pos _ _ _ (by simpa using last),
        List.rtakeWhile_concat_pos _ _ _ (by simpa using last), ih]
      simpa [Ne.symm last] using feed

theorem getElem?_splitOn (before rest : List Char) :
    ((before ++ rest).splitOn '\n')[before.count '\n']? =
      some (lastLine before ++ rest.takeWhile (· != '\n')) := by
  induction before with
  | nil =>
    induction rest with
    | nil => rfl
    | cons c cs ih =>
      rw [List.nil_append] at ih ⊢
      rw [List.splitOn_cons_eq_if_modifyHead]
      by_cases feed : c = '\n'
      · simp [feed, lastLine]
      · simpa [feed, lastLine] using ih
  | cons c cs ih =>
    rw [List.cons_append, List.splitOn_cons_eq_if_modifyHead]
    by_cases feed : c = '\n'
    · rw [lastLine_cons_of_mem (by simp [feed])]
      simp [feed, ih]
    · rw [List.count_cons_of_ne feed, if_neg (by simpa using feed), List.getElem?_modifyHead, ih]
      by_cases more : '\n' ∈ cs
      · rw [if_neg (List.count_pos_iff.mpr more).ne', lastLine_cons_of_mem (.tail c more)]
      · have plain : '\n' ∉ c :: cs := by simpa [Ne.symm feed] using more
        rw [if_pos (List.count_eq_zero.mpr more), lastLine_of_plain more, lastLine_of_plain plain]
        rfl

end Text

/-- The line and the column count the line feeds before the span, and the characters after the last
    of them. -/
structure Place.StartsIn (text : List Char) (p : Place) : Prop where
  counts : ∃ before, Text.takeBytes? text p.span.start = some before ∧
    p.line = 1 + before.count '\n' ∧ p.column = 1 + (Text.lastLine before).length

theorem Place.StartsIn.start_le {text : List Char} {p q : Place} (h : p.StartsIn text)
    (h' : q.StartsIn text) (line : p.line = q.line) (column : p.column = q.column) :
    q.span.start ≤ p.span.start := by
  obtain ⟨before, taken, hl, hc⟩ := h
  obtain ⟨before', taken', hl', hc'⟩ := h'
  by_contra later
  obtain ⟨own, rfl, slice⟩ := Text.slice?_of_takeBytes? taken taken' (by omega)
  have plain : own.count '\n' = 0 := by
    rw [List.count_append] at hl'
    omega
  rw [Text.lastLine_append (List.count_eq_zero.mp plain), List.length_append] at hc'
  obtain rfl : own = [] := List.eq_nil_of_length_eq_zero (by omega)
  obtain ⟨rest, -, size⟩ := Text.takeBytes?_eq_some taken
  obtain ⟨rest', -, size'⟩ := Text.takeBytes?_eq_some taken'
  rw [List.append_nil] at size'
  omega

theorem Place.StartsIn.onLine {text : List Char} {p : Place} (h : p.StartsIn text) :
    1 ≤ p.line ∧ p.line ≤ text.count '\n' + 1 ∧
      ∃ line, (text.splitOn '\n')[p.line - 1]? = some line ∧
        1 ≤ p.column ∧ p.column ≤ line.length + 1 := by
  obtain ⟨before, taken, line, column⟩ := h
  obtain ⟨rest, rfl, -⟩ := Text.takeBytes?_eq_some taken
  have own := Text.getElem?_splitOn before rest
  refine ⟨by omega, by rw [line, List.count_append]; omega,
    Text.lastLine before ++ rest.takeWhile (· != '\n'), ?_, by omega, ?_⟩
  · rw [line, Nat.add_sub_cancel_left]
    exact own
  · rw [column, List.length_append]
    omega

end PulseSyntax
