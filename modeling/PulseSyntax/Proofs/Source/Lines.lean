import PulseSyntax.Proofs.Source.Slice

namespace PulseSyntax.Text

/-- The text around one of its lines. -/
structure IsLine (text start line ending later : List Char) : Prop where
  whole : text = start ++ (line ++ (ending ++ later))
  first : lastLine start = []
  plain : '\n' ∉ line
  ends : ending = ['\r', '\n'] ∨ ending = ['\n'] ∧ line.getLast? ≠ some '\r' ∨
    ending = [] ∧ later = [] ∧ line ≠ []

def firstLine (text : List Char) : List Char :=
  if '\n' ∈ text then withoutReturn (text.takeWhile (· != '\n')) else text

section

variable {text line before rest : List Char}

theorem splitOn_eq (text : List Char) :
    text.splitOn '\n' = (splitLines text).1 ++ [(splitLines text).2] := by
  induction text with
  | nil => rfl
  | cons c cs ih =>
    rw [List.splitOn_cons_eq_if_modifyHead, ih, splitLines]
    by_cases feed : c = '\n'
    · simp [feed]
    · rcases split : splitLines cs with ⟨_ | ⟨line, ended⟩, rest⟩ <;> simp [feed]

theorem length_splitLines (text : List Char) : (splitLines text).1.length = text.count '\n' := by
  induction text with
  | nil => rfl
  | cons c cs ih =>
    rw [splitLines]
    by_cases feed : c = '\n'
    · simp [feed, ih]
    · rcases split : splitLines cs with ⟨_ | ⟨line, ended⟩, rest⟩ <;> simpa [feed, split] using ih

theorem subset_of_mem_splitOn (h : line ∈ text.splitOn '\n') : line ⊆ text := by
  induction text generalizing line with
  | nil => simpa using h
  | cons c cs ih =>
    rw [List.splitOn_cons_eq_if_modifyHead] at h
    split at h
    · rcases List.mem_cons.mp h with rfl | later
      · exact List.nil_subset _
      · exact List.subset_cons_of_subset c (ih later)
    · rcases split : cs.splitOn '\n' with _ | ⟨first, others⟩
      · rw [split] at h
        cases h
      · rw [split] at h ih
        rcases List.mem_cons.mp h with rfl | later
        · exact List.cons_subset_cons c (ih List.mem_cons_self)
        · exact List.subset_cons_of_subset c (ih (List.mem_cons_of_mem first later))

theorem withoutReturn_starts (line : List Char) : withoutReturn line <+: line := by
  unfold withoutReturn
  split
  · exact List.dropLast_prefix line
  · exact List.prefix_refl line

theorem subset_of_mem_lines (h : line ∈ lines text) : line ⊆ text := by
  have own {piece : List Char} (member : piece ∈ (splitLines text).1 ++ [(splitLines text).2]) :
      piece ⊆ text := subset_of_mem_splitOn (splitOn_eq text ▸ member)
  rcases List.mem_append.mp h with ended | last
  · obtain ⟨piece, member, rfl⟩ := List.mem_map.mp ended
    exact List.Subset.trans (withoutReturn_starts piece).subset (own (List.mem_append_left _ member))
  · have only : line = (splitLines text).2 := by
      split at last
      · cases last
      · exact List.mem_singleton.mp last
    exact only ▸ own (List.mem_append_right _ (List.mem_singleton_self _))

theorem notMem_lastLine (text : List Char) : '\n' ∉ lastLine text := by
  intro member
  have other := List.mem_rtakeWhile_imp member
  simp at other

theorem notMem_takeWhile (text : List Char) : '\n' ∉ text.takeWhile (· != '\n') := by
  intro member
  have other := List.mem_takeWhile_imp member
  simp at other

theorem exists_lastLine (before : List Char) :
    ∃ start, before = start ++ lastLine before ∧ lastLine start = [] ∧
      before.count '\n' = start.count '\n' := by
  have whole : before.rdropWhile (· != '\n') ++ lastLine before = before :=
    List.rdropWhile_append_rtakeWhile
  refine ⟨before.rdropWhile (· != '\n'), whole.symm, ?_, ?_⟩
  · exact List.rtakeWhile_eq_nil_iff.mpr fun some => List.rdropWhile_last_not _ _ some
  · nth_rewrite 1 [← whole]
    rw [List.count_append, List.count_eq_zero.mpr (notMem_lastLine before), Nat.add_zero]

theorem takeWhile_feed (text : List Char) :
    '\n' ∉ text ∧ text.takeWhile (· != '\n') = text ∨
      ∃ later, text = text.takeWhile (· != '\n') ++ '\n' :: later := by
  have cut : text.takeWhile (· != '\n') ++ text.dropWhile (· != '\n') = text :=
    List.takeWhile_append_dropWhile
  have stops := List.head?_dropWhile_not (· != '\n') text
  cases next : text.dropWhile (· != '\n') with
  | nil =>
    rw [next, List.append_nil] at cut
    exact .inl ⟨cut ▸ notMem_takeWhile text, cut⟩
  | cons c later =>
    obtain rfl : c = '\n' := by simpa [next] using stops
    exact .inr ⟨later, next ▸ cut.symm⟩

theorem takeWhile_append_plain (plain : '\n' ∉ before) (rest : List Char) :
    (before ++ rest).takeWhile (· != '\n') = before ++ rest.takeWhile (· != '\n') :=
  List.takeWhile_append_of_pos fun c member => by
    simpa using ne_of_mem_of_not_mem member plain

theorem getElem?_lines (before rest : List Char) :
    (lines (before ++ rest))[before.count '\n']? =
      if lastLine before ++ rest = [] then none
      else some (firstLine (lastLine before ++ rest)) := by
  have own := getElem?_splitOn before rest
  have ended := length_splitLines (before ++ rest)
  rw [splitOn_eq] at own
  rw [List.count_append] at ended
  simp only [lines, firstLine, List.mem_append, notMem_lastLine, false_or,
    takeWhile_append_plain (notMem_lastLine before)]
  rcases takeWhile_feed rest with ⟨noFeed, same⟩ | ⟨later, cut⟩
  · have last : before.count '\n' = (splitLines (before ++ rest)).1.length := by
      rw [ended, List.count_eq_zero.mpr noFeed, Nat.add_zero]
    rw [last, List.getElem?_concat_length, same] at own
    rw [if_neg noFeed, last, List.getElem?_append_right (by simp), Option.some.inj own]
    by_cases none : lastLine before ++ rest = [] <;> simp [none]
  · have feed : '\n' ∈ rest := by
      rw [cut]
      simp
    have inside : before.count '\n' < (splitLines (before ++ rest)).1.length := by
      have some := List.count_pos_iff.mpr feed
      omega
    have begun : lastLine before ++ rest ≠ [] := by simp [List.ne_nil_of_mem feed]
    rw [List.getElem?_append_left inside] at own
    rw [if_pos feed, if_neg begun, List.getElem?_append_left (by simpa using inside),
      List.getElem?_map, own]
    rfl

theorem head?_lines (text : List Char) : (lines text).head?.getD [] = firstLine text := by
  have first := getElem?_lines [] text
  rw [List.nil_append, List.count_nil, ← List.head?_eq_getElem?] at first
  rw [first]
  by_cases none : text = [] <;> simp [none, lastLine, firstLine]

theorem drop_firstLine (plain : '\n' ∉ before) (rest : List Char) :
    (firstLine (before ++ rest)).drop before.length = firstLine rest := by
  simp only [firstLine, List.mem_append, plain, false_or, takeWhile_append_plain plain]
  split
  · rcases rest.takeWhile (· != '\n') with _ | ⟨c, own⟩
    · rw [List.append_nil]
      exact List.drop_eq_nil_of_le (withoutReturn_starts before).length_le
    · have last : (before ++ c :: own).getLast? = (c :: own).getLast? :=
        List.getLast?_append_of_ne_nil before (List.cons_ne_nil c own)
      rw [withoutReturn, withoutReturn, last, List.dropLast_append_cons]
      split <;> exact List.drop_left
  · exact List.drop_left

theorem exists_ending (line : List Char) :
    ∃ ending, line ++ ['\n'] = withoutReturn line ++ ending ∧
      (ending = ['\r', '\n'] ∨ ending = ['\n'] ∧ (withoutReturn line).getLast? ≠ some '\r') := by
  by_cases return_ : line.getLast? = some '\r'
  · obtain ⟨shown, rfl⟩ := List.getLast?_eq_some_iff.mp return_
    exact ⟨['\r', '\n'], by simp [withoutReturn], .inl rfl⟩
  · have same : withoutReturn line = line := if_neg (by simpa using return_)
    exact ⟨['\n'], by rw [same], .inr ⟨rfl, by rwa [same]⟩⟩

theorem exists_isLine (begun : lastLine before ++ rest ≠ []) :
    ∃ start ending later, before = start ++ lastLine before ∧
      start.count '\n' = before.count '\n' ∧
      IsLine (before ++ rest) start (firstLine (lastLine before ++ rest)) ending later := by
  obtain ⟨start, whole, first, count⟩ := exists_lastLine before
  have joined : before ++ rest = start ++ (lastLine before ++ rest) := by
    rw [← List.append_assoc, ← whole]
  rw [joined]
  generalize lastLine before ++ rest = text at begun
  rcases takeWhile_feed text with ⟨noFeed, -⟩ | ⟨later, cut⟩
  · have same : firstLine text = text := if_neg noFeed
    refine ⟨start, [], [], whole, count.symm, ?_, first, ?_, .inr (.inr ⟨rfl, rfl, ?_⟩)⟩
    · rw [same, List.append_nil, List.append_nil]
    · rwa [same]
    · rwa [same]
  · have feed : '\n' ∈ text := by
      rw [cut]
      simp
    have same : firstLine text = withoutReturn (text.takeWhile (· != '\n')) := if_pos feed
    obtain ⟨ending, full, ends⟩ := exists_ending (text.takeWhile (· != '\n'))
    have short := withoutReturn_starts (text.takeWhile (· != '\n'))
    rw [same]
    refine ⟨start, ending, later, whole, count.symm, ?_, first, ?_, ends.imp_right .inl⟩
    · rw [← List.append_assoc _ ending, ← full, List.append_assoc, List.singleton_append, ← cut]
    · exact fun member => notMem_takeWhile text (short.subset member)

end

end PulseSyntax.Text
