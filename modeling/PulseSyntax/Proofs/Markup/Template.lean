import PulseSyntax.Proofs.Markup.Segments

/-!
The interpolations of templates. The lexer tracks the braces of a template to find its end, and
takes the character after a backslash along; the text is cut anew afterwards, by braces alone. The
two find the same interpolations unless a backslash stands before a character that opens or closes
one.
-/

namespace PulseSyntax

open Quoted

/-- What the lexer has tracked in the rest of a template: the rest of the interpolation that is
    open, if one is, and the segments after it. -/
structure Tracked where
  region : List Char
  segments : List TextSegment
deriving DecidableEq, Repr

namespace Tracked

/-- Characters before the rest, at a depth that they change. A brace that leaves no other open ends
    the interpolation and is not part of it. -/
def before (rest : Tracked) (own : List Char) (depth next : Nat) : Tracked :=
  if depth == 0 then ⟨[], own.map .char ++ rest.segments⟩
  else if next == 0 then ⟨[], rest.segments⟩
  else ⟨own ++ rest.region, rest.segments⟩

def opened (rest : Tracked) (index depth : Nat) : Tracked :=
  if depth == 0 then ⟨[], .hole (index + 2) rest.region :: rest.segments⟩
  else ⟨['$', '{'] ++ rest.region, rest.segments⟩

end Tracked

/-- The walk of the lexer over a template from its character number `index` on, with `depth` open
    braces, and what it has tracked at the closing back-tick. -/
def track? : Nat → Nat → List Char → Option Tracked
  | _, _, [] => none
  | _, _, ['\\'] => none
  | index, depth, '\\' :: c :: cs =>
    (track? (index + 2) depth cs).map (·.before ['\\', c] depth depth)
  | index, depth, '$' :: '{' :: cs => (track? (index + 2) (depth + 1) cs).map (·.opened index depth)
  | _, 0, '`' :: _ => some ⟨[], []⟩
  | index, depth, c :: cs =>
    let next :=
      if depth == 0 then 0
      else if c == '{' then depth + 1
      else if c == '}' then depth - 1
      else depth
    (track? (index + 1) next cs).map (·.before [c] depth next)

namespace TextSegment

def spelled : TextSegment → List Char
  | char c => [c]
  | hole _ source => ['$', '{'] ++ source ++ ['}']
  | unclosed => []

/-- Each interpolation is closed, and starts where its source does in the characters that the
    segments write from number `index` on. -/
def ArePlaced : Nat → List TextSegment → Prop
  | _, [] => True
  | index, char _ :: rest => ArePlaced (index + 1) rest
  | index, hole start source :: rest =>
    start = index + 2 ∧ ArePlaced (index + 2 + source.length + 1) rest
  | _, unclosed :: _ => False

theorem arePlaced_chars (own : List Char) {index : Nat} {rest : List TextSegment} :
    ArePlaced index (own.map char ++ rest) ↔ ArePlaced (index + own.length) rest := by
  induction own generalizing index with
  | nil => rfl
  | cons c own ih =>
    rw [List.map_cons, List.cons_append, ArePlaced, ih, List.length_cons, Nat.add_assoc,
      Nat.add_comm 1]

theorem unclosed_notMem {index : Nat} {segs : List TextSegment} (placed : ArePlaced index segs) :
    unclosed ∉ segs := by
  induction segs generalizing index with
  | nil => exact List.not_mem_nil
  | cons segment rest ih =>
    cases segment with
    | unclosed => exact placed.elim
    | char => simpa using ih placed
    | hole => simpa using ih placed.2

end TextSegment

namespace Tracked

open TextSegment

/-- What has been tracked from a character of a template on covers the text from there on. -/
structure Covers (rest : Tracked) (index depth : Nat) (text : List Char) : Prop where
  outside : depth = 0 → rest.region = [] ∧ text = rest.segments.flatMap spelled ∧
    ArePlaced index rest.segments
  inside : depth ≠ 0 → text = rest.region ++ '}' :: rest.segments.flatMap spelled ∧
    ArePlaced (index + rest.region.length + 1) rest.segments

variable {rest : Tracked} {index depth next : Nat} {own text : List Char}

theorem Covers.before (h : rest.Covers (index + own.length) next text) (fits : depth = 0 → next = 0)
    (closes : depth ≠ 0 → next = 0 → own = ['}']) :
    (rest.before own depth next).Covers index depth (own ++ text) := by
  by_cases none : depth = 0
  · obtain ⟨-, rfl, placed⟩ := h.outside (fits none)
    have result : rest.before own depth next = ⟨[], own.map .char ++ rest.segments⟩ :=
      if_pos (beq_iff_eq.mpr none)
    rw [result]
    refine ⟨fun _ => ⟨rfl, ?_, (arePlaced_chars own).mpr placed⟩, fun some => absurd none some⟩
    simp [List.flatMap_map, spelled]
  · refine ⟨fun zero => absurd zero none, fun _ => ?_⟩
    by_cases last : next = 0
    · obtain ⟨-, rfl, placed⟩ := h.outside last
      obtain rfl := closes none last
      simp only [Tracked.before, beq_iff_eq, none, last, ↓reduceIte]
      exact ⟨rfl, placed⟩
    · obtain ⟨rfl, placed⟩ := h.inside last
      simp only [Tracked.before, beq_iff_eq, none, last, ↓reduceIte]
      refine ⟨(List.append_assoc ..).symm, ?_⟩
      rw [List.length_append, ← Nat.add_assoc]
      exact placed

theorem Covers.opened (h : rest.Covers (index + 2) (depth + 1) text) :
    (rest.opened index depth).Covers index depth (['$', '{'] ++ text) := by
  obtain ⟨rfl, placed⟩ := h.inside (Nat.succ_ne_zero depth)
  by_cases none : depth = 0
  · simp only [Tracked.opened, beq_iff_eq, none, ↓reduceIte]
    refine ⟨fun _ => ⟨rfl, ?_, rfl, placed⟩, fun some => absurd rfl some⟩
    simp [spelled]
  · simp only [Tracked.opened, beq_iff_eq, none, ↓reduceIte]
    refine ⟨fun zero => absurd zero none, fun _ => ⟨by simp, ?_⟩⟩
    rw [List.length_append, ← Nat.add_assoc]
    exact placed

theorem covers_of_templateBody? {cs : List Char} (h : templateBody? depth cs = some text)
    (index : Nat) : ∃ rest, track? index depth cs = some rest ∧ rest.Covers index depth text := by
  fun_induction templateBody? depth cs generalizing text index with
  | case1 => cases h
  | case2 => cases h
  | case3 depth c cs ih =>
    obtain ⟨body, found, rfl⟩ := Option.map_eq_some_iff.mp h
    obtain ⟨rest, walk, covers⟩ := ih found (index + 2)
    have covers : rest.Covers (index + ['\\', c].length) depth body := covers
    exact ⟨rest.before ['\\', c] depth depth, by rw [track?, walk]; rfl,
      covers.before id fun some zero => absurd zero some⟩
  | case4 depth cs ih =>
    obtain ⟨body, found, rfl⟩ := Option.map_eq_some_iff.mp h
    obtain ⟨rest, walk, covers⟩ := ih found (index + 2)
    exact ⟨rest.opened index depth, by rw [track?, walk]; rfl, covers.opened⟩
  | case5 =>
    cases h
    exact ⟨⟨[], []⟩, rfl, ⟨fun _ => ⟨rfl, rfl, trivial⟩, fun some => absurd rfl some⟩⟩
  | case6 depth c cs noEnd noEscape noHole noClosing next =>
    rename_i ih
    obtain ⟨body, found, rfl⟩ := Option.map_eq_some_iff.mp h
    obtain ⟨rest, walk, covers⟩ := ih found (index + 1)
    have covers : rest.Covers (index + [c].length) next body := covers
    refine ⟨rest.before [c] depth next, ?_, covers.before (fun zero => ?_) fun some last => ?_⟩
    · rw [track?.eq_6 _ _ _ _ noEnd noEscape noHole noClosing]
      change (track? (index + 1) next cs).map _ = _
      rw [walk]
      rfl
    · simp [next, zero]
    -- Nothing else than a closing brace leaves no brace open.
    · by_cases opens : c = '{'
      · simp [next, some, opens] at last
      · by_cases closes : c = '}'
        · rw [closes]
        · simp [next, some, opens, closes] at last

end Tracked

namespace TextSegment

theorem head?_spelled {index : Nat} {segs : List TextSegment} (placed : ArePlaced index segs) :
    (segs.flatMap spelled).head? = some '{' ↔ [char '{'] <+: segs := by
  cases segs with
  | nil => simp
  | cons segment rest => cases segment <;> simp_all [spelled, ArePlaced, eq_comm]

theorem cut_opens (index : Nat) (cs : List Char) :
    cut true index 0 ('$' :: '{' :: cs) =
      match holeSource? 0 cs with
      | none => [unclosed]
      | some source =>
        hole (index + 2) source :: cut true (index + 1) (2 + source.length) ('{' :: cs) := rfl

/-- A template is cut as its segments if and only if no two characters among them open an
    interpolation, and the braces of each interpolation are in pairs. -/
theorem cut_spelled_iff {index : Nat} {segs : List TextSegment} (placed : ArePlaced index segs) :
    cut true index 0 (segs.flatMap spelled) = segs ↔
      ¬[char '$', char '{'] <:+: segs ∧
        ∀ {start source}, hole start source ∈ segs → Text.BracesMatch source := by
  induction segs generalizing index with
  | nil => simp [cut]
  | cons segment rest ih =>
    rw [List.flatMap_cons, List.infix_cons_iff, not_or]
    cases segment with
    | unclosed => exact placed.elim
    | hole start source =>
      obtain ⟨rfl, later⟩ := placed
      have whole : spelled (hole (index + 2) source) ++ rest.flatMap spelled =
          '$' :: '{' :: (source ++ '}' :: rest.flatMap spelled) := by
        simp [spelled]
      rw [whole]
      by_cases pairs : Text.BracesMatch source
      · have next : cut true index 0 ('$' :: '{' :: (source ++ '}' :: rest.flatMap spelled)) =
            hole (index + 2) source ::
              cut true (index + 2 + source.length + 1) 0 (rest.flatMap spelled) := by
          have length : index + 2 + source.length + 1 =
              index + (opening true ++ source ++ ['}']).length := by
            simp [opening]
            omega
          rw [length]
          exact cut_opening pairs
        rw [next, List.cons.injEq, ih later]
        constructor
        · rintro ⟨-, apart, closed⟩
          refine ⟨⟨by simp, apart⟩, fun member => ?_⟩
          rcases List.mem_cons.mp member with same | member
          · cases same
            exact pairs
          · exact closed member
        · rintro ⟨⟨-, apart⟩, closed⟩
          exact ⟨rfl, apart, fun member => closed (List.mem_cons_of_mem _ member)⟩
      · refine iff_of_false (fun same => pairs ?_) fun h => pairs (h.2 List.mem_cons_self)
        rw [cut_opens] at same
        split at same
        · cases same
        · next inner found =>
          cases (List.cons.inj same).1
          exact holeSource?_append_iff.mp found
    | char c =>
      have later : ArePlaced (index + 1) rest := placed
      have head := head?_spelled later
      rw [show spelled (char c) = [c] from rfl, List.singleton_append]
      by_cases opens : c = '$' ∧ [char '{'] <+: rest
      · obtain ⟨rfl, brace⟩ := opens
        obtain ⟨cs, text⟩ := List.head?_eq_some_iff.mp (head.mpr brace)
        refine iff_of_false (fun same => ?_) fun h => h.1.1 ((List.prefix_cons_inj _).mpr brace)
        rw [text, cut_opens] at same
        split at same <;> cases same
      · have noHole : openingLength true c (rest.flatMap spelled) = 0 := by
          rw [← head] at opens
          simpa [openingLength] using opens
        have apart : ¬[char '$', char '{'] <+: char c :: rest := by
          rw [List.cons_prefix_cons, char.injEq]
          rintro ⟨dollar, brace⟩
          exact opens ⟨dollar.symm, brace⟩
        rw [cut_char rfl noHole, List.cons.injEq, ih later]
        simp [apart]

end TextSegment

/-- The segments that the lexer has tracked when it has read a template. -/
def Token.Tracks (source : List Char) (t : Token) (segs : List TextSegment) : Prop :=
  ∃ before after, source = before ++ '`' :: (t.text.toList ++ '`' :: after) ∧
    t.span.start = Text.byteSize before ∧
    templateBody? 0 (t.text.toList ++ '`' :: after) = some t.text.toList ∧
    track? 0 0 (t.text.toList ++ '`' :: after) = some ⟨[], segs⟩

theorem exists_tracks {source : String} {t : Token} (member : t ∈ tokenize source)
    (kind : t.kind = .template) :
    ∃ segs, t.Tracks source.toList segs ∧ t.text.toList = segs.flatMap TextSegment.spelled ∧
      TextSegment.ArePlaced 0 segs := by
  obtain ⟨before, after, whole, at_place, piece⟩ := exists_text_of_mem member (by simp [kind])
  rw [kind] at piece
  obtain ⟨cs, content, read, value, own⟩ := Lexer.template_of_mem piece
  have content_eq : t.text.toList = content := by simp [Token.text, value]
  subst content_eq
  have again := templateBody?_own read after
  obtain ⟨⟨region, segs⟩, walk, covers⟩ := Tracked.covers_of_templateBody? again 0
  obtain ⟨none, text, placed⟩ := covers.outside rfl
  dsimp only at none text placed
  subst none
  refine ⟨segs, ⟨before, after, ?_, ?_, again, walk⟩, text, placed⟩
  · rw [whole, own]
    simp
  · rw [Token.span, at_place]
    exact (Position.after_byte .origin before).trans (Nat.zero_add _)

namespace TextNode

open TextSegment

/-- Every template is cut into the characters and the interpolations that the lexer has tracked in
    it if and only if no `$` that a backslash has taken along stands before a brace, and the braces
    of each interpolation are in pairs, those after a backslash too. -/
theorem cut_template {source : String} {t : Token} (member : t ∈ tokenize source)
    (kind : t.kind = .template) :
    ∃ segs, t.Tracks source.toList segs ∧ t.text.toList = segs.flatMap spelled ∧
      .unclosed ∉ segs ∧
      (cut (t.kind == .template) 0 0 t.text.toList = segs ↔
        ¬[char '$', char '{'] <:+: segs ∧
          ∀ {start source}, hole start source ∈ segs → Text.BracesMatch source) := by
  obtain ⟨segs, tracks, text, placed⟩ := exists_tracks member kind
  refine ⟨segs, tracks, text, unclosed_notMem placed, ?_⟩
  rw [text, kind]
  exact cut_spelled_iff placed

theorem cut_template_call :
    ∃ t ∈ tokenize r"view { p `$ ${f({})}` }", t.kind = .template ∧
      ∃ segs, segs = [char '$', char ' ', hole 4 ['f', '(', '{', '}', ')']] ∧
        t.Tracks r"view { p `$ ${f({})}` }".toList segs ∧
        cut (t.kind == .template) 0 0 t.text.toList = segs := by
  generalize hs : r"view { p `$ ${f({})}` }" = source
  generalize ht : (tokenize source).getD 3 (.endOfFile .origin) = t
  have member : t ∈ tokenize source := by
    subst ht hs
    decide +kernel
  have kind : t.kind = .template := by
    subst ht hs
    decide +kernel
  have text : t.text.toList = ['$', ' ', '$', '{', 'f', '(', '{', '}', ')', '}'] := by
    subst ht hs
    decide +kernel
  obtain ⟨segs, tracks, -, -, same⟩ := cut_template member kind
  have segs_eq : segs = [char '$', char ' ', hole 4 ['f', '(', '{', '}', ')']] := by
    obtain ⟨_, _, -, -, -, walk⟩ := tracks
    rw [text] at walk
    cases walk
    rfl
  refine ⟨t, member, kind, segs, segs_eq, tracks, same.mpr ⟨?_, fun here => ?_⟩⟩
  · rw [segs_eq]
    decide
  · rw [segs_eq] at here
    obtain ⟨-, rfl⟩ : _ ∧ _ = ['f', '(', '{', '}', ')'] := by simpa using here
    decide

/-- After a backslash the lexer tracks no interpolation where the text has one. -/
example :
    track? 0 0 ['\\', '$', '{', 'x', '}', '`'] =
        some ⟨[], [char '\\', char '$', char '{', char 'x', char '}']⟩ ∧
      cut true 0 0 ['\\', '$', '{', 'x', '}'] = [char '\\', hole 3 ['x']] := by
  decide

end TextNode

end PulseSyntax
