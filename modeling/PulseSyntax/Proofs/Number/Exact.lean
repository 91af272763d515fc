import Mathlib.Data.Nat.Dist
import Mathlib.Tactic.Ring
import PulseSyntax.Proofs.Token.Stable

namespace PulseSyntax

namespace Binary64

/-- A number as rounding leaves it: its scale is the least one that leaves the significand below
    `2 ^ 53`. -/
def IsCanonical : Binary64 → Prop
  | finite m k => m < 2 ^ 53 ∧ (k = 0 ∨ 2 ^ 52 ≤ m) ∧ k ≤ 2045
  | infinite => True

theorem isCanonical_zero : zero.IsCanonical := ⟨by decide, .inl rfl, by decide⟩

theorem roundHalfEven_bounds (n d : Nat) :
    n / d ≤ roundHalfEven n d ∧ roundHalfEven n d ≤ n / d + 1 := by
  simp only [roundHalfEven]
  split
  · exact ⟨Nat.le_refl _, Nat.le_succ _⟩
  · split
    · exact ⟨Nat.le_succ _, Nat.le_refl _⟩
    · have := Nat.mod_lt (n / d) (show 2 > 0 by decide)
      omega

theorem roundHalfEven_mul (m : Nat) {d : Nat} (pos : 0 < d) : roundHalfEven (m * d) d = m := by
  simp [roundHalfEven, Nat.mul_div_cancel m pos, pos]

theorem isCanonical_normalize {m k : Nat} (le : m ≤ 2 ^ 53) (scaled : k = 0 ∨ 2 ^ 52 ≤ m) :
    (normalize m k).IsCanonical := by
  simp only [normalize, Nat.pow_eq]
  by_cases full : m = 2 ^ 53
  · simp only [full, ↓reduceIte]
    split
    · trivial
    · exact ⟨by decide, .inr (Nat.le_refl _), by omega⟩
  · simp only [full, ↓reduceIte]
    split
    · trivial
    · exact ⟨by omega, scaled, by omega⟩

theorem isCanonical_ofRatio (n d : Nat) : (ofRatio n d).IsCanonical := by
  simp only [ofRatio, Nat.pow_eq]
  generalize n * 2 ^ 1074 = units
  have bounds := roundHalfEven_bounds units (d * 2 ^ ((units / d).log2 - 52))
  rw [← Nat.div_div_eq_div_mul] at bounds
  generalize roundHalfEven units (d * 2 ^ ((units / d).log2 - 52)) = rounded at bounds ⊢
  generalize units / d = q at bounds ⊢
  have below : q / 2 ^ (q.log2 - 52) < 2 ^ 53 := by
    rw [Nat.div_lt_iff_lt_mul (Nat.two_pow_pos _), ← Nat.pow_add]
    refine Nat.lt_of_lt_of_le Nat.lt_log2_self (Nat.pow_le_pow_right (by decide) ?_)
    omega
  refine isCanonical_normalize (by omega) ?_
  by_cases small : q.log2 ≤ 52
  · exact .inl (Nat.sub_eq_zero_of_le small)
  · refine .inr (Nat.le_trans ?_ bounds.1)
    have some : q ≠ 0 := by
      rintro rfl
      exact small (by simp)
    rw [Nat.le_div_iff_mul_le (Nat.two_pow_pos _), ← Nat.pow_add,
      show 52 + (q.log2 - 52) = q.log2 by omega]
    exact Nat.log2_self_le some

theorem isCanonical_ofNat (n : Nat) : (ofNat n).IsCanonical := isCanonical_ofRatio n 1

theorem isCanonical_ofScientific (n : Nat) (e : Int) : (ofScientific n e).IsCanonical := by
  unfold ofScientific
  split
  · exact isCanonical_zero
  split
  · trivial
  split
  · exact isCanonical_zero
  split
  · exact isCanonical_ofRatio _ _
  · exact isCanonical_ofRatio _ _

theorem ofRatio_exact {m k n d : Nat} (canonical : (finite m k).IsCanonical) (pos : 0 < d)
    (same : n * 2 ^ 1074 = m * 2 ^ k * d) : ofRatio n d = finite m k := by
  obtain ⟨below, scaled, small⟩ := canonical
  have whole : n * 2 ^ 1074 / d = m * 2 ^ k := by rw [same, Nat.mul_div_cancel _ pos]
  have scale : (m * 2 ^ k).log2 - 52 = k := by
    rcases scaled with rfl | least
    · by_cases none : m = 0
      · subst none; rfl
      · have := (Nat.log2_lt none).mpr below
        rw [Nat.pow_zero, Nat.mul_one]
        omega
    · have some : m * 2 ^ k ≠ 0 := Nat.ne_of_gt (Nat.mul_pos (by omega) (Nat.two_pow_pos k))
      have log : (m * 2 ^ k).log2 = 52 + k := by
        refine (Nat.log2_eq_iff some).mpr ⟨?_, ?_⟩
        · rw [Nat.pow_add]
          exact Nat.mul_le_mul_right _ least
        · rw [show 52 + k + 1 = 53 + k by omega, Nat.pow_add]
          exact Nat.mul_lt_mul_of_pos_right below (Nat.two_pow_pos k)
      omega
  have exact_ : n * 2 ^ 1074 = m * (d * 2 ^ k) := by rw [same]; ring
  simp only [ofRatio, Nat.pow_eq]
  rw [whole, scale, exact_, roundHalfEven_mul m (Nat.mul_pos pos (Nat.two_pow_pos k))]
  have noFull : m ≠ 2 ^ 53 := Nat.ne_of_lt below
  simp only [normalize, Nat.pow_eq, noFull, ↓reduceIte]
  exact if_neg (by omega)

def exactDigits (m k : Nat) : Nat × Nat :=
  if 1074 ≤ k then (m * 2 ^ (k - 1074), 0) else (m * 5 ^ (1074 - k), 1074 - k)

theorem ofScientific_exact {m k : Nat} (canonical : (finite m k).IsCanonical) :
    ofScientific (exactDigits m k).1 (-(exactDigits m k).2 : Int) = finite m k := by
  by_cases none : m = 0
  · subst none
    obtain rfl : k = 0 := canonical.2.1.resolve_right (by decide)
    simp [exactDigits, ofScientific, zero]
  unfold exactDigits
  split
  · next whole =>
    have some : m * 2 ^ (k - 1074) ≠ 0 :=
      Nat.ne_of_gt (Nat.mul_pos (Nat.pos_of_ne_zero none) (Nat.two_pow_pos _))
    rw [ofScientific, if_neg some, if_neg (by simp), if_neg (by omega), if_pos (by simp)]
    refine ofRatio_exact canonical Nat.one_pos ?_
    have power : Nat.pow 10 (-((0 : Nat) : Int)).toNat = 1 := rfl
    rw [power, Nat.mul_one, Nat.mul_one, Nat.mul_assoc, ← Nat.pow_add, Nat.sub_add_cancel whole]
  · next part =>
    generalize places : 1074 - k = j
    have pos : 0 < m * 5 ^ j := Nat.mul_pos (Nat.pos_of_ne_zero none) (Nat.pow_pos (by decide))
    have long : j ≤ (m * 5 ^ j).log2 := by
      refine (Nat.le_log2 (Nat.ne_of_gt pos)).mpr ?_
      refine Nat.le_trans (Nat.pow_le_pow_left (by decide : 2 ≤ 5) j) ?_
      exact Nat.le_mul_of_pos_left _ (Nat.pos_of_ne_zero none)
    dsimp only
    rw [ofScientific, if_neg (Nat.ne_of_gt pos), if_neg (by omega), if_neg (by omega),
      if_neg (by omega)]
    refine ofRatio_exact canonical (Nat.pow_pos (by decide)) ?_
    have power : (10 : Nat).pow (- -(j : Int)).toNat = 5 ^ j * 2 ^ j := by
      rw [Int.neg_neg, Int.toNat_natCast, ← Nat.mul_pow]
      rfl
    have units : (2 : Nat) ^ 1074 = 2 ^ j * 2 ^ k := by
      rw [← Nat.pow_add]
      congr 1
      omega
    rw [power, units]
    ring

end Binary64

namespace Numeral

def placesText (places : Nat) : List Char :=
  if places = 0 then [] else 'e' :: '-' :: Nat.toDigits 10 places

variable {digits : List Char}

theorem isDigit_of_mem_toDigits (n : Nat) : ∀ c ∈ Nat.toDigits 10 n, c.isDigit := fun _ member =>
  Nat.isDigit_of_mem_toDigits (by decide) (by decide) member

theorem exists_toDigits (n : Nat) : ∃ d ds, Nat.toDigits 10 n = d :: ds ∧ d.isDigit := by
  obtain ⟨d, ds, same⟩ := List.exists_cons_of_ne_nil (Nat.toDigits_ne_nil (n := n) (b := 10))
  exact ⟨d, ds, same, isDigit_of_mem_toDigits n d (by simp [same])⟩

theorem digitRun_digits (all : ∀ c ∈ digits, c.isDigit) {rest : List Char}
    (stops : ∀ d ∈ rest.head?, d = 'e') : digitRun (digits ++ rest) = digits := by
  have own : ∀ c ∈ digits, (c.isDigit || c == '_') = true := fun c member => by simp [all c member]
  rw [digitRun, List.takeWhile_append_of_pos own]
  cases rest with
  | nil => simp
  | cons d rest =>
    obtain rfl := stops d rfl
    rw [List.takeWhile_cons_of_neg (by decide), List.append_nil]

theorem withoutUnderscores_digits (all : ∀ c ∈ digits, c.isDigit) :
    withoutUnderscores digits = digits := by
  refine List.filter_eq_self.mpr fun c member => ?_
  have digit := all c member
  rw [bne_iff_ne]
  rintro rfl
  cases digit

theorem ofDigits_toDigits (n : Nat) :
    ofDigits 10 (withoutUnderscores (Nat.toDigits 10 n)) = n := by
  have all := isDigit_of_mem_toDigits n
  have value : ofDigits 10 (Nat.toDigits 10 n) = Nat.ofDigitChars 10 (Nat.toDigits 10 n) 0 := by
    refine List.foldl_ext _ _ _ fun m c member => ?_
    have range : '0' ≤ c ∧ c ≤ '9' := by simpa [Char.isDigit, Char.le_def] using all c member
    rw [digitValue?, if_pos range, Option.getD_some, Nat.mul_comm]
  rw [withoutUnderscores_digits all, value, Nat.ofDigitChars_toDigits (by decide) (by decide)]

theorem head_placesText (places : Nat) : ∀ d ∈ (placesText places).head?, d = 'e' := by
  unfold placesText
  split <;> simp

theorem fractionPart_placesText (places : Nat) : fractionPart (placesText places) = [] := by
  unfold placesText
  split <;> rfl

theorem exponentPart_placesText (places : Nat) :
    exponentPart (placesText places) = placesText places := by
  unfold placesText
  split
  · rfl
  · obtain ⟨d, ds, same, digit⟩ := exists_toDigits places
    have run : digitRun (Nat.toDigits 10 places ++ []) = Nat.toDigits 10 places :=
      digitRun_digits (isDigit_of_mem_toDigits places) (by simp)
    rw [List.append_nil, same] at run
    simp [exponentPart, same, digit, run]

theorem read_exact (n places : Nat) :
    DecimalText.read (Nat.toDigits 10 n ++ placesText places) =
      ⟨Nat.toDigits 10 n, [], placesText places⟩ := by
  rw [DecimalText.read, digitRun_digits (isDigit_of_mem_toDigits n) (head_placesText places),
    List.drop_left, fractionPart_placesText, List.length_nil, List.drop_zero,
    exponentPart_placesText]

theorem value_exact (n places : Nat) :
    DecimalText.value ⟨Nat.toDigits 10 n, [], placesText places⟩ =
      .ofScientific n (-(places : Int)) := by
  have exponent : DecimalText.exponentValue ⟨Nat.toDigits 10 n, [], placesText places⟩ =
      -(places : Int) := by
    unfold placesText
    split
    · next none => simp [DecimalText.exponentValue, none]
    · simp [DecimalText.exponentValue, ofDigits_toDigits]
  have noPlaces : withoutUnderscores (([] : List Char).drop 1) = [] := rfl
  rw [DecimalText.value, exponent, noPlaces]
  simp only [List.append_nil, ofDigits_toDigits, List.length_nil, Nat.cast_zero, Int.sub_zero]

theorem radixOf?_eq_none {c : Char} (h : c.isDigit ∨ c = 'e') : radixOf? c = none := by
  have apart (d : Char) (noDigit : d.isDigit = false) (noLetter : d ≠ 'e') : c ≠ d := by
    rintro rfl
    rcases h with digit | letter
    · rw [noDigit] at digit
      cases digit
    · exact noLetter letter
  have marks : ∀ d ∈ ['x', 'X', 'b', 'B', 'o', 'O'], c ≠ d := fun d member =>
    apart d ((by simp : ∀ d ∈ ['x', 'X', 'b', 'B', 'o', 'O'], d.isDigit = false) d member)
      ((by simp : ∀ d ∈ ['x', 'X', 'b', 'B', 'o', 'O'], d ≠ 'e') d member)
  simp only [List.forall_mem_cons] at marks
  simp [radixOf?, marks]

theorem scan_exact (n places : Nat) :
    ∃ c cs, Nat.toDigits 10 n ++ placesText places = c :: cs ∧ startsHere c cs ∧
      scan c cs =
        [.lexeme .number (.number (.ofScientific n (-(places : Int)))) (c :: cs)] := by
  obtain ⟨d, ds, same, digit⟩ := exists_toDigits n
  have noRadix : (ds ++ placesText places).head?.bind radixOf? = none := by
    cases next : (ds ++ placesText places).head? with
    | none => rfl
    | some c =>
      refine radixOf?_eq_none ?_
      rw [List.head?_append, Option.or_eq_some_iff] at next
      rcases next with inside | ⟨-, after⟩
      · exact .inl (isDigit_of_mem_toDigits n c (by simp [same, List.mem_of_mem_head? inside]))
      · exact .inr (head_placesText places c after)
  refine ⟨d, ds ++ placesText places, by rw [same]; rfl, by simp [startsHere, digit], ?_⟩
  rw [scan_eq_decimal fun _ => noRadix, ← List.cons_append, ← same, scanDecimal, read_exact]
  simp [DecimalText.text, hasBigMark, value_exact]

end Numeral

namespace Binary64

def exactText : Binary64 → List Char
  | finite m k => Nat.toDigits 10 (exactDigits m k).1 ++ Numeral.placesText (exactDigits m k).2
  | infinite => ['1', 'e', '4', '0', '1']

theorem scan_exactText {n : Binary64} (canonical : n.IsCanonical) :
    ∃ c cs, n.exactText = c :: cs ∧ Numeral.startsHere c cs ∧
      Numeral.scan c cs = [.lexeme .number (.number n) (c :: cs)] := by
  cases n with
  | infinite => exact ⟨'1', _, rfl, rfl, by decide +kernel⟩
  | finite m k =>
    have text := Numeral.scan_exact (exactDigits m k).1 (exactDigits m k).2
    rwa [ofScientific_exact canonical] at text

end Binary64

namespace Binary64

theorem roundHalfEven_error (n : Nat) {d : Nat} (pos : 0 < d) :
    2 * Nat.dist (roundHalfEven n d * d) n ≤ d ∧
      (2 * Nat.dist (roundHalfEven n d * d) n = d → roundHalfEven n d % 2 = 0) := by
  have split : n / d * d + n % d = n := Nat.div_add_mod' n d
  have below := Nat.mod_lt n pos
  have next : (n / d + 1) * d = n / d * d + d := Nat.succ_mul _ _
  simp only [roundHalfEven, Nat.dist]
  split
  · omega
  split
  · rw [next]
    omega
  · have tie : 2 * (n % d) = d := by omega
    rcases Nat.mod_two_eq_zero_or_one (n / d) with even | odd
    · rw [even, Nat.add_zero]
      omega
    · rw [odd, next]
      omega

theorem step_le_dist {i j d n : Nat} (other : i ≠ j) :
    d ≤ Nat.dist (i * d) n + Nat.dist (j * d) n := by
  have apart {i j : Nat} (less : i < j) : i * d + d ≤ j * d := by
    rw [← Nat.succ_mul]
    exact Nat.mul_le_mul_right d less
  unfold Nat.dist
  rcases Nat.lt_or_gt_of_ne other with less | less
  · have := apart less
    omega
  · have := apart less
    omega

theorem roundHalfEven_nearest (n : Nat) {d : Nat} (pos : 0 < d) (j : Nat) :
    Nat.dist (roundHalfEven n d * d) n ≤ Nat.dist (j * d) n ∧
      (Nat.dist (j * d) n = Nat.dist (roundHalfEven n d * d) n → j ≠ roundHalfEven n d →
        roundHalfEven n d % 2 = 0) := by
  obtain ⟨near, tie⟩ := roundHalfEven_error n pos
  by_cases same : j = roundHalfEven n d
  · exact ⟨by rw [same], fun _ other => absurd same other⟩
  · have apart := step_le_dist (d := d) (n := n) same
    exact ⟨by omega, fun equal _ => tie (by omega)⟩

/-- How far a number of the format is from `n / d`. -/
def distance (n d m k : Nat) : Nat := Nat.dist (m * 2 ^ k * d) (n * 2 ^ 1074)

/-- No number of the format is nearer to `n / d`, and if another one is as near, the significand is
    even. -/
structure IsNearest (n d m k : Nat) : Prop where
  canonical : (finite m k).IsCanonical
  nearest : ∀ {m' k'}, (finite m' k').IsCanonical → distance n d m k ≤ distance n d m' k'
  even : ∀ {m' k'}, (finite m' k').IsCanonical → distance n d m' k' = distance n d m k →
    finite m' k' ≠ finite m k → m % 2 = 0

theorem eq_of_isCanonical {m k m' k' : Nat} (h : (finite m k).IsCanonical)
    (h' : (finite m' k').IsCanonical) (same : m * 2 ^ k = m' * 2 ^ k') :
    finite m k = finite m' k' := by
  have pos : 0 < 2 ^ 1074 := Nat.two_pow_pos 1074
  have own : ofRatio (m * 2 ^ k) (2 ^ 1074) = finite m k := ofRatio_exact h pos rfl
  rw [← own, same]
  exact ofRatio_exact h' pos rfl

theorem normalize_eq {m k m' k' : Nat} (h : normalize m k = finite m' k') :
    m' * 2 ^ k' = m * 2 ^ k ∧ (m % 2 = 0 → m' % 2 = 0) := by
  simp only [normalize, Nat.pow_eq] at h
  by_cases full : m = 2 ^ 53
  · simp only [full, ↓reduceIte] at h
    split at h
    · cases h
    · cases h
      rw [full, ← Nat.pow_add, ← Nat.pow_add]
      exact ⟨congrArg _ (by omega), fun _ => rfl⟩
  · simp only [full, ↓reduceIte] at h
    split at h
    · cases h
    · cases h
      exact ⟨rfl, id⟩

theorem normalize_finite (m : Nat) {k : Nat} (small : k < 2045) : ∃ m' k', normalize m k = finite m' k' := by
  simp only [normalize, Nat.pow_eq]
  by_cases full : m = 2 ^ 53
  · simp only [full, ↓reduceIte]
    exact ⟨_, _, if_neg (by omega)⟩
  · simp only [full, ↓reduceIte]
    exact ⟨_, _, if_neg (by omega)⟩

/-- Among the multiples of the step that rounding takes is every number of the format that is not less
    than the least number of this scale, and that number is among them too. -/
theorem exists_multiple {units d s m k : Nat} (least : s ≠ 0 → 2 ^ 52 * (d * 2 ^ s) ≤ units)
    (pos : 0 < d) (canonical : (finite m k).IsCanonical) :
    ∃ j, m * 2 ^ k * d = j * (d * 2 ^ s) ∨
      Nat.dist (j * (d * 2 ^ s)) units < Nat.dist (m * 2 ^ k * d) units := by
  by_cases le : s ≤ k
  · refine ⟨m * 2 ^ (k - s), .inl ?_⟩
    rw [← Nat.sub_add_cancel le, Nat.pow_add, Nat.add_sub_cancel]
    ring
  · refine ⟨2 ^ 52, .inr ?_⟩
    have less : m * 2 ^ k * d < 2 ^ 52 * (d * 2 ^ s) := by
      calc m * 2 ^ k * d < 2 ^ 53 * 2 ^ k * d :=
            Nat.mul_lt_mul_of_pos_right
              (Nat.mul_lt_mul_of_pos_right canonical.1 (Nat.two_pow_pos k)) pos
        _ = 2 ^ 52 * (d * 2 ^ (k + 1)) := by rw [Nat.pow_succ 2 k]; ring
        _ ≤ 2 ^ 52 * (d * 2 ^ s) :=
            Nat.mul_le_mul_left _ (Nat.mul_le_mul_left d (Nat.pow_le_pow_right (by decide) (by omega)))
    have := least (by omega)
    unfold Nat.dist
    omega

theorem ofRatio_nearest {n d m k : Nat} (pos : 0 < d) (h : ofRatio n d = finite m k) :
    IsNearest n d m k := by
  have canonical : (finite m k).IsCanonical := h ▸ isCanonical_ofRatio n d
  simp only [ofRatio, Nat.pow_eq] at h
  generalize hs : (n * 2 ^ 1074 / d).log2 - 52 = s at h
  have step : 0 < d * 2 ^ s := Nat.mul_pos pos (Nat.two_pow_pos s)
  have least : s ≠ 0 → 2 ^ 52 * (d * 2 ^ s) ≤ n * 2 ^ 1074 := by
    intro some
    have large : n * 2 ^ 1074 / d ≠ 0 := by
      intro zero
      rw [zero] at hs
      exact some hs.symm
    have below := Nat.log2_self_le large
    rw [show Nat.log2 (n * 2 ^ 1074 / d) = 52 + s by omega, Nat.pow_add,
      Nat.le_div_iff_mul_le pos] at below
    calc 2 ^ 52 * (d * 2 ^ s) = 2 ^ 52 * 2 ^ s * d := by ring
      _ ≤ n * 2 ^ 1074 := below
  obtain ⟨value, even⟩ := normalize_eq h
  have own : m * 2 ^ k * d = roundHalfEven (n * 2 ^ 1074) (d * 2 ^ s) * (d * 2 ^ s) := by
    rw [value]
    ring
  have multiple := roundHalfEven_nearest (n * 2 ^ 1074) step
  refine ⟨canonical, fun {m' k'} canonical' => ?_, fun {m' k'} canonical' equal other => ?_⟩
  · unfold distance
    rw [own]
    obtain ⟨j, same | less⟩ := exists_multiple least pos canonical'
    · rw [same]
      exact (multiple j).1
    · exact Nat.le_of_lt (Nat.lt_of_le_of_lt (multiple j).1 less)
  · unfold distance at equal
    rw [own] at equal
    obtain ⟨j, same | less⟩ := exists_multiple least pos canonical'
    · rw [same] at equal
      refine even ((multiple j).2 equal fun rounded => other ?_)
      rw [rounded, ← own] at same
      exact eq_of_isCanonical canonical' canonical (Nat.eq_of_mul_eq_mul_right pos same)
    · exact absurd (multiple j).1 (by omega)

theorem ofNat_exact {n : Nat} (below : n < 2 ^ 53) :
    ∃ m k, ofNat n = finite m k ∧ m * 2 ^ k = n * 2 ^ 1074 := by
  by_cases zero : n = 0
  · subst zero
    exact ⟨0, 0, by decide +kernel, by rw [Nat.zero_mul, Nat.zero_mul]⟩
  · have size := (Nat.log2_lt zero).mpr below
    have low := Nat.log2_self_le zero
    have high := Nat.lt_log2_self (n := n)
    generalize n.log2 = l at size low high
    have value : n * 2 ^ (52 - l) * 2 ^ (1022 + l) = n * 2 ^ 1074 := by
      rw [Nat.mul_assoc, ← Nat.pow_add, show 52 - l + (1022 + l) = 1074 by omega]
    have canonical : (finite (n * 2 ^ (52 - l)) (1022 + l)).IsCanonical := by
      refine ⟨?_, .inr ?_, by omega⟩
      · calc n * 2 ^ (52 - l) < 2 ^ (l + 1) * 2 ^ (52 - l) :=
              Nat.mul_lt_mul_of_pos_right high (Nat.two_pow_pos _)
          _ = 2 ^ 53 := by rw [← Nat.pow_add]; congr 1; omega
      · calc 2 ^ 52 = 2 ^ l * 2 ^ (52 - l) := by rw [← Nat.pow_add]; congr 1; omega
          _ ≤ n * 2 ^ (52 - l) := Nat.mul_le_mul_right _ low
    exact ⟨_, _, ofRatio_exact canonical Nat.one_pos (by rw [value, Nat.mul_one]), value⟩

theorem ofNat_finite {n : Nat} (below : n < 2 ^ 64) : ∃ m k, ofNat n = finite m k := by
  simp only [ofNat, ofRatio, Nat.pow_eq, Nat.div_one]
  refine normalize_finite _ ?_
  by_cases zero : n * 2 ^ 1074 = 0
  · simp [zero]
  · have units : n * 2 ^ 1074 < 2 ^ (64 + 1074) := by
      rw [Nat.pow_add]
      have pos := Nat.two_pow_pos 1074
      generalize 2 ^ 1074 = unit at pos
      exact Nat.mul_lt_mul_of_pos_right below pos
    have := (Nat.log2_lt zero).mpr units
    omega

end Binary64

end PulseSyntax
