import PulseSyntax.Proofs.Token.Lossless
import PulseSyntax.Proofs.Token.Stream

namespace PulseSyntax

namespace TokenStream

theorem toList_ofList {init : List Token} {last : Token} (hk : last.kind = .endOfFile) :
    (ofList (init ++ [last])).toList = init ++ [last] := by
  have ends : (init ++ [last]).getLast? = some last := by simp
  unfold ofList
  split
  · next none =>
    rw [ends] at none
    cases none
  · next t some =>
    rw [ends, Option.some.injEq] at some
    subst some
    rw [dif_pos hk]
    rfl

theorem toList_ofList_tokenize (source : String) :
    (ofList (tokenize source)).toList = tokenize source := by
  have laid : Laid source.toList [] (tokenize source) := laid_tokens source.toList
  obtain ⟨init, whole, -⟩ := laid.ends
  rw [whole]
  exact toList_ofList rfl

theorem size_ofList_tokenize (source : String) :
    (ofList (tokenize source)).size = (tokenize source).length :=
  congrArg List.length (toList_ofList_tokenize source)

theorem getElem?_tokenize {source : String} {i : Nat}
    (h : ((ofList (tokenize source)).get i).kind ≠ .endOfFile) :
    (tokenize source)[i]? = some ((ofList (tokenize source)).get i) := by
  have inside := Nat.lt_of_succ_lt (lt_size_of_kind_ne h)
  rw [size_ofList_tokenize] at inside
  rw [get_eq, toList_ofList_tokenize, List.getElem?_eq_getElem inside, Option.getD_some]

theorem size_le_of_endOfFile {source : String} {i : Nat}
    (h : ((ofList (tokenize source)).get i).kind = .endOfFile) :
    (ofList (tokenize source)).size ≤ i + 1 := by
  have laid : Laid source.toList [] (tokenize source) := laid_tokens source.toList
  obtain ⟨init, whole, others⟩ := laid.ends
  rw [size_ofList_tokenize, whole, List.length_append, List.length_singleton]
  by_contra earlier
  have inside : i < init.length := by omega
  rw [get_eq, toList_ofList_tokenize, whole, List.getElem?_append_left inside,
    List.getElem?_eq_getElem inside] at h
  exact (others _ (List.getElem_mem inside)).1 h

/-- The tokens do not overlap, and each but the end of the file has a text. -/
structure Ordered (stream : TokenStream) : Prop where
  disjoint : ∀ {i j}, i < j → j < stream.size →
    (stream.get i).span.stop ≤ (stream.get j).span.start
  proper : ∀ i, (stream.get i).span.start ≤ (stream.get i).span.stop
  nonempty : ∀ {i}, (stream.get i).kind ≠ .endOfFile →
    (stream.get i).span.start < (stream.get i).span.stop

variable {stream : TokenStream} {i j : Nat}

theorem get_mem (stream : TokenStream) (i : Nat) : stream.get i ∈ stream.toList := by
  rw [get_eq]
  rcases Nat.lt_or_ge i stream.toList.length with inside | beyond
  · rw [List.getElem?_eq_getElem inside]
    exact List.getElem_mem inside
  · rw [List.getElem?_eq_none beyond, Option.getD_none, toList]
    exact Array.mem_toList_iff.mpr (Array.back_mem _)

theorem get_of_size_le (beyond : stream.size ≤ i) :
    stream.get i = stream.get (stream.size - 1) := by
  have some : 0 < stream.size := stream.nonempty
  have inside : stream.size - 1 < stream.toList.length := by
    rw [toList, Array.length_toList]
    exact Nat.sub_lt some Nat.one_pos
  have outside : stream.toList.length ≤ i := beyond
  rw [get_eq, get_eq, List.getElem?_eq_none outside, List.getElem?_eq_getElem inside]
  rfl

section

variable {α : Type} {first second : TokenStream} {f g : Token → α}

theorem size_congr (h : first.toList.map f = second.toList.map g) : first.size = second.size := by
  have length := congrArg List.length h
  rw [List.length_map, List.length_map] at length
  exact length

theorem get_congr (h : first.toList.map f = second.toList.map g) (i : Nat) :
    f (first.get i) = g (second.get i) := by
  have size := size_congr h
  have inside {i : Nat} (hi : i < first.size) : f (first.get i) = g (second.get i) := by
    have ha : i < first.toList.length := hi
    have hb : i < second.toList.length := Nat.lt_of_lt_of_eq hi size
    have here := congrArg (·[i]?) h
    rw [get_eq, get_eq, List.getElem?_eq_getElem ha, List.getElem?_eq_getElem hb]
    simpa [List.getElem?_eq_getElem ha, List.getElem?_eq_getElem hb] using here
  rcases Nat.lt_or_ge i first.size with hi | beyond
  · exact inside hi
  · have some : 0 < first.size := first.nonempty
    have beyond' : second.size ≤ i := size ▸ beyond
    rw [get_of_size_le beyond, get_of_size_le beyond', ← size]
    exact inside (by omega)

end

theorem get_le_get {f : Token → Nat}
    (step : ∀ {i j}, i < j → j < stream.size → f (stream.get i) ≤ f (stream.get j)) (le : i ≤ j) :
    f (stream.get i) ≤ f (stream.get j) := by
  have inside {i j : Nat} (le : i ≤ j) (hj : j < stream.size) :
      f (stream.get i) ≤ f (stream.get j) := by
    rcases Nat.eq_or_lt_of_le le with rfl | lt
    · exact Nat.le_refl _
    · exact step lt hj
  have some : 0 < stream.size := stream.nonempty
  rcases Nat.lt_or_ge j stream.size with hj | hj
  · exact inside le hj
  · rw [get_of_size_le hj]
    rcases Nat.lt_or_ge i stream.size with hi | hi
    · exact inside (by omega) (by omega)
    · rw [get_of_size_le hi]

theorem Ordered.stop_le_stop (h : stream.Ordered) (le : i ≤ j) :
    (stream.get i).span.stop ≤ (stream.get j).span.stop :=
  get_le_get (f := fun t => t.span.stop)
    (fun lt hj => Nat.le_trans (h.disjoint lt hj) (h.proper _)) le

theorem Ordered.start_le_start (h : stream.Ordered) (le : i ≤ j) :
    (stream.get i).span.start ≤ (stream.get j).span.start :=
  get_le_get (f := fun t => t.span.start)
    (fun lt hj => Nat.le_trans (h.proper _) (h.disjoint lt hj)) le

theorem Ordered.eq_of_span (h : stream.Ordered) (hi : (stream.get i).kind ≠ .endOfFile)
    (hj : (stream.get j).kind ≠ .endOfFile) (same : (stream.get i).span = (stream.get j).span) :
    i = j := by
  have apart {i j : Nat} (lt : i < j) (hi : (stream.get i).kind ≠ .endOfFile)
      (hj : (stream.get j).kind ≠ .endOfFile) : (stream.get i).span ≠ (stream.get j).span := by
    intro same
    have before := h.disjoint lt (Nat.lt_of_succ_lt (lt_size_of_kind_ne hj))
    have inside := h.nonempty hi
    rw [same] at before inside
    omega
  rcases Nat.lt_trichotomy i j with lt | eq | lt
  · exact absurd same (apart lt hi hj)
  · exact eq
  · exact absurd same.symm (apart lt hj hi)

theorem ordered_tokenize (source : String) : (ofList (tokenize source)).Ordered := by
  have laid : Laid source.toList [] (tokenize source) := laid_tokens source.toList
  have same := toList_ofList_tokenize source
  obtain ⟨init, whole, others⟩ := laid.ends
  have member (i : Nat) : (ofList (tokenize source)).get i ∈ init ∨
      (ofList (tokenize source)).get i = .endOfFile (Position.origin.after source.toList) := by
    have here := get_mem (ofList (tokenize source)) i
    rwa [same, whole, List.mem_append, List.mem_singleton, ← whole] at here
  refine ⟨fun {i j} lt hj => ?_, fun i => ?_, fun {i} hk => ?_⟩
  · rw [size_ofList_tokenize] at hj
    rw [get_eq, get_eq, same, List.getElem?_eq_getElem hj,
      List.getElem?_eq_getElem (Nat.lt_trans lt hj)]
    exact List.pairwise_iff_getElem.mp laid.ordered i j (Nat.lt_trans lt hj) hj lt
  · rcases member i with inside | atEnd
    · exact Nat.le_of_lt (others _ inside).2
    · rw [atEnd]
      exact Nat.le_refl _
  · rcases member i with inside | atEnd
    · exact (others _ inside).2
    · rw [atEnd] at hk
      exact absurd rfl hk

end TokenStream

end PulseSyntax
