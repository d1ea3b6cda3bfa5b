import Mathlib.Order.Bounds.Basic
import ParseForest.Text.Context

/-!
# Context of a byte range

A text can be cut at the byte offsets at which it is a text before and a text after
(`exists_append_of_isValid`), and cut twice it is three texts (`exists_append_of_le`). So the three cuts that
the context of a byte range takes are all possible, whatever the range and the number of characters, and what
is cut out is said by characters alone (`context?_eq`).
-/

namespace ParseForest

/-! ## Bytes of characters -/

theorem byteLength_append (cs ds : List Char) : byteLength (cs ++ ds) = byteLength cs + byteLength ds := by
  induction cs with
  | nil => exact (Nat.zero_add _).symm
  | cons c cs ih => rw [List.cons_append, byteLength, byteLength, ih, Nat.add_assoc]

theorem byteLength_reverse (cs : List Char) : byteLength cs.reverse = byteLength cs := by
  induction cs with
  | nil => rfl
  | cons c cs ih => simp [byteLength_append, byteLength, ih, Nat.add_comm]

theorem byteLength_toList (s : String) : byteLength s.toList = s.utf8ByteSize := by
  induction s using String.push_induction with
  | empty => rfl
  | push s c ih => simp [byteLength_append, byteLength, ih]

/-! ## Where a text can be cut -/

/-- A text can be cut where it is a text before and a text after. -/
theorem exists_append_of_isValid {source : String} {i : Nat}
    (h : String.Pos.Raw.IsValid source ⟨i⟩) : ∃ s t : String, source = s ++ t ∧ s.utf8ByteSize = i := by
  obtain ⟨s, t, rfl, hi⟩ := String.Pos.Raw.isValid_iff_exists_append.1 h
  exact ⟨s, t, rfl, congrArg String.Pos.Raw.byteIdx hi.symm⟩

theorem isValid_append (s t : String) : String.Pos.Raw.IsValid (s ++ t) ⟨s.utf8ByteSize⟩ :=
  String.Pos.Raw.isValid_iff_exists_append.2 ⟨s, t, rfl, rfl⟩

/-- A text that can be cut at two offsets is made of three texts. -/
theorem exists_append_of_le {source : String} {i j : Nat} (hi : String.Pos.Raw.IsValid source ⟨i⟩)
    (hj : String.Pos.Raw.IsValid source ⟨j⟩) (hle : i ≤ j) : ∃ s t u : String,
      source = s ++ t ++ u ∧ s.utf8ByteSize = i ∧ (s ++ t).utf8ByteSize = j := by
  obtain ⟨s, r, rfl, rfl⟩ := exists_append_of_isValid hi
  obtain ⟨s', u, heq, rfl⟩ := exists_append_of_isValid hj
  have hlists := congrArg String.toList heq
  rw [String.toList_append, String.toList_append, List.append_eq_append_iff] at hlists
  rcases hlists with ⟨t, hs', hr⟩ | ⟨t, hs, -⟩
  · have ht : s' = s ++ String.ofList t := String.toList_inj.1 (by simpa using hs')
    have hr' : r = String.ofList t ++ u := String.toList_inj.1 (by simpa using hr)
    exact ⟨s, String.ofList t, u, by rw [hr', String.append_assoc], rfl, by rw [ht]⟩
  · -- the second cut would be before the first
    have ht : s = s' ++ String.ofList t := String.toList_inj.1 (by simpa using hs)
    have hnil : String.ofList t = "" := by
      rw [ht, String.utf8ByteSize_append] at hle
      exact String.utf8ByteSize_eq_zero_iff.1 (by omega)
    rw [hnil, String.append_empty] at ht
    subst ht
    exact ⟨s, "", r, by simp, rfl, by simp⟩

/-- The middle of three texts is cut out by its offsets. -/
theorem cut?_append (s t u : String) :
    cut? (s ++ t ++ u) s.utf8ByteSize (s ++ t).utf8ByteSize = some t := by
  have hs : String.Pos.Raw.IsValid (s ++ t ++ u) ⟨s.utf8ByteSize⟩ := by
    rw [String.append_assoc]
    exact isValid_append s (t ++ u)
  have hle : s.utf8ByteSize ≤ (s ++ t).utf8ByteSize := by simp
  rw [cut?, dif_pos ⟨hs, isValid_append _ u, hle⟩]
  refine congrArg some (String.toByteArray_inj.1 ?_)
  rw [String.toByteArray_extract, String.offset_pos, String.offset_pos, String.append_assoc,
    String.toByteArray_append, String.toByteArray_append, String.utf8ByteSize_append]
  calc (s.toByteArray ++ (t.toByteArray ++ u.toByteArray)).extract (s.toByteArray.size + 0)
        (s.toByteArray.size + t.toByteArray.size)
      = (t.toByteArray ++ u.toByteArray).extract 0 t.toByteArray.size :=
        ByteArray.extract_append_size_add
    _ = t.toByteArray := ByteArray.extract_append_eq_left rfl

theorem cut?_front (s t : String) : cut? (s ++ t) 0 s.utf8ByteSize = some s := by
  simpa using cut?_append "" s t

theorem cut?_back (s t : String) : cut? (s ++ t) s.utf8ByteSize (s ++ t).utf8ByteSize = some t := by
  simpa using cut?_append s t ""

/-- Moving down stops at the last offset at which the text can be cut. -/
theorem isGreatest_floorOffset (source : String) (n : Nat) :
    IsGreatest {i | String.Pos.Raw.IsValid source ⟨i⟩ ∧ i ≤ n} (floorOffset source n) := by
  induction n with
  | zero => exact ⟨⟨String.Pos.Raw.isValid_zero, Nat.le_refl 0⟩, fun i hi => hi.2⟩
  | succ n ih =>
    rw [floorOffset]
    split
    · rename_i h
      exact ⟨⟨String.Pos.Raw.isValid_eq_true_iff.1 h, Nat.le_refl _⟩, fun i hi => hi.2⟩
    · rename_i h
      refine ⟨⟨ih.1.1, ih.1.2.trans (Nat.le_succ n)⟩, fun i hi => ih.2 ⟨hi.1, ?_⟩⟩
      refine Nat.le_of_lt_succ (Nat.lt_of_le_of_ne hi.2 ?_)
      rintro rfl
      exact h (String.Pos.Raw.isValid_eq_true_iff.2 hi.1)

/-! ## What is cut out -/

/-- The last characters of a text, and what is before them. -/
theorem exists_append_last (s : String) (radius : Nat) : ∃ front left : String,
    s = front ++ left ∧ left.length = min radius s.length ∧
      byteLength (s.toList.reverse.take radius) = left.utf8ByteSize := by
  refine ⟨String.ofList (s.toList.take (s.toList.length - radius)),
    String.ofList (s.toList.drop (s.toList.length - radius)), ?_, ?_, ?_⟩
  · rw [← String.ofList_append, List.take_append_drop, String.ofList_toList]
  · rw [String.length_ofList, List.length_drop, String.length_toList]
    omega
  · rw [List.take_reverse, byteLength_reverse, ← byteLength_toList, String.toList_ofList]

/-- The first characters of a text, and what is after them. -/
theorem exists_append_first (s : String) (radius : Nat) : ∃ right back : String,
    s = right ++ back ∧ right.length = min radius s.length ∧
      byteLength (s.toList.take radius) = right.utf8ByteSize := by
  refine ⟨String.ofList (s.toList.take radius), String.ofList (s.toList.drop radius), ?_, ?_, ?_⟩
  · rw [← String.ofList_append, List.take_append_drop, String.ofList_toList]
  · rw [String.length_ofList, List.length_take, String.length_toList]
  · rw [← byteLength_toList, String.toList_ofList]

/-- Where the range is that of the middle one of five texts, and the texts next to it are as long as the number
of characters goes, the three texts in the middle are cut out. -/
theorem context?_append {source front left inside right back : String} {start stop radius : Nat}
    (hsource : source = front ++ left ++ inside ++ right ++ back)
    (hstart : floorOffset source (min start source.utf8ByteSize) = (front ++ left).utf8ByteSize)
    (hstop : max (floorOffset source (min stop source.utf8ByteSize)) (front ++ left).utf8ByteSize =
      (front ++ left ++ inside).utf8ByteSize)
    (hbefore : byteLength ((front ++ left).toList.reverse.take radius) = left.utf8ByteSize)
    (hafter : byteLength ((right ++ back).toList.take radius) = right.utf8ByteSize) :
    context? source start stop radius = some (left ++ inside ++ right) := by
  have hfront : cut? source 0 (front ++ left).utf8ByteSize = some (front ++ left) := by
    have := cut?_front (front ++ left) (inside ++ (right ++ back))
    rwa [← String.append_assoc, ← String.append_assoc, ← hsource] at this
  have hback : cut? source (front ++ left ++ inside).utf8ByteSize source.utf8ByteSize =
      some (right ++ back) := by
    have := cut?_back (front ++ left ++ inside) (right ++ back)
    rwa [← String.append_assoc, ← hsource] at this
  have hwhole : cut? source ((front ++ left).utf8ByteSize - left.utf8ByteSize)
      ((front ++ left ++ inside).utf8ByteSize + right.utf8ByteSize) = some (left ++ inside ++ right) := by
    have := cut?_append front (left ++ inside ++ right) back
    simp only [← String.append_assoc, ← hsource] at this
    rwa [String.utf8ByteSize_append, Nat.add_sub_cancel, ← String.utf8ByteSize_append]
  simp only [context?, hstart, hstop, hfront, hback, hbefore, hafter, Option.bind_eq_bind, Option.bind_some,
    hwhole]

/-- The context is a valid part of the text. For every text, all byte offsets and every number of
characters: the text is cut only where it can be, and what is cut out is the range between the offsets, each
clamped to the text and moved down to where the text can be cut, the second to no less than the first, with as
many characters on either side as there are, up to this number. -/
theorem context?_eq (source : String) (start stop radius : Nat) :
    ∃ front left inside right back : String,
      source = front ++ left ++ inside ++ right ++ back ∧
      (∃ first last,
        IsGreatest {i | String.Pos.Raw.IsValid source ⟨i⟩ ∧ i ≤ min start source.utf8ByteSize} first ∧
        IsGreatest {i | String.Pos.Raw.IsValid source ⟨i⟩ ∧ i ≤ min stop source.utf8ByteSize} last ∧
        (front ++ left).utf8ByteSize = first ∧
        (front ++ left ++ inside).utf8ByteSize = max last first) ∧
      left.length = min radius (front ++ left).length ∧
      right.length = min radius (right ++ back).length ∧
      context? source start stop radius = some (left ++ inside ++ right) ∧
      contextAround source start stop radius = left ++ inside ++ right := by
  have hfirst := isGreatest_floorOffset source (min start source.utf8ByteSize)
  have hlast := isGreatest_floorOffset source (min stop source.utf8ByteSize)
  generalize hs : floorOffset source (min start source.utf8ByteSize) = first at hfirst
  generalize hu : floorOffset source (min stop source.utf8ByteSize) = last at hlast
  have hvalid : String.Pos.Raw.IsValid source ⟨max last first⟩ := by
    rcases Nat.le_total last first with hle | hle
    · rw [Nat.max_eq_right hle]
      exact hfirst.1.1
    · rw [Nat.max_eq_left hle]
      exact hlast.1.1
  obtain ⟨s, inside, u, hsource, hsize, hinside⟩ :=
    exists_append_of_le hfirst.1.1 hvalid (Nat.le_max_right last first)
  obtain ⟨front, left, rfl, hleft, hbefore⟩ := exists_append_last s radius
  obtain ⟨right, back, rfl, hright, hafter⟩ := exists_append_first u radius
  rw [← String.append_assoc] at hsource
  have hcontext : context? source start stop radius = some (left ++ inside ++ right) :=
    context?_append hsource (hs.trans hsize.symm) (by rw [hu, hsize, hinside]) hbefore hafter
  refine ⟨front, left, inside, right, back, hsource, ⟨first, last, hfirst, hlast, hsize, hinside⟩, hleft,
    hright, hcontext, ?_⟩
  rw [contextAround, hcontext, Option.getD_some]

/-- From the second byte of `β` to the end of `γ`, and one character more on each side -/
example : contextAround "αβγ δε" 3 6 1 = "αβγ " := by decide +kernel

end ParseForest
