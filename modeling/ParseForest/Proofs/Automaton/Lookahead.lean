import Mathlib.Data.Finset.Card
import Mathlib.Logic.Function.Basic
import ParseForest.Proofs.Automaton.Propagation

/-!
# Sets of lookaheads are finite sets

A set in words has the digits of a number (`PackedSet.unpack`), and each operation on words is that on the
number; for the members, listed word by word, this is `PackedSet.slots_eq`. On the number, the operations are
those of finite sets (`LookaheadSet.Collects`). So whatever members are added to some sets, and whichever sets
to others, the words answer as the finite sets do (`PackedSet.calls_exact`), if no terminal has the digit of the
end, as the last one has when there are `2 ^ 32` of them (`PackedSet.end_of_last_terminal`).
-/

namespace ParseForest

/-! ## Digits of words -/

namespace PackedSet

theorem testBit_digitAt {place : Nat} (h : place < wordSize) (j : Nat) :
    (digitAt place).toNat.testBit j = decide (place = j) := by
  have hplace : place < 2 ^ 64 := Nat.lt_trans h (by decide)
  have hpow : 2 ^ place < 2 ^ 64 := Nat.pow_lt_pow_right (by decide) h
  have hmod : place % 64 = place := Nat.mod_eq_of_lt h
  rw [digitAt, UInt64.toNat_shiftLeft, UInt64.toNat_ofNat', Nat.mod_eq_of_lt hplace, hmod,
    UInt64.toNat_one, Nat.one_shiftLeft, Nat.mod_eq_of_lt hpow, Nat.testBit_two_pow]

/-- A word and the digit at a place have something in common if the digit is set. -/
theorem and_digitAt_bne_zero {place : Nat} (h : place < wordSize) (word : UInt64) :
    (word &&& digitAt place != 0) = word.toNat.testBit place := by
  have hbits : ∀ j, (word &&& digitAt place).toNat.testBit j =
      (word.toNat.testBit j && decide (place = j)) := by
    intro j
    rw [UInt64.toNat_and, Nat.testBit_and, testBit_digitAt h]
  rw [Bool.eq_iff_iff, bne_iff_ne, ne_eq, ← UInt64.toNat_inj]
  constructor
  · intro hne
    by_contra hnot
    refine hne (Nat.eq_of_testBit_eq fun j => ?_)
    rw [hbits, UInt64.toNat_zero, Nat.zero_testBit, Bool.and_eq_false_iff, decide_eq_false_iff_not]
    by_cases hj : place = j
    · exact .inl (hj ▸ Bool.eq_false_iff.2 hnot)
    · exact .inr hj
  · intro hbit hzero
    have := hbits place
    rw [hzero, UInt64.toNat_zero, Nat.zero_testBit, hbit, decide_eq_true rfl] at this
    cases this

theorem testBit_of_wordSize_le (word : UInt64) {j : Nat} (h : wordSize ≤ j) :
    word.toNat.testBit j = false :=
  Nat.testBit_lt_two_pow (Nat.lt_of_lt_of_le word.toNat_lt (Nat.pow_le_pow_right (by decide) h))

theorem word_ext {v w : UInt64} (h : ∀ j < wordSize, v.toNat.testBit j = w.toNat.testBit j) : v = w := by
  refine UInt64.toNat_inj.1 (Nat.eq_of_testBit_eq fun j => ?_)
  by_cases hj : j < wordSize
  · exact h j hj
  · rw [testBit_of_wordSize_le v (Nat.not_lt.1 hj), testBit_of_wordSize_le w (Nat.not_lt.1 hj)]

/-- The number with the digits of some words. -/
def digitsOf : List UInt64 → Nat
  | [] => 0
  | word :: words => word.toNat ||| digitsOf words <<< wordSize

theorem testBit_digitsOf_of_lt {i : Nat} (h : i < wordSize) (word : UInt64) (words : List UInt64) :
    (digitsOf (word :: words)).testBit i = word.toNat.testBit i := by
  simp [digitsOf, Nat.testBit_or, Nat.testBit_shiftLeft, Nat.not_le.2 h]

theorem testBit_digitsOf_add (word : UInt64) (words : List UInt64) (i : Nat) :
    (digitsOf (word :: words)).testBit (wordSize + i) = (digitsOf words).testBit i := by
  simp [digitsOf, Nat.testBit_or, Nat.testBit_shiftLeft, testBit_of_wordSize_le]

theorem testBit_digitsOf (words : List UInt64) (i : Nat) : (digitsOf words).testBit i =
    (words.getD (i / wordSize) 0).toNat.testBit (i % wordSize) := by
  induction words generalizing i with
  | nil => simp [digitsOf]
  | cons word words ih =>
    by_cases h : i < wordSize
    · rw [testBit_digitsOf_of_lt h, Nat.div_eq_of_lt h, Nat.mod_eq_of_lt h, List.getD_cons_zero]
    · obtain ⟨j, rfl⟩ := Nat.exists_eq_add_of_le (Nat.not_lt.1 h)
      rw [testBit_digitsOf_add, ih, Nat.add_div_left _ (by decide), Nat.add_mod_left,
        List.getD_cons_succ]

theorem digitsOf_eq_zero_iff (words : List UInt64) : digitsOf words = 0 ↔ ∀ word ∈ words, word = 0 := by
  induction words with
  | nil => simp [digitsOf]
  | cons word words ih =>
    have hword : word.toNat = 0 ↔ word = 0 := UInt64.toNat_inj (b := 0)
    rw [digitsOf, Nat.or_eq_zero_iff, Nat.shiftLeft_eq_zero_iff, ih, List.forall_mem_cons, hword]

/-! ## Words as a number -/

/-- Whether a digit is set. -/
def bit (s : PackedSet) (i : Nat) : Bool :=
  (s.words.getD (i / wordSize) 0).toNat.testBit (i % wordSize)

/-- The set with the same digits as a number. -/
def unpack (s : PackedSet) : LookaheadSet := ⟨digitsOf s.words.toList, s.terminals.toNat⟩

/-- Number of terminals with a digit of their own. The others, if there are any, are past what 32 bits can say. -/
def room (n : Nat) : Nat := min n (UInt32.size - 1)

/-- The set has the words of the empty set over `n` terminals. -/
structure Sized (n : Nat) (s : PackedSet) : Prop where
  size_eq : s.words.size = wordCount n
  terminals_eq : s.terminals.toNat = room n

variable {n : Nat} {s t : PackedSet}

/-- There is a word for each digit that the number has room for. -/
theorem Sized.capacity_le (hs : s.Sized n) : s.unpack.capacity ≤ s.words.size * wordSize := by
  have hle : s.unpack.terminals ≤ n := Nat.le_trans (Nat.le_of_eq hs.terminals_eq) (Nat.min_le_left _ _)
  rw [hs.size_eq]
  exact Nat.mul_le_mul_right _ (Nat.div_le_div_right (by simp only [wordSize, LookaheadSet.blockSize]; omega))

theorem Sized.div_lt_size (hs : s.Sized n) {i : Nat} (h : i < s.unpack.capacity) : i / wordSize < s.words.size :=
  (Nat.div_lt_iff_lt_mul (by decide)).2 (Nat.lt_of_lt_of_le h hs.capacity_le)

theorem slot_unpack (s : PackedSet) (l : Lookahead) : s.unpack.slot l = s.slot l := by
  cases l <;> rfl

theorem testBit_unpack (s : PackedSet) (i : Nat) : s.unpack.digits.testBit i = s.bit i := by
  rw [unpack, testBit_digitsOf, bit, List.getD_eq_getElem?_getD, Array.getD_eq_getD_getElem?,
    Array.getElem?_toList]

/-- Sets of one size are equal if their digits are. -/
theorem eq_of_unpack_eq (hs : s.Sized n) (ht : t.Sized n) (h : s.unpack = t.unpack) : s = t := by
  have hterminals : s.terminals = t.terminals := UInt32.toNat_inj.1 (congrArg LookaheadSet.terminals h)
  have hsize : s.words.size = t.words.size := hs.size_eq.trans ht.size_eq.symm
  have hwords : s.words = t.words := by
    refine Array.ext hsize fun k hk hk' => word_ext fun j hj => ?_
    have hbit : s.bit (wordSize * k + j) = t.bit (wordSize * k + j) := by
      rw [← testBit_unpack, ← testBit_unpack, h]
    rw [bit, bit, Nat.mul_add_div (by decide), Nat.div_eq_of_lt hj, Nat.mul_add_mod, Nat.mod_eq_of_lt hj] at hbit
    simpa [Array.getD, hk, hk'] using hbit
  cases s
  cases t
  cases hterminals
  cases hwords
  rfl

/-! ## Operations on words are those on the number -/

theorem unpack_ext {u : LookaheadSet} (hterminals : s.terminals.toNat = u.terminals)
    (h : ∀ i, s.bit i = u.digits.testBit i) : s.unpack = u := by
  obtain ⟨digits, terminals⟩ := u
  cases hterminals
  refine congrArg (LookaheadSet.mk · s.terminals.toNat) (Nat.eq_of_testBit_eq fun i => ?_)
  exact (testBit_unpack s i).trans (h i)

theorem terminals_empty (n : Nat) : (empty n).terminals.toNat = room n := by
  rw [empty, room]
  by_cases h : n < UInt32.size
  · rw [UInt32.toNat_ofNatClamp_of_lt h, Nat.min_eq_left (Nat.le_sub_one_of_lt h)]
  · have hle := Nat.not_lt.1 h
    rw [UInt32.toNat_ofNatClamp_of_le hle, Nat.min_eq_right (Nat.le_trans (Nat.sub_le _ _) hle)]

theorem sized_empty (n : Nat) : (empty n).Sized n := ⟨Array.size_replicate, terminals_empty n⟩

theorem bit_empty (n i : Nat) : (empty n).bit i = false := by
  rw [bit, empty, Array.getD_eq_getD_getElem?, Array.getElem?_replicate]
  split <;> simp

theorem unpack_empty (n : Nat) : (empty n).unpack = LookaheadSet.empty (room n) :=
  unpack_ext (terminals_empty n) fun i => by rw [bit_empty, LookaheadSet.empty, Nat.zero_testBit]

/-- To set a digit in the word it is in leaves all others as they are. -/
theorem bit_modify {k : Nat} (hk : k / wordSize < s.words.size) (i : Nat) :
    bit { s with words := s.words.modify (k / wordSize) (· ||| digitAt (k % wordSize)) } i =
      (s.bit i || decide (k = i)) := by
  simp only [bit, Array.getD_eq_getD_getElem?, Array.getElem?_modify]
  by_cases hword : k / wordSize = i / wordSize
  · obtain ⟨word, hget⟩ : ∃ word, s.words[i / wordSize]? = some word :=
      ⟨_, Array.getElem?_eq_getElem (hword ▸ hk)⟩
    have hplace : k % wordSize = i % wordSize ↔ k = i :=
      ⟨fun hmod => by rw [← Nat.div_add_mod k wordSize, hword, hmod, Nat.div_add_mod],
        fun h => by rw [h]⟩
    rw [if_pos hword, hget]
    simp only [Option.map_some, Option.getD_some, UInt64.toNat_or, Nat.testBit_or]
    rw [testBit_digitAt (Nat.mod_lt _ (by decide)), decide_eq_decide.2 hplace]
  · have hne : k ≠ i := fun h => hword (by rw [h])
    rw [if_neg hword, decide_eq_false hne, Bool.or_false]

/-- A member is added if the set has room for it. -/
theorem unpack_insert? (hs : s.Sized n) {l : Lookahead} (h : s.slot l < s.unpack.capacity) :
    ∃ s', s.insert? l = some s' ∧ s'.Sized n ∧ s'.unpack = s.unpack.insert l := by
  have hword := hs.div_lt_size h
  refine ⟨_, if_pos hword, ?_, unpack_ext ?_ fun i => ?_⟩
  · exact ⟨Array.size_modify.trans hs.size_eq, hs.terminals_eq⟩
  · exact (LookaheadSet.terminals_insert (s := s.unpack) l).symm
  · rw [LookaheadSet.insert, slot_unpack, if_pos h, bit_modify hword]
    simp only [Nat.testBit_or, Nat.one_shiftLeft, Nat.testBit_two_pow, testBit_unpack]

theorem sized_unionWith (hs : s.Sized n) (t : PackedSet) : (s.unionWith t).1.Sized n :=
  ⟨Array.size_mapIdx.trans hs.size_eq, hs.terminals_eq⟩

/-- The words of a union are those of the union of the numbers, if the number has room for what is added. -/
theorem unpack_unionWith (hs : s.Sized n) (ht : ∀ i, t.bit i = true → i < s.unpack.capacity) :
    (s.unionWith t).1.unpack = s.unpack.union t.unpack := by
  refine unpack_ext rfl fun i => ?_
  have hunion : (s.unionWith t).1.bit i = true ↔ s.bit i = true ∨ (i / wordSize < s.words.size ∧ t.bit i = true) := by
    simp only [bit, unionWith, Array.getD_eq_getD_getElem?, Array.getElem?_mapIdx]
    by_cases hk : i / wordSize < s.words.size
    · simp [hk]
    · simp [hk]
  rw [Bool.eq_iff_iff, LookaheadSet.testBit_union, testBit_unpack, testBit_unpack, hunion]
  exact or_congr_right ⟨fun h => ⟨ht i h.2, h.2⟩, fun h => ⟨hs.div_lt_size h.1, h.2⟩⟩

theorem unionWith_fst_eq_iff (s t : PackedSet) : (s.unionWith t).1 = s ↔
    ∀ k mine, s.words[k]? = some mine → mine ||| t.words.getD k 0 = mine := by
  constructor
  · intro h k mine hget
    have hk := congrArg (·.words[k]?) h
    simpa [unionWith, hget] using hk
  · intro h
    have hwords : (s.words.mapIdx fun k mine => mine ||| t.words.getD k 0) = s.words := by
      refine Array.ext_getElem? fun k => ?_
      rw [Array.getElem?_mapIdx]
      cases hget : s.words[k]? with
      | none => rfl
      | some mine => exact congrArg some (h k mine hget)
    exact congrArg (PackedSet.mk · s.terminals) hwords

/-- A union says that it has changed something exactly if it has: where the other set has no word, there is
nothing to add. -/
theorem unionWith_snd_iff (s t : PackedSet) : (s.unionWith t).2 = true ↔ (s.unionWith t).1 ≠ s := by
  rw [ne_eq, unionWith_fst_eq_iff, ← Bool.not_eq_false, not_iff_not]
  simp only [unionWith, Array.any_eq_false', Array.mem_iff_getElem?, bne_iff_ne, not_not, Prod.forall,
    Array.getElem?_zip_eq_some, Array.getD_eq_getD_getElem?]
  constructor
  · intro h k mine hmine
    cases htheirs : t.words[k]? with
    | none => exact UInt64.or_zero
    | some theirs => exact h mine theirs ⟨k, hmine, htheirs⟩
  · rintro h mine theirs ⟨k, hmine, htheirs⟩
    have := h k mine hmine
    rwa [htheirs, Option.getD_some] at this

theorem contains_unpack (s : PackedSet) (l : Lookahead) : s.unpack.contains l = s.contains l := by
  rw [LookaheadSet.contains, slot_unpack, testBit_unpack, bit, contains, Array.getD_eq_getD_getElem?]
  cases s.words[s.slot l / wordSize]? with
  | none => simp
  | some word =>
    rw [Option.getD_some, Option.any_some, and_digitAt_bne_zero (Nat.mod_lt _ (by decide))]

/-- What is added is a member, and so is every other lookahead with the same digit. -/
theorem contains_insert? {l l' : Lookahead} (h : s.insert? l = some t) :
    t.contains l' = (s.contains l' || decide (s.slot l = s.slot l')) := by
  rw [insert?] at h
  split at h
  · rename_i hword
    obtain rfl := Option.some.inj h
    simp only [← contains_unpack, LookaheadSet.contains, slot_unpack, testBit_unpack, bit_modify hword]
    cases l' <;> rfl
  · cases h

theorem isEmpty_unpack (s : PackedSet) : s.unpack.isEmpty = s.isEmpty := by
  rw [Bool.eq_iff_iff, LookaheadSet.isEmpty, beq_iff_eq, unpack, digitsOf_eq_zero_iff, isEmpty,
    Array.all_eq_true_iff_forall_mem]
  simp

theorem onesOf_eq (word : UInt64) : onesOf word = (List.range wordSize).filter word.toNat.testBit := by
  have hones : (List.range wordSize).filter (fun place => word &&& digitAt place != 0) =
      (List.range wordSize).filter word.toNat.testBit :=
    List.filter_congr fun place hplace => and_digitAt_bne_zero (List.mem_range.1 hplace) word
  rw [onesOf, hones]
  split
  · rename_i hzero
    simp [hzero]
  · rfl

/-- The digits that are set in some words, word by word, are those that are set in the number. -/
theorem slots_eq (words : List UInt64) (k : Nat) :
    (words.zipIdx k).flatMap (fun (word, k) => (onesOf word).map (wordSize * k + ·)) =
      ((List.range (words.length * wordSize)).filter (digitsOf words).testBit).map (wordSize * k + ·) := by
  induction words generalizing k with
  | nil => simp
  | cons word words ih =>
    have hfirst : (List.range wordSize).filter (digitsOf (word :: words)).testBit = onesOf word := by
      rw [onesOf_eq]
      exact List.filter_congr fun place hplace => testBit_digitsOf_of_lt (List.mem_range.1 hplace) word words
    have hrest : (List.range (words.length * wordSize)).filter
        ((digitsOf (word :: words)).testBit ∘ (wordSize + ·)) =
        (List.range (words.length * wordSize)).filter (digitsOf words).testBit :=
      List.filter_congr fun i _ => testBit_digitsOf_add word words i
    rw [List.zipIdx_cons, List.flatMap_cons, ih, List.length_cons, Nat.succ_mul, Nat.add_comm _ wordSize,
      List.range_add, List.filter_append, List.filter_map, hfirst, hrest, List.map_append, List.map_map]
    refine congrArg _ (List.map_congr_left fun i _ => ?_)
    rw [Function.comp_apply, Nat.mul_succ, Nat.add_assoc]

/-- Digits that are set are found below any bound. -/
theorem filter_range_of_le {a b : Nat} {p : Nat → Bool} (hab : a ≤ b) (h : ∀ i, p i = true → i < a) :
    (List.range b).filter p = (List.range a).filter p := by
  obtain ⟨c, rfl⟩ := Nat.exists_eq_add_of_le hab
  have hnone : ((List.range c).map (a + ·)).filter p = [] := by
    refine List.filter_eq_nil_iff.2 fun i hi hp => ?_
    obtain ⟨j, -, rfl⟩ := List.mem_map.1 hi
    exact Nat.not_lt.2 (Nat.le_add_right a j) (h _ hp)
  rw [List.range_add, List.filter_append, hnone, List.append_nil]

theorem slots_unpack (hs : s.Sized n) (hover : s.unpack.Over (room n)) :
    s.unpack.slots = s.words.toList.zipIdx.flatMap fun (word, k) => (onesOf word).map (wordSize * k + ·) := by
  have hlt : ∀ i, s.unpack.digits.testBit i = true → i < s.unpack.capacity := fun i hi =>
    Nat.lt_of_le_of_lt (hover.terminals_eq ▸ hover.le_of_testBit i hi) s.unpack.lt_capacity
  rw [slots_eq, LookaheadSet.slots, Array.length_toList]
  simp only [Nat.mul_zero, Nat.zero_add, List.map_id']
  exact (filter_range_of_le hs.capacity_le hlt).symm

/-- What is put together from the last word to the first stands in the order of the words. -/
theorem foldRev_append (words : Array UInt64) (f : Nat → UInt64 → List Lookahead) :
    words.size.foldRev (fun k h rest => f k words[k] ++ rest) [] =
      words.toList.zipIdx.flatMap fun (word, k) => f k word := by
  have hfold : ∀ n (hn : n ≤ words.size) (rest : List Lookahead),
      n.foldRev (fun k h rest => f k words[k] ++ rest) rest =
        ((words.toList.take n).zipIdx.flatMap fun (word, k) => f k word) ++ rest := by
    intro n hn
    induction n with
    | zero => simp
    | succ n ih =>
      intro rest
      rw [Nat.foldRev_succ, ih (Nat.le_of_succ_le hn), List.take_succ_eq_append_getElem (Array.length_toList ▸ hn),
        List.zipIdx_append, List.flatMap_append]
      simp [Nat.min_eq_left (Nat.le_of_succ_le hn)]
  have htake : words.toList.take words.size = words.toList := List.take_of_length_le (by simp)
  rw [hfold _ (Nat.le_refl _) [], htake, List.append_nil]

theorem members_unpack (hs : s.Sized n) (hover : s.unpack.Over (room n)) : s.unpack.members = s.members := by
  have hslot : ∀ i ∈ s.unpack.slots, s.ofSlot? i = some (s.unpack.ofSlot i) := by
    intro i hi
    have hle : i ≤ s.terminals.toNat :=
      Nat.le_trans (hover.le_of_testBit i (List.mem_filter.1 hi).2) (Nat.le_of_eq hover.terminals_eq.symm)
    rw [ofSlot?, LookaheadSet.ofSlot, unpack]
    dsimp only
    split
    · rfl
    · rw [if_pos (Nat.lt_of_le_of_lt hle s.terminals.toNat_lt)]
  have hmembers : s.unpack.members = s.unpack.slots.filterMap s.ofSlot? := by
    rw [List.filterMap_congr hslot, LookaheadSet.members, ← List.filterMap_eq_map]
    rfl
  rw [hmembers, slots_unpack hs hover, members, foldRev_append, List.filterMap_flatMap]
  simp only [membersIn, List.filterMap_map, Function.comp_def]

theorem foldl_onesOf (words : List UInt64) (k n : Nat) :
    words.foldl (fun n word => n + (onesOf word).length) n =
      n + ((words.zipIdx k).flatMap fun (word, k) => (onesOf word).map (wordSize * k + ·)).length := by
  induction words generalizing k n with
  | nil => rfl
  | cons word words ih =>
    rw [List.foldl_cons, ih (k + 1), List.zipIdx_cons, List.flatMap_cons, List.length_append,
      List.length_map, Nat.add_assoc]

theorem size_unpack (hs : s.Sized n) (hover : s.unpack.Over (room n)) : s.unpack.size = s.size := by
  rw [LookaheadSet.size, slots_unpack hs hover, size, ← Array.foldl_toList, foldl_onesOf _ 0, Nat.zero_add]

end PackedSet

/-! ## A number as a finite set -/

namespace LookaheadSet

/-- The set is over `n` terminals, and has the members of a finite set. -/
structure Collects (n : Nat) (s : LookaheadSet) (M : Finset Lookahead) : Prop where
  isOver : s.Over n
  lists_iff : ∀ l, s.lists l = true ↔ l ∈ M

variable {n : Nat} {s t : LookaheadSet} {M N : Finset Lookahead}

theorem collects_empty (n : Nat) : (empty n).Collects n ∅ where
  isOver := over_empty n
  lists_iff l := iff_of_false (not_lists_empty n l) (Finset.notMem_empty l)

theorem Collects.insert (h : s.Collects n M) {l : Lookahead} (hl : l.IsOver n) :
    (s.insert l).Collects n (Insert.insert l M) where
  isOver := over_insert h.isOver hl
  lists_iff l' := by rw [lists_insert_iff h.isOver hl, h.lists_iff, Finset.mem_insert]

theorem Collects.union (hs : s.Collects n M) (ht : t.Collects n N) : (s.union t).Collects n (M ∪ N) where
  isOver := over_union hs.isOver ht.isOver.le_of_testBit
  lists_iff l := by rw [lists_union_iff hs.isOver ht.isOver, hs.lists_iff, ht.lists_iff, Finset.mem_union]

theorem testBit_iff_lists (hs : s.Over n) (i : Nat) :
    s.digits.testBit i = true ↔ i ≤ n ∧ s.lists (s.ofSlot i) = true := by
  have hslot : s.slot (s.ofSlot i) = i := by
    unfold ofSlot
    split
    · exact Eq.symm ‹_›
    · rfl
  have hover : i ≤ n → (s.ofSlot i).IsOver n := by
    intro hle
    unfold ofSlot
    split
    · trivial
    · exact Nat.lt_of_le_of_ne hle (hs.terminals_eq ▸ ‹_›)
  rw [lists_iff_testBit hs, hslot]
  exact ⟨fun hi => ⟨hs.le_of_testBit i hi, hover (hs.le_of_testBit i hi), hi⟩, fun h => h.2.2⟩

/-- There is only one set over `n` terminals with some members. -/
theorem Collects.eq_iff (hs : s.Collects n M) (ht : t.Collects n N) : s = t ↔ M = N := by
  constructor
  · rintro rfl
    exact Finset.ext fun l => (hs.lists_iff l).symm.trans (ht.lists_iff l)
  · rintro rfl
    obtain ⟨digits, terminals⟩ := s
    obtain ⟨digits', terminals'⟩ := t
    obtain rfl : terminals = terminals' := hs.isOver.terminals_eq.trans ht.isOver.terminals_eq.symm
    refine congrArg (LookaheadSet.mk · terminals) (Nat.eq_of_testBit_eq fun i => ?_)
    rw [Bool.eq_iff_iff, testBit_iff_lists hs.isOver i, testBit_iff_lists ht.isOver i, hs.lists_iff, ht.lists_iff]
    rfl

theorem Collects.contains_iff (h : s.Collects n M) {l : Lookahead} (hl : l.IsOver n) :
    s.contains l = true ↔ l ∈ M := by
  rw [← h.lists_iff, lists_iff_testBit h.isOver, contains]
  exact (and_iff_right hl).symm

theorem Collects.mem_members_iff (h : s.Collects n M) (l : Lookahead) : l ∈ s.members ↔ l ∈ M :=
  (LookaheadSet.mem_members_iff h.isOver).trans (h.lists_iff l)

/-- Members come in the order of their digits, of which that of the end is the last. -/
theorem pairwise_members (hs : s.Over n) : s.members.Pairwise fun a b => a.le b = true ∧ a ≠ b := by
  have hslots : s.slots.Pairwise (· < ·) := List.pairwise_lt_range.filter _
  refine List.pairwise_map.2 (hslots.imp_of_mem fun {i j} _ hj hlt => ?_)
  have hle : j ≤ s.terminals := hs.terminals_eq ▸ hs.le_of_testBit j (List.mem_filter.1 hj).2
  rw [ofSlot, ofSlot, if_neg (Nat.ne_of_lt (Nat.lt_of_lt_of_le hlt hle))]
  split
  · exact ⟨rfl, by simp⟩
  · exact ⟨decide_eq_true (Nat.le_of_lt hlt), fun h => Nat.ne_of_lt hlt (Lookahead.terminal.inj h)⟩

theorem nodup_members (hs : s.Over n) : s.members.Nodup := (pairwise_members hs).imp And.right

theorem Collects.size_eq (h : s.Collects n M) : s.size = M.card := by
  have hM : s.members.toFinset = M := Finset.ext fun l => List.mem_toFinset.trans (h.mem_members_iff l)
  rw [← hM, List.toFinset_card_of_nodup (nodup_members h.isOver), members, List.length_map, size]

theorem Collects.isEmpty_iff (h : s.Collects n M) : s.isEmpty = true ↔ M = ∅ := by
  rw [LookaheadSet.isEmpty_iff h.isOver, Finset.eq_empty_iff_forall_notMem]
  exact forall_congr' fun l => not_congr (h.lists_iff l)

end LookaheadSet

/-! ## Sequences of calls -/

/-- A call on one of some sets of lookaheads. -/
inductive SetCall (ι : Type)
  | insert (i : ι) (l : Lookahead)
  | unionWith (i j : ι)

namespace SetCall

/-- Members that are added are over a number of terminals. -/
def IsOver {ι : Type} (n : Nat) : SetCall ι → Prop
  | insert _ l => l.IsOver n
  | unionWith _ _ => True

variable {ι : Type} [DecidableEq ι]

/-- A call on finite sets. -/
def note (M : ι → Finset Lookahead) : SetCall ι → ι → Finset Lookahead
  | insert i l => Function.update M i (Insert.insert l (M i))
  | unionWith i j => Function.update M i (M i ∪ M j)

/-- A call on sets kept as numbers. -/
def apply (sets : ι → LookaheadSet) : SetCall ι → ι → LookaheadSet
  | insert i l => Function.update sets i ((sets i).insert l)
  | unionWith i j => Function.update sets i ((sets i).union (sets j))

/-- A call on sets kept in words, if there is a word for what it adds. -/
def run? (sets : ι → PackedSet) : SetCall ι → Option (ι → PackedSet)
  | insert i l => (sets i).insert? l |>.map (Function.update sets i)
  | unionWith i j => some (Function.update sets i ((sets i).unionWith (sets j)).1)

theorem collects_apply {n : Nat} {sets : ι → LookaheadSet} {M : ι → Finset Lookahead}
    (h : ∀ i, (sets i).Collects n (M i)) {c : SetCall ι} (hc : c.IsOver n) (k : ι) :
    (c.apply sets k).Collects n (c.note M k) := by
  cases c with
  | insert i l =>
    simp only [apply, note, Function.update_apply]
    split
    · exact (h i).insert hc
    · exact h k
  | unionWith i j =>
    simp only [apply, note, Function.update_apply]
    split
    · exact (h i).union (h j)
    · exact h k

theorem collects_foldl {n : Nat} {calls : List (SetCall ι)} (hcalls : ∀ c ∈ calls, c.IsOver n)
    {sets : ι → LookaheadSet} {M : ι → Finset Lookahead} (h : ∀ i, (sets i).Collects n (M i)) (i : ι) :
    (calls.foldl apply sets i).Collects n (calls.foldl note M i) := by
  induction calls generalizing sets M with
  | nil => exact h i
  | cons c calls ih =>
    exact ih (fun c hc => hcalls c (.tail _ hc)) (collects_apply h (hcalls c (.head _)))

end SetCall

namespace PackedSet

/-- The set has words for what is over `n` terminals, and the members of a finite set. -/
structure Stores (n : Nat) (s : PackedSet) (M : Finset Lookahead) : Prop where
  sized : s.Sized n
  collects : s.unpack.Collects (room n) M

variable {n : Nat} {s t : PackedSet} {M N : Finset Lookahead}

theorem stores_empty (n : Nat) : (empty n).Stores n ∅ where
  sized := sized_empty n
  collects := unpack_empty n ▸ LookaheadSet.collects_empty (room n)

theorem Stores.insert? (h : s.Stores n M) {l : Lookahead} (hl : l.IsOver (room n)) :
    ∃ s', s.insert? l = some s' ∧ s'.Stores n (insert l M) := by
  have hle : s.slot l ≤ s.unpack.terminals := by
    cases l with
    | terminal id => exact h.collects.isOver.terminals_eq ▸ Nat.le_of_lt hl
    | finish => exact Nat.le_refl _
  obtain ⟨s', hs', hsized, hunpack⟩ :=
    unpack_insert? h.sized (Nat.lt_of_le_of_lt hle s.unpack.lt_capacity)
  exact ⟨s', hs', hsized, hunpack ▸ h.collects.insert hl⟩

theorem Stores.unionWith (hs : s.Stores n M) (ht : t.Stores n N) : (s.unionWith t).1.Stores n (M ∪ N) := by
  have hunpack : (s.unionWith t).1.unpack = s.unpack.union t.unpack := by
    refine unpack_unionWith hs.sized fun i hi => Nat.lt_of_le_of_lt ?_ s.unpack.lt_capacity
    rw [hs.collects.isOver.terminals_eq]
    exact ht.collects.isOver.le_of_testBit i ((testBit_unpack t i).trans hi)
  exact ⟨sized_unionWith hs.sized t, hunpack ▸ hs.collects.union ht.collects⟩

theorem Stores.unionWith_snd_iff (hs : s.Stores n M) (ht : t.Stores n N) :
    (s.unionWith t).2 = true ↔ M ∪ N ≠ M := by
  have hst := hs.unionWith ht
  rw [PackedSet.unionWith_snd_iff, ne_eq, ne_eq, ← hst.collects.eq_iff hs.collects]
  exact not_congr ⟨congrArg unpack, eq_of_unpack_eq hst.sized hs.sized⟩

variable {ι : Type} [DecidableEq ι] {sets : ι → PackedSet} {calls : List (SetCall ι)}

/-- A call on sets in words is that on the finite sets that they store. -/
theorem stores_run? {M : ι → Finset Lookahead} (h : ∀ i, (sets i).Stores n (M i)) {c : SetCall ι}
    (hc : c.IsOver (room n)) : ∃ sets', c.run? sets = some sets' ∧ ∀ i, (sets' i).Stores n (c.note M i) := by
  cases c with
  | insert i l =>
    obtain ⟨s', hs', hstores⟩ := (h i).insert? hc
    refine ⟨Function.update sets i s', congrArg (Option.map _) hs', fun k => ?_⟩
    simp only [SetCall.note, Function.update_apply]
    split
    · exact hstores
    · exact h k
  | unionWith i j =>
    refine ⟨_, rfl, fun k => ?_⟩
    simp only [SetCall.note, Function.update_apply]
    split
    · exact (h i).unionWith (h j)
    · exact h k

theorem stores_foldlM {M : ι → Finset Lookahead} (h : ∀ i, (sets i).Stores n (M i))
    (hcalls : ∀ c ∈ calls, c.IsOver (room n)) : ∃ sets', calls.foldlM SetCall.run? sets = some sets' ∧
      ∀ i, (sets' i).Stores n (calls.foldl SetCall.note M i) := by
  induction calls generalizing sets M with
  | nil => exact ⟨sets, rfl, h⟩
  | cons c calls ih =>
    obtain ⟨sets', hrun, h'⟩ := stores_run? h (hcalls c (.head _))
    rw [List.foldlM_cons, hrun]
    exact ih h' fun c hc => hcalls c (.tail _ hc)

/-- Sets of lookaheads are finite sets. For every number of terminals and every sequence of calls that add
terminals below this number and below the largest of 32 bits, or the end, to empty sets and sets to each other,
there is a word for each member that is added, and after the calls each set contains the members of the finite set that the calls give, lists
each of them once, in increasing order with the end last, counts them, and is empty if there are none; a union
with another of the sets says that it has changed something exactly if there is something new in it. The
digits are those that the same calls give on numbers. -/
theorem calls_exact {ι : Type} [DecidableEq ι] {n : Nat} {calls : List (SetCall ι)}
    (h : ∀ c ∈ calls, c.IsOver (room n)) :
    let M := calls.foldl SetCall.note fun _ => ∅
    ∃ sets, calls.foldlM SetCall.run? (fun _ => empty n) = some sets ∧
      ∀ i,
        (∀ l, l.IsOver (room n) → ((sets i).contains l = true ↔ l ∈ M i)) ∧
        (∀ l, l ∈ (sets i).members ↔ l ∈ M i) ∧
        (sets i).members.Nodup ∧
        (sets i).members.Pairwise (fun a b => a.le b = true) ∧
        (sets i).size = (M i).card ∧
        ((sets i).isEmpty = true ↔ M i = ∅) ∧
        (∀ j, ((sets i).unionWith (sets j)).2 = true ↔ M i ∪ M j ≠ M i) ∧
        (sets i).unpack = calls.foldl SetCall.apply (fun _ => LookaheadSet.empty (room n)) i := by
  intro M
  obtain ⟨sets, hrun, hstores⟩ := stores_foldlM (fun _ => stores_empty n) h
  refine ⟨sets, hrun, fun i => ?_⟩
  obtain ⟨hsized, hcollects⟩ := hstores i
  rw [← members_unpack hsized hcollects.isOver, ← size_unpack hsized hcollects.isOver, ← isEmpty_unpack]
  refine ⟨fun l hl => ?_, hcollects.mem_members_iff, LookaheadSet.nodup_members hcollects.isOver,
    (LookaheadSet.pairwise_members hcollects.isOver).imp And.left, hcollects.size_eq, hcollects.isEmpty_iff,
    fun j => (hstores i).unionWith_snd_iff (hstores j), ?_⟩
  · rw [← contains_unpack, hcollects.contains_iff hl]
  · have happly := SetCall.collects_foldl h (fun _ => LookaheadSet.collects_empty (room n)) i
    exact (hcollects.eq_iff happly).2 rfl

/-- Of 64 terminals the last one has the last digit of the first word, and the end the first digit of the
second. Both are added to a set, and the set to another one, where it is nothing new the second time. -/
theorem calls_exact_second_word :
    let calls : List (SetCall Bool) :=
      [.insert false (.terminal 63), .insert false .finish, .unionWith true false]
    ∃ sets, calls.foldlM SetCall.run? (fun _ => empty 64) = some sets ∧
      (sets true).size = 2 ∧ (sets true).contains .finish = true ∧
      ((sets true).unionWith (sets false)).2 = false := by
  intro calls
  have hover : ∀ c ∈ calls, c.IsOver (room 64) := by
    simp [calls, SetCall.IsOver, Lookahead.IsOver, room]
  obtain ⟨sets, hrun, h⟩ := calls_exact hover
  obtain ⟨hcontains, -, -, -, hsize, -, hunion, -⟩ := h true
  refine ⟨sets, hrun, hsize.trans (by decide), (hcontains .finish trivial).2 (by decide), ?_⟩
  rw [Bool.eq_false_iff, ne_eq, hunion false]
  decide

/-- With `2 ^ 32` terminals the last one has the digit of the end: it is below the number of terminals, and where
it is added, the end is a member. -/
theorem end_of_last_terminal :
    let calls : List (SetCall Unit) := [.insert () (.terminal (2 ^ 32 - 1))]
    (∀ c ∈ calls, c.IsOver (2 ^ 32)) ∧
    ∃ sets, calls.foldlM SetCall.run? (fun _ => empty (2 ^ 32)) = some sets ∧
      (sets ()).contains .finish = true ∧ .finish ∉ calls.foldl SetCall.note (fun _ => ∅) () := by
  intro calls
  have hword : (empty (2 ^ 32)).slot (.terminal (2 ^ 32 - 1)) / wordSize < (empty (2 ^ 32)).words.size := by
    rw [(sized_empty _).size_eq]
    decide
  obtain ⟨s, hs⟩ : ∃ s, (empty (2 ^ 32)).insert? (.terminal (2 ^ 32 - 1)) = some s := ⟨_, if_pos hword⟩
  have hslot : (empty (2 ^ 32)).slot (.terminal (2 ^ 32 - 1)) = (empty (2 ^ 32)).slot .finish := by
    rw [slot, slot, terminals_empty]
    decide
  have hrun : calls.foldlM SetCall.run? (fun _ => empty (2 ^ 32)) =
      some (Function.update (fun _ => empty (2 ^ 32)) () s) := by
    rw [List.foldlM_cons, SetCall.run?, hs]
    rfl
  refine ⟨by simp [calls, SetCall.IsOver, Lookahead.IsOver], _, hrun, ?_, by decide⟩
  rw [Function.update_self, contains_insert? hs, hslot, decide_eq_true rfl, Bool.or_true]

end PackedSet

end ParseForest
