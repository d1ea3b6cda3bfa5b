import ParseForest.Proofs.Forest.Deduplicating
import ParseForest.Proofs.Forest.Flattening
import ParseForest.Proofs.Forest.Stocked
import ParseForest.Proofs.Forest.Yield

/-!
# Precedence takes no clean tree away

A tree is clean when no operator in it has an operand that clashes with it (`Tree.Clean`). The pass that
checks precedence takes an alternative away when in each right-hand side that is looked at some operand
has no derivation that agrees with the operator. So where an operator alternative has a single
right-hand side, none of its trees is clean (`Pass.keepsAlternative_of_agrees`), and all the passes that
take alternatives away leave every clean tree (`Pass.reads_selecting`).
-/

namespace ParseForest

/-- The place of an operand of an operator, in an alternative of the given length. -/
def Operator.place? (op : Operator) (length : Nat) : Side → Option Nat
  | .left => if op.hasLeft then some (op.index - 1) else none
  | .right => if op.hasRight length then some (op.index + 1) else none

theorem Operator.place?_left {op : Operator} {length i : Nat} :
    op.place? length .left = some i ↔ 0 < op.index ∧ op.index - 1 = i := by
  simp [place?, hasLeft]

theorem Operator.place?_right {op : Operator} {length i : Nat} :
    op.place? length .right = some i ↔ op.index + 1 < length ∧ op.index + 1 = i := by
  simp [place?, hasRight]

/-- Equal precedence is forbidden on the right of a left-associative operator, on the left of a
right-associative one, and on both sides of one without associativity. -/
def Associativity.Forbids : Associativity → Side → Prop
  | .left, side => side = .right
  | .right, side => side = .left
  | .none, _ => True

theorem Operator.forbidsEqual_iff {op : Operator} {side : Side} :
    op.forbidsEqual side = true ↔ op.associativity.Forbids side := by
  cases side <;> cases h : op.associativity <;> simp [forbidsEqual, h, Associativity.Forbids]

/-- The precedence of `inner` is smaller than that of `outer`, or equal on a side where this is
forbidden. -/
def Operator.Outranks (outer inner : Operator) (side : Side) : Prop :=
  inner.precedence < outer.precedence ∨
    (inner.precedence = outer.precedence ∧ outer.associativity.Forbids side)

theorem Operator.tooLoose_iff {outer inner : Operator} {side : Side} :
    outer.tooLoose inner side = true ↔ outer.Outranks inner side := by
  simp [tooLoose, Outranks, forbidsEqual_iff]

/-- An operand on the left is open towards what comes after it, and one on the right towards what comes
before it. -/
def Operator.OpenTo (op : Operator) (length : Nat) : Side → Prop
  | .left => op.index + 1 < length
  | .right => 0 < op.index

theorem Operator.faces_iff {op : Operator} {length : Nat} {side : Side} :
    op.faces length side = true ↔ op.OpenTo length side := by
  cases side <;> simp [faces, hasLeft, hasRight, OpenTo]

/-- The tree is no operand for the operator on this side: its own operator is open towards it and is
outranked by it. -/
def Grammar.Clashes (g : Grammar) (outer : Operator) (side : Side) : Tree → Prop
  | .rule _ A alt _ => ∃ inner, (g.alternative A alt).operator = some inner ∧
      inner.OpenTo (g.alternative A alt).length side ∧ outer.Outranks inner side
  | .token _ => False

/-- A tree clashes with an operator if the alternative that heads it is found to conflict. -/
theorem Grammar.clashes_iff_alternativeConflicts {g : Grammar} {outer : Operator} {side : Side}
    {name : String} {A : RuleId} {alt : Nat} {ts : List Tree} :
    g.Clashes outer side (.rule name A alt ts) ↔
      Arena.alternativeConflicts outer side (g.alternative A alt) = true := by
  rw [Clashes, Arena.alternativeConflicts]
  cases (g.alternative A alt).operator with
  | none => simp
  | some inner => simp [Operator.faces_iff, Operator.tooLoose_iff]

/-- What has no operator clashes with none. -/
theorem Grammar.not_clashes_of_operator_eq_none {g : Grammar} {outer : Operator} {side : Side}
    {name : String} {A : RuleId} {alt : Nat} {ts : List Tree}
    (h : (g.alternative A alt).operator = none) : ¬ g.Clashes outer side (.rule name A alt ts) := by
  rintro ⟨inner, hinner, -⟩
  cases h.symm.trans hinner

/-- No operand of the operator that heads a rule node clashes with it. -/
def Grammar.Agrees (g : Grammar) : Tree → Prop
  | .rule _ A alt ts => ∀ op, (g.alternative A alt).operator = some op → ∀ side i t,
    op.place? (g.alternative A alt).length side = some i → ts[i]? = some t → ¬ g.Clashes op side t
  | .token _ => True

/-- Where there is no operator there is nothing to clash with. -/
theorem Grammar.agrees_of_operator_eq_none {g : Grammar} {name : String} {A : RuleId} {alt : Nat}
    {ts : List Tree} (h : (g.alternative A alt).operator = none) : g.Agrees (.rule name A alt ts) :=
  fun _ hop => by cases h.symm.trans hop

/-- No operand in the tree clashes with its operator. -/
def Tree.Clean (g : Grammar) (t : Tree) : Prop := t.Everywhere (fun _ => g.Agrees) 0

mutual

/-- What holds everywhere in a tree, whatever the positions, holds everywhere wherever it stands. -/
theorem Tree.everywhere_shift {Q : Tree → Prop} {l l' : Nat} :
    ∀ t, Everywhere (fun _ => Q) l t → Everywhere (fun _ => Q) l' t
  | .token _, _ => trivial
  | .rule _ _ _ children, h => ⟨h.1, everywhereAll_shift children h.2⟩

theorem Tree.everywhereAll_shift {Q : Tree → Prop} {l l' : Nat} :
    ∀ ts, EverywhereAll (fun _ => Q) l ts → EverywhereAll (fun _ => Q) l' ts
  | [], _ => trivial
  | t :: ts, h => ⟨everywhere_shift t h.1, everywhereAll_shift ts h.2⟩

end

namespace Arena

variable {g : Grammar} {tokens : TokenStream} {nodes nodes' : Arena}

theorem mem_operands_iff {op : Operator} {length : Nat} {s : Sequence} {side : Side} {id : NodeId} :
    (side, id) ∈ operands op length s ↔ ∃ i, op.place? length side = some i ∧ s[i]? = some id := by
  cases side <;> by_cases hl : op.hasLeft = true <;> by_cases hr : op.hasRight length = true <;>
    simp [operands, Operator.place?, hl, hr, Option.mem_toList]

/-- What conflicts with an operator has only trees that clash with it. -/
theorem clashes_of_operandConflicts {outer : Operator} {side : Side} {id : NodeId} {t : Tree}
    (h : operandConflicts g nodes outer side id = true) (ht : nodes.Reads g tokens id t) :
    g.Clashes outer side t := by
  cases ht with
  | token hk _ => simp [operandConflicts, hk] at h
  | @rule _ p A B alt ts hk hp hpk _ =>
    simp only [operandConflicts, hk, Bool.and_eq_true, List.all_eq_true] at h
    exact Grammar.clashes_iff_alternativeConflicts.2 (h.2 alt (List.mem_filterMap.2 ⟨p, hp, by rw [hpk]⟩))

/-- What has a tree and does not conflict with an operator has an alternative that does not. -/
theorem exists_of_operandConflicts_eq_false {outer : Operator} {side : Side} {id : NodeId} {A : RuleId}
    {t : Tree} (hk : (node nodes id).kind = .symbol A) (ht : nodes.Reads g tokens id t)
    (h : operandConflicts g nodes outer side id = false) : ∃ p ∈ childrenOf nodes id, ∃ B alt,
      (node nodes p).kind = .packed B alt ∧
        alternativeConflicts outer side (g.alternative A alt) = false := by
  cases ht with
  | token hk' _ => cases hk.symm.trans hk'
  | @rule _ p _ B alt ts _ hp hpk _ =>
    have hmem : alt ∈ packedAlternatives nodes id := List.mem_filterMap.2 ⟨p, hp, by rw [hpk]⟩
    have hempty : (packedAlternatives nodes id).isEmpty = false :=
      List.isEmpty_eq_false_iff.2 (List.ne_nil_of_mem hmem)
    simp only [operandConflicts, hk, hempty, Bool.not_false, Bool.true_and, List.all_eq_false] at h
    obtain ⟨alt', hmem', hagrees⟩ := h
    obtain ⟨p', hp', halt'⟩ := List.mem_filterMap.1 hmem'
    refine ⟨p', hp', ?_⟩
    split at halt'
    · rename_i B' alt'' hpk'
      obtain rfl := Option.some.inj halt'
      exact ⟨B', alt'', hpk', Bool.eq_false_iff.2 hagrees⟩
    · cases halt'

/-- The right-hand sides of operator alternatives are single. -/
structure Resolvable (g : Grammar) (nodes : Arena) : Prop where
  layered : nodes.Layered
  distinct : nodes.Distinct
  shapesEnd : nodes.ShapesEnd
  nulled : nodes.NulledRules
  rule_eq : ∀ id A p B alt, (node nodes id).kind = .symbol A → p ∈ childrenOf nodes id →
    (node nodes p).kind = .packed B alt → B = A
  flattens : ∀ id A p alt, (node nodes id).kind = .symbol A → p ∈ childrenOf nodes id →
    (node nodes p).kind = .packed A alt → (g.alternative A alt).operator.isSome = true →
    ∀ s s', nodes.Flattens (childrenOf nodes p) s → nodes.Flattens (childrenOf nodes p) s' → s = s'

theorem Resolvable.trims (h : nodes.Resolvable g) (ht : Trims nodes nodes') : nodes'.Resolvable g where
  layered := h.layered.trims ht
  distinct := h.distinct.trims ht h.layered
  shapesEnd := h.shapesEnd.trims ht
  nulled := h.nulled.trims ht
  rule_eq id A p B alt hk hp hpk :=
    h.rule_eq id A p B alt ((ht.kind_eq id).symm.trans hk) (ht.mem_children hp)
      ((ht.kind_eq p).symm.trans hpk)
  flattens id A p alt hk hp hpk hop s s' hs hs' := by
    have hk := (ht.kind_eq id).symm.trans hk
    rw [ht.childrenOf_packed h.layered (by rw [Node.isChoice, hk]) hp] at hs hs'
    exact h.flattens id A p alt hk (ht.mem_children hp) ((ht.kind_eq p).symm.trans hpk) hop s s'
      (hs.of_trims h.layered ht) (hs'.of_trims h.layered ht)

end Arena

namespace Pass

open Arena

variable {nodes nodes' : Arena} {g : Grammar} {tokens : TokenStream} {root : NodeId}

/-- An alternative with a tree in which no operand clashes is kept. -/
theorem keepsAlternative_of_agrees (hr : nodes.Resolvable g) {id p : NodeId} {A B : RuleId} {alt : Nat}
    {ts : List Tree} (hk : (node nodes id).kind = .symbol A) (hp : p ∈ childrenOf nodes id)
    (hpk : (node nodes p).kind = .packed B alt)
    (hts : nodes.ReadsAll g tokens (childrenOf nodes p) ts)
    (h : g.Agrees (.rule (g.rule A).name A alt ts)) : keepsAlternative g nodes A p = true := by
  obtain rfl := hr.rule_eq id A p B alt hk hp hpk
  cases hop : (g.alternative B alt).operator with
  | none => simp [keepsAlternative, isOperatorNode, hpk, hop]
  | some op =>
    simp only [keepsAlternative, hpk, precedenceAllows, hop, Bool.true_and, Bool.or_eq_true,
      List.isEmpty_iff, List.any_eq_true, List.all_eq_true]
    refine .inr (Classical.or_iff_not_imp_left.2 fun hne => ?_)
    obtain ⟨s, hs⟩ := List.exists_mem_of_ne_nil _ hne
    refine ⟨s, hs, ?_⟩
    rintro ⟨side, c⟩ hc
    rw [Bool.not_eq_true']
    refine Bool.eq_false_iff.2 fun hconflicts => ?_
    -- the trees stand along the right-hand side that has been looked at
    obtain ⟨s', hs', hreads⟩ := hts.exists_flattens hr.nulled
    obtain rfl := hr.flattens id B p alt hk hp hpk (by rw [hop]; rfl) s s'
      (flattens_of_mem_sequencesOf hs) hs'
    obtain ⟨i, hi, hget⟩ := mem_operands_iff.1 hc
    obtain ⟨hlt, hget⟩ := List.getElem?_eq_some_iff.1 hget
    have hlt' : i < ts.length := hreads.length_eq ▸ hlt
    have hread := List.forall₂_iff_get.1 hreads
    refine h op hop side i _ hi (List.getElem?_eq_getElem hlt') ?_
    exact clashes_of_operandConflicts (by rwa [List.get_eq_getElem, hget]) (hread.2 i hlt hlt')

/-- Where no alternative is taken away that has a tree of a kind, all trees of the kind are left. -/
theorem reads_of_kept {Q : Tree → Prop} (hl : nodes.Layered) (ht : Trims nodes nodes')
    (hkeep : ∀ id A p B alt ts, (node nodes id).kind = .symbol A → p ∈ childrenOf nodes id →
      (node nodes p).kind = .packed B alt → nodes.ReadsAll g tokens (childrenOf nodes p) ts →
      Q (.rule (g.rule A).name A alt ts) → p ∈ childrenOf nodes' id)
    (hinner : ∀ id A alt dot, (node nodes id).kind = .intermediate A alt dot →
      childrenOf nodes' id = childrenOf nodes id) {id : NodeId} {t : Tree} {l : Nat}
    (h : nodes.Reads g tokens id t) (hq : t.Everywhere (fun _ => Q) l) :
    nodes'.Reads g tokens id t := by
  have hpacked : ∀ {id p}, (node nodes id).isChoice = true → p ∈ childrenOf nodes id →
      childrenOf nodes' p = childrenOf nodes p := fun hc hp =>
    ht.children_eq _ (by
      obtain ⟨B, alt, hk⟩ := Node.isPacked_iff.1 (hl.isPacked _ hc _ hp)
      simp [Node.isChoice, hk])
  refine (reads_induction
    (P := fun id t => ∀ l, t.Everywhere (fun _ => Q) l → nodes'.Reads g tokens id t)
    (Q := fun cs ts => nodes.ReadsAll g tokens cs ts ∧
      ∀ l, Tree.EverywhereAll (fun _ => Q) l ts → nodes'.ReadsAll g tokens cs ts)
    ?token ?rule ?nil ?epsilon ?nulled ?intermediate ?tree).1 id t h l hq
  case token => exact fun id i tok hk htok l _ => .token ((ht.kind_eq id).trans hk) htok
  case rule =>
    rintro id p A B alt children hk hp hpk ⟨hreads, ih⟩ l ⟨hq, hall⟩
    refine .rule ((ht.kind_eq id).trans hk) (hkeep id A p B alt children hk hp hpk hreads hq)
      ((ht.kind_eq p).trans hpk) ?_
    rw [hpacked (by rw [Node.isChoice, hk]) hp]
    exact ih l hall
  case nil => exact ⟨.nil, fun _ _ => .nil⟩
  case epsilon =>
    rintro c cs ts hk ⟨hreads, ih⟩
    exact ⟨.epsilon hk hreads, fun l hq => .epsilon ((ht.kind_eq c).trans hk) (ih l hq)⟩
  case nulled =>
    rintro c cs us ts A alt dot hk ⟨hreads, ih⟩ hreads' ⟨-, ih'⟩
    refine ⟨.nulled hk hreads hreads', fun l hq => .nulled ((ht.kind_eq c).trans hk) ?_
      (ih' _ (Tree.everywhereAll_append_iff.1 hq).2)⟩
    rw [ht.children_eq c (by simp [Node.isChoice, hk])]
    exact ih l (Tree.everywhereAll_append_iff.1 hq).1
  case intermediate =>
    rintro c p cs us ts A alt dot hk hp ⟨hreads, ih⟩ hreads' ⟨-, ih'⟩
    refine ⟨.intermediate hk hp hreads hreads', fun l hq => .intermediate ((ht.kind_eq c).trans hk)
      (by rwa [hinner c A alt dot hk]) ?_ (ih' _ (Tree.everywhereAll_append_iff.1 hq).2)⟩
    rw [hpacked (by rw [Node.isChoice, hk]) hp]
    exact ih l (Tree.everywhereAll_append_iff.1 hq).1
  case tree =>
    rintro c cs t ts hread ih ⟨hreads, ih'⟩
    exact ⟨.tree hread hreads, fun l hq => .tree (ih l hq.1) (ih' _ hq.2)⟩

/-- Checking one node leaves every clean tree. -/
theorem reads_resolveNode (hr : nodes.Resolvable g) (id : NodeId) {id' : NodeId} {t : Tree} {l : Nat}
    (h : nodes.Reads g tokens id' t) (hclean : t.Everywhere (fun _ => g.Agrees) l) :
    (resolveNode g nodes id).Reads g tokens id' t := by
  refine reads_of_kept hr.layered (trims_resolveNode g nodes id)
    (fun id' A p B alt ts hk hp hpk hts hagrees => ?_) (fun id' A alt dot hk => ?_) h hclean
  · rw [resolveNode]
    split
    · rename_i A' hk'
      by_cases hid : id = id'
      · subst hid
        obtain rfl := NodeKind.symbol.inj (hk'.symm.trans hk)
        rw [childrenOf_setChildren_self (lt_size_of_kind (by rw [hk]; simp)), Array.toList_filter]
        exact List.mem_filter.2 ⟨hp, keepsAlternative_of_agrees hr hk hp hpk hts hagrees⟩
      · rwa [childrenOf_setChildren_ne hid]
    · exact hp
  · rw [resolveNode]
    split
    · rename_i A' hk'
      refine childrenOf_setChildren_ne ?_
      rintro rfl
      cases hk'.symm.trans hk
    · rfl

theorem reads_resolveAll (ids : List NodeId) {nodes : Arena} {changed : Bool}
    (hr : nodes.Resolvable g) {id : NodeId} {t : Tree} {l : Nat} (h : nodes.Reads g tokens id t)
    (hclean : t.Everywhere (fun _ => g.Agrees) l) :
    (resolveAll g ids nodes changed).1.Reads g tokens id t := by
  induction ids generalizing nodes changed with
  | nil => exact h
  | cons id' ids ih =>
    exact ih (hr.trims (trims_resolveNode g nodes id')) (reads_resolveNode hr id' h hclean)

/-! ## The other passes -/

/-- Pruning takes no tree away. -/
theorem reads_pruneDead (hl : nodes.Layered) {id : NodeId} {t : Tree}
    (h : nodes.Reads g tokens id t) : (pruneDead.run g root nodes).1.Reads g tokens id t := by
  have ht := trims_pruneDead g root nodes
  obtain ⟨fuel, hfuel⟩ := (exists_mem_readings hl).1 id t h
  refine (exists_mem_readings_iff (hl.trims ht) ?_).1 ⟨fuel, by rwa [pruneDead_readings]⟩
  rw [ht.kind_eq]
  exact h.kind_cases

/-- No right-hand side is greedier than another if no repetition derives nothing. -/
theorem greedier_eq_false (hg : ∀ A, (g.rule A).nullable = false) (s s' : Sequence) :
    greedier g nodes s s' = false := by
  induction s generalizing s' with
  | nil => simp [greedier]
  | cons x xs ih =>
    cases s' with
    | nil => rfl
    | cons y ys =>
      rw [greedier]
      split
      · exact ih ys
      · rw [wider]
        split
        · simp [hg]
        · rfl

/-- If no repetition derives nothing, all lists are as long as any other. -/
theorem preferLongestList_eq (hg : ∀ A, (g.rule A).nullable = false) :
    (preferLongestList.run g root nodes).1 = nodes := by
  have hbeaten : ∀ firsts j mine, isBeaten g nodes firsts j mine = false := by
    rintro firsts j (_ | mine)
    · rfl
    · refine List.any_eq_false.2 fun ⟨theirs, i⟩ _ => ?_
      cases theirs <;> simp [greedier_eq_false hg]
  have hunbeaten : ∀ children, unbeaten g nodes children = children := by
    intro children
    have hmarked : ((children.zip (children.map (firstSequence? nodes))).zipIdx.map
        fun x => (x.1.1, isBeaten g nodes (children.map (firstSequence? nodes)) x.2 x.1.2)) =
        children.map fun p => (p, false) := by
      refine List.ext_getElem (by simp) fun i hi hi' => ?_
      simp [hbeaten]
    change (if List.all (List.map _ _) Prod.snd = true then children
      else (List.filter _ (List.map _ _)).map Prod.fst) = children
    rw [hmarked]
    split
    · rfl
    · rw [List.filter_eq_self.2 (by simp), List.map_map]
      exact List.map_id _
  have hnone : longestEdits g root nodes = [] := by
    rw [longestEdits, List.filterMap_eq_nil_iff]
    rintro ⟨n, id⟩ -
    simp [hunbeaten]
  simp only [preferLongestList, hnone]
  rfl

/-- The passes that take alternatives away leave every clean tree. -/
theorem reads_selecting {precedence greedy : Bool} (hr : nodes.Resolvable g)
    (hgreedy : greedy = true → ∀ A, (g.rule A).nullable = false) {id : NodeId} {t : Tree} {l : Nat}
    (h : nodes.Reads g tokens id t) (hclean : t.Everywhere (fun _ => g.Agrees) l) :
    (runAll (selecting precedence greedy) g root nodes).1.Reads g tokens id t := by
  rw [runAll_eq]
  refine (List.foldlRecOn (motive := fun current : Arena =>
    current.Resolvable g ∧ current.Reads g tokens id t)
    _ _ ⟨hr, h⟩ fun current ⟨hr, h⟩ pass hpass => ?_).2
  rcases mem_selecting hpass with rfl | ⟨-, rfl⟩ | rfl | ⟨hon, rfl⟩
  · exact ⟨hr.trims (trims_pruneDead g root current), reads_pruneDead hr.layered h⟩
  · exact ⟨hr.trims (trims_resolvePrecedence g root current), reads_resolveAll _ hr h hclean⟩
  · rw [dedupeEquivalent_eq hr.layered hr.distinct hr.shapesEnd]
    exact ⟨hr, h⟩
  · rw [preferLongestList_eq (hgreedy hon)]
    exact ⟨hr, h⟩

end Pass

end ParseForest
