import ParseForest.Proofs.Forest.Grouping
import ParseForest.Proofs.Parser.Operators

/-!
# Groupings to the right

In a grammar of binary operators the grouping in which no first operand has an operator is always on
the stack (`Engine.Finished.tracks_leansRight`), clean or not: its first operands cannot be dead, and
its second ones end where the parse is, so what is built over them is not judged before the level is
done. So a parse of operands and operators goes on to the end of input, and fails only if the root has
no alternative.
-/

namespace ParseForest

variable {σ : Type}

/-! ## Labels and children -/

namespace Arena.Folds

variable {nodes : Arena} {A : RuleId} {alt : Nat} {labels : List NodeId} {rest : Option NodeId}
  {children : Children} (h : nodes.Folds A alt labels rest children)
include h

/-- The first label is the first child. -/
theorem head?_eq : labels.head? = some children.first := by
  induction h with
  | single => rfl
  | @snoc labels _ _ _ children _ _ ih =>
    cases labels with
    | nil => cases ih
    | cons => exact ih

/-- The node of a rule among the children is a label, or the rest. -/
theorem mem_labels {c : NodeId} (hc : c ∈ children.toList) (hs : (node nodes c).isSymbol = true) :
    c ∈ labels ∨ rest = some c := by
  induction h with
  | single label rest =>
    rcases List.mem_cons.1 hc with rfl | hc
    · exact .inl (.head _)
    · exact .inr (by simpa using hc)
  | snoc hj _ ih =>
    rcases ih hc with hmem | htail
    · exact .inl (List.mem_append_left _ hmem)
    · obtain rfl := Option.some.inj htail
      rcases hj with ⟨-, rfl⟩ | ⟨_, _, -, hk, -⟩
      · exact .inl (List.mem_append_right _ (.head _))
      · rw [Node.isSymbol, hk] at hs
        cases hs

end Arena.Folds

/-! ## Trees that lean to the right -/

namespace Grammar

/-- The tree is headed by an operator. -/
def IsOperation (g : Grammar) : Tree → Prop
  | .rule _ A alt _ => (g.alternative A alt).operator.isSome = true
  | .token _ => False

/-- No child is headed by an operator, apart from those that come after an operand. -/
def LeansRight (g : Grammar) : Tree → Prop
  | .rule _ A alt ts => ∀ i t, ts[i]? = some t →
      (i = 0 ∨ (g.alternative A alt).operator = none) → ¬ g.IsOperation t
  | .token _ => True

namespace IsBinary

variable {g : Grammar} {operand : RuleId} {leaf : TerminalId} (h : g.IsBinary operand leaf)
  (hg : g.WellFormed)
include h hg

/-- Nothing but no symbols derives nothing. -/
theorem eq_nil_of_nullable {xs : List Symbol} (hn : g.Nullable xs) : xs = [] := by
  refine List.eq_nil_iff_forall_not_mem.2 fun x hx => ?_
  have hnull := nullable_iff_forall.1 hn x hx
  cases x with
  | terminal t => exact not_nullable_terminal hnull
  | rule A => exact h.not_nullable hg A hnull

/-- Operands and operators have a tree that leans to the right. -/
theorem exists_leansRight {m : TerminalMatcher} {toks : List Token} (hchain : g.IsChain m leaf toks) :
    ∃ t, g.Grouping m operand leaf t ∧ t.leaves = toks ∧ t.Everywhere (fun _ => g.LeansRight) 0 := by
  obtain ⟨alt, halt, hs⟩ := h.exists_operand
  obtain ⟨hnone, hnone'⟩ := h.operator_eq_none hg
  have hplain : ∀ tok, ¬ g.IsOperation (g.operandTree operand alt tok) := fun tok hop => by
    rw [operandTree, IsOperation, hnone alt halt hs] at hop
    cases hop
  have hleans : ∀ tok l, (g.operandTree operand alt tok).Everywhere (fun _ => g.LeansRight) l := by
    refine fun tok l => ⟨fun i t hi _ hop => ?_, ⟨fun i t hi _ hop => ?_, trivial, trivial⟩, trivial⟩
    · obtain rfl := List.mem_singleton.1 (List.mem_of_getElem? hi)
      rw [IsOperation, hnone'] at hop
      cases hop
    · obtain rfl := List.mem_singleton.1 (List.mem_of_getElem? hi)
      exact hop
  induction hchain with
  | @operand tok hleaf => exact ⟨_, .operand halt hs (by rw [hleaf]; exact .head _), rfl, hleans tok 0⟩
  | @between tok optok toks x alt' op hleaf hop hx _ ih =>
    obtain ⟨t, ht, rfl, hlt⟩ := ih
    refine ⟨_, .binary hop (by rw [hx]; exact .head _) (.operand halt hs (by rw [hleaf]; exact .head _)) ht,
      leaves_binaryTree .., fun i t' hi hplace => ?_, hleans tok 0, trivial,
      Tree.everywhere_shift t hlt, trivial⟩
    rcases hplace with rfl | hnone
    · obtain rfl := Option.some.inj hi
      exact hplain tok
    · cases hnone.symm.trans hop.operator_eq

end IsBinary

end Grammar

/-! ## What is turned down at once -/

section

variable {input : ParseInput σ} {nodes : Arena} {operand : RuleId} {leaf : TerminalId}
  (hr : input.Ready) (hbin : input.grammar.IsBinary operand leaf) (hf : input.Formed nodes)
include hr hbin hf

/-- What stands for a rule spans tokens. -/
theorem ParseInput.Formed.span_of_stands {A : RuleId} {l r : Nat} {id : NodeId}
    (hs : nodes.Stands input.compiled.matcher input.tokens (.rule A) l r id) :
    (Arena.node nodes id).span = some ⟨l, r⟩ := by
  refine hs.2.resolve_right fun ⟨hnone, _⟩ => ?_
  have hsome := hr.epsilon.symbol?_isSome A
  rw [hf.symbol?_of_span_none hr.epsilon hs.1 hnone] at hsome
  exact hbin.not_nullable hr.wellFormed A ((hr.wellFormed.isNullable_iff A).1 hsome.symm)

/-- A derivation that is overruled as soon as it is offered has a first child without derivations. -/
theorem Arena.Overruled.first_dead {d : Deferred} (hd : d.Valid input nodes)
    (h : nodes.Overruled input.grammar ⟨d.span.right, 0⟩ d) {t : TerminalId} {op : Operator}
    (hA : d.rule = input.grammar.first) (hop : input.grammar.Between t d.alt op) :
    (node nodes d.children.first).isSymbol = true ∧ childrenOf nodes d.children.first = [] := by
  obtain ⟨hindex, hlength⟩ := hop.index_eq hr.wellFormed
  rw [← hA] at hlength
  rcases h with ⟨c, hc, hsymbol, hnil, -⟩ | ⟨op', s, hop', hs, -, hfrozen⟩
  · -- after the first child comes that of the operator and its second operand
    have hh := hd.holds
    generalize d.children = children at hc hh
    cases hh with
    | only _ hlast _ => 
      rw [hlength] at hlast
      cases hlast
    | cons hx hst ht =>
      rcases List.mem_cons.1 hc with rfl | hc
      · exact ⟨hsymbol, hnil⟩
      · obtain rfl := List.mem_singleton.1 hc
        cases ht with
        | nulled h _ =>
          rw [Node.isSymbol, (kind_tail hr.epsilon hf.base h).2] at hsymbol
          cases hsymbol
        | last _ hlast _ _ =>
          rw [hlength] at hlast
          cases hlast
        | intermediate hk _ _ _ _ =>
          rw [Node.isSymbol, hk] at hsymbol
          cases hsymbol
  · -- the second operand ends where the derivation does
    have hall := hf.standsAll hr hd.holds hs
    rw [hA, hop.symbols_eq] at hall
    obtain rfl : op' = op := by
      rw [hA, hop.operator_eq] at hop'
      exact (Option.some.inj hop').symm
    obtain _ | ⟨-, _ | ⟨-, _ | ⟨hright, ⟨⟩⟩⟩⟩ := hall
    have hmem := hfrozen (.right, _) (mem_operands_iff.2
      ⟨2, Operator.place?_right.2 (by rw [hlength, hindex]; decide), rfl⟩)
    rcases hmem _ (hf.span_of_stands hr hbin hright) with hlt | ⟨-, hlt⟩
    · exact absurd hlt (Nat.lt_irrefl _)
    · exact absurd hlt (Nat.not_lt_zero _)

end

/-! ## Tracking -/

namespace Engine

variable {input : ParseInput σ} {start : StackId} {e : Engine σ} {L : Nat} {operand : RuleId}
  {leaf : TerminalId}

/-- A tree without an operator at its head has a label with an alternative. -/
def KeepsPlain (g : Grammar) (nodes : Arena) (id : NodeId) (t : Tree) : Prop :=
  ¬ g.IsOperation t → (Arena.node nodes id).isChoice = true → Arena.childrenOf nodes id ≠ []

/-- Trees that lean to the right are on the stack. -/
theorem Finished.tracks_leansRight (hr : input.Ready) (h : Finished input start L e)
    (hbin : input.grammar.IsBinary operand leaf) (hby : input.ByPrecedence) :
    e.Tracks input (fun _ => input.grammar.LeansRight) (KeepsPlain input.grammar e.nodes) := by
  have hg := hr.wellFormed
  refine ⟨fun hk _ _ hc => by simp [Node.isChoice, hk] at hc, fun _ hfits hempty => ?_,
    fun {r u A alt labels rest children ts us} hlabels hfits hempty hrest hfolds hcompleted hP => ?_⟩
  · exact absurd (Tree.nullable_of_leaves.1 _ _ hfits hempty) (hbin.not_nullable hg _)
  -- the labels are those of all symbols
  have hdrop := hbin.eq_nil_of_nullable hg (Tree.nullable_of_leaves.2 _ _ hfits hempty)
  obtain rfl : rest = none := by
    rcases hrest with ⟨-, hrest⟩ | ⟨hlt, -⟩
    · exact hrest
    · exact absurd (List.drop_eq_nil_iff.1 hdrop) (Nat.not_le.2 hlt)
  rw [hdrop] at hfits
  cases hfits
  rw [List.append_nil] at hP ⊢
  -- a label without derivations is that of an operand after the first one
  have halive : ∀ i c, labels[i]? = some c → (i = 0 ∨ (input.grammar.alternative A alt).operator = none) →
      (Arena.node e.nodes c).isSymbol = true → Arena.childrenOf e.nodes c ≠ [] := by
    intro i c hi hplace hsymbol
    obtain ⟨hlt, rfl⟩ := List.getElem?_eq_some_iff.1 hi
    have hlt' : i < ts.length := hlabels.length_eq ▸ hlt
    obtain ⟨B, hB⟩ := Node.isSymbol_iff.1 hsymbol
    exact (List.forall₂_iff_get.1 hlabels).2 i hlt hlt' (hP i _ (List.getElem?_eq_getElem hlt') hplace)
      (by rw [List.get_eq_getElem, Node.isChoice, hB])
  obtain ⟨id, hk, hspan, hmarked, hcase⟩ := hcompleted
  -- so without an operator nothing is turned down
  have hplain : ∀ st, (input.grammar.alternative A alt).operator = none →
      ¬ input.TurnedDown e.nodes st ⟨id, alt, children⟩ := by
    intro st hnone hdown
    rcases (hdown.valid hk hspan).2 (hby.overruled hr) rfl with ⟨c, hc, hsymbol, hnil, -⟩ | ⟨op, _, hop, -⟩
    · obtain ⟨i, hi⟩ := List.getElem?_of_mem ((hfolds.mem_labels hc hsymbol).resolve_right (by simp))
      exact halive i c hi (.inr hnone) hsymbol hnil
    · cases hnone.symm.trans hop
  refine ⟨id, hcase.resolve_right ?_, fun hoperation _ => ?_⟩
  · rintro ⟨_, _, hdown⟩
    cases hop : (input.grammar.alternative A alt).operator with
    | none => exact hplain _ hop hdown
    | some op =>
      obtain ⟨hv, hknown⟩ := hdown.valid hk hspan
      obtain ⟨rfl, t, hbetween⟩ := hbin.between_of_operator hg hv.alt_lt hop
      obtain ⟨hsymbol, hnil⟩ := Arena.Overruled.first_dead hr hbin h.forest.formed hv
        (hknown (hby.overruled hr) rfl) rfl hbetween
      exact halive 0 _ (by rw [← List.head?_eq_getElem?]; exact hfolds.head?_eq) (.inl rfl) hsymbol hnil
  · have hkept : ⟨id, alt, children⟩ ∉ e.rejected := fun hrej =>
      hplain _ (Option.not_isSome_iff_eq_none.1 hoperation) (h.forest.dropped _ hrej)
    rcases (h.forest.packed_iff _).1 (hmarked.resolve_right hkept) with ⟨-, B, -, p, hp, -⟩ | ⟨d, hd, -⟩
    · exact List.ne_nil_of_mem hp
    · cases hd

end Engine

end ParseForest
