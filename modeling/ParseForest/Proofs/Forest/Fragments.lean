import ParseForest.Proofs.Forest.Backed

/-!
# Trees of the fragments

Every tree without tokens is one that the fragments of empty derivations stand for
(`EpsilonForest.Laid.reads_symbol`), so a fragment always stands for some tree. Nodes that do are
*productive* (`Arena.Productive`); they remain so while the arena grows.

What symbols spell is the yield of derivation trees (`Spells.exists_trees`).
-/

namespace ParseForest

variable {g : Grammar} {m : TerminalMatcher} {tokens : TokenStream} {ε : EpsilonForest}

/-! ## What the fragments are -/

/-- The children of an alternative that derives nothing are fragments. -/
theorem EpsilonForest.exists_fragment_of_packedNode {g : Grammar} {symbols : Array (Option NodeId)}
    {A : RuleId} {alt : Nat} {c : NodeId} (hc : c ∈ (packedNode g symbols A alt).children.toList) :
    ∃ x, fragment symbols x = c := by
  rw [packedNode] at hc
  dsimp only at hc
  split at hc
  · obtain rfl := List.mem_singleton.1 hc
    exact ⟨.terminal 0, rfl⟩
  · obtain ⟨x, -, rfl⟩ := List.mem_map.1 hc
    exact ⟨x, rfl⟩

/-- The children of a nulled node are fragments. -/
theorem EpsilonForest.exists_fragment_of_nulledNode {g : Grammar} {symbols : Array (Option NodeId)}
    {A : RuleId} {alt dot : Nat} {c : NodeId}
    (hc : c ∈ (nulledNode g symbols A alt dot).children.toList) : ∃ x, fragment symbols x = c := by
  obtain ⟨x, -, rfl⟩ := List.mem_map.1 hc
  exact ⟨x, rfl⟩

section

variable (hε : ε.Laid g)
include hε

/-- The fragments have no span. -/
theorem EpsilonForest.Laid.span_eq_none {id : NodeId} (hid : id < ε.nodes.size) :
    (Arena.node ε.nodes id).span = none := by
  by_cases h0 : id = 0
  · rw [h0, hε.epsilon]
    rfl
  · rcases hε.kinds id hid h0 with ⟨A, hA⟩ | ⟨A, alt, he⟩ | ⟨A, alt, dot, -, he⟩
    · exact (hε.symbol A id hA).2.2.1
    · rw [he]
      rfl
    · rw [he]
      rfl

theorem EpsilonForest.Laid.span_ne_some (id : NodeId) (s : Span) :
    (Arena.node ε.nodes id).span ≠ some s := by
  intro hs
  by_cases hlt : id < ε.nodes.size
  · rw [hε.span_eq_none hlt] at hs
    cases hs
  · rw [Arena.node_of_size_le (Nat.not_lt.1 hlt)] at hs
    cases hs

/-- A fragment stands for a rule or for the empty string. -/
theorem EpsilonForest.Laid.kind_fragment (x : Symbol) :
    (Arena.node ε.nodes (fragment ε.symbols x)).kind = .epsilon ∨
      ∃ A, (Arena.node ε.nodes (fragment ε.symbols x)).kind = .symbol A := by
  have hzero : (Arena.node ε.nodes epsilonId).kind = .epsilon := by
    rw [epsilonId, hε.epsilon]
    rfl
  cases x with
  | terminal t => exact .inl hzero
  | rule A =>
    change (Arena.node ε.nodes ((ε.symbol? A).getD epsilonId)).kind = .epsilon ∨
      ∃ B, (Arena.node ε.nodes ((ε.symbol? A).getD epsilonId)).kind = .symbol B
    cases hA : ε.symbol? A with
    | none => exact .inl hzero
    | some id => exact .inr ⟨A, (hε.symbol A id hA).2.1⟩

/-- No fragment is a leaf of the input or an intermediate node. -/
theorem EpsilonForest.Laid.kind_cases {id : NodeId} (hid : id < ε.nodes.size) :
    (Arena.node ε.nodes id).kind = .epsilon ∨ (∃ A, ε.symbol? A = some id ∧
      (Arena.node ε.nodes id).kind = .symbol A) ∨
    (∃ A alt, (Arena.node ε.nodes id).kind = .packed A alt) ∨
      ∃ A alt dot, (Arena.node ε.nodes id).kind = .nulled A alt dot := by
  by_cases h0 : id = 0
  · exact .inl (by rw [h0, hε.epsilon]; rfl)
  · rcases hε.kinds id hid h0 with ⟨A, hA⟩ | ⟨A, alt, he⟩ | ⟨A, alt, dot, -, he⟩
    · exact .inr (.inl ⟨A, hA, (hε.symbol A id hA).2.1⟩)
    · exact .inr (.inr (.inl ⟨A, alt, by rw [he]; rfl⟩))
    · exact .inr (.inr (.inr ⟨A, alt, dot, by rw [he]; rfl⟩))

omit hε in
theorem EpsilonForest.mem_nullableAlternatives_iff (hg : g.WellFormed) {A : RuleId} {alt : Nat} :
    alt ∈ nullableAlternatives g A (g.rule A).alternatives.size ↔
      alt < (g.rule A).alternatives.size ∧ g.Nullable (g.alternative A alt).symbols := by
  simp only [nullableAlternatives, List.mem_filter, List.mem_range]
  refine and_congr_right fun halt => ?_
  have h := hg.nullableFrom_le_iff A _ (Grammar.alternative_mem halt) 0
  rw [List.drop_zero, Nat.le_zero] at h
  rw [← h, Alternative.isNullable, beq_iff_eq]

/-- A rule that derives the empty string has a fragment. -/
theorem EpsilonForest.Laid.exists_symbol (hg : g.WellFormed) {A : RuleId} (h : g.Nullable [.rule A]) :
    ∃ id, ε.symbol? A = some id := by
  rw [← Option.isSome_iff_exists, hε.symbol?_isSome, hg.isNullable_iff]
  exact h

/-- Under the fragment of a rule there is a packed node for each alternative that derives the empty
string. -/
theorem EpsilonForest.Laid.exists_packed (hg : g.WellFormed) {A : RuleId} {id : NodeId}
    (hid : ε.symbol? A = some id) {alt : Nat} (halt : alt < (g.rule A).alternatives.size)
    (hnull : g.Nullable (g.alternative A alt).symbols) :
    ∃ p ∈ Arena.childrenOf ε.nodes id, Arena.node ε.nodes p = packedNode g ε.symbols A alt := by
  obtain ⟨p, hp, -, hnode⟩ := List.exists_right_of_forall₂ (hε.symbol A id hid).2.2.2.flip
    ((mem_nullableAlternatives_iff hg).2 ⟨halt, hnull⟩)
  exact ⟨p, hp, hnode⟩

end

/-! ## Trees of derivations -/

/-- Trees of a concatenation are trees of its parts. -/
theorem Tree.FitsAll.split {xs ys : List Symbol} {ts : List Tree} (h : FitsAll g m ts (xs ++ ys)) :
    ∃ us vs, ts = us ++ vs ∧ FitsAll g m us xs ∧ FitsAll g m vs ys := by
  simp only [fitsAll_iff_forall₂] at *
  refine ⟨ts.take xs.length, ts.drop xs.length, (List.take_append_drop _ _).symm, ?_, ?_⟩
  · exact List.forall₂_take_append ts xs ys h
  · exact List.forall₂_drop_append ts xs ys h

theorem Tree.FitsAll.append {xs ys : List Symbol} {ts us : List Tree} (h : FitsAll g m ts xs)
    (h' : FitsAll g m us ys) : FitsAll g m (ts ++ us) (xs ++ ys) := by
  simp only [fitsAll_iff_forall₂] at *
  exact List.rel_append h h'

/-- A terminal string that tokens satisfy has its tokens as trees. -/
theorem fitsAll_terminals {w : List TerminalId} {toks : List Token}
    (h : List.Forall₂ (fun tok t => t ∈ m.matching tok) toks w) :
    Tree.FitsAll g m (toks.map Tree.token) (w.map Symbol.terminal) := by
  induction h with
  | nil => exact .nil
  | cons h _ ih => exact .cons (.token h) ih

theorem leavesOfAll_tokens (toks : List Token) : Tree.leavesOfAll (toks.map Tree.token) = toks := by
  induction toks with
  | nil => rfl
  | cons tok toks ih => simp [Tree.leavesOfAll, Tree.leaves, ih]

/-- A derivation of a string that tokens satisfy has trees with these tokens. -/
theorem Grammar.Derives.exists_trees {α : List Symbol} {w : List TerminalId} {toks : List Token}
    (hd : g.Derives α (w.map Symbol.terminal))
    (hw : List.Forall₂ (fun tok t => t ∈ m.matching tok) toks w) :
    ∃ ts, Tree.FitsAll g m ts α ∧ Tree.leavesOfAll ts = toks := by
  induction hd using Relation.ReflTransGen.head_induction_on with
  | refl => exact ⟨_, fitsAll_terminals hw, leavesOfAll_tokens toks⟩
  | head hp _ ih =>
    obtain ⟨before, after, A, a, ha⟩ := hp
    obtain ⟨ts, hfits, hleaves⟩ := ih
    obtain ⟨front, vs, rfl, hfront, hvs⟩ := hfits.split
    obtain ⟨us, inner, rfl, hus, hinner⟩ := hfront.split
    obtain ⟨alt, halt, rfl⟩ := Grammar.mem_alternatives_iff.1 ha
    refine ⟨us ++ .rule (g.rule A).name A alt inner :: vs,
      hus.append (.cons (.rule halt hinner) hvs), ?_⟩
    rw [← hleaves]
    simp only [Tree.leavesOfAll_append, Tree.leavesOfAll, Tree.leaves, List.append_assoc]

/-- What derives the empty string has trees without tokens. -/
theorem Grammar.Nullable.exists_trees (m : TerminalMatcher) {α : List Symbol} (h : g.Nullable α) :
    ∃ ts, Tree.FitsAll g m ts α ∧ Tree.leavesOfAll ts = [] :=
  Grammar.Derives.exists_trees (w := []) h .nil

/-- Induction on derivation trees. -/
theorem Tree.fits_induction {P : Tree → Symbol → Prop} {Q : List Tree → List Symbol → Prop}
    (token : ∀ tok t, t ∈ m.matching tok → P (.token tok) (.terminal t))
    (rule : ∀ A alt children, alt < (g.rule A).alternatives.size →
      FitsAll g m children (g.alternative A alt).symbols →
      Q children (g.alternative A alt).symbols → P (.rule (g.rule A).name A alt children) (.rule A))
    (nil : Q [] [])
    (cons : ∀ t ts x xs, Fits g m t x → FitsAll g m ts xs → P t x → Q ts xs → Q (t :: ts) (x :: xs)) :
    (∀ t x, Fits g m t x → P t x) ∧ ∀ ts xs, FitsAll g m ts xs → Q ts xs := by
  constructor
  · intro t x h
    exact @Fits.rec g m (fun t x _ => P t x) (fun ts xs _ => Q ts xs) (fun h => token _ _ h)
      (fun ha h ih => rule _ _ _ ha h ih) nil (fun h hs ih ih' => cons _ _ _ _ h hs ih ih') t x h
  · intro ts xs h
    exact @FitsAll.rec g m (fun t x _ => P t x) (fun ts xs _ => Q ts xs) (fun h => token _ _ h)
      (fun ha h ih => rule _ _ _ ha h ih) nil (fun h hs ih ih' => cons _ _ _ _ h hs ih ih') ts xs h

/-- A tree without tokens is of a symbol that derives the empty string. -/
theorem Tree.nullable_of_leaves :
    (∀ t x, Tree.Fits g m t x → t.leaves = [] → g.Nullable [x]) ∧
      ∀ ts xs, Tree.FitsAll g m ts xs → Tree.leavesOfAll ts = [] → g.Nullable xs := by
  refine fits_induction (fun tok t _ h => ?_) (fun A alt children halt _ ih h => ?_)
    (fun _ => Grammar.nullable_nil) fun t ts x xs _ _ ih ih' h => ?_
  · simp [leaves] at h
  · exact Grammar.nullable_rule_iff.2 ⟨_, Grammar.alternative_mem halt, ih (by simpa [leaves] using h)⟩
  · obtain ⟨h, h'⟩ := List.append_eq_nil_iff.1 (show t.leaves ++ leavesOfAll ts = [] from h)
    exact Grammar.nullable_cons_iff.2 ⟨ih h, ih' h'⟩

/-! ## Trees of the fragments -/

namespace EpsilonForest.Laid

variable (hg : g.WellFormed) (hε : ε.Laid g)
include hg hε

/-- The fragments stand for all trees without tokens. -/
theorem reads_fragment :
    (∀ t x, Tree.Fits g m t x → t.leaves = [] →
      ε.nodes.Reads g tokens (fragment ε.symbols x) t) ∧
    ∀ ts xs, Tree.FitsAll g m ts xs → Tree.leavesOfAll ts = [] →
      ε.nodes.ReadsAll g tokens (xs.map (fragment ε.symbols)) ts := by
  refine Tree.fits_induction (fun tok t _ h => ?_) (fun A alt children halt hfits ih h => ?_)
    (fun _ => .nil) fun t ts x xs _ _ ih ih' h => ?_
  · simp [Tree.leaves] at h
  · have hleaves : Tree.leavesOfAll children = [] := by simpa [Tree.leaves] using h
    have hnull := Tree.nullable_of_leaves.2 _ _ hfits hleaves
    obtain ⟨id, hid⟩ := hε.exists_symbol hg
      (Grammar.nullable_rule_iff.2 ⟨_, Grammar.alternative_mem halt, hnull⟩)
    obtain ⟨p, hp, hnode⟩ := hε.exists_packed hg hid halt hnull
    rw [fragment_rule hid]
    refine .rule (hε.symbol A id hid).2.1 hp (by rw [hnode]; rfl) ?_
    rw [Arena.childrenOf, hnode]
    by_cases hempty : (g.alternative A alt).isEmpty = true
    · simp only [packedNode, if_pos hempty]
      rw [List.isEmpty_iff.1 hempty] at hfits
      cases hfits
      exact .epsilon (by rw [epsilonId, hε.epsilon]; rfl) .nil
    · simp only [packedNode, if_neg hempty]
      exact ih hleaves
  · obtain ⟨h, h'⟩ := List.append_eq_nil_iff.1 (show t.leaves ++ Tree.leavesOfAll ts = [] from h)
    exact .tree (ih h) (ih' h')

theorem reads_symbol {A : RuleId} {id : NodeId} (hid : ε.symbol? A = some id) {t : Tree}
    (h : Tree.Fits g m t (.rule A)) (hl : t.leaves = []) : ε.nodes.Reads g tokens id t := by
  have := (@reads_fragment g m tokens ε hg hε).1 t _ h hl
  rwa [fragment_rule hid] at this

theorem reads_tail {A : RuleId} {alt dot : Nat} {id : NodeId} (hid : ε.tail? A alt dot = some id)
    {ts : List Tree} (h : Tree.FitsAll g m ts ((g.alternative A alt).symbols.drop dot))
    (hl : Tree.leavesOfAll ts = []) : ε.nodes.ReadsAll g tokens [id] ts := by
  obtain ⟨-, hnode⟩ := hε.tail A alt dot id hid
  rw [← List.append_nil ts]
  refine .nulled (by rw [hnode]; rfl) ?_ .nil
  rw [Arena.childrenOf, hnode]
  exact (hε.reads_fragment hg).2 ts _ h hl

end EpsilonForest.Laid

namespace Arena

variable {nodes nodes' : Arena}

/-! ## Growing -/

/-- What a node stands for, it stands for when the arena has grown. -/
theorem reads_grows (hclosed : ∀ id, ∀ c ∈ childrenOf nodes id, c < nodes.size)
    (hpacked : ∀ id, (node nodes id).isChoice = true → ∀ p ∈ childrenOf nodes id,
      (node nodes p).isPacked = true) (hg : nodes.Grows nodes') :
    (∀ id t, nodes.Reads g tokens id t → nodes'.Reads g tokens id t) ∧
      ∀ cs ts, nodes.ReadsAll g tokens cs ts → (∀ c ∈ cs, c < nodes.size) →
        nodes'.ReadsAll g tokens cs ts := by
  have hkind : ∀ {id k}, (node nodes id).kind = k → k ≠ .epsilon → (node nodes' id).kind = k := by
    intro id k hk hne
    rw [hg.kind_eq id (lt_size_of_kind (hk ▸ hne)), hk]
  have hchildren : ∀ {id k}, (node nodes id).kind = k → k ≠ .epsilon →
      ¬ (node nodes id).isChoice = true → childrenOf nodes' id = childrenOf nodes id := by
    intro id k hk hne hc
    rw [childrenOf, childrenOf, hg.node_eq id (lt_size_of_kind (hk ▸ hne)) hc]
  refine reads_induction (fun id i tok hk ht => .token (hkind hk (by simp)) ht)
    (fun id p A A' alt children hk hp hpk ih => ?_) (fun _ => .nil)
    (fun c cs ts hk ih hlt => ?_) (fun c cs us ts A alt dot hk ih _ ih' hlt => ?_)
    (fun c p cs us ts A alt dot hk hp ih _ ih' hlt => ?_) fun c cs t ts _ ih ih' hlt => ?_
  · refine .rule (hkind hk (by simp)) (hg.mem_children hp) (hkind hpk (by simp)) ?_
    rw [hchildren hpk (by simp) (by rw [Node.isChoice, hpk]; exact Bool.false_ne_true)]
    exact ih (hclosed p)
  · refine .epsilon ?_ (ih fun c hc => hlt c (.tail _ hc))
    rw [hg.kind_eq c (hlt c (.head _)), hk]
  · refine .nulled (hkind hk (by simp)) ?_ (ih' fun c hc => hlt c (.tail _ hc))
    rw [hchildren hk (by simp) (by rw [Node.isChoice, hk]; exact Bool.false_ne_true)]
    exact ih (hclosed c)
  · have hchoice : (node nodes c).isChoice = true := by rw [Node.isChoice, hk]
    obtain ⟨B, b, hpk⟩ := Node.isPacked_iff.1 (hpacked c hchoice p hp)
    refine .intermediate (hkind hk (by simp)) (hg.mem_children hp) ?_
      (ih' fun c hc => hlt c (.tail _ hc))
    rw [hchildren hpk (by simp) (by rw [Node.isChoice, hpk]; exact Bool.false_ne_true)]
    exact ih (hclosed p)
  · exact .tree ih (ih' fun c hc => hlt c (.tail _ hc))

/-! ## Productive nodes -/

/-- The node stands for something: a tree if it is a symbol node or a leaf, a list of trees if it is
part of a right-hand side. -/
def Productive (nodes : Arena) (g : Grammar) (tokens : TokenStream) (id : NodeId) : Prop :=
  ∃ ts, nodes.ReadsAll g tokens [id] ts

/-- Productive nodes stand for something together. -/
theorem exists_readsAll {cs : List NodeId} (h : ∀ c ∈ cs, nodes.Productive g tokens c) :
    ∃ ts, nodes.ReadsAll g tokens cs ts := by
  induction cs with
  | nil => exact ⟨[], .nil⟩
  | cons c cs ih =>
    obtain ⟨ts, hts⟩ := h c (.head _)
    obtain ⟨us, hus⟩ := ih fun c hc => h c (.tail _ hc)
    exact ⟨ts ++ us, hts.append hus⟩

/-- A choice is productive if all children of one of its alternatives are. -/
theorem productive_of_alternative {id p : NodeId} (hc : (node nodes id).isChoice = true)
    (hp : p ∈ childrenOf nodes id) (hpacked : (node nodes p).isPacked = true)
    (h : ∀ c ∈ childrenOf nodes p, nodes.Productive g tokens c) : nodes.Productive g tokens id := by
  obtain ⟨ts, hts⟩ := exists_readsAll h
  obtain ⟨B, alt, hpk⟩ := Node.isPacked_iff.1 hpacked
  rcases Node.isChoice_iff.1 hc with ⟨A, hk⟩ | ⟨A, alt, dot, hk⟩
  · exact ⟨_, .tree (.rule hk hp hpk hts) .nil⟩
  · exact ⟨_, .intermediate hk hp hts .nil⟩

theorem Productive.grows {id : NodeId} (h : nodes.Productive g tokens id)
    (hclosed : ∀ id, ∀ c ∈ childrenOf nodes id, c < nodes.size)
    (hpacked : ∀ id, (node nodes id).isChoice = true → ∀ p ∈ childrenOf nodes id,
      (node nodes p).isPacked = true) (hid : id < nodes.size) (hg : nodes.Grows nodes') :
    nodes'.Productive g tokens id :=
  h.imp fun _ hts => (reads_grows hclosed hpacked hg).2 _ _ hts (by simpa using hid)

/-- A choice that is productive has an alternative. -/
theorem Productive.children_ne_nil {id : NodeId} (h : nodes.Productive g tokens id)
    (hc : (node nodes id).isChoice = true) : childrenOf nodes id ≠ [] := by
  intro hnil
  obtain ⟨ts, hts⟩ := h
  cases hts with
  | epsilon hk _ => simp [Node.isChoice, hk] at hc
  | nulled hk _ _ => simp [Node.isChoice, hk] at hc
  | intermediate _ hp _ _ =>
    rw [hnil] at hp
    cases hp
  | tree h _ =>
    cases h with
    | token hk _ => simp [Node.isChoice, hk] at hc
    | rule _ hp _ _ =>
      rw [hnil] at hp
      cases hp

end Arena

/-- The fragment of a rule is productive. -/
theorem EpsilonForest.Laid.productive_symbol (m : TerminalMatcher) (hg : g.WellFormed) (hε : ε.Laid g)
    {A : RuleId} {id : NodeId} (hid : ε.symbol? A = some id) : ε.nodes.Productive g tokens id := by
  have hnull : g.Nullable [.rule A] := by
    rw [← hg.isNullable_iff, ← hε.symbol?_isSome, hid]
    rfl
  obtain ⟨ts, hfits, hleaves⟩ := hnull.exists_trees m
  have := (@reads_fragment g m tokens ε hg hε).2 ts _ hfits hleaves
  rw [List.map_singleton, fragment_rule hid] at this
  exact ⟨ts, this⟩

/-- The fragment of a tail is productive. -/
theorem EpsilonForest.Laid.productive_tail (m : TerminalMatcher) (hg : g.WellFormed) (hε : ε.Laid g)
    {A : RuleId} {alt dot : Nat} {id : NodeId} (hid : ε.tail? A alt dot = some id) :
    ε.nodes.Productive g tokens id := by
  have hle := ((hε.tail?_isSome A alt dot).1 (by rw [hid]; rfl))
  have hnull := (hg.nullableFrom_le_iff A _ (Grammar.alternative_mem hle.1) dot).1 hle.2.2.2
  obtain ⟨ts, hfits, hleaves⟩ := hnull.exists_trees m
  exact ⟨ts, hε.reads_tail hg hid hfits hleaves⟩

end ParseForest
