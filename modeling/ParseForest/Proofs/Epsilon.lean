import ParseForest.Epsilon
import ParseForest.Proofs.Forest.Arena

/-!
# The layout of the empty derivations

What is where in the arena that every forest begins with (`EpsilonForest.Laid`): one symbol node per
nullable rule, under it one packed node per nullable alternative in their order, and one nulled node
per nullable tail. The arena is put together alternative by alternative; `Partial` says how far it
has come, `done` being the number of alternatives of each rule that have had their turn.
-/

namespace ParseForest

namespace EpsilonForest

variable (g : Grammar) (symbols : Array (Option NodeId))

/-- The packed node of an alternative. -/
def packedNode (rule : RuleId) (alt : Nat) : Node :=
  let a := g.alternative rule alt
  let children := if a.isEmpty then [epsilonId] else a.symbols.map (fragment symbols)
  ⟨.packed rule alt, none, children.toArray, #[]⟩

/-- The nulled node of the symbols of an alternative from `dot` on. -/
def nulledNode (rule : RuleId) (alt dot : Nat) : Node :=
  ⟨.nulled rule alt dot, none,
    (((g.alternative rule alt).symbols.drop dot).map (fragment symbols)).toArray, #[]⟩

/-- The nullable ones among the first `n` alternatives of a rule. -/
def nullableAlternatives (rule : RuleId) (n : Nat) : List Nat :=
  (List.range n).filter fun alt => (g.alternative rule alt).isNullable

/-- The arena while it is put together. -/
structure Partial (done : RuleId → Nat) (nodes : Arena) : Prop where
  pos : 0 < nodes.size
  epsilon : Arena.node nodes 0 = .ofKind .epsilon none
  symbol : ∀ A id, symbols.getD A none = some id → id < nodes.size ∧
    (Arena.node nodes id).kind = .symbol A ∧ (Arena.node nodes id).span = none ∧
    List.Forall₂ (fun p alt => p < nodes.size ∧ Arena.node nodes p = packedNode g symbols A alt)
      (Arena.childrenOf nodes id) (nullableAlternatives g A (done A))
  kinds : ∀ id < nodes.size, id ≠ 0 →
    (∃ A, symbols.getD A none = some id) ∨
      (∃ A alt, Arena.node nodes id = packedNode g symbols A alt) ∨
      ∃ A alt dot, dot ∈ tailStarts (g.alternative A alt) ∧
        Arena.node nodes id = nulledNode g symbols A alt dot

variable {g symbols} {done : RuleId → Nat} {nodes : Arena}

/-! ## Symbol nodes -/

/-- A node is appended for one rule if it is nullable. -/
theorem symbolNode_spec (r : Rule) (k : RuleId) (nodes : Arena) : ∃ own nodes',
    (if r.nullable then (some nodes.size, nodes.push (.ofKind (.symbol k) none))
      else (none, nodes)) = (own, nodes') ∧ nodes.size ≤ nodes'.size ∧
    (∀ id < nodes.size, Arena.node nodes' id = Arena.node nodes id) ∧
    own.isSome = r.nullable ∧ (∀ id, own = some id ↔ nodes.size ≤ id ∧ id < nodes'.size) ∧
    ∀ id, own = some id → Arena.node nodes' id = .ofKind (.symbol k) none := by
  by_cases hr : r.nullable = true
  · refine ⟨some nodes.size, _, if_pos hr, by simp, fun id hid => Arena.node_push_lt hid,
      by simp [hr], fun id => ?_, fun id hid => ?_⟩
    · rw [Option.some.injEq, Array.size_push]
      constructor
      · rintro rfl
        exact ⟨Nat.le_refl _, Nat.lt_succ_self _⟩
      · rintro ⟨h, h'⟩
        exact Nat.le_antisymm h (Nat.le_of_lt_succ h')
    · obtain rfl := Option.some.inj hid
      exact Arena.node_push_size _
  · refine ⟨none, nodes, if_neg hr, Nat.le_refl _, fun _ _ => rfl, by simp [hr], fun id => ?_,
      by simp⟩
    simp only [reduceCtorEq, false_iff]
    exact fun h => Nat.not_lt.2 h.1 h.2

/-- One node is appended per nullable rule. -/
theorem symbolNodes_spec (rules : List Rule) (k : RuleId) (nodes : Arena) :
    (symbolNodes rules k nodes).1.length = rules.length ∧
      nodes.size ≤ (symbolNodes rules k nodes).2.size ∧
      (∀ id < nodes.size, Arena.node (symbolNodes rules k nodes).2 id = Arena.node nodes id) ∧
      (∀ (i : Nat) r, rules[i]? = some r → ∃ own, (symbolNodes rules k nodes).1[i]? = some own ∧
        own.isSome = r.nullable ∧ ∀ id, own = some id → nodes.size ≤ id ∧
          id < (symbolNodes rules k nodes).2.size ∧
          Arena.node (symbolNodes rules k nodes).2 id = .ofKind (.symbol (k + i)) none) ∧
      ∀ id, nodes.size ≤ id → id < (symbolNodes rules k nodes).2.size →
        ∃ i : Nat, (symbolNodes rules k nodes).1[i]? = some (some id) := by
  induction rules generalizing k nodes with
  | nil =>
    exact ⟨rfl, Nat.le_refl _, fun _ _ => rfl, by simp, fun id h h' => absurd h' (Nat.not_lt.2 h)⟩
  | cons r rules ih =>
    obtain ⟨own, nodes₁, hown, hle, hold, hnullable, hnew, hnode⟩ := symbolNode_spec r k nodes
    obtain ⟨hlen, hle', hold', hspec, hcover⟩ := ih (k + 1) nodes₁
    have heq : symbolNodes (r :: rules) k nodes =
        (own :: (symbolNodes rules (k + 1) nodes₁).1, (symbolNodes rules (k + 1) nodes₁).2) := by
      rw [symbolNodes]
      simp only [hown]
    rw [heq]
    refine ⟨by simp [hlen], Nat.le_trans hle hle', fun id hid => ?_, fun i r' hr => ?_,
      fun id hid hlt => ?_⟩
    · rw [hold' id (Nat.lt_of_lt_of_le hid hle), hold id hid]
    · cases i with
      | zero =>
        obtain rfl := Option.some.inj hr
        refine ⟨own, rfl, hnullable, fun id hid => ?_⟩
        obtain ⟨hge, hlt⟩ := (hnew id).1 hid
        exact ⟨hge, Nat.lt_of_lt_of_le hlt hle', (hold' id hlt).trans (hnode id hid)⟩
      | succ i =>
        obtain ⟨own', hget, hsome, hid'⟩ := hspec i r' hr
        refine ⟨own', hget, hsome, fun id hid => ?_⟩
        obtain ⟨hge, hlt, hnode⟩ := hid' id hid
        refine ⟨Nat.le_trans hle hge, hlt, ?_⟩
        rw [hnode, Nat.add_assoc, Nat.add_comm 1]
    · by_cases hlt' : id < nodes₁.size
      · exact ⟨0, congrArg some ((hnew id).2 ⟨hid, hlt'⟩)⟩
      · obtain ⟨i, hi⟩ := hcover id (Nat.not_lt.1 hlt') hlt
        exact ⟨i + 1, hi⟩

theorem getD_none_eq_some {α : Type} {a : Array (Option α)} {i : Nat} {x : α} :
    a.getD i none = some x ↔ a[i]? = some (some x) := by
  rw [Array.getD_eq_getD_getElem?]
  cases a[i]? <;> simp

/-- The symbol nodes of a grammar, behind the node of the empty token sequence. -/
def symbolLayer (g : Grammar) : List (Option NodeId) × Arena :=
  symbolNodes g.rules.toList 0 #[.ofKind .epsilon none]

theorem isSome_symbolLayer (A : RuleId) :
    ((symbolLayer g).1.toArray.getD A none).isSome = g.isNullable A := by
  obtain ⟨hlen, -, -, hspec, -⟩ := symbolNodes_spec g.rules.toList 0 #[.ofKind .epsilon none]
  rw [Array.getD_eq_getD_getElem?, List.getElem?_toArray, Grammar.isNullable, Grammar.rule,
    Array.getD_eq_getD_getElem?, ← Array.getElem?_toList]
  cases hr : g.rules.toList[A]? with
  | none =>
    rw [List.getElem?_eq_none_iff] at hr
    rw [symbolLayer, List.getElem?_eq_none (by rw [hlen]; exact hr)]
    rfl
  | some r =>
    obtain ⟨own, hget, hown, -⟩ := hspec A r hr
    rw [symbolLayer, hget]
    exact hown

theorem lt_of_symbolLayer {A : RuleId} {id : NodeId}
    (h : (symbolLayer g).1.toArray.getD A none = some id) : A < g.rules.toList.length := by
  have hlen := (symbolNodes_spec g.rules.toList 0 #[.ofKind .epsilon none]).1
  rw [getD_none_eq_some, List.getElem?_toArray] at h
  exact hlen ▸ (List.getElem?_eq_some_iff.1 h).1

/-- Before the first alternative every symbol node is there and has no child. -/
theorem partial_symbolLayer :
    Partial g (symbolLayer g).1.toArray (fun _ => 0) (symbolLayer g).2 := by
  obtain ⟨-, hle, hold, hspec, hcover⟩ :=
    symbolNodes_spec g.rules.toList 0 #[.ofKind .epsilon none]
  refine ⟨Nat.lt_of_lt_of_le (by simp) hle, hold 0 (by simp), fun A id hid => ?_,
    fun id hid hne => ?_⟩
  · have hA := lt_of_symbolLayer hid
    rw [getD_none_eq_some, List.getElem?_toArray] at hid
    obtain ⟨own, hget, -, hnode⟩ := hspec A _ (List.getElem?_eq_getElem hA)
    obtain ⟨-, hlt, hnode⟩ := hnode id (Option.some.inj (hget.symm.trans hid))
    rw [Nat.zero_add] at hnode
    rw [Arena.childrenOf, symbolLayer, hnode]
    exact ⟨hlt, rfl, rfl, .nil⟩
  · obtain ⟨A, hA⟩ := hcover id (Nat.one_le_iff_ne_zero.2 hne) hid
    exact .inl ⟨A, getD_none_eq_some.2 (by rw [List.getElem?_toArray]; exact hA)⟩

/-! ## Alternatives -/

/-- A node that is no symbol node is appended. -/
theorem Partial.push (h : Partial g symbols done nodes) {n : Node}
    (hn : (∃ A alt, n = packedNode g symbols A alt) ∨ ∃ A alt dot,
      dot ∈ tailStarts (g.alternative A alt) ∧ n = nulledNode g symbols A alt dot) :
    Partial g symbols done (nodes.push n) where
  pos := by simp
  epsilon := (Arena.node_push_lt h.pos).trans h.epsilon
  symbol A id hid := by
    obtain ⟨hlt, hkind, hspan, hall⟩ := h.symbol A id hid
    rw [Arena.childrenOf, Arena.node_push_lt hlt]
    refine ⟨Nat.lt_of_lt_of_le hlt (by simp), hkind, hspan, hall.imp fun p alt hp => ?_⟩
    exact ⟨Nat.lt_of_lt_of_le hp.1 (by simp), (Arena.node_push_lt hp.1).trans hp.2⟩
  kinds id hid hne := by
    rw [Array.size_push] at hid
    rcases Nat.lt_or_eq_of_le (Nat.le_of_lt_succ hid) with hlt | rfl
    · rw [Arena.node_push_lt hlt]
      exact h.kinds id hlt hne
    · rw [Arena.node_push_size]
      exact .inr hn

theorem nullableAlternatives_succ (rule : RuleId) (n : Nat) :
    nullableAlternatives g rule (n + 1) = nullableAlternatives g rule n ++
      if (g.alternative rule n).isNullable then [n] else [] := by
  rw [nullableAlternatives, List.range_succ, List.filter_append]
  by_cases h : (g.alternative rule n).isNullable = true <;> simp [h, nullableAlternatives]

/-- The symbol node of a rule gets the next packed node. -/
theorem Partial.addChild (h : Partial g symbols done nodes) {rule : RuleId} {owner child : NodeId}
    (howner : symbols.getD rule none = some owner) (hchild : child < nodes.size)
    (hnode : Arena.node nodes child = packedNode g symbols rule (done rule))
    (hnull : (g.alternative rule (done rule)).isNullable = true) :
    Partial g symbols (Function.update done rule (done rule + 1))
      (Arena.addChild nodes owner child) := by
  obtain ⟨hlt, hkind, -, -⟩ := h.symbol rule owner howner
  have hpacked : ∀ {p A alt}, Arena.node nodes p = packedNode g symbols A alt → owner ≠ p := by
    rintro p A alt hp rfl
    rw [hp] at hkind
    cases hkind
  have hall : ∀ {ps : List NodeId} {A : RuleId} {alts : List Nat},
      List.Forall₂ (fun p alt => p < nodes.size ∧ Arena.node nodes p = packedNode g symbols A alt)
        ps alts →
      List.Forall₂ (fun p alt => p < nodes.size ∧
        Arena.node (Arena.addChild nodes owner child) p = packedNode g symbols A alt) ps alts :=
    fun hps => hps.imp fun p alt hp => ⟨hp.1, (Arena.node_addChild_ne (hpacked hp.2)).trans hp.2⟩
  refine ⟨by simpa using h.pos, ?_, fun A id hid => ?_, fun id hid hne => ?_⟩
  · refine (Arena.node_addChild_ne ?_).trans h.epsilon
    rintro rfl
    rw [h.epsilon] at hkind
    cases hkind
  · obtain ⟨hidlt, hidkind, hidspan, hforall⟩ := h.symbol A id hid
    rw [Arena.kind_addChild, Arena.span_addChild, Arena.size_addChild]
    refine ⟨hidlt, hidkind, hidspan, ?_⟩
    by_cases hA : A = rule
    · subst hA
      obtain rfl := Option.some.inj (hid.symm.trans howner)
      rw [Arena.childrenOf_addChild_self hlt, Function.update_self, nullableAlternatives_succ,
        if_pos hnull]
      refine List.rel_append (hall hforall) (.cons ⟨hchild, ?_⟩ .nil)
      exact (Arena.node_addChild_ne (hpacked hnode)).trans hnode
    · have hne : owner ≠ id := by
        rintro rfl
        exact hA (NodeKind.symbol.inj (hidkind.symm.trans hkind))
      rw [Arena.childrenOf_addChild_ne hne, Function.update_of_ne hA]
      exact hall hforall
  · rw [Arena.size_addChild] at hid
    by_cases ho : owner = id
    · exact .inl ⟨rule, ho ▸ howner⟩
    · rw [Arena.node_addChild_ne ho]
      exact h.kinds id hid hne

/-- The packed node of an alternative is appended and put under the symbol node of its rule. -/
theorem Partial.addPacked (h : Partial g symbols done nodes) (rule : RuleId) :
    Partial g symbols (Function.update done rule (done rule + 1))
        (addPacked symbols rule (done rule) (g.alternative rule (done rule)) nodes) ∧
      nodes.Grows (addPacked symbols rule (done rule) (g.alternative rule (done rule)) nodes) := by
  unfold EpsilonForest.addPacked
  cases howner : symbols.getD rule none with
  | none =>
    refine ⟨⟨h.pos, h.epsilon, fun A id hid => ?_, h.kinds⟩, .refl _⟩
    have hA : A ≠ rule := by
      rintro rfl
      rw [howner] at hid
      cases hid
    rw [Function.update_of_ne hA]
    exact h.symbol A id hid
  | some owner =>
    by_cases hnull : (g.alternative rule (done rule)).isNullable = true
    · simp only [hnull, if_true]
      obtain ⟨hlt, hkind, -, -⟩ := h.symbol rule owner howner
      have hpush := h.push (.inl ⟨rule, done rule, rfl⟩)
      refine ⟨hpush.addChild howner (by simp) (Arena.node_push_size _) hnull,
        (Arena.grows_push _ _).trans (Arena.grows_addChild ?_ _)⟩
      rw [Arena.node_push_lt hlt, Node.isChoice, hkind]
    · simp only [hnull]
      refine ⟨⟨h.pos, h.epsilon, fun A id hid => ?_, h.kinds⟩, .refl _⟩
      obtain ⟨hidlt, hidkind, hidspan, hforall⟩ := h.symbol A id hid
      refine ⟨hidlt, hidkind, hidspan, ?_⟩
      by_cases hA : A = rule
      · subst hA
        rw [Function.update_self, nullableAlternatives_succ, if_neg hnull, List.append_nil]
        exact hforall
      · rw [Function.update_of_ne hA]
        exact hforall

/-! ## Tails -/

/-- The fragments of the tails of an alternative, in the order of their beginnings. -/
def TailsOf (g : Grammar) (symbols : Array (Option NodeId)) (nodes : Arena) (rule : RuleId)
    (alt : Nat) (dots : List Nat) (tails : List (Nat × NodeId)) : Prop :=
  List.Forall₂ (fun dot (x : Nat × NodeId) => x.1 = dot ∧ x.2 < nodes.size ∧
    Arena.node nodes x.2 = nulledNode g symbols rule alt dot) dots tails

theorem TailsOf.grows {rule : RuleId} {alt : Nat} {dots : List Nat} {tails : List (Nat × NodeId)}
    (h : TailsOf g symbols nodes rule alt dots tails) {nodes' : Arena} (hg : nodes.Grows nodes') :
    TailsOf g symbols nodes' rule alt dots tails := by
  refine h.imp fun dot x hx => ⟨hx.1, Nat.lt_of_lt_of_le hx.2.1 hg.size_le, ?_⟩
  rw [hg.node_eq x.2 hx.2.1, hx.2.2]
  rw [hx.2.2]
  exact Bool.false_ne_true

theorem Partial.addTails (rule : RuleId) (alt : Nat) (dots : List Nat)
    (hdots : ∀ dot ∈ dots, dot ∈ tailStarts (g.alternative rule alt)) {nodes : Arena}
    (h : Partial g symbols done nodes) :
    Partial g symbols done (addTails symbols rule alt (g.alternative rule alt) dots nodes).2 ∧
      nodes.Grows (addTails symbols rule alt (g.alternative rule alt) dots nodes).2 ∧
      TailsOf g symbols (addTails symbols rule alt (g.alternative rule alt) dots nodes).2 rule alt
        dots (addTails symbols rule alt (g.alternative rule alt) dots nodes).1 := by
  induction dots generalizing nodes with
  | nil => exact ⟨h, .refl _, .nil⟩
  | cons dot dots ih =>
    have hgrows := Arena.grows_push nodes (nulledNode g symbols rule alt dot)
    obtain ⟨h', hgrows', htails⟩ := ih (fun d hd => hdots d (.tail _ hd))
      (h.push (.inr ⟨rule, alt, dot, hdots dot (.head _), rfl⟩))
    refine ⟨h', hgrows.trans hgrows', .cons ⟨rfl, ?_, ?_⟩ htails⟩
    · exact Nat.lt_of_lt_of_le (by simp) hgrows'.size_le
    · refine (hgrows'.node_eq nodes.size (by simp) ?_).trans (Arena.node_push_size _)
      rw [Arena.node_push_size]
      exact Bool.false_ne_true

theorem Partial.addAlternative (rule : RuleId) {nodes : Arena} (h : Partial g symbols done nodes) :
    ∃ tails nodes', EpsilonForest.addAlternative symbols rule (done rule)
        (g.alternative rule (done rule)) nodes = (tails, nodes') ∧
      Partial g symbols (Function.update done rule (done rule + 1)) nodes' ∧ nodes.Grows nodes' ∧
      TailsOf g symbols nodes' rule (done rule) (tailStarts (g.alternative rule (done rule))) tails := by
  obtain ⟨h', hgrows⟩ := h.addPacked rule
  obtain ⟨h'', hgrows', htails⟩ :=
    Partial.addTails rule (done rule) (tailStarts (g.alternative rule (done rule)))
      (fun _ hdot => hdot) h'
  exact ⟨_, _, rfl, h'', hgrows.trans hgrows', htails⟩

theorem Partial.addRule (rule : RuleId) (alternatives : List Alternative) {done : RuleId → Nat}
    {nodes : Arena} (h : Partial g symbols done nodes)
    (ha : (g.rule rule).alternatives.toList.drop (done rule) = alternatives) :
    ∃ tails nodes', addRule symbols rule alternatives (done rule) nodes = (tails, nodes') ∧
      Partial g symbols (Function.update done rule (done rule + alternatives.length)) nodes' ∧
      nodes.Grows nodes' ∧ tails.length = alternatives.length ∧
      ∀ (i : Nat) ts, tails[i]? = some ts → TailsOf g symbols nodes' rule (done rule + i)
        (tailStarts (g.alternative rule (done rule + i))) ts := by
  induction alternatives generalizing done nodes with
  | nil =>
    refine ⟨[], nodes, rfl, ?_, .refl _, rfl, by simp⟩
    rwa [List.length_nil, Nat.add_zero, Function.update_eq_self]
  | cons a alternatives ih =>
    have hhead : g.alternative rule (done rule) = a := by
      have := congrArg List.head? ha
      rw [List.head?_drop, Array.getElem?_toList] at this
      rw [Grammar.alternative, Array.getD_eq_getD_getElem?, this]
      rfl
    obtain ⟨ts, nodes₁, hrun, h₁, hgrows, hts⟩ := Partial.addAlternative rule h
    obtain ⟨tails, nodes', hrun', h', hgrows', hlen, htails⟩ := ih h₁ (by
      rw [Function.update_self, ← List.drop_drop, ha]
      rfl)
    rw [Function.update_self] at hrun' htails h'
    rw [Function.update_idem] at h'
    refine ⟨ts :: tails, nodes', ?_, ?_, hgrows.trans hgrows', by simp [hlen], fun i us hus => ?_⟩
    · rw [EpsilonForest.addRule, ← hhead, hrun]
      simp only [hrun']
    · rwa [List.length_cons, Nat.add_comm alternatives.length 1, ← Nat.add_assoc]
    · cases i with
      | zero =>
        obtain rfl := Option.some.inj hus
        exact hts.grows hgrows'
      | succ i =>
        have := htails i us hus
        rwa [Nat.add_assoc, Nat.add_comm 1] at this

theorem Partial.addRules (rules : List Rule) (id : RuleId) {done : RuleId → Nat} {nodes : Arena}
    (h : Partial g symbols done nodes) (hr : g.rules.toList.drop id = rules)
    (hd : ∀ A, id ≤ A → done A = 0) :
    ∃ tails nodes' done', addRules symbols rules id nodes = (tails, nodes') ∧
      Partial g symbols done' nodes' ∧ nodes.Grows nodes' ∧ tails.length = rules.length ∧
      (∀ A < id, done' A = done A) ∧
      (∀ i < rules.length, done' (id + i) = (g.rule (id + i)).alternatives.size) ∧
      ∀ (i : Nat) ts, tails[i]? = some ts → ts.size = (g.rule (id + i)).alternatives.size ∧
        ∀ (alt : Nat) us, ts[alt]? = some us → TailsOf g symbols nodes' (id + i) alt
          (tailStarts (g.alternative (id + i) alt)) us := by
  induction rules generalizing id done nodes with
  | nil => exact ⟨[], nodes, done, rfl, h, .refl _, rfl, fun _ _ => rfl, by simp, by simp⟩
  | cons r rules ih =>
    have hrule : g.rule id = r := by
      have := congrArg List.head? hr
      rw [List.head?_drop, Array.getElem?_toList] at this
      rw [Grammar.rule, Array.getD_eq_getD_getElem?, this]
      rfl
    have h0 := hd id (Nat.le_refl _)
    obtain ⟨ts, nodes₁, hrun, h₁, hgrows, hlen, hts⟩ :=
      Partial.addRule id (g.rule id).alternatives.toList h (by rw [h0, List.drop_zero])
    rw [h0] at hrun
    simp only [h0, Nat.zero_add] at h₁ hts
    obtain ⟨tails, nodes', done', hrun', h', hgrows', hlen', hold, hnew, htails⟩ :=
      ih (id + 1) h₁ (by rw [← List.drop_drop, hr]; rfl) fun A hA => by
        rw [Function.update_of_ne (by rintro rfl; exact Nat.not_succ_le_self _ hA)]
        exact hd A (Nat.le_of_succ_le hA)
    refine ⟨ts.toArray :: tails, nodes', done', ?_, h', hgrows.trans hgrows', by simp [hlen'],
      fun A hA => ?_, fun i hi => ?_, fun i us hus => ?_⟩
    · rw [EpsilonForest.addRules, ← hrule, hrun]
      simp only [hrun']
    · rw [hold A (Nat.lt_succ_of_lt hA), Function.update_of_ne (Nat.ne_of_lt hA)]
    · cases i with
      | zero =>
        rw [Nat.add_zero, hold id (Nat.lt_succ_self id), Function.update_self, Array.length_toList]
      | succ i =>
        rw [List.length_cons] at hi
        have := hnew i (Nat.lt_of_succ_lt_succ hi)
        rwa [Nat.add_assoc, Nat.add_comm 1] at this
    · cases i with
      | zero =>
        obtain rfl := Option.some.inj hus
        refine ⟨by rw [List.size_toArray, hlen, Array.length_toList]; rfl, fun alt vs hvs => ?_⟩
        rw [List.getElem?_toArray] at hvs
        exact (hts alt vs hvs).grows hgrows'
      | succ i =>
        have := htails i us hus
        rwa [Nat.add_assoc, Nat.add_comm 1] at this

/-- The table of tails has an entry for each alternative that there is, and is empty elsewhere. -/
theorem tailsOf_getD {tails : List (Array (List (Nat × NodeId)))}
    (hlen : tails.length = g.rules.size)
    (htails : ∀ (A : Nat) ts, tails[A]? = some ts → ts.size = (g.rule A).alternatives.size ∧
      ∀ (alt : Nat) us, ts[alt]? = some us → TailsOf g symbols nodes A alt
        (tailStarts (g.alternative A alt)) us) (A : RuleId) (alt : Nat) :
    (alt < (g.rule A).alternatives.size ∧ TailsOf g symbols nodes A alt
        (tailStarts (g.alternative A alt)) ((tails.toArray.getD A #[]).getD alt [])) ∨
      (¬ alt < (g.rule A).alternatives.size ∧ (tails.toArray.getD A #[]).getD alt [] = []) := by
  rw [@Array.getD_eq_getD_getElem? _ tails.toArray, List.getElem?_toArray]
  cases hts : tails[A]? with
  | none =>
    rw [List.getElem?_eq_none_iff, hlen] at hts
    rw [Grammar.rule, Array.getD_of_size_le hts]
    exact .inr ⟨Nat.not_lt_zero _, by simp⟩
  | some ts =>
    obtain ⟨hsize, hall⟩ := htails A ts hts
    rw [Option.getD_some, ← hsize, Array.getD_eq_getD_getElem?]
    cases hus : ts[alt]? with
    | none => exact .inr ⟨Nat.not_lt.2 (Array.getElem?_eq_none_iff.1 hus), rfl⟩
    | some us => exact .inl ⟨(Array.getElem?_eq_some_iff.1 hus).1, hall alt us hus⟩

/-! ## The finished layout -/

theorem fragment_rule {ε : EpsilonForest} {A : RuleId} {id : NodeId} (hid : ε.symbol? A = some id) :
    fragment ε.symbols (.rule A) = id := by
  change (ε.symbol? A).getD epsilonId = id
  rw [hid]
  rfl

/-- The empty derivations of a grammar are where they should be. -/
structure Laid (g : Grammar) (ε : EpsilonForest) : Prop where
  pos : 0 < ε.nodes.size
  epsilon : Arena.node ε.nodes 0 = .ofKind .epsilon none
  symbol?_isSome : ∀ A, (ε.symbol? A).isSome = g.isNullable A
  symbol : ∀ A id, ε.symbol? A = some id → id < ε.nodes.size ∧
    (Arena.node ε.nodes id).kind = .symbol A ∧ (Arena.node ε.nodes id).span = none ∧
    List.Forall₂
      (fun p alt => p < ε.nodes.size ∧ Arena.node ε.nodes p = packedNode g ε.symbols A alt)
      (Arena.childrenOf ε.nodes id) (nullableAlternatives g A (g.rule A).alternatives.size)
  tail : ∀ A alt dot id, ε.tail? A alt dot = some id → id < ε.nodes.size ∧
    Arena.node ε.nodes id = nulledNode g ε.symbols A alt dot
  tail?_isSome : ∀ A alt dot, (ε.tail? A alt dot).isSome ↔ alt < (g.rule A).alternatives.size ∧
    1 ≤ dot ∧ dot < (g.alternative A alt).length ∧ (g.alternative A alt).nullableFrom ≤ dot
  kinds : ∀ id < ε.nodes.size, id ≠ 0 →
    (∃ A, ε.symbol? A = some id) ∨
      (∃ A alt, Arena.node ε.nodes id = packedNode g ε.symbols A alt) ∨
      ∃ A alt dot, dot ∈ tailStarts (g.alternative A alt) ∧
        Arena.node ε.nodes id = nulledNode g ε.symbols A alt dot

theorem mem_tailStarts_iff {a : Alternative} {dot : Nat} :
    dot ∈ tailStarts a ↔ 1 ≤ dot ∧ dot < a.length ∧ a.nullableFrom ≤ dot := by
  rw [tailStarts, List.mem_drop_iff_getElem]
  simp only [List.getElem_range, List.length_range]
  constructor
  · rintro ⟨j, hj, rfl⟩
    omega
  · rintro ⟨h, h', h''⟩
    exact ⟨dot - max a.nullableFrom 1, by omega, by omega⟩

theorem TailsOf.lookup {rule : RuleId} {alt : Nat} {dots : List Nat} {tails : List (Nat × NodeId)}
    (h : TailsOf g symbols nodes rule alt dots tails) (dot : Nat) :
    ((tails.lookup dot).isSome ↔ dot ∈ dots) ∧ ∀ id, tails.lookup dot = some id →
      id < nodes.size ∧ Arena.node nodes id = nulledNode g symbols rule alt dot := by
  induction h with
  | nil => simp
  | @cons d x dots tails hx _ ih =>
    obtain ⟨d', id'⟩ := x
    obtain ⟨rfl, hlt, hnode⟩ := hx
    by_cases hd : dot = d'
    · subst hd
      simp only [List.lookup_cons_self, Option.isSome_some, List.mem_cons, true_or,
        Option.some.injEq, true_and]
      rintro id rfl
      exact ⟨hlt, hnode⟩
    · have hb : (dot == d') = false := by simp [hd]
      rw [List.lookup_cons, hb]
      simp only [List.mem_cons, hd, false_or]
      exact ih

theorem laid_ofGrammar (g : Grammar) : Laid g (ofGrammar g) := by
  obtain ⟨tails, nodes, done, hrun, h, -, hlen, -, hdone, htails⟩ :=
    Partial.addRules g.rules.toList 0 (partial_symbolLayer (g := g)) rfl fun _ _ => rfl
  have hok : ofGrammar g = ⟨nodes, (symbolLayer g).1.toArray, tails.toArray⟩ := by
    rw [ofGrammar]
    simp only [symbolLayer] at hrun ⊢
    simp only [hrun]
  simp only [Nat.zero_add] at hdone htails
  have hcell := tailsOf_getD hlen htails
  rw [hok]
  refine ⟨h.pos, h.epsilon, isSome_symbolLayer, fun A id hid => ?_, fun A alt dot id hid => ?_,
    fun A alt dot => ?_, h.kinds⟩
  · obtain ⟨hlt, hkind, hspan, hall⟩ := h.symbol A id hid
    rw [hdone A (lt_of_symbolLayer hid)] at hall
    exact ⟨hlt, hkind, hspan, hall⟩
  · rcases hcell A alt with ⟨-, ht⟩ | ⟨-, hempty⟩
    · exact (ht.lookup dot).2 id hid
    · rw [tail?, hempty] at hid
      cases hid
  · rcases hcell A alt with ⟨halt, ht⟩ | ⟨halt, hempty⟩
    · rw [tail?, (ht.lookup dot).1, mem_tailStarts_iff]
      simp [halt]
    · rw [tail?, hempty]
      simp [halt]

end EpsilonForest

end ParseForest
