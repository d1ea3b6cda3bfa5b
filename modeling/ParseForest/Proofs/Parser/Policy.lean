import ParseForest.Parser.Engine
import ParseForest.Proofs.Parser.Formed
import Mathlib.Tactic.Common

/-!
# What verdicts are known to mean

Which derivations a forest keeps depends on how candidates are judged, and a verdict may look at all
that the forest holds already. A `Policy` is something that is known of every derivation that has
been kept, or of every one that has been turned down, and that stays true while the parse goes on:
it may only speak of nodes that the stage of the parse has passed. All that the engine does is then
proved once, for every policy at the same time.
-/

namespace ParseForest

/-!
## Steps of a parse as predicate transformers

`Ends m Q E e` says how step `m` ends when it begins in state `e`: with an answer and a state that
satisfy `Q`, or with an error that satisfies `E`. One lemma per construct turns a step into a
statement about states; the lemmas about the operations of the engine leave no monad in sight.
-/

section

variable {σ α β : Type}

/-- A step that begins in `e` ends as `Q` says, or with an error as `E` says. -/
def Ends (m : EngineM σ α) (Q : α → Engine σ → Prop) (E : ParseError → Prop) (e : Engine σ) : Prop :=
  match m e with
  | .ok a e' => Q a e'
  | .error err _ => E err

variable {Q Q' : α → Engine σ → Prop} {E E' : ParseError → Prop} {e : Engine σ}

@[simp] theorem ends_pure (a : α) : Ends (pure a) Q E e ↔ Q a e := Iff.rfl

@[simp] theorem ends_bind {R : β → Engine σ → Prop} (m : EngineM σ α) (f : α → EngineM σ β) :
    Ends (m >>= f) R E e ↔ Ends m (fun a e' => Ends (f a) R E e') E e := by
  simp only [Ends, bind, EStateM.bind]
  cases m e <;> rfl

@[simp] theorem ends_map {R : β → Engine σ → Prop} (m : EngineM σ α) (f : α → β) :
    Ends (f <$> m) R E e ↔ Ends m (fun a e' => R (f a) e') E e := by
  simp only [Ends, Functor.map, EStateM.map]
  cases m e <;> rfl

@[simp] theorem ends_get {R : Engine σ → Engine σ → Prop} :
    Ends (get : EngineM σ (Engine σ)) R E e ↔ R e e := Iff.rfl

@[simp] theorem ends_modify {R : Unit → Engine σ → Prop} (f : Engine σ → Engine σ) :
    Ends (modify f : EngineM σ Unit) R E e ↔ R () (f e) := Iff.rfl

@[simp] theorem ends_modifyGet (f : Engine σ → α × Engine σ) :
    Ends (modifyGet f : EngineM σ α) Q E e ↔ Q (f e).1 (f e).2 := Iff.rfl

@[simp] theorem ends_throw (err : ParseError) :
    Ends (throw err : EngineM σ α) Q E e ↔ E err := Iff.rfl

@[simp] theorem ends_discard {R : Unit → Engine σ → Prop} (m : EngineM σ α) :
    Ends (discard m) R E e ↔ Ends m (fun _ e' => R () e') E e :=
  ends_map m fun _ => ()

theorem Ends.mono {m : EngineM σ α} (h : Ends m Q E e) (hQ : ∀ a e', Q a e' → Q' a e')
    (hE : ∀ err, E err → E' err) : Ends m Q' E' e := by
  simp only [Ends] at *
  cases hm : m e with
  | ok a e' =>
    rw [hm] at h
    exact hQ a e' h
  | error err e' =>
    rw [hm] at h
    exact hE err h

theorem Ends.imp {m : EngineM σ α} (h : Ends m Q E e) (hQ : ∀ a e', Q a e' → Q' a e') :
    Ends m Q' E e := h.mono hQ fun _ => id

theorem Ends.and {m : EngineM σ α} (h : Ends m Q E e) (h' : Ends m Q' E' e) :
    Ends m (fun a e' => Q a e' ∧ Q' a e') (fun err => E err ∧ E' err) e := by
  simp only [Ends] at *
  cases hm : m e with
  | ok a e' =>
    rw [hm] at h h'
    exact ⟨h, h'⟩
  | error err e' =>
    rw [hm] at h h'
    exact ⟨h, h'⟩

theorem Ends.of_forall {m : EngineM σ α} (hQ : ∀ a e', Q a e') (hE : ∀ err, E err) : Ends m Q E e := by
  rw [Ends]
  cases m e with
  | ok a e' => exact hQ a e'
  | error err e' => exact hE err

/-- A loop over a list keeps an invariant that may depend on what is left of the list. -/
theorem Ends.forM {I : List α → Engine σ → Prop} {f : α → EngineM σ Unit} (xs : List α)
    (h : I xs e) (hf : ∀ x rest e, (x :: rest) <:+ xs → I (x :: rest) e →
      Ends (f x) (fun _ e' => I rest e') E e) :
    Ends (xs.forM f) (fun _ e' => I [] e') E e := by
  induction xs generalizing e with
  | nil => exact h
  | cons x xs ih =>
    change Ends (f x >>= fun _ => xs.forM f) _ E e
    rw [ends_bind]
    refine (hf x xs e List.suffix_rfl h).imp fun _ e' h' => ih h' fun y rest e hs hi =>
      hf y rest e (hs.trans (List.suffix_cons x xs)) hi

end

/-! ## Policies -/

variable {σ : Type}

/-- Without disambiguators the built-in rules decide. -/
theorem Pipeline.judge_fst {p : Pipeline σ} (h : p.user = []) (c : Candidate) (s : σ) :
    (p.judge c s).1 = p.builtIn c := by
  rw [judge]
  cases hb : p.builtIn c with
  | accept => rw [h]; rfl
  | reject | defer => rfl

namespace ParseInput

variable (input : ParseInput σ)

/-- No candidate is ever deferred. -/
def Prompt : Prop := ∀ c s, (input.pipeline.judge c s).1 ≠ .defer

/-- No candidate is ever deferred, and none is turned down unless its node has an alternative. -/
structure Lenient : Prop where
  prompt : input.Prompt
  existing : ∀ c s, (input.pipeline.judge c s).1 ≠ .accept → Arena.childrenOf c.nodes c.node ≠ []

/-- The candidate as which a derivation is judged, when operands that end before `level` are
settled. -/
def candidate (nodes : Arena) (d : Deferred) (level : Nat) : Candidate where
  grammar := input.grammar
  tokens := input.tokens
  nodes := nodes
  node := d.symbol
  rule := d.rule
  alt := d.alt
  span := d.span
  sequences := Arena.sequencesOf nodes sequenceCap d.children.toList
  level := level

end ParseInput

/-- The derivation is one of its symbol node. -/
structure Deferred.Valid (input : ParseInput σ) (nodes : Arena) (d : Deferred) : Prop where
  kind_eq : (Arena.node nodes d.symbol).kind = .symbol d.rule
  span_eq : (Arena.node nodes d.symbol).span = some d.span
  alt_lt : d.alt < (input.grammar.rule d.rule).alternatives.size
  holds : input.Holds nodes d.rule d.alt 0 d.span.left d.span.right d.children

/-- A derivation is judged when it is offered, and perhaps again when everything narrower that ends
at its level has been settled. -/
def Stage.IsFor (st : Stage) (d : Deferred) (level : Nat) : Prop :=
  d.span.right = st.level ∧ ((level = st.level ∧ st.width = 0) ∨
    (level = st.level + 1 ∧ st.width = d.span.width))

/-- Something that is known of every derivation that has been kept, and something that is known of
every one that has been turned down. -/
structure Policy (input : ParseInput σ) where
  /-- What is known at a stage of a derivation that has been kept, or has not -/
  Known : Arena → Stage → Deferred → Bool → Prop
  grows : ∀ {nodes nodes' st st' d b}, input.Formed nodes → d.Valid input nodes →
    Known nodes st d b → Arena.GrowsAt st nodes nodes' → st.Before st' → Known nodes' st' d b
  accepts : ∀ {nodes st d level user}, input.Formed nodes → d.Valid input nodes →
    st.IsFor d level → (input.pipeline.judge (input.candidate nodes d level) user).1 = .accept →
    Known nodes st d true
  rejects : ∀ {nodes st d level user}, input.Formed nodes → d.Valid input nodes →
    st.IsFor d level → (input.pipeline.judge (input.candidate nodes d level) user).1 ≠ .accept →
    ((input.pipeline.judge (input.candidate nodes d level) user).1 = .defer → st.level < level) →
    Known nodes st d false
  buries : ∀ {nodes st d level}, ¬ input.Prompt → input.Formed nodes → d.Valid input nodes →
    st.IsFor d level → (level = st.level + 1 →
      (input.grammar.alternative d.rule d.alt).operator.isSome = true) →
    Engine.hasDeadChild nodes d.children level = true → Known nodes st d false

variable {input : ParseInput σ} {nodes nodes' : Arena}

theorem Deferred.Valid.symbol_lt {d : Deferred} (h : d.Valid input nodes) :
    d.symbol < nodes.size := Arena.lt_size_of_kind (by rw [h.kind_eq]; simp)

theorem Deferred.Valid.grows {d : Deferred} (h : d.Valid input nodes) (hg : nodes.Grows nodes') :
    d.Valid input nodes' := by
  refine ⟨?_, ?_, h.alt_lt, h.holds.grows hg⟩
  · rw [hg.kind_eq _ h.symbol_lt, h.kind_eq]
  · rw [hg.span_eq _ h.symbol_lt, h.span_eq]

/-- A derivation of a symbol node is told by its key. -/
theorem Deferred.Valid.eq_of_key {d d' : Deferred} (h : d.Valid input nodes)
    (h' : d'.Valid input nodes) (hkey : d'.key = d.key) : d' = d := by
  obtain ⟨symbol, rule, alt, span, children⟩ := d
  obtain ⟨symbol', rule', alt', span', children'⟩ := d'
  obtain ⟨rfl, rfl, rfl⟩ := PackedKey.mk.inj hkey
  obtain rfl : rule' = rule := NodeKind.symbol.inj (h'.kind_eq.symm.trans h.kind_eq)
  obtain rfl : span' = span := Option.some.inj (h'.span_eq.symm.trans h.span_eq)
  rfl

/-- It is known that the derivation has been turned down by a stage. -/
def ParseInput.TurnedDown (input : ParseInput σ) (nodes : Arena) (st : Stage) (key : PackedKey) : Prop :=
  ∃ d : Deferred, d.key = key ∧ d.Valid input nodes ∧ ∀ P : Policy input, P.Known nodes st d false

theorem ParseInput.TurnedDown.grows {st st' : Stage} {key : PackedKey}
    (h : input.TurnedDown nodes st key) (hf : input.Formed nodes) (hg : nodes.GrowsAt st nodes')
    (hst : st.Before st') : input.TurnedDown nodes' st' key := by
  obtain ⟨d, hd, hv, hknown⟩ := h
  exact ⟨d, hd, hv.grows hg.toGrows, fun P => P.grows hf hv (hknown P) hg hst⟩

/-- What has been turned down is a derivation of its node, and known to be. -/
theorem ParseInput.TurnedDown.valid {st : Stage} {id : NodeId} {alt : Nat} {children : Children}
    (h : input.TurnedDown nodes st ⟨id, alt, children⟩) {A : RuleId} {s : Span}
    (hk : (Arena.node nodes id).kind = .symbol A) (hs : (Arena.node nodes id).span = some s) :
    Deferred.Valid input nodes ⟨id, A, alt, s, children⟩ ∧
      ∀ P : Policy input, P.Known nodes st ⟨id, A, alt, s, children⟩ false := by
  obtain ⟨⟨symbol, rule, alt', span, children'⟩, hkey, hv, hknown⟩ := h
  obtain ⟨rfl, rfl, rfl⟩ := PackedKey.mk.inj hkey
  obtain rfl := Option.some.inj (hv.span_eq.symm.trans hs)
  obtain rfl := NodeKind.symbol.inj (hv.kind_eq.symm.trans hk)
  exact ⟨hv, hknown⟩

theorem Deferred.Valid.owns {d : Deferred} (h : d.Valid input nodes) :
    Arena.Owns input.grammar nodes d.symbol d.rule d.alt 0 d.span.left d.span.right :=
  ⟨.inl ⟨h.kind_eq, rfl, h.alt_lt⟩, h.span_eq⟩

/-- Where judging is lenient, what has been turned down has left its node with an alternative. -/
def ParseInput.Lenient.policy (h : input.Lenient) : Policy input where
  Known nodes _ d b := b = false → Arena.childrenOf nodes d.symbol ≠ []
  grows _ hd hk hg _ hb hnil := hk hb (List.prefix_nil.1 (hnil ▸ hg.children_prefix _ hd.symbol_lt))
  accepts _ _ _ _ hb := by cases hb
  rejects _ _ _ hj _ _ := h.existing _ _ hj
  buries hp _ _ _ _ _ := absurd h.prompt hp

/-- An alternative of a symbol node that spans tokens is a derivation of it. -/
theorem ParseInput.Formed.valid_of_hasAlternative (h : input.Formed nodes) {id : NodeId}
    {A : RuleId} {alt : Nat} {children : Children} {s : Span}
    (hk : (Arena.node nodes id).kind = .symbol A) (hs : (Arena.node nodes id).span = some s)
    (ha : nodes.HasAlternative id A alt children) :
    Deferred.Valid input nodes ⟨id, A, alt, s, children⟩ := by
  obtain ⟨dot, ⟨⟨-, rfl, halt⟩ | hk', -⟩, hh⟩ := h.holds_of_hasAlternative ha hs
  · exact ⟨hk, hs, halt, hh⟩
  · exact absurd (hk.symm.trans hk') (by simp)

/-- A tail with a terminal in it has no empty derivation. -/
theorem EpsilonForest.Laid.tail?_eq_none {g : Grammar} {ε : EpsilonForest} (hε : ε.Laid g)
    (hg : g.WellFormed) {A : RuleId} {alt dot i : Nat} {t : TerminalId}
    (halt : alt < (g.rule A).alternatives.size)
    (ht : (g.alternative A alt).symbols[i]? = some (.terminal t)) (hi : dot ≤ i) :
    ε.tail? A alt dot = none := by
  by_contra hne
  have hle := ((hε.tail?_isSome A alt dot).1 (Option.isSome_iff_ne_none.2 hne)).2.2.2
  have hnull := (hg.nullableFrom_le_iff A _ (Grammar.alternative_mem halt) dot).1 hle
  refine Grammar.not_nullable_terminal (Grammar.nullable_iff_forall.1 hnull (.terminal t) ?_)
  refine List.mem_of_getElem? (i := i - dot) ?_
  rw [List.getElem?_drop, Nat.add_sub_cancel' hi]
  exact ht

/-- An operand of an operator is narrower than the derivation in which it stands, for the operator
is a token. -/
theorem Deferred.Valid.width_lt (hg : input.grammar.WellFormed)
    (hε : input.compiled.epsilon.Laid input.grammar) (hf : input.Formed nodes) {d : Deferred}
    (h : d.Valid input nodes)
    (hop : (input.grammar.alternative d.rule d.alt).operator.isSome = true) {c : NodeId}
    (hc : c ∈ d.children.toList) (hsymbol : (Arena.node nodes c).isSymbol = true) {s : Span}
    (hs : (Arena.node nodes c).span = some s) : s.width < d.span.width := by
  obtain ⟨op, hop⟩ := Option.isSome_iff_exists.1 hop
  obtain ⟨t, ht⟩ := hg.operator_terminal h.alt_lt hop
  obtain ⟨B, hB⟩ := Node.isSymbol_iff.1 hsymbol
  have hstands : ∀ {x l r}, nodes.Stands input.compiled.matcher input.tokens x l r c →
      x = .rule B ∧ s = ⟨l, r⟩ := by
    rintro (A | t) l r hst
    · obtain rfl : B = A := NodeKind.symbol.inj (hB.symm.trans hst.1)
      rcases hst.2 with hs' | ⟨hs', -⟩
      · exact ⟨rfl, Option.some.inj (hs.symm.trans hs')⟩
      · rw [hs'] at hs
        cases hs
    · exact absurd (hB.symm.trans hst.1) (by simp)
  obtain ⟨symbol, rule, alt, ⟨l, r⟩, children⟩ := d
  have hle := fun {x l r id} (hst : nodes.Stands input.compiled.matcher input.tokens x l r id) =>
    (hf.backed.spells_of_stands hst).le
  have hh : Arena.Holds _ _ _ _ nodes rule alt 0 l r children := h.holds
  change s.right - s.left < r - l
  cases hh with
  | only hx hlast hst =>
    -- the only symbol is the operator
    obtain rfl := List.mem_singleton.1 hc
    obtain ⟨rfl, -⟩ := hstands hst
    have hlt : op.index < 0 + 1 := hlast ▸ (List.getElem?_eq_some_iff.1 ht).1
    obtain h0 : op.index = 0 := Nat.lt_one_iff.1 hlt
    rw [h0] at ht
    cases hx.symm.trans ht
  | @cons x first second k hx hst htail =>
    have hlk := hle hst
    have hkr : k ≤ r := (hf.backed.spells_of_covers (htail.covers hε hf.base)).le
    rcases List.mem_cons.1 hc with rfl | hc
    · obtain ⟨rfl, rfl⟩ := hstands hst
      -- the operator is in the tail, which therefore is not empty
      refine Nat.sub_lt_sub_right hlk (Nat.lt_of_le_of_ne hkr ?_)
      rintro rfl
      cases htail with
      | last _ _ _ hlt => exact absurd hlt (Nat.lt_irrefl _)
      | intermediate _ _ hlt _ _ => exact absurd hlt (Nat.lt_irrefl _)
      | nulled hid _ =>
        have hpos : 1 ≤ op.index := Nat.one_le_iff_ne_zero.2 fun h0 => by
          rw [h0] at ht
          cases hx.symm.trans ht
        cases hid.symm.trans (hε.tail?_eq_none hg h.alt_lt ht hpos)
    · obtain rfl := List.mem_singleton.1 hc
      cases htail with
      | nulled hid _ => exact absurd (hB.symm.trans (Arena.kind_tail hε hf.base hid).2) (by simp)
      | intermediate hk _ _ _ _ => exact absurd (hB.symm.trans hk) (by simp)
      | @last x' hx' hlast hst' hlt =>
        obtain ⟨rfl, rfl⟩ := hstands hst'
        -- the operator is the first symbol
        have hi : op.index < 0 + 1 + 1 := hlast ▸ (List.getElem?_eq_some_iff.1 ht).1
        have h0 : op.index = 0 := by
          rcases Nat.lt_or_eq_of_le (Nat.le_of_lt_succ hi) with h | h
          · exact Nat.lt_one_iff.1 h
          · rw [h] at ht
            cases hx'.symm.trans ht
        rw [h0] at ht
        obtain rfl := Option.some.inj (hx.symm.trans ht)
        obtain ⟨-, rfl, -⟩ := hst
        exact Nat.sub_lt_sub_left (Nat.lt_of_lt_of_le (Nat.lt_succ_self l) hkr) (Nat.lt_succ_self l)

end ParseForest
