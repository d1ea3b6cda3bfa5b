import ParseForest.Proofs.Parser.Candidates
import ParseForest.Proofs.Parser.Precedence
import ParseForest.Proofs.Parser.Walks

/-!
# Settled levels are frozen

A run works on the forest and the stack where it has got to, and leaves alone what is behind: every step adds
only to what its stage has not passed, and the stage advances (`Steps.advances`). When a level has been
settled, the stage has passed all that ends there. So from then on no choice that ends by this level gets an
alternative, no packed node is touched, and no stack node of this level or an earlier one gets an edge
(`Engine.FrozenTo`); and no level is left out (`Reaches.exists_settled`).

Two things rest on this (`Parser.settled_levels_stay`). A walk goes back over stack nodes of earlier levels,
which have all the edges that they will get, and so is taken once. And an operand that counts as settled when
a candidate is judged keeps the derivations by which it is judged. In the settling of a level the operands may
end at this very level, and it is their width that has been passed.
-/

namespace ParseForest

variable {σ : Type}

namespace Engine

/-- What was there up to a level is the same in the later state, and nothing has been added to it. -/
structure FrozenTo (l : Nat) (e e' : Engine σ) : Prop where
  node_eq : ∀ id < e.nodes.size, ∀ s, (Arena.node e.nodes id).span = some s → s.right ≤ l →
    Arena.node e'.nodes id = Arena.node e.nodes id
  lt_right : ∀ id, e.nodes.size ≤ id → ∀ s, (Arena.node e'.nodes id).span = some s → l < s.right
  packed_eq : ∀ p, (Arena.node e.nodes p).isPacked = true → Arena.node e'.nodes p = Arena.node e.nodes p
  stack_eq : ∀ u < e.stack.nodes.size, (e.stack.node u).level ≤ l → e'.stack.node u = e.stack.node u
  lt_level : ∀ u, e.stack.nodes.size ≤ u → u < e'.stack.nodes.size → l < (e'.stack.node u).level

variable {input : ParseInput σ} {e e' : Engine σ} {start : StackId} {ph ph' : Phase} {user : σ} {l : Nat}

/-- Past a level nothing is done to it. -/
theorem Advances.frozenTo (h : e.Advances ⟨l + 1, 0⟩ e') : e.FrozenTo l e' where
  node_eq id hid s hs hle := by
    refine h.nodes.node_eq_of_frozen id hid fun s' hs' => .inl ?_
    obtain rfl := Option.some.inj (hs.symm.trans hs')
    exact Nat.lt_succ_of_le hle
  lt_right id hid s hs := by
    by_contra hge
    exact h.nodes.not_passed id hid s hs (.inl (Nat.lt_succ_of_le (Nat.not_lt.1 hge)))
  packed_eq p hp := by
    obtain ⟨A, alt, hk⟩ := Node.isPacked_iff.1 hp
    exact h.nodes.node_eq p (Arena.lt_size_of_isPacked hp) (by simp [Node.isChoice, hk])
  stack_eq u hu hle := h.stack.node_eq u hu (Nat.lt_succ_of_le hle)
  lt_level u hu hu' := h.stack.le_level u hu hu'

/-! ## Level by level -/

/-- The stage goes on to the next level by settling the level. -/
theorem next_stage (input : ParseInput σ) (start : StackId) (ph : Phase) (e : Engine σ) :
    Ends (next input start ph) (fun ph' _ => (ph'.stage input).level = (ph.stage input).level ∨
      ph' = .settle (ph.stage input).level []) (fun _ => True) e := by
  cases ph with
  | begin l =>
    simp only [next, beginLevel, ends_bind, ends_modify]
    split
    · exact .inl rfl
    · exact .inl rfl
  | queue l nodes =>
    cases nodes with
    | nil => exact .inl rfl
    | cons u nodes =>
      simp only [next, ends_bind, ends_pure]
      exact .of_forall (fun _ _ => .inl rfl) fun _ => trivial
  | reduce l =>
    simp only [next, ends_bind, ends_get]
    split
    · simp only [ends_bind, ends_pure]
      refine .of_forall (fun ds _ => ?_) fun _ => trivial
      cases ds with
      | nil => exact .inr rfl
      | cons d ds => exact .inl rfl
    · simp only [ends_bind, ends_modify, ends_pure]
      exact .of_forall (fun _ _ => .inl trivial) fun _ => trivial
  | settle l ds =>
    cases ds with
    | nil =>
      simp only [next, ends_bind, ends_get]
      split
      · rename_i hl
        exact .inl (hl ▸ rfl)
      · split
        · trivial
        · simp only [ends_bind, ends_pure]
          exact .of_forall (fun _ _ => .inl rfl) fun _ => trivial
    | cons d ds =>
      simp only [next, ends_bind, ends_pure]
      refine .of_forall (fun _ _ => ?_) fun _ => trivial
      cases ds with
      | nil => exact .inr rfl
      | cons d' ds => exact .inl rfl
  | shift l label xs =>
    cases xs with
    | nil => exact .inl rfl
    | cons x xs =>
      simp only [next, ends_bind, ends_pure]
      exact .of_forall (fun _ _ => .inl rfl) fun _ => trivial
  | stop => exact .inl rfl

/-- A run has settled every level that is behind it. -/
theorem Reaches.exists_settled (h : Reaches input user start ph e) (hl : l < (ph.stage input).level) :
    ∃ e₀, Reaches input user start (.settle l []) e₀ ∧ Steps input start (.settle l [], e₀) (ph, e) := by
  induction h with
  | start _ => exact absurd hl (Nat.not_lt_zero l)
  | @step ph ph' e e' h hs ih =>
    by_cases hlt : l < (ph.stage input).level
    · obtain ⟨e₀, hreach, hsteps⟩ := ih hlt
      exact ⟨e₀, hreach, hsteps.tail hs⟩
    · have hstage := next_stage input start ph e
      rw [Ends, hs.2] at hstage
      rcases hstage with he | rfl
      · exact absurd (he ▸ hl) hlt
      · obtain rfl : l = (ph.stage input).level :=
          Nat.le_antisymm (Nat.le_of_lt_succ hl) (Nat.not_lt.1 hlt)
        exact ⟨e', .step h hs, .refl⟩

/-! ## What rests on it -/

/-- What is pending is pending at the level of the stage. -/
theorem Between.level_of_pending (h : Between input start ph e) {p : Pending} (hp : p ∈ e.pending) :
    e.level = (ph.stage input).level := by
  have hnot : e.pending ≠ [] := List.ne_nil_of_mem hp
  cases ph with
  | begin l => exact absurd h.2.pending hnot
  | queue l nodes => exact h.1.level_eq
  | reduce l => exact Labours.level_eq h
  | settle l ds => exact absurd (Judges.pending_eq h) hnot
  | shift l label xs => exact absurd (Moves.pending_eq h) hnot
  | stop => exact absurd (Judges.pending_eq h) hnot

section

variable (hr : input.Ready) (h : Between input start ph e)
include hr h

/-- What stands for a symbol and is behind the stage has not just been made. -/
theorem Between.lt_size_of_frozen {nodes : Arena} (hf : input.Formed nodes)
    (hg : e.nodes.GrowsAt (ph.stage input) nodes) {x : Symbol} {p q : Nat} {id : NodeId}
    (hst : nodes.Stands input.compiled.matcher input.tokens x p q id)
    (hfrozen : nodes.Frozen (ph.stage input) id) : id < e.nodes.size := by
  obtain ⟨st, ds, hforest⟩ := h.forest
  by_contra hge
  cases hspan : (Arena.node nodes id).span with
  | some s => exact hg.not_passed id (Nat.not_lt.1 hge) s hspan (hfrozen s hspan)
  | none =>
    -- only fragments have no span
    cases x with
    | terminal t => cases hspan.symm.trans (hf.leaf hr.epsilon hst.1).1
    | rule A =>
      have hA := hf.symbol?_of_span_none hr.epsilon hst.1 hspan
      exact hge (Nat.lt_of_lt_of_le (hr.epsilon.symbol A id hA).1 hforest.formed.size_le)

variable (hs : Steps input start (ph, e) (ph', e'))
include hs

/-- The stack node at which a walk stands is as it will be. -/
theorem Steps.walk_node {w : Walk} (hw : .walk w ∈ e.pending) :
    (e.stack.node w.node).level < e.level ∧ e'.stack.node w.node = e.stack.node w.node := by
  obtain ⟨-, hi, hlt, -⟩ := h.valid.2 _ hw
  refine ⟨hlt, (hs.advances hr h).2.1.stack.node_eq w.node hi.1 ?_⟩
  rw [← h.level_of_pending hw]
  exact hlt

/-- A settled operand of a candidate is as it will be. -/
theorem Steps.operand_node {c : Candidate} (hc : asked? input ph e = some c) {op : Operator}
    (hop : c.alternative.operator = some op) {q : Sequence} (hq : q ∈ c.sequences) {x : Side × NodeId}
    (hx : x ∈ Arena.operands op c.alternative.length q) (hsettled : c.settled x.2 = true) :
    Arena.node e'.nodes x.2 = Arena.node c.nodes x.2 := by
  obtain ⟨nodes, d, level, hf, hd, hfor, hgrows, rfl⟩ := h.asked_cases hr hc
  have hflattens := Arena.flattens_of_mem_sequencesOf hq
  have hfrozen := hd.frozen_operand hr hf hfor hop hflattens hx hsettled
  obtain ⟨_, _, _, hst, -⟩ :=
    hf.stands_operand hr hd.alt_lt hop (hf.standsAll hr hd.holds hflattens) hx
  have hlt := h.lt_size_of_frozen hr hf hgrows hst hfrozen
  have hold : e.nodes.Frozen (ph.stage input) x.2 := fun s hspan =>
    hfrozen s ((hgrows.span_eq x.2 hlt).trans hspan)
  have hlater := (hs.advances hr h).2.1.nodes.node_eq_of_frozen x.2 hlt hold
  exact hlater.trans (hgrows.node_eq_of_frozen x.2 hlt hold).symm

end

/-! ## A sum of two integers -/

section

variable {nodes : Arena} {root : NodeId} (hr : input.Ready) (hg : input.grammar = .sum)
include hr hg

/-- What stands for a sum spans tokens. -/
theorem span_eq_of_stands_sum (hf : input.Formed nodes) {l r : Nat} {id : NodeId}
    (hs : nodes.Stands input.compiled.matcher input.tokens (.rule 2) l r id) :
    (Arena.node nodes id).span = some ⟨l, r⟩ ∧ l < r := by
  rcases hs.2 with hspan | ⟨hnone, -⟩
  · exact ⟨hspan, hf.lt_of_span hr.epsilon hspan⟩
  · have hnull := hr.epsilon.symbol?_isSome 2
    rw [hf.symbol?_of_span_none hr.epsilon hs.1 hnone, hg] at hnull
    cases hnull

/-- The first operand of a sum of three tokens spans the first token. -/
theorem exists_operand_sum (hf : input.Formed nodes) {children : Children}
    (hd : Deferred.Valid input nodes ⟨root, 2, 0, ⟨0, 3⟩, children⟩) :
    ∃ q ∈ Arena.sequencesOf nodes sequenceCap children.toList, ∃ x rest, q = x :: rest ∧
      (Arena.node nodes x).kind = .symbol 2 ∧ (Arena.node nodes x).span = some ⟨0, 1⟩ := by
  obtain ⟨q, hq⟩ := List.exists_mem_of_ne_nil _ (hd.sequences_ne_nil hr hf)
  have hst := hf.standsAll hr hd.holds (Arena.flattens_of_mem_sequencesOf hq)
  rw [hg, show (Grammar.sum.alternative 2 0).symbols = [.rule 2, .terminal 0, .rule 2] from rfl] at hst
  obtain _ | ⟨hx, hrest⟩ := hst
  obtain _ | ⟨hy, hrest⟩ := hrest
  obtain _ | ⟨hz, hrest⟩ := hrest
  cases hrest
  obtain ⟨hspan, hlt⟩ := span_eq_of_stands_sum hr hg hf hx
  obtain ⟨-, hlt'⟩ := span_eq_of_stands_sum hr hg hf hz
  obtain ⟨-, rfl, -⟩ := hy
  refine ⟨_, hq, _, _, rfl, hx.1, ?_⟩
  rw [hspan]
  dsimp only at hlt hlt'
  congr 2
  omega

/-- A candidate for the sum of three tokens has a settled operand. -/
theorem exists_settled_of_asked_sum (hb : Between input start ph e) {c : Candidate}
    (hc : asked? input ph e = some c) (hplace : c.place = (root, 2, 0, ⟨0, 3⟩)) :
    c.alternative.operator = some ⟨1, 1, .left⟩ ∧ ∃ q ∈ c.sequences,
      ∃ x ∈ Arena.operands ⟨1, 1, .left⟩ c.alternative.length q, c.settled x.2 = true := by
  obtain ⟨nodes, ⟨_, _, _, _, children⟩, level, hf, hd, hfor, -, rfl⟩ := hb.asked_cases hr hc
  simp only [Candidate.place, ParseInput.candidate, Prod.mk.injEq] at hplace
  obtain ⟨rfl, rfl, rfl, rfl⟩ := hplace
  obtain ⟨q, hq, x, rest, rfl, -, hx⟩ := exists_operand_sum hr hg hf hd
  rw [Candidate.alternative, ParseInput.candidate, hg]
  refine ⟨rfl, _, hq, (.left, x), .head _, ?_⟩
  have hlevel : 1 < level := by
    obtain ⟨hright, ⟨rfl, -⟩ | ⟨rfl, -⟩⟩ := hfor
    all_goals
      have hright : 3 = (ph.stage input).level := hright
      omega
  dsimp only [Candidate.settled]
  rw [hx]
  exact decide_eq_true hlevel

/-- The forest of a sum of three tokens has a node for the first operand, and one for what comes after it. -/
theorem exists_parts_sum (hf : input.Formed nodes) (hk : (Arena.node nodes root).kind = .symbol 2)
    (hs : (Arena.node nodes root).span = some ⟨0, 3⟩) {name : String} {ts : List Tree}
    (hread : nodes.Reads input.grammar input.tokens root (.rule name 2 0 ts)) :
    (∃ children, nodes.HasAlternative root 2 0 children) ∧
      (∃ id, (Arena.node nodes id).kind = .symbol 2 ∧ (Arena.node nodes id).span = some ⟨0, 1⟩) ∧
      ∃ id s, (Arena.node nodes id).kind = .intermediate 2 0 1 ∧ (Arena.node nodes id).span = some s := by
  cases hread with
  | rule _ hp hpk _ =>
    obtain ⟨alt, halt, children, hnode, hh⟩ := hf.holds_of_mem hk hs hp
    obtain rfl : alt = 0 := by
      rw [hnode] at hpk
      exact (NodeKind.packed.inj hpk).2
    obtain ⟨q, hq, x, rest, rfl, hx⟩ := exists_operand_sum hr hg hf ⟨hk, hs, halt, hh⟩
    refine ⟨⟨children, by rw [Node.isChoice, hk], _, hp, hnode⟩, ⟨x, hx⟩, ?_⟩
    have hlength : (input.grammar.alternative 2 0).length = 3 := by rw [hg]; rfl
    cases hh with
    | only _ hlast _ => exact absurd (hlast.trans hlength) (by decide)
    | cons _ _ ht =>
      cases ht with
      | nulled h _ =>
        have htail := ((hr.epsilon.tail?_isSome 2 0 1).1 (by rw [h]; rfl)).2.2.2
        rw [hg] at htail
        exact absurd htail (by decide)
      | last _ hlast _ _ => exact absurd (hlast.trans hlength) (by decide)
      | intermediate hk hspan _ _ _ => exact ⟨_, _, hk, hspan⟩

end

end Engine

namespace Parser

variable {g : Grammar} {lexer : LexerDescription} {c : CompiledGrammar}

/-- A sum of two integers is parsed. -/
theorem exists_run_sum : ∃ c start e root, CompiledGrammar.ofGrammar .sum .empty = .ok c ∧
    ∃ input : ParseInput Unit,
      input = ⟨c, plainConfig, [], (TokenStream.ofTokens [.one, .plus, .one]).ensureEof⟩ ∧ input.Ready ∧
      input.grammar = .sum ∧ input.tokens.length = 4 ∧ Engine.Reaches input () start .stop e ∧
      (Arena.node e.nodes root).kind = .symbol 2 ∧ (Arena.node e.nodes root).span = some ⟨0, 3⟩ ∧
      e.nodes.Reads input.grammar input.tokens root (.rule "sum" 2 0 [.one, .token .plus, .one]) := by
  obtain ⟨c, hc, hm, hsize⟩ := CompiledGrammar.exists_sum
  obtain ⟨hends, hcontent, hlength⟩ := @TokenStream.endsOnce_ofTokens [.one, .plus, .one] (by decide)
  have hlimits : WithinLimits ⟨c, plainConfig, ([] : List (Disambiguator Unit))⟩
      (.ofTokens [.one, .plus, .one]) () := by
    refine withinLimits_of_le Grammar.sum_built hc hends ?_ ?_ <;> rw [hlength, hsize] <;> decide
  obtain ⟨f, hf⟩ := exists_ok Grammar.sum_built Grammar.sum_avoidsStart hc rfl rfl hends hlimits (by
    rw [hm, hcontent]
    exact Grammar.sum_derivesTokens)
  obtain ⟨hg, -⟩ := CompiledGrammar.parts_of_ofGrammar hc
  obtain ⟨last, hend⟩ := CompiledGrammar.endsWith hc hends plainConfig ([] : List (Disambiguator Unit))
  have hparse := Grammar.sum_isCleanParse
  rw [← hcontent, ← hm] at hparse
  rw [parseTokens] at hf
  have heof := hends.ensureEof_eq
  rw [← heof] at hends hlength hend hparse
  have hr := CompiledGrammar.ready Grammar.sum_built hc plainConfig ([] : List (Disambiguator Unit))
    (TokenStream.ofTokens [.one, .plus, .one]).ensureEof
  obtain ⟨start, e, root, hreach, harr, -, -, hk, hspan, -⟩ :=
    Engine.reaches_of_run hr hends (by rw [hlength]; decide) hf
  refine ⟨c, start, e, root, hc, _, rfl, hr, hg, hlength, hreach, ?_, ?_, ?_⟩
  · rw [hk, ParseInput.grammar, hg]
    rfl
  · rw [hspan, hlength]
    rfl
  · refine harr.reads_of_isParse hr ?_ hends hend ⟨rfl, rfl, .nil⟩ (ParseInput.isParse_iff.2 ?_)
    · rw [ParseInput.grammar, hg]
      exact Grammar.sum_avoidsStart
    · rw [ParseInput.grammar, hg]
      exact ⟨hparse.fits, hparse.leaves_eq⟩

/-- From the state in which a level has been settled on, nothing is done to what ends by this level: such
nodes of the forest have the children that they have and there are no new ones, no packed node changes, and
the stack nodes of this level and the earlier ones have the edges that they have. The fragments that derive
nothing are never changed. So the stack node at which a pending walk stands has all the edges that it will
get; and an operand that counts as settled when a candidate is judged has all the derivations that it will
get. -/
theorem settled_levels_stay (hg : g.Built) (hc : CompiledGrammar.ofGrammar g lexer = .ok c)
    (config : ParserConfig) (user : List (Disambiguator σ)) (tokens : TokenStream) (s : σ)
    (input : ParseInput σ) (hinput : input = ⟨c, config, user, tokens.ensureEof⟩) (start : StackId) :
    (∀ l e ph' e', Engine.Reaches input s start (.settle l []) e →
      Engine.Steps input start (.settle l [], e) (ph', e') → e.FrozenTo l e') ∧
    (∀ ph e, Engine.Reaches input s start ph e → ∀ id < c.epsilon.nodes.size,
      Arena.node e.nodes id = Arena.node c.epsilon.nodes id) ∧
    (∀ ph e, Engine.Reaches input s start ph e → ∀ w, .walk w ∈ e.pending →
      (e.stack.node w.node).level < e.level ∧ ∀ ph' e', Engine.Steps input start (ph, e) (ph', e') →
        e'.stack.node w.node = e.stack.node w.node) ∧
    ∀ ph e, Engine.Reaches input s start ph e → ∀ candidate ∈ Engine.asked? input ph e,
      ∀ op, candidate.alternative.operator = some op → ∀ q ∈ candidate.sequences,
      ∀ x ∈ Arena.operands op candidate.alternative.length q, candidate.settled x.2 = true →
      ∀ ph' e', Engine.Steps input start (ph, e) (ph', e') →
        Arena.node e'.nodes x.2 = Arena.node candidate.nodes x.2 := by
  have hr := CompiledGrammar.ready hg hc config user tokens.ensureEof
  subst hinput
  refine ⟨fun l e ph' e' h hs => ?_, fun ph e h => ?_, fun ph e h w hw => ?_,
    fun ph e h candidate hasked op hop q hq x hx hsettled ph' e' hs => ?_⟩
  · exact (hs.advances hr (h.between hr)).2.1.frozenTo
  · obtain ⟨st, ds, hforest⟩ := (h.between hr).forest
    exact hforest.formed.fragment
  · exact ⟨(Engine.Steps.walk_node hr (h.between hr) .refl hw).1, fun ph' e' hs =>
      (hs.walk_node hr (h.between hr) hw).2⟩
  · exact hs.operand_node hr (h.between hr) hasked hop hq hx hsettled

/-- For the sum of two integers, level 1 is settled with a node for the first operand; later a walk is pending,
and a candidate for the sum is judged when its first operand is settled. -/
theorem settled_levels_stay_sum : ∃ c start, CompiledGrammar.ofGrammar .sum .empty = .ok c ∧
    ∃ input : ParseInput Unit,
      input = ⟨c, plainConfig, [], (TokenStream.ofTokens [.one, .plus, .one]).ensureEof⟩ ∧
      (∃ e₀ e id, Engine.Reaches input () start (.settle 1 []) e₀ ∧
        Engine.Steps input start (.settle 1 [], e₀) (.stop, e) ∧
        (Arena.node e₀.nodes id).kind = .symbol 2 ∧ (Arena.node e₀.nodes id).span = some ⟨0, 1⟩ ∧
        e₀.FrozenTo 1 e) ∧
      (∃ ph e w, Engine.Reaches input () start ph e ∧ .walk w ∈ e.pending ∧
        (e.stack.node w.node).level < e.level ∧ ∀ ph' e', Engine.Steps input start (ph, e) (ph', e') →
          e'.stack.node w.node = e.stack.node w.node) ∧
      ∃ ph e candidate q x, Engine.Reaches input () start ph e ∧
        Engine.asked? input ph e = some candidate ∧
        candidate.alternative.operator = some ⟨1, 1, .left⟩ ∧ q ∈ candidate.sequences ∧
        x ∈ Arena.operands ⟨1, 1, .left⟩ candidate.alternative.length q ∧ candidate.settled x.2 = true ∧
        ∀ ph' e', Engine.Steps input start (ph, e) (ph', e') →
          Arena.node e'.nodes x.2 = Arena.node candidate.nodes x.2 := by
  obtain ⟨c, start, e, root, hc, input, hinput, hr, hg, hlength, hreach, hk, hspan, hread⟩ := exists_run_sum
  obtain ⟨hsettled, -, hwalks, hoperands⟩ :=
    settled_levels_stay Grammar.sum_built hc plainConfig [] (.ofTokens [.one, .plus, .one]) () input hinput start
  obtain ⟨st, ds, hforest⟩ := (hreach.between hr).forest
  obtain ⟨⟨children, ha⟩, ⟨id, hid, hids⟩, part, s, hpart, hparts⟩ :=
    Engine.exists_parts_sum hr hg hforest.formed hk hspan hread
  refine ⟨c, start, hc, input, hinput, ?_, ?_, ?_⟩
  · obtain ⟨e₀, hreach₀, hsteps⟩ := hreach.exists_settled (l := 1) (by
      rw [Phase.stage, hlength]
      decide)
    have hfrozen := hsettled 1 e₀ .stop e hreach₀ hsteps
    -- the operand is no node that has been made later
    have hlt : id < e₀.nodes.size := by
      by_contra hge
      exact Nat.lt_irrefl 1 (hfrozen.lt_right id (Nat.not_lt.1 hge) _ hids)
    have hgrows := (hsteps.advances hr (hreach₀.between hr)).2.1.nodes
    exact ⟨e₀, e, id, hreach₀, hsteps, (hgrows.kind_eq id hlt).symm.trans hid,
      (hgrows.span_eq id hlt).symm.trans hids, hfrozen⟩
  · obtain ⟨ph, e₁, w, hreach₁, hw⟩ := hreach.exists_walk hr hpart hparts
    obtain ⟨hlt, hstay⟩ := hwalks ph e₁ hreach₁ w hw
    exact ⟨ph, e₁, w, hreach₁, hw, hlt, hstay⟩
  · obtain ⟨ph, e₁, candidate, hreach₁, hasked, hplace⟩ := hreach.exists_asked hr hk hspan ha
    obtain ⟨hop, q, hq, x, hx, hset⟩ :=
      Engine.exists_settled_of_asked_sum hr hg (hreach₁.between hr) hasked hplace
    exact ⟨ph, e₁, candidate, q, x, hreach₁, hasked, hop, hq, hx, hset,
      hoperands ph e₁ hreach₁ candidate hasked _ hop q hq x hx hset⟩

end Parser

end ParseForest
