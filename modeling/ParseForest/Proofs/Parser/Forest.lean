import ParseForest.Proofs.Parser.Policy

/-!
# The forest while it is built

The part of the engine that holds the forest: the arena, the tables that find its nodes again, the
marks of the derivations that have been offered, and the derivations that wait
(`Engine.ForestValid`). Every operation on it keeps it valid, grows the arena at the stage of the
parse, loses no mark, and leaves the stack and the work alone (`Engine.Builds`); there is one lemma
for each. All of them come down to three changes: a choice or leaf is made, an alternative is
packed, or only the marks change.
-/

namespace ParseForest

variable {σ : Type}

/-- Inserting a new key adds one pair to what a table finds. -/
theorem getElem?_insert_iff {κ : Type} [BEq κ] [LawfulBEq κ] [Hashable κ]
    {table : Std.HashMap κ NodeId} {k k' : κ} {v id : NodeId} (h : table[k]? = none) :
    (table.insert k v)[k']? = some id ↔ table[k']? = some id ∨ (id = v ∧ k = k') := by
  rw [Std.HashMap.getElem?_insert]
  by_cases hk : k = k'
  · subst hk
    simp [h, eq_comm]
  · simp [hk]

theorem mem_insert_iff {κ : Type} [BEq κ] [LawfulBEq κ] [Hashable κ] {s : Std.HashSet κ} (k k' : κ) :
    k' ∈ s.insert k ↔ k' ∈ s ∨ k' = k := by
  rw [Std.HashSet.mem_insert, beq_iff_eq, or_comm, eq_comm]

namespace Arena

/-- A node is appended that is told by its kind. -/
theorem head_push_iff {nodes : Arena} {n : Node} {k : NodeKind} (hk : k ≠ .epsilon)
    {P : Option Span → Prop} {id : NodeId} :
    ((node (nodes.push n) id).kind = k ∧ P (node (nodes.push n) id).span) ↔
      ((node nodes id).kind = k ∧ P (node nodes id).span) ∨
        (id = nodes.size ∧ n.kind = k ∧ P n.span) := by
  rcases Nat.lt_trichotomy id nodes.size with hlt | rfl | hgt
  · rw [node_push_lt hlt]
    simp [Nat.ne_of_lt hlt]
  · rw [node_push_size, node_of_size_le (Nat.le_refl nodes.size)]
    simp [show (default : Node).kind = .epsilon from rfl, hk.symm]
  · rw [node_of_size_le (by rw [Array.size_push]; exact hgt), node_of_size_le (Nat.le_of_lt hgt)]
    simp [show (default : Node).kind = .epsilon from rfl, hk.symm, Nat.ne_of_gt hgt]

end Arena

namespace Engine

/-- The derivation has been offered: it is packed or waits, or it has been turned down. -/
def Marked (e : Engine σ) (key : PackedKey) : Prop := key ∈ e.packed ∨ key ∈ e.rejected

/-- The node can stand for a symbol or for the rest of an alternative: some derivation of it has been
offered. Where nothing is ever deferred, it stands for trees. -/
structure Usable (input : ParseInput σ) (e : Engine σ) (id : NodeId) : Prop where
  lt_size : id < e.nodes.size
  marked : (Arena.node e.nodes id).isChoice = true → ∀ s, (Arena.node e.nodes id).span = some s →
    ∃ key : PackedKey, key.owner = id ∧ e.Marked key
  productive : input.Prompt → e.nodes.Productive input.grammar input.tokens id

/-- The forest has been built on since: it has grown at the stage of the parse, and what had been
offered is still packed or turned down. -/
structure Later (st : Stage) (e e' : Engine σ) : Prop where
  nodes : Arena.GrowsAt st e.nodes e'.nodes
  packed : ∀ key ∈ e.packed, e'.Marked key
  rejected : ∀ key ∈ e.rejected, key ∈ e'.rejected

variable {input : ParseInput σ} {e e' e'' : Engine σ} {st st' : Stage} {ds : List Deferred}
  {E : ParseError → Prop}

theorem Later.refl (st : Stage) (e : Engine σ) : Later st e e :=
  ⟨.refl st e.nodes, fun _ => .inl, fun _ => id⟩

theorem Later.marked (h : Later st e e') {key : PackedKey} (hk : e.Marked key) : e'.Marked key :=
  hk.elim (h.packed key) fun hr => .inr (h.rejected key hr)

theorem Later.trans (h : Later st e e') (h' : Later st e' e'') : Later st e e'' :=
  ⟨h.nodes.trans h'.nodes, fun key hk => h'.marked (h.packed key hk),
    fun key hk => h'.rejected key (h.rejected key hk)⟩

theorem Later.mono (h : Later st' e e') (hst : st.Before st') : Later st e e' :=
  ⟨h.nodes.mono hst, h.packed, h.rejected⟩

/-- Whether a node can be used does not depend on the rest of the engine. -/
theorem Usable.congr {id : NodeId} (h : e.Usable input id) (hn : e'.nodes = e.nodes)
    (hp : e'.packed = e.packed) (hr : e'.rejected = e.rejected) : e'.Usable input id := by
  refine ⟨hn ▸ h.lt_size, ?_, hn ▸ h.productive⟩
  simp only [hn, Marked, hp, hr]
  exact h.marked

theorem Usable.later (hε : input.compiled.epsilon.Laid input.grammar) (hf : input.Formed e.nodes)
    {id : NodeId} (h : e.Usable input id) (hl : Later st e e') : e'.Usable input id := by
  refine ⟨Nat.lt_of_lt_of_le h.lt_size hl.nodes.size_le, fun hc s hs => ?_, fun hp =>
    hf.productive_grows hε (h.productive hp) h.lt_size hl.nodes.toGrows⟩
  rw [hl.nodes.isChoice_eq h.lt_size] at hc
  rw [hl.nodes.span_eq id h.lt_size] at hs
  obtain ⟨key, ho, hk⟩ := h.marked hc s hs
  exact ⟨key, ho, hl.marked hk⟩

end Engine

/-- The derivation has been deferred at the level of the stage, and the stage has not passed it. -/
structure Deferred.Waits (input : ParseInput σ) (st : Stage) (e : Engine σ) (d : Deferred) : Prop
    extends d.Valid input e.nodes where
  right_eq : d.span.right = st.level
  width_le : st.width ≤ d.span.width
  operator : (input.grammar.alternative d.rule d.alt).operator.isSome = true
  usable : ∀ c ∈ d.children.toList, e.Usable input c

theorem Deferred.Waits.later {input : ParseInput σ} {st : Stage} {e e' : Engine σ} {d : Deferred}
    (hε : input.compiled.epsilon.Laid input.grammar) (hf : input.Formed e.nodes)
    (h : d.Waits input st e) (hl : Engine.Later st e e') : d.Waits input st e' :=
  ⟨h.toValid.grows hl.nodes.toGrows, h.right_eq, h.width_le, h.operator,
    fun c hc => (h.usable c hc).later hε hf hl⟩

namespace Engine

/-- The tables find exactly the choices and leaves that have been made. -/
structure Tables (input : ParseInput σ) (e : Engine σ) : Prop where
  symbol_iff : ∀ A s id, e.symbols[(A, s)]? = some id ↔
    (Arena.node e.nodes id).kind = .symbol A ∧ (Arena.node e.nodes id).span = some s
  intermediate_iff : ∀ A alt dot s id, e.intermediates[(A, alt, dot, s)]? = some id ↔
    (Arena.node e.nodes id).kind = .intermediate A alt dot ∧ (Arena.node e.nodes id).span = some s
  terminal_iff : ∀ i id, e.terminals.getD i none = some id ↔
    (Arena.node e.nodes id).kind = .terminal i
  terminals_size : e.terminals.size = input.tokens.length

/-- The forest at a stage of the parse, when the derivations `ds` wait to be judged: the marks say
what is packed or waits and what has been turned down, alternatives are packed once, and of all that
is packed or turned down it is known what the policies know. -/
structure ForestValid (input : ParseInput σ) (st : Stage) (ds : List Deferred) (e : Engine σ) :
    Prop extends Tables input e where
  formed : input.Formed e.nodes
  waits : ∀ d ∈ ds, d.Waits input st e
  distinct : (ds.map Deferred.key).Nodup
  fresh : ∀ d ∈ ds, ∀ A, ¬ e.nodes.HasAlternative d.symbol A d.alt d.children
  packed_iff : ∀ key, key ∈ e.packed ↔ ((∃ s, (Arena.node e.nodes key.owner).span = some s) ∧
    ∃ A, e.nodes.HasAlternative key.owner A key.alt key.children) ∨ ∃ d ∈ ds, d.key = key
  waiting_iff : ∀ id, id ∈ e.waiting ↔ ∃ d ∈ e.deferred, d.symbol = id
  prompt : input.Prompt → ds = []
  quiet : e.rejectedCount = 0 → ∀ key, key ∉ e.rejected
  nodup : ∀ id s, (Arena.node e.nodes id).isChoice = true →
    (Arena.node e.nodes id).span = some s →
    ((Arena.childrenOf e.nodes id).map (Arena.node e.nodes)).Nodup
  usable : ∀ id s, (Arena.node e.nodes id).isChoice = true →
    (Arena.node e.nodes id).span = some s → ∀ p ∈ Arena.childrenOf e.nodes id,
    ∀ c ∈ Arena.childrenOf e.nodes p, e.Usable input c
  kept : ∀ (P : Policy input) id A s alt children, (Arena.node e.nodes id).kind = .symbol A →
    (Arena.node e.nodes id).span = some s → e.nodes.HasAlternative id A alt children →
    P.Known e.nodes st ⟨id, A, alt, s, children⟩ true
  dropped : ∀ key ∈ e.rejected, input.TurnedDown e.nodes st key

variable {input : ParseInput σ} {e e' e'' : Engine σ} {st st' : Stage} {ds : List Deferred}
  {E : ParseError → Prop}

/-- The stack and the work are the same. -/
structure SameWork (e e' : Engine σ) : Prop where
  stack : e'.stack = e.stack
  pending : e'.pending = e.pending
  walks : e'.walks = e.walks
  zeros : e'.zeros = e.zeros
  shifts : e'.shifts = e.shifts
  level : e'.level = e.level
  lookaheads : e'.lookaheads = e.lookaheads

theorem SameWork.refl (e : Engine σ) : SameWork e e := ⟨rfl, rfl, rfl, rfl, rfl, rfl, rfl⟩

theorem SameWork.trans (h : SameWork e e') (h' : SameWork e' e'') : SameWork e e'' :=
  ⟨h'.stack.trans h.stack, h'.pending.trans h.pending, h'.walks.trans h.walks,
    h'.zeros.trans h.zeros, h'.shifts.trans h.shifts, h'.level.trans h.level,
    h'.lookaheads.trans h.lookaheads⟩

/-- The forest has been built on at a stage, and nothing else has changed. -/
structure Builds (input : ParseInput σ) (st : Stage) (e e' : Engine σ) : Prop
    extends SameWork e e', Later st e e' where
  valid : ForestValid input st e'.deferred e'

theorem Builds.refl (h : ForestValid input st e.deferred e) : Builds input st e e :=
  ⟨.refl e, .refl st e, h⟩

theorem Builds.trans (h : Builds input st e e') (h' : Builds input st e' e'') :
    Builds input st e e'' :=
  ⟨h.toSameWork.trans h'.toSameWork, h.toLater.trans h'.toLater, h'.valid⟩

/-! ## Changes -/

theorem Tables.congr (h : Tables input e) (hn : e'.nodes = e.nodes) (hs : e'.symbols = e.symbols)
    (hi : e'.intermediates = e.intermediates) (ht : e'.terminals = e.terminals) :
    Tables input e' := by
  constructor <;> simp only [hn, hs, hi, ht]
  · exact h.symbol_iff
  · exact h.intermediate_iff
  · exact h.terminal_iff
  · exact h.terminals_size

/-- What is known of the derivations of a forest is known of them later. -/
theorem ForestValid.kept_later (h : ForestValid input st ds e) (hl : Later st e e')
    (hst : st.Before st') (P : Policy input) {id : NodeId} {A : RuleId} {s : Span} {alt : Nat}
    {children : Children} (hk : (Arena.node e.nodes id).kind = .symbol A)
    (hs : (Arena.node e.nodes id).span = some s)
    (ha : e.nodes.HasAlternative id A alt children) :
    P.Known e'.nodes st' ⟨id, A, alt, s, children⟩ true :=
  P.grows h.formed (h.formed.valid_of_hasAlternative hk hs ha) (h.kept P id A s alt children hk hs ha)
    hl.nodes hst

theorem ForestValid.dropped_later (h : ForestValid input st ds e) (hl : Later st e e')
    (hst : st.Before st') {key : PackedKey} (hk : key ∈ e.rejected) :
    input.TurnedDown e'.nodes st' key :=
  (h.dropped key hk).grows h.formed hl.nodes hst

/-- The parse goes on to another stage, which has passed none of the derivations that wait. -/
theorem ForestValid.advance (h : ForestValid input st ds e) (hst : st.Before st')
    (hds : ∀ d ∈ ds, d.span.right = st'.level ∧ st'.width ≤ d.span.width) :
    ForestValid input st' ds e :=
  { h with
    waits := fun d hd => { h.waits d hd with right_eq := (hds d hd).1, width_le := (hds d hd).2 }
    kept := fun P _ _ _ _ _ hk hs ha => h.kept_later (.refl st e) hst P hk hs ha
    dropped := fun _ hk => h.dropped_later (.refl st e) hst hk }

/-- The forest does not depend on the rest of the engine. -/
theorem ForestValid.congr (h : ForestValid input st ds e) (hn : e'.nodes = e.nodes)
    (hs : e'.symbols = e.symbols) (hi : e'.intermediates = e.intermediates)
    (ht : e'.terminals = e.terminals) (hp : e'.packed = e.packed) (hr : e'.rejected = e.rejected)
    (hw : e'.waiting = e.waiting) (hd : e'.deferred = e.deferred)
    (hc : e'.rejectedCount = e.rejectedCount) : ForestValid input st ds e' := by
  have husable : ∀ {id}, e.Usable input id → e'.Usable input id := fun hu => hu.congr hn hp hr
  refine ⟨h.toTables.congr hn hs hi ht, hn ▸ h.formed, fun d hd => ?_, h.distinct, ?_, ?_, ?_,
    h.prompt, ?_, ?_, ?_, ?_, ?_⟩
  · exact ⟨hn ▸ (h.waits d hd).toValid, (h.waits d hd).right_eq, (h.waits d hd).width_le,
      (h.waits d hd).operator, fun c hc => husable ((h.waits d hd).usable c hc)⟩
  all_goals simp only [hn, hp, hr, hw, hd, hc]
  · exact h.fresh
  · exact h.packed_iff
  · exact h.waiting_iff
  · exact h.quiet
  · exact h.nodup
  · exact fun id s hc hs p hp c hmem => husable (h.usable id s hc hs p hp c hmem)
  · exact h.kept
  · exact h.dropped

/-- A choice without alternatives, or a leaf, is made and entered in the tables. -/
theorem ForestValid.push (h : ForestValid input st e.deferred e)
    (hε : input.compiled.epsilon.Laid input.grammar) {n : Node} (hc : n.children = #[])
    (hmade : n.IsMade) (hst : ∀ s, n.span = some s → ¬ st.Passed s)
    (hsp : Arena.IsSpelled input.grammar input.compiled.matcher input.tokens n)
    (hnew : ∀ id s, (Arena.node e.nodes id).kind = n.kind → (Arena.node e.nodes id).span = some s →
      n.span ≠ some s)
    {symbols : Std.HashMap (RuleId × Span) NodeId}
    {intermediates : Std.HashMap (RuleId × Nat × Nat × Span) NodeId}
    {terminals : Array (Option NodeId)}
    (hs : ∀ A s id, symbols[(A, s)]? = some id ↔ e.symbols[(A, s)]? = some id ∨
      (id = e.nodes.size ∧ n.kind = .symbol A ∧ n.span = some s))
    (hi : ∀ A alt dot s id, intermediates[(A, alt, dot, s)]? = some id ↔
      e.intermediates[(A, alt, dot, s)]? = some id ∨
        (id = e.nodes.size ∧ n.kind = .intermediate A alt dot ∧ n.span = some s))
    (ht : ∀ i id, terminals.getD i none = some id ↔ e.terminals.getD i none = some id ∨
      (id = e.nodes.size ∧ n.kind = .terminal i))
    (hsize : terminals.size = e.terminals.size) :
    Builds input st e { e with nodes := e.nodes.push n, symbols, intermediates, terminals } := by
  have hclosed := h.formed.backed.closed
  have hl : Later st e { e with nodes := e.nodes.push n, symbols, intermediates, terminals } :=
    ⟨Arena.growsAt_push e.nodes hst, fun _ => .inl, fun _ => id⟩
  have hold : ∀ {id}, (Arena.node (e.nodes.push n) id).isChoice = true →
      (id < e.nodes.size ∧ Arena.node (e.nodes.push n) id = Arena.node e.nodes id) ∨
        Arena.childrenOf (e.nodes.push n) id = [] := by
    intro id hch
    rcases Nat.lt_or_eq_of_le (Nat.le_of_lt_succ (Array.size_push n ▸
      Arena.lt_size_of_isChoice hch)) with hlt | rfl
    · exact .inl ⟨hlt, Arena.node_push_lt hlt⟩
    · refine .inr ?_
      rw [Arena.childrenOf, Arena.node_push_size, hc]
  have hchild : ∀ {id}, ∀ c ∈ Arena.childrenOf e.nodes id,
      Arena.node (e.nodes.push n) c = Arena.node e.nodes c := fun c hmem =>
    Arena.node_push_lt (hclosed _ c hmem)
  refine ⟨⟨rfl, rfl, rfl, rfl, rfl, rfl, rfl⟩, hl, ⟨fun A s id => ?_, fun A alt dot s id => ?_,
      fun i id => ?_, hsize.trans h.terminals_size⟩, h.formed.push hc hmade hsp hnew,
    fun d hd => (h.waits d hd).later hε h.formed hl, h.distinct, fun d hd A ha => ?_, fun key => ?_,
    h.waiting_iff, h.prompt, h.quiet, fun id s hch hs => ?_, fun id s hch hs p hp c hmem => ?_,
    fun P id A s alt children hk hs ha => ?_, fun key hk => h.dropped_later hl (.refl st) hk⟩
  · rw [hs, h.symbol_iff]
    exact (Arena.head_push_iff (P := (· = some s)) (by simp)).symm
  · rw [hi, h.intermediate_iff]
    exact (Arena.head_push_iff (P := (· = some s)) (by simp)).symm
  · rw [ht, h.terminal_iff]
    simpa using (@Arena.head_push_iff e.nodes n (.terminal i) (by simp) (fun _ => True) id).symm
  · exact h.fresh d hd A ((Arena.hasAlternative_push_iff hclosed hc).1 ha)
  · rw [h.packed_iff]
    refine or_congr_left (and_congr_left ?_) |>.trans
      (or_congr_left (and_congr_right fun _ => exists_congr fun A =>
        (Arena.hasAlternative_push_iff hclosed hc).symm))
    rintro ⟨A, ha⟩
    rw [Arena.node_push_lt (Arena.lt_size_of_isChoice ha.1)]
  · rcases hold hch with ⟨hlt, he⟩ | hnil
    · rw [he] at hch hs
      rw [Arena.childrenOf, he, ← Arena.childrenOf, List.map_congr_left hchild]
      exact h.nodup id s hch hs
    · rw [hnil]
      exact List.nodup_nil
  · rcases hold hch with ⟨hlt, he⟩ | hnil
    · rw [he] at hch hs
      rw [Arena.childrenOf, he, ← Arena.childrenOf] at hp
      rw [Arena.childrenOf, hchild p hp, ← Arena.childrenOf] at hmem
      exact (h.usable id s hch hs p hp c hmem).later hε h.formed hl
    · rw [hnil] at hp
      cases hp
  · have ha' := (Arena.hasAlternative_push_iff hclosed hc).1 ha
    rw [Arena.node_push_lt (Arena.lt_size_of_isChoice ha'.1)] at hk hs
    exact h.kept_later hl (.refl st) P hk hs ha'

section

variable (h : ForestValid input st ds e) {owner : NodeId} {A : RuleId} {alt dot l r : Nat}
  {children : Children} (ho : Arena.Owns input.grammar e.nodes owner A alt dot l r)
include h ho

/-- An alternative that was there stays as it was when another one is added. -/
theorem ForestValid.node_withAlternative (hε : input.compiled.epsilon.Laid input.grammar) {id p : NodeId}
    (hc : (Arena.node e.nodes id).isChoice = true) (hp : p ∈ Arena.childrenOf e.nodes id) :
    Arena.node (e.nodes.withAlternative owner A alt children) p = Arena.node e.nodes p := by
  refine Arena.node_withAlternative_ne ?_ (h.formed.backed.closed id p hp)
  rintro rfl
  have hpacked := h.formed.isPacked hε hc hp
  rw [Node.not_isPacked_of_isChoice ho.isChoice] at hpacked
  cases hpacked

/-- The alternatives of a choice stay different when one is added that was not there. -/
theorem ForestValid.nodup_withAlternative (hε : input.compiled.epsilon.Laid input.grammar)
    (hnew : ∀ B, ¬ e.nodes.HasAlternative owner B alt children) {id : NodeId} {s : Span}
    (hc : (Arena.node e.nodes id).isChoice = true) (hs : (Arena.node e.nodes id).span = some s) :
    ((Arena.childrenOf (e.nodes.withAlternative owner A alt children) id).map
      (Arena.node (e.nodes.withAlternative owner A alt children))).Nodup := by
  have hsame : (Arena.childrenOf e.nodes id).map (Arena.node (e.nodes.withAlternative owner A alt children)) =
      (Arena.childrenOf e.nodes id).map (Arena.node e.nodes) :=
    List.map_congr_left fun p hp => h.node_withAlternative ho hε hc hp
  by_cases hid : owner = id
  · subst hid
    rw [Arena.childrenOf_withAlternative_self ho.lt_size, List.map_append, hsame, List.map_singleton,
      Arena.node_withAlternative_size ho.lt_size, List.nodup_append]
    refine ⟨h.nodup _ s hc hs, List.nodup_singleton _, fun n hn n' hn' => ?_⟩
    rintro rfl
    obtain ⟨p, hp, hnode⟩ := List.mem_map.1 hn
    exact hnew A ⟨hc, p, hp, hnode.trans (List.mem_singleton.1 hn')⟩
  · rw [Arena.childrenOf, Arena.node_withAlternative_ne hid (Arena.lt_size_of_isChoice hc),
      ← Arena.childrenOf, hsame]
    exact h.nodup id s hc hs

/-- The table of keys is right when the key of an alternative is added along with it. -/
theorem ForestValid.packed_iff_withAlternative {ds' : List Deferred}
    (hds : ∀ d, d ∈ ds' ↔ d ∈ ds ∧ d.key ≠ ⟨owner, alt, children⟩) {packed : Std.HashSet PackedKey}
    (hpacked : ∀ key, key ∈ packed ↔ key ∈ e.packed ∨ key = ⟨owner, alt, children⟩) (key : PackedKey) :
    key ∈ packed ↔
      ((∃ s, (Arena.node (e.nodes.withAlternative owner A alt children) key.owner).span = some s) ∧
        ∃ B, (e.nodes.withAlternative owner A alt children).HasAlternative key.owner B key.alt
          key.children) ∨ ∃ d ∈ ds', d.key = key := by
  have hspan : ∀ {id}, (Arena.node e.nodes id).isChoice = true →
      (Arena.node (e.nodes.withAlternative owner A alt children) id).span =
        (Arena.node e.nodes id).span := fun hc =>
    (Arena.grows_withAlternative ho.lt_size ho.isChoice).span_eq _ (Arena.lt_size_of_isChoice hc)
  have halt : ∀ {id B b ch}, (e.nodes.withAlternative owner A alt children).HasAlternative id B b ch ↔
      e.nodes.HasAlternative id B b ch ∨ (id = owner ∧ A = B ∧ alt = b ∧ children = ch) :=
    Arena.hasAlternative_withAlternative_iff h.formed.backed.closed ho.lt_size ho.isChoice
  rw [hpacked, h.packed_iff]
  constructor
  · rintro ((⟨⟨s, hs⟩, B, ha⟩ | ⟨d, hd, rfl⟩) | rfl)
    · exact .inl ⟨⟨s, (hspan ha.1).trans hs⟩, B, halt.2 (.inl ha)⟩
    · by_cases hkey : d.key = ⟨owner, alt, children⟩
      · rw [hkey]
        exact .inl ⟨⟨_, (hspan ho.isChoice).trans ho.2⟩, A, halt.2 (.inr ⟨rfl, rfl, rfl, rfl⟩)⟩
      · exact .inr ⟨d, (hds d).2 ⟨hd, hkey⟩, rfl⟩
    · exact .inl ⟨⟨_, (hspan ho.isChoice).trans ho.2⟩, A, halt.2 (.inr ⟨rfl, rfl, rfl, rfl⟩)⟩
  · rintro (⟨⟨s, hs⟩, B, ha⟩ | ⟨d, hd, rfl⟩)
    · rcases halt.1 ha with ha | ⟨h₁, -, h₂, h₃⟩
      · exact .inl (.inl ⟨⟨s, (hspan ha.1).symm.trans hs⟩, B, ha⟩)
      · exact .inr (by rw [h₂, h₃, ← h₁])
    · exact .inl (.inr ⟨d, ((hds d).1 hd).1, rfl⟩)

end

/-- An alternative is packed that waited or is new. -/
theorem ForestValid.pack (h : ForestValid input st ds e)
    (hε : input.compiled.epsilon.Laid input.grammar) {owner : NodeId} {A : RuleId}
    {alt dot l r : Nat} {children : Children} {ds' : List Deferred}
    (ho : Arena.Owns input.grammar e.nodes owner A alt dot l r) (hst : ¬ st.Passed ⟨l, r⟩)
    (hh : input.Holds e.nodes A alt dot l r children)
    (hu : ∀ c ∈ children.toList, e.Usable input c)
    (hnew : ∀ B, ¬ e.nodes.HasAlternative owner B alt children)
    (hds : ∀ d, d ∈ ds' ↔ d ∈ ds ∧ d.key ≠ ⟨owner, alt, children⟩)
    (hdistinct : (ds'.map Deferred.key).Nodup) {packed : Std.HashSet PackedKey}
    (hpacked : ∀ key, key ∈ packed ↔ key ∈ e.packed ∨ key = ⟨owner, alt, children⟩)
    (hknown : ∀ P : Policy input, (Arena.node e.nodes owner).kind = .symbol A →
      P.Known e.nodes st ⟨owner, A, alt, ⟨l, r⟩, children⟩ true) :
    ForestValid input st ds'
        { e with packed, nodes := e.nodes.withAlternative owner A alt children } ∧
      Later st e { e with packed, nodes := e.nodes.withAlternative owner A alt children } := by
  have hclosed := h.formed.backed.closed
  have hlt := ho.lt_size
  have hgrows : Arena.GrowsAt st e.nodes (e.nodes.withAlternative owner A alt children) :=
    Arena.growsAt_withAlternative ho.isChoice ho.2 hst
  have hl : Later st e { e with packed, nodes := e.nodes.withAlternative owner A alt children } :=
    ⟨hgrows, fun key hk => .inl ((hpacked key).2 (.inl hk)), fun _ => id⟩
  have hhead : ∀ {k : NodeKind} {P : Option Span → Prop} {id : NodeId}, k ≠ .epsilon → k ≠ .packed A alt →
      (((Arena.node (e.nodes.withAlternative owner A alt children) id).kind = k ∧
        P (Arena.node (e.nodes.withAlternative owner A alt children) id).span) ↔
      (Arena.node e.nodes id).kind = k ∧ P (Arena.node e.nodes id).span) := fun hk hk' =>
    Arena.head_withAlternative_iff hk hk'
  have hspan : ∀ {id}, (Arena.node e.nodes id).isChoice = true →
      (Arena.node (e.nodes.withAlternative owner A alt children) id).span =
        (Arena.node e.nodes id).span := fun hch =>
    hgrows.span_eq _ (Arena.lt_size_of_isChoice hch)
  have halt : ∀ {id B b ch}, (e.nodes.withAlternative owner A alt children).HasAlternative id B b ch ↔
      e.nodes.HasAlternative id B b ch ∨ (id = owner ∧ A = B ∧ alt = b ∧ children = ch) :=
    Arena.hasAlternative_withAlternative_iff hclosed hlt ho.isChoice
  refine ⟨⟨⟨fun B s id => ?_, fun B b dot' s id => ?_, fun i id => ?_, h.terminals_size⟩,
    h.formed.withAlternative hε ho hh, fun d hd => ?_, hdistinct, fun d hd B ha => ?_,
    h.packed_iff_withAlternative ho hds hpacked, h.waiting_iff, fun hp => ?_, h.quiet,
    fun id s hch hs => ?_, fun id s hch hs p hp c hmem => ?_, fun P id B s b ch hk hs ha => ?_, fun key hk => h.dropped_later hl (.refl st) hk⟩, hl⟩
  · rw [h.symbol_iff]
    exact (hhead (P := (· = some s)) (by simp) (by simp)).symm
  · rw [h.intermediate_iff]
    exact (hhead (P := (· = some s)) (by simp) (by simp)).symm
  · rw [h.terminal_iff]
    simpa using (@hhead (.terminal i) (fun _ => True) id (by simp) (by simp)).symm
  · exact (h.waits d ((hds d).1 hd).1).later hε h.formed hl
  · rcases halt.1 ha with ha | ⟨h₁, -, h₂, h₃⟩
    · exact h.fresh d ((hds d).1 hd).1 B ha
    · exact ((hds d).1 hd).2 (by rw [Deferred.key, h₁, h₂, h₃])
  · refine List.eq_nil_iff_forall_not_mem.2 fun d hd => ?_
    have := ((hds d).1 hd).1
    rw [h.prompt hp] at this
    cases this
  · rw [Arena.isChoice_withAlternative] at hch
    rw [hspan hch] at hs
    exact h.nodup_withAlternative ho hε hnew hch hs
  · rw [Arena.isChoice_withAlternative] at hch
    rw [hspan hch] at hs
    rcases (Arena.mem_children_withAlternative_iff hlt hch).1 hp with hp | ⟨rfl, rfl⟩
    · rw [Arena.childrenOf, h.node_withAlternative ho hε hch hp, ← Arena.childrenOf] at hmem
      exact (h.usable id s hch hs p hp c hmem).later hε h.formed hl
    · rw [Arena.childrenOf, Arena.node_withAlternative_size hlt] at hmem
      exact (hu c hmem).later hε h.formed hl
  · rcases halt.1 ha with ha | ⟨rfl, rfl, rfl, rfl⟩
    · rw [hspan ha.1] at hs
      rw [hgrows.kind_eq id (Arena.lt_size_of_isChoice ha.1)] at hk
      exact h.kept_later hl (.refl st) P hk hs ha
    · rw [hgrows.kind_eq _ hlt] at hk
      rw [hspan ho.isChoice] at hs
      obtain rfl := Option.some.inj (ho.2.symm.trans hs)
      rcases ho.1 with ⟨-, rfl, hsize⟩ | hk'
      · exact P.grows h.formed ⟨hk, ho.2, hsize, hh⟩ (hknown P hk) hgrows (.refl st)
      · exact absurd (hk.symm.trans hk') (by simp)

/-- A derivation that waited, or is new, is turned down. -/
theorem ForestValid.turnDown (h : ForestValid input st ds e)
    (hε : input.compiled.epsilon.Laid input.grammar) {d : Deferred} {ds' : List Deferred}
    (hd : d.Valid input e.nodes) (hnew : ∀ B, ¬ e.nodes.HasAlternative d.symbol B d.alt d.children)
    (hds : ∀ d', d' ∈ ds' ↔ d' ∈ ds ∧ d'.key ≠ d.key) (hdistinct : (ds'.map Deferred.key).Nodup)
    {packed rejected : Std.HashSet PackedKey} {rejectedCount : Nat}
    (hpacked : ∀ key, key ∈ packed ↔ key ∈ e.packed ∧ key ≠ d.key)
    (hrejected : ∀ key, key ∈ rejected ↔ key ∈ e.rejected ∨ key = d.key)
    (hcount : rejectedCount ≠ 0) (hknown : ∀ P : Policy input, P.Known e.nodes st d false) :
    ForestValid input st ds' { e with packed, rejected, rejectedCount } ∧
      Later st e { e with packed, rejected, rejectedCount } := by
  have hl : Later st e { e with packed, rejected, rejectedCount } := by
    refine ⟨.refl st e.nodes, fun key hk => ?_, fun key hk => (hrejected key).2 (.inl hk)⟩
    by_cases hkey : key = d.key
    · exact .inr ((hrejected key).2 (.inr hkey))
    · exact .inl ((hpacked key).2 ⟨hk, hkey⟩)
  refine ⟨⟨h.toTables.congr rfl rfl rfl rfl, h.formed,
    fun d' hd' => (h.waits d' ((hds d').1 hd').1).later hε h.formed hl, hdistinct,
    fun d' hd' => h.fresh d' ((hds d').1 hd').1, fun key => ?_, h.waiting_iff, fun hp => ?_,
    fun h0 => absurd h0 hcount, h.nodup, fun id s hch hs p hp c hmem =>
      (h.usable id s hch hs p hp c hmem).later hε h.formed hl, h.kept, fun key hk => ?_⟩, hl⟩
  · rw [hpacked, h.packed_iff]
    constructor
    · rintro ⟨ha | ⟨d', hd', rfl⟩, hne⟩
      · exact .inl ha
      · exact .inr ⟨d', (hds d').2 ⟨hd', hne⟩, rfl⟩
    · rintro (⟨hs, B, ha⟩ | ⟨d', hd', rfl⟩)
      · refine ⟨.inl ⟨hs, B, ha⟩, ?_⟩
        rintro rfl
        exact hnew B ha
      · exact ⟨.inr ⟨d', ((hds d').1 hd').1, rfl⟩, ((hds d').1 hd').2⟩
  · refine List.eq_nil_iff_forall_not_mem.2 fun d' hd' => ?_
    have := ((hds d').1 hd').1
    rw [h.prompt hp] at this
    cases this
  · rcases (hrejected key).1 hk with hk | rfl
    · exact h.dropped_later hl (.refl st) hk
    · exact ⟨d, rfl, hd, hknown⟩

/-- A new derivation is deferred. -/
theorem ForestValid.postpone (h : ForestValid input st e.deferred e)
    (hε : input.compiled.epsilon.Laid input.grammar) {d : Deferred} (hd : d.Waits input st e)
    (hnew : d.key ∉ e.packed) (hprompt : ¬ input.Prompt) :
    Builds input st e { e with
      packed := e.packed.insert d.key
      waiting := e.waiting.insert d.symbol
      deferred := d :: e.deferred } := by
  have hl : Later st e { e with
      packed := e.packed.insert d.key
      waiting := e.waiting.insert d.symbol
      deferred := d :: e.deferred } :=
    ⟨.refl st e.nodes, fun key hk => .inl (Std.HashSet.mem_insert.2 (.inr hk)), fun _ => id⟩
  have hwait : ∀ d' ∈ d :: e.deferred, d'.Waits input st e := by
    intro d' hd'
    rcases List.mem_cons.1 hd' with rfl | hd'
    · exact hd
    · exact h.waits d' hd'
  refine ⟨⟨rfl, rfl, rfl, rfl, rfl, rfl, rfl⟩, hl, h.toTables.congr rfl rfl rfl rfl, h.formed,
    fun d' hd' => (hwait d' hd').later hε h.formed hl, ?_, fun d' hd' => ?_, fun key => ?_,
    fun id => ?_, fun hp => absurd hp hprompt, h.quiet, h.nodup, fun id s hch hs p hp c hmem =>
      (h.usable id s hch hs p hp c hmem).later hε h.formed hl, h.kept, h.dropped⟩
  · refine List.nodup_cons.2 ⟨fun hmem => ?_, h.distinct⟩
    obtain ⟨d', hd', hkey⟩ := List.mem_map.1 hmem
    exact hnew ((h.packed_iff _).2 (.inr ⟨d', hd', hkey⟩))
  · rcases List.mem_cons.1 hd' with rfl | hd'
    · exact fun A ha => hnew ((h.packed_iff _).2 (.inl ⟨⟨_, hd.span_eq⟩, A, ha⟩))
    · exact h.fresh d' hd'
  · rw [Std.HashSet.mem_insert, h.packed_iff, beq_iff_eq]
    simp only [List.mem_cons, exists_eq_or_imp]
    tauto
  · rw [Std.HashSet.mem_insert, h.waiting_iff, beq_iff_eq]
    simp only [List.mem_cons, exists_eq_or_imp]

/-! ## Nodes -/

/-- The node of a token that is there. -/
theorem ForestValid.terminalNode (h : ForestValid input st e.deferred e)
    (hε : input.compiled.epsilon.Laid input.grammar) {i : Nat} (hi : i < input.tokens.length)
    (hst : ¬ st.Passed ⟨i, i + 1⟩) :
    Ends (terminalNode i) (fun id e' => Builds input st e e' ∧
      (Arena.node e'.nodes id).kind = .terminal i ∧ e'.deferred = e.deferred) E e := by
  simp only [Engine.terminalNode, ends_bind, ends_get]
  cases hid : e.terminals.getD i none with
  | some id => exact ⟨.refl h, (h.terminal_iff i id).1 hid, rfl⟩
  | none =>
    have hnone : ∀ id, (Arena.node e.nodes id).kind ≠ .terminal i := by
      intro id hk
      rw [(h.terminal_iff i id).2 hk] at hid
      cases hid
    simp only [newNode, ends_bind, ends_modifyGet, ends_modify, ends_pure]
    refine ⟨h.push (n := .ofKind (.terminal i) (some ⟨i, i + 1⟩)) hε rfl ⟨rfl, rfl⟩
      (fun _ hs => Option.some.inj hs ▸ hst) hi (fun id s hk => absurd hk (hnone id))
      (fun A s id => ?_) (fun A alt dot s id => ?_) (fun j id => ?_) Array.size_setIfInBounds, by simp [Node.ofKind], trivial⟩
    · simp [Node.ofKind]
    · simp [Node.ofKind]
    · have hi' : i < e.terminals.size := h.terminals_size.symm ▸ hi
      by_cases hij : i = j
      · subst hij
        have hid : e.terminals[i] = none := by simpa [Array.getD_eq_getD_getElem?, hi'] using hid
        simp [Array.getD_eq_getD_getElem?, hid, hi', Node.ofKind, eq_comm]
      · simp [Array.getD_eq_getD_getElem?, hij, Node.ofKind]

/-- The node of a rule that the tokens spell. -/
theorem ForestValid.symbolNode (h : ForestValid input st e.deferred e)
    (hε : input.compiled.epsilon.Laid input.grammar) {A : RuleId} {left : Nat} (hlt : left < e.level)
    (hst : ¬ st.Passed ⟨left, e.level⟩)
    (hs : Spells input.grammar input.compiled.matcher input.tokens [.rule A] left e.level) :
    Ends (symbolNode A left) (fun id e' => Builds input st e e' ∧
      (Arena.node e'.nodes id).kind = .symbol A ∧
      (Arena.node e'.nodes id).span = some ⟨left, e.level⟩) E e := by
  simp only [Engine.symbolNode, ends_bind, ends_get]
  cases hid : e.symbols[(A, (⟨left, e.level⟩ : Span))]? with
  | some id => exact ⟨.refl h, (h.symbol_iff A _ id).1 hid⟩
  | none =>
    simp only [newNode, ends_bind, ends_modifyGet, ends_modify, ends_pure]
    refine ⟨h.push (n := .ofKind (.symbol A) (some ⟨left, e.level⟩)) hε rfl
      ⟨left, e.level, rfl, hlt⟩ (fun _ hs => Option.some.inj hs ▸ hst) ?_
      (fun id s hk hsp hsp' => ?_) (fun B s id => ?_) (fun B alt dot s id => ?_) (fun j id => ?_) rfl, by simp [Node.ofKind]⟩
    · rintro l r (hspan | ⟨hspan, rfl⟩)
      · obtain ⟨rfl, rfl⟩ := Span.mk.inj (Option.some.inj hspan)
        exact hs
      · cases hspan
    · obtain rfl := Option.some.inj hsp'
      rw [(h.symbol_iff A _ id).2 ⟨hk, hsp⟩] at hid
      cases hid
    · rw [getElem?_insert_iff hid]
      simp [Node.ofKind]
    · simp [Node.ofKind]
    · simp [Node.ofKind]

/-- The node of the symbols of an alternative from `dot` on, which the tokens spell. -/
theorem ForestValid.intermediateNode (h : ForestValid input st e.deferred e)
    (hε : input.compiled.epsilon.Laid input.grammar) {A : RuleId} {alt dot left : Nat}
    (hlt : left < e.level) (hst : ¬ st.Passed ⟨left, e.level⟩)
    (hs : Spells input.grammar input.compiled.matcher input.tokens
      ((input.grammar.alternative A alt).symbols.drop dot) left e.level) :
    Ends (intermediateNode A alt dot left) (fun id e' => Builds input st e e' ∧
      (Arena.node e'.nodes id).kind = .intermediate A alt dot ∧
      (Arena.node e'.nodes id).span = some ⟨left, e.level⟩) E e := by
  simp only [Engine.intermediateNode, ends_bind, ends_get]
  cases hid : e.intermediates[(A, alt, dot, (⟨left, e.level⟩ : Span))]? with
  | some id => exact ⟨.refl h, (h.intermediate_iff A alt dot _ id).1 hid⟩
  | none =>
    simp only [newNode, ends_bind, ends_modifyGet, ends_modify, ends_pure]
    refine ⟨h.push (n := .ofKind (.intermediate A alt dot) (some ⟨left, e.level⟩)) hε rfl
      ⟨left, e.level, rfl, hlt⟩ (fun _ hs => Option.some.inj hs ▸ hst) ?_
      (fun id s hk hsp hsp' => ?_) (fun B s id => ?_) (fun B b dot' s id => ?_) (fun j id => ?_) rfl, by simp [Node.ofKind]⟩
    · intro l r hspan
      obtain ⟨rfl, rfl⟩ := Span.mk.inj (Option.some.inj hspan)
      exact hs
    · obtain rfl := Option.some.inj hsp'
      rw [(h.intermediate_iff A alt dot _ id).2 ⟨hk, hsp⟩] at hid
      cases hid
    · simp [Node.ofKind]
    · rw [getElem?_insert_iff hid]
      simp [Node.ofKind, and_assoc]
    · simp [Node.ofKind]

/-- The node of a tail, with two more children that hold it. -/
theorem ForestValid.intermediate (h : ForestValid input st e.deferred e)
    (hε : input.compiled.epsilon.Laid input.grammar) {A : RuleId} {alt dot left : Nat}
    {first second : NodeId} (hlt : left < e.level) (hst : ¬ st.Passed ⟨left, e.level⟩)
    (hh : input.Holds e.nodes A alt dot left e.level ⟨first, some second⟩)
    (hf : e.Usable input first) (hs : e.Usable input second) :
    Ends (intermediate A alt dot left first second) (fun id e' => Builds input st e e' ∧
      input.IsTail e'.nodes A alt dot left e.level id ∧ e'.Usable input id ∧
      (Arena.node e'.nodes id).kind = .intermediate A alt dot ∧
      e'.nodes.HasAlternative id A alt ⟨first, some second⟩) E e := by
  simp only [Engine.intermediate, ends_bind, ends_get]
  refine (h.intermediateNode hε hlt hst
    (h.formed.backed.spells_of_covers (Arena.Holds.covers hε h.formed.base hh))).imp ?_
  rintro id e₁ ⟨hb, hk, hspan⟩
  have hid : id < e₁.nodes.size := Arena.lt_size_of_kind (by rw [hk]; simp)
  have ho : Arena.Owns input.grammar e₁.nodes id A alt dot left e.level := ⟨.inr hk, hspan⟩
  have hu : ∀ c ∈ (⟨first, some second⟩ : Children).toList, e₁.Usable input c := by
    intro c hc
    have hc : c = first ∨ c = second := by simpa [Children.toList] using hc
    rcases hc with rfl | rfl
    · exact hf.later hε h.formed hb.toLater
    · exact hs.later hε h.formed hb.toLater
  -- a derivation of an intermediate node is of its own alternative
  have hrule : ∀ {e₂ B}, Builds input st e₁ e₂ →
      e₂.nodes.HasAlternative id B alt ⟨first, some second⟩ → B = A := by
    intro e₂ B hb₂ ha
    obtain ⟨dot', ⟨⟨hk', -⟩ | hk', -⟩, -⟩ := hb₂.valid.formed.holds_of_hasAlternative ha
      ((hb₂.nodes.span_eq id hid).trans hspan)
    · exact absurd (((hb₂.nodes.kind_eq id hid).trans hk).symm.trans hk') (by simp)
    · exact (NodeKind.intermediate.inj (((hb₂.nodes.kind_eq id hid).trans hk).symm.trans hk')).1.symm
  have hdone : ∀ {e₂}, Builds input st e₁ e₂ →
      e₂.nodes.HasAlternative id A alt ⟨first, some second⟩ →
      Builds input st e e₂ ∧ input.IsTail e₂.nodes A alt dot left e.level id ∧ e₂.Usable input id ∧
      (Arena.node e₂.nodes id).kind = .intermediate A alt dot ∧
      e₂.nodes.HasAlternative id A alt ⟨first, some second⟩ := by
    intro e₂ hb₂ ha
    have hk₂ := (hb₂.nodes.kind_eq id hid).trans hk
    have hs₂ := (hb₂.nodes.span_eq id hid).trans hspan
    refine ⟨hb.trans hb₂, .intermediate hk₂ hs₂ hlt (hh.lt_length hε)
        (ha.alive (by rw [Node.isChoice, hk₂])),
      ⟨Nat.lt_of_lt_of_le hid hb₂.nodes.size_le, fun _ _ _ => ⟨⟨id, alt, first, some second⟩, rfl,
        .inl ((hb₂.valid.packed_iff _).2 (.inl ⟨⟨_, hs₂⟩, A, ha⟩))⟩, fun hp => ?_⟩, hk₂, ha⟩
    obtain ⟨hc, p, hp', hnode⟩ := ha
    refine Arena.productive_of_alternative hc hp' (by rw [hnode]; rfl) fun c hmem => ?_
    rw [Arena.childrenOf, hnode] at hmem
    exact ((hu c hmem).later hε hb.valid.formed hb₂.toLater).productive hp
  have hwait : ∀ d ∈ e₁.deferred, d.key ≠ ⟨id, alt, first, some second⟩ := by
    rintro d hd hkey
    have hsym := (hb.valid.waits d hd).kind_eq
    rw [show d.symbol = id from congrArg PackedKey.owner hkey, hk] at hsym
    cases hsym
  by_cases hp : (⟨id, alt, ⟨first, some second⟩⟩ : PackedKey) ∈ e₁.packed
  · simp only [Std.HashSet.contains_iff_mem.2 hp, Bool.not_true, Bool.false_eq_true, if_false]
    rcases (hb.valid.packed_iff _).1 hp with ⟨-, B, ha⟩ | ⟨d, hd, hkey⟩
    · obtain rfl := hrule (.refl hb.valid) ha
      exact hdone (.refl hb.valid) ha
    · exact absurd hkey (hwait d hd)
  · have hcontains : ¬ e₁.packed.contains ⟨id, alt, ⟨first, some second⟩⟩ = true := fun hc =>
      hp (Std.HashSet.contains_iff_mem.1 hc)
    simp only [hcontains, Bool.not_false, if_true, ends_bind, ends_modify, Engine.pack]
    have hpack := hb.valid.pack hε ho hst (hh.grows hb.nodes.toGrows) hu
      (fun B ha => hp ((hb.valid.packed_iff _).2 (.inl ⟨⟨_, hspan⟩, B, ha⟩)))
      (fun d => ⟨fun hd => ⟨hd, hwait d hd⟩, And.left⟩) hb.valid.distinct
      (mem_insert_iff (⟨id, alt, first, some second⟩ : PackedKey))
      (fun P hk' => absurd (hk.symm.trans hk') (by simp))
    exact hdone ⟨⟨rfl, rfl, rfl, rfl, rfl, rfl, rfl⟩, hpack.2, hpack.1⟩
      ((Arena.hasAlternative_withAlternative_iff hb.valid.formed.backed.closed hid ho.isChoice).2
        (.inr ⟨rfl, rfl, rfl, rfl⟩))

/-! ## Candidates -/

/-- Only an alternative with an operator is deferred. -/
theorem operator_of_defer {c : Candidate} {user : σ} (h : (input.pipeline.judge c user).1 = .defer) :
    c.alternative.operator.isSome = true := by
  have hb : input.pipeline.builtIn c = .defer := by
    rw [Pipeline.judge] at h
    split at h
    · split at h <;> cases h
    · exact h
  rw [Pipeline.builtIn] at hb
  split at hb
  · rename_i hp
    obtain ⟨-, hp⟩ := Bool.and_eq_true_iff.1 hp
    rw [Arena.operandPending] at hp
    split at hp
    · cases hp
    · rename_i op hop
      rw [hop]
      rfl
  · split at hb
    · cases hb
    · split at hb <;> cases hb

/-- No child is dead as long as nothing has been turned down, and where nothing is ever deferred. -/
theorem ForestValid.hasDeadChild_eq_false (hg : input.grammar.WellFormed)
    (hε : input.compiled.epsilon.Laid input.grammar) (h : ForestValid input st ds e) {d : Deferred}
    (hd : d.Valid input e.nodes) (hu : ∀ c ∈ d.children.toList, e.Usable input c) {level : Nat}
    (hfor : st.IsFor d level) (hop : level = st.level + 1 →
      (input.grammar.alternative d.rule d.alt).operator.isSome = true)
    (hq : e.rejectedCount = 0 ∨ input.Prompt) : hasDeadChild e.nodes d.children level = false := by
  rw [hasDeadChild, List.any_eq_false]
  intro c hc hdead
  simp only [Bool.and_eq_true] at hdead
  obtain ⟨⟨hsymbol, hempty⟩, hspan⟩ := hdead
  have hchoice : (Arena.node e.nodes c).isChoice = true := by
    obtain ⟨A, hA⟩ := Node.isSymbol_iff.1 hsymbol
    rw [Node.isChoice, hA]
  have hnil : Arena.childrenOf e.nodes c = [] := by
    rw [Arena.childrenOf, Array.isEmpty_iff.1 hempty]
  rcases hq with hq | hq
  · cases hs : (Arena.node e.nodes c).span with
    | none =>
      rw [hs] at hspan
      cases hspan
    | some s =>
      rw [hs] at hspan
      have hright : s.right < level := by simpa using hspan
      obtain ⟨key, rfl, hk | hk⟩ := (hu c hc).marked hchoice s hs
      · rcases (h.packed_iff key).1 hk with ⟨-, A, -, p, hp, -⟩ | ⟨d', hd', rfl⟩
        · rw [hnil] at hp
          cases hp
        · -- the operand waits itself: it ends at this level, and is no narrower than the derivation
          have hw := h.waits d' hd'
          obtain rfl : d'.span = s := Option.some.inj (hw.span_eq.symm.trans hs)
          rcases hfor.2 with ⟨rfl, -⟩ | ⟨hlevel, hwidth⟩
          · exact absurd hright (Nat.not_lt.2 (Nat.le_of_eq hw.right_eq.symm))
          · have := hd.width_lt hg hε h.formed (hop hlevel) hc hsymbol hs
            exact absurd this (Nat.not_lt.2 (hwidth ▸ hw.width_le))
      · exact h.quiet hq key hk
  · exact ((hu c hc).productive hq).children_ne_nil hchoice hnil

/-- A derivation is offered to its symbol node: then it is packed or waits, or it is turned down. -/
theorem ForestValid.addAlternative (hg : input.grammar.WellFormed)
    (hε : input.compiled.epsilon.Laid input.grammar)
    (h : ForestValid input ⟨e.level, 0⟩ e.deferred e) {d : Deferred} (hd : d.Valid input e.nodes)
    (hright : d.span.right = e.level) (hu : ∀ c ∈ d.children.toList, e.Usable input c) :
    Ends (addAlternative input d) (fun _ e' => Builds input ⟨e.level, 0⟩ e e' ∧ e'.Marked d.key)
      E e := by
  have hfor : Stage.IsFor ⟨e.level, 0⟩ d e.level := ⟨hright, .inl ⟨rfl, rfl⟩⟩
  simp only [Engine.addAlternative, ends_bind, ends_get]
  by_cases hknown : e.Marked d.key
  · rw [if_pos]
    · exact ⟨.refl h, hknown⟩
    · rcases hknown with hp | hr
      · exact Bool.or_eq_true_iff.2 (.inl (Std.HashSet.contains_iff_mem.2 hp))
      · exact Bool.or_eq_true_iff.2 (.inr (Std.HashSet.contains_iff_mem.2 hr))
  · have hp : d.key ∉ e.packed := fun hp => hknown (.inl hp)
    have hr : d.key ∉ e.rejected := fun hr => hknown (.inr hr)
    have hnew : ∀ B, ¬ e.nodes.HasAlternative d.symbol B d.alt d.children := fun B ha =>
      hp ((h.packed_iff _).2 (.inl ⟨⟨_, hd.span_eq⟩, B, ha⟩))
    have hds : ∀ d', d' ∈ e.deferred ↔ d' ∈ e.deferred ∧ d'.key ≠ d.key := fun d' =>
      ⟨fun hd' => ⟨hd', fun hkey => hp ((h.packed_iff _).2 (.inr ⟨d', hd', hkey⟩))⟩, And.left⟩
    have hpacked : ∀ key, key ∈ e.packed ↔ key ∈ e.packed ∧ key ≠ d.key := fun key =>
      ⟨fun hk => ⟨hk, fun he => hp (he ▸ hk)⟩, And.left⟩
    have hinsert : ∀ key, key ∈ e.rejected.insert d.key ↔ key ∈ e.rejected ∨ key = d.key :=
      mem_insert_iff d.key
    rw [if_neg (by simpa [Std.HashSet.contains_iff_mem] using ⟨hp, hr⟩)]
    split
    · rename_i hdead
      have hq : ¬ (e.rejectedCount = 0 ∨ input.Prompt) := fun hq => by
        rw [h.hasDeadChild_eq_false hg hε hd hu hfor (fun h => absurd h (by simp)) hq] at hdead
        cases hdead
      have hdown := h.turnDown hε hd hnew hds h.distinct hpacked hinsert (fun h0 => hq (.inl h0))
        fun P => P.buries (fun hp => hq (.inr hp)) h.formed hd hfor (fun h => absurd h (by simp)) hdead
      exact ⟨⟨⟨rfl, rfl, rfl, rfl, rfl, rfl, rfl⟩, hdown.2, hdown.1⟩, .inr ((hinsert _).2 (.inr rfl))⟩
    · simp only [judge, ends_bind, ends_modifyGet]
      generalize hj : input.pipeline.judge _ e.user = j
      have hj : input.pipeline.judge (input.candidate e.nodes d e.level) e.user = j := hj
      have hv : ForestValid input ⟨e.level, 0⟩ e.deferred { e with user := j.2 } :=
        h.congr rfl rfl rfl rfl rfl rfl rfl rfl rfl
      have hu' : ∀ c ∈ d.children.toList, Usable input { e with user := j.2 } c := fun c hc =>
        ⟨(hu c hc).lt_size, (hu c hc).marked, (hu c hc).productive⟩
      have hst : ¬ Stage.Passed ⟨e.level, 0⟩ ⟨d.span.left, d.span.right⟩ := by
        rw [hright]
        exact Stage.not_passed _ _
      split
      · rename_i haccept
        simp only [ends_bind, ends_modify, Engine.pack]
        have hpack := hv.pack hε hd.owns hst hd.holds hu' hnew hds h.distinct (mem_insert_iff d.key)
          fun P _ => P.accepts h.formed hd hfor ((congrArg Prod.fst hj).trans haccept)
        exact ⟨⟨⟨rfl, rfl, rfl, rfl, rfl, rfl, rfl⟩, ⟨hpack.2.nodes, hpack.2.packed, hpack.2.rejected⟩,
          hpack.1⟩, .inl (Std.HashSet.mem_insert_self)⟩
      · rename_i hdefer
        have hwait : d.Waits input ⟨e.level, 0⟩ { e with user := j.2 } :=
          ⟨hd, hright, Nat.zero_le _,
            operator_of_defer (c := input.candidate e.nodes d e.level)
              ((congrArg Prod.fst hj).trans hdefer), hu'⟩
        have hb := hv.postpone hε hwait hp fun hprompt => hprompt _ _ (by rw [hj]; exact hdefer)
        exact ⟨⟨⟨rfl, rfl, rfl, rfl, rfl, rfl, rfl⟩, ⟨hb.nodes, hb.packed, hb.rejected⟩, hb.valid⟩,
          .inl (Std.HashSet.mem_insert_self)⟩
      · rename_i hreject
        have hreject' := (congrArg Prod.fst hj).trans hreject
        have hne : (input.pipeline.judge (input.candidate e.nodes d e.level) e.user).1 ≠ .accept := by
          rw [hreject']
          simp
        have hdown := hv.turnDown hε hd hnew hds h.distinct hpacked hinsert
          (Nat.succ_ne_zero e.rejectedCount) fun P => P.rejects h.formed hd hfor hne
            fun hdefer => absurd (hreject'.symm.trans hdefer) Verdict.noConfusion
        exact ⟨⟨⟨rfl, rfl, rfl, rfl, rfl, rfl, rfl⟩, ⟨hdown.2.nodes, hdown.2.packed, hdown.2.rejected⟩,
          hdown.1⟩, .inr ((hinsert _).2 (.inr rfl))⟩

/-- The symbol node of a derivation that has not been turned down has an alternative or waits for
one. -/
theorem ForestValid.offered (h : ForestValid input st e.deferred e) {d : Deferred}
    (hk : d.key ∈ e.packed) :
    Arena.childrenOf e.nodes d.symbol ≠ [] ∨ d.symbol ∈ e.waiting := by
  rcases (h.packed_iff _).1 hk with ⟨-, A, -, p, hp, -⟩ | ⟨d', hd', hkey⟩
  · exact .inl (List.ne_nil_of_mem hp)
  · exact .inr ((h.waiting_iff _).2 ⟨d', hd', congrArg PackedKey.owner hkey⟩)

/-- A symbol node that has an alternative or waits for one can be used. -/
theorem ForestValid.usable_symbol (hε : input.compiled.epsilon.Laid input.grammar)
    (h : ForestValid input st e.deferred e) {id : NodeId} {s : Span}
    (hc : (Arena.node e.nodes id).isChoice = true) (hs : (Arena.node e.nodes id).span = some s)
    (ho : Arena.childrenOf e.nodes id ≠ [] ∨ id ∈ e.waiting) : e.Usable input id := by
  have hshaped : ∀ {p}, p ∈ Arena.childrenOf e.nodes id →
      ∃ A alt children, Arena.node e.nodes p = Arena.alternativeNode A alt children := by
    intro p hp
    obtain ⟨A, alt, dot, children, -, hnode, -⟩ := h.formed.shaped id s hc hs p hp
    exact ⟨A, alt, children, hnode⟩
  refine ⟨Arena.lt_size_of_isChoice hc, fun _ _ _ => ?_, fun hprompt => ?_⟩
  · rcases ho with hne | hw
    · obtain ⟨p, hp⟩ := List.exists_mem_of_ne_nil _ hne
      obtain ⟨A, alt, children, hnode⟩ := hshaped hp
      exact ⟨⟨id, alt, children⟩, rfl, .inl ((h.packed_iff _).2 (.inl ⟨⟨s, hs⟩, A, hc, p, hp, hnode⟩))⟩
    · obtain ⟨d, hd, rfl⟩ := (h.waiting_iff id).1 hw
      exact ⟨d.key, rfl, .inl ((h.packed_iff _).2 (.inr ⟨d, hd, rfl⟩))⟩
  · have hne : Arena.childrenOf e.nodes id ≠ [] := ho.resolve_right fun hw => by
      obtain ⟨d, hd, -⟩ := (h.waiting_iff id).1 hw
      rw [h.prompt hprompt] at hd
      cases hd
    obtain ⟨p, hp⟩ := List.exists_mem_of_ne_nil _ hne
    exact Arena.productive_of_alternative hc hp (h.formed.isPacked hε hc hp) fun c hmem =>
      (h.usable id s hc hs p hp c hmem).productive hprompt

/-! ## Settling -/

/-- The narrowest of the derivations that wait is judged. -/
theorem ForestValid.settleOne (hg : input.grammar.WellFormed)
    (hε : input.compiled.epsilon.Laid input.grammar) {d : Deferred}
    (h : ForestValid input ⟨e.level, d.span.width⟩ (d :: ds) e) :
    Ends (settleOne input d) (fun _ e' => ForestValid input ⟨e.level, d.span.width⟩ ds e' ∧
      Later ⟨e.level, d.span.width⟩ e e' ∧ SameWork e e' ∧ e'.deferred = e.deferred) E e := by
  have hw := h.waits d (.head _)
  have hd := hw.toValid
  have hfor : Stage.IsFor ⟨e.level, d.span.width⟩ d (e.level + 1) := ⟨hw.right_eq, .inr ⟨rfl, rfl⟩⟩
  have hnew := h.fresh d (.head _)
  have hdistinct := List.nodup_cons.1 h.distinct
  have hds : ∀ d', d' ∈ ds ↔ d' ∈ d :: ds ∧ d'.key ≠ d.key := fun d' => by
    refine ⟨fun hd' => ⟨.tail _ hd', fun hkey => hdistinct.1 (hkey ▸ List.mem_map_of_mem hd')⟩, ?_⟩
    rintro ⟨hd', hne⟩
    exact (List.mem_cons.1 hd').resolve_left fun he => hne (he ▸ rfl)
  have herase : ∀ key, key ∈ e.packed.erase d.key ↔ key ∈ e.packed ∧ key ≠ d.key := fun key => by
    rw [Std.HashSet.mem_erase, beq_eq_false_iff_ne, and_comm, ne_comm]
  have hinsert := @mem_insert_iff _ _ _ _ e.rejected d.key
  simp only [Engine.settleOne, ends_bind, ends_get]
  split
  · rename_i hdead
    have hq : ¬ (e.rejectedCount = 0 ∨ input.Prompt) := fun hq => by
      rw [h.hasDeadChild_eq_false hg hε hd hw.usable hfor (fun _ => hw.operator) hq] at hdead
      cases hdead
    have hdown := h.turnDown hε hd hnew hds hdistinct.2 herase hinsert (fun h0 => hq (.inl h0))
      fun P => P.buries (fun hp => hq (.inr hp)) h.formed hd hfor (fun _ => hw.operator) hdead
    exact ⟨hdown.1, hdown.2, ⟨rfl, rfl, rfl, rfl, rfl, rfl, rfl⟩, rfl⟩
  · simp only [judge, ends_bind, ends_modifyGet]
    generalize hj : input.pipeline.judge _ e.user = j
    have hj : input.pipeline.judge (input.candidate e.nodes d (e.level + 1)) e.user = j := hj
    have hv : ForestValid input ⟨e.level, d.span.width⟩ (d :: ds) { e with user := j.2 } :=
      h.congr rfl rfl rfl rfl rfl rfl rfl rfl rfl
    have hu' : ∀ c ∈ d.children.toList, Usable input { e with user := j.2 } c := fun c hc =>
      ⟨(hw.usable c hc).lt_size, (hw.usable c hc).marked, (hw.usable c hc).productive⟩
    have hst : ¬ Stage.Passed ⟨e.level, d.span.width⟩ ⟨d.span.left, d.span.right⟩ := by
      rintro (hlt | ⟨-, hlt⟩)
      · exact absurd hlt (by simp [hw.right_eq])
      · exact absurd hlt (Nat.lt_irrefl _)
    split
    · rename_i haccept
      simp only [Engine.pack, ends_modify]
      have hpacked : ∀ key, key ∈ e.packed ↔ key ∈ e.packed ∨ key = d.key := fun key => by
        refine ⟨.inl, fun hk => hk.elim id ?_⟩
        rintro rfl
        exact (h.packed_iff _).2 (.inr ⟨d, .head _, rfl⟩)
      have hpack := hv.pack hε hd.owns hst hd.holds hu' hnew hds hdistinct.2 hpacked
        fun P _ => P.accepts h.formed hd hfor ((congrArg Prod.fst hj).trans haccept)
      exact ⟨hpack.1, ⟨hpack.2.nodes, hpack.2.packed, hpack.2.rejected⟩,
        ⟨rfl, rfl, rfl, rfl, rfl, rfl, rfl⟩, trivial⟩
    · rename_i hreject
      have hdown := hv.turnDown hε hd hnew hds hdistinct.2 herase hinsert
        (Nat.succ_ne_zero e.rejectedCount) fun P => P.rejects h.formed hd hfor
          (fun haccept => hreject ((congrArg Prod.fst hj).symm.trans haccept))
          fun _ => Nat.lt_succ_self _
      exact ⟨hdown.1, ⟨hdown.2.nodes, hdown.2.packed, hdown.2.rejected⟩,
        ⟨rfl, rfl, rfl, rfl, rfl, rfl, rfl⟩, rfl⟩

/-- The derivations that wait, from narrow to wide. -/
def inOrder (ds : List Deferred) : List Deferred :=
  ds.reverse.mergeSort fun a b => a.span.width ≤ b.span.width

theorem inOrder_perm (ds : List Deferred) : (inOrder ds).Perm ds :=
  (List.mergeSort_perm _ _).trans ds.reverse_perm

theorem inOrder_pairwise (ds : List Deferred) :
    (inOrder ds).Pairwise fun a b => a.span.width ≤ b.span.width := by
  simpa [inOrder] using @List.pairwise_mergeSort _ (fun a b : Deferred => a.span.width ≤ b.span.width)
    (fun a b c hab hbc => by simpa using Nat.le_trans (by simpa using hab) (by simpa using hbc))
    (fun a b => by simpa using Nat.le_total a.span.width b.span.width) ds.reverse

/-- The derivations that wait are put in order. -/
theorem ForestValid.lineUp (h : ForestValid input st e.deferred e) :
    ForestValid input st (inOrder e.deferred) { e with deferred := [], waiting := ∅ } := by
  have hperm := inOrder_perm e.deferred
  refine { h with
    waits := fun d hd => ?_, distinct := ?_, fresh := fun d hd => h.fresh d (hperm.mem_iff.1 hd)
    packed_iff := fun key => (h.packed_iff key).trans (or_congr_right ?_)
    waiting_iff := by simp, prompt := fun hp => ?_, usable := fun id s hc hs p hp c hmem => ?_ }
  · have hw := h.waits d (hperm.mem_iff.1 hd)
    exact ⟨hw.toValid, hw.right_eq, hw.width_le, hw.operator, fun c hc =>
      ⟨(hw.usable c hc).lt_size, (hw.usable c hc).marked, (hw.usable c hc).productive⟩⟩
  · exact (hperm.map _).nodup_iff.2 h.distinct
  · exact exists_congr fun d => and_congr_left fun _ => hperm.mem_iff.symm
  · exact List.Perm.eq_nil (h.prompt hp ▸ hperm)
  · have hu := h.usable id s hc hs p hp c hmem
    exact ⟨hu.lt_size, hu.marked, hu.productive⟩

/-- The first of the derivations that wait in order is judged. -/
theorem ForestValid.settleNext (hg : input.grammar.WellFormed)
    (hε : input.compiled.epsilon.Laid input.grammar) {w : Nat} {d : Deferred}
    (h : ForestValid input ⟨e.level, w⟩ (d :: ds) e)
    (hsorted : (d :: ds).Pairwise fun a b => a.span.width ≤ b.span.width) :
    Ends (Engine.settleOne input d) (fun _ e' => ForestValid input ⟨e.level, d.span.width⟩ ds e' ∧
      Later ⟨e.level, d.span.width⟩ e e' ∧ SameWork e e' ∧ e'.deferred = e.deferred) E e := by
  have hle := (h.waits d (.head _)).width_le
  have hrest : ∀ d' ∈ d :: ds, d.span.width ≤ d'.span.width := by
    intro d' hd'
    rcases List.mem_cons.1 hd' with rfl | hd'
    · exact Nat.le_refl _
    · exact (List.pairwise_cons.1 hsorted).1 d' hd'
  have hv : ForestValid input ⟨e.level, d.span.width⟩ (d :: ds) e :=
    h.advance (Stage.before_of_width_le hle) fun d' hd' =>
      ⟨(h.waits d' hd').right_eq, hrest d' hd'⟩
  exact hv.settleOne hg hε

/-- The derivations that waited have been judged, all but the last ones. -/
structure SettledBut (input : ParseInput σ) (ds : List Deferred) (e e' : Engine σ) : Prop where
  valid : ∃ w, ForestValid input ⟨e.level, w⟩ ds e'
  later : Later ⟨e.level, 0⟩ e e'
  same : SameWork e e'
  deferred : e'.deferred = []

theorem SettledBut.step (hg : input.grammar.WellFormed) (hε : input.compiled.epsilon.Laid input.grammar)
    {d : Deferred} (h : SettledBut input (d :: ds) e e')
    (hsorted : (d :: ds).Pairwise fun a b => a.span.width ≤ b.span.width) :
    Ends (Engine.settleOne input d) (fun _ e₂ => SettledBut input ds e e₂) E e' := by
  obtain ⟨w, hv⟩ := h.valid
  rw [← h.same.level] at hv
  refine (hv.settleNext hg hε hsorted).imp ?_
  rintro - e₂ ⟨hv₂, hl₂, hs₂, hd₂⟩
  rw [h.same.level] at hv₂ hl₂
  exact ⟨⟨_, hv₂⟩, h.later.trans (hl₂.mono (Stage.before_of_width_le (Nat.zero_le _))),
    h.same.trans hs₂, hd₂.trans h.deferred⟩

/-- The derivations that wait are judged, from narrow to wide; then the level is behind. -/
theorem ForestValid.settle (hg : input.grammar.WellFormed)
    (hε : input.compiled.epsilon.Laid input.grammar)
    (h : ForestValid input ⟨e.level, 0⟩ e.deferred e) :
    Ends (settle input) (fun _ e' => ForestValid input ⟨e.level + 1, 0⟩ [] e' ∧
      Later ⟨e.level, 0⟩ e e' ∧ SameWork e e' ∧ e'.deferred = []) E e := by
  simp only [Engine.settle, ends_bind, ends_get]
  split
  · rename_i hempty
    have hnil : e.deferred = [] := by simpa using hempty
    rw [hnil] at h
    exact ⟨h.advance (Stage.before_next _ _ _) (by simp), .refl _ e, .refl e, hnil⟩
  · simp only [ends_bind, ends_modify]
    have hstart : SettledBut input (inOrder e.deferred) e { e with deferred := [], waiting := ∅ } :=
      ⟨⟨0, h.lineUp⟩, ⟨.refl _ _, fun _ => .inl, fun _ => id⟩, ⟨rfl, rfl, rfl, rfl, rfl, rfl, rfl⟩,
        rfl⟩
    refine (Ends.forM (I := fun rest e' => SettledBut input rest e e') _ hstart
      fun d rest e₁ hsuf hI => ?_).imp fun _ e' hI => ?_
    · exact hI.step hg hε ((inOrder_pairwise _).sublist hsuf.sublist)
    · obtain ⟨w, hv⟩ := hI.valid
      exact ⟨hv.advance (Stage.before_next _ _ _) (by simp), hI.later, hI.same, hI.deferred⟩

/-- The forest begins with the empty derivations. -/
theorem ForestValid.initial (hg : input.grammar.WellFormed)
    (hε : input.compiled.epsilon.Laid input.grammar) (user : σ) :
    ForestValid input ⟨0, 0⟩ [] (initial input user) := by
  -- no fragment spans tokens or is a leaf of the input
  have hspan := hε.span_ne_some
  have hterminal : ∀ id i, (Arena.node input.compiled.epsilon.nodes id).kind ≠ .terminal i := by
    intro id i hk
    have hlt : id < input.compiled.epsilon.nodes.size := Arena.lt_size_of_kind (by rw [hk]; simp)
    rcases hε.kind_cases hlt with h | ⟨A, -, h⟩ | ⟨A, alt, h⟩ | ⟨A, alt, dot, h⟩ <;>
    · rw [hk] at h
      cases h
  refine ⟨⟨fun A s id => ?_, fun A alt dot s id => ?_, fun i id => ?_, by simp [Engine.initial]⟩,
    input.formed_fragments hg hε, by simp, List.nodup_nil, by simp, fun key => ?_,
    by simp [Engine.initial], fun _ => rfl, by simp [Engine.initial],
    fun id s _ hs => absurd hs (hspan id s), fun id s _ hs => absurd hs (hspan id s),
    fun _ id _ s _ _ _ hs => absurd hs (hspan id s), by simp [Engine.initial]⟩
  · simp only [Engine.initial, Std.HashMap.getElem?_empty, reduceCtorEq, false_iff]
    exact fun ⟨_, hs⟩ => hspan id s hs
  · simp only [Engine.initial, Std.HashMap.getElem?_empty, reduceCtorEq, false_iff]
    exact fun ⟨_, hs⟩ => hspan id s hs
  · simp only [Engine.initial, Array.getD_eq_getD_getElem?, Array.getElem?_replicate]
    constructor
    · intro h
      split at h <;> simp at h
    · exact fun h => absurd h (hterminal id i)
  · simp only [Engine.initial, Std.HashSet.not_mem_empty, false_iff]
    rintro (⟨⟨s, hs⟩, -⟩ | ⟨d, hd, -⟩)
    · exact hspan _ s hs
    · cases hd

end Engine

end ParseForest
