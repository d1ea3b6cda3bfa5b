import ParseForest.Proofs.Parser.Answer
import ParseForest.Proofs.Parser.Expectation

/-!
# Where a parse fails

A stack is only ever moved over tokens that begin something that the grammar derives, and a token is
only refused if no derivation goes on with it. So without the built-in rules and disambiguators a parse
fails at the first token with which the tokens so far begin nothing that is derived, and names every
terminal that could stand in its place (`Parser.fails_at_impossible`). There may be no such token: where
an author mentions the end of input in a right-hand side, a whole stream can begin something longer.
-/

namespace ParseForest

variable {σ : Type}

/-! ## Beginnings of what is derived -/

namespace Grammar

section

variable (g : Grammar) (m : TerminalMatcher)

/-- The terminals begin a string that the rule that accepts derives. -/
def IsPrefix (w : List TerminalId) : Prop :=
  ∃ rest : List TerminalId, g.Derives [.rule g.start] ((w ++ rest).map Symbol.terminal)

/-- Some choice of terminals that the tokens satisfy begins a string that is derived. -/
def Viable (toks : List Token) : Prop :=
  ∃ w, List.Forall₂ (fun tok t => t ∈ m.matching tok) toks w ∧ g.IsPrefix w

/-- The terminal can follow some choice of terminals that the tokens satisfy. -/
def MayFollow (toks : List Token) (t : TerminalId) : Prop :=
  ∃ w, List.Forall₂ (fun tok t => t ∈ m.matching tok) toks w ∧ g.IsPrefix (w ++ [t])

/-- The rule derives a string of terminals. -/
def Yields (A : RuleId) : Prop := ∃ w : List TerminalId, g.Derives [.rule A] (w.map Symbol.terminal)

/-- Every rule that is mentioned derives a string of terminals. -/
def Productive : Prop :=
  ∀ A, ∀ a ∈ (g.rule A).alternatives, ∀ B, Symbol.rule B ∈ a.symbols → g.Yields B

/-- The end of input is mentioned elsewhere than where it belongs. -/
def MentionsEof : Prop :=
  g.first = g.eofRule ∨ ∃ A, ∃ a ∈ (g.rule A).alternatives,
    (A ≠ g.start ∧ Symbol.rule g.eofRule ∈ a.symbols) ∨ (A ≠ g.eofRule ∧ Symbol.terminal g.eof ∈ a.symbols)

end

variable {g : Grammar} {m : TerminalMatcher} {toks : List Token}

theorem Yields.exists_terminals {α : List Symbol} (h : ∀ B, Symbol.rule B ∈ α → g.Yields B) :
    ∃ w : List TerminalId, g.Derives α (w.map Symbol.terminal) := by
  induction α with
  | nil => exact ⟨[], .refl _⟩
  | cons x α ih =>
    obtain ⟨w, hw⟩ := ih fun B hB => h B (.tail _ hB)
    obtain ⟨v, hv⟩ : ∃ v : List TerminalId, g.Derives [x] (v.map Symbol.terminal) := by
      cases x with
      | terminal t => exact ⟨[t], .refl _⟩
      | rule B => exact h B (.head _)
    exact ⟨v ++ w, by rw [List.map_append]; exact derives_append (α := [x]) hv hw⟩

/-- The rule that accepts derives a string of terminals. -/
theorem Productive.yields_start (h : g.Productive) (hg : g.WellFormed) : g.Yields g.start := by
  obtain ⟨hone, -⟩ := hg.alternative_start
  have hmem : g.alternative g.start 0 ∈ (g.rule g.start).alternatives :=
    alternative_mem (by rw [hone]; exact Nat.zero_lt_one)
  obtain ⟨w, hw⟩ := Yields.exists_terminals (h g.start _ hmem)
  exact ⟨w, derives_rule hmem hw⟩

/-- All rules that come up in a derivation derive strings of terminals. -/
theorem Productive.yields_of_derives (h : g.Productive) {α β : List Symbol} (hd : g.Derives α β)
    (hα : ∀ B, Symbol.rule B ∈ α → g.Yields B) : ∀ B, Symbol.rule B ∈ β → g.Yields B := by
  induction hd with
  | refl => exact hα
  | tail _ hp ih =>
    obtain ⟨before, after, A, a, ha⟩ := hp
    intro B hB
    simp only [List.mem_append] at hB
    rcases hB with (hB | hB) | hB
    · exact ih B (List.mem_append_left _ hB)
    · exact h A a ha B hB
    · exact ih B (List.mem_append_right _ (.tail _ hB))

/-- What begins a sentential form begins a string of terminals. -/
theorem Productive.isPrefix (h : g.Productive) (hg : g.WellFormed) {w : List TerminalId}
    {α δ : List Symbol} (hd : g.Derives [.rule g.start] (α ++ δ))
    (hα : g.Derives α (w.map Symbol.terminal)) : g.IsPrefix w := by
  have hyields := h.yields_of_derives hd fun B hB => by
    obtain rfl : B = g.start := by simpa using hB
    exact h.yields_start hg
  obtain ⟨rest, hrest⟩ := Yields.exists_terminals fun B hB => hyields B (List.mem_append_right α hB)
  exact ⟨rest, by rw [List.map_append]; exact hd.trans (derives_append hα hrest)⟩

theorem viable_append_singleton_iff {tok : Token} :
    g.Viable m (toks ++ [tok]) ↔ ∃ t ∈ m.matching tok, g.MayFollow m toks t := by
  constructor
  · rintro ⟨w, hw, hp⟩
    obtain ⟨w, v, rfl, hbefore, hv⟩ := List.forall₂_append_left_iff.1 hw
    cases hv with
    | cons ht hnil =>
      cases hnil
      exact ⟨_, ht, w, hbefore, hp⟩
  · rintro ⟨t, ht, w, hw, hp⟩
    exact ⟨w ++ [t], List.rel_append hw (.cons ht .nil), hp⟩

/-- Where the end of input is mentioned only where it belongs, the first rule does not derive it. -/
theorem eof_notMem_of_derives (hg : g.WellFormed) (hs : g.AvoidsStart) (hnot : ¬ g.MentionsEof)
    {γ : List Symbol} (hd : g.Derives [.rule g.first] γ) : Symbol.terminal g.eof ∉ γ := by
  have hall : ∀ x ∈ γ, x ≠ .terminal g.eof ∧ x ≠ .rule g.eofRule ∧ x ≠ .rule g.start := by
    induction hd with
    | refl =>
      intro x hx
      obtain rfl := List.mem_singleton.1 hx
      refine ⟨by simp, fun h => hnot (.inl (Symbol.rule.inj h)), fun h => ?_⟩
      obtain ⟨hone, hsym⟩ := hg.alternative_start
      refine hs g.start _ (@alternative_mem _ _ 0 (by rw [hone]; exact Nat.zero_lt_one)) ?_
      rw [hsym, ← h]
      exact .head _
    | tail _ hp ih =>
      obtain ⟨before, after, A, a, ha⟩ := hp
      obtain ⟨-, heof, hstart⟩ := ih (.rule A) (List.mem_append_right _ (.head _))
      intro x hx
      simp only [List.mem_append] at hx
      rcases hx with (hx | hx) | hx
      · exact ih x (List.mem_append_left _ hx)
      · refine ⟨?_, ?_, ?_⟩ <;> rintro rfl
        · exact hnot (.inr ⟨A, a, ha, .inr ⟨fun h => heof (h ▸ rfl), hx⟩⟩)
        · exact hnot (.inr ⟨A, a, ha, .inl ⟨fun h => hstart (h ▸ rfl), hx⟩⟩)
        · exact hs A a ha hx
      · exact ih x (List.mem_append_right _ (.tail _ hx))
  exact fun hmem => (hall _ hmem).1 rfl

/-- Where the end of input is mentioned only where it belongs, tokens that begin something with it are
derived. -/
theorem Viable.derivesTokens (hg : g.WellFormed) (hs : g.AvoidsStart) (hnot : ¬ g.MentionsEof)
    {last : Token} (hlast : ∀ t ∈ m.matching last, t = g.eof) (h : g.Viable m (toks ++ [last])) :
    g.DerivesTokens m g.first toks := by
  obtain ⟨t, ht, w, hw, rest, hd⟩ := viable_append_singleton_iff.1 h
  obtain rfl := hlast t ht
  have hstart : g.Derives ([.rule g.first] ++ [.rule g.eofRule])
      ((w ++ [g.eof] ++ rest).map Symbol.terminal) := by
    obtain ⟨a, hall, hsym⟩ := hg.start_alternatives
    rcases derives_rule_iff.1 hd with heq | ⟨a', ha', hd⟩
    · cases w <;> simp at heq
    · rw [hall, Array.mem_singleton] at ha'
      subst ha'
      rwa [hsym] at hd
  obtain ⟨γ, δ, hγδ, hγ, hδ⟩ := derives_append_split hstart
  have heof : Symbol.terminal g.eof ∉ γ := eof_notMem_of_derives hg hs hnot hγ
  rw [List.append_assoc, List.map_append] at hγδ
  rcases List.append_cons_eq_append_cases hγδ with ⟨es, rfl, -⟩ | ⟨es, he, hδ'⟩
  · exact absurd (List.mem_append_right _ (.head _)) heof
  · -- nothing but the terminal of the end of input comes from its rule
    have hone : δ = [.terminal g.eof] := by
      obtain ⟨a, hall, hsym⟩ := hg.eof_alternatives
      rcases derives_rule_iff.1 hδ with heq | ⟨a', ha', hδ⟩
      · rw [heq] at hδ'
        cases es <;> simp at hδ'
      · rw [hall, Array.mem_singleton] at ha'
        subst ha'
        rw [hsym] at hδ
        exact derives_terminal_iff.1 hδ
    obtain rfl : es = [] := by
      rw [hone] at hδ'
      cases es with
      | nil => rfl
      | cons x es => simp at hδ'
    rw [List.append_nil] at he
    exact ⟨w, he ▸ hγ, hw⟩

end Grammar

/-! ## The tokens that are refused -/

/-- The error is at the token, and names all terminals that could stand in its place. -/
def ParseError.IsAt (err : ParseError) (g : Grammar) (m : TerminalMatcher) (tokens : TokenStream)
    (i : Nat) : Prop :=
  ∃ tok found near expected, tokens.get? i = some tok ∧
    err = .unexpectedToken tok.position found near expected ∧
    ∀ t, g.MayFollow m (tokens.slice 0 i) t →
      (if t = g.eof then "end of input" else (g.terminal t).display) ∈ expected

namespace Engine

variable {input : ParseInput σ} {start : StackId} {e : Engine σ} {L : Nat} {P : Nat → Tree → Prop}
  {R : NodeId → Tree → Prop} {t : TerminalId} {l : Nat}

theorem mem_expectedNames {states : List StateId} {q : StateId} (hq : q ∈ states)
    (ht : .terminal t ∈ (input.compiled.automaton.state q).expected) :
    (if t = input.grammar.eof then "end of input" else (input.grammar.terminal t).display) ∈
      expectedNames input states := by
  rw [expectedNames, List.mem_eraseDups, List.mem_mergeSort, List.mem_filterMap]
  exact ⟨_, List.mem_flatMap.2 ⟨q, hq, ht⟩, rfl⟩

/-- A terminal that can follow is one that a derivation comes to. -/
theorem comesTo_of_mayFollow (hP : ∀ l t, P l t) (hl : l ≤ input.tokens.length)
    (h : input.grammar.MayFollow input.compiled.matcher (input.tokens.slice 0 l) t) :
    ComesTo input.grammar input.compiled.matcher input.tokens P (.rule input.grammar.start) 0 l t := by
  obtain ⟨w, hw, rest, hd⟩ := h
  rw [List.append_assoc, List.singleton_append] at hd
  obtain ⟨us, β, y, γ, k, hβ, hfits, hspans, hcomes⟩ :=
    hd.exists_comesTo hP hw (TokenStream.spans_slice (Nat.zero_le l) hl)
  obtain ⟨rfl, rfl, rfl⟩ : β = [] ∧ y = .rule input.grammar.start ∧ γ = [] := by
    cases β <;> simp_all
  cases hfits
  obtain rfl := TokenStream.spans_nil_iff.1 hspans
  exact hcomes

/-- The tokens before a stack node begin something that is derived. -/
theorem WorkValid.viable (hr : input.Ready) (hp : input.grammar.Productive) (h : e.WorkValid input)
    {u : StackId} (hu : u < e.stack.nodes.size) (hl : (e.stack.node u).level = l) :
    input.grammar.Viable input.compiled.matcher (input.tokens.slice 0 l) := by
  have hlr := hr.automaton.isLR0
  obtain ⟨α, hwalk, hspells⟩ := h.reached u hu
  rw [hl] at hspells
  obtain ⟨w, hα, hw⟩ := hspells.exists_matching
  obtain ⟨i, hi⟩ := hlr.exists_item (h.state_lt u hu)
  obtain ⟨δ, hd⟩ := hlr.exists_derives_of_walk hwalk hi
  rw [List.append_assoc] at hd
  exact ⟨w, hw, hp.isPrefix hr.wellFormed hd hα⟩

section

variable (hr : input.Ready) (hs : input.grammar.AvoidsStart)
include hr hs

/-- A token that no stack can take begins nothing with those before it. -/
theorem Finished.not_viable (h : Finished input start l e) (htracks : e.Tracks input P R)
    (hP : ∀ l t, P l t) (hl : l < input.tokens.length) (hnil : e.shifts = #[]) :
    ¬ input.grammar.Viable input.compiled.matcher (input.tokens.slice 0 (l + 1)) := by
  intro hviable
  obtain ⟨tok, htok⟩ : ∃ tok, input.tokens.get? l = some tok := ⟨_, Array.getElem?_eq_getElem hl⟩
  rw [← TokenStream.slice_append _ (Nat.zero_le l) (Nat.le_succ l), TokenStream.slice_succ htok]
    at hviable
  obtain ⟨t, ht, hmay⟩ := Grammar.viable_append_singleton_iff.1 hviable
  exact h.shifts_ne_nil hr hs htracks (comesTo_of_mayFollow hP (Nat.le_of_lt hl) hmay)
    ⟨tok, htok, ht⟩ hnil

/-- The failure of a level names what can follow there. -/
theorem Finished.isAt (h : Finished input start L e) (htracks : e.Tracks input P R)
    (hP : ∀ l t, P l t) (hL : l ≤ L) (hl : l < input.tokens.length) :
    (e.failure input l).IsAt input.grammar input.compiled.matcher input.tokens l := by
  obtain ⟨tok, htok⟩ : ∃ tok, input.tokens.get? l = some tok := ⟨_, Array.getElem?_eq_getElem hl⟩
  refine ⟨tok, _, _, _, htok, by rw [failure, htok]; rfl, fun t hmay => ?_⟩
  have hpair : input.compiled.automaton.Expects input.grammar (e.stack.node start).state
      (.rule input.grammar.start) := .inr ⟨h.start_state, rfl⟩
  obtain ⟨v, hv, hlv, hexpects⟩ := h.expectsAt hr hs htracks
    (comesTo_of_mayFollow hP (Nat.le_of_lt hl) hmay) hL h.start_lt h.start_level hpair
  refine mem_expectedNames (List.mem_map.2 ⟨v, ?_, rfl⟩) hexpects
  exact Array.mem_toList_iff.2 ((h.work.indexed.mem_level_iff l v).2 ⟨hv, hlv⟩)

/-- A failure is at a token with which the tokens so far begin nothing that is derived, or at the last
one. -/
theorem FailsAt.isAt (hp : input.grammar.Productive) (ht : input.tokens.EndsOnce)
    (hv : input.RuledBy []) {i : Nat} {err : ParseError} (h : FailsAt input i err) :
    err.IsAt input.grammar input.compiled.matcher input.tokens i ∧
      input.grammar.Viable input.compiled.matcher (input.tokens.slice 0 i) ∧
      (¬ input.grammar.Viable input.compiled.matcher (input.tokens.slice 0 (i + 1)) ∨
        i + 1 = input.tokens.length) := by
  have hP := Tree.admitted_nil
  cases h with
  | stuck h hl hnil =>
    have htracks := h.tracks_of_spares hr (h.spares hr hv)
    obtain ⟨u, hu, hul⟩ := h.inhabited i (Nat.le_refl i)
    exact ⟨h.isAt hr hs htracks hP (Nat.le_refl i) hl, h.work.viable hr hp hu hul,
      .inl (h.not_viable hr hs htracks hP hl hnil)⟩
  | unaccepted h =>
    have hpos := ht.length_pos
    obtain ⟨u, hu, hul⟩ := h.inhabited (input.tokens.length - 1) (Nat.sub_le _ _)
    exact ⟨h.isAt hr hs (h.tracks_of_spares hr (h.spares hr hv)) hP (Nat.sub_le _ _) (by omega),
      h.work.viable hr hp hu hul, .inr (Nat.sub_add_cancel hpos)⟩
  | blank hb _ =>
    have hlr := hr.automaton.isLR0
    have hone := length_of_isBlank ht hb
    obtain ⟨tok, htok⟩ : ∃ tok, input.tokens.get? 0 = some tok :=
      ⟨_, Array.getElem?_eq_getElem (show 0 < input.tokens.length by omega)⟩
    rw [TokenStream.slice_self]
    refine ⟨⟨tok, _, _, _, htok, by rw [htok]; rfl, fun t hmay => ?_⟩, ?_, .inr hone.symm⟩
    · obtain ⟨w, hw, rest, hd⟩ := hmay
      rw [TokenStream.slice_self] at hw
      cases hw
      -- the terminal is a first one of the rule that accepts
      have hfirst : input.grammar.First [.rule input.grammar.start] t :=
        Grammar.begins_iff_first.1 ⟨_, hd⟩
      cases hfirst with
      | skip _ h => cases h
      | rule _ ha hf =>
        obtain ⟨alt, halt, rfl⟩ := Grammar.mem_alternatives_iff.1 ha
        obtain rfl : alt = 0 := by
          have := hr.wellFormed.alternative_start.1
          omega
        exact mem_expectedNames (.head _)
          ((hr.exact hs).expects_of_first hlr hs hf hlr.pos hlr.item_first rfl)
    · obtain ⟨w, hw⟩ := hp.yields_start hr.wellFormed
      exact ⟨[], .nil, w, hw⟩

end

end Engine

/-! ## An example -/

/-- Calls for a grammar that mentions the end of input between an `a` and a `b`. -/
def Grammar.interruptedBuilder : GrammarBuilder :=
  (((GrammarBuilder.new.internRule "pair" .normal).2.literal "a").2.literal "b").2
    |>.addAlternative 2 [.terminal 0, .rule 1, .terminal 1]

namespace Grammar

/-- What they build. -/
def interrupted : Grammar where
  rules := #[⟨startRuleName, .start, #[⟨[.rule 2, .rule 1], 2, none⟩], false⟩,
    ⟨"Token-EOF", .tokenClass, #[⟨[.terminal 2], 1, none⟩], false⟩,
    ⟨"pair", .normal, #[⟨[.terminal 0, .rule 1, .terminal 1], 3, none⟩], false⟩]
  terminals := #[.ofText "a", .ofText "b", .ofClass eofClass ""]
  start := 0
  first := 2
  eofRule := 1
  eof := 2

theorem interrupted_built : interrupted.Built := by
  refine ⟨interruptedBuilder, ?_, by decide +kernel⟩
  have h := ((GrammarBuilder.Made.new.internRule "pair" .normal).literal "a").literal "b"
  refine h.addAlternative 2 [.terminal 0, .rule 1, .terminal 1] fun t ht => ?_
  obtain rfl | rfl : t = 0 ∨ t = 1 := by simpa using ht
  all_goals decide +kernel

theorem interrupted_avoidsStart : interrupted.AvoidsStart := forall_alternatives_of_lt (by decide)

theorem interrupted_derives_eof : interrupted.Derives [.rule 1] [.terminal 2] :=
  derives_rule (@alternative_mem _ _ 0 (by decide)) (.refl _)

theorem interrupted_derives : interrupted.Derives [.rule 2] ([0, 2, 1].map Symbol.terminal) :=
  derives_rule (@alternative_mem _ _ 0 (by decide))
    ((interrupted_derives_eof.append_right [.terminal 1]).append_left [.terminal 0])

theorem interrupted_productive : interrupted.Productive := by
  have hmentioned : ∀ A, ∀ a ∈ (interrupted.rule A).alternatives,
      ∀ x ∈ a.symbols, x = .rule 1 ∨ x = .rule 2 ∨ x.rule?.isNone :=
    forall_alternatives_of_lt (by decide)
  intro A a ha B hB
  rcases hmentioned A a ha _ hB with h | h | h
  · obtain rfl := Symbol.rule.inj h
    exact ⟨[2], interrupted_derives_eof⟩
  · obtain rfl := Symbol.rule.inj h
    exact ⟨_, interrupted_derives⟩
  · cases h

end Grammar

/-! ## Failures of a parser -/

namespace Parser

variable {g : Grammar} {lexer : LexerDescription} {c : CompiledGrammar} {config : ParserConfig}
  {tokens : TokenStream} {s : σ}

/-- With fewer than three items a pair that the end of input interrupts is not parsed. -/
theorem interrupted_fails {n : Nat} (hn : n < 3) : ∃ c,
    CompiledGrammar.ofGrammar .interrupted .empty = .ok c ∧
    c.matcher = ⟨#[.text "a", .text "b", .never], 2⟩ ∧
    WithinLimits ⟨c, plainConfig, ([] : List (Disambiguator Unit))⟩ (.items n) () ∧
    ∃ err, (parseTokens ⟨c, plainConfig, ([] : List (Disambiguator Unit))⟩ (.items n) ()).1 =
      .error err := by
  have hmatcher : TerminalMatcher.ofGrammar .interrupted = .ok ⟨#[.text "a", .text "b", .never], 2⟩ := rfl
  obtain ⟨c, hc, hm, hsize⟩ := CompiledGrammar.exists_ofGrammar Grammar.interrupted_built (by cbv) hmatcher
  obtain ⟨ht, hcontent, hlen⟩ := TokenStream.items_endsOnce n
  have hstates : (canonicalCollection Grammar.interrupted).size = 7 := by cbv
  refine ⟨c, hc, hm, withinLimits_of_le Grammar.interrupted_built hc ht ?_ ?_, ?_⟩
  · rw [hlen, hsize, hstates, show plainConfig.maxStackNodes = 1000000 from rfl]
    omega
  · rw [hlen, hsize, hstates, GraphStack.idLimit]
    omega
  cases hrun : (parseTokens ⟨c, plainConfig, ([] : List (Disambiguator Unit))⟩ (.items n) ()).1 with
  | error err => exact ⟨err, rfl⟩
  | ok f =>
    -- no derivation is shorter than the only alternative
    obtain ⟨w, hd, hw⟩ := derivesTokens_of_ok Grammar.interrupted_built hc ht hrun
    have hwlen := hw.length_eq
    rw [hcontent, List.length_replicate] at hwlen
    rcases Grammar.derives_rule_iff.1 hd with heq | ⟨a, ha, hd⟩
    · cases w <;> simp at heq
    · have hne : ∀ A, ∀ a ∈ (Grammar.interrupted.rule A).alternatives, a.symbols ≠ [] :=
        Grammar.forall_alternatives_of_lt (by decide)
      have hle := Grammar.Derives.length_le hne hd
      have hthree : ∀ a ∈ (Grammar.interrupted.rule 2).alternatives, a.symbols.length = 3 := by decide
      rw [hthree a ha, List.length_map] at hle
      omega

/-- Without precedence, greedy lists and disambiguators a parse that fails does so at the first token
with which the tokens so far begin nothing that is derived, and names every terminal that could stand
in its place. Only if the end of input is mentioned elsewhere than where it belongs there may be no such
token, and then the failure is at the last one. -/
theorem fails_at_impossible (hg : g.Built) (hs : g.AvoidsStart) (hp : g.Productive)
    (hc : CompiledGrammar.ofGrammar g lexer = .ok c) (hprecedence : config.precedence = false)
    (hgreedy : config.greedy = false) (ht : tokens.EndsOnce)
    (hlimits : WithinLimits ⟨c, config, []⟩ tokens s) {err : ParseError}
    (herr : (parseTokens ⟨c, config, []⟩ tokens s).1 = .error err) :
    ∃ i < tokens.length, err.IsAt g c.matcher tokens i ∧ g.Viable c.matcher (tokens.slice 0 i) ∧
      (¬ g.Viable c.matcher (tokens.slice 0 (i + 1)) ∨ g.MentionsEof ∧ i + 1 = tokens.length) := by
  have hok := fun hd => exists_ok hg hs hc hprecedence hgreedy ht hlimits hd
  obtain ⟨rfl, -⟩ := CompiledGrammar.parts_of_ofGrammar hc
  obtain ⟨hlength, hstack⟩ := hlimits
  have hr := CompiledGrammar.ready hg hc config ([] : List (Disambiguator σ)) tokens
  have hv : ParseInput.RuledBy ⟨c, config, ([] : List (Disambiguator σ)), tokens⟩ [] :=
    ⟨hprecedence, hgreedy, .nil⟩
  obtain ⟨last, hlast, heof⟩ := CompiledGrammar.endsWith hc ht config ([] : List (Disambiguator σ))
  rw [parseTokens, ht.ensureEof_eq] at hstack herr hok
  obtain ⟨i, err', hfails, hrun⟩ := Engine.run_failsAt hr ht hv hlength hstack (by
    rintro ⟨f, hf⟩
    cases hf.symm.trans herr)
  obtain rfl := Except.error.inj (herr.symm.trans hrun)
  obtain ⟨hat, hviable, hcase⟩ := hfails.isAt hr hs hp ht hv
  have hlt : i < tokens.length := by
    obtain ⟨tok, _, _, _, htok, -⟩ := hat
    exact (Array.getElem?_eq_some_iff.1 htok).1
  refine ⟨i, hlt, hat, hviable, hcase.elim .inl fun hi => ?_⟩
  by_cases hmentions : c.grammar.MentionsEof
  · exact .inr ⟨hmentions, hi⟩
  · -- the whole stream would be derived
    refine .inl fun hall => ?_
    obtain rfl : i = tokens.length - 1 := Nat.eq_sub_of_add_eq hi
    rw [← TokenStream.slice_append _ (Nat.zero_le _) (Nat.le_succ _), TokenStream.slice_succ hlast] at hall
    obtain ⟨f, hf⟩ := hok (hall.derivesTokens hr.wellFormed hs hmentions (ht.matching_last hlast heof))
    cases hf.symm.trans herr

theorem fails_at_impossible_interrupted : ∃ c err,
    CompiledGrammar.ofGrammar .interrupted .empty = .ok c ∧
    (parseTokens ⟨c, plainConfig, ([] : List (Disambiguator Unit))⟩ (.items 2) ()).1 = .error err ∧
    ∃ i < (TokenStream.items 2).length, err.IsAt .interrupted c.matcher (.items 2) i ∧
      Grammar.interrupted.Viable c.matcher ((TokenStream.items 2).slice 0 i) ∧
      (¬ Grammar.interrupted.Viable c.matcher ((TokenStream.items 2).slice 0 (i + 1)) ∨
        Grammar.interrupted.MentionsEof ∧ i + 1 = (TokenStream.items 2).length) := by
  obtain ⟨c, hc, -, hlimits, err, herr⟩ := interrupted_fails (n := 2) (by decide)
  exact ⟨c, err, hc, herr, fails_at_impossible Grammar.interrupted_built Grammar.interrupted_avoidsStart
    Grammar.interrupted_productive hc rfl rfl (TokenStream.items_endsOnce 2).1 hlimits herr⟩

/-- A parse may fail although no token is impossible. -/
theorem exists_failure_without_impossible : ∃ c err,
    CompiledGrammar.ofGrammar .interrupted .empty = .ok c ∧ Grammar.interrupted.Built ∧
    Grammar.interrupted.AvoidsStart ∧ Grammar.interrupted.Productive ∧ (TokenStream.items 1).EndsOnce ∧
    WithinLimits ⟨c, plainConfig, ([] : List (Disambiguator Unit))⟩ (.items 1) () ∧
    (parseTokens ⟨c, plainConfig, ([] : List (Disambiguator Unit))⟩ (.items 1) ()).1 = .error err ∧
    ¬ ∃ i < (TokenStream.items 1).length,
      ¬ Grammar.interrupted.Viable c.matcher ((TokenStream.items 1).slice 0 (i + 1)) := by
  obtain ⟨c, hc, hm, hlimits, err, herr⟩ := interrupted_fails (n := 1) (by decide)
  obtain ⟨ht, -, hlen⟩ := TokenStream.items_endsOnce 1
  refine ⟨c, err, hc, Grammar.interrupted_built, Grammar.interrupted_avoidsStart,
    Grammar.interrupted_productive, ht, hlimits, herr, ?_⟩
  rintro ⟨i, hi, hnot⟩
  refine hnot ?_
  have hderives : Grammar.interrupted.Derives [.rule 0] ([0, 2, 1, 2].map Symbol.terminal) :=
    Grammar.derives_rule (@Grammar.alternative_mem _ _ 0 (by decide))
      (Grammar.derives_append Grammar.interrupted_derives Grammar.interrupted_derives_eof)
  rw [hm]
  obtain rfl | rfl : i = 0 ∨ i = 1 := by omega
  · exact ⟨[0], .cons (by decide) .nil, [2, 1, 2], hderives⟩
  · exact ⟨[0, 2], .cons (by decide) (.cons (by decide) .nil), [1, 2], hderives⟩

end Parser

end ParseForest
