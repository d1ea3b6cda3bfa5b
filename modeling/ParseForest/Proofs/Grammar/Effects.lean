import ParseForest.Proofs.Grammar.Table

/-!
# What the calls of a builder do

One lemma for each call says which changes it makes to the listing of the builder: none for a call that only
hands out numbers, one for a call that gives a rule right-hand sides. The numbers themselves are in none of
these changes.
-/

namespace ParseForest

namespace GrammarBuilder

variable {b b' b'' : GrammarBuilder} {s : Symbol} {x : NamedSymbol} {symbols : List Symbol}
  {alt : List NamedSymbol} {id : RuleId} {name : String}

/-! ## Calls that change no right-hand side -/

/-- Drafts that only gain or lose what the listing does not show. -/
theorem Resolved.of_rules_eq (h : b.Resolved)
    (hd : ∀ id : RuleId, b'.drafts[id]?.map RuleDraft.rule = b.drafts[id]?.map RuleDraft.rule)
    (ht : ∀ (id : TerminalId) t, b.terminals[id]? = some t →
      ∃ t', b'.terminals[id]? = some t' ∧ t'.atom = t.atom)
    (hi : ∀ {i j : TerminalId} {t t' : Terminal}, b'.terminals[i]? = some t →
      b'.terminals[j]? = some t' → t.atom = t'.atom → i = j)
    (hf : ∀ id, b'.first = some id → ∃ name, b.named? (.rule id) = some (.rule name)) :
    b'.Resolved ∧ b.Grows b' ∧ b'.listing = b.listing := by
  have hrule : ∀ {id : RuleId} {d' : RuleDraft}, b'.drafts[id]? = some d' →
      ∃ d, b.drafts[id]? = some d ∧ d.rule = d'.rule := fun {id d'} hd' => by
    have := hd id
    rw [hd', Option.map_some] at this
    exact Option.map_eq_some_iff.1 this.symm
  have hgrows : b.Grows b' := by
    intro s x hs
    cases s with
    | rule id =>
      obtain ⟨d, hdraft, rfl⟩ := Option.map_eq_some_iff.1 hs
      have hid := hd id
      rw [hdraft, Option.map_some] at hid
      obtain ⟨d', hd', hrule'⟩ := Option.map_eq_some_iff.1 hid
      simp [named?, hd', hrule']
    | terminal id =>
      obtain ⟨t, hterm, rfl⟩ := Option.map_eq_some_iff.1 hs
      obtain ⟨t', ht', hatom⟩ := ht id t hterm
      simp [named?, ht', hatom]
  have hresolved : b'.Resolved := by
    refine ⟨hgrows _ _ h.start, hgrows _ _ h.eofRule, fun id hid => ?_, fun hi hj he => ?_, hi,
      fun hi a ha => ?_, fun hi => ?_⟩
    · obtain ⟨name, hname⟩ := hf id hid
      exact ⟨name, hgrows _ _ hname⟩
    · obtain ⟨d, hd, hr⟩ := hrule hi
      obtain ⟨d', hd', hr'⟩ := hrule hj
      exact h.name_inj hd hd' (by rw [hr, hr', he])
    · obtain ⟨d, hd, hr⟩ := hrule hi
      obtain ⟨alt, halt⟩ := h.stands hd a (hr ▸ ha)
      exact ⟨alt, halt.mono hgrows⟩
    · obtain ⟨d, hd, hr⟩ := hrule hi
      exact hr ▸ h.nodup hd
  refine ⟨hresolved, hgrows, funext fun name => ?_⟩
  by_cases hname : ∃ d' ∈ b'.drafts, d'.rule.name = name
  · obtain ⟨d', hmem, rfl⟩ := hname
    obtain ⟨id, hd'⟩ := Array.mem_iff_getElem?.1 hmem
    obtain ⟨d, hd, hr⟩ := hrule hd'
    rw [hresolved.listing_eq hd', h.sides_eq hd hgrows (by rw [hr]), ← h.listing_eq hd, hr]
  · have hnone : ∀ d ∈ b.drafts, d.rule.name ≠ name := by
      rintro d hmem rfl
      obtain ⟨id, hdraft⟩ := Array.mem_iff_getElem?.1 hmem
      have hid := hd id
      rw [hdraft, Option.map_some] at hid
      obtain ⟨d', hd', hr⟩ := Option.map_eq_some_iff.1 hid
      exact hname ⟨d', Array.mem_of_getElem? hd', by rw [hr]⟩
    rw [listing_eq_nil hnone, listing_eq_nil fun d hd he => hname ⟨d, hd, he⟩]

theorem Resolved.effect_of_rules_eq (h : b.Resolved)
    (hd : ∀ id : RuleId, b'.drafts[id]?.map RuleDraft.rule = b.drafts[id]?.map RuleDraft.rule)
    (ht : ∀ (id : TerminalId) t, b.terminals[id]? = some t →
      ∃ t', b'.terminals[id]? = some t' ∧ t'.atom = t.atom)
    (hi : ∀ {i j : TerminalId} {t t' : Terminal}, b'.terminals[i]? = some t →
      b'.terminals[j]? = some t' → t.atom = t'.atom → i = j)
    (hf : b'.first = b.first) (hc : b'.tokenClasses = b.tokenClasses) : Effect b [] b' :=
  let ⟨hresolved, hgrows, hlisting⟩ := h.of_rules_eq hd ht hi (hf ▸ h.first)
  ⟨hresolved, hgrows, hlisting, hc, fun _ h => hf.trans h⟩

/-- A call that only touches the list of token classes. -/
theorem Resolved.of_eq (h : b.Resolved) (hd : b'.drafts = b.drafts)
    (ht : b'.terminals = b.terminals) (hf : b'.first = b.first) :
    b'.Resolved ∧ b.Grows b' ∧ b'.listing = b.listing :=
  h.of_rules_eq (fun _ => by rw [hd]) (fun id t hid => ⟨t, by rw [ht]; exact hid, rfl⟩)
    (ht ▸ h.atom_inj) (hf ▸ h.first)

theorem Resolved.declareClass (h : b.Resolved) (name pattern : String) :
    (b.declareClass name pattern).Resolved ∧ (b.declareClass name pattern).listing = b.listing := by
  rw [GrammarBuilder.declareClass]
  split
  · exact ⟨h, rfl⟩
  · obtain ⟨hresolved, -, hlisting⟩ := @Resolved.of_eq b
      { b with tokenClasses := b.tokenClasses.push (name, pattern) } h rfl rfl rfl
    exact ⟨hresolved, hlisting⟩

/-- Any rule that exists may be chosen as the first one. -/
theorem Resolved.setFirst (h : b.Resolved) (hid : b.named? (.rule id) = some (.rule name)) :
    (b.setFirst id).Resolved ∧ b.Grows (b.setFirst id) ∧ (b.setFirst id).listing = b.listing :=
  h.of_rules_eq (fun _ => rfl) (fun _ t ht => ⟨t, ht, rfl⟩) h.atom_inj
    fun _ hf => ⟨name, Option.some.inj hf ▸ hid⟩

theorem Resolved.effect_setFirst (h : b.Resolved) (hid : b.named? (.rule id) = some (.rule name))
    (hnone : b.first = none) : Effect b [] (b.setFirst id) :=
  let ⟨hresolved, hgrows, hlisting⟩ := h.setFirst hid
  ⟨hresolved, hgrows, hlisting, rfl, fun _ hf => absurd (hnone.symm.trans hf) (by simp)⟩

/-- A terminal is found or is new, and is the one that was asked for. -/
theorem Resolved.effect_internTerminal (h : b.Resolved) (t : Terminal) :
    Effect b [] (b.internTerminal t).2 ∧
      (b.internTerminal t).2.named? (.terminal (b.internTerminal t).1) = some (.terminal t.atom) := by
  rw [internTerminal]
  split
  · rename_i id hid
    obtain ⟨hlt, hsame, -⟩ := Array.findIdx?_eq_some_iff_getElem.1 hid
    refine ⟨.refl h, ?_⟩
    simp [named?, hlt, Terminal.same_iff.1 hsame]
  · rename_i hnone
    have hfresh : ∀ {i : TerminalId} {t' : Terminal}, b.terminals[i]? = some t' → t'.atom ≠ t.atom :=
      fun {i t'} hi he => by
        have := Array.findIdx?_eq_none_iff.1 hnone t' (Array.mem_of_getElem? hi)
        simp [Terminal.same_iff.2 he] at this
    refine ⟨h.effect_of_rules_eq (fun _ => rfl) (fun id t' ht' => ⟨t', ?_, rfl⟩)
      (fun {i j t' t''} hi hj he => ?_) rfl rfl, ?_⟩
    · have hlt := (Array.getElem?_eq_some_iff.1 ht').1
      simp [Array.getElem?_push, Nat.ne_of_lt hlt, ht']
    · rcases Array.getElem?_push_cases (a := b.terminals) hi with hold | ⟨rfl, rfl⟩ <;>
        rcases Array.getElem?_push_cases (a := b.terminals) hj with hold' | ⟨rfl, rfl⟩
      · exact h.atom_inj hold hold' he
      · exact absurd he (hfresh hold)
      · exact absurd he.symm (hfresh hold')
      · rfl
    · simp [named?]

/-- A rule is found or is new, and is the one that was asked for. -/
theorem Resolved.effect_internRule (h : b.Resolved) (name : String) (kind : RuleKind) :
    Effect b [] (b.internRule name kind).2 ∧
      (b.internRule name kind).2.named? (.rule (b.internRule name kind).1) = some (.rule name) := by
  rw [internRule]
  split
  · rename_i id hid
    obtain ⟨hlt, hname, -⟩ := Array.findIdx?_eq_some_iff_getElem.1 hid
    refine ⟨.refl h, ?_⟩
    simp [named?, hlt, eq_of_beq hname]
  · rename_i hnone
    have hfresh : ∀ {id : RuleId} {d : RuleDraft}, b.drafts[id]? = some d → d.rule.name ≠ name :=
      fun {id d} hd he => by
        have := Array.findIdx?_eq_none_iff.1 hnone d (Array.mem_of_getElem? hd)
        simp [he] at this
    have hkeep : ∀ {id : RuleId} {d : RuleDraft}, b.drafts[id]? = some d →
        (b.drafts.push ⟨.named name kind, none⟩)[id]? = some d := by
      intro id d hd
      have hlt := (Array.getElem?_eq_some_iff.1 hd).1
      simp [Array.getElem?_push, Nat.ne_of_lt hlt, hd]
    have hgrows : b.Grows { b with drafts := b.drafts.push ⟨.named name kind, none⟩ } := by
      intro s x hs
      cases s with
      | rule id =>
        obtain ⟨d, hd, rfl⟩ := Option.map_eq_some_iff.1 hs
        simp [named?, hkeep hd]
      | terminal id => exact hs
    have hresolved : Resolved { b with drafts := b.drafts.push ⟨.named name kind, none⟩ } := by
      refine ⟨hgrows _ _ h.start, hgrows _ _ h.eofRule, fun id hid => ?_, fun hi hj he => ?_, h.atom_inj,
        fun hi a ha => ?_, fun hi => ?_⟩
      · obtain ⟨n, hn⟩ := h.first id hid
        exact ⟨n, hgrows _ _ hn⟩
      · rcases Array.getElem?_push_cases hi with hi | ⟨rfl, rfl⟩ <;>
          rcases Array.getElem?_push_cases hj with hj | ⟨rfl, rfl⟩
        · exact h.name_inj hi hj he
        · exact absurd he (hfresh hi)
        · exact absurd he.symm (hfresh hj)
        · rfl
      · rcases Array.getElem?_push_cases hi with hi | ⟨rfl, rfl⟩
        · obtain ⟨alt, halt⟩ := h.stands hi a ha
          exact ⟨alt, halt.mono hgrows⟩
        · simp [Rule.named] at ha
      · rcases Array.getElem?_push_cases hi with hi | ⟨rfl, rfl⟩
        · exact h.nodup hi
        · simp [Rule.named]
    refine ⟨⟨hresolved, hgrows, funext fun n => ?_, rfl, fun _ hf => hf⟩, by simp [named?, Rule.named]⟩
    by_cases hn : ∃ d ∈ b.drafts, d.rule.name = n
    · obtain ⟨d, hmem, rfl⟩ := hn
      obtain ⟨id, hd⟩ := Array.mem_iff_getElem?.1 hmem
      rw [hresolved.listing_eq (hkeep hd), h.sides_eq hd hgrows rfl, ← h.listing_eq hd]
      rfl
    · rw [Change.amendAll_nil, listing_eq_nil fun d hd he => hn ⟨d, hd, he⟩]
      by_cases hnew : name = n
      · -- the new rule has no right-hand side
        subst hnew
        have hlast : (b.drafts.push ⟨.named name kind, none⟩)[b.drafts.size]? =
            some ⟨.named name kind, none⟩ := by simp
        exact (hresolved.listing_eq hlast).trans (by simp [sides, Rule.named])
      · refine listing_eq_nil fun d hd he => ?_
        rcases Array.mem_push.1 hd with hd | rfl
        · exact hn ⟨d, hd, he⟩
        · exact hnew he

theorem Resolved.effect_mention (h : b.Resolved) (name : String) (place : Location) :
    Effect b [] (b.mention name place).2 ∧
      (b.mention name place).2.named? (.rule (b.mention name place).1) = some (.rule name) := by
  obtain ⟨heffect, hnamed⟩ := h.effect_internRule name (kindOfName name)
  have hlast : Effect (b.internRule name (kindOfName name)).2 [] (b.mention name place).2 := by
    refine heffect.resolved.effect_of_rules_eq (fun id => ?_) (fun id t ht => ⟨t, ht, rfl⟩)
      heffect.resolved.atom_inj rfl rfl
    simp only [mention, Array.getElem?_modify]
    split
    · rw [Option.map_map]
      rfl
    · rfl
  exact ⟨heffect.trans hlast, hlast.grows _ _ hnamed⟩

theorem Resolved.effect_setLiteral (h : b.Resolved) {id : TerminalId} {l l' : Literal}
    (hl : b.terminals[id]? = some (.literal l)) (htext : l'.text = l.text) :
    Effect b [] (b.setLiteral id l') := by
  obtain ⟨hlt, hget⟩ := Array.getElem?_eq_some_iff.1 hl
  have hatom : ∀ i : TerminalId,
      (b.setLiteral id l').terminals[i]?.map Terminal.atom = b.terminals[i]?.map Terminal.atom := by
    intro i
    simp only [setLiteral, Array.getElem?_setIfInBounds]
    by_cases hid : id = i
    · subst hid
      simp [hlt, hget, Terminal.atom, htext]
    · simp [hid]
  refine h.effect_of_rules_eq (fun _ => rfl) (fun i t ht => ?_) (fun {i j t t'} hi hj he => ?_) rfl rfl
  · have := hatom i
    rw [ht, Option.map_some] at this
    exact Option.map_eq_some_iff.1 this
  · have hi' := hatom i
    have hj' := hatom j
    rw [hi, Option.map_some] at hi'
    rw [hj, Option.map_some] at hj'
    obtain ⟨t₀, ht₀, heq⟩ := Option.map_eq_some_iff.1 hi'.symm
    obtain ⟨t₁, ht₁, heq'⟩ := Option.map_eq_some_iff.1 hj'.symm
    exact h.atom_inj ht₀ ht₁ (heq.trans (he.trans heq'.symm))

theorem Resolved.effect_annotateAssociativity (h : b.Resolved) {id : TerminalId} {l l' : Literal}
    (hl : b.terminals[id]? = some (.literal l)) (htext : l'.text = l.text)
    (associativity : Option Associativity) (conflict : GrammarError) :
    Effect b [] (annotate.annotateAssociativity b id l' associativity conflict).2 := by
  rw [annotate.annotateAssociativity.eq_def]
  split
  · exact .refl h
  · split
    · split
      · exact h.effect_setLiteral hl htext
      · exact .refl h
    · rename_i a _ _
      have hset := @Resolved.effect_setLiteral b h id l { l' with associativity := a } hl htext
      exact hset.trans (hset.resolved.effect_of_rules_eq (fun _ => rfl) (fun _ t ht => ⟨t, ht, rfl⟩)
        hset.resolved.atom_inj rfl rfl)

/-- Annotations leave a literal the literal that it is. -/
theorem Resolved.effect_annotate (h : b.Resolved) (id : TerminalId) (precedence : Option Nat)
    (associativity : Option Associativity) (place : Location) :
    Effect b [] (b.annotate id precedence associativity place).2 := by
  rw [annotate]
  split
  · rename_i l hl
    dsimp only
    split
    · split
      · exact h.effect_annotateAssociativity hl rfl _ _
      · exact .refl h
    · rename_i p _
      have hset := @Resolved.effect_setLiteral b h id l { l with precedence := some p } hl rfl
      have hlt := (Array.getElem?_eq_some_iff.1 hl).1
      exact hset.trans (@Resolved.effect_annotateAssociativity _ hset.resolved id
        { l with precedence := some p } _ (by simp [setLiteral, hlt]) rfl _ _)
    · exact h.effect_annotateAssociativity hl rfl _ _
  · exact .refl h

/-! ## Calls that change right-hand sides -/

/-- The draft of one rule has been replaced by another one of the same name. -/
structure Redrafts (b : GrammarBuilder) (id : RuleId) (d d' : RuleDraft) (b' : GrammarBuilder) :
    Prop where
  draft : b.drafts[id]? = some d
  name_eq : d'.rule.name = d.rule.name
  redraft : b'.drafts[id]? = some d'
  other : ∀ {i : RuleId}, i ≠ id → b'.drafts[i]? = b.drafts[i]?
  terminals_eq : b'.terminals = b.terminals
  first_eq : b'.first = b.first
  classes_eq : b'.tokenClasses = b.tokenClasses

section Redrafting

variable {d d' : RuleDraft}

/-- A draft of the later builder stands where one of the same name stood. -/
theorem Redrafts.exists_draft (hr : Redrafts b id d d' b') {i : RuleId} {e : RuleDraft}
    (he : b'.drafts[i]? = some e) : ∃ e₀, b.drafts[i]? = some e₀ ∧ e₀.rule.name = e.rule.name := by
  by_cases hi : i = id
  · subst hi
    obtain rfl := Option.some.inj (hr.redraft.symm.trans he)
    exact ⟨d, hr.draft, hr.name_eq.symm⟩
  · exact ⟨e, hr.other hi ▸ he, rfl⟩

theorem Redrafts.grows (hr : Redrafts b id d d' b') : b.Grows b' := by
  intro s x hs
  cases s with
  | rule i =>
    by_cases hi : i = id
    · subst hi
      simpa [named?, hr.redraft, hr.draft, hr.name_eq] using hs
    · rw [named?, hr.other hi]
      exact hs
  | terminal i =>
    rw [named?, hr.terminals_eq]
    exact hs

theorem Redrafts.resolved (hr : Redrafts b id d d' b') (h : b.Resolved)
    (hstands : ∀ a ∈ d'.rule.alternatives, ∃ alt, b.Stands a.symbols alt)
    (hnodup : (d'.rule.alternatives.toList.map Alternative.symbols).Nodup) : b'.Resolved := by
  refine ⟨hr.grows _ _ h.start, hr.grows _ _ h.eofRule, fun i hi => ?_, fun hi hj he => ?_,
    hr.terminals_eq ▸ h.atom_inj, fun {i e} hi a ha => ?_, fun {i e} hi => ?_⟩
  · obtain ⟨n, hn⟩ := h.first i (hr.first_eq ▸ hi)
    exact ⟨n, hr.grows _ _ hn⟩
  · obtain ⟨e, he₀, hen⟩ := hr.exists_draft hi
    obtain ⟨e', he₀', hen'⟩ := hr.exists_draft hj
    exact h.name_inj he₀ he₀' (by rw [hen, hen', he])
  · by_cases hne : i = id
    · subst hne
      obtain rfl := Option.some.inj (hr.redraft.symm.trans hi)
      obtain ⟨alt, halt⟩ := hstands a ha
      exact ⟨alt, halt.mono hr.grows⟩
    · obtain ⟨alt, halt⟩ := h.stands (hr.other hne ▸ hi) a ha
      exact ⟨alt, halt.mono hr.grows⟩
  · by_cases hne : i = id
    · subst hne
      obtain rfl := Option.some.inj (hr.redraft.symm.trans hi)
      exact hnodup
    · exact h.nodup (hr.other hne ▸ hi)

/-- The other rules keep their right-hand sides. -/
theorem Redrafts.listing_ne (hr : Redrafts b id d d' b') (h : b.Resolved) (h' : b'.Resolved)
    {n : String} (hn : n ≠ d.rule.name) : b'.listing n = b.listing n := by
  by_cases hold : ∃ e ∈ b.drafts, e.rule.name = n
  · obtain ⟨e, hmem, rfl⟩ := hold
    obtain ⟨i, he⟩ := Array.mem_iff_getElem?.1 hmem
    have hi : i ≠ id := by
      rintro rfl
      obtain rfl := Option.some.inj (hr.draft.symm.trans he)
      exact hn rfl
    rw [h.listing_eq he, ← h.sides_eq he hr.grows rfl, h'.listing_eq ((hr.other hi).trans he)]
  · rw [listing_eq_nil fun e he hen => hold ⟨e, he, hen⟩]
    refine listing_eq_nil fun e he hen => ?_
    obtain ⟨i, hi⟩ := Array.mem_iff_getElem?.1 he
    obtain ⟨e₀, he₀, hen₀⟩ := hr.exists_draft hi
    exact hold ⟨e₀, Array.mem_of_getElem? he₀, hen₀.trans hen⟩

/-- The right-hand sides of one rule are replaced by others, which are made of symbols that exist. -/
theorem Resolved.effect_of_redrafts (h : b.Resolved) (hr : Redrafts b id d d' b') {c : Change}
    (hstands : ∀ a ∈ d'.rule.alternatives, ∃ alt, b.Stands a.symbols alt)
    (hnodup : (d'.rule.alternatives.toList.map Alternative.symbols).Nodup)
    (hlisting : c.amend b.listing = Function.update b.listing d.rule.name (b.sides d')) :
    Effect b [c] b' := by
  have hresolved := hr.resolved h hstands hnodup
  have hsides : b'.sides d' = b.sides d' := by
    refine List.map_congr_left fun a ha => ?_
    obtain ⟨alt, halt⟩ := hstands a (Array.mem_toList_iff.1 ha)
    rw [halt.filterMap_eq, (halt.mono hr.grows).filterMap_eq]
  refine ⟨hresolved, hr.grows, funext fun n => ?_, hr.classes_eq, fun _ h => hr.first_eq.trans h⟩
  rw [Change.amendAll_singleton, hlisting]
  by_cases hn : n = d.rule.name
  · subst hn
    rw [Function.update_self, ← hsides, ← hresolved.listing_eq hr.redraft, hr.name_eq]
  · rw [Function.update_of_ne hn, hr.listing_ne h hresolved hn]

end Redrafting

theorem Resolved.isDefined_iff (h : b.Resolved) (hid : b.named? (.rule id) = some (.rule name)) :
    b.isDefined id = true ↔ b.listing name ≠ [] := by
  obtain ⟨d, hd, rfl⟩ := named?_rule_iff.1 hid
  simp [isDefined, hd, h.listing_eq hd, sides]

theorem Resolved.effect_setOnly (h : b.Resolved) (hid : b.named? (.rule id) = some (.rule name))
    (hs : b.Stands symbols alt) : Effect b [.replace name [alt]] (b.setOnly id symbols) := by
  obtain ⟨d, hd, rfl⟩ := named?_rule_iff.1 hid
  have hr : Redrafts b id d { d with rule := { d.rule with alternatives := #[.ofSymbols symbols] } }
      (b.setOnly id symbols) :=
    ⟨hd, rfl, by simp [setOnly, Array.getElem?_modify, hd],
      fun hi => by simp [setOnly, Array.getElem?_modify, hi.symm], rfl, rfl, rfl⟩
  refine h.effect_of_redrafts hr (fun a ha => ⟨alt, ?_⟩) (by simp) ?_
  · obtain rfl : a = .ofSymbols symbols := by simpa using ha
    exact hs
  · simp [Change.amend, sides, Alternative.ofSymbols, hs.filterMap_eq]

/-- The rule is given an alternative unless it has it already. -/
theorem Resolved.effect_pushAlternative (h : b.Resolved) {d : RuleDraft} (hd : b.drafts[id]? = some d)
    (hs : b.Stands symbols alt) : Effect b [.define d.rule.name [alt]]
      (if d.rule.alternatives.any (·.symbols == symbols) then b
      else { b with drafts := b.drafts.setIfInBounds id { d with rule := { d.rule with
        alternatives := d.rule.alternatives.push (.ofSymbols symbols) } } }) := by
  have hmem : alt ∈ b.sides d ↔ ∃ a ∈ d.rule.alternatives, a.symbols = symbols := by
    rw [h.mem_sides_iff hd]
    refine exists_congr fun a => and_congr_right fun _ => ⟨fun ha => h.stands_inj ha hs, ?_⟩
    rintro rfl
    exact hs
  have hjoin : Change.join (b.sides d) [alt] = if alt ∈ b.sides d then b.sides d
    else b.sides d ++ [alt] := rfl
  split
  · rename_i hany
    obtain ⟨a, ha, he⟩ := Array.any_eq_true'.1 hany
    refine ⟨h, .refl b, ?_, rfl, fun _ hf => hf⟩
    rw [Change.amendAll_singleton, Change.amend, h.listing_eq hd, hjoin,
      if_pos (hmem.2 ⟨a, ha, eq_of_beq he⟩), ← h.listing_eq hd, Function.update_eq_self]
  · rename_i hnew
    have hlt := (Array.getElem?_eq_some_iff.1 hd).1
    have hnot : ¬ ∃ a ∈ d.rule.alternatives, a.symbols = symbols := by
      rintro ⟨a, ha, he⟩
      exact hnew (Array.any_eq_true'.2 ⟨a, ha, beq_iff_eq.2 he⟩)
    have hr : Redrafts b id d { d with rule := { d.rule with
          alternatives := d.rule.alternatives.push (.ofSymbols symbols) } }
        { b with drafts := b.drafts.setIfInBounds id { d with rule := { d.rule with
          alternatives := d.rule.alternatives.push (.ofSymbols symbols) } } } :=
      ⟨hd, rfl, by simp [hlt], fun hi => by simp [hi.symm], rfl, rfl, rfl⟩
    refine h.effect_of_redrafts hr (fun a ha => ?_) ?_ ?_
    · rcases Array.mem_push.1 ha with ha | rfl
      · exact h.stands hd a ha
      · exact ⟨alt, hs⟩
    · simp only [Array.toList_push, List.map_append, List.map_cons, List.map_nil]
      refine List.nodup_append.2 ⟨h.nodup hd, List.nodup_singleton _, ?_⟩
      rintro x hx y hy rfl
      obtain ⟨a, ha, rfl⟩ := List.mem_map.1 hx
      exact hnot ⟨a, Array.mem_toList_iff.1 ha, List.mem_singleton.1 hy⟩
    · rw [Change.amend, h.listing_eq hd, hjoin, if_neg fun hin => hnot (hmem.1 hin)]
      simp [sides, Alternative.ofSymbols, hs.filterMap_eq]

theorem Resolved.effect_addAlternative (h : b.Resolved) (hid : b.named? (.rule id) = some (.rule name))
    (hs : b.Stands symbols alt) : Effect b [.define name [alt]] (b.addAlternative id symbols) := by
  rw [addAlternative, hs.filter_eq]
  obtain ⟨d, hd, rfl⟩ := named?_rule_iff.1 hid
  simp only [hd]
  -- whether the rule becomes the first one does not matter for the listing
  have hfirst : Effect b [] (if d.rule.kind = .normal ∧ b.first = none then
      { b with first := some id } else b) ∧ (if d.rule.kind = .normal ∧ b.first = none then
      { b with first := some id } else b).drafts = b.drafts := by
    split
    · rename_i hnone
      exact ⟨h.effect_setFirst hid hnone.2, rfl⟩
    · exact ⟨.refl h, rfl⟩
  generalize (if d.rule.kind = .normal ∧ b.first = none then { b with first := some id } else b) = b₁
    at hfirst
  obtain ⟨heffect, hdrafts⟩ := hfirst
  exact heffect.trans (heffect.resolved.effect_pushAlternative (hdrafts ▸ hd) (hs.mono heffect.grows))

/-- Several alternatives for one rule. -/
theorem Resolved.effect_addAlternatives (h : b.Resolved)
    (hid : b.named? (.rule id) = some (.rule name)) {lists : List (List Symbol)}
    {alternatives : List (List NamedSymbol)} (hs : List.Forall₂ b.Stands lists alternatives) :
    Effect b [.define name alternatives]
      (lists.foldl (fun b symbols => b.addAlternative id symbols) b) := by
  induction lists generalizing b alternatives with
  | nil =>
    obtain rfl := List.forall₂_nil_left_iff.1 hs
    exact ⟨h, .refl b, (Change.amend_define_nil _ _).symm, rfl, fun _ hf => hf⟩
  | cons symbols lists ih =>
    obtain ⟨alt, alternatives, halt, hrest, rfl⟩ := List.forall₂_cons_left_iff.1 hs
    have hfirst := h.effect_addAlternative hid halt
    have hrest := ih hfirst.resolved (hfirst.grows _ _ hid)
      (hrest.imp fun _ _ hs' => hs'.mono hfirst.grows)
    have hall := hfirst.trans hrest
    refine ⟨hall.resolved, hall.grows, ?_, hall.classes, hall.first⟩
    rw [List.foldl_cons, hall.listing]
    exact (Change.amend_define_cons _ _ _ _).symm

/-- Alternatives for a rule that is left as it is if it has some. -/
theorem Resolved.effect_supply (h : b.Resolved) (hid : b.named? (.rule id) = some (.rule name))
    {alternatives : List (List NamedSymbol)}
    (hb' : b.isDefined id = false → Effect b [.define name alternatives] b') :
    Effect b [.supply name alternatives] (if b.isDefined id then b else b') := by
  have hdefined := h.isDefined_iff hid
  split
  · rename_i hd
    exact ⟨h, .refl _, (if_neg (hdefined.1 hd)).symm, rfl, fun _ hf => hf⟩
  · rename_i hd
    have hnil : b.listing name = [] := not_not.1 fun hne => hd (hdefined.2 hne)
    have hb' := hb' (Bool.not_eq_true _ ▸ hd)
    refine ⟨hb'.resolved, hb'.grows, hb'.listing.trans ?_, hb'.classes, hb'.first⟩
    simp only [Change.amendAll_singleton, Change.amend, hnil, if_true]

/-! ## Empty literals -/

/-- The symbols that the builder keeps of a right-hand side: all but empty literals. -/
def significant (b : GrammarBuilder) (symbols : List Symbol) : List Symbol :=
  symbols.filter (!b.isEpsilonSymbol ·)

/-- The builder has handed out the numbers of the symbols. -/
def Knows (b : GrammarBuilder) (symbols : List Symbol) : Prop :=
  ∀ s ∈ symbols, ∃ x, b.named? s = some x

theorem Knows.mono (h : b.Knows symbols) (hg : b.Grows b') : b'.Knows symbols := fun s hs =>
  let ⟨x, hx⟩ := h s hs
  ⟨x, hg s x hx⟩

theorem significant_cons (s : Symbol) (symbols : List Symbol) :
    b.significant (s :: symbols) = b.significant [s] ++ b.significant symbols := by
  rw [significant, significant, significant, ← List.filter_append, List.singleton_append]

/-- An empty literal stays the empty literal. -/
theorem Knows.significant_eq (h : b.Knows symbols) (hg : b.Grows b') :
    b'.significant symbols = b.significant symbols := by
  refine List.filter_congr fun s hs => ?_
  obtain ⟨x, hx⟩ := h s hs
  rw [isEpsilonSymbol_of_named? hx, isEpsilonSymbol_of_named? (hg s x hx)]

theorem Knows.exists_stands (h : b.Knows symbols) : ∃ alt, b.Stands (b.significant symbols) alt := by
  induction symbols with
  | nil => exact ⟨[], .nil⟩
  | cons s symbols ih =>
    obtain ⟨alt, halt⟩ := ih fun s' hs' => h s' (.tail _ hs')
    obtain ⟨x, hx⟩ := h s (.head _)
    rw [significant_cons]
    by_cases hempty : x = .empty
    · refine ⟨alt, ?_⟩
      rwa [show b.significant [s] = [] by simp [significant, isEpsilonSymbol_of_named? hx, hempty]]
    · refine ⟨x :: alt, ?_⟩
      rw [show b.significant [s] = [s] by simp [significant, isEpsilonSymbol_of_named? hx, hempty]]
      exact .cons ⟨hx, hempty⟩ halt

/-- The builder drops empty literals itself. -/
theorem addAlternative_significant (b : GrammarBuilder) (id : RuleId) (symbols : List Symbol) :
    b.addAlternative id (b.significant symbols) = b.addAlternative id symbols := by
  rw [addAlternative, addAlternative, significant, List.filter_filter]
  simp only [Bool.and_self]

theorem Resolved.effect_addKnown (h : b.Resolved) (hid : b.named? (.rule id) = some (.rule name))
    (hk : b.Knows symbols) : ∃ changes, Effect b changes (b.addAlternative id symbols) := by
  obtain ⟨alt, halt⟩ := hk.exists_stands
  rw [← addAlternative_significant]
  exact ⟨_, h.effect_addAlternative hid halt⟩

end GrammarBuilder

end ParseForest
