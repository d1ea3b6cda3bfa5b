import ParseForest.Proofs.Notation.Reading
import Mathlib.Data.List.Induction

/-!
# Shared rules

A synthetic rule is looked up by its name among all rules of the grammar, and gets its alternatives only
when it has none. So the table of a grammar is what its text says (`textTable`) as long as synthetic rules
share a name only when they are equal, and no name of theirs is written (`Distinct`). What a finished
grammar adds is the end of input, the token classes and the rule that accepts (`finished`). Main
statement: `Grammar.table_of_distinct`.
-/

namespace ParseForest

namespace Change

variable {t : Table} {cs : List Change} {p : String × List NamedSymbol}

/-- Where a supplied name comes with the same right-hand sides each time, nothing is lost. -/
theorem mem_applyAll_iff (hreplace : ∀ name alternatives, replace name alternatives ∉ cs)
    (hsupply : ∀ name alternatives, supply name alternatives ∈ cs →
      ∀ c ∈ cs, c.name = name → c.alternatives = alternatives) :
    p ∈ applyAll ∅ cs ↔ ∃ c ∈ cs, c.name = p.1 ∧ p.2 ∈ c.alternatives := by
  induction cs using List.reverseRecOn generalizing p with
  | nil => simp
  | append_singleton cs c ih =>
    have hbefore : ∀ {p : String × List NamedSymbol},
        p ∈ applyAll ∅ cs ↔ ∃ c ∈ cs, c.name = p.1 ∧ p.2 ∈ c.alternatives :=
      ih (fun name alternatives hm => hreplace name alternatives (List.mem_append_left _ hm))
        fun name alternatives hm c' hc' => hsupply name alternatives (List.mem_append_left _ hm) c'
          (List.mem_append_left _ hc')
    have hsplit : (∃ c' ∈ cs ++ [c], c'.name = p.1 ∧ p.2 ∈ c'.alternatives) ↔
        p ∈ applyAll ∅ cs ∨ (p.1 = c.name ∧ p.2 ∈ c.alternatives) := by
      rw [hbefore]
      simp [or_and_right, exists_or, eq_comm]
    rw [hsplit, applyAll_append, applyAll_singleton]
    cases c with
    | define name alternatives => exact Iff.rfl
    | replace name alternatives => exact absurd (List.mem_append_right _ (.head _)) (hreplace _ _)
    | supply name alternatives =>
      refine or_congr_right' fun hp => and_iff_right_of_imp fun ⟨hname, hmem⟩ alt halt => ?_
      -- a name that is there came with these right-hand sides already
      obtain ⟨c, hc, hcname, -⟩ := hbefore.1 halt
      have hsame := hsupply name alternatives (List.mem_append_right _ (.head _)) c
        (List.mem_append_left _ hc) hcname
      exact hp (hbefore.2 ⟨c, hc, hcname.trans hname.symm, hsame ▸ hmem⟩)

/-- Names that are supplied once each are added where they are missing. -/
theorem mem_applyAll_supply_iff {ι : Type} {names : ι → String}
    {alternatives : ι → List (List NamedSymbol)} {l : List ι} (hl : (l.map names).Nodup) :
    p ∈ applyAll t (l.map fun i => supply (names i) (alternatives i)) ↔
      p ∈ t ∨ ((∀ alt, (p.1, alt) ∉ t) ∧ ∃ i ∈ l, names i = p.1 ∧ p.2 ∈ alternatives i) := by
  induction l generalizing t with
  | nil => simp
  | cons i l ih =>
    obtain ⟨hi, hl⟩ := List.nodup_cons.1 hl
    have hother : ∀ j ∈ l, names j ≠ names i := fun j hj he => hi (he ▸ List.mem_map_of_mem hj)
    rw [List.map_cons, applyAll, List.foldl_cons, ← applyAll, ih hl]
    by_cases hp : names i = p.1
    · have hrest : ¬ ∃ j ∈ l, names j = p.1 ∧ p.2 ∈ alternatives j :=
        fun ⟨j, hj, he, _⟩ => hother j hj (he.trans hp.symm)
      simp [apply, hrest, hp]
    · have hsame : ∀ alt, (p.1, alt) ∈ (supply (names i) (alternatives i)).apply t ↔ (p.1, alt) ∈ t :=
        fun alt => or_iff_left fun h => hp h.2.1.symm
      simp only [hsame, List.exists_mem_cons_iff, hp, false_and, false_or]

end Change

namespace Notation

/-! ## Names of synthetic rules -/

namespace Synthetic

/-- What kind of rule it is. -/
def kind : Synthetic → RuleKind
  | .list _ => .list
  | .optional _ => .optional
  | .group _ => .group

/-- The name begins with a bracket. -/
theorem name_toList (o : Synthetic) : ∃ rest, o.name.toList = '[' :: rest := by
  cases o <;> exact ⟨_, by simp only [name, String.toList_append]; rfl⟩

theorem name_ne_startRuleName (o : Synthetic) : o.name ≠ startRuleName := by
  obtain ⟨rest, hrest⟩ := o.name_toList
  intro h
  simp [h, startRuleName] at hrest

theorem name_ne_tokenRuleName (o : Synthetic) (className : String) :
    o.name ≠ tokenRuleName className := by
  obtain ⟨rest, hrest⟩ := o.name_toList
  intro h
  simp [h, tokenRuleName, tokenRulePrefix] at hrest

theorem kind_eq_of_name_eq {o o' : Synthetic} (h : o.name = o'.name) : o.kind = o'.kind := by
  have h := congrArg String.toList h
  cases o <;> cases o' <;> first | rfl | simp [name] at h

end Synthetic

/-- Different synthetic rules of one kind have different names, and no rule that is written has a name
of theirs. -/
structure Distinct (rules : List (String × Choice)) : Prop where
  eq_of_name_eq : ∀ o ∈ occurrences rules, ∀ o' ∈ occurrences rules, o.kind = o'.kind →
    o.name = o'.name → o = o'
  unwritten : ∀ rule ∈ rules, ∀ o ∈ occurrences rules, rule.1 ≠ o.name

/-! ## Tables of texts -/

/-- The right-hand sides that the rules of a text and its synthetic rules have. -/
def textTable (rules : List (String × Choice)) : Table :=
  {p | (∃ rule ∈ rules, rule.1 = p.1 ∧ p.2 ∈ rule.2.alternatives) ∨
    ∃ o ∈ occurrences rules, o.name = p.1 ∧ p.2 ∈ o.alternatives}

/-- The right-hand sides in a finished grammar: the rule that accepts and the end of input have their own
ones, and a token class has its terminal unless its name has right-hand sides already. -/
def finished (t : Table) (classes : List (String × String)) (first : String) : Table :=
  {p | (p.1 = startRuleName ∧ p.2 = [.rule first, .rule (tokenRuleName eofClass)]) ∨
    (p.1 = tokenRuleName eofClass ∧ p.2 = [GrammarBuilder.classSymbol eofClass ""]) ∨
    (p.1 ≠ startRuleName ∧ p.1 ≠ tokenRuleName eofClass ∧ (p ∈ t ∨ ((∀ alt, (p.1, alt) ∉ t) ∧
      ∃ c ∈ classes, tokenRuleName c.1 = p.1 ∧ p.2 = [GrammarBuilder.classSymbol c.1 c.2])))}

variable {rules : List (String × Choice)}

namespace Distinct

variable (h : Distinct rules)
include h

/-- A name is that of one synthetic rule, since rules of different kinds have different names. -/
theorem synthetic_inj {o o' : Synthetic} (ho : o ∈ occurrences rules) (ho' : o' ∈ occurrences rules)
    (hname : o.name = o'.name) : o = o' :=
  h.eq_of_name_eq o ho o' ho' (Synthetic.kind_eq_of_name_eq hname) hname

theorem applyAll_ruleChanges :
    Change.applyAll ∅ (rules.flatMap Reader.ruleChanges) = textTable rules := by
  have hmem : ∀ c, c ∈ rules.flatMap Reader.ruleChanges ↔
      (∃ rule ∈ rules, c = .define rule.1 rule.2.alternatives) ∨
        ∃ o ∈ occurrences rules, c = o.change := by
    intro c
    simp only [occurrences, Reader.ruleChanges, List.mem_flatMap, List.mem_append, List.mem_map,
      List.mem_singleton]
    constructor
    · rintro ⟨rule, hrule, ⟨o, ho, rfl⟩ | rfl⟩
      · exact .inr ⟨o, ⟨rule, hrule, ho⟩, rfl⟩
      · exact .inl ⟨rule, hrule, rfl⟩
    · rintro (⟨rule, hrule, rfl⟩ | ⟨o, ⟨rule, hrule, ho⟩, rfl⟩)
      · exact ⟨rule, hrule, .inr rfl⟩
      · exact ⟨rule, hrule, .inl ⟨o, ho, rfl⟩⟩
  ext p
  rw [Change.mem_applyAll_iff]
  · simp only [hmem, or_and_right, exists_or]
    refine or_congr ⟨?_, ?_⟩ ⟨?_, ?_⟩
    · rintro ⟨c, ⟨rule, hrule, rfl⟩, hp⟩
      exact ⟨rule, hrule, hp⟩
    · rintro ⟨rule, hrule, hp⟩
      exact ⟨_, ⟨rule, hrule, rfl⟩, hp⟩
    · rintro ⟨c, ⟨o, ho, rfl⟩, hp⟩
      exact ⟨o, ho, hp⟩
    · rintro ⟨o, ho, hp⟩
      exact ⟨_, ⟨o, ho, rfl⟩, hp⟩
  · intro name alternatives hc
    rcases (hmem _).1 hc with ⟨_, _, he⟩ | ⟨_, _, he⟩ <;> cases he
  · intro name alternatives hc c hc' hname
    rcases (hmem _).1 hc with ⟨_, _, he⟩ | ⟨o, ho, he⟩
    · cases he
    obtain ⟨rfl, rfl⟩ := Change.supply.inj he
    rcases (hmem _).1 hc' with ⟨rule, hrule, rfl⟩ | ⟨o', ho', rfl⟩
    · exact absurd hname (h.unwritten rule hrule o ho)
    · rw [h.synthetic_inj ho' ho hname]
      rfl

end Distinct

/-! ## Finished grammars -/

theorem tokenRuleName_injective {className className' : String}
    (h : tokenRuleName className = tokenRuleName className') : className = className' := by
  have h := congrArg String.toList h
  simp only [tokenRuleName, String.toList_append] at h
  exact String.toList_inj.1 (List.append_cancel_left h)

theorem applyAll_finishing {t : Table} {classes : List (String × String)} {first : String}
    (hc : (classes.map Prod.fst).Nodup) :
    Change.applyAll t (GrammarBuilder.finishing classes first) = finished t classes first := by
  have hnodup : (classes.map fun c => tokenRuleName c.1).Nodup := by
    have := hc.map fun _ _ he => tokenRuleName_injective he
    rwa [List.map_map] at this
  have hne : startRuleName ≠ tokenRuleName eofClass := by decide
  ext p
  rw [GrammarBuilder.finishing, Change.applyAll_append, Change.applyAll_singleton, Change.applyAll,
    List.foldl_cons, ← Change.applyAll]
  simp only [Change.apply, Set.mem_ofPred_eq, List.mem_singleton, finished,
    Change.mem_applyAll_supply_iff hnodup]
  by_cases hstart : p.1 = startRuleName
  · simp [hstart, hne]
  by_cases heof : p.1 = tokenRuleName eofClass
  · simp [heof, hne.symm]
  · simp [hstart, heof]

/-- A synthetic rule has its own right-hand sides. -/
theorem Distinct.mem_finished_name_iff (h : Distinct rules) {o : Synthetic}
    (ho : o ∈ occurrences rules) {classes : List (String × String)} {first : String}
    {alt : List NamedSymbol} :
    (o.name, alt) ∈ finished (textTable rules) classes first ↔ alt ∈ o.alternatives := by
  have htext : (o.name, alt) ∈ textTable rules ↔ alt ∈ o.alternatives := by
    constructor
    · rintro (⟨rule, hrule, hname, -⟩ | ⟨o', ho', hname, halt⟩)
      · exact absurd hname (h.unwritten rule hrule o ho)
      · rwa [h.synthetic_inj ho' ho hname] at halt
    · exact fun halt => .inr ⟨o, ho, rfl, halt⟩
  simp [finished, htext, o.name_ne_startRuleName, o.name_ne_tokenRuleName,
    fun className => (o.name_ne_tokenRuleName className).symm]

/-- A name is declared once. -/
theorem nodup_declared (classes : List (String × String)) :
    ((declared classes).map Prod.fst).Nodup := by
  have hfold : ∀ (classes : List (String × String)) (b : GrammarBuilder),
      (b.tokenClasses.toList.map Prod.fst).Nodup → ((classes.foldl (fun b c =>
        b.declareClass c.1 c.2) b).tokenClasses.toList.map Prod.fst).Nodup := by
    intro classes
    induction classes with
    | nil => exact fun _ h => h
    | cons c classes ih =>
      refine fun b h => ih _ ?_
      dsimp only [GrammarBuilder.declareClass]
      split
      · exact h
      · rename_i hnew
        simp only [Array.toList_push, List.map_append, List.map_cons, List.map_nil]
        refine List.nodup_append.2 ⟨h, List.nodup_singleton _, fun name hname name' hname' he => hnew ?_⟩
        obtain ⟨c', hc', rfl⟩ := List.mem_map.1 hname
        obtain rfl := List.mem_singleton.1 hname'
        exact Array.any_eq_true'.2 ⟨c', Array.mem_toList_iff.1 hc', beq_iff_eq.2 he⟩
  exact hfold classes _ List.nodup_nil

/-- The pattern of a declared name is the first one in the list. -/
theorem mem_declared_iff {classes : List (String × String)} {className pattern : String} :
    (className, pattern) ∈ declared classes ↔ classes.lookup className = some pattern := by
  have hfold : ∀ (classes : List (String × String)) (b : GrammarBuilder),
      (className, pattern) ∈ (classes.foldl (fun b c =>
        b.declareClass c.1 c.2) b).tokenClasses ↔ (className, pattern) ∈ b.tokenClasses ∨
        ((∀ c ∈ b.tokenClasses, c.1 ≠ className) ∧ classes.lookup className = some pattern) := by
    intro classes
    induction classes with
    | nil => simp
    | cons c classes ih =>
      intro b
      obtain ⟨name, pattern'⟩ := c
      rw [List.foldl_cons, ih, List.lookup_cons]
      dsimp only [GrammarBuilder.declareClass]
      split
      · rename_i htaken
        obtain ⟨c, hc, hname⟩ := Array.any_eq_true'.1 htaken
        by_cases he : className = name
        · have hno : ¬ ∀ c ∈ b.tokenClasses, c.1 ≠ className :=
            fun h => h c hc ((eq_of_beq hname).trans he.symm)
          simp only [hno, false_and, or_false]
        · simp only [beq_eq_false_iff_ne.2 he]
      · rename_i hfree
        have hfree : ∀ c ∈ b.tokenClasses, c.1 ≠ name := fun c hc he =>
          hfree (Array.any_eq_true'.2 ⟨c, hc, beq_iff_eq.2 he⟩)
        have hpush : (∀ c ∈ b.tokenClasses.push (name, pattern'), c.1 ≠ className) ↔
            (∀ c ∈ b.tokenClasses, c.1 ≠ className) ∧ name ≠ className := by
          simp only [Array.mem_push, or_imp, forall_and, forall_eq]
        rw [hpush, Array.mem_push]
        by_cases he : className = name
        · subst he
          have hold : (className, pattern) ∉ b.tokenClasses := fun h => hfree _ h rfl
          simp only [hold, ne_eq, not_true_eq_false, and_false, false_and, or_false, false_or, true_and,
            beq_self_eq_true, Prod.mk.injEq, Option.some.injEq]
          exact ⟨fun h => ⟨hfree, h.symm⟩, fun h => h.2.symm⟩
        · simp only [Prod.mk.injEq, he, false_and, or_false, ne_eq, Ne.symm he, not_false_eq_true,
            and_true, beq_eq_false_iff_ne.2 he]
  simpa [declared, GrammarBuilder.new] using hfold classes .new

end Notation

namespace Grammar

open Notation

variable {text : String} {classes : List (String × String)} {g : Grammar}

/-- The table of a grammar whose text shares synthetic rules between equal expressions only. -/
theorem table_of_distinct (h : ofText .ebnf text classes = .ok g) : ∃ rules, Written text rules ∧
    (∀ rule ∈ rules, rule.1 ≠ startRuleName) ∧ g.Resolved ∧ (Distinct rules →
      g.table = finished (textTable rules) (declared classes) (g.rule g.first).name) := by
  obtain ⟨rules, hwritten, hstart, hg, htable⟩ := table_of_ebnf h
  refine ⟨rules, hwritten, hstart, hg, fun hd => ?_⟩
  rw [htable, Change.applyAll_append, hd.applyAll_ruleChanges, applyAll_finishing (nodup_declared _)]

end Grammar

end ParseForest
