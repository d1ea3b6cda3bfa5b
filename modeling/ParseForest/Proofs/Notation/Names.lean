import ParseForest.Proofs.Notation.Legible
import ParseForest.Proofs.Notation.Unambiguous

/-!
# Names of synthetic rules

Synthetic rules are shared by name. In a text where no written name begins with a bracket and no pattern
contains a slash (`LexemeKind.Plain`), names can be read back, so only equal expressions share a rule
(`Grammar.synthetic_rules_of_plain`). A slash in a pattern is written after a backslash, but the name shows it
alone: `(/a/ /b/)+` and `/a\/ \/b/+` share a rule.
-/

namespace ParseForest

namespace Notation

variable {xs : List NamedSymbol} {alternatives : List (List NamedSymbol)}

/-! ## Texts -/

/-- Lexemes that a name can show: references that do not begin like the name of a synthetic rule, and
patterns without a slash. -/
def LexemeKind.Plain : LexemeKind → Prop
  | .reference name => name.toList.head? ≠ some '['
  | .pattern text _ => '/' ∉ text.toList
  | _ => True

/-- What lexing makes sure of: no reference contains the character that ends it, and flags are letters. -/
def LexemeKind.Lexed : LexemeKind → Prop
  | .reference name => '>' ∉ name.toList
  | .pattern _ flags => ∀ c ∈ flags.toList, c.isAlpha = true
  | _ => True

theorem LexemeKind.Writable.lexed {kind : LexemeKind} (h : kind.Writable) : kind.Lexed := by
  cases kind with
  | reference name => exact fun hc => (h.clear _ hc).1 rfl
  | pattern text flags => exact fun c hc => isAlpha_of_isPatternFlag (h.2 c hc)
  | _ => trivial

/-- Every lexeme of a text is as lexing makes it. -/
theorem lexed_of_lexemes {text : String} {ls : List Lexeme} {stop : Location}
    (h : lexemes text = .ok (ls, stop)) : ∀ l ∈ ls, l.kind.Lexed :=
  fun l hl => (writable_of_lexemes h l hl).lexed

/-! ## Bodies -/

/-- Synthetic rules whose names can be read back. -/
structure Synthetic.Clear (o : Synthetic) : Prop where
  ne : o ≠ .group []
  legible : ∀ x ∈ o.symbols, Legible x

theorem Synthetic.Clear.rule {o : Synthetic} (h : o.Clear) : Legible (.rule o.name) :=
  .synthetic h.ne h.legible

theorem Synthetic.Clear.alternatives_ne_nil {o : Synthetic} (h : o.Clear) : o.alternatives ≠ [] := by
  cases o with
  | list xs => simp [alternatives]
  | optional xs => simp [alternatives]
  | group alternatives => exact fun he => h.ne (congrArg Synthetic.group he)

theorem clear_modifierSynthetics (m : Option Modifier) (h : ∀ x ∈ xs, Legible x) :
    (∀ x ∈ modified m xs, Legible x) ∧ ∀ o ∈ modifierSynthetics m xs, o.Clear := by
  have hlist : (Synthetic.list xs).Clear := ⟨by simp, h⟩
  have hoptional : (Synthetic.optional xs).Clear := ⟨by simp, h⟩
  have hstar : (Synthetic.optional [.rule (Synthetic.list xs).name]).Clear :=
    ⟨by simp, List.forall_mem_singleton.2 hlist.rule⟩
  match m with
  | none => exact ⟨h, by simp [modifierSynthetics]⟩
  | some .optional => exact ⟨List.forall_mem_singleton.2 hoptional.rule, List.forall_mem_singleton.2 hoptional⟩
  | some .plus => exact ⟨List.forall_mem_singleton.2 hlist.rule, List.forall_mem_singleton.2 hlist⟩
  | some .star => exact ⟨List.forall_mem_singleton.2 hstar.rule,
      List.forall_mem_cons.2 ⟨hlist, List.forall_mem_singleton.2 hstar⟩⟩

theorem clear_groupSynthetics (hne : alternatives ≠ [])
    (h : ∀ alt ∈ alternatives, ∀ x ∈ alt, Legible x) :
    (∀ x ∈ grouped alternatives, Legible x) ∧ ∀ o ∈ groupSynthetics alternatives, o.Clear := by
  have hgroup : (Synthetic.group alternatives).Clear :=
    ⟨by simpa using hne, fun x hx => by
      obtain ⟨alt, halt, hx⟩ := List.mem_flatten.1 hx
      exact h alt halt x hx⟩
  match alternatives, hne, h, hgroup with
  | [alt], _, h, _ => exact ⟨h alt (.head _), by simp [groupSynthetics]⟩
  | _ :: _ :: _, _, _, hgroup =>
    exact ⟨List.forall_mem_singleton.2 hgroup.rule, List.forall_mem_singleton.2 hgroup⟩

/-- What names can show, as lexing makes it. -/
def LexemeKind.Shown (kind : LexemeKind) : Prop := kind.Plain ∧ kind.Lexed

mutual

theorem Primary.clear : ∀ p : Primary, (∀ kind ∈ p.kinds, kind.Shown) →
    (∀ x ∈ p.symbols, Legible x) ∧ ∀ o ∈ p.synthetics, o.Clear
  | .reference name, h => by
    obtain ⟨hplain, hlexed⟩ := h _ (.head _)
    exact ⟨List.forall_mem_singleton.2 (.reference hlexed hplain), by simp [Primary.synthetics]⟩
  | .literal text marks, h => by
    refine ⟨fun x hx => ?_, by simp [Primary.synthetics]⟩
    rw [Primary.symbols] at hx
    split at hx
    · cases hx
    · obtain rfl := List.mem_singleton.1 hx
      exact .literal text
  | .pattern text flags, h => by
    obtain ⟨hplain, hlexed⟩ := h _ (.head _)
    exact ⟨List.forall_mem_singleton.2 (.pattern hplain hlexed), by simp [Primary.synthetics]⟩
  | .group body, h => by
    obtain ⟨halternatives, hsynthetics⟩ := Choice.clear body fun kind hk =>
      h kind (List.mem_cons_of_mem _ (List.mem_append_left _ hk))
    obtain ⟨hsymbols, hgroup⟩ := clear_groupSynthetics body.alternatives_ne_nil halternatives
    exact ⟨hsymbols, fun o ho => (List.mem_append.1 ho).elim (hsynthetics o) (hgroup o)⟩

theorem Sequence.clear : ∀ s : Sequence, (∀ kind ∈ s.kinds, kind.Shown) →
    (∀ x ∈ s.symbols, Legible x) ∧ ∀ o ∈ s.synthetics, o.Clear
  | .nil, _ => by simp [Sequence.symbols, Sequence.synthetics]
  | .cons p m s, h => by
    obtain ⟨hp, hpo⟩ := Primary.clear p fun kind hk =>
      h kind (List.mem_append_left _ (List.mem_append_left _ hk))
    obtain ⟨hs, hso⟩ := Sequence.clear s fun kind hk => h kind (List.mem_append_right _ hk)
    obtain ⟨hm, hmo⟩ := clear_modifierSynthetics m hp
    refine ⟨fun x hx => (List.mem_append.1 hx).elim (hm x) (hs x), fun o ho => ?_⟩
    rcases List.mem_append.1 ho with ho | ho
    · exact (List.mem_append.1 ho).elim (hpo o) (hmo o)
    · exact hso o ho

theorem Choice.clear : ∀ c : Choice, (∀ kind ∈ c.kinds, kind.Shown) →
    (∀ alt ∈ c.alternatives, ∀ x ∈ alt, Legible x) ∧ ∀ o ∈ c.synthetics, o.Clear
  | .last s, h => by
    obtain ⟨hs, hso⟩ := Sequence.clear s h
    exact ⟨List.forall_mem_singleton.2 hs, hso⟩
  | .more s c, h => by
    obtain ⟨hs, hso⟩ := Sequence.clear s fun kind hk => h kind (List.mem_append_left _ hk)
    obtain ⟨hc, hco⟩ := Choice.clear c fun kind hk =>
      h kind (List.mem_append_right _ (List.mem_cons_of_mem _ hk))
    exact ⟨List.forall_mem_cons.2 ⟨hs, hc⟩, fun o ho => (List.mem_append.1 ho).elim (hso o) (hco o)⟩

end

variable {rules : List (String × Choice)}

/-- The rules of a text whose lexemes names can show. -/
theorem Written.clear {text : String} (h : Written text rules)
    (hplain : ∀ kind ∈ rules.flatMap ruleKinds, kind.Plain) : ∀ o ∈ occurrences rules, o.Clear := by
  obtain ⟨ls, stop, hls, hkinds⟩ := h
  intro o ho
  obtain ⟨rule, hrule, ho⟩ := List.mem_flatMap.1 ho
  refine (rule.2.clear fun kind hk => ?_).2 o ho
  have hmem : kind ∈ rules.flatMap ruleKinds :=
    List.mem_flatMap.2 ⟨rule, hrule, List.mem_cons_of_mem _ (List.mem_cons_of_mem _ hk)⟩
  obtain ⟨l, hl, rfl⟩ := List.mem_map.1 (hkinds ▸ hmem)
  exact ⟨hplain _ hmem, lexed_of_lexemes hls l hl⟩

/-- Then synthetic rules are shared between equal expressions only. -/
theorem distinct_of_clear (hclear : ∀ o ∈ occurrences rules, o.Clear)
    (hplain : ∀ kind ∈ rules.flatMap ruleKinds, kind.Plain) : Distinct rules := by
  refine ⟨fun o ho o' ho' _ he => ?_, fun rule hrule o _ he => ?_⟩
  · exact Synthetic.name_inj (hclear o ho).ne (hclear o' ho').ne (hclear o ho).legible
      (hclear o' ho').legible he
  · obtain ⟨rest, hrest⟩ := o.name_toList
    exact hplain (.reference rule.1) (List.mem_flatMap.2 ⟨rule, hrule, .head _⟩)
      (by rw [he, hrest, List.head?_cons])

end Notation

namespace Grammar

open Notation

variable {text : String} {classes : List (String × String)} {g : Grammar}

/-- A text that is read as a grammar is written by one list of rules. If no name in it begins with a bracket
and no pattern contains a slash, two expressions that stand for one synthetic rule are the same operator
over the same symbols, no rule that is written is a synthetic one, and every synthetic rule has the
alternatives that its expression calls for. -/
theorem synthetic_rules_of_plain (h : ofText .ebnf text classes = .ok g) :
    (∃! rules, Written text rules) ∧
    ∀ rules, Written text rules → (∀ kind ∈ rules.flatMap ruleKinds, kind.Plain) →
      (∀ o ∈ occurrences rules, ∀ o' ∈ occurrences rules, ∀ id, (g.rule id).name = o.name →
        (g.rule id).name = o'.name → o = o') ∧
      (∀ rule ∈ rules, ∀ o ∈ occurrences rules, ∀ id, (g.rule id).name = o.name →
        (g.rule id).name ≠ rule.1) ∧
      ∀ o ∈ occurrences rules, ∃ id < g.rules.size, (g.rule id).name = o.name ∧
        ∀ alt, (∃ a ∈ (g.rule id).alternatives, a.symbols.map g.named = alt) ↔
          alt ∈ o.alternatives := by
  obtain ⟨rules, hwritten, -, hg, htable⟩ := table_of_distinct h
  refine ⟨⟨rules, hwritten, fun rules' h' => h'.unique hwritten⟩, fun rules' h' hplain => ?_⟩
  obtain rfl := h'.unique hwritten
  have hclear := hwritten.clear hplain
  have hd := distinct_of_clear hclear hplain
  refine ⟨fun o ho o' ho' id he he' => ?_, fun rule hrule o ho id he => ?_, fun o ho => ?_⟩
  · exact hd.synthetic_inj ho ho' (he.symm.trans he')
  · exact fun he' => hd.unwritten rule hrule o ho (he'.symm.trans he)
  · have hmem : ∀ alt, (o.name, alt) ∈ g.table ↔ alt ∈ o.alternatives := fun alt => by
      rw [htable hd, hd.mem_finished_name_iff ho]
    obtain ⟨alt, halt⟩ := List.exists_mem_of_ne_nil _ (hclear o ho).alternatives_ne_nil
    obtain ⟨id, hname, a, ha, -⟩ := (hmem alt).2 halt
    have hid := lt_of_mem_alternatives ha
    refine ⟨id, hid, hname, fun alt => ?_⟩
    rw [← hmem, ← hg.mem_table_iff hid, hname]

theorem synthetic_rules_of_repeated : ∃ g rules,
    ofText .ebnf "<S> ::= (/a/ | <S>)* (/a/ | <S>)*" [] = .ok g ∧
      Written "<S> ::= (/a/ | <S>)* (/a/ | <S>)*" rules ∧
      (∀ kind ∈ rules.flatMap ruleKinds, kind.Plain) ∧
      ∀ o ∈ occurrences rules, ∃ id < g.rules.size, (g.rule id).name = o.name ∧
        ∀ alt, (∃ a ∈ (g.rule id).alternatives, a.symbols.map g.named = alt) ↔
          alt ∈ o.alternatives := by
  have hread : (ofText .ebnf "<S> ::= (/a/ | <S>)* (/a/ | <S>)*" []).toBool = true := by
    decide +kernel
  let repeated : Primary :=
    .group (.more (.cons (.pattern "a" "") none .nil) (.last (.cons (.reference "S") none .nil)))
  have hwritten : Written "<S> ::= (/a/ | <S>)* (/a/ | <S>)*"
      [("S", .last (.cons repeated (some .star) (.cons repeated (some .star) .nil)))] :=
    written_iff.2 (by decide +kernel)
  have hplain : ∀ kind ∈ [("S", Choice.last (.cons repeated (some .star)
      (.cons repeated (some .star) .nil)))].flatMap ruleKinds, kind.Plain := by
    simp [ruleKinds, Choice.kinds, Sequence.kinds, Primary.kinds, repeated, Modifier.kind,
      LexemeKind.Plain]
  cases hg : ofText .ebnf "<S> ::= (/a/ | <S>)* (/a/ | <S>)*" [] with
  | error e => simp [hg, Except.toBool] at hread
  | ok g =>
    exact ⟨g, _, rfl, hwritten, hplain, ((synthetic_rules_of_plain hg).2 _ hwritten hplain).2.2⟩

end Grammar

end ParseForest
