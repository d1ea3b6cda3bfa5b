import ParseForest.Proofs.Notation.Legible

/-!
# Printed grammars

A grammar is printed as the text of its rules (`Grammar.printed`), apart from `#S` and the rules of token
classes. If what is shown of every symbol is read as the symbol (`Printable`), the text is cut into the lexemes
of these rules (`Grammar.lexes_toBnf`).
-/

namespace ParseForest

/-- The lexeme that a symbol is written as. -/
def NamedSymbol.kind : NamedSymbol → Notation.LexemeKind
  | .rule name => .reference name
  | .terminal (.literal text) => .literal text
  | .terminal (.pattern p) => .pattern p.pattern p.flags

namespace Notation

/-- Symbols that are shown in a form that is read as the symbol. -/
inductive Printable : NamedSymbol → Prop
  | rule {name : String} (hname : Nameable name) : Printable (.rule name)
  | literal {text : String} (htext : ∀ c ∈ text.toList, Quoted.Plain c) :
    Printable (.terminal (.literal text))
  | pattern {text flags : String} (hw : (LexemeKind.pattern text flags).Writable)
    (hslash : '/' ∉ text.toList) : Printable (.terminal (.pattern ⟨text, flags, none⟩))

/-- A right-hand side as it is written: the empty one as the empty literal. -/
def spelled (alt : List NamedSymbol) : List NamedSymbol := if alt = [] then [.empty] else alt

/-- The text of right-hand sides, with bars between them. -/
def sidesText : List (List NamedSymbol) → List Char
  | [] => []
  | alt :: more => following (spelled alt) ++ more.flatMap fun alt => ' ' :: '|' :: following (spelled alt)

/-- The lexemes of right-hand sides. -/
def sidesKinds : List (List NamedSymbol) → List LexemeKind
  | [] => []
  | alt :: more =>
    (spelled alt).map NamedSymbol.kind ++ more.flatMap fun alt => .pipe :: (spelled alt).map NamedSymbol.kind

/-- The line of a rule. -/
def ruleText (rule : String × List (List NamedSymbol)) : List Char :=
  '<' :: (rule.1.toList ++ '>' :: ' ' :: ':' :: ':' :: '=' :: (sidesText rule.2 ++ ['\n']))

/-- The lexemes of a rule whose right-hand sides are written out. -/
def bnfKinds (rule : String × List (List NamedSymbol)) : List LexemeKind :=
  .reference rule.1 :: .define :: sidesKinds rule.2

variable {x : NamedSymbol} {xs alt : List NamedSymbol} {sides : List (List NamedSymbol)} {k : List Char}
  {kinds : List LexemeKind}

theorem printable_spelled (h : ∀ x ∈ alt, Printable x) : ∀ x ∈ spelled alt, Printable x := by
  rw [spelled]
  split
  · exact List.forall_mem_singleton.2 (.literal (by simp))
  · exact h

theorem stopped_cons {c : Char} (hc : c.isAlpha = false) (k : List Char) : Stopped (c :: k) := by
  intro c' rest h
  obtain ⟨rfl, -⟩ := List.cons.inj h
  exact hc

theorem lexes_display (hx : Printable x) (hk : Stopped k) (h : Lexes k kinds) :
    Lexes (x.display.toList ++ k) (x.kind :: kinds) := by
  cases hx with
  | rule hname =>
    rw [toList_display_rule]
    simpa [NamedSymbol.kind] using Lexes.reference hname h
  | literal htext => exact Lexes.literal htext h
  | @pattern text flags hw hslash =>
    simpa [NamedSymbol.kind, NamedSymbol.display, Atom.display, Terminal.display] using
      Lexes.pattern hw hslash hk h

theorem lexes_following (hx : ∀ x ∈ xs, Printable x) (hk : Stopped k) (h : Lexes k kinds) :
    Lexes (following xs ++ k) (xs.map NamedSymbol.kind ++ kinds) := by
  induction xs with
  | nil => exact h
  | cons x xs ih =>
    obtain ⟨hx, hxs⟩ := List.forall_mem_cons.1 hx
    have hrest := lexes_display hx (stopped_following hk xs) (ih hxs)
    simpa [following] using hrest.space

/-- The text of right-hand sides before the end of the line. -/
theorem lexes_sidesText (hs : ∀ alt ∈ sides, ∀ x ∈ alt, Printable x) (h : Lexes k kinds) :
    Lexes (sidesText sides ++ '\n' :: k) (sidesKinds sides ++ kinds) := by
  have hmore : ∀ more : List (List NamedSymbol), (∀ alt ∈ more, ∀ x ∈ alt, Printable x) →
      Stopped ((more.flatMap fun alt => ' ' :: '|' :: following (spelled alt)) ++ '\n' :: k) ∧
      Lexes ((more.flatMap fun alt => ' ' :: '|' :: following (spelled alt)) ++ '\n' :: k)
        ((more.flatMap fun alt => .pipe :: (spelled alt).map NamedSymbol.kind) ++ kinds) := by
    intro more hs
    induction more with
    | nil => exact ⟨stopped_cons rfl _, h.newline⟩
    | cons alt more ih =>
      obtain ⟨halt, hs⟩ := List.forall_mem_cons.1 hs
      obtain ⟨hstopped, hlexes⟩ := ih hs
      have hrest := lexes_following (printable_spelled halt) hstopped hlexes
      exact ⟨stopped_cons rfl _, by simpa using hrest.pipe.space⟩
  cases sides with
  | nil => exact h.newline
  | cons alt more =>
    obtain ⟨halt, hs⟩ := List.forall_mem_cons.1 hs
    obtain ⟨hstopped, hlexes⟩ := hmore more hs
    simpa [sidesText, sidesKinds] using lexes_following (printable_spelled halt) hstopped hlexes

theorem lexes_rules {rules : List (String × List (List NamedSymbol))}
    (h : ∀ rule ∈ rules, Nameable rule.1 ∧ ∀ alt ∈ rule.2, ∀ x ∈ alt, Printable x) :
    Lexes (rules.flatMap ruleText) (rules.flatMap bnfKinds) := by
  induction rules with
  | nil => exact .nil
  | cons rule rules ih =>
    obtain ⟨⟨hname, hsides⟩, hrules⟩ := List.forall_mem_cons.1 h
    have hrest := (lexes_sidesText hsides (ih hrules)).define
    simpa [ruleText, bnfKinds] using Lexes.reference hname hrest.space

/-- References in the lexemes of a rule are its name and the rules in its right-hand sides. -/
theorem of_reference_mem_bnfKinds {rule : String × List (List NamedSymbol)} {name : String}
    (h : .reference name ∈ bnfKinds rule) : name = rule.1 ∨ ∃ alt ∈ rule.2, .rule name ∈ alt := by
  have hspelled : ∀ alt, .reference name ∈ (spelled alt).map NamedSymbol.kind → NamedSymbol.rule name ∈ alt := by
    intro alt halt
    obtain ⟨x, hx, hkind⟩ := List.mem_map.1 halt
    rcases x with name' | _ | _
    · obtain rfl := LexemeKind.reference.inj hkind
      rw [spelled] at hx
      split at hx
      · simp [NamedSymbol.empty] at hx
      · exact hx
    · cases hkind
    · cases hkind
  obtain ⟨name', sides⟩ := rule
  rw [bnfKinds, List.mem_cons, List.mem_cons] at h
  rcases h with h | h | h
  · exact .inl (LexemeKind.reference.inj h)
  · cases h
  · refine .inr ?_
    cases sides with
    | nil => cases h
    | cons alt more =>
      rw [sidesKinds, List.mem_append, List.mem_flatMap] at h
      rcases h with h | ⟨alt', halt', h⟩
      · exact ⟨alt, .head _, hspelled alt h⟩
      · rcases List.mem_cons.1 h with h | h
        · cases h
        · exact ⟨alt', .tail _ halt', hspelled alt' h⟩

end Notation

namespace Grammar

open Notation

variable {g : Grammar}

/-- The rules that are printed, each with its name and its right-hand sides. -/
def printed (g : Grammar) : List (String × List (List NamedSymbol)) :=
  g.rules.toList.zipIdx.filterMap fun (r, id) =>
    if id = g.start ∨ r.kind = .tokenClass then none else some (r.name, g.sides id)

theorem mem_zipIdx_rules_iff {r : Rule} {id : RuleId} :
    (r, id) ∈ g.rules.toList.zipIdx ↔ id < g.rules.size ∧ g.rule id = r := by
  rw [List.mem_zipIdx_iff_getElem?, Array.getElem?_toList, Array.getElem?_eq_some_iff, ← exists_prop]
  refine exists_congr fun hid => ?_
  simp [rule, Array.getD, hid]

theorem mem_printed_iff {rule : String × List (List NamedSymbol)} : rule ∈ g.printed ↔
    ∃ id < g.rules.size, id ≠ g.start ∧ (g.rule id).kind ≠ .tokenClass ∧
      rule = ((g.rule id).name, g.sides id) := by
  simp only [printed, List.mem_filterMap, Prod.exists, mem_zipIdx_rules_iff]
  constructor
  · rintro ⟨r, id, ⟨hid, rfl⟩, he⟩
    split at he
    · cases he
    · rename_i hprinted
      obtain ⟨hstart, hkind⟩ := not_or.1 hprinted
      exact ⟨id, hid, hstart, hkind, (Option.some.inj he).symm⟩
  · rintro ⟨id, hid, hstart, hkind, rfl⟩
    exact ⟨_, id, ⟨hid, rfl⟩, if_neg (not_or.2 ⟨hstart, hkind⟩)⟩

theorem Resolved.nodup_printed (h : g.Resolved) : (g.printed.map Prod.fst).Nodup := by
  have hnames : g.rules.toList.zipIdx.Pairwise fun p q => p.1.name ≠ q.1.name := by
    have hnames := h.nodup_names
    rwa [← List.zipIdx_map_fst 0 g.rules.toList, List.map_map, List.Nodup, List.pairwise_map] at hnames
  have hname : ∀ p : Rule × Nat, ∀ rule, (if p.2 = g.start ∨ p.1.kind = .tokenClass then none
      else some (p.1.name, g.sides p.2)) = some rule → rule.1 = p.1.name := by
    intro p rule he
    split at he
    · cases he
    · exact (congrArg Prod.fst (Option.some.inj he)).symm
  rw [List.Nodup, List.pairwise_map, printed, List.pairwise_filterMap]
  refine hnames.imp fun {p q} hne rule hrule rule' hrule' => ?_
  rw [hname p rule hrule, hname q rule' hrule']
  exact hne

/-- What is mentioned in the rules that are printed is a rule. -/
theorem Resolved.exists_of_reference_mem (h : g.Resolved) {name : String}
    (hname : .reference name ∈ g.printed.flatMap bnfKinds) : ∃ id < g.rules.size, (g.rule id).name = name := by
  obtain ⟨rule, hrule, hkinds⟩ := List.mem_flatMap.1 hname
  obtain ⟨id, hid, -, -, rfl⟩ := mem_printed_iff.1 hrule
  rcases of_reference_mem_bnfKinds hkinds with rfl | ⟨alt, halt, hmem⟩
  · exact ⟨id, hid, rfl⟩
  · obtain ⟨a, ha, rfl⟩ := List.mem_map.1 halt
    obtain ⟨s, hs, he⟩ := List.mem_map.1 hmem
    cases s with
    | rule id' => exact ⟨id', h.rule_lt a (Array.mem_toList_iff.1 ha) id' hs, NamedSymbol.rule.inj he⟩
    | terminal t => cases he

theorem display_named (s : Symbol) : (g.named s).display = g.symbolName s := by
  cases s <;> simp [named, NamedSymbol.display, symbolName]

theorem toList_bnfAlternative (a : Alternative) :
    (g.bnfAlternative a).toList = following (spelled (a.symbols.map g.named)) := by
  rw [bnfAlternative, Alternative.isEmpty]
  cases hs : a.symbols with
  | nil =>
    have hempty : " \"\"".toList = following [.empty] := by decide +kernel
    simpa [spelled] using hempty
  | cons s rest =>
    simp [spelled, following, String.toList_join, List.flatMap_map, display_named]

theorem toList_bnfRule (id : RuleId) :
    (g.bnfRule (g.rule id)).toList = ruleText ((g.rule id).name, g.sides id) := by
  have hsides : (" |".intercalate ((g.rule id).alternatives.toList.map g.bnfAlternative)).toList =
      sidesText (g.sides id) := by
    rw [sides]
    cases (g.rule id).alternatives.toList with
    | nil => rfl
    | cons a rest =>
      rw [List.map_cons, toList_intercalate_cons, List.flatMap_map, toList_bnfAlternative]
      simp [sidesText, toList_bnfAlternative, List.flatMap_map]
  simp [bnfRule, ruleText, hsides]

theorem toList_toBnf : g.toBnf.toList = g.printed.flatMap ruleText := by
  have hlines : (g.rules.toList.zipIdx.filterMap fun (r, id) =>
      if id = g.start ∨ r.kind = .tokenClass then none else some (g.bnfRule r)) =
        g.printed.map fun rule => String.ofList (ruleText rule) := by
    rw [printed, List.map_filterMap]
    refine List.filterMap_congr fun p hp => ?_
    obtain ⟨r, id⟩ := p
    obtain rfl := (mem_zipIdx_rules_iff.1 hp).2
    dsimp only
    split
    · rfl
    · simp [← toList_bnfRule]
  rw [toBnf, hlines, String.toList_join, List.flatMap_map]
  simp

/-- The text of a grammar is made up of the lexemes of the rules that are printed. -/
theorem lexes_toBnf (h : ∀ rule ∈ g.printed, Nameable rule.1 ∧ ∀ alt ∈ rule.2, ∀ x ∈ alt, Printable x) :
    Lexes g.toBnf.toList (g.printed.flatMap bnfKinds) := by
  rw [toList_toBnf]
  exact lexes_rules h

end Grammar

end ParseForest
