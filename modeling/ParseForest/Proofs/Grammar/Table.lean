import ParseForest.Proofs.Grammar.Built
import Mathlib.Data.List.Forall2
import Mathlib.Data.Set.Insert
import Mathlib.Logic.Function.Basic
import Mathlib.Order.SetNotation

/-!
# Tables

The rules of a grammar by name: which right-hand sides each name has, in their order (`Grammar.listing`, and
`GrammarBuilder.listing` for a grammar under construction) or as a set (`table`), with symbols that go by their
names too (`NamedSymbol`). What happens to the listing of a builder is said by changes (`Change.amend`); nothing
else that a builder knows matters to it, apart from the numbers that it hands out (`Effect`).
-/

namespace ParseForest

/-- What a terminal matches, apart from how it binds as an operator. -/
inductive Atom
  | literal (text : String)
  | pattern (value : PatternTerminal)
deriving DecidableEq

/-- What the terminal matches. -/
def Terminal.atom : Terminal → Atom
  | .literal l => .literal l.text
  | .pattern p => .pattern p

/-- How grammar text shows a terminal. -/
def Atom.display : Atom → String
  | .literal text => Quoted.encode text
  | .pattern p => (Terminal.pattern p).display

theorem Terminal.same_iff {t t' : Terminal} : t.same t' = true ↔ t.atom = t'.atom := by
  cases t <;> cases t' <;> simp [same, atom]

@[simp] theorem Terminal.display_atom (t : Terminal) : t.atom.display = t.display := by
  cases t <;> rfl

/-- A symbol by its name, whatever its number is. -/
inductive NamedSymbol
  | rule (name : String)
  | terminal (atom : Atom)
deriving DecidableEq

namespace NamedSymbol

/-- How grammar text shows a symbol. -/
def display : NamedSymbol → String
  | .rule name => "<" ++ name ++ ">"
  | .terminal a => a.display

/-- The empty literal, which no right-hand side mentions. -/
def empty : NamedSymbol := .terminal (.literal "")

end NamedSymbol

/-- The right-hand sides of each name, in their order; none for a name without a rule. -/
abbrev Listing := String → List (List NamedSymbol)

/-- Right-hand sides by the name of their rule. -/
abbrev Table := Set (String × List NamedSymbol)

/-- The right-hand sides of a listing, whatever their order. -/
def Listing.table (l : Listing) : Table := {p | p.2 ∈ l p.1}

/-! ## Changes -/

/-- What happens to the right-hand sides of a name. -/
inductive Change
  /-- They are added to those that the name has -/
  | define (name : String) (alternatives : List (List NamedSymbol))
  /-- They are added if the name has none -/
  | supply (name : String) (alternatives : List (List NamedSymbol))
  /-- They take the place of those that the name has -/
  | replace (name : String) (alternatives : List (List NamedSymbol))

namespace Change

/-- The name that the change is about. -/
def name : Change → String
  | .define name _ | .supply name _ | .replace name _ => name

/-- The right-hand sides that come with the change. -/
def alternatives : Change → List (List NamedSymbol)
  | .define _ alternatives | .supply _ alternatives | .replace _ alternatives => alternatives

/-- The table after a change. -/
def apply (t : Table) : Change → Table
  | .define name alternatives => {p | p ∈ t ∨ (p.1 = name ∧ p.2 ∈ alternatives)}
  | .supply name alternatives =>
    {p | p ∈ t ∨ ((∀ alt, (name, alt) ∉ t) ∧ p.1 = name ∧ p.2 ∈ alternatives)}
  | .replace name alternatives => {p | (p.1 ≠ name ∧ p ∈ t) ∨ (p.1 = name ∧ p.2 ∈ alternatives)}

/-- The table after changes, the first one first. -/
def applyAll (t : Table) (changes : List Change) : Table := changes.foldl apply t

@[simp] theorem applyAll_nil (t : Table) : applyAll t [] = t := rfl

@[simp] theorem applyAll_singleton (t : Table) (c : Change) : applyAll t [c] = c.apply t := rfl

theorem applyAll_append (t : Table) (cs ds : List Change) :
    applyAll t (cs ++ ds) = applyAll (applyAll t cs) ds := List.foldl_append

variable {l : Listing} {lists more : List (List NamedSymbol)} {alt alt' : List NamedSymbol}

/-- Right-hand sides after others; one that is there is not repeated. -/
def join (lists more : List (List NamedSymbol)) : List (List NamedSymbol) :=
  more.foldl (fun lists alt => if alt ∈ lists then lists else lists ++ [alt]) lists

theorem mem_join_iff : alt ∈ join lists more ↔ alt ∈ lists ∨ alt ∈ more := by
  induction more generalizing lists with
  | nil => simp [join]
  | cons alt' more ih =>
    rw [join, List.foldl_cons, ← join, ih, List.mem_cons]
    by_cases h : alt' ∈ lists
    · rw [if_pos h, or_left_comm, or_iff_right_of_imp (fun he : alt = alt' => .inl (he ▸ h))]
    · rw [if_neg h, List.mem_append, List.mem_singleton, or_assoc]

/-- Right-hand sides that are new and not repeated are put at the end. -/
theorem join_of_nodup (h : (lists ++ more).Nodup) : join lists more = lists ++ more := by
  induction more generalizing lists with
  | nil => simp [join]
  | cons alt more ih =>
    have hnot : alt ∉ lists := fun hmem => (List.disjoint_of_nodup_append h) hmem (.head _)
    rw [join, List.foldl_cons, if_neg hnot, ← join, ih (by simpa using h)]
    simp

/-- The listing after a change. -/
def amend (l : Listing) : Change → Listing
  | .define name alternatives => Function.update l name (join (l name) alternatives)
  | .supply name alternatives =>
    if l name = [] then Function.update l name (join [] alternatives) else l
  | .replace name alternatives => Function.update l name alternatives

/-- The listing after changes, the first one first. -/
def amendAll (l : Listing) (changes : List Change) : Listing := changes.foldl amend l

@[simp] theorem amendAll_nil (l : Listing) : amendAll l [] = l := rfl

@[simp] theorem amendAll_singleton (l : Listing) (c : Change) : amendAll l [c] = c.amend l := rfl

theorem amendAll_append (l : Listing) (cs ds : List Change) :
    amendAll l (cs ++ ds) = amendAll (amendAll l cs) ds := List.foldl_append

theorem amend_define_nil (l : Listing) (name : String) : (define name []).amend l = l :=
  Function.update_eq_self name l

theorem amend_define_cons (l : Listing) (name : String) (alt : List NamedSymbol)
    (alternatives : List (List NamedSymbol)) :
    (define name (alt :: alternatives)).amend l =
      (define name alternatives).amend ((define name [alt]).amend l) := by
  simp [amend, join]

/-- A change leaves the other names as they are. -/
theorem amend_of_ne {c : Change} {name : String} (h : c.name ≠ name) : c.amend l name = l name := by
  cases c with
  | define name' alternatives => exact Function.update_of_ne (Ne.symm h) _ _
  | supply name' alternatives =>
    rw [amend]
    split
    · exact Function.update_of_ne (Ne.symm h) _ _
    · rfl
  | replace name' alternatives => exact Function.update_of_ne (Ne.symm h) _ _

theorem amendAll_of_ne {cs : List Change} {name : String} (h : ∀ c ∈ cs, c.name ≠ name) :
    amendAll l cs name = l name := by
  induction cs generalizing l with
  | nil => rfl
  | cons c cs ih =>
    obtain ⟨hc, hcs⟩ := List.forall_mem_cons.1 h
    rw [amendAll, List.foldl_cons, ← amendAll, ih hcs, amend_of_ne hc]

theorem join_ne_nil (h : lists ≠ [] ∨ more ≠ []) : join lists more ≠ [] := by
  rcases h with h | h
  · obtain ⟨alt, halt⟩ := List.exists_mem_of_ne_nil _ h
    exact List.ne_nil_of_mem (mem_join_iff.2 (.inl halt))
  · obtain ⟨alt, halt⟩ := List.exists_mem_of_ne_nil _ h
    exact List.ne_nil_of_mem (mem_join_iff.2 (.inr halt))

/-- A name that a change comes to has right-hand sides, and keeps having some. -/
theorem amend_ne_nil {c : Change} {name : String} (hc : c.alternatives ≠ [])
    (h : l name ≠ [] ∨ c.name = name) : c.amend l name ≠ [] := by
  by_cases hname : c.name = name
  · subst hname
    cases c with
    | define name alternatives =>
      rw [amend, Change.name, Function.update_self]
      exact join_ne_nil (.inr hc)
    | supply name alternatives =>
      rw [amend]
      split
      · rw [Change.name, Function.update_self]
        exact join_ne_nil (.inr hc)
      · assumption
    | replace name alternatives =>
      rw [amend, Change.name, Function.update_self]
      exact hc
  · rw [amend_of_ne hname]
    exact h.resolve_right hname

theorem amendAll_ne_nil {cs : List Change} {name : String} (hcs : ∀ c ∈ cs, c.alternatives ≠ [])
    (h : l name ≠ [] ∨ ∃ c ∈ cs, c.name = name) : amendAll l cs name ≠ [] := by
  induction cs generalizing l with
  | nil => simpa using h
  | cons c cs ih =>
    obtain ⟨hc, hcs⟩ := List.forall_mem_cons.1 hcs
    rw [List.exists_mem_cons_iff, ← or_assoc] at h
    rw [amendAll, List.foldl_cons, ← amendAll]
    exact ih hcs (h.imp_left (amend_ne_nil hc))

/-- Rules with names of their own get their right-hand sides. -/
theorem amendAll_define {rules : List (String × List (List NamedSymbol))} (hnames : (rules.map Prod.fst).Nodup)
    (hsides : ∀ rule ∈ rules, rule.2.Nodup) (hl : ∀ rule ∈ rules, l rule.1 = []) :
    ∀ rule ∈ rules, amendAll l (rules.map fun rule => .define rule.1 rule.2) rule.1 = rule.2 := by
  induction rules generalizing l with
  | nil => simp
  | cons rule rules ih =>
    rw [List.map_cons, List.nodup_cons] at hnames
    have hother : ∀ rule' ∈ rules, rule'.1 ≠ rule.1 := fun rule' h he => hnames.1 (he ▸ List.mem_map_of_mem h)
    rw [List.map_cons, amendAll, List.foldl_cons, ← amendAll]
    refine List.forall_mem_cons.2 ⟨?_, ih hnames.2 (fun rule' h => hsides rule' (.tail _ h)) fun rule' h => ?_⟩
    · have hrest : ∀ c ∈ rules.map fun rule => define rule.1 rule.2, c.name ≠ rule.1 := by
        intro c hc
        obtain ⟨rule', h, rfl⟩ := List.mem_map.1 hc
        exact hother rule' h
      rw [amendAll_of_ne hrest, amend, Function.update_self, hl rule (.head _)]
      exact join_of_nodup (by simpa using hsides rule (.head _))
    · rw [amend, Function.update_of_ne (hother rule' h)]
      exact hl rule' (.tail _ h)

/-- What a change does to the right-hand sides, whatever their order. -/
theorem table_amend (l : Listing) (c : Change) : (c.amend l).table = c.apply l.table := by
  ext ⟨n, alt⟩
  cases c with
  | define name alternatives =>
    by_cases hn : n = name
    · subst hn
      simp [Listing.table, amend, apply, mem_join_iff]
    · simp [Listing.table, amend, apply, hn]
  | supply name alternatives =>
    by_cases hl : l name = []
    · by_cases hn : n = name
      · subst hn
        simp [Listing.table, amend, apply, hl, mem_join_iff]
      · simp [Listing.table, amend, apply, hl, hn]
    · have hsome : ¬ ∀ alt, alt ∉ l name := fun h => hl (List.eq_nil_iff_forall_not_mem.2 h)
      simp only [Listing.table, amend, apply, if_neg hl, Set.mem_ofPred_eq, hsome, false_and, or_false]
  | replace name alternatives =>
    by_cases hn : n = name
    · subst hn
      simp [Listing.table, amend, apply]
    · simp [Listing.table, amend, apply, hn]

theorem table_amendAll (l : Listing) (cs : List Change) :
    (amendAll l cs).table = applyAll l.table cs := by
  induction cs generalizing l with
  | nil => rfl
  | cons c cs ih => rw [amendAll, List.foldl_cons, ← amendAll, ih, table_amend]; rfl

end Change

namespace GrammarBuilder

variable {b b' b'' : GrammarBuilder} {s : Symbol} {x : NamedSymbol} {symbols : List Symbol}
  {alt : List NamedSymbol} {id : RuleId} {name : String}

/-- The symbol of a number by its name. -/
def named? (b : GrammarBuilder) : Symbol → Option NamedSymbol
  | .rule id => b.drafts[id]?.map fun d => .rule d.rule.name
  | .terminal id => b.terminals[id]?.map fun t => .terminal t.atom

/-- The symbols are those of the names, none of them the empty literal. -/
def Stands (b : GrammarBuilder) : List Symbol → List NamedSymbol → Prop :=
  List.Forall₂ fun s x => b.named? s = some x ∧ x ≠ .empty

/-- The right-hand sides of a rule by names. -/
def sides (b : GrammarBuilder) (d : RuleDraft) : List (List NamedSymbol) :=
  d.rule.alternatives.toList.map fun a => a.symbols.filterMap b.named?

/-- The right-hand sides that the rules have, in their order. -/
def listing (b : GrammarBuilder) : Listing := fun name =>
  ((b.drafts.find? (·.rule.name == name)).map b.sides).getD []

/-- The right-hand sides that the rules have. -/
def table (b : GrammarBuilder) : Table := b.listing.table

/-- Rules have different names and terminals match different things, `#S` and `Token-EOF` are there, the first
rule exists if it is chosen, and right-hand sides are made of symbols that exist, those of one rule being
different. -/
structure Resolved (b : GrammarBuilder) : Prop where
  start : b.named? (.rule startId) = some (.rule startRuleName)
  eofRule : b.named? (.rule eofRuleId) = some (.rule (tokenRuleName eofClass))
  first : ∀ id, b.first = some id → ∃ name, b.named? (.rule id) = some (.rule name)
  name_inj : ∀ {i j : RuleId} {d d' : RuleDraft}, b.drafts[i]? = some d → b.drafts[j]? = some d' →
    d.rule.name = d'.rule.name → i = j
  atom_inj : ∀ {i j : TerminalId} {t t' : Terminal}, b.terminals[i]? = some t →
    b.terminals[j]? = some t' → t.atom = t'.atom → i = j
  stands : ∀ {i : RuleId} {d : RuleDraft}, b.drafts[i]? = some d → ∀ a ∈ d.rule.alternatives,
    ∃ alt, b.Stands a.symbols alt
  nodup : ∀ {i : RuleId} {d : RuleDraft}, b.drafts[i]? = some d →
    (d.rule.alternatives.toList.map Alternative.symbols).Nodup

/-- Symbols keep their names. -/
def Grows (b b' : GrammarBuilder) : Prop := ∀ s x, b.named? s = some x → b'.named? s = some x

/-- Changes of the listing are all that a later builder knows more than numbers. -/
structure Effect (b : GrammarBuilder) (changes : List Change) (b' : GrammarBuilder) : Prop where
  resolved : b'.Resolved
  grows : b.Grows b'
  listing : b'.listing = Change.amendAll b.listing changes
  classes : b'.tokenClasses = b.tokenClasses
  first : ∀ id, b.first = some id → b'.first = some id

/-! ## Symbols and their names -/

theorem named?_rule_iff : b.named? (.rule id) = some (.rule name) ↔
    ∃ d, b.drafts[id]? = some d ∧ d.rule.name = name := by
  simp [named?]

theorem Stands.mono (h : b.Stands symbols alt) (hg : b.Grows b') : b'.Stands symbols alt :=
  h.imp fun _ _ ⟨hs, hne⟩ => ⟨hg _ _ hs, hne⟩

theorem Stands.append {symbols' : List Symbol} {alt' : List NamedSymbol} (h : b.Stands symbols alt)
    (h' : b.Stands symbols' alt') : b.Stands (symbols ++ symbols') (alt ++ alt') :=
  List.rel_append h h'

theorem stands_singleton (h : b.named? s = some x) (hne : x ≠ .empty) : b.Stands [s] [x] :=
  .cons ⟨h, hne⟩ .nil

theorem isEpsilonSymbol_of_named? (h : b.named? s = some x) :
    b.isEpsilonSymbol s = decide (x = .empty) := by
  cases s with
  | rule id =>
    obtain ⟨d, -, rfl⟩ := Option.map_eq_some_iff.1 h
    simp [isEpsilonSymbol, NamedSymbol.empty]
  | terminal id =>
    obtain ⟨t, ht, rfl⟩ := Option.map_eq_some_iff.1 h
    cases t with
    | literal l => simp [isEpsilonSymbol, isEpsilon, ht, Terminal.isEpsilon, NamedSymbol.empty,
        Terminal.atom, ← String.isEmpty_iff]
    | pattern p => simp [isEpsilonSymbol, isEpsilon, ht, Terminal.isEpsilon, NamedSymbol.empty,
        Terminal.atom]

/-- Nothing is dropped from symbols among which there is no empty literal. -/
theorem Stands.filter_eq (h : b.Stands symbols alt) :
    symbols.filter (!b.isEpsilonSymbol ·) = symbols := by
  induction h with
  | nil => rfl
  | cons hx _ ih => simp [isEpsilonSymbol_of_named? hx.1, hx.2, ih]

theorem describe_of_named? (h : b.named? s = some x) : b.describe s = x.display := by
  cases s with
  | rule id =>
    obtain ⟨d, hd, rfl⟩ := Option.map_eq_some_iff.1 h
    simp [describe, ruleName, NamedSymbol.display, Array.getD_eq_getD_getElem?, hd]
  | terminal id =>
    obtain ⟨t, ht, rfl⟩ := Option.map_eq_some_iff.1 h
    simp [describe, NamedSymbol.display, ht]

theorem Grows.refl (b : GrammarBuilder) : b.Grows b := fun _ _ h => h

theorem Grows.trans (h : b.Grows b') (h' : b'.Grows b'') : b.Grows b'' :=
  fun s x hs => h' s x (h s x hs)

namespace Effect

variable {cs cs' : List Change}

theorem refl (h : b.Resolved) : Effect b [] b := ⟨h, .refl b, rfl, rfl, fun _ hf => hf⟩

theorem trans (h : Effect b cs b') (h' : Effect b' cs' b'') : Effect b (cs ++ cs') b'' :=
  ⟨h'.resolved, h.grows.trans h'.grows, by rw [h'.listing, h.listing, Change.amendAll_append],
    h'.classes.trans h.classes, fun id hf => h'.first id (h.first id hf)⟩

theorem table (h : Effect b cs b') : b'.table = Change.applyAll b.table cs := by
  rw [GrammarBuilder.table, h.listing, Change.table_amendAll]
  rfl

end Effect

/-! ## Listings of builders -/

theorem Resolved.named?_inj (h : b.Resolved) {s' : Symbol} (hs : b.named? s = some x)
    (hs' : b.named? s' = some x) : s = s' := by
  cases s with
  | rule id =>
    obtain ⟨d, hd, rfl⟩ := Option.map_eq_some_iff.1 hs
    cases s' with
    | rule id' =>
      obtain ⟨hd', hname⟩ := named?_rule_iff.1 hs'
      rw [h.name_inj hd hname.1 hname.2.symm]
    | terminal id' => obtain ⟨t, -, ht⟩ := Option.map_eq_some_iff.1 hs'; cases ht
  | terminal id =>
    obtain ⟨t, ht, rfl⟩ := Option.map_eq_some_iff.1 hs
    cases s' with
    | rule id' => obtain ⟨d, -, hd⟩ := Option.map_eq_some_iff.1 hs'; cases hd
    | terminal id' =>
      obtain ⟨t', ht', hatom⟩ := Option.map_eq_some_iff.1 hs'
      rw [h.atom_inj ht ht' (NamedSymbol.terminal.inj hatom).symm]

/-- Symbols are known by their names. -/
theorem Resolved.stands_inj (h : b.Resolved) {symbols' : List Symbol} (hs : b.Stands symbols alt)
    (hs' : b.Stands symbols' alt) : symbols = symbols' := by
  induction hs generalizing symbols' with
  | nil => cases hs'; rfl
  | cons hx _ ih =>
    cases hs' with
    | cons hx' hs' => rw [h.named?_inj hx.1 hx'.1, ih hs']

theorem Stands.filterMap_eq (h : b.Stands symbols alt) : symbols.filterMap b.named? = alt := by
  induction h with
  | nil => rfl
  | cons hx _ ih => rw [List.filterMap_cons_some hx.1, ih]

/-- What the symbols stand for that all exist. -/
theorem stands_filterMap (h : ∃ alt, b.Stands symbols alt) :
    b.Stands symbols (symbols.filterMap b.named?) := by
  obtain ⟨alt, halt⟩ := h
  rwa [halt.filterMap_eq]

/-- The right-hand sides of a name are those of its only rule. -/
theorem Resolved.listing_eq (h : b.Resolved) {d : RuleDraft} (hd : b.drafts[id]? = some d) :
    b.listing d.rule.name = b.sides d := by
  cases hfind : b.drafts.find? (·.rule.name == d.rule.name) with
  | none => simpa using Array.find?_eq_none.1 hfind d (Array.mem_of_getElem? hd)
  | some e =>
    obtain ⟨i, hi⟩ := Array.mem_iff_getElem?.1 (Array.mem_of_find?_eq_some hfind)
    have hname : e.rule.name = d.rule.name := by simpa using Array.find?_some hfind
    obtain rfl := h.name_inj hi hd hname
    obtain rfl := Option.some.inj (hi.symm.trans hd)
    simp [listing, hfind]

theorem listing_eq_nil (h : ∀ d ∈ b.drafts, d.rule.name ≠ name) : b.listing name = [] := by
  have hnone : b.drafts.find? (·.rule.name == name) = none :=
    Array.find?_eq_none.2 fun d hd => by simpa using h d hd
  simp [listing, hnone]

/-- A rule whose symbols keep their names keeps its right-hand sides. -/
theorem Resolved.sides_eq (h : b.Resolved) {d d' : RuleDraft} (hd : b.drafts[id]? = some d)
    (hg : b.Grows b') (hr : d'.rule.alternatives = d.rule.alternatives) : b'.sides d' = b.sides d := by
  rw [sides, sides, hr]
  refine List.map_congr_left fun a ha => ?_
  obtain ⟨alt, halt⟩ := h.stands hd a (Array.mem_toList_iff.1 ha)
  rw [halt.filterMap_eq, (halt.mono hg).filterMap_eq]

theorem Resolved.mem_sides_iff (h : b.Resolved) {d : RuleDraft} (hd : b.drafts[id]? = some d) :
    alt ∈ b.sides d ↔ ∃ a ∈ d.rule.alternatives, b.Stands a.symbols alt := by
  simp only [sides, List.mem_map, Array.mem_toList_iff]
  refine exists_congr fun a => and_congr_right fun ha => ⟨?_, Stands.filterMap_eq⟩
  rintro rfl
  exact stands_filterMap (h.stands hd a ha)

/-- The right-hand sides of a rule are different also by names. -/
theorem Resolved.nodup_sides (h : b.Resolved) {d : RuleDraft} (hd : b.drafts[id]? = some d) :
    (b.sides d).Nodup := by
  have hstands : ∀ symbols ∈ d.rule.alternatives.toList.map Alternative.symbols,
      b.Stands symbols (symbols.filterMap b.named?) := fun symbols hs => by
    obtain ⟨a, ha, rfl⟩ := List.mem_map.1 hs
    exact stands_filterMap (h.stands hd a (Array.mem_toList_iff.1 ha))
  have hnodup := (h.nodup hd).map_on (f := fun symbols => symbols.filterMap b.named?)
    fun symbols hs symbols' hs' he => h.stands_inj (hstands symbols hs) (by rw [he]; exact hstands symbols' hs')
  rwa [List.map_map] at hnodup

/-- A name with right-hand sides is that of a rule. -/
theorem exists_of_listing_ne_nil (h : b.listing name ≠ []) :
    ∃ (id : RuleId) (d : RuleDraft), b.drafts[id]? = some d ∧ d.rule.name = name := by
  by_contra hnone
  refine h (listing_eq_nil fun d hd he => hnone ?_)
  obtain ⟨id, hid⟩ := Array.mem_iff_getElem?.1 hd
  exact ⟨id, d, hid, he⟩

theorem Resolved.nodup_listing (h : b.Resolved) (name : String) : (b.listing name).Nodup := by
  by_cases hname : b.listing name = []
  · rw [hname]
    exact List.nodup_nil
  · obtain ⟨id, d, hd, rfl⟩ := exists_of_listing_ne_nil hname
    rw [h.listing_eq hd]
    exact h.nodup_sides hd

/-- Right-hand sides mention what the builder knows, and not the empty literal. -/
theorem Resolved.named_of_mem_listing (h : b.Resolved) (halt : alt ∈ b.listing name) :
    ∀ x ∈ alt, x ≠ .empty ∧ ∃ s, b.named? s = some x := by
  obtain ⟨id, d, hd, rfl⟩ := exists_of_listing_ne_nil (List.ne_nil_of_mem halt)
  rw [h.listing_eq hd, h.mem_sides_iff hd] at halt
  obtain ⟨a, -, hstands⟩ := halt
  intro x hx
  obtain ⟨s, -, hs, hne⟩ := List.exists_right_of_forall₂ hstands.flip hx
  exact ⟨hne, s, hs⟩

end GrammarBuilder

/-! ## Grammars -/

namespace Grammar

/-- The symbol of a number by its name. -/
def named (g : Grammar) : Symbol → NamedSymbol
  | .rule id => .rule (g.rule id).name
  | .terminal id => .terminal (g.terminal id).atom

/-- The right-hand sides of a rule by names. -/
def sides (g : Grammar) (id : RuleId) : List (List NamedSymbol) :=
  (g.rule id).alternatives.toList.map fun a => a.symbols.map g.named

/-- The right-hand sides that the rules have, in their order. -/
def listing (g : Grammar) : Listing := fun name => ((g.ruleNamed? name).map g.sides).getD []

/-- The right-hand sides that the rules have. -/
def table (g : Grammar) : Table :=
  {p | ∃ id, (g.rule id).name = p.1 ∧ ∃ a ∈ (g.rule id).alternatives, a.symbols.map g.named = p.2}

/-- Rules have different names, and right-hand sides mention rules of the grammar. -/
structure Resolved (g : Grammar) : Prop where
  name_inj : ∀ {i j : RuleId}, i < g.rules.size → j < g.rules.size →
    (g.rule i).name = (g.rule j).name → i = j
  rule_lt : ∀ {id : RuleId}, ∀ a ∈ (g.rule id).alternatives, ∀ i, Symbol.rule i ∈ a.symbols →
    i < g.rules.size

variable {g : Grammar} {b : GrammarBuilder}

/-- Numbers beyond the rules have no alternatives. -/
theorem lt_of_mem_alternatives {id : RuleId} {a : Alternative} (ha : a ∈ (g.rule id).alternatives) :
    id < g.rules.size :=
  forall_alternatives_of_lt (P := fun id _ => id < g.rules.size) (fun _ h _ _ => h) id a ha

/-- The right-hand sides of a name are those of its rule. -/
theorem Resolved.mem_table_iff (h : g.Resolved) {id : RuleId} (hid : id < g.rules.size)
    {alt : List NamedSymbol} : ((g.rule id).name, alt) ∈ g.table ↔
      ∃ a ∈ (g.rule id).alternatives, a.symbols.map g.named = alt := by
  constructor
  · rintro ⟨id', hname, a, ha, halt⟩
    obtain rfl := h.name_inj (lt_of_mem_alternatives ha) hid hname
    exact ⟨a, ha, halt⟩
  · rintro ⟨a, ha, halt⟩
    exact ⟨id, rfl, a, ha, halt⟩

/-- Rules can be looked up by their names. -/
theorem Resolved.ruleNamed?_eq_some_iff (h : g.Resolved) {name : String} {id : RuleId} :
    g.ruleNamed? name = some id ↔ id < g.rules.size ∧ (g.rule id).name = name := by
  have hrule : ∀ {i : RuleId} (hi : i < g.rules.size), g.rules[i] = g.rule i := fun hi => by
    simp [rule, Array.getD, hi]
  rw [ruleNamed?, Array.findIdx?_eq_some_iff_getElem]
  constructor
  · rintro ⟨hid, hname, -⟩
    exact ⟨hid, by simpa [hrule] using hname⟩
  · rintro ⟨hid, hname⟩
    refine ⟨hid, by simpa [hrule] using hname, fun j hj hjname => ?_⟩
    have hjname : (g.rule j).name = name := by simpa [hrule] using hjname
    exact Nat.ne_of_lt hj (h.name_inj (Nat.lt_trans hj hid) hid (hjname.trans hname.symm))

theorem Resolved.listing_eq (h : g.Resolved) {id : RuleId} (hid : id < g.rules.size) :
    g.listing (g.rule id).name = g.sides id := by
  simp [listing, h.ruleNamed?_eq_some_iff.2 ⟨hid, rfl⟩]

theorem Resolved.listing_eq_nil (h : g.Resolved) {name : String}
    (hname : ∀ id < g.rules.size, (g.rule id).name ≠ name) : g.listing name = [] := by
  cases hid : g.ruleNamed? name with
  | none => simp [listing, hid]
  | some id =>
    obtain ⟨hlt, he⟩ := h.ruleNamed?_eq_some_iff.1 hid
    exact absurd he (hname id hlt)

/-- Where every rule has right-hand sides, these tell whether there is a rule of a name. -/
theorem Resolved.isSome_ruleNamed?_iff (h : g.Resolved)
    (hne : ∀ id < g.rules.size, (g.rule id).alternatives ≠ #[]) {name : String} :
    (g.ruleNamed? name).isSome ↔ g.listing name ≠ [] := by
  constructor
  · intro hsome
    obtain ⟨id, hid⟩ := Option.isSome_iff_exists.1 hsome
    obtain ⟨hlt, rfl⟩ := h.ruleNamed?_eq_some_iff.1 hid
    rw [h.listing_eq hlt, sides, ne_eq, List.map_eq_nil_iff, Array.toList_eq_nil_iff]
    exact hne id hlt
  · intro hlisting
    by_contra hnone
    refine hlisting (h.listing_eq_nil fun id hid he => hnone ?_)
    rw [h.ruleNamed?_eq_some_iff.2 ⟨hid, he⟩]
    rfl

theorem Resolved.nodup_names (h : g.Resolved) : (g.rules.toList.map Rule.name).Nodup := by
  refine List.pairwise_iff_getElem.2 fun i j hi hj hij he => Nat.ne_of_lt hij ?_
  simp only [List.length_map, Array.length_toList] at hi hj
  exact h.name_inj hi hj (by simpa [rule, Array.getD, hi, hj] using he)

theorem Resolved.table_eq (h : g.Resolved) : g.table = g.listing.table := by
  ext ⟨name, alt⟩
  by_cases hname : ∃ id < g.rules.size, (g.rule id).name = name
  · obtain ⟨id, hid, rfl⟩ := hname
    rw [h.mem_table_iff hid]
    simp [Listing.table, h.listing_eq hid, sides]
  · have hnil := h.listing_eq_nil fun id hid he => hname ⟨id, hid, he⟩
    have hnot : (name, alt) ∉ g.table := fun ⟨id, he, a, ha, _⟩ =>
      hname ⟨id, lt_of_mem_alternatives ha, he⟩
    simp [Listing.table, hnil, hnot]

end Grammar

end ParseForest
