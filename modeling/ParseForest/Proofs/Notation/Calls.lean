import ParseForest.Proofs.Grammar.Annotations
import ParseForest.Proofs.Notation.Subset
import Mathlib.Logic.Relation

/-!
# The calls of the reader of BNF

Reading BNF is a run of calls of the builder, each for something that stands in the text
(`GrammarBuilder.Calls`, `Reader.runs_rules`). So what the builder has more in the end stands in the text, the
rules with the kind that their name tells (`Calls.heads`, `Calls.atoms`), and the first rule stays the first one.
-/

namespace ParseForest

open Notation (LexemeKind)

/-- The terminal stands among the lexemes. -/
def Atom.StandsIn (kinds : List LexemeKind) : Atom → Prop
  | .literal text => .literal text ∈ kinds
  | .pattern p => p.className = none ∧ .pattern p.pattern p.flags ∈ kinds

namespace GrammarBuilder

/-- One call of the reader of a text with these lexemes. -/
inductive Call (kinds : List LexemeKind) : GrammarBuilder → GrammarBuilder → Prop
  | internRule {b : GrammarBuilder} {name : String} (h : .reference name ∈ kinds) :
    Call kinds b (b.internRule name (kindOfName name)).2
  | mention {b : GrammarBuilder} {name : String} (h : .reference name ∈ kinds) (place : Location) :
    Call kinds b (b.mention name place).2
  | literal {b : GrammarBuilder} {text : String} (h : .literal text ∈ kinds) :
    Call kinds b (b.literal text).2
  | pattern {b : GrammarBuilder} {text flags : String} (h : .pattern text flags ∈ kinds) :
    Call kinds b (b.pattern text flags).2
  | annotate {b b' : GrammarBuilder} {n : Marking} (h : b.annotateBy n = (.ok (), b')) : Call kinds b b'
  | addAlternative (b : GrammarBuilder) (id : RuleId) (symbols : List Symbol) :
    Call kinds b (b.addAlternative id symbols)
  | setFirst {b : GrammarBuilder} (h : b.first = none) (id : RuleId) : Call kinds b (b.setFirst id)

/-- A run of calls. -/
abbrev Calls (kinds : List LexemeKind) : GrammarBuilder → GrammarBuilder → Prop :=
  Relation.ReflTransGen (Call kinds)

variable {b b' : GrammarBuilder} {kinds : List LexemeKind}

/-! ## What one call does -/

theorem noted_of_annotateBy {n : Marking} (h : b.annotateBy n = (.ok (), b')) : Noted [n] b b' := by
  rcases b.annotateBy_cases n with ⟨-, b'', h', hnoted⟩ | ⟨-, e, h'⟩ | ⟨-, e, b'', h', -⟩
  · rw [h] at h'
    exact (Prod.mk.inj h').2 ▸ hnoted
  · rw [h] at h'
    cases h'
  · rw [h] at h'
    cases h'

/-- What the terminals match, in the order of their numbers. -/
def atoms (b : GrammarBuilder) : List Atom := b.terminals.toList.map Terminal.atom

theorem atoms_internTerminal (b : GrammarBuilder) (t : Terminal) :
    (b.internTerminal t).2.atoms = b.atoms ∨ (b.internTerminal t).2.atoms = b.atoms ++ [t.atom] := by
  rw [internTerminal]
  split
  · exact .inl rfl
  · exact .inr (by simp [atoms])

/-- Annotations leave a literal the literal that it is. -/
theorem Noted.atoms_eq {annotations : List Marking} (h : Noted annotations b b') : b'.atoms = b.atoms := by
  refine List.ext_getElem? fun i => ?_
  simp only [atoms, List.getElem?_map, Array.getElem?_toList, h.terminal, Option.map_map]
  congr 1
  funext t
  cases t <;> rfl

/-- A call only adds rules, which stand in the text, as does their kind. -/
theorem Call.heads (h : Call kinds b b') : ∃ added, b'.heads = b.heads ++ added ∧
    ∀ x ∈ added, .reference x.1 ∈ kinds ∧ x.2 = kindOfName x.1 := by
  have hkeep : b'.heads = b.heads → ∃ added, b'.heads = b.heads ++ added ∧
      ∀ x ∈ added, .reference x.1 ∈ kinds ∧ x.2 = kindOfName x.1 :=
    fun he => ⟨[], by rw [he, List.append_nil], by simp⟩
  have hintern : ∀ {name : String}, .reference name ∈ kinds →
      b'.heads = (b.internRule name (kindOfName name)).2.heads →
      ∃ added, b'.heads = b.heads ++ added ∧ ∀ x ∈ added, .reference x.1 ∈ kinds ∧ x.2 = kindOfName x.1 := by
    intro name hname he
    rcases b.heads_internRule name (kindOfName name) with h | h
    · exact hkeep (he.trans h)
    · exact ⟨_, he.trans h, List.forall_mem_singleton.2 ⟨hname, rfl⟩⟩
  cases h with
  | internRule hname => exact hintern hname rfl
  | mention hname place => exact hintern hname (heads_mention b _ place)
  | literal _ => exact hkeep (heads_internTerminal b _)
  | pattern _ => exact hkeep (heads_internTerminal b _)
  | annotate hn => exact hkeep (by rw [GrammarBuilder.heads, (noted_of_annotateBy hn).drafts]; rfl)
  | addAlternative id symbols => exact hkeep (heads_addAlternative b id symbols)
  | setFirst => exact hkeep rfl

/-- A call only adds terminals, which stand in the text. -/
theorem Call.atoms (h : Call kinds b b') : ∃ added, b'.atoms = b.atoms ++ added ∧
    ∀ a ∈ added, a.StandsIn kinds := by
  have hkeep : b'.atoms = b.atoms → ∃ added, b'.atoms = b.atoms ++ added ∧ ∀ a ∈ added, a.StandsIn kinds :=
    fun he => ⟨[], by rw [he, List.append_nil], by simp⟩
  have hintern : ∀ {t : Terminal}, t.atom.StandsIn kinds → b' = (b.internTerminal t).2 →
      ∃ added, b'.atoms = b.atoms ++ added ∧ ∀ a ∈ added, a.StandsIn kinds := by
    rintro t ht rfl
    rcases b.atoms_internTerminal t with h | h
    · exact hkeep h
    · exact ⟨_, h, List.forall_mem_singleton.2 ht⟩
  have hsame : b'.terminals = b.terminals → b'.atoms = b.atoms := fun he => by
    rw [GrammarBuilder.atoms, he]
    rfl
  cases h with
  | internRule => exact hkeep (hsame (terminals_internRule b _ _))
  | mention => exact hkeep (hsame (terminals_internRule b _ _))
  | literal htext => exact @hintern (.ofText _) htext rfl
  | pattern htext => exact @hintern (.pattern ⟨_, _, none⟩) ⟨rfl, htext⟩ rfl
  | annotate hn => exact hkeep (noted_of_annotateBy hn).atoms_eq
  | addAlternative id symbols => exact hkeep (hsame (terminals_addAlternative b id symbols))
  | setFirst => exact hkeep rfl

theorem Call.first (h : Call kinds b b') {id : RuleId} (hid : b.first = some id) : b'.first = some id := by
  have hintern : ∀ t, (b.internTerminal t).2.first = b.first := by
    intro t
    rw [internTerminal]
    split <;> rfl
  have hrule : ∀ name kind, (b.internRule name kind).2.first = b.first := by
    intro name kind
    rw [GrammarBuilder.internRule]
    split <;> rfl
  cases h with
  | internRule => exact (hrule _ _).trans hid
  | mention => exact (hrule _ _).trans hid
  | literal => exact (hintern _).trans hid
  | pattern => exact (hintern _).trans hid
  | annotate hn => exact (noted_of_annotateBy hn).first.trans hid
  | addAlternative id symbols =>
    rw [GrammarBuilder.addAlternative]
    dsimp only
    split
    · exact hid
    · simp only [hid, reduceCtorEq, and_false, if_false]
      split
      · exact hid
      · rfl
  | setFirst hnone => exact absurd (hid.symm.trans hnone) (by simp)

/-! ## What a run of calls does -/

theorem Calls.heads (h : Calls kinds b b') : ∃ added, b'.heads = b.heads ++ added ∧
    ∀ x ∈ added, .reference x.1 ∈ kinds ∧ x.2 = kindOfName x.1 := by
  induction h with
  | refl => exact ⟨[], (List.append_nil _).symm, by simp⟩
  | tail _ hcall ih =>
    obtain ⟨added, hadded, hall⟩ := ih
    obtain ⟨more, hmore, hall'⟩ := hcall.heads
    exact ⟨added ++ more, by rw [hmore, hadded, List.append_assoc], List.forall_mem_append.2 ⟨hall, hall'⟩⟩

theorem Calls.atoms (h : Calls kinds b b') : ∃ added, b'.atoms = b.atoms ++ added ∧
    ∀ a ∈ added, a.StandsIn kinds := by
  induction h with
  | refl => exact ⟨[], (List.append_nil _).symm, by simp⟩
  | tail _ hcall ih =>
    obtain ⟨added, hadded, hall⟩ := ih
    obtain ⟨more, hmore, hall'⟩ := hcall.atoms
    exact ⟨added ++ more, by rw [hmore, hadded, List.append_assoc], List.forall_mem_append.2 ⟨hall, hall'⟩⟩

theorem Calls.first (h : Calls kinds b b') {id : RuleId} (hid : b.first = some id) : b'.first = some id := by
  induction h with
  | refl => exact hid
  | tail _ hcall ih => exact hcall.first ih

end GrammarBuilder

namespace Notation

namespace Reader

open GrammarBuilder (Call Calls)

variable {r r' : Reader} {kinds : List LexemeKind} {s : Symbol} {symbols : List Symbol} {fuel : Nat}

/-! ## Readers -/

/-- A reader goes on to another by calls for what stands in the text. -/
structure Runs (kinds : List LexemeKind) (r r' : Reader) : Prop where
  calls : Calls kinds r.builder r'.builder
  rest : r'.rest.map Lexeme.kind ⊆ r.rest.map Lexeme.kind

theorem Runs.refl (kinds : List LexemeKind) (r : Reader) : Runs kinds r r := ⟨.refl, List.Subset.refl _⟩

theorem Runs.trans {r'' : Reader} (h : Runs kinds r r') (h' : Runs kinds r' r'') : Runs kinds r r'' :=
  ⟨h.calls.trans h'.calls, List.Subset.trans h'.rest h.rest⟩

theorem runs_skip (kinds : List LexemeKind) (r : Reader) : Runs kinds r r.skip :=
  ⟨.refl, List.map_subset _ (List.tail_subset _)⟩

theorem mem_of_peek {kind : LexemeKind} (h : r.peek.kind = kind) (hne : kind ≠ .stop) :
    kind ∈ r.rest.map Lexeme.kind := by
  cases hr : r.rest with
  | nil => exact absurd (by rw [← h, peek, hr]; rfl) hne
  | cons lexeme rest => exact List.mem_map.2 ⟨lexeme, .head _, by rw [← h, peek, hr]; rfl⟩

theorem runs_annotateWith {id : TerminalId} {b : GrammarBuilder} {stop : Location} {rest : List Lexeme}
    (h : annotateWith id b stop rest = .ok r') : Runs kinds ⟨rest, stop, b⟩ r' := by
  induction rest generalizing b with
  | nil =>
    obtain rfl := Except.ok.inj h
    exact .refl _ _
  | cons lexeme rest ih =>
    have hmark : ∀ {n : GrammarBuilder.Marking} {b' : GrammarBuilder}, b.annotateBy n = (.ok (), b') →
        annotateWith id b' stop rest = .ok r' → Runs kinds ⟨lexeme :: rest, stop, b⟩ r' := by
      intro n b' hb' h
      have hrest := ih h
      exact ⟨.head (.annotate hb') hrest.calls, List.subset_cons_of_subset _ hrest.rest⟩
    rw [annotateWith.eq_def] at h
    split at h
    · rename_i level place rest' heq
      obtain ⟨rfl, rfl⟩ := List.cons.inj heq
      split at h
      · cases h
      · exact @hmark ⟨id, some level, none, place⟩ _ ‹_› h
    · rename_i side place rest' heq
      obtain ⟨rfl, rfl⟩ := List.cons.inj heq
      split at h
      · cases h
      · exact @hmark ⟨id, none, some side, place⟩ _ ‹_› h
    · obtain rfl := Except.ok.inj h
      exact .refl _ _

theorem Takes.runs (h : Takes r s r') (hk : r.rest.map Lexeme.kind ⊆ kinds) : Runs kinds r r' := by
  cases h with
  | reference hkind =>
    exact (runs_skip kinds r).trans
      ⟨.single (.mention (hk (mem_of_peek hkind (by simp))) _), List.Subset.refl _⟩
  | literal hkind hr =>
    simp only [Reader.literal, bind, Except.bind] at hr
    split at hr
    · cases hr
    · rename_i r'' hr''
      obtain ⟨-, rfl⟩ := Prod.mk.inj (Except.ok.inj hr)
      exact (runs_skip kinds r).trans
        ⟨.head (.literal (hk (mem_of_peek hkind (by simp)))) (runs_annotateWith hr'').calls,
          (runs_annotateWith hr'' : Runs kinds _ _).rest⟩
  | pattern hkind =>
    exact (runs_skip kinds r).trans
      ⟨.single (.pattern (hk (mem_of_peek hkind (by simp)))), List.Subset.refl _⟩

theorem runs_bnfSymbols (hk : r.rest.map Lexeme.kind ⊆ kinds) (h : bnfSymbols fuel r = .ok (symbols, r')) :
    Runs kinds r r' := by
  induction fuel generalizing r symbols with
  | zero => cases h
  | succ fuel ih =>
    rcases bnfSymbols_succ h with ⟨-, -, rfl⟩ | ⟨-, s, r₁, rest, htakes, hrest, -⟩
    · exact .refl _ _
    · have hfirst := htakes.runs hk
      exact hfirst.trans (ih (List.Subset.trans hfirst.rest hk) hrest)

theorem runs_bnfSequence (hk : r.rest.map Lexeme.kind ⊆ kinds) (h : bnfSequence r = .ok (symbols, r')) :
    Runs kinds r r' := by
  rw [bnfSequence] at h
  split at h
  · cases h
  · exact runs_bnfSymbols hk h

theorem runs_bnfMore {lists : List (List Symbol)} (hk : r.rest.map Lexeme.kind ⊆ kinds)
    (h : bnfMore fuel r = .ok (lists, r')) : Runs kinds r r' := by
  induction fuel generalizing r lists with
  | zero => cases h
  | succ fuel ih =>
    rcases bnfMore_succ h with ⟨-, -, rfl⟩ | ⟨-, symbols, r₁, more, hsequence, hmore, -⟩
    · exact .refl _ _
    · have hskip := runs_skip kinds r
      have hfirst := hskip.trans (runs_bnfSequence (List.Subset.trans hskip.rest hk) hsequence)
      exact hfirst.trans (ih (List.Subset.trans hfirst.rest hk) hmore)

theorem runs_openRule {name : String} (h : .reference name ∈ kinds) : Runs kinds r (openRule r name).2 := by
  rw [openRule]
  dsimp only
  refine ⟨.head (.internRule h) ?_, List.Subset.refl _⟩
  split
  · rename_i hnone
    exact .single (.setFirst hnone.2 _)
  · exact .refl

theorem calls_addAlternatives (b : GrammarBuilder) (id : RuleId) (lists : List (List Symbol)) :
    Calls kinds b (lists.foldl (fun b symbols => b.addAlternative id symbols) b) := by
  induction lists generalizing b with
  | nil => exact .refl
  | cons symbols lists ih => exact .head (.addAlternative b id symbols) (ih _)

/-- The rest of a rule whose name has been read. -/
theorem runs_rule (hk : r.rest.map Lexeme.kind ⊆ kinds) (h : rule .bnf r = .ok r') :
    ∃ name, r.peek.kind = .reference name ∧ Runs kinds r (openRule r.skip name).2 ∧
      Runs kinds (openRule r.skip name).2 r' := by
  obtain ⟨name, symbols, r₁, more, r₂, hname, -, -, hsequence, hmore, rfl⟩ := exists_of_rule_bnf h
  have hopen := (runs_skip kinds r).trans (runs_openRule (hk (mem_of_peek hname (by simp))))
  have hfirst := (runs_skip kinds (openRule r.skip name).2).trans (runs_bnfSequence
    (List.Subset.trans (hopen.trans (runs_skip kinds _)).rest hk) hsequence)
  have hmore := runs_bnfMore (List.Subset.trans (hopen.trans hfirst).rest hk) hmore
  exact ⟨name, hname, hopen, (hfirst.trans hmore).trans
    ⟨calls_addAlternatives _ _ (symbols :: more), List.Subset.refl _⟩⟩

/-- Unless the text is at its end, a rule is read, and then the others. -/
theorem rules_succ (h : rules .bnf (fuel + 1) r = .ok r') : (r.peek.kind = .stop ∧ r' = r) ∨
    (r.peek.kind ≠ .stop ∧ ∃ r₁, rule .bnf r = .ok r₁ ∧ rules .bnf fuel r₁ = .ok r') := by
  rw [rules] at h
  split at h
  · rename_i hstop
    exact .inl ⟨hstop, (Except.ok.inj h).symm⟩
  · rename_i hstop
    simp only [bind, Except.bind] at h
    split at h
    · cases h
    · rename_i r₁ hr₁
      exact .inr ⟨hstop, r₁, hr₁, h⟩

/-- Reading a text is a run of calls for what stands in it. -/
theorem runs_rules (hk : r.rest.map Lexeme.kind ⊆ kinds) (h : rules .bnf fuel r = .ok r') : Runs kinds r r' := by
  induction fuel generalizing r with
  | zero => cases h
  | succ fuel ih =>
    rcases rules_succ h with ⟨-, rfl⟩ | ⟨-, r₁, hr₁, hrest⟩
    · exact .refl _ _
    · obtain ⟨name, -, hopen, hbody⟩ := runs_rule hk hr₁
      have hrule := hopen.trans hbody
      exact hrule.trans (ih (List.Subset.trans hrule.rest hk) hrest)

end Reader

end Notation

end ParseForest
