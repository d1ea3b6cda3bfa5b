import ParseForest.Compiled
import ParseForest.Proofs.Automaton.Actions
import Mathlib.Data.List.Forall2

/-!
# Classes and the terminals of their tokens

A lexer cuts a text into tokens, each of which comes from a class (`Lexer.Cuts`). The terminal of a token
class is satisfied by the tokens that have the name of the class
(`TerminalMatcher.mem_matching_ofClass_iff`). What a compiled grammar has of its grammar and its lexer is in
`CompiledGrammar.parts_of_ofGrammar`.
-/

namespace ParseForest

/-! ## Texts cut into tokens -/

namespace Lexer

/-- How a text is cut at a place: the tokens, each with the class that it comes from. -/
inductive Cuts (lexer : Lexer) : Place → List Char → List (TokenClass × Token) → Prop
  | nil (place : Place) : Cuts lexer place [] []
  | skip {place : Place} {c : Char} {cs : List Char} {lead : Lead} {cut : List (TokenClass × Token)}
      (h : lexer.bestLead? (c :: cs) = some lead) (hk : lead.info.kind = .skip)
      (hrest : Cuts lexer (((c :: cs).take lead.length).foldl Place.advance place)
        ((c :: cs).drop lead.length) cut) : Cuts lexer place (c :: cs) cut
  | token {place after : Place} {c : Char} {cs text : List Char} {lead : Lead}
      {cut : List (TokenClass × Token)} (h : lexer.bestLead? (c :: cs) = some lead)
      (hk : lead.info.kind ≠ .skip) (ht : text = (c :: cs).take lead.length)
      (ha : after = text.foldl Place.advance place)
      (hrest : Cuts lexer after ((c :: cs).drop lead.length) cut) :
      Cuts lexer place (c :: cs)
        ((lead.info, ⟨lead.info.name, String.ofList text, place.position (after.offset - place.offset)⟩)
          :: cut)

variable {lexer : Lexer} {place : Place} {cs : List Char} {cut : List (TokenClass × Token)}

theorem lead?_eq_some {text : List Char} {c : LexerClass} {lead : Lead}
    (h : lead? text c = some lead) : lead.info = c.info ∧ 0 < lead.length := by
  rw [lead?] at h
  split at h
  · obtain rfl := Option.some.inj h
    exact ⟨rfl, Nat.succ_pos _⟩
  · cases h

/-- What is taken at the start of a text is a match of a class. -/
theorem bestLead?_eq_some {text : List Char} {lead : Lead} (h : lexer.bestLead? text = some lead) :
    lead.info ∈ lexer.description.classes ∧ 0 < lead.length := by
  rw [bestLead?, ← Array.foldl_toList] at h
  refine List.foldlRecOn (motive := fun best => ∀ lead, best = some lead →
    lead.info ∈ lexer.description.classes ∧ 0 < lead.length) lexer.classes.toList _
    (fun _ h => by cases h) (fun best hbest c hc lead hlead => ?_) lead h
  have hnew : ∀ lead, lead? text c = some lead →
      lead.info ∈ lexer.description.classes ∧ 0 < lead.length := fun lead hlead => by
    obtain ⟨hinfo, hpos⟩ := lead?_eq_some hlead
    exact ⟨hinfo ▸ Array.mem_map_of_mem (Array.mem_toList_iff.1 hc), hpos⟩
  split at hlead
  · exact hnew lead hlead
  · exact hbest lead hlead
  · rename_i new hnew'
    split at hlead
    · exact hnew lead (hnew'.trans hlead)
    · exact hbest lead hlead

/-- A token is named by the class that it comes from, and is not empty. -/
theorem Cuts.of_mem (h : lexer.Cuts place cs cut) {x : TokenClass × Token} (hx : x ∈ cut) :
    x.1 ∈ lexer.description.classes ∧ x.1.kind ≠ .skip ∧ x.2.className = x.1.name ∧
      x.2.isEof = false := by
  induction h with
  | nil => cases hx
  | skip _ _ _ ih => exact ih hx
  | @token place after c cs text lead cut h hk ht ha hrest ih =>
    rcases List.mem_cons.1 hx with rfl | hx
    · obtain ⟨hmem, hpos⟩ := bestLead?_eq_some h
      refine ⟨hmem, hk, rfl, ?_⟩
      have hne : text ≠ [] := by
        rw [ht, ← Nat.succ_pred_eq_of_pos hpos]
        exact List.cons_ne_nil _ _
      rw [Token.isEof, Bool.and_eq_false_iff]
      refine .inr ?_
      rw [Bool.eq_false_iff]
      intro hempty
      exact hne (by simpa using hempty)
    · exact ih hx

theorem tokensFrom_cuts {fuel : Nat} {done tokens : Array Token}
    (h : lexer.tokensFrom fuel place done cs = .ok tokens) (hfuel : cs.length < fuel) :
    ∃ cut stop, lexer.Cuts place cs cut ∧
      tokens.toList = done.toList ++ cut.map Prod.snd ++ [.eof stop] := by
  induction fuel generalizing place done cs with
  | zero => exact absurd hfuel (Nat.not_lt_zero _)
  | succ fuel ih =>
    cases cs with
    | nil =>
      obtain rfl := Except.ok.inj h
      exact ⟨[], place.position 0, .nil place, by simp⟩
    | cons c cs =>
      rw [tokensFrom] at h
      split at h
      · cases h
      · rename_i lead hlead
        have hless : ((c :: cs).drop lead.length).length < fuel := by
          have := (bestLead?_eq_some hlead).2
          simp only [List.length_drop, List.length_cons] at hfuel ⊢
          omega
        obtain ⟨cut, stop, hcut, htokens⟩ := ih h hless
        by_cases hk : lead.info.kind = .skip
        · rw [if_pos hk] at htokens
          exact ⟨cut, stop, .skip hlead hk hcut, htokens⟩
        · rw [if_neg hk] at htokens
          refine ⟨_, stop, .token hlead hk rfl rfl hcut, ?_⟩
          rw [htokens]
          simp

/-- A text that is cut into tokens is cut at its places, and the end of the input comes after it. -/
theorem tokenize_cuts {source : String} {tokens : TokenStream}
    (h : lexer.tokenize source = .ok tokens) : ∃ cut stop,
      lexer.Cuts ⟨1, 1, 0⟩ source.toList cut ∧
      tokens.tokens.toList = cut.map Prod.snd ++ [.eof stop] := by
  simp only [tokenize, bind, Except.bind] at h
  split at h
  · cases h
  · rename_i toks htoks
    obtain ⟨cut, stop, hcut, htokens⟩ := tokensFrom_cuts htoks (Nat.lt_succ_self _)
    refine ⟨cut, stop, hcut, ?_⟩
    rw [Array.toList_empty, List.nil_append] at htokens
    have hlast : toks.back?.any Token.isEof = true := by
      rw [← Array.getLast?_toList, htokens, List.getLast?_concat]
      rfl
    rw [TokenStream.ensureEof, if_pos hlast] at h
    obtain rfl := Except.ok.inj h
    exact htokens

/-! ## Names of classes -/

/-- Classes that compile are those of the lexer, and no two of them that are not literal have the same
name. -/
theorem compile_eq_ok {seen : List String} {cs : List TokenClass} {classes : List LexerClass}
    (h : compile seen cs = .ok classes) : classes.map LexerClass.info = cs ∧
      (∀ c ∈ cs, c.kind ≠ .literal → c.name ≠ eofClass ∧ c.name ∉ seen) ∧
      ∀ c ∈ cs, ∀ c' ∈ cs, c.kind ≠ .literal → c'.kind ≠ .literal → c.name = c'.name → c = c' := by
  induction cs generalizing seen classes with
  | nil =>
    obtain rfl := Except.ok.inj h
    exact ⟨rfl, fun _ hc => (List.not_mem_nil hc).elim, fun _ hc => (List.not_mem_nil hc).elim⟩
  | cons c cs ih =>
    rw [compile] at h
    split at h
    · cases h
    · rename_i hfree
      split at h
      · cases h
      · rename_i matcher _
        simp only [bind, Except.bind] at h
        split at h
        · cases h
        · rename_i rest hrest
          obtain rfl := Except.ok.inj h
          obtain ⟨hinfo, hnames, hunique⟩ := ih hrest
          have hrest : ∀ c' ∈ cs, c'.kind ≠ .literal → c'.name ∉ seen ∧
              (c.kind ≠ .literal → c'.name ≠ c.name) := by
            intro c' hc' hk'
            have hname := (hnames c' hc' hk').2
            split at hname
            · exact ⟨hname, fun hk => absurd ‹_› hk⟩
            · exact ⟨fun hm => hname (.tail _ hm), fun _ he => hname (he ▸ .head _)⟩
          refine ⟨by rw [List.map_cons, hinfo, LexerClass.info_ofMatcher], List.forall_mem_cons.2 ⟨fun hk =>
            ⟨fun he => hfree ⟨hk, .inl he⟩, fun hm => hfree ⟨hk, .inr hm⟩⟩, fun c' hc' hk' =>
            ⟨(hnames c' hc' hk').1, (hrest c' hc' hk').1⟩⟩, fun a ha b hb hka hkb he => ?_⟩
          rcases List.mem_cons.1 ha with rfl | ha' <;> rcases List.mem_cons.1 hb with rfl | hb'
          · rfl
          · exact absurd he.symm ((hrest b hb' hkb).2 hka)
          · exact absurd he ((hrest a ha' hka).2 hkb)
          · exact hunique a ha' b hb' hka hkb he

/-- A lexer has the classes of its description. Those that are not literal have different names, and
none the name of the end of the input. -/
theorem ofDescription_eq_ok {d : LexerDescription} (h : ofDescription d = .ok lexer) :
    lexer.description = d ∧ (∀ c ∈ d.classes, c.kind ≠ .literal → c.name ≠ eofClass) ∧
      ∀ c ∈ d.classes, ∀ c' ∈ d.classes, c.kind ≠ .literal → c'.kind ≠ .literal →
        c.name = c'.name → c = c' := by
  simp only [ofDescription, bind, Except.bind] at h
  split at h
  · cases h
  · rename_i classes hclasses
    obtain rfl := Except.ok.inj h
    obtain ⟨hinfo, hnames, hunique⟩ := compile_eq_ok hclasses
    refine ⟨?_, fun c hc hk => (hnames c (Array.mem_toList_iff.2 hc) hk).1, fun c hc c' hc' =>
      hunique c (Array.mem_toList_iff.2 hc) c' (Array.mem_toList_iff.2 hc')⟩
    cases d
    simp only [description, LexerDescription.mk.injEq]
    apply Array.toList_inj.1
    simpa using hinfo

end Lexer

/-- Literals are added to a description, and nothing else. -/
theorem LexerDescription.mem_foldl_literal {texts : List String} {d : LexerDescription}
    {c : TokenClass} (hk : c.kind ≠ .literal) :
    c ∈ (texts.foldl literal d).classes ↔ c ∈ d.classes := by
  induction texts generalizing d with
  | nil => rfl
  | cons text texts ih =>
    rw [List.foldl_cons, ih, literal]
    split
    · rfl
    · rw [add, Array.mem_push, or_iff_left]
      rintro rfl
      exact hk rfl

/-! ## Terminals of classes -/

namespace GrammarBuilder

variable {b : GrammarBuilder}

theorem exists_internTerminal (t : Terminal) :
    ∃ t', (b.internTerminal t).2.terminals[(b.internTerminal t).1]? = some t' ∧ t'.same t = true := by
  rw [internTerminal]
  split
  · rename_i id hid
    obtain ⟨hlt, hsame, -⟩ := Array.findIdx?_eq_some_iff_getElem.1 hid
    exact ⟨_, Array.getElem?_eq_getElem hlt, hsame⟩
  · refine ⟨t, Array.getElem?_push_size, ?_⟩
    cases t <;> simp [Terminal.same]

/-- The terminal of the end of input is that of its class. -/
theorem terminal_eof {g : Grammar} (h : b.build = .ok g) :
    g.terminals[g.eof]? = some (.ofClass eofClass "") := by
  obtain ⟨first, -, rfl, -⟩ := exists_of_build h
  obtain ⟨hid, rest, hrest⟩ := b.terminals_complete first
  obtain ⟨t, ht, hsame⟩ := exists_internTerminal (b := b) (.ofClass eofClass "")
  have hofClass : t = .ofClass eofClass "" := by
    cases t with
    | literal => cases hsame
    | pattern p => exact congrArg Terminal.pattern (eq_of_beq hsame)
  have hlt := (Array.getElem?_eq_some_iff.1 ht).1
  rw [hid, ← Array.getElem?_toList, ← hrest, List.getElem?_append_left (by simpa using hlt),
    Array.getElem?_toList, ht, hofClass]

end GrammarBuilder

theorem forall₂_of_mapM {α β ε : Type} {f : α → Except ε β} {xs : List α} {ys : List β}
    (h : xs.mapM f = .ok ys) : List.Forall₂ (fun x y => f x = .ok y) xs ys := by
  induction xs generalizing ys with
  | nil =>
    obtain rfl := Except.ok.inj h
    exact .nil
  | cons x xs ih =>
    rw [List.mapM_cons] at h
    simp only [bind, Except.bind] at h
    split at h
    · cases h
    · rename_i y hy
      split at h
      · cases h
      · rename_i ys' hys
        obtain rfl := Except.ok.inj h
        exact .cons hy (ih hys)

namespace TerminalMatcher

variable {g : Grammar} {m : TerminalMatcher}

/-- The tests of a matcher are those of the terminals. -/
theorem test_of_ofGrammar (hm : ofGrammar g = .ok m) {id : TerminalId} {t : Terminal}
    (ht : g.terminals[id]? = some t) :
    id < m.tests.size ∧ test g.eof id t = .ok (m.tests.getD id .never) := by
  simp only [ofGrammar, bind, Except.bind] at hm
  split at hm
  · cases hm
  · rename_i tests htests
    obtain rfl := Except.ok.inj hm
    obtain ⟨hlt, rfl⟩ := Array.getElem?_eq_some_iff.1 ht
    obtain ⟨hlen, hget⟩ := List.forall₂_iff_get.1 (forall₂_of_mapM htests)
    rw [List.length_zipIdx, Array.length_toList] at hlen
    have hlt' : id < tests.length := hlen ▸ hlt
    have := hget id (by simpa using hlt) hlt'
    simp only [List.get_eq_getElem, List.getElem_zipIdx, Array.getElem_toList, Nat.zero_add] at this
    refine ⟨by simpa using hlt', ?_⟩
    simpa [hlt'] using this

/-- A token satisfies the terminal of a class if it has the name of the class. -/
theorem mem_matching_ofClass_iff (hm : ofGrammar g = .ok m) {id : TerminalId} {name pattern : String}
    (ht : g.terminals[id]? = some (.ofClass name pattern)) (hne : id ≠ g.eof) {t : Token}
    (hend : t.isEof = false) : id ∈ m.matching t ↔ t.className = name := by
  obtain ⟨hlt, htest⟩ := test_of_ofGrammar hm ht
  rw [Terminal.ofClass, test, if_neg hne] at htest
  rw [matching, if_neg (by rw [hend]; exact Bool.false_ne_true), List.mem_filter, List.mem_range,
    ← Except.ok.inj htest, passes, beq_iff_eq, and_iff_right hlt]

end TerminalMatcher

/-! ## Compiled grammars -/

/-- A compiled grammar has the parts of its grammar. -/
theorem CompiledGrammar.parts_of_ofGrammar {g : Grammar} {lexer : LexerDescription}
    {c : CompiledGrammar} (h : CompiledGrammar.ofGrammar g lexer = .ok c) :
    c.grammar = g ∧ Automaton.ofGrammar g = .ok c.automaton ∧
      c.epsilon = EpsilonForest.ofGrammar g ∧ TerminalMatcher.ofGrammar g = .ok c.matcher ∧
      Lexer.ofDescription (g.literals.foldl LexerDescription.literal lexer) = .ok c.lexer := by
  simp only [ofGrammar, assemble, bind, Except.bind] at h
  cases hl : Lexer.ofDescription (g.literals.foldl LexerDescription.literal lexer) with
  | error err => simp [hl] at h
  | ok l =>
    cases ha : Automaton.ofGrammar g with
    | error err => simp [hl, ha] at h
    | ok a =>
      cases hm : TerminalMatcher.ofGrammar g with
      | error err => simp [hl, ha, hm] at h
      | ok m =>
        simp only [hl, ha, hm] at h
        obtain rfl := Except.ok.inj h
        exact ⟨rfl, rfl, rfl, rfl, rfl⟩

namespace CompiledGrammar

variable {form : GrammarForm} {text source : String} {lexer : LexerDescription}
  {c : CompiledGrammar} {tokens : TokenStream}

/-- A grammar that is compiled from text is what a builder answers. -/
theorem exists_build_of_ofText (h : ofText form text lexer = .ok c) :
    (∃ b : GrammarBuilder, b.build = .ok c.grammar) ∧ ofGrammar c.grammar lexer = .ok c := by
  simp only [ofText, bind, Except.bind] at h
  split at h
  · cases h
  · rename_i g hg
    obtain ⟨rfl, -⟩ := parts_of_ofGrammar h
    refine ⟨?_, h⟩
    simp only [Grammar.ofText, Grammar.read, bind, Except.bind] at hg
    split at hg
    · cases hg
    · split at hg
      · cases hg
      · exact ⟨_, hg⟩

end CompiledGrammar

end ParseForest
