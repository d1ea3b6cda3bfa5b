import Mathlib
import ParseForest.Proofs.Grammar.Language
import ParseForest.Proofs.Notation.Names

/-!
# The meaning of EBNF

What a body of EBNF stands for, taken from its tree and apart from any grammar (`Choice.language`): `|` is
union, juxtaposition is concatenation, `x?`, `x+` and `x*` are an option and the two iterations, and a
reference stands for what its name does. Names stand for the least languages that satisfy what the text says of
them (`equations`, `meaning`). The rules of the grammar that is read derive just these strings
(`Grammar.ruleLanguage_of_ebnf`), although groups are taken apart and modifiers become recursive rules.
-/

namespace ParseForest

open Computability

namespace Notation

/-! ## Languages of trees -/

/-- What an expression stands for under a modifier. -/
def modifiedLanguage : Option Modifier → Language Atom → Language Atom
  | none, l => l
  | some .optional, l => 1 + l
  | some .plus, l => l * l∗
  | some .star, l => l∗

mutual

/-- What an expression stands for where names stand for languages. -/
def Primary.language (L : String → Language Atom) : Primary → Language Atom
  | .reference name => L name
  | .literal text _ => if text = "" then 1 else {[.literal text]}
  | .pattern text flags => {[.pattern ⟨text, flags, none⟩]}
  | .group body => body.language L

/-- What a sequence stands for. -/
def Sequence.language (L : String → Language Atom) : Sequence → Language Atom
  | .nil => 1
  | .cons item modifier rest => modifiedLanguage modifier (item.language L) * rest.language L

/-- What alternatives stand for. -/
def Choice.language (L : String → Language Atom) : Choice → Language Atom
  | .last s => s.language L
  | .more s rest => s.language L + rest.language L

end

/-- What a synthetic rule is made to stand for. -/
def Synthetic.language (L : String → Language Atom) : Synthetic → Language Atom
  | .list symbols => modifiedLanguage (some .plus) (sequenceLanguage L symbols)
  | .optional symbols => modifiedLanguage (some .optional) (sequenceLanguage L symbols)
  | .group alternatives => (alternatives.map (sequenceLanguage L)).sum

variable {L L' : String → Language Atom} {l l' : Language Atom}

theorem modifiedLanguage_mono (m : Option Modifier) (h : l ≤ l') :
    modifiedLanguage m l ≤ modifiedLanguage m l' := by
  match m with
  | none => exact h
  | some .optional => exact add_le_add_right h 1
  | some .plus => exact mul_le_mul' h (kstar_mono h)
  | some .star => exact kstar_mono h

mutual

theorem Primary.language_mono (h : L ≤ L') : ∀ p : Primary, p.language L ≤ p.language L'
  | .reference name => h name
  | .literal _ _ => le_rfl
  | .pattern _ _ => le_rfl
  | .group body => Choice.language_mono h body

theorem Sequence.language_mono (h : L ≤ L') : ∀ s : Sequence, s.language L ≤ s.language L'
  | .nil => le_rfl
  | .cons p m s =>
    mul_le_mul' (modifiedLanguage_mono m (Primary.language_mono h p)) (Sequence.language_mono h s)

theorem Choice.language_mono (h : L ≤ L') : ∀ c : Choice, c.language L ≤ c.language L'
  | .last s => Sequence.language_mono h s
  | .more s c => add_le_add (Sequence.language_mono h s) (Choice.language_mono h c)

end

theorem sum_mono {ι : Type} {f f' : ι → Language Atom} (h : ∀ i, f i ≤ f' i) (is : List ι) :
    (is.map f).sum ≤ (is.map f').sum := by
  induction is with
  | nil => exact le_rfl
  | cons i is ih => exact add_le_add (h i) ih

theorem mem_sum_iff {ι : Type} {f : ι → Language Atom} {is : List ι} {v : List Atom} :
    v ∈ (is.map f).sum ↔ ∃ i ∈ is, v ∈ f i := by
  induction is with
  | nil => simp
  | cons i is ih => rw [List.map_cons, List.sum_cons, Language.mem_add, ih, List.exists_mem_cons_iff]

theorem Synthetic.language_mono (h : L ≤ L') (o : Synthetic) : o.language L ≤ o.language L' := by
  cases o with
  | list xs => exact modifiedLanguage_mono (some .plus) (sequenceLanguage_mono h xs)
  | optional xs => exact modifiedLanguage_mono (some .optional) (sequenceLanguage_mono h xs)
  | group alternatives => exact sum_mono (sequenceLanguage_mono h) alternatives

/-! ## Trees and their right-hand sides -/

/-- Synthetic rules stand for what they are made for. -/
def Respects (L : String → Language Atom) (os : List Synthetic) : Prop :=
  ∀ o ∈ os, L o.name = o.language L

variable {xs : List NamedSymbol} {alternatives : List (List NamedSymbol)}

theorem sequenceLanguage_modified (m : Option Modifier) (h : Respects L (modifierSynthetics m xs)) :
    sequenceLanguage L (modified m xs) = modifiedLanguage m (sequenceLanguage L xs) := by
  match m with
  | none => rfl
  | some .optional => exact sequenceLanguage_singleton.trans (h _ (.head _))
  | some .plus => exact sequenceLanguage_singleton.trans (h _ (.head _))
  | some .star =>
    have hlist := h _ (.head _)
    have hoptional := h _ (.tail _ (.head _))
    calc sequenceLanguage L [.rule (Synthetic.optional [.rule (Synthetic.list xs).name]).name]
        = 1 + sequenceLanguage L [.rule (Synthetic.list xs).name] :=
          sequenceLanguage_singleton.trans hoptional
      _ = 1 + sequenceLanguage L xs * (sequenceLanguage L xs)∗ := by
          rw [sequenceLanguage_singleton]
          exact congrArg (1 + ·) hlist
      _ = (sequenceLanguage L xs)∗ := one_add_mul_kstar

theorem sequenceLanguage_grouped (h : Respects L (groupSynthetics alternatives)) :
    sequenceLanguage L (grouped alternatives) = (alternatives.map (sequenceLanguage L)).sum := by
  match alternatives with
  | [] => exact sequenceLanguage_singleton.trans (h _ (.head _))
  | [xs] => simp [grouped]
  | _ :: _ :: _ => exact sequenceLanguage_singleton.trans (h _ (.head _))

theorem Respects.of_append {os os' : List Synthetic} (h : Respects L (os ++ os')) :
    Respects L os ∧ Respects L os' :=
  ⟨fun o ho => h o (List.mem_append_left _ ho), fun o ho => h o (List.mem_append_right _ ho)⟩

theorem Respects.of_mem {rules : List (String × Choice)} (h : Respects L (occurrences rules))
    {rule : String × Choice} (hrule : rule ∈ rules) : Respects L rule.2.synthetics :=
  fun o ho => h o (List.mem_flatMap.2 ⟨rule, hrule, ho⟩)

/-- A synthetic rule stands for what it is made for once it is closed under its own alternatives. -/
theorem Synthetic.sequenceLanguage_le (o : Synthetic) (h : L' ≤ L) (hself : L' o.name ≤ o.language L) :
    ∀ alt ∈ o.alternatives, sequenceLanguage L' alt ≤ o.language L := by
  intro alt halt
  cases o with
  | list xs =>
    have hxs := sequenceLanguage_mono h xs
    rcases List.mem_cons.1 halt with rfl | halt
    · exact hxs.trans (le_mul_of_one_le_right' one_le_kstar)
    · obtain rfl := List.mem_singleton.1 halt
      rw [sequenceLanguage_append, sequenceLanguage_singleton]
      exact (mul_le_mul' hxs hself).trans (mul_le_mul' le_rfl mul_kstar_le_kstar)
  | optional xs =>
    rcases List.mem_cons.1 halt with rfl | halt
    · exact (sequenceLanguage_mono h _).trans le_add_self
    · obtain rfl := List.mem_singleton.1 halt
      exact le_self_add
  | group alternatives => exact fun v hv => mem_sum_iff.2 ⟨alt, halt, sequenceLanguage_mono h alt hv⟩

mutual

theorem Primary.sequenceLanguage_symbols : ∀ p : Primary, Respects L p.synthetics →
    sequenceLanguage L p.symbols = p.language L
  | .reference name, _ => sequenceLanguage_singleton
  | .literal text _, _ => by
    rw [Primary.symbols, Primary.language]
    split
    · rfl
    · exact sequenceLanguage_singleton
  | .pattern text flags, _ => sequenceLanguage_singleton
  | .group body, h =>
    let ⟨hbody, hgroup⟩ := Respects.of_append h
    (sequenceLanguage_grouped hgroup).trans (Choice.sum_alternatives body hbody)

theorem Sequence.sequenceLanguage_symbols : ∀ s : Sequence, Respects L s.synthetics →
    sequenceLanguage L s.symbols = s.language L
  | .nil, _ => rfl
  | .cons p m s, h => by
    obtain ⟨hitem, hs⟩ := Respects.of_append h
    obtain ⟨hp, hm⟩ := Respects.of_append hitem
    rw [Sequence.symbols, Sequence.language, sequenceLanguage_append, sequenceLanguage_modified m hm,
      Primary.sequenceLanguage_symbols p hp, Sequence.sequenceLanguage_symbols s hs]

theorem Choice.sum_alternatives : ∀ c : Choice, Respects L c.synthetics →
    (c.alternatives.map (sequenceLanguage L)).sum = c.language L
  | .last s, h => by
    rw [Choice.alternatives, Choice.language, List.map_singleton, List.sum_singleton,
      Sequence.sequenceLanguage_symbols s h]
  | .more s c, h => by
    obtain ⟨hs, hc⟩ := Respects.of_append h
    rw [Choice.alternatives, Choice.language, List.map_cons, List.sum_cons,
      Sequence.sequenceLanguage_symbols s hs, Choice.sum_alternatives c hc]

end

/-! ## Equations -/

/-- The string of a token class. -/
def classString (className pattern : String) : List Atom := [.pattern ⟨pattern, "", some className⟩]

/-- What a name stands for where names stand for languages: `#S` is the first rule and the end of input,
which its own rule always is; a name that is written stands for the union of its bodies; the name of a
synthetic rule for what the rule is made for; and the name of a token class that is not written for the
class. -/
def equations (rules : List (String × Choice)) (classes : List (String × String)) (first : String)
    (L : String → Language Atom) (name : String) : Language Atom :=
  {v | (name = startRuleName ∧ v ∈ L first * L (tokenRuleName eofClass)) ∨
    (name = tokenRuleName eofClass ∧ v = classString eofClass "") ∨
    (name ≠ startRuleName ∧ name ≠ tokenRuleName eofClass ∧
      ((∃ rule ∈ rules, rule.1 = name ∧ v ∈ rule.2.language L) ∨
        (∃ o ∈ occurrences rules, o.name = name ∧ v ∈ o.language L) ∨
        ((∀ rule ∈ rules, rule.1 ≠ name) ∧ ∃ className pattern,
          classes.lookup className = some pattern ∧ tokenRuleName className = name ∧
            v = classString className pattern)))}

variable {rules : List (String × Choice)} {classes : List (String × String)} {first : String}

theorem equations_mono : Monotone (equations rules classes first) := by
  rintro L L' h name v (⟨hname, hv⟩ | hv | ⟨hstart, heof, hv⟩)
  · exact .inl ⟨hname, mul_le_mul' (h _) (h _) hv⟩
  · exact .inr (.inl hv)
  · refine .inr (.inr ⟨hstart, heof, ?_⟩)
    rcases hv with ⟨rule, hrule, hname, hv⟩ | ⟨o, ho, hname, hv⟩ | hv
    · exact .inl ⟨rule, hrule, hname, rule.2.language_mono h hv⟩
    · exact .inr (.inl ⟨o, ho, hname, o.language_mono h hv⟩)
    · exact .inr (.inr hv)

/-- The meaning of names: the least languages that satisfy the equations. -/
def meaning (rules : List (String × Choice)) (classes : List (String × String)) (first : String) :
    String → Language Atom :=
  OrderHom.lfp ⟨equations rules classes first, equations_mono⟩

theorem equations_meaning :
    equations rules classes first (meaning rules classes first) = meaning rules classes first :=
  OrderHom.map_lfp ⟨equations rules classes first, equations_mono⟩

theorem meaning_le {L : String → Language Atom} (h : equations rules classes first L ≤ L) :
    meaning rules classes first ≤ L :=
  OrderHom.lfp_le _ h

section Distinct

variable (hd : Distinct rules)
include hd

/-- By the equations, a synthetic rule stands for what it is made for. -/
theorem Distinct.equations_name {o : Synthetic} (ho : o ∈ occurrences rules) :
    equations rules classes first L o.name = o.language L := by
  ext v
  constructor
  · rintro (⟨hname, -⟩ | ⟨hname, -⟩ | ⟨-, -, ⟨rule, hrule, hname, -⟩ | ⟨o', ho', hname, hv⟩ | ⟨-, _, _, -, hname, -⟩⟩)
    · exact absurd hname o.name_ne_startRuleName
    · exact absurd hname (o.name_ne_tokenRuleName _)
    · exact absurd hname (hd.unwritten rule hrule o ho)
    · rwa [hd.synthetic_inj ho' ho hname] at hv
    · exact absurd hname.symm (o.name_ne_tokenRuleName _)
  · exact fun hv => .inr (.inr ⟨o.name_ne_startRuleName, o.name_ne_tokenRuleName _,
      .inr (.inl ⟨o, ho, rfl, hv⟩)⟩)

/-- The least closed languages respect synthetic rules: a list rule stands for an iteration. -/
theorem Distinct.respects_of_isLeast
    (hL : IsLeast {L | Table.Closed (finished (textTable rules) (declared classes) first) L} L) :
    Respects L (occurrences rules) := by
  intro o ho
  have hmem : ∀ alt, (o.name, alt) ∈ finished (textTable rules) (declared classes) first ↔ alt ∈ o.alternatives :=
    fun alt => hd.mem_finished_name_iff ho
  have hclosed : ∀ alt ∈ o.alternatives, sequenceLanguage L alt ≤ L o.name :=
    fun alt halt => hL.1 _ _ ((hmem alt).2 halt)
  have hle : o.language L ≤ L o.name := by
    cases o with
    | list xs =>
      have hrest := hclosed _ (.tail _ (.head _))
      rw [sequenceLanguage_append, sequenceLanguage_singleton] at hrest
      rw [Synthetic.language, modifiedLanguage, ← Language.mul_self_kstar_comm]
      exact kstar_mul_le (hclosed xs (.head _)) hrest
    | optional xs => exact add_le (hclosed [] (.tail _ (.head _))) (hclosed xs (.head _))
    | group alternatives =>
      intro v hv
      obtain ⟨alt, halt, hv⟩ := mem_sum_iff.1 hv
      exact hclosed alt halt hv
  refine le_antisymm (Table.le_of_isLeast hL hle fun alt halt => ?_) hle
  refine o.sequenceLanguage_le (update_le_iff.2 ⟨hle, fun _ _ => le_rfl⟩) ?_ alt ((hmem alt).1 halt)
  exact le_of_eq (Function.update_self _ _ _)

/-- Languages that satisfy the equations are closed under the right-hand sides. -/
theorem Distinct.closed_of_equations (hL : equations rules classes first L = L) :
    Table.Closed (finished (textTable rules) (declared classes) first) L := by
  have hrespects : Respects L (occurrences rules) := fun o ho =>
    (congrFun hL o.name).symm.trans (hd.equations_name ho)
  rintro name alt h v hv
  rw [← hL]
  rcases h with ⟨hname, halt⟩ | ⟨hname, halt⟩ | ⟨hstart, heof, h⟩
  · refine .inl ⟨hname, ?_⟩
    dsimp only at halt
    rw [halt, sequenceLanguage_cons, sequenceLanguage_singleton] at hv
    exact hv
  · refine .inr (.inl ⟨hname, ?_⟩)
    dsimp only at halt
    rw [halt, sequenceLanguage_singleton] at hv
    exact hv
  · refine .inr (.inr ⟨hstart, heof, ?_⟩)
    rcases h with (⟨rule, hrule, hname, halt⟩ | ⟨o, ho, hname, halt⟩) | ⟨hnone, c, hc, hname, halt⟩
    · refine .inl ⟨rule, hrule, hname, ?_⟩
      rw [← rule.2.sum_alternatives (hrespects.of_mem hrule)]
      exact mem_sum_iff.2 ⟨alt, halt, hv⟩
    · exact .inr (.inl ⟨o, ho, hname, o.sequenceLanguage_le le_rfl (le_of_eq (hrespects o ho)) alt halt hv⟩)
    · refine .inr (.inr ⟨fun rule hrule hname' => ?_, c.1, c.2, mem_declared_iff.1 hc, hname, ?_⟩)
      · obtain ⟨alt', halt'⟩ := List.exists_mem_of_ne_nil _ rule.2.alternatives_ne_nil
        exact hnone alt' (.inl ⟨rule, hrule, hname', halt'⟩)
      · dsimp only at halt
        rw [halt, sequenceLanguage_singleton] at hv
        exact hv

/-- The least closed languages satisfy the equations, with nothing left over. -/
theorem Distinct.equations_le_of_isLeast
    (hL : IsLeast {L | Table.Closed (finished (textTable rules) (declared classes) first) L} L) :
    equations rules classes first L ≤ L := by
  have hrespects := hd.respects_of_isLeast hL
  rintro name v (⟨rfl, hv⟩ | ⟨rfl, rfl⟩ | ⟨hstart, heof, h⟩)
  · refine hL.1 _ _ (.inl ⟨rfl, rfl⟩) ?_
    rw [sequenceLanguage_cons, sequenceLanguage_singleton]
    exact hv
  · refine hL.1 _ _ (.inr (.inl ⟨rfl, rfl⟩)) ?_
    rw [sequenceLanguage_singleton]
    rfl
  · rcases h with ⟨rule, hrule, rfl, hv⟩ | ⟨o, ho, rfl, hv⟩ | ⟨hnone, className, pattern, hc, rfl, rfl⟩
    · rw [← rule.2.sum_alternatives (hrespects.of_mem hrule)] at hv
      obtain ⟨alt, halt, hv⟩ := mem_sum_iff.1 hv
      exact hL.1 _ alt (.inr (.inr ⟨hstart, heof, .inl (.inl ⟨rule, hrule, rfl, halt⟩)⟩)) hv
    · rwa [hrespects o ho]
    · refine hL.1 _ _ (.inr (.inr ⟨hstart, heof,
        .inr ⟨?_, (className, pattern), mem_declared_iff.2 hc, rfl, rfl⟩⟩)) ?_
      · rintro alt (⟨rule, hrule, hname, -⟩ | ⟨o, -, hname, -⟩)
        · exact hnone rule hrule hname
        · exact o.name_ne_tokenRuleName _ hname
      · rw [sequenceLanguage_singleton]
        rfl

/-- The least closed languages are the meaning of names. -/
theorem Distinct.eq_meaning
    (hL : IsLeast {L | Table.Closed (finished (textTable rules) (declared classes) first) L} L) :
    L = meaning rules classes first :=
  le_antisymm (hL.2 (hd.closed_of_equations equations_meaning))
    (meaning_le (hd.equations_le_of_isLeast hL))

end Distinct

/-- A written name means the union of its bodies. -/
theorem mem_meaning_iff (hd : Distinct rules) {name : String} (hname : ∃ rule ∈ rules, rule.1 = name)
    (hstart : name ≠ startRuleName) (heof : name ≠ tokenRuleName eofClass) {v : List Atom} :
    v ∈ meaning rules classes first name ↔
      ∃ rule ∈ rules, rule.1 = name ∧ v ∈ rule.2.language (meaning rules classes first) := by
  obtain ⟨rule, hrule, hname⟩ := hname
  have hunfold : v ∈ meaning rules classes first name ↔
      v ∈ equations rules classes first (meaning rules classes first) name := by
    rw [equations_meaning]
  rw [hunfold]
  constructor
  · rintro (⟨h, -⟩ | ⟨h, -⟩ | ⟨-, -, h | ⟨o, ho, h, -⟩ | ⟨h, -⟩⟩)
    · exact absurd h hstart
    · exact absurd h heof
    · exact h
    · exact absurd (hname.trans h.symm) (hd.unwritten rule hrule o ho)
    · exact absurd hname (h rule hrule)
  · exact fun h => .inr (.inr ⟨hstart, heof, .inl h⟩)

end Notation

namespace Grammar

open Notation

variable {text : String} {classes : List (String × String)} {g : Grammar}

/-- A text that is read as a grammar is written by one list of rules. If different synthetic rules have
different names, and none of these is written, every rule that is written derives the meaning of its bodies.
Only `Token-EOF` is not to be written: it is the end of input whatever its bodies are. -/
theorem ruleLanguage_of_ebnf (h : ofText .ebnf text classes = .ok g) :
    (∃! rules, Written text rules) ∧
    ∀ rules, Written text rules → Distinct rules →
      ∀ rule ∈ rules, rule.1 ≠ tokenRuleName eofClass → ∃ id < g.rules.size, (g.rule id).name = rule.1 ∧
        g.ruleLanguage id = meaning rules classes (g.rule g.first).name rule.1 ∧
        ∀ v, v ∈ g.ruleLanguage id ↔ ∃ rule' ∈ rules, rule'.1 = rule.1 ∧
          v ∈ rule'.2.language (meaning rules classes (g.rule g.first).name) := by
  obtain ⟨rules, hwritten, hstart, hg, htable⟩ := table_of_distinct h
  refine ⟨⟨rules, hwritten, fun rules' h' => h'.unique hwritten⟩, fun rules' h' hd rule hrule heof => ?_⟩
  obtain rfl := h'.unique hwritten
  have hmeaning : g.language = meaning rules' classes (g.rule g.first).name := by
    have hleast := isLeast_language hg
    rw [htable hd] at hleast
    exact hd.eq_meaning hleast
  obtain ⟨alt, halt⟩ := List.exists_mem_of_ne_nil _ rule.2.alternatives_ne_nil
  obtain ⟨id, hname, a, ha, -⟩ : (rule.1, alt) ∈ g.table := by
    rw [htable hd]
    exact .inr (.inr ⟨hstart rule hrule, heof, .inl (.inl ⟨rule, hrule, rfl, halt⟩)⟩)
  have hid := lt_of_mem_alternatives ha
  have hrule' : g.ruleLanguage id = meaning rules' classes (g.rule g.first).name rule.1 := by
    rw [← hmeaning, ← hname, hg.language_name hid]
  refine ⟨id, hid, hname, hrule', fun v => ?_⟩
  rw [hrule', mem_meaning_iff hd ⟨rule, hrule, rfl⟩ (hstart rule hrule) heof]

theorem ruleLanguage_of_nested : ∃ g rules, ofText .ebnf "<S> ::= /a/ (/b/ | <S>)*" [] = .ok g ∧
    Written "<S> ::= /a/ (/b/ | <S>)*" rules ∧ Distinct rules ∧
    ∀ rule ∈ rules, rule.1 ≠ tokenRuleName eofClass → ∃ id < g.rules.size, (g.rule id).name = rule.1 ∧
      g.ruleLanguage id = meaning rules [] (g.rule g.first).name rule.1 ∧
      ∀ v, v ∈ g.ruleLanguage id ↔ ∃ rule' ∈ rules, rule'.1 = rule.1 ∧
        v ∈ rule'.2.language (meaning rules [] (g.rule g.first).name) := by
  have hread : (ofText .ebnf "<S> ::= /a/ (/b/ | <S>)*" []).toBool = true := by decide +kernel
  let group : Primary :=
    .group (.more (.cons (.pattern "b" "") none .nil) (.last (.cons (.reference "S") none .nil)))
  have hwritten : Written "<S> ::= /a/ (/b/ | <S>)*"
      [("S", .last (.cons (.pattern "a" "") none (.cons group (some .star) .nil)))] :=
    written_iff.2 (by decide +kernel)
  have hplain : ∀ kind ∈ [("S", Choice.last (.cons (.pattern "a" "") none
      (.cons group (some .star) .nil)))].flatMap ruleKinds, kind.Plain := by
    simp [ruleKinds, Choice.kinds, Sequence.kinds, Primary.kinds, group, Modifier.kind,
      LexemeKind.Plain]
  have hd := distinct_of_clear (hwritten.clear hplain) hplain
  cases hg : ofText .ebnf "<S> ::= /a/ (/b/ | <S>)*" [] with
  | error e => simp [hg, Except.toBool] at hread
  | ok g => exact ⟨g, _, rfl, hwritten, hd, (ruleLanguage_of_ebnf hg).2 _ hwritten hd⟩

/-- A body that is written for `Token-EOF` means nothing to the grammar. -/
theorem ruleLanguage_eof_ne_body : ∃ g rules body id,
    ofText .ebnf "<S> ::= /a/ <Token-EOF> ::= /x/" [] = .ok g ∧
    Written "<S> ::= /a/ <Token-EOF> ::= /x/" rules ∧ Distinct rules ∧
    (∀ rule ∈ rules, rule.1 = "Token-EOF" ↔ rule = ("Token-EOF", body)) ∧ ("Token-EOF", body) ∈ rules ∧
    (g.rule id).name = "Token-EOF" ∧ ∀ L, g.ruleLanguage id ≠ body.language L := by
  have hread : (ofText .ebnf "<S> ::= /a/ <Token-EOF> ::= /x/" []).toBool = true := by decide +kernel
  have hwritten : Written "<S> ::= /a/ <Token-EOF> ::= /x/"
      [("S", .last (.cons (.pattern "a" "") none .nil)),
        ("Token-EOF", .last (.cons (.pattern "x" "") none .nil))] :=
    written_iff.2 (by decide +kernel)
  have hd : Distinct [("S", .last (.cons (.pattern "a" "") none .nil)),
      ("Token-EOF", .last (.cons (.pattern "x" "") none .nil))] :=
    ⟨fun o ho => (List.not_mem_nil ho).elim, fun _ _ o ho => (List.not_mem_nil ho).elim⟩
  cases hg : ofText .ebnf "<S> ::= /a/ <Token-EOF> ::= /x/" [] with
  | error e => simp [hg, Except.toBool] at hread
  | ok g =>
    obtain ⟨rules, hrules, -, hresolved, htable⟩ := table_of_distinct hg
    obtain rfl := hrules.unique hwritten
    have heof : (tokenRuleName eofClass, [GrammarBuilder.classSymbol eofClass ""]) ∈ g.table := by
      rw [htable hd]
      exact .inr (.inl ⟨rfl, rfl⟩)
    -- the end of input is derived, and it is no text that the body matches
    have hmem : classString eofClass "" ∈ g.language (tokenRuleName eofClass) := by
      refine closed_language hresolved _ _ heof ?_
      rw [sequenceLanguage_singleton]
      rfl
    obtain ⟨id, hname, hid⟩ := hmem
    refine ⟨g, _, _, id, rfl, hwritten, hd, by simp, .tail _ (.head _), hname, fun L hL => ?_⟩
    rw [hL] at hid
    obtain ⟨v, hv, w, rfl, he⟩ := Language.mem_mul.1 hid
    obtain rfl := hv
    simp [classString] at he

end Grammar

end ParseForest
