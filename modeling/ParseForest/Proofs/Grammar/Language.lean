import ParseForest.Proofs.Grammar.Derivation
import ParseForest.Proofs.Grammar.Table
import Mathlib.Computability.Language
import Mathlib.Order.CompletePartialOrder

/-!
# Languages of rules

Which strings of terminals the rules of a grammar derive, by name (`Grammar.language`). These languages are
the least ones that are closed under the right-hand sides of the grammar (`Grammar.isLeast_language`), so they
depend on its table only.
-/

namespace ParseForest

/-- The strings that a symbol stands for where names stand for languages. -/
def NamedSymbol.language (L : String → Language Atom) : NamedSymbol → Language Atom
  | .rule name => L name
  | .terminal a => {[a]}

/-- The strings that symbols stand for side by side. -/
def sequenceLanguage (L : String → Language Atom) (alt : List NamedSymbol) : Language Atom :=
  (alt.map (NamedSymbol.language L)).prod

section Sequence

variable {L L' : String → Language Atom} {alt alt' : List NamedSymbol} {x : NamedSymbol}

@[simp] theorem sequenceLanguage_nil : sequenceLanguage L [] = 1 := rfl

@[simp] theorem sequenceLanguage_cons :
    sequenceLanguage L (x :: alt) = x.language L * sequenceLanguage L alt := List.prod_cons

theorem sequenceLanguage_singleton : sequenceLanguage L [x] = x.language L := by simp

theorem sequenceLanguage_append :
    sequenceLanguage L (alt ++ alt') = sequenceLanguage L alt * sequenceLanguage L alt' := by
  simp [sequenceLanguage]

theorem NamedSymbol.language_mono (h : L ≤ L') (x : NamedSymbol) : x.language L ≤ x.language L' := by
  cases x with
  | rule name => exact h name
  | terminal a => exact le_rfl

theorem sequenceLanguage_mono (h : L ≤ L') (alt : List NamedSymbol) :
    sequenceLanguage L alt ≤ sequenceLanguage L' alt := by
  induction alt with
  | nil => exact le_rfl
  | cons x alt ih =>
    rw [sequenceLanguage_cons, sequenceLanguage_cons]
    exact mul_le_mul' (x.language_mono h) ih

end Sequence

/-! ## Closed languages -/

namespace Table

/-- Every name stands for what its right-hand sides stand for, at least. -/
def Closed (t : Table) (L : String → Language Atom) : Prop :=
  ∀ name alt, (name, alt) ∈ t → sequenceLanguage L alt ≤ L name

variable {t : Table} {L : String → Language Atom}

/-- Of the least languages that are closed, one is not larger than what its right-hand sides force. -/
theorem le_of_isLeast (h : IsLeast {L | Closed t L} L) {name : String} {l : Language Atom}
    (hl : l ≤ L name)
    (hstep : ∀ alt, (name, alt) ∈ t → sequenceLanguage (Function.update L name l) alt ≤ l) :
    L name ≤ l := by
  have hupdate : Function.update L name l ≤ L := update_le_iff.2 ⟨hl, fun _ _ => le_rfl⟩
  have hclosed : Closed t (Function.update L name l) := by
    intro name' alt halt
    by_cases hname : name' = name
    · subst hname
      rw [Function.update_self]
      exact hstep alt halt
    · rw [Function.update_of_ne hname]
      exact (sequenceLanguage_mono hupdate alt).trans (h.1 name' alt halt)
  have := h.2 hclosed name
  rwa [Function.update_self] at this

end Table

/-! ## Grammars -/

namespace Grammar

/-- The strings that a rule derives, by what their terminals match. -/
def ruleLanguage (g : Grammar) (id : RuleId) : Language Atom :=
  {v | ∃ w : List TerminalId, g.Derives [.rule id] (w.map .terminal) ∧
    w.map (fun t => (g.terminal t).atom) = v}

/-- The strings that the rules of a name derive. -/
def language (g : Grammar) (name : String) : Language Atom :=
  {v | ∃ id, (g.rule id).name = name ∧ v ∈ g.ruleLanguage id}

variable {g : Grammar} {symbols : List Symbol} {v : List Atom} {id : RuleId}

/-- A rule that derives a string of terminals is a rule of the grammar. -/
theorem lt_of_mem_ruleLanguage (h : v ∈ g.ruleLanguage id) : id < g.rules.size := by
  obtain ⟨w, hw, -⟩ := h
  rcases derives_rule_iff.1 hw with h | ⟨a, ha, -⟩
  · cases w <;> simp at h
  · exact lt_of_mem_alternatives ha

/-- The strings of a name are those of its rule. -/
theorem Resolved.language_name (hg : g.Resolved) (hid : id < g.rules.size) :
    g.language (g.rule id).name = g.ruleLanguage id := by
  ext v
  constructor
  · rintro ⟨id', hname, hv⟩
    rwa [hg.name_inj (lt_of_mem_ruleLanguage hv) hid hname] at hv
  · exact fun hv => ⟨id, rfl, hv⟩

/-- Strings of a sequence of symbols come from derivations. -/
theorem exists_derives_of_mem (hg : g.Resolved) (hs : ∀ i, Symbol.rule i ∈ symbols → i < g.rules.size)
    (hv : v ∈ sequenceLanguage g.language (symbols.map g.named)) : ∃ w : List TerminalId,
      g.Derives symbols (w.map .terminal) ∧ w.map (fun t => (g.terminal t).atom) = v := by
  induction symbols generalizing v with
  | nil => exact ⟨[], .refl _, hv.symm⟩
  | cons s symbols ih =>
    rw [List.map_cons, sequenceLanguage_cons] at hv
    obtain ⟨v₁, hv₁, v₂, hv₂, rfl⟩ := Language.mem_mul.1 hv
    obtain ⟨w₂, hw₂, rfl⟩ := ih (fun i hi => hs i (List.mem_cons_of_mem _ hi)) hv₂
    obtain ⟨w₁, hw₁, rfl⟩ : ∃ w : List TerminalId, g.Derives [s] (w.map .terminal) ∧
        w.map (fun t => (g.terminal t).atom) = v₁ := by
      cases s with
      | terminal t => exact ⟨[t], .refl _, hv₁.symm⟩
      | rule id =>
        have hv₁ : v₁ ∈ g.language (g.rule id).name := hv₁
        rwa [hg.language_name (hs id (.head _))] at hv₁
    refine ⟨w₁ ++ w₂, ?_, List.map_append⟩
    rw [List.map_append]
    exact derives_append hw₁ hw₂

/-- A derivation stays within closed languages. -/
theorem mem_of_derives {L : String → Language Atom} (hL : Table.Closed g.table L)
    {w : List TerminalId} (h : g.Derives symbols (w.map .terminal)) :
    w.map (fun t => (g.terminal t).atom) ∈ sequenceLanguage L (symbols.map g.named) := by
  induction h using Relation.ReflTransGen.head_induction_on with
  | refl =>
    induction w with
    | nil => rfl
    | cons t w ih => exact Language.mem_mul.2 ⟨_, rfl, _, ih, rfl⟩
  | head hstep _ ih =>
    obtain ⟨before, after, id, a, ha⟩ := hstep
    have hrule := hL _ _ ⟨id, rfl, a, ha, rfl⟩
    simp only [List.map_append, List.map_cons, sequenceLanguage_append, sequenceLanguage_cons] at ih ⊢
    rw [mul_assoc] at ih
    exact mul_le_mul_right (mul_le_mul_left hrule _) _ ih

theorem closed_language (hg : g.Resolved) : Table.Closed g.table g.language := by
  rintro name alt ⟨id, hname, a, ha, rfl⟩ v hv
  obtain ⟨w, hw, hv⟩ := exists_derives_of_mem hg (hg.rule_lt a ha) hv
  exact ⟨id, hname, w, derives_rule ha hw, hv⟩

/-- The languages of a grammar are the least ones that are closed under its right-hand sides. -/
theorem isLeast_language (hg : g.Resolved) : IsLeast {L | Table.Closed g.table L} g.language := by
  refine ⟨closed_language hg, fun L hL name v hv => ?_⟩
  obtain ⟨id, rfl, w, hw, rfl⟩ := hv
  have := mem_of_derives hL hw
  rwa [List.map_singleton, sequenceLanguage_singleton] at this

end Grammar

end ParseForest
