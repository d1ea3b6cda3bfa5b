import ParseForest.Grammar.Basic
import Mathlib.Logic.Relation
import Mathlib.Tactic.Common

/-!
# Derivations

What a grammar derives, independent of any parser: sentential forms are rewritten one rule at a
time. `Nullable`, `Begins` and the two closure lemmas `derives_append` and `derives_append_split`
are all that the automaton and the parser need to know of it.

`Begins` is about sentential forms and therefore has no closure property to induct on; `First` is
the inductive reading of it (`begins_iff_first`).
-/

namespace ParseForest

namespace Grammar

variable (g : Grammar)

/-- One step of a derivation: a rule among the symbols gives way to one of its alternatives. -/
inductive Produces : List Symbol → List Symbol → Prop
  | replace (before after : List Symbol) (rule : RuleId) (a : Alternative)
      (h : a ∈ (g.rule rule).alternatives) :
      Produces (before ++ .rule rule :: after) (before ++ a.symbols ++ after)

/-- Any number of steps. -/
def Derives : List Symbol → List Symbol → Prop := Relation.ReflTransGen g.Produces

/-- The symbols derive the empty string. -/
def Nullable (α : List Symbol) : Prop := g.Derives α []

/-- Some sentential form that the symbols derive begins with the terminal. -/
def Begins (α : List Symbol) (t : TerminalId) : Prop := ∃ rest, g.Derives α (.terminal t :: rest)

/-- Some rule derives itself in one step or more. -/
def Cyclic : Prop := ∃ rule, Relation.TransGen g.Produces [.rule rule] [.rule rule]

/-- No alternative mentions the rule that accepts. -/
def AvoidsStart : Prop :=
  ∀ rule, ∀ a ∈ (g.rule rule).alternatives, Symbol.rule g.start ∉ a.symbols

variable {g}

theorem mem_alternatives_iff {rule : RuleId} {a : Alternative} :
    a ∈ (g.rule rule).alternatives ↔
      ∃ alt < (g.rule rule).alternatives.size, g.alternative rule alt = a := by
  rw [Array.mem_iff_getElem]
  constructor
  · rintro ⟨alt, h, rfl⟩
    exact ⟨alt, h, by simp [Grammar.alternative, Array.getD, h]⟩
  · rintro ⟨alt, h, rfl⟩
    exact ⟨alt, h, by simp [Grammar.alternative, Array.getD, h]⟩

theorem alternative_mem {rule : RuleId} {alt : Nat} (h : alt < (g.rule rule).alternatives.size) :
    g.alternative rule alt ∈ (g.rule rule).alternatives :=
  mem_alternatives_iff.2 ⟨alt, h, rfl⟩

/-! ## Closure under context -/

theorem Produces.append_left {α β : List Symbol} (h : g.Produces α β) (γ : List Symbol) :
    g.Produces (γ ++ α) (γ ++ β) := by
  obtain ⟨before, after, rule, a, ha⟩ := h
  have := Produces.replace (g := g) (γ ++ before) after rule a ha
  simpa [List.append_assoc] using this

theorem Produces.append_right {α β : List Symbol} (h : g.Produces α β) (γ : List Symbol) :
    g.Produces (α ++ γ) (β ++ γ) := by
  obtain ⟨before, after, rule, a, ha⟩ := h
  have := Produces.replace (g := g) before (after ++ γ) rule a ha
  simpa [List.append_assoc] using this

theorem produces_rule {rule : RuleId} {a : Alternative} (h : a ∈ (g.rule rule).alternatives) :
    g.Produces [.rule rule] a.symbols := by
  simpa using Produces.replace (g := g) [] [] rule a h

theorem exists_of_produces_rule {rule : RuleId} {α : List Symbol} (h : g.Produces [.rule rule] α) :
    ∃ a ∈ (g.rule rule).alternatives, α = a.symbols := by
  generalize hs : [Symbol.rule rule] = σ at h
  obtain ⟨before, after, A, a, ha⟩ := h
  obtain ⟨rfl, rfl, rfl⟩ : before = [] ∧ after = [] ∧ A = rule := by
    cases before <;> simp_all
  exact ⟨a, ha, by simp⟩

theorem Derives.refl (α : List Symbol) : g.Derives α α := Relation.ReflTransGen.refl

theorem Derives.trans {α β γ : List Symbol} (h : g.Derives α β) (h' : g.Derives β γ) :
    g.Derives α γ := Relation.ReflTransGen.trans h h'

theorem Derives.append_left {α β : List Symbol} (h : g.Derives α β) (γ : List Symbol) :
    g.Derives (γ ++ α) (γ ++ β) :=
  Relation.ReflTransGen.lift (γ ++ ·) (fun _ _ (hp : g.Produces _ _) => hp.append_left γ) _ _ h

theorem Derives.append_right {α β : List Symbol} (h : g.Derives α β) (γ : List Symbol) :
    g.Derives (α ++ γ) (β ++ γ) :=
  Relation.ReflTransGen.lift (· ++ γ) (fun _ _ (hp : g.Produces _ _) => hp.append_right γ) _ _ h

theorem derives_append {α α' β β' : List Symbol} (h : g.Derives α α') (h' : g.Derives β β') :
    g.Derives (α ++ β) (α' ++ β') :=
  (h.append_right β).trans (h'.append_left α')

theorem derives_rule {rule : RuleId} {a : Alternative} {β : List Symbol}
    (ha : a ∈ (g.rule rule).alternatives) (h : g.Derives a.symbols β) : g.Derives [.rule rule] β :=
  Relation.ReflTransGen.head (produces_rule ha) h

/-! ## Splitting -/

/-- A step in a concatenation is a step in one of its parts. -/
theorem Produces.append_split {α β γ : List Symbol} (h : g.Produces (α ++ β) γ) :
    (∃ α', g.Produces α α' ∧ γ = α' ++ β) ∨ (∃ β', g.Produces β β' ∧ γ = α ++ β') := by
  obtain ⟨before, after, rule, a, ha, hsrc⟩ : ∃ before after rule, ∃ a : Alternative,
      ∃ _ : a ∈ (g.rule rule).alternatives, α ++ β = before ++ .rule rule :: after ∧
        γ = before ++ a.symbols ++ after := by
    generalize hs : α ++ β = σ at h
    obtain ⟨before, after, rule, a, ha⟩ := h
    exact ⟨before, after, rule, a, ha, rfl, rfl⟩
  obtain ⟨hsrc, rfl⟩ := hsrc
  rcases List.append_eq_append_iff.1 hsrc with ⟨mid, rfl, hβ⟩ | ⟨mid, rfl, hmid⟩
  · exact .inr ⟨mid ++ a.symbols ++ after, hβ ▸ Produces.replace mid after rule a ha, by simp⟩
  · cases mid with
    | nil =>
      obtain rfl : β = .rule rule :: after := by simpa using hmid.symm
      exact .inr ⟨a.symbols ++ after, by simpa using Produces.replace (g := g) [] after rule a ha,
        by simp⟩
    | cons s mid =>
      obtain ⟨rfl, rfl⟩ : .rule rule = s ∧ after = mid ++ β := by simpa using hmid
      exact .inl ⟨before ++ a.symbols ++ mid, Produces.replace before mid rule a ha, by simp⟩

theorem derives_append_split {α β γ : List Symbol} (h : g.Derives (α ++ β) γ) :
    ∃ γ₁ γ₂, γ = γ₁ ++ γ₂ ∧ g.Derives α γ₁ ∧ g.Derives β γ₂ := by
  induction h with
  | refl => exact ⟨α, β, rfl, .refl α, .refl β⟩
  | tail _ hp ih =>
    obtain ⟨γ₁, γ₂, rfl, h₁, h₂⟩ := ih
    rcases hp.append_split with ⟨γ₁', hp', rfl⟩ | ⟨γ₂', hp', rfl⟩
    · exact ⟨γ₁', γ₂, rfl, h₁.tail hp', h₂⟩
    · exact ⟨γ₁, γ₂', rfl, h₁, h₂.tail hp'⟩

theorem derives_terminal_iff {t : TerminalId} {β : List Symbol} :
    g.Derives [.terminal t] β ↔ β = [.terminal t] := by
  refine ⟨fun h => ?_, fun h => h ▸ .refl _⟩
  rcases Relation.ReflTransGen.cases_head h with h | ⟨γ, hp, _⟩
  · exact h.symm
  · generalize hs : [Symbol.terminal t] = σ at hp
    obtain ⟨before, after, rule, a, ha⟩ := hp
    cases before <;> simp at hs

/-- A derivation from a rule either has no steps or begins with one of its alternatives. -/
theorem derives_rule_iff {rule : RuleId} {β : List Symbol} :
    g.Derives [.rule rule] β ↔
      β = [.rule rule] ∨ ∃ a ∈ (g.rule rule).alternatives, g.Derives a.symbols β := by
  refine ⟨fun h => ?_, ?_⟩
  · rcases Relation.ReflTransGen.cases_head h with h | ⟨γ, hp, hrest⟩
    · exact .inl h.symm
    · generalize hs : [Symbol.rule rule] = σ at hp
      obtain ⟨before, after, rule', a, ha⟩ := hp
      obtain ⟨rfl, rfl, rfl⟩ : before = [] ∧ rule = rule' ∧ after = [] := by
        cases before <;> simp_all
      exact .inr ⟨a, ha, by simpa [Derives] using hrest⟩
  · rintro (rfl | ⟨a, ha, h⟩)
    · exact .refl _
    · exact derives_rule ha h

/-! ## The empty string -/

theorem nullable_nil : g.Nullable [] := .refl []

theorem nullable_append_iff {α β : List Symbol} :
    g.Nullable (α ++ β) ↔ g.Nullable α ∧ g.Nullable β := by
  constructor
  · intro h
    obtain ⟨γ₁, γ₂, hγ, h₁, h₂⟩ := derives_append_split h
    obtain ⟨rfl, rfl⟩ := List.append_eq_nil_iff.1 hγ.symm
    exact ⟨h₁, h₂⟩
  · rintro ⟨h₁, h₂⟩
    exact derives_append h₁ h₂

theorem nullable_cons_iff {s : Symbol} {α : List Symbol} :
    g.Nullable (s :: α) ↔ g.Nullable [s] ∧ g.Nullable α :=
  nullable_append_iff (α := [s])

theorem not_nullable_terminal {t : TerminalId} : ¬ g.Nullable [.terminal t] := by
  intro h
  have := derives_terminal_iff.1 h
  simp at this

theorem nullable_rule_iff {rule : RuleId} :
    g.Nullable [.rule rule] ↔ ∃ a ∈ (g.rule rule).alternatives, g.Nullable a.symbols := by
  simp [Nullable, derives_rule_iff]

theorem nullable_iff_forall {α : List Symbol} : g.Nullable α ↔ ∀ s ∈ α, g.Nullable [s] := by
  induction α with
  | nil => simp [nullable_nil]
  | cons s α ih => rw [nullable_cons_iff, ih]; simp

/-! ## Cycles -/

/-- A derivation that loses no symbol. -/
theorem Derives.length_le (hne : ∀ A, ∀ a ∈ (g.rule A).alternatives, a.symbols ≠ [])
    {α β : List Symbol} (h : g.Derives α β) : α.length ≤ β.length := by
  induction h with
  | refl => exact Nat.le_refl _
  | tail _ hp ih =>
    refine Nat.le_trans ih ?_
    obtain ⟨before, after, A, a, ha⟩ := hp
    have := List.length_pos_iff.2 (hne A a ha)
    simp only [List.length_append, List.length_cons]
    omega

/-- Where no alternative is empty, and one that is a single rule is of a rule of lower rank, no rule
derives itself. -/
theorem not_cyclic_of_rank (hne : ∀ A, ∀ a ∈ (g.rule A).alternatives, a.symbols ≠ [])
    (rank : RuleId → Nat)
    (hrank : ∀ A, ∀ a ∈ (g.rule A).alternatives, ∀ B, a.symbols = [.rule B] → rank B < rank A) :
    ¬ g.Cyclic := by
  -- what a rule derives in one step or more, if it is a rule, is one of lower rank
  have hlower : ∀ n A B, rank A = n → Relation.TransGen g.Produces [.rule A] [.rule B] →
      rank B < rank A := by
    intro n
    induction n using Nat.strongRecOn with
    | ind n ih =>
      rintro A B rfl h
      obtain ⟨α, hp, hd⟩ := Relation.TransGen.head'_iff.1 h
      obtain ⟨a, ha, rfl⟩ := exists_of_produces_rule hp
      obtain ⟨x, hx⟩ : ∃ x, a.symbols = [x] := by
        have hle := Derives.length_le hne hd
        have hpos := List.length_pos_iff.2 (hne A a ha)
        exact List.length_eq_one_iff.1 (Nat.le_antisymm hle hpos)
      rw [hx] at hd
      cases x with
      | terminal t => cases derives_terminal_iff.1 hd
      | rule C =>
        have hC := hrank A a ha C hx
        rcases Relation.reflTransGen_iff_eq_or_transGen.1 hd with he | hd
        · cases he
          exact hC
        · exact Nat.lt_trans (ih _ hC C B rfl hd) hC
  rintro ⟨A, h⟩
  exact Nat.lt_irrefl _ (hlower _ A A rfl h)

/-- A derivation stays among symbols whose rules have no others in their alternatives. -/
theorem Derives.mem_of_closed {S : Symbol → Prop}
    (hS : ∀ A, S (.rule A) → ∀ a ∈ (g.rule A).alternatives, ∀ x ∈ a.symbols, S x)
    {α β : List Symbol} (h : g.Derives α β) (hα : ∀ x ∈ α, S x) : ∀ x ∈ β, S x := by
  induction h with
  | refl => exact hα
  | tail _ hp ih =>
    obtain ⟨before, after, A, a, ha⟩ := hp
    intro x hx
    rcases List.mem_append.1 hx with hx | hx
    · rcases List.mem_append.1 hx with hx | hx
      · exact ih x (List.mem_append_left _ hx)
      · exact hS A (ih _ (by simp)) a ha x hx
    · exact ih x (List.mem_append_right _ (.tail _ hx))

/-- Where alternatives mention later rules only, no rule derives itself. -/
theorem not_cyclic_of_later
    (h : ∀ A, ∀ a ∈ (g.rule A).alternatives, ∀ B, .rule B ∈ a.symbols → A < B) : ¬ g.Cyclic := by
  rintro ⟨A, hA⟩
  obtain ⟨α, hp, hd⟩ := Relation.TransGen.head'_iff.1 hA
  obtain ⟨a, ha, rfl⟩ := exists_of_produces_rule hp
  have hlater : ∀ x ∈ [Symbol.rule A], ∀ B, x = .rule B → A < B := by
    refine Derives.mem_of_closed (fun B hB b hb x hx C hC => ?_) hd fun x hx B hB => ?_
    · exact Nat.lt_trans (hB B rfl) (h B b hb C (hC ▸ hx))
    · exact h A a ha B (hB ▸ hx)
  exact Nat.lt_irrefl A (hlater _ (List.mem_singleton_self _) A rfl)

/-! ## First terminals -/

variable (g) in
/-- The terminals that may begin a sentential form of the symbols, by the shape of the symbols. -/
inductive First : List Symbol → TerminalId → Prop
  | terminal (t : TerminalId) (rest : List Symbol) : First (.terminal t :: rest) t
  | rule {rule : RuleId} {a : Alternative} {t : TerminalId} (rest : List Symbol)
      (ha : a ∈ (g.rule rule).alternatives) (h : First a.symbols t) : First (.rule rule :: rest) t
  | skip {s : Symbol} {rest : List Symbol} {t : TerminalId} (hs : g.Nullable [s])
      (h : First rest t) : First (s :: rest) t

theorem First.append_right {α : List Symbol} {t : TerminalId} (h : g.First α t) (β : List Symbol) :
    g.First (α ++ β) t := by
  induction h with
  | terminal t rest => exact .terminal t (rest ++ β)
  | rule rest ha h => exact .rule (rest ++ β) ha h
  | skip hs _ ih => exact .skip hs ih

theorem First.append_left {α β : List Symbol} {t : TerminalId} (hα : g.Nullable α)
    (h : g.First β t) : g.First (α ++ β) t := by
  induction α with
  | nil => exact h
  | cons s α ih =>
    obtain ⟨hs, hα⟩ := nullable_cons_iff.1 hα
    exact .skip hs (ih hα)

theorem first_append_iff {α β : List Symbol} {t : TerminalId} :
    g.First (α ++ β) t ↔ g.First α t ∨ (g.Nullable α ∧ g.First β t) := by
  constructor
  · intro h
    induction α with
    | nil => exact .inr ⟨nullable_nil, h⟩
    | cons s α ih =>
      cases h with
      | terminal => exact .inl (.terminal t α)
      | rule _ ha h => exact .inl (.rule α ha h)
      | skip hs h =>
        rcases ih h with h | ⟨hα, h⟩
        · exact .inl (.skip hs h)
        · exact .inr ⟨nullable_cons_iff.2 ⟨hs, hα⟩, h⟩
  · rintro (h | ⟨hα, h⟩)
    · exact h.append_right β
    · exact First.append_left hα h

theorem first_of_produces {α β : List Symbol} {t : TerminalId} (hp : g.Produces α β)
    (h : g.First β t) : g.First α t := by
  obtain ⟨before, after, rule, a, ha⟩ := hp
  rw [List.append_assoc, first_append_iff] at h
  rcases h with h | ⟨hb, h⟩
  · exact h.append_right _
  · refine First.append_left hb ?_
    rcases first_append_iff.1 h with h | ⟨hn, h⟩
    · exact .rule after ha h
    · exact .skip (nullable_rule_iff.2 ⟨a, ha, hn⟩) h

theorem First.begins {α : List Symbol} {t : TerminalId} (h : g.First α t) : g.Begins α t := by
  induction h with
  | terminal t rest => exact ⟨rest, .refl _⟩
  | rule rest ha _ ih =>
    obtain ⟨γ, hγ⟩ := ih
    exact ⟨γ ++ rest, (derives_rule ha hγ).append_right rest⟩
  | @skip s rest t hs _ ih =>
    obtain ⟨γ, hγ⟩ := ih
    exact ⟨γ, derives_append (α := [s]) hs hγ⟩

theorem begins_iff_first {α : List Symbol} {t : TerminalId} : g.Begins α t ↔ g.First α t := by
  refine ⟨?_, First.begins⟩
  rintro ⟨rest, h⟩
  induction h using Relation.ReflTransGen.head_induction_on with
  | refl => exact .terminal t rest
  | head hp _ ih => exact first_of_produces hp ih

end Grammar

end ParseForest
