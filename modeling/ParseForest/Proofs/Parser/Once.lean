import ParseForest.Proofs.Forest.Yield
import ParseForest.Proofs.Forest.Separating
import ParseForest.Proofs.Parser.Layout

/-!
# Every tree is listed once

No two alternatives of a choice stand for the same trees (`Formed.alternative_eq`): the trees of the
first symbol have all the tokens that it spans, so they tell where the rest of the right-hand side
begins, and there is only one node for each part. And the parts of a right-hand side stand for lists of
trees that are all equally long (`Formed.length_of_mem_readings`), so a list of trees is put together in
one way only. So alternatives are told apart by their trees (`Formed.separates`), and the list of a node is
one without repetitions (`Formed.nodup_readings`).
-/

namespace ParseForest

variable {σ : Type}

namespace Arena

/-- Where all parts from a list are equally long, so are the lists that they are joined to. -/
theorem length_of_mem_combine {F : NodeId → List (List Tree)} {n : NodeId → Nat} {cs : List NodeId}
    (hn : ∀ c ∈ cs, ∀ ts ∈ F c, ts.length = n c) {ts : List Tree} (hts : ts ∈ combine (cs.map F)) :
    ts.length = (cs.map n).sum := by
  induction cs generalizing ts with
  | nil =>
    obtain rfl := List.mem_singleton.1 hts
    rfl
  | cons c cs ih =>
    obtain ⟨front, hfront, back, hback, rfl⟩ := mem_combine_cons_iff.1 hts
    rw [List.length_append, hn c (.head _) front hfront, ih (fun d hd => hn d (.tail _ hd)) hback]
    rfl

end Arena

namespace ParseInput.Formed

open Arena

variable {input : ParseInput σ} {nodes : Arena} (h : input.Formed nodes)
  (hε : input.compiled.epsilon.Laid input.grammar)
include h hε

/-- An alternative is one of the rule of its choice, and of the same one if the choice is a part of a
right-hand side. -/
theorem kind_of_alternative {id p : NodeId} (hc : (node nodes id).isChoice = true)
    (hp : p ∈ childrenOf nodes id) :
    (∃ A alt, (node nodes id).kind = .symbol A ∧ (node nodes p).kind = .packed A alt) ∨
    ∃ A alt dot, (node nodes id).kind = .intermediate A alt dot ∧
      (node nodes p).kind = .packed A alt := by
  rcases h.alternative_cases hε hc hp with ⟨A, alt, hA, hnode⟩ |
    ⟨s, A, alt, dot, children, -, ⟨⟨hk, -⟩ | hk, -⟩, hnode, -⟩
  · obtain ⟨hlt, hk, -⟩ := hε.symbol A id hA
    exact .inl ⟨A, alt, by rw [h.fragment id hlt, hk], by rw [hnode]; rfl⟩
  · exact .inl ⟨A, alt, hk, by rw [hnode]; rfl⟩
  · exact .inr ⟨A, alt, dot, hk, by rw [hnode]; rfl⟩

/-- What a node stands for is equally long in all its lists: for a part of a right-hand side there is
one tree per symbol. -/
theorem length_of_mem_readings {id : NodeId} (hid : (node nodes id).isPacked = false) :
    ∃ n, ∀ fuel, ∀ ts ∈ nodes.readings input.grammar input.tokens fuel id, ts.length = n := by
  have hl := h.layered hε
  have hsymbol : ∀ {id}, (node nodes id).kind = .epsilon ∨ (∃ A, (node nodes id).kind = .symbol A) →
      ∃ n, ∀ fuel, ∀ ts ∈ nodes.readings input.grammar input.tokens fuel id, ts.length = n := by
    rintro id (hk | ⟨A, hk⟩)
    · refine ⟨0, fun fuel ts hts => ?_⟩
      cases fuel with
      | zero => cases hts
      | succ fuel =>
        simp only [readings, hk, List.mem_singleton] at hts
        rw [hts, List.length_nil]
    · refine ⟨1, fun fuel ts hts => ?_⟩
      cases fuel with
      | zero => cases hts
      | succ fuel =>
        obtain ⟨-, -, -, -, -, -, -, rfl⟩ := (mem_readings_symbol_iff hl hk).1 hts
        rfl
  cases hk : (node nodes id).kind with
  | epsilon => exact hsymbol (.inl hk)
  | symbol A => exact hsymbol (.inr ⟨A, hk⟩)
  | packed A alt =>
    rw [Node.isPacked, hk] at hid
    cases hid
  | terminal i =>
    refine ⟨1, fun fuel ts hts => ?_⟩
    cases fuel with
    | zero => cases hts
    | succ fuel =>
      simp only [readings, hk, List.mem_map] at hts
      obtain ⟨tok, -, rfl⟩ := hts
      rfl
  | nulled A alt dot =>
    have hlength : ∀ c ∈ childrenOf nodes id, ∃ n, ∀ fuel,
        ∀ ts ∈ nodes.readings input.grammar input.tokens fuel c, ts.length = n := fun c hc =>
      hsymbol (h.kind_of_nulled hε hk hc)
    choose! n hn using hlength
    refine ⟨((childrenOf nodes id).map n).sum, fun fuel ts hts => ?_⟩
    cases fuel with
    | zero => cases hts
    | succ fuel =>
      simp only [readings, hk] at hts
      exact length_of_mem_combine (fun c hc => hn c hc fuel) hts
  | intermediate A alt dot =>
    refine ⟨((input.grammar.alternative A alt).symbols.drop dot).length, fun fuel ts hts => ?_⟩
    have hread := (reads_of_mem_readings hl fuel).1 id hid ts hts
    cases hs : (node nodes id).span with
    | some s =>
      have hfits := (h.backed.spans_of_covers (.intermediate hk hs) hread).1
      exact (Tree.fitsAll_iff_forall₂.1 hfits).length_eq
    | none =>
      obtain ⟨B, hkB, -⟩ := h.kind_of_span_none hε (by rw [Node.isChoice, hk]) hs
      cases hk.symm.trans hkB

end ParseInput.Formed

namespace ParseInput.Formed

open Arena

variable {input : ParseInput σ} {nodes : Arena} (h : input.Formed nodes) (hr : input.Ready)
include h hr

/-- What holds the same symbols over the same tokens and stands for the same trees is the same. -/
theorem holds_unique {A : RuleId} {alt dot l r : Nat} {children children' : Children}
    (hh : input.Holds nodes A alt dot l r children) (hh' : input.Holds nodes A alt dot l r children')
    {ts : List Tree} (hts : nodes.ReadsAll input.grammar input.tokens children.toList ts)
    (hts' : nodes.ReadsAll input.grammar input.tokens children'.toList ts) : children = children' := by
  cases hh with
  | only hx hlast hs =>
    cases hh' with
    | only hx' _ hs' =>
      obtain rfl := Option.some.inj (hx.symm.trans hx')
      rw [h.stands_unique hr hs hs']
    | cons hx' hs' ht' =>
      have := Arena.Holds.lt_length hr.epsilon (.cons hx' hs' ht')
      omega
  | cons hx hs ht =>
    cases hh' with
    | only hx' hlast hs' =>
      have := Arena.Holds.lt_length hr.epsilon (.cons hx hs ht)
      omega
    | cons hx' hs' ht' =>
      obtain rfl := Option.some.inj (hx.symm.trans hx')
      obtain ⟨t, us, rfl, hread⟩ := hts.exists_first hs.kind_cases
      obtain ⟨t', us', heq, hread'⟩ := hts'.exists_first hs'.kind_cases
      obtain ⟨rfl, rfl⟩ := List.cons.inj heq
      -- the first tree tells where the rest begins
      obtain rfl := (h.backed.spans_of_stands hs hread.1).2.2
      obtain rfl := (h.backed.spans_of_stands hs' hread'.1).2.2
      rw [h.stands_unique hr hs hs', h.isTail_unique hr ht ht']

/-- Alternatives of a choice that have the same number and stand for the same trees are the same. -/
theorem alternative_eq {id p p' : NodeId} (hc : (node nodes id).isChoice = true)
    (hp : p ∈ childrenOf nodes id) (hp' : p' ∈ childrenOf nodes id)
    (hk : (node nodes p).kind = (node nodes p').kind) {ts : List Tree}
    (hts : nodes.ReadsAll input.grammar input.tokens (childrenOf nodes p) ts)
    (hts' : nodes.ReadsAll input.grammar input.tokens (childrenOf nodes p') ts) :
    node nodes p = node nodes p' := by
  rcases h.alternative_cases hr.epsilon hc hp with ⟨A, alt, hA, hnode⟩ |
    ⟨s, A, alt, dot, children, hs, ho, hnode, hh⟩ <;>
  rcases h.alternative_cases hr.epsilon hc hp' with ⟨A', alt', hA', hnode'⟩ |
    ⟨s', A', alt', dot', children', hs', ho', hnode', hh'⟩ <;>
  rw [hnode, hnode'] at hk
  · obtain ⟨rfl, rfl⟩ := NodeKind.packed.inj hk
    rw [hnode, hnode']
  · have := h.size_le_of_span hr.epsilon hs'
    exact absurd (hr.epsilon.symbol A id hA).1 (Nat.not_lt.2 this)
  · have := h.size_le_of_span hr.epsilon hs
    exact absurd (hr.epsilon.symbol A' id hA').1 (Nat.not_lt.2 this)
  · obtain ⟨rfl, rfl⟩ := NodeKind.packed.inj hk
    obtain rfl := Option.some.inj (hs.symm.trans hs')
    have hdot : dot = dot' := by
      rcases ho.1 with ⟨hk, rfl, -⟩ | hk <;> rcases ho'.1 with ⟨hk', rfl, -⟩ | hk'
      · rfl
      · cases hk.symm.trans hk'
      · cases hk.symm.trans hk'
      · exact (NodeKind.intermediate.inj (hk.symm.trans hk')).2.2
    subst hdot
    rw [childrenOf, hnode] at hts
    rw [childrenOf, hnode'] at hts'
    rw [hnode, hnode', h.holds_unique hr hh hh' hts hts']

/-- The arena of a parse tells alternatives apart by the trees that they stand for. -/
theorem separates (hd : nodes.Distinct) :
    nodes.Separates input.grammar input.tokens fun _ => True := by
  have hl := h.layered hr.epsilon
  refine ⟨hl, fun _ _ _ _ => trivial, fun id hc p hp => h.kind_of_alternative hr.epsilon hc hp,
    fun id _ hid => ?_, fun id _ hc => ?_⟩
  · obtain ⟨n, hn⟩ := h.length_of_mem_readings hr.epsilon hid
    refine ⟨n, fun ts hts => ?_⟩
    obtain ⟨fuel, hfuel⟩ := (exists_mem_readings hl).2 [id] ts hts
    rw [List.map_singleton, combine_singleton] at hfuel
    exact hn fuel ts hfuel
  · have hpairs := List.pairwise_map.1 (hd.nodup id hc)
    refine hpairs.imp_of_mem fun {p p'} hp hp' hne hk ts hts hts' => hne ?_
    have hnode := h.alternative_eq hr hc hp hp' hk hts hts'
    rw [childrenOf, childrenOf, hnode]

/-- A node lists what it stands for without repetitions. -/
theorem nodup_readings (hd : nodes.Distinct) (fuel : Nat) (id : NodeId) :
    (nodes.readings input.grammar input.tokens fuel id).Nodup :=
  (h.separates hr hd).nodup_readings fuel trivial

end ParseInput.Formed

end ParseForest
