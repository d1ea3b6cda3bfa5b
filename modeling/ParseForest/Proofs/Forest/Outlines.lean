import ParseForest.Proofs.Forest.Deduplicating
import ParseForest.Proofs.Forest.Derivations
import ParseForest.Proofs.Forest.Rooted

/-!
# Derivations up to alternatives of one shape

The outline of a derivation says which symbols and leaves it visits, and of what kind and over which tokens
everything between them is. What is of one shape spells derivations of the same outlines
(`Arena.SameShape.exists_outline_eq`). So deduplication changes no outline
(`Pass.Deduplicates.exists_outline_eq`), and with it no tree (`Derivation.trees_eq_of_outline_eq`).
-/

namespace ParseForest

open Arena

/-- A visit of a symbol or a leaf, or of something of the kind over the tokens, with the visits below it. -/
inductive Outline
  | visit (id? : Option NodeId) (kind : NodeKind) (span : Option Span) (parts : List Outline)

/-- The symbol or leaf that a node is. Alternatives and parts of right-hand sides are told by what they
are made of. -/
def Arena.identity? (nodes : Arena) (id : NodeId) : Option NodeId :=
  match (node nodes id).kind with
  | .packed _ _ => none
  | .intermediate _ _ _ => none
  | .nulled _ _ _ => none
  | _ => some id

namespace Derivation

variable (nodes : Arena)

mutual

/-- The outline of a derivation. -/
def outline : Derivation → Outline
  | .visit id parts => .visit (nodes.identity? id) (node nodes id).kind (node nodes id).span (outlines parts)

/-- The outlines of several derivations. -/
def outlines : List Derivation → List Outline
  | [] => []
  | d :: ds => d.outline :: outlines ds

end

variable {nodes} {g : Grammar} {tokens : TokenStream}

theorem alternativeOf_eq_of_outlines_eq {ds ds' : List Derivation} (h : outlines nodes ds = outlines nodes ds') :
    alternativeOf nodes ds = alternativeOf nodes ds' := by
  rcases ds with _ | ⟨⟨p, parts⟩, ds⟩ <;> rcases ds' with _ | ⟨⟨q, parts'⟩, ds'⟩
  · rfl
  · cases h
  · cases h
  · simp only [outlines, outline, List.cons.injEq, Outline.visit.injEq] at h
    simp only [alternativeOf, h.1.2.1]

mutual

/-- Derivations of one outline yield the same trees. -/
theorem trees_eq_of_outline_eq (d d' : Derivation) (h : d.outline nodes = d'.outline nodes) :
    d.trees nodes g tokens = d'.trees nodes g tokens := by
  obtain ⟨id, parts⟩ := d
  obtain ⟨id', parts'⟩ := d'
  simp only [outline, Outline.visit.injEq] at h
  obtain ⟨-, hkind, -, hparts⟩ := h
  simp only [trees, hkind, treesOfAll_eq_of_outlines_eq parts parts' hparts,
    alternativeOf_eq_of_outlines_eq hparts]

theorem treesOfAll_eq_of_outlines_eq (ds ds' : List Derivation) (h : outlines nodes ds = outlines nodes ds') :
    treesOfAll nodes g tokens ds = treesOfAll nodes g tokens ds' := by
  rcases ds with _ | ⟨d, ds⟩ <;> rcases ds' with _ | ⟨d', ds'⟩
  · rfl
  · cases h
  · cases h
  · obtain ⟨hd, hds⟩ := List.cons.inj h
    rw [treesOfAll, treesOfAll, trees_eq_of_outline_eq d d' hd, treesOfAll_eq_of_outlines_eq ds ds' hds]

end

end Derivation

namespace Arena

variable {nodes nodes' : Arena} {a b id : NodeId} {d : Derivation}

/-- What is left of an arena spells no derivation that it did not spell before. -/
theorem Trims.derives (h : Trims nodes nodes') (hd : nodes'.Derives id d) : nodes.Derives id d := by
  refine derives_induction (P := fun id d => nodes.Derives id d) (Q := fun cs ds => nodes.DerivesAll cs ds)
    ?leaf ?choice ?whole ?nil ?cons hd
  case leaf =>
    intro id hk
    rw [h.kind_eq] at hk
    exact .leaf hk
  case choice =>
    intro id p d hc hp hd
    rw [h.toSameHeads.isChoice_eq] at hc
    exact .choice hc (h.mem_children hp) hd
  case whole =>
    intro id ds hk hds
    rw [h.toSameHeads.isPacked_eq, h.kind_eq] at hk
    have hnot : ¬ (node nodes id).isChoice = true := by
      rw [Node.isPacked_iff] at hk
      rcases hk with ⟨A, alt, hk⟩ | ⟨A, alt, dot, hk⟩ <;> rw [Node.isChoice, hk] <;> exact Bool.false_ne_true
    rw [h.children_eq id hnot] at hds
    exact .whole hk hds
  case nil => exact .nil
  case cons => exact fun c cs d ds hd hds => .cons hd hds

/-- Where arenas agree, nodes spell the same. -/
theorem Agrees.derives {S : NodeId → Prop} (h : Agrees S nodes nodes') (hid : S id) (hd : nodes.Derives id d) :
    nodes'.Derives id d := by
  refine derives_induction (P := fun id d => S id → nodes'.Derives id d)
    (Q := fun cs ds => (∀ c ∈ cs, S c) → nodes'.DerivesAll cs ds) ?leaf ?choice ?whole ?nil ?cons hd hid
  case leaf =>
    intro id hk _
    rw [← h.kind_eq] at hk
    exact .leaf hk
  case choice =>
    intro id p d hc hp ih hid
    rw [← h.toSameHeads.isChoice_eq] at hc
    exact .choice hc (by rwa [h.children_eq id hid]) (ih (h.closed id hid p hp))
  case whole =>
    intro id ds hk ih hid
    rw [← h.toSameHeads.isPacked_eq, ← h.kind_eq] at hk
    refine .whole hk ?_
    rw [h.children_eq id hid]
    exact ih (h.closed id hid)
  case nil => exact fun _ => .nil
  case cons => exact fun c cs d ds ih ihs hS => .cons (ih (hS c (.head _))) (ihs fun c hc => hS c (.tail _ hc))

theorem identity?_of_isPart (h : (node nodes id).isPacked = true ∨ nodes.IsPart id) :
    nodes.identity? id = none := by
  rw [Node.isPacked_iff] at h
  rcases h with ⟨A, alt, hk⟩ | ⟨A, alt, dot, hk⟩ | ⟨A, alt, dot, hk⟩ <;> rw [identity?, hk]

/-- Alternatives and parts of right-hand sides of one shape spell derivations of the same outlines. -/
theorem SameShape.exists_outline_eq (hl : nodes.Layered) (hk : (node nodes a).isPacked = true ∨ nodes.IsPart a)
    (hab : nodes.SameShape a b) (hd : nodes.Derives a d) :
    ∃ d', nodes.Derives b d' ∧ d'.outline nodes = d.outline nodes := by
  refine (derives_induction
    (P := fun a d => nodes.Derives a d ∧ ∀ b, (node nodes a).isPacked = true ∨ nodes.IsPart a →
      nodes.SameShape a b → ∃ d', nodes.Derives b d' ∧ d'.outline nodes = d.outline nodes)
    (Q := fun cs ds => nodes.DerivesAll cs ds ∧
      ∀ cs', List.Forall₂ (nodes.SamePart nodes.SameShape) cs cs' →
      ∃ ds', nodes.DerivesAll cs' ds' ∧ Derivation.outlines nodes ds' = Derivation.outlines nodes ds)
    ?leaf ?choice ?whole ?nil ?cons hd).2 b hk hab
  case leaf =>
    refine fun id hk => ⟨.leaf hk, fun b hk' _ => ?_⟩
    rw [Node.isPacked_iff] at hk'
    rcases hk' with ⟨A, alt, hk'⟩ | ⟨A, alt, dot, hk'⟩ | ⟨A, alt, dot, hk'⟩ <;> simp [hk'] at hk
  case choice =>
    rintro a p d hc hp ⟨hd, ih⟩
    refine ⟨.choice hc hp hd, fun b hk hab => ?_⟩
    have hinter : nodes.IsIntermediate a := by
      rcases hk with hk | hk | ⟨A, alt, dot, hk⟩
      · rw [Node.not_isPacked_of_isChoice hc] at hk
        cases hk
      · exact hk
      · rw [Node.isChoice, hk] at hc
        cases hc
    have hstep := hab.alike
    obtain ⟨q, hq, hpq⟩ := (hstep.alternatives hinter).1 p hp
    obtain ⟨d', hd', houtline⟩ := ih q (.inl (hl.isPacked a hc p hp)) hpq
    have hkb : (node nodes b).isPacked = true ∨ nodes.IsPart b :=
      .inr (.inl ((isIntermediate_congr hstep.kind_eq).1 hinter))
    refine ⟨.visit b [d'], .choice (by rwa [Node.isChoice, ← hstep.kind_eq]) hq hd', ?_⟩
    simp only [Derivation.outline, Derivation.outlines, identity?_of_isPart hk, identity?_of_isPart hkb,
      hstep.kind_eq, hstep.span_eq, houtline]
  case whole =>
    rintro a ds hk ⟨hds, ih⟩
    refine ⟨.whole hk hds, fun b hk' hab => ?_⟩
    have hstep := hab.alike
    have hnot : ¬ nodes.IsIntermediate a := by
      rintro ⟨A, alt, dot, hinter⟩
      rw [Node.isPacked_iff] at hk
      rcases hk with ⟨B, beta, hk⟩ | ⟨B, beta, dot, hk⟩ <;> cases hinter.symm.trans hk
    obtain ⟨ds', hds', houtlines⟩ := ih _ (hstep.parts hnot)
    have hkb : (node nodes b).isPacked = true ∨ nodes.IsPart b := by
      rwa [Node.isPacked, ← hstep.kind_eq, ← isPart_congr hstep.kind_eq]
    refine ⟨.visit b ds', .whole (by rwa [Node.isPacked, ← hstep.kind_eq]) hds', ?_⟩
    simp only [Derivation.outline, identity?_of_isPart hk', identity?_of_isPart hkb, hstep.kind_eq,
      hstep.span_eq, houtlines]
  case nil =>
    refine ⟨.nil, fun cs' h => ?_⟩
    cases h
    exact ⟨[], .nil, rfl⟩
  case cons =>
    rintro c cs d ds ⟨hd, ih⟩ ⟨hds, ih'⟩
    refine ⟨.cons hd hds, fun cs' h => ?_⟩
    obtain ⟨c', cs', hc, hcs, rfl⟩ := List.forall₂_cons_left_iff.1 h
    obtain ⟨ds', hds', houtlines⟩ := ih' cs' hcs
    rcases hc with ⟨hpart, hcc⟩ | ⟨-, rfl⟩
    · obtain ⟨d', hd', houtline⟩ := ih c' (.inr hpart) hcc
      exact ⟨d' :: ds', .cons hd' hds', by rw [Derivation.outlines, Derivation.outlines, houtline, houtlines]⟩
    · exact ⟨d :: ds', .cons hd hds', by rw [Derivation.outlines, Derivation.outlines, houtlines]⟩

end Arena

namespace Pass

variable {nodes nodes' : Arena} {S : NodeId → Prop} {rank : NodeId → Nat} {id : NodeId} {d : Derivation}

/-- What is left by deduplication spells derivations of the same outlines as before. -/
theorem Deduplicates.exists_outline_eq (h : Deduplicates S nodes nodes') (hl : nodes.Layered)
    (hclosed : ∀ id, S id → ∀ c ∈ childrenOf nodes id, S c)
    (hrank : ∀ id, S id → ∀ c ∈ childrenOf nodes id, rank c < rank id) (hid : S id)
    (hd : nodes.Derives id d) : ∃ d', nodes'.Derives id d' ∧ d'.outline nodes = d.outline nodes := by
  induction hi : rank id using Nat.strongRecOn generalizing id d with
  | ind i ih =>
    subst hi
    have ih : ∀ c ∈ childrenOf nodes id, ∀ d, nodes.Derives c d →
        ∃ d', nodes'.Derives c d' ∧ d'.outline nodes = d.outline nodes := fun c hc d hd =>
      ih _ (hrank id hid c hc) (hclosed id hid c hc) hd rfl
    cases hd with
    | leaf hk => exact ⟨_, .leaf (by rwa [h.kind_eq]), rfl⟩
    | @choice _ p d hc hp hd =>
      -- some alternative of the same shape is left
      obtain ⟨q, hq, hqp⟩ := h.exists_sameShape hid hc hp
      obtain ⟨d₁, hd₁, hout₁⟩ := hqp.symm.exists_outline_eq hl (.inl (hl.isPacked id hc p hp)) hd
      obtain ⟨d₂, hd₂, hout₂⟩ := ih q (h.mem_children hq) d₁ hd₁
      refine ⟨.visit id [d₂], .choice (by rwa [h.toSameHeads.isChoice_eq]) hq hd₂, ?_⟩
      simp only [Derivation.outline, Derivation.outlines, hout₂, hout₁]
    | @whole _ ds hk hds =>
      have hnot : ¬ (node nodes id).isChoice = true := by
        rw [Node.isPacked_iff] at hk
        rcases hk with ⟨A, alt, hk⟩ | ⟨A, alt, dot, hk⟩ <;> rw [Node.isChoice, hk] <;> exact Bool.false_ne_true
      have hall : ∀ cs ds, (∀ c ∈ cs, c ∈ childrenOf nodes id) → nodes.DerivesAll cs ds →
          ∃ ds', nodes'.DerivesAll cs ds' ∧
            Derivation.outlines nodes ds' = Derivation.outlines nodes ds := by
        intro cs
        induction cs with
        | nil =>
          rintro _ - ⟨⟩
          exact ⟨[], .nil, rfl⟩
        | cons c cs ihcs =>
          rintro _ hcs (_ | ⟨hd, hds⟩)
          obtain ⟨d', hd', hout⟩ := ih c (hcs c (.head _)) _ hd
          obtain ⟨ds', hds', houts⟩ := ihcs _ (fun b hb => hcs b (.tail _ hb)) hds
          exact ⟨d' :: ds', .cons hd' hds', by rw [Derivation.outlines, Derivation.outlines, hout, houts]⟩
      obtain ⟨ds', hds', houts⟩ := hall _ ds (fun c hc => hc) hds
      refine ⟨.visit id ds', .whole (by rwa [h.toSameHeads.isPacked_eq, h.kind_eq]) ?_, ?_⟩
      · rwa [h.children_eq id hnot]
      · simp only [Derivation.outline, houts]

end Pass

end ParseForest
