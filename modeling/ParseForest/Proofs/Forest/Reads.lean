import ParseForest.Forest.Tree
import ParseForest.Grammar.Matching
import ParseForest.Proofs.Forest.Arena

/-!
# Derivation trees, and the trees of a node

`Tree.Fits` says that a tree is a derivation tree of a symbol, whatever forest it comes from.
`Arena.Reads` says which trees a node stands for, whatever the numbers of the trees: a symbol node
stands for the trees of its alternatives, and the children of an alternative are read with
intermediate nodes replaced by what one of their alternatives holds and nulled nodes by what they
hold. Every tree that is read by number is one of them (`treeFrom_reads`).
-/

namespace ParseForest

/-! ## Derivation trees -/

namespace Tree

mutual

/-- The tokens of a tree, in order. -/
def leaves : Tree → List Token
  | .token t => [t]
  | .rule _ _ _ children => leavesOfAll children

/-- The tokens of several trees. -/
def leavesOfAll : List Tree → List Token
  | [] => []
  | t :: ts => t.leaves ++ leavesOfAll ts

end

theorem leavesOfAll_append (ts us : List Tree) :
    leavesOfAll (ts ++ us) = leavesOfAll ts ++ leavesOfAll us := by
  induction ts with
  | nil => rfl
  | cons t ts ih => simp only [List.cons_append, leavesOfAll, ih, List.append_assoc]

mutual

/-- The tree is a derivation tree of the symbol: a token that satisfies the terminal, or an
alternative of the rule with a derivation tree per symbol. -/
inductive Fits (g : Grammar) (m : TerminalMatcher) : Tree → Symbol → Prop
  | token {tok : Token} {t : TerminalId} (h : t ∈ m.matching tok) :
      Fits g m (.token tok) (.terminal t)
  | rule {A : RuleId} {alt : Nat} {children : List Tree}
      (ha : alt < (g.rule A).alternatives.size)
      (h : FitsAll g m children (g.alternative A alt).symbols) :
      Fits g m (.rule (g.rule A).name A alt children) (.rule A)

/-- Each tree is a derivation tree of the symbol in its place. -/
inductive FitsAll (g : Grammar) (m : TerminalMatcher) : List Tree → List Symbol → Prop
  | nil : FitsAll g m [] []
  | cons {t : Tree} {ts : List Tree} {x : Symbol} {xs : List Symbol} (h : Fits g m t x)
      (hs : FitsAll g m ts xs) : FitsAll g m (t :: ts) (x :: xs)

end

theorem fitsAll_iff_forall₂ {g : Grammar} {m : TerminalMatcher} {ts : List Tree}
    {xs : List Symbol} : FitsAll g m ts xs ↔ List.Forall₂ (Fits g m) ts xs := by
  constructor
  · intro h
    induction ts generalizing xs with
    | nil =>
      cases h
      exact .nil
    | cons t ts ih =>
      cases h with
      | cons h hs => exact .cons h (ih hs)
  · intro h
    induction h with
    | nil => exact .nil
    | cons h _ ih => exact .cons h ih

end Tree

/-! ## Trees of a node -/

namespace Arena

mutual

/-- The tree is one that the node stands for. -/
inductive Reads (nodes : Arena) (g : Grammar) (tokens : TokenStream) : NodeId → Tree → Prop
  | token {id : NodeId} {i : Nat} {tok : Token} (hk : (node nodes id).kind = .terminal i)
      (ht : tokens.get? i = some tok) : Reads nodes g tokens id (.token tok)
  | rule {id p : NodeId} {A A' : RuleId} {alt : Nat} {children : List Tree}
      (hk : (node nodes id).kind = .symbol A) (hp : p ∈ childrenOf nodes id)
      (hpk : (node nodes p).kind = .packed A' alt)
      (h : ReadsAll nodes g tokens (childrenOf nodes p) children) :
      Reads nodes g tokens id (.rule (g.rule A).name A alt children)

/-- The trees are some that the children of an alternative stand for, one per symbol. -/
inductive ReadsAll (nodes : Arena) (g : Grammar) (tokens : TokenStream) :
    List NodeId → List Tree → Prop
  | nil : ReadsAll nodes g tokens [] []
  | epsilon {c : NodeId} {cs : List NodeId} {ts : List Tree} (hk : (node nodes c).kind = .epsilon)
      (h : ReadsAll nodes g tokens cs ts) : ReadsAll nodes g tokens (c :: cs) ts
  | nulled {c : NodeId} {cs : List NodeId} {us ts : List Tree} {A : RuleId} {alt dot : Nat}
      (hk : (node nodes c).kind = .nulled A alt dot)
      (h : ReadsAll nodes g tokens (childrenOf nodes c) us)
      (hs : ReadsAll nodes g tokens cs ts) : ReadsAll nodes g tokens (c :: cs) (us ++ ts)
  | intermediate {c p : NodeId} {cs : List NodeId} {us ts : List Tree} {A : RuleId} {alt dot : Nat}
      (hk : (node nodes c).kind = .intermediate A alt dot) (hp : p ∈ childrenOf nodes c)
      (h : ReadsAll nodes g tokens (childrenOf nodes p) us)
      (hs : ReadsAll nodes g tokens cs ts) : ReadsAll nodes g tokens (c :: cs) (us ++ ts)
  | tree {c : NodeId} {cs : List NodeId} {t : Tree} {ts : List Tree}
      (h : Reads nodes g tokens c t) (hs : ReadsAll nodes g tokens cs ts) :
      ReadsAll nodes g tokens (c :: cs) (t :: ts)

end

variable {nodes : Arena} {g : Grammar} {tokens : TokenStream}

/-- Induction on how a tree is read. -/
theorem reads_induction {P : NodeId → Tree → Prop} {Q : List NodeId → List Tree → Prop}
    (token : ∀ id i tok, (node nodes id).kind = .terminal i → tokens.get? i = some tok →
      P id (.token tok))
    (rule : ∀ id p A A' alt children, (node nodes id).kind = .symbol A → p ∈ childrenOf nodes id →
      (node nodes p).kind = .packed A' alt → Q (childrenOf nodes p) children →
      P id (.rule (g.rule A).name A alt children))
    (nil : Q [] [])
    (epsilon : ∀ c cs ts, (node nodes c).kind = .epsilon → Q cs ts → Q (c :: cs) ts)
    (nulled : ∀ c cs us ts A alt dot, (node nodes c).kind = .nulled A alt dot →
      Q (childrenOf nodes c) us → nodes.ReadsAll g tokens cs ts → Q cs ts → Q (c :: cs) (us ++ ts))
    (intermediate : ∀ c p cs us ts A alt dot, (node nodes c).kind = .intermediate A alt dot →
      p ∈ childrenOf nodes c → Q (childrenOf nodes p) us → nodes.ReadsAll g tokens cs ts → Q cs ts →
      Q (c :: cs) (us ++ ts))
    (tree : ∀ c cs t ts, nodes.Reads g tokens c t → P c t → Q cs ts → Q (c :: cs) (t :: ts)) :
    (∀ id t, nodes.Reads g tokens id t → P id t) ∧
      ∀ cs ts, nodes.ReadsAll g tokens cs ts → Q cs ts := by
  constructor
  · intro id t h
    exact @Reads.rec nodes g tokens (fun id t _ => P id t) (fun cs ts _ => Q cs ts)
      (fun hk ht => token _ _ _ hk ht) (fun hk hp hpk _ ih => rule _ _ _ _ _ _ hk hp hpk ih) nil
      (fun hk _ ih => epsilon _ _ _ hk ih) (fun hk _ h ih ih' => nulled _ _ _ _ _ _ _ hk ih h ih')
      (fun hk hp _ h ih ih' => intermediate _ _ _ _ _ _ _ _ hk hp ih h ih')
      (fun h _ ih ih' => tree _ _ _ _ h ih ih') id t h
  · intro cs ts h
    exact @ReadsAll.rec nodes g tokens (fun id t _ => P id t) (fun cs ts _ => Q cs ts)
      (fun hk ht => token _ _ _ hk ht) (fun hk hp hpk _ ih => rule _ _ _ _ _ _ hk hp hpk ih) nil
      (fun hk _ ih => epsilon _ _ _ hk ih) (fun hk _ h ih ih' => nulled _ _ _ _ _ _ _ hk ih h ih')
      (fun hk hp _ h ih ih' => intermediate _ _ _ _ _ _ _ _ hk hp ih h ih')
      (fun h _ ih ih' => tree _ _ _ _ h ih ih') cs ts h

theorem ReadsAll.append {cs ds : List NodeId} {ts us : List Tree}
    (h : nodes.ReadsAll g tokens cs ts) (h' : nodes.ReadsAll g tokens ds us) :
    nodes.ReadsAll g tokens (cs ++ ds) (ts ++ us) := by
  refine (reads_induction (P := fun _ _ => True)
    (Q := fun cs ts => nodes.ReadsAll g tokens cs ts ∧ nodes.ReadsAll g tokens (cs ++ ds) (ts ++ us))
    (fun _ _ _ _ _ => trivial) (fun _ _ _ _ _ _ _ _ _ _ => trivial) ⟨.nil, h'⟩
    (fun c cs ts hk ih => ⟨.epsilon hk ih.1, .epsilon hk ih.2⟩)
    (fun c cs vs ts A alt dot hk ih hr ih' => ⟨.nulled hk ih.1 hr, ?_⟩)
    (fun c p cs vs ts A alt dot hk hp ih hr ih' => ⟨.intermediate hk hp ih.1 hr, ?_⟩)
    (fun c cs t ts ht _ ih => ⟨.tree ht ih.1, .tree ht ih.2⟩)).2 cs ts h |>.2
  · rw [List.append_assoc]
    exact .nulled hk ih.1 ih'.2
  · rw [List.append_assoc]
    exact .intermediate hk hp ih.1 ih'.2

/-- Only leaves and symbol nodes stand for trees. -/
theorem Reads.kind_cases {id : NodeId} {t : Tree} (h : nodes.Reads g tokens id t) :
    (∃ i, (node nodes id).kind = .terminal i) ∨ ∃ A, (node nodes id).kind = .symbol A := by
  cases h with
  | token hk _ => exact .inl ⟨_, hk⟩
  | rule hk _ _ _ => exact .inr ⟨_, hk⟩

/-- A tree with an alternative at its root is read from that alternative. -/
theorem Reads.exists_alternative {id : NodeId} {name : String} {A : RuleId} {alt : Nat} {ts : List Tree}
    (h : nodes.Reads g tokens id (.rule name A alt ts)) : ∃ p ∈ childrenOf nodes id, ∃ B,
      (node nodes p).kind = .packed B alt ∧ nodes.ReadsAll g tokens (childrenOf nodes p) ts := by
  generalize ht : Tree.rule name A alt ts = t at h
  cases h with
  | token => cases ht
  | rule _ hp hpk hts =>
    obtain ⟨-, -, rfl, rfl⟩ := Tree.rule.inj ht
    exact ⟨_, hp, _, hpk, hts⟩

/-- What stands for a symbol gives one tree of those that it and others stand for together. -/
theorem ReadsAll.exists_first {c : NodeId} {cs : List NodeId} {ts : List Tree}
    (h : nodes.ReadsAll g tokens (c :: cs) ts)
    (hk : (∃ i, (node nodes c).kind = .terminal i) ∨ ∃ A, (node nodes c).kind = .symbol A) :
    ∃ t us, ts = t :: us ∧ nodes.Reads g tokens c t ∧ nodes.ReadsAll g tokens cs us := by
  cases h with
  | tree h hs => exact ⟨_, _, rfl, h, hs⟩
  | epsilon hk' _ => rcases hk with ⟨i, hk⟩ | ⟨A, hk⟩ <;> cases hk.symm.trans hk'
  | nulled hk' _ _ => rcases hk with ⟨i, hk⟩ | ⟨A, hk⟩ <;> cases hk.symm.trans hk'
  | intermediate hk' _ _ _ => rcases hk with ⟨i, hk⟩ | ⟨A, hk⟩ <;> cases hk.symm.trans hk'

end Arena

/-! ## Trees by number -/

namespace TreeIndex

variable {index : TreeIndex} {nodes : Arena} {g : Grammar} {tokens : TokenStream}

theorem mem_of_chooseAmong {i : Nat} {ps : List NodeId} {p : NodeId} {j : Nat}
    (h : index.chooseAmong i ps = some (p, j)) : p ∈ ps := by
  induction ps generalizing i with
  | nil => cases h
  | cons q ps ih =>
    rw [chooseAmong] at h
    split at h
    · exact .tail _ (ih h)
    · split at h
      · obtain ⟨rfl, -⟩ := Prod.mk.inj (Option.some.inj h)
        exact .head _
      · exact .tail _ (ih h)

theorem mem_of_choose {id : NodeId} {i : Nat} {p : NodeId} {j : Nat}
    (h : index.choose nodes id i = some (p, j)) : p ∈ Arena.childrenOf nodes id :=
  mem_of_chooseAmong h

/-- The symbols that one child contributes to a numbered right-hand side. -/
def part (index : TreeIndex) (nodes : Arena) (fuel : Nat) (x : NodeId × Nat) :
    Option (List (NodeId × Nat)) :=
  match (Arena.node nodes x.1).kind with
  | .intermediate _ _ _ => do
    let (inner, i) ← index.choose nodes x.1 x.2
    elements index nodes fuel inner i
  | .nulled _ _ _ => elements index nodes fuel x.1 x.2
  | .epsilon => some []
  | _ => some [x]

theorem elements_succ (fuel : Nat) (p : NodeId) (i : Nat) :
    index.elements nodes (fuel + 1) p i =
      ((index.digits i (Arena.childrenOf nodes p)).mapM (index.part nodes fuel)).map
        List.flatten := by
  have hpart : index.part nodes fuel = fun (child, own) =>
      match (Arena.node nodes child).kind with
      | .intermediate _ _ _ => do
        let (inner, i) ← index.choose nodes child own
        elements index nodes fuel inner i
      | .nulled _ _ _ => elements index nodes fuel child own
      | .epsilon => some []
      | _ => some [(child, own)] := by
    funext ⟨c, own⟩
    rfl
  rw [elements, hpart]
  exact Option.map_eq_bind.symm

/-- The tree of a rule with the symbols of a numbered alternative. -/
def ruleTree (index : TreeIndex) (nodes : Arena) (g : Grammar) (tokens : TokenStream) (fuel : Nat)
    (A : RuleId) (p : NodeId) (i : Nat) : Option Tree :=
  match (Arena.node nodes p).kind with
  | .packed _ alt => (index.elements nodes (nodes.size + 1) p i).bind fun es =>
    (es.mapM fun x => index.treeFrom nodes g tokens fuel x.1 x.2).map (.rule (g.rule A).name A alt)
  | _ => none

theorem ruleTree_eq {A B : RuleId} {p : NodeId} {alt fuel i : Nat}
    (hpk : (Arena.node nodes p).kind = .packed B alt) : index.ruleTree nodes g tokens fuel A p i =
      (index.elements nodes (nodes.size + 1) p i).bind fun es =>
        (es.mapM fun x => index.treeFrom nodes g tokens fuel x.1 x.2).map
          (.rule (g.rule A).name A alt) := by
  rw [ruleTree, hpk]

theorem treeFrom_symbol {id : NodeId} {A : RuleId} (hk : (Arena.node nodes id).kind = .symbol A)
    (fuel i : Nat) : index.treeFrom nodes g tokens (fuel + 1) id i =
      (index.choose nodes id i).bind fun x => index.ruleTree nodes g tokens fuel A x.1 x.2 := by
  rw [treeFrom, hk]
  refine Option.bind_congr ?_
  rintro ⟨p, j⟩ -
  dsimp only
  rw [ruleTree]
  cases (Arena.node nodes p).kind with
  | packed B alt => exact Option.bind_congr fun es _ => Option.map_eq_bind.symm
  | _ => rfl

theorem map_fst_digits (i : Nat) (cs : List NodeId) : (index.digits i cs).map Prod.fst = cs := by
  induction cs generalizing i with
  | nil => rfl
  | cons c cs ih => simp only [digits, List.map_cons, ih]

/-- The trees of a numbered right-hand side are some that the children stand for, provided that this
is so of single nodes. -/
theorem elements_readsAll {read : NodeId × Nat → Option Tree}
    (hread : ∀ x t, read x = some t → nodes.Reads g tokens x.1 t) (fuel : Nat) {p : NodeId} {i : Nat}
    {xs : List (NodeId × Nat)} {ts : List Tree} (hx : index.elements nodes fuel p i = some xs)
    (ht : xs.mapM read = some ts) : nodes.ReadsAll g tokens (Arena.childrenOf nodes p) ts := by
  induction fuel generalizing p i xs ts with
  | zero => cases hx
  | succ fuel ih =>
    rw [elements_succ, Option.map_eq_some_iff] at hx
    obtain ⟨parts, hparts, rfl⟩ := hx
    have hcs := @map_fst_digits index i (Arena.childrenOf nodes p)
    generalize Arena.childrenOf nodes p = cs at hcs hparts
    generalize index.digits i cs = ds at hcs hparts
    subst hcs
    induction ds generalizing parts ts with
    | nil =>
      obtain rfl : parts = [] := by simpa using hparts.symm
      obtain rfl : ts = [] := by simpa using ht.symm
      exact .nil
    | cons d ds ihds =>
      rw [List.mapM_cons] at hparts
      obtain ⟨x, hd, hparts⟩ := Option.bind_eq_some_iff.1 hparts
      obtain ⟨rest, hrest, he⟩ := Option.bind_eq_some_iff.1 hparts
      obtain rfl := Option.some.inj he
      rw [List.flatten_cons, List.mapM_append] at ht
      obtain ⟨us, hus, ht⟩ := Option.bind_eq_some_iff.1 ht
      obtain ⟨vs, hvs, he⟩ := Option.bind_eq_some_iff.1 ht
      obtain rfl := Option.some.inj he
      have htail := ihds rest hvs hrest
      obtain ⟨c, j⟩ := d
      rw [List.map_cons]
      unfold part at hd
      cases hk : (Arena.node nodes c).kind with
      | intermediate A alt dot =>
        simp only [hk] at hd
        obtain ⟨⟨q, k⟩, hq, hx⟩ := Option.bind_eq_some_iff.1 hd
        exact .intermediate hk (mem_of_choose hq) (ih hx hus) htail
      | nulled A alt dot =>
        simp only [hk] at hd
        exact .nulled hk (ih hd hus) htail
      | epsilon =>
        simp only [hk] at hd
        obtain rfl := Option.some.inj hd
        obtain rfl : us = [] := by simpa using hus.symm
        exact .epsilon hk htail
      | symbol _ | packed _ _ | terminal _ =>
        simp only [hk] at hd
        obtain rfl := Option.some.inj hd
        obtain ⟨t, hread', rfl⟩ : ∃ t, read (c, j) = some t ∧ us = [t] := by
          rw [List.mapM_cons] at hus
          obtain ⟨t, hread', hus⟩ := Option.bind_eq_some_iff.1 hus
          exact ⟨t, hread', by simpa using hus.symm⟩
        exact .tree (hread _ t hread') htail

/-- A tree that is read by number is one that its node stands for. -/
theorem treeFrom_reads (fuel : Nat) {id : NodeId} {i : Nat} {t : Tree}
    (h : index.treeFrom nodes g tokens fuel id i = some t) : nodes.Reads g tokens id t := by
  induction fuel generalizing id i t with
  | zero => cases h
  | succ fuel ih =>
    cases hk : (Arena.node nodes id).kind with
    | terminal k =>
      simp only [treeFrom, hk, Option.map_eq_some_iff] at h
      obtain ⟨tok, htok, rfl⟩ := h
      exact .token hk htok
    | symbol A =>
      rw [treeFrom_symbol hk] at h
      obtain ⟨⟨p, j⟩, hp, h⟩ := Option.bind_eq_some_iff.1 h
      cases hpk : (Arena.node nodes p).kind with
      | packed A' alt =>
        rw [ruleTree_eq hpk] at h
        obtain ⟨xs, hxs, h⟩ := Option.bind_eq_some_iff.1 h
        obtain ⟨children, hchildren, rfl⟩ := Option.map_eq_some_iff.1 h
        exact .rule hk (mem_of_choose hp) hpk
          (elements_readsAll (fun x t hx => ih hx) _ hxs hchildren)
      | _ => simp [ruleTree, hpk] at h
    | _ => simp [treeFrom, hk] at h

end TreeIndex

end ParseForest
