import ParseForest.Proofs.Forest.Rooted
import Mathlib.Data.Finset.Lattice.Fold

/-!
# Trees by number, whatever the tokens

A forest is read with numbers for tokens first, and the tokens are put in afterwards, if they are all there
(`TreeIndex.treeFrom_eq_retoken`). So the trees of a rooted forest are counted and numbered by what its root
stands for, also where it names tokens that there are not (`Forest.trees_congr`).
-/

namespace ParseForest

open Arena

/-! ## Putting tokens in -/

/-- A stream of tokens that stand for their numbers. -/
def TokenStream.numbered (n : Nat) : TokenStream :=
  ⟨(Array.range n).map fun i => ⟨"", "", ⟨0, 0, i, 0⟩⟩, none⟩

theorem TokenStream.length_numbered (n : Nat) : (numbered n).length = n := by simp [length, numbered]

theorem TokenStream.get?_numbered {n i : Nat} (h : i < n) :
    (numbered n).get? i = some ⟨"", "", ⟨0, 0, i, 0⟩⟩ := by simp [get?, numbered, h]

namespace Tree

mutual

/-- The tree with tokens for their numbers. -/
def retoken (tokens : TokenStream) : Tree → Option Tree
  | .token t => (tokens.get? t.position.absolute).map .token
  | .rule name id alt children => (retokenAll tokens children).map (.rule name id alt)

/-- The trees with tokens for their numbers. -/
def retokenAll (tokens : TokenStream) : List Tree → Option (List Tree)
  | [] => some []
  | t :: ts => (t.retoken tokens).bind fun t => (retokenAll tokens ts).map (t :: ·)

end

theorem retokenAll_eq_mapM (tokens : TokenStream) (ts : List Tree) :
    retokenAll tokens ts = ts.mapM (retoken tokens) := by
  induction ts with
  | nil => rfl
  | cons t ts ih =>
    rw [retokenAll, ih, List.mapM_cons]
    cases t.retoken tokens with
    | none => rfl
    | some t => cases ts.mapM (retoken tokens) <;> rfl

end Tree

/-- What is done to each element in two steps is done to all in two steps. -/
theorem mapM_bind {α β γ : Type} {f : α → Option γ} {f' : α → Option β} {φ : β → Option γ}
    (h : ∀ a, f a = (f' a).bind φ) (as : List α) : as.mapM f = (as.mapM f').bind (·.mapM φ) := by
  induction as with
  | nil => rfl
  | cons a as ih =>
    rw [List.mapM_cons, List.mapM_cons, h, ih]
    cases f' a with
    | none => rfl
    | some b =>
      cases as.mapM f' with
      | none => cases hb : φ b <;> simp [hb]
      | some bs => simp only [Option.bind_eq_bind, Option.bind_some, Option.pure_def, List.mapM_cons]

namespace TreeIndex

variable {nodes kept : Arena} {g : Grammar} {tokens : TokenStream} {index : TreeIndex}

/-- Trees are read with numbers for tokens, and tokens are put in. -/
theorem treeFrom_eq_retoken {n : Nat} (hn : ∀ id i, (node nodes id).kind = .terminal i → i < n) (fuel : Nat)
    (id i : Nat) : index.treeFrom nodes g tokens fuel id i =
      (index.treeFrom nodes g (.numbered n) fuel id i).bind (Tree.retoken tokens) := by
  induction fuel generalizing id i with
  | zero => rfl
  | succ fuel ih =>
    cases hk : (node nodes id).kind with
    | terminal k =>
      simp only [treeFrom, hk, TokenStream.get?_numbered (hn id k hk), Option.map_some, Option.bind_some,
        Tree.retoken]
    | symbol A =>
      rw [treeFrom_symbol hk, treeFrom_symbol hk, Option.bind_assoc]
      congr 1
      funext x
      cases hp : (node nodes x.1).kind with
      | packed B alt =>
        rw [ruleTree_eq hp, ruleTree_eq hp, Option.bind_assoc]
        congr 1
        funext es
        rw [mapM_bind (fun x => ih x.1 x.2) es, Option.map_bind, Option.bind_map]
        congr 1
        funext ts
        simp only [Function.comp_apply, Tree.retoken, Tree.retokenAll_eq_mapM]
      | symbol | intermediate | nulled | terminal | epsilon => simp [ruleTree, hp]
    | packed | intermediate | nulled | epsilon => simp only [treeFrom, hk, Option.bind_none]

/-- Counts that fit an arena fit one that agrees with it. -/
theorem Tallies.agrees {S S' : NodeId → Prop} (h : index.Tallies nodes nodes S') (ha : Agrees S nodes kept)
    (hl : kept.Layered) (hS : ∀ id, S id → S' id) : index.Tallies nodes kept S := by
  refine ⟨ha.toSameHeads, hl, fun id hid c hc => ?_, fun id hid => h.isCyclic id (hS id hid), fun id hid => ?_,
    fun id hid hc i => ?_, fun id hid _ => ha.children_eq id hid⟩
  · rw [ha.children_eq id hid] at hc
    exact ha.closed id hid c hc
  · have hchildren := ha.children_eq id hid
    rw [childrenOf, childrenOf] at hchildren
    rw [h.count id (hS id hid)]
    simp only [countOf, ha.kind_eq, hchildren]
  · rw [ha.children_eq id hid, TreeIndex.choose]

end TreeIndex

/-! ## Forests -/

namespace Forest

variable {f : Forest} {nodes' : Arena}

/-- The trees of a rooted forest are those that an arena with ranks lists, with numbers for tokens. -/
theorem exists_tallies (h : f.nodes.Rooted f.root) : ∃ kept rank, kept.Ranked rank ∧
    Agrees (f.nodes.Reachable f.root) f.nodes kept ∧
    f.treeIndex.Tallies f.nodes kept (f.nodes.Reachable f.root) := by
  obtain ⟨kept, rank, ha, hl, hr⟩ := h.exists_ranked
  obtain ⟨hs, hm⟩ := TreeIndex.surveyed_of_acyclic h.toLayered h.acyclic h.root_lt
  have htallies := hs.tallies h.toLayered h.acyclic
  have hreach : Agrees (f.nodes.Reachable f.root) f.nodes kept :=
    ⟨ha.toSameHeads, fun id hid c hc => hid.child hc, fun id hid => ha.children_eq id (.inl hid)⟩
  refine ⟨kept, rank, hr, hreach, htallies.agrees hreach hl fun id hid => ?_⟩
  exact hid.of_closed htallies.closed ⟨h.root_lt, hm⟩

theorem exists_terminal_lt (nodes : Arena) : ∃ n, ∀ id i, (Arena.node nodes id).kind = .terminal i → i < n := by
  refine ⟨(Finset.range nodes.size).sup (fun id =>
    match (Arena.node nodes id).kind with | .terminal i => i + 1 | _ => 0), fun id i hk => ?_⟩
  have hlt : id < nodes.size := lt_size_of_kind (by rw [hk]; simp)
  have hle := Finset.le_sup (f := fun id =>
    match (Arena.node nodes id).kind with | .terminal i => i + 1 | _ => 0) (Finset.mem_range.2 hlt)
  simp only [hk] at hle
  exact hle

/-- The forest after a pass. -/
def after (f : Forest) (pass : Pass) : Forest := { f with nodes := (pass.run f.grammar f.root f.nodes).1 }

/-- Rooted forests whose roots stand for the same have the same number of trees, and the same tree at each
number. -/
theorem trees_congr (h : f.nodes.Rooted f.root) (h' : nodes'.Rooted f.root)
    (hheads : SameHeads f.nodes nodes') (hread : ∀ tokens,
      nodes'.allReadings f.grammar tokens f.root = f.nodes.allReadings f.grammar tokens f.root) :
    ({ f with nodes := nodes' } : Forest).treeCount = f.treeCount ∧
      ∀ i, ({ f with nodes := nodes' } : Forest).treeAt? i = f.treeAt? i := by
  obtain ⟨n, hn⟩ := exists_terminal_lt f.nodes
  set f' : Forest := { f with nodes := nodes' } with hf'
  obtain ⟨kept, rank, hr, ha, ht⟩ := exists_tallies h
  obtain ⟨kept', rank', hr', ha', ht'⟩ := exists_tallies (f := f') h'
  have hkept : ∀ tokens, kept.allReadings f.grammar tokens f.root =
      f.nodes.allReadings f.grammar tokens f.root := fun _ => ha.allReadings_eq .refl
  have hkept' : ∀ tokens, kept'.allReadings f.grammar tokens f.root =
      nodes'.allReadings f.grammar tokens f.root := fun _ => ha'.allReadings_eq .refl
  have hn' : ∀ id i, (Arena.node nodes' id).kind = .terminal i → i < n := fun id i hk =>
    hn id i (by rwa [← hheads.kind_eq])
  have hleaf : ∀ id i, (Arena.node kept id).kind = .terminal i → i < (TokenStream.numbered n).length :=
    fun id i hk => by rw [TokenStream.length_numbered]; exact hn id i (by rwa [← ht.kind_eq])
  have hleaf' : ∀ id i, (Arena.node kept' id).kind = .terminal i → i < (TokenStream.numbered n).length :=
    fun id i hk => by rw [TokenStream.length_numbered]; exact hn' id i (by rwa [← ht'.kind_eq])
  have hcount : f'.treeCount = f.treeCount := by
    rw [treeCount, treeCount, ht.count_eq hr hleaf .refl, ht'.count_eq (g := f.grammar) hr' hleaf' .refl,
      hkept, hkept', hread]
  refine ⟨hcount, fun i => ?_⟩
  have hlt : i < f'.treeCount ↔ i < f.treeCount := by rw [hcount]
  rcases Nat.lt_or_ge i f.treeCount with hi | hi
  · -- with numbers for tokens both are what stands at the place in the list
    have hnumbered : f'.treeIndex.treeFrom nodes' f.grammar (.numbered n) (nodes'.size + 1) f.root i =
        f.treeIndex.treeFrom f.nodes f.grammar (.numbered n) (f.nodes.size + 1) f.root i := by
      by_cases hk : (∃ i, (Arena.node f.nodes f.root).kind = .terminal i) ∨
          ∃ A, (Arena.node f.nodes f.root).kind = .symbol A
      · have hfuel : rank f.root < f.nodes.size + 1 := Nat.lt_succ_of_le (ht.size_eq ▸ hr.le_size _)
        have hfuel' : rank' f.root < nodes'.size + 1 := Nat.lt_succ_of_le (ht'.size_eq ▸ hr'.le_size _)
        have hget := (ht.treeFrom_spec (g := f.grammar) hr hleaf hfuel .refl hk).2 i hi
        have hget' := (ht'.treeFrom_spec (g := f.grammar) hr' hleaf' hfuel' .refl
          (by rwa [hheads.kind_eq])).2 i (hlt.2 hi)
        have hlist : kept'.allReadings f.grammar (.numbered n) f.root =
            kept.allReadings f.grammar (.numbered n) f.root := by rw [hkept, ← hread, ← hkept']
        refine Option.map_injective (f := fun t : Tree => [t]) (fun _ _ heq => (List.cons.inj heq).1) ?_
        exact hget'.trans ((congrArg (·[i]?) hlist).trans hget.symm)
      · have hnone : ∀ (index : TreeIndex) (nodes : Arena), (Arena.node nodes f.root).kind =
            (Arena.node f.nodes f.root).kind → index.treeFrom nodes f.grammar (.numbered n)
              (nodes.size + 1) f.root i = none := by
          intro index nodes hkind
          simp only [TreeIndex.treeFrom, hkind]
          split
          · exact absurd (.inl ⟨_, ‹_›⟩) hk
          · exact absurd (.inr ⟨_, ‹_›⟩) hk
          · rfl
        rw [hnone _ _ rfl, hnone _ _ (hheads.kind_eq _)]
    rw [treeAt?_of_lt hi, treeAt?_of_lt (hlt.2 hi), treeUnder, treeUnder,
      TreeIndex.treeFrom_eq_retoken hn, TreeIndex.treeFrom_eq_retoken hn', hnumbered]
  · rw [treeAt?_of_le hi, treeAt?_of_le (Nat.not_lt.1 (hlt.not.2 (Nat.not_lt.2 hi)))]

end Forest

end ParseForest
