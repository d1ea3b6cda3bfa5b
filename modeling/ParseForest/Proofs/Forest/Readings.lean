import ParseForest.Proofs.Forest.Reads
import Mathlib.Algebra.BigOperators.Group.List.Basic

/-!
# All trees of a node, in order

`Arena.readings` lists what a node stands for in the order in which trees are numbered, as deep as
the fuel goes: the trees of the alternatives of a choice one after the other, and for a packed node
every combination of what its children stand for, the first child varying fastest. With some fuel
every tree is there (`exists_mem_readings_iff`). In an arena without cycles there is a rank that says
how much fuel is enough (`Arena.Ranked`), and more does not change the list (`readings_of_rank_lt`).
-/

namespace ParseForest

namespace Arena

/-- Every choice of one part from each list, joined; the first part varies fastest. -/
def combine : List (List (List Tree)) → List (List Tree)
  | [] => [[]]
  | parts :: rest => (combine rest).flatMap fun back => parts.map (· ++ back)

theorem mem_combine_cons_iff {parts : List (List Tree)} {rest : List (List (List Tree))}
    {ts : List Tree} : ts ∈ combine (parts :: rest) ↔
      ∃ front ∈ parts, ∃ back ∈ combine rest, ts = front ++ back := by
  simp only [combine, List.mem_flatMap, List.mem_map]
  constructor
  · rintro ⟨back, hback, front, hfront, rfl⟩
    exact ⟨front, hfront, back, hback, rfl⟩
  · rintro ⟨front, hfront, back, hback, rfl⟩
    exact ⟨back, hback, front, hfront, rfl⟩

theorem combine_append (xs ys : List (List (List Tree))) :
    combine (xs ++ ys) = (combine ys).flatMap fun back => (combine xs).map (· ++ back) := by
  induction xs with
  | nil => simp [combine]
  | cons x xs ih =>
    simp only [List.cons_append, combine, ih, List.flatMap_assoc, List.map_flatMap,
      List.flatMap_map, List.map_map, Function.comp_def, List.append_assoc]

theorem combine_singleton (parts : List (List Tree)) : combine [parts] = parts := by
  simp [combine]

theorem length_combine (xs : List (List (List Tree))) :
    (combine xs).length = (xs.map List.length).prod := by
  induction xs with
  | nil => rfl
  | cons x xs ih =>
    rw [combine, List.length_flatMap]
    simp only [List.length_map, List.map_const', List.sum_replicate, List.map_cons, List.prod_cons,
      ih]
    exact Nat.mul_comm _ _

section

variable (nodes : Arena) (g : Grammar) (tokens : TokenStream)

/-- What a node stands for, one list of trees per derivation: a single tree for a symbol node or a
leaf, the trees of the symbols for a part of a right-hand side. -/
def readings : Nat → NodeId → List (List Tree)
  | 0, _ => []
  | fuel + 1, id =>
    match (node nodes id).kind with
    | .symbol A => (childrenOf nodes id).flatMap fun p =>
      match (node nodes p).kind with
      | .packed _ alt => (readings fuel p).map fun ts => [.rule (g.rule A).name A alt ts]
      | _ => []
    | .intermediate _ _ _ => (childrenOf nodes id).flatMap (readings fuel)
    | .packed _ _ => combine ((childrenOf nodes id).map (readings fuel))
    | .nulled _ _ _ => combine ((childrenOf nodes id).map (readings fuel))
    | .terminal i => (tokens.get? i).toList.map fun tok => [.token tok]
    | .epsilon => [[]]

/-- Children are there, and choices and packed nodes alternate: the children of choices are packed, and
those of other nodes are not. -/
structure Layered : Prop where
  closed : ∀ id, ∀ c ∈ childrenOf nodes id, c < nodes.size
  isPacked : ∀ id, (node nodes id).isChoice = true → ∀ p ∈ childrenOf nodes id,
    (node nodes p).isPacked = true
  owner : ∀ id, ∀ p ∈ childrenOf nodes id, (node nodes p).isPacked = true →
    (node nodes id).isChoice = true

end

variable {nodes nodes' : Arena} {g : Grammar} {tokens : TokenStream}

section

variable (hl : nodes.Layered) (id : NodeId)
include hl

theorem Layered.not_isPacked {p c : NodeId} (hp : (node nodes p).isPacked = true)
    (hc : c ∈ childrenOf nodes p) : (node nodes c).isPacked = false := by
  by_contra hpacked
  rw [Node.not_isPacked_of_isChoice (hl.owner p c hc (by simpa using hpacked))] at hp
  cases hp

theorem Layered.inner (hc : (node nodes id).isChoice = true) (p : NodeId) (hp : p ∈ childrenOf nodes id)
    (c : NodeId) (hcp : c ∈ childrenOf nodes p) : (node nodes c).isPacked = false :=
  hl.not_isPacked (hl.isPacked id hc p hp) hcp

theorem Layered.nulled (A : RuleId) (alt dot : Nat) (hk : (node nodes id).kind = .nulled A alt dot)
    (c : NodeId) (hc : c ∈ childrenOf nodes id) : (node nodes c).isPacked = false := by
  by_contra hpacked
  have hchoice := hl.owner id c hc (by simpa using hpacked)
  rw [Node.isChoice, hk] at hchoice
  cases hchoice

end

theorem readings_packed {p : NodeId} (hp : (node nodes p).isPacked = true) (fuel : Nat) :
    nodes.readings g tokens (fuel + 1) p =
      combine ((childrenOf nodes p).map (nodes.readings g tokens fuel)) := by
  obtain ⟨A, alt, hk⟩ := Node.isPacked_iff.1 hp
  rw [readings, hk]

theorem mem_readings_symbol_iff (hl : nodes.Layered) {id : NodeId} {A : RuleId}
    (hk : (node nodes id).kind = .symbol A) {fuel : Nat} {ts : List Tree} :
    ts ∈ nodes.readings g tokens (fuel + 1) id ↔
      ∃ p ∈ childrenOf nodes id, ∃ B alt us, (node nodes p).kind = .packed B alt ∧
        us ∈ nodes.readings g tokens fuel p ∧ ts = [.rule (g.rule A).name A alt us] := by
  simp only [readings, hk, List.mem_flatMap]
  refine exists_congr fun p => and_congr_right fun hp => ?_
  obtain ⟨B, alt, hpk⟩ := Node.isPacked_iff.1 (hl.isPacked id (by rw [Node.isChoice, hk]) p hp)
  simp only [hpk, List.mem_map, NodeKind.packed.injEq]
  constructor
  · rintro ⟨us, hus, rfl⟩
    exact ⟨B, alt, us, ⟨rfl, rfl⟩, hus, rfl⟩
  · rintro ⟨-, -, us, ⟨rfl, rfl⟩, hus, rfl⟩
    exact ⟨us, hus, rfl⟩

/-! ## What is listed is what is read -/

/-- What the nodes stand for together, read from the lists of each. -/
theorem readsAll_of_mem_combine {fuel : Nat} {cs : List NodeId} (h : ∀ c ∈ cs, ∀ ts,
    ts ∈ nodes.readings g tokens fuel c → nodes.ReadsAll g tokens [c] ts) {ts : List Tree}
    (hts : ts ∈ combine (cs.map (nodes.readings g tokens fuel))) :
    nodes.ReadsAll g tokens cs ts := by
  induction cs generalizing ts with
  | nil =>
    obtain rfl := List.mem_singleton.1 hts
    exact .nil
  | cons c cs ih =>
    obtain ⟨front, hfront, back, hback, rfl⟩ := mem_combine_cons_iff.1 hts
    exact (h c (.head _) front hfront).append (ih (fun c' hc' => h c' (.tail _ hc')) hback)

theorem reads_of_mem_readings (hl : nodes.Layered) (fuel : Nat) :
    (∀ id, (node nodes id).isPacked = false → ∀ ts, ts ∈ nodes.readings g tokens fuel id →
      nodes.ReadsAll g tokens [id] ts) ∧
    ∀ id, (node nodes id).isChoice = true → ∀ p ∈ childrenOf nodes id, ∀ ts,
      ts ∈ nodes.readings g tokens fuel p → nodes.ReadsAll g tokens (childrenOf nodes p) ts := by
  induction fuel with
  | zero => exact ⟨fun _ _ ts hts => (by cases hts), fun _ _ _ _ ts hts => (by cases hts)⟩
  | succ fuel ih =>
    constructor
    · intro id hid ts hts
      cases hk : (node nodes id).kind with
      | symbol A =>
        obtain ⟨p, hp, B, alt, us, hpk, hus, rfl⟩ := (mem_readings_symbol_iff hl hk).1 hts
        exact .tree (.rule hk hp hpk (ih.2 id (by rw [Node.isChoice, hk]) p hp us hus)) .nil
      | intermediate A alt dot =>
        simp only [readings, hk, List.mem_flatMap] at hts
        obtain ⟨p, hp, hts⟩ := hts
        have := ReadsAll.intermediate hk hp (ih.2 id (by rw [Node.isChoice, hk]) p hp ts hts) .nil
        rwa [List.append_nil] at this
      | packed A alt =>
        rw [Node.isPacked, hk] at hid
        cases hid
      | nulled A alt dot =>
        simp only [readings, hk] at hts
        have hall := readsAll_of_mem_combine (fun c hc =>
          ih.1 c (hl.nulled id A alt dot hk c hc)) hts
        have := ReadsAll.nulled hk hall .nil
        rwa [List.append_nil] at this
      | terminal i =>
        simp only [readings, hk, List.mem_map, Option.mem_toList] at hts
        obtain ⟨tok, htok, rfl⟩ := hts
        exact .tree (.token hk htok) .nil
      | epsilon =>
        simp only [readings, hk, List.mem_singleton] at hts
        subst hts
        exact .epsilon hk .nil
    · intro id hc p hp ts hts
      rw [readings_packed (hl.isPacked id hc p hp)] at hts
      exact readsAll_of_mem_combine (fun c hcp => ih.1 c (hl.inner id hc p hp c hcp)) hts

/-- More fuel only adds to the list. -/
theorem mem_readings_mono {fuel fuel' : Nat} (h : fuel ≤ fuel') {id : NodeId} {ts : List Tree}
    (hts : ts ∈ nodes.readings g tokens fuel id) : ts ∈ nodes.readings g tokens fuel' id := by
  induction fuel generalizing fuel' id ts with
  | zero => cases hts
  | succ fuel ih =>
    obtain ⟨fuel', rfl⟩ : ∃ n, fuel' = n + 1 := ⟨fuel' - 1, by omega⟩
    have hle := Nat.le_of_succ_le_succ h
    have hcombine : ∀ {cs : List NodeId} {us}, us ∈ combine (cs.map (nodes.readings g tokens fuel)) →
        us ∈ combine (cs.map (nodes.readings g tokens fuel')) := by
      intro cs
      induction cs with
      | nil => exact fun h => h
      | cons c cs ihcs =>
        intro us hus
        obtain ⟨front, hfront, back, hback, rfl⟩ := mem_combine_cons_iff.1 hus
        exact mem_combine_cons_iff.2 ⟨front, ih hle hfront, back, ihcs hback, rfl⟩
    cases hk : (node nodes id).kind with
    | symbol A =>
      simp only [readings, hk, List.mem_flatMap] at hts ⊢
      obtain ⟨p, hp, hts⟩ := hts
      refine ⟨p, hp, ?_⟩
      cases hpk : (node nodes p).kind with
      | packed B alt =>
        simp only [hpk, List.mem_map] at hts ⊢
        obtain ⟨us, hus, rfl⟩ := hts
        exact ⟨us, ih hle hus, rfl⟩
      | _ => simp [hpk] at hts
    | intermediate A alt dot =>
      simp only [readings, hk, List.mem_flatMap] at hts ⊢
      obtain ⟨p, hp, hts⟩ := hts
      exact ⟨p, hp, ih hle hts⟩
    | packed A alt =>
      simp only [readings, hk] at hts ⊢
      exact hcombine hts
    | nulled A alt dot =>
      simp only [readings, hk] at hts ⊢
      exact hcombine hts
    | terminal i =>
      simp only [readings, hk] at hts ⊢
      exact hts
    | epsilon =>
      simp only [readings, hk] at hts ⊢
      exact hts

/-- With some fuel a tree is in the list of its node. -/
theorem exists_mem_readings (hl : nodes.Layered) :
    (∀ id t, nodes.Reads g tokens id t → ∃ fuel, [t] ∈ nodes.readings g tokens fuel id) ∧
    ∀ cs ts, nodes.ReadsAll g tokens cs ts →
      ∃ fuel, ts ∈ combine (cs.map (nodes.readings g tokens fuel)) := by
  have hjoin : ∀ {c : NodeId} {cs : List NodeId} {us ts : List Tree} {fuel fuel' : Nat},
      us ∈ nodes.readings g tokens fuel c → ts ∈ combine (cs.map (nodes.readings g tokens fuel')) →
      ∃ fuel, us ++ ts ∈ combine ((c :: cs).map (nodes.readings g tokens fuel)) := by
    intro c cs us ts fuel fuel' hus hts
    have hmono : ∀ {cs : List NodeId} {ts}, ts ∈ combine (cs.map (nodes.readings g tokens fuel')) →
        ts ∈ combine (cs.map (nodes.readings g tokens (max fuel fuel'))) := by
      intro cs
      induction cs with
      | nil => exact fun h => h
      | cons c cs ih =>
        intro ts hts
        obtain ⟨front, hfront, back, hback, rfl⟩ := mem_combine_cons_iff.1 hts
        exact mem_combine_cons_iff.2
          ⟨front, mem_readings_mono (Nat.le_max_right _ _) hfront, back, ih hback, rfl⟩
    exact ⟨max fuel fuel', mem_combine_cons_iff.2
      ⟨us, mem_readings_mono (Nat.le_max_left _ _) hus, ts, hmono hts, rfl⟩⟩
  refine reads_induction (fun id i tok hk ht => ⟨1, ?_⟩)
    (fun id p A A' alt children hk hp hpk ⟨fuel, ih⟩ => ⟨fuel + 2, ?_⟩) ⟨0, .head _⟩
    (fun c cs ts hk ⟨fuel, ih⟩ => ?_) (fun c cs us ts A alt dot hk ⟨fuel, ih⟩ _ ⟨fuel', ih'⟩ => ?_)
    (fun c p cs us ts A alt dot hk hp ⟨fuel, ih⟩ _ ⟨fuel', ih'⟩ => ?_)
    fun c cs t ts _ ⟨fuel, ih⟩ ⟨fuel', ih'⟩ => ?_
  · simp [readings, hk, ht]
  · refine (mem_readings_symbol_iff hl hk).2 ⟨p, hp, A', alt, children, hpk, ?_, rfl⟩
    rw [readings_packed (by rw [Node.isPacked, hpk])]
    exact ih
  · have hempty : [] ∈ nodes.readings g tokens 1 c := by simp [readings, hk]
    exact hjoin hempty ih
  · have hnulled : us ∈ nodes.readings g tokens (fuel + 1) c := by
      simp only [readings, hk]
      exact ih
    exact hjoin hnulled ih'
  · have hpacked := hl.isPacked c (by rw [Node.isChoice, hk]) p hp
    have hinter : us ∈ nodes.readings g tokens (fuel + 2) c := by
      simp only [readings, hk, List.mem_flatMap]
      refine ⟨p, hp, ?_⟩
      have := @readings_packed nodes g tokens p hpacked fuel
      rw [readings] at this
      rw [this]
      exact ih
    exact hjoin hinter ih'
  · exact hjoin ih ih'

/-- A node stands for a tree exactly if the tree is in its list with some fuel. -/
theorem exists_mem_readings_iff (hl : nodes.Layered) {id : NodeId} {t : Tree}
    (hk : (∃ i, (node nodes id).kind = .terminal i) ∨ ∃ A, (node nodes id).kind = .symbol A) :
    (∃ fuel, [t] ∈ nodes.readings g tokens fuel id) ↔ nodes.Reads g tokens id t := by
  refine ⟨fun ⟨fuel, h⟩ => ?_, (exists_mem_readings hl).1 id t⟩
  have hid : (node nodes id).isPacked = false := by
    rcases hk with ⟨i, hk⟩ | ⟨A, hk⟩ <;> rw [Node.isPacked, hk]
  obtain ⟨t', ts, hts, hread, -⟩ := ((reads_of_mem_readings hl fuel).1 id hid [t] h).exists_first hk
  obtain ⟨rfl, -⟩ := List.cons.inj hts
  exact hread

/-! ## Arenas without cycles -/

/-- Children are of lower rank, no rank is above the number of nodes, and the empty string has none. -/
structure Ranked (nodes : Arena) (rank : NodeId → Nat) : Prop where
  lt : ∀ id, ∀ c ∈ childrenOf nodes id, rank c < rank id
  le_size : ∀ id, rank id ≤ nodes.size
  epsilon : rank epsilonId = 0

/-- Fuel above the rank of a node is enough. -/
theorem readings_of_rank_lt {rank : NodeId → Nat} (hr : nodes.Ranked rank) {fuel fuel' : Nat}
    {id : NodeId} (h : rank id < fuel) (h' : rank id < fuel') :
    nodes.readings g tokens fuel id = nodes.readings g tokens fuel' id := by
  induction fuel generalizing fuel' id with
  | zero => omega
  | succ fuel ih =>
    obtain ⟨fuel', rfl⟩ : ∃ n, fuel' = n + 1 := ⟨fuel' - 1, by omega⟩
    have hchild : ∀ c ∈ childrenOf nodes id,
        nodes.readings g tokens fuel c = nodes.readings g tokens fuel' c := fun c hc => by
      have := hr.lt id c hc
      exact ih (by omega) (by omega)
    have hmap : (childrenOf nodes id).map (nodes.readings g tokens fuel) =
        (childrenOf nodes id).map (nodes.readings g tokens fuel') := List.map_congr_left hchild
    simp only [readings]
    cases (node nodes id).kind with
    | symbol A =>
      simp only [List.flatMap_def]
      refine congrArg List.flatten (List.map_congr_left fun p hp => ?_)
      rw [hchild p hp]
    | intermediate A alt dot =>
      simp only [List.flatMap_def]
      rw [hmap]
    | packed A alt => simp only [hmap]
    | nulled A alt dot => simp only [hmap]
    | terminal i => rfl
    | epsilon => rfl

/-- What a node stands for in an arena without cycles: the list with enough fuel for every node. -/
def allReadings (nodes : Arena) (g : Grammar) (tokens : TokenStream) (id : NodeId) :
    List (List Tree) := nodes.readings g tokens (nodes.size + 1) id

section

variable {rank : NodeId → Nat} (hr : nodes.Ranked rank)
include hr

theorem readings_eq_allReadings {fuel : Nat} {id : NodeId} (h : rank id < fuel) :
    nodes.readings g tokens fuel id = nodes.allReadings g tokens id :=
  readings_of_rank_lt hr h (Nat.lt_succ_of_le (hr.le_size id))

theorem map_allReadings_eq (id : NodeId) :
    (childrenOf nodes id).map (nodes.readings g tokens nodes.size) =
      (childrenOf nodes id).map (nodes.allReadings g tokens) :=
  List.map_congr_left fun c hc => readings_eq_allReadings hr
    (Nat.lt_of_lt_of_le (hr.lt id c hc) (hr.le_size id))

theorem allReadings_symbol {id : NodeId} {A : RuleId} (hk : (node nodes id).kind = .symbol A) :
    nodes.allReadings g tokens id = (childrenOf nodes id).flatMap fun p =>
      match (node nodes p).kind with
      | .packed _ alt => (nodes.allReadings g tokens p).map fun ts =>
          [.rule (g.rule A).name A alt ts]
      | _ => [] := by
  simp only [allReadings, readings, hk, List.flatMap_def]
  refine congrArg List.flatten (List.map_congr_left fun p hp => ?_)
  have := @readings_eq_allReadings nodes g tokens rank hr nodes.size p
    (Nat.lt_of_lt_of_le (hr.lt id p hp) (hr.le_size id))
  rw [this]
  rfl

theorem allReadings_intermediate {id : NodeId} {A : RuleId} {alt dot : Nat}
    (hk : (node nodes id).kind = .intermediate A alt dot) :
    nodes.allReadings g tokens id = (childrenOf nodes id).flatMap (nodes.allReadings g tokens) := by
  rw [allReadings, readings, hk, List.flatMap_def, List.flatMap_def]
  exact congrArg List.flatten (map_allReadings_eq hr id)

theorem allReadings_packed {id : NodeId} (hp : (node nodes id).isPacked = true) :
    nodes.allReadings g tokens id =
      combine ((childrenOf nodes id).map (nodes.allReadings g tokens)) := by
  rw [allReadings, readings_packed hp, map_allReadings_eq hr]

theorem allReadings_nulled {id : NodeId} {A : RuleId} {alt dot : Nat}
    (hk : (node nodes id).kind = .nulled A alt dot) : nodes.allReadings g tokens id =
      combine ((childrenOf nodes id).map (nodes.allReadings g tokens)) := by
  rw [allReadings, readings, hk, ← map_allReadings_eq hr]

omit hr in
theorem allReadings_terminal {id i : Nat} (hk : (node nodes id).kind = .terminal i) :
    nodes.allReadings g tokens id = (tokens.get? i).toList.map fun tok => [.token tok] := by
  rw [allReadings, readings, hk]

omit hr in
theorem allReadings_epsilon {id : NodeId} (hk : (node nodes id).kind = .epsilon) :
    nodes.allReadings g tokens id = [[]] := by
  rw [allReadings, readings, hk]

/-- What is listed with some fuel is listed. -/
theorem mem_allReadings_of_mem {fuel : Nat} {id : NodeId} {ts : List Tree}
    (h : ts ∈ nodes.readings g tokens fuel id) : ts ∈ nodes.allReadings g tokens id := by
  have hmono := mem_readings_mono (Nat.le_max_left fuel (nodes.size + 1)) h
  rwa [readings_eq_allReadings hr (Nat.lt_of_lt_of_le (Nat.lt_succ_of_le (hr.le_size id))
    (Nat.le_max_right _ _))] at hmono

/-- The list of a symbol node begins with the trees that take the first part for the second child of the
first alternative. -/
theorem prefix_allReadings {id p x y : NodeId} {A B : RuleId} {alt : Nat} {ps : List NodeId}
    {back : List Tree} {backs : List (List Tree)} (hk : (node nodes id).kind = .symbol A)
    (hp : childrenOf nodes id = p :: ps) (hpk : (node nodes p).kind = .packed B alt)
    (hc : childrenOf nodes p = [x, y]) (hy : nodes.allReadings g tokens y = back :: backs) :
    (nodes.allReadings g tokens x).map (fun front => [Tree.rule (g.rule A).name A alt (front ++ back)]) <+:
      nodes.allReadings g tokens id := by
  rw [allReadings_symbol hr hk, hp, List.flatMap_cons, hpk]
  dsimp only
  rw [allReadings_packed hr (show (node nodes p).isPacked = true by rw [Node.isPacked, hpk]), hc, List.map_cons,
    List.map_singleton, hy, combine, combine_singleton, List.flatMap_cons, List.map_append,
    List.map_map, List.append_assoc]
  exact List.prefix_append _ _

/-- A node stands for a tree exactly if the tree is in its list. -/
theorem mem_allReadings_iff (hl : nodes.Layered) {id : NodeId} {t : Tree}
    (hk : (∃ i, (node nodes id).kind = .terminal i) ∨ ∃ A, (node nodes id).kind = .symbol A) :
    [t] ∈ nodes.allReadings g tokens id ↔ nodes.Reads g tokens id t := by
  rw [← exists_mem_readings_iff hl hk]
  exact ⟨fun h => ⟨_, h⟩, fun ⟨_, h⟩ => mem_allReadings_of_mem hr h⟩

/-- Where only children of packed nodes have changed, and those stand for the same together, every
list is the same. -/
theorem allReadings_congr {rank' : NodeId → Nat} (hr' : nodes'.Ranked rank')
    (hheads : SameHeads nodes nodes') (h : ∀ id, childrenOf nodes' id = childrenOf nodes id ∨
      ((node nodes id).isPacked = true ∧
        combine ((childrenOf nodes' id).map (nodes.allReadings g tokens)) =
          combine ((childrenOf nodes id).map (nodes.allReadings g tokens)))) (id : NodeId) :
    nodes'.allReadings g tokens id = nodes.allReadings g tokens id := by
  induction hn : rank' id using Nat.strongRecOn generalizing id with
  | ind n ih =>
    subst hn
    have hchild : ∀ c ∈ childrenOf nodes' id,
        nodes'.allReadings g tokens c = nodes.allReadings g tokens c := fun c hc =>
      ih _ (hr'.lt id c hc) c rfl
    have hmap := List.map_congr_left hchild
    have hsame : ¬ (node nodes id).isPacked = true → childrenOf nodes' id = childrenOf nodes id :=
      fun hp => (h id).resolve_right fun hor => hp hor.1
    cases hk : (node nodes id).kind with
    | symbol A =>
      have hch := hsame (by rw [Node.isPacked, hk]; exact Bool.false_ne_true)
      rw [allReadings_symbol hr' ((hheads.kind_eq id).trans hk), allReadings_symbol hr hk,
        List.flatMap_def, List.flatMap_def, ← hch]
      refine congrArg List.flatten (List.map_congr_left fun p hp => ?_)
      rw [hheads.kind_eq, hchild p hp]
    | intermediate A alt dot =>
      have hch := hsame (by rw [Node.isPacked, hk]; exact Bool.false_ne_true)
      rw [allReadings_intermediate hr' ((hheads.kind_eq id).trans hk), allReadings_intermediate hr hk,
        List.flatMap_def, List.flatMap_def, hmap, hch]
    | packed A alt =>
      have hpacked : (node nodes id).isPacked = true := by rw [Node.isPacked, hk]
      have hpacked' : (node nodes' id).isPacked = true := by
        rwa [Node.isPacked, hheads.kind_eq]
      rw [allReadings_packed hr' hpacked', allReadings_packed hr hpacked, hmap]
      rcases h id with he | ⟨-, he⟩
      · rw [he]
      · exact he
    | nulled A alt dot =>
      have hch := hsame (by rw [Node.isPacked, hk]; exact Bool.false_ne_true)
      rw [allReadings_nulled hr' ((hheads.kind_eq id).trans hk), allReadings_nulled hr hk, hmap, hch]
    | terminal i =>
      rw [allReadings_terminal ((hheads.kind_eq id).trans hk), allReadings_terminal hk]
    | epsilon =>
      rw [allReadings_epsilon ((hheads.kind_eq id).trans hk), allReadings_epsilon hk]

end

end Arena

end ParseForest
