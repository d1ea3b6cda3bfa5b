import ParseForest.Proofs.Notation.Lexing
import ParseForest.Proofs.Notation.Sharing
import ParseForest.Proofs.Text.Quoted

/-!
# Names that can be read back

The name of a synthetic rule shows what the rule is made for: literals in quotes, rules in angle brackets,
patterns between slashes, with blanks between symbols and bars between alternatives. Such a name can be read
back when no pattern contains a slash and no name of a rule looks like that of a synthetic one (`Legible`).
The proof goes by what is made of what: a symbol is told by how it is shown, whatever follows (`Decodes`),
because the symbols in its name are. Main statement: `Synthetic.name_inj`.
-/

namespace ParseForest

namespace Notation

namespace Synthetic

/-- The symbols that the rule is made for. -/
def symbols : Synthetic → List NamedSymbol
  | .list symbols | .optional symbols => symbols
  | .group alternatives => alternatives.flatten

end Synthetic

/-- Symbols that are shown in a form that can be read back. -/
inductive Legible : NamedSymbol → Prop
  | reference {name : String} (hend : '>' ∉ name.toList) (hstart : name.toList.head? ≠ some '[') :
    Legible (.rule name)
  | literal (text : String) : Legible (.terminal (.literal text))
  | pattern {text flags : String} (htext : '/' ∉ text.toList)
    (hflags : ∀ c ∈ flags.toList, c.isAlpha = true) : Legible (.terminal (.pattern ⟨text, flags, none⟩))
  | synthetic {o : Synthetic} (hne : o ≠ .group []) (hsymbols : ∀ x ∈ o.symbols, Legible x) :
    Legible (.rule o.name)

/-! ## Sequences -/

/-- What follows the symbols of an alternative: the end of the name or a bar. -/
inductive Closed : List Char → Prop
  | bracket (rest) : Closed (']' :: rest)
  | bar (rest) : Closed (' ' :: '|' :: rest)

/-- What is shown of a symbol tells the symbol, whatever follows. -/
def Decodes (x : NamedSymbol) : Prop :=
  ∀ {y : NamedSymbol} {k k' : List Char}, Legible y → Stopped k → Stopped k' →
    x.display.toList ++ k = y.display.toList ++ k' → x = y ∧ k = k'

variable {x y : NamedSymbol} {xs ys : List NamedSymbol} {k k' : List Char}

/-- Letters are read as far as they go. -/
theorem letters_inj {l l' : List Char} (hl : ∀ c ∈ l, c.isAlpha = true)
    (hl' : ∀ c ∈ l', c.isAlpha = true) (hk : Stopped k) (hk' : Stopped k') (h : l ++ k = l' ++ k') :
    l = l' ∧ k = k' := by
  induction l generalizing l' with
  | nil =>
    cases l' with
    | nil => exact ⟨rfl, h⟩
    | cons c' l' => exact absurd (hl' c' (.head _)) (by simp [hk c' _ h])
  | cons c l ih =>
    cases l' with
    | nil => exact absurd (hl c (.head _)) (by simp [hk' c _ h.symm])
    | cons c' l' =>
      obtain ⟨rfl, hrest⟩ := List.cons.inj h
      obtain ⟨rfl, hk⟩ := ih (List.forall_mem_cons.1 hl).2 (List.forall_mem_cons.1 hl').2 hrest
      exact ⟨rfl, hk⟩

theorem Closed.stopped (h : Closed k) : Stopped k := by
  rintro c rest rfl
  cases h <;> rfl

/-- Texts with a separator between them. -/
theorem toList_intercalate_cons (sep s : String) (l : List String) :
    (sep.intercalate (s :: l)).toList = s.toList ++ l.flatMap fun t => sep.toList ++ t.toList := by
  induction l generalizing s with
  | nil => simp
  | cons t l ih =>
    rw [String.intercalate_cons_cons, String.toList_append, String.toList_append, ih,
      List.flatMap_cons, List.append_assoc, List.append_assoc]

/-- What is shown of symbols after another one. -/
def following (xs : List NamedSymbol) : List Char := xs.flatMap fun x => ' ' :: x.display.toList

theorem toList_display_cons (x : NamedSymbol) (xs : List NamedSymbol) :
    (display (x :: xs)).toList = x.display.toList ++ following xs := by
  rw [display, List.map_cons, toList_intercalate_cons, List.flatMap_map]
  rfl

theorem toList_display_rule (name : String) :
    (NamedSymbol.rule name).display.toList = '<' :: (name.toList ++ ['>']) := by
  simp [NamedSymbol.display]

/-- The characters that a symbol may begin with. -/
theorem Legible.display_cons (h : Legible x) :
    ∃ c rest, x.display.toList = c :: rest ∧ (c = '<' ∨ c = '"' ∨ c = '/') := by
  cases h with
  | reference => exact ⟨_, _, toList_display_rule _, .inl rfl⟩
  | literal text => exact ⟨_, _, by simp [NamedSymbol.display, Atom.display, Quoted.encode]; rfl, .inr (.inl rfl)⟩
  | pattern => exact ⟨_, _, by simp [NamedSymbol.display, Atom.display, Terminal.display]; rfl, .inr (.inr rfl)⟩
  | synthetic => exact ⟨_, _, toList_display_rule _, .inl rfl⟩

/-- No symbol begins with what follows an alternative. -/
theorem Closed.ne_display (h : Closed k) (hx : Legible x) (rest : List Char) :
    k ≠ x.display.toList ++ rest ∧ k ≠ ' ' :: (x.display.toList ++ rest) := by
  obtain ⟨c, l, hc, hcases⟩ := hx.display_cons
  rw [hc]
  cases h <;> rcases hcases with rfl | rfl | rfl <;> simp

theorem stopped_following (h : Stopped k) (xs : List NamedSymbol) : Stopped (following xs ++ k) := by
  cases xs with
  | nil => exact h
  | cons x xs =>
    intro c rest he
    obtain ⟨rfl, -⟩ := List.cons.inj he
    rfl

theorem following_inj (hx : ∀ x ∈ xs, Legible x ∧ Decodes x) (hy : ∀ y ∈ ys, Legible y)
    (hk : Closed k) (hk' : Closed k') (h : following xs ++ k = following ys ++ k') :
    xs = ys ∧ k = k' := by
  induction xs generalizing ys with
  | nil =>
    cases ys with
    | nil => exact ⟨rfl, h⟩
    | cons y ys =>
      rw [following, List.flatMap_nil, following, List.flatMap_cons, List.append_assoc] at h
      exact absurd h (hk.ne_display (hy y (.head _)) _).2
  | cons x xs ih =>
    obtain ⟨⟨hlegible, hdecodes⟩, hxs⟩ := List.forall_mem_cons.1 hx
    cases ys with
    | nil =>
      rw [following, List.flatMap_cons, List.append_assoc] at h
      exact absurd h.symm (hk'.ne_display hlegible _).2
    | cons y ys =>
      obtain ⟨hy, hys⟩ := List.forall_mem_cons.1 hy
      simp only [following, List.flatMap_cons, List.cons_append, List.append_assoc, List.cons.injEq,
        true_and] at h
      obtain ⟨rfl, hrest⟩ := hdecodes hy (stopped_following hk.stopped xs)
        (stopped_following hk'.stopped ys) h
      obtain ⟨rfl, hk⟩ := ih hxs hys hrest
      exact ⟨rfl, hk⟩

/-- Symbols are told by how they are shown before the end of an alternative. -/
theorem display_inj (hx : ∀ x ∈ xs, Legible x ∧ Decodes x) (hy : ∀ y ∈ ys, Legible y)
    (hk : Closed k) (hk' : Closed k') (h : (display xs).toList ++ k = (display ys).toList ++ k') :
    xs = ys ∧ k = k' := by
  cases xs with
  | nil =>
    cases ys with
    | nil => exact ⟨rfl, h⟩
    | cons y ys =>
      rw [toList_display_cons, List.append_assoc] at h
      exact absurd h (hk.ne_display (hy y (.head _)) _).1
  | cons x xs =>
    cases ys with
    | nil =>
      rw [toList_display_cons, List.append_assoc] at h
      exact absurd h.symm (hk'.ne_display (hx x (.head _)).1 _).1
    | cons y ys =>
      -- a blank before the first symbol makes both lists follow something
      refine following_inj hx hy hk hk' ?_
      rw [toList_display_cons, toList_display_cons] at h
      simpa [following] using h

/-! ## Alternatives -/

/-- What is shown of alternatives after another one. -/
def followingAlternatives (alternatives : List (List NamedSymbol)) : List Char :=
  alternatives.flatMap fun alt => ' ' :: '|' :: ' ' :: (display alt).toList

theorem toList_intercalate_display (alt : List NamedSymbol) (alternatives : List (List NamedSymbol)) :
    (" | ".intercalate ((alt :: alternatives).map display)).toList =
      (display alt).toList ++ followingAlternatives alternatives := by
  rw [List.map_cons, toList_intercalate_cons, List.flatMap_map]
  rfl

variable {alternatives alternatives' : List (List NamedSymbol)} {alt alt' : List NamedSymbol}

theorem closed_followingAlternatives (alternatives : List (List NamedSymbol)) (rest : List Char) :
    Closed (followingAlternatives alternatives ++ ']' :: rest) := by
  cases alternatives with
  | nil => exact .bracket rest
  | cons alt alternatives => exact .bar _

theorem followingAlternatives_inj (hx : ∀ alt ∈ alternatives, ∀ x ∈ alt, Legible x ∧ Decodes x)
    (hy : ∀ alt ∈ alternatives', ∀ y ∈ alt, Legible y)
    (h : followingAlternatives alternatives ++ ']' :: k =
      followingAlternatives alternatives' ++ ']' :: k') : alternatives = alternatives' ∧ k = k' := by
  induction alternatives generalizing alternatives' with
  | nil =>
    cases alternatives' with
    | nil => exact ⟨rfl, (List.cons.inj h).2⟩
    | cons alt' alternatives' => simp [followingAlternatives] at h
  | cons alt alternatives ih =>
    cases alternatives' with
    | nil => simp [followingAlternatives] at h
    | cons alt' alternatives' =>
      obtain ⟨hx, hxs⟩ := List.forall_mem_cons.1 hx
      obtain ⟨hy, hys⟩ := List.forall_mem_cons.1 hy
      simp only [followingAlternatives, List.flatMap_cons, List.cons_append, List.append_assoc,
        List.cons.injEq, true_and] at h
      obtain ⟨rfl, hrest⟩ := display_inj hx hy (closed_followingAlternatives _ _)
        (closed_followingAlternatives _ _) h
      obtain ⟨rfl, hk⟩ := ih hxs hys hrest
      exact ⟨rfl, hk⟩

/-! ## Names -/

/-- A synthetic rule is told by its name, whatever follows. -/
theorem Synthetic.name_append_inj {o o' : Synthetic} (hne : o ≠ .group []) (hne' : o' ≠ .group [])
    (hx : ∀ x ∈ o.symbols, Legible x ∧ Decodes x) (hy : ∀ y ∈ o'.symbols, Legible y)
    (h : o.name.toList ++ k = o'.name.toList ++ k') : o = o' ∧ k = k' := by
  have hclose : "]".toList = [']'] := rfl
  cases o with
  | list xs =>
    cases o' with
    | list ys =>
      simp only [name, String.toList_append, List.append_assoc, hclose] at h
      obtain ⟨rfl, hk⟩ := display_inj hx hy (.bracket _) (.bracket _) (List.append_cancel_left h)
      exact ⟨rfl, (List.cons.inj hk).2⟩
    | optional ys => simp [name] at h
    | group alternatives' => simp [name] at h
  | optional xs =>
    cases o' with
    | list ys => simp [name] at h
    | optional ys =>
      simp only [name, String.toList_append, List.append_assoc, hclose] at h
      obtain ⟨rfl, hk⟩ := display_inj hx hy (.bracket _) (.bracket _) (List.append_cancel_left h)
      exact ⟨rfl, (List.cons.inj hk).2⟩
    | group alternatives' => simp [name] at h
  | group alternatives =>
    cases o' with
    | list ys => simp [name] at h
    | optional ys => simp [name] at h
    | group alternatives' =>
      cases alternatives with
      | nil => exact absurd rfl hne
      | cons alt alternatives =>
        cases alternatives' with
        | nil => exact absurd rfl hne'
        | cons alt' alternatives' =>
          simp only [name, String.toList_append, List.append_assoc, hclose,
            toList_intercalate_display] at h
          simp only [symbols, List.flatten_cons, List.mem_append, List.mem_flatten] at hx hy
          obtain ⟨rfl, hrest⟩ := display_inj (fun x hm => hx x (.inl hm)) (fun y hm => hy y (.inl hm))
            (closed_followingAlternatives _ _) (closed_followingAlternatives _ _)
            (List.append_cancel_left h)
          obtain ⟨rfl, hk⟩ := followingAlternatives_inj
            (fun alt halt x hm => hx x (.inr ⟨alt, halt, hm⟩))
            (fun alt halt y hm => hy y (.inr ⟨alt, halt, hm⟩)) hrest
          exact ⟨rfl, hk⟩

/-- A written name is not that of a synthetic rule. -/
theorem name_append_ne {name : String} (hstart : name.toList.head? ≠ some '[') (o : Synthetic) :
    name.toList ++ '>' :: k ≠ o.name.toList ++ k' := by
  obtain ⟨rest, hrest⟩ := o.name_toList
  intro h
  rw [hrest] at h
  cases hname : name.toList with
  | nil => simp [hname] at h
  | cons c l =>
    rw [hname] at h hstart
    exact hstart (congrArg some (List.cons.inj h).1)

/-- Symbols that can be read back are known from how they are shown. -/
theorem Legible.decodes (hx : Legible x) : Decodes x := by
  induction hx with
  | @reference name hend hstart =>
    intro y k k' hy hk hk' h
    cases hy with
    | @reference name' hend' =>
      simp only [toList_display_rule, List.cons_append, List.append_assoc, List.nil_append,
        List.cons.injEq, true_and] at h
      obtain ⟨hname, hk⟩ := append_stop_inj hend hend' h
      exact ⟨by rw [String.toList_inj.1 hname], hk⟩
    | literal text => simp [NamedSymbol.display, Atom.display, Quoted.encode] at h
    | pattern => simp [NamedSymbol.display, Atom.display, Terminal.display] at h
    | synthetic hne hsymbols =>
      simp only [toList_display_rule, List.cons_append, List.append_assoc, List.nil_append,
        List.cons.injEq, true_and] at h
      exact absurd h (name_append_ne hstart _)
  | literal text =>
    intro y k k' hy hk hk' h
    cases hy with
    | literal text' =>
      obtain ⟨rfl, hk⟩ := Quoted.encode_append_inj h
      exact ⟨rfl, hk⟩
    | pattern => simp [NamedSymbol.display, Atom.display, Quoted.encode, Terminal.display] at h
    | _ => simp [NamedSymbol.display, Atom.display, Quoted.encode] at h
  | @pattern text flags htext hflags =>
    intro y k k' hy hk hk' h
    cases hy with
    | literal text' => simp [NamedSymbol.display, Atom.display, Quoted.encode, Terminal.display] at h
    | @pattern text' flags' htext' hflags' =>
      have hslash : "/".toList = ['/'] := rfl
      simp only [NamedSymbol.display, Atom.display, Terminal.display, String.toList_append, hslash,
        List.append_assoc, List.cons_append, List.nil_append, List.cons.injEq, true_and] at h
      obtain ⟨htext, hrest⟩ := append_stop_inj htext htext' h
      obtain ⟨hflags, hk⟩ := letters_inj hflags hflags' hk hk' hrest
      exact ⟨by rw [String.toList_inj.1 htext, String.toList_inj.1 hflags], hk⟩
    | _ => simp [NamedSymbol.display, Atom.display, Terminal.display] at h
  | synthetic hne hsymbols ih =>
    intro y k k' hy hk hk' h
    cases hy with
    | literal text => simp [NamedSymbol.display, Atom.display, Quoted.encode] at h
    | pattern => simp [NamedSymbol.display, Atom.display, Terminal.display] at h
    | reference hend' hstart' =>
      simp only [toList_display_rule, List.cons_append, List.append_assoc, List.nil_append,
        List.cons.injEq, true_and] at h
      exact absurd h.symm (name_append_ne hstart' _)
    | synthetic hne' hsymbols' =>
      simp only [toList_display_rule, List.cons_append, List.append_assoc, List.nil_append,
        List.cons.injEq, true_and] at h
      obtain ⟨rfl, hk⟩ := Synthetic.name_append_inj hne hne' (fun x hm => ⟨hsymbols x hm, ih x hm⟩)
        hsymbols' h
      exact ⟨rfl, (List.cons.inj hk).2⟩

/-- A synthetic rule made of symbols that can be read back is told by its name. -/
theorem Synthetic.name_inj {o o' : Synthetic} (hne : o ≠ .group []) (hne' : o' ≠ .group [])
    (hx : ∀ x ∈ o.symbols, Legible x) (hy : ∀ y ∈ o'.symbols, Legible y) (h : o.name = o'.name) :
    o = o' :=
  (name_append_inj hne hne' (fun x hm => ⟨hx x hm, (hx x hm).decodes⟩) hy
    (congrArg (String.toList · ++ []) h)).1

/-- A slash within a pattern is shown like the ones around it. -/
example : (Synthetic.list [.terminal (.pattern ⟨"a", "", none⟩), .terminal (.pattern ⟨"b", "", none⟩)]).name =
    (Synthetic.list [.terminal (.pattern ⟨"a/ /b", "", none⟩)]).name := by
  decide +kernel

end Notation

end ParseForest
