import ParseForest.Text.Quoted
import Mathlib.Data.Nat.Digits.Defs
import Mathlib.Tactic.Common

/-!
# Quoted text can be read back

A quoted text ends where its closing quote stands and nowhere before, so it is known from whatever it is
written in front of (`Quoted.encode_append_inj`).
-/

namespace ParseForest

/-- What stands before the first stop is known. -/
theorem append_stop_inj {α : Type} {stop : α} {l l' k k' : List α} (hl : stop ∉ l) (hl' : stop ∉ l')
    (h : l ++ stop :: k = l' ++ stop :: k') : l = l' ∧ k = k' := by
  induction l generalizing l' with
  | nil =>
    cases l' with
    | nil => exact ⟨rfl, (List.cons.inj h).2⟩
    | cons x l' => exact absurd (List.cons.inj h).1 (List.ne_of_not_mem_cons hl')
  | cons x l ih =>
    cases l' with
    | nil => exact absurd (List.cons.inj h).1.symm (List.ne_of_not_mem_cons hl)
    | cons x' l' =>
      obtain ⟨rfl, hrest⟩ := List.cons.inj h
      obtain ⟨rfl, hk⟩ := ih (List.not_mem_of_not_mem_cons hl) (List.not_mem_of_not_mem_cons hl') hrest
      exact ⟨rfl, hk⟩

namespace Quoted

variable {c c' : Char} {k k' : List Char}

/-! ## Code points -/

theorem digitChar_inj {m n : Nat} (hm : m < 16) (hn : n < 16) (h : m.digitChar = n.digitChar) :
    m = n := by
  have hall : ∀ m < 16, ∀ n < 16, m.digitChar = n.digitChar → m = n := by decide
  exact hall m hm n hn h

theorem hex_of_lt {n : Nat} (h : n < 16) : hex n = [n.digitChar] := Nat.toDigits_of_lt_base h

theorem hex_of_le {n : Nat} (h : 16 ≤ n) : hex n = hex (n / 16) ++ [(n % 16).digitChar] :=
  Nat.toDigits_of_base_le (by decide) h

theorem hex_ne_nil (n : Nat) : hex n ≠ [] := Nat.toDigits_ne_nil

/-- Different numbers have different digits. -/
theorem hex_inj {m n : Nat} (h : hex m = hex n) : m = n := by
  induction m using Nat.strongRecOn generalizing n with
  | _ m ih =>
    rcases Nat.lt_or_ge m 16 with hm | hm <;> rcases Nat.lt_or_ge n 16 with hn | hn
    · rw [hex_of_lt hm, hex_of_lt hn] at h
      exact digitChar_inj hm hn (List.cons.inj h).1
    · rw [hex_of_lt hm, hex_of_le hn, ← List.nil_append [_]] at h
      exact absurd (List.append_inj_left' h rfl).symm (hex_ne_nil _)
    · rw [hex_of_le hm, hex_of_lt hn, ← List.nil_append [n.digitChar]] at h
      exact absurd (List.append_inj_left' h rfl) (hex_ne_nil _)
    · rw [hex_of_le hm, hex_of_le hn] at h
      obtain ⟨hrest, hlast⟩ := List.append_inj' h rfl
      have hdiv := ih (m / 16) (Nat.div_lt_self (by omega) (by decide)) hrest
      have hmod := digitChar_inj (Nat.mod_lt m (by decide)) (Nat.mod_lt n (by decide))
        (List.cons.inj hlast).1
      omega

/-- Digits are no signs. -/
theorem isAlphanum_of_mem_hex {n : Nat} : ∀ c ∈ hex n, c.isAlphanum = true := by
  have hall : ∀ n < 16, n.digitChar.isAlphanum = true := by decide
  induction n using Nat.strongRecOn with
  | _ n ih =>
    rcases Nat.lt_or_ge n 16 with hn | hn
    · rw [hex_of_lt hn]
      exact List.forall_mem_singleton.2 (hall n hn)
    · rw [hex_of_le hn]
      exact List.forall_mem_append.2 ⟨ih _ (Nat.div_lt_self (by omega) (by decide)),
        List.forall_mem_singleton.2 (hall _ (Nat.mod_lt n (by decide)))⟩

theorem brace_not_mem_hex (n : Nat) : '\x7d' ∉ hex n :=
  fun h => absurd (isAlphanum_of_mem_hex _ h) (by decide)

/-! ## Characters -/

/-- The character that a letter after a backslash stands for. -/
def unescape : Char → Char
  | '0' => '\x00'
  | 't' => '\t'
  | 'r' => '\r'
  | 'n' => '\n'
  | c => c

/-- The three ways to write a character. -/
theorem encodeChar_cases (c : Char) : (encodeChar c = [c] ∧ c ≠ '\\' ∧ c ≠ '"') ∨
    (∃ e, e ≠ 'u' ∧ encodeChar c = ['\\', e] ∧ unescape e = c) ∨
    encodeChar c = '\\' :: 'u' :: '\x7b' :: (hex c.toNat ++ ['\x7d']) := by
  rw [encodeChar]
  split
  · rename_i h; exact .inr (.inl ⟨'0', by decide, rfl, h.symm⟩)
  split
  · rename_i h; exact .inr (.inl ⟨'t', by decide, rfl, h.symm⟩)
  split
  · rename_i h; exact .inr (.inl ⟨'r', by decide, rfl, h.symm⟩)
  split
  · rename_i h; exact .inr (.inl ⟨'n', by decide, rfl, h.symm⟩)
  split
  · rename_i h; exact .inr (.inl ⟨'\\', by decide, rfl, h.symm⟩)
  split
  · rename_i h; exact .inr (.inl ⟨'"', by decide, rfl, h.symm⟩)
  split
  · exact .inr (.inr rfl)
  · exact .inl ⟨rfl, ‹_›, ‹_›⟩

/-- A character is known from how it is written. -/
theorem encodeChar_append_inj (h : encodeChar c ++ k = encodeChar c' ++ k') : c = c' ∧ k = k' := by
  rcases encodeChar_cases c with ⟨he, hc, -⟩ | ⟨e, hu, he, rfl⟩ | he <;>
    rcases encodeChar_cases c' with ⟨he', hc', -⟩ | ⟨e', hu', he', rfl⟩ | he' <;> rw [he, he'] at h
  · exact List.cons.inj h
  · exact absurd (List.cons.inj h).1 hc
  · exact absurd (List.cons.inj h).1 hc
  · exact absurd (List.cons.inj h).1.symm hc'
  · obtain ⟨rfl, hk⟩ := List.cons.inj (List.cons.inj h).2
    exact ⟨rfl, hk⟩
  · exact absurd (List.cons.inj (List.cons.inj h).2).1 hu
  · exact absurd (List.cons.inj h).1.symm hc'
  · exact absurd (List.cons.inj (List.cons.inj h).2).1.symm hu'
  · simp only [List.cons_append, List.append_assoc, List.nil_append, List.cons.injEq, true_and] at h
    obtain ⟨hhex, hk⟩ := append_stop_inj (brace_not_mem_hex _) (brace_not_mem_hex _) h
    exact ⟨Char.toNat_inj.1 (hex_inj hhex), hk⟩

/-- How a character is written does not begin with a quote. -/
theorem encodeChar_ne_quote (c : Char) (k k' : List Char) : encodeChar c ++ k ≠ '"' :: k' := by
  rcases encodeChar_cases c with ⟨he, -, hc⟩ | ⟨e, -, he, -⟩ | he <;> rw [he] <;> intro h
  · exact hc (List.cons.inj h).1
  · simp at h
  · simp at h

/-! ## Texts -/

theorem flatMap_encodeChar_inj {l l' : List Char}
    (h : l.flatMap encodeChar ++ '"' :: k = l'.flatMap encodeChar ++ '"' :: k') : l = l' ∧ k = k' := by
  induction l generalizing l' with
  | nil =>
    cases l' with
    | nil => exact ⟨rfl, (List.cons.inj h).2⟩
    | cons c' l' =>
      rw [List.flatMap_cons, List.append_assoc] at h
      exact absurd h.symm (encodeChar_ne_quote _ _ _)
  | cons c l ih =>
    cases l' with
    | nil =>
      rw [List.flatMap_cons, List.append_assoc] at h
      exact absurd h (encodeChar_ne_quote _ _ _)
    | cons c' l' =>
      simp only [List.flatMap_cons, List.append_assoc] at h
      obtain ⟨rfl, hrest⟩ := encodeChar_append_inj h
      obtain ⟨rfl, hk⟩ := ih hrest
      exact ⟨rfl, hk⟩

/-- A quoted text is known from what it is written in front of. -/
theorem encode_append_inj {s s' : String}
    (h : (encode s).toList ++ k = (encode s').toList ++ k') : s = s' ∧ k = k' := by
  simp only [encode, String.toList_ofList, List.cons_append, List.append_assoc, List.nil_append,
    List.cons.injEq, true_and] at h
  obtain ⟨hs, hk⟩ := flatMap_encodeChar_inj h
  exact ⟨String.toList_inj.1 hs, hk⟩

end Quoted

end ParseForest
