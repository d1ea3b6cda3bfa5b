import ParseForest.Text.Latest

/-!
# Quoted text

A quoted text stands between double quotes. A quote and a backslash are preceded by a backslash, the
usual controls have their letter, and every other character without a visible form of its own is
written by its code point in hexadecimal. Without such a form are the combining characters, which attach to
the character before them, and the unprintable ones.
-/

namespace ParseForest

/-- Characters that attach to the one before them: those with the property Grapheme_Extend. The two
halfwidth sound marks, which have it for the sake of equivalence, stand on their own. -/
def CharSet.combining : CharSet :=
  (CharSet.graphemeExtend.union .latestGraphemeExtend).diff (.range 0xFF9E 0xFF9F)

/-- Code points without a visible form: controls, format characters, private use, unassigned code points,
separators other than the space, and characters that are to be ignored where they are not supported. -/
def CharSet.unprintable : CharSet :=
  let hidden := CharSet.unions [CharSet.unassigned.diff .latest, .defaultIgnorable,
    .ofCategories ["cc", "cf", "co", "zs", "zl", "zp"]]
  hidden.diff (.singleton ' ')

namespace Quoted

/-- The digits of a number in hexadecimal, in lower case and without padding. -/
def hex (n : Nat) : List Char := Nat.toDigits 16 n

/-- How one character is written between the quotes. -/
def encodeChar (c : Char) : List Char :=
  if c = '\x00' then ['\\', '0']
  else if c = '\t' then ['\\', 't']
  else if c = '\r' then ['\\', 'r']
  else if c = '\n' then ['\\', 'n']
  else if c = '\\' then ['\\', '\\']
  else if c = '"' then ['\\', '"']
  else if CharSet.combining.contains c || CharSet.unprintable.contains c then
    ['\\', 'u', '\x7b'] ++ hex c.toNat ++ ['\x7d']
  else [c]

/-- The text between double quotes. -/
def encode (text : String) : String :=
  String.ofList ('"' :: text.toList.flatMap encodeChar ++ ['"'])

end Quoted

end ParseForest
