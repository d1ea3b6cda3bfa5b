import ParseForest.Grammar.Basic

/-!
# Tokens

A token has a class, a text and a position. Literals of a grammar look at the text, token classes at
the class. The end of the input is a token of its own, which is the only one of class `EOF` without
text.
-/

namespace ParseForest

/-- Where a token stands: line and column count from one, the column in characters; offset and
length are in bytes. -/
structure Position where
  line : UInt32
  column : UInt32
  absolute : Nat
  length : Nat
deriving DecidableEq, Inhabited

namespace Position

/-- Byte offset after the token. -/
def stop (p : Position) : Nat := p.absolute + p.length

/-- `line:column`. -/
def display (p : Position) : String := toString p.line ++ ":" ++ toString p.column

end Position

/-- A token. -/
structure Token where
  className : String
  text : String
  position : Position
deriving DecidableEq, Inhabited

namespace Token

/-- The end of the input. -/
def eof (position : Position) : Token := ⟨eofClass, "", position⟩

/-- True of the end of the input. -/
def isEof (t : Token) : Bool := t.className == eofClass && t.text.isEmpty

/-- How messages show a token. -/
def describe (t : Token) : String := if t.isEof then "end of input" else Quoted.encode t.text

end Token

end ParseForest
