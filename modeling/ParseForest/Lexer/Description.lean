import ParseForest.Pattern.Escape
import ParseForest.Token.Basic

/-!
# Lexer descriptions

A lexer is described by a list of classes: the tokens that a grammar can name, what lies between
tokens, and exact texts.
-/

namespace ParseForest

/-- What becomes of the matches of a class. -/
inductive ClassKind
  /-- Tokens that a grammar can mention by class -/
  | token
  /-- Dropped -/
  | skip
  /-- Tokens of one exact text -/
  | literal
deriving DecidableEq

/-- A class of a lexer. The name of a literal class is its text. -/
structure TokenClass where
  name : String
  pattern : String
  kind : ClassKind
deriving DecidableEq

/-- The classes of a lexer, in the order of their declaration. -/
structure LexerDescription where
  classes : Array TokenClass
deriving DecidableEq

namespace LexerDescription

/-- The description without classes. -/
def empty : LexerDescription := ⟨#[]⟩

variable (d : LexerDescription)

/-- Adds a class. -/
def add (name pattern : String) (kind : ClassKind) : LexerDescription :=
  ⟨d.classes.push ⟨name, pattern, kind⟩⟩

/-- Adds a class of tokens. -/
def token (name pattern : String) : LexerDescription := d.add name pattern .token

/-- Adds a class of which the matches are dropped. -/
def skip (name pattern : String) : LexerDescription := d.add name pattern .skip

/-- Whether there is a class for the exact text. -/
def hasLiteral (text : String) : Bool := d.classes.any fun c => c.kind = .literal ∧ c.name = text

/-- Adds a class for an exact text, unless there is one or the text is empty. -/
def literal (text : String) : LexerDescription :=
  if text.isEmpty || d.hasLiteral text then d else d.add text (PatternText.escape text) .literal

/-- The classes that a grammar can mention. -/
def tokenClasses : List TokenClass := d.classes.toList.filter (·.kind = .token)

/-- Their names. -/
def tokenClassNames : List String := d.tokenClasses.map TokenClass.name

end LexerDescription

end ParseForest
