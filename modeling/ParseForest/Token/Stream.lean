import ParseForest.Text.CharSet
import ParseForest.Text.Context
import ParseForest.Token.Basic

/-!
# Token streams

The tokens of an input, the end of the input last, with the source text if there is one.
-/

namespace ParseForest

/-- A list of tokens, with the text they were cut from if it is known. -/
structure TokenStream where
  tokens : Array Token
  source : Option String

namespace TokenStream

/-- Where the end of the input stands: after the last token. A column that would be too large is the largest. -/
def eofPosition (tokens : Array Token) : Position :=
  match tokens.back? with
  | none => ⟨1, 1, 0, 0⟩
  | some last =>
    ⟨last.position.line, .ofNatClamp (last.position.column.toNat + last.text.length),
      last.position.stop, 0⟩

/-- The stream with the end of the input after its tokens, unless they end with it. -/
def ensureEof (s : TokenStream) : TokenStream :=
  if s.tokens.back?.any Token.isEof then s
  else { s with tokens := s.tokens.push (.eof (eofPosition s.tokens)) }

/-- The stream of the given tokens. -/
def ofTokens (tokens : List Token) : TokenStream := ensureEof ⟨tokens.toArray, none⟩

/-- The stream with its source text. -/
def withSource (s : TokenStream) (source : String) : TokenStream := { s with source := some source }

variable (s : TokenStream)

/-- Number of tokens, the end of the input included. -/
def length : Nat := s.tokens.size

/-- True when there is no token. -/
def isEmpty : Bool := s.tokens.isEmpty

/-- The token of a number. -/
def get? (i : Nat) : Option Token := s.tokens[i]?

/-- True when there is nothing but the end of the input. -/
def isBlank : Bool := s.tokens.all Token.isEof

/-- Characters of the source shown on either side of a token. -/
def contextRadius : Nat := 20

/-- The text around a token, for messages: of the source if it is known, otherwise the texts of its
neighbours. -/
def nearText (i : Nat) : String :=
  match s.get? i with
  | none => ""
  | some t =>
    match s.source with
    | some source => trimBlank (contextAround source t.position.absolute t.position.stop contextRadius)
    | none =>
      let window := (s.tokens.toList.take (i + 4)).drop (i - 3)
      " ".intercalate ((window.filter (!·.isEof)).map Token.text)

end TokenStream

end ParseForest
