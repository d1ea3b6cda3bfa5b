import ParseForest.Grammar.Error
import ParseForest.Lexer.Description
import ParseForest.Pattern.Reader
import ParseForest.Token.Stream

/-!
# Lexers

A lexer cuts a text into tokens. At each place the longest match of any class is taken; among
several classes that match that far, literal classes come first, then the one declared first.

To a lexer a class is a function from the text that is left to the end of a match in it. The functions of a
description are the compiled patterns of its classes (`LexerClass.ofMatcher`).
-/

namespace ParseForest

/-- A class with the number of characters up to the end of its match in a text, if there is one. -/
structure LexerClass where
  info : TokenClass
  matchEnd? : List Char → Option Nat
  matchEnd?_le : ∀ {text : List Char} {n : Nat}, matchEnd? text = some n → n ≤ text.length

/-- A class with its compiled pattern. -/
def LexerClass.ofMatcher (info : TokenClass) (m : Matcher) : LexerClass :=
  ⟨info, m.matchEnd?, Matcher.matchEnd?_le⟩

@[simp] theorem LexerClass.info_ofMatcher (info : TokenClass) (m : Matcher) : (ofMatcher info m).info = info := rfl

/-- A lexer. -/
structure Lexer where
  classes : Array LexerClass

/-- No class matches. -/
structure LexError where
  position : Position
  /-- The beginning of the text that is left -/
  snippet : String
deriving DecidableEq

/-- The words of the error. -/
def LexError.message (e : LexError) : String :=
  "no token class matches input at line " ++ toString e.position.line ++ ", column "
    ++ toString e.position.column ++ ": `" ++ e.snippet ++ "`"

namespace Lexer

/-- The pattern of a class is tried at the start of the text that is left. -/
def anchored (pattern : String) : String := "\\A(?:" ++ pattern ++ ")"

/-- Compiles classes. `seen` holds the names that are taken. -/
def compile (seen : List String) : List TokenClass → Except GrammarError (List LexerClass)
  | [] => .ok []
  | c :: rest =>
    if c.kind ≠ .literal ∧ (c.name = eofClass ∨ c.name ∈ seen) then
      .error (.duplicateTokenClass c.name)
    else
      match Matcher.ofText? (anchored c.pattern) with
      | none => .error (.invalidPattern ("token class '" ++ c.name ++ "'"))
      | some matcher => do
        let seen := if c.kind = .literal then seen else c.name :: seen
        let classes ← compile seen rest
        .ok (.ofMatcher c matcher :: classes)

/-- The lexer of a description. -/
def ofDescription (d : LexerDescription) : Except GrammarError Lexer := do
  let classes ← compile [] d.classes.toList
  .ok ⟨classes.toArray⟩

variable (lexer : Lexer)

/-- The description of the lexer. -/
def description : LexerDescription := ⟨lexer.classes.map LexerClass.info⟩

/-- A match of a class at the start of a text: the class, and the number of characters. -/
structure Lead where
  info : TokenClass
  length : Nat

/-- Whether a match of a later class replaces the best one so far. -/
def Lead.beats (new best : Lead) : Bool :=
  best.length < new.length
    || (new.length == best.length && new.info.kind = .literal && best.info.kind ≠ .literal)

/-- The match of a class at the start of a text, if it has one that is not empty. -/
def lead? (text : List Char) (c : LexerClass) : Option Lead :=
  match c.matchEnd? text with
  | some (n + 1) => some ⟨c.info, n + 1⟩
  | _ => none

/-- The match that is taken at the start of a text. -/
def bestLead? (text : List Char) : Option Lead :=
  lexer.classes.foldl
    (fun best c => match best, lead? text c with
      | none, new => new
      | best, none => best
      | some best, some new => if new.beats best then some new else some best)
    none

/-- A place in the source. -/
structure Place where
  line : UInt32
  column : UInt32
  offset : Nat

/-- The place after a character. After the largest line or column the count begins again at zero. -/
def Place.advance (p : Place) (c : Char) : Place :=
  if c = '\n' then ⟨p.line + 1, 1, p.offset + c.utf8Size⟩
  else ⟨p.line, p.column + 1, p.offset + c.utf8Size⟩

/-- The position of a lexeme of `length` bytes at the place. -/
def Place.position (p : Place) (length : Nat) : Position := ⟨p.line, p.column, p.offset, length⟩

/-- Characters of the text shown when no class matches. -/
def snippetLength : Nat := 20

/-- Cuts the text at `place` into tokens, after those in `done`. The fuel counts characters; every
round takes at least one. -/
def tokensFrom : Nat → Place → Array Token → List Char → Except LexError (Array Token)
  | 0, place, done, _ => .ok (done.push (.eof (place.position 0)))
  | _ + 1, place, done, [] => .ok (done.push (.eof (place.position 0)))
  | fuel + 1, place, done, c :: cs =>
    match lexer.bestLead? (c :: cs) with
    | none => .error ⟨place.position 0, String.ofList ((c :: cs).take snippetLength)⟩
    | some lead =>
      let text := (c :: cs).take lead.length
      let after := text.foldl Place.advance place
      let done :=
        if lead.info.kind = .skip then done
        else done.push
          ⟨lead.info.name, String.ofList text, place.position (after.offset - place.offset)⟩
      tokensFrom fuel after done ((c :: cs).drop lead.length)

/-- Cuts a text into tokens, with the end of the input after them. -/
def tokenize (source : String) : Except LexError TokenStream := do
  let cs := source.toList
  let tokens ← lexer.tokensFrom (cs.length + 1) ⟨1, 1, 0⟩ #[] cs
  .ok ((TokenStream.mk tokens none).ensureEof.withSource source)

end Lexer

end ParseForest
