import ParseForest.Grammar.Error
import ParseForest.Grammar.Symbol
import ParseForest.Text.CharSet

/-!
# Lexemes of grammar text

Grammar text is cut into lexemes. Blanks and comments, from `#` to the end of the line, separate
them. Every lexeme knows the place of its first character.
-/

namespace ParseForest

namespace Notation

/-- What a lexeme is. -/
inductive LexemeKind
  /-- `<name>` -/
  | reference (name : String)
  /-- A text between single or double quotes -/
  | literal (text : String)
  /-- `/pattern/flags` -/
  | pattern (text flags : String)
  /-- `::=` -/
  | define
  | pipe
  /-- `+N+` -/
  | precedence (level : Nat)
  /-- `=left=` or `=right=` -/
  | associativity (side : Associativity)
  | openParen
  | closeParen
  | question
  | plus
  | star
  /-- The end of the text -/
  | stop
deriving DecidableEq

namespace LexemeKind

/-- The character of a modifier. -/
def modifier? : LexemeKind → Option Char
  | .question => some '?'
  | .plus => some '+'
  | .star => some '*'
  | _ => none

/-- How messages show a lexeme. -/
def describe : LexemeKind → String
  | .reference name => "<" ++ name ++ ">"
  | .literal text => Quoted.encode text
  | .pattern text flags => "/" ++ text ++ "/" ++ flags
  | .define => "'::='"
  | .pipe => "'|'"
  | .precedence level => "+" ++ toString level ++ "+"
  | .associativity .right => "=right="
  | .associativity _ => "=left="
  | .openParen => "'('"
  | .closeParen => "')'"
  | .question => "'?'"
  | .plus => "'+'"
  | .star => "'*'"
  | .stop => "end of grammar"

end LexemeKind

/-- A lexeme and the place where it begins. -/
structure Lexeme where
  kind : LexemeKind
  place : Location
deriving DecidableEq

/-! ## Characters -/

/-- The place after a character. -/
def advance (place : Location) (c : Char) : Location :=
  if c = '\n' then ⟨place.line + 1, 1⟩ else ⟨place.line, place.column + 1⟩

/-- The place after a text. -/
def advanceAll (place : Location) (cs : List Char) : Location := cs.foldl advance place

/-- The part of a text that makes up one lexeme is read off its front: `ok (kind, n)` says that it
has `n` characters. -/
abbrev Scan := Except Malformation (LexemeKind × Nat)

/-- Reads the name of a reference, after `<`. -/
def scanReference (cs : List Char) : Scan :=
  let name := cs.takeWhile fun c => c != '>' && c != '\n'
  match cs.drop name.length with
  | '>' :: _ =>
    let trimmed := trimBlank (String.ofList name)
    if trimmed.isEmpty then .error .emptyName else .ok (.reference trimmed, name.length + 2)
  | _ => .error .unterminatedReference

/-- Reads a literal up to its closing quote: its text, and how many characters it takes with the
quote. A backslash stands before a character that is taken as it is, or before a letter for a
control. -/
def scanLiteral (quote : Char) : List Char → Option (List Char × Nat)
  | [] => none
  | c :: cs =>
    if c = quote then some ([], 1)
    else if c = '\n' then none
    else if c = '\\' then
      match cs with
      | [] => none
      | e :: cs =>
        let c := match e with
          | 'n' => '\n'
          | 't' => '\t'
          | 'r' => '\r'
          | e => e
        (scanLiteral quote cs).map fun (text, n) => (c :: text, n + 2)
    else (scanLiteral quote cs).map fun (text, n) => (c :: text, n + 1)

/-- Reads a pattern up to its closing slash: its text, and how many characters it takes with the
slash. A backslash hides the character after it, and is dropped before a slash. -/
def scanPattern : List Char → Option (List Char × Nat)
  | [] => none
  | c :: cs =>
    if c = '/' then some ([], 1)
    else if c = '\\' then
      match cs with
      | [] => none
      | e :: cs =>
        (scanPattern cs).map fun (text, n) => (if e = '/' then e :: text else '\\' :: e :: text, n + 2)
    else if c = '\n' then none
    else (scanPattern cs).map fun (text, n) => (c :: text, n + 1)

/-- The letters that may follow a pattern. -/
def isPatternFlag (c : Char) : Bool := c == 'i' || c == 'm' || c == 's' || c == 'x'

/-- Reads a pattern and its flags, after the opening slash. -/
def scanPatternWithFlags (cs : List Char) : Scan :=
  match scanPattern cs with
  | none => .error .unterminatedPattern
  | some (text, n) =>
    let flags := (cs.drop n).takeWhile Char.isAlpha
    match flags.find? (!isPatternFlag ·) with
    | some flag => .error (.unsupportedFlag flag)
    | none => .ok (.pattern (String.ofList text) (String.ofList flags), 1 + n + flags.length)

/-- One more than the largest precedence. -/
def precedenceLimit : Nat := 0x100000000

/-- Reads what follows `+`: digits and another `+` for a precedence. -/
def scanPlus (cs : List Char) : Scan :=
  let digits := cs.takeWhile Char.isDigit
  if digits.isEmpty then .ok (.plus, 1)
  else
    match cs.drop digits.length with
    | '+' :: _ =>
      let level := digits.foldl (fun n c => 10 * n + (c.toNat - '0'.toNat)) 0
      if level < precedenceLimit then .ok (.precedence level, digits.length + 2)
      else .error (.precedenceOutOfRange (String.ofList digits))
    | _ => .error (.unclosedPrecedence (String.ofList digits))

/-- Reads what follows `=`: a side and another `=`. -/
def scanEquals (cs : List Char) : Scan :=
  let word := cs.takeWhile Char.isAlpha
  match cs.drop word.length with
  | '=' :: _ =>
    match String.ofList word with
    | "left" => .ok (.associativity .left, word.length + 2)
    | "right" => .ok (.associativity .right, word.length + 2)
    | word => .error (.unknownAssociativity word)
  | _ => .error .unclosedAssociativity

/-- Reads one lexeme off a text that begins with `c`, neither a blank nor the start of a comment. -/
def scan (c : Char) (cs : List Char) : Scan :=
  match c with
  | '<' => scanReference cs
  | '"' => literal cs
  | '\'' => literal cs
  | '/' => scanPatternWithFlags cs
  | ':' =>
    match cs with
    | ':' :: '=' :: _ => .ok (.define, 3)
    | _ => .error .expectedDefine
  | '|' => .ok (.pipe, 1)
  | '(' => .ok (.openParen, 1)
  | ')' => .ok (.closeParen, 1)
  | '?' => .ok (.question, 1)
  | '*' => .ok (.star, 1)
  | '+' => scanPlus cs
  | '=' => scanEquals cs
  | c => .error (.unexpectedCharacter c)
where
  /-- Reads a literal that `c` opens. -/
  literal (cs : List Char) : Scan :=
    match scanLiteral c cs with
    | some (text, n) => .ok (.literal (String.ofList text), n + 1)
    | none => .error .unterminatedLiteral

/-- The lexemes of a text of which the first character is at `place`. The fuel counts characters;
every round takes at least one. -/
def lexemesFrom : Nat → Location → List Char → Except GrammarError (List Lexeme × Location)
  | 0, place, _ => .ok ([], place)
  | _ + 1, place, [] => .ok ([], place)
  | fuel + 1, place, c :: cs =>
    if isBlank c then lexemesFrom fuel (advance place c) cs
    else if c = '#' then
      let comment := cs.takeWhile (· != '\n')
      lexemesFrom fuel (advanceAll place (c :: comment)) (cs.drop comment.length)
    else
      match scan c cs with
      | .error fault => .error (.malformed fault place)
      | .ok (kind, n) => do
        let (lexemes, stop) ← lexemesFrom fuel (advanceAll place ((c :: cs).take n)) ((c :: cs).drop n)
        .ok (⟨kind, place⟩ :: lexemes, stop)

/-- The lexemes of grammar text, and the place of its end. -/
def lexemes (text : String) : Except GrammarError (List Lexeme × Location) :=
  let cs := text.toList
  lexemesFrom (cs.length + 1) ⟨1, 1⟩ cs

end Notation

end ParseForest
