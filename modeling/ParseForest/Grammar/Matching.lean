import ParseForest.Grammar.Basic
import ParseForest.Grammar.Error
import ParseForest.Pattern.Reader
import ParseForest.Token.Basic

/-!
# Terminals and tokens

Which terminals of a grammar a token satisfies: the literal with its text, the pattern of its class,
and every pattern without a class that covers its text. There may be several, and the parser follows
them all. The end of the input satisfies only the terminal of its own.
-/

namespace ParseForest

/-- A terminal in the form in which tokens are tested. -/
inductive TerminalTest
  | text (text : String)
  | className (name : String)
  | pattern (matcher : Matcher)
  /-- No token satisfies it -/
  | never

/-- The tests of the terminals of a grammar, by number. -/
structure TerminalMatcher where
  tests : Array TerminalTest
  eof : TerminalId

namespace TerminalMatcher

/-- The test of a terminal. -/
def test (eof id : TerminalId) : Terminal → Except GrammarError TerminalTest
  | .literal l => .ok (if id = eof ∨ l.text.isEmpty then .never else .text l.text)
  | .pattern p =>
    if id = eof then .ok .never
    else
      match p.className with
      | some name => .ok (.className name)
      | none =>
        match Matcher.ofText? p.anchored with
        | some matcher => .ok (.pattern matcher)
        | none => .error (.invalidPattern ("terminal /" ++ p.pattern ++ "/" ++ p.flags))

/-- The tests of a grammar; its patterns have to read. -/
def ofGrammar (g : Grammar) : Except GrammarError TerminalMatcher := do
  let tests ← g.terminals.toList.zipIdx.mapM fun (t, id) => test g.eof id t
  .ok ⟨tests.toArray, g.eof⟩

/-- Whether a token passes a test. -/
def passes (t : Token) : TerminalTest → Bool
  | .text text => t.text == text
  | .className name => t.className == name
  | .pattern matcher => matcher.isMatch t.text.toList
  | .never => false

/-- The terminals that a token satisfies, in increasing order. -/
def matching (m : TerminalMatcher) (t : Token) : List TerminalId :=
  if t.isEof then [m.eof]
  else (List.range m.tests.size).filter fun id => passes t (m.tests.getD id .never)

end TerminalMatcher

end ParseForest
