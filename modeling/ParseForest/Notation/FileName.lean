import ParseForest.Notation.Reader

/-!
# Forms and file names

The form of a grammar file is told by the extension of its name.
-/

namespace ParseForest

/-- The last component of a path; single dots and slashes at the end do not count, and the parent
directory is not a name. -/
def fileName? (path : String) : Option String :=
  match ((path.splitOn "/").filter fun part => part ≠ "" ∧ part ≠ ".").getLast? with
  | some ".." => none
  | name? => name?

/-- What follows the last dot of a name, unless that dot is its first character. -/
def extension? (name : String) : Option String :=
  match (name.splitOn ".").reverse with
  | ext :: stem :: more => if more = [] ∧ stem = "" then none else some ext
  | _ => none

/-- Files with the extension `bnf`, in any case, are plain; all others may have groups and
modifiers. -/
def GrammarForm.ofPath (path : String) : GrammarForm :=
  match (fileName? path).bind extension? with
  | some ext => if ext.map Char.toLower = "bnf" then .bnf else .ebnf
  | none => .ebnf

end ParseForest
