import ParseForest.Text.Age
import ParseForest.Text.Script
import ParseForest.Text.Segment

/-!
# Sets of characters by name

A set is named by a property that its members have, or by a property and its value. Names are
compared loosely: case, blanks, underscores and dashes do not count, nor does an `is` in front.
-/

namespace ParseForest

/-- A name in lower case and without separators. The prefix `is` is dropped, unless `c` alone is
left: `isc` is a name by itself. -/
def looseName (name : String) : String :=
  let isPrefixed (a b : Char) : Bool := a.toLower == 'i' && b.toLower == 's'
  let plain (cs : List Char) : List Char :=
    (cs.filter fun c => c.toNat < 128 && c != ' ' && c != '_' && c != '-').map Char.toLower
  match name.toList with
  | a :: b :: rest =>
    if isPrefixed a b then
      let rest := plain rest
      String.ofList (if rest = ['c'] then ['i', 's', 'c'] else rest)
    else String.ofList (plain (a :: b :: rest))
  | cs => String.ofList (plain cs)

/-- The members of a general category, or of one of three sets that are no categories. -/
def categoryOrAny? (name : String) : Option CharSet :=
  match name with
  | "any" => some .full
  | "assigned" => some CharSet.assigned
  | "ascii" => some (.range 0 127)
  | _ => category? name

/-- The set of a name: that of a property, a general category or a script. -/
def CharSet.named? (name : String) : Option CharSet :=
  let name := looseName name
  property? name <|> categoryOrAny? name <|> script? name

/-- The set of a property and its value. -/
def CharSet.valued? (property value : String) : Option CharSet :=
  let value := looseName value
  match looseName property with
  | "gc" | "generalcategory" => categoryOrAny? value
  | "sc" | "script" => script? value
  | "scx" | "scriptextensions" => extendedScript? value
  | "age" => age? value
  | "gcb" | "graphemeclusterbreak" => graphemeBreak? value
  | "wb" | "wordbreak" => wordBreak? value
  | "sb" | "sentencebreak" => sentenceBreak? value
  | _ => none

end ParseForest
