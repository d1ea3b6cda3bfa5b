import ParseForest.Parser.Basic

/-!
# Batches

Many texts parsed with one compiled grammar: as a batch, whose results come in the order of its
texts, or as jobs handed to a worker, which gives a ticket for each. The result of a job can be
taken from its ticket once.
-/

namespace ParseForest

/-- Texts to be parsed, each with a name for its result. -/
structure Batch where
  sources : List (String × String)
deriving DecidableEq

namespace Batch

/-- The batch without texts. -/
def empty : Batch := ⟨[]⟩

variable (b : Batch)

/-- Adds a text under a name. -/
def add (id source : String) : Batch := ⟨b.sources ++ [(id, source)]⟩

/-- Number of texts. -/
def length : Nat := b.sources.length

/-- True when there is no text. -/
def isEmpty : Bool := b.sources.isEmpty

end Batch

/-- What came of one text of a batch. -/
structure BatchResult where
  id : String
  forest : Except ParseError Forest

/-- True when there is a forest. -/
def BatchResult.isOk (r : BatchResult) : Bool := r.forest.isOk

namespace Parser

/-- Parses a text when there is no state to keep. -/
def parseSource (p : Parser Unit) (source : String) : Except ParseError Forest := (p.parse source ()).1

/-- Parses the texts of a batch. -/
def parseBatch (p : Parser Unit) (batch : Batch) : List BatchResult :=
  batch.sources.map fun (id, source) => ⟨id, p.parseSource source⟩

end Parser

/-- What a worker gives for a job. -/
structure ParseTicket where
  /-- The result, unless it has been taken -/
  result : Option (Except ParseError Forest)

/-- Takes the result from a ticket. -/
def ParseTicket.take (t : ParseTicket) : Except ParseError Forest × ParseTicket :=
  (t.result.getD (.error (.internal "parse worker stopped")), ⟨none⟩)

/-- Hands jobs to a worker, which does them in their order. -/
def Parser.submitAll (p : Parser Unit) (sources : List String) : List ParseTicket :=
  sources.map fun source => ⟨some (p.parseSource source)⟩

end ParseForest
