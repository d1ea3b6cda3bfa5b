import ParseForest.Main
import ParseForest.Parser.Batch
import ParseForest.Proofs.Automaton.Actions
import ParseForest.Proofs.Grammar.Emptiness
import ParseForest.Proofs.Automaton.Canonical
import ParseForest.Proofs.Parser.Outcome
import ParseForest.Proofs.Forest.Yield
import ParseForest.Proofs.Parser.Placement
import ParseForest.Proofs.Parser.Recognition
import ParseForest.Proofs.Forest.Collapsing
import ParseForest.Proofs.Forest.Kept
import ParseForest.Proofs.Forest.Enumerating
import ParseForest.Proofs.Forest.Shapes
import ParseForest.Proofs.Parser.Acyclic
import ParseForest.Proofs.Parser.Answer
import ParseForest.Proofs.Parser.Once
import ParseForest.Proofs.Parser.Trees
import ParseForest.Proofs.Forest.Flattening
import ParseForest.Proofs.Forest.Grouping
import ParseForest.Proofs.Parser.Conventional
import ParseForest.Proofs.Parser.Expectation
import ParseForest.Proofs.Parser.Failure
import ParseForest.Proofs.Parser.Greedy
import ParseForest.Proofs.Parser.Machine
import ParseForest.Proofs.Parser.Safety
import ParseForest.Proofs.Lexer.Matching
import ParseForest.Proofs.Lexer.Munch
import ParseForest.Proofs.Snapshot
import ParseForest.Proofs.Notation.Meaning
import ParseForest.Proofs.Notation.Subset
import ParseForest.Proofs.Parser.Limit
import ParseForest.Proofs.Parser.Ownership
import ParseForest.Proofs.Parser.Sharing
import ParseForest.Proofs.Forest.Linking
import ParseForest.Proofs.Forest.Normal
import ParseForest.Proofs.Parser.Normal
import ParseForest.Proofs.Parser.Indexing
import ParseForest.Proofs.Forest.Cascading
import ParseForest.Proofs.Forest.Preserving
import ParseForest.Proofs.Forest.Settling
import ParseForest.Proofs.Forest.Unfolding
import ParseForest.Proofs.Forest.Longest
import ParseForest.Proofs.Parser.Ambiguity
import ParseForest.Proofs.Parser.Candidates
import ParseForest.Proofs.Parser.Frozen
import ParseForest.Proofs.Grammar.Careful
import ParseForest.Proofs.Grammar.Annotations
import ParseForest.Proofs.Notation.Accepting
import ParseForest.Proofs.Notation.RoundTrip
import ParseForest.Proofs.Forest.Truncating
import ParseForest.Proofs.Text.Context
import ParseForest.Proofs.Automaton.Lookahead
