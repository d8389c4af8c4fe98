import Caret.Automaton.Basic
import Caret.Automaton.Builder
import Caret.Completion.Candidates
import Caret.Completion.FirstSets
import Caret.Completion.Suggest
import Caret.Completion.Walk
import Caret.Document.Basic
import Caret.Document.Snapshot
import Caret.Interval.Basic
import Caret.Interval.Search
import Caret.Interval.Set
import Caret.Line.Check
import Caret.Line.Counter
import Caret.Line.Edit
import Caret.Line.Index
import Caret.Line.Reshape
import Caret.Line.Rotate
import Caret.Line.Slots
import Caret.Line.Tree
import Caret.Serial.Automaton
import Caret.Serial.Completion
import Caret.Serial.Json
import Caret.Serial.Text
import Caret.Text.Digest
import Caret.Text.Newline
import Caret.Text.Position
import Caret.Text.Utf8
import Caret.Text.Word
import Caret.Text.WordChar
import Caret.Token.Basic
import Caret.Token.Dialect
import Caret.Token.Lexer
import Caret.Token.Pattern
import Caret.Token.Tokenize
import Caret.Token.Vocabulary
import Caret.Token.Window
import Caret.Proofs.Text.Lines
import Caret.Proofs.Text.Splitting
import Caret.Proofs.Text.Bytes
import Caret.Proofs.Line.Balance
import Caret.Proofs.Line.Content
import Caret.Proofs.Line.Replace
import Caret.Proofs.Line.Run
import Caret.Proofs.Line.Queries
import Caret.Proofs.Line.Locality
import Caret.Proofs.Line.Check
import Caret.Proofs.Line.Machine
import Caret.Proofs.Line.Counting
import Caret.Proofs.Line.Exactness
import Caret.Proofs.Document.Plain
import Caret.Proofs.Document.Journal
import Caret.Proofs.Document.History
import Caret.Proofs.Interval.Arithmetic
import Caret.Proofs.Interval.Members
import Caret.Proofs.Interval.Complement
import Caret.Proofs.Automaton.Built
import Caret.Proofs.Completion.Paths
import Caret.Proofs.Completion.FirstSets
import Caret.Proofs.Completion.Entries
import Caret.Proofs.Completion.Trace
import Caret.Proofs.Completion.Steps
import Caret.Proofs.Completion.Interleaving
import Caret.Proofs.Completion.Bounds
import Caret.Proofs.Completion.Candidates
import Caret.Proofs.Completion.Accumulation
import Caret.Proofs.Completion.Soundness
import Caret.Proofs.Completion.Coverage
import Caret.Proofs.Completion.Recognition
import Caret.Proofs.Completion.Following
import Caret.Proofs.Completion.Forced
import Caret.Proofs.Completion.Cache
import Caret.Proofs.Completion.Ignored
import Caret.Proofs.Completion.Pruning
import Caret.Proofs.Completion.EmptyRules
import Caret.Proofs.Completion.Preferred
import Caret.Proofs.Document.Positions
import Caret.Proofs.Document.Ranged
import Caret.Proofs.Token.Placement
import Caret.Proofs.Token.Window
import Caret.Proofs.Serial.RoundTrip
import Caret.Proofs.Automaton.Building
import Caret.Proofs.Interval.Recipes
import Caret.Proofs.Document.Reading
import Caret.Proofs.Document.Legal
import Caret.Proofs.Interval.Uniqueness
import Caret.Proofs.Document.Words
import Caret.Proofs.Interval.CheckedComplement
import Caret.Proofs.Token.Vocabulary
