import EplLang.Main
import EplLang.Proofs.Discipline
import EplLang.Proofs.Discipline.Expression
import EplLang.Proofs.Discipline.Statement
import EplLang.Proofs.Moment
import EplLang.Proofs.Scope
import EplLang.Proofs.Holding
import EplLang.Proofs.Sharing
import EplLang.Proofs.Entries
import EplLang.Proofs.Walk
import EplLang.Proofs.Walk.Expression
import EplLang.Proofs.Walk.Statement
import EplLang.Proofs.Parsed
import EplLang.Proofs.Soundness
import EplLang.Proofs.Flow
import EplLang.Proofs.Signal
import EplLang.Proofs.Reading
import EplLang.Proofs.Reading.Members
import EplLang.Proofs.Precedence
import EplLang.Proofs.Printing
import EplLang.Proofs.RoundTrip.Expression
import EplLang.Proofs.RoundTrip
import EplLang.Proofs.Trail
import EplLang.Proofs.Balance
import EplLang.Proofs.Contents
import EplLang.Proofs.Sparing
import EplLang.Proofs.Apart
import EplLang.Proofs.Passing
import EplLang.Proofs.Import
import EplLang.Proofs.Receiver
import EplLang.Proofs.Reach
import EplLang.Proofs.Rebinding
import EplLang.Proofs.Lines
import EplLang.Proofs.Lexing
import EplLang.Proofs.Place
import EplLang.Proofs.Spelling
import EplLang.Proofs.NumberText
import EplLang.Proofs.Rendered
import EplLang.Proofs.Rendered.Value
import EplLang.Proofs.Update
import EplLang.Proofs.Rounds
import EplLang.Proofs.Exact
import EplLang.Proofs.Counting
import EplLang.Proofs.Visiting
import EplLang.Proofs.Interpolation
import EplLang.Proofs.LineByLine
import EplLang.Proofs.Fuel
import EplLang.Proofs.Unrolling
import EplLang.Proofs.Following
import EplLang.Proofs.Compound
import EplLang.Proofs.Comparing
import EplLang.Proofs.Nearest
import EplLang.Proofs.Characters
import EplLang.Proofs.Indexing
import EplLang.Proofs.Numbering
import EplLang.Proofs.ErrorLines
import EplLang.Proofs.ShortestDecimal
import EplLang.Proofs.ReadBack
import EplLang.Proofs.Exporting
import EplLang.Proofs.Insertion
import EplLang.Proofs.Words
import EplLang.Proofs.Builtins
import EplLang.Proofs.Drawing
import EplLang.Proofs.Identifier
import EplLang.Proofs.Purity
import EplLang.Proofs.Copying
import EplLang.Proofs.Progress
