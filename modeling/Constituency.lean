import Constituency.Command.Storage
import Constituency.Main
import Constituency.Proofs.Annotation.RoundTrip
import Constituency.Proofs.Chart.Optimal
import Constituency.Proofs.Grammar.Counts
import Constituency.Proofs.Lexicon.Counts
import Constituency.Proofs.Tree.Words
import Constituency.Proofs.Annotation.Shape
import Constituency.Proofs.Annotation.Chain
import Constituency.Proofs.Annotation.Estimate
import Constituency.Proofs.Chart.Licensed
import Constituency.Proofs.Annotation.Assembly
import Constituency.Proofs.Annotation.Recovery
import Constituency.Proofs.Parser.Training
import Constituency.Proofs.Chart.Completeness
import Constituency.Proofs.Parser.Coverage
import Constituency.Proofs.Grammar.Balance
import Constituency.Proofs.Grammar.Order
import Constituency.Proofs.Chart.Order
import Constituency.Proofs.Treebank.Lexemes
import Constituency.Proofs.Treebank.Readers
import Constituency.Proofs.Treebank.Language
import Constituency.Proofs.Treebank.Reading
import Constituency.Proofs.Treebank.Rendering
import Constituency.Proofs.Parser.Sentences
import Constituency.Proofs.Parser.Legality
import Constituency.Proofs.Lexicon.Scores
import Constituency.Proofs.Score.Evaluation
import Constituency.Proofs.Grammar.Representation
import Constituency.Proofs.Chart.Passes
import Constituency.Proofs.Chart.Ties
import Constituency.Proofs.Lexicon.Backoff
import Constituency.Proofs.Grammar.Growth
import Constituency.Proofs.Treebank.Cleaning
import Constituency.Proofs.Score.Constituents
import Constituency.Proofs.Treebank.Stopping
import Constituency.Proofs.Counting.Modes
import Constituency.Proofs.Treebank.Concatenation
import Constituency.Proofs.Parser.Reuse
import Constituency.Proofs.Parser.RightBranching
import Constituency.Proofs.Grammar.Listing
import Constituency.Proofs.Annotation.Splicing
