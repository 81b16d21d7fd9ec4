import UtteranceGrammar.Proofs.Command.Endings
import UtteranceGrammar.Proofs.Validation.Circles
import UtteranceGrammar.Main
import UtteranceGrammar.Session
import UtteranceGrammar.Proofs.Generation.Spans
import UtteranceGrammar.Proofs.Generation.Independence
import UtteranceGrammar.Proofs.Source.RoundTrip
import UtteranceGrammar.Proofs.Validation.Findings
import UtteranceGrammar.Proofs.Generation.Kinds
import UtteranceGrammar.Proofs.Expansion.Replacement
import UtteranceGrammar.Proofs.Generation.Extraction
import UtteranceGrammar.Proofs.Source.Lexemes
import UtteranceGrammar.Proofs.Source.Relayout
import UtteranceGrammar.Proofs.Dependency.Sorting
import UtteranceGrammar.Proofs.Dependency.Circuits
import UtteranceGrammar.Proofs.Markup.Matching
import UtteranceGrammar.Proofs.Markup.Nesting
import UtteranceGrammar.Proofs.Expansion.Sequences
import UtteranceGrammar.Proofs.Expansion.Grouping
import UtteranceGrammar.Proofs.Expansion.GivenOrder
import UtteranceGrammar.Proofs.Text.Spacing
import UtteranceGrammar.Proofs.Expansion.Coverage
import UtteranceGrammar.Proofs.Expansion.Outlines
import UtteranceGrammar.Proofs.Generation.Spacing
import UtteranceGrammar.Proofs.Dependency.Repeats
import UtteranceGrammar.Proofs.Validation.Citations
import UtteranceGrammar.Proofs.Markup.Buffer
import UtteranceGrammar.Proofs.Source.Completion
import UtteranceGrammar.Proofs.Source.Faults
import UtteranceGrammar.Proofs.Expansion.Slots
