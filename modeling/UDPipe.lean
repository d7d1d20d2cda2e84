import UDPipe.CommentLaws
import UDPipe.MiscLaws
import UDPipe.NamedValuesLaws
import UDPipe.LinkRuns
import UDPipe.Conllu.Termination
import UDPipe.Conllu.Heads
import UDPipe.Conllu.Conversion
import UDPipe.Conllu.Blocks
import UDPipe.LineFormats.Written
import UDPipe.Parsito.ProjectiveOracle
import UDPipe.Parsito.DynamicOptimal
import UDPipe.Parsito.Components
import UDPipe.Parsito.BeamParse
import UDPipe.Joint.Preserves
import UDPipe.Tokenizer.GruRuns
import UDPipe.Tokenizer.Ranges
import UDPipe.Tokenizer.Reconstruct
import UDPipe.Morphodita.Decoding
import UDPipe.Morphodita.PersistentLookup
import UDPipe.Morphodita.OptimizedScores
import UDPipe.Evaluator.AlignmentRuns
import UDPipe.Evaluator.InvisibleTokens
import UDPipe.Evaluator.Legible
import UDPipe.PackingLaws
import UDPipe.Joint.Documents
import UDPipe.Loader.Safety
import UDPipe.Joint.Optimal
import UDPipe.Parsito.InterestingTransitions
import UDPipe.Morphodita.DecoderScores
import UDPipe.Morphodita.SuffixEntries
import UDPipe.Morphodita.Guessing
import UDPipe.Evaluator.SelfAlignment
import UDPipe.Evaluator.AbsoluteHeads
import UDPipe.Evaluator.F1
import UDPipe.EpeWriter
import UDPipe.MatxinWriter
import UDPipe.Tokenizer.TextComment
import UDPipe.Tokenizer.PresegmentedLines
import UDPipe.Tokenizer.SplitterRules
import UDPipe.Tokenizer.MultiwordTrainer
import UDPipe.Morphodita.SpecialForms
import UDPipe.Morphodita.PrefixGuessing
import UDPipe.Morphodita.PerceptronTrainer
import UDPipe.Morphodita.GuesserTrainer
import UDPipe.Library.SortedSuffixes
import UDPipe.Tokenizer.SuffixArray
import UDPipe.Parsito.NeuralNetwork
import UDPipe.Library.Ring
import UDPipe.Morphodita.ConlluFeatures
import UDPipe.Morphodita.TagFilters
import UDPipe.Library.MarkedWalks
import UDPipe.Library.Layout
import UDPipe.Morphodita.PersistentStores
import UDPipe.Morphodita.Derivator
import UDPipe.Library.CountedSlots
import UDPipe.Morphodita.DerivatorEncoding
import UDPipe.Morphodita.DerivatorEntries
import UDPipe.Morphodita.DerivatorLinks
import UDPipe.Morphodita.DerivatorRoundTrip
import UDPipe.Tokenizer.TrainedOutcomes
import UDPipe.Morphodita.PerceptronTagger
import UDPipe.Morphodita.DictionaryLines
import UDPipe.Parsito.GreedyParse
