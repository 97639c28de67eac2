import SpeechDecoder.Main
import SpeechDecoder.Proofs.Session.Reset
import SpeechDecoder.Proofs.Search.Agreement
import SpeechDecoder.Proofs.Search.Realised
import SpeechDecoder.Proofs.Search.WellFormed
import SpeechDecoder.Proofs.Endpointer.Found
import SpeechDecoder.Proofs.Feature.Streaming
import SpeechDecoder.Proofs.Session.Lifecycle
import SpeechDecoder.Proofs.Endpointer.Lockstep
import SpeechDecoder.Proofs.Endpointer.Unbroken
import SpeechDecoder.Proofs.Model.Sizes
import SpeechDecoder.Proofs.Bounds.Runs
import SpeechDecoder.Proofs.ParameterFile
import SpeechDecoder.Proofs.Report.Numbers
import SpeechDecoder.Proofs.Report.Reader
import SpeechDecoder.Proofs.CommandLine.Inputs
import SpeechDecoder.Proofs.CommandLine.Output
import SpeechDecoder.Proofs.CommandLine.Shares
import SpeechDecoder.Proofs.ParameterFile.Damage
import SpeechDecoder.Proofs.Model.PhoneSet
import SpeechDecoder.Proofs.Search.Records
import SpeechDecoder.Proofs.Config.Checked
import SpeechDecoder.Proofs.Language.Backoff
import SpeechDecoder.Proofs.Language.Counts
import SpeechDecoder.Proofs.Bounds.Parts
import SpeechDecoder.Proofs.Config.Layers
import SpeechDecoder.Proofs.Model.Codebooks
import SpeechDecoder.Proofs.Model.Spellings
import SpeechDecoder.Proofs.Search.Selection
import SpeechDecoder.Proofs.Decimal.Rounding
import SpeechDecoder.Proofs.Activity
import SpeechDecoder.Proofs.Search.Together
import SpeechDecoder.Proofs.Feature.Neighbours
import SpeechDecoder.Proofs.Decimal.Products
import SpeechDecoder.Proofs.Feature.Filters
import SpeechDecoder.Proofs.Feature.Noise
