import Minifier.Host.Memory
import Minifier.Main
import Minifier.Worker.Timeline
import Minifier.Proofs.Backend
import Minifier.Proofs.Batch.Feedback
import Minifier.Proofs.Batch.PerFile
import Minifier.Proofs.CommandLine.Run
import Minifier.Proofs.Config.Format
import Minifier.Proofs.Config.Layers
import Minifier.Proofs.Content.Braces
import Minifier.Proofs.Content.CommentBytes
import Minifier.Proofs.Content.SizeText
import Minifier.Proofs.Files.BatchOutput
import Minifier.Proofs.Files.Beside
import Minifier.Proofs.Json.Caret
import Minifier.Proofs.Json.RoundTrip
import Minifier.Proofs.Mangle.Declarations
import Minifier.Proofs.Mangle.Numeration
import Minifier.Proofs.Mangle.Uses
import Minifier.Proofs.Masking.Unwinding
import Minifier.Proofs.Minify.AttributeValues
import Minifier.Proofs.Minify.CommentRemoval
import Minifier.Proofs.Minify.HashComments
import Minifier.Proofs.Minify.Keyframes
import Minifier.Proofs.Minify.Levels
import Minifier.Proofs.Minify.Lifetimes
import Minifier.Proofs.Minify.RemovedConstructs
import Minifier.Proofs.Minify.LineBreaks
import Minifier.Proofs.Minify.MarkupComments
import Minifier.Proofs.Minify.Operators
import Minifier.Proofs.Minify.PreservedBreaks
import Minifier.Proofs.Minify.QuotedLines
import Minifier.Proofs.Minify.QuotedText
import Minifier.Proofs.Minify.Repetition
import Minifier.Proofs.Minify.Shebang
import Minifier.Proofs.Minify.TagEnds
import Minifier.Proofs.Minify.Words
import Minifier.Proofs.Script.DebugStatements
import Minifier.Proofs.Script.EmptyBodies
import Minifier.Proofs.Target.Command
import Minifier.Proofs.Target.Embedded
import Minifier.Proofs.Target.Verbatim
import Minifier.Proofs.Worker.Answers
import Minifier.Proofs.Worker.CarryOut
import Minifier.Proofs.Worker.Closing
import Minifier.Proofs.Worker.Comments
import Minifier.Proofs.Worker.Idle
import Minifier.Proofs.Worker.LineComments
import Minifier.Proofs.Worker.Outcomes
import Minifier.Proofs.Worker.Pending
import Minifier.Proofs.Watch
