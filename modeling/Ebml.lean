import Ebml.Vint.Buffer
import Ebml.HeaderWindow.Buffer
import Ebml.Source.Push
import Ebml.Source.Stream
import Ebml.Reader
import Ebml.Scanner.Progress
import Ebml.Reader.Drain
import Ebml.Reader.Apply
import Ebml.Visitor.Frames
import Ebml.Tree.LiveStream
import Ebml.Listing
import Ebml.Recycler
import Ebml.Command.Arguments
import Ebml.Main
import Ebml.Proofs.Vint.Field
import Ebml.Proofs.Source.Handing
import Ebml.Proofs.Source.Streaming
import Ebml.Proofs.Source.Yielding
import Ebml.Proofs.Source.Failing
import Ebml.Proofs.Source.Calling
import Ebml.Proofs.Source.Conserving
import Ebml.Proofs.Source.Bounding
import Ebml.Proofs.HeaderWindow.Reusing
import Ebml.Proofs.Scanner.Fetching
import Ebml.Proofs.Scanner.Judging
import Ebml.Proofs.Scanner.Transition
import Ebml.Proofs.Scanner.Runs
import Ebml.Proofs.Scanner.Session
import Ebml.Proofs.Scanner.Nesting
import Ebml.Proofs.Scanner.Ending
import Ebml.Proofs.Scanner.Bounds
import Ebml.Proofs.Scanner.Containing
import Ebml.Proofs.Scanner.Stalling
import Ebml.Proofs.Document.Pieces
import Ebml.Proofs.Scanner.Ledger
import Ebml.Proofs.Document.Transcript
import Ebml.Proofs.Document.Shifting
import Ebml.Proofs.Scanner.Forecast
import Ebml.Proofs.Scanner.Bytewise
import Ebml.Proofs.Scanner.Halting
import Ebml.Proofs.Scanner.Calming
import Ebml.Proofs.Scanner.Serving
import Ebml.Proofs.Scanner.Feeding
import Ebml.Proofs.Scanner.Pausing
import Ebml.Proofs.Scanner.Resuming
import Ebml.Proofs.Scanner.Returning
import Ebml.Proofs.Reader.Collecting
import Ebml.Proofs.Reader.Mirroring
import Ebml.Proofs.Reader.Tracking
import Ebml.Proofs.Reader.Queueing
import Ebml.Proofs.Reader.History
import Ebml.Proofs.Reader.Persisting
import Ebml.Proofs.Reader.Draining
import Ebml.Proofs.Reader.Chunking
import Ebml.Proofs.Reader.Offering
import Ebml.Proofs.Reader.Settling
import Ebml.Proofs.Reader.Padding
import Ebml.Proofs.Reader.Projecting
import Ebml.Proofs.Reader.Truncating
import Ebml.Proofs.Reader.Mixing
import Ebml.Proofs.Reader.Pinpointing
import Ebml.Proofs.Reader.Recovering
import Ebml.Proofs.Reader.Unfailing
import Ebml.Proofs.Reader.Serving
import Ebml.Proofs.Reader.Pulling
import Ebml.Proofs.Reader.Accounting
import Ebml.Proofs.Reader.Asking
import Ebml.Proofs.Reader.Waiting
import Ebml.Proofs.Reader.Losing
import Ebml.Proofs.Reader.Choosing
import Ebml.Proofs.Reader.Failing
import Ebml.Proofs.Scanner.Refusing
import Ebml.Proofs.Reader.Refusing
import Ebml.Proofs.Visitor.Sharing
import Ebml.Proofs.Visitor.Framing
import Ebml.Proofs.Vint.Codec
import Ebml.Proofs.Vint.Canonical
import Ebml.Proofs.Vint.Deciding
import Ebml.Proofs.Vint.Widths
import Ebml.Proofs.Vint.Buffering
import Ebml.Proofs.Bytes.Signed
import Ebml.Proofs.Frame.Grammar
import Ebml.Proofs.Value.Integers
import Ebml.Proofs.Value.Text
import Ebml.Proofs.Tree.Traversal
import Ebml.Proofs.Document.Closing
import Ebml.Proofs.Tree.RoundTrip
import Ebml.Proofs.Tree.Leaves
import Ebml.Proofs.Command.Arriving
import Ebml.Proofs.Command.Counting
import Ebml.Proofs.Command.Agreeing
import Ebml.Proofs.Command.Cutting
import Ebml.Proofs.Command.Limiting
import Ebml.Proofs.Command.Tallying
