import AvsEntropy.Bin.Code
import AvsEntropy.Bin.Tree
import AvsEntropy.Bits.ByteCursor
import AvsEntropy.Bits.Input
import AvsEntropy.Bits.Tape
import AvsEntropy.Coefficient.Block
import AvsEntropy.Coefficient.Scan
import AvsEntropy.Context.Basic
import AvsEntropy.Context.Table
import AvsEntropy.Element.Basic
import AvsEntropy.Element.Plane
import AvsEntropy.Failure
import AvsEntropy.Macroblock.CodedBlocks
import AvsEntropy.Macroblock.Modes
import AvsEntropy.Macroblock.Motion
import AvsEntropy.Notice
import AvsEntropy.Query
import AvsEntropy.Range.Decoder
import AvsEntropy.Range.Registers
import AvsEntropy.Session
import AvsEntropy.Proofs.Bin.Codes
import AvsEntropy.Proofs.Bin.Requests
import AvsEntropy.Proofs.Bin.Transcript
import AvsEntropy.Proofs.Bits.Numbers
import AvsEntropy.Proofs.Bits.Taking
import AvsEntropy.Proofs.Coefficient.Binarization
import AvsEntropy.Proofs.Coefficient.Requests
import AvsEntropy.Proofs.Coefficient.Scan
import AvsEntropy.Proofs.Coefficient.Transcript
import AvsEntropy.Proofs.Context.Bounds
import AvsEntropy.Proofs.Element.Ownership
import AvsEntropy.Proofs.Failure
import AvsEntropy.Proofs.Macroblock.Binarization
import AvsEntropy.Proofs.Macroblock.Requests
import AvsEntropy.Proofs.Query.Binarization
import AvsEntropy.Proofs.Query.Requests
import AvsEntropy.Proofs.Range.Decisions
import AvsEntropy.Proofs.Range.ExactInterval
import AvsEntropy.Proofs.Range.Renewal
import AvsEntropy.Proofs.Session.Safety
import AvsEntropy.Proofs.Range.Containment
import AvsEntropy.Proofs.Range.Accounting
import AvsEntropy.Proofs.Bin.Recording
import AvsEntropy.Proofs.Range.Encoding
import AvsEntropy.Proofs.Session.History
import AvsEntropy.Proofs.Range.Depth
import AvsEntropy.Proofs.Range.Supply
import AvsEntropy.Proofs.Range.Exhaustion
import AvsEntropy.Proofs.Bits.Extension
import AvsEntropy.Proofs.Range.Truncation
import AvsEntropy.Proofs.Bin.Comparison
import AvsEntropy.Proofs.Session.Truncation
import AvsEntropy.Proofs.Session.Replay
import AvsEntropy.Proofs.Bin.Watching
import AvsEntropy.Proofs.Coefficient.Roles
import AvsEntropy.Proofs.Query.Flags
import AvsEntropy.Proofs.Query.Isolation
import AvsEntropy.Proofs.Coefficient.Selection
import AvsEntropy.Proofs.Coefficient.Progress
import AvsEntropy.Proofs.Coefficient.Outcome
import AvsEntropy.Proofs.Bits.Cursor
import AvsEntropy.Proofs.Range.Narrowing
import AvsEntropy.Proofs.Session.Opening
import AvsEntropy.Proofs.Macroblock.Neighborhood
import AvsEntropy.Proofs.Context.Leaning
import AvsEntropy.Proofs.Context.Adaptation
