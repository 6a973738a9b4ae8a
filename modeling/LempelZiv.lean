import LempelZiv.Block.Description
import LempelZiv.Main
import LempelZiv.Search.Finder
import LempelZiv.Proofs.Bytes
import LempelZiv.Proofs.Copy
import LempelZiv.Proofs.Lengths
import LempelZiv.Proofs.Parse
import LempelZiv.Proofs.Decoding
import LempelZiv.Proofs.BlockLanguage
import LempelZiv.Proofs.ChainSearch
import LempelZiv.Proofs.Covering
import LempelZiv.Proofs.Cutting
import LempelZiv.Proofs.BlockRoundTrip
import LempelZiv.Proofs.Splicing
import LempelZiv.Proofs.Joining
import LempelZiv.Proofs.ParallelRoundTrip
import LempelZiv.Proofs.Digest
import LempelZiv.Proofs.Streams
import LempelZiv.Proofs.Header
import LempelZiv.Proofs.Records
import LempelZiv.Proofs.Gathering
import LempelZiv.Proofs.Writing
import LempelZiv.Proofs.Reading
import LempelZiv.Proofs.Draining
import LempelZiv.Proofs.FrameRoundTrip
import LempelZiv.Proofs.FarHistory
import LempelZiv.Proofs.LinkedBlocks
import LempelZiv.Proofs.Accepting
import LempelZiv.Proofs.FrameLanguage
import LempelZiv.Proofs.Requests
import LempelZiv.Proofs.Uses
import LempelZiv.Proofs.InMemory
import LempelZiv.Proofs.Parts
import LempelZiv.Proofs.TornEnds
import LempelZiv.Proofs.Recovering
import LempelZiv.Proofs.LawfulBlocks
import LempelZiv.Proofs.LawfulChunks
import LempelZiv.Proofs.Pieces
import LempelZiv.Proofs.WrittenFrame
import LempelZiv.Proofs.Alongside
import LempelZiv.Proofs.Outcomes
import LempelZiv.Proofs.BufferedReads
import LempelZiv.Proofs.SinkViews
import LempelZiv.Proofs.Windows
import LempelZiv.Proofs.PackedSize
import LempelZiv.Proofs.Scheduling
import LempelZiv.Proofs.SharedCompressor
import LempelZiv.Proofs.BlockLimits
import LempelZiv.Proofs.Failures
import LempelZiv.Proofs.ReaderBounds
import LempelZiv.Proofs.FileStore
import LempelZiv.Proofs.CommandSteps
import LempelZiv.Proofs.PackedFiles
import LempelZiv.Proofs.ChainSteps
import LempelZiv.Proofs.FinderRuns
import LempelZiv.Proofs.BackwardLinks
import LempelZiv.Proofs.Forgetting
import LempelZiv.Proofs.PlainSearch
import LempelZiv.Proofs.ChainedPositions
import LempelZiv.Proofs.SearchSessions
import LempelZiv.Proofs.DeeperSearch
import LempelZiv.Proofs.BufferGrowth
import LempelZiv.Proofs.OutputLimit
import LempelZiv.Proofs.NearHistory
import LempelZiv.Proofs.KeptOutput
import LempelZiv.Proofs.Relinking
import LempelZiv.Proofs.TruncatedBlocks
import LempelZiv.Proofs.HeaderInverse
import LempelZiv.Proofs.TruncatedFrames
import LempelZiv.Proofs.DroppedWriter
import LempelZiv.Proofs.InPlace
import LempelZiv.Proofs.SplicedBlocks
import LempelZiv.Proofs.WordComparison
