import Datawatch.Calendar.Inverse
import Datawatch.Crypto.Instants
import Datawatch.Segments.CompactRuns
import Datawatch.Segments.ClosedHoursOnce
import Datawatch.Segments.Names
import Datawatch.Segments.Overlaps
import Datawatch.Segments.ContainedExactly
import Datawatch.Segments.Keeps
import Datawatch.Segments.Resume
import Datawatch.Segments.CachedWalks
import Datawatch.Tape.Converges
import Datawatch.Replay.Agrees
import Datawatch.Ledger.Incremental
import Datawatch.Ledger.Isolation
import Datawatch.Ledger.ReachStable
import Datawatch.Ledger.BeyondReach
import Datawatch.Ledger.WalkGathers
import Datawatch.Capture.RestartGap
import Datawatch.Chain.Narrowing
import Datawatch.Chain.DecodesExactly
import Datawatch.Tape.Scaled
import Datawatch.Tape.ViewExact
import Datawatch.Record.FlushOnce
import Datawatch.Hyperliquid.Inside
import Datawatch.Capture.CoverageRuns
import Datawatch.Capture.FillCounts
import Datawatch.Capture.FillWork
import Datawatch.Capture.UnreachingPages
import Datawatch.Capture.SessionLost
import Datawatch.Capture.Handover
import Datawatch.Ledger.BindingsStable
import Datawatch.Signals.CommitOnce
import Datawatch.Capture.WalkBackward
import Datawatch.Capture.WalkForward
import Datawatch.Venues.Symbols
import Datawatch.Broker.Isolation
import Datawatch.Derive.RightCloses
import Datawatch.Capture.LostPayloads
import Datawatch.Retain.Keeps
import Datawatch.Capture.PollRecord
import Datawatch.Tools
import Datawatch.Chain.Standing
import Datawatch.Replay.Compacted
import Datawatch.Segments.ClosedDays
