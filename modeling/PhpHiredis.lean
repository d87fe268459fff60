import PhpHiredis.Delivery
import PhpHiredis.BrokenReply
import PhpHiredis.Commands
import PhpHiredis.Pipelines
import PhpHiredis.ExecReplies
import PhpHiredis.Deferral
import PhpHiredis.Lifecycle
import PhpHiredis.TypeSafety
import PhpHiredis.Zipping
import PhpHiredis.Arguments
import PhpHiredis.Blocks
import PhpHiredis.Refusals
import PhpHiredis.HookRuns
import PhpHiredis.Traversal
import PhpHiredis.ObjectReader
import PhpHiredis.ObjectRuns
import PhpHiredis.Receiving
import PhpHiredis.AsyncReplies
import PhpHiredis.Adapters
import PhpHiredis.Strings
import PhpHiredis.Templates
import PhpHiredis.Blocking
import PhpHiredis.BlockingRuns
import PhpHiredis.Connecting
import PhpHiredis.Lockstep
import PhpHiredis.Splitting
