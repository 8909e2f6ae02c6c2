import Scap.Foundations.Forest
import Scap.Foundations.Transition
import Scap.Index.RoundTrip
import Scap.Walk.Pool
import Scap.Walk.Root
import Scap.Walk.RelPath
import Scap.Walk.Tree
import Scap.Walk.TreeWalk
import Scap.Walk.Rules
import Scap.Index.Build
import Scap.Index.Validate
import Scap.Index.Cache
import Scap.Index.Refinement
import Scap.Index.RacyWindow
import Scap.Foundations.Split
import Scap.Path
import Scap.Url.Input
import Scap.Url.Confinement
import Scap.Clone.Machine
import Scap.Clone.Exclusion
import Scap.Clone.Visibility
import Scap.Foundations.Utf8
import Scap.Config.Backends
import Scap.Config.Agreement
import Scap.Config.Roots
import Scap.Url.NormalForm
import Scap.Url.Spellings
import Scap.Config.Destinations
import Scap.Foundations.Worklist
import Scap.Walk.Flag
import Scap.Walk.Findings
import Scap.Walk.Strategies
import Scap.Walk.Subtree
import Scap.Index.Believed
import Scap.Index.Later
import Scap.Index.Verdicts
import Scap.Index.Rewalk
import Scap.Listing.Naming
import Scap.Listing.Unique
import Scap.Index.PrefixFree
import Scap.Index.Paths
import Scap.Index.Records
import Scap.Index.Runs
import Scap.Index.Stamps
import Scap.Url.Codecommit
import Scap.Clone.Stale
import Scap.Clone.Parallel
import Scap.Index.Checked
import Scap.Index.Partition
import Scap.Foundations.Spans
import Scap.Walk.Arena
import Scap.Foundations.Moves
import Scap.Config.Clean
import Scap.Config.Booleans
import Scap.Config.Memo
import Scap.Walk.Budget
import Scap.Foundations.Sorting
import Scap.Index.Check
import Scap.Index.CacheDir
import Scap.Listing.Command
import Scap.Foundations.FileStore
import Scap.Index.Replace
import Scap.Commands.Catalog
import Scap.Commands.Jobs
import Scap.Commands.Steps
import Scap.Foundations.Interleaving
import Scap.Commands.System
import Scap.Commands.Together
import Scap.Walk.Parking
import Scap.Config.Sources
import Scap.Listing.Queries
import Scap.Commands.Sequence
