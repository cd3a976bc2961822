import Sluice.CommandLine.Run
import Sluice.Context
import Sluice.Eval.Action
import Sluice.Eval.Apply
import Sluice.Eval.Error
import Sluice.Eval.Evaluator
import Sluice.Eval.FanOut
import Sluice.Eval.OneShot
import Sluice.Eval.Release
import Sluice.Eval.Select
import Sluice.Eval.Slice
import Sluice.Filter.Cache
import Sluice.Filter.Compiled
import Sluice.Filter.Parser
import Sluice.Json.Parser
import Sluice.Json.Printer
import Sluice.Main
import Sluice.Resolver
import Sluice.Store.ByteStream
import Sluice.Store.Iterator
import Sluice.Store.LazyStream
import Sluice.Store.Link
import Sluice.Value.Json
import Sluice.Proofs.CommandLine.Groups
import Sluice.Proofs.Decimal.Integers
import Sluice.Proofs.Eval.Abreast
import Sluice.Proofs.Eval.Actions
import Sluice.Proofs.Eval.Broadcasting
import Sluice.Proofs.Eval.Cancellation
import Sluice.Proofs.Eval.Composing
import Sluice.Proofs.Eval.Confining
import Sluice.Proofs.Eval.Constructions
import Sluice.Proofs.Eval.Dereferences
import Sluice.Proofs.Eval.Discarding
import Sluice.Proofs.Eval.Distributing
import Sluice.Proofs.Eval.Divergence
import Sluice.Proofs.Eval.Ending
import Sluice.Proofs.Eval.Exhausted
import Sluice.Proofs.Eval.FailedOutput
import Sluice.Proofs.Eval.FailedRuns
import Sluice.Proofs.Eval.Flatness
import Sluice.Proofs.Eval.Folding
import Sluice.Proofs.Eval.Forward
import Sluice.Proofs.Eval.JsonClosure
import Sluice.Proofs.Eval.KeyPaths
import Sluice.Proofs.Eval.LinkChains
import Sluice.Proofs.Eval.Lockstep
import Sluice.Proofs.Eval.Mirroring
import Sluice.Proofs.Eval.OneShots
import Sluice.Proofs.Eval.Pairing
import Sluice.Proofs.Eval.Pervading
import Sluice.Proofs.Eval.Renaming
import Sluice.Proofs.Eval.Requests
import Sluice.Proofs.Eval.Selecting
import Sluice.Proofs.Eval.Sessions
import Sluice.Proofs.Eval.SharedInput
import Sluice.Proofs.Eval.Slicing
import Sluice.Proofs.Eval.Stagewise
import Sluice.Proofs.Eval.Steps
import Sluice.Proofs.Eval.Stopping
import Sluice.Proofs.Eval.Strictness
import Sluice.Proofs.Eval.SuccessfulRuns
import Sluice.Proofs.Eval.Termination
import Sluice.Proofs.Eval.Tracing
import Sluice.Proofs.Eval.Transparency
import Sluice.Proofs.Filter.Caching
import Sluice.Proofs.Filter.Grammar
import Sluice.Proofs.Filter.Height
import Sluice.Proofs.Filter.KeySpellings
import Sluice.Proofs.Filter.Layout
import Sluice.Proofs.Filter.Nesting
import Sluice.Proofs.Filter.Newlines
import Sluice.Proofs.Filter.Places
import Sluice.Proofs.Filter.Precedence
import Sluice.Proofs.Filter.Prefixes
import Sluice.Proofs.Filter.Readings
import Sluice.Proofs.Filter.Recognition
import Sluice.Proofs.Filter.Selectors
import Sluice.Proofs.Filter.Terms
import Sluice.Proofs.Store.ByteReads
import Sluice.Proofs.Store.CleanUp
import Sluice.Proofs.Store.Closing
import Sluice.Proofs.Store.Deliveries
import Sluice.Proofs.Store.Flattening
import Sluice.Proofs.Store.Histories
import Sluice.Proofs.Store.Keeping
import Sluice.Proofs.Store.Promptness
import Sluice.Proofs.Store.Reachability
import Sluice.Proofs.Store.Release
import Sluice.Proofs.Store.Scope
import Sluice.Proofs.Store.Settling
import Sluice.Proofs.Store.Sparing
import Sluice.Proofs.Store.Traversals
import Sluice.Proofs.Value.Cycles
import Sluice.Proofs.Value.Document
import Sluice.Proofs.Value.Kinds
import Sluice.Proofs.Value.RoundTrip
