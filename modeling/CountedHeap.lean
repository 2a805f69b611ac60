import CountedHeap.Binary64
import CountedHeap.Binary64.Decimal
import CountedHeap.Boundary
import CountedHeap.Bytes
import CountedHeap.Candidate
import CountedHeap.Collector
import CountedHeap.CountWord
import CountedHeap.Draws
import CountedHeap.Fault
import CountedHeap.Heap
import CountedHeap.Heap.Handles
import CountedHeap.Heap.RawBlock
import CountedHeap.Heap.Registry
import CountedHeap.Heap.Release
import CountedHeap.Heap.Slots
import CountedHeap.Machine
import CountedHeap.Object
import CountedHeap.ObjectStats
import CountedHeap.Pass
import CountedHeap.Pool
import CountedHeap.Pool.Stats
import CountedHeap.Proofs.Accounts
import CountedHeap.Proofs.ActiveHandles
import CountedHeap.Proofs.Acts
import CountedHeap.Proofs.Aftermath
import CountedHeap.Proofs.Apart
import CountedHeap.Proofs.Books
import CountedHeap.Proofs.Cascade
import CountedHeap.Proofs.Changes
import CountedHeap.Proofs.Claiming
import CountedHeap.Proofs.Client
import CountedHeap.Proofs.Completeness
import CountedHeap.Proofs.Conservation
import CountedHeap.Proofs.CountWord
import CountedHeap.Proofs.Coverage
import CountedHeap.Proofs.Decimals
import CountedHeap.Proofs.Destruction
import CountedHeap.Proofs.Disposal
import CountedHeap.Proofs.Disturbed
import CountedHeap.Proofs.Draws
import CountedHeap.Proofs.Edits
import CountedHeap.Proofs.Ending
import CountedHeap.Proofs.Environment
import CountedHeap.Proofs.Estate
import CountedHeap.Proofs.Exactness
import CountedHeap.Proofs.Felling
import CountedHeap.Proofs.Finalizers
import CountedHeap.Proofs.ForeignCalls
import CountedHeap.Proofs.Fractions
import CountedHeap.Proofs.Gentle
import CountedHeap.Proofs.Handles
import CountedHeap.Proofs.HighWater
import CountedHeap.Proofs.Judging
import CountedHeap.Proofs.LateRelease
import CountedHeap.Proofs.LateRetain
import CountedHeap.Proofs.LateUpgrade
import CountedHeap.Proofs.Ledger
import CountedHeap.Proofs.Lending
import CountedHeap.Proofs.Level
import CountedHeap.Proofs.Marks
import CountedHeap.Proofs.Misuse
import CountedHeap.Proofs.NoDangling
import CountedHeap.Proofs.Operations
import CountedHeap.Proofs.Payload
import CountedHeap.Proofs.Probing
import CountedHeap.Proofs.Reach
import CountedHeap.Proofs.References
import CountedHeap.Proofs.Refusals
import CountedHeap.Proofs.Reporting
import CountedHeap.Proofs.Safety
import CountedHeap.Proofs.Schedule
import CountedHeap.Proofs.Searching
import CountedHeap.Proofs.SecondPass
import CountedHeap.Proofs.Shedding
import CountedHeap.Proofs.Shelves
import CountedHeap.Proofs.Spelling
import CountedHeap.Proofs.Stages
import CountedHeap.Proofs.Steady
import CountedHeap.Proofs.Steps
import CountedHeap.Proofs.Stock
import CountedHeap.Proofs.Tally
import CountedHeap.Proofs.Tidy
import CountedHeap.Proofs.Transparency
import CountedHeap.Proofs.Trial.Components
import CountedHeap.Proofs.Trial.Cutoff
import CountedHeap.Proofs.Trial.Exact
import CountedHeap.Proofs.Trial.Garbage
import CountedHeap.Proofs.Trial.Greatest
import CountedHeap.Proofs.Trial.Isolation
import CountedHeap.Proofs.Trial.Overshoot
import CountedHeap.Proofs.Trial.Search
import CountedHeap.Proofs.Trial.Soundness
import CountedHeap.Proofs.Trial.Sweep
import CountedHeap.Proofs.Trial.Trace
import CountedHeap.Proofs.Turns
import CountedHeap.Proofs.Twins
import CountedHeap.Proofs.Watching
import CountedHeap.Settings
import CountedHeap.Settings.Environment
import CountedHeap.SizeClass
import CountedHeap.Text.Blank
import CountedHeap.Text.Numeral
import CountedHeap.Tracer
import CountedHeap.Trial.Verdict
import CountedHeap.Trial.Walk
import CountedHeap.WeakTable
