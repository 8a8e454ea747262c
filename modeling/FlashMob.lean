import FlashMob.Lib.Runs
import FlashMob.Lib.Tiling
import FlashMob.Lib.Update
import FlashMob.Types
import FlashMob.Config.Numa
import FlashMob.Walker.Stops
import FlashMob.Walker.Room
import FlashMob.Graph.Sockets
import FlashMob.Walk.Stops
import FlashMob.Graph.Lookup
import FlashMob.Lib.Cursor
import FlashMob.Lib.Writes
import FlashMob.Lib.Keyed
import FlashMob.Lib.Xorshift
import FlashMob.Lib.Loops
import FlashMob.Message.Task
import FlashMob.Graph.Hint
import FlashMob.Lib.Indexed
import FlashMob.Lib.Knapsack
import FlashMob.Message.Shuffle
import FlashMob.Partition.Solve
import FlashMob.Partition.Optimal
import FlashMob.Graph.Load
import FlashMob.Graph.Make
import FlashMob.Partition.Dp
import FlashMob.Graph.Groups
import FlashMob.Graph.Deal
import FlashMob.Graph.Balance
import FlashMob.Partition.Agree
import FlashMob.Partition.Shuffled
import FlashMob.Partition.Sizes
import FlashMob.Partition.Plans
import FlashMob.Graph.Rename
import FlashMob.Graph.Sort
import FlashMob.Graph.Loads
import FlashMob.Graph.Layout
import FlashMob.Lib.Buckets
import FlashMob.Graph.Edges
import FlashMob.Graph.Built
import FlashMob.Lib.Search
import FlashMob.Lib.Stdio
import FlashMob.Graph.Bloom
import FlashMob.Graph.Query
import FlashMob.Walk.Accept
import FlashMob.Walk.Message
import FlashMob.Solver.Machine
import FlashMob.Solver.Items
import FlashMob.Solver.Legal
import FlashMob.Solver.Keeps
import FlashMob.Solver.Rounds
import FlashMob.Solver.Stops
import FlashMob.Solver.Walks
import FlashMob.Sampler.Samplers
import FlashMob.Sampler.Random
import FlashMob.Sampler.Direct
import FlashMob.Sampler.Buffer
import FlashMob.Sampler.Queue
import FlashMob.Sampler.Serves
import FlashMob.Sampler.Statistics
import FlashMob.Sampler.Clear
import FlashMob.Sampler.Positions
import FlashMob.Message.Manager
import FlashMob.Message.Sent
import FlashMob.Message.Calls
import FlashMob.Lib.Rounding
import FlashMob.Solver.Estimate
import FlashMob.Solver.Epochs
import FlashMob.Solver.Prepare
import FlashMob.Solver.Memory
import FlashMob.Tools.Io
import FlashMob.Tools.Yahoo
import FlashMob.Tools.Formats
import FlashMob.Tools.Knk
import FlashMob.Solver.Paths
import FlashMob.Solver.Previous
import FlashMob.Graph.Indexed
import FlashMob.Alloc.Counter
import FlashMob.Alloc.Users
import FlashMob.Solver.Asserts
import FlashMob.Benchmark.Catalogue
import FlashMob.Lib.Decimal
import FlashMob.Benchmark.Tasks
import FlashMob.Benchmark.Region
import FlashMob.Benchmark.Once
import FlashMob.Benchmark.Results
import FlashMob.Benchmark.Starts
import FlashMob.Benchmark.Plans
import FlashMob.Program.Sizes
import FlashMob.Program.Main
import FlashMob.Lib.Threads
import FlashMob.Lib.Traces
import FlashMob.Message.Interleaved
import FlashMob.Walk.Holders
import FlashMob.Solver.Interleaved
import FlashMob.Solver.Confluence
import FlashMob.Program.Parallel
import FlashMob.Lib.Remainders
import FlashMob.Lib.Prefetch
import FlashMob.Lib.Rejection
import FlashMob.Sampler.Draws
import FlashMob.Sampler.Counted
import FlashMob.Solver.Counted
import FlashMob.Sampler.Uniform
import FlashMob.Walk.Draws
import FlashMob.Walk.Transitions
import FlashMob.Solver.Record
import FlashMob.Solver.Origins
import FlashMob.Program.Draws
import FlashMob.Program.Transitions
import FlashMob.Walk.Reference
import FlashMob.Walk.Agreement
import FlashMob.Program.Reference
