import SchedArchive.Lib.Outcome
import SchedArchive.Lib.Ordered
import SchedArchive.Lib.FiniteMap
import SchedArchive.Lib.LockTable
import SchedArchive.Lib.Latch
import SchedArchive.Lib.Poll
import SchedArchive.Common.Machine
import SchedArchive.Common.Transaction
import SchedArchive.Common.TipProgram
import SchedArchive.Common.IntervalStream
import SchedArchive.Scheduler.Ledger
import SchedArchive.Scheduler.World
import SchedArchive.Scheduler.Responses
import SchedArchive.Scheduler.Ingest
import SchedArchive.Scheduler.Dispatch
import SchedArchive.Scheduler.Run
import SchedArchive.Scheduler.Session
import SchedArchive.Batch.Scheduler
import SchedArchive.Auction.Engine
import SchedArchive.Auction.Scheduler
import SchedArchive.Custody.Move
import SchedArchive.Custody.Owned
import SchedArchive.Custody.Invariant
import SchedArchive.Custody.Rules
import SchedArchive.Custody.Responses
import SchedArchive.Custody.Ingest
import SchedArchive.Custody.Dispatch
import SchedArchive.Custody.Run
import SchedArchive.Custody.Locks
import SchedArchive.Batch.Locks
import SchedArchive.Batch.Laws
import SchedArchive.Auction.Laws
import SchedArchive.Auction.Locks
import SchedArchive.Auction.Depths
import SchedArchive.Custody.Sent
import SchedArchive.Theorems.Runs
import SchedArchive.Theorems.Custody
import SchedArchive.Theorems.Locks
import SchedArchive.Theorems.Execute
import SchedArchive.Theorems.Termination
import SchedArchive.Theorems.Depths
import SchedArchive.Auction.Attempts
import SchedArchive.Theorems.Attempts
import SchedArchive.Custody.Frame
import SchedArchive.Custody.Backlog
import SchedArchive.Theorems.Capacity
import SchedArchive.Custody.Answers
import SchedArchive.Theorems.Decisions
import SchedArchive.Theorems.Unprocessed
import SchedArchive.Theorems.Commute
import SchedArchive.Theorems.Polls
import SchedArchive.Theorems.TipConfig
import SchedArchive.Theorems.Intake
import SchedArchive.Theorems.Tariff
import SchedArchive.Auction.Batches
import SchedArchive.Theorems.Batches
import SchedArchive.Theorems.Ingest
import SchedArchive.Theorems.Pacing
import SchedArchive.Theorems.Recheck
import SchedArchive.Theorems.LockManager
import SchedArchive.Theorems.Budgets
import SchedArchive.Theorems.Packing
import SchedArchive.Theorems.Scoring
import SchedArchive.Theorems.Rewards
import SchedArchive.Theorems.Decay
import SchedArchive.Theorems.Wakeups
import SchedArchive.Theorems.Scores
import SchedArchive.Custody.Stages
import SchedArchive.Custody.Places
import SchedArchive.Theorems.Lifecycle
import SchedArchive.Theorems.Checks
import SchedArchive.Lib.Channel
import SchedArchive.Threads.Jito
import SchedArchive.Threads.System
import SchedArchive.Theorems.Threads
import SchedArchive.Theorems.Shutdown
import SchedArchive.Lib.RingBuffer
import SchedArchive.Lib.Smoothing
import SchedArchive.Theorems.Prices
import SchedArchive.Auction.Market
import SchedArchive.Theorems.Market
import SchedArchive.Custody.Books
import SchedArchive.Theorems.Statistics
import SchedArchive.Theorems.Panics.Table
import SchedArchive.Theorems.Panics.Ingest
import SchedArchive.Theorems.Panics.Dispatch
import SchedArchive.Theorems.Panics
import SchedArchive.Custody.Bundles
import SchedArchive.Theorems.Bundles
