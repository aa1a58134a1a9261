import InferenceEngine.Library.Runs
import InferenceEngine.Library.Programs
import InferenceEngine.Library.Windows
import InferenceEngine.Library.Cuts
import InferenceEngine.Domain
import InferenceEngine.Lifecycle
import InferenceEngine.Messages
import InferenceEngine.Redis
import InferenceEngine.Effects
import InferenceEngine.Producer
import InferenceEngine.Consumer
import InferenceEngine.Points
import InferenceEngine.System
import InferenceEngine.Steps
import InferenceEngine.Calls
import InferenceEngine.Coherence
import InferenceEngine.TerminalRows
import InferenceEngine.Exclusion
import InferenceEngine.Retention
import InferenceEngine.Deliverable
import InferenceEngine.Submission
import InferenceEngine.Handlers
import InferenceEngine.Recovery
import InferenceEngine.Pending
import InferenceEngine.Tracking
import InferenceEngine.DeadLetters
import InferenceEngine.Redispatch
import InferenceEngine.InFlight
import InferenceEngine.Custody
import InferenceEngine.JobViews
import InferenceEngine.Attempts
import InferenceEngine.Ledgers
import InferenceEngine.Library.Retries
import InferenceEngine.EndToEnd
import InferenceEngine.Library.Progress
import InferenceEngine.Library.Traces
import InferenceEngine.Completion
import InferenceEngine.Uncut
import InferenceEngine.Alone
import InferenceEngine.Streams
import InferenceEngine.Pointers
import InferenceEngine.Payloads
import InferenceEngine.Library.Credits
import InferenceEngine.Deliveries
import InferenceEngine.Backstop
import InferenceEngine.Verdicts
import InferenceEngine.Batches
import InferenceEngine.Capacity
import InferenceEngine.HandOver
import InferenceEngine.WriteAhead
import InferenceEngine.Artifacts
import InferenceEngine.Codec
import InferenceEngine.Chunking
import InferenceEngine.Coverage
import InferenceEngine.ApiKeys
import InferenceEngine.Pipelines
import InferenceEngine.Buckets
import InferenceEngine.Library.Conditions
import InferenceEngine.Library.Replays
import InferenceEngine.Library.Pools
import InferenceEngine.Engine
import InferenceEngine.CallOrder
import InferenceEngine.Adapters
import InferenceEngine.OwnArtifacts
import InferenceEngine.Admission
import InferenceEngine.PortCalls
import InferenceEngine.Budgets
import InferenceEngine.Lifetimes
import InferenceEngine.Library.LastWrites
import InferenceEngine.Library.Dicts
import InferenceEngine.FakeProviders
import InferenceEngine.Retrieval
import InferenceEngine.Isolation
import InferenceEngine.Reexecution
import InferenceEngine.Grounding
import InferenceEngine.Schema
import InferenceEngine.Redelivery
import InferenceEngine.VectorIndex
import InferenceEngine.Offsets
import InferenceEngine.Library.Countdown
import InferenceEngine.Processes
import InferenceEngine.Draining
import InferenceEngine.Shutdown
import InferenceEngine.HandBack
import InferenceEngine.Histories
import InferenceEngine.Api
import InferenceEngine.Repository
import InferenceEngine.Library.Words
import InferenceEngine.DefaultBundle
import InferenceEngine.ObjectReads
