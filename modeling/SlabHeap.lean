import SlabHeap.Main
import SlabHeap.Proofs.Abreast
import SlabHeap.Proofs.Accounts
import SlabHeap.Proofs.Action
import SlabHeap.Proofs.Agreement
import SlabHeap.Proofs.Allocation
import SlabHeap.Proofs.Alterations
import SlabHeap.Proofs.Budgets
import SlabHeap.Proofs.Building
import SlabHeap.Proofs.Builds
import SlabHeap.Proofs.Canonical
import SlabHeap.Proofs.Capacity
import SlabHeap.Proofs.Carving
import SlabHeap.Proofs.Churning
import SlabHeap.Proofs.Clearance
import SlabHeap.Proofs.Collection
import SlabHeap.Proofs.Concurrence
import SlabHeap.Proofs.Conduct
import SlabHeap.Proofs.Conservation
import SlabHeap.Proofs.Conservative
import SlabHeap.Proofs.Consistency
import SlabHeap.Proofs.Copies
import SlabHeap.Proofs.Corruption
import SlabHeap.Proofs.Counterparts
import SlabHeap.Proofs.Creation
import SlabHeap.Proofs.Damage
import SlabHeap.Proofs.Deliveries
import SlabHeap.Proofs.Departures
import SlabHeap.Proofs.Depiction
import SlabHeap.Proofs.Doubling
import SlabHeap.Proofs.Driver
import SlabHeap.Proofs.Duplication
import SlabHeap.Proofs.Enduring
import SlabHeap.Proofs.Ephemerons
import SlabHeap.Proofs.Estates
import SlabHeap.Proofs.Evictions
import SlabHeap.Proofs.Exactness
import SlabHeap.Proofs.Extension
import SlabHeap.Proofs.Finalizers
import SlabHeap.Proofs.FirstFit
import SlabHeap.Proofs.Flags
import SlabHeap.Proofs.Fleets
import SlabHeap.Proofs.Fork
import SlabHeap.Proofs.Forking
import SlabHeap.Proofs.Founding
import SlabHeap.Proofs.FrameChain
import SlabHeap.Proofs.Framing
import SlabHeap.Proofs.Grants
import SlabHeap.Proofs.Graphs
import SlabHeap.Proofs.Grounded
import SlabHeap.Proofs.Helpers
import SlabHeap.Proofs.Histories
import SlabHeap.Proofs.Hoards
import SlabHeap.Proofs.Isolation
import SlabHeap.Proofs.Jobs
import SlabHeap.Proofs.Lasting
import SlabHeap.Proofs.Ledgers
import SlabHeap.Proofs.Lockstep
import SlabHeap.Proofs.Lookup
import SlabHeap.Proofs.Making
import SlabHeap.Proofs.Marking
import SlabHeap.Proofs.Mirror
import SlabHeap.Proofs.Operations
import SlabHeap.Proofs.Orders
import SlabHeap.Proofs.Overwrite
import SlabHeap.Proofs.Ownership
import SlabHeap.Proofs.PairedEdits
import SlabHeap.Proofs.PairedFrames
import SlabHeap.Proofs.PairedOperations
import SlabHeap.Proofs.PairedOrders
import SlabHeap.Proofs.PairedReads
import SlabHeap.Proofs.Parallel
import SlabHeap.Proofs.Provisions
import SlabHeap.Proofs.Reach
import SlabHeap.Proofs.Renewal
import SlabHeap.Proofs.Repetition
import SlabHeap.Proofs.Replacement
import SlabHeap.Proofs.Reports
import SlabHeap.Proofs.Requests
import SlabHeap.Proofs.Resting
import SlabHeap.Proofs.Rings
import SlabHeap.Proofs.RootStacks
import SlabHeap.Proofs.RoundTrip
import SlabHeap.Proofs.Salvage
import SlabHeap.Proofs.SavedFrames
import SlabHeap.Proofs.Savings
import SlabHeap.Proofs.Scenes
import SlabHeap.Proofs.Sealing
import SlabHeap.Proofs.SelfContained
import SlabHeap.Proofs.Separation
import SlabHeap.Proofs.Sessions
import SlabHeap.Proofs.Settling
import SlabHeap.Proofs.Snapshots
import SlabHeap.Proofs.Spelling
import SlabHeap.Proofs.Standard
import SlabHeap.Proofs.Staying
import SlabHeap.Proofs.Stocks
import SlabHeap.Proofs.Storage
import SlabHeap.Proofs.Store
import SlabHeap.Proofs.Successive
import SlabHeap.Proofs.Supplies
import SlabHeap.Proofs.Survey
import SlabHeap.Proofs.Sweep
import SlabHeap.Proofs.Tandem
import SlabHeap.Proofs.Tenants
import SlabHeap.Proofs.Traceable
import SlabHeap.Proofs.Traces
import SlabHeap.Proofs.Undisturbed
import SlabHeap.Proofs.Updates
import SlabHeap.Proofs.Visits
import SlabHeap.Proofs.Walk
import SlabHeap.Proofs.Weak
import SlabHeap.Proofs.WeakLaw
import SlabHeap.Proofs.WorkList
import SlabHeap.Proofs.Writing
import SlabHeap.World.Names
