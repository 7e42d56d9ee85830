import ModuleIR.Arena.Context
import ModuleIR.Arena.Handle
import ModuleIR.Arena.Integers
import ModuleIR.Arena.NameTable
import ModuleIR.Arena.Record
import ModuleIR.Arena.Scope
import ModuleIR.Arena.Table
import ModuleIR.Arena.Violation
import ModuleIR.Attribute.AddressSpace
import ModuleIR.Attribute.CallingConv
import ModuleIR.Attribute.Linkage
import ModuleIR.Attribute.OpenFlags
import ModuleIR.Attribute.ThreadLocalMode
import ModuleIR.Build.Accessors
import ModuleIR.Build.Blocks
import ModuleIR.Build.Constants
import ModuleIR.Build.Cursor
import ModuleIR.Build.Event
import ModuleIR.Build.Globals
import ModuleIR.Build.Instructions
import ModuleIR.Build.Modules
import ModuleIR.Build.Naming
import ModuleIR.Build.Outcome
import ModuleIR.Build.Types
import ModuleIR.Listing.Modules
import ModuleIR.Listing.Piece
import ModuleIR.Listing.Values
import ModuleIR.Main
import ModuleIR.Pipeline.Outlet
import ModuleIR.Pipeline.Outputs
import ModuleIR.Pipeline.Pass
import ModuleIR.Program.Arguments
import ModuleIR.Program.Config
import ModuleIR.Program.Run
import ModuleIR.Program.Sample
import ModuleIR.Proofs.Arena.Anchoring
import ModuleIR.Proofs.Arena.Changes
import ModuleIR.Proofs.Arena.ElementWalk
import ModuleIR.Proofs.Arena.Growth
import ModuleIR.Proofs.Arena.Reads
import ModuleIR.Proofs.Arena.References
import ModuleIR.Proofs.Arena.TypeTrees
import ModuleIR.Proofs.Arena.WellFormed
import ModuleIR.Proofs.Consistency.Checks
import ModuleIR.Proofs.Consistency.Listings
import ModuleIR.Proofs.Consistency.Readings
import ModuleIR.Proofs.Consistency.Reads
import ModuleIR.Proofs.Consistency.Steps
import ModuleIR.Proofs.Consistency.Verdicts
import ModuleIR.Proofs.Interleaving.Accessors
import ModuleIR.Proofs.Interleaving.Bodies
import ModuleIR.Proofs.Interleaving.Changes
import ModuleIR.Proofs.Interleaving.Checks
import ModuleIR.Proofs.Interleaving.Entities
import ModuleIR.Proofs.Interleaving.Erasing
import ModuleIR.Proofs.Interleaving.Following
import ModuleIR.Proofs.Interleaving.Judgements
import ModuleIR.Proofs.Interleaving.Mirroring
import ModuleIR.Proofs.Interleaving.Naming
import ModuleIR.Proofs.Interleaving.Pairing
import ModuleIR.Proofs.Interleaving.Requests
import ModuleIR.Proofs.Interleaving.Sessions
import ModuleIR.Proofs.Interleaving.Sharing
import ModuleIR.Proofs.Interleaving.Texts
import ModuleIR.Proofs.Interleaving.Tracking
import ModuleIR.Proofs.Listing.Agreement
import ModuleIR.Proofs.Listing.Bases
import ModuleIR.Proofs.Listing.Faults
import ModuleIR.Proofs.Listing.Lines
import ModuleIR.Proofs.Listing.Operands
import ModuleIR.Proofs.Listing.Recursions
import ModuleIR.Proofs.Listing.Resolution
import ModuleIR.Proofs.Listing.TypeTexts
import ModuleIR.Proofs.Names.Entering
import ModuleIR.Proofs.Names.Fresh
import ModuleIR.Proofs.Names.Insertion
import ModuleIR.Proofs.Names.Keeping
import ModuleIR.Proofs.Names.Lookups
import ModuleIR.Proofs.Names.Mirror
import ModuleIR.Proofs.Names.Renaming
import ModuleIR.Proofs.Names.Search
import ModuleIR.Proofs.Names.Settling
import ModuleIR.Proofs.Names.Steps
import ModuleIR.Proofs.Pipeline.Delivery
import ModuleIR.Proofs.Pipeline.Filling
import ModuleIR.Proofs.Pipeline.Rounds
import ModuleIR.Proofs.Pipeline.Turns
import ModuleIR.Proofs.Program.Output
import ModuleIR.Proofs.Program.Samples
import ModuleIR.Proofs.Steps.Belongings
import ModuleIR.Proofs.Steps.Blocks
import ModuleIR.Proofs.Steps.Building
import ModuleIR.Proofs.Steps.Constants
import ModuleIR.Proofs.Steps.Elementary
import ModuleIR.Proofs.Steps.Entities
import ModuleIR.Proofs.Steps.Erasure
import ModuleIR.Proofs.Steps.Instructions
import ModuleIR.Proofs.Steps.Interning
import ModuleIR.Proofs.Steps.Naming
import ModuleIR.Proofs.Steps.Purging
import ModuleIR.Proofs.Steps.Results
import ModuleIR.Proofs.Steps.Survivors
import ModuleIR.Proofs.Steps.Tables
import ModuleIR.Proofs.Steps.Tombstones
import ModuleIR.Proofs.Steps.Uniqued
import ModuleIR.Proofs.Storage.Appending
import ModuleIR.Proofs.Storage.Paths
import ModuleIR.Proofs.Text.Bytes
import ModuleIR.Proofs.Text.Splitting
import ModuleIR.Proofs.Verify.Acceptance
import ModuleIR.Proofs.Verify.Verdicts
import ModuleIR.Proofs.WideInt.Bits
import ModuleIR.Proofs.WideInt.Conversions
import ModuleIR.Proofs.WideInt.Digits
import ModuleIR.Proofs.WideInt.Literals
import ModuleIR.Proofs.WideInt.Numerals
import ModuleIR.Proofs.WideInt.Overflow
import ModuleIR.Proofs.WideInt.Products
import ModuleIR.Proofs.WideInt.Readers
import ModuleIR.Proofs.WideInt.Words
import ModuleIR.Proofs.World.ConstantIdentity
import ModuleIR.Proofs.World.Dangling
import ModuleIR.Proofs.World.Detached
import ModuleIR.Proofs.World.Discipline
import ModuleIR.Proofs.World.Effects
import ModuleIR.Proofs.World.ElementPointers
import ModuleIR.Proofs.World.ElementTyping
import ModuleIR.Proofs.World.Forest
import ModuleIR.Proofs.World.Incumbents
import ModuleIR.Proofs.World.Inherent
import ModuleIR.Proofs.World.InitializerChecks
import ModuleIR.Proofs.World.Initializers
import ModuleIR.Proofs.World.IntegerLiterals
import ModuleIR.Proofs.World.Isolation
import ModuleIR.Proofs.World.Lines
import ModuleIR.Proofs.World.Naming
import ModuleIR.Proofs.World.Operands
import ModuleIR.Proofs.World.Ownership
import ModuleIR.Proofs.World.Permanence
import ModuleIR.Proofs.World.Pipelines
import ModuleIR.Proofs.World.Placement
import ModuleIR.Proofs.World.Printing
import ModuleIR.Proofs.World.Promises
import ModuleIR.Proofs.World.Reachable
import ModuleIR.Proofs.World.Request
import ModuleIR.Proofs.World.Scoping
import ModuleIR.Proofs.World.Sessions
import ModuleIR.Proofs.World.Standalone
import ModuleIR.Proofs.World.Strings
import ModuleIR.Proofs.World.Termination
import ModuleIR.Proofs.World.TypeIdentity
import ModuleIR.Proofs.World.TypeTexts
import ModuleIR.Proofs.World.Typing
import ModuleIR.Proofs.World.Uniquing
import ModuleIR.Proofs.World.Unresolved
import ModuleIR.Proofs.World.ValueTypes
import ModuleIR.Proofs.World.Verification
import ModuleIR.Proofs.World.WellTyped
import ModuleIR.Storage.Files
import ModuleIR.Storage.Stream
import ModuleIR.Storage.System
import ModuleIR.Text.Blank
import ModuleIR.Text.Escape
import ModuleIR.Text.Json
import ModuleIR.Verify.Defects
import ModuleIR.Verify.Report
import ModuleIR.WideInt.Basic
import ModuleIR.WideInt.Literal
import ModuleIR.WideInt.Numeral
import ModuleIR.Proofs.Storage.LifeCycle
