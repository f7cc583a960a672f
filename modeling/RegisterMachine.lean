import RegisterMachine.Limits.Json
import RegisterMachine.Prototype.Listing
import RegisterMachine.Proofs.Brokers
import RegisterMachine.Proofs.Contents
import RegisterMachine.Proofs.Exits
import RegisterMachine.Proofs.Scheduler
import RegisterMachine.Run
import RegisterMachine.Proofs.Registers
import RegisterMachine.Proofs.Deaths
import RegisterMachine.Proofs.Traversal
import RegisterMachine.Proofs.RoundTrip
import RegisterMachine.Proofs.Cancellation
import RegisterMachine.Proofs.Yields
import RegisterMachine.Proofs.Depths
import RegisterMachine.Proofs.TailCalls
import RegisterMachine.Proofs.Bounds
import RegisterMachine.Proofs.Locations
import RegisterMachine.Proofs.Askers
import RegisterMachine.Proofs.Payloads
import RegisterMachine.Proofs.Closings
import RegisterMachine.Proofs.CallSites
import RegisterMachine.Proofs.OpenLists
import RegisterMachine.Proofs.Tables
import RegisterMachine.Proofs.Along
import RegisterMachine.Proofs.Segments
import RegisterMachine.Proofs.Resumptions
import RegisterMachine.Proofs.Lifetimes
import RegisterMachine.Proofs.Sharing
import RegisterMachine.Proofs.Concatenations
import RegisterMachine.Proofs.MarkOrder
import RegisterMachine.Proofs.Chains
import RegisterMachine.Proofs.CallChains
import RegisterMachine.Proofs.Comparisons
import RegisterMachine.Proofs.Division
import RegisterMachine.Proofs.Rounds
import RegisterMachine.Proofs.Arrangement
import RegisterMachine.Proofs.Numerals
import RegisterMachine.Proofs.Truncation
import RegisterMachine.Proofs.Words
import RegisterMachine.Proofs.Decimals
import RegisterMachine.Proofs.Bases
import RegisterMachine.Proofs.Positions
import RegisterMachine.Proofs.Listings
import RegisterMachine.Proofs.Constants
import RegisterMachine.Proofs.Keys
import RegisterMachine.Proofs.Representation
import RegisterMachine.Proofs.Installation
import RegisterMachine.Proofs.Growth
