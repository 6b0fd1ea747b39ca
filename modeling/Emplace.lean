import Emplace.Command
import Emplace.Session
import Emplace.Proofs.Draft.Layout
import Emplace.Proofs.Draft.Transcript
import Emplace.Proofs.Image.Relocation
import Emplace.Proofs.X64.Encoding
import Emplace.Proofs.Image.Placement
import Emplace.Proofs.Listing.Division
import Emplace.Proofs.X64.Carried
import Emplace.Proofs.X64.Storing
import Emplace.Proofs.Region.Lifecycle
import Emplace.Proofs.Region.Loaded
import Emplace.Proofs.Labelled.Program
import Emplace.Proofs.Labelled.Simulation
import Emplace.Proofs.Region.Invocation
import Emplace.Proofs.Stub.Program
import Emplace.Proofs.Stub.Writing
import Emplace.Proofs.Region.History
import Emplace.Proofs.Region.Outcome
import Emplace.Proofs.Image.Pending
import Emplace.Proofs.X64.Permission
import Emplace.Proofs.Region.Interchange
import Emplace.Proofs.Image.Domain
import Emplace.Proofs.Region.Ledger
import Emplace.Proofs.Region.Totals
import Emplace.Proofs.Session.Effect
import Emplace.Proofs.Session.Discretion
import Emplace.Proofs.Session.Interchange
import Emplace.Proofs.Session.Tables
import Emplace.Proofs.Session.Stock
import Emplace.Proofs.Session.Balance
import Emplace.Proofs.Region.Denial
import Emplace.Proofs.Session.Denial
import Emplace.Proofs.Region.Evidence
import Emplace.Proofs.Session.Evidence
import Emplace.Proofs.Image.Order
import Emplace.Proofs.Image.Zeroed
import Emplace.Proofs.Image.Addressing
import Emplace.Proofs.Labelled.Containment
import Emplace.Proofs.Region.Succession
import Emplace.Proofs.Routine.Runs
import Emplace.Proofs.Routine.Creation
import Emplace.Proofs.Framed.Body
import Emplace.Proofs.Framed.Call
import Emplace.Proofs.Command.Greeting
import Emplace.Proofs.Region.Rounding
import Emplace.Proofs.Image.Saturation
