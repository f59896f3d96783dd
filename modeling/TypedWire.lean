import TypedWire.Value.Access
import TypedWire.Value.Equal
import TypedWire.Main
import TypedWire.Number.Word
import TypedWire.Proofs.Message.Atomic
import TypedWire.Proofs.Message.Parsed
import TypedWire.Proofs.Message.Sharing
import TypedWire.Proofs.Number.Minimal
import TypedWire.Proofs.Schema.Leftover
import TypedWire.Proofs.Schema.Reports
import TypedWire.Proofs.Schema.Residue
import TypedWire.Proofs.Session.Copied
import TypedWire.Proofs.Session.Lossless
import TypedWire.Proofs.Session.Quota
import TypedWire.Proofs.Session.Reread
import TypedWire.Proofs.Session.RoundTrip
import TypedWire.Proofs.Session.WellTyped
import TypedWire.Proofs.Value.Progress
import TypedWire.Proofs.Schema.Deeper
import TypedWire.Proofs.Session.Nesting
import TypedWire.Proofs.Value.Meets
import TypedWire.Proofs.Value.Replica
import TypedWire.Proofs.Value.Mismatch
import TypedWire.Proofs.Session.Price
import TypedWire.Proofs.Store.Apart
import TypedWire.Proofs.Session.Rebound
import TypedWire.Proofs.Message.Gathered
import TypedWire.Proofs.Session.Shallow
import TypedWire.Proofs.Value.Number
import TypedWire.Proofs.Text.Quoted
import TypedWire.Proofs.Value.Alike
