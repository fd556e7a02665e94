import BrokerWire.Main
import BrokerWire.Rehearsal.Run
import BrokerWire.Proofs.Batching
import BrokerWire.Proofs.Compression
import BrokerWire.Proofs.Corruption
import BrokerWire.Proofs.Cutting
import BrokerWire.Proofs.Frames
import BrokerWire.Proofs.Leaders
import BrokerWire.Proofs.LengthFields
import BrokerWire.Proofs.Names
import BrokerWire.Proofs.Patching
import BrokerWire.Proofs.Portions
import BrokerWire.Proofs.Refusal
import BrokerWire.Proofs.RoundTrip
import BrokerWire.Proofs.Truncation
import BrokerWire.Proofs.Windows
import BrokerWire.Proofs.Link.Backoff
import BrokerWire.Proofs.Link.Delivering
import BrokerWire.Proofs.Link.Disposing
import BrokerWire.Proofs.Link.Sequencing
import BrokerWire.Proofs.Link.Splicing
import BrokerWire.Proofs.Link.Status
import BrokerWire.Proofs.Link.Withdrawing
