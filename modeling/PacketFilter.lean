import PacketFilter.Log.Store
import PacketFilter.Proofs.Text.Words
import PacketFilter.Proofs.Grammar.Greedy
import PacketFilter.Proofs.Grammar.Ports
import PacketFilter.Proofs.Grammar.Clause
import PacketFilter.Proofs.Grammar.Recognition
import PacketFilter.Proofs.Grammar.Header
import PacketFilter.Proofs.Grammar.Stock
import PacketFilter.Proofs.Rule.Evaluation
import PacketFilter.Proofs.Rule.RoundTrip
import PacketFilter.Proofs.Rule.Editing
import PacketFilter.Proofs.Store.Reload
import PacketFilter.Proofs.Store.Mirror
import PacketFilter.Proofs.Rule.Placement
import PacketFilter.Proofs.Store.Edited
import PacketFilter.Proofs.Store.Reading
import PacketFilter.Proofs.Grammar.Typed
import PacketFilter.Proofs.Rule.Context
import PacketFilter.Proofs.Store.Loading
import PacketFilter.Proofs.Grammar.FlagGroup
import PacketFilter.Proofs.Grammar.Arrangement
import PacketFilter.Proofs.Grammar.Nesting
import PacketFilter.Proofs.Rule.Reordering
import PacketFilter.Proofs.Grammar.Conservation
import PacketFilter.Proofs.Grammar.Extension
import PacketFilter.Proofs.Grammar.Suggestions
import PacketFilter.Proofs.Store.Replay
import PacketFilter.Proofs.Capture.Appending
import PacketFilter.Proofs.Grammar.Steps
import PacketFilter.Proofs.Rule.Binding
import PacketFilter.Proofs.Grammar.Selection
import PacketFilter.Proofs.Packet.Fields
import PacketFilter.Proofs.Text.Literals
import PacketFilter.Proofs.Text.Readers
import PacketFilter.Proofs.Packet.Addresses
import PacketFilter.Proofs.Packet.Rewriting
import PacketFilter.Proofs.Rule.Suffix
import PacketFilter.Proofs.Grammar.Unclaimed
import PacketFilter.Proofs.Store.Decisions
import PacketFilter.Proofs.Rule.Rematching
import PacketFilter.Proofs.Log.Changes
import PacketFilter.Proofs.Log.Replay
