import SignalRegistry.Arena
import SignalRegistry.Block
import SignalRegistry.Block.Typed
import SignalRegistry.Config
import SignalRegistry.Config.Binary
import SignalRegistry.Config.Document
import SignalRegistry.Config.Varint
import SignalRegistry.ElementType
import SignalRegistry.Error
import SignalRegistry.Event
import SignalRegistry.Event.Queue
import SignalRegistry.Hub
import SignalRegistry.Index
import SignalRegistry.Journal
import SignalRegistry.Json.Lexeme
import SignalRegistry.Json.Record
import SignalRegistry.Json.Tree
import SignalRegistry.Layout
import SignalRegistry.Memory
import SignalRegistry.Name
import SignalRegistry.Network
import SignalRegistry.Numeric.Binary
import SignalRegistry.Numeric.Reading
import SignalRegistry.Numeric.Shortest
import SignalRegistry.Path
import SignalRegistry.Registry
import SignalRegistry.Remark
import SignalRegistry.Shortcuts
import SignalRegistry.Signal
import SignalRegistry.Site
import SignalRegistry.Text.Blank
import SignalRegistry.Text.Digits
import SignalRegistry.Text.Utf8
import SignalRegistry.Value
import SignalRegistry.Proofs.Arena
import SignalRegistry.Proofs.Entering
import SignalRegistry.Proofs.Index
import SignalRegistry.Proofs.Shortcuts
import SignalRegistry.Proofs.Network
import SignalRegistry.Proofs.Registry
import SignalRegistry.Proofs.Hub
import SignalRegistry.Proofs.Resolution
import SignalRegistry.Proofs.Run
import SignalRegistry.Proofs.Announcement
import SignalRegistry.Proofs.Wakeup
import SignalRegistry.Proofs.Path
import SignalRegistry.Proofs.Addressing
import SignalRegistry.Proofs.Reports
import SignalRegistry.Proofs.Isolation
import SignalRegistry.Proofs.Links
import SignalRegistry.Proofs.DeviceBalance
import SignalRegistry.Proofs.Disconnection
import SignalRegistry.Proofs.Fit
import SignalRegistry.Proofs.Refinement
import SignalRegistry.Proofs.IndexRuns
import SignalRegistry.Proofs.ShortcutRuns
import SignalRegistry.Proofs.Binding
import SignalRegistry.Proofs.Deletion
import SignalRegistry.Proofs.Usability
import SignalRegistry.Proofs.SignalOrder
import SignalRegistry.Proofs.Leftover
import SignalRegistry.Proofs.Stability
import SignalRegistry.Proofs.PathValue
import SignalRegistry.Proofs.Extension
import SignalRegistry.Proofs.Omission
import SignalRegistry.Proofs.ArrivalOrder
import SignalRegistry.Proofs.Listing
import SignalRegistry.Proofs.SignalTable
import SignalRegistry.Proofs.Confinement
import SignalRegistry.Proofs.Delivery
import SignalRegistry.Proofs.RegistryRuns
import SignalRegistry.Proofs.Registration
import SignalRegistry.Proofs.Repetition
import SignalRegistry.Proofs.PathRoundTrip
import SignalRegistry.Proofs.DeviceNumber
import SignalRegistry.Proofs.Utf8
import SignalRegistry.Proofs.Packing
import SignalRegistry.Proofs.Elements
import SignalRegistry.Proofs.Access
import SignalRegistry.Proofs.WriteRead
import SignalRegistry.Proofs.TextSignal
import SignalRegistry.Proofs.LayoutRules
import SignalRegistry.Proofs.Separation
import SignalRegistry.Proofs.QueueRuns
import SignalRegistry.Proofs.StoredConfig
import SignalRegistry.Proofs.HandleRuns
