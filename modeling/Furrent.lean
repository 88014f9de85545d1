import Furrent.Framework.Numeral
import Furrent.Framework.OrderedMap
import Furrent.Framework.Cpp
import Furrent.Framework.Pattern
import Furrent.Framework.Program
import Furrent.Framework.Loop
import Furrent.Framework.Tiling
import Furrent.Framework.Assembly
import Furrent.Framework.Writes
import Furrent.Framework.System
import Furrent.Framework.Tokens
import Furrent.Framework.Ledger
import Furrent.Framework.Object
import Furrent.Framework.Bits
import Furrent.Framework.Array
import Furrent.Framework.Sha1
import Furrent.Framework.Path
import Furrent.Framework.FileTree
import Furrent.Framework.Shape
import Furrent.Bencode.Value
import Furrent.Bencode.Parser
import Furrent.Bencode.Guards
import Furrent.Bencode.Grammar
import Furrent.Bencode.Soundness
import Furrent.Bencode.Completeness
import Furrent.Bencode.RoundTrip
import Furrent.Bencode.Shortcuts
import Furrent.Bencode.Progress
import Furrent.Bencode.Stops
import Furrent.Bencode.Reports
import Furrent.Bencode.Losses
import Furrent.Bencode.Access
import Furrent.Platform.Io
import Furrent.Platform.Directories
import Furrent.Policy.Queue
import Furrent.Policy.Discipline
import Furrent.Mt.SharedQueue
import Furrent.Mt.Wakeup
import Furrent.Mt.Conservation
import Furrent.Mt.ThreadGroup
import Furrent.Torrent.Descriptor
import Furrent.Torrent.Pieces
import Furrent.Download.Blocks
import Furrent.Torrent.Coverage
import Furrent.Torrent.Hash
import Furrent.Torrent.Construction
import Furrent.Torrent.Acceptance
import Furrent.Torrent.Overrun
import Furrent.Torrent.Generation
import Furrent.Torrent.Torrent
import Furrent.Torrent.Tracker
import Furrent.Torrent.Responses
import Furrent.Torrent.Announce
import Furrent.Torrent.Address
import Furrent.Download.Message
import Furrent.Download.Codec
import Furrent.Download.Bitfield
import Furrent.Download.BitArray
import Furrent.Download.Downloader
import Furrent.Torrent.SmallSha1
import Furrent.Download.Rules
import Furrent.Download.Framing
import Furrent.Download.Connection
import Furrent.Download.Rounds
import Furrent.Download.Calls
import Furrent.Download.Sockets
import Furrent.Download.Discipline
import Furrent.Download.Reassembly
import Furrent.Download.Points
import Furrent.Download.Requests
import Furrent.Download.Containment
import Furrent.Download.Returns
import Furrent.Download.Announced
import Furrent.Download.Representation
import Furrent.Download.Pipeline
import Furrent.Download.Cleanup
import Furrent.Download.Responder
import Furrent.Faker.AliceSeeder
import Furrent.Faker.Seeding
import Furrent.Faker.Conformance
import Furrent.Client.PieceTask
import Furrent.Client.Preparation
import Furrent.Client.Layout
import Furrent.Client.Preservation
import Furrent.Client.Confinement
import Furrent.Client.Paths
import Furrent.Client.Verified
import Furrent.Client.SingleFile
import Furrent.Client.Image
import Furrent.Client.Scheduler
import Furrent.Client.Lifecycle
import Furrent.Client.Loading
import Furrent.Client.Accounting
import Furrent.Client.Changes
import Furrent.Client.Finality
import Furrent.Client.Removal
import Furrent.Client.Lookups
import Furrent.Client.Program
import Furrent.Client.Shutdown
import Furrent.Client.Destruction
import Furrent.Client.Integrity
import Furrent.Client.Completion
import Furrent.Gui.Window
import Furrent.Gui.Rows
import Furrent.Gui.Drawing
