import Cccp.Lib.Balance
import Cccp.Lib.Base64
import Cccp.Lib.BufWriter
import Cccp.Lib.Bytes
import Cccp.Lib.Collections
import Cccp.Lib.Counting
import Cccp.Lib.Directories
import Cccp.Lib.FileSystem
import Cccp.Lib.Grouping
import Cccp.Lib.Keystream
import Cccp.Lib.Lossy
import Cccp.Lib.Machine
import Cccp.Lib.OsPath
import Cccp.Lib.ParentsFirst
import Cccp.Lib.PathNormal
import Cccp.Lib.Progress
import Cccp.Lib.Protobuf
import Cccp.Lib.Regex
import Cccp.Lib.Reorder
import Cccp.Lib.Segments
import Cccp.Lib.Shell
import Cccp.Lib.Tiling
import Cccp.Lib.Utf8
import Cccp.Basic
import Cccp.Items
import Cccp.Cipher
import Cccp.Stats
import Cccp.Options.IoSpec
import Cccp.Options.RoundTrip
import Cccp.Options.Command
import Cccp.Options.CryptoText
import Cccp.Options.Ports
import Cccp.Options.Setup
import Cccp.Sender.Reader
import Cccp.Sender.Fills
import Cccp.Sender.Flow
import Cccp.Sender.Permits
import Cccp.Sender.Jobs
import Cccp.Sender.Rate
import Cccp.Sender.Keystreams
import Cccp.Sender.Manifest
import Cccp.Receiver.Writer
import Cccp.Receiver.Confirmed
import Cccp.Receiver.ConfirmedOnce
import Cccp.Receiver.Files
import Cccp.Receiver.Task
import Cccp.Receiver.Destination
import Cccp.Receiver.Outcome
import Cccp.Receiver.Target
import Cccp.Receiver.Queues
import Cccp.Receiver.Directories
import Cccp.Receiver.Containment
import Cccp.Receiver.Datagrams
import Cccp.Reassembly
import Cccp.Announced
import Cccp.Resume
import Cccp.Leftover
import Cccp.ParentDirectories
import Cccp.Crawl
import Cccp.ManifestPaths
import Cccp.Confirmations
import Cccp.ReportStream
import Cccp.Control.Model
import Cccp.Control.Moves
import Cccp.Control.Handshake
import Cccp.Control.Attempts
import Cccp.Control.Completion
import Cccp.Control.Retry
import Cccp.Control.Scheduling
import Cccp.Control.Wire
import Cccp.Control.HalfDuplex
import Cccp.Control.Conversation
import Cccp.Control.PerFile
import Cccp.Control.Delivered
import Cccp.Control.Sessions
import Cccp.Control.Space
import Cccp.Control.Started
import Cccp.Control.Smooth
import Cccp.Control.Parked
import Cccp.ResumeBounds
import Cccp.KeystreamEnd
import Cccp.MalformedKeys
import Cccp.Transfer.Model
import Cccp.Transfer.Delivery
import Cccp.Transfer.Attempts
import Cccp.Transfer.Retries
import Cccp.Transfer.Finished
import Cccp.Transfer.Integrity
import Cccp.Transfer.Supplied
import Cccp.Transfer.Progress
import Cccp.Whole
import Cccp.Whole.DataPath
import Cccp.Whole.Completion
