import PcapReplay.Lib.Striping
import PcapReplay.Fs.Capacity
import PcapReplay.Fs.Integrity
import PcapReplay.Sio.Staged
import PcapReplay.Spcap.Confinement
import PcapReplay.Cp.RoundTrip
import PcapReplay.Fs.Persist
import PcapReplay.Fs.Admission
import PcapReplay.Fs.Remount
import PcapReplay.Fs.Durable
import PcapReplay.Fs.NameMap
import PcapReplay.Cp.Outstanding
import PcapReplay.Sio.Extent
import PcapReplay.Cp.Frame
import PcapReplay.Cp.Neighbours
import PcapReplay.Cp.Refused
import PcapReplay.Cp.Usage
import PcapReplay.Lib.Records
import PcapReplay.Spcap.Records
import PcapReplay.Spcap.Readable
import PcapReplay.Spcap.Cuts
import PcapReplay.Lib.Balance
import PcapReplay.Spcap.Counters
import PcapReplay.Spcap.Accounts
import PcapReplay.Spcap.SnapLength
import PcapReplay.Fs.Space
import PcapReplay.Lib.Trace
import PcapReplay.Sio.Attempts
import PcapReplay.Sio.Errors
import PcapReplay.Sio.Submitted
import PcapReplay.Sio.Depth
import PcapReplay.Lib.Strtoul
import PcapReplay.Lib.Tokens
import PcapReplay.Replay.Fields
import PcapReplay.Replay.Options
import PcapReplay.Replay.Bounds
import PcapReplay.Replay.Recorded
import PcapReplay.Replay.Agreement
import PcapReplay.Replay.Lookup
import PcapReplay.Lib.Custody
import PcapReplay.Replay.Runtime
import PcapReplay.Replay.Transmit
import PcapReplay.Replay.Configured
import PcapReplay.Replay.InBounds
import PcapReplay.Replay.Nics
import PcapReplay.Spcap.Cursors
import PcapReplay.Tools.Attach
import PcapReplay.Tools.Contents
import PcapReplay.Tools.Copies
import PcapReplay.Tools.Listing
import PcapReplay.Tools.Progress
import PcapReplay.Lib.Interruption
import PcapReplay.Tools.Histories
import PcapReplay.Lib.Pool
import PcapReplay.Replay.Launch
import PcapReplay.Replay.Links
import PcapReplay.Replay.Pools
import PcapReplay.Lib.Log
import PcapReplay.Spcap.Rotation
import PcapReplay.Tools.Capture
import PcapReplay.Tools.Captures
import PcapReplay.Replay.Startup
import PcapReplay.Lib.Script
import PcapReplay.Lib.Getopt
import PcapReplay.Tools.Options
import PcapReplay.Tools.Commands
