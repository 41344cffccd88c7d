import CryptoLocker.Lib.Chunks
import CryptoLocker.Lib.Conduit
import CryptoLocker.Lib.EraseLoop
import CryptoLocker.Lib.Fcfs
import CryptoLocker.Lib.Heap
import CryptoLocker.Lib.Interleave
import CryptoLocker.Lib.Masks
import CryptoLocker.Lib.Outputs
import CryptoLocker.Lib.Registers
import CryptoLocker.Lib.Rows
import CryptoLocker.Lib.Runs
import CryptoLocker.Lib.Segments
import CryptoLocker.Server.Allocated
import CryptoLocker.Server.Bounds
import CryptoLocker.Server.Calls
import CryptoLocker.Server.Commute
import CryptoLocker.Server.Descriptors
import CryptoLocker.Server.Effects
import CryptoLocker.Server.Failures
import CryptoLocker.Server.Finality
import CryptoLocker.Server.History
import CryptoLocker.Server.Isolation
import CryptoLocker.Server.Operations
import CryptoLocker.Server.Replies
import CryptoLocker.Server.Roster
import CryptoLocker.Server.Safety
import CryptoLocker.Server.Segments
import CryptoLocker.Client.Encryption
import CryptoLocker.Client.KeyPair
import CryptoLocker.Client.Message
import CryptoLocker.Client.OneShot
import CryptoLocker.Client.Polls
import CryptoLocker.Client.RoundTrip
import CryptoLocker.Client.Script
import CryptoLocker.Client.Serial
import CryptoLocker.Client.Traces
import CryptoLocker.Locker.Blinks
import CryptoLocker.Locker.Clock
import CryptoLocker.Locker.Flush
import CryptoLocker.Locker.Handlers
import CryptoLocker.Locker.Join
import CryptoLocker.Locker.Listener
import CryptoLocker.Locker.Modes
import CryptoLocker.Locker.Multi
import CryptoLocker.Locker.Scanner
import CryptoLocker.Locker.Sockets
import CryptoLocker.Locker.Status
import CryptoLocker.Locker.Subnets
import CryptoLocker.Locker.Udp
