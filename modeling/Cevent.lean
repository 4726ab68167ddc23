import Cevent.Io.Reassembly
import Cevent.Ring.Fifo
import Cevent.Io.Dict
import Cevent.Io.Io
import Cevent.Io.Calls
import Cevent.Io.Registry
import Cevent.Io.Push
import Cevent.Io.Lifetime
import Cevent.Io.Sending
import Cevent.Io.Silence
import Cevent.Server.Handlers
import Cevent.Server.Protocol
import Cevent.Library.History
import Cevent.Pool.Machine
import Cevent.Pool.Lives
import Cevent.Pool.Moves
import Cevent.Pool.Places
import Cevent.Pool.Jobs
import Cevent.Pool.Shutdown
import Cevent.Queue.Fifo
import Cevent.Queue.Sleepers
import Cevent.Queue.Wakeups
import Cevent.Queue.ReturnCodes
import Cevent.Ring.Views
import Cevent.Io.Streams
import Cevent.Io.Limits
import Cevent.Io.Pushers
import Cevent.Io.HandOff
import Cevent.Io.Teardown
import Cevent.Io.Ownership
import Cevent.Server.Bookkeeping
import Cevent.Pool.Sleepers
import Cevent.Pool.Creation
import Cevent.Pool.Handles
import Cevent.Pool.Results
import Cevent.Crypt.Aes
import Cevent.Io.Capacity
import Cevent.Server.Conf
import Cevent.Client.Handshake
import Cevent.Io.Fanout
import Cevent.Ring.Arithmetic
import Cevent.Io.Activation
import Cevent.Ring.Copies
import Cevent.Io.Events
import Cevent.Chat.Message
import Cevent.Client.Login
import Cevent.Hash.Table
import Cevent.Hash.Laws
import Cevent.Hash.Rehash
import Cevent.Hash.Operations
import Cevent.Hash.Refines
import Cevent.Hash.Load
import Cevent.Hash.Ending
import Cevent.Hash.Scan
import Cevent.Hash.ScanRuns
import Cevent.Hash.Iterator
import Cevent.Hash.IteratorCalls
import Cevent.Hash.IteratorRuns
import Cevent.Io.Tables
