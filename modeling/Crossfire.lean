import Crossfire.Lib.Interleaving
import Crossfire.Lib.FlagWord
import Crossfire.Lib.Packed
import Crossfire.Lib.Lap
import Crossfire.Lib.Fifo
import Crossfire.Lib.Slots
import Crossfire.Lib.Cells
import Crossfire.Lib.Turnstile
import Crossfire.Lib.Tickets
import Crossfire.Lib.Handover
import Crossfire.Lib.Cycle
import Crossfire.Lib.Doorbell
import Crossfire.Lib.Programs
import Crossfire.Waker.State
import Crossfire.Waker.Abandon
import Crossfire.Oneshot.Model
import Crossfire.Oneshot.Ownership
import Crossfire.Oneshot.Delivery
import Crossfire.Oneshot.Wakeup
import Crossfire.WaitGroup.State
import Crossfire.WaitGroup.Model
import Crossfire.WaitGroup.Steps
import Crossfire.WaitGroup.Memory
import Crossfire.WaitGroup.Lifetime
import Crossfire.WaitGroup.Wakeup
import Crossfire.WaitGroup.Inline
import Crossfire.WaitGroup.Counts
import Crossfire.One.Spsc
import Crossfire.One.Mpsc
import Crossfire.One.Mpmc
import Crossfire.ArrayQueue.Token
import Crossfire.ArrayQueue.Len
import Crossfire.ArrayQueue.Spsc
import Crossfire.ArrayQueue.Mpsc
import Crossfire.ArrayQueue.MpscRefines
import Crossfire.ArrayQueue.Redeem
import Crossfire.ArrayQueue.Mpmc
import Crossfire.ArrayQueue.MpmcInvariant
import Crossfire.ArrayQueue.MpmcRefines
import Crossfire.ArrayQueue.Snapshot
import Crossfire.SegQueue.Model
import Crossfire.SegQueue.Positions
import Crossfire.SegQueue.Steps
import Crossfire.SegQueue.Delivery
import Crossfire.SegQueue.Reclaim
import Crossfire.SegQueue.Refines
import Crossfire.SegQueue.Drain
import Crossfire.Flavor.Drop
import Crossfire.Select.Tokens
import Crossfire.Handle.Senders
import Crossfire.Registry.Multi
import Crossfire.Registry.Runs
import Crossfire.Registry.Cancel
import Crossfire.Registry.Fire
import Crossfire.Registry.FireBound
import Crossfire.Select.Registrations
import Crossfire.Select.RoundRobin
import Crossfire.Channel.Model
import Crossfire.Channel.Steps
import Crossfire.Channel.Stranded
import Crossfire.Channel.Plain
import Crossfire.Channel.Roles
import Crossfire.Channel.Handles
import Crossfire.Channel.Disconnect
import Crossfire.Channel.Placed
import Crossfire.Channel.Tokens
import Crossfire.Channel.Single
import Crossfire.Channel.Numbers
import Crossfire.Channel.Rounds
import Crossfire.Channel.Clearing
import Crossfire.Channel.Closing
import Crossfire.Channel.Awake
import Crossfire.Channel.Sends
import Crossfire.Channel.Items
import Crossfire.Channel.ItemSteps
import Crossfire.Channel.Owned
import Crossfire.Multiplex.Model
import Crossfire.Multiplex.Steps
import Crossfire.Multiplex.Bounds
import Crossfire.Multiplex.Weights
import Crossfire.Multiplex.Delivery
import Crossfire.Multiplex.Sleep
import Crossfire.Waiting.Registry
import Crossfire.Waiting.Model
import Crossfire.Waiting.Contracts
import Crossfire.Waiting.Calls
import Crossfire.Waiting.Unreachable
