import ConcurrencyCourse.Lib.Transition
import ConcurrencyCourse.Lib.Threads
import ConcurrencyCourse.Steal.Delivery
import ConcurrencyCourse.Stack.Reclaim
import ConcurrencyCourse.Stack.Packer
import ConcurrencyCourse.MSQueue.Garbage
import ConcurrencyCourse.Strand.Schedule
import ConcurrencyCourse.SharedPtr.Handles
import ConcurrencyCourse.SharedPtr.Register
import ConcurrencyCourse.SharedPtr.Lifo
import ConcurrencyCourse.Lib.Lock
import ConcurrencyCourse.Futures.Parallel
import ConcurrencyCourse.Stdlike.Mutex
import ConcurrencyCourse.Stdlike.CondVar
import ConcurrencyCourse.Fibers.WaitGroup
import ConcurrencyCourse.LockFree.Fifo
import ConcurrencyCourse.LockFree.Size
import ConcurrencyCourse.Coro.Coroutine
import ConcurrencyCourse.Coro.Control
import ConcurrencyCourse.Coro.Simple
import ConcurrencyCourse.SleepFor.Linearity
import ConcurrencyCourse.Fibers.MutexFifo
import ConcurrencyCourse.ThreadPool.Drain
import ConcurrencyCourse.ThreadPool.WaitIdle
import ConcurrencyCourse.Hazard.Guards
import ConcurrencyCourse.Fibers.Linearity
import ConcurrencyCourse.Fibers.Nesting
import ConcurrencyCourse.Dining.Philosopher
import ConcurrencyCourse.Dining.Progress
import ConcurrencyCourse.Cond.WaitGroup
import ConcurrencyCourse.Cond.CyclicBarrier
import ConcurrencyCourse.Cond.BoundedBlockingQueue
import ConcurrencyCourse.Mutex.QueueSpinLock
import ConcurrencyCourse.SharedPtr.Assignment
import ConcurrencyCourse.SharedPtr.Sequential
import ConcurrencyCourse.Fibers.Stranding
import ConcurrencyCourse.Stack.Lifo
import ConcurrencyCourse.Mutex.TicketLock
import ConcurrencyCourse.Cond.Semaphore
import ConcurrencyCourse.ThreadPool.BlockingQueue
import ConcurrencyCourse.Stdlike.Wraparound
import ConcurrencyCourse.ThreadPool.WaitGroup
import ConcurrencyCourse.Steal.Grab
import ConcurrencyCourse.Fibers.Event
import ConcurrencyCourse.Strand.Lifetime
import ConcurrencyCourse.Cond.Storage
import ConcurrencyCourse.Futures.Pipeline
import ConcurrencyCourse.Futures.Chain
import ConcurrencyCourse.Futures.Sequential
import ConcurrencyCourse.Futures.Inherit
import ConcurrencyCourse.Futures.Monad
import ConcurrencyCourse.Lib.Progress
import ConcurrencyCourse.Lib.Fairness
import ConcurrencyCourse.LockFree.Progress
import ConcurrencyCourse.Steal.Progress
import ConcurrencyCourse.Mutex.Starvation
import ConcurrencyCourse.Mutex.SpinLock
import ConcurrencyCourse.Mutex.TrickyLock
import ConcurrencyCourse.Lib.Serial
import ConcurrencyCourse.Mutex.Mutexed
import ConcurrencyCourse.Lib.Tso
import ConcurrencyCourse.Mm.Atomic
import ConcurrencyCourse.Mm.Peterson
import ConcurrencyCourse.Stack.Progress
import ConcurrencyCourse.Futures.Contract
import ConcurrencyCourse.Executors.Manual
import ConcurrencyCourse.Executors.Ref
import ConcurrencyCourse.SharedPtr.Progress
