import FarouKernel.Verified.Exec
import Mathlib.Logic.Function.Basic

/-!
# The thread pool of the server

The work queue of `net/network.c`: the acceptor puts clients into it with
`enqueue_client`, workers take them out in `worker_thread`, and
`cleanup_thread_pool` closes what is left.  The queue is a linked list of
allocated `work_item`s with a head, a tail and a counter.

Every function here is a part of a source function that runs without another
thread in between: one critical section of `queue_mutex` or `conn_mutex`, or
code that touches nothing shared.  A pointer is an address and `NULL` is `0`.
An address that holds no allocated item cannot be read: the code stops there.

Left out are the log lines, the raw socket address of a client, the rate limit
table with its own mutex, and the signals on the condition variables: a thread
may wake up at any time and tests its condition again, so a section that
`wait`s leaves the pool as it was.
-/

namespace FarouKernel.Ports.Net

open Verified

/-- `client_state_t` -/
inductive ClientState where
  | new | active | closing
  deriving DecidableEq, Repr

/-- `client_data_t`.  The source has no `ticket`: it numbers the calls of
`enqueue_client` and tells two clients with the same data apart. -/
structure ClientData where
  socket : Int
  ip : List UInt8
  port : Int
  lastActivity : Int
  state : ClientState
  requestCount : Int
  ticket : Nat
  deriving DecidableEq, Repr

/-- `work_item_t` -/
structure WorkItem where
  client : ClientData
  next : Nat
  deriving DecidableEq, Repr

/-- `thread_pool_t`, with the allocated work items. -/
structure ThreadPool where
  items : Nat → Option WorkItem
  workQueueHead : Nat
  workQueueTail : Nat
  queueSize : Int
  shutdown : Bool
  activeConnections : Int

/-- The pool that `initialize_thread_pool` sets up. -/
def initializeThreadPool : ThreadPool where
  items _ := none
  workQueueHead := 0
  workQueueTail := 0
  queueSize := 0
  shutdown := false
  activeConnections := 0

/-! ## Work items -/

/-- Read the item at an address. -/
def loadItem (a : Nat) : Exec ThreadPool WorkItem := do
  let p ← Exec.get
  match p.items a with
  | some item => pure item
  | none => Exec.stop "invalid work item"

/-- Write the item at an address. -/
def storeItem (a : Nat) (item : WorkItem) : Exec ThreadPool Unit :=
  Exec.modify fun p => { p with items := Function.update p.items a (some item) }

/-- `free` of a work item -/
def freeItem (a : Nat) : Exec ThreadPool Unit :=
  Exec.modify fun p => { p with items := Function.update p.items a none }

/-- The item `enqueue_client` fills in at the time `now`. -/
def WorkItem.filled (client : ClientData) (now : Int) : WorkItem where
  client := { client with lastActivity := now, state := .new, requestCount := 0 }
  next := 0

/-! ## `enqueue_client` -/

/-- How the `queue_mutex` section of `enqueue_client` ends. -/
inductive EnqueueResult where
  | wait | rejected | queued
  deriving DecidableEq, Repr

/-- Lines 501-508.  The struct has no member `queue_tail`; the test on line 501 is
read as one of `work_queue_tail`. -/
def linkItem (item : Nat) : Exec ThreadPool Unit := do
  let p ← Exec.get
  if p.workQueueTail = 0 then
    Exec.modify fun p => { p with workQueueHead := item, workQueueTail := item }
  else do
    let tail ← loadItem p.workQueueTail
    storeItem p.workQueueTail { tail with next := item }
    Exec.modify fun p => { p with workQueueTail := item }
  Exec.modify fun p => { p with queueSize := p.queueSize + 1 }

/-- The `queue_mutex` section of `enqueue_client`. -/
def enqueueSection (maxQueueSize : Int) (item : Nat) : Exec ThreadPool EnqueueResult := do
  let p ← Exec.get
  if maxQueueSize ≤ p.queueSize ∧ p.shutdown = false then
    pure .wait
  else if p.shutdown = true then
    pure .rejected
  else do
    linkItem item
    pure .queued

/-- The `conn_mutex` section of `enqueue_client`. -/
def countConnection (p : ThreadPool) : ThreadPool :=
  { p with activeConnections := p.activeConnections + 1 }

/-! ## `worker_thread` -/

/-- `dequeue_client`: the client, or nothing for the return value `-1`. -/
def dequeueClient : Exec ThreadPool (Option ClientData) := do
  let p ← Exec.get
  if p.queueSize = 0 ∨ p.workQueueHead = 0 then
    pure none
  else do
    let item ← loadItem p.workQueueHead
    Exec.modify fun p => { p with workQueueHead := item.next }
    if item.next = 0 then
      Exec.modify fun p => { p with workQueueTail := 0 }
    else
      pure ()
    Exec.modify fun p => { p with queueSize := p.queueSize - 1 }
    freeItem p.workQueueHead
    pure (some item.client)

/-- How the `queue_mutex` section of `worker_thread` ends. -/
inductive WorkerResult where
  | wait | exit | retry
  | handle (client : ClientData)
  deriving DecidableEq, Repr

/-- The `queue_mutex` section of `worker_thread`. -/
def workerSection : Exec ThreadPool WorkerResult := do
  let p ← Exec.get
  if p.queueSize = 0 ∧ p.shutdown = false then
    pure .wait
  else if p.shutdown = true ∧ p.queueSize = 0 then
    pure .exit
  else do
    match ← dequeueClient with
    | some client => pure (.handle client)
    | none => pure .retry

/-! ## `close_client_connection` -/

/-- The socket part: whether `close` was called, and the client afterwards. -/
def closeSocket (client : ClientData) : Bool × ClientData :=
  if 0 ≤ client.socket then (true, { client with socket := -1 }) else (false, client)

/-- The tickets whose sockets that closes. -/
def closedTickets (client : ClientData) : List Nat :=
  if (closeSocket client).1 then [client.ticket] else []

/-- The `conn_mutex` section, for `update_count`. -/
def uncountConnection (p : ThreadPool) : ThreadPool :=
  if 0 < p.activeConnections then { p with activeConnections := p.activeConnections - 1 } else p

/-! ## `cleanup_thread_pool` -/

/-- The loop over the remaining items; the tickets whose sockets it closes. -/
def drainLoop : Nat → Nat → Exec ThreadPool (List Nat)
  | 0, _ => Exec.exhaust
  | fuel + 1, curr =>
    if curr = 0 then
      pure []
    else do
      let temp ← loadItem curr
      freeItem curr
      let rest ← drainLoop fuel temp.next
      pure (closedTickets temp.client ++ rest)

/-- The second `queue_mutex` section of `cleanup_thread_pool`. -/
def drainSection (fuel : Nat) : Exec ThreadPool (List Nat) := do
  let p ← Exec.get
  let closed ← drainLoop fuel p.workQueueHead
  Exec.modify fun p => { p with workQueueHead := 0, workQueueTail := 0, queueSize := 0 }
  pure closed

/-! ## The parties

The acceptor, any number of workers and the cleanup each have a place in their
code.  The numbers of the clients are recorded as the code moves them on:
queued, handed to a worker, or closed without being handled, which
`enqueue_client` (`refused`) and the cleanup (`drained`) can do. -/

/-- Where the acceptor is in `enqueue_client`. -/
inductive Acceptor where
  | outside
  /-- the item is filled in, the `queue_mutex` section is next -/
  | holding (item : Nat) (client : ClientData)
  /-- refused, the item is still to be freed and the socket to be closed -/
  | rejecting (item : Nat) (client : ClientData)
  /-- queued, the `conn_mutex` section is next -/
  | counting

/-- Where a worker is in `worker_thread`. -/
inductive Worker where
  | idle
  | handling (client : ClientData)
  /-- the socket is closed, the `conn_mutex` section is next -/
  | closing (client : ClientData)
  | exited

/-- Where the cleanup is in `cleanup_thread_pool`. -/
inductive Cleanup where
  | notStarted
  /-- `shutdown` is set -/
  | signalled
  /-- the threads before the `i`th are joined -/
  | joining (i : Nat)
  | returned
  deriving DecidableEq

/-- The pool, the places of the parties, and the record of where the clients have gone,
by ticket.  The source keeps no such record. -/
structure NetConfig where
  pool : ThreadPool
  acceptor : Acceptor
  workers : List Worker
  cleanup : Cleanup
  /-- the calls of `enqueue_client` so far -/
  passed : Nat
  queued : List Nat
  handed : List Nat
  refused : List Nat
  drained : List Nat
  /-- how often `close_client_connection` found no connection to uncount -/
  skipped : Nat

/-- The server after `initialize_thread_pool` with `threadCount` workers. -/
def NetConfig.init (threadCount : Nat) : NetConfig :=
  ⟨initializeThreadPool, .outside, List.replicate threadCount .idle, .notStarted, 0, [], [], [],
    [], 0⟩

/-- One atomic step of one of the parties: a section under a mutex, or what it does by
itself between two of them.  Any of the parties may be next. -/
inductive NetStep (maxQueueSize : Int) : NetConfig → NetConfig → Prop
  -- `enqueue_client` is called and `malloc` fails: the socket is closed
  | outOfMemory (c : NetConfig) (hat : c.acceptor = .outside) :
      NetStep maxQueueSize c
        { c with passed := c.passed + 1, refused := c.refused ++ [c.passed] }
  -- `enqueue_client` is called and has filled in its item
  | call (c : NetConfig) (client : ClientData) (now : Int) (item : Nat)
      (hat : c.acceptor = .outside) (hticket : client.ticket = c.passed)
      (hsocket : 0 ≤ client.socket) (hnull : item ≠ 0) (hfree : c.pool.items item = none) :
      NetStep maxQueueSize c
        { c with
          pool := { c.pool with
            items := Function.update c.pool.items item (some (WorkItem.filled client now)) }
          acceptor := .holding item client
          passed := c.passed + 1 }
  | enqueue (c : NetConfig) (item : Nat) (client : ClientData) (pool : ThreadPool)
      (hat : c.acceptor = .holding item client)
      (hrun : enqueueSection maxQueueSize item c.pool = .ok .queued pool) :
      NetStep maxQueueSize c
        { c with pool := pool, acceptor := .counting, queued := c.queued ++ [client.ticket] }
  | reject (c : NetConfig) (item : Nat) (client : ClientData) (pool : ThreadPool)
      (hat : c.acceptor = .holding item client)
      (hrun : enqueueSection maxQueueSize item c.pool = .ok .rejected pool) :
      NetStep maxQueueSize c { c with pool := pool, acceptor := .rejecting item client }
  -- lines 494-495, outside the lock
  | dismiss (c : NetConfig) (item : Nat) (client : ClientData) (pool : ThreadPool)
      (hat : c.acceptor = .rejecting item client) (hrun : freeItem item c.pool = .ok () pool) :
      NetStep maxQueueSize c
        { c with pool := pool, acceptor := .outside, refused := c.refused ++ [client.ticket] }
  | count (c : NetConfig) (hat : c.acceptor = .counting) :
      NetStep maxQueueSize c { c with pool := countConnection c.pool, acceptor := .outside }
  | take (c : NetConfig) (i : Nat) (client : ClientData) (pool : ThreadPool)
      (hat : c.workers[i]? = some .idle)
      (hrun : workerSection c.pool = .ok (.handle client) pool) :
      NetStep maxQueueSize c
        { c with
          pool := pool
          workers := c.workers.set i (.handling client)
          handed := c.handed ++ [client.ticket] }
  | retry (c : NetConfig) (i : Nat) (pool : ThreadPool) (hat : c.workers[i]? = some .idle)
      (hrun : workerSection c.pool = .ok .retry pool) :
      NetStep maxQueueSize c { c with pool := pool }
  | exit (c : NetConfig) (i : Nat) (pool : ThreadPool) (hat : c.workers[i]? = some .idle)
      (hrun : workerSection c.pool = .ok .exit pool) :
      NetStep maxQueueSize c { c with pool := pool, workers := c.workers.set i .exited }
  -- every way through `handle_client` ends with `close_client_connection(&client, true)`
  | finish (c : NetConfig) (i : Nat) (client : ClientData)
      (hat : c.workers[i]? = some (.handling client)) :
      NetStep maxQueueSize c
        { c with workers := c.workers.set i (.closing (closeSocket client).2) }
  | uncount (c : NetConfig) (i : Nat) (client : ClientData)
      (hat : c.workers[i]? = some (.closing client)) :
      NetStep maxQueueSize c
        { c with
          pool := uncountConnection c.pool
          workers := c.workers.set i .idle
          skipped := c.skipped + if 0 < c.pool.activeConnections then 0 else 1 }
  | shutdown (c : NetConfig) (hat : c.cleanup = .notStarted) :
      NetStep maxQueueSize c
        { c with pool := { c.pool with shutdown := true }, cleanup := .signalled }
  | wake (c : NetConfig) (hat : c.cleanup = .signalled) :
      NetStep maxQueueSize c { c with cleanup := .joining 0 }
  | join (c : NetConfig) (i : Nat) (hat : c.cleanup = .joining i)
      (hexited : c.workers[i]? = some .exited) :
      NetStep maxQueueSize c { c with cleanup := .joining (i + 1) }
  | drain (c : NetConfig) (fuel : Nat) (closed : List Nat) (pool : ThreadPool)
      (hat : c.cleanup = .joining c.workers.length)
      (hrun : drainSection fuel c.pool = .ok closed pool) :
      NetStep maxQueueSize c
        { c with pool := pool, cleanup := .returned, drained := closed ++ c.drained }

/-- A step of the server as `main` runs it: the accept loop and the cleanup are code
of one thread, so the cleanup finds no call of `enqueue_client` and none follows. -/
def MainStep (maxQueueSize : Int) (c c' : NetConfig) : Prop :=
  NetStep maxQueueSize c c' ∧ (c'.cleanup ≠ .notStarted → c'.acceptor = .outside)

end FarouKernel.Ports.Net
