import FarouKernel.Ports.NetworkRuns

/-!
# The accept loop and the connection cap

`main` accepts a socket, compares `active_connections` with `max_connections`
under `conn_mutex`, and then either turns the client away or passes it to
`enqueue_client`.  The comparison, the queueing and the increment are three
steps, and the workers run between any two of them.

One thread does all three, so between the comparison and the queueing no other
client is queued.  The bound rests on an inequality: whenever the acceptor is
outside `enqueue_client`, the counter is at least the number of clients that
were queued and whose sockets are still open.  A skipped decrement only makes
the counter larger.
-/

namespace FarouKernel.Ports.Net

open Verified Relation

/-- Where `main` is, while it is not inside `enqueue_client`. -/
inductive MainPlace where
  | accepting
  /-- the check has passed, `enqueue_client` is next -/
  | admitted
  /-- the loop is left, the cleanup is next -/
  | left
  deriving DecidableEq

/-- The server with its accept loop.  `closed` records the clients whose sockets
the workers have closed. -/
structure ServerConfig where
  net : NetConfig
  main : MainPlace
  closed : List Nat

/-- The server when `main` enters its loop. -/
def ServerConfig.init (threadCount : Nat) : ServerConfig :=
  ⟨NetConfig.init threadCount, .accepting, []⟩

/-- One atomic step of the server: of the accept loop in `main`, or one of `NetStep`. -/
inductive ServerStep (maxQueueSize maxConnections : Int) : ServerConfig → ServerConfig → Prop
  -- lines 1148-1158: the socket is closed and the loop goes on
  | turnAway (c : ServerConfig) (hmain : c.main = .accepting) (hat : c.net.acceptor = .outside)
      (hfull : maxConnections ≤ c.net.pool.activeConnections) :
      ServerStep maxQueueSize maxConnections c c
  | enter (c : ServerConfig) (hmain : c.main = .accepting) (hat : c.net.acceptor = .outside)
      (hroom : c.net.pool.activeConnections < maxConnections) :
      ServerStep maxQueueSize maxConnections c { c with main := .admitted }
  -- the call of `enqueue_client`
  | call (c : ServerConfig) (net : NetConfig) (hmain : c.main = .admitted)
      (hstep : NetStep maxQueueSize c.net net) (hpassed : net.passed = c.net.passed + 1) :
      ServerStep maxQueueSize maxConnections c { c with net := net, main := .accepting }
  -- `server_running` was cleared
  | leave (c : ServerConfig) (hmain : c.main = .accepting) (hat : c.net.acceptor = .outside) :
      ServerStep maxQueueSize maxConnections c { c with main := .left }
  -- a worker closes the socket of its client
  | finish (c : ServerConfig) (i : Nat) (client : ClientData)
      (hat : c.net.workers[i]? = some (.handling client)) :
      ServerStep maxQueueSize maxConnections c
        { c with
          net := { c.net with
            workers := c.net.workers.set i (.closing (closeSocket client).2) }
          closed := c.closed ++ closedTickets client }
  -- any other step of the acceptor or of a worker; the cleanup runs after the loop
  | other (c : ServerConfig) (net : NetConfig) (hstep : NetStep maxQueueSize c.net net)
      (hpassed : net.passed = c.net.passed)
      (hhandling : ∀ (i : Nat) (client : ClientData),
        c.net.workers[i]? = some (.handling client) → net.workers[i]? = some (.handling client))
      (hcleanup : net.cleanup = c.net.cleanup ∨ c.main = .left) :
      ServerStep maxQueueSize maxConnections c { c with net := net }

/-- The clients that were queued and whose sockets are not yet closed. -/
def ServerConfig.openSockets (c : ServerConfig) : List Nat :=
  c.net.queued.filter fun t => decide (t ∉ c.closed ∧ t ∉ c.net.drained)

/-- The client a worker is serving. -/
def Worker.handled : Worker → List Nat
  | .handling client => [client.ticket]
  | _ => []

/-- The clients that are in the hands of `main` and may still be queued. -/
def ServerConfig.reserved (c : ServerConfig) : Nat :=
  (if c.main = .admitted then 1 else 0) + c.net.acceptor.held.length

/-- The invariant of the accept loop: every client that was handed out is closed or still
with a worker, and those let in and neither closed nor drained are within the limit. -/
structure ServerInv (maxQueueSize maxConnections : Int) (threadCount : Nat) (c : ServerConfig) :
    Prop where
  reach : ReflTransGen (NetStep maxQueueSize) (NetConfig.init threadCount) c.net
  handled : c.net.handed.Perm (c.closed ++ c.net.workers.flatMap Worker.handled)
  sockets : ∀ client, .handling client ∈ c.net.workers → 0 ≤ client.socket
  place : c.main = .admitted → c.net.acceptor = .outside
  room : (c.net.queued.length : Int) + c.reserved ≤
    maxConnections + c.closed.length + c.net.drained.length

variable {net net' : NetConfig} {i : Nat} {workers : List Worker} {w : Worker}

section Invariant

variable {maxQueueSize maxConnections : Int} {threadCount : Nat} {c : ServerConfig}

theorem serverInv_init (hmax : 0 ≤ maxConnections) :
    ServerInv maxQueueSize maxConnections threadCount (ServerConfig.init threadCount) where
  reach := .refl
  handled := by
    have hnone : (List.replicate threadCount Worker.idle).flatMap Worker.handled = [] := by
      simp [Worker.handled]
    simp [ServerConfig.init, NetConfig.init, hnone]
  sockets := by simp [ServerConfig.init, NetConfig.init]
  place := by simp [ServerConfig.init]
  room := by
    simpa [ServerConfig.init, NetConfig.init, ServerConfig.reserved, Acceptor.held] using hmax

/-- Replacing one worker, in terms of the list around it. -/
theorem workers_split (h : workers[i]? = some w) :
    ∃ a b, workers = a ++ w :: b ∧ ∀ w', workers.set i w' = a ++ w' :: b := by
  rcases List.getElem?_eq_some_iff.mp h with ⟨hi, rfl⟩
  refine ⟨workers.take i, workers.drop (i + 1), ?_, ?_⟩
  · rw [List.getElem_cons_drop, List.take_append_drop]
  · intro w'
    exact List.set_eq_take_append_cons_drop.trans (if_pos hi)

/-- A worker that serves nobody before and after changes nothing. -/
theorem handled_set (w' : Worker) (h : workers[i]? = some w) (hw : w.handled = [])
    (hw' : w'.handled = []) :
    (workers.set i w').flatMap Worker.handled = workers.flatMap Worker.handled := by
  rcases workers_split h with ⟨a, b, hsplit, hset⟩
  rw [hset, hsplit]
  simp [hw, hw']

/-- A worker that serves a client is busy. -/
theorem handled_length_le (workers : List Worker) :
    (workers.flatMap Worker.handled).length ≤ workers.countP Worker.isBusy := by
  induction workers with
  | nil => exact Nat.le_refl 0
  | cons w workers ih =>
    have hhead : w.handled.length ≤ if w.isBusy then 1 else 0 := by
      cases w <;> simp [Worker.handled, Worker.isBusy]
    rw [List.flatMap_cons, List.length_append, List.countP_cons]
    omega

theorem mem_set_of_ne {w' x : Worker} (h : workers[i]? = some w) (hx : x ∈ workers.set i w')
    (hne : x ≠ w') : x ∈ workers := by
  rcases workers_split h with ⟨a, b, hsplit, hset⟩
  rw [hset, List.mem_append, List.mem_cons] at hx
  rw [hsplit, List.mem_append, List.mem_cons]
  tauto

/-! ## What a step of the pool does to the record -/

/-- Without a call, queueing a client takes it out of the acceptor's hands. -/
theorem NetStep.queued_le (h : NetStep maxQueueSize net net') (hpassed : net'.passed = net.passed) :
    net'.queued.length + net'.acceptor.held.length ≤
        net.queued.length + net.acceptor.held.length ∧
      net.drained.length ≤ net'.drained.length := by
  cases h with
  | outOfMemory => exact absurd hpassed (Nat.succ_ne_self _)
  | call => exact absurd hpassed (Nat.succ_ne_self _)
  | enqueue item client pool hat => simp [hat, Acceptor.held]
  | reject item client pool hat => simp [hat, Acceptor.held]
  | dismiss item client pool hat => simp [hat, Acceptor.held]
  | count hat => simp [hat, Acceptor.held]
  | drain fuel closed pool => simp
  | _ => exact ⟨Nat.le_refl _, Nat.le_refl _⟩

theorem NetStep.outside (h : NetStep maxQueueSize net net') (hpassed : net'.passed = net.passed)
    (hat : net.acceptor = .outside) : net'.acceptor = .outside := by
  cases h with
  | call => exact absurd hpassed (Nat.succ_ne_self _)
  | enqueue item client pool hat' => rw [hat] at hat'; cases hat'
  | reject item client pool hat' => rw [hat] at hat'; cases hat'
  | dismiss => rfl
  | count => rfl
  | _ => exact hat

/-- A call leaves the queue, and puts at most one client into the acceptor's hands. -/
theorem NetStep.call_record (h : NetStep maxQueueSize net net')
    (hpassed : net'.passed = net.passed + 1) :
    net'.queued = net.queued ∧ net'.drained = net.drained ∧ net'.handed = net.handed ∧
      net'.workers = net.workers ∧ net'.acceptor.held.length ≤ 1 := by
  cases h with
  | outOfMemory hat =>
    refine ⟨rfl, rfl, rfl, rfl, ?_⟩
    simp [hat, Acceptor.held]
  | call client now item hat => exact ⟨rfl, rfl, rfl, rfl, Nat.le_refl 1⟩
  | _ => exact absurd hpassed.symm (Nat.succ_ne_self _)

/-- Every client a worker has taken is being served or closed. -/
theorem handled_step {addrs : List Nat} {clients : List ClientData} {closed : List Nat}
    (hnet : NetAt maxQueueSize net addrs clients) (hstep : NetStep maxQueueSize net net')
    (hhandling : ∀ (i : Nat) (client : ClientData),
      net.workers[i]? = some (.handling client) → net'.workers[i]? = some (.handling client))
    (hperm : net.handed.Perm (closed ++ net.workers.flatMap Worker.handled))
    (hsockets : ∀ client, .handling client ∈ net.workers → 0 ≤ client.socket) :
    net'.handed.Perm (closed ++ net'.workers.flatMap Worker.handled) ∧
      ∀ client, .handling client ∈ net'.workers → 0 ≤ client.socket := by
  cases hstep with
  | take i client pool hat hrun =>
    rcases workerSection_ok hnet.rep hrun with ⟨rest, hclients, _, _⟩
    rcases workers_split hat with ⟨a, b, hsplit, hset⟩
    constructor
    · -- the ticket appears at the end of one list and in the middle of the other
      have hmiddle : (closed ++ (a.flatMap Worker.handled ++ client.ticket ::
          b.flatMap Worker.handled)).Perm (client.ticket :: net.handed) := by
        rw [← List.append_assoc]
        refine List.perm_middle.trans (List.Perm.cons _ ?_)
        rw [hsplit] at hperm
        simpa [Worker.handled] using hperm.symm
      rw [hset]
      refine (List.perm_append_singleton _ _).trans (hmiddle.symm.trans ?_)
      simp [Worker.handled]
    · intro x hx
      by_cases hxc : x = client
      · rw [hxc]
        exact hnet.sockets client (hclients ▸ List.mem_cons_self)
      · exact hsockets x (mem_set_of_ne hat hx (by simpa using hxc))
  | exit i pool hat =>
    constructor
    · rw [handled_set .exited hat rfl rfl]
      exact hperm
    · intro x hx
      exact hsockets x (mem_set_of_ne hat hx (by simp))
  | finish i client hat =>
    have hlt := (List.getElem?_eq_some_iff.mp hat).1
    have hclosing := List.getElem?_set_self (a := Worker.closing (closeSocket client).2) hlt
    have hsame := hhandling i client hat
    cases hclosing.symm.trans hsame
  | uncount i client hat =>
    constructor
    · rw [handled_set .idle hat rfl rfl]
      exact hperm
    · intro x hx
      exact hsockets x (mem_set_of_ne hat hx (by simp))
  | _ => exact ⟨hperm, hsockets⟩

/-! ## The steps of the server -/

section

variable (h : ServerInv maxQueueSize maxConnections threadCount c)

include h

theorem ServerInv.enter (hat : c.net.acceptor = .outside)
    (hroom : c.net.pool.activeConnections < maxConnections) :
    ServerInv maxQueueSize maxConnections threadCount { c with main := .admitted } := by
  refine ⟨h.reach, h.handled, h.sockets, fun _ => hat, ?_⟩
  rcases net_run_sound h.reach with ⟨addrs, clients, hnet, hsound⟩
  -- the open clients are in the queue or with a busy worker, and all of these are counted
  have hbalance := hnet.counted.balance
  have hsize : c.net.pool.queueSize = clients.length := by rw [hnet.rep.size, hnet.rep.length_eq]
  have hqueued : c.net.queued.length = c.net.handed.length + (clients.length +
      c.net.drained.length) := by
    have horder := congrArg List.length hsound.order
    simpa [NetConfig.ledger] using horder
  have hhanded : c.net.handed.length = c.closed.length +
      (c.net.workers.flatMap Worker.handled).length := by
    simpa using h.handled.length_eq
  have hbusy := handled_length_le c.net.workers
  simp only [hat, Acceptor.uncounted] at hbalance
  simp only [ServerConfig.reserved, hat, Acceptor.held, List.length_nil, if_true]
  omega

theorem ServerInv.call (hmain : c.main = .admitted) (hstep : NetStep maxQueueSize c.net net)
    (hpassed : net.passed = c.net.passed + 1) :
    ServerInv maxQueueSize maxConnections threadCount
      { c with net := net, main := .accepting } := by
  rcases hstep.call_record hpassed with ⟨hqueued, hdrained, hhanded, hworkers, hheld⟩
  refine ⟨h.reach.tail hstep, ?_, ?_, ?_, ?_⟩
  · rw [hhanded, hworkers]
    exact h.handled
  · rw [hworkers]
    exact h.sockets
  · intro hplace
    cases hplace
  · have hroom := h.room
    simp only [ServerConfig.reserved, hmain, h.place hmain, Acceptor.held, if_true,
      List.length_nil] at hroom
    simp only [ServerConfig.reserved, hqueued, hdrained, reduceCtorEq, if_false]
    omega

theorem ServerInv.leave (hmain : c.main = .accepting) :
    ServerInv maxQueueSize maxConnections threadCount { c with main := .left } := by
  refine ⟨h.reach, h.handled, h.sockets, ?_, ?_⟩
  · intro hplace
    cases hplace
  · have hroom := h.room
    simpa only [ServerConfig.reserved, hmain, reduceCtorEq, if_false] using hroom

theorem ServerInv.finish {client : ClientData} (hat : c.net.workers[i]? = some (.handling client)) :
    ServerInv maxQueueSize maxConnections threadCount
      { c with
        net := { c.net with workers := c.net.workers.set i (.closing (closeSocket client).2) }
        closed := c.closed ++ closedTickets client } := by
  have hsocket := h.sockets client (List.mem_of_getElem? hat)
  have hclosed : closedTickets client = [client.ticket] := by
    simp [closedTickets, closeSocket, hsocket]
  rcases workers_split hat with ⟨a, b, hsplit, hset⟩
  refine ⟨h.reach.tail (NetStep.finish c.net i client hat), ?_, ?_, h.place, ?_⟩
  · have hperm := h.handled
    rw [hsplit] at hperm
    rw [hset, hclosed]
    refine hperm.trans ?_
    simp only [List.flatMap_append, List.flatMap_cons, Worker.handled, List.nil_append,
      List.append_assoc, List.singleton_append]
    exact List.perm_middle.append_left _
  · intro x hx
    exact h.sockets x (mem_set_of_ne hat hx (by simp))
  · have hroom := h.room
    simp only [hclosed, List.length_append, List.length_singleton]
    show (c.net.queued.length : Int) + c.reserved ≤ _
    omega

theorem ServerInv.other (hstep : NetStep maxQueueSize c.net net)
    (hpassed : net.passed = c.net.passed) (hhandling : ∀ (i : Nat) (client : ClientData),
      c.net.workers[i]? = some (.handling client) → net.workers[i]? = some (.handling client)) :
    ServerInv maxQueueSize maxConnections threadCount { c with net := net } := by
  rcases net_run_sound h.reach with ⟨addrs, clients, hnet, _⟩
  rcases handled_step hnet hstep hhandling h.handled h.sockets with ⟨hhandled, hsockets⟩
  rcases hstep.queued_le hpassed with ⟨hqueued, hdrained⟩
  refine ⟨h.reach.tail hstep, hhandled, hsockets, ?_, ?_⟩
  · intro hmain
    exact hstep.outside hpassed (h.place hmain)
  · have hroom := h.room
    simp only [ServerConfig.reserved] at hroom ⊢
    omega

theorem ServerInv.step {c' : ServerConfig} (hstep : ServerStep maxQueueSize maxConnections c c') :
    ServerInv maxQueueSize maxConnections threadCount c' := by
  cases hstep with
  | turnAway => exact h
  | enter hmain hat hroom => exact h.enter hat hroom
  | call net hmain hstep hpassed => exact h.call hmain hstep hpassed
  | leave hmain hat => exact h.leave hmain
  | finish i client hat => exact h.finish hat
  | other net hstep hpassed hhandling hcleanup => exact h.other hstep hpassed hhandling

/-- The open clients are those in the queue and those being served. -/
theorem ServerInv.openSockets_le : (c.openSockets.length : Int) ≤ maxConnections := by
  rcases net_run_sound h.reach with ⟨addrs, clients, hnet, hsound⟩
  have horder : c.net.queued = c.net.handed ++ (clients.map ClientData.ticket ++ c.net.drained) :=
    hsound.order
  have hperm : c.net.queued.Perm (c.closed ++ c.net.workers.flatMap Worker.handled ++
      (clients.map ClientData.ticket ++ c.net.drained)) := by
    rw [horder]
    exact h.handled.append_right _
  have hlength := hperm.length_eq
  have hopen := (hperm.filter fun t => decide (t ∉ c.closed ∧ t ∉ c.net.drained)).length_eq
  have hclosed : c.closed.filter (fun t => decide (t ∉ c.closed ∧ t ∉ c.net.drained)) = [] := by
    rw [List.filter_eq_nil_iff]
    intro t ht
    simp [ht]
  have hdrained :
      c.net.drained.filter (fun t => decide (t ∉ c.closed ∧ t ∉ c.net.drained)) = [] := by
    rw [List.filter_eq_nil_iff]
    intro t ht
    simp [ht]
  have hserved := List.length_filter_le (fun t => decide (t ∉ c.closed ∧ t ∉ c.net.drained))
    (c.net.workers.flatMap Worker.handled)
  have hwaiting := List.length_filter_le (fun t => decide (t ∉ c.closed ∧ t ∉ c.net.drained))
    (clients.map ClientData.ticket)
  have hroom := h.room
  simp only [List.filter_append, hclosed, hdrained, List.nil_append, List.append_nil,
    List.length_append] at hopen
  simp only [List.length_append] at hlength
  unfold ServerConfig.openSockets
  omega

end

end Invariant

/-- **The connection cap.**  In every run of the accept loop with its workers, the
number of clients that were queued and whose sockets are open is at most
`max_connections`. -/
theorem open_sockets_capped (maxQueueSize maxConnections : Int) (hmax : 0 ≤ maxConnections)
    (threadCount : Nat) (c : ServerConfig)
    (hrun : ReflTransGen (ServerStep maxQueueSize maxConnections) (ServerConfig.init threadCount)
      c) : (c.openSockets.length : Int) ≤ maxConnections := by
  have hinv : ServerInv maxQueueSize maxConnections threadCount c :=
    run_invariant _ (fun _ _ h => h.step) hrun (serverInv_init hmax)
  exact hinv.openSockets_le

/-- With room for one connection the one client is admitted and queued. -/
theorem open_sockets_capped_one :
    (⟨oneQueued .counting 0, .accepting, []⟩ : ServerConfig).openSockets = [0] ∧
      ((⟨oneQueued .counting 0, .accepting, []⟩ : ServerConfig).openSockets.length : Int) ≤ 1 := by
  refine ⟨by decide, open_sockets_capped 100 1 (by decide) 1 _ ?_⟩
  exact .head (.enter _ rfl rfl (by decide)) <| .head (.call _ oneCalled rfl oneCalled_step rfl) <|
    .single (.other _ (oneQueued .counting 0) oneQueued_step rfl (fun _ _ h => h) (Or.inl rfl))

end FarouKernel.Ports.Net
