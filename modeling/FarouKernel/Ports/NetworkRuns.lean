import FarouKernel.Ports.NetworkQueue
import FarouKernel.Verified.Delivery
import FarouKernel.Verified.Runs

/-!
# Runs of the thread pool

Whatever the order of the critical sections, the work queue is a delivery in the
sense of `Ledger`: each step of a party moves tickets by steps of the ledger
that the configuration stands for (`NetAt.step`).  The ledger is sound, so each
client is handed to one worker or closed once, in the order of the queue.

The same step lemma carries the balance of `active_connections`.  A client is
queued in one section and counted in a later one, and a worker that is quick
enough gives the client back in between.  The guard in
`close_client_connection` then skips the decrement, and the increment that
follows is never undone.
-/

namespace FarouKernel.Ports.Net

open Verified Relation

/-- The clients in the hands of the acceptor. -/
def Acceptor.held : Acceptor → List ClientData
  | .outside => []
  | .holding _ client => [client]
  | .rejecting _ client => [client]
  | .counting => []

/-- The clients that the acceptor has queued and not yet counted. -/
def Acceptor.uncounted : Acceptor → Int
  | .counting => 1
  | _ => 0

/-- The item of the acceptor is no part of the queue. -/
def Acceptor.Owns (p : ThreadPool) (addrs : List Nat) : Acceptor → Prop
  | .holding item client => item ≠ 0 ∧ item ∉ addrs ∧ 0 ≤ client.socket ∧
      ∃ now, p.items item = some (WorkItem.filled client now)
  | .rejecting item _ => item ∉ addrs
  | _ => True

/-- A worker has a client that it has not yet uncounted. -/
def Worker.isBusy : Worker → Bool
  | .handling _ => true
  | .closing _ => true
  | _ => false

/-- The ledger of a configuration whose queue holds `clients`. -/
def NetConfig.ledger (c : NetConfig) (clients : List ClientData) : Ledger Nat where
  issued := List.range c.passed
  held := c.acceptor.held.map ClientData.ticket
  waiting := clients.map ClientData.ticket
  queued := c.queued
  handed := c.handed
  refused := c.refused
  drained := c.drained
  closed := c.pool.shutdown

/-- The balance of the connection counter: it counts the clients in the queue, with a
worker or drained, but for one that the acceptor is about to count and one that a
worker found no count for. -/
structure Counted (c : NetConfig) : Prop where
  nonneg : 0 ≤ c.pool.activeConnections
  balance : c.pool.activeConnections + c.acceptor.uncounted =
    c.pool.queueSize + c.workers.countP Worker.isBusy + c.drained.length + c.skipped
  skipped : c.skipped ≤ 1

/-- The invariant, for a queue that holds `clients` in the items at `addrs`. -/
structure NetAt (maxQueueSize : Int) (c : NetConfig) (addrs : List Nat)
    (clients : List ClientData) : Prop where
  rep : QueueRep c.pool addrs clients
  sockets : ∀ client ∈ clients, 0 ≤ client.socket
  bounded : c.pool.queueSize ≤ max maxQueueSize 0
  owns : c.acceptor.Owns c.pool addrs
  begun : c.pool.shutdown = false ↔ c.cleanup = .notStarted
  emptied : c.cleanup = .returned → clients = []
  counted : Counted c

theorem netAt_init (maxQueueSize : Int) (threadCount : Nat) :
    NetAt maxQueueSize (NetConfig.init threadCount) [] [] where
  rep := ⟨rfl, rfl, rfl, rfl⟩
  sockets := by simp
  bounded := Int.le_max_right _ _
  owns := trivial
  begun := by simp [NetConfig.init, initializeThreadPool]
  emptied := by simp
  counted := by
    have hidle : (List.replicate threadCount Worker.idle).countP Worker.isBusy = 0 := by
      rw [List.countP_replicate]
      rfl
    refine ⟨Int.le_refl 0, ?_, Nat.zero_le 1⟩
    simp [NetConfig.init, initializeThreadPool, Acceptor.uncounted, hidle]

variable {maxQueueSize : Int} {c c' : NetConfig} {client : ClientData} {pool : ThreadPool}
  {i threadCount item : Nat}

section Steps

variable {addrs : List Nat} {clients : List ClientData}

/-- Replacing one worker changes the number of busy ones by that worker. -/
theorem busy_set {workers : List Worker} {w : Worker} (w' : Worker) (h : workers[i]? = some w) :
    (workers.set i w').countP Worker.isBusy + w.isBusy.toNat =
      workers.countP Worker.isBusy + w'.isBusy.toNat := by
  obtain ⟨hi, rfl⟩ := List.getElem?_eq_some_iff.mp h
  have hpos : workers[i].isBusy = true → 0 < workers.countP Worker.isBusy := fun hbusy =>
    List.countP_pos_iff.mpr ⟨_, List.getElem_mem hi, hbusy⟩
  rw [List.countP_set hi]
  cases hold : workers[i].isBusy with
  | false => cases w'.isBusy <;> simp
  | true =>
    have := hpos hold
    cases w'.isBusy <;> simp <;> omega

/-- Closing the sockets of clients with a socket closes each of them. -/
theorem flatMap_closedTickets (h : ∀ client ∈ clients, 0 ≤ client.socket) :
    clients.flatMap closedTickets = clients.map ClientData.ticket := by
  induction clients with
  | nil => rfl
  | cons client clients ih =>
    have hclient : closedTickets client = [client.ticket] := by
      simp [closedTickets, closeSocket, h client List.mem_cons_self]
    rw [List.flatMap_cons, hclient, ih fun x hx => h x (List.mem_cons_of_mem _ hx)]
    rfl

/-- The acceptor keeps its item while the queue's own items are written. -/
theorem Acceptor.Owns.mono {acceptor : Acceptor} {p p' : ThreadPool} {addrs' : List Nat}
    (h : acceptor.Owns p addrs) (hitems : ∀ b, b ∉ addrs → p'.items b = p.items b)
    (hsub : ∀ a ∈ addrs', a ∈ addrs) : acceptor.Owns p' addrs' := by
  cases acceptor with
  | outside => trivial
  | holding item client =>
    obtain ⟨hnull, hnot, hsocket, now, hitem⟩ := h
    exact ⟨hnull, fun hmem => hnot (hsub item hmem), hsocket, now, (hitems item hnot).trans hitem⟩
  | rejecting item client => exact fun hmem => h (hsub item hmem)
  | counting => trivial

/-- What a step has to achieve: the invariant again, and movements of the ledger. -/
def Advances (maxQueueSize : Int) (c : NetConfig) (clients : List ClientData) (c' : NetConfig) :
    Prop :=
  ∃ addrs' clients', NetAt maxQueueSize c' addrs' clients' ∧
    ReflTransGen Ledger.Step (c.ledger clients) (c'.ledger clients')

/-! ## The acceptor -/

section

variable (h : NetAt maxQueueSize c addrs clients)

include h

theorem NetAt.outOfMemory :
    Advances maxQueueSize c clients
      { c with passed := c.passed + 1, refused := c.refused ++ [c.passed] } := by
  refine ⟨addrs, clients, ⟨h.rep, h.sockets, h.bounded, h.owns, h.begun, h.emptied,
    ⟨h.counted.nonneg, h.counted.balance, h.counted.skipped⟩⟩, ?_⟩
  -- the ticket is issued and refused at once
  have hissue := Ledger.Step.issue (c.ledger clients) c.passed List.not_mem_range_self
  refine (ReflTransGen.single hissue).tail ?_
  have hrefuse := Ledger.Step.refuse
    { c.ledger clients with
      issued := List.range c.passed ++ [c.passed]
      held := c.passed :: c.acceptor.held.map ClientData.ticket }
    c.passed _ rfl
  simpa [NetConfig.ledger, List.range_succ] using hrefuse

theorem NetAt.call (now : Int) (hat : c.acceptor = .outside) (hticket : client.ticket = c.passed)
    (hsocket : 0 ≤ client.socket) (hnull : item ≠ 0) (hfree : c.pool.items item = none) :
    Advances maxQueueSize c clients
      { c with
        pool := { c.pool with
          items := Function.update c.pool.items item (some (WorkItem.filled client now)) }
        acceptor := .holding item client
        passed := c.passed + 1 } := by
  have hnot := h.rep.not_mem_of_free hfree
  have hbalance := hat ▸ h.counted.balance
  refine ⟨addrs, clients, ⟨h.rep.update hnot _, h.sockets, h.bounded, ?_, h.begun, h.emptied,
    ⟨h.counted.nonneg, hbalance, h.counted.skipped⟩⟩, .single ?_⟩
  · exact ⟨hnull, hnot, hsocket, now, Function.update_self _ _ _⟩
  · have hissue := Ledger.Step.issue (c.ledger clients) c.passed List.not_mem_range_self
    simpa [NetConfig.ledger, List.range_succ, hat, Acceptor.held, hticket] using hissue

theorem NetAt.enqueue (hat : c.acceptor = .holding item client)
    (hrun : enqueueSection maxQueueSize item c.pool = .ok .queued pool) :
    Advances maxQueueSize c clients
      { c with pool := pool, acceptor := .counting, queued := c.queued ++ [client.ticket] } := by
  obtain ⟨hnull, hnot, hsocket, now, hitem⟩ := hat ▸ h.owns
  have hbalance := hat ▸ h.counted.balance
  obtain ⟨hopen, hroom, hrep, honly⟩ := enqueueSection_ok h.rep hnull hnot hitem hrun
  have hsize : pool.queueSize = c.pool.queueSize + 1 := by
    rw [hrep.size, h.rep.size, List.length_append, List.length_singleton]
    omega
  refine ⟨addrs ++ [item], clients ++ [(WorkItem.filled client now).client],
    ⟨hrep, ?_, ?_, trivial, ?_, ?_, ⟨?_, ?_, h.counted.skipped⟩⟩, .single ?_⟩
  · intro x hx
    rcases List.mem_append.mp hx with hx | hx
    · exact h.sockets x hx
    · rw [List.mem_singleton.mp hx]
      exact hsocket
  · show pool.queueSize ≤ max maxQueueSize 0
    omega
  · exact honly.shutdown ▸ h.begun
  · intro hreturned
    have hnotStarted := h.begun.mp hopen
    cases hnotStarted.symm.trans hreturned
  · exact honly.activeConnections ▸ h.counted.nonneg
  · show pool.activeConnections + 1 = pool.queueSize + c.workers.countP Worker.isBusy +
      c.drained.length + c.skipped
    simp only [Acceptor.uncounted] at hbalance
    rw [honly.activeConnections, hsize]
    omega
  · have hput := Ledger.Step.put (c.ledger clients) client.ticket []
      (by simp [NetConfig.ledger, hat, Acceptor.held]) hopen
    simpa [NetConfig.ledger, Acceptor.held, WorkItem.filled, honly.shutdown] using hput

theorem NetAt.reject (hat : c.acceptor = .holding item client)
    (hrun : enqueueSection maxQueueSize item c.pool = .ok .rejected pool) :
    Advances maxQueueSize c clients
      { c with pool := pool, acceptor := .rejecting item client } := by
  obtain ⟨hnull, hnot, hsocket, now, hitem⟩ := hat ▸ h.owns
  have hbalance := hat ▸ h.counted.balance
  obtain rfl : pool = c.pool := enqueueSection_ok h.rep hnull hnot hitem hrun
  refine ⟨addrs, clients, ⟨h.rep, h.sockets, h.bounded, hnot, h.begun, h.emptied,
    ⟨h.counted.nonneg, hbalance, h.counted.skipped⟩⟩, ?_⟩
  simp only [NetConfig.ledger, hat, Acceptor.held]
  exact .refl

theorem NetAt.dismiss (hat : c.acceptor = .rejecting item client)
    (hrun : freeItem item c.pool = .ok () pool) :
    Advances maxQueueSize c clients
      { c with pool := pool, acceptor := .outside, refused := c.refused ++ [client.ticket] } := by
  have hnot := hat ▸ h.owns
  have hbalance := hat ▸ h.counted.balance
  cases hrun
  refine ⟨addrs, clients, ⟨h.rep.update hnot none, h.sockets, h.bounded, trivial, h.begun,
    h.emptied, ⟨h.counted.nonneg, hbalance, h.counted.skipped⟩⟩, .single ?_⟩
  · have hrefuse := Ledger.Step.refuse (c.ledger clients) client.ticket []
      (by simp [NetConfig.ledger, hat, Acceptor.held])
    simpa [NetConfig.ledger, Acceptor.held] using hrefuse

theorem NetAt.count (hat : c.acceptor = .counting) :
    Advances maxQueueSize c clients
      { c with pool := countConnection c.pool, acceptor := .outside } := by
  have hbalance := h.counted.balance
  have hnonneg := h.counted.nonneg
  simp only [hat, Acceptor.uncounted] at hbalance
  refine ⟨addrs, clients, ⟨?_, h.sockets, h.bounded, trivial, h.begun, h.emptied,
    ⟨?_, ?_, h.counted.skipped⟩⟩, ?_⟩
  · exact h.rep.frame (fun _ _ => rfl) rfl rfl rfl
  · show 0 ≤ c.pool.activeConnections + 1
    omega
  · show c.pool.activeConnections + 1 + 0 = _
    rw [Int.add_zero]
    exact hbalance
  · simp only [NetConfig.ledger, hat, Acceptor.held, countConnection]
    exact .refl

/-! ## The workers -/

theorem NetAt.take (hat : c.workers[i]? = some .idle)
    (hrun : workerSection c.pool = .ok (.handle client) pool) :
    Advances maxQueueSize c clients
      { c with
        pool := pool
        workers := c.workers.set i (.handling client)
        handed := c.handed ++ [client.ticket] } := by
  obtain ⟨rest, hclients, hrep, honly⟩ := workerSection_ok h.rep hrun
  have hsize : pool.queueSize + 1 = c.pool.queueSize := by
    rw [hrep.size, h.rep.size, hrep.length_eq, h.rep.length_eq, hclients, List.length_cons]
    omega
  have hbusy := busy_set (.handling client) hat
  have hbalance := h.counted.balance
  refine ⟨addrs.tail, rest, ⟨hrep, ?_, ?_, ?_, ?_, ?_, ⟨?_, ?_, h.counted.skipped⟩⟩, .single ?_⟩
  · intro x hx
    exact h.sockets x (hclients ▸ List.mem_cons_of_mem _ hx)
  · show pool.queueSize ≤ max maxQueueSize 0
    have := h.bounded
    omega
  · exact h.owns.mono honly.items fun a ha => List.mem_of_mem_tail ha
  · exact honly.shutdown ▸ h.begun
  · intro hreturned
    rw [h.emptied hreturned] at hclients
    cases hclients
  · exact honly.activeConnections ▸ h.counted.nonneg
  · show pool.activeConnections + c.acceptor.uncounted = pool.queueSize +
      (c.workers.set i (.handling client)).countP Worker.isBusy + c.drained.length + c.skipped
    simp only [Worker.isBusy, Bool.toNat_true, Bool.toNat_false] at hbusy
    rw [honly.activeConnections]
    omega
  · have hhand := Ledger.Step.hand (c.ledger clients) client.ticket
      (rest.map ClientData.ticket) (by simp [NetConfig.ledger, hclients])
    simpa [NetConfig.ledger, honly.shutdown] using hhand

/-- A worker that stays busy, or not, changes nothing else. -/
theorem NetAt.setWorker {w : Worker}
    (hbusy : (c.workers.set i w).countP Worker.isBusy = c.workers.countP Worker.isBusy) :
    Advances maxQueueSize c clients { c with workers := c.workers.set i w } := by
  have hbalance := h.counted.balance
  rw [← hbusy] at hbalance
  exact ⟨addrs, clients, ⟨h.rep, h.sockets, h.bounded, h.owns, h.begun, h.emptied,
    ⟨h.counted.nonneg, hbalance, h.counted.skipped⟩⟩, .refl⟩

theorem NetAt.exit (hat : c.workers[i]? = some .idle)
    (hrun : workerSection c.pool = .ok .exit pool) :
    Advances maxQueueSize c clients
      { c with pool := pool, workers := c.workers.set i .exited } := by
  obtain rfl : pool = c.pool := workerSection_ok h.rep hrun
  exact h.setWorker (busy_set .exited hat)

theorem NetAt.finish (hat : c.workers[i]? = some (.handling client)) :
    Advances maxQueueSize c clients
      { c with workers := c.workers.set i (.closing (closeSocket client).2) } := by
  have hset := busy_set (.closing (closeSocket client).2) hat
  exact h.setWorker (Nat.add_right_cancel hset)

/-- The decrement.  If it is skipped, the acceptor is on its way to count the
client that the worker has already given back; so that happens only once. -/
theorem NetAt.uncount (hat : c.workers[i]? = some (.closing client)) :
    Advances maxQueueSize c clients
      { c with
        pool := uncountConnection c.pool
        workers := c.workers.set i .idle
        skipped := c.skipped + if 0 < c.pool.activeConnections then 0 else 1 } := by
  have hbusy : (c.workers.set i .idle).countP Worker.isBusy + 1 =
      c.workers.countP Worker.isBusy := busy_set .idle hat
  have hbalance := h.counted.balance
  have hnonneg := h.counted.nonneg
  have hskipped := h.counted.skipped
  have hsize : 0 ≤ c.pool.queueSize := by
    rw [h.rep.size]
    omega
  have huncounted : c.acceptor.uncounted ≤ 1 := by
    cases c.acceptor <;> simp [Acceptor.uncounted]
  by_cases hactive : 0 < c.pool.activeConnections
  · simp only [uncountConnection, if_pos hactive, Nat.add_zero]
    refine ⟨addrs, clients, ⟨?_, h.sockets, h.bounded, ?_, h.begun, h.emptied, ⟨?_, ?_, ?_⟩⟩, ?_⟩
    · exact h.rep.frame (fun _ _ => rfl) rfl rfl rfl
    · exact h.owns.mono (fun _ _ => rfl) fun _ ha => ha
    · show 0 ≤ c.pool.activeConnections - 1
      omega
    · show c.pool.activeConnections - 1 + c.acceptor.uncounted = c.pool.queueSize +
        (c.workers.set i .idle).countP Worker.isBusy + c.drained.length + c.skipped
      omega
    · exact hskipped
    · exact .refl
  · simp only [uncountConnection, if_neg hactive]
    refine ⟨addrs, clients, ⟨h.rep, h.sockets, h.bounded, h.owns, h.begun, h.emptied,
      ⟨hnonneg, ?_, ?_⟩⟩, .refl⟩
    · show c.pool.activeConnections + c.acceptor.uncounted = c.pool.queueSize +
        (c.workers.set i .idle).countP Worker.isBusy + c.drained.length +
        ((c.skipped + 1 : Nat) : Int)
      omega
    · show c.skipped + 1 ≤ 1
      omega

/-! ## The cleanup -/

theorem NetAt.shutdown :
    Advances maxQueueSize c clients
      { c with pool := { c.pool with shutdown := true }, cleanup := .signalled } := by
  refine ⟨addrs, clients, ⟨?_, h.sockets, h.bounded, ?_, ?_, ?_,
    ⟨h.counted.nonneg, h.counted.balance, h.counted.skipped⟩⟩,
    .single (Ledger.Step.close (c.ledger clients))⟩
  · exact h.rep.frame (fun _ _ => rfl) rfl rfl rfl
  · exact h.owns.mono (fun _ _ => rfl) fun _ ha => ha
  · simp
  · simp

/-- The steps between the shutdown and the drain change only the cleanup's place. -/
theorem NetAt.goOn {place : Cleanup} (hat : c.cleanup ≠ .notStarted) (hplace : place ≠ .notStarted)
    (hreturned : place ≠ .returned) :
    Advances maxQueueSize c clients { c with cleanup := place } := by
  refine ⟨addrs, clients, ⟨h.rep, h.sockets, h.bounded, h.owns, ?_, ?_,
    ⟨h.counted.nonneg, h.counted.balance, h.counted.skipped⟩⟩, .refl⟩
  · exact h.begun.trans (iff_of_false hat hplace)
  · intro hback
    exact absurd hback hreturned

theorem NetAt.drain {fuel : Nat} {closed : List Nat} (hat : c.cleanup = .joining c.workers.length)
    (hrun : drainSection fuel c.pool = .ok closed pool) :
    Advances maxQueueSize c clients
      { c with pool := pool, cleanup := .returned, drained := closed ++ c.drained } := by
  have hclosed : c.pool.shutdown = true := by
    cases hshutdown : c.pool.shutdown with
    | true => rfl
    | false =>
      have hnotStarted := h.begun.mp hshutdown
      cases hat.symm.trans hnotStarted
  obtain ⟨hdrained, hrep, honly⟩ := drainSection_ok h.rep hrun
  rw [flatMap_closedTickets h.sockets] at hdrained
  subst hdrained
  have hsize : c.pool.queueSize = clients.length := by rw [h.rep.size, h.rep.length_eq]
  have hsize' : pool.queueSize = 0 := hrep.size
  have hbalance := h.counted.balance
  refine ⟨[], [], ⟨hrep, by simp, ?_, ?_, ?_, fun _ => rfl, ⟨?_, ?_, h.counted.skipped⟩⟩,
    .single ?_⟩
  · show pool.queueSize ≤ max maxQueueSize 0
    omega
  · exact h.owns.mono honly.items (by simp)
  · show pool.shutdown = false ↔ Cleanup.returned = .notStarted
    rw [honly.shutdown, hclosed]
    simp
  · exact honly.activeConnections ▸ h.counted.nonneg
  · show pool.activeConnections + c.acceptor.uncounted = pool.queueSize +
      c.workers.countP Worker.isBusy + (clients.map ClientData.ticket ++ c.drained).length +
      c.skipped
    rw [honly.activeConnections, List.length_append, List.length_map]
    omega
  · have hdrain := Ledger.Step.drain (c.ledger clients) hclosed
    simpa [NetConfig.ledger, honly.shutdown] using hdrain

/-! ## Every step -/

/-- **The simulation.**  Each step of a party moves the tickets by steps of the
ledger and keeps the invariant. -/
theorem NetAt.step (hstep : NetStep maxQueueSize c c') : Advances maxQueueSize c clients c' := by
  cases hstep with
  | outOfMemory hat => exact h.outOfMemory
  | call client now item hat hticket hsocket hnull hfree =>
    exact h.call now hat hticket hsocket hnull hfree
  | enqueue item client pool hat hrun => exact h.enqueue hat hrun
  | reject item client pool hat hrun => exact h.reject hat hrun
  | dismiss item client pool hat hrun => exact h.dismiss hat hrun
  | count hat => exact h.count hat
  | take i client pool hat hrun => exact h.take hat hrun
  | retry i pool hat hrun => exact (workerSection_ok h.rep hrun).elim
  | exit i pool hat hrun => exact h.exit hat hrun
  | finish i client hat => exact h.finish hat
  | uncount i client hat => exact h.uncount hat
  | shutdown hat => exact h.shutdown
  | wake hat => exact h.goOn (by simp [hat]) (by simp) (by simp)
  | join i hat hexited => exact h.goOn (by simp [hat]) (by simp) (by simp)
  | drain fuel closed pool hat hrun => exact h.drain hat hrun

end

/-- The whole run refines a run of the ledger. -/
theorem net_run_refines
    (hrun : ReflTransGen (NetStep maxQueueSize) (NetConfig.init threadCount) c) :
    ∃ addrs clients, NetAt maxQueueSize c addrs clients ∧
      ReflTransGen Ledger.Step Ledger.empty (c.ledger clients) := by
  refine run_invariant (fun c => ∃ addrs clients, NetAt maxQueueSize c addrs clients ∧
    ReflTransGen Ledger.Step Ledger.empty (c.ledger clients)) ?_ hrun
    ⟨[], [], netAt_init maxQueueSize threadCount, .refl⟩
  intro c c' hinv hstep
  obtain ⟨addrs, clients, hat, hledger⟩ := hinv
  obtain ⟨addrs', clients', hat', hmoves⟩ := hat.step hstep
  exact ⟨addrs', clients', hat', hledger.trans hmoves⟩

/-- The ledger of a reachable configuration is sound. -/
theorem net_run_sound (hrun : ReflTransGen (NetStep maxQueueSize) (NetConfig.init threadCount) c) :
    ∃ addrs clients, NetAt maxQueueSize c addrs clients ∧ (c.ledger clients).Sound := by
  obtain ⟨addrs, clients, hat, hledger⟩ := net_run_refines hrun
  exact ⟨addrs, clients, hat,
    run_invariant Ledger.Sound (fun _ _ h => h.step) hledger Ledger.sound_empty⟩

end Steps

/-! ## Exactly-once delivery -/

/-- What the work queue guarantees. -/
structure DeliversOnce (maxQueueSize : Int) (c : NetConfig) : Prop where
  /-- the counter is the number of linked items and the tail is the last of them -/
  linked : ∃ addrs, Chain 0 c.pool.nextOf c.pool.workQueueHead addrs ∧
    (∀ a ∈ addrs, c.pool.items a ≠ none) ∧ c.pool.queueSize = addrs.length ∧
    c.pool.workQueueTail = addrs.getLast?.getD 0 ∧ (c.pool.workQueueTail = 0 ↔ addrs = [])
  bounded : c.pool.queueSize ≤ max maxQueueSize 0
  order : ∃ rest, c.queued = c.handed ++ rest
  /-- nobody is handed out or closed twice, or both -/
  atMostOnce : ∀ t, c.handed.count t + (c.refused ++ c.drained).count t ≤ 1
  /-- after the cleanup only a call of `enqueue_client` that still runs has a client -/
  settled : c.cleanup = .returned → ∀ t < c.passed,
    c.handed.count t + (c.refused ++ c.drained).count t = 1 ∨
      t ∈ c.acceptor.held.map ClientData.ticket
  /-- and such a call can only close it -/
  refusing : c.cleanup = .returned → ∀ item,
    enqueueSection maxQueueSize item c.pool = .ok .rejected c.pool

theorem NetAt.deliversOnce {addrs : List Nat} {clients : List ClientData}
    (h : NetAt maxQueueSize c addrs clients) (hsound : (c.ledger clients).Sound) :
    DeliversOnce maxQueueSize c where
  linked := ⟨addrs, h.rep.chain, fun _ ha => h.rep.allocated ha, h.rep.size, h.rep.tail,
    h.rep.tail_eq_zero_iff⟩
  bounded := h.bounded
  order := hsound.handed_in_order
  atMostOnce t := by
    have hcount := hsound.count_eq t
    have hissued := List.nodup_iff_count_le_one.mp hsound.distinct t
    simp only [NetConfig.ledger] at hcount hissued
    omega
  settled := by
    intro hreturned t ht
    by_cases hheld : t ∈ c.acceptor.held.map ClientData.ticket
    · exact Or.inr hheld
    · have hcount := hsound.count_eq t
      have hissued : (List.range c.passed).count t = 1 :=
        List.count_eq_one_of_mem hsound.distinct (List.mem_range.mpr ht)
      simp only [NetConfig.ledger, h.emptied hreturned, List.map_nil, List.count_nil,
        List.count_eq_zero_of_not_mem hheld, hissued] at hcount
      omega
  refusing := by
    intro hreturned item
    have hshutdown : c.pool.shutdown ≠ false := by
      intro hopen
      rw [h.begun.mp hopen] at hreturned
      cases hreturned
    simp [enqueueSection, hshutdown]

/-- As `main` runs the cleanup, no call of `enqueue_client` overlaps it. -/
theorem main_run_outside
    (hrun : ReflTransGen (MainStep maxQueueSize) (NetConfig.init threadCount) c)
    (hreturned : c.cleanup = .returned) : c.acceptor = .outside := by
  rcases hrun.cases_tail with hinit | ⟨c1, _, hlast⟩
  · rw [hinit] at hreturned
    cases hreturned
  · apply hlast.2
    rw [hreturned]
    simp

/-! ### A server with one worker and one client -/

/-- A client on socket 5. -/
def oneClient : ClientData := ⟨5, [49], 40000, 0, .new, 0, 0⟩

/-- Its work item is the only one. -/
def oneItem : Nat → Option WorkItem :=
  Function.update (fun _ => none) 1 (some (WorkItem.filled oneClient 0))

/-- The client is queued and nobody has taken it. -/
def oneQueued (acceptor : Acceptor) (active : Int) : NetConfig where
  pool := ⟨oneItem, 1, 1, 1, false, active⟩
  acceptor := acceptor
  workers := [.idle]
  cleanup := .notStarted
  passed := 1
  queued := [0]
  handed := []
  refused := []
  drained := []
  skipped := 0

/-- The acceptor has filled in the item. -/
def oneCalled : NetConfig :=
  { NetConfig.init 1 with
    pool := { initializeThreadPool with items := oneItem }
    acceptor := .holding 1 oneClient
    passed := 1 }

/-- The worker has taken the client out of the queue. -/
def oneTaken (acceptor : Acceptor) (active : Int) : NetConfig :=
  { oneQueued acceptor active with
    pool := ⟨Function.update oneItem 1 none, 0, 0, 0, false, active⟩
    workers := [.handling (WorkItem.filled oneClient 0).client]
    handed := [0] }

/-- It has closed the socket. -/
def oneClosing (acceptor : Acceptor) (active : Int) : NetConfig :=
  { oneTaken acceptor active with
    workers := [.closing (closeSocket (WorkItem.filled oneClient 0).client).2] }

/-- It has given the client back. -/
def oneServed (acceptor : Acceptor) (active : Int) : NetConfig :=
  { oneTaken acceptor active with
    pool := uncountConnection (oneTaken acceptor active).pool
    workers := [.idle]
    skipped := 0 + if 0 < active then 0 else 1 }

theorem oneCalled_step : NetStep 100 (NetConfig.init 1) oneCalled :=
  NetStep.call _ oneClient 0 1 rfl rfl (by decide) (by decide) rfl

theorem oneQueued_step : NetStep 100 oneCalled (oneQueued .counting 0) :=
  NetStep.enqueue oneCalled 1 oneClient (oneQueued .counting 0).pool rfl rfl

theorem oneQueued_count : NetStep 100 (oneQueued .counting 0) (oneQueued .outside 1) :=
  NetStep.count (oneQueued .counting 0) rfl

section Worker

variable (acceptor : Acceptor) (active : Int)

theorem oneTaken_step : NetStep 100 (oneQueued acceptor active) (oneTaken acceptor active) :=
  NetStep.take (oneQueued acceptor active) 0 _ (oneTaken acceptor active).pool rfl rfl

theorem oneClosing_step : NetStep 100 (oneTaken acceptor active) (oneClosing acceptor active) :=
  NetStep.finish (oneTaken acceptor active) 0 _ rfl

theorem oneServed_step : NetStep 100 (oneClosing acceptor active) (oneServed acceptor active) :=
  NetStep.uncount (oneClosing acceptor active) 0 _ rfl

end Worker

/-- The server after its cleanup. -/
def oneCleaned : NetConfig :=
  { oneServed .outside 1 with
    pool := ⟨Function.update oneItem 1 none, 0, 0, 0, true, 0⟩
    workers := [.exited]
    cleanup := .returned }

theorem MainStep.of_notStarted (hstep : NetStep maxQueueSize c c') (h : c'.cleanup = .notStarted) :
    MainStep maxQueueSize c c' :=
  ⟨hstep, fun hstarted => absurd h hstarted⟩

/-- The client is counted, served and given back; then the server shuts down. -/
theorem oneCleaned_run : ReflTransGen (MainStep 100) (NetConfig.init 1) oneCleaned := by
  let flagged : NetConfig :=
    { oneServed .outside 1 with
      pool := ⟨Function.update oneItem 1 none, 0, 0, 0, true, 0⟩
      cleanup := .signalled }
  let woken : NetConfig := { flagged with cleanup := .joining 0 }
  let left : NetConfig := { woken with workers := [.exited] }
  let joined : NetConfig := { left with cleanup := .joining 1 }
  have hshutdown : NetStep 100 (oneServed .outside 1) flagged := NetStep.shutdown _ rfl
  have hwake : NetStep 100 flagged woken := NetStep.wake flagged rfl
  have hexit : NetStep 100 woken left := NetStep.exit woken 0 woken.pool rfl rfl
  have hjoin : NetStep 100 left joined := NetStep.join left 0 rfl rfl
  have hdrain : NetStep 100 joined oneCleaned := NetStep.drain joined 1 [] joined.pool rfl rfl
  have hserved : ReflTransGen (MainStep 100) (NetConfig.init 1) (oneServed .outside 1) :=
    .head (.of_notStarted oneCalled_step rfl) <| .head (.of_notStarted oneQueued_step rfl) <|
    .head (.of_notStarted oneQueued_count rfl) <|
    .head (.of_notStarted (oneTaken_step .outside 1) rfl) <|
    .head (.of_notStarted (oneClosing_step .outside 1) rfl) <|
    .single (.of_notStarted (oneServed_step .outside 1) rfl)
  exact hserved.trans <| .head ⟨hshutdown, fun _ => rfl⟩ <| .head ⟨hwake, fun _ => rfl⟩ <|
    .head ⟨hexit, fun _ => rfl⟩ <| .head ⟨hjoin, fun _ => rfl⟩ <| .single ⟨hdrain, fun _ => rfl⟩

/-! ### The result -/

/-- **The work queue delivers each client exactly once**, in any interleaving of
the acceptor, the workers and the cleanup; and once `main`'s cleanup has
returned, every client was handed to one worker or closed once. -/
theorem work_queue_delivers_once (maxQueueSize : Int) (threadCount : Nat) (c : NetConfig)
    (hrun : ReflTransGen (NetStep maxQueueSize) (NetConfig.init threadCount) c) :
    DeliversOnce maxQueueSize c ∧
      (ReflTransGen (MainStep maxQueueSize) (NetConfig.init threadCount) c →
        c.cleanup = .returned → ∀ t < c.passed,
          c.handed.count t + (c.refused ++ c.drained).count t = 1) := by
  obtain ⟨addrs, clients, hat, hsound⟩ := net_run_sound hrun
  have hdelivers := hat.deliversOnce hsound
  refine ⟨hdelivers, ?_⟩
  intro hmain hreturned t ht
  rcases hdelivers.settled hreturned t ht with honce | hheld
  · exact honce
  · rw [main_run_outside hmain hreturned] at hheld
    cases hheld

/-- After the cleanup the one client was handed to the worker, once. -/
theorem work_queue_delivers_once_cleaned :
    oneCleaned.handed.count 0 + (oneCleaned.refused ++ oneCleaned.drained).count 0 = 1 :=
  (work_queue_delivers_once 100 1 oneCleaned (oneCleaned_run.lift id fun _ _ h => h.1)).2
    oneCleaned_run rfl 0 (by decide)

/-! ## The connection counter -/

/-- No shutdown, nothing in the queue, no call of `enqueue_client`, no worker with a
client. -/
structure Quiescent (c : NetConfig) : Prop where
  running : c.pool.shutdown = false
  queue : c.pool.workQueueHead = 0
  acceptor : c.acceptor = .outside
  workers : ∀ w ∈ c.workers, w.isBusy = false

/-- A step that is not a skipped decrement: a worker that uncounts its client finds
`active_connections > 0`. -/
def TimelyStep (maxQueueSize : Int) (c c' : NetConfig) : Prop :=
  NetStep maxQueueSize c c' ∧ ∀ (i : Nat) (client : ClientData),
    c.workers[i]? = some (.closing client) → c'.workers[i]? = some .idle →
      0 < c.pool.activeConnections

/-- Such steps are the ones that leave the number of skipped decrements. -/
theorem TimelyStep.skipped_eq (h : TimelyStep maxQueueSize c c') : c'.skipped = c.skipped := by
  obtain ⟨hstep, htimely⟩ := h
  cases hstep with
  | uncount i client hat =>
    have hlt : i < c.workers.length := (List.getElem?_eq_some_iff.mp hat).1
    have hidle : (c.workers.set i Worker.idle)[i]? = some .idle := List.getElem?_set_self hlt
    show c.skipped + (if 0 < c.pool.activeConnections then 0 else 1) = c.skipped
    rw [if_pos (htimely i client hat hidle), Nat.add_zero]
  | _ => rfl

theorem timely_run_skipped
    (hrun : ReflTransGen (TimelyStep maxQueueSize) (NetConfig.init threadCount) c) :
    c.skipped = 0 :=
  run_invariant (fun c => c.skipped = 0) (fun _ _ h hstep => hstep.skipped_eq.trans h) hrun rfl

/-- At rest the counter shows one connection for each decrement that was skipped. -/
theorem net_run_at_rest (hrun : ReflTransGen (NetStep maxQueueSize) (NetConfig.init threadCount) c)
    (hquiet : Quiescent c) : c.pool.activeConnections = c.skipped ∧ c.skipped ≤ 1 := by
  obtain ⟨addrs, clients, hat, hsound⟩ := net_run_sound hrun
  have hbalance := hat.counted.balance
  have hsize : c.pool.queueSize = 0 := by
    rw [hat.rep.size, hat.rep.chain.eq_null_iff.mp hquiet.queue]
    rfl
  have hbusy : c.workers.countP Worker.isBusy = 0 :=
    List.countP_eq_zero.mpr fun w hw => by simp [hquiet.workers w hw]
  have hdrained : c.drained = [] := hsound.undrained hquiet.running
  simp only [hquiet.acceptor, Acceptor.uncounted, hsize, hbusy, hdrained, List.length_nil]
    at hbalance
  refine ⟨?_, hat.counted.skipped⟩
  omega

/-- **The connection counter at rest.**  It is exact in every run in which no
decrement is skipped.  In any run it is off by the number of skipped decrements,
and there is at most one. -/
theorem connections_exact_iff (maxQueueSize : Int) (threadCount : Nat) (c : NetConfig)
    (hrun : ReflTransGen (NetStep maxQueueSize) (NetConfig.init threadCount) c)
    (hquiet : Quiescent c) :
    (ReflTransGen (TimelyStep maxQueueSize) (NetConfig.init threadCount) c →
        c.pool.activeConnections = 0) ∧
      (c.pool.activeConnections = 0 ↔ c.skipped = 0) ∧ c.skipped ≤ 1 := by
  obtain ⟨hactive, hskipped⟩ := net_run_at_rest hrun hquiet
  refine ⟨?_, ?_, hskipped⟩
  · intro htimely
    rw [hactive, timely_run_skipped htimely]
    rfl
  · rw [hactive]
    exact Int.natCast_eq_zero

/-- While no worker has a client every step is timely. -/
theorem TimelyStep.of_idle (hstep : NetStep maxQueueSize c c')
    (hidle : ∀ w ∈ c.workers, w.isBusy = false) : TimelyStep maxQueueSize c c' := by
  refine ⟨hstep, ?_⟩
  intro i client hat
  cases hidle _ (List.mem_of_getElem? hat)

theorem TimelyStep.of_counted (hstep : NetStep maxQueueSize c c')
    (h : 0 < c.pool.activeConnections) :
    TimelyStep maxQueueSize c c' :=
  ⟨hstep, fun _ _ _ _ => h⟩

/-- Counted before it is given back, the client leaves no trace. -/
theorem connections_exact_iff_counted : (oneServed .outside 1).pool.activeConnections = 0 := by
  have htimely : ReflTransGen (TimelyStep 100) (NetConfig.init 1) (oneServed .outside 1) :=
    .head (.of_idle oneCalled_step (by decide)) <| .head (.of_idle oneQueued_step (by decide)) <|
    .head (.of_idle oneQueued_count (by decide)) <|
    .head (.of_counted (oneTaken_step .outside 1) (by decide)) <|
    .head (.of_counted (oneClosing_step .outside 1) (by decide)) <|
    .single (.of_counted (oneServed_step .outside 1) (by decide))
  exact (connections_exact_iff 100 1 (oneServed .outside 1) (htimely.lift id fun _ _ h => h.1)
    ⟨rfl, rfl, rfl, by decide⟩).1 htimely

/-- A worker that gives the client back before the acceptor has counted it leaves
the counter at one, with nobody connected. -/
theorem connections_overtaken :
    ∃ c, ReflTransGen (NetStep 100) (NetConfig.init 1) c ∧ Quiescent c ∧
      c.pool.activeConnections = 1 := by
  have hcount : NetStep 100 (oneServed .counting 0) _ := NetStep.count (oneServed .counting 0) rfl
  have hrun : ReflTransGen (NetStep 100) (NetConfig.init 1) (oneServed .counting 0) :=
    .head oneCalled_step <| .head oneQueued_step <| .head (oneTaken_step .counting 0) <|
    .head (oneClosing_step .counting 0) <| .single (oneServed_step .counting 0)
  exact ⟨_, hrun.tail hcount, ⟨rfl, rfl, rfl, by decide⟩, rfl⟩

end FarouKernel.Ports.Net
