import FarouKernel.Ports.NetworkModel
import FarouKernel.Verified.LinkedList

/-!
# The work queue and its linked list

`QueueRep p addrs clients` ties the pool to the list of clients it stands for:
the items at `addrs` are linked from the head in that order, the tail is the
last of them and the counter is their number.  Each of the three critical
sections that change the queue is run once, on any pool that represents a list,
and the run says which list the pool represents afterwards and that nothing
outside the old items was written.  None of them reads an item that is not
allocated.
-/

namespace FarouKernel.Ports.Net

open Verified

/-- The successor stored in an item. -/
def ThreadPool.nextOf (p : ThreadPool) (a : Nat) : Nat := (p.items a).elim 0 WorkItem.next

/-- The client stored in an item. -/
def ThreadPool.clientAt (p : ThreadPool) (a : Nat) : Option ClientData :=
  (p.items a).map WorkItem.client

/-- The pool represents the list `clients`, in the items at `addrs`. -/
structure QueueRep (p : ThreadPool) (addrs : List Nat) (clients : List ClientData) : Prop where
  chain : Chain 0 p.nextOf p.workQueueHead addrs
  stored : addrs.map p.clientAt = clients.map some
  tail : p.workQueueTail = addrs.getLast?.getD 0
  size : p.queueSize = addrs.length

/-- What a critical section on the items at `addrs` leaves alone. -/
structure OnlyItems (addrs : List Nat) (p p' : ThreadPool) : Prop where
  items : ∀ b, b ∉ addrs → p'.items b = p.items b
  shutdown : p'.shutdown = p.shutdown
  activeConnections : p'.activeConnections = p.activeConnections

variable {client : ClientData} {fuel : Nat}

section Runs

variable {p p' : ThreadPool} {a : Nat} {addrs : List Nat} {clients : List ClientData}

theorem nextOf_congr (h : p'.items a = p.items a) : p'.nextOf a = p.nextOf a := by
  unfold ThreadPool.nextOf
  rw [h]

theorem clientAt_congr (h : p'.items a = p.items a) : p'.clientAt a = p.clientAt a := by
  unfold ThreadPool.clientAt
  rw [h]

@[simp] theorem loadItem_run {item : WorkItem} (h : p.items a = some item) :
    loadItem a p = .ok item p := by
  simp [loadItem, h]

/-! ## Reading the representation -/

section

variable (h : QueueRep p addrs clients)

include h

theorem QueueRep.length_eq : addrs.length = clients.length := by
  simpa using congrArg List.length h.stored

/-- Every address of the queue holds an item. -/
theorem QueueRep.allocated (ha : a ∈ addrs) : p.items a ≠ none := by
  intro hnone
  have hmem : p.clientAt a ∈ clients.map some := h.stored ▸ List.mem_map_of_mem ha
  rw [ThreadPool.clientAt, hnone] at hmem
  simp at hmem

theorem QueueRep.not_mem_of_free (hfree : p.items a = none) :
    a ∉ addrs := fun ha => h.allocated ha hfree

/-- The tail is `NULL` exactly when the queue is empty. -/
theorem QueueRep.tail_eq_zero_iff : p.workQueueTail = 0 ↔ addrs = [] := by
  rw [h.tail]
  rcases List.eq_nil_or_concat addrs with rfl | ⟨xs, x, rfl⟩
  · simp
  · have hx : x ≠ 0 := h.chain.ne_null (by simp)
    simpa using hx

/-- Writes outside the items of the queue do not touch it. -/
theorem QueueRep.frame (hitems : ∀ b ∈ addrs, p'.items b = p.items b)
    (hhead : p'.workQueueHead = p.workQueueHead) (htail : p'.workQueueTail = p.workQueueTail)
    (hsize : p'.queueSize = p.queueSize) : QueueRep p' addrs clients where
  chain := hhead ▸ h.chain.congr fun b hb => nextOf_congr (hitems b hb)
  stored := by
    rw [← h.stored]
    exact List.map_congr_left fun b hb => clientAt_congr (hitems b hb)
  tail := htail.trans h.tail
  size := hsize.trans h.size

/-- So an item outside the queue may be filled in or freed. -/
theorem QueueRep.update (hnot : a ∉ addrs) (item : Option WorkItem) :
    QueueRep { p with items := Function.update p.items a item } addrs clients := by
  refine h.frame ?_ rfl rfl rfl
  intro b hb
  apply Function.update_of_ne
  intro hba
  exact hnot (hba ▸ hb)

end

/-! ## The critical sections -/

/-- Appending to an empty queue sets head and tail. -/
theorem linkItem_run_empty (h : QueueRep p [] clients) (ha : a ≠ 0)
    (hitem : p.items a = some ⟨client, 0⟩) :
    ∃ p', linkItem a p = .ok () p' ∧ QueueRep p' [a] (clients ++ [client]) ∧
      OnlyItems [] p p' := by
  have htail : p.workQueueTail = 0 := h.tail
  have hclients : clients = [] := List.length_eq_zero_iff.mp h.length_eq.symm
  have hsize : p.queueSize = 0 := h.size
  refine ⟨{ p with
    workQueueHead := a, workQueueTail := a, queueSize := p.queueSize + 1 }, ?_, ?_, ?_⟩
  · simp [linkItem, htail]
  · refine ⟨⟨rfl, ha, ?_⟩, ?_, rfl, ?_⟩
    · simp [ThreadPool.nextOf, hitem]
    · simp [ThreadPool.clientAt, hitem, hclients]
    · simp [hsize]
  · exact ⟨fun b _ => rfl, rfl, rfl⟩

/-- Appending to a queue that has a last item `x` writes the successor of `x`. -/
theorem linkItem_run_snoc {xs : List Nat} {x : Nat} (h : QueueRep p (xs ++ [x]) clients)
    (ha : a ≠ 0) (hnew : a ∉ xs ++ [x]) (hitem : p.items a = some ⟨client, 0⟩) :
    ∃ p', linkItem a p = .ok () p' ∧ QueueRep p' (xs ++ [x] ++ [a]) (clients ++ [client]) ∧
      OnlyItems (xs ++ [x]) p p' := by
  have htail : p.workQueueTail = x := by simpa using h.tail
  have hx : x ≠ 0 := h.chain.ne_null (by simp)
  have hax : a ≠ x := fun hax => hnew (by simp [hax])
  have hnext : p.nextOf a = 0 := by simp [ThreadPool.nextOf, hitem]
  have hsize : p.queueSize = xs.length + 1 := by simpa using h.size
  obtain ⟨item, hold⟩ := Option.ne_none_iff_exists'.mp (h.allocated (a := x) (by simp))
  have hother : ∀ b, b ≠ x →
      Function.update p.items x (some { item with next := a }) b = p.items b :=
    fun b hb => Function.update_of_ne hb _ _
  refine ⟨{ p with
    items := Function.update p.items x (some { item with next := a })
    workQueueTail := a
    queueSize := p.queueSize + 1 }, ?_, ⟨?_, ?_, ?_, ?_⟩, ⟨?_, rfl, rfl⟩⟩
  · simp [linkItem, htail, hx, hold, storeItem]
  · have hchain : Chain 0 p.nextOf p.workQueueHead (xs ++ x :: []) := h.chain
    rw [List.append_assoc]
    refine hchain.insert_behind ha ?_ ?_ fun b _ hbx => nextOf_congr (hother b hbx)
    · simp [ThreadPool.nextOf]
    · rw [nextOf_congr (p := p) (hother a hax), hnext]
      exact hchain.tail_of_append.symm
  · have hclients : (clients ++ [client]).map some =
        (xs ++ [x]).map p.clientAt ++ [some client] := by
      rw [List.map_append, h.stored]
      rfl
    rw [List.map_append, hclients]
    congr 1
    · apply List.map_congr_left
      intro b _
      by_cases hbx : b = x
      · subst hbx
        simp [ThreadPool.clientAt, hold]
      · exact clientAt_congr (hother b hbx)
    · simp [ThreadPool.clientAt, hother a hax, hitem]
  · simp
  · simp only [List.length_append, List.length_singleton, hsize]
    omega
  · intro b hb
    exact hother b fun hbx => hb (by simp [hbx])

/-- Appending an item that is not in the queue. -/
theorem linkItem_run (h : QueueRep p addrs clients) (ha : a ≠ 0) (hnew : a ∉ addrs)
    (hitem : p.items a = some ⟨client, 0⟩) :
    ∃ p', linkItem a p = .ok () p' ∧ QueueRep p' (addrs ++ [a]) (clients ++ [client]) ∧
      OnlyItems addrs p p' := by
  rcases List.eq_nil_or_concat' addrs with rfl | ⟨xs, x, rfl⟩
  · exact linkItem_run_empty h ha hitem
  · exact linkItem_run_snoc h ha hnew hitem

/-- Taking the oldest client out of a queue that is not empty. -/
theorem dequeueClient_run (h : QueueRep p addrs (client :: clients)) :
    ∃ p', dequeueClient p = .ok (some client) p' ∧ QueueRep p' addrs.tail clients ∧
      OnlyItems addrs p p' := by
  cases addrs with
  | nil => exact absurd h.stored (by simp)
  | cons x xs =>
    obtain ⟨hhead, hx, hrest⟩ := h.chain
    obtain ⟨hclient, hstored⟩ :
        p.clientAt x = some client ∧ xs.map p.clientAt = clients.map some := by
      simpa using h.stored
    obtain ⟨item, hitem⟩ := Option.ne_none_iff_exists'.mp (h.allocated (a := x) (by simp))
    have hnext : p.nextOf x = item.next := by simp [ThreadPool.nextOf, hitem]
    have hclient' : item.client = client := by simpa [ThreadPool.clientAt, hitem] using hclient
    have hsize : p.queueSize = xs.length + 1 := by simpa using h.size
    have hsize0 : p.queueSize ≠ 0 := by omega
    have hnotin : ∀ b ∈ xs, b ≠ x := by
      intro b hb hbx
      exact (List.nodup_cons.mp h.chain.nodup).1 (hbx ▸ hb)
    rw [hnext] at hrest
    refine ⟨{ p with
      items := Function.update p.items x none
      workQueueHead := item.next
      workQueueTail := if item.next = 0 then 0 else p.workQueueTail
      queueSize := p.queueSize - 1 }, ?_, ?_, ?_⟩
    · by_cases hzero : item.next = 0 <;>
        simp [dequeueClient, hhead, hx, hsize0, hitem, hzero, hclient', freeItem]
    · have hother : ∀ b ∈ xs, Function.update p.items x none b = p.items b :=
        fun b hb => Function.update_of_ne (hnotin b hb) _ _
      refine ⟨?_, ?_, ?_, ?_⟩
      · exact hrest.congr fun b hb => nextOf_congr (hother b hb)
      · rw [← hstored]
        exact List.map_congr_left fun b hb => clientAt_congr (hother b hb)
      · show (if item.next = 0 then 0 else p.workQueueTail) = xs.getLast?.getD 0
        by_cases hzero : item.next = 0
        · rw [if_pos hzero, hrest.eq_null_iff.mp hzero]
          rfl
        · have hne : xs ≠ [] := fun hnil => hzero (hrest.eq_null_iff.mpr hnil)
          rw [if_neg hzero, h.tail, List.getLast?_cons_of_ne_nil hne]
      · simp [hsize]
    · refine ⟨?_, rfl, rfl⟩
      intro b hb
      exact Function.update_of_ne (fun hbx => hb (by simp [hbx])) _ _

/-- The loop of the cleanup frees every item and closes every open socket. -/
theorem drainLoop_run {curr : Nat} (hchain : Chain 0 p.nextOf curr addrs)
    (hstored : addrs.map p.clientAt = clients.map some) (hfuel : addrs.length < fuel) :
    ∃ p', drainLoop fuel curr p = .ok (clients.flatMap closedTickets) p' ∧
      OnlyItems addrs p p' := by
  induction addrs generalizing p curr fuel clients with
  | nil =>
    have hcurr : curr = 0 := hchain
    have hclients : clients = [] := by simpa using hstored.symm
    obtain ⟨k, rfl⟩ := Nat.exists_eq_add_one.mpr hfuel
    refine ⟨p, ?_, ⟨fun _ _ => rfl, rfl, rfl⟩⟩
    simp [drainLoop, hcurr, hclients]
  | cons x xs ih =>
    cases clients with
    | nil => exact absurd hstored (by simp)
    | cons client clients =>
      have hnodup := hchain.nodup
      obtain ⟨rfl, hx, hrest⟩ := hchain
      obtain ⟨hclient, hstored'⟩ :
          p.clientAt curr = some client ∧ xs.map p.clientAt = clients.map some := by
        simpa using hstored
      obtain ⟨item, hitem, rfl⟩ := Option.map_eq_some_iff.mp hclient
      obtain ⟨k, rfl⟩ := Nat.exists_eq_add_one.mpr (Nat.zero_lt_of_lt hfuel)
      have hnext : p.nextOf curr = item.next := by simp [ThreadPool.nextOf, hitem]
      have hother : ∀ b ∈ xs, Function.update p.items curr none b = p.items b := by
        intro b hb
        apply Function.update_of_ne
        intro hbx
        exact (List.nodup_cons.mp hnodup).1 (hbx ▸ hb)
      rw [hnext] at hrest
      obtain ⟨p', hrun, honly⟩ := ih
        (p := { p with items := Function.update p.items curr none })
        (hrest.congr fun b hb => nextOf_congr (hother b hb))
        ((List.map_congr_left fun b hb => clientAt_congr (hother b hb)).trans hstored')
        (Nat.lt_of_succ_lt_succ hfuel)
      refine ⟨p', ?_, ⟨?_, honly.shutdown, honly.activeConnections⟩⟩
      · simp [drainLoop, hx, hitem, freeItem, hrun]
      · intro b hb
        rw [List.mem_cons, not_or] at hb
        rw [honly.items b hb.2]
        exact Function.update_of_ne hb.1 _ _

/-- A run of the loop that ends is the same with more fuel. -/
theorem drainLoop_mono {curr : Nat} {closed : List Nat}
    (hrun : drainLoop fuel curr p = .ok closed p') (k : Nat) :
    drainLoop (fuel + k) curr p = .ok closed p' := by
  induction fuel generalizing curr p p' closed with
  | zero => simp [drainLoop] at hrun
  | succ fuel ih =>
    rw [Nat.succ_add]
    by_cases hcurr : curr = 0
    · simpa [drainLoop, hcurr] using hrun
    · cases hitem : p.items curr with
      | none => simp [drainLoop, hcurr, loadItem, hitem] at hrun
      | some item =>
        simp only [drainLoop, if_neg hcurr, Exec.bind_apply, loadItem_run hitem, freeItem,
          Exec.modify_apply, Outcome.andThen_ok, Outcome.andThen_eq_ok_iff] at hrun ⊢
        obtain ⟨rest, p1, hrest, hpure⟩ := hrun
        exact ⟨rest, p1, ih hrest, hpure⟩

section

variable (h : QueueRep p addrs clients)

include h

/-- The cleanup leaves an empty queue. -/
theorem drainSection_run (hfuel : addrs.length < fuel) :
    ∃ p', drainSection fuel p = .ok (clients.flatMap closedTickets) p' ∧ QueueRep p' [] [] ∧
      OnlyItems addrs p p' := by
  obtain ⟨p', hrun, honly⟩ := drainLoop_run h.chain h.stored hfuel
  refine ⟨{ p' with workQueueHead := 0, workQueueTail := 0, queueSize := 0 }, ?_, ?_, ?_⟩
  · simp [drainSection, hrun]
  · exact ⟨rfl, rfl, rfl, rfl⟩
  · exact ⟨honly.items, honly.shutdown, honly.activeConnections⟩

/-- So every run of it that ends has closed the sockets of the queue. -/
theorem drainSection_ok {closed : List Nat} (hrun : drainSection fuel p = .ok closed p') :
    closed = clients.flatMap closedTickets ∧ QueueRep p' [] [] ∧ OnlyItems addrs p p' := by
  obtain ⟨p1, hrun1, hrep, honly⟩ := drainSection_run h (Nat.lt_add_left fuel (Nat.lt_succ_self _))
  have hmore : drainSection (fuel + (addrs.length + 1)) p = .ok closed p' := by
    simp only [drainSection, Exec.bind_apply, Exec.get_apply, Outcome.andThen_ok,
      Outcome.andThen_eq_ok_iff] at hrun ⊢
    obtain ⟨rest, p2, hloop, hend⟩ := hrun
    exact ⟨rest, p2, drainLoop_mono hloop _, hend⟩
  cases hrun1.symm.trans hmore
  exact ⟨rfl, hrep, honly⟩

/-- What the section of `enqueue_client` has done if it returns `result`. -/
def Enqueued (maxQueueSize : Int) (a : Nat) (client : ClientData) (p : ThreadPool)
    (addrs : List Nat) (clients : List ClientData) (p' : ThreadPool) : EnqueueResult → Prop
  | .queued => p.shutdown = false ∧ p.queueSize < maxQueueSize ∧
      QueueRep p' (addrs ++ [a]) (clients ++ [client]) ∧ OnlyItems addrs p p'
  | _ => p' = p

/-- The section of `enqueue_client`: it waits at a full queue, refuses after a
shutdown, and appends otherwise. -/
theorem enqueueSection_run (maxQueueSize : Int) (ha : a ≠ 0) (hnew : a ∉ addrs)
    (hitem : p.items a = some ⟨client, 0⟩) :
    ∃ result p', enqueueSection maxQueueSize a p = .ok result p' ∧
      Enqueued maxQueueSize a client p addrs clients p' result := by
  cases hshutdown : p.shutdown with
  | true => exact ⟨.rejected, p, by simp [enqueueSection, hshutdown], rfl⟩
  | false =>
    by_cases hfull : maxQueueSize ≤ p.queueSize
    · exact ⟨.wait, p, by simp [enqueueSection, hshutdown, hfull], rfl⟩
    · obtain ⟨p', hrun, hrep, honly⟩ := linkItem_run h ha hnew hitem
      refine ⟨.queued, p', ?_, hshutdown, by omega, hrep, honly⟩
      simp [enqueueSection, hshutdown, hfull, hrun]

theorem enqueueSection_ok {maxQueueSize : Int} {result : EnqueueResult} (ha : a ≠ 0)
    (hnew : a ∉ addrs) (hitem : p.items a = some ⟨client, 0⟩)
    (hrun : enqueueSection maxQueueSize a p = .ok result p') :
    Enqueued maxQueueSize a client p addrs clients p' result := by
  obtain ⟨result', p1, hrun', hend⟩ := enqueueSection_run h maxQueueSize ha hnew hitem
  cases hrun'.symm.trans hrun
  exact hend

/-- What the section of `worker_thread` has done if it returns `result`: never `retry`,
since a worker does not find the queue empty after its test of the counter. -/
def Worked (p : ThreadPool) (addrs : List Nat) (clients : List ClientData) (p' : ThreadPool) :
    WorkerResult → Prop
  | .handle client =>
    ∃ rest, clients = client :: rest ∧ QueueRep p' addrs.tail rest ∧ OnlyItems addrs p p'
  | .retry => False
  | _ => p' = p

/-- The section of `worker_thread`: with clients in the queue it takes the oldest,
whether or not the server is shutting down. -/
theorem workerSection_run :
    ∃ result p', workerSection p = .ok result p' ∧ Worked p addrs clients p' result := by
  have hsize : p.queueSize = clients.length := by rw [h.size, h.length_eq]
  cases clients with
  | nil =>
    cases hshutdown : p.shutdown with
    | false => exact ⟨.wait, p, by simp [workerSection, hsize, hshutdown], rfl⟩
    | true => exact ⟨.exit, p, by simp [workerSection, hsize, hshutdown], rfl⟩
  | cons client rest =>
    have hsome : p.queueSize ≠ 0 := by
      rw [hsize, List.length_cons]
      omega
    obtain ⟨p', hrun, hrep, honly⟩ := dequeueClient_run h
    exact ⟨.handle client, p', by simp [workerSection, hsome, hrun], rest, rfl, hrep, honly⟩

theorem workerSection_ok {result : WorkerResult} (hrun : workerSection p = .ok result p') :
    Worked p addrs clients p' result := by
  obtain ⟨result', p1, hrun', hend⟩ := workerSection_run h
  cases hrun'.symm.trans hrun
  exact hend

end

end Runs

end FarouKernel.Ports.Net
