import FarouKernel.Ports.KtreeModel
import FarouKernel.Verified.RingBuffer
import FarouKernel.Verified.Runs

/-!
# The ring buffer is a bounded queue

`head` and `tail` are equal both in an empty and in a full buffer, so `count` tells
them apart.  If `KTREE_MAX_NODES` is a power of 2, the mask of the source is the
remainder by it, and the `count` cells from `head` on are the queue.

A configuration is the buffer with what was pushed into it and popped from it since it
was last cleared, in order.
-/

namespace FarouKernel.Ports.Ktree

open Verified

/-- A call on a ring buffer. -/
inductive RingCall where
  | push (idx : Nat)
  | pop
  | clear

/-- The buffer, with the indices pushed and popped since it was last cleared. -/
structure RingConfig where
  ring : KtreeRingBuffer
  pushed : List Nat
  popped : List Nat

/-- After `ktree_ring_init`. -/
def RingConfig.init (ring : KtreeRingBuffer) : RingConfig := ⟨ktreeRingInit ring, [], []⟩

/-- After a call, if it stays inside the array. -/
def RingConfig.call (maxNodes : Nat) (c : RingConfig) : RingCall → Option RingConfig
  | .push idx =>
    (ktreeRingPush maxNodes c.ring idx).map fun
      | (.ok _, ring) => ⟨ring, c.pushed ++ [idx], c.popped⟩
      | (.error _, ring) => ⟨ring, c.pushed, c.popped⟩
  | .pop =>
    (ktreeRingPop maxNodes c.ring).map fun
      | (.ok idx, ring) => ⟨ring, c.pushed, c.popped ++ [idx]⟩
      | (.error _, ring) => ⟨ring, c.pushed, c.popped⟩
  | .clear => some ⟨ktreeRingClear c.ring, [], []⟩

/-- The buffer is the queue of what was pushed and not popped yet, and its next call
does what it does on this queue. -/
structure IsQueue (maxNodes : Nat) (c : RingConfig) (queue : List Nat) : Prop where
  order : c.pushed = c.popped ++ queue
  size : ktreeRingSize c.ring = queue.length
  length_le : queue.length ≤ maxNodes
  head_lt : c.ring.head < maxNodes
  tail_lt : c.ring.tail < maxNodes
  push_full : ∀ idx, queue.length = maxNodes →
    ktreeRingPush maxNodes c.ring idx = some (.error .full, c.ring)
  push_ok : ∀ idx, queue.length ≠ maxNodes →
    ∃ ring, ktreeRingPush maxNodes c.ring idx = some (.ok (), ring)
  pop_empty : queue = [] → ktreeRingPop maxNodes c.ring = some (.error .empty, c.ring)
  pop_ok : ∀ idx rest, queue = idx :: rest →
    ∃ ring, ktreeRingPop maxNodes c.ring = some (.ok idx, ring)

/-! ## The calls -/

/-- The cells of the queue. -/
def KtreeRingBuffer.contents (maxNodes : Nat) (ring : KtreeRingBuffer) : List Nat :=
  ringContents maxNodes ring.buffer ring.head ring.count

/-- `tail` is the first cell behind the queue. -/
structure RingWf (maxNodes : Nat) (ring : KtreeRingBuffer) : Prop where
  count_le : ring.count ≤ maxNodes
  head_lt : ring.head < maxNodes
  tail_eq : ring.tail = (ring.head + ring.count) % maxNodes

section

variable {k : Nat} {ring : KtreeRingBuffer} {c : RingConfig}

theorem two_pow_lt_of_le (hk : k ≤ 15) : 2 ^ k < 2 ^ 16 :=
  Nat.pow_lt_pow_right (by decide) (by omega)

/-- The mask is the remainder, which a 16-bit field holds. -/
theorem masked_eq (hk : k ≤ 15) (i : Nat) : (i &&& (2 ^ k - 1)) % 2 ^ 16 = i % 2 ^ k := by
  rw [Nat.and_two_pow_sub_one_eq_mod]
  have hlt : i % 2 ^ k < 2 ^ k := Nat.mod_lt i (Nat.two_pow_pos k)
  exact Nat.mod_eq_of_lt (hlt.trans (two_pow_lt_of_le hk))

theorem ringWf_init (ring : KtreeRingBuffer) : RingWf (2 ^ k) (ktreeRingInit ring) where
  count_le := Nat.zero_le _
  head_lt := Nat.two_pow_pos k
  tail_eq := (Nat.zero_mod _).symm

theorem RingWf.tail_lt (h : RingWf (2 ^ k) ring) : ring.tail < 2 ^ k := by
  rw [h.tail_eq]
  exact Nat.mod_lt _ (Nat.two_pow_pos k)

theorem RingWf.push (h : RingWf (2 ^ k) ring) (hk : k ≤ 15) (hroom : ring.count ≠ 2 ^ k)
    (idx : Nat) :
    ∃ ring', ktreeRingPush (2 ^ k) ring idx = some (.ok (), ring') ∧ RingWf (2 ^ k) ring' ∧
      ring'.contents (2 ^ k) = ring.contents (2 ^ k) ++ [idx] := by
  have hlt : ring.count < 2 ^ k := Nat.lt_of_le_of_ne h.count_le hroom
  have hcount : (ring.count + 1) % 2 ^ 16 = ring.count + 1 := by
    have hpow := two_pow_lt_of_le hk
    exact Nat.mod_eq_of_lt (by omega)
  have hfull : ktreeRingFull (2 ^ k) ring = false := beq_eq_false_iff_ne.mpr hroom
  have hpush : ktreeRingPush (2 ^ k) ring idx = some (.ok (),
      { ring with
        buffer := Function.update ring.buffer ring.tail idx
        tail := (ring.tail + 1) % 2 ^ k
        count := ring.count + 1 }) := by
    rw [ktreeRingPush, hfull, if_neg Bool.false_ne_true, if_pos h.tail_lt, masked_eq hk, hcount]
  refine ⟨_, hpush, ?_, ?_⟩
  · refine ⟨hlt, h.head_lt, ?_⟩
    show (ring.tail + 1) % 2 ^ k = (ring.head + (ring.count + 1)) % 2 ^ k
    rw [h.tail_eq, Nat.mod_add_mod, Nat.add_assoc]
  · show ringContents _ (Function.update ring.buffer ring.tail idx) ring.head _ = _
    rw [h.tail_eq, ringContents_update hlt]
    rfl

theorem RingWf.pop (h : RingWf (2 ^ k) ring) (hk : k ≤ 15) (hne : ring.count ≠ 0) :
    ∃ idx ring', ktreeRingPop (2 ^ k) ring = some (.ok idx, ring') ∧ RingWf (2 ^ k) ring' ∧
      ring.contents (2 ^ k) = idx :: ring'.contents (2 ^ k) := by
  obtain ⟨rest, hrest⟩ := Nat.exists_eq_succ_of_ne_zero hne
  have hle := h.count_le
  have hcount : (ring.count + (2 ^ 16 - 1)) % 2 ^ 16 = rest := by
    have hpow := two_pow_lt_of_le hk
    omega
  have hempty : ktreeRingEmpty ring = false := beq_eq_false_iff_ne.mpr hne
  have hpop : ktreeRingPop (2 ^ k) ring = some (.ok (ring.buffer ring.head),
      { ring with head := (ring.head + 1) % 2 ^ k, count := rest }) := by
    rw [ktreeRingPop, hempty, if_neg Bool.false_ne_true, if_pos h.head_lt, masked_eq hk, hcount]
  refine ⟨_, _, hpop, ?_, ?_⟩
  · refine ⟨by show rest ≤ _; omega, Nat.mod_lt _ (Nat.two_pow_pos k), ?_⟩
    show ring.tail = ((ring.head + 1) % 2 ^ k + rest) % 2 ^ k
    rw [h.tail_eq, hrest, Nat.mod_add_mod, Nat.add_assoc, Nat.add_comm 1 rest]
  · rw [KtreeRingBuffer.contents, hrest, ringContents_cons, Nat.mod_eq_of_lt h.head_lt]
    rfl

/-! ## Sequences of calls -/

/-- What holds after every sequence of calls: what was pushed is what was popped, followed
by the contents. -/
structure RingInv (k : Nat) (c : RingConfig) : Prop where
  wf : RingWf (2 ^ k) c.ring
  order : c.pushed = c.popped ++ c.ring.contents (2 ^ k)

theorem RingInv.call (h : RingInv k c) (hk : k ≤ 15) (call : RingCall) :
    ∃ c', c.call (2 ^ k) call = some c' ∧ RingInv k c' := by
  cases call with
  | push idx =>
    by_cases hfull : c.ring.count = 2 ^ k
    · have hpush : ktreeRingPush (2 ^ k) c.ring idx = some (.error .full, c.ring) :=
        if_pos (beq_iff_eq.mpr hfull)
      exact ⟨c, by rw [RingConfig.call, hpush]; rfl, h⟩
    · obtain ⟨ring, hpush, hwf, hcontents⟩ := h.wf.push hk hfull idx
      refine ⟨⟨ring, c.pushed ++ [idx], c.popped⟩, by rw [RingConfig.call, hpush]; rfl, hwf, ?_⟩
      rw [hcontents, h.order, List.append_assoc]
  | pop =>
    by_cases hempty : c.ring.count = 0
    · have hpop : ktreeRingPop (2 ^ k) c.ring = some (.error .empty, c.ring) :=
        if_pos (beq_iff_eq.mpr hempty)
      exact ⟨c, by rw [RingConfig.call, hpop]; rfl, h⟩
    · obtain ⟨idx, ring, hpop, hwf, hcontents⟩ := h.wf.pop hk hempty
      refine ⟨⟨ring, c.pushed, c.popped ++ [idx]⟩, by rw [RingConfig.call, hpop]; rfl, hwf, ?_⟩
      rw [h.order, hcontents, List.append_assoc]
      rfl
  | clear => exact ⟨_, rfl, ringWf_init c.ring, rfl⟩

theorem RingInv.isQueue (h : RingInv k c) (hk : k ≤ 15) :
    IsQueue (2 ^ k) c (c.ring.contents (2 ^ k)) := by
  have hlength : (c.ring.contents (2 ^ k)).length = c.ring.count := ringContents_length _ _
  constructor
  case order => exact h.order
  case size => exact hlength.symm
  case length_le => exact hlength ▸ h.wf.count_le
  case head_lt => exact h.wf.head_lt
  case tail_lt => exact h.wf.tail_lt
  case push_full =>
    intro idx hfull
    exact if_pos (beq_iff_eq.mpr (hlength ▸ hfull))
  case push_ok =>
    intro idx hroom
    obtain ⟨ring, hpush, _⟩ := h.wf.push hk (hlength ▸ hroom) idx
    exact ⟨ring, hpush⟩
  case pop_empty =>
    intro hempty
    rw [hempty] at hlength
    exact if_pos (beq_iff_eq.mpr hlength.symm)
  case pop_ok =>
    intro idx rest hcons
    have hne : c.ring.count ≠ 0 := by
      rw [← hlength, hcons]
      exact Nat.succ_ne_zero _
    obtain ⟨idx', ring, hpop, _, hcontents⟩ := h.wf.pop hk hne
    cases hcons.symm.trans hcontents
    exact ⟨ring, hpop⟩

end

/-- **The ring buffer is a bounded queue.**  If `KTREE_MAX_NODES` is a power of 2 up to
32768, every sequence of calls after `ktree_ring_init` stays inside the array, and the
buffer is then the queue of what was pushed and not popped since it was last cleared. -/
theorem ktree_ring_isQueue (k : Nat) (hk : k ≤ 15) (ring : KtreeRingBuffer)
    (calls : List RingCall) :
    ∃ c, calls.foldlM (RingConfig.call (2 ^ k)) (RingConfig.init ring) = some c ∧
      ∃ queue, IsQueue (2 ^ k) c queue := by
  have hinit : RingInv k (RingConfig.init ring) := ⟨ringWf_init ring, rfl⟩
  obtain ⟨c, hrun, hinv⟩ := calls_invariant (RingInv k) (fun c call _ h => h.call hk call) hinit
  exact ⟨c, hrun, _, hinv.isQueue hk⟩

/-- Of two indices in the default buffer the first is popped. -/
theorem ktree_ring_isQueue_popped :
    ∃ c, [RingCall.push 7, .push 8, .pop].foldlM (RingConfig.call 4096)
        (RingConfig.init ⟨fun _ => 0, 0, 0, 0⟩) = some c ∧ c.popped = [7] ∧
      IsQueue 4096 c [8] := by
  obtain ⟨c, hrun, queue, hqueue⟩ := ktree_ring_isQueue 12 (by decide) ⟨fun _ => 0, 0, 0, 0⟩
    [.push 7, .push 8, .pop]
  have hpushed : some c.pushed = some [7, 8] := (congrArg (Option.map RingConfig.pushed) hrun).symm
  have hpopped : some c.popped = some [7] := (congrArg (Option.map RingConfig.popped) hrun).symm
  have horder := hqueue.order
  rw [Option.some.inj hpushed, Option.some.inj hpopped] at horder
  cases horder
  exact ⟨c, hrun, Option.some.inj hpopped, hqueue⟩

end FarouKernel.Ports.Ktree
