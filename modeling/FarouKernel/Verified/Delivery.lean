import Mathlib.Data.List.Perm.Basic
import Mathlib.Data.List.Nodup
import Mathlib.Tactic.Common

/-!
# Delivery through a queue that can be closed

What a producer/consumer queue is for, with everything but the bookkeeping left
out.  Tickets are issued to a producer.  It holds a ticket until it puts it into
the queue or refuses it; consumers are handed the tickets of the queue, oldest
first; once the queue is closed nothing is put into it any more and what is
left may be drained.

`Ledger.Sound` says that every ticket ever issued is in exactly one place and
that consumers see the tickets in the order they were queued.  Every `Step`
keeps it, so a program whose steps are steps of a ledger delivers every ticket
exactly once.
-/

namespace FarouKernel.Verified

/-- Where the tickets of a delivery are, and where they have been. -/
structure Ledger (τ : Type) where
  issued : List τ
  /-- with the producer -/
  held : List τ
  /-- in the queue, oldest first -/
  waiting : List τ
  /-- everything ever put into the queue, in that order -/
  queued : List τ
  /-- handed to consumers, in that order -/
  handed : List τ
  refused : List τ
  drained : List τ
  closed : Bool

namespace Ledger

variable {τ : Type}

/-- The ledger before the first ticket. -/
def empty : Ledger τ := ⟨[], [], [], [], [], [], [], false⟩

/-- One movement of tickets.  The producer gets a new one and puts it into the queue or is
refused, consumers are handed the oldest, and a closed queue can be drained. -/
inductive Step : Ledger τ → Ledger τ → Prop
  | issue (L : Ledger τ) (t : τ) (fresh : t ∉ L.issued) :
      Step L { L with issued := L.issued ++ [t], held := t :: L.held }
  | refuse (L : Ledger τ) (t : τ) (rest : List τ) (hheld : L.held = t :: rest) :
      Step L { L with held := rest, refused := L.refused ++ [t] }
  | put (L : Ledger τ) (t : τ) (rest : List τ) (hheld : L.held = t :: rest)
      (hopen : L.closed = false) :
      Step L { L with held := rest, waiting := L.waiting ++ [t], queued := L.queued ++ [t] }
  | hand (L : Ledger τ) (t : τ) (rest : List τ) (hwaiting : L.waiting = t :: rest) :
      Step L { L with waiting := rest, handed := L.handed ++ [t] }
  | close (L : Ledger τ) : Step L { L with closed := true }
  | drain (L : Ledger τ) (hclosed : L.closed = true) :
      Step L { L with waiting := [], drained := L.waiting ++ L.drained }

/-- Every ticket is in one place, and the queue kept its order. -/
structure Sound (L : Ledger τ) : Prop where
  distinct : L.issued.Nodup
  placed : (L.held ++ (L.refused ++ L.queued)).Perm L.issued
  order : L.queued = L.handed ++ (L.waiting ++ L.drained)
  undrained : L.closed = false → L.drained = []

theorem sound_empty : (empty : Ledger τ).Sound :=
  ⟨List.nodup_nil, List.Perm.refl _, rfl, fun _ => rfl⟩

theorem Sound.step {L L' : Ledger τ} (h : L.Sound) (hstep : Step L L') : L'.Sound := by
  obtain ⟨hdistinct, hplaced, horder, hundrained⟩ := h
  cases hstep with
  | issue t fresh =>
    refine ⟨?_, ?_, horder, hundrained⟩
    · exact List.nodup_append.mpr ⟨hdistinct, List.nodup_singleton t, by
        intro a ha b hb hab
        exact fresh (List.mem_singleton.mp hb ▸ hab ▸ ha)⟩
    · exact (hplaced.cons t).trans (List.perm_append_singleton t _).symm
  | refuse t rest hheld =>
    refine ⟨hdistinct, ?_, horder, hundrained⟩
    rw [hheld] at hplaced
    refine List.Perm.trans ?_ hplaced
    rw [List.append_assoc, List.singleton_append]
    -- the ticket moves from the front over the held and the refused ones
    exact ((List.perm_middle.append_left rest).trans List.perm_middle)
  | put t rest hheld hopen =>
    refine ⟨hdistinct, ?_, ?_, hundrained⟩
    · rw [hheld] at hplaced
      refine List.Perm.trans ?_ hplaced
      rw [← List.append_assoc, ← List.append_assoc, List.append_assoc rest]
      exact List.perm_append_singleton t _
    · simp only [hundrained hopen, List.append_nil] at horder ⊢
      rw [horder, List.append_assoc]
  | hand t rest hwaiting =>
    refine ⟨hdistinct, hplaced, ?_, hundrained⟩
    rw [hwaiting] at horder
    rw [horder, List.append_assoc]
    rfl
  | close => exact ⟨hdistinct, hplaced, horder, fun hopen => Bool.noConfusion hopen⟩
  | drain hclosed =>
    refine ⟨hdistinct, hplaced, horder, ?_⟩
    intro hopen
    rw [hclosed] at hopen
    exact Bool.noConfusion hopen

/-- **Exactly once.**  The places of a ticket add up to the times it was issued. -/
theorem Sound.count_eq [DecidableEq τ] {L : Ledger τ} (h : L.Sound) (t : τ) :
    L.held.count t + L.waiting.count t + L.handed.count t + (L.refused ++ L.drained).count t =
      L.issued.count t := by
  have hplaced := h.placed.count_eq t
  rw [h.order] at hplaced
  simp only [List.count_append] at hplaced ⊢
  omega

/-- Consumers are handed the tickets in the order they were queued. -/
theorem Sound.handed_in_order {L : Ledger τ} (h : L.Sound) : ∃ rest, L.queued = L.handed ++ rest :=
  ⟨_, h.order⟩

end Ledger

end FarouKernel.Verified
