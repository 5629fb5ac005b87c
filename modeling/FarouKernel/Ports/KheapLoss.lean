import FarouKernel.Ports.KheapRuns
import FarouKernel.Ports.KheapWrapped

/-!
# What a refused `kmalloc` leaves behind

A page request of `kheap_expand` can fail at any page.  The error branches move
the break to the page that could not be mapped and return, and `kmalloc` then
returns `NULL` without making a block of the pages that were mapped before it.
If there are such pages, they are lost: they lie below the break, in no block,
and the next expansion starts behind them.

A frame can be lost as well.  `pmm_alloc_frame` halts the machine when no frame is
left, so the `0` that `kheap_expand` takes for a failure is frame 0, which was free
and is now marked as used; it is neither mapped nor given back.

In every other case in which `kmalloc` returns `NULL` the heap is as well formed as
before, and every frame taken is mapped in a block or was given back.
-/

namespace FarouKernel.Ports.Kheap

open Verified ByteMem Ports.Memory

/-! ## The frames a call takes -/

/-- The frames `pmm_alloc_frame` handed out for the requests from number `lo` up to
number `hi`.  The answer `0` is a frame like every other: it is marked as used before
it is returned. -/
def framesTaken (pages : Nat → PageResult) (lo hi : Nat) : List Nat :=
  (List.range' lo (hi - lo)).map fun i => (pages i).frame

theorem framesTaken_append (pages : Nat → PageResult) {lo mid hi : Nat} (hlo : lo ≤ mid)
    (hhi : mid ≤ hi) :
    framesTaken pages lo hi = framesTaken pages lo mid ++ framesTaken pages mid hi := by
  have hlen : hi - lo = (mid - lo) + (hi - mid) := by omega
  have hmid : mid = lo + (mid - lo) := by omega
  unfold framesTaken
  rw [hlen, ← List.range'_append_1, ← hmid, List.map_append]

/-- Of the frames of the requests made between the two states, all but frame 0 were
mapped or given back. -/
def Ledger (pages : Nat → PageResult) (s s' : KheapState) : Prop :=
  s.pageRequests ≤ s'.pageRequests ∧ ∃ new ret, s'.mappedPages = new ++ s.mappedPages ∧
    s'.returnedFrames = ret ++ s.returnedFrames ∧
    ((framesTaken pages s.pageRequests s'.pageRequests).filter (· ≠ 0)).Perm
      (new.map Prod.snd ++ ret)

section

variable (pages : Nat → PageResult)

/-- Between the two states no page was requested. -/
theorem ledger_idle {s s' : KheapState} (hrequests : s'.pageRequests = s.pageRequests)
    (hmapped : s'.mappedPages = s.mappedPages)
    (hreturned : s'.returnedFrames = s.returnedFrames) : Ledger pages s s' := by
  refine ⟨Nat.le_of_eq hrequests.symm, [], [], hmapped, hreturned, ?_⟩
  rw [hrequests]
  simp [framesTaken]

theorem OnlyListChanged.ledger (s s' : KheapState) (h : OnlyListChanged s s') :
    Ledger pages s s' := by
  obtain ⟨m, p, rfl⟩ := h
  exact ledger_idle pages rfl rfl rfl

instance : Std.Refl (Ledger pages) := ⟨fun _ => ledger_idle pages rfl rfl rfl⟩

instance : IsTrans KheapState (Ledger pages) where
  trans := by
    rintro s1 s2 s3 ⟨hle, new, ret, hnew, hret, hperm⟩ ⟨hle', new', ret', hnew', hret', hperm'⟩
    refine ⟨Nat.le_trans hle hle', new' ++ new, ret' ++ ret, ?_, ?_, ?_⟩
    · rw [hnew', hnew, List.append_assoc]
    · rw [hret', hret, List.append_assoc]
    · rw [framesTaken_append pages hle hle', List.filter_append, List.map_append]
      refine (hperm.append hperm').trans ?_
      -- the four parts, in another order
      rw [List.perm_iff_count]
      intro frame
      simp only [List.count_append]
      omega

end

/-! ## Nothing lost -/

/-- From `s` to `s'`, `n` pages are requested one after the other, up to the first
request that fails. -/
def Requests (pages : Nat → PageResult) (s s' : KheapState) (n : Nat) : Prop :=
  (s'.pageRequests = s.pageRequests + n ∧ ∀ j < n, ¬(pages (s.pageRequests + j)).Failed) ∨
    ∃ k < n, s'.pageRequests = s.pageRequests + k + 1 ∧ FirstFailure pages s.pageRequests k

section

variable {pages : Nat → PageResult} {s s' : KheapState} {cells : List Cell} {size fuel n k : Nat}

theorem FirstFailure.unique {first j : Nat} (h : FirstFailure pages first k)
    (h' : FirstFailure pages first j) : k = j := by
  rcases Nat.lt_trichotomy k j with hlt | heq | hgt
  · exact absurd h.2 (h'.1 k hlt)
  · exact heq
  · exact absurd h'.2 (h.1 j hgt)

theorem Requests.refl (pages : Nat → PageResult) (s : KheapState) : Requests pages s s 0 :=
  Or.inl ⟨rfl, by simp⟩

/-- One request more in front, which does not fail. -/
theorem Requests.succ {s1 : KheapState} (h : Requests pages s1 s' n)
    (hmade : s1.pageRequests = s.pageRequests + 1) (hok : ¬(pages s.pageRequests).Failed) :
    Requests pages s s' (n + 1) := by
  simp only [Requests, hmade] at h
  rcases h with ⟨hmade', hall⟩ | ⟨k, hk, hmade', hfirst⟩
  · exact Or.inl ⟨by omega, not_failed_succ hok hall⟩
  · exact Or.inr ⟨k + 1, by omega, by omega, hfirst.succ hok⟩

section

variable (h : HeapRep s cells) (hpos : size ≠ 0)
  (hnone : ∀ c ∈ freeBlocks cells, c.size < alignedDataSize size)
  (ht : totalBlockSizeNeeded size = alignedDataSize size + 32)
  (hcover : totalBlockSizeNeeded size ≤ expansionSize size) (hfuel : 2 ^ 21 < fuel)
  (hrun : kmalloc pages (fuel + 2) size s = .ok 0 s')

include h hpos hnone ht hcover hfuel hrun

end

end

end FarouKernel.Ports.Kheap
