import FarouKernel.Ports.KheapFreeList
import FarouKernel.Verified.Tiling
import Mathlib.Data.List.Chain

/-!
# The kernel heap as a tiling by free and live blocks

`HeapRep s cells` is the invariant of the kernel heap: the blocks `cells`, free
and live, tile the addresses from `KERNEL_HEAP_START` to the break; the free
list holds exactly the free ones; every header carries its size and the magic
number of its kind.

The heap's own operations edit the tiling: taking a block, releasing one,
merging free neighbours, appending new space.  Whether free neighbours are
merged (`Coalesced`) is kept apart from the invariant, since a heap is well
formed without it.

A coalesced heap has no freedom left: its free blocks are the gaps between its
live blocks (`freeBlocks_eq_gaps`).
-/

namespace FarouKernel.Ports.Kheap

open Verified ByteMem Ports.Memory

/-- A block of the heap together with its kind. -/
structure Cell extends Block where
  free : Bool
  deriving DecidableEq, Repr

/-- The bytes a block occupies, its header included. -/
def Cell.extent (c : Cell) : Nat := 32 + c.size

/-- The free blocks, in address order. -/
def freeBlocks (cells : List Cell) : List Block :=
  (cells.filter fun c => c.free).map Cell.toBlock

/-- The live blocks, in address order. -/
def liveBlocks (cells : List Cell) : List Block :=
  (cells.filter fun c => !c.free).map Cell.toBlock

@[simp] theorem freeBlocks_nil : freeBlocks [] = [] := rfl

@[simp] theorem liveBlocks_nil : liveBlocks [] = [] := rfl

@[simp] theorem freeBlocks_cons (c : Cell) (cells : List Cell) :
    freeBlocks (c :: cells) =
      if c.free then c.toBlock :: freeBlocks cells else freeBlocks cells := by
  cases h : c.free <;> simp [freeBlocks, h]

@[simp] theorem liveBlocks_cons (c : Cell) (cells : List Cell) :
    liveBlocks (c :: cells) =
      if c.free then liveBlocks cells else c.toBlock :: liveBlocks cells := by
  cases h : c.free <;> simp [liveBlocks, h]

@[simp] theorem freeBlocks_append (xs ys : List Cell) :
    freeBlocks (xs ++ ys) = freeBlocks xs ++ freeBlocks ys := by
  simp [freeBlocks]

@[simp] theorem liveBlocks_append (xs ys : List Cell) :
    liveBlocks (xs ++ ys) = liveBlocks xs ++ liveBlocks ys := by
  simp [liveBlocks]

variable {b c d : Block} {a lo hi x fuel : Nat} {cells : List Cell}

theorem mem_freeBlocks : b ∈ freeBlocks cells ↔ (⟨b, true⟩ : Cell) ∈ cells := by
  simp only [freeBlocks, List.mem_map, List.mem_filter]
  constructor
  · rintro ⟨⟨b', free⟩, ⟨hmem, hfree⟩, rfl⟩
    simp only at hfree
    subst hfree
    exact hmem
  · intro h
    exact ⟨⟨b, true⟩, ⟨h, rfl⟩, rfl⟩

theorem mem_liveBlocks : b ∈ liveBlocks cells ↔ (⟨b, false⟩ : Cell) ∈ cells := by
  simp only [liveBlocks, List.mem_map, List.mem_filter]
  constructor
  · rintro ⟨⟨b', free⟩, ⟨hmem, hfree⟩, rfl⟩
    simp only [Bool.not_eq_eq_eq_not, Bool.not_true] at hfree
    subst hfree
    exact hmem
  · intro h
    exact ⟨⟨b, false⟩, ⟨h, rfl⟩, rfl⟩

/-- The byte `x` belongs to a free block, to its header or its data area. -/
def InFree (cells : List Cell) (x : Nat) : Prop :=
  ∃ b ∈ freeBlocks cells, b.addr ≤ x ∧ x < b.addr + 32 + b.size

theorem InHeaders.inFree (h : InHeaders (freeBlocks cells) lo hi x) (hhi : hi ≤ 32) :
    InFree cells x := by
  obtain ⟨b, hb, hlo, hlt⟩ := h
  exact ⟨b, hb, by omega, by omega⟩

/-- The blocks tile the addresses from `lo` to `hi`. -/
abbrev CellTiles (lo : Nat) (cells : List Cell) (hi : Nat) : Prop :=
  Tiles (fun c : Cell => c.addr) Cell.extent lo cells hi

/-- **The kernel heap's representation invariant.**  The blocks `cells` tile the heap up to
the break.  The free list holds the free ones in the order of their addresses, and the
live ones keep their size and the inverted magic number. -/
structure HeapRep (s : KheapState) (cells : List Cell) : Prop where
  tiles : CellTiles kernelHeapStart cells s.currentBreak
  free : FreeRep s.mem s.freeList (freeBlocks cells)
  live : ∀ b ∈ liveBlocks cells,
    sizeAt s.mem b.addr = b.size ∧ magicAt s.mem b.addr = not64 kheapMagic
  sizes : ∀ c ∈ cells, c.size % 16 = 0
  breakAligned : s.currentBreak % 4096 = 0
  breakLe : s.currentBreak ≤ s.maxBreak
  maxBreak : s.maxBreak = kernelHeapStart + kernelHeapMaxSize
  mapped : ∀ a, kernelHeapStart ≤ a → a < s.currentBreak → a % 4096 = 0 →
    ∃ frame, (a, frame) ∈ s.mappedPages

/-- No two free blocks follow each other. -/
def Coalesced (cells : List Cell) : Prop :=
  cells.IsChain fun b c => ¬(b.free = true ∧ c.free = true)

/-! ## Coalescing -/

/-- Merging free neighbours, with the free block in front of the rest (if
any) as accumulator. -/
def coalesceGo : Option Block → List Cell → List Cell
  | none, [] => []
  | some b, [] => [⟨b, true⟩]
  | none, c :: cs => if c.free then coalesceGo (some c.toBlock) cs else c :: coalesceGo none cs
  | some b, c :: cs =>
    if c.free then coalesceGo (some ⟨b.addr, b.size + (32 + c.size)⟩) cs
    else ⟨b, true⟩ :: c :: coalesceGo none cs

/-- The tiling with every run of free neighbours merged. -/
def coalesceCells (cells : List Cell) : List Cell := coalesceGo none cells

/-- The accumulator as the block it stands for. -/
def accCells : Option Block → List Cell
  | none => []
  | some b => [⟨b, true⟩]

theorem Cell.eq_of_free {c : Cell} (hc : c.free = true) : (⟨c.toBlock, true⟩ : Cell) = c := by
  rw [← hc]

/-- A free block takes over the addresses of the block behind it. -/
theorem CellTiles.merge {c : Cell} {cs : List Cell} (h : CellTiles lo (⟨b, true⟩ :: c :: cs) hi) :
    CellTiles lo (⟨⟨b.addr, b.size + (32 + c.size)⟩, true⟩ :: cs) hi := by
  obtain ⟨haddr, _, hrest⟩ := h
  refine ⟨haddr, ?_⟩
  simp only [Cell.extent] at hrest ⊢
  rwa [Nat.add_assoc lo, Nat.add_assoc 32 b.size] at hrest

theorem coalesceGo_tiles (acc : Option Block) (cells : List Cell) (lo hi : Nat)
    (h : CellTiles lo (accCells acc ++ cells) hi) :
    CellTiles lo (coalesceGo acc cells) hi := by
  fun_induction coalesceGo acc cells generalizing lo with
  | case1 => exact h
  | case2 b => exact h
  | case3 c cs hc ih =>
    apply ih
    rwa [accCells, Cell.eq_of_free hc]
  | case4 c cs hc ih => exact ⟨h.1, ih _ h.2⟩
  | case5 b c cs hc ih => exact ih lo (CellTiles.merge h)
  | case6 b c cs hc ih => exact ⟨h.1, h.2.1, ih _ h.2.2⟩

theorem liveBlocks_coalesceGo (acc : Option Block) (cells : List Cell) :
    liveBlocks (coalesceGo acc cells) = liveBlocks cells := by
  fun_induction coalesceGo acc cells <;> simp_all

/-- Merging in the tiling is what the code's loop does to the free list: in a
tiling a free block touches the next one of the list exactly when no live
block lies between them. -/
theorem freeBlocks_coalesceGo (cells : List Cell) (lo hi : Nat)
    (htiles : CellTiles lo cells hi) (hhi : hi < 2 ^ 64) :
    freeBlocks (coalesceGo none cells) = coalesce (freeBlocks cells) ∧
      ∀ b : Block, b.addr + 32 + b.size = lo →
        freeBlocks (coalesceGo (some b) cells) = coalesceFrom b (freeBlocks cells) := by
  induction cells generalizing lo with
  | nil => exact ⟨rfl, fun b _ => rfl⟩
  | cons c cs ih =>
    have haddr : c.addr = lo := htiles.1
    have hrest : CellTiles (lo + (32 + c.size)) cs hi := htiles.2
    have hle := hrest.le
    obtain ⟨ihNone, ihSome⟩ := ih _ hrest
    by_cases hc : c.free = true
    · constructor
      · simpa [coalesceGo, hc, coalesce] using ihSome c.toBlock (by omega)
      · intro b hb
        have hadj : add64 (add64 b.addr 32) b.size = c.addr := by
          rw [add64_of_lt (a := b.addr) (by omega), add64_of_lt (by omega)]
          omega
        have hsize : add64 b.size (add64 32 c.size) = b.size + (32 + c.size) := by
          rw [add64_of_lt (a := 32) (by omega), add64_of_lt (by omega)]
        simpa [coalesceGo, hc, coalesceFrom, hadj, hsize] using
          ihSome ⟨b.addr, b.size + (32 + c.size)⟩ (by simp only; omega)
    · constructor
      · simpa [coalesceGo, hc] using ihNone
      · intro b hb
        simp only [coalesceGo, if_neg hc, freeBlocks_cons, if_true, ihNone]
        cases hfree : freeBlocks cs with
        | nil => simp [coalesce, coalesceFrom]
        | cons d ds =>
          -- the live block `c` separates `b` from the next free block
          have hd : (⟨d, true⟩ : Cell) ∈ cs := by
            rw [← mem_freeBlocks, hfree]
            exact List.mem_cons_self
          have hbounds := hrest.mem_bounds hd
          simp only [Cell.extent] at hbounds
          have hadj : ¬add64 (add64 b.addr 32) b.size = d.addr := by
            rw [add64_of_lt (a := b.addr) (by omega), add64_of_lt (by omega)]
            omega
          simp [coalesce, coalesceFrom, hadj]

theorem coalesceGo_sizes (acc : Option Block) (cells : List Cell)
    (h : ∀ c ∈ accCells acc ++ cells, c.size % 16 = 0) :
    ∀ c ∈ coalesceGo acc cells, c.size % 16 = 0 := by
  fun_induction coalesceGo acc cells with
  | case1 => exact h
  | case2 b => exact h
  | case3 c cs hc ih =>
    apply ih
    rwa [accCells, Cell.eq_of_free hc]
  | case4 c cs hc ih =>
    obtain ⟨hhead, hrest⟩ := List.forall_mem_cons.mp h
    exact List.forall_mem_cons.mpr ⟨hhead, ih hrest⟩
  | case5 b c cs hc ih =>
    simp only [accCells, List.cons_append, List.nil_append, List.forall_mem_cons] at h ih
    exact ih ⟨by omega, h.2.2⟩
  | case6 b c cs hc ih =>
    simp only [accCells, List.cons_append, List.nil_append, List.forall_mem_cons] at h ih ⊢
    exact ⟨h.1, h.2.1, ih h.2.2⟩

/-- After merging, no two free blocks follow each other. -/
theorem coalesceGo_coalesced (acc : Option Block) (cells : List Cell) :
    Coalesced (coalesceGo acc cells) := by
  have hlive : ∀ (c : Cell) (cs : List Cell), ¬c.free = true → Coalesced cs →
      Coalesced (c :: cs) := by
    intro c cs hc hcs
    exact List.IsChain.cons hcs fun d _ hboth => hc hboth.1
  fun_induction coalesceGo acc cells with
  | case1 => exact List.IsChain.nil
  | case2 b => exact List.IsChain.singleton _
  | case3 c cs hc ih => exact ih
  | case4 c cs hc ih => exact hlive c _ hc ih
  | case5 b c cs hc ih => exact ih
  | case6 b c cs hc ih =>
    refine List.IsChain.cons (hlive c _ hc ih) ?_
    intro d hd hboth
    simp only [List.head?_cons, Option.mem_some_iff] at hd
    exact hc (hd ▸ hboth.2)

/-- The block `b` is the block `c` or its beginning, or lies in the data area of `c`. -/
def Block.Within (b c : Block) : Prop :=
  (b.addr = c.addr ∧ b.size ≤ c.size) ∨
    (c.addr + 32 ≤ b.addr ∧ b.addr + b.size ≤ c.addr + c.size)

theorem Block.Within.refl (b : Block) : b.Within b := Or.inl ⟨rfl, Nat.le_refl _⟩

theorem Block.Within.trans (h : b.Within c) (h' : c.Within d) : b.Within d := by
  unfold Block.Within at *
  omega

theorem Block.Within.size_le (h : b.Within c) : b.size ≤ c.size := by
  unfold Block.Within at h
  omega

/-- Merging puts every free block into a free block. -/
theorem exists_within_coalesceGo (acc : Option Block) (cells : List Cell) (lo hi : Nat)
    (htiles : CellTiles lo (accCells acc ++ cells) hi)
    (hb : (⟨b, true⟩ : Cell) ∈ accCells acc ++ cells) :
    ∃ c ∈ freeBlocks (coalesceGo acc cells), b.Within c := by
  fun_induction coalesceGo acc cells generalizing b lo with
  | case1 => simp [accCells] at hb
  | case2 d =>
    have hbd : b = d := congrArg Cell.toBlock (List.mem_singleton.mp hb)
    exact ⟨d, by simp, hbd ▸ Block.Within.refl b⟩
  | case3 c cs hc ih =>
    apply ih lo
    · rwa [accCells, Cell.eq_of_free hc]
    · rwa [accCells, Cell.eq_of_free hc]
  | case4 c cs hc ih =>
    have hne : (⟨b, true⟩ : Cell) ≠ c := fun heq => hc (by rw [← heq])
    obtain ⟨e, he, hwithin⟩ := ih _ htiles.2 ((List.mem_cons.mp hb).resolve_left hne)
    exact ⟨e, by simpa [hc] using he, hwithin⟩
  | case5 d c cs hc ih =>
    have hcaddr : c.addr = lo + (32 + d.size) := htiles.2.1
    have haddr : d.addr = lo := htiles.1
    have hmerged := CellTiles.merge htiles
    obtain ⟨e, he, hwithin⟩ := ih lo hmerged List.mem_cons_self
    rcases List.mem_cons.mp hb with hb | hb
    · have hbd : b = d := congrArg Cell.toBlock hb
      exact ⟨e, he, Block.Within.trans (Or.inl (by rw [hbd]; simp)) hwithin⟩
    · rcases List.mem_cons.mp hb with hb | hb
      · have hbc : b = c.toBlock := congrArg Cell.toBlock hb
        exact ⟨e, he, Block.Within.trans (Or.inr (by rw [hbc]; simp only; omega)) hwithin⟩
      · exact ih lo hmerged (List.mem_cons_of_mem _ hb)
  | case6 d c cs hc ih =>
    have hne : (⟨b, true⟩ : Cell) ≠ c := fun heq => hc (by rw [← heq])
    rcases List.mem_cons.mp hb with hb | hb
    · have hbd : b = d := congrArg Cell.toBlock hb
      exact ⟨d, by simp, hbd ▸ Block.Within.refl b⟩
    · obtain ⟨e, he, hwithin⟩ := ih _ htiles.2.2 ((List.mem_cons.mp hb).resolve_left hne)
      exact ⟨e, by simp [hc, he], hwithin⟩

/-! ## Taking a block -/

/-- What `kmalloc` makes of the free block `b` it takes `a` bytes from: a live
block, and behind it the free remainder if there is one. -/
def takeCells (a : Nat) (b : Block) : List Cell :=
  ⟨⟨b.addr, takenSize a b⟩, false⟩ :: (remainder a b).map fun r => ⟨r, true⟩

@[simp] theorem freeBlocks_takeCells (a : Nat) (b : Block) :
    freeBlocks (takeCells a b) = remainder a b := by
  unfold takeCells remainder
  split <;> simp

@[simp] theorem liveBlocks_takeCells (a : Nat) (b : Block) :
    liveBlocks (takeCells a b) = [⟨b.addr, takenSize a b⟩] := by
  unfold takeCells remainder
  split <;> simp

theorem takeCells_tiles (hfit : a ≤ b.size) (h : CellTiles lo [⟨b, true⟩] hi) :
    CellTiles lo (takeCells a b) hi := by
  have haddr : b.addr = lo := h.1
  have hend : lo + (32 + b.size) = hi := h.2
  unfold takeCells takenSize remainder
  split <;> simp [Cell.extent] <;> omega

theorem takeCells_sizes (ha : a % 16 = 0) (hb : b.size % 16 = 0) :
    ∀ c ∈ takeCells a b, c.size % 16 = 0 := by
  unfold takeCells takenSize remainder
  split <;> simp <;> omega

/-- The block taken is large enough. -/
theorem le_takenSize (hfit : a ≤ b.size) : a ≤ takenSize a b := by
  unfold takenSize
  split <;> omega

/-- Taking a block leaves no free neighbours behind. -/
theorem Coalesced.take {pre post : List Cell} (h : Coalesced (pre ++ ⟨b, true⟩ :: post)) :
    Coalesced (pre ++ (takeCells a b ++ post)) := by
  obtain ⟨hpre, hmid, _⟩ := List.isChain_append.mp h
  obtain ⟨hhead, hpost⟩ := List.isChain_cons.mp hmid
  have hrest : Coalesced ((remainder a b).map (fun r => (⟨r, true⟩ : Cell)) ++ post) := by
    unfold remainder
    split
    · refine List.isChain_cons.mpr ⟨fun d hd hboth => hhead d hd ⟨rfl, hboth.2⟩, hpost⟩
    · exact hpost
  refine List.isChain_append.mpr ⟨hpre, ?_, ?_⟩
  · exact List.isChain_cons.mpr ⟨fun d _ hboth => by simp at hboth, hrest⟩
  · intro c _ d hd hboth
    simp only [takeCells, List.cons_append, List.head?_cons, Option.mem_some_iff] at hd
    rw [← hd] at hboth
    simp at hboth

/-! ## A coalesced heap is determined by its live blocks -/

/-- The gaps that the blocks `live` leave in the addresses from `lo` to `hi`,
as free blocks. -/
def gaps : Nat → List Block → Nat → List Block
  | lo, [], hi => if lo < hi then [⟨lo, hi - lo - 32⟩] else []
  | lo, b :: bs, hi =>
    (if lo < b.addr then [⟨lo, b.addr - lo - 32⟩] else []) ++
      gaps (b.addr + 32 + b.size) bs hi

theorem freeBlocks_eq_gaps (cells : List Cell) (lo hi : Nat) (htiles : CellTiles lo cells hi)
    (hcoal : Coalesced cells) : freeBlocks cells = gaps lo (liveBlocks cells) hi := by
  induction cells generalizing lo with
  | nil =>
    have hlo : lo = hi := htiles
    simp [gaps, hlo]
  | cons c cs ih =>
    have haddr : c.addr = lo := htiles.1
    have hrest : CellTiles (lo + (32 + c.size)) cs hi := htiles.2
    have htail : Coalesced cs := List.IsChain.tail hcoal
    have hcs := ih _ hrest htail
    by_cases hc : c.free = true
    · -- behind a free block comes a live one, or the end
      cases cs with
      | nil =>
        have hend : lo + (32 + c.size) = hi := hrest
        have hlt : lo < hi := by omega
        have hblock : c.toBlock = ⟨lo, hi - lo - 32⟩ := by
          rw [← hend, ← haddr]
          simp
        simp [hc, gaps, hlt, hblock]
      | cons d ds =>
        have hd : ¬d.free = true := fun hd => hcoal.rel_head? rfl ⟨hc, hd⟩
        have hdaddr : d.addr = lo + (32 + c.size) := hrest.1
        have hblock : c.toBlock = ⟨lo, d.addr - lo - 32⟩ := by
          rw [hdaddr, ← haddr]
          simp
        simp only [liveBlocks_cons, if_neg hd, gaps, hdaddr] at hcs
        rw [freeBlocks_cons, if_pos hc, hcs, liveBlocks_cons, if_pos hc, liveBlocks_cons,
          if_neg hd, gaps, hblock, hdaddr]
        simp
    · rw [freeBlocks_cons, if_neg hc, hcs, liveBlocks_cons, if_neg hc, gaps]
      simp [haddr, Nat.add_assoc]

/-! ## What the operations do to the tiling -/

/-- The end of the heap's address range, far below `2 ^ 64`. -/
theorem kernelHeapEnd_lt : kernelHeapStart + kernelHeapMaxSize < 2 ^ 64 := by decide

namespace HeapRep

variable {s : KheapState} {pre post : List Cell} {f : Bool}

section

variable (h : HeapRep s cells)

include h

theorem break_lt : s.currentBreak < 2 ^ 64 := by
  have hle := h.breakLe
  have hend := kernelHeapEnd_lt
  rw [h.maxBreak] at hle
  omega

theorem cell_bounds {c : Cell} (hc : c ∈ cells) :
    kernelHeapStart ≤ c.addr ∧ c.addr + 32 + c.size ≤ s.currentBreak := by
  have hbounds := h.tiles.mem_bounds hc
  simp only [Cell.extent] at hbounds
  omega

theorem free_bounds (hc : c ∈ freeBlocks cells) :
    kernelHeapStart ≤ c.addr ∧ c.addr + 32 + c.size ≤ s.currentBreak :=
  h.cell_bounds (mem_freeBlocks.mp hc)

theorem live_bounds (hc : c ∈ liveBlocks cells) :
    kernelHeapStart ≤ c.addr ∧ c.addr + 32 + c.size ≤ s.currentBreak :=
  h.cell_bounds (mem_liveBlocks.mp hc)

/-- Headers have room for at most two million blocks. -/
theorem length_le : cells.length ≤ 2 ^ 21 := by
  have hmany := h.tiles.length_mul_le (k := 32) (by
    intro c _
    simp [Cell.extent])
  have hle := h.breakLe
  have hsize : kernelHeapMaxSize = 2 ^ 26 := rfl
  rw [h.maxBreak, hsize] at hle
  omega

theorem freeBlocks_length_le : (freeBlocks cells).length ≤ 2 ^ 21 := by
  have hle : (freeBlocks cells).length ≤ cells.length := by
    simpa [freeBlocks] using List.length_filter_le (fun c : Cell => c.free) cells
  exact Nat.le_trans hle h.length_le

/-- A live header lies outside every free block. -/
theorem live_apart (hd : d ∈ liveBlocks cells) (hc : c ∈ freeBlocks cells) :
    d.addr + 32 + d.size ≤ c.addr ∨ c.addr + 32 + c.size ≤ d.addr := by
  have hne : (⟨d, false⟩ : Cell) ≠ ⟨c, true⟩ := by simp
  have hapart := h.tiles.apart (mem_liveBlocks.mp hd) (mem_freeBlocks.mp hc) hne
  simp only [Cell.extent] at hapart
  omega

/-- No byte of a live block belongs to a free one. -/
theorem live_not_inFree (hd : d ∈ liveBlocks cells) (hlo : d.addr ≤ x)
    (hhi : x < d.addr + 32 + d.size) : ¬InFree cells x := by
  rintro ⟨c, hc, hc', hc''⟩
  have := h.live_apart hd hc
  omega

end

/-- A byte of the heap that is in no free block is in no free block later on, as long
as no live block is released. -/
theorem not_inFree_later (h : HeapRep s cells) {s' : KheapState} {cells' : List Cell}
    (h' : HeapRep s' cells') (hlive : ∀ d ∈ liveBlocks cells, d ∈ liveBlocks cells')
    (hx : x < s.currentBreak) (hnot : ¬InFree cells x) : ¬InFree cells' x := by
  by_cases hlo : kernelHeapStart ≤ x
  · obtain ⟨⟨d, free⟩, hd, hstart, hend⟩ := h.tiles.exists_mem hlo hx
    simp only [Cell.extent] at hstart hend
    cases free with
    | true => exact absurd ⟨d, mem_freeBlocks.mpr hd, hstart, by omega⟩ hnot
    | false => exact h'.live_not_inFree (hlive d (mem_liveBlocks.mpr hd)) hstart (by omega)
  · rintro ⟨c, hc, hc', _⟩
    have hbounds := h'.free_bounds hc
    omega

/-- Live headers survive every change of memory that spares them. -/
theorem live_frame (h : HeapRep s cells) {m' : ByteMem} {bs : List Block}
    (hbs : ∀ d ∈ bs, d ∈ liveBlocks cells)
    (heq : ∀ d ∈ bs, ∀ x, d.addr ≤ x → x < d.addr + 24 → m' x = s.mem x) :
    ∀ d ∈ bs, sizeAt m' d.addr = d.size ∧ magicAt m' d.addr = not64 kheapMagic := by
  intro d hd
  obtain ⟨hsize, hmagic⟩ := h.live d (hbs d hd)
  have hsize' : sizeAt m' d.addr = sizeAt s.mem d.addr :=
    read64_congr fun x hx hx' => heq d hd x hx (by omega)
  have hmagic' : magicAt m' d.addr = magicAt s.mem d.addr :=
    read64_congr fun x hx hx' => heq d hd x (by omega) (by omega)
  exact ⟨hsize'.trans hsize, hmagic'.trans hmagic⟩

/-- Changing only the list and the tiling: the parts of the invariant that
speak about the break and the mapped pages carry over. -/
theorem withList (h : HeapRep s cells) {m : ByteMem} {p : Nat} {cells' : List Cell}
    (htiles : CellTiles kernelHeapStart cells' s.currentBreak)
    (hfree : FreeRep m p (freeBlocks cells'))
    (hlive : ∀ d ∈ liveBlocks cells',
      sizeAt m d.addr = d.size ∧ magicAt m d.addr = not64 kheapMagic)
    (hsizes : ∀ c ∈ cells', c.size % 16 = 0) : HeapRep (s.withList m p) cells' where
  tiles := htiles
  free := hfree
  live := hlive
  sizes := hsizes
  breakAligned := h.breakAligned
  breakLe := h.breakLe
  maxBreak := h.maxBreak
  mapped := h.mapped

section

variable (h : HeapRep s (pre ++ ⟨b, f⟩ :: post))

include h

/-- The blocks before a block of the tiling lie below it, those behind it above it. -/
theorem middle_bounds :
    (∀ c ∈ pre, c.addr + 32 + c.size ≤ b.addr) ∧ ∀ c ∈ post, b.addr + 32 + b.size ≤ c.addr := by
  obtain ⟨mid, hpre, hrest⟩ := tiles_append.mp h.tiles
  have haddr : b.addr = mid := hrest.1
  have hpost : CellTiles (mid + (32 + b.size)) post s.currentBreak := hrest.2
  constructor
  · intro c hc
    have hbounds := hpre.mem_bounds hc
    simp only [Cell.extent] at hbounds
    omega
  · intro c hc
    have hbounds := hpost.mem_bounds hc
    omega

/-- Two blocks at different places of the tiling. -/
theorem middle_apart {c : Cell} (hc : c ∈ pre ++ post) :
    c.addr + 32 + c.size ≤ b.addr ∨ b.addr + 32 + b.size ≤ c.addr :=
  (List.mem_append.mp hc).imp (h.middle_bounds.1 c) (h.middle_bounds.2 c)

theorem middle_before (hc : c ∈ freeBlocks pre) :
    c.addr + 32 + c.size ≤ b.addr :=
  h.middle_bounds.1 _ (mem_freeBlocks.mp hc)

theorem middle_after (hc : c ∈ freeBlocks post) :
    b.addr + 32 + b.size ≤ c.addr :=
  h.middle_bounds.2 _ (mem_freeBlocks.mp hc)

end

/-- Every block address is a multiple of 16, since the sizes are. -/
theorem addr_aligned (h : HeapRep s cells) {c : Cell} (hc : c ∈ cells) : c.addr % 16 = 0 := by
  have htiles := h.tiles
  have hsizes := h.sizes
  have hstart : kernelHeapStart % 16 = 0 := by decide
  generalize kernelHeapStart = lo at htiles hstart
  clear h
  induction cells generalizing lo with
  | nil => simp at hc
  | cons d ds ih =>
    have haddr : d.addr = lo := htiles.1
    have hrest : CellTiles (lo + (32 + d.size)) ds s.currentBreak := htiles.2
    have hd := hsizes d List.mem_cons_self
    rcases List.mem_cons.mp hc with rfl | hc'
    · omega
    · exact ih hc' (fun e he => hsizes e (List.mem_cons_of_mem d he)) _ hrest (by omega)

/-- `kheap_coalesce_free_list` merges the free neighbours of the tiling. -/
theorem coalesce_run (h : HeapRep s cells) (hfuel : 2 ^ 21 < fuel) :
    ∃ m, kheapCoalesceFreeList fuel s = .ok () (s.withList m s.freeList) ∧
      HeapRep (s.withList m s.freeList) (coalesceCells cells) ∧
      ∀ x, ¬InHeaders (freeBlocks cells) 0 16 x → m x = s.mem x := by
  have hlen := h.freeBlocks_length_le
  obtain ⟨m, hrun, hrep, hframe⟩ :=
    kheapCoalesceFreeList_run s fuel (freeBlocks cells) h.free (by omega)
  refine ⟨m, hrun, h.withList ?_ ?_ ?_ ?_, hframe⟩
  · exact coalesceGo_tiles none cells _ _ h.tiles
  · rw [coalesceCells, (freeBlocks_coalesceGo cells _ _ h.tiles h.break_lt).1]
    exact hrep
  · rw [coalesceCells, liveBlocks_coalesceGo]
    apply h.live_frame (fun d hd => hd)
    intro d hd x hx hx'
    apply hframe x
    intro hin
    exact h.live_not_inFree hd hx (by omega) (hin.inFree (by omega))
  · exact coalesceGo_sizes none cells h.sizes

/-- `kheap_add_to_free_list` on a live block makes it a free one. -/
theorem release_run (h : HeapRep s (pre ++ ⟨b, false⟩ :: post)) (hfuel : 2 ^ 21 < fuel) :
    ∃ m p, kheapAddToFreeList fuel b.addr s = .ok () (s.withList m p) ∧
      HeapRep (s.withList m p) (pre ++ ⟨b, true⟩ :: post) ∧
      ∀ x, ¬(b.addr + 8 ≤ x ∧ x < b.addr + 24) →
        ¬InHeaders (freeBlocks (pre ++ ⟨b, false⟩ :: post)) 8 16 x → m x = s.mem x := by
  have hmem : (⟨b, false⟩ : Cell) ∈ pre ++ ⟨b, false⟩ :: post := by simp
  have hblive : b ∈ liveBlocks (pre ++ ⟨b, false⟩ :: post) := mem_liveBlocks.mpr hmem
  have hbounds := h.cell_bounds hmem
  have hlt := h.break_lt
  have hstart : 0 < kernelHeapStart := by decide
  have hlen := h.freeBlocks_length_le
  have hfree : freeBlocks (pre ++ ⟨b, false⟩ :: post) = freeBlocks pre ++ freeBlocks post := by simp
  simp only at hbounds
  rw [hfree, List.length_append] at hlen
  obtain ⟨m, p, hrun, hrep, hframe⟩ :=
    kheapAddToFreeList_run s fuel b.addr (freeBlocks pre) (freeBlocks post)
      (hfree ▸ h.free)
      (fun c hc => by have := h.middle_before hc; omega)
      (fun c hc => by have := h.middle_after hc; omega)
      (h.addr_aligned hmem) (by omega) (by omega) (by omega)
  rw [(h.live b hblive).1] at hrep
  rw [← hfree] at hframe
  refine ⟨m, p, hrun, h.withList ?_ ?_ ?_ ?_, hframe⟩
  · exact Tiles.splice ([⟨b, false⟩] : List Cell) [⟨b, true⟩] h.tiles fun _ _ ht => ht
  · simpa using hrep
  · have hlive : liveBlocks (pre ++ ⟨b, true⟩ :: post) = liveBlocks pre ++ liveBlocks post := by
      simp
    have hsub : ∀ d ∈ liveBlocks pre ++ liveBlocks post,
        d ∈ liveBlocks (pre ++ ⟨b, false⟩ :: post) := by
      intro d hd
      simp only [List.mem_append] at hd
      rcases hd with hd | hd <;> simp [hd]
    rw [hlive]
    apply h.live_frame hsub
    intro d hd x hx hx'
    have hdcell : (⟨d, false⟩ : Cell) ∈ pre ++ post := by
      rw [← mem_liveBlocks, liveBlocks_append]
      exact hd
    have hapart := h.middle_apart hdcell
    simp only at hapart
    apply hframe x
    · omega
    · intro hin
      exact h.live_not_inFree (hsub d hd) hx (by omega) (hin.inFree (by omega))
  · have hsizes := h.sizes
    rw [List.forall_mem_append, List.forall_mem_cons] at hsizes ⊢
    exact hsizes

/-- `kmalloc` taking the free block `b`. -/
theorem take_run (h : HeapRep s (pre ++ ⟨b, true⟩ :: post)) (ha : a % 16 = 0) (hfit : a ≤ b.size)
    (hfuel : 2 ^ 21 < fuel) :
    ∃ m p, kmallocTake fuel a (lastAddr 0 (freeBlocks pre)) b.addr s =
        .ok (b.addr + 32) (s.withList m p) ∧
      HeapRep (s.withList m p) (pre ++ (takeCells a b ++ post)) ∧
      ∀ x, ¬InFree (pre ++ ⟨b, true⟩ :: post) x → m x = s.mem x := by
  have hmem : (⟨b, true⟩ : Cell) ∈ pre ++ ⟨b, true⟩ :: post := by simp
  have hbounds := h.cell_bounds hmem
  have hlt := h.break_lt
  have hlen := h.freeBlocks_length_le
  have hfree : freeBlocks (pre ++ ⟨b, true⟩ :: post) =
      freeBlocks pre ++ b :: freeBlocks post := by simp
  simp only at hbounds
  rw [hfree, List.length_append] at hlen
  obtain ⟨m, p, hrun, hrep, hsize, hmagic, hframe⟩ :=
    kmallocTake_run s fuel a (freeBlocks pre) (freeBlocks post) b (hfree ▸ h.free) ha hfit
      (by omega) (fun c hc => h.middle_after hc) (by omega)
  have hout : ∀ x, ¬InFree (pre ++ ⟨b, true⟩ :: post) x → m x = s.mem x := by
    intro x hx
    have hb : ¬(b.addr ≤ x ∧ x < b.addr + 32 + b.size) :=
      fun hb => hx ⟨b, mem_freeBlocks.mpr hmem, hb⟩
    apply hframe x
    · omega
    · rintro ⟨c, hc, hlo, hhi⟩
      refine hx ⟨c, ?_, by omega, by omega⟩
      simp only [List.mem_append] at hc
      rcases hc with hc | hc <;> simp [hc]
    · -- the remainder lies inside the block taken
      rintro ⟨c, hc, hlo, hhi⟩
      unfold remainder at hc
      split at hc
      · rw [List.mem_singleton] at hc
        subst hc
        simp only at hlo hhi
        omega
      · simp at hc
  refine ⟨m, p, hrun, h.withList ?_ ?_ ?_ ?_, hout⟩
  · exact Tiles.splice ([⟨b, true⟩] : List Cell) (takeCells a b) h.tiles fun _ _ ht =>
      takeCells_tiles hfit ht
  · simpa using hrep
  · have hlive : liveBlocks (pre ++ (takeCells a b ++ post)) =
        liveBlocks pre ++ ⟨b.addr, takenSize a b⟩ :: liveBlocks post := by simp
    have hold : ∀ d ∈ liveBlocks pre ++ liveBlocks post,
        sizeAt m d.addr = d.size ∧ magicAt m d.addr = not64 kheapMagic := by
      have hsub : ∀ d ∈ liveBlocks pre ++ liveBlocks post,
          d ∈ liveBlocks (pre ++ ⟨b, true⟩ :: post) := by
        intro d hd
        simpa using hd
      apply h.live_frame hsub
      intro d hd x hx hx'
      exact hout x (h.live_not_inFree (hsub d hd) hx (by omega))
    rw [List.forall_mem_append] at hold
    rw [hlive, List.forall_mem_append, List.forall_mem_cons]
    exact ⟨hold.1, ⟨hsize, hmagic⟩, hold.2⟩
  · have hsizes := h.sizes
    rw [List.forall_mem_append, List.forall_mem_cons] at hsizes
    rw [List.forall_mem_append, List.forall_mem_append]
    exact ⟨hsizes.1, takeCells_sizes ha hsizes.2.1, hsizes.2.2⟩

end HeapRep

end FarouKernel.Ports.Kheap
