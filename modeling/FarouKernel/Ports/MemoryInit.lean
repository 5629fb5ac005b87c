import FarouKernel.Ports.PmmFrames

/-!
# `kernel/memory.c`: the frame allocator's part of `memory_init`

A translation of the first phase of `memory_init`: it sizes the bitmap by the
highest address of the memory map, looks for a usable entry to put it in, marks
every frame used, releases the frames that lie wholly inside usable entries and
takes back those of the bitmap.

`memoryInitPmm_run` says what the phase leaves, for every memory map whose
entries end a page below `2 ^ 64`.  The two ways it can stop the machine are
named; no assertion on the way fails, so every bitmap index is in range and the
counter never falls below zero.
-/

namespace FarouKernel.Ports.Pmm

open Verified ByteMem Ports.Memory

/-- The types of a memory map entry.  The code treats an unknown type number
like bad memory. -/
inductive MemmapType where
  | usable
  | reserved
  | acpiReclaimable
  | acpiNvs
  | badMemory
  | bootloaderReclaimable
  | kernelAndModules
  | framebuffer
  deriving DecidableEq, Repr

/-- `struct limine_memmap_entry`. -/
structure MemmapEntry where
  base : Nat
  length : Nat
  type : MemmapType
  deriving DecidableEq, Repr

/-- One round of the sizing loop. -/
def raiseHighest (highest : Nat) (e : MemmapEntry) : Nat :=
  let top := add64 e.base e.length
  let usableHighest :=
    if e.type = .usable then (if top > highest then top else highest) else highest
  if top > usableHighest then top else usableHighest

/-- The sizing loop: the highest address of any entry. -/
def highestAddr (memmap : List MemmapEntry) : Nat := memmap.foldl raiseHighest 0

/-- The placement loop: the first usable entry with room for the bitmap at or
above 1 MiB (`0` if there is none). -/
def placeBitmap (sizeBytes : Nat) : List MemmapEntry → Nat
  | [] => 0
  | e :: es =>
    if e.type = .usable ∧ e.length ≥ sizeBytes then
      if e.base < 0x100000 ∧ ¬add64 e.base e.length > 0x100000 then placeBitmap sizeBytes es
      else
        let potentialAddr := alignUp (if e.base < 0x100000 then 0x100000 else e.base) pageSize
        if add64 potentialAddr sizeBytes ≤ add64 e.base e.length then potentialAddr
        else placeBitmap sizeBytes es
    else placeBitmap sizeBytes es

/-- One round of the releasing loop. -/
def pmmReleaseFrame (frame : Nat) : Exec Machine Unit := do
  let used ← pmmBitmapTest frame
  if used = true then do
    pmmBitmapClear frame
    let usedFrames ← Exec.gets Machine.usedFrames
    kassert (usedFrames > 0) "pmm_used_frames > 0"
    Exec.modify fun s => { s with usedFrames := sub64 s.usedFrames 1 }
  else pure ()

/-- The releasing loop over `left` frames. -/
def pmmReleaseFrames : Nat → Nat → Exec Machine Unit
  | 0, _ => pure ()
  | left + 1, frame => do
      pmmReleaseFrame frame
      pmmReleaseFrames left (frame + 1)

/-- Releasing the frames of one entry, if it is usable. -/
def pmmReleaseEntry (e : MemmapEntry) : Exec Machine Unit :=
  let startFrame := alignUp e.base pageSize / pageSize
  let endFrame := alignDown (add64 e.base e.length) pageSize / pageSize
  if e.type = .usable then
    if endFrame > startFrame then pmmReleaseFrames (endFrame - startFrame) startFrame
    else pure ()
  else pure ()

/-- Releasing the frames of all usable entries. -/
def pmmReleaseEntries : List MemmapEntry → Exec Machine Unit
  | [] => pure ()
  | e :: es => do
      pmmReleaseEntry e
      pmmReleaseEntries es

/-- One round of the loop that takes the bitmap's own frames back. -/
def pmmReserveFrame (frame : Nat) : Exec Machine Unit := do
  let used ← pmmBitmapTest frame
  if used = false then do
    pmmBitmapSet frame
    Exec.modify fun s => { s with usedFrames := add64 s.usedFrames 1 }
  else pure ()

/-- The loop over the bitmap's own frames. -/
def pmmReserveFrames : Nat → Nat → Exec Machine Unit
  | 0, _ => pure ()
  | left + 1, frame => do
      pmmReserveFrame frame
      pmmReserveFrames left (frame + 1)

/-- The frames of the memory map. -/
def totalFramesOf (memmap : List MemmapEntry) : Nat :=
  alignUp (highestAddr memmap) pageSize / pageSize

/-- The words of the bitmap for them. -/
def bitmapQwordsOf (memmap : List MemmapEntry) : Nat := alignUp (totalFramesOf memmap) 64 / 64

/-- The bytes of the bitmap for them. -/
def bitmapBytesOf (memmap : List MemmapEntry) : Nat := bitmapQwordsOf memmap * 8 % 2 ^ 64

/-- The first phase of `memory_init`. -/
def memoryInitPmm (hhdmOffset : Nat) (memmap : List MemmapEntry) : Exec Machine Unit := do
  Exec.modify fun s =>
    { s with
      hhdmPhysOffset := hhdmOffset
      totalFrames := totalFramesOf memmap
      highestFrame := sub64 (totalFramesOf memmap) 1
      bitmapSizeQwords := bitmapQwordsOf memmap }
  let bitmapPhysAddr := placeBitmap (bitmapBytesOf memmap) memmap
  if bitmapPhysAddr = 0 then Exec.stop "PMM: Could not find suitable space for the bitmap!"
  else do
    let bitmap ← physToVirt bitmapPhysAddr
    Exec.modify fun s => { s with bitmap := bitmap }
    memset bitmap 0xFF (bitmapBytesOf memmap)
    Exec.modify fun s => { s with usedFrames := s.totalFrames }
    pmmReleaseEntries memmap
    let startFrame := bitmapPhysAddr / pageSize
    let endFrame := alignUp (add64 bitmapPhysAddr (bitmapBytesOf memmap)) pageSize / pageSize
    pmmReserveFrames (endFrame - startFrame) startFrame

/-! ## Sizes and placement -/

/-- Every entry ends a page below `2 ^ 64`. -/
def InRange (memmap : List MemmapEntry) : Prop :=
  ∀ e ∈ memmap, e.base + e.length + 0xFFF < 2 ^ 64

theorem raiseHighest_of_lt {h : Nat} {e : MemmapEntry} (he : e.base + e.length < 2 ^ 64) :
    raiseHighest h e = max h (e.base + e.length) := by
  have htop : add64 e.base e.length = e.base + e.length := add64_of_lt he
  by_cases htype : e.type = .usable
  · simp only [raiseHighest, htop, htype, if_true]
    split
    · split <;> omega
    · omega
  · simp only [raiseHighest, htop, htype, if_false]
    split <;> omega

theorem foldl_raiseHighest (memmap : List MemmapEntry) (h : Nat) (hrange : InRange memmap) :
    h ≤ memmap.foldl raiseHighest h ∧
      (∀ e ∈ memmap, e.base + e.length ≤ memmap.foldl raiseHighest h) ∧
      (h + 0xFFF < 2 ^ 64 → memmap.foldl raiseHighest h + 0xFFF < 2 ^ 64) := by
  induction memmap generalizing h with
  | nil => exact ⟨Nat.le_refl h, by simp, fun hh => hh⟩
  | cons e es ih =>
    have he := hrange e List.mem_cons_self
    have hes : InRange es := fun d hd => hrange d (List.mem_cons_of_mem e hd)
    have hraise : raiseHighest h e = max h (e.base + e.length) :=
      raiseHighest_of_lt (by omega)
    obtain ⟨hle, hall, hbound⟩ := ih (raiseHighest h e) hes
    simp only [List.foldl_cons]
    refine ⟨by omega, ?_, ?_⟩
    · intro d hd
      rcases List.mem_cons.mp hd with rfl | hd
      · omega
      · exact hall d hd
    · intro hh
      exact hbound (by omega)

variable {memmap : List MemmapEntry} {used : Nat → Bool} {s' : Machine}

section

variable (hrange : InRange memmap)

include hrange

theorem highestAddr_ge :
    ∀ e ∈ memmap, e.base + e.length ≤ highestAddr memmap :=
  (foldl_raiseHighest memmap 0 hrange).2.1

theorem highestAddr_lt : highestAddr memmap + 0xFFF < 2 ^ 64 :=
  (foldl_raiseHighest memmap 0 hrange).2.2 (by decide)

theorem totalFramesOf_eq :
    totalFramesOf memmap = (highestAddr memmap + 4095) / 4096 := by
  have hlt := highestAddr_lt hrange
  rw [totalFramesOf, alignUp_page]
  show (highestAddr memmap + 4095) % 2 ^ 64 / 4096 * 4096 / 4096 = _
  rw [Nat.mul_div_cancel _ (by decide), Nat.mod_eq_of_lt hlt]

theorem totalFramesOf_le : totalFramesOf memmap < 2 ^ 52 := by
  have hlt := highestAddr_lt hrange
  rw [totalFramesOf_eq hrange]
  omega

theorem bitmapQwordsOf_eq :
    bitmapQwordsOf memmap = (totalFramesOf memmap + 63) / 64 := by
  have hlt := totalFramesOf_le hrange
  rw [bitmapQwordsOf, alignUp_sixtyFour, Nat.mul_div_cancel _ (by decide)]
  rw [Nat.mod_eq_of_lt (by omega)]

theorem bitmapBytesOf_eq :
    bitmapBytesOf memmap = 8 * bitmapQwordsOf memmap := by
  have hlt := totalFramesOf_le hrange
  have hq := bitmapQwordsOf_eq hrange
  rw [bitmapBytesOf, Nat.mod_eq_of_lt (by omega), Nat.mul_comm]

end

/-- Where the placement loop puts the bitmap. -/
theorem placeBitmap_spec (sizeBytes : Nat) (memmap : List MemmapEntry)
    (hrange : InRange memmap) (hsize : sizeBytes < 2 ^ 60)
    (hfound : placeBitmap sizeBytes memmap ≠ 0) :
    ∃ e ∈ memmap, e.type = .usable ∧ e.base ≤ placeBitmap sizeBytes memmap ∧
      placeBitmap sizeBytes memmap + sizeBytes ≤ e.base + e.length ∧
      0x100000 ≤ placeBitmap sizeBytes memmap ∧ placeBitmap sizeBytes memmap % 4096 = 0 := by
  induction memmap with
  | nil => exact absurd rfl hfound
  | cons e es ih =>
    have he := hrange e List.mem_cons_self
    have hes : InRange es := fun d hd => hrange d (List.mem_cons_of_mem e hd)
    have htop : add64 e.base e.length = e.base + e.length := add64_of_lt (by omega)
    have hlater : placeBitmap sizeBytes (e :: es) = placeBitmap sizeBytes es →
        ∃ d ∈ e :: es, d.type = .usable ∧ d.base ≤ placeBitmap sizeBytes (e :: es) ∧
          placeBitmap sizeBytes (e :: es) + sizeBytes ≤ d.base + d.length ∧
          0x100000 ≤ placeBitmap sizeBytes (e :: es) ∧
          placeBitmap sizeBytes (e :: es) % 4096 = 0 := by
      intro hsame
      rw [hsame] at hfound ⊢
      obtain ⟨d, hd, hspec⟩ := ih hes hfound
      exact ⟨d, List.mem_cons_of_mem e hd, hspec⟩
    by_cases husable : e.type = .usable ∧ e.length ≥ sizeBytes
    · by_cases hlow : e.base < 0x100000 ∧ ¬add64 e.base e.length > 0x100000
      · exact hlater (by rw [placeBitmap, if_pos husable, if_pos hlow])
      · let start := if e.base < 0x100000 then 0x100000 else e.base
        have hstart : e.base ≤ start ∧ 0x100000 ≤ start ∧ start + sizeBytes + 0xFFF < 2 ^ 64 := by
          simp only [start]
          split <;> omega
        have halign : alignUp start pageSize = (start + 4095) / 4096 * 4096 := by
          rw [alignUp_page, Nat.mod_eq_of_lt (by omega)]
        by_cases hfits : add64 (alignUp start pageSize) sizeBytes ≤ add64 e.base e.length
        · have hplace : placeBitmap sizeBytes (e :: es) = alignUp start pageSize := by
            rw [placeBitmap, if_pos husable, if_neg hlow]
            exact if_pos hfits
          rw [htop, add64_of_lt (by omega)] at hfits
          refine ⟨e, List.mem_cons_self, husable.1, ?_⟩
          rw [hplace]
          omega
        · refine hlater ?_
          rw [placeBitmap, if_pos husable, if_neg hlow]
          exact if_neg hfits
    · exact hlater (by rw [placeBitmap, if_neg husable])

/-! ## Releasing and reserving frames -/

/-- The machine with other memory contents and another count. -/
def Machine.marked (s : Machine) (m : ByteMem) (used : Nat) : Machine :=
  { s with mem := m, usedFrames := used }

/-- The counter is the number of used frames, and every frame has its bit. -/
structure Counted (s : Machine) : Prop where
  covered : s.totalFrames ≤ 64 * s.bitmapSizeQwords
  small : s.totalFrames < 2 ^ 52
  counted : s.usedFrames = s.countUsed s.totalFrames

/-- A loop over frames changed the used ones to `used` and kept the count. -/
structure Marked (s s' : Machine) (used : Nat → Bool) : Prop where
  state : ∃ m u, s' = s.marked m u
  outside : ∀ x, ¬s.InBitmap x → s'.mem x = s.mem x
  bits : ∀ g, s'.frameUsed g = used g
  counted : s'.usedFrames = s'.countUsed s'.totalFrames

theorem Marked.next {s : Machine} (h : Counted s) (hmark : Marked s s' used) : Counted s' := by
  obtain ⟨⟨m, u, rfl⟩, _, _, hcount⟩ := hmark
  exact ⟨h.covered, h.small, hcount⟩

theorem Marked.trans {s s'' : Machine} {used' : Nat → Bool} (h : Marked s s' used)
    (h' : Marked s' s'' used') : Marked s s'' used' := by
  obtain ⟨⟨m, u, rfl⟩, hout, _, _⟩ := h
  obtain ⟨⟨m', u', rfl⟩, hout', hbits', hcount'⟩ := h'
  refine ⟨⟨m', u', rfl⟩, ?_, hbits', hcount'⟩
  intro x hx
  exact (hout' x hx).trans (hout x hx)

theorem Marked.refl {s : Machine} (h : Counted s) (hsame : ∀ g, s.frameUsed g = used g) :
    Marked s s used :=
  ⟨⟨s.mem, s.usedFrames, rfl⟩, fun _ _ => rfl, hsame, h.counted⟩

theorem Marked.congr {s : Machine} {used' : Nat → Bool} (h : Marked s s' used)
    (hsame : ∀ g, used g = used' g) : Marked s s' used' :=
  ⟨h.state, h.outside, fun g => (h.bits g).trans (hsame g), h.counted⟩

variable {s : Machine}

theorem Marked.totalFrames (h : Marked s s' used) : s'.totalFrames = s.totalFrames := by
  obtain ⟨m, u, rfl⟩ := h.state
  rfl

/-- New memory contents with the count that goes with them. -/
theorem marked_of_count {m : ByteMem} {u : Nat} (hout : ∀ x, ¬s.InBitmap x → m x = s.mem x)
    (hbits : ∀ g, (s.withMem m).frameUsed g = used g)
    (hu : u = Nat.count (fun f => used f = true) s.totalFrames) :
    Marked s (s.marked m u) used := by
  refine ⟨⟨m, u, rfl⟩, hout, hbits, hu.trans (count_congr fun f _ => ?_)⟩
  show used f = true ↔ (s.withMem m).frameUsed f = true
  rw [hbits f]

theorem pmmReleaseFrame_run {frame : Nat} (h : Counted s) (hframe : frame < s.totalFrames) :
    ∃ s', pmmReleaseFrame frame s = .ok () s' ∧
      Marked s s' fun g => s.frameUsed g && !decide (g = frame) := by
  have hcovered := h.covered
  have hword : frame / 64 < s.bitmapSizeQwords := by omega
  have htest := pmmBitmapTest_run (s := s) hword
  cases hused : s.frameUsed frame with
  | false =>
    rw [hused] at htest
    refine ⟨s, by simp [pmmReleaseFrame, htest], Marked.refl h ?_⟩
    intro g
    by_cases hg : g = frame
    · rw [hg, hused, Bool.false_and]
    · simp [hg]
  | true =>
    rw [hused] at htest
    obtain ⟨m, hclear, hout, hbits⟩ := pmmBitmapClear_run (s := s) hword
    have hcount : Nat.count (fun f => (s.frameUsed f && !decide (f = frame)) = true)
        s.totalFrames + 1 = s.countUsed s.totalFrames :=
      count_erase (i := frame) hframe hused (by simp)
    have hle := countUsed_le s s.totalFrames
    have hsmall := h.small
    have hcounted := h.counted
    have hpos : 0 < s.usedFrames := by omega
    have hsub : sub64 s.usedFrames 1 = s.usedFrames - 1 := sub64_of_le hpos (by omega)
    refine ⟨s.marked m (s.usedFrames - 1), ?_, marked_of_count hout hbits (by omega)⟩
    simp [pmmReleaseFrame, htest, hclear, Machine.withMem, Machine.marked, hpos, hsub]

theorem pmmReserveFrame_run {frame : Nat} (h : Counted s) (hframe : frame < s.totalFrames) :
    ∃ s', pmmReserveFrame frame s = .ok () s' ∧
      Marked s s' fun g => s.frameUsed g || decide (g = frame) := by
  have hcovered := h.covered
  have hword : frame / 64 < s.bitmapSizeQwords := by omega
  have htest := pmmBitmapTest_run (s := s) hword
  cases hused : s.frameUsed frame with
  | true =>
    rw [hused] at htest
    refine ⟨s, by simp [pmmReserveFrame, htest], Marked.refl h ?_⟩
    intro g
    by_cases hg : g = frame
    · rw [hg, hused, Bool.true_or]
    · simp [hg]
  | false =>
    rw [hused] at htest
    obtain ⟨m, hset, hout, hbits⟩ := pmmBitmapSet_run (s := s) hword
    have hcount : Nat.count (fun f => (s.frameUsed f || decide (f = frame)) = true)
        s.totalFrames = s.countUsed s.totalFrames + 1 :=
      count_insert (i := frame) hframe (by simp [hused]) (by simp)
    have hle := countUsed_le s s.totalFrames
    have hsmall := h.small
    have hcounted := h.counted
    have hadd : add64 s.usedFrames 1 = s.usedFrames + 1 := add64_of_lt (by omega)
    refine ⟨s.marked m (s.usedFrames + 1), ?_, marked_of_count hout hbits (by omega)⟩
    simp [pmmReserveFrame, htest, hset, Machine.withMem, Machine.marked, hadd]

/-- The releasing loop takes a range of frames out of the used ones. -/
theorem pmmReleaseFrames_run (n frame : Nat) (h : Counted s) (hend : frame + n ≤ s.totalFrames) :
    ∃ s', pmmReleaseFrames n frame s = .ok () s' ∧
      Marked s s' fun g => s.frameUsed g && !decide (frame ≤ g ∧ g < frame + n) := by
  induction n generalizing s frame with
  | zero =>
    refine ⟨s, by simp [pmmReleaseFrames], Marked.refl h ?_⟩
    intro g
    rw [decide_eq_false (by omega), Bool.not_false, Bool.and_true]
  | succ n ih =>
    obtain ⟨s1, hrun1, hmark1⟩ := pmmReleaseFrame_run h (show frame < s.totalFrames by omega)
    have htotal := hmark1.totalFrames
    obtain ⟨s2, hrun2, hmark2⟩ := ih (frame + 1) (hmark1.next h) (by omega)
    refine ⟨s2, by simp [pmmReleaseFrames, hrun1, hrun2], (hmark1.trans hmark2).congr ?_⟩
    intro g
    rw [hmark1.bits, Bool.and_assoc, ← Bool.not_or, ← Bool.decide_or]
    congr 3
    exact propext (by omega)

/-- The loop over the bitmap's frames adds a range to the used ones. -/
theorem pmmReserveFrames_run (n frame : Nat) (h : Counted s) (hend : frame + n ≤ s.totalFrames) :
    ∃ s', pmmReserveFrames n frame s = .ok () s' ∧
      Marked s s' fun g => s.frameUsed g || decide (frame ≤ g ∧ g < frame + n) := by
  induction n generalizing s frame with
  | zero =>
    refine ⟨s, by simp [pmmReserveFrames], Marked.refl h ?_⟩
    intro g
    rw [decide_eq_false (by omega), Bool.or_false]
  | succ n ih =>
    obtain ⟨s1, hrun1, hmark1⟩ := pmmReserveFrame_run h (show frame < s.totalFrames by omega)
    have htotal := hmark1.totalFrames
    obtain ⟨s2, hrun2, hmark2⟩ := ih (frame + 1) (hmark1.next h) (by omega)
    refine ⟨s2, by simp [pmmReserveFrames, hrun1, hrun2], (hmark1.trans hmark2).congr ?_⟩
    intro g
    rw [hmark1.bits, Bool.or_assoc, ← Bool.decide_or]
    congr 2
    exact propext (by omega)

/-- The frame lies wholly inside the entry, and the entry is usable. -/
def MemmapEntry.Covers (e : MemmapEntry) (frame : Nat) : Prop :=
  e.type = .usable ∧ e.base ≤ frame * 4096 ∧ (frame + 1) * 4096 ≤ e.base + e.length

instance (e : MemmapEntry) (frame : Nat) : Decidable (e.Covers frame) :=
  inferInstanceAs (Decidable (_ ∧ _))

/-- Releasing one entry releases the frames wholly inside it: rounding the ends
of the entry inwards is the same. -/
theorem pmmReleaseEntry_run (e : MemmapEntry) (h : Counted s)
    (hrange : e.base + e.length + 0xFFF < 2 ^ 64)
    (htop : e.base + e.length ≤ s.totalFrames * 4096) :
    ∃ s', pmmReleaseEntry e s = .ok () s' ∧
      Marked s s' fun g => s.frameUsed g && !decide (e.Covers g) := by
  have hstart : alignUp e.base pageSize / pageSize = (e.base + 4095) / 4096 := by
    rw [alignUp_page, Nat.mod_eq_of_lt (by omega)]
    exact Nat.mul_div_cancel _ (by decide)
  have hend : alignDown (add64 e.base e.length) pageSize / pageSize =
      (e.base + e.length) / 4096 := by
    rw [add64_of_lt (by omega), alignDown_page (by omega)]
    exact Nat.mul_div_cancel _ (by decide)
  by_cases husable : e.type = .usable
  · by_cases hne : (e.base + e.length) / 4096 > (e.base + 4095) / 4096
    · obtain ⟨s', hrun, hmark⟩ := pmmReleaseFrames_run
        ((e.base + e.length) / 4096 - (e.base + 4095) / 4096) ((e.base + 4095) / 4096) h (by omega)
      refine ⟨s', by simp [pmmReleaseEntry, hstart, hend, husable, hne, hrun], hmark.congr ?_⟩
      intro g
      have hiff : e.Covers g ↔ (e.base + 4095) / 4096 ≤ g ∧ g < (e.base + 4095) / 4096 +
          ((e.base + e.length) / 4096 - (e.base + 4095) / 4096) := by
        simp only [MemmapEntry.Covers, husable, true_and]
        omega
      rw [decide_eq_decide.mpr hiff]
    · refine ⟨s, by simp [pmmReleaseEntry, hstart, hend, husable, hne], Marked.refl h ?_⟩
      intro g
      have hnone : ¬e.Covers g := by
        unfold MemmapEntry.Covers
        omega
      simp [hnone]
  · refine ⟨s, by simp [pmmReleaseEntry, husable], Marked.refl h ?_⟩
    intro g
    have hnone : ¬e.Covers g := fun hg => husable hg.1
    simp [hnone]

/-- Releasing all entries. -/
theorem pmmReleaseEntries_run (memmap : List MemmapEntry) (h : Counted s)
    (hrange : InRange memmap) (htop : ∀ e ∈ memmap, e.base + e.length ≤ s.totalFrames * 4096) :
    ∃ s', pmmReleaseEntries memmap s = .ok () s' ∧
      Marked s s' fun g => s.frameUsed g && !decide (∃ e ∈ memmap, e.Covers g) := by
  induction memmap generalizing s with
  | nil =>
    refine ⟨s, by simp [pmmReleaseEntries], Marked.refl h ?_⟩
    intro g
    simp
  | cons e es ih =>
    obtain ⟨s1, hrun1, hmark1⟩ := pmmReleaseEntry_run e h (hrange e List.mem_cons_self)
      (htop e List.mem_cons_self)
    have htotal := hmark1.totalFrames
    obtain ⟨s2, hrun2, hmark2⟩ := ih (hmark1.next h)
      (fun d hd => hrange d (List.mem_cons_of_mem e hd))
      (fun d hd => htotal ▸ htop d (List.mem_cons_of_mem e hd))
    refine ⟨s2, by simp [pmmReleaseEntries, hrun1, hrun2], (hmark1.trans hmark2).congr ?_⟩
    intro g
    rw [hmark1.bits, Bool.and_assoc, ← Bool.not_or]
    congr 2
    rw [Bool.eq_iff_iff]
    simp only [decide_eq_true_eq, Bool.or_eq_true, List.mem_cons, exists_eq_or_imp]

/-! ## The whole phase -/

/-- What the phase leaves for the memory map: the bitmap lies in a usable entry, above the
first megabyte, and the free frames are those inside usable entries without a part of it. -/
structure InitialPmm (memmap : List MemmapEntry) (s : Machine) : Prop where
  totalFrames : s.totalFrames = totalFramesOf memmap
  bitmapPlace : ∃ e ∈ memmap, e.type = .usable ∧ e.base ≤ s.bitmap ∧
    s.bitmap + 8 * s.bitmapSizeQwords ≤ e.base + e.length ∧ 0x100000 ≤ s.bitmap
  freeFrames : ∀ f, f < s.totalFrames →
    (s.frameUsed f = false ↔ (∃ e ∈ memmap, e.Covers f) ∧ ¬s.HoldsBitmap f)
  counted : s.usedFrames = s.countUsed s.totalFrames
  wellFormed : PmmWf s

/-- The machine the loops of the phase start from, with the bitmap at
`bitmap`. -/
def Machine.blank (s : Machine) (hhdmOffset bitmap : Nat) (memmap : List MemmapEntry) :
    Machine where
  mem := fill s.mem bitmap (bitmapBytesOf memmap) 0xFF
  hhdmPhysOffset := hhdmOffset
  bitmap := bitmap
  bitmapSizeQwords := bitmapQwordsOf memmap
  totalFrames := totalFramesOf memmap
  usedFrames := totalFramesOf memmap
  highestFrame := sub64 (totalFramesOf memmap) 1
  lastAllocatedIndex := s.lastAllocatedIndex

section Phase

variable (s : Machine) (hhdmOffset bitmap : Nat) {memmap : List MemmapEntry}
  (hrange : InRange memmap)

include hrange

/-- After the `memset` every frame is used. -/
theorem blank_frameUsed {g : Nat} (hg : g < 64 * bitmapQwordsOf memmap) :
    (s.blank hhdmOffset bitmap memmap).frameUsed g = true := by
  have hbytes := bitmapBytesOf_eq hrange
  have hword : (s.blank hhdmOffset bitmap memmap).words (g / 64) = 2 ^ 64 - 1 := by
    show read64 (fill s.mem bitmap (bitmapBytesOf memmap) 0xFF) (bitmap + 8 * (g / 64)) = _
    rw [read64_fill_inside (by omega) (by omega), read64_const_ff]
  rw [Machine.frameUsed, bitAt, hword, Nat.testBit_two_pow_sub_one]
  have : g % 64 < 64 := Nat.mod_lt _ (by decide)
  simpa using this

theorem blank_counted : Counted (s.blank hhdmOffset bitmap memmap) where
  covered := by
    show totalFramesOf memmap ≤ 64 * bitmapQwordsOf memmap
    have := bitmapQwordsOf_eq hrange
    omega
  small := totalFramesOf_le hrange
  counted := by
    show totalFramesOf memmap = Nat.count _ (totalFramesOf memmap)
    symm
    rw [Nat.count_iff_forall]
    intro f hf
    have := bitmapQwordsOf_eq hrange
    exact blank_frameUsed s hhdmOffset bitmap hrange (by omega)

/-- The used frames after both loops over the frames of `s`. -/
def loopsUsed (memmap : List MemmapEntry) (s : Machine) (g : Nat) : Bool :=
  s.frameUsed g && !decide (∃ e ∈ memmap, e.Covers g) ||
    decide (s.bitmap / 4096 ≤ g ∧ g < (s.bitmap + bitmapBytesOf memmap + 4095) / 4096)

theorem memoryInit_loops
    (hfits : bitmap + bitmapBytesOf memmap ≤ highestAddr memmap) :
    ∃ s1 s2, pmmReleaseEntries memmap (s.blank hhdmOffset bitmap memmap) = .ok () s1 ∧
      pmmReserveFrames ((bitmap + bitmapBytesOf memmap + 4095) / 4096 - bitmap / 4096)
        (bitmap / 4096) s1 = .ok () s2 ∧
      Marked (s.blank hhdmOffset bitmap memmap) s2
        (loopsUsed memmap (s.blank hhdmOffset bitmap memmap)) := by
  have hblank := blank_counted s hhdmOffset bitmap hrange
  have htotal := totalFramesOf_eq hrange
  obtain ⟨s1, hrun1, hmark1⟩ := pmmReleaseEntries_run memmap hblank hrange (by
    intro d hd
    have := highestAddr_ge hrange d hd
    show d.base + d.length ≤ totalFramesOf memmap * 4096
    omega)
  have htotal1 : s1.totalFrames = totalFramesOf memmap := hmark1.totalFrames
  obtain ⟨s2, hrun2, hmark2⟩ := pmmReserveFrames_run
    ((bitmap + bitmapBytesOf memmap + 4095) / 4096 - bitmap / 4096) (bitmap / 4096)
    (hmark1.next hblank) (by omega)
  refine ⟨s1, s2, hrun1, hrun2, (hmark1.trans hmark2).congr ?_⟩
  intro g
  have hrange : bitmap / 4096 ≤ g ∧ g < bitmap / 4096 +
        ((bitmap + bitmapBytesOf memmap + 4095) / 4096 - bitmap / 4096) ↔
      bitmap / 4096 ≤ g ∧ g < (bitmap + bitmapBytesOf memmap + 4095) / 4096 := by omega
  rw [hmark1.bits, decide_eq_decide.mpr hrange]
  rfl

/-- A bitmap placed inside a usable entry: the loops leave `InitialPmm`. -/
theorem initialPmm_of_loops {s2 : Machine} (hhhdm : hhdmOffset ≠ 0)
    (hplace : ∃ e ∈ memmap, e.type = .usable ∧ e.base ≤ bitmap ∧
      bitmap + bitmapBytesOf memmap ≤ e.base + e.length ∧ 0x100000 ≤ bitmap)
    (hmark : Marked (s.blank hhdmOffset bitmap memmap) s2
      (loopsUsed memmap (s.blank hhdmOffset bitmap memmap))) :
    InitialPmm memmap s2 := by
  have hbytes := bitmapBytesOf_eq hrange
  have hqwords := bitmapQwordsOf_eq hrange
  have htotal := totalFramesOf_eq hrange
  have hsmall := totalFramesOf_le hrange
  have htops := highestAddr_ge hrange
  have hpos : 0 < totalFramesOf memmap := by
    obtain ⟨e, he, _, hbase, hfits, hmega⟩ := hplace
    have := htops e he
    omega
  have hhighest : sub64 (totalFramesOf memmap) 1 = totalFramesOf memmap - 1 :=
    sub64_of_le hpos (by omega)
  obtain ⟨⟨m, u, rfl⟩, hout, hbits, hcount⟩ := hmark
  have hholds : ∀ g, ((s.blank hhdmOffset bitmap memmap).marked m u).HoldsBitmap g ↔
      bitmap / 4096 ≤ g ∧ g < (bitmap + bitmapBytesOf memmap + 4095) / 4096 := by
    intro g
    show g * 4096 < bitmap + 8 * bitmapQwordsOf memmap ∧ bitmap < (g + 1) * 4096 ↔ _
    omega
  have hused : ∀ g, g < 64 * bitmapQwordsOf memmap →
      ((s.blank hhdmOffset bitmap memmap).marked m u).frameUsed g =
        (!decide (∃ e ∈ memmap, e.Covers g) ||
          decide (((s.blank hhdmOffset bitmap memmap).marked m u).HoldsBitmap g)) := by
    intro g hg
    rw [hbits g, loopsUsed, blank_frameUsed s hhdmOffset bitmap hrange hg, Bool.true_and,
      decide_eq_decide.mpr (hholds g)]
    rfl
  have hnotCovered : ∀ g, totalFramesOf memmap ≤ g → ¬∃ e ∈ memmap, e.Covers g := by
    rintro g hg ⟨e, he, _, _, htop⟩
    have := htops e he
    omega
  refine ⟨rfl, ?_, ?_, hcount, ?_⟩
  · obtain ⟨e, he, husable, hbase, hfits, hmega⟩ := hplace
    exact ⟨e, he, husable, hbase, hbytes ▸ hfits, hmega⟩
  · intro f hf
    have hf' : f < totalFramesOf memmap := hf
    rw [hused f (by omega)]
    simp
  · refine
      { hhdm := hhhdm, covered := ?_, highest := ?_, padding := ?_, counted := ?_, storage := ?_ }
    · show sub64 (totalFramesOf memmap) 1 < 64 * bitmapQwordsOf memmap
      omega
    · show sub64 (totalFramesOf memmap) 1 < 2 ^ 52
      omega
    · intro f hf hf'
      have hbeyond : sub64 (totalFramesOf memmap) 1 < f := hf
      rw [hused f hf', decide_eq_false (hnotCovered f (by omega))]
      rfl
    · have hlast : sub64 (totalFramesOf memmap) 1 + 1 = totalFramesOf memmap := by omega
      show u = Machine.countUsed _ (sub64 (totalFramesOf memmap) 1 + 1)
      rw [hlast]
      exact hcount
    · intro f hf hf'
      have hlast : f ≤ sub64 (totalFramesOf memmap) 1 := hf
      rw [hused f (by omega), decide_eq_true hf', Bool.or_true]

end Phase

/-- **The first phase of `memory_init`**, for every memory map in range.  It
stops the machine only if the direct map is missing or no usable entry has room
for the bitmap; otherwise it leaves `InitialPmm`, and memory outside the bitmap as it
was. -/
theorem memoryInitPmm_run (hhdmOffset : Nat) (memmap : List MemmapEntry) (s : Machine)
    (hrange : InRange memmap) :
    (∃ s', memoryInitPmm hhdmOffset memmap s =
        .panic "PMM: Could not find suitable space for the bitmap!" s') ∨
      (hhdmOffset = 0 ∧ ∃ s', memoryInitPmm hhdmOffset memmap s =
        .panic "Assertion failed: hhdm_phys_offset != 0" s') ∨
      ∃ s', memoryInitPmm hhdmOffset memmap s = .ok () s' ∧ InitialPmm memmap s' ∧
        s'.highestFrame = sub64 (totalFramesOf memmap) 1 ∧
        ∀ x, ¬s'.InBitmap x → s'.mem x = s.mem x := by
  obtain ⟨p, hp⟩ : ∃ p, placeBitmap (bitmapBytesOf memmap) memmap = p := ⟨_, rfl⟩
  by_cases hplace : p = 0
  · left
    exact ⟨_, by simp [memoryInitPmm, hp, hplace]; rfl⟩
  by_cases hhhdm : hhdmOffset = 0
  · right
    left
    exact ⟨hhhdm, _, by simp [memoryInitPmm, hp, hplace, physToVirt, hhhdm]; rfl⟩
  right
  right
  have hbytes := bitmapBytesOf_eq hrange
  have hqwords := bitmapQwordsOf_eq hrange
  have hsmall := totalFramesOf_le hrange
  obtain ⟨e, he, husable, hbase, hfits, hmega, _⟩ :=
    placeBitmap_spec (bitmapBytesOf memmap) memmap hrange (by omega) (hp ▸ hplace)
  rw [hp] at hbase hfits hmega
  have hetop := highestAddr_ge hrange e he
  have herange := hrange e he
  have hend : alignUp (add64 p (bitmapBytesOf memmap)) pageSize / pageSize =
      (p + bitmapBytesOf memmap + 4095) / 4096 := by
    rw [add64_of_lt (by omega), alignUp_page, Nat.mod_eq_of_lt (by omega)]
    exact Nat.mul_div_cancel _ (by decide)
  obtain ⟨s1, s2, hrun1, hrun2, hmark⟩ := memoryInit_loops s hhdmOffset p hrange (by omega)
  have hinitial := initialPmm_of_loops s hhdmOffset _ hrange hhhdm
    ⟨e, he, husable, hbase, hfits, hmega⟩ hmark
  have hmem := hmark.outside
  obtain ⟨m, u, hs2⟩ := hmark.state
  refine ⟨s2, ?_, hinitial, by rw [hs2]; rfl, fun x hx => ?_⟩
  rotate_left
  · have hx' : ¬(s.blank hhdmOffset p memmap).InBitmap x := by
      rw [hs2] at hx
      exact hx
    refine (hmem x hx').trans (fill_apply_of_outside ?_)
    have hbounds : ¬(p ≤ x ∧ x < p + 8 * bitmapQwordsOf memmap) := hx'
    omega
  have hstart : p / pageSize = p / 4096 := rfl
  unfold Machine.blank at hrun1
  simp [memoryInitPmm, hp, hplace, physToVirt, hhhdm, memset, hrun1, hend, hstart, hrun2]

/-- What the phase leaves when it returns. -/
theorem memoryInitPmm_ok {hhdmOffset : Nat} {s s0 : Machine} (hrange : InRange memmap)
    (hinit : memoryInitPmm hhdmOffset memmap s = .ok () s0) :
    InitialPmm memmap s0 ∧ s0.highestFrame = sub64 (totalFramesOf memmap) 1 ∧
      ∀ x, ¬s0.InBitmap x → s0.mem x = s.mem x := by
  rcases memoryInitPmm_run hhdmOffset memmap s hrange with
    ⟨t, hspace⟩ | ⟨_, t, hoffset⟩ | ⟨t, hphase, hleft⟩
  · cases hinit.symm.trans hspace
  · cases hinit.symm.trans hoffset
  · cases hinit.symm.trans hphase
    exact hleft

/-- The phase leaves a well-formed frame allocator. -/
theorem pmmWf_of_memoryInitPmm {hhdmOffset : Nat} {s s0 : Machine} (hrange : InRange memmap)
    (hinit : memoryInitPmm hhdmOffset memmap s = .ok () s0) : PmmWf s0 :=
  (memoryInitPmm_ok hrange hinit).1.wellFormed

/-- The byte `x` belongs to the entry. -/
def MemmapEntry.Contains (e : MemmapEntry) (x : Nat) : Prop :=
  e.base ≤ x ∧ x < e.base + e.length

/-- No usable entry shares a byte with an entry of another type. -/
def UsableApart (memmap : List MemmapEntry) : Prop :=
  ∀ d ∈ memmap, d.type = .usable → ∀ e ∈ memmap, e.type ≠ .usable →
    ∀ x, d.Contains x → ¬e.Contains x

/-- If the usable entries are apart from the others, no free frame touches an
entry that is not usable. -/
theorem InitialPmm.free_apart {s : Machine} (h : InitialPmm memmap s) (hapart : UsableApart memmap)
    {f : Nat} (hf : f < s.totalFrames) (hfree : s.frameUsed f = false) {e : MemmapEntry}
    (he : e ∈ memmap) (htype : e.type ≠ .usable) {x : Nat} (hx : InFrame f x) : ¬e.Contains x := by
  obtain ⟨⟨d, hd, husable, hbase, htop⟩, _⟩ := (h.freeFrames f hf).mp hfree
  apply hapart d hd husable e he htype x
  unfold InFrame at hx
  exact ⟨by omega, by omega⟩

/-- **What `memory_init` makes of a memory map.**  The phase either stops the
machine for want of a direct map or of room for the bitmap, or it leaves the
bitmap inside one usable entry above 1 MiB, exactly the frames free that lie in
a usable entry and hold no part of the bitmap, and the right count. -/
theorem memoryInit_pmm_phase (hhdmOffset : Nat) (memmap : List MemmapEntry) (s : Machine)
    (hrange : InRange memmap) :
    (∃ s', memoryInitPmm hhdmOffset memmap s =
        .panic "PMM: Could not find suitable space for the bitmap!" s') ∨
      (hhdmOffset = 0 ∧ ∃ s', memoryInitPmm hhdmOffset memmap s =
        .panic "Assertion failed: hhdm_phys_offset != 0" s') ∨
      ∃ s', memoryInitPmm hhdmOffset memmap s = .ok () s' ∧
        (∃ e ∈ memmap, e.type = .usable ∧ e.base ≤ s'.bitmap ∧
          s'.bitmap + 8 * s'.bitmapSizeQwords ≤ e.base + e.length ∧ 0x100000 ≤ s'.bitmap) ∧
        (∀ f, f < s'.totalFrames → (s'.frameUsed f = false ↔
          (∃ e ∈ memmap, e.Covers f) ∧ ¬∃ x, InFrame f x ∧ s'.InBitmap x)) ∧
        s'.usedFrames = s'.countUsed s'.totalFrames ∧
        (UsableApart memmap → ∀ f, f < s'.totalFrames → s'.frameUsed f = false →
          ∀ e ∈ memmap, e.type ≠ .usable → ∀ x, InFrame f x → ¬e.Contains x) := by
  rcases memoryInitPmm_run hhdmOffset memmap s hrange with hspace | hoffset | ⟨s', hrun, hinit, _⟩
  · exact Or.inl hspace
  · exact Or.inr (Or.inl hoffset)
  · right
    right
    refine ⟨s', hrun, hinit.bitmapPlace, ?_, hinit.counted, ?_⟩
    · intro f hf
      have hcovered := hinit.wellFormed.covered
      rw [hinit.freeFrames f hf, holdsBitmap_iff (by omega)]
    · intro hapart f hf hfree e he htype x hx
      exact hinit.free_apart hapart hf hfree he htype hx

/-- A machine before `memory_init`. -/
def Machine.zero : Machine := ⟨fun _ => 0, 0, 0, 0, 0, 0, 0, 0⟩

/-- Two pages at 1 MiB, with a reserved page below them. -/
def smallMemmap : List MemmapEntry :=
  [⟨0xFF000, 0x1000, .reserved⟩, ⟨0x100000, 0x2000, .usable⟩]

theorem smallMemmap_inRange : InRange smallMemmap := by
  intro e he
  simp only [smallMemmap, List.mem_cons, List.not_mem_nil, or_false] at he
  rcases he with rfl | rfl <;> decide

theorem smallMemmap_apart : UsableApart smallMemmap := by
  intro d hd hdtype e he hetype x hdx hex
  simp only [smallMemmap, List.mem_cons, List.not_mem_nil, or_false] at hd he
  unfold MemmapEntry.Contains at hdx hex
  -- the usable entry begins where the other one ends
  rcases hd with rfl | rfl
  · cases hdtype
  · rcases he with rfl | rfl
    · simp only at hdx hex
      omega
    · exact hetype rfl

/-- On the small map the bitmap takes the first usable page, and the second is
the only free frame. -/
theorem memoryInit_pmm_phase_small :
    ∃ s', memoryInitPmm kernelVmaOffset smallMemmap Machine.zero = .ok () s' ∧
      s'.frameUsed 257 = false ∧ ∀ f, f < s'.totalFrames → s'.frameUsed f = false →
        ∀ x, InFrame f x →
        ¬(⟨0xFF000, 0x1000, .reserved⟩ : MemmapEntry).Contains x := by
  have hcheck : (memoryInitPmm kernelVmaOffset smallMemmap Machine.zero).test
      (fun _ s => !s.frameUsed 257) = true := by decide +kernel
  obtain ⟨_, s', hrun, hfree⟩ := Outcome.exists_of_test hcheck
  rcases memoryInit_pmm_phase kernelVmaOffset smallMemmap Machine.zero smallMemmap_inRange with
    ⟨t, hspace⟩ | ⟨hoffset, _⟩ | ⟨t, hphase, _, _, _, hapart⟩
  · cases hrun.symm.trans hspace
  · exact absurd hoffset (by decide)
  · cases hrun.symm.trans hphase
    refine ⟨s', hrun, by simpa using hfree, ?_⟩
    intro f hf hfree x hx
    exact hapart smallMemmap_apart f hf hfree _ List.mem_cons_self (by decide) x hx

end FarouKernel.Ports.Pmm
