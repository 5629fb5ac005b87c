import FarouKernel.Ports.DevfsModel
import FarouKernel.Verified.Runs
import Mathlib.Data.List.Basic

/-!
# Failed writes and holes

`devfs_write` copies into the buffer of the file itself.  A copy that fails has
changed the buffer already: it leaves what it could read, and zeros behind that.
`Harmless` are the calls that change nothing in this way; over runs of such calls the
bytes that were never written are zero (`DevfsInv`), and the next failing call keeps
what the file shows exactly if it is harmless too.
-/

namespace FarouKernel.Ports.Devfs

open Verified
open Relation (ReflTransGen)

/-- The file with the position and length of each successful write. -/
structure DevfsConfig where
  file : DevfsFile
  log : List (Nat × Nat)

/-- After the mount. -/
def DevfsConfig.mount (pageSize : Nat) : DevfsConfig := ⟨devfsFillSuper pageSize, []⟩

/-- The byte was written by a successful call. -/
def DevfsConfig.Written (c : DevfsConfig) (x : Nat) : Prop :=
  ∃ p ∈ c.log, p.1 ≤ x ∧ x < p.1 + p.2

/-- After a call of `devfs_write`. -/
def DevfsConfig.write (c : DevfsConfig) (w : WriteCall) : DevfsConfig where
  file := (devfsWrite c.file w).file
  log :=
    if (devfsWrite c.file w).retval < 0 then c.log
    else (w.pos, (devfsWrite c.file w).retval.toNat) :: c.log

/-- The bytes that `devfs_write` asks `copy_from_user` for. -/
def WriteCall.length (w : WriteCall) (f : DevfsFile) : Nat := min w.count (f.bufferSize - w.pos)

/-- `copy_from_user` fails. -/
def WriteCall.Faults (w : WriteCall) (f : DevfsFile) : Prop :=
  w.pos < f.bufferSize ∧ w.readable < w.length f

/-- If `copy_from_user` fails, it leaves the bytes as they were: those it could read
are in the buffer already, and the others are zero. -/
def WriteCall.Harmless (w : WriteCall) (f : DevfsFile) : Prop :=
  w.Faults f → ∀ j, j < w.length f →
    f.buffer (w.pos + j) = if j < w.readable then w.user j else 0

/-- A call of `devfs_read`, or of `devfs_write` whose copy changes nothing if it
fails. -/
inductive HarmlessStep : DevfsConfig → DevfsConfig → Prop
  | read (c : DevfsConfig) (pos count room : Nat) : HarmlessStep c c
  | write (c : DevfsConfig) (w : WriteCall) (h : w.Harmless c.file) : HarmlessStep c (c.write w)

/-- What is written is inside the file, and the rest of the buffer is zero. -/
structure DevfsInv (c : DevfsConfig) : Prop where
  written : ∀ x, c.Written x → x < c.file.iSize
  zero : ∀ x, x < c.file.bufferSize → ¬c.Written x → c.file.buffer x = 0

/-- What a read shows. -/
theorem getElem?_devfsRead (f : DevfsFile) (pos count room j : Nat) :
    (devfsRead f pos count room).data[j]? =
      if j < min (min count (f.iSize - pos)) room then some (f.buffer (pos + j)) else none := by
  unfold devfsRead
  by_cases hend : f.iSize ≤ pos
  · rw [if_pos hend, if_neg (by omega)]
    rfl
  rw [if_neg hend]
  have hdata : ((List.range (min (min count (f.iSize - pos)) room)).map
      fun j => f.buffer (pos + j))[j]? =
        if j < min (min count (f.iSize - pos)) room then some (f.buffer (pos + j)) else none := by
    rw [List.getElem?_map]
    split
    · rename_i hj
      rw [List.getElem?_range hj, Option.map_some]
    · rename_i hj
      rw [List.getElem?_eq_none (by rw [List.length_range]; omega), Option.map_none]
  dsimp only
  split <;> exact hdata

section Write

variable {f : DevfsFile} {w : WriteCall} {c : DevfsConfig}

theorem devfsWrite_of_full (h : f.bufferSize ≤ w.pos) :
    devfsWrite f w = ⟨-enospc, w.pos, f⟩ := dif_pos h

theorem devfsWrite_of_faults (h : w.Faults f) :
    devfsWrite f w = ⟨-efault, w.pos, f.copyFromUser w (w.length f)⟩ := by
  rw [devfsWrite, dif_neg (Nat.not_le.mpr h.1)]
  exact if_pos h.2

/-- What a successful write changes. -/
structure Succeeds (f : DevfsFile) (w : WriteCall) : Prop where
  retval : (devfsWrite f w).retval = w.length f
  inside : w.pos + w.length f ≤ f.bufferSize
  bufferSize : (devfsWrite f w).file.bufferSize = f.bufferSize
  iSize : (devfsWrite f w).file.iSize = max f.iSize (w.pos + w.length f)
  buffer : ∀ x, ¬(w.pos ≤ x ∧ x < w.pos + w.length f) →
    (devfsWrite f w).file.buffer x = f.buffer x

theorem succeeds_of_not (hpos : ¬f.bufferSize ≤ w.pos) (hfaults : ¬w.Faults f) :
    Succeeds f w := by
  have hlt := Nat.lt_of_not_le hpos
  have hcopied : ¬w.readable < w.length f := fun h => hfaults ⟨hlt, h⟩
  have hinside : w.pos + w.length f ≤ f.bufferSize := by
    unfold WriteCall.length
    omega
  have hwrite : devfsWrite f w = ⟨w.length f, w.pos + w.length f,
      if f.iSize < w.pos + w.length f then
        { f.copyFromUser w (w.length f) with iSize := w.pos + w.length f, size_le := hinside }
      else f.copyFromUser w (w.length f)⟩ := by
    rw [devfsWrite, dif_neg hpos]
    exact if_neg hcopied
  by_cases hgrows : f.iSize < w.pos + w.length f
  · rw [if_pos hgrows] at hwrite
    refine ⟨by rw [hwrite], hinside, by rw [hwrite]; rfl, ?_, ?_⟩
    · rw [hwrite]
      exact (Nat.max_eq_right (Nat.le_of_lt hgrows)).symm
    · intro x hx
      rw [hwrite]
      exact if_neg hx
  · rw [if_neg hgrows] at hwrite
    refine ⟨by rw [hwrite], hinside, by rw [hwrite]; rfl, ?_, ?_⟩
    · rw [hwrite]
      exact (Nat.max_eq_left (Nat.le_of_not_lt hgrows)).symm
    · intro x hx
      rw [hwrite]
      exact if_neg hx

/-- **The three outcomes of a write.** -/
theorem devfsWrite_cases (f : DevfsFile) (w : WriteCall) :
    devfsWrite f w = ⟨-enospc, w.pos, f⟩ ∧ ¬w.Faults f ∨
      devfsWrite f w = ⟨-efault, w.pos, f.copyFromUser w (w.length f)⟩ ∧ w.Faults f ∨
      Succeeds f w ∧ ¬w.Faults f := by
  by_cases hpos : f.bufferSize ≤ w.pos
  · exact Or.inl ⟨devfsWrite_of_full hpos, fun h => Nat.not_lt.mpr hpos h.1⟩
  · by_cases hfaults : w.Faults f
    · exact Or.inr (Or.inl ⟨devfsWrite_of_faults hfaults, hfaults⟩)
    · exact Or.inr (Or.inr ⟨succeeds_of_not hpos hfaults, hfaults⟩)

theorem copyFromUser_byte {n j : Nat} (hj : j < n) :
    (f.copyFromUser w n).buffer (w.pos + j) = if j < w.readable then w.user j else 0 := by
  show (if _ then _ else _) = _
  rw [if_pos ⟨Nat.le_add_right _ _, Nat.add_lt_add_left hj _⟩, Nat.add_sub_cancel_left]

theorem copyFromUser_outside {n x : Nat} (hx : ¬(w.pos ≤ x ∧ x < w.pos + n)) :
    (f.copyFromUser w n).buffer x = f.buffer x := if_neg hx

/-- A failing copy that is harmless changes nothing. -/
theorem copyFromUser_eq_self (hfaults : w.Faults f) (hharmless : w.Harmless f) :
    f.copyFromUser w (w.length f) = f := by
  refine DevfsFile.ext (funext fun x => ?_) rfl rfl
  by_cases hx : w.pos ≤ x ∧ x < w.pos + w.length f
  · have hj : x - w.pos < w.length f := by omega
    have hcopied := copyFromUser_byte (f := f) (w := w) hj
    rw [← hharmless hfaults _ hj, Nat.add_sub_cancel' hx.1] at hcopied
    exact hcopied
  · exact copyFromUser_outside hx

theorem written_write (h : Succeeds c.file w) (x : Nat) :
    (c.write w).Written x ↔ (w.pos ≤ x ∧ x < w.pos + w.length c.file) ∨ c.Written x := by
  have hlog : (c.write w).log = (w.pos, w.length c.file) :: c.log := by
    show (if _ then _ else _) = _
    rw [h.retval, if_neg (Int.not_lt.mpr (Int.natCast_nonneg _)), Int.toNat_natCast]
  unfold DevfsConfig.Written
  rw [hlog, List.exists_mem_cons_iff]

theorem enospc_error : -enospc < 0 := by decide

theorem efault_error : -efault < 0 := by decide

/-- A write that fails and leaves the file as it was. -/
theorem write_eq_self {e : Int} (he : e < 0) (h : devfsWrite c.file w = ⟨e, w.pos, c.file⟩) :
    c.write w = c := by
  have hlog : (c.write w).log = c.log := if_pos (by rw [h]; exact he)
  have hfile : (c.write w).file = c.file := congrArg WriteResult.file h
  exact congr (congrArg DevfsConfig.mk hfile) hlog

end Write

section Run

variable {c c' : DevfsConfig} {w : WriteCall}

theorem devfsInv_mount (pageSize : Nat) : DevfsInv (DevfsConfig.mount pageSize) where
  written := fun _ ⟨_, hmem, _⟩ => absurd hmem List.not_mem_nil
  zero := fun _ _ _ => rfl

theorem DevfsInv.of_succeeds (h : DevfsInv c) (hwrite : Succeeds c.file w) :
    DevfsInv (c.write w) := by
  have hsize : (c.write w).file.iSize = max c.file.iSize (w.pos + w.length c.file) := hwrite.iSize
  have hbuffer : (c.write w).file.bufferSize = c.file.bufferSize := hwrite.bufferSize
  constructor
  · intro x hx
    rw [hsize]
    rcases (written_write hwrite x).mp hx with hnew | hold
    · omega
    · have hinside := h.written x hold
      omega
  · intro x hx hnot
    rw [hbuffer] at hx
    rw [written_write hwrite, not_or] at hnot
    exact (hwrite.buffer x hnot.1).trans (h.zero x hx hnot.2)

theorem DevfsInv.write (h : DevfsInv c) (hharmless : w.Harmless c.file) :
    DevfsInv (c.write w) := by
  rcases devfsWrite_cases c.file w with ⟨hfull, _⟩ | ⟨hfault, hfaults⟩ | ⟨hwrite, _⟩
  · rwa [write_eq_self enospc_error hfull]
  · rw [copyFromUser_eq_self hfaults hharmless] at hfault
    rwa [write_eq_self efault_error hfault]
  · exact h.of_succeeds hwrite

theorem devfsInv_run {pageSize : Nat}
    (hrun : ReflTransGen HarmlessStep (DevfsConfig.mount pageSize) c) : DevfsInv c := by
  apply run_invariant DevfsInv _ hrun (devfsInv_mount pageSize)
  intro s t hs hstep
  cases hstep with
  | read => exact hs
  | write w hharmless => exact hs.write hharmless

end Run

/-- The bytes behind the end of the file are zero, and so is what a read shows of the
bytes that were never written. -/
structure HolesZero (c : DevfsConfig) : Prop where
  beyond : ∀ x, c.file.iSize ≤ x → x < c.file.bufferSize → c.file.buffer x = 0
  holes : ∀ pos count room j b, (devfsRead c.file pos count room).data[j]? = some b →
    ¬c.Written (pos + j) → b = 0

/-- A call of `devfs_write` that returns an error leaves everything as it was: what
reads show, the size and the position. -/
def FailureKeeps (c : DevfsConfig) (w : WriteCall) : Prop :=
  (devfsWrite c.file w).retval < 0 →
    (∀ pos count room,
        devfsRead (devfsWrite c.file w).file pos count room = devfsRead c.file pos count room) ∧
      (devfsWrite c.file w).file.iSize = c.file.iSize ∧ (devfsWrite c.file w).pos = w.pos

section Visible

variable {c : DevfsConfig} {w : WriteCall}

theorem DevfsInv.holesZero (h : DevfsInv c) : HolesZero c := by
  constructor
  · intro x hx hlt
    apply h.zero x hlt
    intro hwritten
    exact Nat.not_lt.mpr hx (h.written x hwritten)
  · intro pos count room j b hread hnot
    rw [getElem?_devfsRead] at hread
    split at hread
    · rename_i hj
      rw [Option.some.injEq] at hread
      rw [← hread]
      have hsize := c.file.size_le
      exact h.zero (pos + j) (by omega) hnot
    · exact absurd hread (by simp)

theorem failureKeeps_of_harmless (hharmless : w.Harmless c.file) : FailureKeeps c w := by
  intro hfailed
  rcases devfsWrite_cases c.file w with ⟨hfull, _⟩ | ⟨hfault, hfaults⟩ | ⟨hwrite, _⟩
  · rw [hfull]
    exact ⟨fun _ _ _ => rfl, rfl, rfl⟩
  · rw [hfault, copyFromUser_eq_self hfaults hharmless]
    exact ⟨fun _ _ _ => rfl, rfl, rfl⟩
  · rw [hwrite.retval] at hfailed
    omega

/-- A byte inside the file can be read. -/
theorem buffer_eq_of_read {f f' : DevfsFile} {x : Nat}
    (hread : devfsRead f' x 1 1 = devfsRead f x 1 1) (hsize : f'.iSize = f.iSize)
    (hx : x < f.iSize) : f'.buffer x = f.buffer x := by
  have hbyte := getElem?_devfsRead f' x 1 1 0
  rw [hread, getElem?_devfsRead, hsize, if_pos (by omega), if_pos (by omega), Nat.add_zero,
    Option.some.injEq] at hbyte
  exact hbyte.symm

theorem harmless_of_failureKeeps (h : DevfsInv c) (hkeeps : FailureKeeps c w)
    (hholes : HolesZero (c.write w)) : w.Harmless c.file := by
  intro hfaults
  have hwrite := devfsWrite_of_faults hfaults
  have hfile : (c.write w).file = c.file.copyFromUser w (w.length c.file) :=
    congrArg WriteResult.file hwrite
  have hfailed : (devfsWrite c.file w).retval < 0 := by
    rw [hwrite]
    exact efault_error
  rcases hkeeps hfailed with ⟨hread, _, _⟩
  rw [hwrite] at hread
  have hlength : w.pos + w.length c.file ≤ c.file.bufferSize := by
    have hpos := hfaults.1
    unfold WriteCall.length
    omega
  intro j hj
  rw [← copyFromUser_byte (f := c.file) hj]
  -- A byte of the file is read before and after; one behind it is zero before and after.
  by_cases hinside : w.pos + j < c.file.iSize
  · exact (buffer_eq_of_read (hread _ 1 1) rfl hinside).symm
  · have hbeyond := hholes.beyond (w.pos + j)
    rw [hfile] at hbeyond
    rw [h.holesZero.beyond _ (Nat.le_of_not_lt hinside) (by omega)]
    exact (hbeyond (Nat.le_of_not_lt hinside) (show w.pos + j < c.file.bufferSize by omega)).symm

end Visible

/-- **Failed writes and holes.**  In every state of every run in which a failing copy
changes nothing, the bytes behind the end of the file are zero and bytes that were
never written read as zero; and the next call keeps that, and what the file shows if
it fails, exactly if its copy changes nothing when it fails. -/
theorem devfs_failed_write_iff (pageSize : Nat) (c : DevfsConfig)
    (hrun : ReflTransGen HarmlessStep (DevfsConfig.mount pageSize) c) :
    HolesZero c ∧
      ∀ w : WriteCall, FailureKeeps c w ∧ HolesZero (c.write w) ↔
        (w.pos < c.file.bufferSize →
          w.readable < min w.count (c.file.bufferSize - w.pos) →
            ∀ j, j < min w.count (c.file.bufferSize - w.pos) →
              c.file.buffer (w.pos + j) = if j < w.readable then w.user j else 0) := by
  have hinv := devfsInv_run hrun
  refine ⟨hinv.holesZero, ?_⟩
  intro w
  constructor
  · rintro ⟨hkeeps, hholes⟩ hpos hreadable
    exact harmless_of_failureKeeps hinv hkeeps hholes ⟨hpos, hreadable⟩
  · intro hcondition
    have hharmless : w.Harmless c.file := fun hfaults => hcondition hfaults.1 hfaults.2
    exact ⟨failureKeeps_of_harmless hharmless, (hinv.write hharmless).holesZero⟩

/-- A file with the contents `AB`. -/
def fileAB : DevfsConfig :=
  (DevfsConfig.mount 4096).write ⟨0, 2, fun j => if j = 0 then 65 else 66, 2⟩

/-- A write behind its end keeps the hole; so does one that fails after the letter
`B`, which stands there already. -/
theorem devfs_failed_write_repeated :
    HolesZero (fileAB.write ⟨10, 1, fun _ => 67, 1⟩) ∧
      (devfsWrite fileAB.file ⟨1, 2, fun _ => 66, 1⟩).retval < 0 ∧
      FailureKeeps fileAB ⟨1, 2, fun _ => 66, 1⟩ ∧
      HolesZero (fileAB.write ⟨1, 2, fun _ => 66, 1⟩) := by
  have hfirst : HarmlessStep (DevfsConfig.mount 4096) fileAB := by
    refine .write _ _ fun hfaults => absurd hfaults.2 ?_
    decide
  have hkeeps := (devfs_failed_write_iff 4096 fileAB (.single hfirst)).2
  refine ⟨?_, by decide, ?_⟩
  · exact ((hkeeps _).mpr fun _ hreadable => absurd hreadable (by decide)).2
  · exact (hkeeps _).mpr (by decide)

/-- A write that fails clears the contents; one that fails behind the end of the file
leaves what it could read, which the next successful write there makes visible. -/
theorem devfs_failed_write_changes :
    (devfsWrite fileAB.file ⟨0, 2, fun _ => 67, 0⟩).retval < 0 ∧
      (devfsRead fileAB.file 0 2 2).data = [65, 66] ∧
      (devfsRead (fileAB.write ⟨0, 2, fun _ => 67, 0⟩).file 0 2 2).data = [0, 0] ∧
      (devfsWrite fileAB.file ⟨2, 2, fun _ => 67, 1⟩).retval < 0 ∧
      (devfsRead ((fileAB.write ⟨2, 2, fun _ => 67, 1⟩).write ⟨3, 1, fun _ => 68, 1⟩).file 0 4
        4).data = [65, 66, 67, 68] := by
  decide

end FarouKernel.Ports.Devfs
