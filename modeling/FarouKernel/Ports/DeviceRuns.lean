import FarouKernel.Ports.DeviceModel
import FarouKernel.Verified.WriteLog

/-!
# Runs of the device

A run is any sequence of calls on an initialized device.  A configuration keeps,
next to the device, the log of what the calls did to the contents: a write that
returned a positive count is a store, and clearing the buffer or giving it
another size erases it.

The invariant ties the three descriptions of the contents together: the object
has `buffer_size` bytes, `buffer_size` is in range, and every byte is the one the
log says.
-/

namespace FarouKernel.Ports.Device

open Verified ByteMem

/-- A call. -/
inductive DeviceCall where
  | openDevice
  | release
  | read (buf : Option ByteMem) (count : Nat) (off : Option Int)
  | write (buf : Option ByteMem) (count : Nat) (off : Option Int)
  | ioctl (cmd : Nat) (arg : Option Nat) (mallocOk : Bool)

/-- The result of a call and the device after it. -/
def DeviceCall.run (pageSizeVal : Int) (dev : MyDevice) :
    DeviceCall → Option (CallResult × MyDevice)
  | .openDevice => some (⟨(myOpen dev).1, none, none, none⟩, (myOpen dev).2)
  | .release => some (⟨(myRelease dev).1, none, none, none⟩, (myRelease dev).2)
  | .read buf count off => myRead buf count off dev
  | .write buf count off => myWrite buf count off dev
  | .ioctl cmd arg mallocOk => myIoctl pageSizeVal mallocOk cmd arg dev

/-- `*off` before the call. -/
def DeviceCall.off : DeviceCall → Option Int
  | .read _ _ off => off
  | .write _ _ off => off
  | _ => none

/-- The call reads or writes. -/
def DeviceCall.Transfers : DeviceCall → Prop
  | .read _ _ _ => True
  | .write _ _ _ => True
  | _ => False

/-- The bytes a write of `n` bytes from `src` puts at `off`. -/
def written (src : ByteMem) (off n : Nat) (x : Nat) : Option UInt8 :=
  if off ≤ x ∧ x < off + n then some (src (x - off)) else none

/-- What a call with result `r`, from `dev` to `dev'`, means for the contents. -/
def DeviceCall.effect (dev dev' : MyDevice) (r : CallResult) :
    DeviceCall → List (LogEntry Nat UInt8)
  | .write (some src) _ (some off) =>
    if 0 < r.ret then [.store (written src off.toNat r.ret.toNat)] else []
  | .ioctl cmd _ _ =>
    if cmd = myIoctlClearBuffer ∨
        cmd = myIoctlSetBufferSize ∧ dev'.bufferSize ≠ dev.bufferSize then [.erase]
    else []
  | _ => []

/-- The device and the log of its contents, newest entry first. -/
structure DeviceConfig where
  dev : MyDevice
  log : List (LogEntry Nat UInt8)

/-- One call of a run. -/
def DeviceConfig.step (pageSizeVal : Int) (c : DeviceConfig) (call : DeviceCall) :
    Option DeviceConfig :=
  (call.run pageSizeVal c.dev).map fun result =>
    ⟨result.2, call.effect c.dev result.2 result.1 ++ c.log⟩

/-- The calls of a run, in order. -/
def DeviceConfig.runCalls (pageSizeVal : Int) (c : DeviceConfig) :
    List DeviceCall → Option DeviceConfig
  | [] => some c
  | call :: calls => (c.step pageSizeVal call).bind fun c' => c'.runCalls pageSizeVal calls

/-- The invariant: the buffer has the size that is stored with it, within the limits, and
holds what the log says. -/
structure DeviceInv (pageSizeVal : Int) (c : DeviceConfig) : Prop where
  object : c.dev.buffer.size = c.dev.bufferSize
  positive : 1 ≤ c.dev.bufferSize
  bounded : c.dev.bufferSize ≤ maxBufferSizeMultiplier * pageSizeToUse pageSizeVal
  small : c.dev.bufferSize < 2 ^ 63
  contents : ∀ x, x < c.dev.bufferSize → c.dev.buffer.bytes x = latest 0 c.log x

theorem pageSizeToUse_pos (pageSizeVal : Int) : 0 < pageSizeToUse pageSizeVal := by
  unfold pageSizeToUse defaultPageSize
  split <;> omega

theorem mallocZeroed_eq_some {ok : Bool} {size : Nat} {o : Object}
    (h : mallocZeroed ok size = some o) : o = ⟨fun _ => 0, size⟩ ∧ size < 2 ^ 63 := by
  unfold mallocZeroed at h
  split at h
  · rename_i hfits
    exact ⟨(Option.some.inj h).symm, hfits.2⟩
  · cases h

/-- A device just initialized. -/
theorem deviceInv_init {pageSizeVal : Int} {deviceOk bufferOk : Bool} {mutexRet : Int}
    {dev : MyDevice} (h : myDeviceInit pageSizeVal deviceOk bufferOk mutexRet = .ok dev) :
    DeviceInv pageSizeVal ⟨dev, []⟩ := by
  have hpos := pageSizeToUse_pos pageSizeVal
  unfold myDeviceInit at h
  split at h
  · cases h
  split at h
  · cases h
  rename_i buffer hmalloc
  obtain ⟨rfl, hsmall⟩ := mallocZeroed_eq_some hmalloc
  split at h
  · cases h
  cases h
  have hbounded : pageSizeToUse pageSizeVal ≤
      maxBufferSizeMultiplier * pageSizeToUse pageSizeVal :=
    Nat.le_mul_of_pos_left _ (by decide)
  exact ⟨rfl, hpos, hbounded, hsmall, fun _ _ => rfl⟩

/-- What a call has to do, from the configuration `c` to the device `dev'`. -/
structure CallCorrect (c : DeviceConfig) (call : DeviceCall) (r : CallResult) (dev' : MyDevice) :
    Prop where
  /-- Reads and writes transfer as much as fits. -/
  amount : ∀ buf count off, call = .read (some buf) count (some off) ∨
      call = .write (some buf) count (some off) →
    r.ret = if 0 ≤ off then (min count (c.dev.bufferSize - off.toNat) : Nat) else 0
  /-- The offset moves by the count returned, and not past the end. -/
  moved : ∀ off, call.off = some off → 0 ≤ r.ret →
    r.off = some (off + r.ret) ∧ (r.ret ≠ 0 → 0 ≤ off ∧ off + r.ret ≤ c.dev.bufferSize)
  /-- A read delivers the last bytes written, and zeros where nothing was. -/
  bytes : ∀ buf count off, call = .read (some buf) count (some off) → ∃ buf',
    r.buf = some buf' ∧ (∀ k, r.ret.toNat ≤ k → buf' k = buf k) ∧
    ∀ k, k < r.ret.toNat → LastStored c.log (off.toNat + k) (buf' k) ∨
      NotStored c.log (off.toNat + k) ∧ buf' k = 0
  /-- A call that transfers nothing or fails changes nothing. -/
  unchanged : r.ret < 0 ∨ call.Transfers ∧ r.ret = 0 → dev' = c.dev ∧ r.off = call.off

/-! ## Reads and writes -/

section Calls

variable {pageSizeVal : Int} {c : DeviceConfig}

theorem advance_eq {off : Int} {n : Nat} (hoff : 0 ≤ off) (hend : off.toNat + n < 2 ^ 63) :
    advance off n = off + n := by
  rw [advance, add64_of_lt (by omega), toInt64_of_lt hend]
  omega

/-- The number of bytes a transfer at `off` moves. -/
def MyDevice.amount (dev : MyDevice) (count : Nat) (off : Int) : Nat :=
  if 0 ≤ off then min count (dev.bufferSize - off.toNat) else 0

/-- The bounds of a transfer that moves bytes. -/
theorem DeviceInv.transfer_bounds (h : DeviceInv pageSizeVal c) {count n : Nat} {off : Int}
    (hn : c.dev.amount count off = n) (hpos : 0 < n) :
    ¬(off < 0 ∨ c.dev.bufferSize ≤ off.toNat) ∧ min count (c.dev.bufferSize - off.toNat) = n ∧
      off.toNat + n ≤ c.dev.bufferSize ∧ toInt64 n = n ∧ advance off n = off + n := by
  have hsmall := h.small
  have hle := Nat.min_le_right count (c.dev.bufferSize - off.toNat)
  by_cases hoff : 0 ≤ off
  · rw [MyDevice.amount, if_pos hoff] at hn
    exact ⟨by omega, hn, by omega, toInt64_of_lt (by omega), advance_eq hoff (by omega)⟩
  · rw [MyDevice.amount, if_neg hoff] at hn
    omega

theorem MyDevice.idle {dev : MyDevice} {count : Nat} {off : Int} (h : dev.amount count off = 0) :
    off < 0 ∨ min count (dev.bufferSize - off.toNat) = 0 := by
  unfold MyDevice.amount at h
  split at h <;> omega

/-- The call transfers between these. -/
def DeviceCall.Moves (buf : Option ByteMem) (count : Nat) (off : Option Int) (call : DeviceCall) :
    Prop :=
  call = .read buf count off ∨ call = .write buf count off

section Moves

variable {call : DeviceCall} {buf : Option ByteMem} {count : Nat} {off : Option Int}

theorem DeviceCall.Moves.off_eq (h : call.Moves buf count off) : call.off = off := by
  rcases h with rfl | rfl <;> rfl

theorem DeviceCall.Moves.inj {buf' : Option ByteMem} {count' : Nat} {off' : Option Int}
    (h : call.Moves buf count off) (h' : call.Moves buf' count' off') :
    buf' = buf ∧ count' = count ∧ off' = off := by
  rcases h with rfl | rfl <;> rcases h' with h' | h' <;> cases h' <;> exact ⟨rfl, rfl, rfl⟩

/-- A call with a null pointer. -/
theorem callCorrect_null (hcall : call.Moves buf count off) (hnull : buf = none ∨ off = none) :
    CallCorrect c call ⟨-einval, buf, off, none⟩ c.dev := by
  have hneg : (-einval : Int) < 0 := by decide
  have hno : ∀ buf' count' off', ¬call.Moves (some buf') count' (some off') := by
    intro buf' count' off' hcall'
    obtain ⟨hbuf, _, hoff⟩ := hcall.inj hcall'
    rcases hnull with rfl | rfl <;> contradiction
  refine ⟨?_, ?_, ?_, fun _ => ⟨rfl, hcall.off_eq.symm⟩⟩
  · exact fun _ _ _ hcall' => absurd hcall' (hno _ _ _)
  · exact fun _ _ hret => absurd hret (not_le.mpr hneg)
  · exact fun _ _ _ hcall' => absurd (Or.inl hcall') (hno _ _ _)

end Moves

/-- A call that transfers `n` bytes. -/
theorem callCorrect_transfer {buf : ByteMem} {count n : Nat} {off : Int} {call : DeviceCall}
    {dev' : MyDevice} (buf' : ByteMem) (hcall : call.Moves (some buf) count (some off))
    (hn : c.dev.amount count off = n) (hidle : n = 0 → dev' = c.dev)
    (hbytes : call = .read (some buf) count (some off) → (∀ k, n ≤ k → buf' k = buf k) ∧
      ∀ k, k < n → buf' k = latest 0 c.log (off.toNat + k)) :
    CallCorrect c call ⟨n, some buf', some (off + n), none⟩ dev' := by
  refine ⟨?_, ?_, ?_, ?_⟩
  · intro buf1 count1 off1 hcall1
    obtain ⟨_, rfl, hoff1⟩ := hcall.inj hcall1
    cases hoff1
    rw [← hn, MyDevice.amount]
  · intro off1 hoff1 _
    cases hcall.off_eq.symm.trans hoff1
    refine ⟨rfl, fun hne => ?_⟩
    have hle := Nat.min_le_right count (c.dev.bufferSize - off.toNat)
    unfold MyDevice.amount at hn
    split at hn <;> simp only at hne ⊢ <;> omega
  · intro buf1 count1 off1 hcall1
    obtain ⟨hbuf1, rfl, hoff1⟩ := hcall.inj (Or.inl hcall1)
    cases hbuf1
    cases hoff1
    obtain ⟨hrest, hfirst⟩ := hbytes hcall1
    refine ⟨buf', rfl, fun k hk => hrest k (by simpa using hk), ?_⟩
    intro k hk
    rw [hfirst k (by simpa using hk)]
    exact latest_cases 0 c.log (off.toNat + k)
  · intro hret
    simp only at hret
    obtain rfl : n = 0 := by omega
    exact ⟨hidle rfl, by simp [hcall.off_eq]⟩

theorem myRead_run (h : DeviceInv pageSizeVal c) (buf : Option ByteMem) (count : Nat)
    (off : Option Int) :
    ∃ r, myRead buf count off c.dev = some (r, c.dev) ∧
      CallCorrect c (.read buf count off) r c.dev := by
  cases buf with
  | none => exact ⟨_, rfl, callCorrect_null (Or.inl rfl) (Or.inl rfl)⟩
  | some dest =>
  cases off with
  | none => exact ⟨_, rfl, callCorrect_null (Or.inl rfl) (Or.inr rfl)⟩
  | some o =>
  cases hn : c.dev.amount count o with
  | zero =>
    refine ⟨_, ?_, callCorrect_transfer dest (Or.inl rfl) hn (fun _ => rfl) ?_⟩
    · rcases MyDevice.idle hn with hidle | hidle <;> simp [myRead, hidle]
    · simp
  | succ n =>
    obtain ⟨hrange, hmin, hend, hret, hadvance⟩ := h.transfer_bounds hn n.succ_pos
    have hcopy : o.toNat + (n + 1) ≤ c.dev.buffer.size := h.object ▸ hend
    refine ⟨_, ?_, callCorrect_transfer
      (fun k => if k < n + 1 then c.dev.buffer.bytes (o.toNat + k) else dest k) (Or.inl rfl) hn
      (fun _ => rfl) fun _ => ⟨?_, ?_⟩⟩
    · simp [myRead, hrange, hmin, Object.copyOut, hcopy, hret, hadvance]
    · intro k hk
      exact if_neg (Nat.not_lt.mpr hk)
    · intro k hk
      rw [if_pos hk, h.contents _ (by omega)]

theorem myWrite_run (h : DeviceInv pageSizeVal c) (buf : Option ByteMem) (count : Nat)
    (off : Option Int) :
    ∃ r dev', myWrite buf count off c.dev = some (r, dev') ∧
      CallCorrect c (.write buf count off) r dev' ∧
      DeviceInv pageSizeVal
        ⟨dev', (DeviceCall.write buf count off).effect c.dev dev' r ++ c.log⟩ := by
  cases buf with
  | none => exact ⟨_, _, rfl, callCorrect_null (Or.inr rfl) (Or.inl rfl), h⟩
  | some src =>
  cases off with
  | none => exact ⟨_, _, rfl, callCorrect_null (Or.inr rfl) (Or.inr rfl), h⟩
  | some o =>
  cases hn : c.dev.amount count o with
  | zero =>
    refine ⟨_, _, ?_, callCorrect_transfer src (Or.inr rfl) hn (fun _ => rfl) ?_, h⟩
    · rcases MyDevice.idle hn with hidle | hidle <;> simp [myWrite, hidle]
    · simp
  | succ n =>
    obtain ⟨hrange, hmin, hend, hret, hadvance⟩ := h.transfer_bounds hn n.succ_pos
    have hcopy : o.toNat + (n + 1) ≤ c.dev.buffer.size := h.object ▸ hend
    let buffer : Object :=
      { c.dev.buffer with
        bytes := fun x => if o.toNat ≤ x ∧ x < o.toNat + (n + 1) then src (x - o.toNat)
          else c.dev.buffer.bytes x }
    refine ⟨_, { c.dev with buffer := buffer }, ?_,
      callCorrect_transfer src (Or.inr rfl) hn (by simp) (by simp), ?_⟩
    · simp [myWrite, hrange, hmin, Object.copyIn, hcopy, hret, hadvance, buffer]
    · refine ⟨h.object, h.positive, h.bounded, h.small, ?_⟩
      intro x hx
      have hlog : ∀ dev', (DeviceCall.write (some src) count (some o)).effect c.dev dev'
          ⟨(n + 1 : Nat), some src, some (o + (n + 1 : Nat)), none⟩ =
          [.store (written src o.toNat (n + 1))] := fun _ => if_pos (Int.natCast_pos.mpr n.succ_pos)
      show buffer.bytes x = _
      rw [hlog, List.singleton_append, latest_store]
      by_cases hin : o.toNat ≤ x ∧ x < o.toNat + (n + 1)
      · rw [written, if_pos hin]
        exact if_pos hin
      · rw [written, if_neg hin, Option.getD_none, ← h.contents x hx]
        exact if_neg hin

/-! ## `my_ioctl` -/

/-- A call that transfers nothing has to keep the device if it fails. -/
theorem callCorrect_control {call : DeviceCall} {r : CallResult} {dev' : MyDevice}
    (hcall : ¬call.Transfers) (hoff : r.off = none) (hfail : r.ret < 0 → dev' = c.dev) :
    CallCorrect c call r dev' := by
  have hcalloff : call.off = none := by
    cases call <;> first | rfl | exact absurd trivial hcall
  refine ⟨?_, ?_, ?_, ?_⟩
  · intro buf count off hcall'
    rcases hcall' with rfl | rfl <;> exact absurd trivial hcall
  · intro off hoff'
    cases hcalloff.symm.trans hoff'
  · rintro buf count off rfl
    exact absurd trivial hcall
  · intro hcase
    rcases hcase with hneg | ⟨htransfers, _⟩
    · exact ⟨hfail hneg, hoff.trans hcalloff.symm⟩
    · exact absurd htransfers hcall

/-- A new size is refused, or the same, or the device has a new buffer of zeros. -/
theorem setBufferSize_cases (pageSizeVal : Int) (mallocOk : Bool) (newSize : Nat)
    (dev : MyDevice) :
    (setBufferSize pageSizeVal mallocOk newSize dev).2 = dev ∨
      setBufferSize pageSizeVal mallocOk newSize dev =
          (0, { dev with buffer := ⟨fun _ => 0, newSize⟩, bufferSize := newSize }) ∧
        newSize ≠ dev.bufferSize ∧ 1 ≤ newSize ∧ newSize < 2 ^ 63 ∧
        newSize ≤ maxBufferSizeMultiplier * pageSizeToUse pageSizeVal := by
  unfold setBufferSize
  split
  · exact Or.inl rfl
  dsimp only
  split
  · exact Or.inl rfl
  split
  · exact Or.inl rfl
  rename_i hzero hmax hsame
  cases hmalloc : mallocZeroed mallocOk newSize with
  | none => exact Or.inl rfl
  | some o =>
    right
    obtain ⟨rfl, hsmall⟩ := mallocZeroed_eq_some hmalloc
    have hle : newSize ≤ maxBufferSizeMultiplier * pageSizeToUse pageSizeVal :=
      Nat.le_trans (Nat.le_of_not_lt hmax) (Nat.mod_le _ _)
    exact ⟨rfl, hsame, Nat.one_le_iff_ne_zero.mpr hzero, hsmall, hle⟩

theorem DeviceInv.idle (h : DeviceInv pageSizeVal c) {cmd : Nat} {arg : Option Nat}
    {mallocOk : Bool} {r : CallResult} (hcmd : cmd ≠ myIoctlClearBuffer) :
    DeviceInv pageSizeVal
      ⟨c.dev, (DeviceCall.ioctl cmd arg mallocOk).effect c.dev c.dev r ++ c.log⟩ := by
  have hlog : (DeviceCall.ioctl cmd arg mallocOk).effect c.dev c.dev r = [] := by
    simp [DeviceCall.effect, hcmd]
  rw [hlog]
  exact h

theorem myIoctl_run (h : DeviceInv pageSizeVal c) (cmd : Nat) (arg : Option Nat)
    (mallocOk : Bool) :
    ∃ r dev', myIoctl pageSizeVal mallocOk cmd arg c.dev = some (r, dev') ∧
      CallCorrect c (.ioctl cmd arg mallocOk) r dev' ∧
      DeviceInv pageSizeVal
        ⟨dev', (DeviceCall.ioctl cmd arg mallocOk).effect c.dev dev' r ++ c.log⟩ := by
  unfold myIoctl
  by_cases hget : cmd = myIoctlGetBufferSize
  · rw [if_pos hget, hget]
    cases arg <;> exact ⟨_, _, rfl, callCorrect_control id rfl fun _ => rfl, h.idle (by decide)⟩
  rw [if_neg hget]
  by_cases hset : cmd = myIoctlSetBufferSize
  · have hclear : cmd ≠ myIoctlClearBuffer := by
      rw [hset]
      decide
    rw [if_pos hset]
    cases arg with
    | none => exact ⟨_, _, rfl, callCorrect_control id rfl fun _ => rfl, h.idle hclear⟩
    | some newSize =>
      rcases setBufferSize_cases pageSizeVal mallocOk newSize c.dev with
        hsame | ⟨hnew, hne, hpos, hsmall, hle⟩
      · refine ⟨_, _, rfl, callCorrect_control id rfl fun _ => hsame, ?_⟩
        rw [hsame]
        exact h.idle hclear
      · refine ⟨_, _, rfl, callCorrect_control id rfl ?_, ?_⟩
        · intro hneg
          rw [hnew] at hneg
          exact absurd hneg (Int.lt_irrefl 0)
        · rw [hnew]
          refine ⟨rfl, hpos, hle, hsmall, ?_⟩
          intro x _
          simp [DeviceCall.effect, hset, hne]
  rw [if_neg hset]
  by_cases hclear : cmd = myIoctlClearBuffer
  · rw [if_pos hclear]
    have hfits : c.dev.bufferSize ≤ c.dev.buffer.size := Nat.le_of_eq h.object.symm
    refine ⟨⟨0, none, none, arg⟩,
      { c.dev with buffer := { c.dev.buffer with
          bytes := fill c.dev.buffer.bytes 0 c.dev.bufferSize 0 } }, ?_, ?_, ?_⟩
    · simp [Object.clear, hfits]
    · exact callCorrect_control id rfl fun hneg => absurd hneg (Int.lt_irrefl 0)
    · refine ⟨h.object, h.positive, h.bounded, h.small, ?_⟩
      intro x hx
      have hx' : x < c.dev.bufferSize := hx
      simp [DeviceCall.effect, hclear, fill, hx']
  rw [if_neg hclear]
  by_cases hcount : cmd = myIoctlGetOpenCount
  · rw [if_pos hcount]
    cases arg <;> exact ⟨_, _, rfl, callCorrect_control id rfl fun _ => rfl, h.idle hclear⟩
  · rw [if_neg hcount]
    exact ⟨_, _, rfl, callCorrect_control id rfl fun _ => rfl, h.idle hclear⟩

/-! ## Runs -/

/-- Every call returns, does what it has to do and keeps the invariant. -/
theorem DeviceInv.call (h : DeviceInv pageSizeVal c) (call : DeviceCall) :
    ∃ r dev', call.run pageSizeVal c.dev = some (r, dev') ∧ CallCorrect c call r dev' ∧
      DeviceInv pageSizeVal ⟨dev', call.effect c.dev dev' r ++ c.log⟩ := by
  cases call with
  | openDevice =>
    exact ⟨_, _, rfl, callCorrect_control id rfl fun hneg => absurd hneg (Int.lt_irrefl 0),
      h.object, h.positive, h.bounded, h.small, h.contents⟩
  | release =>
    exact ⟨_, _, rfl, callCorrect_control id rfl fun hneg => absurd hneg (Int.lt_irrefl 0),
      h.object, h.positive, h.bounded, h.small, h.contents⟩
  | read buf count off =>
    obtain ⟨r, hrun, hcorrect⟩ := myRead_run h buf count off
    exact ⟨r, c.dev, hrun, hcorrect, h⟩
  | write buf count off => exact myWrite_run h buf count off
  | ioctl cmd arg mallocOk => exact myIoctl_run h cmd arg mallocOk

theorem DeviceInv.runCalls (h : DeviceInv pageSizeVal c) (calls : List DeviceCall) :
    ∃ c', c.runCalls pageSizeVal calls = some c' ∧ DeviceInv pageSizeVal c' := by
  induction calls generalizing c with
  | nil => exact ⟨c, rfl, h⟩
  | cons call calls ih =>
    obtain ⟨r, dev', hrun, _, hinv⟩ := h.call call
    obtain ⟨c', hrest, hinv'⟩ := ih hinv
    refine ⟨c', ?_, hinv'⟩
    rw [DeviceConfig.runCalls, DeviceConfig.step, hrun]
    exact hrest

end Calls

/-- **The buffer is last-writer-wins memory.**  After any calls on an initialized
device the buffer has `buffer_size` bytes, between one and ten pages, and every
further call does what it has to do. -/
theorem device_last_writer_wins (pageSizeVal : Int) (deviceOk bufferOk : Bool) (mutexRet : Int)
    (dev : MyDevice) (calls : List DeviceCall)
    (hinit : myDeviceInit pageSizeVal deviceOk bufferOk mutexRet = .ok dev) :
    ∃ c, (DeviceConfig.mk dev []).runCalls pageSizeVal calls = some c ∧
      c.dev.buffer.size = c.dev.bufferSize ∧ 1 ≤ c.dev.bufferSize ∧
      c.dev.bufferSize ≤ 10 * pageSizeToUse pageSizeVal ∧
      ∀ call : DeviceCall, ∃ r dev',
        call.run pageSizeVal c.dev = some (r, dev') ∧ CallCorrect c call r dev' := by
  obtain ⟨c, hrun, hinv⟩ := (deviceInv_init hinit).runCalls calls
  refine ⟨c, hrun, hinv.object, hinv.positive, hinv.bounded, ?_⟩
  intro call
  obtain ⟨r, dev', hcall, hcorrect, _⟩ := hinv.call call
  exact ⟨r, dev', hcall, hcorrect⟩

/-- A device with pages of 4096 bytes after a write of two bytes at offset 4095:
one of them fits. -/
theorem device_last_writer_wins_page :
    ∃ dev c, myDeviceInit 4096 true true 0 = .ok dev ∧
      (DeviceConfig.mk dev []).runCalls 4096 [.write (some fun _ => 7) 2 (some 4095)] = some c ∧
      c.dev.buffer.size = c.dev.bufferSize ∧
      ∃ r dev', (DeviceCall.read (some fun _ => 0) 9 (some 4095)).run 4096 c.dev = some (r, dev') ∧
        CallCorrect c (.read (some fun _ => 0) 9 (some 4095)) r dev' := by
  obtain ⟨c, hrun, hobject, _, _, hcalls⟩ := device_last_writer_wins 4096 true true 0
    ⟨⟨fun _ => 0, 4096⟩, 4096, 0⟩ [.write (some fun _ => 7) 2 (some 4095)] rfl
  exact ⟨_, c, rfl, hrun, hobject, hcalls _⟩

end FarouKernel.Ports.Device
