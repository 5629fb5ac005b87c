import FarouKernel.Ports.RateLimitCalls
import FarouKernel.Verified.FixedWindow
import FarouKernel.Verified.Runs
import Mathlib.Data.List.Nodup

/-!
# Runs of the rate limiter

A run is a sequence of calls of `check_and_update_rate_limit` at times that do not
decrease.  The configuration carries the log of the calls, newest first, each with
its result and with the time at which the entry that the caller has after the call
was opened: the window of the call.

The entry of a caller counts the calls of its window, and the first
`max_requests_per_minute` of them are allowed.  Windows of one caller are more than
`RATE_LIMIT_WINDOW` apart, so an interval of that length meets two of them at most,
and of the first not the call that opened it.
-/

namespace FarouKernel.Ports.Net

open Relation Verified

/-! ## Configurations -/

/-- A call and its result. -/
structure RateCall where
  time : Int
  ip : List UInt8
  allowed : Bool
  window : Option Int
  deriving DecidableEq, Repr

/-- When the entry of the caller was opened. -/
def RateLimits.windowOf (t : RateLimits) (ip : List UInt8) : Option Int :=
  (t.entries.find? fun e => e.ip = ip).map RateLimitEntry.firstRequestTime

/-- The table, and the calls made so far. -/
structure RateConfig where
  table : RateLimits
  log : List RateCall

/-- The empty table in an array that holds anything. -/
def RateConfig.start (slots : List RateLimitEntry) : RateConfig := ⟨⟨slots, 0, Nat.zero_le _⟩, []⟩

/-- A call. -/
def RateConfig.call (maxRequests now : Int) (ip : List UInt8) (c : RateConfig) : RateConfig :=
  let r := checkAndUpdateRateLimit maxRequests now ip c.table
  ⟨r.2, ⟨now, ip, r.1, r.2.windowOf ip⟩ :: c.log⟩

/-- The steps of a run: calls at times that do not decrease, with strings that
`inet_ntop` produces. -/
inductive RateStep (maxRequests : Int) : RateConfig → RateConfig → Prop
  | call (c : RateConfig) (now : Int) (ip : List UInt8) (htime : ∀ k ∈ c.log, k.time ≤ now)
      (hip : ip.length < inet6AddrStrLen) : RateStep maxRequests c (c.call maxRequests now ip)

/-- The count of the caller, if it has one, can be increased. -/
def RateLimits.Countable (t : RateLimits) (now : Int) (ip : List UInt8) : Prop :=
  ∀ e ∈ activeAt now t.entries, e.ip = ip → e.requestCount < 2 ^ 31 - 1

/-- The steps of a run in which no count overflows. -/
inductive CountedStep (maxRequests : Int) : RateConfig → RateConfig → Prop
  | call (c : RateConfig) (now : Int) (ip : List UInt8) (htime : ∀ k ∈ c.log, k.time ≤ now)
      (hip : ip.length < inet6AddrStrLen) (hcount : c.table.Countable now ip) :
      CountedStep maxRequests c (c.call maxRequests now ip)

/-! ## What the log says of an entry -/

/-- The calls of one caller. -/
def callsOf (ip : List UInt8) (log : List RateCall) : List RateCall := log.filter fun k => k.ip = ip

/-- Of the calls, newest first, exactly the first `maxRequests` were allowed. -/
def FirstAllowed (maxRequests : Int) : List RateCall → Prop
  | [] => True
  | k :: older =>
    (k.allowed = true ↔ (older.length : Int) < maxRequests) ∧ FirstAllowed maxRequests older

/-- The call that opens an entry. -/
def RateLimitEntry.opening (e : RateLimitEntry) : RateCall :=
  ⟨e.firstRequestTime, e.ip, true, some e.firstRequestTime⟩

/-- The log since the entry was opened: every call of its caller since then belongs
to it and none before, they are as many as it counts, and the first `maxRequests`
of them were allowed. -/
def Tracked (maxRequests : Int) (log : List RateCall) (e : RateLimitEntry) : Prop :=
  ∃ recent older, log = recent ++ e.opening :: older ∧
    (∀ k ∈ recent, k.ip = e.ip → k.window = some e.firstRequestTime) ∧
    (∀ k ∈ older, k.ip = e.ip → k.window ≠ some e.firstRequestTime) ∧
    e.requestCount = ((callsOf e.ip recent).length : Int) + 1 ∧
    FirstAllowed maxRequests (callsOf e.ip recent ++ [e.opening])

/-- The invariant of the runs: an address has one entry, which counts the calls of its
window; two windows of an address are apart, and in each at most `maxRequests` calls
are allowed. -/
structure RateInv (maxRequests : Int) (c : RateConfig) : Prop where
  distinct : (c.table.entries.map RateLimitEntry.ip).Nodup
  tracked : ∀ e ∈ c.table.entries, Tracked maxRequests c.log e
  inside : ∀ k ∈ c.log, ∀ w, k.window = some w → w ≤ k.time ∧ k.time ≤ w + rateLimitWindow
  opening : ∀ k ∈ c.log, ∀ w, k.window = some w → (⟨w, k.ip, true, some w⟩ : RateCall) ∈ c.log
  gone : ∀ k ∈ c.log, ∀ w, k.window = some w →
    (∃ e ∈ c.table.entries, e.ip = k.ip ∧ e.firstRequestTime = w) ∨
      ∃ k' ∈ c.log, w + rateLimitWindow < k'.time
  apart : ∀ k ∈ c.log, ∀ k' ∈ c.log, k.ip = k'.ip → ∀ w w', k.window = some w →
    k'.window = some w' → w ≠ w' → rateLimitWindow < w - w' ∨ rateLimitWindow < w' - w
  perWindow : ∀ ip w,
    c.log.countP (fun k => k.ip = ip ∧ k.window = some w ∧ k.allowed = true) ≤ maxRequests.toNat

section Step

variable {maxRequests now : Int} {ip : List UInt8} {c c' : RateConfig} {log : List RateCall}
  {e : RateLimitEntry} {k : RateCall}

theorem rateInv_start (slots : List RateLimitEntry) :
    RateInv maxRequests (RateConfig.start slots) := by
  have hentries : (RateConfig.start slots).table.entries = [] := rfl
  have hlog : (RateConfig.start slots).log = [] := rfl
  constructor <;> simp [hentries, hlog]

/-- The first entry of the caller is among those behind `a`. -/
theorem RateLimits.windowOf_eq {t : RateLimits} {a b : List RateLimitEntry}
    (hentries : t.entries = a ++ b) (ha : ∀ y ∈ a, y.ip ≠ ip) :
    t.windowOf ip = (b.find? fun e => e.ip = ip).map RateLimitEntry.firstRequestTime := by
  have hskip : (a.find? fun e => e.ip = ip) = none := by
    rw [List.find?_eq_none]
    simpa using ha
  rw [RateLimits.windowOf, hentries, List.find?_append, hskip, Option.none_or]

/-- **What a call does**: it is counted in the entry of the caller, or opens one, or
finds the table full. -/
theorem call_cases (maxRequests now : Int) (c : RateConfig) (hip : ip.length < inet6AddrStrLen) :
    (∃ a e b, activeAt now c.table.entries = a ++ e :: b ∧ e.ip = ip ∧
        (c.call maxRequests now ip).table.entries = a ++ e.counted :: b ∧
        (c.call maxRequests now ip).log =
          ⟨now, ip, decide (e.counted.requestCount ≤ maxRequests), some e.firstRequestTime⟩ ::
            c.log) ∨
      ((∀ e ∈ activeAt now c.table.entries, e.ip ≠ ip) ∧
        (c.call maxRequests now ip).table.entries =
          activeAt now c.table.entries ++ [⟨ip, now, 1⟩] ∧
        (c.call maxRequests now ip).log = ⟨now, ip, true, some now⟩ :: c.log) ∨
      (∀ e ∈ activeAt now c.table.entries, e.ip ≠ ip) ∧
        c.table.rateLimits.length ≤ (activeAt now c.table.entries).length ∧
        (c.call maxRequests now ip).table.entries = activeAt now c.table.entries ∧
        (c.call maxRequests now ip).log = ⟨now, ip, true, none⟩ :: c.log := by
  have hstored : ip.take (inet6AddrStrLen - 1) = ip := by
    apply List.take_of_length_le
    unfold inet6AddrStrLen at hip ⊢
    omega
  rcases check_cases maxRequests now ip c.table with
    ⟨a, e, b, hactive, ha, he, hentries, hallowed⟩ | ⟨hothers, hallowed, hentries⟩
  · refine Or.inl ⟨a, e, b, hactive, he, hentries, ?_⟩
    have hself : e.counted.ip = ip := he
    have hwindow := RateLimits.windowOf_eq hentries ha
    simp only [List.find?_cons, hself, decide_true] at hwindow
    simp only [RateConfig.call, hallowed, hwindow]
    rfl
  · by_cases hroom : (activeAt now c.table.entries).length < c.table.rateLimits.length
    · rw [if_pos hroom, hstored] at hentries
      refine Or.inr (Or.inl ⟨hothers, hentries, ?_⟩)
      have hwindow := RateLimits.windowOf_eq hentries hothers
      simp only [List.find?_cons, decide_true] at hwindow
      simp only [RateConfig.call, hallowed, hwindow]
      rfl
    · rw [if_neg hroom] at hentries
      have hwindow := RateLimits.windowOf_eq hentries hothers
      rw [List.append_nil] at hentries
      refine Or.inr (Or.inr ⟨hothers, Nat.not_lt.mp hroom, hentries, ?_⟩)
      simp only [RateConfig.call, hallowed, hwindow]
      rfl

/-- What an entry keeps as long as it is in the table. -/
def RateLimitEntry.key (e : RateLimitEntry) : List UInt8 × Int := (e.ip, e.firstRequestTime)

theorem mem_keys {l : List RateLimitEntry} :
    e.key ∈ l.map RateLimitEntry.key ↔
      ∃ y ∈ l, y.ip = e.ip ∧ y.firstRequestTime = e.firstRequestTime := by
  simp [RateLimitEntry.key]

theorem keys_counted (a b : List RateLimitEntry) (e : RateLimitEntry) :
    (a ++ e.counted :: b).map RateLimitEntry.key = (a ++ e :: b).map RateLimitEntry.key := by
  rw [List.map_append, List.map_append]
  rfl

theorem mem_activeAt {l : List RateLimitEntry} :
    e ∈ activeAt now l ↔ e ∈ l ∧ now - e.firstRequestTime ≤ rateLimitWindow := by
  simp [activeAt, RateLimitEntry.expired]

/-! ## Entries and calls -/

theorem Tracked.opening_mem (h : Tracked maxRequests log e) : e.opening ∈ log := by
  rcases h with ⟨recent, older, hlog, _⟩
  rw [hlog]
  simp

/-- A call of another caller. -/
theorem Tracked.other (h : Tracked maxRequests log e) (hk : k.ip ≠ e.ip) :
    Tracked maxRequests (k :: log) e := by
  rcases h with ⟨recent, older, hlog, hrecent, holder, hcount, hfirst⟩
  have hcalls : callsOf e.ip (k :: recent) = callsOf e.ip recent := by simp [callsOf, hk]
  refine ⟨k :: recent, older, by rw [hlog, List.cons_append], ?_, holder, ?_, ?_⟩
  · intro k' hk' hip
    rcases List.mem_cons.mp hk' with rfl | hk'
    · exact absurd hip hk
    · exact hrecent k' hk' hip
  · rw [hcalls, hcount]
  · rw [hcalls]
    exact hfirst

theorem RateLimitEntry.counted_requestCount (hcount : e.requestCount < 2 ^ 31 - 1) :
    e.counted.requestCount = e.requestCount + 1 := by
  show succInt e.requestCount = _
  rw [succInt, if_neg (by omega)]

/-- A call that the entry counts. -/
theorem Tracked.hit (h : Tracked maxRequests log e) (hcount : e.requestCount < 2 ^ 31 - 1)
    (now : Int) :
    Tracked maxRequests
      (⟨now, e.ip, decide (e.counted.requestCount ≤ maxRequests), some e.firstRequestTime⟩ :: log)
      e.counted := by
  rcases h with ⟨recent, older, hlog, hrecent, holder, hcalls, hfirst⟩
  have hsucc := RateLimitEntry.counted_requestCount hcount
  generalize hk : (⟨now, e.ip, decide (e.counted.requestCount ≤ maxRequests),
    some e.firstRequestTime⟩ : RateCall) = k
  have hkip : k.ip = e.ip := by rw [← hk]
  have hkwindow : k.window = some e.firstRequestTime := by rw [← hk]
  have hkallowed : k.allowed = decide (e.counted.requestCount ≤ maxRequests) := by rw [← hk]
  have hcons : callsOf e.ip (k :: recent) = k :: callsOf e.ip recent := by simp [callsOf, hkip]
  refine ⟨k :: recent, older, by rw [hlog]; rfl, ?_, holder, ?_, ?_⟩
  · intro k' hk' hip
    rcases List.mem_cons.mp hk' with rfl | hk'
    · exact hkwindow
    · exact hrecent k' hk' hip
  · show e.counted.requestCount = ((callsOf e.ip (k :: recent)).length : Int) + 1
    rw [hcons, List.length_cons, hsucc, hcalls]
    omega
  · show FirstAllowed maxRequests (callsOf e.ip (k :: recent) ++ [e.opening])
    rw [hcons, List.cons_append]
    refine ⟨?_, hfirst⟩
    rw [hkallowed, decide_eq_true_eq, hsucc, hcalls, List.length_append, List.length_singleton]
    omega

/-- A call that opens an entry. -/
theorem Tracked.opened (hmax : 1 ≤ maxRequests)
    (hold : ∀ k ∈ log, k.ip = ip → k.window ≠ some now) :
    Tracked maxRequests (⟨now, ip, true, some now⟩ :: log) ⟨ip, now, 1⟩ := by
  refine ⟨[], log, rfl, by simp, hold, rfl, ?_, trivial⟩
  exact iff_of_true rfl (by simp; omega)

/-- The calls that an entry counts are those of its window. -/
theorem Tracked.countP_le (h : Tracked maxRequests log e) :
    ((log.countP fun k => k.ip = e.ip ∧ k.window = some e.firstRequestTime ∧ k.allowed = true :
      Nat) : Int) ≤ e.requestCount := by
  rcases h with ⟨recent, older, hlog, _, holder, hcount, _⟩
  have hbefore : (older.countP fun k => k.ip = e.ip ∧ k.window = some e.firstRequestTime ∧
      k.allowed = true) = 0 := by
    rw [List.countP_eq_zero]
    intro k hk hyes
    rw [decide_eq_true_eq] at hyes
    exact holder k hk hyes.1 hyes.2.1
  have hsince : (recent.countP fun k => k.ip = e.ip ∧ k.window = some e.firstRequestTime ∧
      k.allowed = true) ≤ (callsOf e.ip recent).length := by
    rw [callsOf, ← List.countP_eq_length_filter]
    apply List.countP_mono_left
    intro k _ hyes
    rw [decide_eq_true_eq] at hyes ⊢
    exact hyes.1
  rw [hlog, List.countP_append, List.countP_cons, hbefore, hcount]
  split <;> omega

/-! ## The invariant -/

/-- A call with a window: the caller has an entry that was opened then. -/
structure Logged (maxRequests : Int) (c c' : RateConfig) (k : RateCall) (w : Int) : Prop where
  inside : w ≤ k.time ∧ k.time ≤ w + rateLimitWindow
  opening : (⟨w, k.ip, true, some w⟩ : RateCall) ∈ k :: c.log
  entry : ∃ e ∈ c'.table.entries, e.ip = k.ip ∧ e.firstRequestTime = w
  apart : ∀ k' ∈ c.log, k'.ip = k.ip → ∀ w', k'.window = some w' → w ≠ w' →
    rateLimitWindow < w - w' ∨ rateLimitWindow < w' - w
  limit : k.allowed = true →
    c.log.countP (fun k' => k'.ip = k.ip ∧ k'.window = some w ∧ k'.allowed = true) <
      maxRequests.toNat

section

variable (h : RateInv maxRequests c)

include h

/-- A call keeps the invariant if its entry does. -/
theorem RateInv.next (hlog : c'.log = k :: c.log)
    (hdistinct : (c'.table.entries.map RateLimitEntry.ip).Nodup)
    (htracked : ∀ e ∈ c'.table.entries, Tracked maxRequests c'.log e)
    (hstay : (activeAt k.time c.table.entries).map RateLimitEntry.key ⊆
      c'.table.entries.map RateLimitEntry.key)
    (hwindow : ∀ w, k.window = some w → Logged maxRequests c c' k w) : RateInv maxRequests c' := by
  refine ⟨hdistinct, htracked, ?_, ?_, ?_, ?_, ?_⟩
  · rw [hlog, List.forall_mem_cons]
    exact ⟨fun w hw => (hwindow w hw).inside, h.inside⟩
  · rw [hlog, List.forall_mem_cons]
    refine ⟨fun w hw => (hwindow w hw).opening, ?_⟩
    intro k' hk' w hw
    exact List.mem_cons_of_mem k (h.opening k' hk' w hw)
  · rw [hlog, List.forall_mem_cons]
    refine ⟨fun w hw => Or.inl (hwindow w hw).entry, ?_⟩
    intro k' hk' w hw
    rcases h.gone k' hk' w hw with ⟨e, he, hip, hfirst⟩ | ⟨k'', hk'', hlate⟩
    · by_cases hactive : k.time - e.firstRequestTime ≤ rateLimitWindow
      · have hkey := hstay (List.mem_map_of_mem (mem_activeAt.mpr ⟨he, hactive⟩))
        rcases mem_keys.mp hkey with ⟨e', he', hip', hfirst'⟩
        exact Or.inl ⟨e', he', hip'.trans hip, hfirst'.trans hfirst⟩
      · exact Or.inr ⟨k, List.mem_cons_self, by omega⟩
    · exact Or.inr ⟨k'', List.mem_cons_of_mem k hk'', hlate⟩
  · rw [hlog, List.forall_mem_cons]
    constructor
    · rw [List.forall_mem_cons]
      constructor
      · intro _ w w' hw hw' hne
        rw [hw] at hw'
        exact absurd (Option.some.inj hw') hne
      · intro k' hk' hip w w' hw hw' hne
        exact (hwindow w hw).apart k' hk' hip.symm w' hw' hne
    · intro k' hk'
      rw [List.forall_mem_cons]
      refine ⟨?_, h.apart k' hk'⟩
      intro hip w w' hw hw' hne
      exact ((hwindow w' hw').apart k' hk' hip w hw hne.symm).symm
  · intro ip w
    rw [hlog, List.countP_cons]
    split
    · rename_i hyes
      rw [decide_eq_true_eq] at hyes
      have hlimit := (hwindow w hyes.2.1).limit hyes.2.2
      rw [hyes.1] at hlimit
      exact hlimit
    · exact h.perWindow ip w

/-- The windows of a caller without an active entry are over. -/
theorem RateInv.stale (htime : ∀ k ∈ c.log, k.time ≤ now)
    (hothers : ∀ e ∈ activeAt now c.table.entries, e.ip ≠ ip) (hk : k ∈ c.log) (hip : k.ip = ip)
    {w : Int} (hw : k.window = some w) : w + rateLimitWindow < now := by
  rcases h.gone k hk w hw with ⟨e, he, heip, hfirst⟩ | ⟨k', hk', hlate⟩
  · by_contra hnot
    have hactive : e ∈ activeAt now c.table.entries := mem_activeAt.mpr ⟨he, by omega⟩
    exact hothers e hactive (heip.trans hip)
  · have hle := htime k' hk'
    omega

theorem activeAt_distinct (now : Int) :
    ((activeAt now c.table.entries).map RateLimitEntry.ip).Nodup :=
  h.distinct.sublist (List.filter_sublist.map _)

theorem RateInv.tracked_other (hlog : c'.log = k :: c.log) (he : e ∈ activeAt now c.table.entries)
    (hk : k.ip ≠ e.ip) : Tracked maxRequests c'.log e := by
  rw [hlog]
  exact (h.tracked e (mem_activeAt.mp he).1).other hk

/-- The call is counted in `e`. -/
theorem RateInv.hit (htime : ∀ k ∈ c.log, k.time ≤ now) {a b : List RateLimitEntry}
    (hactive : activeAt now c.table.entries = a ++ e :: b) (hcount : e.requestCount < 2 ^ 31 - 1)
    (hentries : c'.table.entries = a ++ e.counted :: b)
    (hlog : c'.log = ⟨now, e.ip, decide (e.counted.requestCount ≤ maxRequests),
      some e.firstRequestTime⟩ :: c.log) : RateInv maxRequests c' := by
  have hmem : e ∈ activeAt now c.table.entries := by simp [hactive]
  have htracked := h.tracked e (mem_activeAt.mp hmem).1
  have hcounted : e.counted ∈ c'.table.entries := by simp [hentries]
  have hdistinct := activeAt_distinct h now
  rw [hactive, List.map_append, List.map_cons] at hdistinct
  -- no other active entry has the caller's address
  have hother : ∀ y ∈ a ++ b, Tracked maxRequests c'.log y := by
    intro y hy
    have hyactive : y ∈ activeAt now c.table.entries := by
      rw [hactive]
      rcases List.mem_append.mp hy with hy | hy
      · exact List.mem_append_left _ hy
      · exact List.mem_append_right a (List.mem_cons_of_mem e hy)
    apply h.tracked_other hlog hyactive
    intro hsame
    rw [List.nodup_middle, List.nodup_cons, ← List.map_append] at hdistinct
    exact hdistinct.1 (List.mem_map.mpr ⟨y, hy, hsame.symm⟩)
  apply h.next hlog
  · rw [hentries, List.map_append, List.map_cons]
    exact hdistinct
  · intro y hy
    rw [hentries, List.mem_append, List.mem_cons] at hy
    rcases hy with hy | rfl | hy
    · exact hother y (List.mem_append_left b hy)
    · rw [hlog]
      exact htracked.hit hcount now
    · exact hother y (List.mem_append_right a hy)
  · rw [hentries, keys_counted, ← hactive]
    exact List.Subset.refl _
  · intro w hw
    cases hw
    have hopen := htime _ htracked.opening_mem
    have hlast := (mem_activeAt.mp hmem).2
    refine ⟨⟨hopen, by dsimp only; omega⟩, List.mem_cons_of_mem _ htracked.opening_mem,
      ⟨e.counted, hcounted, rfl, rfl⟩, ?_, ?_⟩
    · intro k' hk' hsame w' hw' hne
      exact h.apart _ htracked.opening_mem k' hk' hsame.symm _ w' rfl hw' hne
    · intro hallowed
      have hle := htracked.countP_le
      have hbelow : e.counted.requestCount ≤ maxRequests := of_decide_eq_true hallowed
      rw [RateLimitEntry.counted_requestCount hcount] at hbelow
      dsimp only
      omega

/-- The call opens an entry. -/
theorem RateInv.opened (hmax : 1 ≤ maxRequests) (htime : ∀ k ∈ c.log, k.time ≤ now)
    (hothers : ∀ e ∈ activeAt now c.table.entries, e.ip ≠ ip)
    (hentries : c'.table.entries = activeAt now c.table.entries ++ [⟨ip, now, 1⟩])
    (hlog : c'.log = ⟨now, ip, true, some now⟩ :: c.log) : RateInv maxRequests c' := by
  have hstale : ∀ k ∈ c.log, k.ip = ip → ∀ w, k.window = some w → w + 60 < now :=
    fun k hk hkip w hw => h.stale htime hothers hk hkip hw
  apply h.next hlog
  · rw [hentries, List.map_append, List.nodup_append]
    refine ⟨activeAt_distinct h now, List.nodup_singleton _, ?_⟩
    intro x hx y hy hxy
    rcases List.mem_map.mp hx with ⟨e, he, rfl⟩
    rw [List.map_singleton, List.mem_singleton] at hy
    exact hothers e he (hxy.trans hy)
  · intro y hy
    rw [hentries, List.mem_append, List.mem_singleton] at hy
    rcases hy with hy | rfl
    · exact h.tracked_other hlog hy (Ne.symm (hothers y hy))
    · rw [hlog]
      apply Tracked.opened hmax
      intro k hk hkip hw
      have hover := hstale k hk hkip now hw
      omega
  · rw [hentries, List.map_append]
    exact List.subset_append_left _ _
  · intro w hw
    cases hw
    have hentry : (⟨ip, now, 1⟩ : RateLimitEntry) ∈ c'.table.entries := by simp [hentries]
    refine ⟨⟨Int.le_refl _, by unfold rateLimitWindow; dsimp only; omega⟩, List.mem_cons_self,
      ⟨⟨ip, now, 1⟩, hentry, rfl, rfl⟩, ?_, ?_⟩
    · intro k' hk' hsame w' hw' _
      have hover := hstale k' hk' hsame w' hw'
      unfold rateLimitWindow
      left
      omega
    · intro _
      have hnone : (c.log.countP fun k' => k'.ip = ip ∧ k'.window = some now ∧
          k'.allowed = true) = 0 := by
        rw [List.countP_eq_zero]
        intro k' hk' hyes
        rw [decide_eq_true_eq] at hyes
        have hover := hstale k' hk' hyes.1 now hyes.2.1
        omega
      dsimp only
      rw [hnone]
      omega

/-- The call finds the table full. -/
theorem RateInv.full (hothers : ∀ e ∈ activeAt now c.table.entries, e.ip ≠ ip)
    (hentries : c'.table.entries = activeAt now c.table.entries)
    (hlog : c'.log = ⟨now, ip, true, none⟩ :: c.log) : RateInv maxRequests c' := by
  apply h.next hlog
  · rw [hentries]
    exact activeAt_distinct h now
  · intro y hy
    rw [hentries] at hy
    exact h.tracked_other hlog hy (Ne.symm (hothers y hy))
  · rw [hentries]
    exact List.Subset.refl _
  · intro w hw
    cases hw

/-- **Every call keeps the invariant.** -/
theorem RateInv.step (hmax : 1 ≤ maxRequests) (hstep : CountedStep maxRequests c c') :
    RateInv maxRequests c' := by
  cases hstep with
  | call now ip htime hip hcount =>
    rcases call_cases maxRequests now c hip with
      ⟨a, e, b, hactive, rfl, hentries, hlog⟩ | ⟨hothers, hentries, hlog⟩ |
        ⟨hothers, _, hentries, hlog⟩
    · exact h.hit htime hactive (hcount e (by simp [hactive]) rfl) hentries hlog
    · exact h.opened hmax htime hothers hentries hlog
    · exact h.full hothers hentries hlog

end

theorem rateInv_run {slots : List RateLimitEntry} (hmax : 1 ≤ maxRequests)
    (hrun : ReflTransGen (CountedStep maxRequests) (RateConfig.start slots) c) :
    RateInv maxRequests c :=
  run_invariant _ (fun _ _ h hstep => h.step hmax hstep) hrun (rateInv_start slots)

/-- The array keeps its length. -/
theorem capacity_run {slots : List RateLimitEntry}
    (hrun : ReflTransGen (CountedStep maxRequests) (RateConfig.start slots) c) :
    c.table.rateLimits.length = slots.length := by
  refine run_invariant (fun c => c.table.rateLimits.length = slots.length) ?_ hrun rfl
  intro c c' h hstep
  cases hstep with
  | call now ip => exact (check_capacity maxRequests now ip c.table).trans h

/-! ## The table across a call -/

/-- The entries of other callers, without the expired ones, are as they were. -/
theorem call_others (maxRequests now : Int) (c : RateConfig) (hip : ip.length < inet6AddrStrLen) :
    ((c.call maxRequests now ip).table.entries.filter fun e => e.ip ≠ ip) =
      c.table.entries.filter fun e =>
        e.ip ≠ ip ∧ now - e.firstRequestTime ≤ rateLimitWindow := by
  have hactive : ((activeAt now c.table.entries).filter fun e => e.ip ≠ ip) =
      c.table.entries.filter fun e =>
        e.ip ≠ ip ∧ now - e.firstRequestTime ≤ rateLimitWindow := by
    rw [activeAt, List.filter_filter]
    apply List.filter_congr
    intro e _
    rw [Bool.eq_iff_iff]
    simp [RateLimitEntry.expired]
  rw [← hactive]
  rcases call_cases maxRequests now c hip with
    ⟨a, e, b, hsplit, he, hentries, _⟩ | ⟨_, hentries, _⟩ | ⟨_, _, hentries, _⟩
  · have hcounted : e.counted.ip = ip := he
    simp [hentries, hsplit, he, hcounted]
  · simp [hentries]
  · rw [hentries]

/-- The entries after a call are the active ones, with one that was just opened if
the caller had none. -/
theorem keys_call (maxRequests now : Int) (c : RateConfig) (hip : ip.length < inet6AddrStrLen) :
    ∃ opened, (c.call maxRequests now ip).table.entries.map RateLimitEntry.key =
        (activeAt now c.table.entries).map RateLimitEntry.key ++ opened ∧
      ∀ key ∈ opened, key = (ip, now) := by
  rcases call_cases maxRequests now c hip with
    ⟨a, x, b, hactive, _, hentries, _⟩ | ⟨_, hentries, _⟩ | ⟨_, _, hentries, _⟩
  · exact ⟨[], by rw [hentries, keys_counted, ← hactive, List.append_nil], by simp⟩
  · exact ⟨[(ip, now)], by rw [hentries, List.map_append]; rfl, by simp⟩
  · exact ⟨[], by rw [hentries, List.append_nil], by simp⟩

/-- **An entry is dropped exactly when its window is over.** -/
theorem stays_iff (hip : ip.length < inet6AddrStrLen) (he : e ∈ c.table.entries) :
    (∃ y ∈ (c.call maxRequests now ip).table.entries,
        y.ip = e.ip ∧ y.firstRequestTime = e.firstRequestTime) ↔
      now - e.firstRequestTime ≤ rateLimitWindow := by
  rcases keys_call maxRequests now c hip with ⟨opened, hkeys, hopened⟩
  rw [← mem_keys, hkeys, List.mem_append]
  constructor
  · rintro (hold | hnew)
    · rcases mem_keys.mp hold with ⟨x, hx, _, hfirst⟩
      rw [← hfirst]
      exact (mem_activeAt.mp hx).2
    · have hnow : e.firstRequestTime = now := congrArg Prod.snd (hopened _ hnew)
      unfold rateLimitWindow
      omega
  · intro hactive
    exact Or.inl (List.mem_map_of_mem (mem_activeAt.mpr ⟨he, hactive⟩))

end Step

/-! ## The results -/

/-- **The rate limit table is exact** as long as no count overflows.  It holds at
most as many entries as the array has slots and at most one for each address; each
entry counts the calls of its address since it was opened, of which exactly the
first `maxRequests` were allowed; and a call drops exactly the entries whose window
is over and changes no entry of another address. -/
theorem rate_limit_table_exact (slots : List RateLimitEntry) (maxRequests : Int)
    (hmax : 1 ≤ maxRequests) (c : RateConfig)
    (hrun : ReflTransGen (CountedStep maxRequests) (RateConfig.start slots) c) :
    c.table.entries.length ≤ slots.length ∧
      (c.table.entries.map RateLimitEntry.ip).Nodup ∧
      (∀ e ∈ c.table.entries, Tracked maxRequests c.log e) ∧
      ∀ now ip, ip.length < inet6AddrStrLen →
        ((c.call maxRequests now ip).table.entries.filter fun e => e.ip ≠ ip) =
            (c.table.entries.filter fun e =>
              e.ip ≠ ip ∧ now - e.firstRequestTime ≤ rateLimitWindow) ∧
          ∀ e ∈ c.table.entries,
            (∃ y ∈ (c.call maxRequests now ip).table.entries,
                y.ip = e.ip ∧ y.firstRequestTime = e.firstRequestTime) ↔
              now - e.firstRequestTime ≤ rateLimitWindow := by
  have hinv := rateInv_run hmax hrun
  have hsize : c.table.entries.length ≤ slots.length := by
    rw [← capacity_run hrun]
    exact List.length_take_le' _ _
  refine ⟨hsize, hinv.distinct, hinv.tracked, ?_⟩
  intro now ip hip
  exact ⟨call_others maxRequests now c hip, fun e he => stays_iff hip he⟩

/-- One address that calls at the times 0 and 60, with room for one entry. -/
def twoCalls : RateConfig :=
  ((RateConfig.start [⟨[], 0, 0⟩]).call 2 0 [49]).call 2 60 [49]

theorem twoCalls_run :
    ReflTransGen (CountedStep 2) (RateConfig.start [⟨[], 0, 0⟩]) twoCalls := by
  refine .tail (.single (.call _ 0 [49] (by decide) (by decide) ?_))
    (.call _ 60 [49] (by decide) (by decide) ?_) <;> unfold RateLimits.Countable <;> decide

/-- The entry counts both calls, outlasts a call at 60 and is dropped at 61. -/
theorem rate_limit_table_exact_two :
    twoCalls.table.entries = [⟨[49], 0, 2⟩] ∧ Tracked 2 twoCalls.log ⟨[49], 0, 2⟩ ∧
      (∃ y ∈ (twoCalls.call 2 60 [50]).table.entries, y.ip = [49] ∧ y.firstRequestTime = 0) ∧
      ¬∃ y ∈ (twoCalls.call 2 61 [50]).table.entries, y.ip = [49] ∧ y.firstRequestTime = 0 := by
  have hexact := rate_limit_table_exact _ 2 (by decide) twoCalls twoCalls_run
  have hentries : twoCalls.table.entries = [⟨[49], 0, 2⟩] := by decide
  have hmem : (⟨[49], 0, 2⟩ : RateLimitEntry) ∈ twoCalls.table.entries := by simp [hentries]
  refine ⟨hentries, hexact.2.2.1 _ hmem, ?_, ?_⟩
  · exact ((hexact.2.2.2 60 [50] (by decide)).2 _ hmem).mpr (by decide)
  · intro hstays
    exact absurd (((hexact.2.2.2 61 [50] (by decide)).2 _ hmem).mp hstays) (by decide)

/-- A call of the only caller in the table. -/
theorem call_single (maxRequests : Int) {now : Int} {c : RateConfig} {e : RateLimitEntry}
    (hip : e.ip.length < inet6AddrStrLen) (hactive : activeAt now c.table.entries = [e]) :
    (c.call maxRequests now e.ip).table.entries = [e.counted] ∧
      (c.call maxRequests now e.ip).log =
        ⟨now, e.ip, decide (e.counted.requestCount ≤ maxRequests), some e.firstRequestTime⟩ ::
          c.log := by
  have hnot : ¬∀ y ∈ activeAt now c.table.entries, y.ip ≠ e.ip := by
    intro hothers
    exact hothers e (by simp [hactive]) rfl
  rcases call_cases maxRequests now c hip with
    ⟨a, x, b, hsplit, _, hentries, hlog⟩ | ⟨hothers, _⟩ | ⟨hothers, _⟩
  · rw [hactive] at hsplit
    cases a with
    | nil =>
      cases hsplit
      exact ⟨hentries, hlog⟩
    | cons y a =>
      have hlength := congrArg List.length hsplit
      simp at hlength
  · exact absurd hothers hnot
  · exact absurd hothers hnot

/-- Calls of one address at one time, one after the other. -/
theorem flood_run (n : Nat) (hn : n < 2 ^ 31 - 1) :
    ∃ c, ReflTransGen (RateStep 1) (RateConfig.start [⟨[], 0, 0⟩]) c ∧
      c.table.entries = [⟨[49], 0, (n : Int) + 1⟩] ∧ c.log.length = n + 1 ∧
      ∀ k ∈ c.log, k.time = 0 ∧ k.ip = [49] := by
  induction n with
  | zero =>
    refine ⟨(RateConfig.start [⟨[], 0, 0⟩]).call 1 0 [49], .single ?_, by decide,
      by decide, by decide⟩
    exact RateStep.call _ 0 [49] (by decide) (by decide)
  | succ n ih =>
    rcases ih (by omega) with ⟨c, hrun, hentries, hlength, hlog⟩
    have htime : ∀ k ∈ c.log, k.time ≤ 0 := fun k hk => Int.le_of_eq (hlog k hk).1
    have hactive : activeAt 0 c.table.entries = [⟨[49], 0, (n : Int) + 1⟩] := by
      rw [hentries]
      rfl
    have hip : ([49] : List UInt8).length < inet6AddrStrLen := by decide
    have hnext := (call_single 1 hip hactive).1
    refine ⟨c.call 1 0 [49], hrun.tail (RateStep.call c 0 [49] htime (by decide)), ?_, ?_, ?_⟩
    · refine hnext.trans ?_
      rw [RateLimitEntry.counted, succInt, if_neg (by dsimp only; omega)]
      rw [Nat.cast_succ]
    · show c.log.length + 1 = _
      omega
    · show ∀ k ∈ _ :: c.log, _
      rw [List.forall_mem_cons]
      exact ⟨⟨rfl, rfl⟩, hlog⟩

/-- After `2 ^ 31 - 1` calls at one time the next one is allowed and the count is
negative, although the limit is 1. -/
theorem rate_limit_count_wraps :
    ∃ c, ReflTransGen (RateStep 1) (RateConfig.start [⟨[], 0, 0⟩]) c ∧ c.log.length = 2 ^ 31 - 1 ∧
      (∀ k ∈ c.log, k.time = 0 ∧ k.ip = [49]) ∧
      (c.call 1 0 [49]).table.entries = [⟨[49], 0, -2 ^ 31⟩] ∧
      (c.call 1 0 [49]).log = ⟨0, [49], true, some 0⟩ :: c.log := by
  rcases flood_run (2 ^ 31 - 2) (by decide) with ⟨c, hrun, hentries, hlength, hlog⟩
  have hactive : activeAt 0 c.table.entries = [⟨[49], 0, 2 ^ 31 - 1⟩] := by
    rw [hentries]
    rfl
  have hip : ([49] : List UInt8).length < inet6AddrStrLen := by decide
  have hnext := call_single 1 hip hactive
  exact ⟨c, hrun, hlength, hlog, hnext.1, hnext.2⟩

section Interval

variable {maxRequests : Int} {c : RateConfig} {l : List RateCall} {ip : List UInt8}

theorem RateCall.window_eq {k : RateCall} (h : k.window.isSome = true) :
    k.window = some (k.window.getD 0) := by
  rcases Option.isSome_iff_exists.mp h with ⟨w, hw⟩
  rw [hw]
  rfl

/-- The calls that one address made with an entry lie in windows. -/
theorem RateInv.inWindows (h : RateInv maxRequests c) (hsub : l.Sublist c.log)
    (hl : ∀ k ∈ l, k.ip = ip ∧ k.window.isSome = true) :
    InWindows RateCall.time (fun k => k.window.getD 0) rateLimitWindow l := by
  have hget : ∀ k ∈ l, k.window = some (k.window.getD 0) :=
    fun k hk => RateCall.window_eq (hl k hk).2
  constructor
  · intro k hk
    exact h.inside k (hsub.subset hk) _ (hget k hk)
  · intro k hk k' hk' hne
    have hsame : k.ip = k'.ip := (hl k hk).1.trans (hl k' hk').1.symm
    exact h.apart k (hsub.subset hk) k' (hsub.subset hk') hsame _ _ (hget k hk) (hget k' hk') hne

/-- The allowed calls of a window that opened before the interval: the call that
opened it is not in the interval. -/
theorem RateInv.countP_before (h : RateInv maxRequests c) {t w : Int} (hw : w < t) :
    (c.log.filter fun k => t ≤ k.time).countP
        (fun k => k.ip = ip ∧ k.window = some w ∧ k.allowed = true) ≤ maxRequests.toNat - 1 := by
  have hlimit := h.perWindow ip w
  rw [List.countP_eq_countP_filter_add _ _ fun k => decide (t ≤ k.time)] at hlimit
  by_cases hsome : ∃ k ∈ c.log, k.ip = ip ∧ k.window = some w
  · rcases hsome with ⟨k, hk, rfl, hkw⟩
    have hopening := h.opening k hk w hkw
    have hpos : 0 < (c.log.filter fun k => !decide (t ≤ k.time)).countP
        (fun k' => k'.ip = k.ip ∧ k'.window = some w ∧ k'.allowed = true) := by
      rw [List.countP_pos_iff]
      refine ⟨_, List.mem_filter.mpr ⟨hopening, ?_⟩, ?_⟩
      · simpa using hw
      · simp
    omega
  · have hnone : (c.log.filter fun k => t ≤ k.time).countP
        (fun k => k.ip = ip ∧ k.window = some w ∧ k.allowed = true) = 0 := by
      rw [List.countP_eq_zero]
      intro k hk hyes
      rw [decide_eq_true_eq] at hyes
      exact hsome ⟨k, (List.mem_filter.mp hk).1, hyes.1, hyes.2.1⟩
    omega

/-- The limits of two windows hold for the calls with an entry. -/
theorem RateInv.length_le (h : RateInv maxRequests c) {t : Int}
    (hsub : l.Sublist (c.log.filter fun k => t ≤ k.time))
    (hl : ∀ k ∈ l, (k.ip = ip ∧ k.window.isSome = true) ∧ k.allowed = true)
    (ht : ∀ k ∈ l, t ≤ k.time ∧ k.time < t + rateLimitWindow) :
    l.length ≤ (maxRequests.toNat - 1) + maxRequests.toNat := by
  have hwindows := h.inWindows (hsub.trans List.filter_sublist) fun k hk => (hl k hk).1
  have hwindow : ∀ w, l.countP (fun k => decide (k.window.getD 0 = w)) ≤
      (c.log.filter fun k => t ≤ k.time).countP
        fun k => k.ip = ip ∧ k.window = some w ∧ k.allowed = true := by
    intro w
    refine Nat.le_trans (List.countP_mono_left ?_) hsub.countP_le
    intro k hk hw
    rw [decide_eq_true_eq] at hw ⊢
    refine ⟨(hl k hk).1.1, ?_, (hl k hk).2⟩
    rw [← hw]
    exact RateCall.window_eq (hl k hk).1.2
  apply hwindows.length_le _ _ ht
  · intro w hw
    exact Nat.le_trans (hwindow w) (h.countP_before hw)
  · intro w _
    exact Nat.le_trans (hwindow w) (Nat.le_trans List.filter_sublist.countP_le (h.perWindow ip w))

/-- The allowed calls of an address in an interval: those of two windows, and those
without an entry. -/
theorem RateInv.interval_le (h : RateInv maxRequests c) (ip : List UInt8) (t : Int) :
    (c.log.countP fun k =>
        k.ip = ip ∧ (t ≤ k.time ∧ k.time < t + 60) ∧ k.allowed = true) ≤
      (2 * maxRequests.toNat - 1) +
        c.log.countP fun k => k.ip = ip ∧ (t ≤ k.time ∧ k.time < t + 60) ∧ k.window = none := by
  rw [List.countP_eq_length_filter]
  generalize hl : (c.log.filter fun k =>
    k.ip = ip ∧ (t ≤ k.time ∧ k.time < t + 60) ∧ k.allowed = true) = l
  have hmem : ∀ k ∈ l, k.ip = ip ∧ (t ≤ k.time ∧ k.time < t + 60) ∧ k.allowed = true := by
    intro k hk
    rw [← hl] at hk
    exact of_decide_eq_true (List.mem_filter.mp hk).2
  have hsub : l.Sublist (c.log.filter fun k => t ≤ k.time) := by
    rw [← hl]
    apply List.monotone_filter_right
    intro k hk
    rw [decide_eq_true_eq] at hk ⊢
    exact hk.2.1.1
  have hsplit : l.length ≤ l.countP (fun k => k.window.isSome) +
      l.countP fun k => decide (k.window = none) := by
    apply length_le_countP_add
    intro k _
    cases hw : k.window with
    | none => exact Or.inr rfl
    | some w => exact Or.inl rfl
  have htracked : l.countP (fun k => k.window.isSome) ≤
      (maxRequests.toNat - 1) + maxRequests.toNat := by
    rw [List.countP_eq_length_filter]
    apply h.length_le (List.filter_sublist.trans hsub)
    · intro k hk
      rw [List.mem_filter] at hk
      exact ⟨⟨(hmem k hk.1).1, hk.2⟩, (hmem k hk.1).2.2⟩
    · intro k hk
      exact (hmem k (List.mem_filter.mp hk).1).2.1
  have huntracked : l.countP (fun k => decide (k.window = none)) ≤
      c.log.countP fun k => k.ip = ip ∧ (t ≤ k.time ∧ k.time < t + 60) ∧ k.window = none := by
    refine Nat.le_trans (List.countP_mono_left ?_) (hsub.trans List.filter_sublist).countP_le
    intro k hk hw
    rw [decide_eq_true_eq] at hw ⊢
    exact ⟨(hmem k hk).1, (hmem k hk).2.1, hw⟩
  omega

/-- A call that leaves its address without an entry has found the table full. -/
theorem full_of_untracked {now : Int} (hip : ip.length < inet6AddrStrLen)
    (hnone : (c.call maxRequests now ip).table.windowOf ip = none) :
    c.table.rateLimits.length ≤ (activeAt now c.table.entries).length ∧
      ∀ e ∈ activeAt now c.table.entries, e.ip ≠ ip := by
  have hwindow : ∀ {k : RateCall}, (c.call maxRequests now ip).log = k :: c.log →
      k.window = none := by
    intro k hlog
    have hhead := congrArg RateCall.window (List.cons.inj hlog).1
    exact hhead.symm.trans hnone
  rcases call_cases maxRequests now c hip with
    ⟨a, e, b, _, _, _, hlog⟩ | ⟨_, _, hlog⟩ | ⟨hothers, hfull, _, _⟩
  · cases hwindow hlog
  · cases hwindow hlog
  · exact ⟨hfull, hothers⟩

end Interval

/-- **Any minute.**  As long as no count overflows, of the calls of an address in an
interval of 60 seconds at most `2 * maxRequests - 1` are allowed besides those that leave
it without an entry, and at most `maxRequests` of those that one entry counts; a call
leaves its address without an entry only if the table is full of active entries of
others. -/
theorem rate_limit_interval (slots : List RateLimitEntry) (maxRequests : Int)
    (hmax : 1 ≤ maxRequests) (c : RateConfig)
    (hrun : ReflTransGen (CountedStep maxRequests) (RateConfig.start slots) c) (ip : List UInt8) :
    (∀ t, (c.log.countP fun k =>
          k.ip = ip ∧ (t ≤ k.time ∧ k.time < t + 60) ∧ k.allowed = true) ≤
        (2 * maxRequests.toNat - 1) +
          c.log.countP fun k => k.ip = ip ∧ (t ≤ k.time ∧ k.time < t + 60) ∧ k.window = none) ∧
      (∀ w, (c.log.countP fun k => k.ip = ip ∧ k.window = some w ∧ k.allowed = true) ≤
        maxRequests.toNat) ∧
      ∀ now, ip.length < inet6AddrStrLen →
        (c.call maxRequests now ip).table.windowOf ip = none →
          slots.length ≤ (activeAt now c.table.entries).length ∧
            ∀ e ∈ activeAt now c.table.entries, e.ip ≠ ip := by
  have hinv := rateInv_run hmax hrun
  refine ⟨hinv.interval_le ip, hinv.perWindow ip, ?_⟩
  intro now hip hnone
  rw [← capacity_run hrun]
  exact full_of_untracked hip hnone

/-- At most three calls of the two are allowed. -/
theorem rate_limit_interval_two :
    (twoCalls.log.countP fun k =>
        k.ip = [49] ∧ ((1 : Int) ≤ k.time ∧ k.time < 1 + 60) ∧ k.allowed = true) ≤ 3 := by
  have hinterval := (rate_limit_interval _ 2 (by decide) twoCalls twoCalls_run [49]).1 1
  have hnone : (twoCalls.log.countP fun k =>
      k.ip = [49] ∧ ((1 : Int) ≤ k.time ∧ k.time < 1 + 60) ∧ k.window = none) = 0 := by decide
  rw [hnone] at hinterval
  exact hinterval

/-- Two more calls at the time 61. -/
def fourCalls : RateConfig := (twoCalls.call 2 61 [49]).call 2 61 [49]

/-- Three calls of another address at the time 60. -/
def fullCalls : RateConfig := ((twoCalls.call 2 60 [50]).call 2 60 [50]).call 2 60 [50]

/-- With a limit of 2, three calls of one address are allowed at the times 60 and 61;
and an address that finds the table full is not limited at all. -/
theorem rate_limit_exceeded :
    (ReflTransGen (RateStep 2) (RateConfig.start [⟨[], 0, 0⟩]) fourCalls ∧
      (fourCalls.log.countP fun k =>
        k.ip = [49] ∧ ((60 : Int) ≤ k.time ∧ k.time < 60 + 60) ∧ k.allowed = true) = 3) ∧
    ReflTransGen (RateStep 2) (RateConfig.start [⟨[], 0, 0⟩]) fullCalls ∧
      (fullCalls.log.countP fun k =>
        k.ip = [50] ∧ ((60 : Int) ≤ k.time ∧ k.time < 60 + 60) ∧ k.allowed = true) = 3 := by
  have htwo : ReflTransGen (RateStep 2) (RateConfig.start [⟨[], 0, 0⟩]) twoCalls :=
    .tail (.single (.call _ 0 [49] (by decide) (by decide)))
      (.call _ 60 [49] (by decide) (by decide))
  have hthree := htwo.tail (RateStep.call twoCalls 61 [49] (by decide) (by decide))
  have hother := htwo.tail (RateStep.call twoCalls 60 [50] (by decide) (by decide))
  have hagain := hother.tail (RateStep.call _ 60 [50] (by decide) (by decide))
  refine ⟨⟨?_, by decide⟩, ?_, by decide⟩
  · exact hthree.tail (RateStep.call _ 61 [49] (by decide) (by decide))
  · exact hagain.tail (RateStep.call _ 60 [50] (by decide) (by decide))

end FarouKernel.Ports.Net
