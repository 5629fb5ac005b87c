import FarouKernel.Ports.RateLimitModel

/-!
# One call of the rate limiter

The loop of `check_and_update_rate_limit` reads and writes the same array.  It is
described by the list of the entries written so far (`SweepAt`): the slots behind
`read_idx` are as they were, and what lies between `write_idx` and `read_idx` is
never read again.  One induction over the entries gives what a call leaves behind
(`check_cases`).
-/

namespace FarouKernel.Ports.Net

/-! ## The loop -/

variable {rest : List RateLimitEntry}

section Sweep

variable (maxRequests now : Int) (ip : List UInt8) {l0 kept : List RateLimitEntry} {readIdx : Nat}
  {v : Sweep} {e : RateLimitEntry}

/-- The state of the loop before `readIdx` is read: the entries in `kept` were
written, and the slots from `readIdx` on are as they were. -/
structure SweepAt (l0 : List RateLimitEntry) (readIdx : Nat) (kept : List RateLimitEntry)
    (v : Sweep) : Prop where
  behind : v.writeIdx ≤ readIdx
  width : v.rateLimits.length = l0.length
  written : v.rateLimits.take v.writeIdx = kept
  unread : v.rateLimits.drop readIdx = l0.drop readIdx

section

variable (h : SweepAt l0 readIdx kept v)

include h

theorem SweepAt.read (hdrop : l0.drop readIdx = e :: rest) : v.rateLimits[readIdx]? = some e := by
  have hhead := congrArg List.head? (h.unread.trans hdrop)
  rwa [List.head?_drop, List.head?_cons] at hhead

/-- An expired entry is passed over. -/
theorem SweepAt.round_expired (hdrop : l0.drop readIdx = e :: rest)
    (hexpired : e.expired now = true) :
    v.round maxRequests now ip readIdx = v ∧ SweepAt l0 (readIdx + 1) kept v := by
  constructor
  · simp only [Sweep.round, h.read hdrop, hexpired, if_true]
  · refine ⟨Nat.le_succ_of_le h.behind, h.width, h.written, ?_⟩
    rw [← List.drop_drop, ← List.drop_drop, h.unread]

/-- Writing an entry behind the kept ones. -/
theorem SweepAt.write {slots : List RateLimitEntry} (hwidth : slots.length = l0.length)
    (hwritten : slots.take v.writeIdx = kept) (hat : slots[readIdx]? = some e)
    (hunread : slots.drop (readIdx + 1) = l0.drop (readIdx + 1)) (foundIdx : Option Nat)
    (allowed : Bool) :
    SweepAt l0 (readIdx + 1) (kept ++ [e])
      ⟨if readIdx ≠ v.writeIdx then slots.set v.writeIdx e else slots, v.writeIdx + 1, foundIdx,
        allowed⟩ := by
  have hbehind := h.behind
  by_cases hsame : readIdx = v.writeIdx
  · rw [if_neg (not_not.mpr hsame)]
    refine ⟨Nat.succ_le_succ hbehind, hwidth, ?_, hunread⟩
    rw [List.take_add_one, hwritten, ← hsame, hat]
    rfl
  · have hlt : v.writeIdx < slots.length := by
      have hread := (List.getElem?_eq_some_iff.mp hat).1
      omega
    rw [if_pos hsame]
    refine ⟨Nat.succ_le_succ hbehind, List.length_set.trans hwidth, ?_, ?_⟩
    · rw [List.take_add_one, List.take_set_of_le (Nat.le_refl _), hwritten,
        List.getElem?_set_self hlt]
      rfl
    · rw [List.drop_set_of_lt (by omega)]
      exact hunread

/-- An entry that is not counted is kept as it is. -/
theorem SweepAt.round_kept (hdrop : l0.drop readIdx = e :: rest) (hactive : e.expired now = false)
    (hother : ¬(v.foundIdx = none ∧ e.ip = ip)) :
    SweepAt l0 (readIdx + 1) (kept ++ [e]) (v.round maxRequests now ip readIdx) ∧
      (v.round maxRequests now ip readIdx).foundIdx = v.foundIdx ∧
      (v.round maxRequests now ip readIdx).allowed = v.allowed := by
  have hread := h.read hdrop
  have hunread : v.rateLimits.drop (readIdx + 1) = l0.drop (readIdx + 1) := by
    rw [← List.drop_drop, ← List.drop_drop, h.unread]
  simp only [Sweep.round, hread, hactive, hother, Bool.false_eq_true, if_false, false_and, and_true]
  exact h.write h.width h.written hread hunread _ _

/-- The entry of the caller is counted. -/
theorem SweepAt.round_counted (hdrop : l0.drop readIdx = e :: rest)
    (hactive : e.expired now = false) (hnone : v.foundIdx = none) (hip : e.ip = ip) :
    SweepAt l0 (readIdx + 1) (kept ++ [e.counted]) (v.round maxRequests now ip readIdx) ∧
      (v.round maxRequests now ip readIdx).foundIdx = some v.writeIdx ∧
      (v.round maxRequests now ip readIdx).allowed =
        (v.allowed && decide (e.counted.requestCount ≤ maxRequests)) := by
  have hread := h.read hdrop
  have hlt := (List.getElem?_eq_some_iff.mp hread).1
  have hunread : v.rateLimits.drop (readIdx + 1) = l0.drop (readIdx + 1) := by
    rw [← List.drop_drop, ← List.drop_drop, h.unread]
  simp only [Sweep.round, hread, hactive, hnone, hip, Bool.false_eq_true, if_false, true_and,
    if_true]
  refine ⟨?_, ?_⟩
  · apply h.write
    · rw [List.length_set, h.width]
    · rw [List.take_set_of_le h.behind, h.written]
    · exact List.getElem?_set_self hlt
    · rw [List.drop_set_of_lt (Nat.lt_succ_self _), hunread]
  · by_cases hover : e.counted.requestCount > maxRequests
    · rw [if_pos hover, decide_eq_false (Int.not_le.mpr hover), Bool.and_false]
    · rw [if_neg hover, decide_eq_true (Int.not_lt.mp hover), Bool.and_true]

/-- The entries that are not expired. -/
def activeAt (now : Int) (l : List RateLimitEntry) : List RateLimitEntry :=
  l.filter fun e => !e.expired now

/-- **The loop** finds no active entry of the caller, or counts the first one; once the
entry was found, it only compacts. -/
theorem SweepAt.loop {es : List RateLimitEntry} {w : Sweep} (hdrop : l0.drop readIdx = es ++ rest)
    (hw : sweepLoop maxRequests now ip es.length readIdx v = w) :
    (v.foundIdx ≠ none → SweepAt l0 (readIdx + es.length) (kept ++ activeAt now es) w ∧
        w.foundIdx ≠ none ∧ w.allowed = v.allowed) ∧
      (v.foundIdx = none →
        (∀ e ∈ activeAt now es, e.ip ≠ ip) ∧
            SweepAt l0 (readIdx + es.length) (kept ++ activeAt now es) w ∧
            w.foundIdx = none ∧ w.allowed = v.allowed ∨
          ∃ a e b, activeAt now es = a ++ e :: b ∧ (∀ y ∈ a, y.ip ≠ ip) ∧ e.ip = ip ∧
            SweepAt l0 (readIdx + es.length) (kept ++ (a ++ e.counted :: b)) w ∧
            w.foundIdx ≠ none ∧
            w.allowed = (v.allowed && decide (e.counted.requestCount ≤ maxRequests))) := by
  induction es generalizing readIdx kept v with
  | nil =>
    subst hw
    have hend : SweepAt l0 readIdx (kept ++ activeAt now []) v := by simpa [activeAt] using h
    exact ⟨fun hfound => ⟨hend, hfound, rfl⟩,
      fun hnone => Or.inl ⟨by simp [activeAt], hend, hnone, rfl⟩⟩
  | cons e es ih =>
    have hnext : l0.drop (readIdx + 1) = es ++ rest := by
      rw [← List.drop_drop, hdrop]
      rfl
    rw [List.length_cons, sweepLoop] at hw
    rw [List.length_cons, ← Nat.add_assoc, Nat.add_right_comm, activeAt, List.filter_cons]
    cases hexpired : e.expired now with
    | true =>
      rcases h.round_expired maxRequests now ip hdrop hexpired with ⟨hround, hat⟩
      rw [hround] at hw
      exact ih hat hnext hw
    | false =>
      by_cases hhit : v.foundIdx = none ∧ e.ip = ip
      · -- counted here, and the rest is only compacted
        rcases h.round_counted maxRequests now ip hdrop hexpired hhit.1 hhit.2 with
          ⟨hat, hidx, hallowed⟩
        rcases (ih hat hnext hw).1 (by simp [hidx]) with ⟨hend, hfound, hsame⟩
        rw [List.append_assoc] at hend
        exact ⟨fun hne => absurd hhit.1 hne, fun _ => Or.inr ⟨[], e, activeAt now es, rfl, by simp,
          hhit.2, hend, hfound, hsame.trans hallowed⟩⟩
      · rcases h.round_kept maxRequests now ip hdrop hexpired hhit with ⟨hat, hidx, hallowed⟩
        have hrest := ih hat hnext hw
        simp only [hidx, hallowed, List.append_assoc] at hrest
        refine ⟨hrest.1, fun hnone => ?_⟩
        have hip : e.ip ≠ ip := fun hip => hhit ⟨hnone, hip⟩
        rcases hrest.2 hnone with ⟨hothers, hend⟩ | ⟨a, x, b, hsplit, ha, hend⟩
        · exact Or.inl ⟨List.forall_mem_cons.mpr ⟨hip, hothers⟩, hend⟩
        · exact Or.inr ⟨e :: a, x, b, congrArg (e :: ·) hsplit,
            List.forall_mem_cons.mpr ⟨hip, ha⟩, hend⟩

end

end Sweep

/-! ## The call -/

section Call

variable (maxRequests now : Int) (ip : List UInt8) (t : RateLimits)

theorem check_capacity :
    (checkAndUpdateRateLimit maxRequests now ip t).2.rateLimits.length = t.rateLimits.length := by
  have hsweep := t.sweep_length maxRequests now ip
  unfold checkAndUpdateRateLimit
  dsimp only
  split
  · split
    · exact List.length_set.trans hsweep
    · exact hsweep
  · exact hsweep

theorem check_allowed :
    (checkAndUpdateRateLimit maxRequests now ip t).1 = (t.sweep maxRequests now ip).allowed := by
  unfold checkAndUpdateRateLimit
  dsimp only
  split
  · split <;> rfl
  · rfl

/-- The entries after a call in which the caller has no active entry. -/
theorem check_entries_none (hallowed : (t.sweep maxRequests now ip).allowed = true)
    (hnone : (t.sweep maxRequests now ip).foundIdx = none) :
    (checkAndUpdateRateLimit maxRequests now ip t).2.entries =
      (t.sweep maxRequests now ip).rateLimits.take (t.sweep maxRequests now ip).writeIdx ++
        if (t.sweep maxRequests now ip).writeIdx < t.rateLimits.length then
          [⟨ip.take (inet6AddrStrLen - 1), now, 1⟩]
        else [] := by
  have hlength := t.sweep_length maxRequests now ip
  unfold checkAndUpdateRateLimit RateLimits.entries
  dsimp only
  rw [if_pos ⟨hallowed, hnone⟩]
  by_cases hroom :
      (t.sweep maxRequests now ip).writeIdx < (t.sweep maxRequests now ip).rateLimits.length
  · rw [dif_pos hroom, if_pos (hlength ▸ hroom)]
    dsimp only
    rw [List.take_add_one, List.take_set_of_le (Nat.le_refl _), List.getElem?_set_self hroom]
    rfl
  · rw [dif_neg hroom, if_neg (hlength ▸ hroom), List.append_nil]

/-- The entries after a call that was counted. -/
theorem check_entries_found (hfound : (t.sweep maxRequests now ip).foundIdx ≠ none) :
    (checkAndUpdateRateLimit maxRequests now ip t).2.entries =
      (t.sweep maxRequests now ip).rateLimits.take (t.sweep maxRequests now ip).writeIdx := by
  unfold checkAndUpdateRateLimit RateLimits.entries
  dsimp only
  rw [if_neg fun h => hfound h.2]

/-- **A call** drops the expired entries, and counts in the first active entry of
the caller, or opens an entry at the end, or leaves the full table alone. -/
theorem check_cases :
    (∃ a e b, activeAt now t.entries = a ++ e :: b ∧ (∀ y ∈ a, y.ip ≠ ip) ∧ e.ip = ip ∧
        (checkAndUpdateRateLimit maxRequests now ip t).2.entries = a ++ e.counted :: b ∧
        (checkAndUpdateRateLimit maxRequests now ip t).1 =
          decide (e.counted.requestCount ≤ maxRequests)) ∨
      (∀ e ∈ activeAt now t.entries, e.ip ≠ ip) ∧
        (checkAndUpdateRateLimit maxRequests now ip t).1 = true ∧
        (checkAndUpdateRateLimit maxRequests now ip t).2.entries =
          activeAt now t.entries ++
            if (activeAt now t.entries).length < t.rateLimits.length then
              [⟨ip.take (inet6AddrStrLen - 1), now, 1⟩]
            else [] := by
  have hstart : SweepAt t.rateLimits 0 [] ⟨t.rateLimits, 0, none, true⟩ :=
    ⟨Nat.le_refl 0, rfl, rfl, rfl⟩
  have hsplit : t.rateLimits.drop 0 = t.entries ++ t.rateLimits.drop t.rateLimitSize :=
    (List.take_append_drop t.rateLimitSize t.rateLimits).symm
  have hsize : t.entries.length = t.rateLimitSize := List.length_take_of_le t.fits
  have hsweep : sweepLoop maxRequests now ip t.entries.length 0 ⟨t.rateLimits, 0, none, true⟩ =
      t.sweep maxRequests now ip := by rw [hsize]; rfl
  rcases (hstart.loop maxRequests now ip hsplit hsweep).2 rfl with
    ⟨hothers, hend, hnone, hallowed⟩ | ⟨a, e, b, hact, ha, he, hend, hfound, hallowed⟩
  · rw [List.nil_append] at hend
    have hwritten : (t.sweep maxRequests now ip).writeIdx = (activeAt now t.entries).length := by
      rw [← hend.written, List.length_take_of_le (t.sweep_fits maxRequests now ip)]
    refine Or.inr ⟨hothers, (check_allowed maxRequests now ip t).trans hallowed, ?_⟩
    rw [check_entries_none maxRequests now ip t hallowed hnone, hend.written, hwritten]
  · refine Or.inl ⟨a, e, b, hact, ha, he, ?_, ?_⟩
    · rw [check_entries_found maxRequests now ip t hfound, hend.written]
      rfl
    · rw [check_allowed, hallowed, Bool.true_and]

end Call

end FarouKernel.Ports.Net
