import FarouKernel.Ports.KtreeModel

/-!
# Which trees the manager hands out

A slot of the manager counts as free as long as its tree is empty, whether or not
`ktree_manager_create_tree` has returned it before; `tree_count` counts the calls
that succeeded.  So two callers can be given the same tree, and the manager can
run out of slots early, because `ktree_insert` accepts any slot.

A run is a list of calls; it goes on as long as every insertion is into an empty
tree.  `TreeConfig.Ready` says when the next creation is correct, and the ids are
exclusive in a run exactly if every creation of it was made in such a state.
-/

namespace FarouKernel.Ports.Ktree

/-- A call a client makes. -/
inductive TreeCall where
  | create (flags : Nat)
  | insert (treeId : Nat) (data : Int)

/-- The manager, the ids it returned, the latest first, and for every
`KTREE_ERR_FULL` the number of successful creations before it. -/
structure TreeConfig where
  mgr : KtreeManager
  ids : List Nat
  refused : List Nat

/-- After `ktree_manager_init`. -/
def TreeConfig.init (maxNodes maxTrees : Nat) (mgr : KtreeManager) : TreeConfig :=
  ⟨ktreeManagerInit maxNodes maxTrees mgr, [], []⟩

/-- One call. -/
def TreeConfig.call (maxTrees : Nat) (c : TreeConfig) : TreeCall → Option TreeConfig
  | .create flags =>
    match ktreeManagerCreateTree maxTrees c.mgr flags with
    | (.ok id, mgr) => some ⟨mgr, id :: c.ids, c.refused⟩
    | (.error _, mgr) => some ⟨mgr, c.ids, c.ids.length :: c.refused⟩
  | .insert treeId data =>
    (ktreeInsert maxTrees c.mgr treeId data).map fun r => { c with mgr := r.2 }

/-- A list of calls, none of which inserts into a tree that has a root. -/
def TreeConfig.calls (maxTrees : Nat) (c : TreeConfig) : List TreeCall → Option TreeConfig
  | [] => some c
  | call :: rest => (c.call maxTrees call).bind fun d => d.calls maxTrees rest

/-- The ids are pairwise distinct, and no creation was refused before the manager
had returned `KTREE_MAX_TREES` of them. -/
def TreeConfig.Exclusive (maxTrees : Nat) (c : TreeConfig) : Prop :=
  c.ids.Nodup ∧ ∀ n ∈ c.refused, maxTrees ≤ n

/-- If the manager may still create a tree, then some slot is empty, and no tree it
returned is. -/
def TreeConfig.Ready (maxTrees : Nat) (c : TreeConfig) : Prop :=
  c.mgr.treeCount < maxTrees →
    (∃ i < maxTrees, (c.mgr.trees i).vacant = true) ∧
      ∀ id ∈ c.ids, (c.mgr.trees id).vacant = false

/-- What holds along every run: `tree_count` counts the ids, and at the time an id
was returned every slot before it was taken. -/
structure TreeInv (maxTrees : Nat) (c : TreeConfig) : Prop where
  count : c.mgr.treeCount = c.ids.length
  room : c.ids.length ≤ maxTrees
  taken : ∀ id ∈ c.ids, ∀ i < id, (c.mgr.trees i).vacant = false

section

variable {maxTrees : Nat} {c d e : TreeConfig}

/-! ## The two functions -/

/-- **`ktree_manager_create_tree`** is refused, or takes the first empty slot. -/
theorem ktreeManagerCreateTree_cases (maxTrees : Nat) (mgr : KtreeManager) (flags : Nat) :
    (ktreeManagerCreateTree maxTrees mgr flags = (.error .full, mgr) ∧
        (mgr.treeCount < maxTrees → ∀ i < maxTrees, (mgr.trees i).vacant = false)) ∨
      ∃ id, ktreeManagerCreateTree maxTrees mgr flags =
          (.ok id,
            { mgr with
              trees := Function.update mgr.trees id (ktreeInit flags)
              treeCount := (mgr.treeCount + 1) % 2 ^ 32 }) ∧
        mgr.treeCount < maxTrees ∧ id < maxTrees ∧ (mgr.trees id).vacant = true ∧
        ∀ i < id, (mgr.trees i).vacant = false := by
  by_cases hcount : mgr.treeCount ≥ maxTrees
  · exact .inl ⟨if_pos hcount, fun hlt => absurd hlt (by omega)⟩
  · rw [ktreeManagerCreateTree, if_neg hcount]
    cases hfind : (List.range maxTrees).find? fun i => (mgr.trees i).vacant with
    | none =>
      left
      refine ⟨rfl, fun _ i hi => ?_⟩
      have hi' := List.find?_eq_none.mp hfind i (List.mem_range.mpr hi)
      simpa using hi'
    | some id =>
      right
      rw [List.find?_range_eq_some] at hfind
      obtain ⟨hvacant, hid, hbefore⟩ := hfind
      refine ⟨id, rfl, by omega, List.mem_range.mp hid, hvacant, ?_⟩
      intro i hi
      simpa using hbefore i hi

/-- The slots a call leaves empty were empty before. -/
def NoneVacated (mgr mgr' : KtreeManager) : Prop :=
  ∀ i, (mgr.trees i).vacant = false → (mgr'.trees i).vacant = false

/-- **`ktree_insert`** into an empty tree empties no slot. -/
theorem ktreeInsert_spec {mgr mgr' : KtreeManager} {treeId : Nat} {data : Int}
    {res : Except KtreeError Unit}
    (h : ktreeInsert maxTrees mgr treeId data = some (res, mgr')) :
    mgr'.treeCount = mgr.treeCount ∧ NoneVacated mgr mgr' := by
  by_cases hid : treeId ≥ maxTrees
  · rw [ktreeInsert, if_pos hid] at h
    cases h
    exact ⟨rfl, fun _ hi => hi⟩
  · rw [ktreeInsert, if_neg hid, ktreePoolAllocNode] at h
    by_cases hfull : mgr.nodePool.freeList = ktreeInvalidNode
    · rw [if_pos hfull] at h
      cases h
      exact ⟨rfl, fun _ hi => hi⟩
    · rw [if_neg hfull] at h
      by_cases hroot : (mgr.trees treeId).root = ktreeInvalidNode
      · simp only [if_pos hroot, Option.some.injEq, Prod.mk.injEq] at h
        obtain ⟨_, rfl⟩ := h
        refine ⟨rfl, fun i hi => ?_⟩
        show (Function.update mgr.trees treeId _ i).vacant = false
        by_cases heq : i = treeId
        · rw [heq, Function.update_self]
          simp [KtreeTree.vacant]
        · rw [Function.update_of_ne heq]
          exact hi
      · simp only [if_neg hroot] at h
        cases h

/-! ## One call -/

theorem treeInv_init (maxNodes maxTrees : Nat) (mgr : KtreeManager) :
    TreeInv maxTrees (TreeConfig.init maxNodes maxTrees mgr) :=
  ⟨rfl, Nat.zero_le _, fun _ hid => absurd hid List.not_mem_nil⟩

theorem exclusive_init (maxNodes maxTrees : Nat) (mgr : KtreeManager) :
    (TreeConfig.init maxNodes maxTrees mgr).Exclusive maxTrees :=
  ⟨List.nodup_nil, fun _ hn => absurd hn List.not_mem_nil⟩

/-- A refusal is right if and only if all ids were given out. -/
theorem TreeInv.ready_iff_full (h : TreeInv maxTrees c)
    (hnone : c.mgr.treeCount < maxTrees → ∀ i < maxTrees, (c.mgr.trees i).vacant = false) :
    c.Ready maxTrees ↔ maxTrees ≤ c.ids.length := by
  have hcount := h.count
  constructor
  · intro hready
    by_contra hlt
    obtain ⟨i, hi, hvacant⟩ := (hready (by omega)).1
    rw [hnone (by omega) i hi] at hvacant
    cases hvacant
  · intro hle hlt
    omega

/-- The first empty slot was returned before exactly if some returned tree is empty. -/
theorem TreeInv.ready_iff_fresh (h : TreeInv maxTrees c) {id : Nat}
    (hlt : c.mgr.treeCount < maxTrees) (hid : id < maxTrees)
    (hvacant : (c.mgr.trees id).vacant = true)
    (hbefore : ∀ i < id, (c.mgr.trees i).vacant = false) :
    c.Ready maxTrees ↔ id ∉ c.ids := by
  constructor
  · intro hready hmem
    rw [(hready hlt).2 id hmem] at hvacant
    cases hvacant
  · intro hnot _
    refine ⟨⟨id, hid, hvacant⟩, ?_⟩
    intro id' hid'
    by_contra hempty
    have hge : ¬ id < id' := by
      intro hlt'
      rw [h.taken id' hid' id hlt'] at hvacant
      cases hvacant
    have hle : ¬ id' < id := fun hlt' => hempty (hbefore id' hlt')
    have heq : id' = id := by omega
    exact hnot (heq ▸ hid')

/-- A tree is created in the first empty slot. -/
theorem TreeInv.created (h : TreeInv maxTrees c) (hmax : maxTrees < 2 ^ 32) {id : Nat}
    (hlt : c.mgr.treeCount < maxTrees) (hvacant : (c.mgr.trees id).vacant = true)
    (hbefore : ∀ i < id, (c.mgr.trees i).vacant = false) (tree : KtreeTree)
    (refused : List Nat) :
    TreeInv maxTrees
      ⟨{ c.mgr with
          trees := Function.update c.mgr.trees id tree
          treeCount := (c.mgr.treeCount + 1) % 2 ^ 32 }, id :: c.ids, refused⟩ := by
  have hcount := h.count
  refine ⟨?_, ?_, ?_⟩
  · show (c.mgr.treeCount + 1) % 2 ^ 32 = c.ids.length + 1
    omega
  · show c.ids.length + 1 ≤ maxTrees
    omega
  · intro id' hid' i hi
    show (Function.update c.mgr.trees id _ i).vacant = false
    have hi' : (c.mgr.trees i).vacant = false := by
      rcases List.mem_cons.mp hid' with rfl | hid'
      · exact hbefore i hi
      · exact h.taken id' hid' i hi
    have hne : i ≠ id := by
      rintro rfl
      cases hvacant.symm.trans hi'
    rw [Function.update_of_ne hne]
    exact hi'

/-- What a creation does to a run. -/
theorem TreeInv.create (h : TreeInv maxTrees c) (hmax : maxTrees < 2 ^ 32) {flags : Nat}
    (hcall : c.call maxTrees (.create flags) = some d) :
    TreeInv maxTrees d ∧ (d.Exclusive maxTrees ↔ c.Exclusive maxTrees ∧ c.Ready maxTrees) := by
  rw [TreeConfig.call] at hcall
  rcases ktreeManagerCreateTree_cases maxTrees c.mgr flags with
    ⟨heq, hnone⟩ | ⟨id, heq, hlt, hid, hvacant, hbefore⟩
  · rw [heq] at hcall
    cases hcall
    refine ⟨⟨h.count, h.room, h.taken⟩, ?_⟩
    rw [h.ready_iff_full hnone]
    show c.ids.Nodup ∧ (∀ n ∈ c.ids.length :: c.refused, maxTrees ≤ n) ↔ (c.ids.Nodup ∧ _) ∧ _
    rw [List.forall_mem_cons]
    tauto
  · rw [heq] at hcall
    cases hcall
    refine ⟨h.created hmax hlt hvacant hbefore _ _, ?_⟩
    show (id :: c.ids).Nodup ∧ _ ↔ (c.ids.Nodup ∧ _) ∧ _
    rw [h.ready_iff_fresh hlt hid hvacant hbefore, List.nodup_cons]
    tauto

/-- What an insertion does to a run. -/
theorem TreeInv.insert (h : TreeInv maxTrees c) {treeId : Nat} {data : Int}
    (hcall : c.call maxTrees (.insert treeId data) = some d) :
    TreeInv maxTrees d ∧ (d.Exclusive maxTrees ↔ c.Exclusive maxTrees) := by
  rw [TreeConfig.call, Option.map_eq_some_iff] at hcall
  obtain ⟨⟨res, mgr'⟩, hinsert, rfl⟩ := hcall
  obtain ⟨hcount, hvacant⟩ := ktreeInsert_spec hinsert
  refine ⟨⟨hcount.trans h.count, h.room, ?_⟩, Iff.rfl⟩
  intro id hid i hi
  exact hvacant i (h.taken id hid i hi)

theorem TreeInv.call (h : TreeInv maxTrees c) (hmax : maxTrees < 2 ^ 32) {call : TreeCall}
    (hcall : c.call maxTrees call = some d) :
    TreeInv maxTrees d ∧
      (d.Exclusive maxTrees ↔
        c.Exclusive maxTrees ∧ ∀ flags, call = .create flags → c.Ready maxTrees) := by
  cases call with
  | create flags =>
    obtain ⟨hd, hstep⟩ := h.create hmax hcall
    refine ⟨hd, hstep.trans (and_congr_right fun _ => ?_)⟩
    exact ⟨fun hready _ _ => hready, fun hready => hready flags rfl⟩
  | insert treeId data =>
    obtain ⟨hd, hstep⟩ := h.insert hcall
    refine ⟨hd, hstep.trans ?_⟩
    exact ⟨fun hex => ⟨hex, fun _ hcreate => by cases hcreate⟩, fun hex => hex.1⟩

/-! ## Runs -/

/-- Every creation among the calls is made in a state that is ready for it. -/
def ReadyForAll (maxTrees : Nat) (c : TreeConfig) (calls : List TreeCall) : Prop :=
  ∀ before flags after, calls = before ++ .create flags :: after →
    ∀ d, c.calls maxTrees before = some d → d.Ready maxTrees

theorem readyForAll_nil : ReadyForAll maxTrees c [] := by
  intro before flags after heq
  exact absurd heq (by simp)

theorem readyForAll_cons {call : TreeCall} {rest : List TreeCall}
    (hcall : c.call maxTrees call = some d) :
    ReadyForAll maxTrees c (call :: rest) ↔
      (∀ flags, call = .create flags → c.Ready maxTrees) ∧ ReadyForAll maxTrees d rest := by
  constructor
  · intro hall
    constructor
    · rintro flags rfl
      exact hall [] flags rest rfl c rfl
    · rintro before flags after rfl e he
      refine hall (call :: before) flags after rfl e ?_
      rw [TreeConfig.calls, hcall]
      exact he
  · rintro ⟨hready, hrest⟩ before flags after hsplit e he
    cases before with
    | nil =>
      cases he
      exact hready flags (List.cons.inj hsplit).1
    | cons first before =>
      obtain ⟨rfl, htail⟩ := List.cons.inj hsplit
      rw [TreeConfig.calls, hcall] at he
      exact hrest before flags after htail e he

theorem TreeInv.calls (h : TreeInv maxTrees c) (hmax : maxTrees < 2 ^ 32) {calls : List TreeCall}
    (hcalls : c.calls maxTrees calls = some e) :
    e.Exclusive maxTrees ↔ c.Exclusive maxTrees ∧ ReadyForAll maxTrees c calls := by
  induction calls generalizing c with
  | nil =>
    cases hcalls
    exact ⟨fun hex => ⟨hex, readyForAll_nil⟩, fun hex => hex.1⟩
  | cons call rest ih =>
    rw [TreeConfig.calls, Option.bind_eq_some_iff] at hcalls
    obtain ⟨d, hcall, hrest⟩ := hcalls
    obtain ⟨hd, hstep⟩ := h.call hmax hcall
    rw [ih hd hrest, hstep, readyForAll_cons hcall, and_assoc]

end

/-- **When tree ids are exclusive.**  In a run of creations and insertions into
empty trees, the ids are pairwise distinct and no creation is refused early
exactly if at every creation, `tree_count` being below `KTREE_MAX_TREES`, some slot
is empty and every tree returned so far has received a node. -/
theorem ktree_ids_exclusive_iff (maxNodes maxTrees : Nat) (hmax : maxTrees < 2 ^ 32)
    (mgr : KtreeManager) (calls : List TreeCall) (c : TreeConfig)
    (hrun : (TreeConfig.init maxNodes maxTrees mgr).calls maxTrees calls = some c) :
    c.Exclusive maxTrees ↔
      ReadyForAll maxTrees (TreeConfig.init maxNodes maxTrees mgr) calls := by
  rw [(treeInv_init maxNodes maxTrees mgr).calls hmax hrun]
  exact ⟨fun h => h.2, fun h => ⟨exclusive_init maxNodes maxTrees mgr, h⟩⟩

/-- A manager in memory that was never written. -/
def blankManager : KtreeManager :=
  ⟨⟨fun _ => ⟨0, 0, 0, 0, 0, 0, 0⟩, 0, 0⟩, fun _ => ⟨0, 0, 0, 0⟩, 0, 0⟩

/-- A tree that receives a node before the next creation is not returned again. -/
theorem ktree_ids_exclusive_between :
    ReadyForAll 32 (TreeConfig.init 4096 32 blankManager)
      [.create 0, .insert 0 7, .create 0] := by
  have hrun : ∃ c, (TreeConfig.init 4096 32 blankManager).calls 32
      [.create 0, .insert 0 7, .create 0] = some c ∧ c.ids = [1, 0] ∧ c.refused = [] :=
    ⟨_, rfl, rfl, rfl⟩
  obtain ⟨c, hcalls, hids, hrefused⟩ := hrun
  apply (ktree_ids_exclusive_iff 4096 32 (by decide) blankManager _ c hcalls).mp
  rw [TreeConfig.Exclusive, hids, hrefused]
  decide

/-- With the default sizes, two creations in a row return the same tree. -/
theorem ktree_ids_repeat :
    ∃ c, (TreeConfig.init 4096 32 blankManager).calls 32 [.create 0, .create 0] = some c ∧
      c.ids = [0, 0] ∧ ¬ c.Exclusive 32 := by
  refine ⟨_, rfl, rfl, ?_⟩
  rintro ⟨hnodup, _⟩
  exact absurd hnodup (by decide)

end FarouKernel.Ports.Ktree
