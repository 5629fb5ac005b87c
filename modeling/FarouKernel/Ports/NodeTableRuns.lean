import FarouKernel.Ports.NodeTableModel
import Mathlib.Data.List.Basic

/-!
# How many nodes can be created

Nothing marks a block as used, so `get_free_index` counts: the `n`-th call returns `n`,
for files and directories alike.  Nothing is ever in the list of `find_node`, so no node
is deleted, and no index comes back.  The 513th creation writes behind its table,
whatever the others were, and none is refused.
-/

namespace FarouKernel.Ports.NodeTable

open Tables

variable {layout : Layout} {t t' : Tables} {live : List NodeRef} {n : Nat}

/-! ## What is asked of a run -/

/-- What is asked of a call that creates a node in `table`, when the nodes `live` are in
use: a node that is initialised is one of the table that is not in use, and if there is
no such node the call returns `-ENOSPC` and changes no node. -/
def CreatesWell (layout : Layout) (t : Tables) (live : List NodeRef) (call : Call)
    (type : FsType) (table : Table) : Prop :=
  (∀ ref ∈ (t.allocNode type).1, ref.table = table ∧ ref.Inside ∧ ref ∉ live) ∧
    ((∀ i : Nat, i < maxNodes → NodeRef.mk table i ∈ live) →
      ∃ t', t.step layout call = some (-enospc, t') ∧ t'.nodes = t.nodes)

/-- The nodes in use after a call with the result `r`. -/
def liveAfter (t : Tables) (live : List NodeRef) (call : Call) (r : Int) : List NodeRef :=
  match call.creates with
  | some (type, _) => ((t.allocNode type).1.toList) ++ live
  | none =>
    if r = 0 then
      match t.findNode call.path with
      | some (some ref) => live.filter (· ≠ ref)
      | _ => live
    else live

/-- Every call of the sequence is defined, and creates a node as it is asked. -/
def Exclusive (layout : Layout) : Tables → List NodeRef → List Call → Prop
  | _, _, [] => True
  | t, live, call :: calls =>
    (∀ type table, call.creates = some (type, table) →
      CreatesWell layout t live call type table) ∧
    ∃ r t', t.step layout call = some (r, t') ∧
      Exclusive layout t' (liveAfter t live call r) calls

/-- A call that creates a node. -/
def Call.isCreation (call : Call) : Bool := call.creates.isSome

/-! ## One call -/

/-- After `n` creations: the counter has moved on with each of them, whatever was deleted
in between. -/
structure Counts (n : Nat) (t : Tables) (live : List NodeRef) : Prop where
  index : t.index = n - 1
  blocks : ∀ i, t.blocks i = 0
  fileSystem : t.fileSystem = none
  live_lt : ∀ ref ∈ live, ref.index < n

theorem Counts.start : Counts 0 Tables.start [] :=
  ⟨rfl, fun _ => rfl, rfl, fun _ h => absurd h List.not_mem_nil⟩

theorem inside_mk (table : Table) (n : Nat) : (NodeRef.mk table n).Inside ↔ n < maxNodes := by
  show (0 ≤ (n : Int) ∧ (n : Int) < maxNodes) ↔ _
  omega

theorem Counts.getFreeIndex (h : Counts n t live) (hn : n ≤ maxNodes) :
    t.getFreeIndex = ((n : Int), { t with index := n }) := by
  have hloop : freeIndexLoop t.blocks (maxBlocks + 1) t.index = n := by
    rw [freeIndexLoop, if_neg (fun hcond => hcond.2 (h.blocks _)), h.index]
    omega
  simp only [Tables.getFreeIndex, hloop]
  rw [if_neg]
  unfold maxBlocks
  unfold maxNodes at hn
  omega

variable {call : Call} {type : FsType} {table : Table}

theorem Counts.allocNode (h : Counts n t live) (hn : n ≤ maxNodes)
    (hcreates : call.creates = some (type, table)) :
    t.allocNode type = (some ⟨table, n⟩, { t with index := n }) := by
  cases call with
  | createFile path =>
    cases hcreates
    simp only [Tables.allocNode, h.getFreeIndex hn]
  | mkdir path =>
    cases hcreates
    simp only [Tables.allocNode, h.getFreeIndex hn]
  | deleteFile path => cases hcreates
  | rmdir path => cases hcreates

/-- The step of a creation. -/
theorem step_of_creates (hcreates : call.creates = some (type, table)) :
    t.step layout call = Tables.create type t call.path := by
  cases call with
  | createFile path =>
    cases hcreates
    rfl
  | mkdir path =>
    cases hcreates
    rfl
  | deleteFile path => cases hcreates
  | rmdir path => cases hcreates

/-- A creation with an index of the table. -/
theorem Counts.create (layout : Layout) (h : Counts n t live) (hn : n < maxNodes)
    (hcreates : call.creates = some (type, table)) :
    ∃ t', t.step layout call = some (0, t') ∧ Counts (n + 1) t' (liveAfter t live call 0) := by
  have halloc := h.allocNode hn.le hcreates
  have hinside := (inside_mk table n).mpr hn
  rw [step_of_creates hcreates, Tables.create, Tables.createNode, halloc]
  simp only [if_pos hinside]
  refine ⟨_, rfl, ?_, h.blocks, h.fileSystem, ?_⟩
  · show (n : Int) = (n + 1 : Nat) - 1
    omega
  · intro ref href
    rw [liveAfter, hcreates] at href
    simp only [halloc, Option.toList_some, List.singleton_append, List.mem_cons] at href
    obtain rfl | href := href
    · show (n : Int) < (n + 1 : Nat)
      omega
    · have := h.live_lt ref href
      omega

/-- A deletion finds nothing. -/
theorem Counts.delete (layout : Layout) (h : Counts n t live) (hcreates : call.creates = none) :
    t.step layout call = some (-enoent, t) ∧ liveAfter t live call (-enoent) = live := by
  have hfind : ∀ path, t.findNode path = some none := by
    intro path
    rw [findNode, h.fileSystem, findLoop]
  have hlive : liveAfter t live call (-enoent) = live := by
    rw [liveAfter, hcreates]
    exact if_neg (by decide)
  refine ⟨?_, hlive⟩
  cases call with
  | createFile path => cases hcreates
  | mkdir path => cases hcreates
  | deleteFile path => simp [Tables.step, deleteFile, Tables.delete, hfind]
  | rmdir path => simp [Tables.step, rmdir, Tables.delete, hfind]

/-! ## Sequences of calls -/

theorem Counts.createsWell_iff (layout : Layout) (h : Counts n t live) (hn : n ≤ maxNodes)
    (hcreates : call.creates = some (type, table)) :
    CreatesWell layout t live call type table ↔ n < maxNodes := by
  have hfresh : NodeRef.mk table n ∉ live := by
    intro hmem
    exact absurd (h.live_lt _ hmem) (by simp)
  unfold CreatesWell
  rw [h.allocNode hn hcreates]
  constructor
  · intro hwell
    exact (inside_mk table n).mp (hwell.1 _ rfl).2.1
  · intro hlt
    constructor
    · intro ref href
      cases href
      exact ⟨rfl, (inside_mk table n).mpr hlt, hfresh⟩
    · intro hfull
      exact absurd (hfull n hlt) hfresh

/-- The calls after `n` creations, by induction on them. -/
theorem Counts.exclusive_iff {calls : List Call} (h : Counts n t live) (hn : n ≤ maxNodes) :
    Exclusive layout t live calls ↔ n + calls.countP Call.isCreation ≤ maxNodes := by
  induction calls generalizing n t live with
  | nil => simpa [Exclusive] using hn
  | cons call calls ih =>
    rw [Exclusive, List.countP_cons]
    cases hcreates : call.creates with
    | none =>
      obtain ⟨hstep, hlive⟩ := h.delete layout hcreates
      have hcreation : call.isCreation = false := by simp [Call.isCreation, hcreates]
      rw [hstep, hcreation]
      simp only [reduceCtorEq, false_implies, implies_true, true_and]
      constructor
      · rintro ⟨r, t', hsome, hrest⟩
        cases hsome
        rw [hlive] at hrest
        simpa using (ih h hn).mp hrest
      · intro hcount
        refine ⟨_, _, rfl, ?_⟩
        rw [hlive]
        exact (ih h hn).mpr (by simpa using hcount)
    | some created =>
      obtain ⟨type, table⟩ := created
      have hcreation : call.isCreation = true := by simp [Call.isCreation, hcreates]
      have hwell := h.createsWell_iff layout hn hcreates
      rw [hcreation, if_pos rfl]
      constructor
      · rintro ⟨hcreated, r, t', hsome, hrest⟩
        have hlt := hwell.mp (hcreated type table rfl)
        obtain ⟨t1, hstep, hcounts⟩ := h.create layout hlt hcreates
        cases hstep.symm.trans hsome
        have := (ih hcounts hlt).mp hrest
        omega
      · intro hcount
        have hlt : n < maxNodes := by omega
        obtain ⟨t1, hstep, hcounts⟩ := h.create layout hlt hcreates
        refine ⟨?_, 0, t1, hstep, (ih hcounts hlt).mpr (by omega)⟩
        intro type' table' heq
        cases heq
        exact hwell.mpr hlt

/-- **Creating nodes.**  Every creation of a sequence takes a free node of its table, or
is refused if there is none, exactly if the sequence has at most 512 creations. -/
theorem creations_exclusive_iff (layout : Layout) (calls : List Call) :
    Exclusive layout Tables.start [] calls ↔ calls.countP Call.isCreation ≤ maxNodes := by
  rw [Counts.start.exclusive_iff (Nat.zero_le _), Nat.zero_add]

/-- The 513th file is written behind `g_files`. -/
theorem file_513_outside :
    ¬ Exclusive ⟨fun _ => 0, 64⟩ Tables.start [] (List.replicate 513 (.createFile "a")) := by
  rw [Counts.start.exclusive_iff (Nat.zero_le _), List.countP_replicate]
  decide

end FarouKernel.Ports.NodeTable
