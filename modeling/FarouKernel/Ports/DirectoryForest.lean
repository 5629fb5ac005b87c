import FarouKernel.Ports.DirectoryModel
import FarouKernel.Verified.ParentLinks

/-!
# When the directories stay a forest

`add_child` looks at the names in the table of the new parent, and neither at the parent
the child has nor at the directories above the new parent.  So a child that is listed
elsewhere is then listed twice, and a directory can be made a child of itself or of one
of those below it.  A sequence of calls keeps the directories a forest exactly if
`add_child` never adds such a child.
-/

namespace FarouKernel.Ports.Directory

open Verified Relation

namespace Directories

variable {N : Type} {name : N → String} {d : Directories N}

/-- `c` is in the table of `p`. -/
def Lists (d : Directories N) (p c : N) : Prop := ∃ childName, d.children p childName = some c

/-- The two sides of the links agree, no directory is listed twice, no directory is above
itself, and `path` returns for every directory. -/
structure Forest (name : N → String) (d : Directories N) : Prop where
  lists_iff : ∀ p c, d.Lists p c ↔ d.parent c = some p
  single : ∀ p p' c, d.Lists p c → d.Lists p' c → p = p'
  not_above_self : ∀ c, ¬ TransGen (IsParent d.parent) c c
  path_returns : ∀ node, ∃ fuel, (d.path name fuel node).isSome = true

/-! ## Paths -/

/-- A path that is returned leads to a root. -/
theorem acc_of_path {fuel : Nat} {node : N} (h : (d.path name fuel node).isSome = true) :
    Acc (IsParent d.parent) node := by
  induction fuel generalizing node with
  | zero => cases h
  | succ fuel ih =>
    constructor
    intro p hp
    rw [path, show d.parent node = some p from hp, Option.isSome_map] at h
    exact ih h

theorem path_of_acyclic (h : Acyclic d.parent) (node : N) :
    ∃ fuel, (d.path name fuel node).isSome = true := by
  induction node using h.induction with
  | _ node ih =>
    cases hparent : d.parent node with
    | none => exact ⟨1, by simp [path, hparent]⟩
    | some p =>
      obtain ⟨fuel, hfuel⟩ := ih p hparent
      exact ⟨fuel + 1, by simpa [path, hparent] using hfuel⟩

/-- Of the four parts of `Forest`, two say it all. -/
theorem forest_iff :
    Forest name d ↔ (∀ p c, d.Lists p c ↔ d.parent c = some p) ∧ Acyclic d.parent := by
  constructor
  · intro h
    refine ⟨h.lists_iff, ⟨fun node => ?_⟩⟩
    obtain ⟨fuel, hfuel⟩ := h.path_returns node
    exact acc_of_path hfuel
  · rintro ⟨hlists, hacyclic⟩
    refine ⟨hlists, ?_, fun c => hacyclic.not_above_self, path_of_acyclic hacyclic⟩
    intro p p' c hp hp'
    rw [hlists] at hp hp'
    exact Option.some.inj (hp.symm.trans hp')

theorem forest_isolated : Forest name (isolated : Directories N) := by
  refine forest_iff.mpr ⟨fun p c => ?_, acyclic_of_roots fun _ => rfl⟩
  simp [Lists, isolated]

/-! ## One call -/

/-- A table lists a directory under its name. -/
def Keyed (name : N → String) (d : Directories N) : Prop :=
  ∀ p childName c, d.children p childName = some c → name c = childName

theorem keyed_isolated : Keyed name (isolated : Directories N) := by
  intro p childName c h
  cases h

variable {this child p c : N} {calls : List (Call N)}

theorem Keyed.children (h : Keyed name d) (hlists : d.Lists p c) :
    d.children p (name c) = some c := by
  obtain ⟨childName, hchild⟩ := hlists
  rw [h p childName c hchild, hchild]

variable [DecidableEq N]

theorem setChild_children (p : N) (childName : String) (child : Option N) (p' : N)
    (childName' : String) :
    (d.setChild p childName child).children p' childName' =
      if p' = p ∧ childName' = childName then child else d.children p' childName' := by
  rw [setChild]
  by_cases hp : p' = p
  · subst hp
    simp [Function.update_apply]
  · simp [hp]

/-- `add_child` either leaves the links as they are, or adds a child whose name is not in
the table. -/
theorem addChild_cases (name : N → String) (d : Directories N) (this child : N) :
    ((d.addChild name this (some child)).1 ≠ .success ∧
        (d.addChild name this (some child)).2 = d) ∨
      (d.children this (name child) = none ∧
        d.addChild name this (some child) =
          (.success, (d.setParent child (some this)).setChild this (name child) (some child))) := by
  unfold addChild
  cases hentry : d.children this (name child) with
  | none => exact Or.inr ⟨rfl, by simp [hentry]⟩
  | some other => exact Or.inl ⟨by simp [hentry], by simp [hentry]⟩

theorem lists_added {q : Option N} (hfree : d.children this (name child) = none) :
    ((d.setParent child q).setChild this (name child) (some child)).Lists p c ↔
      (p = this ∧ c = child) ∨ d.Lists p c := by
  simp only [Lists, setChild_children]
  constructor
  · rintro ⟨childName, hentry⟩
    split at hentry
    case isTrue hkey => exact Or.inl ⟨hkey.1, (Option.some.inj hentry).symm⟩
    case isFalse => exact Or.inr ⟨childName, hentry⟩
  · rintro (⟨rfl, rfl⟩ | ⟨childName, hentry⟩)
    · exact ⟨name c, if_pos ⟨rfl, rfl⟩⟩
    · refine ⟨childName, ?_⟩
      rw [if_neg]
      · exact hentry
      · rintro ⟨rfl, rfl⟩
        cases hfree.symm.trans hentry

theorem lists_removed {childName : String} {q : Option N} (h : Keyed name d)
    (hchild : d.children this childName = some child) :
    ((d.setParent child q).setChild this childName none).Lists p c ↔
      d.Lists p c ∧ ¬ (p = this ∧ c = child) := by
  simp only [Lists, setChild_children]
  constructor
  · rintro ⟨other, hentry⟩
    split at hentry
    case isTrue => cases hentry
    case isFalse hkey =>
        refine ⟨⟨other, hentry⟩, ?_⟩
        rintro ⟨rfl, rfl⟩
        exact hkey ⟨rfl, (h _ _ _ hentry).symm.trans (h _ _ _ hchild)⟩
  · rintro ⟨⟨other, hentry⟩, hne⟩
    refine ⟨other, ?_⟩
    rw [if_neg]
    · exact hentry
    · rintro ⟨rfl, rfl⟩
      exact hne ⟨rfl, Option.some.inj (hentry.symm.trans hchild)⟩

theorem Keyed.step (h : Keyed name d) (call : Call N) : Keyed name (d.step name call).2 := by
  cases call with
  | addChild this child =>
    cases child with
    | none => exact h
    | some child =>
      rw [Directories.step]
      obtain ⟨-, hsame⟩ | ⟨-, hadded⟩ := addChild_cases name d this child
      · rw [hsame]
        exact h
      · rw [hadded]
        intro p childName c hentry
        rw [setChild_children] at hentry
        split at hentry
        case isTrue hkey => exact (Option.some.inj hentry) ▸ hkey.2.symm
        case isFalse => exact h p childName c hentry
  | removeChild this childName =>
    rw [Directories.step, removeChild]
    cases hchild : d.children this childName with
    | none => exact h
    | some child =>
      intro p other c hentry
      rw [setChild_children] at hentry
      split at hentry
      case isTrue => cases hentry
      case isFalse => exact h p other c hentry

/-- The next call adds no child that has a parent, or that is the new parent or above
it. -/
def Proper (name : N → String) (d : Directories N) : Call N → Prop
  | .addChild this (some child) =>
    (d.addChild name this (some child)).1 = .success →
      d.parent child = none ∧ ¬ ReflTransGen (IsParent d.parent) child this
  | _ => True

/-- A child that is added. -/
theorem Forest.added_iff (h : Forest name d) (hkeyed : Keyed name d)
    (hfree : d.children this (name child) = none) :
    Forest name ((d.setParent child (some this)).setChild this (name child) (some child)) ↔
      d.parent child = none ∧ ¬ ReflTransGen (IsParent d.parent) child this := by
  obtain ⟨hlists, hacyclic⟩ := forest_iff.mp h
  rw [forest_iff]
  simp only [lists_added hfree]
  show (∀ p c, _ ↔ Function.update d.parent child (some this) c = some p) ∧
    Acyclic (Function.update d.parent child (some this)) ↔ _
  constructor
  · rintro ⟨hlists', hacyclic'⟩
    have hroot : d.parent child = none := by
      cases hparent : d.parent child with
      | none => rfl
      | some q =>
        -- The child is still listed in `q`, so `q` is the new parent, whose table has
        -- no entry of its name.
        have hq : d.Lists q child := (hlists q child).mpr hparent
        have hthis := (hlists' q child).mp (Or.inr hq)
        rw [Function.update_self, Option.some.injEq] at hthis
        rw [← hthis] at hq
        rw [hkeyed.children hq] at hfree
        cases hfree
    exact ⟨hroot, (acyclic_link_iff hacyclic hroot).mp hacyclic'⟩
  · rintro ⟨hroot, hnot⟩
    refine ⟨fun p c => ?_, (acyclic_link_iff hacyclic hroot).mpr hnot⟩
    rw [Function.update_apply, hlists p c]
    split
    case isTrue hc => simp [hc, hroot, eq_comm]
    case isFalse hc => simp [hc]

theorem Forest.removed (h : Forest name d) (hkeyed : Keyed name d) {childName : String}
    (hchild : d.children this childName = some child) :
    Forest name ((d.setParent child none).setChild this childName none) := by
  obtain ⟨hlists, hacyclic⟩ := forest_iff.mp h
  have hparent : d.parent child = some this := (hlists this child).mp ⟨childName, hchild⟩
  refine forest_iff.mpr ⟨fun p c => ?_, hacyclic.unlink child⟩
  rw [lists_removed hkeyed hchild, hlists p c]
  show _ ↔ Function.update d.parent child none c = some p
  rw [Function.update_apply]
  split
  case isTrue hc => simp [hc, hparent, eq_comm]
  case isFalse hc => simp [hc]

/-- **The next call** keeps a forest one exactly if it is proper. -/
theorem Forest.step_iff (h : Forest name d) (hkeyed : Keyed name d) (call : Call N) :
    Forest name (d.step name call).2 ↔ Proper name d call := by
  cases call with
  | addChild this child =>
    cases child with
    | none => exact iff_of_true h trivial
    | some child =>
      rw [Directories.step, Proper]
      obtain ⟨hfailed, hsame⟩ | ⟨hfree, hadded⟩ := addChild_cases name d this child
      · rw [hsame]
        exact iff_of_true h fun hsuccess => absurd hsuccess hfailed
      · rw [hadded, h.added_iff hkeyed hfree]
        simp
  | removeChild this childName =>
    refine iff_of_true ?_ trivial
    rw [Directories.step, removeChild]
    cases hchild : d.children this childName with
    | none => exact h
    | some child => exact h.removed hkeyed hchild

/-! ## Sequences of calls -/

/-- The directories are a forest in every state of the calls. -/
def StaysForest (name : N → String) (d : Directories N) (calls : List (Call N)) : Prop :=
  ∀ k : Nat, Forest name (d.run name (calls.take k))

/-- Every call is proper where it is made. -/
def AllProper (name : N → String) (d : Directories N) (calls : List (Call N)) : Prop :=
  ∀ k : Nat, ∀ call ∈ calls[k]?, Proper name (d.run name (calls.take k)) call

theorem staysForest_cons {call : Call N} :
    StaysForest name d (call :: calls) ↔
      Forest name d ∧ StaysForest name (d.step name call).2 calls := by
  constructor
  · intro h
    exact ⟨h 0, fun k => h (k + 1)⟩
  · rintro ⟨hfirst, hrest⟩ k
    cases k with
    | zero => exact hfirst
    | succ k => exact hrest k

theorem allProper_cons {call : Call N} :
    AllProper name d (call :: calls) ↔
      Proper name d call ∧ AllProper name (d.step name call).2 calls := by
  constructor
  · intro h
    exact ⟨h 0 call rfl, fun k => h (k + 1)⟩
  · rintro ⟨hfirst, hrest⟩ k
    cases k with
    | zero =>
      intro c hc
      cases hc
      exact hfirst
    | succ k => exact hrest k

theorem staysForest_iff_of_forest (h : Forest name d) (hkeyed : Keyed name d) :
    StaysForest name d calls ↔ AllProper name d calls := by
  induction calls generalizing d with
  | nil =>
    refine iff_of_true (fun k => ?_) (fun k call hcall => ?_)
    · simpa [run] using h
    · cases hcall
  | cons call calls ih =>
    rw [staysForest_cons, allProper_cons, ← h.step_iff hkeyed call]
    constructor
    · rintro ⟨-, hrest⟩
      have hnext : Forest name (d.step name call).2 := hrest 0
      exact ⟨hnext, (ih hnext (hkeyed.step call)).mp hrest⟩
    · rintro ⟨hnext, hrest⟩
      exact ⟨h, (ih hnext (hkeyed.step call)).mpr hrest⟩

/-- **The forest.**  From isolated directories a sequence of calls keeps the directories a
forest exactly if no child is added that has a parent, or that is the new parent or above
it. -/
theorem directories_forest_iff (name : N → String) (calls : List (Call N)) :
    StaysForest name isolated calls ↔ AllProper name isolated calls :=
  staysForest_iff_of_forest forest_isolated keyed_isolated

/-- A directory that is added to itself is above itself, and one that is added to two
others is listed in both. -/
theorem add_child_no_forest :
    ¬ StaysForest (fun _ : Fin 3 => "dev") isolated [.addChild 0 (some 0)] ∧
      ¬ StaysForest (fun _ : Fin 3 => "dev") isolated
        [.addChild 0 (some 2), .addChild 1 (some 2)] := by
  constructor
  · intro h
    exact (h 1).not_above_self 0 (.single rfl)
  · intro h
    have hboth := (h 2).single 0 1 2 ⟨"dev", rfl⟩ ⟨"dev", rfl⟩
    exact absurd hboth (by decide)

end Directories

end FarouKernel.Ports.Directory
