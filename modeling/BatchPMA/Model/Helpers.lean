import Mathlib.Tactic
import Mathlib.Data.Rat.Floor
import BatchPMA.Library.Rounding

/-!
# Auxiliary types

The plain data of `helpers.hpp`, the density managers of `densityManager.hpp`, and the map of
`concurrentBucketMap.hpp`.

Index and size types are natural numbers.  The value `-1` of a buffer index is `none`, and the
length of an interval whose ends are out of order, which only ever occurs where the code tests
for a positive length, is `0`.
-/

namespace BatchPMA

/-- A half-open interval of indices. -/
structure Interval where
  left : ℕ
  right : ℕ
  deriving DecidableEq, Repr

namespace Interval

/-- `Interval()`. -/
def zero : Interval := ⟨0, 0⟩

def length (i : Interval) : ℕ := i.right - i.left

def contains (i : Interval) (index : ℕ) : Prop := i.left ≤ index ∧ index < i.right

/-- The intersection, normalised to `[0, 0)` when it is empty. -/
def cut (i other : Interval) : Interval :=
  let result : Interval := ⟨max i.left other.left, min i.right other.right⟩
  if result.right ≤ result.left then zero else result

end Interval

inductive TaskType where
  | insertion
  | inverseMerge
  | doNothing
  deriving DecidableEq, Repr

/-- A node of the rebalancing hierarchy: its level and its number on that level. -/
structure RebalancingNode where
  level : ℕ
  index : ℕ
  deriving DecidableEq, Repr

structure RebalancingTask where
  pmaRange : Interval
  numberOfBlocks : ℕ
  rootNode : RebalancingNode
  deriving DecidableEq, Repr

/-- Points to the pma block at `pmaIndex` (`bufferIndex = none`) or to the buffer block with the
given number among the buffer blocks of that cell. -/
structure ExtendedPmaIndex where
  pmaIndex : ℕ
  bufferIndex : Option ℕ
  deriving DecidableEq, Repr

/-- `ExtendedPmaIndex()`. -/
def ExtendedPmaIndex.zero : ExtendedPmaIndex := ⟨0, none⟩

/-- The position among the blocks of one cell: the pma block comes before its buffer blocks. -/
def ExtendedPmaIndex.offset (i : ExtendedPmaIndex) : ℕ :=
  match i.bufferIndex with
  | none => 0
  | some b => b + 1

/-- `operator<`, lexicographic with `-1` below all buffer indices. -/
def ExtendedPmaIndex.less (i j : ExtendedPmaIndex) : Bool :=
  decide (i.pmaIndex < j.pmaIndex ∨ (i.pmaIndex = j.pmaIndex ∧ i.offset < j.offset))

structure PartialRebalancingTask where
  blockStart : ExtendedPmaIndex
  blockEnd : ExtendedPmaIndex
  outputOffset : ℕ
  deriving DecidableEq, Repr

/-- `PartialRebalancingTask()`. -/
def PartialRebalancingTask.zero : PartialRebalancingTask :=
  ⟨ExtendedPmaIndex.zero, ExtendedPmaIndex.zero, 0⟩

/-- The work assigned to one thread. -/
structure TaskInfo where
  blockForBatchSplitter : ℕ
  firstBatchElement : ℕ
  requiredWidth : ℕ
  startIndex : ℕ
  type : TaskType
  mergedTasks : ℕ
  mergedTaskIndex : ℕ
  numberOfBlocksWritten : ℕ
  rebalancingBlockRange : Interval
  rebalancingTaskRange : Interval
  firstRebalancingTask : PartialRebalancingTask
  lastRebalancingTask : PartialRebalancingTask
  deriving DecidableEq, Repr

/-- What a new array of tasks holds here.  The source leaves it uninitialised. -/
def TaskInfo.zero : TaskInfo :=
  ⟨0, 0, 0, 0, .insertion, 0, 0, 0, .zero, .zero, .zero, .zero⟩

/-! ## Density managers -/

/-- The `double` nearest to a number: `53` binary digits, ties to even. -/
def double (x : ℚ) : ℚ := Rounding.nearest 53 x

/-- A density manager, as the hierarchy sees it.  `maxBlocks level height aggregateWidth width` is
`static_cast<IndexType>(maxDensity(level, height) * aggregateWidth * width)`; which number the
products of `double`s come to is left to the manager. -/
structure DensityManager where
  maxBlocks : ℕ → ℕ → ℕ → ℕ → ℕ
  minRangeLength : ℕ → ℕ

/-- The product of a density with two widths, from left to right and truncated. -/
def truncatedProduct (density : ℚ) (aggregateWidth width : ℕ) : ℕ :=
  ⌊double (double (density * double aggregateWidth) * double width)⌋₊

/-- `1 - deltaTau * static_cast<double>(level) / static_cast<double>(height)`. -/
def maxDensity (deltaTau : ℚ) (level height : ℕ) : ℚ :=
  double (1 - double (double (deltaTau * double level) / double height))

/-- The shape shared by the three managers: the threshold falls linearly from `1` at level `0` to
`tauMax` at the root, and a global rebalance makes the array longer by `growingFactor`. -/
def densityLinear (growingFactor tauMax : ℚ) : DensityManager where
  maxBlocks level height := truncatedProduct (maxDensity (double (1 - tauMax)) level height)
  minRangeLength numberOfBlocks := ⌊double (double numberOfBlocks * growingFactor)⌋₊

def densityOne : DensityManager := densityLinear (double 1.8) (double 0.9)

def densityTwo : DensityManager := densityLinear (double 1.2) (double 0.9)

def densityThree : DensityManager := densityLinear (double 1.8) (double 0.7)

/-! ## The bucket map -/

/-- `ConcurrentBucketMap`: a finite map from node indices to a flag.  The buckets only decide the
order in which the entries are visited, so the map is kept as its set of keys and the set of
those keys whose flag is set. -/
structure BucketMap where
  keys : Finset ℕ
  flagged : Finset ℕ
  flagged_subset : flagged ⊆ keys

namespace BucketMap

def clear : BucketMap := ⟨∅, ∅, Finset.Subset.refl _⟩

/-- Adds the entry, or raises the flag of the entry that is already there. -/
def insert (m : BucketMap) (index : ℕ) (flag : Bool) : BucketMap where
  keys := Insert.insert index m.keys
  flagged := if flag then Insert.insert index m.flagged else m.flagged
  flagged_subset := by
    split
    · exact Finset.insert_subset_insert _ m.flagged_subset
    · exact m.flagged_subset.trans (Finset.subset_insert _ _)

/-- The mapped value of a key. -/
def flag (m : BucketMap) (index : ℕ) : Bool := decide (index ∈ m.flagged)

@[ext] lemma ext {m m' : BucketMap} (hk : m.keys = m'.keys) (hf : m.flagged = m'.flagged) :
    m = m' := by
  cases m; cases m'
  simp only [mk.injEq]
  exact ⟨hk, hf⟩

@[simp] lemma keys_clear : clear.keys = ∅ := rfl
@[simp] lemma flagged_clear : clear.flagged = ∅ := rfl

@[simp] lemma keys_insert (m : BucketMap) (index : ℕ) (flag : Bool) :
    (m.insert index flag).keys = Insert.insert index m.keys := rfl

lemma mem_flagged_insert {m : BucketMap} {index k : ℕ} {flag : Bool} :
    k ∈ (m.insert index flag).flagged ↔ (k = index ∧ flag = true) ∨ k ∈ m.flagged := by
  cases flag <;> simp [insert]

/-- Insertions commute, so a map filled by several threads does not depend on their order. -/
lemma insert_comm (m : BucketMap) (i j : ℕ) (a b : Bool) :
    (m.insert i a).insert j b = (m.insert j b).insert i a := by
  refine BucketMap.ext ?_ (Finset.ext fun k => ?_)
  · simp only [keys_insert]
    exact Finset.insert_comm _ _ _
  · simp only [mem_flagged_insert]
    tauto

end BucketMap

/-! ## Schedules -/

/-- The freedom the parallel regions leave: the order in which the threads of a region run, and
the order in which the entries of a bucket map are visited. -/
structure Schedule where
  threads : ℕ → ℕ → List ℕ
  threads_perm : ∀ region numberOfThreads,
    (threads region numberOfThreads).Perm (List.range numberOfThreads)
  visit : ℕ → Finset ℕ → List ℕ
  visit_nodup : ∀ level keys, (visit level keys).Nodup
  mem_visit : ∀ level keys k, k ∈ visit level keys ↔ k ∈ keys

/-- All threads and all entries in increasing order. -/
def Schedule.sequential : Schedule where
  threads _ numberOfThreads := List.range numberOfThreads
  threads_perm _ _ := List.Perm.refl _
  visit _ keys := (List.range (keys.sup id + 1)).filter (· ∈ keys)
  visit_nodup _ _ := List.Nodup.filter _ List.nodup_range
  mem_visit _ keys k := by
    simp only [List.mem_filter, List.mem_range, decide_eq_true_eq, and_iff_right_iff_imp]
    intro hk
    have := Finset.le_sup (f := id) hk
    simp only [id_eq] at this
    omega

end BatchPMA
