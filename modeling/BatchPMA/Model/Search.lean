import BatchPMA.Model.Block

/-!
# Searching an array of blocks with holes

`batchedSparseArray.hpp` and `overallocatedBatchedSparseArray.hpp` share their search routines
word for word; they differ only in `empty`, which looks at the array bound in one of the two
classes.  The routines are therefore written once, over what they read: the bound `size`, the
predicate `empty` and the array `pma` of entries.

Indices are natural numbers.  The value `-1` of the source (no candidate, no containing block) is
`none`, and an inclusive right end `right` of the source is kept as the exclusive end `right + 1`,
which is never negative.
-/

namespace BatchPMA

variable {K α : Type}

/-- What the search routines of the two array classes read. -/
structure ArrayView (K α : Type) where
  size : ℕ
  pma : ℕ → PmaEntry K α
  empty : ℕ → Bool

/-- `BinarySearchCutoff`: intervals up to this length are searched linearly. -/
def binarySearchCutoff : ℕ := 100

namespace ArrayView

variable (v : ArrayView K α)

def head (index : ℕ) : K := (v.pma index).head

def blockSize (index : ℕ) : ℕ := (v.pma index).size

/-- `while (current < upperLimit && empty(current)) ++current;` -/
def skipEmpty (current upperLimit : ℕ) : ℕ := Scan.scanUp v.empty (upperLimit - current) current

/-- The next larger non-empty entry below `upperLimit`. -/
def findNext (start upperLimit : ℕ) : ℕ := v.skipEmpty (start + 1) upperLimit

/-- The next smaller non-empty entry from `lowerLimit` on; `lowerLimit` itself is not tested. -/
def findPrevious (start lowerLimit : ℕ) : ℕ :=
  Scan.scanDown v.empty (start - 1 - lowerLimit) (start - 1)

/-- `prev = mid; while (prev >= left && empty(prev)) --prev;`, with `none` for `prev < left`. -/
def lastNonEmpty (left mid : ℕ) : Option ℕ := Scan.scanDown? v.empty (mid + 1 - left) mid

variable [LinearOrder K]

/-- The loop of `linearSearch`; `n` bounds the number of blocks still in front of `upper`. -/
def linearSearchLoop (e : K) (upper : ℕ) : ℕ → ℕ → ℕ
  | 0, firstLarger => firstLarger
  | n + 1, firstLarger =>
      if firstLarger < upper ∧ v.empty firstLarger = false ∧
          (v.head firstLarger < e ∨ e = v.head firstLarger) then
        linearSearchLoop e upper n (v.findNext firstLarger upper)
      else firstLarger

/-- The last block in `[lower, upper)` with head `<= e`. -/
def linearSearch (e : K) (lower upper : ℕ) : ℕ :=
  let firstLarger := v.findNext lower upper
  v.findPrevious (v.linearSearchLoop e upper (upper - firstLarger) firstLarger) lower

/-- What the binary search of `findContainingBlock` ends with: a block with head `e`, or the
interval that is left for the linear search together with the candidate. -/
inductive SearchResult where
  | found (prev : ℕ)
  | narrowed (left right : ℕ) (candidate : Option ℕ)

/-- The loop of `findContainingBlock` on the interval `[left, right)`. -/
def containingLoop (e : K) : ℕ → ℕ → ℕ → Option ℕ → SearchResult
  | 0, left, right, candidate => .narrowed left right candidate
  | n + 1, left, right, candidate =>
      if left + binarySearchCutoff + 1 < right then
        let mid := (left + (right - 1)) / 2
        match v.lastNonEmpty left mid with
        | none => containingLoop e n (mid + 1) right candidate
        | some prev =>
            if e < v.head prev then containingLoop e n left prev candidate
            else if v.head prev < e then containingLoop e n (prev + 1) right (some prev)
            else .found prev
      else .narrowed left right candidate

/-- The index of the block that has to contain `e`, if it exists. -/
def findContainingBlock (e : K) : Option ℕ :=
  match v.containingLoop e v.size 0 v.size none with
  | .found prev => some prev
  | .narrowed left right candidate =>
      let result := v.linearSearch e left right
      if v.empty result = true ∨ e < v.head result then candidate else some result

/-- The block that `e` has to be inserted into. -/
def findBlockIndex (e : K) : ℕ :=
  match v.findContainingBlock e with
  | none => v.skipEmpty 0 v.size
  | some containingBlock => containingBlock

end ArrayView

end BatchPMA
