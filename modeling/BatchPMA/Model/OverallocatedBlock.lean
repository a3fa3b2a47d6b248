import BatchPMA.Model.Block

/-!
# What blocks of the overallocated array can do in addition

`overallocatedBlock.hpp` has the operations of `block.hpp` and four more: a merge that works from
the back, and the operations that even out the sizes of two neighbouring blocks.

`mergeFaster` mixes two index types of 16 bits.  The positions it runs down to `-1` are signed, so
that in a block of more than `2 ^ 15` elements they wrap and lie in front of the block; sizes and
counts are unsigned.
-/

namespace BatchPMA

variable {K α : Type}

/-- The conversion to `SignedBlockIndexType`. -/
def toSigned (i : ℤ) : ℤ := i.bmod (2 ^ 16)

/-- The conversion to `BlockIndexType` and `BlockSizeType`. -/
def toUnsigned (i : ℤ) : ℕ := (i % 2 ^ 16).toNat

namespace PmaEntry

/-- The local variables of `mergeFaster`. -/
structure MergeFasterState (K α : Type) where
  cells : List α
  blockEnd : ℤ
  batchEnd : ℤ
  writeIndex : ℤ
  numberOfWrites : ℕ
  lastWrittenKey : K

namespace MergeFasterState

variable [LinearOrder K] (p : BlockParams K α) (batch : List α)

/-- `(*block)[writeIndex] = e; ++numberOfWrites; lastWrittenKey = …; --writeIndex;`  A write in
front of the block changes none of its cells. -/
def write (st : MergeFasterState K α) (e : α) : MergeFasterState K α :=
  { st with
    cells := if 0 ≤ st.writeIndex then st.cells.set st.writeIndex.toNat e else st.cells
    writeIndex := toSigned (st.writeIndex - 1)
    numberOfWrites := toUnsigned (st.numberOfWrites + 1)
    lastWrittenKey := p.keyOf e }

/-- `while (batchEnd > 0 && batch[batchEnd] == batch[batchEnd - 1]) --batchEnd;` -/
def firstOccurrence : ℕ → ℕ
  | 0 => 0
  | n + 1 =>
      if p.keyOf (batch.getD (n + 1) p.zero) = p.keyOf (batch.getD n p.zero) then
        firstOccurrence n
      else n + 1

/-- One iteration of the first loop: the larger one of the two last elements is written, the one
from the block if their keys are equal. -/
def step (st : MergeFasterState K α) : MergeFasterState K α :=
  let x := st.cells.getD (toUnsigned st.blockEnd) p.zero
  let y := batch.getD st.batchEnd.toNat p.zero
  if p.keyOf x < p.keyOf y then
    if p.keyOf y ≠ st.lastWrittenKey then
      let first := firstOccurrence p batch st.batchEnd.toNat
      { st.write p (batch.getD first p.zero) with batchEnd := (first : ℤ) - 1 }
    else { st with batchEnd := st.batchEnd - 1 }
  else if p.keyOf x ≠ st.lastWrittenKey then
    { st.write p x with blockEnd := st.blockEnd - 1 }
  else { st with blockEnd := st.blockEnd - 1 }

/-- `while (blockEnd >= 0 && batchEnd >= 0)`, for `n` iterations at most. -/
def loop : ℕ → MergeFasterState K α → MergeFasterState K α
  | 0, st => st
  | n + 1, st => if 0 ≤ st.blockEnd ∧ 0 ≤ st.batchEnd then loop n (st.step p batch) else st

/-- One iteration of the second loop. -/
def restStep (st : MergeFasterState K α) : MergeFasterState K α :=
  let y := batch.getD st.batchEnd.toNat p.zero
  if p.keyOf y ≠ st.lastWrittenKey then { st.write p y with batchEnd := st.batchEnd - 1 }
  else { st with batchEnd := st.batchEnd - 1 }

/-- `while (batchEnd >= 0)`, for `n` iterations at most. -/
def restLoop : ℕ → MergeFasterState K α → MergeFasterState K α
  | 0, st => st
  | n + 1, st => if 0 ≤ st.batchEnd then restLoop n (st.restStep p batch) else st

/-- The block element in front of the written part has the key that was written last. -/
def duplicate (st : MergeFasterState K α) : Bool :=
  decide (0 ≤ st.blockEnd ∧
    p.keyOf (st.cells.getD (toUnsigned st.blockEnd) p.zero) = st.lastWrittenKey)

def emptyRegionStart (st : MergeFasterState K α) : ℕ :=
  toUnsigned (st.blockEnd + 1 - if st.duplicate p then 1 else 0)

/-- The first value of `numberOfDuplicates`: of `total` elements, those that were read and not
written.  The assertion compares it with `dupl`. -/
def numberOfSkipped (st : MergeFasterState K α) (total : ℕ) : ℕ :=
  toUnsigned (total - (st.blockEnd + 1) - st.numberOfWrites)

def numberOfDuplicates (st : MergeFasterState K α) (total : ℕ) : ℕ :=
  toUnsigned (st.numberOfSkipped total + if st.duplicate p then 1 else 0)

/-- Moves the written elements forward to where the block ends. -/
def shiftForward (st : MergeFasterState K α) (total : ℕ) : List α :=
  if 0 < st.numberOfDuplicates p total then
    (List.range st.numberOfWrites).foldl (fun cells i =>
      cells.set (st.emptyRegionStart p + i)
        (cells.getD (toUnsigned (st.emptyRegionStart p + i + st.numberOfDuplicates p total : ℕ))
          p.zero)) st.cells
  else st.cells

/-- `if (writeIndex >= emptyRegionStart) writeIndex -= numberOfDuplicates;` -/
def shiftedWriteIndex (st : MergeFasterState K α) (total : ℕ) : ℤ :=
  if st.emptyRegionStart p ≤ st.writeIndex then
    toSigned (st.writeIndex - st.numberOfDuplicates p total)
  else st.writeIndex

end MergeFasterState

variable [LinearOrder K] (p : BlockParams K α)

/-- What the two loops start with. -/
def mergeFasterStart (b : PmaEntry K α) (batch : List α) : MergeFasterState K α :=
  ⟨b.cells, toSigned (b.size - 1), toSigned (batch.length - 1),
    toSigned (b.size + batch.length - 1), 0, p.nullKey⟩

/-- The two loops.  Each iteration uses up at least one element. -/
def mergeFasterEnd (b : PmaEntry K α) (batch : List α) : MergeFasterState K α :=
  MergeFasterState.restLoop p batch batch.length
    (MergeFasterState.loop p batch (b.size + batch.length) (b.mergeFasterStart p batch))

/-- Merges the given elements of a sorted batch into the block, from the back. -/
def mergeFaster (b : PmaEntry K α) (batch : List α) : PmaEntry K α :=
  let total := b.size + batch.length
  let st := b.mergeFasterEnd p batch
  let merged : PmaEntry K α :=
    { b with
      block := some (st.shiftForward p total)
      size := toUnsigned (total - st.numberOfDuplicates p total) }
  if st.shiftedWriteIndex p total + 1 = 0 then merged.updateHead p else merged

/-! ## Two neighbouring blocks -/

section

omit [LinearOrder K]

/-- Takes all elements of a block of smaller elements.  The loops overwrite a prefix of the
cells. -/
def mergeSmaller (b other : PmaEntry K α) : PmaEntry K α :=
  let cells := other.cells.take other.size ++ b.cells.take b.size
  let merged : PmaEntry K α :=
    { b with
      block := some (cells ++ b.cells.drop cells.length)
      size := b.size + other.size }
  merged.updateHead p

/-- Moves as many of the smallest elements of `right` to the end of the block as it needs to have
`MinSize` elements. -/
def steal (b right : PmaEntry K α) : PmaEntry K α × PmaEntry K α :=
  let numberOfElementsNeeded := p.minBlockSize - b.size
  let cells := b.cells.take b.size ++ right.cells.take numberOfElementsNeeded
  let rest := (right.cells.take right.size).drop numberOfElementsNeeded
  let shrunk : PmaEntry K α :=
    { right with
      block := some (rest ++ right.cells.drop rest.length)
      size := right.size - numberOfElementsNeeded }
  ({ b with
      block := some (cells ++ b.cells.drop cells.length)
      size := b.size + numberOfElementsNeeded }, shrunk.updateHead p)

/-- Moves as many of the largest elements of `left` to the front of the block as it needs to have
`MinSize` elements. -/
def stealFromSmaller (b left : PmaEntry K α) : PmaEntry K α × PmaEntry K α :=
  let numberOfElementsNeeded := p.minBlockSize - b.size
  let cells := (left.cells.take left.size).drop (left.size - numberOfElementsNeeded) ++
    b.cells.take b.size
  let grown : PmaEntry K α :=
    { b with
      block := some (cells ++ b.cells.drop cells.length)
      size := b.size + numberOfElementsNeeded }
  (grown.updateHead p, { left with size := left.size - numberOfElementsNeeded })

end

end PmaEntry

end BatchPMA
