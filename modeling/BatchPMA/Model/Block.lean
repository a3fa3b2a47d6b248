import BatchPMA.Library.Scan

/-!
# Blocks of the packed memory array

`block.hpp` and `overallocatedBlock.hpp` hold the same class under two names: a `PmaEntry` is a
pointer to an array of `MaxSize` cells together with the key of its first element (`head`) and the
number of cells in use (`size`).  Cells at or behind `size` are *dead*.  They are not cleared in
the release build, and several operations read the first of them, so the model keeps the whole
cell array and not only the live prefix.

The order of `KEY_COMPARE` is the `LinearOrder` on the key type; `operator<` of the key type is a
separate parameter because the source uses it in one place instead of `KEY_COMPARE`.
-/

namespace BatchPMA

/-- The template parameters that blocks depend on.  `zero` is a value-initialised cell. -/
structure BlockParams (K α : Type) where
  keyOf : α → K
  nullKey : K
  zero : α
  operatorLess : K → K → Bool
  blockSize : ℕ

/-- `MinBlockSize = BlockSize / 2`. -/
def BlockParams.minBlockSize {K α : Type} (p : BlockParams K α) : ℕ := p.blockSize / 2

/-- A cell of the packed memory array: the block pointer (`none` for `nullptr`), the head and the
number of live elements. -/
structure PmaEntry (K α : Type) where
  block : Option (List α)
  head : K
  size : ℕ
  deriving DecidableEq

variable {K α : Type}

namespace PmaEntry

/-- `PmaEntry()`: the empty cell. -/
def null (p : BlockParams K α) : PmaEntry K α := ⟨none, p.nullKey, 0⟩

def isEmpty (b : PmaEntry K α) : Bool := b.block.isNone

/-- The cell array behind the block pointer. -/
def cells (b : PmaEntry K α) : List α := b.block.getD []

def get (p : BlockParams K α) (b : PmaEntry K α) (index : ℕ) : α := b.cells.getD index p.zero

/-- The elements of a block: its live cells. -/
def live (b : PmaEntry K α) : List α := b.cells.take b.size

/-- The cells at or behind `size`. -/
def dead (b : PmaEntry K α) : List α := b.cells.drop b.size

/-- `allocateBlock`: an array of value-initialised cells; head and size are left alone. -/
def allocateBlock (p : BlockParams K α) (b : PmaEntry K α) : PmaEntry K α :=
  { b with block := some (List.replicate p.blockSize p.zero) }

def updateHead (p : BlockParams K α) (b : PmaEntry K α) : PmaEntry K α :=
  { b with head := p.keyOf (b.get p 0) }

/-- The swap loop of `makeFree`: `n` more swaps of the carried value with the cell at `shift`. -/
def swapCells (p : BlockParams K α) : ℕ → List α → ℕ → α → List α
  | 0, cells, _, _ => cells
  | n + 1, cells, shift, carry =>
      swapCells p n (cells.set shift carry) (shift + 1) (cells.getD shift p.zero)

/-- Shifts the cells from `index` up to and including the first dead one to the right. -/
def makeFree (p : BlockParams K α) (b : PmaEntry K α) (index : ℕ) : PmaEntry K α :=
  { b with block := b.block.map fun c => swapCells p (b.size + 1 - index) c index p.zero }

/-- Updates the size but not the head. -/
def insertAtIndex (p : BlockParams K α) (b : PmaEntry K α) (e : α) (index : ℕ) : PmaEntry K α :=
  { (b.makeFree p index) with
    block := (b.makeFree p index).block.map fun c => c.set index e
    size := b.size + 1 }

section Search

variable [LinearOrder K]

/-- The first position from `searchStart` on whose key is not below `e`, at most `size`. -/
def linearSearch (p : BlockParams K α) (b : PmaEntry K α) (e : K) (searchStart : ℕ) : ℕ :=
  Scan.scanUp (fun i => decide (p.keyOf (b.get p i) < e)) (b.size - searchStart) searchStart

def findIndex (p : BlockParams K α) (b : PmaEntry K α) (e : K) : ℕ := b.linearSearch p e 0

def contains (p : BlockParams K α) (b : PmaEntry K α) (e : K) : Bool :=
  decide (b.linearSearch p e 0 < b.size ∧ e = p.keyOf (b.get p (b.linearSearch p e 0)))

/-- Returns the block, whether the element was inserted, and the position found for it.  The cell
at the insertion position is compared even when it is dead. -/
def insertWithIndex (p : BlockParams K α) (b : PmaEntry K α) (e : α) (searchStartIndex : ℕ) :
    PmaEntry K α × Bool × ℕ :=
  let pos := b.linearSearch p (p.keyOf e) searchStartIndex
  if p.keyOf (b.get p pos) = p.keyOf e then (b, false, pos)
  else
    let b' := b.insertAtIndex p e pos
    (if pos = 0 then b'.updateHead p else b', true, pos)

/-- The loop of `merge` from its second element on: each search starts where the last one
ended, and the head is not touched. -/
def mergeLoop (p : BlockParams K α) : List α → PmaEntry K α → ℕ → PmaEntry K α
  | [], b, _ => b
  | e :: es, b, start =>
      let pos := b.linearSearch p (p.keyOf e) start
      mergeLoop p es (if p.keyOf (b.get p pos) = p.keyOf e then b else b.insertAtIndex p e pos) pos

/-- Merges the given elements of a sorted batch into the block, one by one.  The source asserts
that there is at least one. -/
def merge (p : BlockParams K α) (b : PmaEntry K α) : List α → PmaEntry K α
  | [] => b
  | e :: es =>
      let pos := b.linearSearch p (p.keyOf e) 0
      let b' := if p.keyOf (b.get p pos) = p.keyOf e then b
        else if pos = 0 then (b.insertAtIndex p e pos).updateHead p else b.insertAtIndex p e pos
      mergeLoop p es b' pos

/-- The cells behind `index` move forward by one place. -/
def moveForward (p : BlockParams K α) (b : PmaEntry K α) (index : ℕ) : PmaEntry K α :=
  { b with
    block := some ((List.range (b.size - 1 - index)).foldl
      (fun cells i => cells.set (index + i) (cells.getD (index + i + 1) p.zero)) b.cells) }

/-- Returns the block and whether the element was there. -/
def remove (p : BlockParams K α) (b : PmaEntry K α) (e : α) : PmaEntry K α × Bool :=
  let pos := b.linearSearch p (p.keyOf e) 0
  if pos < b.size ∧ p.keyOf (b.get p pos) = p.keyOf e then
    let b' : PmaEntry K α := { b.moveForward p pos with size := b.size - 1 }
    (b'.updateHead p, true)
  else (b, false)

end Search

/-- Splits a full block: the upper half is copied to a new block, and the cells it was copied from
stay behind as dead cells. -/
def split (p : BlockParams K α) (b : PmaEntry K α) : PmaEntry K α × PmaEntry K α :=
  let splitPosition := p.blockSize / 2
  let moved := b.cells.drop splitPosition
  let fresh := (PmaEntry.null p).allocateBlock p
  let right : PmaEntry K α :=
    { fresh with block := some (moved ++ fresh.cells.drop moved.length), size := splitPosition }
  ({ b with size := splitPosition }, right.updateHead p)

end PmaEntry

end BatchPMA
