import BatchPMA.Model.Search

/-!
# Queries

`contains`, `find`, `lowerBound`, `rangeQuery` and the forward iterator of `iterators.hpp`, over
the view the two array classes share.  Loops that run an iterator to the end take a step count and
return `none` when it does not suffice, so that termination is something to prove.
-/

namespace BatchPMA

variable {K α : Type}

/-- `BlockSparseArrayIterator`, without the pointer to the array. -/
structure Iterator where
  blockIndex : ℕ
  elementIndex : ℕ
  deriving DecidableEq, Repr

namespace ArrayView

variable (p : BlockParams K α) (v : ArrayView K α)

/-- `begin()`. -/
def first : Iterator :=
  ⟨Scan.scanUp (fun i => v.empty i && decide (i ≠ v.size)) (v.size + 1) 0, 0⟩

/-- `end()`. -/
def last : Iterator := ⟨v.size, 0⟩

/-- `operator*`. -/
def deref (it : Iterator) : α := (v.pma it.blockIndex).get p it.elementIndex

/-- `operator++`. -/
def advance (it : Iterator) : Iterator :=
  if it.elementIndex + 1 < v.blockSize it.blockIndex then
    ⟨it.blockIndex, it.elementIndex + 1⟩
  else ⟨v.skipEmpty (it.blockIndex + 1) v.size, 0⟩

/-- `for (it; it != end(); ++it)`: the elements visited. -/
def iterate : ℕ → Iterator → Option (List α)
  | 0, _ => none
  | n + 1, it =>
      if it = v.last then some []
      else (iterate n (v.advance it)).map (v.deref p it :: ·)

variable [LinearOrder K]

def contains (e : K) : Bool :=
  match v.findContainingBlock e with
  | none => false
  | some blockIndex => !(v.pma blockIndex).isEmpty && (v.pma blockIndex).contains p e

/-- An iterator to the entry with the given key, or `end()`. -/
def find (e : K) : Iterator :=
  match v.findContainingBlock e with
  | none => v.last
  | some blockIndex =>
      if (v.pma blockIndex).isEmpty then v.last
      else
        let indexInBlock := (v.pma blockIndex).findIndex p e
        if v.blockSize blockIndex ≤ indexInBlock ∨
            p.keyOf ((v.pma blockIndex).get p indexInBlock) ≠ e then v.last
        else ⟨blockIndex, indexInBlock⟩

/-- An iterator to the first entry whose key is not below `e`, or `end()`. -/
def lowerBound (e : K) : Iterator :=
  let blockIndex := v.findBlockIndex e
  if v.size ≤ blockIndex then v.last
  else
    let indexInBlock := (v.pma blockIndex).findIndex p e
    if v.blockSize blockIndex ≤ indexInBlock then
      let next := v.findNext blockIndex v.size
      if v.size ≤ next then v.last else ⟨next, 0⟩
    else ⟨blockIndex, indexInBlock⟩

/-- The loop of `rangeQuery`: the elements the evaluator is called with. -/
def rangeLoop (right : K) : ℕ → Iterator → Option (List α)
  | 0, _ => none
  | n + 1, current =>
      if current ≠ v.last ∧ p.keyOf (v.deref p current) < right then
        (rangeLoop right n (v.advance current)).map (v.deref p current :: ·)
      else some []

def rangeQuery (n : ℕ) (left right : K) : Option (List α) :=
  v.rangeLoop p right n (v.lowerBound p left)

end ArrayView

end BatchPMA
