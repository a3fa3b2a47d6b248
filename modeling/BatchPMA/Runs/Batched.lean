import BatchPMA.Insertion.Phase
import BatchPMA.Queries.Refinement

/-!
# Runs of the batched array refine an ordered map

The two phases together: a call of `insertBatch` merges its batch into the content, where elements
that are already there win, and leads back to what the next call starts from.  Besides a sorted
batch this takes splitters that are far enough apart and room for the union in the tree as it is in
front of the call.  For runs that stay below the size of the initial tree both can be read off the
batches alone.
-/

namespace BatchPMA

open KeyedUnion Ranges RebalancingManager

variable {K α : Type} [LinearOrder K]

namespace BatchedSparseArray

variable {p : BatchedParams K α} {r s : BatchedSparseArray K α} {batch : List α} {n : ℕ}

/-! ## Between two calls -/

/-- What holds between two calls of `insertBatch`, of the cells and of the blocks in them. -/
structure Sound (p : BatchedParams K α) (s : BatchedSparseArray K α) : Prop where
  quiet : s.Quiescent p
  blocks : BlocksSound p.toBlockParams (s.blocks p)

/-- A freshly constructed hierarchy describes the empty array. -/
lemma treeValid_create (p : BatchedParams K α) (numThreads : ℕ) :
    (create p numThreads).TreeValid p where
  consistent := ⟨create_levelsValid _ _ _, fun _ _ _ _ => rfl,
    fun i hi => absurd hi (Finset.notMem_empty i), fun i hi => absurd hi (Finset.notMem_empty i)⟩
  flagsClear := ⟨fun _ _ _ => rfl, rfl⟩
  leaves i _ _ := by
    have hnone : ∀ c, ((create p numThreads).sdsView p).blocksAt c = 0 := by
      intro c
      change (if (create p numThreads).empty p c then 0 else 1) +
        (create p numThreads).numberOfBufferBlocks c = 0
      have hempty : (create p numThreads).empty p c = true := if_pos (Nat.zero_le c)
      rw [if_pos hempty, Nat.zero_add, numberOfBufferBlocks]
      split <;> rfl
    rw [trueBlocks, SdsView.blocksIn, Finset.sum_eq_zero fun c _ => hnone c]
    rfl
  leftover i hi := absurd hi (Finset.notMem_empty i)
  width_eq := rfl
  density_eq := rfl
  size_eq := rfl
  size_le := by
    change 0 / p.segmentWidth + 1 ≤ 2 ^ logInitialHierarchyCapacity
    rw [Nat.zero_div]
    exact Nat.one_le_two_pow

/-- The initial state. -/
lemma quiescent_create (p : BatchedParams K α) {numThreads : ℕ} (hpos : 0 < numThreads) :
    (create p numThreads).Quiescent p where
  tree := treeValid_create p numThreads
  unmarked := rfl
  flagged i hi := absurd hi (Finset.notMem_empty i)
  cell_null _ _ := rfl
  swap_null _ := rfl
  buffer_null _ := rfl
  pointers _ := rfl
  swapCapacity_eq := rfl
  size_lt := Nat.two_pow_pos _
  aligned := Or.inl rfl
  first := Or.inl rfl
  threads_pos := hpos

lemma blocks_create (p : BatchedParams K α) (numThreads : ℕ) :
    (create p numThreads).blocks p = [] := rfl

lemma sound_create (p : BatchedParams K α) {numThreads : ℕ} (hpos : 0 < numThreads) :
    Sound p (create p numThreads) := by
  refine ⟨quiescent_create p hpos, ?_⟩
  rw [blocks_create]
  exact ⟨fun b hb => absurd hb List.not_mem_nil, List.Pairwise.nil, trivial, Or.inl (Nat.zero_le 1)⟩

/-! ## Calls -/

/-- The arguments of a call of `insertBatch`, and the orders in which its tasks run. -/
structure Call (α : Type) where
  batch : List α
  sched : Schedule

/-- A sorted batch without the null key and with an element for every thread, which the state in
front of the call can take: buffer ranges that are wide enough, and room in the tree for as many
blocks as the union can have. -/
structure Call.Allowed (p : BatchedParams K α) (s : BatchedSparseArray K α) (call : Call α) :
    Prop where
  increasing : Increasing p.toBlockParams call.batch
  null_lt : ∀ x ∈ call.batch, p.nullKey < p.keyOf x
  threads_le : s.numberOfThreads ≤ call.batch.length
  widths : s.WidthsSuffice p call.batch
  room : (mergeKeyed p.keyOf (elements (s.blocks p)) call.batch).length ≤
    p.minBlockSize * s.rebalancingManager.threshold s.rebalancingManager.logCapacity

/-- Room in front of a call is room in front of the rebalancing phase. -/
lemma rootRoom_of_union (hp : p.Usable) (hq : s.Quiescent p) (hr : InsertionResult p s batch r)
    (hmanager : r.rebalancingManager = s.rebalancingManager)
    (hroom : (elements (r.blocks p)).length ≤
      p.minBlockSize * s.rebalancingManager.threshold s.rebalancingManager.logCapacity) :
    r.RootRoom p := by
  have hmin : 0 < p.minBlockSize := by
    have := hp.blockSize_ge
    change 0 < p.blockSize / 2
    omega
  rw [RootRoom, hmanager]
  rcases hr.sound.large with hone | hlarge
  · have htwo := hq.tree.two_mul_le_threshold hp.toValid (le_refl s.rebalancingManager.logCapacity)
    have hpow : 1 ≤ 2 ^ s.rebalancingManager.logCapacity := Nat.one_le_two_pow
    omega
  · exact Nat.le_of_mul_le_mul_left (le_trans (le_length_elements hr.sound.valid hlarge) hroom) hmin

/-- What holds of the state between the phases of a call. -/
structure Halfway (p : BatchedParams K α) (s : BatchedSparseArray K α) (batch : List α)
    (r : BatchedSparseArray K α) : Prop where
  input : s.PhaseInput p batch
  done : s.PhaseDone p batch r
  result : s.InsertionResult p batch r
  ready : r.Rebalanceable p
  content : elements (r.blocks p) = mergeKeyed p.keyOf (elements (s.blocks p)) batch

lemma Sound.halfway (h : Sound p s) (hp : p.Usable) {call : Call α} (hc : call.Allowed p s) :
    s.Halfway p call.batch (s.insertionPhase p call.batch call.sched) := by
  have hin : s.PhaseInput p call.batch :=
    ⟨hp, h.quiet, h.blocks, hc.increasing, hc.null_lt, hc.threads_le, hc.widths⟩
  have hdone := hin.phaseDone call.sched
  have hresult := hin.result hdone
  have hcontent := hresult.union.unique (isUnion_mergeKeyed h.blocks.increasing hc.increasing)
  refine ⟨hin, hdone, hresult, hresult.rebalanceable hin hdone ?_, hcontent⟩
  refine rootRoom_of_union hp h.quiet hresult (hin.unchanged hdone).1 ?_
  rw [hcontent]
  exact hc.room

/-- **One call.**  The union of content and batch is the new content, and the next call can start
from the result. -/
theorem Sound.insertBatch (h : Sound p s) (hp : p.Usable) {call : Call α} (hc : call.Allowed p s) :
    let r := s.insertBatch p call.batch call.sched
    Sound p r ∧
      elements (r.blocks p) = mergeKeyed p.keyOf (elements (s.blocks p)) call.batch ∧
      r.numberOfThreads = s.numberOfThreads ∧
      s.rebalancingManager.logCapacity ≤ r.rebalancingManager.logCapacity := by
  have hmid := h.halfway hp hc
  obtain ⟨hmanager, -, -, -, -, hthreads⟩ := hmid.input.unchanged hmid.done
  have hblocks := hmid.ready.blocks_rebalancingPhase call.sched
  change (s.insertBatch p call.batch call.sched).blocks p = _ at hblocks
  intro r
  refine ⟨⟨hmid.ready.quiescent call.sched, ?_⟩, ?_, ?_, ?_⟩
  · rw [hblocks]
    exact hmid.result.sound
  · rw [hblocks, hmid.content]
  · exact (hmid.ready.rebalanced call.sched).numberOfThreads_eq.trans hthreads
  · rw [← hmanager]
    exact hmid.ready.logCapacity_le call.sched

/-! ## Runs -/

/-- The array behind some calls. -/
def run (p : BatchedParams K α) (s : BatchedSparseArray K α) (calls : List (Call α)) :
    BatchedSparseArray K α :=
  calls.foldl (fun s call => s.insertBatch p call.batch call.sched) s

/-- Every call is allowed in the state that it meets. -/
def AllowedRun (p : BatchedParams K α) : BatchedSparseArray K α → List (Call α) → Prop
  | _, [] => True
  | s, call :: calls => call.Allowed p s ∧ AllowedRun p (s.insertBatch p call.batch call.sched) calls

lemma run_append (s : BatchedSparseArray K α) (calls calls' : List (Call α)) :
    run p s (calls ++ calls') = run p (run p s calls) calls' := List.foldl_append

lemma allowedRun_append : ∀ {calls calls' : List (Call α)} {s : BatchedSparseArray K α},
    AllowedRun p s (calls ++ calls') ↔
      AllowedRun p s calls ∧ AllowedRun p (run p s calls) calls'
  | [], _, _ => ⟨fun h => ⟨trivial, h⟩, And.right⟩
  | _ :: calls, calls', _ => by
      rw [List.cons_append, AllowedRun, AllowedRun, @allowedRun_append calls calls', and_assoc]
      rfl

/-- The elements of all batches, each key with its first element. -/
def allBatches (p : BatchedParams K α) (calls : List (Call α)) : List α :=
  mergeKeyed p.keyOf [] (calls.flatMap Call.batch)

lemma allBatches_concat (calls : List (Call α)) (call : Call α) :
    allBatches p (calls ++ [call]) = mergeKeyed p.keyOf (allBatches p calls) call.batch := by
  rw [allBatches, allBatches, List.flatMap_append, mergeKeyed_append, List.flatMap_singleton]

/-- **Runs.**  The invariant holds in every state reached, and nothing is lost. -/
theorem Sound.run (hp : p.Usable) : ∀ (calls : List (Call α)) {s : BatchedSparseArray K α},
    Sound p s → AllowedRun p s calls →
    let r := BatchedSparseArray.run p s calls
    Sound p r ∧
      elements (r.blocks p) =
        mergeKeyed p.keyOf (elements (s.blocks p)) (calls.flatMap Call.batch) ∧
      r.numberOfThreads = s.numberOfThreads := by
  intro calls
  induction calls with
  | nil => exact fun h _ => ⟨h, rfl, rfl⟩
  | cons call calls ih =>
      intro s h hallowed
      obtain ⟨hsound, hcontent, hthreads, -⟩ := h.insertBatch hp hallowed.1
      obtain ⟨hrest, hcontent', hthreads'⟩ := ih hsound hallowed.2
      refine ⟨hrest, ?_, hthreads'.trans hthreads⟩
      rw [List.flatMap_cons, mergeKeyed_append, ← hcontent]
      exact hcontent'

/-- A run from the initial state. -/
lemma sound_run (hp : p.Usable) (hpos : 0 < n) {calls : List (Call α)}
    (hallowed : AllowedRun p (create p n) calls) : Sound p (run p (create p n) calls) ∧
      elements ((run p (create p n) calls).blocks p) = allBatches p calls ∧
      (run p (create p n) calls).numberOfThreads = n := by
  have h := Sound.run hp calls (sound_create p hpos) hallowed
  rw [blocks_create, elements_nil] at h
  exact h

/-! ## Runs that fit into the initial tree -/

/-- What a caller can see of an allowed call: a sorted batch without the null key, and as many
elements for every thread as a block has at least. -/
structure Call.Suits (p : BatchedParams K α) (n : ℕ) (call : Call α) : Prop where
  increasing : Increasing p.toBlockParams call.batch
  null_lt : ∀ x ∈ call.batch, p.nullKey < p.keyOf x
  threads_le : n ≤ call.batch.length
  apart : n = 1 ∨ n * p.minBlockSize ≤ call.batch.length

lemma Call.Suits.allowed (h : Sound p s) (hp : p.Usable) {call : Call α}
    (hc : call.Suits p s.numberOfThreads)
    (htree : logInitialHierarchyCapacity ≤ s.rebalancingManager.logCapacity)
    (hfew : (elements (s.blocks p)).length + call.batch.length ≤
      p.minBlockSize * (2 * 2 ^ logInitialHierarchyCapacity)) : call.Allowed p s := by
  have hins : s.Insertable p call.batch :=
    ⟨h.quiet.valid_view h.blocks, hc.increasing, h.quiet.threads_pos, hc.threads_le⟩
  refine ⟨hc.increasing, hc.null_lt, hc.threads_le, hins.widthsSuffice hp.less hc.apart, ?_⟩
  calc (mergeKeyed p.keyOf (elements (s.blocks p)) call.batch).length
      ≤ (elements (s.blocks p)).length + call.batch.length :=
        length_mergeKeyed_le h.blocks.increasing
    _ ≤ p.minBlockSize * (2 * 2 ^ logInitialHierarchyCapacity) := hfew
    _ ≤ p.minBlockSize * (2 * 2 ^ s.rebalancingManager.logCapacity) :=
        Nat.mul_le_mul_left _ (Nat.mul_le_mul_left _ (Nat.pow_le_pow_right (by decide) htree))
    _ ≤ p.minBlockSize * s.rebalancingManager.threshold s.rebalancingManager.logCapacity :=
        Nat.mul_le_mul_left _ (h.quiet.tree.two_mul_le_threshold hp.toValid (le_refl _))

/-- The tree does not shrink, so a small content has room in every state. -/
lemma allowedRun_of_few (hp : p.Usable) : ∀ (calls : List (Call α)) {s : BatchedSparseArray K α},
    Sound p s → logInitialHierarchyCapacity ≤ s.rebalancingManager.logCapacity →
    (∀ call ∈ calls, call.Suits p s.numberOfThreads) →
    (elements (s.blocks p)).length + (calls.flatMap Call.batch).length ≤
      p.minBlockSize * (2 * 2 ^ logInitialHierarchyCapacity) →
    AllowedRun p s calls := by
  intro calls
  induction calls with
  | nil => exact fun _ _ _ _ => trivial
  | cons call calls ih =>
      intro s h htree hcalls hfew
      rw [List.forall_mem_cons] at hcalls
      rw [List.flatMap_cons, List.length_append] at hfew
      have hallowed := hcalls.1.allowed h hp htree (by omega)
      obtain ⟨hsound, hcontent, hthreads, hgrown⟩ := h.insertBatch hp hallowed
      refine ⟨hallowed, ih hsound (le_trans htree hgrown) (by rw [hthreads]; exact hcalls.2) ?_⟩
      have hlen : (mergeKeyed p.keyOf (elements (s.blocks p)) call.batch).length ≤
          (elements (s.blocks p)).length + call.batch.length :=
        length_mergeKeyed_le h.blocks.increasing
      rw [hcontent]
      omega

lemma allowedRun_create (hp : p.Usable) (hpos : 0 < n) {calls : List (Call α)}
    (hcalls : ∀ call ∈ calls, call.Suits p n)
    (hfew : (calls.flatMap Call.batch).length ≤
      p.minBlockSize * (2 * 2 ^ logInitialHierarchyCapacity)) :
    AllowedRun p (create p n) calls :=
  allowedRun_of_few hp calls (sound_create p hpos) (le_refl _) hcalls (by
    rw [blocks_create, elements_nil, List.length_nil, Nat.zero_add]
    exact hfew)

/-! ## The queries -/

/-- All blocks are in front of the size. -/
lemma Quiescent.blocks_eq_itemsIn (h : s.Quiescent p) :
    s.blocks p = itemsIn (s.ownBlock p) 0 s.size := by
  have hbehind : itemsIn (s.ownBlock p) s.size (max 1 s.size) = [] :=
    itemsIn_eq_nil fun c hc _ => ownBlock_of_true (if_pos hc)
  rw [blocks, itemsIn_congr fun c _ _ => h.cellBlocks_eq c,
    itemsIn_append _ (Nat.zero_le s.size) (le_max_right 1 s.size), hbehind, List.append_nil]

lemma Quiescent.length_blocks_le (h : s.Quiescent p) : (s.blocks p).length ≤ s.size := by
  rw [h.blocks_eq_itemsIn]
  refine length_itemsIn_le fun c _ _ => ?_
  rw [ownBlock]
  split
  · exact Nat.zero_le 1
  · exact le_refl 1

/-- The content of the view is the content of the blocks. -/
lemma Quiescent.content_view (h : s.Quiescent p) : (s.view p).content = elements (s.blocks p) := by
  have hcell : ∀ c, (s.pma c).live = elements (s.ownBlock p c) := by
    intro c
    cases hempty : s.empty p c with
    | true =>
        rw [h.cell_null c hempty, ownBlock_of_true hempty]
        rfl
    | false => rw [ownBlock, hempty, if_neg (by simp), elements_cons, elements_nil, List.append_nil]
  rw [ArrayView.content, h.blocks_eq_itemsIn, itemsIn, Nat.sub_zero, ← List.range_eq_range',
    elements, List.flatMap_assoc]
  exact List.flatMap_congr fun c _ => hcell c

/-- **End to end.**  After any allowed calls, every query of the array is the corresponding
operation of the ordered map of all batches. -/
theorem run_refinesMap (p : BatchedParams K α) (calls : List (Call α)) (hp : p.Usable)
    (hpos : 0 < n) (hallowed : AllowedRun p (create p n) calls) :
    ((run p (create p n) calls).view p).RefinesOrderedMap p.toBlockParams (allBatches p calls) := by
  obtain ⟨hsound, hcontent, -⟩ := sound_run hp hpos hallowed
  rw [← hcontent, ← hsound.quiet.content_view]
  exact (hsound.quiet.valid_view hsound.blocks).refinesOrderedMap

/-- Two calls with two threads: the first fills the empty array, the second repeats a key. -/
def twoBatches : List (Call ℕ) :=
  [⟨[2, 4, 6, 8], Schedule.sequential⟩, ⟨[1, 4, 5, 9], Schedule.sequential⟩]

lemma usable_keyOnlyBatched {b w : ℕ} (heven : 2 ∣ b) (hb : 4 ≤ b) (hw : 4 ≤ w)
    (hw' : w < 2 ^ 53) : (keyOnlyBatched b w).Usable :=
  ⟨BatchedParams.valid_of_density hw hw' hb heven (Or.inl rfl), rfl, fun _ _ => rfl⟩

lemma usable_keyOnlyBatched_four : (keyOnlyBatched 4 4).Usable :=
  usable_keyOnlyBatched (by decide) (by decide) (by decide) (by decide)

lemma twoBatches_suit : ∀ call ∈ twoBatches, call.Suits (keyOnlyBatched 4 4) 2 := by
  simp only [twoBatches, List.forall_mem_cons]
  refine ⟨⟨by simp [Increasing, keyOnlyBatched, keyOnlyBlocks], by decide, by decide,
    Or.inr (by decide)⟩, ⟨by simp [Increasing, keyOnlyBatched, keyOnlyBlocks], by decide,
    by decide, Or.inr (by decide)⟩, fun _ h => absurd h List.not_mem_nil⟩

lemma twoBatches_allowed : AllowedRun (keyOnlyBatched 4 4) (create (keyOnlyBatched 4 4) 2)
    twoBatches :=
  allowedRun_create usable_keyOnlyBatched_four (by decide)
    twoBatches_suit (by decide)

theorem run_refinesMap_twoBatches :
    let p := keyOnlyBatched 4 4
    ((run p (create p 2) twoBatches).view p).RefinesOrderedMap p.toBlockParams
      [1, 2, 4, 5, 6, 8, 9] :=
  run_refinesMap (keyOnlyBatched 4 4) twoBatches
    usable_keyOnlyBatched_four (by decide) twoBatches_allowed

end BatchedSparseArray

end BatchPMA
