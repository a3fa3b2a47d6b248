import BatchPMA.Runs.Sound
import BatchPMA.Queries.Refinement

/-!
# Runs of the overallocated array refine an ordered map

The abstract machine of this module is a list that is strictly increasing in key; a call merges a
batch into it, where elements that are already there win.  The array follows it exactly, for all
numbers of threads, orders of the tasks and choices of the path, but for one corner: if several
threads insert and the union has fewer elements than a block has to have, both machines end up
empty.  The condition under which nothing is ever lost is exact as well.
-/

namespace BatchPMA

open KeyedUnion Ranges

variable {K α : Type} [LinearOrder K]

namespace OverallocatedBatchedSparseArray

variable {p : OverallocatedParams K α} {r s : OverallocatedBatchedSparseArray K α}
  {content : List α}

/-! ## Calls and runs -/

/-- The arguments of a call of `insertBatch`, and the orders in which its tasks run. -/
structure Call (α : Type) where
  batch : List α
  numberOfThreads : ℕ
  sched : Schedule
  turns : List ℕ

/-- A sorted batch without the null key, and an element for every thread. -/
structure Call.Allowed (p : OverallocatedParams K α) (call : Call α) : Prop where
  increasing : Increasing p.toBlockParams call.batch
  null_lt : ∀ x ∈ call.batch, p.nullKey < p.keyOf x
  threads_pos : 0 < call.numberOfThreads
  threads_le : call.numberOfThreads ≤ call.batch.length

/-- The array behind some calls. -/
def run (p : OverallocatedParams K α) (s : OverallocatedBatchedSparseArray K α)
    (calls : List (Call α)) : OverallocatedBatchedSparseArray K α :=
  calls.foldl (fun s call => s.insertBatch p call.batch call.numberOfThreads call.sched call.turns) s

/-- The ordered map behind some calls. -/
def runContent (p : OverallocatedParams K α) (content : List α) (calls : List (Call α)) : List α :=
  calls.foldl (fun content call => contentAfter p call.numberOfThreads content call.batch) content

lemma run_append (s : OverallocatedBatchedSparseArray K α) (calls calls' : List (Call α)) :
    run p s (calls ++ calls') = run p (run p s calls) calls' :=
  List.foldl_append

lemma Sound.insertable (h : Sound p s) {call : Call α} (hc : call.Allowed p) :
    s.Insertable p call.batch call.numberOfThreads :=
  ⟨h.valid, hc.increasing, hc.null_lt, hc.threads_pos, hc.threads_le⟩

/-- **Runs.**  The invariant holds in every state reached, and the array has the content of the
abstract machine. -/
theorem Sound.run (hp : Usable p) : ∀ (calls : List (Call α))
    {s : OverallocatedBatchedSparseArray K α}, Sound p s → (∀ call ∈ calls, call.Allowed p) →
    Sound p (run p s calls) ∧
      elements (OverallocatedBatchedSparseArray.run p s calls).blocks =
        runContent p (elements s.blocks) calls := by
  intro calls
  induction calls with
  | nil => exact fun h _ => ⟨h, rfl⟩
  | cons call calls ih =>
      intro s h hallowed
      rw [List.forall_mem_cons] at hallowed
      obtain ⟨hsound, hcontent⟩ :=
        h.insertBatch (h.insertable hallowed.1) hp call.sched call.turns
      obtain ⟨hrest, hcontent'⟩ := ih hsound hallowed.2
      rw [hcontent] at hcontent'
      exact ⟨hrest, hcontent'⟩

omit [LinearOrder K] in
lemma elements_create (p : OverallocatedParams K α) : elements (create p).blocks = [] := rfl

/-! ## The queries -/

/-- The content of the view is the content of the blocks. -/
lemma Valid.content_view (h : s.Valid p) : (s.view p).content = elements s.blocks := by
  have hcell : ∀ c, (s.pma c).live = elements (cellBlock (s.pma c)) := by
    intro c
    cases hempty : (s.pma c).isEmpty with
    | true =>
        rw [cellBlock_of_isEmpty hempty, h.eq_null hempty]
        rfl
    | false => rw [cellBlock_of_not_isEmpty hempty, elements_cons, elements_nil, List.append_nil]
  rw [ArrayView.content, blocks, rangeBlocks, itemsIn, Nat.sub_zero, ← List.range_eq_range',
    elements, List.flatMap_assoc]
  exact List.flatMap_congr fun c _ => hcell c

/-- **End to end.**  After any calls, every query of the array is the corresponding operation of the
ordered map of the abstract machine. -/
theorem run_refinesOrderedMap (p : OverallocatedParams K α) (calls : List (Call α))
    (hp : Usable p) (hallowed : ∀ call ∈ calls, call.Allowed p) :
    ((run p (create p) calls).view p).RefinesOrderedMap p.toBlockParams
      (runContent p [] calls) := by
  obtain ⟨hsound, hcontent⟩ := Sound.run hp calls (sound_create p) hallowed
  rw [elements_create] at hcontent
  rw [← hcontent, ← hsound.valid.content_view]
  exact hsound.valid.view.refinesOrderedMap

/-- Two calls: the first fills the empty array, in the second one two tasks share the only block. -/
def twoCalls : List (Call ℕ) :=
  [⟨[3, 5], 1, Schedule.sequential, []⟩, ⟨[1, 4, 5, 6], 2, Schedule.sequential, []⟩]

lemma usable_keyOnly {b : ℕ} (heven : 2 ∣ b) (hb : 2 ≤ b) (hb' : b ≤ 2 ^ 15) :
    Usable (keyOnlyOverallocated b) :=
  ⟨heven, hb, hb', rfl, fun _ _ => rfl⟩

lemma usable_keyOnly_four : Usable (keyOnlyOverallocated 4) :=
  usable_keyOnly (by decide) (by decide) (by decide)

lemma twoCalls_allowed : ∀ call ∈ twoCalls, call.Allowed (keyOnlyOverallocated 4) := by
  simp only [twoCalls, List.forall_mem_cons]
  refine ⟨⟨by simp [Increasing, keyOnlyOverallocated, keyOnlyBlocks], by decide, by decide,
    by decide⟩, ⟨by simp [Increasing, keyOnlyOverallocated, keyOnlyBlocks], by decide, by decide,
    by decide⟩, fun _ h => absurd h List.not_mem_nil⟩

theorem run_refinesOrderedMap_twoCalls :
    let p := keyOnlyOverallocated 4
    ((run p (create p) twoCalls).view p).RefinesOrderedMap p.toBlockParams [1, 3, 4, 5, 6] :=
  run_refinesOrderedMap (keyOnlyOverallocated 4) twoCalls usable_keyOnly_four
    twoCalls_allowed

/-! ## When nothing is lost -/

/-- The elements of all batches, each key with its first element. -/
def allBatches (p : OverallocatedParams K α) (calls : List (Call α)) : List α :=
  mergeKeyed p.keyOf [] (calls.flatMap Call.batch)

lemma allBatches_concat (calls : List (Call α)) (call : Call α) :
    allBatches p (calls ++ [call]) = mergeKeyed p.keyOf (allBatches p calls) call.batch := by
  rw [allBatches, allBatches, List.flatMap_append, mergeKeyed_append, List.flatMap_singleton]

lemma ordered_allBatches (calls : List (Call α)) : Ordered p.keyOf (allBatches p calls) :=
  (isKeyUnion_mergeKeyed List.Pairwise.nil).ordered

lemma allBatches_concat_ne_nil {call : Call α} (hc : call.Allowed p) (calls : List (Call α)) :
    allBatches p (calls ++ [call]) ≠ [] := by
  have hpos := hc.threads_pos
  have hle := hc.threads_le
  have hne : call.batch ≠ [] := by
    intro hnil
    rw [hnil, List.length_nil] at hle
    omega
  obtain ⟨x, hx⟩ := List.exists_mem_of_ne_nil _ hne
  have hunion : IsUnion p.keyOf (allBatches p calls) call.batch
      (allBatches p (calls ++ [call])) := by
    rw [allBatches_concat]
    exact isUnion_mergeKeyed (ordered_allBatches calls) hc.increasing
  obtain ⟨y, hy, -⟩ := hunion.exists_key hx
  exact List.ne_nil_of_mem hy

/-- The union is lost exactly in the corner case. -/
lemma contentAfter_eq_iff {numberOfThreads : ℕ} {batch : List α}
    (hpos : 0 < numberOfThreads) (hne : mergeKeyed p.keyOf content batch ≠ []) :
    contentAfter p numberOfThreads content batch = mergeKeyed p.keyOf content batch ↔
      numberOfThreads = 1 ∨
        p.minBlockSize ≤ (mergeKeyed p.keyOf content batch).length := by
  rw [contentAfter]
  split
  · rename_i hlost
    constructor
    · exact fun heq => absurd heq.symm hne
    · omega
  · rename_i hkept
    refine ⟨fun _ => ?_, fun _ => rfl⟩
    by_contra hno
    push Not at hno
    exact hkept ⟨by omega, hno.2⟩

/-- No call lets several threads insert although fewer elements than a block has to have have come
together. -/
def NothingLost (p : OverallocatedParams K α) (calls : List (Call α)) : Prop :=
  ∀ done call, done ++ [call] <+: calls →
    call.numberOfThreads = 1 ∨ p.minBlockSize ≤ (allBatches p (done ++ [call])).length

section

variable {calls done : List (Call α)} {call : Call α}

lemma Sound.run_prefix (hp : Usable p) (hallowed : ∀ call ∈ calls, call.Allowed p)
    (hd : done <+: calls) : Sound p (OverallocatedBatchedSparseArray.run p (create p) done) :=
  (Sound.run hp done (sound_create p) fun call hc => hallowed call (hd.subset hc)).1

/-- One more call. -/
lemma run_concat_keeps_iff (hp : Usable p) (hallowed : ∀ call ∈ calls, call.Allowed p)
    (hd : done ++ [call] <+: calls)
    (hprev : elements (run p (create p) done).blocks = allBatches p done) :
    elements (run p (create p) (done ++ [call])).blocks = allBatches p (done ++ [call]) ↔
      call.numberOfThreads = 1 ∨ p.minBlockSize ≤ (allBatches p (done ++ [call])).length := by
  have hc := hallowed call (hd.subset (List.mem_append_right _ (List.mem_singleton.mpr rfl)))
  have hs := Sound.run_prefix hp hallowed ((List.prefix_append done [call]).trans hd)
  have hnext := (hs.insertBatch (hs.insertable hc) hp call.sched call.turns).2
  have hrun : run p (create p) (done ++ [call]) = (run p (create p) done).insertBatch p call.batch
      call.numberOfThreads call.sched call.turns := run_append _ _ _
  rw [hrun, hnext, hprev, allBatches_concat]
  refine contentAfter_eq_iff hc.threads_pos ?_
  rw [← allBatches_concat]
  exact allBatches_concat_ne_nil hc done

lemma NothingLost.elements_run (h : NothingLost p calls) (hp : Usable p)
    (hallowed : ∀ call ∈ calls, call.Allowed p) (hd : done <+: calls) :
    elements (run p (create p) done).blocks = allBatches p done := by
  induction done using List.reverseRecOn with
  | nil => rfl
  | append_singleton done call ih =>
      exact (run_concat_keeps_iff hp hallowed hd
        (ih ((List.prefix_append done [call]).trans hd))).mpr (h done call hd)

end

/-- **Exactly when no element is lost.**  The content is the union of all batches in every state of
a run if and only if no call lets several threads insert too few elements. -/
theorem run_keeps_iff (p : OverallocatedParams K α) (calls : List (Call α)) (hp : Usable p)
    (hallowed : ∀ call ∈ calls, call.Allowed p) :
    (∀ done, done <+: calls →
      elements (run p (create p) done).blocks = allBatches p done) ↔ NothingLost p calls := by
  constructor
  · intro hkept done call hd
    exact (run_concat_keeps_iff hp hallowed hd
      (hkept done ((List.prefix_append done [call]).trans hd))).mp (hkept _ hd)
  · exact fun h done hd => h.elements_run hp hallowed hd

/-- Two elements, and blocks of four at least: two threads lose them, one thread does not. -/
theorem run_keeps_iff_pair :
    let p := keyOnlyOverallocated 8
    let call (n : ℕ) : Call ℕ := ⟨[1, 2], n, Schedule.sequential, []⟩
    (∀ done, done <+: [call 1] → elements (run p (create p) done).blocks = allBatches p done) ∧
      ¬ ∀ done, done <+: [call 2] → elements (run p (create p) done).blocks = allBatches p done := by
  intro p call
  have hallowed : ∀ n, 0 < n → n ≤ 2 → ∀ c ∈ [call n], c.Allowed p := by
    intro n h1 h2 c hc
    rw [List.mem_singleton.mp hc]
    exact ⟨by simp [call, p, Increasing, keyOnlyOverallocated, keyOnlyBlocks],
      by simp [call, p, keyOnlyOverallocated, keyOnlyBlocks], h1, h2⟩
  have hsingle : ∀ {c c' : Call ℕ} {done : List (Call ℕ)}, done ++ [c] <+: [c'] → c = c' :=
    fun h => List.mem_singleton.mp (h.subset (List.mem_append_right _ (List.mem_singleton.mpr rfl)))
  have hp : Usable p := usable_keyOnly (by decide) (by decide) (by decide)
  refine ⟨(run_keeps_iff p [call 1] hp (hallowed 1 (by decide) (by decide))).mpr
    fun done c hd => Or.inl (by rw [hsingle hd]), fun h => ?_⟩
  have hlost := (run_keeps_iff p [call 2] hp (hallowed 2 (by decide) (by decide))).mp h [] (call 2)
    (List.prefix_rfl)
  revert hlost
  decide

end OverallocatedBatchedSparseArray

end BatchPMA
