import Mathlib.Data.List.Destutter
import BatchPMA.Runs.Validation

/-!
# Different ways to the same array

The ordered map of a run does not see which path a call takes, how many threads there are, in which
order their tasks run and how the elements are cut into batches.  So two arrays that are filled in
different ways answer every query alike.  Batches that repeat keys can be made out of `deduplicate`.
-/

namespace BatchPMA

open KeyedUnion Ranges

variable {K α : Type} [LinearOrder K]

namespace OverallocatedBatchedSparseArray

variable {p q : OverallocatedParams K α} {content : List α}

/-! ## The same elements, cut and inserted in different ways -/

/-- **Runs agree.**  Two arrays with the same blocks, one with in-place insertion and one without it
for example, hold the same elements if the same elements were inserted in the same order: the cut
into batches, the numbers of threads and the orders of the tasks do not matter. -/
theorem runs_agree (p q : OverallocatedParams K α) (calls calls' : List (Call α)) (hp : Usable p)
    (hq : Usable q) (hbase : q.toBlockParams = p.toBlockParams)
    (hallowed : ∀ call ∈ calls, call.Allowed p) (hallowed' : ∀ call ∈ calls', call.Allowed q)
    (hkeep : NothingLost p calls) (hkeep' : NothingLost q calls')
    (hsame : calls.flatMap Call.batch = calls'.flatMap Call.batch) :
    elements (run p (create p) calls).blocks = elements (run q (create q) calls').blocks ∧
      (run p (create p) calls).isValid p = (run q (create q) calls').isValid q ∧
      ((run p (create p) calls).view p).RefinesOrderedMap p.toBlockParams
        (elements (run q (create q) calls').blocks) := by
  have hsame' : elements (run p (create p) calls).blocks =
      elements (run q (create q) calls').blocks := by
    rw [hkeep.elements_run hp hallowed List.prefix_rfl,
      hkeep'.elements_run hq hallowed' List.prefix_rfl, allBatches, allBatches, hsame, hbase]
  have hsound := (Sound.run hp calls (sound_create p) hallowed).1
  refine ⟨hsame', ?_, ?_⟩
  · rw [Bool.eq_iff_iff, run_isValid hp hallowed, run_isValid hq hallowed', hsame',
      BlockParams.minBlockSize, BlockParams.minBlockSize, hbase]
  · rw [← hsame', ← hsound.valid.content_view]
    exact hsound.valid.view.refinesOrderedMap

/-- The elements of `twoCalls`, key by key, without in-place insertion. -/
theorem runs_agree_twoCalls :
    let p := keyOnlyOverallocated 4
    let q : OverallocatedParams ℕ ℕ := { p with allowInPlaceInserts := false }
    let calls' := [3, 5, 1, 4, 5, 6].map fun x => (⟨[x], 1, Schedule.sequential, []⟩ : Call ℕ)
    elements (run p (create p) twoCalls).blocks = elements (run q (create q) calls').blocks := by
  intro p q calls'
  have hallowed' : ∀ call ∈ calls', call.Allowed q := by
    intro call hc
    obtain ⟨x, hx, rfl⟩ := List.mem_map.mp hc
    refine ⟨List.pairwise_singleton _ _, fun y hy => ?_, Nat.one_pos, le_refl _⟩
    rw [List.mem_singleton.mp hy]
    have hpos : ∀ x ∈ [3, 5, 1, 4, 5, 6], 0 < x := by decide
    exact hpos x hx
  have hkeep : NothingLost p twoCalls := by
    intro done call hd
    match done with
    | [] =>
        obtain rfl : call = ⟨[3, 5], 1, Schedule.sequential, []⟩ := (List.cons_prefix_cons.mp hd).1
        exact Or.inl rfl
    | [first] =>
        obtain rfl : first = ⟨[3, 5], 1, Schedule.sequential, []⟩ :=
          (List.cons_prefix_cons.mp hd).1
        have hd : [call] <+: [⟨[1, 4, 5, 6], 2, Schedule.sequential, []⟩] :=
          (List.cons_prefix_cons.mp hd).2
        obtain rfl : call = ⟨[1, 4, 5, 6], 2, Schedule.sequential, []⟩ :=
          (List.cons_prefix_cons.mp hd).1
        exact Or.inr (by decide)
    | _ :: _ :: _ =>
        have := hd.length_le
        simp [twoCalls] at this
  have hkeep' : NothingLost q calls' := by
    intro done call hd
    obtain ⟨x, -, rfl⟩ :=
      List.mem_map.mp (hd.subset (List.mem_append_right done (List.mem_singleton.mpr rfl)))
    exact Or.inl rfl
  exact (runs_agree p q twoCalls calls' usable_keyOnly_four
    ⟨by decide, by decide, by decide, rfl, fun _ _ => rfl⟩ rfl twoCalls_allowed hallowed' hkeep
    hkeep' rfl).1

/-! ## Batches with repeated keys -/

/-- What `deduplicate` leaves of a call. -/
def Call.deduplicate (p : OverallocatedParams K α) (call : Call α) : Call α :=
  { call with batch := OverallocatedBatchedSparseArray.deduplicate p call.batch }

/-- Neighbours with the same key do not change what is merged. -/
lemma mergeKeyed_destutter' : ∀ (es : List α) (e : α) (content : List α),
    mergeKeyed p.keyOf content (es.destutter' (fun x y => p.keyOf x ≠ p.keyOf y) e) =
      mergeKeyed p.keyOf content (e :: es)
  | [], _, _ => rfl
  | y :: es, e, content => by
      by_cases hne : p.keyOf e ≠ p.keyOf y
      · rw [List.destutter'_cons, if_pos hne, mergeKeyed_cons, mergeKeyed_destutter' es y,
          mergeKeyed_cons content]
      · rw [List.destutter'_cons, if_neg hne, mergeKeyed_destutter' es e, mergeKeyed_cons,
          mergeKeyed_cons, mergeKeyed_cons, insertKeyed_of_present (e := y)]
        rw [not_not] at hne
        obtain ⟨x, hx, hk⟩ : ∃ x ∈ insertKeyed p.keyOf content e, p.keyOf x = p.keyOf e :=
          exists_key_insertKeyed content e
        exact ⟨x, hx, hk.trans hne⟩

lemma mergeKeyed_deduplicate (content batch : List α) :
    mergeKeyed p.keyOf content (deduplicate p batch) = mergeKeyed p.keyOf content batch := by
  cases batch with
  | nil => rfl
  | cons e es => exact mergeKeyed_destutter' es e content

/-- Sorted neighbours with different keys are strictly increasing. -/
lemma increasing_deduplicate {batch : List α} (h : NonDecreasing p.toBlockParams batch) :
    Increasing p.toBlockParams (deduplicate p batch) := by
  have hchain := List.isChain_destutter (fun x y : α => p.keyOf x ≠ p.keyOf y) batch
  have hsorted : NonDecreasing p.toBlockParams (deduplicate p batch) :=
    h.sublist (List.destutter_sublist _ batch)
  have hlt : (deduplicate p batch).IsChain fun x y => p.keyOf x < p.keyOf y :=
    List.isChain_iff_forall_rel_of_append_cons_cons.mpr fun {x y front behind} heq =>
      lt_of_le_of_ne
        (List.isChain_iff_forall_rel_of_append_cons_cons.mp hsorted.isChain heq)
        (List.isChain_iff_forall_rel_of_append_cons_cons.mp hchain heq)
  have : IsTrans α fun x y => p.keyOf x < p.keyOf y := ⟨fun _ _ _ => lt_trans⟩
  exact List.isChain_iff_pairwise.mp hlt

/-- **Repeated keys.**  Calls with sorted batches, which may repeat keys, are turned into allowed
ones by `deduplicate`, and the array ends up with the first element of each key. -/
theorem deduplicate_serves (p : OverallocatedParams K α) (calls : List (Call α)) (hp : Usable p)
    (hsorted : ∀ call ∈ calls, batchSorted p.toBlockParams p.nullKey call.batch = true)
    (hnull : ∀ call ∈ calls, ∀ x ∈ call.batch, p.keyOf x ≠ p.nullKey)
    (hthreads : ∀ call ∈ calls, 0 < call.numberOfThreads ∧
      call.numberOfThreads ≤ (deduplicate p call.batch).length) :
    (∀ call ∈ calls.map (Call.deduplicate p), call.Allowed p) ∧
      elements (run p (create p) (calls.map (Call.deduplicate p))).blocks =
        runContent p [] calls := by
  have hallowed : ∀ call ∈ calls.map (Call.deduplicate p), call.Allowed p := by
    intro call' hmap
    obtain ⟨call, hc, rfl⟩ := List.mem_map.mp hmap
    obtain ⟨hmono, hge⟩ := batchSorted_spec (hsorted call hc)
    refine ⟨increasing_deduplicate hmono, fun x hx => ?_, (hthreads call hc).1, (hthreads call hc).2⟩
    have hx := (List.destutter_sublist _ call.batch).subset hx
    exact lt_of_le_of_ne (hge x hx) (hnull call hc x hx).symm
  have hcontent := (Sound.run hp _ (sound_create p) hallowed).2
  refine ⟨hallowed, hcontent.trans ?_⟩
  rw [elements_create, runContent, runContent, List.foldl_map]
  refine List.foldl_ext _ _ _ fun content call _ => ?_
  rw [contentAfter, contentAfter]
  exact mergeKeyed_deduplicate (p := p) content call.batch ▸ rfl

theorem deduplicate_serves_twoBatches :
    let p := keyOnlyOverallocated 4
    let calls : List (Call ℕ) := [⟨[3, 3, 5], 1, Schedule.sequential, []⟩,
      ⟨[1, 1, 4, 5, 5], 2, Schedule.sequential, []⟩]
    elements (run p (create p) (calls.map (Call.deduplicate p))).blocks = [1, 3, 4, 5] :=
  (deduplicate_serves (keyOnlyOverallocated 4) _ usable_keyOnly_four
    (by simp [batchSorted, keyOnlyOverallocated, keyOnlyBlocks])
    (by simp [keyOnlyOverallocated, keyOnlyBlocks]) (by decide)).2

end OverallocatedBatchedSparseArray

end BatchPMA
