import BatchPMA.OutOfPlace.Content
import BatchPMA.Library.Uniform

/-!
# Back to the main array

Step B-4 moves every block from the swap array to the main array: the blocks in front of the first
task keep their indices, and those of a task are spread over its range.  The moves have different
sources and different targets, so their order does not matter.
-/

namespace BatchPMA

open KeyedUnion Ranges Uniform

variable {K α : Type}

namespace OverallocatedBatchedSparseArray

variable {p : OverallocatedParams K α} {r s s₀ : OverallocatedBatchedSparseArray K α}
  {W : ℕ → PmaEntry K α} {base : ℕ → TaskInfo} {rows : ℕ → List (PmaEntry K α)} {n t : ℕ}
  {done moves : List (ℕ × ℕ)}

/-! ## Moves -/

/-- The state after some moves, of which each is a source and a target. -/
structure Moved (p : OverallocatedParams K α) (s₀ : OverallocatedBatchedSparseArray K α)
    (done : List (ℕ × ℕ)) (s : OverallocatedBatchedSparseArray K α) : Prop where
  frame : s = { s₀ with
    pma := s.pma
    swapPma := s.swapPma }
  source : ∀ c ∈ done.map Prod.fst, s.swapPma c = PmaEntry.null p.toBlockParams
  unmoved : ∀ c, c ∉ done.map Prod.fst → s.swapPma c = s₀.swapPma c
  target : ∀ m ∈ done, s.pma m.2 = s₀.swapPma m.1
  other : ∀ c, c ∉ done.map Prod.snd → s.pma c = PmaEntry.null p.toBlockParams

/-- No source and no target occurs twice. -/
def Distinct (moves : List (ℕ × ℕ)) : Prop :=
  (moves.map Prod.fst).Nodup ∧ (moves.map Prod.snd).Nodup

lemma Distinct.left {moves' : List (ℕ × ℕ)} (h : Distinct (moves ++ moves')) : Distinct moves := by
  simp only [Distinct, List.map_append] at h
  exact ⟨h.1.of_append_left, h.2.of_append_left⟩

lemma Distinct.notMem {m : ℕ × ℕ} (h : Distinct (moves ++ [m])) :
    m.1 ∉ moves.map Prod.fst ∧ m.2 ∉ moves.map Prod.snd := by
  simp only [Distinct, List.map_append, List.map_cons, List.map_nil, List.nodup_append] at h
  exact ⟨fun hm => h.1.2.2 _ hm _ (List.mem_singleton.mpr rfl) rfl,
    fun hm => h.2.2.2 _ hm _ (List.mem_singleton.mpr rfl) rfl⟩

lemma moved_refl (hpma : ∀ c, s₀.pma c = PmaEntry.null p.toBlockParams) : Moved p s₀ [] s₀ where
  frame := rfl
  source := fun _ hc => absurd hc List.not_mem_nil
  unmoved := fun _ _ => rfl
  target := fun _ hm => absurd hm List.not_mem_nil
  other := fun c _ => hpma c

lemma Moved.tasks_eq (h : Moved p s₀ done s) : s.tasks = s₀.tasks := by
  rw [h.frame]

lemma swapPma_moveToPma (s : OverallocatedBatchedSparseArray K α) (i j : ℕ) :
    (s.moveToPma p i j).swapPma =
      Function.update s.swapPma i (PmaEntry.null p.toBlockParams) := rfl

lemma pma_moveToPma (s : OverallocatedBatchedSparseArray K α) (i j : ℕ) :
    (s.moveToPma p i j).pma = Function.update s.pma j (s.swapPma i) := rfl

/-- One more move. -/
lemma Moved.move (h : Moved p s₀ done s) {m : ℕ × ℕ} (hm : Distinct (done ++ [m])) :
    Moved p s₀ (done ++ [m]) (s.moveToPma p m.1 m.2) := by
  obtain ⟨hsource, htarget⟩ := hm.notMem
  constructor
  · rw [h.frame]
    rfl
  · intro c hc
    rw [List.map_append, List.mem_append] at hc
    rw [swapPma_moveToPma]
    by_cases heq : c = m.1
    · rw [heq, Function.update_self]
    · rw [Function.update_of_ne heq]
      exact h.source c (hc.resolve_right fun hno => heq (by simpa using hno))
  · intro c hc
    simp only [List.map_append, List.map_cons, List.map_nil, List.mem_append, List.mem_singleton,
      not_or] at hc
    rw [swapPma_moveToPma, Function.update_of_ne hc.2]
    exact h.unmoved c hc.1
  · intro m' hm'
    rw [pma_moveToPma]
    rcases List.mem_append.mp hm' with hm' | hm'
    · have hne : m'.2 ≠ m.2 := fun heq => htarget (heq ▸ List.mem_map_of_mem hm')
      rw [Function.update_of_ne hne]
      exact h.target m' hm'
    · rw [List.mem_singleton.mp hm', Function.update_self]
      exact h.unmoved _ hsource
  · intro c hc
    simp only [List.map_append, List.map_cons, List.map_nil, List.mem_append, List.mem_singleton,
      not_or] at hc
    rw [pma_moveToPma, Function.update_of_ne hc.2]
    exact h.other c hc.1

/-- Every cell holds what a cell of the swap array has held. -/
lemma Moved.cell (h : Moved p s₀ done s) (c : ℕ) : s.pma c = PmaEntry.null p.toBlockParams ∨
    ∃ c', s.pma c = s₀.swapPma c' := by
  by_cases hc : c ∈ done.map Prod.snd
  · obtain ⟨m, hm, rfl⟩ := List.mem_map.mp hc
    exact Or.inr ⟨m.1, h.target m hm⟩
  · exact Or.inl (h.other c hc)

/-- A loop of moves. -/
lemma Moved.loop {β : Type} (move : β → ℕ × ℕ)
    (step : OverallocatedBatchedSparseArray K α → β → OverallocatedBatchedSparseArray K α) :
    ∀ (bs : List β) {done : List (ℕ × ℕ)} {s : OverallocatedBatchedSparseArray K α},
      (∀ b ∈ bs, ∀ done s, Moved p s₀ done s → Distinct (done ++ [move b]) →
        Moved p s₀ (done ++ [move b]) (step s b)) →
      Moved p s₀ done s → Distinct (done ++ bs.map move) →
      Moved p s₀ (done ++ bs.map move) (bs.foldl step s) := by
  intro bs
  induction bs with
  | nil =>
      intro done s _ h _
      simpa using h
  | cons b bs ih =>
      intro done s hstep h hd
      rw [List.map_cons, List.append_cons] at hd ⊢
      exact ih (fun b' hb' => hstep b' (List.mem_cons_of_mem b hb'))
        (hstep b List.mem_cons_self done s h hd.left) hd

/-! ## The moves of the threads -/

/-- The blocks in front of the first task stay where they are. -/
def frontMoves (base : ℕ → TaskInfo) : List (ℕ × ℕ) :=
  (List.range (base 0).blockForBatchSplitter).map fun c => (c, c)

/-- The blocks of a task are spread over its range. -/
def rangeMoves (base : ℕ → TaskInfo) (t : ℕ) : List (ℕ × ℕ) :=
  (List.range (base t).numberOfBlocksWritten).map fun k =>
    ((base t).startIndex + k, getUniformWriteIndex (base t).startIndex k
      ((base (t + 1)).startIndex - (base t).startIndex) (base t).numberOfBlocksWritten)

def taskMoves (base : ℕ → TaskInfo) (t : ℕ) : List (ℕ × ℕ) :=
  (if t = 0 then frontMoves base else []) ++ rangeMoves base t

lemma Moved.front (h : Moved p s₀ done s)
    (hnull : ∀ c < (s₀.tasks 0).blockForBatchSplitter, (s₀.swapPma c).isEmpty = true →
      s₀.swapPma c = PmaEntry.null p.toBlockParams)
    (hd : Distinct (done ++ frontMoves s₀.tasks)) :
    Moved p s₀ (done ++ frontMoves s₀.tasks)
      ((List.range (s₀.tasks 0).blockForBatchSplitter).foldl (fun s blockIndex =>
        if (s.swapPma blockIndex).isEmpty then s else s.moveToPma p blockIndex blockIndex) s) := by
  refine Moved.loop (fun c => (c, c)) _ _ (fun c hc done s h hd => ?_) h hd
  have hmove := h.move hd
  split
  · -- an empty cell is moved to an empty cell
    rename_i hempty
    obtain ⟨hsource, htarget⟩ := hd.notMem
    have hswap : s.swapPma c = PmaEntry.null p.toBlockParams := by
      rw [h.unmoved c hsource] at hempty ⊢
      exact hnull c (List.mem_range.mp hc) hempty
    have hsame : s.moveToPma p c c = s := by
      have hpma : Function.update s.pma c (s.swapPma c) = s.pma := by
        rw [hswap, ← h.other c htarget, Function.update_eq_self]
      have hswapPma : Function.update s.swapPma c (PmaEntry.null p.toBlockParams) =
          s.swapPma := by
        rw [← hswap, Function.update_eq_self]
      rw [moveToPma, hpma, hswapPma]
    simp only [hsame] at hmove
    exact hmove
  · exact hmove

lemma Moved.rewrite (h : Moved p s₀ done s) (hd : Distinct (done ++ rangeMoves s₀.tasks t)) :
    Moved p s₀ (done ++ rangeMoves s₀.tasks t)
      (s.rewrite p ⟨(s₀.tasks t).startIndex, (s₀.tasks (t + 1)).startIndex⟩
        (s₀.tasks t).numberOfBlocksWritten) :=
  Moved.loop _ _ _ (fun _ _ _ _ hs hm => hs.move hm) h hd

/-- A thread makes its moves. -/
lemma Moved.startRewritingTask (h : Moved p s₀ done s)
    (hnull : ∀ c < (s₀.tasks 0).blockForBatchSplitter, (s₀.swapPma c).isEmpty = true →
      s₀.swapPma c = PmaEntry.null p.toBlockParams)
    (hd : Distinct (done ++ taskMoves s₀.tasks t)) :
    Moved p s₀ (done ++ taskMoves s₀.tasks t) (s.startRewritingTask p t) := by
  rw [taskMoves, ← List.append_assoc] at hd ⊢
  rw [OverallocatedBatchedSparseArray.startRewritingTask]
  by_cases ht : t = 0
  · rw [if_pos ht] at hd ⊢
    have hfront := h.front hnull hd.left
    simp only [if_pos ht, h.tasks_eq]
    rw [hfront.tasks_eq]
    exact hfront.rewrite hd
  · rw [if_neg ht, List.append_nil] at hd ⊢
    simp only [if_neg ht, h.tasks_eq]
    exact h.rewrite hd

/-- All threads make their moves. -/
lemma Moved.run
    (hnull : ∀ c < (s₀.tasks 0).blockForBatchSplitter, (s₀.swapPma c).isEmpty = true →
      s₀.swapPma c = PmaEntry.null p.toBlockParams) :
    ∀ (ts : List ℕ) {done : List (ℕ × ℕ)} {s : OverallocatedBatchedSparseArray K α},
      Moved p s₀ done s → Distinct (done ++ ts.flatMap (taskMoves s₀.tasks)) →
      Moved p s₀ (done ++ ts.flatMap (taskMoves s₀.tasks))
        (ts.foldl (fun s' thread => s'.startRewritingTask p thread) s) := by
  intro ts
  induction ts with
  | nil =>
      intro done s h _
      simpa using h
  | cons t ts ih =>
      intro done s h hd
      rw [List.flatMap_cons, ← List.append_assoc] at hd ⊢
      exact ih (h.startRewritingTask hnull hd.left) hd

/-! ## No two moves get in each other's way -/

/-- Increasing indices of a range. -/
structure Ascending (lo hi : ℕ) (cells : List ℕ) : Prop where
  increasing : cells.Pairwise (· < ·)
  mem : ∀ c ∈ cells, lo ≤ c ∧ c < hi

lemma Ascending.nodup {lo hi : ℕ} {cells : List ℕ} (h : Ascending lo hi cells) : cells.Nodup :=
  h.increasing.imp fun hlt => hlt.ne

lemma Ascending.append {lo mid hi : ℕ} {cells cells' : List ℕ} (h : Ascending lo mid cells)
    (h' : Ascending mid hi cells') (h1 : lo ≤ mid) (h2 : mid ≤ hi) :
    Ascending lo hi (cells ++ cells') where
  increasing := List.pairwise_append.mpr ⟨h.increasing, h'.increasing, fun c hc c' hc' =>
    lt_of_lt_of_le (h.mem c hc).2 (h'.mem c' hc').1⟩
  mem := by
    intro c hc
    rcases List.mem_append.mp hc with hc | hc
    · exact ⟨(h.mem c hc).1, lt_of_lt_of_le (h.mem c hc).2 h2⟩
    · exact ⟨h1.trans (h'.mem c hc).1, (h'.mem c hc).2⟩

lemma ascending_range {lo hi m : ℕ} {f : ℕ → ℕ} (hmono : ∀ k k', k < k' → k' < m → f k < f k')
    (hmem : ∀ k < m, lo ≤ f k ∧ f k < hi) : Ascending lo hi ((List.range m).map f) where
  increasing := by
    refine List.pairwise_map.mpr (List.pairwise_lt_range.imp_of_mem ?_)
    intro k k' _ hk' hlt
    exact hmono k k' hlt (List.mem_range.mp hk')
  mem := by
    intro c hc
    obtain ⟨k, hk, rfl⟩ := List.mem_map.mp hc
    exact hmem k (List.mem_range.mp hk)

/-- What the swap array holds in front of step B-4: the rows of the tasks, and the blocks in front
of the first task. -/
structure Spreadable (p : OverallocatedParams K α) (s : OverallocatedBatchedSparseArray K α) (n : ℕ)
    (rows : ℕ → List (PmaEntry K α)) : Prop where
  start_zero : (s.tasks 0).startIndex = (s.tasks 0).blockForBatchSplitter
  written_eq : ∀ t < n, (s.tasks t).numberOfBlocksWritten = (rows t).length
  fits : ∀ t < n, (s.tasks t).startIndex + (rows t).length ≤ (s.tasks (t + 1)).startIndex
  cell_eq : ∀ t < n, ∀ j, (s.tasks t).startIndex + j < (s.tasks (t + 1)).startIndex →
    s.swapPma ((s.tasks t).startIndex + j) = (rows t).getD j (PmaEntry.null p.toBlockParams)
  nonempty : ∀ t < n, ∀ b ∈ rows t, b.isEmpty = false
  front : ∀ c < (s.tasks 0).startIndex,
    s.swapPma c = PmaEntry.null p.toBlockParams ∨ (s.swapPma c).isEmpty = false
  behind : ∀ c, (s.tasks n).startIndex ≤ c → s.swapPma c = PmaEntry.null p.toBlockParams
  pma_null : ∀ c, s.pma c = PmaEntry.null p.toBlockParams
  size_eq : s.size = (s.tasks n).startIndex

section

variable (h : Spreadable p s n rows)
include h

lemma Spreadable.start_le (ht : t < n) :
    (s.tasks t).startIndex ≤ (s.tasks (t + 1)).startIndex :=
  (Nat.le_add_right _ _).trans (h.fits t ht)

lemma Spreadable.start_mono {u : ℕ} (htu : t ≤ u) (hu : u ≤ n) :
    (s.tasks t).startIndex ≤ (s.tasks u).startIndex := by
  induction u, htu using Nat.le_induction with
  | base => exact le_refl _
  | succ u _ ih => exact (ih (Nat.le_of_succ_le hu)).trans (h.start_le hu)

/-- The cell of the swap array that block `k` of a task is taken from, and where it goes. -/
lemma Spreadable.target_lt (ht : t < n) {k k' : ℕ} (hk : k < k')
    (hk' : k' ≤ (s.tasks t).numberOfBlocksWritten) :
    (s.tasks t).startIndex ≤ getUniformWriteIndex (s.tasks t).startIndex k
        ((s.tasks (t + 1)).startIndex - (s.tasks t).startIndex)
        (s.tasks t).numberOfBlocksWritten ∧
      getUniformWriteIndex (s.tasks t).startIndex k
          ((s.tasks (t + 1)).startIndex - (s.tasks t).startIndex)
          (s.tasks t).numberOfBlocksWritten <
        getUniformWriteIndex (s.tasks t).startIndex k'
          ((s.tasks (t + 1)).startIndex - (s.tasks t).startIndex)
          (s.tasks t).numberOfBlocksWritten := by
  have hfits := h.fits t ht
  have hwritten := h.written_eq t ht
  refine ⟨Nat.le_add_right _ _, Nat.add_lt_add_left ?_ _⟩
  exact spread_lt (by omega) (by omega) hk

lemma Spreadable.target_mem (ht : t < n) {k : ℕ} (hk : k < (s.tasks t).numberOfBlocksWritten) :
    (s.tasks t).startIndex ≤ getUniformWriteIndex (s.tasks t).startIndex k
        ((s.tasks (t + 1)).startIndex - (s.tasks t).startIndex)
        (s.tasks t).numberOfBlocksWritten ∧
      getUniformWriteIndex (s.tasks t).startIndex k
          ((s.tasks (t + 1)).startIndex - (s.tasks t).startIndex)
          (s.tasks t).numberOfBlocksWritten < (s.tasks (t + 1)).startIndex := by
  obtain ⟨h1, h2⟩ := h.target_lt ht hk (le_refl _)
  have hend : getUniformWriteIndex (s.tasks t).startIndex (s.tasks t).numberOfBlocksWritten
      ((s.tasks (t + 1)).startIndex - (s.tasks t).startIndex)
      (s.tasks t).numberOfBlocksWritten = (s.tasks (t + 1)).startIndex := by
    have hle := h.start_le ht
    have hself := spread_self ((s.tasks (t + 1)).startIndex - (s.tasks t).startIndex)
      (show 0 < (s.tasks t).numberOfBlocksWritten by omega)
    rw [spread] at hself
    rw [getUniformWriteIndex, hself]
    omega
  rw [hend] at h2
  exact ⟨h1, h2⟩

lemma Spreadable.rangeMoves_ascending (ht : t < n) :
    Ascending (s.tasks t).startIndex (s.tasks (t + 1)).startIndex
        ((rangeMoves s.tasks t).map Prod.fst) ∧
      Ascending (s.tasks t).startIndex (s.tasks (t + 1)).startIndex
        ((rangeMoves s.tasks t).map Prod.snd) := by
  have hfits := h.fits t ht
  have hwritten := h.written_eq t ht
  rw [rangeMoves, List.map_map, List.map_map]
  constructor
  · refine ascending_range (fun k k' hk _ => ?_) fun k hk => ?_
    · simp only [Function.comp_apply]
      omega
    · simp only [Function.comp_apply]
      omega
  · exact ascending_range (fun k k' hk hk' => (h.target_lt ht hk hk'.le).2)
      fun k hk => h.target_mem ht hk

/-- The first range also has the cells in front of it. -/
lemma Spreadable.taskMoves_ascending (ht : t < n) :
    Ascending (if t = 0 then 0 else (s.tasks t).startIndex) (s.tasks (t + 1)).startIndex
        ((taskMoves s.tasks t).map Prod.fst) ∧
      Ascending (if t = 0 then 0 else (s.tasks t).startIndex) (s.tasks (t + 1)).startIndex
        ((taskMoves s.tasks t).map Prod.snd) := by
  obtain ⟨hsource, htarget⟩ := h.rangeMoves_ascending ht
  have hle := h.start_le ht
  rw [taskMoves, List.map_append, List.map_append]
  by_cases h0 : t = 0
  · subst h0
    have hfront : Ascending 0 (s.tasks 0).startIndex
        ((List.range (s.tasks 0).blockForBatchSplitter).map id) := by
      rw [h.start_zero]
      exact ascending_range (fun k k' hk _ => hk) fun k hk => ⟨Nat.zero_le k, hk⟩
    rw [if_pos rfl, if_pos rfl, frontMoves, List.map_map, List.map_map]
    exact ⟨Ascending.append hfront hsource (Nat.zero_le _) hle,
      Ascending.append hfront htarget (Nat.zero_le _) hle⟩
  · rw [if_neg h0, if_neg h0]
    exact ⟨hsource, htarget⟩

lemma Spreadable.moves_ascending : ∀ m ≤ n,
    Ascending 0 (if m = 0 then 0 else (s.tasks m).startIndex)
        (((List.range m).flatMap (taskMoves s.tasks)).map Prod.fst) ∧
      Ascending 0 (if m = 0 then 0 else (s.tasks m).startIndex)
        (((List.range m).flatMap (taskMoves s.tasks)).map Prod.snd) := by
  intro m
  induction m with
  | zero =>
      intro _
      exact ⟨⟨List.Pairwise.nil, fun c hc => absurd hc List.not_mem_nil⟩,
        ⟨List.Pairwise.nil, fun c hc => absurd hc List.not_mem_nil⟩⟩
  | succ m ih =>
      intro hm
      obtain ⟨h1, h2⟩ := ih (Nat.le_of_succ_le hm)
      obtain ⟨h3, h4⟩ := h.taskMoves_ascending hm
      have hle : (if m = 0 then 0 else (s.tasks m).startIndex) ≤ (s.tasks (m + 1)).startIndex := by
        split
        · exact Nat.zero_le _
        · exact h.start_le hm
      rw [List.range_succ, List.flatMap_append, List.flatMap_singleton, List.map_append,
        List.map_append, if_neg (Nat.succ_ne_zero m)]
      exact ⟨h1.append h3 (Nat.zero_le _) hle, h2.append h4 (Nat.zero_le _) hle⟩

/-- In any order of the threads. -/
lemma Spreadable.distinct {ts : List ℕ} (hts : ts.Perm (List.range n)) :
    Distinct (ts.flatMap (taskMoves s.tasks)) := by
  obtain ⟨h1, h2⟩ := h.moves_ascending n (le_refl n)
  have hperm := hts.flatMap_right (taskMoves s.tasks)
  exact ⟨(hperm.map Prod.fst).nodup_iff.mpr h1.nodup, (hperm.map Prod.snd).nodup_iff.mpr h2.nodup⟩

end

/-! ## The array behind step B-4 -/

/-- Where a sequence passes a number. -/
lemma exists_step {f : ℕ → ℕ} {c : ℕ} (h0 : f 0 ≤ c) : ∀ m, c < f m →
    ∃ t < m, f t ≤ c ∧ c < f (t + 1) := by
  intro m
  induction m with
  | zero =>
      intro hlt
      omega
  | succ m ih =>
      intro hlt
      by_cases hle : f m ≤ c
      · exact ⟨m, Nat.lt_succ_self m, hle, hlt⟩
      · obtain ⟨t, ht, hmem⟩ := ih (by omega)
        exact ⟨t, by omega, hmem⟩

section

variable (h : Spreadable p s n rows) {ts : List ℕ} (hts : ∀ t, t ∈ ts ↔ t < n)
  (hr : Moved p s (ts.flatMap (taskMoves s.tasks)) r)
include h hts hr

omit h hr in
lemma mem_moves {m : ℕ × ℕ} : m ∈ ts.flatMap (taskMoves s.tasks) ↔
    ∃ t < n, m ∈ taskMoves s.tasks t := by
  rw [List.mem_flatMap]
  exact exists_congr fun t => and_congr_left fun _ => hts t

lemma Spreadable.front_cell (hn : 0 < n) {c : ℕ} (hc : c < (s.tasks 0).startIndex) :
    r.pma c = s.swapPma c ∧ r.swapPma c = PmaEntry.null p.toBlockParams := by
  have hm : (c, c) ∈ ts.flatMap (taskMoves s.tasks) := by
    refine (mem_moves hts).mpr ⟨0, hn, List.mem_append_left _ ?_⟩
    rw [h.start_zero] at hc
    exact List.mem_map.mpr ⟨c, List.mem_range.mpr hc, rfl⟩
  exact ⟨hr.target _ hm, hr.source c (List.mem_map_of_mem hm)⟩

/-- A block of a task. -/
lemma Spreadable.row_cell (ht : t < n) {k : ℕ} (hk : k < (s.tasks t).numberOfBlocksWritten) :
    r.pma (getUniformWriteIndex (s.tasks t).startIndex k
        ((s.tasks (t + 1)).startIndex - (s.tasks t).startIndex)
        (s.tasks t).numberOfBlocksWritten) =
          (rows t).getD k (PmaEntry.null p.toBlockParams) ∧
      r.swapPma ((s.tasks t).startIndex + k) = PmaEntry.null p.toBlockParams := by
  have hm : ((s.tasks t).startIndex + k, getUniformWriteIndex (s.tasks t).startIndex k
      ((s.tasks (t + 1)).startIndex - (s.tasks t).startIndex)
      (s.tasks t).numberOfBlocksWritten) ∈ ts.flatMap (taskMoves s.tasks) :=
    (mem_moves hts).mpr ⟨t, ht, List.mem_append_right _
      (List.mem_map.mpr ⟨k, List.mem_range.mpr hk, rfl⟩)⟩
  have hfits := h.fits t ht
  have hwritten := h.written_eq t ht
  have htarget := hr.target _ hm
  rw [h.cell_eq t ht k (by omega)] at htarget
  exact ⟨htarget, hr.source _ (List.mem_map_of_mem hm)⟩

/-- The other cells of a range are empty. -/
lemma Spreadable.gap_cell (ht : t < n) {c : ℕ} (h1 : (s.tasks t).startIndex ≤ c)
    (h2 : c < (s.tasks (t + 1)).startIndex)
    (hc : ∀ k < (s.tasks t).numberOfBlocksWritten, getUniformWriteIndex (s.tasks t).startIndex k
      ((s.tasks (t + 1)).startIndex - (s.tasks t).startIndex)
      (s.tasks t).numberOfBlocksWritten ≠ c) :
    r.pma c = PmaEntry.null p.toBlockParams := by
  refine hr.other c fun hmem => ?_
  obtain ⟨m, hm, rfl⟩ := List.mem_map.mp hmem
  obtain ⟨u, hu, hm⟩ := (mem_moves hts).mp hm
  rcases List.mem_append.mp hm with hm | hm
  · split at hm
    · obtain ⟨c', hc', rfl⟩ := List.mem_map.mp hm
      have hlt := List.mem_range.mp hc'
      have hle := h.start_mono (Nat.zero_le t) ht.le
      rw [← h.start_zero] at hlt
      simp only at h1
      omega
    · exact absurd hm List.not_mem_nil
  · obtain ⟨h3, h4⟩ := (h.rangeMoves_ascending hu).2.mem m.2 (List.mem_map_of_mem hm)
    rcases lt_trichotomy u t with hlt | rfl | hlt
    · have := h.start_mono (show u + 1 ≤ t from hlt) ht.le
      omega
    · obtain ⟨k, hk, rfl⟩ := List.mem_map.mp hm
      exact hc k (List.mem_range.mp hk) rfl
    · have := h.start_mono (show t + 1 ≤ u from hlt) hu.le
      omega

/-- **The range of a task holds its row.** -/
lemma Spreadable.rangeBlocks_row (ht : t < n) :
    rangeBlocks r.pma (s.tasks t).startIndex (s.tasks (t + 1)).startIndex = rows t := by
  have hwritten := h.written_eq t ht
  rw [rangeBlocks, @itemsIn_targets (PmaEntry K α) (fun c => cellBlock (r.pma c)) _ _
    (fun k => (rows t).getD k (PmaEntry.null p.toBlockParams)) _ _
    (fun k hk => h.target_mem ht hk) (fun k k' hk hk' => (h.target_lt ht hk hk'.le).2)]
  · refine List.ext_getElem (by simp [hwritten]) fun k hk hk' => ?_
    simp [List.getElem?_eq_getElem hk']
  · intro k hk
    have hlt : k < (rows t).length := hwritten ▸ hk
    rw [(h.row_cell hts hr ht hk).1]
    refine cellBlock_of_not_isEmpty (h.nonempty t ht _ ?_)
    simp [List.getElem?_eq_getElem hlt]
  · intro c h1 h2 hc
    rw [h.gap_cell hts hr ht h1 h2 hc]
    rfl

/-- **The blocks behind step B-4.** -/
theorem Spreadable.blocks_eq (hn : 0 < n) : r.blocks =
    rangeBlocks s.swapPma 0 (s.tasks 0).startIndex ++ itemsIn rows 0 n := by
  have hsize : r.size = (s.tasks n).startIndex := by
    rw [hr.frame]
    exact h.size_eq
  have hrun : ∀ m ≤ n, rangeBlocks r.pma (s.tasks 0).startIndex (s.tasks m).startIndex =
      itemsIn rows 0 m := by
    intro m
    induction m with
    | zero =>
        intro _
        rw [rangeBlocks_self]
        rfl
    | succ m ih =>
        intro hm
        have hprev := ih (Nat.le_of_succ_le hm)
        have h0 := h.start_mono (Nat.zero_le m) (Nat.le_of_succ_le hm)
        rw [rangeBlocks_append h0 (h.start_le hm), hprev, h.rangeBlocks_row hts hr hm,
          itemsIn_append rows (Nat.zero_le m) (Nat.le_succ m), itemsIn_succ]
  rw [blocks, hsize, rangeBlocks_append (Nat.zero_le _) (h.start_mono (Nat.zero_le n) (le_refl n)),
    hrun n (le_refl n)]
  congr 1
  exact rangeBlocks_congr fun c _ hc => (h.front_cell hts hr hn hc).1

lemma Spreadable.outside {c : ℕ} (hc : r.size ≤ c) : r.pma c = PmaEntry.null p.toBlockParams := by
  have hsize : r.size = (s.tasks n).startIndex := by
    rw [hr.frame]
    exact h.size_eq
  refine hr.other c fun hmem => ?_
  obtain ⟨m, hm, rfl⟩ := List.mem_map.mp hmem
  obtain ⟨u, hu, hm⟩ := (mem_moves hts).mp hm
  have hlt := ((h.taskMoves_ascending hu).2.mem m.2 (List.mem_map_of_mem hm)).2
  have hle := h.start_mono (show u + 1 ≤ n from hu) (le_refl n)
  omega

/-- The swap array is empty again. -/
theorem Spreadable.swapPma_null (hn : 0 < n) (c : ℕ) :
    r.swapPma c = PmaEntry.null p.toBlockParams := by
  by_cases hmem : c ∈ (ts.flatMap (taskMoves s.tasks)).map Prod.fst
  · exact hr.source c hmem
  · rw [hr.unmoved c hmem]
    rcases Nat.lt_or_ge c (s.tasks 0).startIndex with hlt | hge
    · have hm : (c, c) ∈ ts.flatMap (taskMoves s.tasks) := by
        refine (mem_moves hts).mpr ⟨0, hn, List.mem_append_left _ ?_⟩
        rw [h.start_zero] at hlt
        exact List.mem_map.mpr ⟨c, List.mem_range.mpr hlt, rfl⟩
      exact absurd (List.mem_map_of_mem hm) hmem
    · rcases Nat.lt_or_ge c (s.tasks n).startIndex with hlt | hge'
      · obtain ⟨t, ht, h1, h2⟩ := exists_step (f := fun t => (s.tasks t).startIndex) hge n hlt
        obtain ⟨j, rfl⟩ := Nat.exists_eq_add_of_le h1
        rw [h.cell_eq t ht j h2, List.getD_eq_getElem?_getD]
        rcases Nat.lt_or_ge j (rows t).length with hj | hj
        · refine absurd ?_ hmem
          have hk : j < (s.tasks t).numberOfBlocksWritten := by rwa [h.written_eq t ht]
          have hm : ((s.tasks t).startIndex + j, getUniformWriteIndex (s.tasks t).startIndex j
              ((s.tasks (t + 1)).startIndex - (s.tasks t).startIndex)
              (s.tasks t).numberOfBlocksWritten) ∈ ts.flatMap (taskMoves s.tasks) :=
            (mem_moves hts).mpr ⟨t, ht, List.mem_append_right _
              (List.mem_map.mpr ⟨j, List.mem_range.mpr hk, rfl⟩)⟩
          exact List.mem_map_of_mem hm
        · rw [List.getElem?_eq_none hj]
          rfl
      · exact h.behind c hge'

end

end OverallocatedBatchedSparseArray

end BatchPMA
