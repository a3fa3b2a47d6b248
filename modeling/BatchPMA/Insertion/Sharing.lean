import BatchPMA.Insertion.Plan

/-!
# Sharing the work of a merge group

Step A-3 in closed form.  In a group with enough work for its merge block the tasks in front of
the last one share that work; the last task keeps what is behind the merge block.  In all other
groups the last task does everything.
-/

namespace BatchPMA

variable {K α : Type} [LinearOrder K]

namespace BatchedSparseArray

/-! ## Loops over tasks -/

section Loops

variable {s : BatchedSparseArray K α} {idx : ℕ → ℕ}

omit [LinearOrder K] in
lemma foldl_setTask (g : ℕ → TaskInfo → TaskInfo) : ∀ (l : List ℕ) (s : BatchedSparseArray K α),
    (l.map idx).Nodup →
    let r := l.foldl (fun s j => s.setTask (idx j) (g j)) s
    (∃ f, r = { s with tasks := f }) ∧ (∀ t, (∀ j ∈ l, idx j ≠ t) → r.tasks t = s.tasks t) ∧
      ∀ j ∈ l, r.tasks (idx j) = g j (s.tasks (idx j))
  | [], s, _ => ⟨⟨_, rfl⟩, fun _ _ => rfl, fun j hj => absurd hj (by simp)⟩
  | i :: l, s, hn => by
      rw [List.map_cons, List.nodup_cons] at hn
      have hi : ∀ j ∈ l, idx j ≠ idx i := fun j hj heq =>
        hn.1 (heq ▸ List.mem_map_of_mem hj)
      obtain ⟨⟨f, hf⟩, hother, hset⟩ := foldl_setTask g l (s.setTask (idx i) (g i)) hn.2
      rw [List.foldl_cons]
      refine ⟨⟨f, hf⟩, fun t ht => ?_, fun j hj => ?_⟩
      · rw [hother t fun j hj => ht j (List.mem_cons_of_mem _ hj), tasks_setTask,
          Function.update_of_ne (ht i List.mem_cons_self).symm]
      · rcases List.mem_cons.mp hj with rfl | hj
        · rw [hother _ hi, tasks_setTask, Function.update_self]
        · rw [hset j hj, tasks_setTask, Function.update_of_ne (hi j hj)]

/-- The width a task needs for the elements in front of the next task. -/
def withWidth (f : ℕ → TaskInfo) (t : ℕ) : TaskInfo :=
  { f t with
    requiredWidth := getRequiredWidth ((f (t + 1)).firstBatchElement - (f t).firstBatchElement) }

/-- Widths do not depend on widths. -/
lemma withWidth_update (f : ℕ → TaskInfo) {i j : ℕ} (hne : j ≠ i) :
    withWidth (Function.update f i (withWidth f i)) j = withWidth f j := by
  have hfirst : ∀ t, (Function.update f i (withWidth f i) t).firstBatchElement =
      (f t).firstBatchElement := by
    intro t
    rw [Function.update_apply]
    split
    · rename_i heq
      rw [heq]
      rfl
    · rfl
  rw [withWidth, hfirst, hfirst, Function.update_of_ne hne]
  rfl

omit [LinearOrder K] in
lemma foldl_widths : ∀ (l : List ℕ) (s : BatchedSparseArray K α), (l.map idx).Nodup →
    let r := l.foldl (fun s j => s.setTask (idx j) fun task =>
      { task with
        requiredWidth := getRequiredWidth
          ((s.tasks (idx j + 1)).firstBatchElement - task.firstBatchElement) }) s
    (∃ f, r = { s with tasks := f }) ∧ (∀ t, (∀ j ∈ l, idx j ≠ t) → r.tasks t = s.tasks t) ∧
      ∀ j ∈ l, r.tasks (idx j) = withWidth s.tasks (idx j)
  | [], s, _ => ⟨⟨_, rfl⟩, fun _ _ => rfl, fun j hj => absurd hj (by simp)⟩
  | i :: l, s, hn => by
      rw [List.map_cons, List.nodup_cons] at hn
      have hi : ∀ j ∈ l, idx j ≠ idx i := fun j hj heq =>
        hn.1 (heq ▸ List.mem_map_of_mem hj)
      obtain ⟨⟨f, hf⟩, hother, hset⟩ := foldl_widths l
        { s with tasks := Function.update s.tasks (idx i) (withWidth s.tasks (idx i)) } hn.2
      rw [List.foldl_cons]
      refine ⟨⟨f, hf⟩, fun t ht => ?_, fun j hj => ?_⟩
      · refine (hother t fun j hj => ht j (List.mem_cons_of_mem _ hj)).trans ?_
        exact Function.update_of_ne (ht i List.mem_cons_self).symm _ _
      · rcases List.mem_cons.mp hj with rfl | hj
        · exact (hother _ hi).trans (Function.update_self _ _ _)
        · exact (hset j hj).trans (withWidth_update s.tasks (hi j hj))

end Loops

variable {p : BatchedParams K α} {s : BatchedSparseArray K α} {batch : List α} {a e : ℕ}

/-! ## Shares -/

/-- The block behind the merge block of the group that ends with thread `e`. -/
def normalBlock (p : BatchedParams K α) (s : BatchedSparseArray K α) (batch : List α) (e : ℕ) : ℕ :=
  (s.view p).findNext (s.splitterBlock p batch e) (s.splitterBlock p batch (e + 1))

/-- The first element of the group that does not go into its merge block. -/
def mergeEnd (p : BatchedParams K α) (s : BatchedSparseArray K α) (batch : List α) (a e : ℕ) : ℕ :=
  s.lastTaskBatchStart p batch (s.normalBlock p batch e)
    ⟨s.splitterFirst p batch a, s.splitterFirst p batch (e + 1)⟩

/-- The number of elements that go into the merge block. -/
def mergeCount (p : BatchedParams K α) (s : BatchedSparseArray K α) (batch : List α) (a e : ℕ) :
    ℕ := s.mergeEnd p batch a e - s.splitterFirst p batch a

/-- The number of tasks that share the merge block. -/
def workers (p : BatchedParams K α) (s : BatchedSparseArray K α) (batch : List α) (a e : ℕ) : ℕ :=
  min (e - a) (s.mergeCount p batch a e / p.minBlockSize)

/-- Where the share of the `k`-th of these tasks begins. -/
def shareStart (p : BatchedParams K α) (s : BatchedSparseArray K α) (batch : List α)
    (a e k : ℕ) : ℕ :=
  if k < s.workers p batch a e then s.splitterFirst p batch a +
    k * (s.mergeCount p batch a e / s.workers p batch a e)
  else s.mergeEnd p batch a e

/-- The last task does the work of the group. -/
structure ShortGroup (p : BatchedParams K α) (s : BatchedSparseArray K α) (batch : List α)
    (a e : ℕ) (f : ℕ → TaskInfo) : Prop where
  last_type : (f e).type = .insertion
  last_block : (f e).blockForBatchSplitter = s.splitterBlock p batch a
  last_first : (f e).firstBatchElement = s.splitterFirst p batch a
  last_merged : (f e).mergedTasks = 0
  last_width : (f e).requiredWidth = getRequiredWidth
    (s.splitterFirst p batch (e + 1) - s.splitterFirst p batch e)
  idle : ∀ t, a ≤ t → t < e → (f t).type = .doNothing ∧
    (f t).blockForBatchSplitter = s.splitterBlock p batch a ∧
    (f t).firstBatchElement = s.splitterFirst p batch a ∧ (f t).requiredWidth = 0

/-- The tasks in front of the last one share the merge block. -/
structure LongGroup (p : BatchedParams K α) (s : BatchedSparseArray K α) (batch : List α)
    (a e : ℕ) (f : ℕ → TaskInfo) : Prop where
  last_type : (f e).type = .insertion
  last_block : (f e).blockForBatchSplitter = s.normalBlock p batch e
  last_first : (f e).firstBatchElement = s.mergeEnd p batch a e
  last_merged : (f e).mergedTasks = e - a
  last_width : (f e).requiredWidth = getRequiredWidth
    (s.splitterFirst p batch (e + 1) - s.splitterFirst p batch e)
  idle : ∀ t, a ≤ t → t + s.workers p batch a e < e → (f t).type = .doNothing ∧
    (f t).blockForBatchSplitter = s.splitterBlock p batch a ∧
    (f t).firstBatchElement = s.splitterFirst p batch a ∧ (f t).requiredWidth = 0
  working : ∀ k t, t + s.workers p batch a e = e + k → t < e → (f t).type = .inverseMerge ∧
    (f t).blockForBatchSplitter = s.splitterBlock p batch a ∧
    (f t).firstBatchElement = s.shareStart p batch a e k ∧
    (f t).mergedTasks = s.workers p batch a e ∧ (f t).mergedTaskIndex = k ∧
    (f t).requiredWidth = getRequiredWidth
      (s.shareStart p batch a e (k + 1) - s.shareStart p batch a e k)

/-- There is work for the tasks in front of the last one. -/
def HasShares (p : BatchedParams K α) (s : BatchedSparseArray K α) (batch : List α) (a e : ℕ) :
    Prop := a < e ∧ p.minBlockSize ≤ s.mergeCount p batch a e

/-- What step A-3 makes of a group. -/
structure GroupPlan (p : BatchedParams K α) (s : BatchedSparseArray K α) (batch : List α)
    (a e : ℕ) (f : ℕ → TaskInfo) : Prop where
  long : s.HasShares p batch a e → s.LongGroup p batch a e f
  short : ¬ s.HasShares p batch a e → s.ShortGroup p batch a e f

/-! ## One group -/

section Group

variable {f : ℕ → TaskInfo}

/-- The tasks of a group in front of step A-3. -/
structure MergedGroup (p : BatchedParams K α) (s : BatchedSparseArray K α) (batch : List α)
    (a e : ℕ) (f : ℕ → TaskInfo) : Prop where
  last_type : (f e).type = .insertion
  last_block : (f e).blockForBatchSplitter = s.splitterBlock p batch a
  last_first : (f e).firstBatchElement = s.splitterFirst p batch a
  last_merged : (f e).mergedTasks = e - a
  last_width : (f e).requiredWidth = getRequiredWidth
    (s.splitterFirst p batch (e + 1) - s.splitterFirst p batch e)
  inner_type : ∀ t, a ≤ t → t < e → (f t).type = .inverseMerge

lemma mergedGroup_of_isGroup (h : IsGroup (s.splitterBlock p batch) s.numberOfThreads a e)
    (hf : ∀ t, a ≤ t → t ≤ e → f t = s.mergedTask p batch (s.numberOfThreads - 1) t) :
    MergedGroup p s batch a e f := by
  have hlt := h.lt
  have hle := h.le
  have hlast : ¬ (e < s.numberOfThreads - 1 ∧
      s.splitterBlock p batch (e + 1) = s.splitterBlock p batch e) := by
    rintro ⟨h1, h2⟩
    rcases h.last with h3 | h3
    · omega
    · exact h3 h2
  have he : f e = { s.splitterTask p batch e with
      firstBatchElement := s.splitterFirst p batch a
      type := .insertion
      mergedTasks := e - a
      requiredWidth := (s.splitterTask p batch e).requiredWidth } := by
    rw [hf e hle (le_refl _), mergedTask]
    simp only [if_pos (show e ≤ s.numberOfThreads - 1 by omega), h.groupStart_eq hle (le_refl _),
      if_neg hlast]
  refine ⟨by rw [he], ?_, by rw [he], by rw [he], by rw [he]; rfl, fun t h1 h2 => ?_⟩
  · rw [he]
    exact h.same e hle (le_refl _)
  · have hjoin : t < s.numberOfThreads - 1 ∧
        s.splitterBlock p batch (t + 1) = s.splitterBlock p batch t :=
      ⟨by omega, (h.same _ (by omega) h2).trans (h.same t h1 h2.le).symm⟩
    rw [hf t h1 h2.le, mergedTask]
    simp only [if_pos (show t ≤ s.numberOfThreads - 1 by omega), if_pos hjoin]

lemma nodup_map_sub {e : ℕ} {l : List ℕ} (hl : l.Nodup) (hle : ∀ m ∈ l, m ≤ e) :
    (l.map fun m => e - m).Nodup := by
  refine hl.map_on fun x hx y hy hxy => ?_
  have := hle x hx
  have := hle y hy
  omega

lemma mem_reverse_range' {x a n : ℕ} : x ∈ (List.range' a n).reverse ↔ a ≤ x ∧ x < a + n := by
  rw [List.mem_reverse, List.mem_range'_1]

/-- `distributeGroup` on the tasks of a group. -/
lemma MergedGroup.distributeGroup_eq (h : MergedGroup p s batch a e f) (hae : a < e)
    (hblock : (f (e + 1)).blockForBatchSplitter = s.splitterBlock p batch (e + 1))
    (hfirst : (f (e + 1)).firstBatchElement = s.splitterFirst p batch (e + 1))
    (hsame : s.splitterBlock p batch e = s.splitterBlock p batch a) :
    let r : BatchedSparseArray K α := { s with tasks := f }
    let w := s.workers p batch a e
    let range : Interval := ⟨s.splitterFirst p batch a, s.mergeEnd p batch a e⟩
    let working := (List.range' 1 w).reverse
    distributeGroup p batch r e =
      if p.minBlockSize ≤ s.mergeCount p batch a e then
        working.foldl (fun s mergeThread => s.setTask (e - mergeThread) fun task =>
          { task with
            requiredWidth := getRequiredWidth
              ((s.tasks (e - mergeThread + 1)).firstBatchElement - task.firstBatchElement) })
          (working.foldl (fun s' mergeThread => s'.setTask (e - mergeThread)
            (shareTask range (s.splitterBlock p batch a) w mergeThread))
            ((List.range' (w + 1) (e - a - w)).reverse.foldl
              (fun s' mergeThread => s'.setTask (e - mergeThread)
                (idleTask (s.splitterFirst p batch a) (s.splitterBlock p batch a) w))
              (r.setTask e fun task =>
                { task with
                  firstBatchElement := s.mergeEnd p batch a e
                  blockForBatchSplitter := s.normalBlock p batch e })))
      else
        ((List.range' 1 (e - a)).reverse.foldl (fun s' mergeThread => s'.setTask (e - mergeThread)
          (idleTask (s.splitterFirst p batch a) (s.splitterBlock p batch a) 0)) r).setTask e
            fun task => { task with mergedTasks := 0 } := by
  intro r w range working
  have hnormal : (r.view p).findNext (s.splitterBlock p batch a) (s.splitterBlock p batch (e + 1)) =
      s.normalBlock p batch e := by
    rw [normalBlock, hsame]
    rfl
  have hend : r.lastTaskBatchStart p batch (s.normalBlock p batch e) ⟨s.splitterFirst p batch a,
      s.splitterFirst p batch (e + 1)⟩ = s.mergeEnd p batch a e := rfl
  rw [distributeGroup]
  simp only [r, h.last_type, h.last_merged, h.last_block, h.last_first, hblock, hfirst, true_and]
  rw [if_pos (by omega), hnormal, hend]
  rfl

/-- Not enough work for even one merge task. -/
lemma MergedGroup.short (h : MergedGroup p s batch a e f) (hae : a < e)
    (hcount : ¬ p.minBlockSize ≤ s.mergeCount p batch a e)
    (hblock : (f (e + 1)).blockForBatchSplitter = s.splitterBlock p batch (e + 1))
    (hfirst : (f (e + 1)).firstBatchElement = s.splitterFirst p batch (e + 1))
    (hsame : s.splitterBlock p batch e = s.splitterBlock p batch a) :
    ∃ f', distributeGroup p batch { s with tasks := f } e = { s with tasks := f' } ∧
      ShortGroup p s batch a e f' ∧ ∀ t, t < a ∨ e < t → f' t = f t := by
  obtain ⟨⟨f₁, hf₁⟩, hother, hset⟩ := @foldl_setTask _ _ (fun m => e - m)
    (fun _ => idleTask (s.splitterFirst p batch a) (s.splitterBlock p batch a) 0)
    (List.range' 1 (e - a)).reverse { s with tasks := f }
    (nodup_map_sub (List.nodup_reverse.mpr (List.nodup_range' 1)) fun m hm => by
      rw [mem_reverse_range'] at hm
      omega)
  refine ⟨Function.update f₁ e { f₁ e with mergedTasks := 0 }, ?_, ?_, fun t ht => ?_⟩
  · rw [h.distributeGroup_eq hae hblock hfirst hsame, if_neg hcount, hf₁]
    rfl
  all_goals rw [hf₁] at hother hset
  · have hlast : f₁ e = f e := hother e fun m hm => by
      rw [mem_reverse_range'] at hm
      omega
    refine ⟨by simp [hlast, h.last_type], by simp [hlast, h.last_block],
      by simp [hlast, h.last_first], by simp, by simp [hlast, h.last_width], fun t h1 h2 => ?_⟩
    have hidle := hset (e - t) (mem_reverse_range'.mpr (by omega))
    simp only [Nat.sub_sub_self h2.le] at hidle
    rw [Function.update_of_ne h2.ne, hidle]
    exact ⟨rfl, rfl, rfl, rfl⟩
  · rw [Function.update_of_ne (by omega)]
    exact hother t fun m hm => by
      rw [mem_reverse_range'] at hm
      omega

/-- The shares of the tasks in front of the last one. -/
lemma MergedGroup.long (h : MergedGroup p s batch a e f) (hae : a < e)
    (hcount : p.minBlockSize ≤ s.mergeCount p batch a e)
    (hblock : (f (e + 1)).blockForBatchSplitter = s.splitterBlock p batch (e + 1))
    (hfirst : (f (e + 1)).firstBatchElement = s.splitterFirst p batch (e + 1))
    (hsame : s.splitterBlock p batch e = s.splitterBlock p batch a) :
    ∃ f', distributeGroup p batch { s with tasks := f } e = { s with tasks := f' } ∧
      LongGroup p s batch a e f' ∧ ∀ t, t < a ∨ e < t → f' t = f t := by
  have hw : s.workers p batch a e ≤ e - a := min_le_left _ _
  have hmap : ∀ {i n : ℕ}, i + n ≤ e + 1 → ((List.range' i n).reverse.map fun m => e - m).Nodup := by
    intro i n hin
    refine nodup_map_sub (List.nodup_reverse.mpr (List.nodup_range' 1)) fun m hm => ?_
    rw [mem_reverse_range'] at hm
    omega
  obtain ⟨⟨f₁, hf₁⟩, hother₁, hset₁⟩ := @foldl_setTask _ _ (fun m => e - m)
    (fun _ => idleTask (s.splitterFirst p batch a) (s.splitterBlock p batch a)
      (s.workers p batch a e))
    (List.range' (s.workers p batch a e + 1) (e - a - s.workers p batch a e)).reverse
    { s with tasks := Function.update f e { f e with
        firstBatchElement := s.mergeEnd p batch a e
        blockForBatchSplitter := s.normalBlock p batch e } } (hmap (by omega))
  obtain ⟨⟨f₂, hf₂⟩, hother₂, hset₂⟩ := @foldl_setTask _ _ (fun m => e - m)
    (shareTask ⟨s.splitterFirst p batch a, s.mergeEnd p batch a e⟩ (s.splitterBlock p batch a)
      (s.workers p batch a e))
    (List.range' 1 (s.workers p batch a e)).reverse { s with tasks := f₁ } (hmap (by omega))
  obtain ⟨⟨f₃, hf₃⟩, hother₃, hset₃⟩ := @foldl_widths _ _ (fun m => e - m)
    (List.range' 1 (s.workers p batch a e)).reverse { s with tasks := f₂ } (hmap (by omega))
  refine ⟨f₃, ?_, ?_, fun t ht => ?_⟩
  · have hstart : ({ s with tasks := f } : BatchedSparseArray K α).setTask e (fun task =>
        { task with
          firstBatchElement := s.mergeEnd p batch a e
          blockForBatchSplitter := s.normalBlock p batch e }) =
        { s with tasks := Function.update f e { f e with
          firstBatchElement := s.mergeEnd p batch a e
          blockForBatchSplitter := s.normalBlock p batch e } } := rfl
    rw [h.distributeGroup_eq hae hblock hfirst hsame, if_pos hcount, hstart, hf₁, hf₂, hf₃]
  all_goals rw [hf₁] at hother₁ hset₁
  all_goals rw [hf₂] at hother₂ hset₂
  all_goals rw [hf₃] at hother₃ hset₃
  all_goals simp only [mem_reverse_range'] at hother₁ hset₁ hother₂ hset₂ hother₃ hset₃
  · have hlast₁ : f₁ e = { f e with
        firstBatchElement := s.mergeEnd p batch a e
        blockForBatchSplitter := s.normalBlock p batch e } :=
      (hother₁ e fun m hm => by omega).trans (Function.update_self _ _ _)
    have hlast₂ : f₂ e = f₁ e := hother₂ e fun m hm => by omega
    have hlast : f₃ e = f₁ e := (hother₃ e fun m hm => by omega).trans hlast₂
    rw [hlast₁] at hlast hlast₂
    refine ⟨by rw [hlast]; exact h.last_type, by rw [hlast], by rw [hlast],
      by rw [hlast]; exact h.last_merged, by rw [hlast]; exact h.last_width,
      fun t h1 h2 => ?_, fun k t h1 h2 => ?_⟩
    · have hidle := hset₁ (e - t) (by omega)
      simp only [Nat.sub_sub_self (show t ≤ e by omega)] at hidle
      rw [hother₃ t fun m hm => by omega, hother₂ t fun m hm => by omega, hidle]
      exact ⟨rfl, rfl, rfl, rfl⟩
    · -- the `k`-th working task
      have htype : (f₁ t).type = .inverseMerge := by
        rw [hother₁ t fun m hm => by omega, Function.update_of_ne h2.ne]
        exact h.inner_type t (by omega) h2
      have hshare : ∀ j t', t' + s.workers p batch a e = e + j → t' < e →
          f₂ t' = shareTask ⟨s.splitterFirst p batch a, s.mergeEnd p batch a e⟩
            (s.splitterBlock p batch a) (s.workers p batch a e) (e - t') (f₁ t') := by
        intro j t' g1 g2
        have := hset₂ (e - t') (by omega)
        simp only [Nat.sub_sub_self g2.le] at this
        exact this
      have hstart : ∀ j t', t' + s.workers p batch a e = e + j → t' ≤ e →
          (f₂ t').firstBatchElement = s.shareStart p batch a e j := by
        intro j t' g1 g2
        rw [shareStart]
        rcases Nat.eq_or_lt_of_le g2 with rfl | g2
        · rw [if_neg (by omega), hlast₂]
        · have hj : s.workers p batch a e - (e - t') = j := by omega
          rw [if_pos (by omega), hshare j t' g1 g2, shareTask, hj]
          simp only [Interval.length]
          refine min_eq_left ?_
          -- the shares do not go beyond the merge batch
          have hwork : s.workers p batch a e ≤ s.mergeCount p batch a e / p.minBlockSize :=
            min_le_right _ _
          have hpos : 0 < s.mergeCount p batch a e := by
            by_contra h0
            rw [show s.mergeCount p batch a e = 0 by omega, Nat.zero_div] at hwork
            omega
          have hle : j * (s.mergeCount p batch a e / s.workers p batch a e) ≤
              s.mergeCount p batch a e := by
            calc j * (s.mergeCount p batch a e / s.workers p batch a e)
                ≤ s.workers p batch a e * (s.mergeCount p batch a e / s.workers p batch a e) :=
                  Nat.mul_le_mul_right _ (by omega)
              _ ≤ s.mergeCount p batch a e := Nat.mul_div_le _ _
          rw [mergeCount] at hpos hle
          omega
      have hwidth := hset₃ (e - t) (by omega)
      simp only [Nat.sub_sub_self h2.le] at hwidth
      have ht₂ := hshare k t h1 h2
      have hk : s.workers p batch a e - (e - t) = k := by omega
      rw [hwidth, withWidth, hstart k t h1 h2.le, hstart (k + 1) (t + 1) (by omega) (by omega), ht₂]
      refine ⟨htype, rfl, ?_, rfl, hk, rfl⟩
      rw [← hstart k t h1 h2.le, ht₂]
  · rw [hother₃ t fun m hm => by omega, hother₂ t fun m hm => by omega,
      hother₁ t fun m hm => by omega]
    exact Function.update_of_ne (by omega) _ _

/-- What step A-3 makes of a group. -/
lemma MergedGroup.distributeGroup
    (hg : IsGroup (s.splitterBlock p batch) s.numberOfThreads a e)
    (h : MergedGroup p s batch a e f)
    (hblock : (f (e + 1)).blockForBatchSplitter = s.splitterBlock p batch (e + 1))
    (hfirst : (f (e + 1)).firstBatchElement = s.splitterFirst p batch (e + 1)) :
    ∃ f', BatchedSparseArray.distributeGroup p batch { s with tasks := f } e =
      { s with tasks := f' } ∧ GroupPlan p s batch a e f' ∧ ∀ t, t < a ∨ e < t → f' t = f t := by
  have hsame := hg.same e hg.le (le_refl _)
  rcases Nat.eq_or_lt_of_le hg.le with heq | hae
  · -- a thread alone
    subst heq
    have hmerged : (f a).mergedTasks = 0 := by rw [h.last_merged, Nat.sub_self]
    refine ⟨f, ?_, ⟨fun hs => absurd hs.1 (lt_irrefl _), fun _ => ?_⟩, fun _ _ => rfl⟩
    · rw [BatchedSparseArray.distributeGroup]
      simp only [hmerged, lt_irrefl, and_false, if_false]
    · exact ⟨h.last_type, h.last_block, h.last_first, hmerged, h.last_width,
        fun t h1 h2 => by omega⟩
  · by_cases hcount : p.minBlockSize ≤ s.mergeCount p batch a e
    · obtain ⟨f', h1, h2, h3⟩ := h.long hae hcount hblock hfirst hsame
      exact ⟨f', h1, ⟨fun _ => h2, fun hn => absurd ⟨hae, hcount⟩ hn⟩, h3⟩
    · obtain ⟨f', h1, h2, h3⟩ := h.short hae hcount hblock hfirst hsame
      exact ⟨f', h1, ⟨fun hs => absurd hs.2 hcount, fun _ => h2⟩, h3⟩

lemma GroupPlan.congr {f' : ℕ → TaskInfo} (h : GroupPlan p s batch a e f) (hae : a ≤ e)
    (hf : ∀ t, a ≤ t → t ≤ e → f' t = f t) : GroupPlan p s batch a e f' := by
  have he : f' e = f e := hf e hae (le_refl _)
  refine ⟨fun hs => ?_, fun hs => ?_⟩
  · have hl := h.long hs
    have hw : s.workers p batch a e ≤ e - a := min_le_left _ _
    refine ⟨he ▸ hl.last_type, he ▸ hl.last_block, he ▸ hl.last_first, he ▸ hl.last_merged,
      he ▸ hl.last_width, fun t h1 h2 => ?_, fun k t h1 h2 => ?_⟩
    · rw [hf t h1 (by omega)]
      exact hl.idle t h1 h2
    · rw [hf t (by omega) h2.le]
      exact hl.working k t h1 h2
  · have hl := h.short hs
    refine ⟨he ▸ hl.last_type, he ▸ hl.last_block, he ▸ hl.last_first, he ▸ hl.last_merged,
      he ▸ hl.last_width, fun t h1 h2 => ?_⟩
    rw [hf t h1 h2.le]
    exact hl.idle t h1 h2

end Group

/-! ## All groups -/

/-- The tasks when the loop of step A-3 has come to thread `k`: the groups that end in front of it
have got their plan, the other ones are as step A-2 has left them. -/
structure Sharing (p : BatchedParams K α) (s : BatchedSparseArray K α) (batch : List α) (k : ℕ)
    (r : BatchedSparseArray K α) : Prop where
  frame : ∃ f, r = { s with tasks := f }
  planned : ∀ a e, IsGroup (s.splitterBlock p batch) s.numberOfThreads a e → e < k →
    GroupPlan p s batch a e r.tasks
  merged : ∀ a e, IsGroup (s.splitterBlock p batch) s.numberOfThreads a e → k ≤ e →
    ∀ t, a ≤ t → t ≤ e → r.tasks t = s.mergedTask p batch (s.numberOfThreads - 1) t
  sentinel_block : (r.tasks s.numberOfThreads).blockForBatchSplitter = s.size
  sentinel_first : (r.tasks s.numberOfThreads).firstBatchElement = batch.length
  sentinel_width : (r.tasks s.numberOfThreads).requiredWidth = 0

lemma Sharing.step {r : BatchedSparseArray K α} {k : ℕ} (h : Sharing p s batch k r)
    (hk : k < s.numberOfThreads) : Sharing p s batch (k + 1) (distributeGroup p batch r k) := by
  obtain ⟨f, rfl⟩ := h.frame
  obtain ⟨a, e, hg, hak, hke⟩ := exists_group (s.splitterBlock p batch) hk
  have hmg := mergedGroup_of_isGroup hg fun t h1 h2 => h.merged a e hg hke t h1 h2
  rcases Nat.eq_or_lt_of_le hke with rfl | hlt
  · -- the group ends here, and the next one has not been dealt with
    have hnext : (f (k + 1)).blockForBatchSplitter = s.splitterBlock p batch (k + 1) ∧
        (f (k + 1)).firstBatchElement = s.splitterFirst p batch (k + 1) := by
      rcases Nat.lt_or_ge (k + 1) s.numberOfThreads with hlt | hge
      · obtain ⟨a', e', hg', h1, h2⟩ := exists_group (s.splitterBlock p batch) hlt
        have htask := h.merged a' e' hg' (by omega) (k + 1) h1 h2
        simp only at htask
        rw [htask, mergedTask]
        simp only [if_pos (show k + 1 ≤ s.numberOfThreads - 1 by omega), hg.groupStart_succ hlt]
        exact ⟨rfl, trivial⟩
      · obtain hT : k + 1 = s.numberOfThreads := by omega
        rw [hT, splitterBlock, if_neg (lt_irrefl _), splitterFirst, if_neg (by omega),
          if_neg (lt_irrefl _)]
        exact ⟨h.sentinel_block, h.sentinel_first⟩
    obtain ⟨f', heq, hplan, hother⟩ := hmg.distributeGroup hg hnext.1 hnext.2
    simp only at heq hother
    rw [heq]
    refine ⟨⟨f', rfl⟩, fun a' e' hg' hlt => ?_, fun a' e' hg' hle t h1 h2 => ?_, ?_, ?_, ?_⟩
    · rcases Nat.eq_or_lt_of_le (Nat.le_of_lt_succ hlt) with rfl | hlt'
      · obtain ⟨rfl, -⟩ := hg.unique hg' hg.le (le_refl _) hg'.le (le_refl _)
        exact hplan
      · refine (h.planned a' e' hg' hlt').congr hg'.le fun t h1 h2 => hother t (Or.inl ?_)
        by_contra hge
        have := (hg.unique hg' (t := t) (by omega) (by omega) h1 h2).2
        omega
    · rw [show ({ s with tasks := f' } : BatchedSparseArray K α).tasks t = f' t from rfl,
        hother t (Or.inr ?_)]
      · exact h.merged a' e' hg' (by omega) t h1 h2
      · by_contra hge
        rcases Nat.lt_or_ge t a with hta | hta
        · have hak' := hg.le
          have := (hg.unique hg' (t := a) (le_refl _) hg.le (by omega) (by omega)).1
          omega
        · have := (hg.unique hg' (t := t) hta (by omega) h1 h2).2
          omega
    · exact (congrArg TaskInfo.blockForBatchSplitter (hother _ (Or.inr hk))).trans h.sentinel_block
    · exact (congrArg TaskInfo.firstBatchElement (hother _ (Or.inr hk))).trans h.sentinel_first
    · exact (congrArg TaskInfo.requiredWidth (hother _ (Or.inr hk))).trans h.sentinel_width
  · -- the thread has been merged into a later one
    have htype : (f k).type = .inverseMerge := hmg.inner_type k hak hlt
    have hsame : distributeGroup p batch { s with tasks := f } k = { s with tasks := f } := by
      rw [distributeGroup]
      simp only [htype, reduceCtorEq, false_and, if_false]
    rw [hsame]
    refine ⟨⟨f, rfl⟩, fun a' e' hg' hlt' => ?_, fun a' e' hg' hle => h.merged a' e' hg' (by omega),
      h.sentinel_block, h.sentinel_first, h.sentinel_width⟩
    refine h.planned a' e' hg' ?_
    by_contra hge
    obtain rfl : e' = k := by omega
    have := (hg.unique hg' hak hke hg'.le (le_refl _)).2
    omega

lemma Sharing.foldl : ∀ (n k : ℕ) (r : BatchedSparseArray K α), k + n ≤ s.numberOfThreads →
    Sharing p s batch k r →
      Sharing p s batch (k + n) ((List.range' k n).foldl (distributeGroup p batch) r)
  | 0, _, _, _, h => h
  | n + 1, k, r, hk, h => by
      rw [List.range'_succ, List.foldl_cons, show k + (n + 1) = k + 1 + n by omega]
      exact Sharing.foldl n (k + 1) _ (by omega) (h.step (by omega))

/-- The state after steps A-1 to A-3. -/
def distributed (p : BatchedParams K α) (s : BatchedSparseArray K α) (batch : List α) :
    BatchedSparseArray K α :=
  ((s.findSplitters p batch).mergeTasks).distributeWorkInMergedTasks p batch

/-- **Step A-3.**  Every group has got its plan. -/
theorem sharing_distributed (hT : 0 < s.numberOfThreads) :
    Sharing p s batch s.numberOfThreads (s.distributed p batch) := by
  obtain ⟨⟨f, hf⟩, htasks, hsent⟩ := @mergeTasks_spec _ _ _ p s batch hT
  have hzero : (s.findSplitters p batch).mergeTasks.setTask 0
      (fun task => { task with mergedTasks := 0 }) = (s.findSplitters p batch).mergeTasks := by
    have h0 : ((s.findSplitters p batch).mergeTasks.tasks 0).mergedTasks = 0 := by
      rw [htasks 0 hT, mergedTask]
      simp
    rw [setTask]
    have hupd : Function.update (s.findSplitters p batch).mergeTasks.tasks 0
        { (s.findSplitters p batch).mergeTasks.tasks 0 with mergedTasks := 0 } =
          (s.findSplitters p batch).mergeTasks.tasks := by
      refine Function.update_eq_self_iff.mpr ?_
      generalize (s.findSplitters p batch).mergeTasks.tasks 0 = task at h0
      cases task
      simp only at h0
      rw [h0]
    rw [hupd]
  have hstart : Sharing p s batch 0 (s.findSplitters p batch).mergeTasks := by
    refine ⟨⟨f, hf⟩, fun _ _ _ h => absurd h (Nat.not_lt_zero _),
      fun a e hg _ t _ h2 => htasks t (lt_of_le_of_lt h2 hg.lt), ?_, ?_, ?_⟩ <;> rw [hsent]
  have hone := hstart.step hT
  have hidle : distributeGroup p batch (s.findSplitters p batch).mergeTasks 0 =
      (s.findSplitters p batch).mergeTasks := by
    have h0 : ((s.findSplitters p batch).mergeTasks.tasks 0).mergedTasks = 0 := by
      rw [htasks 0 hT, mergedTask]
      simp
    rw [distributeGroup]
    simp only [h0, lt_irrefl, and_false, if_false]
  rw [hidle] at hone
  have hall := Sharing.foldl (s.numberOfThreads - 1) 1 _ (by omega) hone
  rw [Nat.add_sub_cancel' hT] at hall
  have hnum : (s.findSplitters p batch).mergeTasks.numberOfThreads = s.numberOfThreads := by
    rw [hf]
  rw [distributed, distributeWorkInMergedTasks, hzero, hnum]
  exact hall

end BatchedSparseArray

end BatchPMA
