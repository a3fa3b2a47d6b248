import BatchPMA.InPlace.Plan
import BatchPMA.Model.OutOfPlace

/-!
# The plan of merge groups

The distribution of work in closed form.  In a group of threads whose splitters belong to one block
the last task gets what lies behind that block, and the tasks in front of it share the block and its
batch elements.  A share may be empty, but the first one is not.
-/

namespace BatchPMA

open KeyedUnion Ranges

variable {K α : Type} [LinearOrder K]

namespace OverallocatedBatchedSparseArray

variable {p : OverallocatedParams K α} {s : OverallocatedBatchedSparseArray K α} {batch : List α}
  {n a e k : ℕ} {f f' : ℕ → TaskInfo}

/-! ## Shares -/

/-- The block behind the merge block of the group that ends with thread `e`. -/
def normalBlock (p : OverallocatedParams K α) (s : OverallocatedBatchedSparseArray K α)
    (batch : List α) (n e : ℕ) : ℕ :=
  (s.asBatched p n).normalBlock (batchedParams p) batch e

/-- The first element of the group that does not go into its merge block. -/
def mergeEnd (p : OverallocatedParams K α) (s : OverallocatedBatchedSparseArray K α)
    (batch : List α) (n a e : ℕ) : ℕ :=
  (s.asBatched p n).mergeEnd (batchedParams p) batch a e

/-- The size of a share. -/
def shareSize (p : OverallocatedParams K α) (s : OverallocatedBatchedSparseArray K α)
    (batch : List α) (n a e : ℕ) : ℕ :=
  (s.mergeEnd p batch n a e - s.splitterFirst p batch n a) / (e - a) + 1

/-- Where the share of the `k`-th task of a group begins. -/
def shareFirst (p : OverallocatedParams K α) (s : OverallocatedBatchedSparseArray K α)
    (batch : List α) (n a e k : ℕ) : ℕ :=
  min (s.splitterFirst p batch n a + k * s.shareSize p batch n a e) (s.mergeEnd p batch n a e)

/-- The task that works on the `k`-th share. -/
structure Worker (p : OverallocatedParams K α) (s : OverallocatedBatchedSparseArray K α)
    (batch : List α) (n a e k : ℕ) (task : TaskInfo) : Prop where
  type_eq : task.type = .inverseMerge
  block_eq : task.blockForBatchSplitter = s.splitterBlock p batch n a
  first_eq : task.firstBatchElement = s.shareFirst p batch n a e k
  merged_eq : task.mergedTasks = e - a
  index_eq : task.mergedTaskIndex = k
  width_eq : task.requiredWidth = maxRedistributionWidth p
    (s.blockSize (s.splitterBlock p batch n a)) (s.shareSize p batch n a e)

/-- The tasks of a group. -/
structure GroupTasks (p : OverallocatedParams K α) (s : OverallocatedBatchedSparseArray K α)
    (batch : List α) (n a e : ℕ) (f : ℕ → TaskInfo) : Prop where
  last_type : (f e).type = .insertion
  last_block : (f e).blockForBatchSplitter =
    if a < e then s.normalBlock p batch n e else s.splitterBlock p batch n a
  last_first : (f e).firstBatchElement =
    if a < e then s.mergeEnd p batch n a e else s.splitterFirst p batch n a
  last_width : (f e).requiredWidth = s.splitterWidth p batch n e
  worker : ∀ k, a + k < e → Worker p s batch n a e k (f (a + k))

lemma GroupTasks.congr (h : GroupTasks p s batch n a e f) (hae : a ≤ e)
    (hf : ∀ t, a ≤ t → t ≤ e → f' t = f t) : GroupTasks p s batch n a e f' := by
  have he : f' e = f e := hf e hae (le_refl _)
  refine ⟨he ▸ h.last_type, he ▸ h.last_block, he ▸ h.last_first, he ▸ h.last_width, fun k hk => ?_⟩
  rw [hf _ (Nat.le_add_right a k) hk.le]
  exact h.worker k hk

/-! ## What step 2 leaves -/

omit [LinearOrder K] in
lemma groupStart_congr {block block' : ℕ → ℕ} : ∀ {t : ℕ}, (∀ u ≤ t, block' u = block u) →
    groupStart block' t = groupStart block t := by
  intro t
  induction t with
  | zero => exact fun _ => rfl
  | succ t ih =>
      intro h
      rw [groupStart, groupStart, ih fun u hu => h u (by omega), h (t + 1) (le_refl _),
        h t (by omega)]

/-- The tasks of a group in front of the distribution of its work. -/
structure MergedGroup (p : OverallocatedParams K α) (s : OverallocatedBatchedSparseArray K α)
    (batch : List α) (n a e : ℕ) (f : ℕ → TaskInfo) : Prop where
  last_type : (f e).type = .insertion
  last_merged : 0 < e → (f e).mergedTasks = e - a
  last_width : (f e).requiredWidth = s.splitterWidth p batch n e
  inner_type : ∀ t, a ≤ t → t < e → (f t).type = .inverseMerge
  block_eq : ∀ t, a ≤ t → t ≤ e → (f t).blockForBatchSplitter = s.splitterBlock p batch n a
  first_eq : ∀ t, a ≤ t → t ≤ e → (f t).firstBatchElement = s.splitterFirst p batch n a

lemma MergedGroup.congr (h : MergedGroup p s batch n a e f) (hae : a ≤ e)
    (hf : ∀ t, a ≤ t → t ≤ e → f' t = f t) : MergedGroup p s batch n a e f' := by
  have he : f' e = f e := hf e hae (le_refl _)
  refine ⟨he ▸ h.last_type, he ▸ h.last_merged, he ▸ h.last_width, ?_, ?_, ?_⟩
  · intro t h1 h2
    rw [hf t h1 h2.le]
    exact h.inner_type t h1 h2
  · intro t h1 h2
    rw [hf t h1 h2]
    exact h.block_eq t h1 h2
  · intro t h1 h2
    rw [hf t h1 h2]
    exact h.first_eq t h1 h2

/-- The tasks that step 2 works on. -/
lemma mergedGroup_of_base {base : ℕ → TaskInfo}
    (hbase : ∀ t ≤ n, base t = s.splitterTask p batch n t)
    (hg : IsGroup (s.splitterBlock p batch n) n a e) :
    MergedGroup p s batch n a e (mergedTask base (n - 1)) := by
  have hlt := hg.lt
  have hblock : ∀ t ≤ n, (base t).blockForBatchSplitter = s.splitterBlock p batch n t := by
    intro t ht
    rw [hbase t ht]
    rfl
  have hstart : ∀ t, a ≤ t → t ≤ e →
      groupStart (fun t => (base t).blockForBatchSplitter) t = a := by
    intro t h1 h2
    rw [groupStart_congr fun u hu => hblock u (by omega)]
    exact hg.groupStart_eq h1 h2
  have hfirst : (base a).firstBatchElement = s.splitterFirst p batch n a := by
    rw [hbase a (by have := hg.le; omega)]
    rfl
  have hmerged : ∀ t, a ≤ t → t ≤ e → mergedTask base (n - 1) t =
      { base t with
        firstBatchElement := (base a).firstBatchElement
        type := if t < n - 1 ∧ (base (t + 1)).blockForBatchSplitter =
          (base t).blockForBatchSplitter then .inverseMerge else .insertion
        mergedTasks := if t = 0 then (base 0).mergedTasks else t - a
        requiredWidth := if t < n - 1 ∧ (base (t + 1)).blockForBatchSplitter =
          (base t).blockForBatchSplitter then 0 else (base t).requiredWidth } := by
    intro t h1 h2
    rw [mergedTask, if_pos (show t ≤ n - 1 by omega)]
    simp only
    rw [hstart t h1 h2]
  have hlast : ¬ (e < n - 1 ∧ (base (e + 1)).blockForBatchSplitter =
      (base e).blockForBatchSplitter) := by
    rintro ⟨h1, h2⟩
    rw [hblock _ (by omega), hblock _ (by omega)] at h2
    rcases hg.last with h3 | h3
    · omega
    · exact h3 h2
  have hle := hg.le
  refine ⟨?_, ?_, ?_, ?_, ?_, ?_⟩
  · rw [hmerged e hle (le_refl _)]
    simp only
    rw [if_neg hlast]
  · intro hpos
    rw [hmerged e hle (le_refl _)]
    simp only
    rw [if_neg (by omega)]
  · rw [hmerged e hle (le_refl _)]
    simp only
    rw [if_neg hlast, hbase e hlt.le, splitterTask, if_pos hlt]
  · intro t h1 h2
    have hjoined : t < n - 1 ∧ (base (t + 1)).blockForBatchSplitter =
        (base t).blockForBatchSplitter := by
      rw [hblock _ (by omega), hblock _ (by omega)]
      exact ⟨by omega, (hg.same _ (by omega) h2).trans (hg.same t h1 h2.le).symm⟩
    rw [hmerged t h1 h2.le]
    exact if_pos hjoined
  · intro t h1 h2
    rw [mergedTask_block, hblock t (by omega)]
    exact hg.same t h1 h2
  · intro t h1 h2
    rw [hmerged t h1 h2]
    exact hfirst

/-! ## The distribution of a group -/

omit [LinearOrder K] in
lemma foldl_setTask (idx : ℕ → ℕ) (g : ℕ → TaskInfo → TaskInfo) :
    ∀ (l : List ℕ) (s : OverallocatedBatchedSparseArray K α), (l.map idx).Nodup →
      ∃ f, l.foldl (fun s j => s.setTask (idx j) (g j)) s = { s with tasks := f } ∧
        (∀ t, (∀ j ∈ l, idx j ≠ t) → f t = s.tasks t) ∧
          ∀ j ∈ l, f (idx j) = g j (s.tasks (idx j)) := by
  intro l
  induction l with
  | nil =>
      intro s _
      exact ⟨s.tasks, rfl, fun _ _ => rfl, fun j hj => absurd hj List.not_mem_nil⟩
  | cons i l ih =>
      intro s hn
      rw [List.map_cons, List.nodup_cons] at hn
      have hi : ∀ j ∈ l, idx j ≠ idx i := fun j hj heq => hn.1 (heq ▸ List.mem_map_of_mem hj)
      obtain ⟨f, hf, hother, hset⟩ := ih (s.setTask (idx i) (g i)) hn.2
      refine ⟨f, hf, fun t ht => ?_, fun j hj => ?_⟩
      · rw [hother t fun j hj => ht j (List.mem_cons_of_mem _ hj)]
        exact Function.update_of_ne (ht i List.mem_cons_self).symm _ _
      · rcases List.mem_cons.mp hj with rfl | hj
        · rw [hother _ hi]
          exact Function.update_self _ _ _
        · rw [hset j hj]
          exact congrArg (g j) (Function.update_of_ne (hi j hj) _ _)

lemma lastTaskBatchStart_eq (hvalid : s.Valid p) (c : ℕ) (range : Interval) :
    (s.asBatched p n).lastTaskBatchStart (batchedParams p) batch c range =
      s.lastTaskBatchStart p batch c range := by
  have hempty : (s.asBatched p n).empty (batchedParams p) = s.empty p :=
    congrArg ArrayView.empty hvalid.view_asBatched
  rw [BatchedSparseArray.lastTaskBatchStart, lastTaskBatchStart, hempty]
  rfl

/-- **One group.** -/
lemma MergedGroup.distributeGroup (h : MergedGroup p s batch n a e f) (hvalid : s.Valid p)
    (hae : a < e) (hsame : s.splitterBlock p batch n e = s.splitterBlock p batch n a)
    (hne : s.mergeEnd p batch n a e ≠ s.splitterFirst p batch n a)
    (hblock : (f (e + 1)).blockForBatchSplitter = s.splitterBlock p batch n (e + 1))
    (hfirst : (f (e + 1)).firstBatchElement = s.splitterFirst p batch n (e + 1)) :
    ∃ f', OverallocatedBatchedSparseArray.distributeGroup p batch { s with tasks := f } e =
        { s with tasks := f' } ∧ GroupTasks p s batch n a e f' ∧
          ∀ t, t < a ∨ e < t → f' t = f t := by
  have hnormal : (s.view p).findNext (s.splitterBlock p batch n a)
      (s.splitterBlock p batch n (e + 1)) = s.normalBlock p batch n e := by
    rw [normalBlock, BatchedSparseArray.normalBlock, hvalid.view_asBatched, ← hsame]
    rfl
  have hend : s.lastTaskBatchStart p batch (s.normalBlock p batch n e)
      ⟨s.splitterFirst p batch n a, s.splitterFirst p batch n (e + 1)⟩ =
        s.mergeEnd p batch n a e := (lastTaskBatchStart_eq hvalid _ _).symm
  have hnodup : ((List.range' 1 (e - a)).reverse.map fun m => e - m).Nodup := by
    refine (List.nodup_reverse.mpr (List.nodup_range' 1)).map_on fun x hx y hy hxy => ?_
    rw [List.mem_reverse, List.mem_range'_1] at hx hy
    omega
  obtain ⟨g, hg, hother, hset⟩ := foldl_setTask (fun m => e - m)
    (fun m => shareTask p s ⟨s.splitterFirst p batch n a, s.mergeEnd p batch n a e⟩
      (s.splitterBlock p batch n a) (e - a) m) (List.range' 1 (e - a)).reverse
    ({ s with tasks := f }.setTask e fun task =>
      { task with
        firstBatchElement := s.mergeEnd p batch n a e
        blockForBatchSplitter := s.normalBlock p batch n e }) hnodup
  have hmem : ∀ {m : ℕ}, m ∈ (List.range' 1 (e - a)).reverse ↔ 1 ≤ m ∧ m < 1 + (e - a) := by
    intro m
    rw [List.mem_reverse, List.mem_range'_1]
  have hlast : g e = { f e with
      firstBatchElement := s.mergeEnd p batch n a e
      blockForBatchSplitter := s.normalBlock p batch n e } := by
    rw [hother e fun m hm => by have := hmem.mp hm; omega]
    exact Function.update_self _ _ _
  refine ⟨g, ?_, ?_, ?_⟩
  · rw [OverallocatedBatchedSparseArray.distributeGroup]
    simp only [h.last_type, h.last_merged (by omega), h.block_eq e hae.le (le_refl _),
      h.first_eq e hae.le (le_refl _), hblock, hfirst, true_and]
    rw [if_pos (by omega)]
    have hview : (OverallocatedBatchedSparseArray.view p { s with tasks := f }) = s.view p := rfl
    have hstart : ∀ c range, lastTaskBatchStart p { s with tasks := f } batch c range =
        s.lastTaskBatchStart p batch c range := fun _ _ => rfl
    rw [hview, hnormal, hstart, hend, if_pos hne]
    exact hg
  · constructor
    · rw [hlast]
      exact h.last_type
    · rw [hlast, if_pos hae]
    · rw [hlast, if_pos hae]
    · rw [hlast]
      exact h.last_width
    · intro k hk
      have hidx : e - (e - a - k) = a + k := by omega
      have hk' := hset (e - a - k) (hmem.mpr (by omega))
      simp only [hidx] at hk'
      rw [hk', shareTask]
      have htask : ({ s with tasks := f }.setTask e fun task =>
          { task with
            firstBatchElement := s.mergeEnd p batch n a e
            blockForBatchSplitter := s.normalBlock p batch n e }).tasks (a + k) = f (a + k) :=
        Function.update_of_ne (by omega) _ _
      have hindex : e - a - (e - a - k) = k := by omega
      constructor
      · simp only
        rw [htask]
        exact h.inner_type _ (Nat.le_add_right a k) hk
      · rfl
      · simp only
        rw [hindex]
        rfl
      · rfl
      · exact hindex
      · rfl
  · intro t ht
    rw [hother t fun m hm => by have := hmem.mp hm; omega]
    exact Function.update_of_ne (by omega) _ _

/-! ## All groups -/

/-- There is an element for the merge block: that of the first splitter. -/
lemma Insertable.mergeEnd_lt (h : s.Insertable p batch n)
    (hless : ∀ x y, p.operatorLess x y = decide (x < y))
    (hg : IsGroup (s.splitterBlock p batch n) n a e) :
    s.splitterFirst p batch n a < s.mergeEnd p batch n a e := by
  have hb := h.asBatched
  have hgb : IsGroup ((s.asBatched p n).splitterBlock (batchedParams p) batch)
      (s.asBatched p n).numberOfThreads a e := hg
  have hale := hg.le
  have halt := hg.lt
  by_cases hne : ∃ c, (s.asBatched p n).empty (batchedParams p) c = false
  · have hsplit := hb.splitter_lt (t := a) (by change a < n; omega)
    have hhome : (s.asBatched p n).splitterBlock (batchedParams p) batch a =
        (s.asBatched p n).home (batchedParams p) batch (a * (batch.length / n)) :=
      BatchedSparseArray.splitterBlock_eq_home (by change a < n; omega)
    have hfirst := BatchedSparseArray.cutsAt_splitterFirst hb hne (a := a)
      (by change a ≤ n; omega) (by
        rcases hg.first with h0 | hne'
        · exact Or.inl h0
        · exact Or.inr (lt_of_le_of_ne (BatchedSparseArray.splitterBlock_mono hb (Nat.sub_le a 1)
            (by change a ≤ n; omega)) hne'))
    have hmid := BatchedSparseArray.cutsAt_mergeEnd hb hne hless hgb
    obtain ⟨hnormal, -⟩ := BatchedSparseArray.normalBlock_spec hb hne hgb
    rw [hgb.same e hale (le_refl _)] at hnormal
    -- the element of the splitter lies between both cuts
    have h1 : s.splitterFirst p batch n a ≤ a * (batch.length / n) := by
      by_contra hlt
      have hlt' := hfirst.lt (a * (batch.length / n)) (by
        change _ < s.splitterFirst p batch n a
        omega)
      rw [hhome] at hlt'
      exact absurd hlt' (lt_irrefl _)
    have h2 : a * (batch.length / n) < s.mergeEnd p batch n a e := by
      by_contra hge
      have hge' := hmid.ge (a * (batch.length / n)) (by
        change s.mergeEnd p batch n a e ≤ _
        omega) hsplit
      rw [hhome] at hnormal
      exact absurd (lt_of_lt_of_le hnormal hge') (lt_irrefl _)
    omega
  · push Not at hne
    have hemp : ∀ c, (s.asBatched p n).empty (batchedParams p) c = true := fun c =>
      Bool.eq_true_of_not_eq_false (hne c)
    have hsame : ∀ t, s.splitterBlock p batch n t = s.size := by
      intro t
      rw [splitterBlock, BatchedSparseArray.splitterBlock]
      split
      · exact hb.valid.findBlockIndex_of_empty hemp _
      · rfl
    have ha : a = 0 := hg.first.resolve_right fun hne' => hne' (by rw [hsame, hsame])
    have he : e + 1 = n := hg.last.resolve_right fun hne' => hne' (by rw [hsame, hsame])
    have hend : s.mergeEnd p batch n a e = s.splitterFirst p batch n (e + 1) := by
      rw [mergeEnd, BatchedSparseArray.mergeEnd, BatchedSparseArray.lastTaskBatchStart,
        if_pos (hemp _)]
      rfl
    have hT := h.threads_pos
    have hlen := h.threads_le
    rw [hend, ha, splitterFirst_zero, he, h.splitterFirst_last]
    omega

/-- The tasks when the loop has come to thread `k`. -/
structure Sharing (p : OverallocatedParams K α) (s : OverallocatedBatchedSparseArray K α)
    (batch : List α) (n k : ℕ) (f : ℕ → TaskInfo) : Prop where
  planned : ∀ a e, IsGroup (s.splitterBlock p batch n) n a e → e < k →
    GroupTasks p s batch n a e f
  merged : ∀ a e, IsGroup (s.splitterBlock p batch n) n a e → k ≤ e →
    MergedGroup p s batch n a e f
  last_block : (f n).blockForBatchSplitter = s.size
  last_first : (f n).firstBatchElement = batch.length

lemma Sharing.next (h : Sharing p s batch n k f) (hins : s.Insertable p batch n)
    (hg : IsGroup (s.splitterBlock p batch n) n a e) (hke : k ≤ e) :
    (f (e + 1)).blockForBatchSplitter = s.splitterBlock p batch n (e + 1) ∧
      (f (e + 1)).firstBatchElement = s.splitterFirst p batch n (e + 1) := by
  rcases Nat.lt_or_ge (e + 1) n with hlt | hge
  · obtain ⟨a', e', hg', h1, h2⟩ := exists_group (s.splitterBlock p batch n) hlt
    have ha' : a' = e + 1 := (hg'.groupStart_eq h1 h2).symm.trans (hg.groupStart_succ hlt)
    subst ha'
    have hm := h.merged _ e' hg' (by omega)
    exact ⟨hm.block_eq _ h1 h2, hm.first_eq _ h1 h2⟩
  · obtain hn : e + 1 = n := by
      have := hg.lt
      omega
    rw [hn, splitterBlock_last, hins.splitterFirst_last]
    exact ⟨h.last_block, h.last_first⟩

/-- **One iteration** over the groups. -/
lemma Sharing.step (h : Sharing p s batch n k f) (hins : s.Insertable p batch n)
    (hless : ∀ x y, p.operatorLess x y = decide (x < y)) (hpos : 0 < k) (hk : k < n) :
    ∃ f', OverallocatedBatchedSparseArray.distributeGroup p batch { s with tasks := f } k =
        { s with tasks := f' } ∧ Sharing p s batch n (k + 1) f' := by
  obtain ⟨a, e, hg, hak, hke⟩ := exists_group (s.splitterBlock p batch n) hk
  have hmg := h.merged a e hg hke
  rcases Nat.eq_or_lt_of_le hke with rfl | hlt
  · obtain ⟨hnextBlock, hnextFirst⟩ := h.next hins hg (le_refl k)
    obtain ⟨f', heq, hplan, hother⟩ : ∃ f',
        OverallocatedBatchedSparseArray.distributeGroup p batch { s with tasks := f } k =
          { s with tasks := f' } ∧ GroupTasks p s batch n a k f' ∧
            ∀ t, t < a ∨ k < t → f' t = f t := by
      rcases Nat.eq_or_lt_of_le hak with rfl | hlt
      · -- a group of its own
        refine ⟨f, ?_, ⟨hmg.last_type, ?_, ?_, hmg.last_width, fun j hj => ?_⟩, fun _ _ => rfl⟩
        · rw [OverallocatedBatchedSparseArray.distributeGroup]
          simp only
          rw [hmg.last_merged hpos, Nat.sub_self, if_neg fun hand => lt_irrefl 0 hand.2]
        · rw [if_neg (lt_irrefl _)]
          exact hmg.block_eq a (le_refl _) (le_refl _)
        · rw [if_neg (lt_irrefl _)]
          exact hmg.first_eq a (le_refl _) (le_refl _)
        · omega
      · exact hmg.distributeGroup hins.valid hlt (hg.same k hak (le_refl _))
          (hins.mergeEnd_lt hless hg).ne' hnextBlock hnextFirst
    refine ⟨f', heq, ?_⟩
    constructor
    · intro a' e' hg' hlt
      rcases Nat.lt_succ_iff_lt_or_eq.mp hlt with hlt | rfl
      · refine (h.planned a' e' hg' hlt).congr hg'.le fun t h1 h2 => hother t (Or.inl ?_)
        have := hg'.lt_of_lt hg hlt
        omega
      · obtain ⟨rfl, -⟩ := hg.unique hg' hak (le_refl _) hg'.le (le_refl _)
        exact hplan
    · intro a' e' hg' hle
      have hbehind := hg.lt_of_lt hg' hle
      exact (h.merged a' e' hg' (by omega)).congr hg'.le fun t h1 _ => hother t (Or.inr (by omega))
    · rw [hother n (Or.inr hk)]
      exact h.last_block
    · rw [hother n (Or.inr hk)]
      exact h.last_first
  · -- the thread has been merged into a later one
    refine ⟨f, ?_, ?_⟩
    · rw [OverallocatedBatchedSparseArray.distributeGroup]
      simp only
      rw [hmg.inner_type k hak hlt, if_neg fun hand => absurd hand.1 (by decide)]
    · refine ⟨fun a' e' hg' hlt' => ?_, fun a' e' hg' hle => h.merged a' e' hg' (by omega),
        h.last_block, h.last_first⟩
      refine h.planned a' e' hg' ?_
      by_contra hge
      obtain rfl : e' = k := by omega
      have := (hg.unique hg' hak hke hg'.le (le_refl _)).2
      omega

lemma Sharing.foldl (hins : s.Insertable p batch n)
    (hless : ∀ x y, p.operatorLess x y = decide (x < y)) : ∀ (m k : ℕ) {f : ℕ → TaskInfo},
    0 < k → k + m ≤ n → Sharing p s batch n k f →
      ∃ f', (List.range' k m).foldl (OverallocatedBatchedSparseArray.distributeGroup p batch)
        { s with tasks := f } = { s with tasks := f' } ∧ Sharing p s batch n (k + m) f' := by
  intro m
  induction m with
  | zero => exact fun k f _ _ h => ⟨f, rfl, h⟩
  | succ m ih =>
      intro k f hpos hk h
      obtain ⟨f₁, heq, hstep⟩ := h.step hins hless hpos (by omega)
      obtain ⟨f₂, heq₂, hrest⟩ := ih (k + 1) (by omega) (by omega) hstep
      refine ⟨f₂, ?_, by rwa [show k + (m + 1) = k + 1 + m by omega]⟩
      rw [List.range'_succ, List.foldl_cons, heq, heq₂]

/-- The tasks of all groups, and the sentinel. -/
structure Planned (p : OverallocatedParams K α) (s : OverallocatedBatchedSparseArray K α)
    (batch : List α) (n : ℕ) (f : ℕ → TaskInfo) : Prop where
  group : ∀ a e, IsGroup (s.splitterBlock p batch n) n a e → GroupTasks p s batch n a e f
  last_block : (f n).blockForBatchSplitter = s.size
  last_first : (f n).firstBatchElement = batch.length

/-- **Steps 1 and 2.** -/
theorem Insertable.planned (h : s.Insertable p batch n)
    (hless : ∀ x y, p.operatorLess x y = decide (x < y)) :
    ∃ f, s.prepareInsertion p batch n = { s with tasks := f } ∧ Planned p s batch n f := by
  obtain ⟨base, hbase, hmerge⟩ := mergeTasks_spec h
  have hT := h.threads_pos
  have hgroup := fun a e hg => @mergedGroup_of_base _ _ _ p s batch n a e base hbase hg
  have hn : mergedTask base (n - 1) n = base n := mergedTask_of_gt (by omega)
  have hstart : Sharing p s batch n 1 (mergedTask base (n - 1)) := by
    refine ⟨fun a e hg he => ?_, fun a e hg _ => hgroup a e hg, ?_, ?_⟩
    · -- the first thread is a group of its own
      obtain rfl : e = 0 := by omega
      obtain rfl : a = 0 := Nat.le_zero.mp hg.le
      have hm := hgroup 0 0 hg
      refine ⟨hm.last_type, ?_, ?_, hm.last_width, fun k hk => absurd hk (Nat.not_lt_zero _)⟩
      · rw [if_neg (lt_irrefl _)]
        exact hm.block_eq 0 (le_refl _) (le_refl _)
      · rw [if_neg (lt_irrefl _)]
        exact hm.first_eq 0 (le_refl _) (le_refl _)
    · rw [hn, hbase n (le_refl _)]
      exact splitterBlock_last
    · rw [hn, hbase n (le_refl _)]
      exact h.splitterFirst_last
  obtain ⟨f, heq, hsharing⟩ := Sharing.foldl h hless (n - 1) 1 Nat.one_pos (by omega) hstart
  rw [Nat.add_sub_cancel' hT] at hsharing
  refine ⟨f, ?_, fun a e hg => hsharing.planned a e hg hg.lt, hsharing.last_block,
    hsharing.last_first⟩
  rw [prepareInsertion, hmerge]
  exact heq

end OverallocatedBatchedSparseArray

end BatchPMA
