import BatchPMA.OutOfPlace.Inserted
import BatchPMA.InPlace.Fits

/-!
# What every insertion of the overallocated array preserves

`Sound` is the invariant of the array between two calls.  Apart from the form of the blocks it says
that the size manager counts exactly, that the swap array is empty, and that a dead cell holds
nothing but the null key or the key of a live element.
-/

namespace BatchPMA

open KeyedUnion Ranges

variable {K α : Type} [LinearOrder K]

/-! ## Dead cells with stored keys -/

/-- The null key, or the key of an element of a list. -/
def StoredIn (p : BlockParams K α) (content : List α) (x : α) : Prop :=
  p.keyOf x = p.nullKey ∨ ∃ y ∈ content, p.keyOf y = p.keyOf x

lemma staleOk_of_stored {p : BlockParams K α} : ∀ {bs : List (PmaEntry K α)} {front : List α},
    (∀ b ∈ bs, b.Valid p) → Ordered p.keyOf (front ++ elements bs) →
    (∀ b ∈ bs, b.Holds (StoredIn p (front ++ elements bs))) →
    StaleOk p True (fun _ => False) bs := by
  intro bs
  induction bs with
  | nil =>
      intro front _ _ _
      trivial
  | cons b bs ih =>
      intro front hvalid hord hstored
      rw [elements_cons] at hord hstored
      have hb := hvalid b List.mem_cons_self
      obtain ⟨z, hz, hhead⟩ := hb.head_mem
      refine ⟨fun x hx => ?_, ?_⟩
      · rcases (hstored b List.mem_cons_self).dead x hx with hnull | ⟨y, hy, hkey⟩
        · exact Or.inl hnull
        · rcases List.mem_append.mp hy with hy | hy
          · have hlt := Ordered.lt hord y hy z (List.mem_append_left _ hz)
            exact Or.inr (Or.inr (Or.inr ⟨trivial, z, hz, by rw [← hkey]; exact hlt.le⟩))
          · rcases List.mem_append.mp hy with hy | hy
            · exact Or.inr (Or.inr (Or.inr ⟨trivial, y, hy, hkey.ge⟩))
            · obtain ⟨c, hc, hy⟩ := mem_elements.mp hy
              have hle := (hvalid c (List.mem_cons_of_mem b hc)).head_le hy
              rw [hkey] at hle
              exact Or.inr (Or.inr (Or.inl ⟨c, hc, hle⟩))
      · refine @ih (front ++ b.live) (fun c hc => hvalid c (List.mem_cons_of_mem b hc)) ?_ ?_
        · rwa [List.append_assoc]
        · intro c hc
          rw [List.append_assoc]
          exact hstored c (List.mem_cons_of_mem b hc)

namespace OverallocatedBatchedSparseArray

variable {p : OverallocatedParams K α} {r s : OverallocatedBatchedSparseArray K α}
  {batch : List α} {n : ℕ}

/-! ## The invariant -/

/-- Every cell of every block holds the null key or the key of a live element. -/
def Stored (p : OverallocatedParams K α) (s : OverallocatedBatchedSparseArray K α) : Prop :=
  AllHold (StoredIn p.toBlockParams (elements s.blocks)) s.pma

/-- The state between two calls. -/
structure Sound (p : OverallocatedParams K α) (s : OverallocatedBatchedSparseArray K α) : Prop where
  valid : s.Valid p
  exact : s.AggregatesExact
  stored : Stored p s
  swap_null : ∀ c, s.swapPma c = PmaEntry.null p.toBlockParams
  overallocates : Overallocates s.overallocationFactor
  capacity_eq : s.capacity = s.swapCapacity
  size_lt : s.size < s.capacity

lemma Sound.swapCapacity_pos (h : Sound p s) : 0 < s.swapCapacity := by
  have h1 := h.size_lt
  have h2 := h.capacity_eq
  omega

/-- A new array. -/
lemma sound_create (p : OverallocatedParams K α) : Sound p (create p) where
  valid := by
    have hblocks : (create p).blocks = [] := rfl
    refine ⟨fun c _ hc => absurd hc (Nat.not_lt_zero c), fun _ _ => rfl, ?_, ?_, ?_⟩
    · rw [hblocks]
      exact List.Pairwise.nil
    · rw [hblocks]
      trivial
    · rw [hblocks]
      exact Or.inl fun b hb => absurd hb List.not_mem_nil
  exact := ⟨rfl, fun i _ => by
    have hzero : (create p).blockSize = fun _ => 0 := rfl
    rw [hzero]
    simp [create, BlockSizeManager.create, linearNumberOfElements]⟩
  stored := fun c => PmaEntry.holds_null _
  swap_null := fun _ => rfl
  overallocates := overallocates_initial
  capacity_eq := rfl
  size_lt := by
    change 0 < initialArrayCapacity
    norm_num [initialArrayCapacity]

/-! ## What an insertion does to the content -/

/-- The keys of the union are stored in it. -/
lemma stored_of_union {old new u : List α} (hu : IsUnion p.keyOf old new u) :
    (∀ x, StoredIn p.toBlockParams old x → StoredIn p.toBlockParams u x) ∧
      ∀ x ∈ new, StoredIn p.toBlockParams u x := by
  constructor
  · rintro x (hnull | ⟨y, hy, hkey⟩)
    · exact Or.inl hnull
    · exact Or.inr ⟨y, hu.mem_old hy, hkey⟩
  · intro x hx
    obtain ⟨y, hy, hkey⟩ := hu.exists_key hx
    exact Or.inr ⟨y, hy, hkey⟩

/-- What the two paths make of the content. -/
def contentAfter (p : OverallocatedParams K α) (numberOfThreads : ℕ) (content batch : List α) :
    List α :=
  let union := mergeKeyed p.keyOf content batch
  if 1 < numberOfThreads ∧ union.length < p.minBlockSize then [] else union

/-- A result whose blocks are valid is sound if its content is the union, or if it is empty. -/
lemma Sound.of_union (hs : Sound p s) (hzero : p.keyOf p.zero = p.nullKey)
    (hcell : ∀ c, r.pma c = PmaEntry.null p.toBlockParams ∨ (r.pma c).Valid p.toBlockParams)
    (houtside : ∀ c, r.size ≤ c → r.pma c = PmaEntry.null p.toBlockParams)
    (hholds : ∀ P : α → Prop, P p.zero → AllHold P s.pma → (∀ x ∈ batch, P x) → AllHold P r.pma)
    (hlarge : (∀ b ∈ r.blocks, p.minBlockSize ≤ b.size) ∨ r.blocks.length = 1)
    (hcontent : IsUnion p.keyOf (elements s.blocks) batch (elements r.blocks) ∨ r.blocks = []) :
    r.Valid p ∧ Stored p r := by
  rcases hcontent with hu | hnil
  · obtain ⟨hold, hnew⟩ := stored_of_union hu
    have hstored : Stored p r := hholds _ (Or.inl hzero) (fun c x hx => hold x (hs.stored c x hx)) hnew
    refine ⟨⟨fun c _ _ => hcell c, houtside, hu.ordered, ?_, hlarge⟩, hstored⟩
    refine @staleOk_of_stored _ _ _ _ _ [] (fun b hb => ?_) hu.ordered fun b hb => ?_
    · obtain ⟨c, -, -, hempty, rfl⟩ := mem_rangeBlocks.mp hb
      refine (hcell c).resolve_left fun hnull => ?_
      rw [hnull] at hempty
      cases hempty
    · obtain ⟨c, -, -, -, rfl⟩ := mem_rangeBlocks.mp hb
      exact hstored c
  · have hnull : ∀ c, r.pma c = PmaEntry.null p.toBlockParams := by
      intro c
      rcases Nat.lt_or_ge c r.size with hlt | hge
      · refine (hcell c).resolve_right fun hvalid => ?_
        have hmem : r.pma c ∈ r.blocks :=
          mem_rangeBlocks.mpr ⟨c, Nat.zero_le c, hlt, hvalid.isEmpty_eq, rfl⟩
        rw [hnil] at hmem
        exact absurd hmem List.not_mem_nil
      · exact houtside c hge
    refine ⟨⟨fun c _ _ => hcell c, houtside, ?_, ?_, hlarge⟩, fun c => ?_⟩
    · rw [hnil]
      exact List.Pairwise.nil
    · rw [hnil]
      trivial
    · rw [hnull]
      exact PmaEntry.holds_null _

omit [LinearOrder K] in
lemma RangeEdit.frame {range : Interval} (h : s.RangeEdit r range) :
    r.capacity = s.capacity ∧ r.swapCapacity = s.swapCapacity ∧ r.swapPma = s.swapPma ∧
      r.overallocationFactor = s.overallocationFactor ∧
      r.sizeManager.size = s.sizeManager.size := by
  obtain ⟨sizeManager, hsize, heq⟩ := h.rest
  rw [heq]
  exact ⟨rfl, rfl, rfl, rfl, hsize⟩

/-- One block that is large enough. -/
lemma minBlockSize_le_length {bs : List (PmaEntry K α)} {b : PmaEntry K α} (hb : b ∈ bs)
    (hvalid : b.Valid p.toBlockParams) (hlarge : p.minBlockSize ≤ b.size) :
    p.minBlockSize ≤ (elements bs).length := by
  obtain ⟨front, behind, rfl⟩ := List.append_of_mem hb
  rw [elements_append, elements_cons, List.length_append, List.length_append, hvalid.length_live]
  omega

lemma Valid.valid_of_mem (h : s.Valid p) {b : PmaEntry K α} (hb : b ∈ s.blocks) :
    b.Valid p.toBlockParams := by
  obtain ⟨c, -, -, hempty, rfl⟩ := mem_rangeBlocks.mp hb
  refine (h.cell c).resolve_left fun hnull => ?_
  rw [hnull] at hempty
  cases hempty

section

variable (hs : Sound p s) (hins : s.Insertable p batch n)
include hs hins

lemma Sound.isUnion_mergeKeyed : IsUnion p.keyOf (elements s.blocks) batch
    (mergeKeyed p.keyOf (elements s.blocks) batch) :=
  KeyedUnion.isUnion_mergeKeyed hs.valid.ordered hins.increasing

/-- Path A is taken with several threads only if there are several blocks. -/
lemma Sound.insertBatch_inPlace (hp : Usable p)
    (hpath : (s.prepareInsertion p batch n).useInPlaceInserts p n = true) (sched : Schedule)
    (turns : List ℕ) :
    Sound p (s.insertBatch p batch n sched turns) ∧
      elements (s.insertBatch p batch n sched turns).blocks =
        contentAfter p n (elements s.blocks) batch := by
  obtain ⟨hfit, f, hstart, hf⟩ := hins.inPlaceStart hs.exact hpath
  obtain ⟨hr, -⟩ := hfit.run hp.even hp.two_le hp.signed hp.zero_null hf turns
  have heq : s.insertBatch p batch n sched turns =
      (runInPlace p { s with tasks := f } batch n turns).1 := by
    rw [← hstart, OverallocatedBatchedSparseArray.insertBatch]
    exact if_pos hpath
  have hholds : ∀ P : α → Prop, P p.zero → AllHold P s.pma → (∀ x ∈ batch, P x) →
      AllHold P (runInPlace p { s with tasks := f } batch n turns).1.pma :=
    fun P h1 h2 h3 => AllHold.runInPlace (s := { s with tasks := f }) h1 h3 h2 n turns
  rw [heq]
  generalize (runInPlace p { s with tasks := f } batch n turns).1 = r at hr hholds
  obtain ⟨hvalid, hunion⟩ := hr.valid hfit
  obtain ⟨hcapacity, hswapCapacity, hswap, hfactor, hmanager⟩ : r.capacity = s.capacity ∧
      r.swapCapacity = s.swapCapacity ∧ r.swapPma = s.swapPma ∧
      r.overallocationFactor = s.overallocationFactor ∧
      r.sizeManager.size = s.sizeManager.size := hr.edit.frame
  constructor
  · constructor
    · exact hvalid
    · refine ⟨?_, hr.edit.exact hs.exact.exact⟩
      rw [hmanager, hs.exact.size, hr.size_eq]
    · exact (hs.of_union hp.zero_null hvalid.cell hvalid.outside hholds hvalid.large
        (Or.inl hunion)).2
    · rw [hswap]
      exact hs.swap_null
    · rw [hfactor]
      exact hs.overallocates
    · rw [hcapacity, hswapCapacity, hs.capacity_eq]
    · rw [hcapacity, hr.size_eq]
      exact hs.size_lt
  · have hmerge := hs.isUnion_mergeKeyed hins
    rw [hunion.unique hmerge, contentAfter]
    refine (if_neg ?_).symm
    rintro ⟨hn, hfew⟩
    have hlt := hfit.block_lt hins.threads_pos
    have h0 := hfit.block_nonempty hins.threads_pos
    have h1 := hfit.block_nonempty hn
    have hlarge := hs.valid.large.resolve_right (hs.valid.blocks_ne_one hlt h0 h1)
    have hmem : s.pma (s.splitterBlock p batch n 0) ∈ s.blocks :=
      mem_rangeBlocks.mpr ⟨_, Nat.zero_le _, hs.valid.lt_size h0, h0, rfl⟩
    have hmin := minBlockSize_le_length hmem (hs.valid.valid_of_mem hmem) (hlarge _ hmem)
    have hle := hmerge.length_old_le hs.valid.ordered
    omega

lemma Sound.insertBatch_outOfPlace (hp : Usable p)
    (hpath : (s.prepareInsertion p batch n).useInPlaceInserts p n = false) (sched : Schedule)
    (turns : List ℕ) :
    Sound p (s.insertBatch p batch n sched turns) ∧
      elements (s.insertBatch p batch n sched turns).blocks =
        contentAfter p n (elements s.blocks) batch := by
  obtain ⟨hkept, hlarge, hcontent⟩ := hins.outOfPlace hp hs.exact hs.overallocates hs.swap_null
    hs.swapCapacity_pos hpath sched turns
  have hmerge := hs.isUnion_mergeKeyed hins
  generalize s.insertBatch p batch n sched turns = r at hkept hlarge hcontent ⊢
  obtain ⟨hvalid, hstored⟩ := hs.of_union hp.zero_null hkept.cell hkept.outside hkept.holds
    (hlarge.imp id And.right) (hcontent.imp id fun h => h.2.1)
  refine ⟨⟨hvalid, hkept.exact, hstored, hkept.swap_null, ?_, hkept.capacity_eq, hkept.size_lt⟩, ?_⟩
  · rw [hkept.factor_eq]
    exact hs.overallocates
  · rw [contentAfter]
    rcases hcontent with hu | ⟨hn, hnil, hfew⟩
    · have heq := hu.unique hmerge
      rw [heq]
      refine (if_neg ?_).symm
      rintro ⟨hn, hfew⟩
      -- there is an element, so there is a block
      have hsized := hlarge.resolve_right fun h => by omega
      have hpos : batch ≠ [] := by
        intro hnil
        have := hins.threads_le
        rw [hnil, List.length_nil] at this
        omega
      obtain ⟨x, hx⟩ := List.exists_mem_of_ne_nil _ hpos
      obtain ⟨y, hy, -⟩ := hmerge.exists_key hx
      rw [← heq] at hy
      obtain ⟨b, hb, -⟩ := mem_elements.mp hy
      have hmin := minBlockSize_le_length hb (hvalid.valid_of_mem hb) (hsized b hb)
      rw [heq] at hmin
      omega
    · rw [if_pos ⟨hn, hfew _ hmerge⟩, hnil]
      rfl

/-- **One insertion.**  The invariant is preserved, and the content is the one of `contentAfter`,
whatever the path and the order of the tasks. -/
theorem Sound.insertBatch (hp : Usable p) (sched : Schedule) (turns : List ℕ) :
    Sound p (s.insertBatch p batch n sched turns) ∧
      elements (s.insertBatch p batch n sched turns).blocks =
        contentAfter p n (elements s.blocks) batch := by
  cases hpath : (s.prepareInsertion p batch n).useInPlaceInserts p n with
  | true => exact hs.insertBatch_inPlace hins hp hpath sched turns
  | false => exact hs.insertBatch_outOfPlace hins hp hpath sched turns

end

end OverallocatedBatchedSparseArray

end BatchPMA
