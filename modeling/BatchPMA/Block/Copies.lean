import BatchPMA.Model.OutOfPlace

/-!
# Blocks hold copies only

No operation makes up an element: every cell of a block, live or dead, is value-initialised or was
written from a cell of another block or from the batch.  `Holds` is any property of elements that
value-initialised cells have; each operation hands it on from its operands to its results.
-/

namespace BatchPMA

variable {K α : Type} {p : BlockParams K α} {P : α → Prop}

/-- All cells satisfy `P`. -/
def PmaEntry.Holds (P : α → Prop) (b : PmaEntry K α) : Prop := ∀ x ∈ b.cells, P x

namespace PmaEntry

variable {b b' other left right : PmaEntry K α} {e : α} {es : List α}

lemma holds_null (p : BlockParams K α) : (null p).Holds P := by
  intro x hx
  exact absurd hx List.not_mem_nil

lemma Holds.congr (h : b.Holds P) (hblock : b'.block = b.block) : b'.Holds P := by
  intro x hx
  rw [cells, hblock] at hx
  exact h x hx

lemma Holds.live (h : b.Holds P) : ∀ x ∈ b.live, P x := fun x hx => h x (List.mem_of_mem_take hx)

lemma Holds.dead (h : b.Holds P) : ∀ x ∈ b.dead, P x := fun x hx => h x (List.mem_of_mem_drop hx)

lemma holds_of_cells {cells : List α} (h : ∀ x ∈ cells, P x) (hb : b.block = some cells) :
    b.Holds P := by
  intro x hx
  rw [PmaEntry.cells, hb] at hx
  exact h x hx

section

variable (hzero : P p.zero)
include hzero

lemma holds_allocateBlock (b : PmaEntry K α) : (b.allocateBlock p).Holds P := by
  intro x hx
  rw [List.eq_of_mem_replicate (show x ∈ List.replicate p.blockSize p.zero from hx)]
  exact hzero

lemma Holds.get (h : b.Holds P) (i : ℕ) : P (b.get p i) := by
  rw [PmaEntry.get, List.getD_eq_getElem?_getD]
  cases hi : b.cells[i]? with
  | none => exact hzero
  | some x => exact h x (List.mem_of_getElem? hi)

lemma holds_swapCells : ∀ (n : ℕ) (cells : List α) (shift : ℕ) (carry : α),
    (∀ x ∈ cells, P x) → P carry → ∀ x ∈ swapCells p n cells shift carry, P x := by
  intro n
  induction n with
  | zero =>
      intro cells shift carry hcells _
      exact hcells
  | succ n ih =>
      intro cells shift carry hcells hcarry
      refine ih _ _ _ (fun x hx => ?_) ?_
      · rcases List.mem_or_eq_of_mem_set hx with hx | rfl
        · exact hcells x hx
        · exact hcarry
      · rw [List.getD_eq_getElem?_getD]
        cases hi : cells[shift]? with
        | none => exact hzero
        | some x => exact hcells x (List.mem_of_getElem? hi)

lemma Holds.insertAtIndex (h : b.Holds P) (he : P e) (index : ℕ) :
    (b.insertAtIndex p e index).Holds P := by
  cases hb : b.block with
  | none =>
      intro x hx
      simp [PmaEntry.insertAtIndex, PmaEntry.makeFree, cells, hb] at hx
  | some c =>
      have hc : ∀ x ∈ c, P x := by
        intro x hx
        refine h x ?_
        rw [cells, hb]
        exact hx
      intro x hx
      simp only [PmaEntry.insertAtIndex, PmaEntry.makeFree, cells, hb, Option.map_some,
        Option.getD_some] at hx
      rcases List.mem_or_eq_of_mem_set hx with hx | rfl
      · exact holds_swapCells hzero _ _ _ _ hc hzero x hx
      · exact he

variable [LinearOrder K]

lemma Holds.insertWithIndex (h : b.Holds P) (he : P e) (start : ℕ) :
    (b.insertWithIndex p e start).1.Holds P := by
  rw [PmaEntry.insertWithIndex]
  simp only
  split
  · exact h
  · split
    · exact (h.insertAtIndex hzero he _).congr rfl
    · exact h.insertAtIndex hzero he _

lemma Holds.mergeLoop : ∀ (es : List α) {b : PmaEntry K α} (start : ℕ), b.Holds P →
    (∀ x ∈ es, P x) → (mergeLoop p es b start).Holds P := by
  intro es
  induction es with
  | nil =>
      intro b start h _
      exact h
  | cons e es ih =>
      intro b start h hes
      simp only [List.mem_cons, forall_eq_or_imp] at hes
      rw [PmaEntry.mergeLoop]
      refine ih _ ?_ hes.2
      split
      · exact h
      · exact h.insertAtIndex hzero hes.1 _

lemma Holds.merge (h : b.Holds P) (hes : ∀ x ∈ es, P x) : (b.merge p es).Holds P := by
  cases es with
  | nil => exact h
  | cons e es =>
      simp only [List.mem_cons, forall_eq_or_imp] at hes
      rw [PmaEntry.merge]
      refine Holds.mergeLoop hzero es _ ?_ hes.2
      split
      · exact h
      · split
        · exact (h.insertAtIndex hzero hes.1 _).congr rfl
        · exact h.insertAtIndex hzero hes.1 _

omit [LinearOrder K] in
lemma Holds.split (h : b.Holds P) : (b.split p).1.Holds P ∧ (b.split p).2.Holds P := by
  constructor
  · exact h.congr rfl
  · intro x hx
    change x ∈ b.cells.drop (p.blockSize / 2) ++
      ((null p).allocateBlock p).cells.drop (b.cells.drop (p.blockSize / 2)).length at hx
    rcases List.mem_append.mp hx with hx | hx
    · exact h x (List.mem_of_mem_drop hx)
    · exact holds_allocateBlock hzero (null p) x (List.mem_of_mem_drop hx)

end

/-! ## The merge from the back -/

namespace MergeFasterState

variable [LinearOrder K] {st : MergeFasterState K α} {batch : List α}

omit [LinearOrder K] in
lemma getD_of_forall {l : List α} (hzero : P p.zero) (h : ∀ x ∈ l, P x) (i : ℕ) :
    P (l.getD i p.zero) := by
  rw [List.getD_eq_getElem?_getD]
  cases hi : l[i]? with
  | none => exact hzero
  | some x => exact h x (List.mem_of_getElem? hi)

omit [LinearOrder K] in
lemma mem_write {x e : α} (hx : x ∈ (st.write p e).cells) : x ∈ st.cells ∨ x = e := by
  simp only [write] at hx
  split at hx
  · exact List.mem_or_eq_of_mem_set hx
  · exact Or.inl hx

variable (hzero : P p.zero) (hbatch : ∀ x ∈ batch, P x)
include hzero hbatch

lemma holds_step (h : ∀ x ∈ st.cells, P x) : ∀ x ∈ (st.step p batch).cells, P x := by
  have hwrite : ∀ {e : α}, P e → ∀ x ∈ (st.write p e).cells, P x := by
    intro e he x hx
    rcases mem_write (p := p) hx with hx | rfl
    · exact h x hx
    · exact he
  rw [step]
  simp only
  split
  · split
    · exact hwrite (getD_of_forall hzero hbatch _)
    · exact h
  · split
    · exact hwrite (getD_of_forall hzero h _)
    · exact h

lemma holds_loop : ∀ (n : ℕ) {st : MergeFasterState K α}, (∀ x ∈ st.cells, P x) →
    ∀ x ∈ (loop p batch n st).cells, P x := by
  intro n
  induction n with
  | zero =>
      intro st h
      exact h
  | succ n ih =>
      intro st h
      rw [loop]
      split
      · exact ih (holds_step hzero hbatch h)
      · exact h

lemma holds_restLoop : ∀ (n : ℕ) {st : MergeFasterState K α}, (∀ x ∈ st.cells, P x) →
    ∀ x ∈ (restLoop p batch n st).cells, P x := by
  intro n
  induction n with
  | zero =>
      intro st h
      exact h
  | succ n ih =>
      intro st h
      rw [restLoop]
      split
      · refine ih ?_
        rw [restStep]
        simp only
        split
        · intro x hx
          rcases mem_write (p := p) hx with hx | rfl
          · exact h x hx
          · exact getD_of_forall hzero hbatch _
        · exact h
      · exact h

omit hbatch in
lemma holds_shiftForward (h : ∀ x ∈ st.cells, P x) (total : ℕ) :
    ∀ x ∈ st.shiftForward p total, P x := by
  have hfold : ∀ (l : List ℕ) (cells : List α) (a d : ℕ), (∀ x ∈ cells, P x) →
      ∀ x ∈ l.foldl (fun cells i =>
        cells.set (a + i) (cells.getD (toUnsigned (a + i + d : ℕ)) p.zero)) cells, P x := by
    intro l
    induction l with
    | nil =>
        intro cells a d hcells
        exact hcells
    | cons i l ih =>
        intro cells a d hcells
        refine ih _ a d fun x hx => ?_
        rcases List.mem_or_eq_of_mem_set hx with hx | rfl
        · exact hcells x hx
        · exact getD_of_forall hzero hcells _
  rw [shiftForward]
  split
  · exact hfold _ _ _ _ h
  · exact h

end MergeFasterState

variable [LinearOrder K] (hzero : P p.zero)
include hzero

lemma Holds.mergeFaster (h : b.Holds P) (hes : ∀ x ∈ es, P x) : (b.mergeFaster p es).Holds P := by
  have hcells : ∀ x ∈ (b.mergeFasterEnd p es).cells, P x :=
    MergeFasterState.holds_restLoop hzero hes _ (MergeFasterState.holds_loop hzero hes _ h)
  have hshift := MergeFasterState.holds_shiftForward hzero hcells (b.size + es.length)
  have hhead : ∀ (c : Prop) [Decidable c] {m : PmaEntry K α}, m.Holds P →
      (if c then m.updateHead p else m).Holds P := by
    intro c _ m hm
    split
    · exact hm.congr rfl
    · exact hm
  exact hhead _ (holds_of_cells hshift rfl)

omit [LinearOrder K] hzero in
lemma Holds.mergeSmaller (h : b.Holds P) (ho : other.Holds P) : (b.mergeSmaller p other).Holds P := by
  refine holds_of_cells (fun x hx => ?_) rfl
  simp only [List.mem_append] at hx
  rcases hx with (hx | hx) | hx
  · exact ho x (List.mem_of_mem_take hx)
  · exact h x (List.mem_of_mem_take hx)
  · exact h x (List.mem_of_mem_drop hx)

omit [LinearOrder K] hzero in
lemma Holds.steal (h : b.Holds P) (hr : right.Holds P) :
    (b.steal p right).1.Holds P ∧ (b.steal p right).2.Holds P := by
  constructor
  · refine holds_of_cells (fun x hx => ?_) rfl
    simp only [List.mem_append] at hx
    rcases hx with (hx | hx) | hx
    · exact h x (List.mem_of_mem_take hx)
    · exact hr x (List.mem_of_mem_take hx)
    · exact h x (List.mem_of_mem_drop hx)
  · refine holds_of_cells (fun x hx => ?_) rfl
    simp only [List.mem_append] at hx
    rcases hx with hx | hx
    · exact hr x (List.mem_of_mem_take (List.mem_of_mem_drop hx))
    · exact hr x (List.mem_of_mem_drop hx)

omit [LinearOrder K] hzero in
lemma Holds.stealFromSmaller (h : b.Holds P) (hl : left.Holds P) :
    (b.stealFromSmaller p left).1.Holds P ∧ (b.stealFromSmaller p left).2.Holds P := by
  constructor
  · refine holds_of_cells (fun x hx => ?_) rfl
    simp only [List.mem_append] at hx
    rcases hx with (hx | hx) | hx
    · exact hl x (List.mem_of_mem_take (List.mem_of_mem_drop hx))
    · exact h x (List.mem_of_mem_take hx)
    · exact h x (List.mem_of_mem_drop hx)
  · exact hl.congr rfl

end PmaEntry

/-! ## Lists of new blocks -/

variable [LinearOrder K] {b : PmaEntry K α} {es : List α}

namespace SplitState

/-- All blocks of the state. -/
structure Holds (P : α → Prop) (st : SplitState K α) : Prop where
  written : ∀ b ∈ st.written, b.Holds P
  insertionBlock : st.insertionBlock.Holds P
  rightHalf : st.rightHalf.Holds P

variable {st : SplitState K α} (hzero : P p.zero)
include hzero

omit [LinearOrder K] hzero in
lemma Holds.append (h : st.Holds P) (hb : b.Holds P) : ∀ c ∈ st.written ++ [b], c.Holds P := by
  intro c hc
  rcases List.mem_append.mp hc with hc | hc
  · exact h.written c hc
  · rw [List.mem_singleton.mp hc]
    exact hb

omit hzero in
lemma Holds.switch (h : st.Holds P) (e : α) : (st.switch p e).Holds P := by
  rw [SplitState.switch]
  split
  · exact ⟨h.append h.insertionBlock, h.rightHalf, PmaEntry.holds_null p⟩
  · exact h

omit [LinearOrder K] in
lemma Holds.split (h : st.Holds P) : (st.split p).Holds P := by
  obtain ⟨hleft, hright⟩ := h.insertionBlock.split hzero
  rw [SplitState.split]
  simp only
  split
  · exact ⟨h.written, hleft, hright⟩
  · exact ⟨h.append hleft, hright, h.rightHalf⟩

lemma Holds.loop : ∀ (n : ℕ) (es : List α) {st : SplitState K α}, st.Holds P → (∀ x ∈ es, P x) →
    (SplitState.loop p n es st).Holds P := by
  intro n
  induction n with
  | zero =>
      intro es st h _
      exact h
  | succ n ih =>
      intro es st h hes
      cases es with
      | nil => exact h
      | cons e es =>
          have hswitch := h.switch (p := p) e
          rw [SplitState.loop]
          split
          · simp only [List.mem_cons, forall_eq_or_imp] at hes
            exact ih es ⟨hswitch.written, hswitch.insertionBlock.insertWithIndex hzero hes.1 _,
              hswitch.rightHalf⟩ hes.2
          · exact ih (e :: es) (hswitch.split hzero) hes

end SplitState

section

variable (hzero : P p.zero)
include hzero

lemma holds_splitBlocks (hb : b.Holds P) (hes : ∀ x ∈ es, P x) :
    ∀ c ∈ splitBlocks p b es, c.Holds P := by
  have hstart : SplitState.Holds P ⟨[], b, PmaEntry.null p, 0⟩ :=
    ⟨fun c hc => absurd hc List.not_mem_nil, hb, PmaEntry.holds_null p⟩
  have h := SplitState.Holds.loop hzero (2 * es.length) es hstart hes
  intro c hc
  rw [splitBlocks, SplitState.finish, List.mem_append, List.mem_cons] at hc
  rcases hc with hc | rfl | hc
  · exact h.written c hc
  · exact h.insertionBlock
  · split at hc
    · exact absurd hc List.not_mem_nil
    · rw [List.mem_singleton.mp hc]
      exact h.rightHalf

omit [LinearOrder K] in
lemma holds_nextBlock (hb : b.Holds P) (n : ℕ) :
    (nextBlock p b n).1.Holds P ∧ (nextBlock p b n).2.Holds P := by
  rw [nextBlock]
  split
  · exact hb.split hzero
  · exact ⟨hb, PmaEntry.holds_allocateBlock hzero _⟩

lemma holds_denseRangeLoop : ∀ (n : ℕ) (es : List α) {b : PmaEntry K α}, b.Holds P →
    (∀ x ∈ es, P x) → ∀ c ∈ denseRangeLoop p n es b, c.Holds P := by
  have hend : ∀ {b : PmaEntry K α}, b.Holds P → ∀ c ∈ if 0 < b.size then [b] else [],
      c.Holds P := by
    intro b hb c hc
    split at hc
    · rw [List.mem_singleton.mp hc]
      exact hb
    · exact absurd hc List.not_mem_nil
  intro n
  induction n with
  | zero =>
      intro es b hb _
      exact hend hb
  | succ n ih =>
      intro es b hb hes
      cases es with
      | nil => exact hend hb
      | cons e es =>
          have htake : ∀ m, ∀ x ∈ (e :: es).take m, P x := fun m x hx =>
            hes x (List.mem_of_mem_take hx)
          have hdrop : ∀ m, ∀ x ∈ (e :: es).drop m, P x := fun m x hx =>
            hes x (List.mem_of_mem_drop hx)
          rw [denseRangeLoop]
          simp only
          split
          · obtain ⟨hfull, hnew⟩ := holds_nextBlock hzero hb (es.length + 1)
            intro c hc
            rcases List.mem_cons.mp hc with rfl | hc
            · exact hfull
            · exact ih _ (hnew.mergeFaster hzero (htake _)) (hdrop _) c hc
          · exact ih _ (hb.mergeFaster hzero (htake _)) (hdrop _)

lemma holds_denseRangeBlocks (hes : ∀ x ∈ es, P x) : ∀ c ∈ denseRangeBlocks p es, c.Holds P :=
  holds_denseRangeLoop hzero _ _ (PmaEntry.holds_allocateBlock hzero _) hes

end

namespace MergeState

/-- All blocks of the state, and the elements that are still to be merged. -/
structure Holds (P : α → Prop) (st : MergeState K α) : Prop where
  written : ∀ b ∈ st.written, b.Holds P
  insertionBlock : st.insertionBlock.Holds P
  batch : ∀ x ∈ st.batch, P x
  rest : ∀ x ∈ st.rest, P x

variable {st : MergeState K α} (hzero : P p.zero)
include hzero

omit [LinearOrder K] in
lemma Holds.flushFull (h : st.Holds P) : (st.flushFull p).Holds P := by
  rw [MergeState.flushFull]
  split
  · refine ⟨fun c hc => ?_, PmaEntry.holds_allocateBlock hzero _, h.batch, h.rest⟩
    rcases List.mem_append.mp hc with hc | hc
    · exact h.written c hc
    · rw [List.mem_singleton.mp hc]
      exact h.insertionBlock
  · exact h

lemma Holds.mergeBatch (h : st.Holds P) : (st.mergeBatch p).Holds P where
  written := h.written
  insertionBlock := h.insertionBlock.merge hzero fun x hx => h.batch x (List.mem_of_mem_take hx)
  batch := fun x hx => h.batch x (List.mem_of_mem_drop hx)
  rest := h.rest

lemma Holds.mergeRest (h : st.Holds P) : (st.mergeRest p).Holds P where
  written := h.written
  insertionBlock := h.insertionBlock.merge hzero fun x hx => h.rest x (List.mem_of_mem_take hx)
  batch := h.batch
  rest := fun x hx => h.rest x (List.mem_of_mem_drop hx)

lemma Holds.mergeStep (h : st.Holds P) : (st.mergeStep p).Holds P := by
  have hb := h.batch
  have hr := h.rest
  cases hrest : st.rest with
  | nil =>
      simp only [MergeState.mergeStep, hrest]
      refine Holds.mergeBatch hzero ⟨h.written, h.insertionBlock, fun x hx => ?_, h.rest⟩
      exact h.batch x (List.dropWhile_sublist _ |>.mem hx)
  | cons x rest =>
      rw [hrest] at hr
      simp only [List.mem_cons, forall_eq_or_imp] at hr
      cases hbatch : st.batch with
      | nil =>
          simp only [MergeState.mergeStep, hrest, hbatch]
          exact h.mergeRest hzero
      | cons y batch =>
          rw [hbatch] at hb
          simp only [List.mem_cons, forall_eq_or_imp] at hb
          simp only [MergeState.mergeStep, hrest, hbatch]
          split
          · exact ⟨h.written, h.insertionBlock.insertWithIndex hzero hr.1 _,
              List.forall_mem_cons.mpr hb, hr.2⟩
          · split
            · exact ⟨h.written, h.insertionBlock.insertWithIndex hzero hr.1 _, hb.2, hr.2⟩
            · rw [takeFromBatch]
              split
              · exact ⟨h.written, h.insertionBlock.insertWithIndex hzero hb.1 _, hb.2, h.rest⟩
              · exact ⟨h.written, h.insertionBlock, hb.2, h.rest⟩

lemma Holds.mergeLoop : ∀ (n : ℕ) {st : MergeState K α}, st.Holds P →
    (MergeState.mergeLoop p n st).Holds P := by
  intro n
  induction n with
  | zero =>
      intro st h
      exact h
  | succ n ih =>
      intro st h
      rw [MergeState.mergeLoop]
      split
      · exact h
      · exact ih ((h.flushFull hzero).mergeStep hzero)

end MergeState

lemma holds_mergedBlocks {batch rest : List α} (hzero : P p.zero) (hb : ∀ x ∈ batch, P x)
    (hr : ∀ x ∈ rest, P x) : ∀ c ∈ mergedBlocks p batch rest, c.Holds P := by
  have hstart : MergeState.Holds P
      ⟨[], (PmaEntry.null p).allocateBlock p, p.nullKey, batch, rest⟩ :=
    ⟨fun c hc => absurd hc List.not_mem_nil, PmaEntry.holds_allocateBlock hzero _, hb, hr⟩
  have h := MergeState.Holds.mergeLoop hzero (batch.length + rest.length) hstart
  intro c hc
  rw [mergedBlocks, MergeState.finish, List.mem_append] at hc
  rcases hc with hc | hc
  · exact h.written c hc
  · split at hc
    · rw [List.mem_singleton.mp hc]
      exact h.insertionBlock
    · exact absurd hc List.not_mem_nil

end BatchPMA
