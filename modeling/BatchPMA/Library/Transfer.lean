import Mathlib.Tactic
import Mathlib.Data.Set.Insert

/-!
# Moving values between places

A memory is a function from places to values.  A move takes the value of one place to another one
and leaves a null value behind.  A plan numbers moves whose sources and targets are all different;
its moves can be made in any order, and `Done` describes the memory after any set of them.
-/

namespace Transfer

variable {A V : Type*}

/-- Takes the value at `src` to `dst`. -/
def move [DecidableEq A] (null : V) (mem : A → V) (src dst : A) : A → V :=
  Function.update (Function.update mem dst (mem src)) src null

/-- `n` moves that do not get in each other's way. -/
structure Plan (src dst : ℕ → A) (n : ℕ) : Prop where
  src_inj : ∀ i j, i < n → j < n → src i = src j → i = j
  dst_inj : ∀ i j, i < n → j < n → dst i = dst j → i = j
  src_ne_dst : ∀ i j, i < n → j < n → src i ≠ dst j

/-- `mem'` is `mem` after the moves with numbers in `D`. -/
structure Done (src dst : ℕ → A) (n : ℕ) (null : V) (mem : A → V) (D : Set ℕ) (mem' : A → V) :
    Prop where
  lt : ∀ i ∈ D, i < n
  target : ∀ i ∈ D, mem' (dst i) = mem (src i)
  source : ∀ i ∈ D, mem' (src i) = null
  other : ∀ a, (∀ i ∈ D, a ≠ src i ∧ a ≠ dst i) → mem' a = mem a

variable {src dst : ℕ → A} {n : ℕ} {null : V} {mem mem' : A → V} {D : Set ℕ}

lemma Done.refl (src dst : ℕ → A) (n : ℕ) (null : V) (mem : A → V) :
    Done src dst n null mem ∅ mem :=
  ⟨fun _ h => absurd h (Set.notMem_empty _), fun _ h => absurd h (Set.notMem_empty _),
    fun _ h => absurd h (Set.notMem_empty _), fun _ _ => rfl⟩

/-- A value that has not been moved is still there. -/
lemma Done.unmoved (hp : Plan src dst n) (h : Done src dst n null mem D mem') {i : ℕ} (hi : i < n)
    (hout : i ∉ D) : mem' (src i) = mem (src i) := by
  refine h.other _ fun j hj => ⟨fun heq => hout ?_, hp.src_ne_dst i j hi (h.lt j hj)⟩
  rw [hp.src_inj i j hi (h.lt j hj) heq]
  exact hj

/-- The moves that have been made determine the memory. -/
lemma Done.unique {mem'' : A → V} (h : Done src dst n null mem D mem')
    (h' : Done src dst n null mem D mem'') : mem' = mem'' := by
  funext a
  by_cases ha : ∀ i ∈ D, a ≠ src i ∧ a ≠ dst i
  · rw [h.other a ha, h'.other a ha]
  · push Not at ha
    obtain ⟨i, hi, hcase⟩ := ha
    by_cases hsrc : a = src i
    · rw [hsrc, h.source i hi, h'.source i hi]
    · rw [hcase hsrc, h.target i hi, h'.target i hi]

/-- One more move. -/
lemma Done.move [DecidableEq A] (hp : Plan src dst n) (h : Done src dst n null mem D mem') {i : ℕ} (hi : i < n)
    (hout : i ∉ D) :
    Done src dst n null mem (insert i D) (Transfer.move null mem' (src i) (dst i)) := by
  refine ⟨fun j hj => ?_, fun j hj => ?_, fun j hj => ?_, fun a ha => ?_⟩
  · rcases hj with rfl | hj
    · exact hi
    · exact h.lt j hj
  · rcases hj with rfl | hj
    · rw [Transfer.move, Function.update_of_ne (hp.src_ne_dst j j hi hi).symm,
        Function.update_self, h.unmoved hp hi hout]
    · have hlt := h.lt j hj
      have hne : j ≠ i := fun heq => hout (heq ▸ hj)
      rw [Transfer.move, Function.update_of_ne (hp.src_ne_dst i j hi hlt).symm,
        Function.update_of_ne (fun heq => hne (hp.dst_inj j i hlt hi heq)), h.target j hj]
  · rcases hj with rfl | hj
    · rw [Transfer.move, Function.update_self]
    · have hlt := h.lt j hj
      have hne : j ≠ i := fun heq => hout (heq ▸ hj)
      rw [Transfer.move, Function.update_of_ne (fun heq => hne (hp.src_inj j i hlt hi heq)),
        Function.update_of_ne (hp.src_ne_dst j i hlt hi), h.source j hj]
  · have hi' := ha i (Set.mem_insert i D)
    rw [Transfer.move, Function.update_of_ne hi'.1, Function.update_of_ne hi'.2]
    exact h.other a fun j hj => ha j (Set.mem_insert_of_mem i hj)

end Transfer
