import Mathlib

/-!
# Functions patched by several writers

Each writer owns a set of places and gives a value to each of them.  If the places of different
writers are disjoint, a place has the value of its owner in the end, in whatever order the writers
come.
-/

namespace Patches

variable {ι X β σ : Type*} {place : ι → Set X} {value : ι → X → β} {f₀ f f' : X → β} {D : Set ι}
  {t : ι}

/-- The function when the writers in `D` have written. -/
structure Patched (place : ι → Set X) (value : ι → X → β) (f₀ : X → β) (D : Set ι) (f : X → β) :
    Prop where
  inside : ∀ t ∈ D, ∀ x ∈ place t, f x = value t x
  outside : ∀ x, (∀ t ∈ D, x ∉ place t) → f x = f₀ x

namespace Patched

lemma refl (place : ι → Set X) (value : ι → X → β) (f₀ : X → β) : Patched place value f₀ ∅ f₀ :=
  ⟨fun _ ht => absurd ht (Set.notMem_empty _), fun _ _ => rfl⟩

/-- The places of a writer that has not come yet. -/
lemma untouched (h : Patched place value f₀ D f) (hdis : ∀ t' ∈ D, Disjoint (place t') (place t))
    {x : X} (hx : x ∈ place t) : f x = f₀ x :=
  h.outside x fun t' ht' hx' => (Set.disjoint_left.mp (hdis t' ht') hx') hx

/-- One more writer. -/
lemma insert (h : Patched place value f₀ D f) (hdis : ∀ t' ∈ D, Disjoint (place t') (place t))
    (hin : ∀ x ∈ place t, f' x = value t x) (hout : ∀ x ∉ place t, f' x = f x) :
    Patched place value f₀ (Insert.insert t D) f' where
  inside t' ht' x hx := by
    rcases Set.mem_insert_iff.mp ht' with rfl | ht'
    · exact hin x hx
    · rw [hout x (Set.disjoint_left.mp (hdis t' ht') hx)]
      exact h.inside t' ht' x hx
  outside x hx := by
    rw [hout x (hx t (Set.mem_insert t D))]
    exact h.outside x fun t' ht' => hx t' (Set.mem_insert_of_mem t ht')

/-- The result does not depend on the order of the writers. -/
lemma unique (h : Patched place value f₀ D f) (h' : Patched place value f₀ D f') : f = f' := by
  funext x
  by_cases hx : ∃ t ∈ D, x ∈ place t
  · obtain ⟨t, ht, hxt⟩ := hx
    rw [h.inside t ht x hxt, h'.inside t ht x hxt]
  · push Not at hx
    rw [h.outside x hx, h'.outside x hx]

end Patched

/-- Writers one after the other. -/
theorem foldl_writers {Inv : Set ι → σ → Prop} {body : σ → ι → σ} {writers : Set ι}
    (hstep : ∀ t ∈ writers, ∀ D s, D ⊆ writers → t ∉ D → Inv D s →
      Inv (insert t D) (body s t)) :
    ∀ (l : List ι) {D : Set ι} {s : σ}, l.Nodup → (∀ t ∈ l, t ∈ writers ∧ t ∉ D) → D ⊆ writers →
      Inv D s → Inv (D ∪ {t | t ∈ l}) (l.foldl body s)
  | [], D, s, _, _, _, h => by simpa using h
  | t :: l, D, s, hnd, hl, hD, h => by
      obtain ⟨hnot, hnd'⟩ := List.nodup_cons.mp hnd
      obtain ⟨ht, htD⟩ := hl t List.mem_cons_self
      have hall := foldl_writers hstep l (D := insert t D) hnd' (fun t' ht' => ⟨(hl t'
        (List.mem_cons_of_mem _ ht')).1, fun hin => ?_⟩) (Set.insert_subset ht hD)
        (hstep t ht D s hD htD h)
      · have hset : insert t D ∪ {t' | t' ∈ l} = D ∪ {t' | t' ∈ t :: l} := by
          ext t'
          simp only [Set.mem_union, Set.mem_insert_iff, Set.mem_ofPred_eq, List.mem_cons]
          tauto
        rw [hset] at hall
        exact hall
      · rcases Set.mem_insert_iff.mp hin with rfl | hin
        · exact hnot ht'
        · exact (hl t' (List.mem_cons_of_mem _ ht')).2 hin

end Patches
