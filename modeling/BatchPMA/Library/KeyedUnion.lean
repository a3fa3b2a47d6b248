import Mathlib.Order.Basic
import Mathlib.Data.List.Nodup
import Mathlib.Data.List.Perm.Subperm
import Mathlib.Tactic

/-!
# Union of lists that are ordered by a key

A list is ordered if its keys strictly increase.  The union of an old and a new list keeps all old
elements and takes a new one when its key is not there yet.  Unions are described by their members;
the order makes them unique.
-/

namespace KeyedUnion

variable {α K : Type*} [LinearOrder K] {key : α → K} {old old' new new' r r' : List α}

/-- Keys strictly increase. -/
def Ordered (key : α → K) (l : List α) : Prop := l.Pairwise fun x y => key x < key y

lemma Ordered.append {l l' : List α} (h : Ordered key l) (h' : Ordered key l')
    (hlt : ∀ x ∈ l, ∀ y ∈ l', key x < key y) : Ordered key (l ++ l') :=
  List.pairwise_append.mpr ⟨h, h', hlt⟩

lemma Ordered.left {l l' : List α} (h : Ordered key (l ++ l')) : Ordered key l :=
  (List.pairwise_append.mp h).1

lemma Ordered.right {l l' : List α} (h : Ordered key (l ++ l')) : Ordered key l' :=
  (List.pairwise_append.mp h).2.1

lemma Ordered.lt {l l' : List α} (h : Ordered key (l ++ l')) : ∀ x ∈ l, ∀ y ∈ l', key x < key y :=
  (List.pairwise_append.mp h).2.2

lemma Ordered.nodup_keys {l : List α} (h : Ordered key l) : (l.map key).Nodup := by
  rw [List.Nodup, List.pairwise_map]
  exact h.imp fun hxy => hxy.ne

/-- An ordered list has one element of a key at most. -/
lemma Ordered.eq_of_key_eq {l : List α} (h : Ordered key l) {x y : α} (hx : x ∈ l) (hy : y ∈ l)
    (hkey : key x = key y) : x = y :=
  List.inj_on_of_nodup_map h.nodup_keys hx hy hkey

/-- Ordered lists with the same members are equal. -/
lemma Ordered.ext : ∀ {l l' : List α}, Ordered key l → Ordered key l' →
    (∀ x, x ∈ l ↔ x ∈ l') → l = l'
  | [], [], _, _, _ => rfl
  | [], y :: l', _, _, h => absurd ((h y).mpr List.mem_cons_self) List.not_mem_nil
  | x :: l, [], _, _, h => absurd ((h x).mp List.mem_cons_self) List.not_mem_nil
  | x :: l, y :: l', hl, hl', h => by
      have hl1 := List.pairwise_cons.mp hl
      have hl2 := List.pairwise_cons.mp hl'
      have hxy : x = y := by
        rcases List.mem_cons.mp ((h x).mp List.mem_cons_self) with hx | hx
        · exact hx
        · rcases List.mem_cons.mp ((h y).mpr List.mem_cons_self) with hy | hy
          · exact hy.symm
          · exact absurd (hl1.1 y hy) (not_lt.mpr (hl2.1 x hx).le)
      subst hxy
      refine congrArg (x :: ·) (Ordered.ext hl1.2 hl2.2 fun z => ?_)
      have hz := h z
      rw [List.mem_cons, List.mem_cons] at hz
      constructor
      · intro hin
        rcases hz.mp (Or.inr hin) with rfl | h'
        · exact absurd (hl1.1 z hin) (lt_irrefl _)
        · exact h'
      · intro hin
        rcases hz.mpr (Or.inr hin) with rfl | h'
        · exact absurd (hl2.1 z hin) (lt_irrefl _)
        · exact h'

/-- `r` is the union of `old` and `new`; for equal keys the old element is kept. -/
structure IsUnion (key : α → K) (old new r : List α) : Prop where
  ordered : Ordered key r
  mem : ∀ x, x ∈ r ↔ x ∈ old ∨ (x ∈ new ∧ ∀ y ∈ old, key y ≠ key x)

lemma IsUnion.unique (h : IsUnion key old new r) (h' : IsUnion key old new r') : r = r' :=
  h.ordered.ext h'.ordered fun x => (h.mem x).trans (h'.mem x).symm

lemma IsUnion.nil_new (h : Ordered key old) : IsUnion key old [] old :=
  ⟨h, fun x => by simp⟩

lemma IsUnion.nil_old (h : Ordered key new) : IsUnion key [] new new :=
  ⟨h, fun x => by simp⟩

lemma IsUnion.mem_old (h : IsUnion key old new r) {x : α} (hx : x ∈ old) : x ∈ r :=
  (h.mem x).mpr (Or.inl hx)

lemma IsUnion.mem_cases (h : IsUnion key old new r) {x : α} (hx : x ∈ r) : x ∈ old ∨ x ∈ new :=
  ((h.mem x).mp hx).imp id And.left

lemma IsUnion.exists_key (h : IsUnion key old new r) {x : α} (hx : x ∈ new) :
    ∃ y ∈ r, key y = key x := by
  by_cases hold : ∃ y ∈ old, key y = key x
  · obtain ⟨y, hy, hk⟩ := hold
    exact ⟨y, h.mem_old hy, hk⟩
  · push Not at hold
    exact ⟨x, (h.mem x).mpr (Or.inr ⟨hx, hold⟩), rfl⟩

/-- One element at its place. -/
lemma IsUnion.insert {a b : List α} {e : α} (h : Ordered key (a ++ b))
    (ha : ∀ x ∈ a, key x < key e) (hb : ∀ x ∈ b, key e < key x) :
    IsUnion key (a ++ b) [e] (a ++ e :: b) := by
  refine ⟨h.left.append (List.pairwise_cons.mpr ⟨hb, h.right⟩) fun x hx y hy => ?_, fun x => ?_⟩
  · rcases List.mem_cons.mp hy with rfl | hy
    · exact ha x hx
    · exact h.lt x hx y hy
  · constructor
    · intro hx
      rcases List.mem_append.mp hx with hx | hx
      · exact Or.inl (List.mem_append_left _ hx)
      · rcases List.mem_cons.mp hx with rfl | hx
        · refine Or.inr ⟨List.mem_singleton_self _, fun y hy => ?_⟩
          rcases List.mem_append.mp hy with hy | hy
          · exact (ha y hy).ne
          · exact (hb y hy).ne'
        · exact Or.inl (List.mem_append_right _ hx)
    · rintro (hx | ⟨hx, -⟩)
      · rcases List.mem_append.mp hx with hx | hx
        · exact List.mem_append_left _ hx
        · exact List.mem_append_right _ (List.mem_cons_of_mem _ hx)
      · rw [List.mem_singleton.mp hx]
        exact List.mem_append_right _ List.mem_cons_self

/-- Elements whose keys are there already. -/
lemma IsUnion.present (h : Ordered key old) (hnew : ∀ x ∈ new, ∃ y ∈ old, key y = key x) :
    IsUnion key old new old := by
  refine ⟨h, fun x => ⟨Or.inl, ?_⟩⟩
  rintro (hx | ⟨hx, hne⟩)
  · exact hx
  · obtain ⟨y, hy, hk⟩ := hnew x hx
    exact absurd hk (hne y hy)

/-- One list of new elements after the other. -/
lemma IsUnion.trans (h : IsUnion key old new r) (h' : IsUnion key r new' r')
    (hne : ∀ x ∈ new, ∀ y ∈ new', key x ≠ key y) : IsUnion key old (new ++ new') r' := by
  refine ⟨h'.ordered, fun x => ?_⟩
  rw [h'.mem, h.mem, List.mem_append]
  constructor
  · rintro ((hx | ⟨hx, hk⟩) | ⟨hx, hk⟩)
    · exact Or.inl hx
    · exact Or.inr ⟨Or.inl hx, hk⟩
    · exact Or.inr ⟨Or.inr hx, fun y hy => hk y (h.mem_old hy)⟩
  · rintro (hx | ⟨hx | hx, hk⟩)
    · exact Or.inl (Or.inl hx)
    · exact Or.inl (Or.inr ⟨hx, hk⟩)
    · refine Or.inr ⟨hx, fun y hy => ?_⟩
      rcases h.mem_cases hy with hy | hy
      · exact hk y hy
      · exact hne y hy x hx

/-- Two ranges of keys side by side. -/
lemma IsUnion.append (h : IsUnion key old new r) (h' : IsUnion key old' new' r')
    (hlt : ∀ x ∈ old ++ new, ∀ y ∈ old' ++ new', key x < key y) :
    IsUnion key (old ++ old') (new ++ new') (r ++ r') := by
  have hleft : ∀ {x}, x ∈ r → x ∈ old ++ new := fun hx => List.mem_append.mpr (h.mem_cases hx)
  have hright : ∀ {x}, x ∈ r' → x ∈ old' ++ new' := fun hx => List.mem_append.mpr (h'.mem_cases hx)
  refine ⟨h.ordered.append h'.ordered fun x hx y hy => hlt x (hleft hx) y (hright hy),
    fun x => ?_⟩
  rw [List.mem_append, List.mem_append, List.mem_append, h.mem, h'.mem]
  constructor
  · rintro ((hx | ⟨hx, hk⟩) | (hx | ⟨hx, hk⟩))
    · exact Or.inl (Or.inl hx)
    · refine Or.inr ⟨Or.inl hx, fun y hy => ?_⟩
      rcases List.mem_append.mp hy with hy | hy
      · exact hk y hy
      · exact (hlt x (List.mem_append_right _ hx) y (List.mem_append_left _ hy)).ne'
    · exact Or.inl (Or.inr hx)
    · refine Or.inr ⟨Or.inr hx, fun y hy => ?_⟩
      rcases List.mem_append.mp hy with hy | hy
      · exact (hlt y (List.mem_append_left _ hy) x (List.mem_append_right _ hx)).ne
      · exact hk y hy
  · rintro ((hx | hx) | ⟨hx | hx, hk⟩)
    · exact Or.inl (Or.inl hx)
    · exact Or.inr (Or.inl hx)
    · exact Or.inl (Or.inr ⟨hx, fun y hy => hk y (List.mem_append_left _ hy)⟩)
    · exact Or.inr (Or.inr ⟨hx, fun y hy => hk y (List.mem_append_right _ hy)⟩)

/-- An old element in front of all others. -/
lemma IsUnion.cons_old (h : IsUnion key old new r) {e : α} (hlt : ∀ x ∈ old ++ new, key e < key x) :
    IsUnion key (e :: old) new (e :: r) :=
  IsUnion.append (IsUnion.nil_new (List.pairwise_singleton _ e)) h fun x hx y hy => by
    rw [List.append_nil, List.mem_singleton] at hx
    exact hx ▸ hlt y hy

/-- A new element in front of all others. -/
lemma IsUnion.cons_new (h : IsUnion key old new r) {e : α} (hlt : ∀ x ∈ old ++ new, key e < key x) :
    IsUnion key old (e :: new) (e :: r) :=
  IsUnion.append (IsUnion.nil_old (List.pairwise_singleton _ e)) h fun x hx y hy => by
    rw [List.nil_append, List.mem_singleton] at hx
    exact hx ▸ hlt y hy

lemma IsUnion.length_old_le (h : IsUnion key old new r) (hold : Ordered key old) :
    old.length ≤ r.length := by
  have hsub : old ⊆ r := fun x hx => h.mem_old hx
  exact ((hold.nodup_keys.of_map key).subperm hsub).length_le

lemma IsUnion.length_new_le (h : IsUnion key old new r) (hnew : Ordered key new) :
    new.length ≤ r.length := by
  have hsub : new.map key ⊆ r.map key := by
    intro k hk
    obtain ⟨x, hx, rfl⟩ := List.mem_map.mp hk
    obtain ⟨y, hy, hk⟩ := h.exists_key hx
    exact List.mem_map.mpr ⟨y, hy, hk⟩
  simpa using (hnew.nodup_keys.subperm hsub).length_le

lemma IsUnion.length_le (h : IsUnion key old new r) : r.length ≤ old.length + new.length := by
  have hsub : r ⊆ old ++ new := fun x hx => List.mem_append.mpr (h.mem_cases hx)
  have := ((h.ordered.nodup_keys.of_map key).subperm hsub).length_le
  rwa [List.length_append] at this

/-! ## New elements with repeated keys -/

/-- `r` holds the old elements and one of the new ones for each key that is missing there. -/
structure IsKeyUnion (key : α → K) (old new r : List α) : Prop where
  ordered : Ordered key r
  mem_old : ∀ x ∈ old, x ∈ r
  mem_cases : ∀ x ∈ r, x ∈ old ∨ x ∈ new
  exists_key : ∀ x ∈ new, ∃ y ∈ r, key y = key x

lemma IsKeyUnion.isUnion (h : IsKeyUnion key old new r) (hnew : Ordered key new) :
    IsUnion key old new r := by
  refine ⟨h.ordered, fun x => ⟨fun hx => ?_, ?_⟩⟩
  · by_cases hold : ∃ y ∈ old, key y = key x
    · obtain ⟨y, hy, hk⟩ := hold
      rw [← h.ordered.eq_of_key_eq (h.mem_old y hy) hx hk]
      exact Or.inl hy
    · push Not at hold
      exact (h.mem_cases x hx).imp id fun hin => ⟨hin, hold⟩
  · rintro (hx | ⟨hx, hne⟩)
    · exact h.mem_old x hx
    · obtain ⟨y, hy, hk⟩ := h.exists_key x hx
      rcases h.mem_cases y hy with hin | hin
      · exact absurd hk (hne y hin)
      · rwa [← hnew.eq_of_key_eq hin hx hk]

lemma IsUnion.isKeyUnion (h : IsUnion key old new r) : IsKeyUnion key old new r :=
  ⟨h.ordered, fun _ hx => h.mem_old hx, fun _ hx => h.mem_cases hx, fun _ hx => h.exists_key hx⟩

/-- One list of new elements after the other. -/
lemma IsKeyUnion.trans (h : IsKeyUnion key old new r) (h' : IsKeyUnion key r new' r') :
    IsKeyUnion key old (new ++ new') r' where
  ordered := h'.ordered
  mem_old x hx := h'.mem_old x (h.mem_old x hx)
  mem_cases x hx := by
    rcases h'.mem_cases x hx with hx | hx
    · exact (h.mem_cases x hx).imp id (List.mem_append_left _)
    · exact Or.inr (List.mem_append_right _ hx)
  exists_key x hx := by
    rcases List.mem_append.mp hx with hx | hx
    · obtain ⟨y, hy, hk⟩ := h.exists_key x hx
      exact ⟨y, h'.mem_old y hy, hk⟩
    · exact h'.exists_key x hx

lemma IsKeyUnion.exists_key_iff (h : IsKeyUnion key old new r) {k : K} :
    (∃ x ∈ r, key x = k) ↔ (∃ x ∈ old, key x = k) ∨ ∃ x ∈ new, key x = k := by
  constructor
  · rintro ⟨x, hx, hk⟩
    exact (h.mem_cases x hx).imp (fun hin => ⟨x, hin, hk⟩) fun hin => ⟨x, hin, hk⟩
  · rintro (⟨x, hx, hk⟩ | ⟨x, hx, hk⟩)
    · exact ⟨x, h.mem_old x hx, hk⟩
    · obtain ⟨y, hy, hyk⟩ := h.exists_key x hx
      exact ⟨y, hy, hyk.trans hk⟩

/-- An old element in front of all others. -/
lemma IsKeyUnion.cons_old (h : IsKeyUnion key old new r) {e : α} (hlt : ∀ x ∈ r, key e < key x) :
    IsKeyUnion key (e :: old) new (e :: r) where
  ordered := List.pairwise_cons.mpr ⟨hlt, h.ordered⟩
  mem_old x hx := by
    rcases List.mem_cons.mp hx with rfl | hx
    · exact List.mem_cons_self
    · exact List.mem_cons_of_mem _ (h.mem_old x hx)
  mem_cases x hx := by
    rcases List.mem_cons.mp hx with rfl | hx
    · exact Or.inl List.mem_cons_self
    · exact (h.mem_cases x hx).imp (List.mem_cons_of_mem _) id
  exists_key x hx := by
    obtain ⟨y, hy, hk⟩ := h.exists_key x hx
    exact ⟨y, List.mem_cons_of_mem _ hy, hk⟩

/-- New elements of one key in front of all others. -/
lemma IsKeyUnion.cons_new (h : IsKeyUnion key old new r) {e : α} {same : List α}
    (hlt : ∀ x ∈ r, key e < key x) (he : e ∈ same) (hsame : ∀ x ∈ same, key x = key e) :
    IsKeyUnion key old (same ++ new) (e :: r) where
  ordered := List.pairwise_cons.mpr ⟨hlt, h.ordered⟩
  mem_old x hx := List.mem_cons_of_mem _ (h.mem_old x hx)
  mem_cases x hx := by
    rcases List.mem_cons.mp hx with rfl | hx
    · exact Or.inr (List.mem_append_left _ he)
    · exact (h.mem_cases x hx).imp id (List.mem_append_right _)
  exists_key x hx := by
    rcases List.mem_append.mp hx with hx | hx
    · exact ⟨e, List.mem_cons_self, (hsame x hx).symm⟩
    · obtain ⟨y, hy, hk⟩ := h.exists_key x hx
      exact ⟨y, List.mem_cons_of_mem _ hy, hk⟩

/-- New elements whose keys are there already. -/
lemma IsKeyUnion.append_present (h : IsKeyUnion key old new r) {same : List α}
    (hsame : ∀ x ∈ same, ∃ y ∈ r, key y = key x) : IsKeyUnion key old (same ++ new) r where
  ordered := h.ordered
  mem_old := h.mem_old
  mem_cases x hx := (h.mem_cases x hx).imp id (List.mem_append_right _)
  exists_key x hx := by
    rcases List.mem_append.mp hx with hx | hx
    · exact hsame x hx
    · exact h.exists_key x hx

/-- Old elements in front of all others. -/
lemma IsKeyUnion.append_old (h : IsKeyUnion key old new r) {front : List α}
    (hfront : Ordered key front) (hlt : ∀ x ∈ front, ∀ y ∈ r, key x < key y) :
    IsKeyUnion key (front ++ old) new (front ++ r) where
  ordered := hfront.append h.ordered hlt
  mem_old x hx := by
    rcases List.mem_append.mp hx with hx | hx
    · exact List.mem_append_left _ hx
    · exact List.mem_append_right _ (h.mem_old x hx)
  mem_cases x hx := by
    rcases List.mem_append.mp hx with hx | hx
    · exact Or.inl (List.mem_append_left _ hx)
    · exact (h.mem_cases x hx).imp (List.mem_append_right _) id
  exists_key x hx := by
    obtain ⟨y, hy, hk⟩ := h.exists_key x hx
    exact ⟨y, List.mem_append_right _ hy, hk⟩

/-! ## One element after the other -/

/-- Adds an element if its key is not there yet. -/
def insertKeyed (key : α → K) (l : List α) (e : α) : List α :=
  if ∃ x ∈ l, key x = key e then l
  else l.filter (fun x => decide (key x < key e)) ++
    e :: l.filter (fun x => decide (key e < key x))

/-- Adds several elements, which may have the same key: the first one counts. -/
def mergeKeyed (key : α → K) (l es : List α) : List α := es.foldl (insertKeyed key) l

@[simp] lemma mergeKeyed_nil (l : List α) : mergeKeyed key l [] = l := rfl

@[simp] lemma mergeKeyed_cons (l : List α) (e : α) (es : List α) :
    mergeKeyed key l (e :: es) = mergeKeyed key (insertKeyed key l e) es := rfl

lemma mergeKeyed_append (l es es' : List α) :
    mergeKeyed key l (es ++ es') = mergeKeyed key (mergeKeyed key l es) es' :=
  List.foldl_append

lemma insertKeyed_of_present {l : List α} {e : α} (h : ∃ x ∈ l, key x = key e) :
    insertKeyed key l e = l := if_pos h

lemma exists_key_insertKeyed (l : List α) (e : α) : ∃ x ∈ insertKeyed key l e, key x = key e := by
  rw [insertKeyed]
  split
  · rename_i h
    exact h
  · exact ⟨e, List.mem_append_right _ List.mem_cons_self, rfl⟩

/-- Nothing is added but the new elements, whatever the order of the list. -/
lemma mem_mergeKeyed {x : α} {es : List α} : ∀ {l : List α}, x ∈ mergeKeyed key l es →
    x ∈ l ∨ x ∈ es := by
  induction es with
  | nil => exact fun h => Or.inl h
  | cons e es ih =>
      intro l h
      rcases ih h with h | h
      · rw [insertKeyed] at h
        split at h
        · exact Or.inl h
        · simp only [List.mem_append, List.mem_cons, List.mem_filter] at h
          rcases h with ⟨h, -⟩ | rfl | ⟨h, -⟩
          · exact Or.inl h
          · exact Or.inr List.mem_cons_self
          · exact Or.inl h
      · exact Or.inr (List.mem_cons_of_mem e h)

lemma isUnion_insertKeyed {l : List α} (h : Ordered key l) (e : α) :
    IsUnion key l [e] (insertKeyed key l e) := by
  rw [insertKeyed]
  split
  · rename_i hin
    refine IsUnion.present h fun x hx => ?_
    rw [List.mem_singleton.mp hx]
    exact hin
  · rename_i hnew
    push Not at hnew
    refine ⟨?_, fun x => ?_⟩
    · refine Ordered.append (List.Pairwise.filter _ h)
        (List.pairwise_cons.mpr ⟨?_, List.Pairwise.filter _ h⟩) ?_
      · intro x hx
        simpa using (List.mem_filter.mp hx).2
      · intro x hx y hy
        have hlt : key x < key e := by simpa using (List.mem_filter.mp hx).2
        rcases List.mem_cons.mp hy with rfl | hy
        · exact hlt
        · exact lt_trans hlt (by simpa using (List.mem_filter.mp hy).2)
    · simp only [List.mem_append, List.mem_cons, List.mem_filter, decide_eq_true_eq,
        List.not_mem_nil, or_false]
      constructor
      · rintro (⟨hx, -⟩ | rfl | ⟨hx, -⟩)
        · exact Or.inl hx
        · exact Or.inr ⟨rfl, hnew⟩
        · exact Or.inl hx
      · rintro (hx | ⟨rfl, -⟩)
        · rcases lt_or_gt_of_ne (hnew x hx) with hlt | hgt
          · exact Or.inl ⟨hx, hlt⟩
          · exact Or.inr (Or.inr ⟨hx, hgt⟩)
        · exact Or.inr (Or.inl rfl)

/-- A merged list holds the old elements and the first new one of each other key. -/
lemma isKeyUnion_mergeKeyed {es : List α} : ∀ {l : List α}, Ordered key l →
    IsKeyUnion key l es (mergeKeyed key l es) := by
  induction es with
  | nil =>
      intro l h
      exact ⟨h, fun x hx => hx, fun x hx => Or.inl hx, fun x hx => absurd hx List.not_mem_nil⟩
  | cons e es ih =>
      intro l h
      have hu := isUnion_insertKeyed h e
      exact hu.isKeyUnion.trans (ih hu.ordered)

lemma length_mergeKeyed_le {es : List α} : ∀ {l : List α}, Ordered key l →
    (mergeKeyed key l es).length ≤ l.length + es.length := by
  induction es with
  | nil => intro l _; simp
  | cons e es ih =>
      intro l h
      have h1 := ih (isUnion_insertKeyed h e).ordered
      have h2 := (isUnion_insertKeyed h e).length_le
      rw [List.length_singleton] at h2
      rw [mergeKeyed_cons, List.length_cons]
      omega

lemma le_length_mergeKeyed {es : List α} : ∀ {l : List α}, Ordered key l →
    l.length ≤ (mergeKeyed key l es).length := by
  induction es with
  | nil => intro l _; simp
  | cons e es ih =>
      intro l h
      exact le_trans ((isUnion_insertKeyed h e).length_old_le h)
        (ih (isUnion_insertKeyed h e).ordered)

lemma length_insertKeyed_of_new {l : List α} {e : α} (h : Ordered key l)
    (hnew : ∀ x ∈ l, key x ≠ key e) : (insertKeyed key l e).length = l.length + 1 := by
  have hle := (isUnion_insertKeyed h e).length_le
  have hsub : e :: l ⊆ insertKeyed key l e := by
    intro x hx
    refine ((isUnion_insertKeyed h e).mem x).mpr ?_
    rcases List.mem_cons.mp hx with rfl | hx
    · exact Or.inr ⟨List.mem_singleton_self x, hnew⟩
    · exact Or.inl hx
  have hnodup : (e :: l).Nodup := by
    refine List.nodup_cons.mpr ⟨fun hin => hnew e hin rfl, ?_⟩
    exact h.nodup_keys.of_map key
  have hge := (hnodup.subperm hsub).length_le
  rw [List.length_cons] at hge
  rw [List.length_singleton] at hle
  omega

/-- New elements whose keys increase. -/
lemma isUnion_mergeKeyed {l es : List α} (h : Ordered key l) (hes : Ordered key es) :
    IsUnion key l es (mergeKeyed key l es) :=
  (isKeyUnion_mergeKeyed h).isUnion hes

end KeyedUnion
