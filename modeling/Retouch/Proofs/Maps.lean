import Mathlib.Tactic.Common
import Retouch.OrderedMap
import Retouch.Text.Basic

/-!
# Maps, sets and sorted lists

What a look-up gives after an insertion, and what is in a list after the operations that keep it
without repetitions or in order.
-/

namespace Retouch

open List

namespace OrderedMap

variable {κ α : Type} [BEq κ] [LawfulBEq κ]

theorem get?_insert (m : OrderedMap κ α) (k k' : κ) (v : α) :
    get? (insert m k v) k' = if k' == k then some v else get? m k' := by
  induction m with
  | nil =>
    simp only [insert, get?, lookup_cons]
    cases k' == k <;> rfl
  | cons e m ih =>
    obtain ⟨k₁, _⟩ := e
    unfold insert
    by_cases h : k₁ = k
    · subst h
      rw [if_pos (beq_self_eq_true _)]
      simp only [get?, lookup_cons]
      cases k' == k₁ <;> rfl
    · rw [if_neg (by simpa using h)]
      simp only [get?, lookup_cons] at ih ⊢
      by_cases h' : k' = k₁
      · subst h'
        simp [h]
      · rw [beq_eq_false_iff_ne.2 h', ih]

@[simp] theorem get?_insert_self (m : OrderedMap κ α) (k : κ) (v : α) :
    get? (insert m k v) k = some v := by
  rw [get?_insert, if_pos (beq_self_eq_true k)]

variable {k k' : κ} {m o : OrderedMap κ α}

theorem get?_insert_of_ne (m : OrderedMap κ α) (h : k' ≠ k) (v : α) :
    get? (insert m k v) k' = get? m k' := by
  rw [get?_insert, if_neg (by simpa using h)]

theorem mem_of_get? {v : α} (h : get? m k = some v) : (k, v) ∈ m := by
  induction m with
  | nil => cases h
  | cons e m ih =>
    obtain ⟨k₁, _⟩ := e
    simp only [get?, lookup_cons] at h ih
    by_cases hk : k = k₁
    · subst hk
      rw [beq_self_eq_true] at h
      cases h
      exact mem_cons_self
    · rw [beq_eq_false_iff_ne.2 hk] at h
      exact mem_cons_of_mem _ (ih h)

theorem get?_of_mem (h : (keys m).Nodup) {v : α} (hm : (k, v) ∈ m) : get? m k = some v := by
  induction m with
  | nil => cases hm
  | cons e m ih =>
    obtain ⟨k₁, _⟩ := e
    obtain ⟨new, rest⟩ := nodup_cons.1 h
    simp only [get?, lookup_cons] at ih ⊢
    rcases mem_cons.1 hm with same | later
    · cases same
      rw [beq_self_eq_true]
    · have hk : k ≠ k₁ := by
        rintro rfl
        exact new (mem_map.2 ⟨_, later, rfl⟩)
      rw [beq_eq_false_iff_ne.2 hk]
      exact ih rest later

omit [LawfulBEq κ] in
theorem has_eq_isSome (m : OrderedMap κ α) (k : κ) : has m k = (get? m k).isSome := rfl

theorem has_iff_mem_keys (m : OrderedMap κ α) (k : κ) : has m k = true ↔ k ∈ keys m := by
  induction m with
  | nil => simp [has, keys]
  | cons e m ih =>
    obtain ⟨k₁, _⟩ := e
    simp only [has, keys, lookup_cons] at ih ⊢
    by_cases h : k = k₁
    · subst h
      simp
    · rw [beq_eq_false_iff_ne.2 h]
      simp [h]

theorem keys_insert (m : OrderedMap κ α) (k : κ) (v : α) :
    keys (insert m k v) = if has m k then keys m else keys m ++ [k] := by
  induction m with
  | nil => rfl
  | cons e m ih =>
    obtain ⟨k₁, _⟩ := e
    unfold insert
    by_cases h : k₁ = k
    · subst h
      simp [has, keys]
    · rw [if_neg (by simpa using h)]
      simp only [keys, has, lookup_cons, map_cons] at ih ⊢
      rw [beq_eq_false_iff_ne.2 (symm h), ih]
      by_cases hk : (m.lookup k).isSome = true <;> simp [hk]

theorem nodup_keys_insert (h : (keys m).Nodup) (k : κ) (v : α) : (keys (insert m k v)).Nodup := by
  rw [keys_insert]
  split
  · exact h
  · rename_i hk
    rw [has_iff_mem_keys] at hk
    exact nodup_append.2 ⟨h, by simp, by
      rintro a ha b hb rfl
      exact hk (mem_singleton.1 hb ▸ ha)⟩

theorem get?_of_get?_erase {v : α} (h : get? (erase m k) k' = some v) : get? m k' = some v := by
  induction m with
  | nil => cases h
  | cons e m ih =>
    obtain ⟨k₁, _⟩ := e
    simp only [get?, erase, filter_cons, lookup_cons] at h ih ⊢
    by_cases hk : k₁ = k
    · subst hk
      rw [if_neg (by simp)] at h
      by_cases h' : k' = k₁
      · subst h'
        have kept := mem_of_get? h
        simp at kept
      · rw [beq_eq_false_iff_ne.2 h']
        exact ih h
    · rw [if_pos (by simpa using hk), lookup_cons] at h
      by_cases h' : k' = k₁
      · subst h'
        simpa using h
      · rw [beq_eq_false_iff_ne.2 h'] at h ⊢
        exact ih h

omit [LawfulBEq κ] in
theorem get?_map {β : Type} (m : OrderedMap κ α) (f : α → β) (k : κ) :
    get? (m.map fun e => (e.1, f e.2)) k = (get? m k).map f := by
  induction m with
  | nil => rfl
  | cons e m ih =>
    obtain ⟨k₁, _⟩ := e
    simp only [get?, map_cons, lookup_cons] at ih ⊢
    cases k == k₁
    · exact ih
    · rfl

/-! ### Updates -/

theorem insert_insert (m : OrderedMap κ α) (k : κ) (v w : α) :
    insert (insert m k v) k w = insert m k w := by
  induction m with
  | nil => simp [insert]
  | cons e m ih =>
    obtain ⟨k₁, _⟩ := e
    by_cases hk : k₁ = k
    · subst hk
      simp [insert]
    · simp [insert, hk, ih]

theorem insert_comm (old : has m k = true) (ne : k' ≠ k) (v v' : α) :
    insert (insert m k' v') k v = insert (insert m k v) k' v' := by
  induction m with
  | nil => cases old
  | cons e m ih =>
    obtain ⟨k₁, _⟩ := e
    by_cases hk : k₁ = k
    · subst hk
      have : ¬ (k₁ = k') := symm ne
      simp [insert, this]
    · by_cases hk' : k₁ = k'
      · subst hk'
        simp [insert, hk]
      · have old' : has m k = true := by
          simpa only [has, lookup_cons, beq_eq_false_iff_ne.2 (symm hk)] using old
        simp [insert, hk, hk', ih old']

omit [LawfulBEq κ] in
theorem update_cons (m : OrderedMap κ α) (k : κ) (v : α) (o : OrderedMap κ α) :
    update m ((k, v) :: o) = update (insert m k v) o := rfl

theorem insert_update (old : has m k = true) (other : k ∉ keys o) (v : α) :
    insert (update m o) k v = update (insert m k v) o := by
  induction o generalizing m with
  | nil => rfl
  | cons e o ih =>
    obtain ⟨k₁, v₁⟩ := e
    have ne : k₁ ≠ k := fun h => other (h ▸ mem_cons_self)
    have still : has (insert m k₁ v₁) k = true := by
      rw [has_iff_mem_keys, keys_insert]
      rw [has_iff_mem_keys] at old
      split
      · exact old
      · exact mem_append_left _ old
    rw [update_cons, ih still fun h => other (mem_cons_of_mem _ h), insert_comm old ne, update_cons]

theorem update_insert (nodup : (keys o).Nodup) (k : κ) (v : α) :
    update m (insert o k v) = insert (update m o) k v := by
  induction o generalizing m with
  | nil => rfl
  | cons e o ih =>
    obtain ⟨k₁, v₁⟩ := e
    obtain ⟨new, rest⟩ := nodup_cons.1 nodup
    by_cases hk : k₁ = k
    · subst hk
      have there : has (insert m k₁ v₁) k₁ = true := by
        rw [has, ← get?, get?_insert_self]
        rfl
      rw [insert, if_pos (beq_self_eq_true k₁), update_cons, update_cons, insert_update there new,
        insert_insert]
    · rw [insert, if_neg (by simpa using hk), update_cons, update_cons, ih rest]

theorem update_update (nodup : (keys o).Nodup) (o' : OrderedMap κ α) :
    update (update m o) o' = update m (update o o') := by
  induction o' generalizing o with
  | nil => rfl
  | cons e o' ih =>
    obtain ⟨k, v⟩ := e
    rw [update_cons, update_cons, ← update_insert nodup, ih (nodup_keys_insert nodup k v)]

theorem nodup_keys_update (h : (keys m).Nodup) (o : OrderedMap κ α) : (keys (update m o)).Nodup := by
  induction o generalizing m with
  | nil => exact h
  | cons e o ih => exact ih (nodup_keys_insert h e.1 e.2)

theorem insert_of_notMem (new : k ∉ keys m) (v : α) : insert m k v = m ++ [(k, v)] := by
  induction m with
  | nil => rfl
  | cons e m ih =>
    obtain ⟨ne, new⟩ := not_or.1 (mt mem_cons.2 new)
    rw [insert, if_neg (by simpa using Ne.symm ne), ih new]
    rfl

theorem update_eq_append (nodup : (keys (m ++ o)).Nodup) : update m o = m ++ o := by
  induction o generalizing m with
  | nil => exact (append_nil m).symm
  | cons e o ih =>
    have new : e.1 ∉ keys m := by
      rw [keys, map_append] at nodup
      exact fun old => (nodup_append.1 nodup).2.2 e.1 old e.1 mem_cons_self rfl
    rw [update_cons, insert_of_notMem new, ih (by rwa [append_assoc]), append_assoc]
    rfl

theorem nil_update (nodup : (keys o).Nodup) : update [] o = o :=
  update_eq_append nodup

end OrderedMap

variable {α : Type}

theorem mem_insertNew [BEq α] [LawfulBEq α] {l : List α} {a b : α} :
    b ∈ insertNew l a ↔ b ∈ l ∨ b = a := by
  unfold insertNew
  split
  · rename_i h
    have ha := contains_iff_mem.1 h
    constructor
    · exact .inl
    · rintro (h | rfl)
      · exact h
      · exact ha
  · simp

theorem mem_foldl_insertNew [BEq α] [LawfulBEq α] {l m : List α} {a : α} :
    a ∈ m.foldl insertNew l ↔ a ∈ l ∨ a ∈ m := by
  induction m generalizing l with
  | nil => simp
  | cons b m ih => rw [foldl_cons, ih, mem_insertNew, mem_cons, or_assoc]

theorem nodup_foldl_insertNew [BEq α] [LawfulBEq α] (m : List α) {l : List α} (h : l.Nodup) :
    (m.foldl insertNew l).Nodup := by
  induction m generalizing l with
  | nil => exact h
  | cons b m ih =>
    refine ih ?_
    unfold insertNew
    split
    · exact h
    · rename_i new
      refine nodup_append.2 ⟨h, pairwise_singleton _ b, fun a ha a' ha' same => new ?_⟩
      rwa [contains_iff_mem, ← mem_singleton.1 ha', ← same]

theorem bind_eq_ok {ε β : Type} {x : Except ε α} {f : α → Except ε β} {b : β} :
    (x >>= f) = .ok b ↔ ∃ a, x = .ok a ∧ f a = .ok b := by
  cases x with
  | error e | ok a => simp [bind, Except.bind]

theorem map_eq_ok {ε β : Type} {x : Except ε α} {f : α → β} {b : β} :
    x.map f = .ok b ↔ ∃ a, x = .ok a ∧ f a = b := by
  cases x <;> simp [Except.map]

namespace Text

theorem perm_insertSorted (t : Text) (ts : List Text) : (insertSorted t ts).Perm (t :: ts) := by
  induction ts with
  | nil => exact .refl _
  | cons u us ih =>
    unfold insertSorted
    split
    · exact .refl _
    · exact (ih.cons u).trans (.swap t u us)

theorem perm_sorted (ts : List Text) : (sorted ts).Perm ts := by
  induction ts with
  | nil => exact .refl _
  | cons t ts ih => exact (perm_insertSorted t (sorted ts)).trans (ih.cons t)

end Text

end Retouch
