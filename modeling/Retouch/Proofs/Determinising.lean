import Mathlib.Data.Finset.Powerset
import Retouch.Proofs.Maps
import Retouch.Proofs.Paths

/-!
# Deterministic automata accept what paths spell

The states of a deterministic automaton are sets of states that silent arcs do not lead out of
(`StateSet`).  Closing a set under silent arcs ends, since each step of the search adds a state
(`Nfa.mem_close`), and so does the search for sets: no set is found twice, so there are no more of
them than there are sets of states (`length_le_pow`).  When it has ended, the arcs out of every set
lead to the sets that its labels lead to (`explore_explored`), and a word is accepted from a set
exactly if a path from one of its members spells it (`acceptsFrom_determinise`).
-/

namespace Retouch.Grammar

open List OrderedMap

namespace Nfa

variable {n : Nfa} {p q s t : Nat} {l : Label} {w : List Label}

/-! ## Closing under silent arcs -/

/-- A list of states without repetitions that silent arcs do not lead out of. -/
structure StateSet (n : Nfa) (set : List Nat) : Prop where
  nodup : set.Nodup
  lt_size : ∀ q ∈ set, q < n.size
  closed : ∀ q ∈ set, ∀ r ∈ n.silentNext q, r ∈ set

theorem mem_silentNext : q ∈ n.silentNext p ↔ (none, q) ∈ n.arcsOf p := by
  rw [silentNext, mem_filterMap]
  constructor
  · rintro ⟨⟨label, _⟩, arc, found⟩
    cases label with
    | none => cases found; exact arc
    | some l => cases found
  · exact fun arc => ⟨_, arc, rfl⟩

variable {set base : List Nat}

theorem StateSet.mem_of_path (h : n.StateSet set) (hp : p ∈ set) (path : n.Path p [] q) : q ∈ set := by
  generalize hw : ([] : List Label) = w at path
  induction path with
  | nil => exact hp
  | silent arc _ ih => exact ih (h.closed _ hp _ (mem_silentNext.2 arc)) hw
  | label => cases hw

theorem length_le_size (nodup : set.Nodup) (lt_size : ∀ q ∈ set, q < n.size) : set.length ≤ n.size := by
  have sub := fun q hq => mem_range.2 (lt_size q hq)
  simpa using (subperm_of_subset nodup sub).length_le

/-- What a search adds to the set `base`: the states `found` and what is new have their silent
successors in the new set, and everything new is reached from `roots` by silent paths. -/
structure Adds (n : Nfa) (roots base set : List Nat) : Prop where
  kept : base ⊆ set
  nodup : set.Nodup
  lt_size : ∀ q ∈ set, q < n.size
  root : ∀ r ∈ roots, r ∈ set
  closed : ∀ q ∈ set, q ∉ base → ∀ r ∈ n.silentNext q, r ∈ set
  reached : ∀ q ∈ set, q ∉ base → ∃ r ∈ roots, n.Path r [] q

theorem adds_self {roots : List Nat} (nodup : base.Nodup) (lt_size : ∀ q ∈ base, q < n.size)
    (known : ∀ r ∈ roots, r ∈ base) : n.Adds roots base base :=
  ⟨.refl _, nodup, lt_size, known, fun _ hq new => absurd hq new,
    fun _ hq new => absurd hq new⟩

theorem Adds.snoc {roots set' : List Nat} (h : n.Adds roots base set) (h' : n.Adds [s] set set') :
    n.Adds (roots ++ [s]) base set' := by
  refine ⟨fun q hq => h'.kept (h.kept hq), h'.nodup, h'.lt_size, fun r hr => ?_, fun q hq new => ?_,
    fun q hq new => ?_⟩
  · rcases mem_append.1 hr with hr | hr
    · exact h'.kept (h.root r hr)
    · exact h'.root r hr
  · by_cases old : q ∈ set
    · exact fun r hr => h'.kept (h.closed q old new r hr)
    · exact h'.closed q hq old
  · by_cases old : q ∈ set
    · obtain ⟨r, hr, path⟩ := h.reached q old new
      exact ⟨r, mem_append_left _ hr, path⟩
    · obtain ⟨r, hr, path⟩ := h'.reached q hq old
      exact ⟨r, mem_append_right _ hr, path⟩

/-- The depth-first search from a state.  With each step down a state is added, so that the search
cannot go deeper than there are states left. -/
theorem addClosure_adds (hn : n.Closed) {fuel : Nat} (hs : s < n.size) (nodup : base.Nodup)
    (lt_size : ∀ q ∈ base, q < n.size) (enough : n.size ≤ fuel + base.length) :
    n.Adds [s] base (n.addClosure fuel s base) := by
  induction fuel generalizing s base with
  | zero =>
    -- all states are in the set already
    have known : s ∈ base := by
      by_contra new
      have longer := length_le_size (nodup_cons.2 ⟨new, nodup⟩) (forall_mem_cons.2 ⟨hs, lt_size⟩)
      rw [length_cons] at longer
      omega
    exact adds_self nodup lt_size (forall_mem_singleton.2 known)
  | succ fuel ih =>
    unfold addClosure
    split
    · rename_i known
      exact adds_self nodup lt_size (forall_mem_singleton.2 (contains_iff_mem.1 known))
    · rename_i new
      have new : s ∉ base := by simpa using new
      have nodup' : (base ++ [s]).Nodup := nodup_append.2
        ⟨nodup, by simp, by rintro a ha b hb rfl; exact new (mem_singleton.1 hb ▸ ha)⟩
      have lt_size' : ∀ q ∈ base ++ [s], q < n.size :=
        forall_mem_append.2 ⟨lt_size, by simpa using hs⟩
      -- the successors one after the other, on top of the set with the state itself
      have all : ∀ next, (∀ r ∈ next, r < n.size) →
          n.Adds next (base ++ [s])
            (next.foldl (fun b s => n.addClosure fuel s b) (base ++ [s])) := by
        intro next
        induction next using reverseRecOn with
        | nil => exact fun _ => adds_self nodup' lt_size' (by simp)
        | append_singleton next r ihn =>
          intro hnext
          obtain ⟨hnext, hr⟩ := forall_mem_append.1 hnext
          have before := ihn hnext
          rw [foldl_append]
          have larger := (subperm_of_subset nodup' before.kept).length_le
          rw [length_append, length_singleton] at larger
          exact before.snoc (ih (hr r (by simp)) before.nodup before.lt_size (by omega))
      obtain ⟨kept, nodup₁, lt_size₁, root, closed, reached⟩ :=
        all (n.silentNext s) fun r hr => hn s _ (mem_silentNext.1 hr)
      have self : s ∈ base ++ [s] := by simp
      refine ⟨fun q hq => kept (mem_append_left _ hq), nodup₁, lt_size₁,
        by simpa using kept self, fun q hq fresh => ?_, fun q hq fresh => ?_⟩
      · by_cases same : q = s
        · subst same
          exact root
        · exact closed q hq (by simp [fresh, same])
      · by_cases same : q = s
        · subst same
          exact ⟨q, by simp, .nil q⟩
        · obtain ⟨r, hr, path⟩ := reached q hq (by simp [fresh, same])
          exact ⟨s, by simp, .silent (mem_silentNext.1 hr) path⟩

theorem close_adds (hn : n.Closed) (hs : s < n.size) (hb : n.StateSet base) :
    n.Adds [s] base (n.close s base) :=
  addClosure_adds hn hs hb.nodup hb.lt_size (Nat.le_add_right _ _)

theorem stateSet_close (hn : n.Closed) (hs : s < n.size) (hb : n.StateSet base) :
    n.StateSet (n.close s base) := by
  have adds := close_adds hn hs hb
  refine ⟨adds.nodup, adds.lt_size, fun q hq r hr => ?_⟩
  by_cases old : q ∈ base
  · exact adds.kept (hb.closed q old r hr)
  · exact adds.closed q hq old r hr

/-- Closing adds what silent paths lead to. -/
theorem mem_close (hn : n.Closed) (hs : s < n.size) (hb : n.StateSet base) :
    q ∈ n.close s base ↔ q ∈ base ∨ n.Path s [] q := by
  have adds := close_adds hn hs hb
  constructor
  · intro hq
    by_cases old : q ∈ base
    · exact .inl old
    · obtain ⟨r, hr, path⟩ := adds.reached q hq old
      exact .inr (mem_singleton.1 hr ▸ path)
  · rintro (old | path)
    · exact adds.kept old
    · exact (stateSet_close hn hs hb).mem_of_path (adds.root s (by simp)) path

theorem stateSet_nil (n : Nfa) : n.StateSet [] := ⟨nodup_nil, by simp, by simp⟩

/-! ## Where labels lead -/

/-- The sets that labels lead to over the given arcs. -/
structure Collected (n : Nfa) (arcs : List (Option Label × Nat))
    (sets : OrderedMap Label (List Nat)) : Prop where
  keys : (OrderedMap.keys sets).Nodup
  set : ∀ l set, get? sets l = some set → n.StateSet set
  mem : ∀ l set, get? sets l = some set →
    ∀ q, q ∈ set ↔ ∃ t, (some l, t) ∈ arcs ∧ n.Path t [] q
  missing : ∀ l, get? sets l = none → ∀ t, (some l, t) ∉ arcs

theorem Collected.silent {arcs : List (Option Label × Nat)} {sets : OrderedMap Label (List Nat)}
    (h : n.Collected arcs sets) (t : Nat) : n.Collected (arcs ++ [(none, t)]) sets := by
  refine ⟨h.keys, h.set, fun l set found q => ?_, fun l none t' arc => ?_⟩
  · rw [h.mem l set found q]
    simp
  · exact h.missing l none t' (by simpa using arc)

theorem Collected.label {arcs : List (Option Label × Nat)} {sets : OrderedMap Label (List Nat)}
    (hn : n.Closed) (h : n.Collected arcs sets) (ht : t < n.size) (l : Label) :
    n.Collected (arcs ++ [(some l, t)]) (alter sets l [] (n.close t)) := by
  obtain ⟨before, hb⟩ : ∃ before, (get? sets l).getD [] = before := ⟨_, rfl⟩
  have set : n.StateSet before := by
    subst hb
    cases found : get? sets l with
    | none => exact stateSet_nil n
    | some set => exact h.set l set found
  have mem : ∀ q, q ∈ before ↔ ∃ t, (some l, t) ∈ arcs ∧ n.Path t [] q := by
    subst hb
    intro q
    cases found : get? sets l with
    | none =>
      refine ⟨by simp, ?_⟩
      rintro ⟨t, arc, _⟩
      exact absurd arc (h.missing l found t)
    | some set => exact h.mem l set found q
  have altered : alter sets l [] (n.close t) = insert sets l (n.close t before) := by
    rw [← hb]
    rfl
  rw [altered]
  have others : ∀ k t', k ≠ l → ((some k, t') ∈ arcs ++ [(some l, t)] ↔ (some k, t') ∈ arcs) := by
    intro k t' hk
    simp [hk]
  refine ⟨nodup_keys_insert h.keys _ _, fun k set' found => ?_, fun k set' found q => ?_,
    fun k none t' arc => ?_⟩
  · by_cases hk : k = l
    · subst hk
      rw [get?_insert_self] at found
      cases found
      exact stateSet_close hn ht set
    · rw [get?_insert_of_ne _ hk] at found
      exact h.set k set' found
  · by_cases hk : k = l
    · subst hk
      rw [get?_insert_self] at found
      cases found
      rw [mem_close hn ht set, mem]
      constructor
      · rintro (⟨t', arc, path⟩ | path)
        · exact ⟨t', mem_append_left _ arc, path⟩
        · exact ⟨t, by simp, path⟩
      · rintro ⟨t', arc, path⟩
        rcases mem_append.1 arc with arc | arc
        · exact .inl ⟨t', arc, path⟩
        · cases mem_singleton.1 arc
          exact .inr path
    · rw [get?_insert_of_ne _ hk] at found
      rw [h.mem k set' found q]
      simp [others k _ hk]
  · have hk : k ≠ l := by
      rintro rfl
      rw [get?_insert_self] at none
      cases none
    rw [get?_insert_of_ne _ hk] at none
    exact h.missing k none t' ((others k t' hk).1 arc)

theorem successors_collected (hn : n.Closed) (set : List Nat) :
    n.Collected (set.flatMap n.arcsOf) (n.successors set) := by
  have targets : ∀ arc ∈ set.flatMap n.arcsOf, arc.2 < n.size := by
    intro arc harc
    obtain ⟨p, _, arc'⟩ := mem_flatMap.1 harc
    exact hn p arc arc'
  unfold successors
  generalize set.flatMap n.arcsOf = arcs at targets
  induction arcs using reverseRecOn with
  | nil => exact ⟨nodup_nil, nofun, nofun, by simp⟩
  | append_singleton arcs arc ih =>
    obtain ⟨before, last⟩ := forall_mem_append.1 targets
    rw [foldl_append]
    obtain ⟨label, t⟩ := arc
    cases label with
    | none => exact (ih before).silent t
    | some l => exact (ih before).label hn (last _ (mem_singleton_self _)) l

end Nfa

/-! ## Finding sets -/

variable {n : Nfa}

theorem sameSet_iff {a b : List Nat} (ha : a.Nodup) (hb : b.Nodup) :
    sameSet a b = true ↔ ∀ q, q ∈ a ↔ q ∈ b := by
  simp only [sameSet, Bool.and_eq_true, beq_iff_eq, all_eq_true, contains_iff_mem]
  constructor
  · rintro ⟨length, sub⟩ q
    exact ((subperm_of_subset ha sub).perm_of_length_le length.ge).mem_iff
  · intro same
    exact ⟨((perm_ext_iff_of_nodup ha hb).2 same).length_eq, fun q hq => (same q).1 hq⟩

/-- Sets of states no two of which have the same members. -/
structure Found (n : Nfa) (sets : List (List Nat)) : Prop where
  set : ∀ set ∈ sets, n.StateSet set
  apart : sets.Pairwise fun a b => ¬ ∀ q, q ∈ a ↔ q ∈ b

variable {sets sets' : List (List Nat)} {i : Nat} {set : List Nat} {out : OrderedMap Label Nat}
  {arcs : List (OrderedMap Label Nat)} {next : OrderedMap Label (List Nat)}

/-- There are no more of them than there are sets of states. -/
theorem Found.length_le_pow (h : Found n sets) : sets.length ≤ Nat.pow 2 n.size := by
  have nodup : (sets.map toFinset).Nodup := by
    refine pairwise_map.2 (h.apart.imp fun {a b} apart same => apart fun q => ?_)
    rw [← mem_toFinset, same, mem_toFinset]
  have sub : ∀ s ∈ (sets.map toFinset).toFinset, s ∈ (Finset.range n.size).powerset := by
    intro s hs
    obtain ⟨set, hset, rfl⟩ := mem_map.1 (mem_toFinset.1 hs)
    rw [Finset.mem_powerset]
    intro q hq
    exact mem_range.2 ((h.set set hset).lt_size q (mem_toFinset.1 hq))
  have card := Finset.card_le_card sub
  rwa [toFinset_card_of_nodup nodup, length_map, Finset.card_powerset, Finset.card_range] at card

/-- The place `i` holds a set with the given members. -/
def Holds (sets : List (List Nat)) (i : Nat) (set : List Nat) : Prop :=
  ∃ held, sets[i]? = some held ∧ ∀ q, q ∈ held ↔ q ∈ set

theorem getElem?_of_isPrefix {α : Type} {l m : List α} (h : l <+: m) (hi : i < l.length) :
    m[i]? = l[i]? := by
  obtain ⟨_, rfl⟩ := h
  exact getElem?_append_left hi

theorem Holds.mono (h : sets <+: sets') (hi : Holds sets i set) : Holds sets' i set := by
  obtain ⟨held, found, same⟩ := hi
  have hi := (List.getElem?_eq_some_iff.1 found).1
  exact ⟨held, by rw [getElem?_of_isPrefix h hi, found], same⟩

theorem placeSet_spec (h : Found n sets) (hs : n.StateSet set) (hp : placeSet sets set = (i, sets')) :
    sets <+: sets' ∧ Found n sets' ∧ Holds sets' i set := by
  unfold placeSet at hp
  split at hp
  · rename_i j hj
    cases hp
    obtain ⟨hlt, same, -⟩ := findIdx?_eq_some_iff_getElem.1 hj
    have held := getElem_mem hlt
    refine ⟨prefix_refl _, h, sets[i], getElem?_eq_getElem hlt, fun q => ?_⟩
    exact ((sameSet_iff hs.nodup (h.set _ held).nodup).1 same q).symm
  · rename_i none
    cases hp
    have new : ∀ other ∈ sets, ¬ ∀ q, q ∈ other ↔ q ∈ set := by
      intro other hother same
      have differ := findIdx?_eq_none_iff.1 none other hother
      rw [(sameSet_iff hs.nodup (h.set other hother).nodup).2 fun q => (same q).symm] at differ
      cases differ
    refine ⟨prefix_append _ _, ⟨forall_mem_append.2 ⟨h.set, by simpa using hs⟩, ?_⟩,
      set, getElem?_concat_length, fun q => .rfl⟩
    refine pairwise_append.2 ⟨h.apart, pairwise_singleton _ _, fun a ha b hb => ?_⟩
    rw [mem_singleton.1 hb]
    exact new a ha

def ArcFits (sets : List (List Nat)) (arc : Label × Nat) (next : Label × List Nat) : Prop :=
  arc.1 = next.1 ∧ Holds sets arc.2 next.2

theorem expand_spec (hn : n.Closed) (h : Found n sets) (he : expand n sets set = (out, sets')) :
    sets <+: sets' ∧ Found n sets' ∧ Forall₂ (ArcFits sets') out (n.successors set) := by
  have stateSet : ∀ next ∈ n.successors set, n.StateSet next.2 := by
    have collected := Nfa.successors_collected hn set
    intro next hnext
    refine collected.set next.1 next.2 ?_
    exact get?_of_mem collected.keys hnext
  unfold expand at he
  generalize n.successors set = successors at stateSet he ⊢
  induction successors using reverseRecOn generalizing out sets' with
  | nil =>
    cases he
    exact ⟨prefix_refl _, h, .nil⟩
  | append_singleton successors next ih =>
    obtain ⟨before, last⟩ := forall_mem_append.1 stateSet
    rw [foldl_append, foldl_cons] at he
    generalize hb : successors.foldl _ ([], sets) = previous at he ih
    obtain ⟨_, sets₁⟩ := previous
    obtain ⟨kept₁, found₁, fits₁⟩ := ih before rfl
    simp only at he
    generalize hp : placeSet sets₁ next.2 = placed at he
    cases he
    obtain ⟨kept₂, found₂, holds⟩ := placeSet_spec found₁ (last next (by simp)) hp
    refine ⟨kept₁.trans kept₂, found₂, ?_⟩
    refine rel_append ?_ (.cons ⟨rfl, holds⟩ .nil)
    exact fits₁.imp fun _ _ fit => ⟨fit.1, fit.2.mono kept₂⟩

/-- The first `i` sets have been expanded. -/
structure Explored (n : Nfa) (i : Nat) (sets : List (List Nat))
    (arcs : List (OrderedMap Label Nat)) : Prop where
  found : Found n sets
  length : arcs.length = i
  le_length : i ≤ sets.length
  arcs : ∀ (j : Nat) set out, sets[j]? = some set → arcs[j]? = some out →
    List.Forall₂ (ArcFits sets) out (n.successors set)

theorem Explored.step (hn : n.Closed) (h : Explored n i sets arcs) (hi : sets[i]? = some set)
    (he : expand n sets set = (out, sets')) :
    sets <+: sets' ∧ Explored n (i + 1) sets' (arcs ++ [out]) := by
  obtain ⟨kept, found, fits⟩ := expand_spec hn h.found he
  have hlt := (List.getElem?_eq_some_iff.1 hi).1
  refine ⟨kept, found, by rw [length_append, h.length]; rfl, hlt.trans_le kept.length_le,
    fun j set' out' hj ho => ?_⟩
  rcases lt_or_ge j i with old | _
  · rw [getElem?_append_left (h.length ▸ old)] at ho
    have hj' : sets[j]? = some set' := by rw [← hj, getElem?_of_isPrefix kept (old.trans hlt)]
    exact (h.arcs j set' out' hj' ho).imp fun _ _ fit => ⟨fit.1, fit.2.mono kept⟩
  · have same : j = i := by
      have := (List.getElem?_eq_some_iff.1 ho).1
      rw [length_append, h.length, length_singleton] at this
      omega
    subst same
    rw [getElem?_of_isPrefix kept hlt, hi] at hj
    cases hj
    rw [← h.length, getElem?_concat_length] at ho
    cases ho
    exact fits

/-- The search ends with all sets expanded, since it finds no more sets than there are. -/
theorem explore_explored (hn : n.Closed) {fuel : Nat} (h : Explored n i sets arcs)
    (enough : Nat.pow 2 n.size ≤ fuel + i) :
    sets <+: (explore n fuel i sets arcs).1 ∧
      Explored n (explore n fuel i sets arcs).1.length (explore n fuel i sets arcs).1
        (explore n fuel i sets arcs).2 := by
  induction fuel generalizing i sets arcs with
  | zero =>
    have all := h.le_length.antisymm (h.found.length_le_pow.trans (by omega))
    exact ⟨prefix_refl _, all ▸ h⟩
  | succ fuel ih =>
    unfold explore
    split
    · rename_i none
      have all := h.le_length.antisymm (getElem?_eq_none_iff.1 none)
      exact ⟨prefix_refl _, all ▸ h⟩
    · rename_i set hi
      obtain ⟨kept, next⟩ := h.step hn hi rfl
      obtain ⟨kept', done⟩ := ih next (by omega)
      exact ⟨kept.trans kept', done⟩

theorem Explored.exists_arcs (h : Explored n sets.length sets arcs) (hi : sets[i]? = some set) :
    ∃ out, arcs[i]? = some out ∧ Forall₂ (ArcFits sets) out (n.successors set) := by
  have hlt := h.length ▸ (List.getElem?_eq_some_iff.1 hi).1
  have hout := getElem?_eq_getElem hlt
  exact ⟨arcs[i], hout, h.arcs i set _ hi hout⟩

theorem explore_of_le {fuel fuel' : Nat} (hi : arcs.length = i)
    (ended : (explore n fuel i sets arcs).1.length = (explore n fuel i sets arcs).2.length)
    (hle : fuel ≤ fuel') : explore n fuel' i sets arcs = explore n fuel i sets arcs := by
  induction fuel generalizing fuel' i sets arcs with
  | zero =>
    have none : sets[i]? = none := by
      rw [getElem?_eq_none_iff, ← hi]
      exact ended.le
    cases fuel' with
    | zero => rfl
    | succ fuel' => simp [explore, none]
  | succ fuel ih =>
    obtain ⟨fuel', rfl⟩ : ∃ f, fuel' = f + 1 := ⟨fuel' - 1, by omega⟩
    unfold explore at ended ⊢
    split
    · rfl
    · rename_i set found
      rw [found] at ended
      exact ih (by rw [length_append, hi]; rfl) ended (by omega)

/-! ## Words that are accepted -/

namespace Dfa

def AcceptsFrom (d : Dfa) : Nat → List Label → Prop
  | k, [] => ∃ s, d.state? k = some s ∧ s.final = true
  | k, l :: w => ∃ s t, d.state? k = some s ∧ get? s.arcs l = some t ∧ d.AcceptsFrom t w

def Accepts (d : Dfa) (w : List Label) : Prop := ∃ e, d.head? = some e ∧ d.AcceptsFrom e.1 w

/-- No number stands for two states, no label is on two arcs of a state, and arcs lead to states. -/
structure WellFormed (d : Dfa) : Prop where
  numbers : (OrderedMap.keys d).Nodup
  labels : ∀ e ∈ d, (OrderedMap.keys e.2.arcs).Nodup
  targets : ∀ e ∈ d, ∀ arc ∈ e.2.arcs, arc.2 ∈ OrderedMap.keys d

end Dfa

theorem keys_of_fits (fits : Forall₂ (ArcFits sets) out next) :
    OrderedMap.keys out = OrderedMap.keys next := by
  induction fits with
  | nil => rfl
  | cons fit _ ih => rw [OrderedMap.keys, map_cons, fit.1]
                     exact congrArg _ ih

theorem get?_of_fits (fits : Forall₂ (ArcFits sets) out next) (l : Label) :
    (get? out l = none ∧ get? next l = none) ∨
      ∃ i set, get? out l = some i ∧ get? next l = some set ∧
        Holds sets i set := by
  induction fits with
  | nil => exact .inl ⟨rfl, rfl⟩
  | @cons arc entry _ _ fit _ ih =>
    obtain ⟨label, i⟩ := arc
    obtain ⟨_, set⟩ := entry
    obtain ⟨rfl, holds⟩ := fit
    simp only [get?, lookup_cons] at ih ⊢
    cases l == label with
    | true => exact .inr ⟨i, set, rfl, rfl, holds⟩
    | false => exact ih

theorem lookup_zipIdx {α : Type} (l : List α) (k i : Nat) :
    ((l.zipIdx k).map fun (a, j) => (j, a)).lookup (k + i) = l[i]? := by
  induction l generalizing k i with
  | nil => simp
  | cons a l ih =>
    rw [zipIdx_cons, map_cons, lookup_cons]
    cases i with
    | zero => simp
    | succ i =>
      rw [beq_eq_false_iff_ne.2 (by omega), getElem?_cons_succ, ← ih (k + 1) i,
        add_right_comm, add_assoc]

section Determinise

variable {start finish : Nat}

theorem explored_spec (hn : n.Closed) (hs : start < n.size) :
    [n.close start []] <+: (explored n start).1 ∧
      Explored n (explored n start).1.length (explored n start).1 (explored n start).2 := by
  refine explore_explored hn ⟨⟨?_, pairwise_singleton _ _⟩, rfl, Nat.zero_le _, nofun⟩ le_rfl
  rw [forall_mem_singleton]
  exact Nfa.stateSet_close hn hs (Nfa.stateSet_nil n)

theorem state?_determinise (n : Nfa) (start finish i : Nat) :
    (determinise n start finish).state? i = (setStates n start finish)[i]? := by
  have found := lookup_zipIdx (setStates n start finish) 0 i
  rwa [zero_add] at found

theorem state?_determinise_eq_some {s : DfaState} :
    (determinise n start finish).state? i = some s ↔
      ∃ set, (explored n start).1[i]? = some set ∧ (explored n start).2[i]? = some s.arcs ∧
        s.final = set.contains finish := by
  rw [state?_determinise, setStates, getElem?_zipWith]
  cases (explored n start).1[i]? with
  | none => simp
  | some set =>
    cases (explored n start).2[i]? with
    | none => simp
    | some out =>
      simp only [Option.some.injEq]
      constructor
      · rintro rfl
        exact ⟨set, rfl, rfl, rfl⟩
      · rintro ⟨_, rfl, rfl, final⟩
        rw [← final]

theorem Nfa.Path.cons_inv {p r : Nat} {l : Label} {w : List Label} (h : n.Path p (l :: w) r) :
    ∃ q t, n.Path p [] q ∧ (some l, t) ∈ n.arcsOf q ∧ n.Path t w r := by
  generalize hv : l :: w = v at h
  induction h with
  | nil => cases hv
  | silent arc _ ih =>
    obtain ⟨q, t, path, found, rest⟩ := ih hv
    exact ⟨q, t, .silent arc path, found, rest⟩
  | label arc rest =>
    cases hv
    exact ⟨_, _, .nil _, arc, rest⟩

/-- A word is accepted from a set if a path from one of its members spells it. -/
theorem acceptsFrom_determinise (hn : n.Closed) (hs : start < n.size)
    (hi : (explored n start).1[i]? = some set) (w : List Label) :
    (determinise n start finish).AcceptsFrom i w ↔ ∃ p ∈ set, n.Path p w finish := by
  have all := (explored_spec hn hs).2
  induction w generalizing i set with
  | nil =>
    have stateSet := all.found.set set (mem_of_getElem? hi)
    obtain ⟨out, hout, -⟩ := all.exists_arcs hi
    constructor
    · rintro ⟨s, state, final⟩
      obtain ⟨set', hi', -, hfinal⟩ := state?_determinise_eq_some.1 state
      cases hi.symm.trans hi'
      rw [hfinal] at final
      exact ⟨finish, contains_iff_mem.1 final, .nil finish⟩
    · rintro ⟨p, hp, path⟩
      refine ⟨⟨set.contains finish, out⟩, state?_determinise_eq_some.2 ⟨set, hi, hout, rfl⟩, ?_⟩
      exact contains_iff_mem.2 (stateSet.mem_of_path hp path)
  | cons l w ih =>
    have stateSet := all.found.set set (mem_of_getElem? hi)
    have collected := Nfa.successors_collected hn set
    obtain ⟨out, hout, fits⟩ := all.exists_arcs hi
    constructor
    · rintro ⟨s, j, state, arc, rest⟩
      obtain ⟨set', hi', hout', -⟩ := state?_determinise_eq_some.1 state
      cases hout.symm.trans hout'
      obtain ⟨none, -⟩ | ⟨j', next, found, hnext, held, hj, same⟩ := get?_of_fits fits l
      · rw [none] at arc
        cases arc
      · cases found.symm.trans arc
        obtain ⟨q, hq, path⟩ := (ih hj).1 rest
        obtain ⟨t, arc, silent⟩ := (collected.mem l next hnext q).1 ((same q).1 hq)
        obtain ⟨p, hp, arc⟩ := mem_flatMap.1 arc
        exact ⟨p, hp, .label arc (silent.append path)⟩
    · rintro ⟨p, hp, path⟩
      obtain ⟨q, t, silent, arc, rest⟩ := path.cons_inv
      have arc := mem_flatMap.2 ⟨q, stateSet.mem_of_path hp silent, arc⟩
      obtain ⟨-, none⟩ | ⟨j, next, found, hnext, held, hj, same⟩ := get?_of_fits fits l
      · exact absurd arc (collected.missing l none t)
      · refine ⟨⟨set.contains finish, out⟩, j,
          state?_determinise_eq_some.2 ⟨set, hi, hout, rfl⟩, found, (ih hj).2 ⟨t, ?_, rest⟩⟩
        exact (same t).2 ((collected.mem l next hnext t).2 ⟨t, arc, .nil t⟩)

theorem keys_determinise (hn : n.Closed) (hs : start < n.size) :
    keys (determinise n start finish) = range (explored n start).1.length := by
  have all := (explored_spec hn hs).2
  have keys : keys (determinise n start finish) =
      (((explored n start).1.zipWith (fun set out => (⟨set.contains finish, out⟩ : DfaState))
        (explored n start).2).zipIdx.map fun x => (x.2, x.1)).map Prod.fst := rfl
  rw [keys, map_map, range_eq_range']
  have swapped : (Prod.fst ∘ fun (x : DfaState × Nat) => (x.2, x.1)) = Prod.snd := rfl
  rw [swapped, zipIdx_map_snd, length_zipWith, all.length, min_self]

theorem wellFormed_determinise (hn : n.Closed) (hs : start < n.size) :
    (determinise n start finish).WellFormed := by
  have all := (explored_spec hn hs).2
  have nodup : (keys (determinise n start finish)).Nodup := by
    rw [keys_determinise hn hs]
    exact nodup_range
  have expanded : ∀ e ∈ determinise n start finish, ∃ set,
      Forall₂ (ArcFits (explored n start).1) e.2.arcs (n.successors set) := by
    rintro ⟨i, s⟩ he
    obtain ⟨set, hi, hout, -⟩ := state?_determinise_eq_some.1 (get?_of_mem nodup he)
    exact ⟨set, all.arcs i set s.arcs hi hout⟩
  have labels : ∀ e ∈ determinise n start finish, (keys e.2.arcs).Nodup := by
    intro e he
    obtain ⟨set, fits⟩ := expanded e he
    rw [keys_of_fits fits]
    exact (Nfa.successors_collected hn set).keys
  refine ⟨nodup, labels, fun e he arc harc => ?_⟩
  obtain ⟨set, fits⟩ := expanded e he
  have found := get?_of_mem (labels e he) harc
  obtain ⟨none, -⟩ | ⟨j, _, found', -, _, hj, -⟩ := get?_of_fits fits arc.1
  · rw [none] at found
    cases found
  · cases found.symm.trans found'
    rw [keys_determinise hn hs, mem_range]
    exact (List.getElem?_eq_some_iff.1 hj).1

/-- **The deterministic automaton accepts what paths from `start` to `finish` spell.** -/
theorem accepts_determinise_iff (hn : n.Closed) (hs : start < n.size) (w : List Label) :
    (determinise n start finish).Accepts w ↔ n.Path start w finish := by
  obtain ⟨kept, _⟩ := explored_spec hn hs
  have first : (explored n start).1[0]? = some (n.close start []) := by
    rw [getElem?_of_isPrefix kept (by simp)]
    rfl
  have head : ((determinise n start finish).head?.map Prod.fst) = some 0 := by
    have keys : OrderedMap.keys (determinise n start finish) = _ := keys_determinise hn hs
    have pos := (List.getElem?_eq_some_iff.1 first).1
    rw [← head?_map]
    change (OrderedMap.keys _).head? = some 0
    rw [keys, head?_range, if_neg (by omega)]
  have initial : (determinise n start finish).Accepts w ↔
      (determinise n start finish).AcceptsFrom 0 w := by
    obtain ⟨e, he, zero⟩ := Option.map_eq_some_iff.1 head
    constructor
    · rintro ⟨e', he', accepts⟩
      cases he.symm.trans he'
      rwa [zero] at accepts
    · exact fun accepts => ⟨e, he, by rwa [zero]⟩
  have mem := fun q => Nfa.mem_close (q := q) hn hs (Nfa.stateSet_nil n)
  rw [initial, acceptsFrom_determinise hn hs first w]
  constructor
  · rintro ⟨p, hp, path⟩
    rcases (mem p).1 hp with none | silent
    · cases none
    · exact silent.append path
  · exact fun path => ⟨start, (mem start).2 (.inr (.nil start)), path⟩

end Determinise

end Retouch.Grammar
