import Retouch.Proofs.LeafSpacing
import Retouch.Proofs.SearchEnds

/-!
# Trees that patterns recognise

A settled pattern whose search never breaks off (`Pattern.neverBreaks`) says yes or no to every tree,
and says yes exactly to the trees that it takes (`Pattern.recognises_iff`).  What a pattern takes does
not depend on tags, places and blanks (`Pattern.takes_bare`), so neither does what it says
(`Pattern.recognises_bare`).
-/

namespace Retouch

open List

variable {α : Type}

/-! ## What is taken does not depend on blanks -/

namespace Tree

@[simp] theorem kind_bare (t : Tree α) : t.bare.kind = t.kind := by
  cases t <;> rfl

@[simp] theorem isLeaf_bare (t : Tree α) : t.bare.isLeaf = t.isLeaf := by
  cases t <;> rfl

@[simp] theorem isText_bare (v : Text) (t : Tree α) : t.bare.isText v = t.isText v := by
  cases t <;> rfl

end Tree

namespace Span

open Tree (bare)

/-- The span of bare trees says of trees without their blanks what the other one says of the trees. -/
def Blind (A : Span Unit) (B : Span α) : Prop :=
  ∀ us vs : List (Tree α), A (us.map bare) (vs.map bare) ↔ B us vs

variable {A A' : Span Unit} {B B' : Span α}

theorem blind_nothing : Blind nothing (nothing : Span α) := fun _ _ => map_eq_nil_iff

theorem blind_one {fits : SyntaxTree → Prop} {fits' : Tree α → Prop} (h : ∀ t, fits t.bare ↔ fits' t) :
    Blind (one fits) (one fits') := by
  intro us vs
  constructor
  · rintro ⟨t, eq, fit⟩
    obtain ⟨u, rfl, rfl⟩ := map_eq_singleton_iff.1 eq
    exact ⟨u, rfl, (h u).1 fit⟩
  · rintro ⟨t, rfl, fit⟩
    exact ⟨t.bare, rfl, (h t).2 fit⟩

theorem Blind.seq (h : Blind A B) (h' : Blind A' B') : Blind (seq A A') (seq B B') := by
  intro us vs
  constructor
  · rintro ⟨_, _, eq, first, later⟩
    obtain ⟨u, v, rfl, rfl, rfl⟩ := map_eq_append_iff.1 eq
    rw [← map_append] at first
    exact ⟨u, v, rfl, (h _ _).1 first, (h' _ _).1 later⟩
  · rintro ⟨u, v, rfl, first, later⟩
    refine ⟨u.map bare, v.map bare, map_append, ?_, (h' _ _).2 later⟩
    rw [← map_append]
    exact (h _ _).2 first

theorem Blind.times (h : Blind A B) (k : Nat) : Blind (times A k) (times B k) := by
  induction k with
  | zero => exact blind_nothing
  | succ k ih => exact h.seq ih

theorem Blind.between (h : Blind A B) (min max : Nat) :
    Blind (between A min max) (between B min max) := fun us vs =>
  exists_congr fun k => and_congr_right fun _ => and_congr_right fun _ => h.times k us vs

theorem Blind.absent (h : Blind A B) : Blind (absent A) (absent B) := by
  intro us vs
  refine and_congr map_eq_nil_iff ⟨fun none u v eq taken => ?_, fun none u v eq taken => ?_⟩
  · rw [eq] at none
    exact none _ _ map_append ((h u v).2 taken)
  · obtain ⟨u, v, rfl, rfl, rfl⟩ := map_eq_append_iff.1 eq
    exact none u v rfl ((h u v).1 taken)

end Span

namespace Pattern

open Span

theorem kindFits_bare (k : Option Kind) (t : Tree α) : kindFits k t.bare = kindFits k t := by
  cases k with
  | none => rfl
  | some k => rw [kindFits, kindFits, Tree.kind_bare]

theorem leafFits_bare (k : Option Kind) (v : Option Text) (t : Tree α) :
    leafFits k v t.bare = leafFits k v t := by
  cases v with
  | none => rw [leafFits, leafFits, Tree.isLeaf_bare, kindFits_bare]
  | some v => rw [leafFits, leafFits, Tree.isLeaf_bare, kindFits_bare, Tree.isText_bare]

mutual
/-- **What a pattern takes does not depend on tags, places and blanks.** -/
theorem takes_bare (p : Pattern) : Blind (Takes p) (Takes p : Span α) := by
  cases p with
  | leaf k v n =>
    exact blind_one fun t => by rw [leafFits_bare]
  | tree k n =>
    exact blind_one fun t => by rw [kindFits_bare]
  | within k ps n =>
    refine blind_one fun t => ?_
    rw [kindFits_bare, Tree.children_bare]
    exact and_congr_right fun _ => and_congr_right fun _ => takesAll_bare ps t.children []
  | anything min max n =>
    rw [Takes, Takes]
    intro us vs
    simp
  | choice os min max n =>
    exact (takesAny_bare os).between min max
  | finish n =>
    exact fun us vs => and_congr map_eq_nil_iff map_eq_nil_iff
  | without p n =>
    exact (takes_bare p).absent

theorem takesAll_bare (ps : List Pattern) : Blind (TakesAll ps) (TakesAll ps : Span α) := by
  cases ps with
  | nil =>
    exact blind_nothing
  | cons p ps =>
    exact (takes_bare p).seq (takesAll_bare ps)

theorem takesAny_bare (os : List (List Pattern)) : Blind (TakesAny os) (TakesAny os : Span α) := by
  cases os with
  | nil =>
    exact fun _ _ => .rfl
  | cons o os =>
    exact fun us vs => or_congr (takesAll_bare o us vs) (takesAny_bare os us vs)
end

/-! ## Recognising -/

def recognises (p : Pattern) (t : Tree α) : Bool :=
  match p.matchTree t true with
  | .yes _ => true
  | _ => false

/-- The pattern says yes or no to every tree, and yes to those that it takes. -/
structure Decided (p : Pattern) : Prop where
  settled : ∀ α : Type, Settled (fun _ : List (Tree α) => True) p
  unbroken : p.neverBreaks = true
  positive : p.isNegated = false

variable {p : Pattern}

theorem Decided.matchTree_ne_fail (h : p.Decided) (t : Tree α) (wanted : Bool) :
    p.matchTree t wanted ≠ .fail := by
  rw [matchTree, if_neg (Bool.eq_false_iff.1 h.positive)]
  exact (ways_ends (by rintro ⟨⟩) (.inr (.inl h.unbroken))).exactly 1

theorem Decided.reports (h : p.Decided) (t : Tree α) :
    (p.matchTree t true).Reports (Splits p [t] []) := by
  rw [matchTree, if_neg (Bool.eq_false_iff.1 h.positive)]
  exact ((ways_finds scope_true p (h.settled α) [t] trivial).exactly 1).congr
    fun _ => NamedSpan.at_length

theorem recognises_iff (h : p.Decided) (t : Tree α) : p.recognises t = true ↔ Takes p [t] [] := by
  rw [← unnamed_splits p, recognises]
  cases verdict : p.matchTree t true with
  | yes names => exact iff_of_true rfl ⟨names, (h.reports t).1 names verdict⟩
  | no => exact iff_of_false nofun fun ⟨names, taken⟩ => (h.reports t).2 verdict names taken
  | fail => exact absurd verdict (h.matchTree_ne_fail t true)

/-- **What a pattern says of a tree does not depend on tags, places and blanks.** -/
theorem recognises_bare (h : p.Decided) (t : Tree α) : p.recognises t.bare = p.recognises t := by
  rw [Bool.eq_iff_iff, recognises_iff h, recognises_iff h]
  exact takes_bare p [t] []

end Pattern

end Retouch
