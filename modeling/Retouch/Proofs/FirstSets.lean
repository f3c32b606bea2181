import Mathlib.Data.Finset.Card
import Retouch.Grammar.FirstSets
import Retouch.Proofs.Maps

/-!
# First sets and left corners

A label is a left corner of a rule if it stands on an arc out of the initial state of the rule's
automaton.  First sets can be computed exactly if no rule is reached from itself over left corners and
the labels that begin two initial arcs of a rule are never the same; the set of a rule is then what is
reached from it and is no rule (`firstSets_exact`).

Both directions come from one specification of the depth-first computation.  What a step returns is
right, and where a step fails the automata are not regular (`Decides`).  A rule that is being worked on
is one from which the present rule is reached, so that meeting it again closes a circle; and a rule whose
set is noted is accessible, so that no circle goes through it.
-/

namespace Retouch.Grammar

open List OrderedMap

variable {automata : Automata}

def Automata.initial (automata : Automata) (name : Label) : List Label :=
  initialLabels ((get? automata name).getD [])

/-! ## Left corners -/

namespace Automata

/-- The label `l` is on an arc out of the initial state of the rule `name`. -/
def LeftCorner (automata : Automata) (name l : Label) : Prop := l ∈ automata.initial name

/-- The label `l` is no rule and is reached from `label` over left corners. -/
def CanBegin (automata : Automata) (label l : Label) : Prop :=
  has automata l = false ∧ Relation.ReflTransGen automata.LeftCorner label l

def NoRecursion (automata : Automata) : Prop :=
  ∀ name, ¬ Relation.TransGen automata.LeftCorner name name

def ToldApart (automata : Automata) (name : Label) : Prop :=
  (automata.initial name).Pairwise fun a b => ∀ l, automata.CanBegin a l → ¬ automata.CanBegin b l

/-- First sets can be computed. -/
structure Regular (automata : Automata) : Prop where
  noRecursion : automata.NoRecursion
  toldApart : ∀ name, automata.ToldApart name

variable {name l label : Label}

theorem initial_of_not_rule (token : has automata name = false) : automata.initial name = [] := by
  rw [has_eq_isSome, Option.isSome_eq_false_iff, Option.isNone_iff_eq_none] at token
  rw [initial, token]
  rfl

theorem LeftCorner.isRule (h : automata.LeftCorner name l) : has automata name = true := by
  by_contra token
  rw [LeftCorner, initial_of_not_rule (Bool.eq_false_of_not_eq_true token)] at h
  cases h

theorem canBegin_token_iff (token : has automata label = false) :
    automata.CanBegin label l ↔ l = label := by
  constructor
  · rintro ⟨-, reached⟩
    rcases reached.cases_head with rfl | ⟨_, corner, -⟩
    · rfl
    · rw [corner.isRule] at token
      cases token
  · rintro rfl
    exact ⟨token, .refl⟩

theorem canBegin_rule_iff (isRule : has automata name = true) :
    automata.CanBegin name l ↔ ∃ arc ∈ automata.initial name, automata.CanBegin arc l := by
  constructor
  · rintro ⟨token, reached⟩
    rcases reached.cases_head with rfl | ⟨arc, corner, reached⟩
    · rw [isRule] at token
      cases token
    · exact ⟨arc, corner, token, reached⟩
  · rintro ⟨arc, corner, token, reached⟩
    exact ⟨token, .head corner reached⟩

def Bounded (automata : Automata) (label : Label) : Prop :=
  Acc (fun l name => automata.LeftCorner name l) label

theorem Bounded.not_circle (h : automata.Bounded label) :
    ¬ Relation.TransGen automata.LeftCorner label label := by
  induction h with
  | intro label _ ih =>
    intro circle
    obtain ⟨next, corner, back⟩ := Relation.TransGen.head'_iff.1 circle
    exact ih next corner (.tail' back corner)

theorem bounded_token (token : has automata label = false) : automata.Bounded label := by
  refine .intro label fun l corner => ?_
  rw [corner.isRule] at token
  cases token

end Automata

/-! ## What is noted while sets are computed -/

/-- The list is the first set of a label, and it could be computed. -/
structure FirstSet (automata : Automata) (label : Label) (set : List Label) : Prop where
  nodup : set.Nodup
  mem_iff : ∀ l, l ∈ set ↔ automata.CanBegin label l
  bounded : automata.Bounded label
  toldApart : automata.ToldApart label

theorem firstSet_token {label : Label} (token : has automata label = false) :
    FirstSet automata label [label] where
  nodup := nodup_singleton label
  mem_iff l := by rw [Automata.canBegin_token_iff token, mem_singleton]
  bounded := Automata.bounded_token token
  toldApart := by
    rw [Automata.ToldApart, Automata.initial_of_not_rule token]
    exact .nil

/-- Only rules are noted, and the sets that are noted are right. -/
structure Firsts.Sound (automata : Automata) (firsts : Firsts) : Prop where
  isRule : ∀ name v, get? firsts name = some v → has automata name = true
  right : ∀ name set, get? firsts name = some (some set) → FirstSet automata name set

/-- What is noted for a rule stays, and no more rules are being worked on. -/
structure Firsts.Grows (before after : Firsts) : Prop where
  keeps : ∀ name v, get? before name = some v → get? after name = some v
  closes : ∀ name, get? after name = some none → get? before name = some none

def Firsts.missing (automata : Automata) (firsts : Firsts) : Finset Label :=
  (keys automata).toFinset.filter fun name => get? firsts name = none

namespace Firsts

variable {a b c firsts : Firsts} {name : Label}

theorem Grows.refl (firsts : Firsts) : Grows firsts firsts := ⟨fun _ _ h => h, fun _ h => h⟩

theorem Grows.trans (h : Grows a b) (h' : Grows b c) : Grows a c :=
  ⟨fun name v hv => h'.keeps name v (h.keeps name v hv),
    fun name hn => h.closes name (h'.closes name hn)⟩

theorem Grows.missing_subset (h : Grows a b) : b.missing automata ⊆ a.missing automata := by
  refine Finset.monotone_filter_right _ fun name _ absent => ?_
  cases found : get? a name with
  | none => rfl
  | some v =>
    rw [h.keeps name v found] at absent
    cases absent

theorem card_missing_insert_lt (isRule : has automata name = true)
    (absent : get? firsts name = none) (v : Option (List Label)) :
    (missing automata (insert firsts name v)).card <
      (firsts.missing automata).card := by
  have mem : name ∈ firsts.missing automata := by
    rw [missing, Finset.mem_filter, mem_toFinset]
    exact ⟨(has_iff_mem_keys automata name).1 isRule, absent⟩
  refine Finset.card_lt_card (Finset.ssubset_iff_of_subset ?_ |>.2 ⟨name, mem, ?_⟩)
  · refine Finset.monotone_filter_right _ fun other _ absent' => ?_
    by_cases same : other = name
    · rw [same, absent]
    · rwa [get?_insert_of_ne _ same] at absent'
  · rw [missing, Finset.mem_filter, get?_insert_self]
    exact fun h => nomatch h.2

theorem Sound.insert (h : firsts.Sound automata) (isRule : has automata name = true)
    {v : Option (List Label)} (right : ∀ set, v = some set → FirstSet automata name set) :
    Sound automata (insert firsts name v) := by
  refine ⟨fun other w found => ?_, fun other set found => ?_⟩ <;> by_cases same : other = name
  · rwa [same]
  · rw [get?_insert_of_ne _ same] at found
    exact h.isRule other w found
  · rw [same, get?_insert_self] at found
    rw [same]
    exact right set (Option.some.inj found)
  · rw [get?_insert_of_ne _ same] at found
    exact h.right other set found

end Firsts

/-! ## The check of the initial arcs -/

variable {rule : Label} {seen : OrderedMap Label Label} {arcs : List (Label × List Label)}

/-- Labels are noted only if they are new. -/
theorem addBeginnings_spec {arc : Label} {labels : List Label} {after : OrderedMap Label Label}
    (h : addBeginnings rule arc labels seen = .ok after) :
    (∀ l ∈ labels, get? seen l = none) ∧
      ∀ l, get? after l = none → get? seen l = none ∧ l ∉ labels := by
  induction labels generalizing seen with
  | nil =>
    cases h
    exact ⟨by simp, fun l hl => ⟨hl, by simp⟩⟩
  | cons label labels ih =>
    unfold addBeginnings at h
    split at h
    · cases h
    · rename_i new
      obtain ⟨fresh, noted⟩ := ih h
      have other : ∀ {l}, get? (insert seen label arc) l = none →
          get? seen l = none ∧ l ≠ label := by
        intro l hl
        have ne : l ≠ label := by
          rintro rfl
          rw [get?_insert_self] at hl
          cases hl
        rw [get?_insert_of_ne _ ne] at hl
        exact ⟨hl, ne⟩
      refine ⟨forall_mem_cons.2 ⟨new, fun l hl => (other (fresh l hl)).1⟩, fun l hl => ?_⟩
      obtain ⟨hs, notLater⟩ := noted l hl
      exact ⟨(other hs).1, not_mem_cons_of_ne_of_not_mem (other hs).2 notLater⟩

theorem addBeginnings_of_fresh {arc : Label} {labels : List Label} (nodup : labels.Nodup)
    (fresh : ∀ l ∈ labels, get? seen l = none) :
    ∃ after, addBeginnings rule arc labels seen = .ok after ∧
      ∀ l ∉ labels, get? after l = get? seen l := by
  induction labels generalizing seen with
  | nil => exact ⟨seen, rfl, fun _ _ => rfl⟩
  | cons label labels ih =>
    obtain ⟨new, nodup⟩ := nodup_cons.1 nodup
    obtain ⟨first, later⟩ := forall_mem_cons.1 fresh
    have others : ∀ l ≠ label, get? (insert seen label arc) l =
        get? seen l := fun l ne => get?_insert_of_ne _ ne _
    obtain ⟨after, run, same⟩ := ih nodup fun l hl =>
      (others l (ne_of_mem_of_not_mem hl new)).trans (later l hl)
    refine ⟨after, ?_, fun l hl => ?_⟩
    · rwa [addBeginnings, first]
    · obtain ⟨ne, notLater⟩ := not_or.1 (hl ∘ mem_cons.2)
      rw [same l notLater, others l ne]

theorem checkBeginnings_eq_ok_iff (nodup : ∀ arc ∈ arcs, arc.2.Nodup) :
    checkBeginnings rule arcs = .ok () ↔ arcs.Pairwise fun a b => ∀ l ∈ a.2, l ∉ b.2 := by
  -- the fold goes through where no arc has a label that is noted already
  have run : ∀ (arcs : List (Label × List Label)) (seen : OrderedMap Label Label),
      (∀ arc ∈ arcs, arc.2.Nodup) →
      ((∃ after, arcs.foldlM (fun seen arc => addBeginnings rule arc.1 arc.2 seen) seen = .ok after) ↔
        (∀ arc ∈ arcs, ∀ l ∈ arc.2, get? seen l = none) ∧
          arcs.Pairwise fun a b => ∀ l ∈ a.2, l ∉ b.2) := by
    intro arcs
    induction arcs with
    | nil => exact fun seen _ => ⟨fun _ => ⟨by simp, .nil⟩, fun _ => ⟨seen, rfl⟩⟩
    | cons arc arcs ih =>
      intro seen nodup
      obtain ⟨first, later⟩ := forall_mem_cons.1 nodup
      constructor
      · rintro ⟨after, h⟩
        obtain ⟨mid, noted, h⟩ := bind_eq_ok.1 h
        obtain ⟨fresh, new⟩ := addBeginnings_spec noted
        obtain ⟨rest, apart⟩ := (ih mid later).1 ⟨after, h⟩
        refine ⟨forall_mem_cons.2 ⟨fresh, fun b hb l hl => (new l (rest b hb l hl)).1⟩, ?_⟩
        exact .cons (fun b hb l hl hl' => (new l (rest b hb l hl')).2 hl) apart
      · rintro ⟨fresh, apart⟩
        obtain ⟨fresh, rest⟩ := forall_mem_cons.1 fresh
        obtain ⟨others, apart⟩ := pairwise_cons.1 apart
        obtain ⟨mid, noted, same⟩ := addBeginnings_of_fresh first fresh
        obtain ⟨after, h⟩ := (ih mid later).2 ⟨fun b hb l hl => by
          rw [same l fun hl' => others b hb l hl' hl, rest b hb l hl], apart⟩
        exact ⟨after, bind_eq_ok.2 ⟨mid, noted, h⟩⟩
  constructor
  · intro h
    obtain ⟨after, h, -⟩ := bind_eq_ok.1 h
    exact ((run arcs [] nodup).1 ⟨after, h⟩).2
  · intro apart
    obtain ⟨after, h⟩ := (run arcs [] nodup).2 ⟨fun _ _ _ _ => rfl, apart⟩
    exact bind_eq_ok.2 ⟨after, h, rfl⟩

/-! ## Steps of the computation -/

/-- What is returned satisfies `P`, and failure means that the automata are not regular. -/
def Decides (automata : Automata) {α : Type} (P : α → Prop) : Except Error α → Prop
  | .ok a => P a
  | .error _ => ¬ automata.Regular

theorem Decides.bind {α β : Type} {x : Except Error α} {f : α → Except Error β} {P : α → Prop}
    {Q : β → Prop} (hx : Decides automata P x) (hf : ∀ a, P a → Decides automata Q (f a)) :
    Decides automata Q (x >>= f) := by
  cases x with
  | error e => exact hx
  | ok a => exact hf a hx

/-- The step decides about every rule that is not noted, if the rules that are being worked on begin with
it and there is fuel for each rule that is missing. -/
def Computes (automata : Automata) (fuel : Nat) (compute : Label → Firsts → Except Error Firsts) :
    Prop :=
  ∀ (name : Label) (firsts : Firsts), firsts.Sound automata → has automata name = true →
    get? firsts name = none →
    (∀ open_, get? firsts open_ = some none →
      Relation.TransGen automata.LeftCorner open_ name) →
    (firsts.missing automata).card < fuel →
    Decides automata (fun after => after.Sound automata ∧ firsts.Grows after ∧
      ∃ set, get? after name = some (some set)) (compute name firsts)

section

variable {compute : Label → Firsts → Except Error Firsts} {fuel : Nat} {name : Label}
  {firsts : Firsts}

theorem arcFirst_decides (hc : Computes automata fuel compute) (sound : firsts.Sound automata)
    (below : ∀ open_, get? firsts open_ = some none →
      Relation.ReflTransGen automata.LeftCorner open_ name)
    (enough : (firsts.missing automata).card < fuel) {label : Label}
    (corner : automata.LeftCorner name label) :
    Decides automata (fun r => r.2.Sound automata ∧ firsts.Grows r.2 ∧ FirstSet automata label r.1)
      (arcFirst automata compute name label firsts) := by
  unfold arcFirst
  split
  · rename_i isRule
    split
    · rename_i inWork
      exact fun regular => regular.noRecursion label (.tail' (below label inWork) corner)
    · rename_i set found
      exact ⟨sound, .refl _, sound.right label set found⟩
    · rename_i absent
      refine (hc label firsts sound isRule absent
        (fun open_ h => .tail' (below open_ h) corner) enough).bind ?_
      rintro _ ⟨sound', grows, set, found⟩
      refine ⟨sound', grows, ?_⟩
      rw [found]
      exact sound'.right label set found
  · rename_i token
    exact ⟨sound, .refl _, firstSet_token (Bool.eq_false_of_not_eq_true token)⟩

theorem arcFirsts_decides (hc : Computes automata fuel compute) (labels : List Label)
    (corners : ∀ label ∈ labels, automata.LeftCorner name label) (sound : firsts.Sound automata)
    (below : ∀ open_, get? firsts open_ = some none →
      Relation.ReflTransGen automata.LeftCorner open_ name)
    (enough : (firsts.missing automata).card < fuel) :
    Decides automata (fun r => r.2.Sound automata ∧ firsts.Grows r.2 ∧ r.1.map Prod.fst = labels ∧
        ∀ arc ∈ r.1, FirstSet automata arc.1 arc.2)
      (arcFirsts automata compute name labels firsts) := by
  induction labels generalizing firsts with
  | nil => exact ⟨sound, .refl _, rfl, by simp⟩
  | cons label labels ih =>
    obtain ⟨corner, corners⟩ := forall_mem_cons.1 corners
    refine (arcFirst_decides hc sound below enough corner).bind ?_
    rintro ⟨_, _⟩ ⟨sound', grows, first⟩
    refine (ih corners sound' (fun open_ h => below open_ (grows.closes open_ h))
      (lt_of_le_of_lt (Finset.card_le_card grows.missing_subset) enough)).bind ?_
    rintro ⟨_, _⟩ ⟨sound'', grows', labels, right⟩
    exact ⟨sound'', grows.trans grows', congrArg (label :: ·) labels,
      forall_mem_cons.2 ⟨first, right⟩⟩

end

theorem mem_union_arcs {acc : List Label} {l : Label} :
    l ∈ arcs.foldl (fun acc arc => arc.2.foldl insertNew acc) acc ↔
      l ∈ acc ∨ ∃ arc ∈ arcs, l ∈ arc.2 := by
  induction arcs generalizing acc with
  | nil => simp
  | cons arc arcs ih =>
    rw [foldl_cons, ih, mem_foldl_insertNew]
    simp [or_assoc]

theorem nodup_union_arcs (arcs : List (Label × List Label)) {acc : List Label} (h : acc.Nodup) :
    (arcs.foldl (fun acc arc => arc.2.foldl insertNew acc) acc).Nodup := by
  induction arcs generalizing acc with
  | nil => exact h
  | cons arc arcs ih => exact ih (nodup_foldl_insertNew arc.2 h)

theorem firstSet_of_arcs {name : Label} (isRule : has automata name = true)
    (labels : arcs.map Prod.fst = automata.initial name)
    (right : ∀ arc ∈ arcs, FirstSet automata arc.1 arc.2) (toldApart : automata.ToldApart name) :
    FirstSet automata name (arcs.foldl (fun acc arc => arc.2.foldl insertNew acc) []) where
  nodup := nodup_union_arcs arcs .nil
  mem_iff l := by
    rw [mem_union_arcs, Automata.canBegin_rule_iff isRule, ← labels]
    constructor
    · rintro (none | ⟨arc, harc, hl⟩)
      · cases none
      · exact ⟨arc.1, mem_map_of_mem harc, ((right arc harc).mem_iff l).1 hl⟩
    · rintro ⟨label, hlabel, begins⟩
      obtain ⟨arc, harc, rfl⟩ := mem_map.1 hlabel
      exact .inr ⟨arc, harc, ((right arc harc).mem_iff l).2 begins⟩
  bounded := by
    refine .intro name fun label corner => ?_
    rw [Automata.LeftCorner, ← labels] at corner
    obtain ⟨arc, harc, rfl⟩ := mem_map.1 corner
    exact (right arc harc).bounded
  toldApart := toldApart

theorem checkBeginnings_decides {name : Label} (labels : arcs.map Prod.fst = automata.initial name)
    (right : ∀ arc ∈ arcs, FirstSet automata arc.1 arc.2) :
    Decides automata (fun _ => automata.ToldApart name) (checkBeginnings name arcs) := by
  have iff : checkBeginnings name arcs = .ok () ↔ automata.ToldApart name := by
    rw [checkBeginnings_eq_ok_iff fun arc harc => (right arc harc).nodup, Automata.ToldApart, ← labels,
      pairwise_map]
    refine Pairwise.iff_of_mem fun {a b} ha hb => forall_congr' fun l => ?_
    rw [(right a ha).mem_iff, (right b hb).mem_iff]
  cases run : checkBeginnings name arcs with
  | ok u => exact iff.1 run
  | error e =>
    intro regular
    rw [iff.2 (regular.toldApart name)] at run
    cases run

theorem computeFirst_computes (fuel : Nat) :
    Computes automata fuel (computeFirst automata fuel) := by
  induction fuel with
  | zero => exact fun _ _ _ _ _ _ enough => absurd enough (Nat.not_lt_zero _)
  | succ fuel ih =>
    intro name firsts sound isRule absent below enough
    have begun : ∀ other ≠ name, get? (insert firsts name none) other =
        get? firsts other := fun other ne => get?_insert_of_ne _ ne _
    have fewer := Firsts.card_missing_insert_lt isRule absent none
    refine (arcFirsts_decides ih (automata.initial name) (fun _ corner => corner)
      (sound.insert isRule (v := none) fun _ eq => nomatch eq) (fun open_ h => ?_) (by omega)).bind ?_
    · by_cases same : open_ = name
      · rw [same]
      · rw [begun open_ same] at h
        exact (below open_ h).to_reflTransGen
    rintro ⟨_, _⟩ ⟨sound', grows, labels, right⟩
    refine (checkBeginnings_decides labels right).bind fun _ toldApart => ?_
    refine ⟨sound'.insert isRule fun _ eq => ?_, ⟨fun other v found => ?_, fun other h => ?_⟩,
      _, get?_insert_self ..⟩
    · cases eq
      exact firstSet_of_arcs isRule labels right toldApart
    · have ne : other ≠ name := by
        rintro rfl
        rw [absent] at found
        cases found
      rw [get?_insert_of_ne _ ne]
      exact grows.keeps other v ((begun other ne).trans found)
    · have ne : other ≠ name := by
        rintro rfl
        rw [get?_insert_self] at h
        cases h
      rw [get?_insert_of_ne _ ne] at h
      exact (begun other ne).symm.trans (grows.closes other h)

/-! ## All rules -/

theorem foldlM_computeFirst_decides {names : List Label}
    (rules : ∀ name ∈ names, has automata name = true) (firsts : Firsts)
    (sound : firsts.Sound automata) (closed : ∀ name, get? firsts name ≠ some none) :
    Decides automata (fun after => after.Sound automata ∧ firsts.Grows after ∧
        ∀ name ∈ names, ∃ set, get? after name = some (some set))
      (names.foldlM (fun firsts name =>
        if has firsts name then pure firsts
        else computeFirst automata (automata.length + 1) name firsts) firsts) := by
  induction names generalizing firsts with
  | nil => exact ⟨sound, .refl _, by simp⟩
  | cons name names ih =>
    obtain ⟨isRule, rules⟩ := forall_mem_cons.1 rules
    have step : Decides automata (fun after => after.Sound automata ∧ firsts.Grows after ∧
        ∃ set, get? after name = some (some set))
        (if has firsts name then pure firsts
          else computeFirst automata (automata.length + 1) name firsts) := by
      cases found : get? firsts name with
      | some v =>
        rw [has_eq_isSome, found]
        cases v with
        | none => exact absurd found (closed name)
        | some set => exact ⟨sound, .refl _, set, found⟩
      | none =>
        have card := calc (firsts.missing automata).card ≤ (keys automata).toFinset.card :=
                Finset.card_le_card (Finset.filter_subset _ _)
            _ ≤ (keys automata).length := toFinset_card_le _
            _ = automata.length := length_map ..
        rw [has_eq_isSome, found]
        exact computeFirst_computes _ name firsts sound isRule found
          (fun open_ h => absurd h (closed open_)) (by omega)
    refine step.bind ?_
    rintro next ⟨sound', grows, set, found⟩
    have rest := ih rules next sound' fun other h => closed other (grows.closes other h)
    cases run : names.foldlM (fun firsts name =>
        if has firsts name then pure firsts
        else computeFirst automata (automata.length + 1) name firsts) next with
    | error e =>
      rwa [run] at rest
    | ok after =>
      rw [run] at rest
      obtain ⟨sound'', grows', all⟩ := rest
      exact ⟨sound'', grows.trans grows', forall_mem_cons.2 ⟨⟨set, grows'.keeps name _ found⟩, all⟩⟩

theorem firstSets_decides (automata : Automata) :
    Decides automata (fun firsts =>
        (∀ name, has automata name = true →
          ∃ set, get? firsts name = some set ∧ FirstSet automata name set) ∧
        ∀ name set, get? firsts name = some set → has automata name = true)
      (firstSets automata) := by
  have rules := fun name mem =>
      (has_iff_mem_keys automata name).2 ((Text.perm_sorted _).mem_iff.1 mem)
  refine (foldlM_computeFirst_decides rules []
    ⟨fun _ _ h => (nomatch h), fun _ _ h => (nomatch h)⟩ fun _ h => (nomatch h)).bind ?_
  rintro computed ⟨sound, -, all⟩
  have look := get?_map computed fun v => v.getD []
  refine ⟨fun name isRule => ?_, fun name set found => ?_⟩
  · obtain ⟨set, found⟩ := all name
      ((Text.perm_sorted _).mem_iff.2 ((has_iff_mem_keys automata name).1 isRule))
    refine ⟨set, ?_, sound.right name set found⟩
    rw [look, found]
    rfl
  · rw [look] at found
    obtain ⟨v, found, -⟩ := Option.map_eq_some_iff.1 found
    exact sound.isRule name v found

section

variable {firsts : OrderedMap Label (List Label)} {name : Label} {set : List Label}

theorem isRule_of_firstSets (h : firstSets automata = .ok firsts)
    (found : get? firsts name = some set) : has automata name = true := by
  have decided := firstSets_decides automata
  rw [h] at decided
  exact decided.2 name set found

theorem exists_firstSet (h : firstSets automata = .ok firsts)
    (isRule : has automata name = true) :
    ∃ set, get? firsts name = some set := by
  have decided := firstSets_decides automata
  rw [h] at decided
  obtain ⟨set, found, -⟩ := decided.1 name isRule
  exact ⟨set, found⟩

theorem firstSet_of_firstSets (h : firstSets automata = .ok firsts)
    (found : get? firsts name = some set) : FirstSet automata name set := by
  have decided := firstSets_decides automata
  rw [h] at decided
  obtain ⟨_, found', right⟩ := decided.1 name (decided.2 name set found)
  cases found.symm.trans found'
  exact right

end

theorem regular_of_firstSet
    (all : ∀ name, has automata name = true → ∃ set, FirstSet automata name set) :
    automata.Regular := by
  refine ⟨fun name circle => ?_, fun name => ?_⟩
  · obtain ⟨_, corner, -⟩ := Relation.TransGen.head'_iff.1 circle
    obtain ⟨_, right⟩ := all name corner.isRule
    exact right.bounded.not_circle circle
  · cases isRule : has automata name with
    | true =>
      obtain ⟨_, right⟩ := all name isRule
      exact right.toldApart
    | false => exact (firstSet_token isRule).toldApart

/-- **First sets are what is reached over left corners.**  They are computed if and only if no rule
begins with itself and no label can begin two initial arcs of a rule; there is one for every rule and
for nothing else, and it holds exactly the labels that are no rules and are reached from its rule. -/
theorem firstSets_exact (automata : Automata) :
    ((∃ firsts, firstSets automata = .ok firsts) ↔
      automata.NoRecursion ∧ ∀ name, automata.ToldApart name) ∧
    ∀ firsts, firstSets automata = .ok firsts → ∀ name,
      (OrderedMap.has automata name = true ↔ ∃ set, OrderedMap.get? firsts name = some set) ∧
      ∀ set, OrderedMap.get? firsts name = some set → ∀ l, l ∈ set ↔
        OrderedMap.has automata l = false ∧ Relation.ReflTransGen automata.LeftCorner name l := by
  refine ⟨⟨fun ⟨firsts, h⟩ => ?_, fun ⟨noRecursion, toldApart⟩ => ?_⟩, fun firsts h name =>
    ⟨⟨exists_firstSet h, fun ⟨_, found⟩ => isRule_of_firstSets h found⟩,
      fun _ found => (firstSet_of_firstSets h found).mem_iff⟩⟩
  · have regular := regular_of_firstSet fun name isRule =>
      (exists_firstSet h isRule).imp fun _ found => firstSet_of_firstSets h found
    exact ⟨regular.noRecursion, regular.toldApart⟩
  · have decided := firstSets_decides automata
    cases run : firstSets automata with
    | ok firsts => exact ⟨firsts, rfl⟩
    | error e =>
      rw [run] at decided
      exact absurd ⟨noRecursion, toldApart⟩ decided

end Retouch.Grammar
