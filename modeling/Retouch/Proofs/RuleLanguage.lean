import Retouch.Grammar.Reader
import Retouch.Proofs.Maps
import Retouch.Proofs.Paths

/-!
# The language of a rule

An expression on the right-hand side of a rule stands for a set of sequences of labels
(`Ebnf.language`), and its automaton spells sequences on the way from its initial to its final state.
The automata of parts are joined by their ends, and the ends of a part become ends of the whole.  So
what an automaton spells from each of its ends to each of them is computed along the expression
(`Ebnf.ends`, `Ebnf.build_built`).

Every sequence of the language is spelled (`Ebnf.language_le_accepted`), but others can be spelled too.
The silent arc of `[x]` begins at an initial state that `x` may come back to, and it ends at a final
state that `x` may go on from; `x*` ends where it begins.  So `[x* y]` spells `x`, and so do
`[y x+]` and `(x* y)*`.  The language is met where each such arc adds nothing (`Ebnf.Faithful`), as it
is where no repetition stands at the ends of what is in brackets (`Ebnf.Separate`).
-/

namespace Retouch.Grammar

open List Computability

namespace Ebnf

/-! ## What expressions stand for -/

mutual
def language : Ebnf → Language Label
  | label l => {[l]}
  | alternatives options => languageAny options
  | sequence first second => first.language * second.language
  | optional e => 1 + e.language
  | plus e => e.language * e.language∗
  | star e => e.language∗

def languageAny : List Ebnf → Language Label
  | [] => 0
  | e :: es => e.language + languageAny es
end

/-! ## What automata spell -/

/-- One of the two states by which an automaton is joined to others. -/
inductive End where
  | initial
  | final

abbrev Ends := End → End → Language Label

def Ends.passing (l : Language Label) : Ends
  | .initial, .final => l
  | .final, .initial => 0
  | _, _ => 1

def Ends.join (x : Ends) (s t : End) : Ends := fun p q => x p q + x p s * (x t s)∗ * x t q

/-- The ends of two automata one after the other: paths do not come back to the first one. -/
def Ends.append (x y : Ends) : Ends
  | .initial, .final => x .initial .final * y .initial .final
  | .initial, .initial => x .initial .initial
  | .final, .final => y .final .final
  | .final, .initial => 0

mutual
def ends : Ebnf → Ends
  | label l => .passing {[l]}
  | alternatives options => .passing (acceptedAny options)
  | sequence first second => first.ends.append second.ends
  | optional e => e.ends.join .initial .final
  | plus e => e.ends.join .final .initial
  | star e => fun _ _ => e.ends.join .final .initial .initial .initial

/-- What is spelled from the initial to the final state of one of the automata. -/
def acceptedAny : List Ebnf → Language Label
  | [] => 0
  | e :: es => e.ends .initial .final + acceptedAny es
end

/-- What is spelled from the initial to the final state of an expression's automaton. -/
def accepted (e : Ebnf) : Language Label := e.ends .initial .final

/-! ## Building automata -/

def End.place (a z : Nat) : End → Nat
  | .initial => a
  | .final => z

/-- An automaton with the states `a` and `z` was built beside the states of `n`. -/
structure Built (n n' : Nfa) (a z : Nat) (x : Ends) : Prop where
  grown : n.Grown n'
  initial : n.size ≤ a ∧ a < n'.size
  final : n.size ≤ z ∧ z < n'.size
  ends : ∀ s t : End, n'.between (s.place a z) (t.place a z) = x s t

/-- Two states between which options are built: nothing comes back to the first one, and nothing goes
on from the second one. -/
structure Apart (n : Nfa) (a z : Nat) (l : Language Label) : Prop where
  initial : a < n.size
  final : z < n.size
  across : n.between a z = l
  back : n.between z a = 0
  atInitial : n.between a a = 1
  atFinal : n.between z z = 1

variable {a z : Nat} {l : Language Label} {n : Nfa}

theorem Apart.ends (h : Apart n a z l) (s t : End) :
    n.between (s.place a z) (t.place a z) = Ends.passing l s t := by
  cases s <;> cases t
  · exact h.atInitial
  · exact h.across
  · exact h.back
  · exact h.atFinal

theorem arcsOf_grow_grow {p : Nat} (hp : n.size ≤ p) : n.grow.grow.arcsOf p = [] := by
  rw [Nfa.arcsOf_grow, Nfa.arcsOf_grow, Nfa.arcsOf_eq_nil hp]

theorem apart_grow (n : Nfa) : Apart n.grow.grow n.size (n.size + 1) 0 := by
  have leaves : ∀ p q, n.size ≤ p → n.grow.grow.between p q = if p = q then 1 else 0 :=
    fun p q hp => Nfa.between_of_arcsOf_nil (arcsOf_grow_grow hp) q
  constructor
  · simp only [Nfa.size_grow]; omega
  · simp only [Nfa.size_grow]; omega
  · rw [leaves _ _ le_rfl, if_neg (by omega)]
  · rw [leaves _ _ (by omega), if_neg (by omega)]
  · rw [leaves _ _ le_rfl, if_pos rfl]
  · rw [leaves _ _ (by omega), if_pos rfl]

theorem apart_label (n : Nfa) (l : Label) :
    Apart (n.grow.grow.addArc n.size (some l) (n.size + 1)) n.size (n.size + 1) {[l]} := by
  obtain ⟨ha, hz, -⟩ := apart_grow n
  have last : (n.grow.grow.addArc n.size (some l) (n.size + 1)).arcsOf (n.size + 1) = [] := by
    rw [Nfa.arcsOf_addArc ha, if_neg (by omega), arcsOf_grow_grow (by omega)]
  have only : (n.grow.grow.addArc n.size (some l) (n.size + 1)).arcsOf n.size =
      [(some l, n.size + 1)] := by
    rw [Nfa.arcsOf_addArc ha, if_pos rfl, arcsOf_grow_grow le_rfl, nil_append]
  have fromFinal := Nfa.between_of_arcsOf_nil last
  have fromInitial := Nfa.between_of_arcsOf_label only
  refine ⟨by rwa [Nfa.size_addArc], by rwa [Nfa.size_addArc], ?_, ?_, ?_, ?_⟩
  · rw [fromInitial, fromFinal, if_neg (by omega), if_pos rfl, mul_one, zero_add]
  · rw [fromFinal, if_neg (by omega)]
  · rw [fromInitial, fromFinal, if_pos rfl, if_neg (by omega), mul_zero, add_zero]
  · rw [fromFinal, if_pos rfl]

theorem Apart.option {n' : Nfa} {b y : Nat} {x : Ends} (h : Apart n a z l) (hn : n.Closed)
    (hb : Built n n' b y x) :
    Apart ((n'.addArc a none b).addArc y none z) a z (l + x .initial .final) := by
  obtain ⟨ha, hz, across, back, atInitial, atFinal⟩ := h
  obtain ⟨grown, ⟨hb₁, _⟩, ⟨hy₁, hy₂⟩, ends⟩ := hb
  have ha' := ha.trans_le grown.size_le
  have inner : n'.between b y = x .initial .final := ends .initial .final
  have old : ∀ p q, p < n.size → n'.between p q = n.between p q :=
    fun p q hp => grown.between_old hn hp q
  have out : ∀ p q, p < n.size → n.size ≤ q → n'.between p q = 0 :=
    fun p q hp hq => grown.between_old_new hn hp hq
  have into : ∀ p q, n.size ≤ p → q < n.size → n'.between p q = 0 :=
    fun p q hp hq => grown.between_new_old hp hq
  -- after the arc to the option's initial state
  have step : ∀ p q, (n'.addArc a none b).between p q =
      n'.between p q + n'.between p a * n'.between b q := by
    intro p q
    rw [Nfa.between_addArc ha', into b a hb₁ ha, kstar_zero, mul_one]
  have fromFinal : ∀ q, (n'.addArc a none b).between z q = n'.between z q := by
    intro q
    rw [step, old z a hz, back, zero_mul, add_zero]
  have reached : (n'.addArc a none b).between a y = x .initial .final := by
    rw [step, out a y ha hy₁, old a a ha, atInitial, inner, one_mul, zero_add]
  -- and after the arc from its final state
  have last : ∀ p q, ((n'.addArc a none b).addArc y none z).between p q =
      (n'.addArc a none b).between p q +
        (n'.addArc a none b).between p y * (n'.addArc a none b).between z q := by
    intro p q
    rw [Nfa.between_addArc (by simpa using hy₂), fromFinal y, out z y hz hy₁, kstar_zero, mul_one]
  refine ⟨by simpa using ha', by simpa using hz.trans_le grown.size_le, ?_, ?_, ?_, ?_⟩
  · rw [last, reached, fromFinal, old z z hz, atFinal, mul_one, step, old a z ha, across,
      into b z hb₁ hz, mul_zero, add_zero]
  · rw [last, fromFinal, fromFinal, old z a hz, back, mul_zero, add_zero]
  · rw [last, fromFinal, old z a hz, back, mul_zero, add_zero, step, old a a ha, atInitial,
      into b a hb₁ ha, mul_zero, add_zero]
  · rw [last, fromFinal, fromFinal, old z z hz, atFinal, out z y hz hy₁, zero_mul, add_zero]

theorem Built.join {n' : Nfa} {x : Ends} (h : Built n n' a z x) (s t : End) :
    Built n (n'.addArc (s.place a z) none (t.place a z)) a z (x.join s t) := by
  have inside : ∀ e : End, n.size ≤ e.place a z ∧ e.place a z < n'.size := by
    intro e
    cases e
    · exact h.initial
    · exact h.final
  refine ⟨h.grown.addArc (inside s).1 (inside s).2 (inside t).1 (inside t).2, by simpa using h.initial,
    by simpa using h.final, fun p q => ?_⟩
  rw [Nfa.between_addArc (inside s).2, h.ends, h.ends, h.ends, h.ends]
  rfl

theorem Built.append {n n₁ n₂ : Nfa} {a b c d : Nat} {x y : Ends} (hn : n.Closed)
    (h₁ : Built n n₁ a b x) (h₂ : Built n₁ n₂ c d y) :
    Built n (n₂.addArc b none c) a d (x.append y) := by
  obtain ⟨grown₁, ⟨ha, ha'⟩, ⟨hb, hb'⟩, ends₁⟩ := h₁
  obtain ⟨grown₂, ⟨hc, hc'⟩, ⟨hd, hd'⟩, ends₂⟩ := h₂
  have closed₁ := grown₁.closed hn
  have hb₂ := hb'.trans_le grown₂.size_le
  have out : ∀ p q, p < n₁.size → n₁.size ≤ q → n₂.between p q = 0 :=
    fun p q hp hq => grown₂.between_old_new closed₁ hp hq
  have into : ∀ p q, n₁.size ≤ p → q < n₁.size → n₂.between p q = 0 :=
    fun p q hp hq => grown₂.between_new_old hp hq
  have link : ∀ p q, (n₂.addArc b none c).between p q =
      n₂.between p q + n₂.between p b * n₂.between c q := by
    intro p q
    rw [Nfa.between_addArc hb₂, into c b hc hb', kstar_zero, mul_one]
  have first := grown₂.between_old closed₁ ha'
  refine ⟨(grown₁.trans grown₂).addArc hb hb₂ (grown₁.size_le.trans hc) hc',
    ⟨ha, by simpa using ha'.trans_le grown₂.size_le⟩,
    ⟨grown₁.size_le.trans hd, by simpa using hd'⟩, fun s t => ?_⟩
  rw [link]
  cases s <;> cases t <;> simp only [End.place, Ends.append]
  · rw [into c a hc ha', mul_zero, add_zero, first]
    exact ends₁ .initial .initial
  · rw [out a d ha' hd, zero_add, first]
    exact congr (congrArg _ (ends₁ .initial .final)) (ends₂ .initial .final)
  · rw [into d a hd ha', into d b hd hb', zero_mul, add_zero]
  · rw [into d b hd hb', zero_mul, add_zero]
    exact ends₂ .final .final

mutual
/-- The automaton of an expression spells between its ends what the expression says. -/
theorem build_built (e : Ebnf) {n : Nfa} (hn : n.Closed) :
    Built n (e.build n).1 (e.build n).2.1 (e.build n).2.2 e.ends := by
  cases e with
  | label l =>
    have apart := apart_label n l
    have grown := (Nfa.Grown.grow n).trans (Nfa.Grown.grow n.grow)
    have initial := apart.initial
    have final := apart.final
    rw [Nfa.size_addArc] at initial final
    exact ⟨grown.addArc le_rfl initial (Nat.le_succ _) final, ⟨le_rfl, apart.initial⟩,
      ⟨Nat.le_succ _, apart.final⟩, apart.ends⟩
  | alternatives options =>
    have grown := (Nfa.Grown.grow n).trans (Nfa.Grown.grow n.grow)
    obtain ⟨grown', apart⟩ := buildOptions_apart options hn grown le_rfl (Nat.le_succ _)
      (apart_grow n)
    rw [zero_add] at apart
    exact ⟨grown', ⟨le_rfl, apart.initial⟩, ⟨Nat.le_succ _, apart.final⟩, apart.ends⟩
  | sequence first second =>
    have h₁ := build_built first hn
    exact h₁.append hn (build_built second (h₁.grown.closed hn))
  | optional e => exact (build_built e hn).join .initial .final
  | plus e => exact (build_built e hn).join .final .initial
  | star e =>
    obtain ⟨grown, initial, -, ends⟩ := (build_built e hn).join .final .initial
    refine ⟨grown, initial, initial, fun s t => ?_⟩
    cases s <;> cases t <;> exact ends .initial .initial

theorem buildOptions_apart (es : List Ebnf) {n₀ n : Nfa} {a z : Nat} {l : Language Label}
    (hn₀ : n₀.Closed) (grown : n₀.Grown n) (ha : n₀.size ≤ a) (hz : n₀.size ≤ z)
    (h : Apart n a z l) :
    n₀.Grown (buildOptions es n a z) ∧ Apart (buildOptions es n a z) a z (l + acceptedAny es) := by
  cases es with
  | nil =>
    rw [acceptedAny, add_zero]
    exact ⟨grown, h⟩
  | cons e es =>
    have hn := grown.closed hn₀
    have built := build_built e hn
    obtain ⟨hb, hb'⟩ := built.initial
    obtain ⟨hy, hy'⟩ := built.final
    have step := (grown.trans built.grown).addArc (l := none) ha
      (h.initial.trans_le built.grown.size_le) (grown.size_le.trans hb) hb'
    have step' := step.addArc (l := none) (grown.size_le.trans hy) (by simpa using hy') hz
      (by simpa using h.final.trans_le built.grown.size_le)
    rw [acceptedAny, ← add_assoc]
    exact buildOptions_apart es hn₀ step' ha hz (h.option hn built)
end

/-! ## Where the automaton spells the language -/

theorem one_le_ends (e : Ebnf) (s : End) : 1 ≤ e.ends s s := by
  have built := (e.build_built Nfa.closed_empty).ends s s
  rw [← built]
  exact Nfa.one_le_between _ _

theorem accepted_sequence (e f : Ebnf) : (sequence e f).accepted = e.accepted * f.accepted := rfl

theorem accepted_optional (e : Ebnf) : (optional e).accepted =
    e.accepted + e.ends .initial .initial * (e.ends .final .initial)∗ * e.ends .final .final := rfl

theorem accepted_plus (e : Ebnf) : (plus e).accepted = e.accepted * e.accepted∗ := by
  calc (plus e).accepted = e.accepted + e.accepted * e.accepted∗ * e.accepted := rfl
    _ = e.accepted * (1 + e.accepted∗ * e.accepted) := by rw [mul_add, mul_one, mul_assoc]
    _ = e.accepted * e.accepted∗ := by rw [one_add_kstar_mul]

theorem accepted_star (e : Ebnf) : (star e).accepted = e.accepted∗ * e.ends .initial .initial := by
  calc (star e).accepted = e.ends .initial .initial +
        e.accepted * e.accepted∗ * e.ends .initial .initial := rfl
    _ = (1 + e.accepted * e.accepted∗) * e.ends .initial .initial := by rw [add_mul, one_mul]
    _ = e.accepted∗ * e.ends .initial .initial := by rw [one_add_mul_kstar]

theorem one_le_skipped (e : Ebnf) :
    1 ≤ e.ends .initial .initial * (e.ends .final .initial)∗ * e.ends .final .final := by
  calc (1 : Language Label) = 1 * 1 * 1 := by rw [one_mul, one_mul]
    _ ≤ e.ends .initial .initial * (e.ends .final .initial)∗ * e.ends .final .final := by
        gcongr
        · exact one_le_ends e .initial
        · exact one_le_kstar
        · exact one_le_ends e .final

mutual
/-- Every sequence of the language is spelled. -/
theorem language_le_accepted (e : Ebnf) : e.language ≤ e.accepted := by
  cases e with
  | label l => exact le_rfl
  | alternatives options => exact languageAny_le_acceptedAny options
  | sequence e f =>
    rw [language, accepted_sequence]
    gcongr
    · exact language_le_accepted e
    · exact language_le_accepted f
  | optional e =>
    rw [language, accepted_optional, add_comm]
    gcongr
    · exact language_le_accepted e
    · exact one_le_skipped e
  | plus e =>
    rw [language, accepted_plus]
    gcongr
    · exact language_le_accepted e
    · exact language_le_accepted e
  | star e =>
    rw [accepted_star]
    calc e.language∗ ≤ e.accepted∗ * 1 := by
          rw [mul_one]
          exact kstar_mono (language_le_accepted e)
      _ ≤ e.accepted∗ * e.ends .initial .initial := by
          gcongr
          exact one_le_ends e .initial

theorem languageAny_le_acceptedAny (es : List Ebnf) : languageAny es ≤ acceptedAny es := by
  cases es with
  | nil => exact le_rfl
  | cons e es =>
    rw [languageAny, acceptedAny]
    gcongr
    · exact language_le_accepted e
    · exact languageAny_le_acceptedAny es
end

mutual
/-- Around `[x]`, and at the end of `x*`, the automaton spells nothing that it should not. -/
def Faithful : Ebnf → Prop
  | label _ => True
  | alternatives options => FaithfulAll options
  | sequence first second => first.Faithful ∧ second.Faithful
  | optional e => e.Faithful ∧
      e.ends .initial .initial * (e.ends .final .initial)∗ * e.ends .final .final ≤ 1 + e.accepted
  | plus e => e.Faithful
  | star e => e.Faithful ∧ e.ends .initial .initial ≤ e.accepted∗

def FaithfulAll : List Ebnf → Prop
  | [] => True
  | e :: es => e.Faithful ∧ FaithfulAll es
end

mutual
theorem Faithful.accepted_eq {e : Ebnf} (h : e.Faithful) : e.accepted = e.language := by
  cases e with
  | label l => rfl
  | alternatives options =>
    exact FaithfulAll.acceptedAny_eq h
  | sequence e f =>
    rw [language, accepted_sequence, h.1.accepted_eq, h.2.accepted_eq]
  | optional e =>
    rw [language, ← h.1.accepted_eq]
    apply le_antisymm
    · exact add_le le_add_self h.2
    · exact add_le ((one_le_skipped e).trans le_add_self) le_self_add
  | plus e =>
    rw [Faithful] at h
    rw [language, accepted_plus, h.accepted_eq]
  | star e =>
    rw [language, accepted_star, ← h.1.accepted_eq]
    apply le_antisymm
    · calc e.accepted∗ * e.ends .initial .initial ≤ e.accepted∗ * e.accepted∗ := by
            gcongr
            exact h.2
        _ = e.accepted∗ := kstar_mul_kstar _
    · calc e.accepted∗ = e.accepted∗ * 1 := (mul_one _).symm
        _ ≤ e.accepted∗ * e.ends .initial .initial := by
            gcongr
            exact one_le_ends e .initial

theorem FaithfulAll.acceptedAny_eq {es : List Ebnf} (h : FaithfulAll es) :
    acceptedAny es = languageAny es := by
  cases es with
  | nil => rfl
  | cons e es =>
    rw [acceptedAny, languageAny, ← h.1.accepted_eq, h.2.acceptedAny_eq]
    rfl
end

/-- Brackets around a faithful expression are right only if the arc over it adds nothing. -/
theorem faithful_optional_iff {e : Ebnf} (h : e.Faithful) :
    (optional e).accepted = (optional e).language ↔ (optional e).Faithful := by
  refine ⟨fun same => ?_, Faithful.accepted_eq⟩
  refine ⟨h, ?_⟩
  rw [language, ← h.accepted_eq] at same
  exact le_add_self.trans same.le

/-- A repeated faithful expression is right only if its initial state can be left for good. -/
theorem faithful_star_iff {e : Ebnf} (h : e.Faithful) :
    (star e).accepted = (star e).language ↔ (star e).Faithful := by
  refine ⟨fun same => ?_, Faithful.accepted_eq⟩
  refine ⟨h, ?_⟩
  rw [accepted_star, language, ← h.accepted_eq] at same
  calc e.ends .initial .initial = 1 * e.ends .initial .initial := (one_mul _).symm
    _ ≤ e.accepted∗ * e.ends .initial .initial := by
        gcongr
        exact one_le_kstar
    _ = e.accepted∗ := same

/-! ## Brackets without repetitions at their ends -/

def opensOnce : Ebnf → Bool
  | label _ | alternatives _ => true
  | sequence first _ => first.opensOnce
  | optional e => e.opensOnce
  | plus _ | star _ => false

def closesOnce : Ebnf → Bool
  | label _ | alternatives _ => true
  | sequence _ second => second.closesOnce
  | optional e => e.closesOnce
  | plus _ | star _ => false

mutual
/-- No repetition stands at the start or the end of what is in square brackets, or at the start of
what is repeated by a star. -/
def Separate : Ebnf → Bool
  | label _ => true
  | alternatives options => SeparateAll options
  | sequence first second => first.Separate && second.Separate
  | optional e => e.Separate && e.opensOnce && e.closesOnce
  | plus e => e.Separate
  | star e => e.Separate && e.opensOnce

def SeparateAll : List Ebnf → Bool
  | [] => true
  | e :: es => e.Separate && SeparateAll es
end

theorem ends_of_opensOnce {e : Ebnf} (h : e.opensOnce = true) :
    e.ends .initial .initial = 1 ∧ e.ends .final .initial = 0 := by
  cases e with
  | label l | alternatives options => exact ⟨rfl, rfl⟩
  | sequence e f => exact ⟨(ends_of_opensOnce (e := e) h).1, rfl⟩
  | optional e =>
    obtain ⟨stays, back⟩ := ends_of_opensOnce (e := e) h
    simp [ends, Ends.join, stays, back]
  | plus e | star e => cases h

theorem ends_of_closesOnce {e : Ebnf} (h : e.closesOnce = true) :
    e.ends .final .final = 1 ∧ e.ends .final .initial = 0 := by
  cases e with
  | label l | alternatives options => exact ⟨rfl, rfl⟩
  | sequence e f => exact ⟨(ends_of_closesOnce (e := f) h).1, rfl⟩
  | optional e =>
    obtain ⟨stays, back⟩ := ends_of_closesOnce (e := e) h
    simp [ends, Ends.join, stays, back]
  | plus e | star e => cases h

mutual
theorem faithful_of_separate {e : Ebnf} (h : e.Separate = true) : e.Faithful := by
  cases e with
  | label l => trivial
  | alternatives options => exact faithfulAll_of_separateAll h
  | sequence e f =>
    obtain ⟨he, hf⟩ := Bool.and_eq_true_iff.1 h
    exact ⟨faithful_of_separate he, faithful_of_separate hf⟩
  | optional e =>
    obtain ⟨h', closes⟩ := Bool.and_eq_true_iff.1 h
    obtain ⟨he, opens⟩ := Bool.and_eq_true_iff.1 h'
    refine ⟨faithful_of_separate he, ?_⟩
    rw [(ends_of_opensOnce opens).1, (ends_of_opensOnce opens).2, (ends_of_closesOnce closes).1,
      kstar_zero, one_mul, one_mul]
    exact le_self_add
  | plus e => exact faithful_of_separate (e := e) h
  | star e =>
    obtain ⟨he, opens⟩ := Bool.and_eq_true_iff.1 h
    refine ⟨faithful_of_separate he, ?_⟩
    rw [(ends_of_opensOnce opens).1]
    exact one_le_kstar

theorem faithfulAll_of_separateAll {es : List Ebnf} (h : SeparateAll es = true) :
    FaithfulAll es := by
  cases es with
  | nil => trivial
  | cons e es =>
    obtain ⟨he, hes⟩ := Bool.and_eq_true_iff.1 h
    exact ⟨faithful_of_separate he, faithfulAll_of_separateAll hes⟩
end

theorem path_automaton_iff (e : Ebnf) (w : List Label) :
    e.automaton.1.Path e.automaton.2.1 w e.automaton.2.2 ↔ w ∈ e.accepted := by
  have built := (e.build_built Nfa.closed_empty).ends .initial .final
  exact iff_of_eq (congrArg (w ∈ ·) built)

end Ebnf

/-! ## Reading right-hand sides -/

namespace Reader

mutual
/-- The tokens write alternatives with bars between them. -/
inductive WritesRhs : List Token → Ebnf → Prop
  | one {ts : List Token} {e : Ebnf} (only : WritesSequence ts e) : WritesRhs ts e
  | more {ts us : List Token} {e : Ebnf} {es : List Ebnf} (first : WritesSequence ts e)
      (rest : WritesOptions us es) (some : es ≠ []) : WritesRhs (ts ++ us) (.alternatives (e :: es))

/-- The tokens write alternatives with a bar before each. -/
inductive WritesOptions : List Token → List Ebnf → Prop
  | nil : WritesOptions [] []
  | cons {bar : Token} {ts us : List Token} {e : Ebnf} {es : List Ebnf} (isBar : bar.text = "|")
      (first : WritesSequence ts e) (rest : WritesOptions us es) :
      WritesOptions (bar :: ts ++ us) (e :: es)

/-- The tokens write one or more items. -/
inductive WritesSequence : List Token → Ebnf → Prop
  | one {ts : List Token} {e : Ebnf} (only : WritesItem ts e) : WritesSequence ts e
  | more {ts us : List Token} {e f : Ebnf} (before : WritesSequence ts e) (last : WritesItem us f) :
      WritesSequence (ts ++ us) (.sequence e f)

/-- The tokens write an item: something in square brackets, or an atom with or without a repeater. -/
inductive WritesItem : List Token → Ebnf → Prop
  | optional {left right : Token} {ts : List Token} {e : Ebnf} (opened : left.text = "[")
      (inner : WritesRhs ts e) (closed : right.text = "]") :
      WritesItem (left :: ts ++ [right]) (.optional e)
  | once {ts : List Token} {e : Ebnf} (atom : WritesAtom ts e) : WritesItem ts e
  | plus {mark : Token} {ts : List Token} {e : Ebnf} (atom : WritesAtom ts e)
      (isPlus : mark.text = "+") : WritesItem (ts ++ [mark]) (.plus e)
  | star {mark : Token} {ts : List Token} {e : Ebnf} (atom : WritesAtom ts e)
      (isStar : mark.text = "*") : WritesItem (ts ++ [mark]) (.star e)

/-- The tokens write an atom: something in round brackets, a name or a literal. -/
inductive WritesAtom : List Token → Ebnf → Prop
  | group {left right : Token} {ts : List Token} {e : Ebnf} (opened : left.text = "(")
      (inner : WritesRhs ts e) (closed : right.text = ")") :
      WritesAtom (left :: ts ++ [right]) e
  | label {t : Token} (kind : t.kind = Kind.name ∨ t.kind = Kind.string) :
      WritesAtom [t] (.label t.text)
end

/-- What a function of the reader takes from its input is written as it says. -/
def Reads {α : Type} (writes : List Token → α → Prop) (read : Input → Except Error (α × Input)) :
    Prop :=
  ∀ i a rest, read i = .ok (a, rest) → ∃ used, i.tokens = used ++ rest.tokens ∧ writes used a

theorem peek_eq_ok {i : Input} {t : Token} (h : peek i = .ok t) :
    i.tokens = t :: (advance i).tokens := by
  unfold peek at h
  split at h
  · rename_i hc
    cases h
    rw [advance, hc]
    rfl
  · split at h <;> cases h

theorem expect_eq_ok {kind : Kind} {text : Text} {i rest : Input} {found : Text}
    (h : expect kind (some text) i = .ok (found, rest)) :
    ∃ t, i.tokens = t :: rest.tokens ∧ t.text = text := by
  obtain ⟨t, ht, h⟩ := bind_eq_ok.1 h
  split at h
  · rename_i fits
    cases h
    refine ⟨t, peek_eq_ok ht, ?_⟩
    rcases fits.2 with none | same
    · cases none
    · exact (Option.some.inj same).symm
  · cases h

theorem rhs_reads (fuel : Nat) :
    Reads WritesRhs (rhs fuel) ∧ Reads WritesOptions (options fuel) ∧
      Reads WritesSequence (sequence fuel) ∧
      (∀ before e, WritesSequence before e →
        Reads (fun used f => WritesSequence (before ++ used) f) (items fuel e)) ∧
      Reads WritesItem (item fuel) ∧ Reads WritesAtom (atom fuel) := by
  induction fuel with
  | zero =>
    refine ⟨?_, ?_, ?_, fun _ _ _ => ?_, ?_, ?_⟩
    all_goals
      intro i a rest h
      cases h
  | succ fuel ih =>
    obtain ⟨rhs_reads, options_reads, sequence_reads, items_reads, item_reads, atom_reads⟩ := ih
    refine ⟨?_, ?_, ?_, fun before first written => ?_, ?_, ?_⟩
    all_goals intro i a rest h
    · obtain ⟨⟨first, i₁⟩, h₁, h⟩ := bind_eq_ok.1 h
      obtain ⟨⟨more, i₂⟩, h₂, h⟩ := bind_eq_ok.1 h
      obtain ⟨used₁, split₁, written₁⟩ := sequence_reads _ _ _ h₁
      obtain ⟨used₂, split₂, written₂⟩ := options_reads _ _ _ h₂
      cases h
      refine ⟨used₁ ++ used₂, by rw [split₁, split₂, append_assoc], ?_⟩
      cases more with
      | nil =>
        cases written₂
        rw [append_nil]
        exact .one written₁
      | cons e es => exact .more written₁ written₂ (by simp)
    · obtain ⟨t, ht, h⟩ := bind_eq_ok.1 h
      split at h
      · rename_i bar
        obtain ⟨⟨e, i₁⟩, h₁, h⟩ := bind_eq_ok.1 h
        obtain ⟨⟨es, i₂⟩, h₂, h⟩ := bind_eq_ok.1 h
        obtain ⟨used₁, split₁, written₁⟩ := sequence_reads _ _ _ h₁
        obtain ⟨used₂, split₂, written₂⟩ := options_reads _ _ _ h₂
        cases h
        refine ⟨t :: used₁ ++ used₂, ?_, .cons bar written₁ written₂⟩
        rw [peek_eq_ok ht, split₁, split₂]
        simp
      · cases h
        exact ⟨[], rfl, .nil⟩
    · obtain ⟨⟨first, i₁⟩, h₁, h⟩ := bind_eq_ok.1 h
      obtain ⟨used₁, split₁, written₁⟩ := item_reads _ _ _ h₁
      obtain ⟨used₂, split₂, written₂⟩ := items_reads used₁ first (.one written₁) _ _ _ h
      exact ⟨used₁ ++ used₂, by rw [split₁, split₂, append_assoc], written₂⟩
    · obtain ⟨t, _, h⟩ := bind_eq_ok.1 h
      split at h
      · obtain ⟨⟨e, i₁⟩, h₁, h⟩ := bind_eq_ok.1 h
        obtain ⟨used₁, split₁, written₁⟩ := item_reads _ _ _ h₁
        obtain ⟨used₂, split₂, written₂⟩ := items_reads _ _ (.more written written₁) _ _ _ h
        refine ⟨used₁ ++ used₂, by rw [split₁, split₂, append_assoc], ?_⟩
        simpa only [append_assoc] using written₂
      · cases h
        exact ⟨[], rfl, by simpa only [append_nil] using written⟩
    · obtain ⟨t, ht, h⟩ := bind_eq_ok.1 h
      split at h
      · rename_i opened
        obtain ⟨⟨e, i₁⟩, h₁, h⟩ := bind_eq_ok.1 h
        obtain ⟨⟨_, i₂⟩, h₂, h⟩ := bind_eq_ok.1 h
        obtain ⟨used, split, inner⟩ := rhs_reads _ _ _ h₁
        obtain ⟨right, found, closed⟩ := expect_eq_ok h₂
        cases h
        refine ⟨t :: used ++ [right], ?_, .optional opened inner closed⟩
        rw [peek_eq_ok ht, split, found]
        simp
      · obtain ⟨⟨e, i₁⟩, h₁, h⟩ := bind_eq_ok.1 h
        obtain ⟨used, split, inner⟩ := atom_reads _ _ _ h₁
        obtain ⟨mark, hm, h⟩ := bind_eq_ok.1 h
        have marked : i.tokens = used ++ [mark] ++ (advance i₁).tokens := by
          rw [split, peek_eq_ok hm, append_assoc]
          rfl
        split at h
        · rename_i isPlus
          cases h
          exact ⟨_, marked, .plus inner isPlus⟩
        · split at h
          · rename_i isStar
            cases h
            exact ⟨_, marked, .star inner isStar⟩
          · cases h
            exact ⟨used, split, .once inner⟩
    · obtain ⟨t, ht, h⟩ := bind_eq_ok.1 h
      split at h
      · rename_i opened
        obtain ⟨⟨e, i₁⟩, h₁, h⟩ := bind_eq_ok.1 h
        obtain ⟨⟨_, i₂⟩, h₂, h⟩ := bind_eq_ok.1 h
        obtain ⟨used, split, inner⟩ := rhs_reads _ _ _ h₁
        obtain ⟨right, found, closed⟩ := expect_eq_ok h₂
        cases h
        refine ⟨t :: used ++ [right], ?_, .group opened inner closed⟩
        rw [peek_eq_ok ht, split, found]
        simp
      · split at h
        · rename_i kind
          cases h
          exact ⟨[t], peek_eq_ok ht, .label kind⟩
        · cases h

/-- **What the automaton of a right-hand side spells.**  The expression that is read is the one that
the tokens write.  Its automaton spells what is computed along the expression; this includes all of
the language, and it is the language where every `[x]` and `x*` is faithful.  For brackets around a
faithful expression the condition is also necessary. -/
theorem rhs_path_iff {fuel : Nat} {i rest : Input} {e : Ebnf} (h : rhs fuel i = .ok (e, rest)) :
    (∃ used, i.tokens = used ++ rest.tokens ∧ WritesRhs used e) ∧
    (∀ w, e.automaton.1.Path e.automaton.2.1 w e.automaton.2.2 ↔ w ∈ e.accepted) ∧
    (∀ w ∈ e.language, e.automaton.1.Path e.automaton.2.1 w e.automaton.2.2) ∧
    (e.Faithful →
      ∀ w, e.automaton.1.Path e.automaton.2.1 w e.automaton.2.2 ↔ w ∈ e.language) ∧
    (e.Faithful → ((e.optional.accepted = e.optional.language ↔ e.optional.Faithful) ∧
      (e.star.accepted = e.star.language ↔ e.star.Faithful))) := by
  refine ⟨(rhs_reads fuel).1 i e rest h, e.path_automaton_iff, fun w hw => ?_, fun faithful w => ?_,
    fun faithful => ⟨Ebnf.faithful_optional_iff faithful, Ebnf.faithful_star_iff faithful⟩⟩
  · exact (e.path_automaton_iff w).2 (e.language_le_accepted hw)
  · rw [e.path_automaton_iff w, faithful.accepted_eq]

def inputOf (text : Text) : Input := Input.ofScan (scan (Text.newlineLines text))

theorem rhs_path_iff_calls : ∃ e rest,
    rhs 100 (inputOf "NAME ['=' NAME] ('(' [NUMBER | STRING+ ','] ')')*\n") = .ok (e, rest) ∧
    e.Faithful ∧ ∀ w, e.automaton.1.Path e.automaton.2.1 w e.automaton.2.2 ↔ w ∈ e.language := by
  have run : (match rhs 100 (inputOf "NAME ['=' NAME] ('(' [NUMBER | STRING+ ','] ')')*\n") with
      | .ok (e, _) => e.Separate
      | .error _ => false) = true := by decide +kernel
  split at run
  · rename_i e rest h
    have faithful := Ebnf.faithful_of_separate run
    exact ⟨e, rest, h, faithful, (rhs_path_iff h).2.2.2.1 faithful⟩
  · cases run

def readsOption : Bool :=
  match rhs 100 (inputOf "[NAME* NUMBER]\n") with
  | .ok (.optional (.sequence (.star (.label l)) (.label m)), _) => l != m
  | _ => false

/-- An option that begins with a repetition can stop after it. -/
theorem rhs_path_repeated_option : ∃ e rest, rhs 100 (inputOf "[NAME* NUMBER]\n") = .ok (e, rest) ∧
    ∃ w : List Label, e.automaton.1.Path e.automaton.2.1 w e.automaton.2.2 ∧ w ∉ e.language := by
  have run : readsOption = true := by decide +kernel
  unfold readsOption at run
  split at run
  · rename_i name number rest h
    refine ⟨_, rest, h, [name], ?_, ?_⟩
    · -- over the arc of the name, back to the start, and past the number
      have across : (some name, 1) ∈ [(some name, 1), (none, 2), (none, 3)] := mem_cons_self
      have back : (none, 0) ∈ [((none : Option Label), 0)] := mem_cons_self
      have past : (none, 3) ∈ [(some name, 1), (none, 2), (none, 3)] := by simp
      exact .label across (.silent back (.silent past (.nil 3)))
    · simp only [Ebnf.language]
      rintro (none | ⟨names, _, last, hlast, spelled⟩)
      · cases none
      · cases hlast
        have same := congrArg getLast? spelled
        rw [getLast?_concat] at same
        exact (bne_iff_ne.1 run) (Option.some.inj same).symm
  · cases run

end Reader

end Retouch.Grammar
