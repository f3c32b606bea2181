import Retouch.Proofs.Recognising

/-!
# The trees that the fixers for spacing recognise

The fixers for equal signs and operators recognise a node that ends in a sign and one tree after it
(`Fixes.infixed`), and the fixer for commas one with a comma at its end or just before it
(`Fixes.listed`).  So a node of a program is recognised by at most one of the three fixers
(`Fixes.Spacer.unmixed_of_derives`), and the whole program by none of them
(`Fixes.Spacer.not_recognises_root`).
-/

namespace Retouch

open List

open Tree

/-! ## Equality of patterns -/

namespace Pattern

mutual
def same : Pattern → Pattern → Bool
  | leaf k v n, leaf k' v' n' => k == k' && v == v' && n == n'
  | tree k n, tree k' n' => k == k' && n == n'
  | within k ps n, within k' ps' n' => k == k' && sameAll ps ps' && n == n'
  | anything lo hi n, anything lo' hi' n' => lo == lo' && hi == hi' && n == n'
  | choice os lo hi n, choice os' lo' hi' n' => sameAny os os' && lo == lo' && hi == hi' && n == n'
  | finish n, finish n' => n == n'
  | without p n, without p' n' => same p p' && n == n'
  | _, _ => false

def sameAll : List Pattern → List Pattern → Bool
  | [], [] => true
  | p :: ps, p' :: ps' => same p p' && sameAll ps ps'
  | _, _ => false

def sameAny : List (List Pattern) → List (List Pattern) → Bool
  | [], [] => true
  | o :: os, o' :: os' => sameAll o o' && sameAny os os'
  | _, _ => false
end

mutual
theorem same_iff (p p' : Pattern) : p.same p' = true ↔ p = p' := by
  cases p <;> cases p' <;> simp [same, same_iff, sameAll_iff, sameAny_iff, and_assoc]

theorem sameAll_iff (ps ps' : List Pattern) : sameAll ps ps' = true ↔ ps = ps' := by
  cases ps <;> cases ps' <;> simp [sameAll, same_iff, sameAll_iff]

theorem sameAny_iff (os os' : List (List Pattern)) : sameAny os os' = true ↔ os = os' := by
  cases os <;> cases os' <;> simp [sameAny, sameAll_iff, sameAny_iff]
end

end Pattern

namespace Fixes

open Pattern Span

/-! ## The patterns -/

def tokenPattern (token : Option Kind × Text) : Pattern := .leaf token.1 (some token.2) none

def among (tokens : List (Option Kind × Text)) : Pattern :=
  .choice (tokens.map fun token => [tokenPattern token]) 1 1 none

def butFor (p : Pattern) : List Pattern := [.without p none, .tree none none]

def infixed (before sign after : Pattern) : Pattern :=
  .within none [.choice [[.choice [butFor before] 1 unbounded none, sign,
    .choice [butFor after] 1 1 none]] 1 1 none] none

/-- A node in which signs divide trees; one tree at most stands after the last sign. -/
def listed (sign : Pattern) : Pattern :=
  .within none [.choice [[.choice [butFor sign] 1 unbounded none, sign,
    .choice [[.choice [butFor sign] 1 unbounded none, sign]] 0 unbounded none,
    .choice [butFor sign] 0 1 none]] 1 1 none] none

def kinded (tokens : List (Kind × Text)) : List (Option Kind × Text) :=
  tokens.map fun token => (some token.1, token.2)

def comma : Kind × Text := (Kind.comma, [','])

def commaPattern : Pattern := listed (tokenPattern (some Kind.comma, [',']))

def equalPattern : Pattern :=
  infixed (tokenPattern (some Kind.equal, ['='])) (tokenPattern (some Kind.equal, ['=']))
    (tokenPattern (some Kind.equal, ['=']))

def operatorPattern : Pattern :=
  infixed (among (kinded (operators ++ [comma]) ++ [(none, ['|', '('])])) (among (kinded operators))
    (among (kinded (operators ++ [comma])))

/-- Patterns are known from the characters of their texts, which need not be decoded. -/
theorem fixed_eq {s : String} {l : List Char} (h : s = String.ofList l) {p : Pattern}
    (compiled : (Context.fixed l).same p = true) : some (Context.fixed s.toList) = some p := by
  rw [h, String.toList_ofList, (same_iff _ _).1 compiled]

set_option maxRecDepth 100000 in
/-- The patterns of the fixers, as they are compiled. -/
theorem spacing_patterns : wsComma.pattern = some commaPattern ∧
    wsEqual.pattern = some equalPattern ∧ wsOperator.pattern = some operatorPattern := by
  -- one evaluation for the three, as each has to make the tables of the language of patterns
  have each : ∀ {a b c : Bool}, (a && b && c) = true → a = true ∧ b = true ∧ c = true := by simp
  refine And.imp (fixed_eq rfl) (And.imp (fixed_eq rfl) (fixed_eq rfl)) (each ?_)
  decide +kernel

/-! ## The patterns say yes or no -/

section Settled

variable {α : Type} {D : List (Tree α) → Prop} {p q : Pattern}

theorem settled_tokenPattern (token : Option Kind × Text) : Settled D (tokenPattern token) := trivial

theorem not_splitsAny_ended (some : ∀ rest names, ¬ Splits q ([] : List (Tree α)) rest names)
    (rest : List (Tree α)) (names : Bindings α) : ¬ SplitsAny [[p, q]] [] rest names := by
  rintro (⟨_, _, _, _, split, -, ⟨u, _, _, _, split', taken, -⟩, -⟩ | none)
  · obtain ⟨-, rfl⟩ := append_eq_nil_iff.1 split.symm
    obtain ⟨rfl, -⟩ := append_eq_nil_iff.1 split'.symm
    exact some _ _ taken
  · exact none

theorem settled_butFor (h : Settled D p) {min max : Nat} (order : min ≤ max) :
    Settled D (.choice [butFor p] min max none) :=
  ⟨nofun, ⟨⟨h, trivial, trivial⟩, trivial⟩, order, .inr fun rest _ =>
    not_splitsAny_ended (by rintro _ _ ⟨_, none, -⟩; cases none) rest⟩

theorem settled_among (tokens : List (Option Kind × Text)) : Settled D (among tokens) := by
  refine ⟨nofun, ?_, le_refl 1, .inl (by decide)⟩
  induction tokens with
  | nil => trivial
  | cons token tokens ih => exact ⟨⟨trivial, trivial⟩, ih⟩

theorem settled_infixed {r : Pattern} (hp : Settled D p) (hq : Settled D q) (hr : Settled D r) :
    Settled D (infixed p q r) :=
  ⟨⟨nofun, ⟨⟨settled_butFor hp (by decide), hq, settled_butFor hr (le_refl 1), trivial⟩, trivial⟩,
    le_refl 1, .inl (by decide)⟩, trivial⟩

theorem settled_listed (token : Option Kind × Text) : Settled D (listed (tokenPattern token)) := by
  have sign : Settled D (tokenPattern token) := settled_tokenPattern token
  have many : Settled D (.choice [butFor (tokenPattern token)] 1 unbounded none) :=
    settled_butFor sign (by decide)
  have groups : Settled D (.choice [[.choice [butFor (tokenPattern token)] 1 unbounded none,
      tokenPattern token]] 0 unbounded none) :=
    ⟨nofun, ⟨⟨many, sign, trivial⟩, trivial⟩, Nat.zero_le _,
      .inr fun rest _ => not_splitsAny_ended (by rintro _ _ ⟨_, none, -⟩; cases none) rest⟩
  exact ⟨⟨nofun, ⟨⟨many, sign, groups, settled_butFor sign (Nat.zero_le 1), trivial⟩, trivial⟩,
    le_refl 1, .inl (by decide)⟩, trivial⟩

end Settled

theorem decided_commaPattern : commaPattern.Decided :=
  ⟨fun _ => settled_listed _, by decide, rfl⟩

theorem decided_equalPattern : equalPattern.Decided :=
  ⟨fun _ => settled_infixed (settled_tokenPattern _) (settled_tokenPattern _) (settled_tokenPattern _),
    by decide, rfl⟩

theorem decided_operatorPattern : operatorPattern.Decided :=
  ⟨fun _ => settled_infixed (settled_among _) (settled_among _) (settled_among _), by decide, rfl⟩

/-! ## What the patterns take -/

section Takes

variable {A S B : SyntaxTree → Prop}

theorem takesAll_butFor {p : Pattern} (h : Takes p = one A) :
    TakesAll (butFor p) = one fun t => ¬ A t := by
  funext u v
  rw [butFor, TakesAll, takesAll_singleton, Takes, Takes, h]
  refine propext ⟨?_, ?_⟩
  · rintro ⟨_, _, rfl, ⟨rfl, none⟩, t, rfl, -⟩
    exact ⟨t, rfl, fun fit => none [t] v rfl ⟨t, rfl, fit⟩⟩
  · rintro ⟨t, rfl, unfit⟩
    refine ⟨[], [t], rfl, ⟨rfl, ?_⟩, t, rfl, rfl⟩
    rintro _ w eq ⟨s, rfl, fit⟩
    cases eq
    exact unfit fit

theorem takesAny_singleton (o : List Pattern) : TakesAny [o] = (TakesAll o : Span Unit) := by
  funext u v
  exact propext (or_iff_left id)

variable {u v : List SyntaxTree} {t : SyntaxTree}

theorem forall_of_times_one {k : Nat} (h : times (one A) k u v) : u.length = k ∧ ∀ t ∈ u, A t := by
  induction k generalizing u with
  | zero =>
    rw [h]
    exact ⟨rfl, nofun⟩
  | succ k ih =>
    obtain ⟨_, w, rfl, ⟨t, rfl, fit⟩, later⟩ := h
    obtain ⟨length, fits⟩ := ih later
    exact ⟨by simp [length], forall_mem_cons.2 ⟨fit, fits⟩⟩

theorem forall_of_takes_butFor {p : Pattern} (h : Takes p = one A) {min max : Nat}
    (taken : Takes (.choice [butFor p] min max none) u v) :
    min ≤ u.length ∧ u.length ≤ max ∧ ∀ t ∈ u, ¬ A t := by
  rw [Takes, takesAny_singleton, takesAll_butFor h] at taken
  obtain ⟨k, low, high, taken⟩ := taken
  obtain ⟨rfl, unfit⟩ := forall_of_times_one taken
  exact ⟨low, high, unfit⟩

theorem takesAll_of_within {o : List Pattern}
    (h : Takes (.within none [.choice [o] 1 1 none] none) [t] []) : TakesAll o t.children [] := by
  obtain ⟨_, eq, -, -, h⟩ := h
  cases eq
  rwa [takesAll_singleton, Takes, takesAny_singleton, between_one] at h

theorem exists_of_takes_infixed {before sign after : Pattern} (hb : Takes before = one A)
    (hs : Takes sign = one S) (ha : Takes after = one B) (h : Takes (infixed before sign after) [t] []) :
    ∃ xs e y, t.children = xs ++ [e, y] ∧ xs ≠ [] ∧ (∀ x ∈ xs, ¬ A x) ∧ S e ∧ ¬ B y := by
  obtain ⟨xs, _, eq, first, _, ys, rfl, sign, last⟩ := takesAll_of_within h
  rw [hs] at sign
  rw [takesAll_singleton] at last
  obtain ⟨e, rfl, sign⟩ := sign
  obtain ⟨low, -, unfit⟩ := forall_of_takes_butFor hb first
  obtain ⟨low', high', unfit'⟩ := forall_of_takes_butFor ha last
  obtain ⟨y, rfl⟩ := length_eq_one_iff.1 (le_antisymm high' low')
  exact ⟨xs, e, y, eq, length_pos_iff.1 low, unfit, sign, unfit' y mem_cons_self⟩

theorem concat_of_times {C : Span Unit} {k : Nat} (h : times (seq C (one S)) k u v) :
    u = [] ∨ ∃ w e, u = w ++ [e] ∧ S e := by
  induction k generalizing u with
  | zero => exact .inl h
  | succ k ih =>
    obtain ⟨_, w, rfl, ⟨x, _, rfl, -, e, rfl, sign⟩, later⟩ := h
    rcases ih later with rfl | ⟨w, e', rfl, sign'⟩
    · exact .inr ⟨x, e, append_nil _, sign⟩
    · exact .inr ⟨x ++ [e] ++ w, e', (append_assoc _ _ _).symm, sign'⟩

theorem exists_of_takes_listed {sign : Pattern} (hs : Takes sign = one S)
    (h : Takes (listed sign) [t] []) :
    ∃ xs e ys, t.children = xs ++ e :: ys ∧ S e ∧ (ys = [] ∨ ∃ y, ys = [y] ∧ ¬ S y) := by
  obtain ⟨xs, _, eq, -, _, _, rfl, sign, _, ys, rfl, more, last⟩ := takesAll_of_within h
  rw [hs] at sign
  rw [takesAll_singleton] at last
  rw [Takes, takesAny_singleton, TakesAll, takesAll_singleton, hs] at more
  obtain ⟨e, rfl, sign⟩ := sign
  obtain ⟨-, high, unfit⟩ := forall_of_takes_butFor hs last
  have ends : ys = [] ∨ ∃ y, ys = [y] ∧ ¬ S y := by
    rcases Nat.le_one_iff_eq_zero_or_eq_one.1 high with none | one
    · exact .inl (length_eq_zero_iff.1 none)
    · obtain ⟨y, rfl⟩ := length_eq_one_iff.1 one
      exact .inr ⟨y, rfl, unfit y mem_cons_self⟩
  obtain ⟨k, -, -, more⟩ := more
  rcases concat_of_times more with rfl | ⟨w, e', rfl, sign'⟩
  · exact ⟨xs, e, ys, eq, sign, ends⟩
  · exact ⟨xs ++ [e] ++ w, e', ys, by simpa using eq, sign', ends⟩

theorem leafFits_some (k : Kind) (v : Text) (t : SyntaxTree) :
    leafFits (some k) (some v) t = (t.kind == k && t.isText v) := by
  cases t with
  | leaf i l => simp [leafFits, kindFits, isLeaf]
  | node i k' cs => simp [leafFits, isText, value?, token?]

theorem takes_tokenPattern (k : Kind) (v : Text) :
    Takes (tokenPattern (some k, v)) = one fun t : SyntaxTree => isOneOf [(k, v)] t = true := by
  rw [tokenPattern, Takes]
  simp [leafFits_some, isOneOf]

theorem any_kinded (tokens : List (Kind × Text)) (t : SyntaxTree) :
    ((kinded tokens).any fun token => leafFits token.1 (some token.2) t) = isOneOf tokens t := by
  rw [kinded, any_map]
  exact congrArg tokens.any (funext fun token => leafFits_some token.1 token.2 t)

theorem takes_among (tokens : List (Option Kind × Text)) :
    Takes (among tokens) = one fun t : SyntaxTree =>
      (tokens.any fun token => leafFits token.1 (some token.2) t) = true := by
  rw [among, Takes, between_one]
  induction tokens with
  | nil =>
    funext u v
    exact propext ⟨nofun, fun ⟨_, _, h⟩ => nomatch h⟩
  | cons token tokens ih =>
    funext u v
    rw [map_cons, TakesAny, ih, takesAll_singleton, tokenPattern, Takes]
    simp only [one, any_cons, Bool.or_eq_true, and_or_left, exists_or]

end Takes

/-! ## Which fixer recognises a node -/

theorem isOneOf_bare {α : Type} (tokens : List (Kind × Text)) (t : Tree α) :
    isOneOf tokens t.bare = isOneOf tokens t := by
  simp [isOneOf]

theorem exists_leaf_of_isOneOf {tokens : List (Kind × Text)} {t : SyntaxTree}
    (h : isOneOf tokens t = true) : ∃ l, t = .leaf () l ∧ (l.kind, l.value.shown) ∈ tokens := by
  obtain ⟨⟨k, v⟩, mem, h⟩ := any_eq_true.1 h
  obtain ⟨kind, text⟩ := Bool.and_eq_true_iff.1 h
  cases t with
  | node i k cs => cases text
  | leaf i l =>
    obtain ⟨k', value, _⟩ := l
    cases value with
    | text v' =>
      have kind : k' = k := by simpa [Tree.kind] using kind
      have text : v' = v := by simpa [isText, value?, token?, Value.is] using text
      rw [← kind, ← text] at mem
      exact ⟨_, rfl, mem⟩
    | number n | absent => cases text

theorem isOneOf_eq_false {tokens others : List (Kind × Text)} {t : SyntaxTree}
    (h : isOneOf tokens t = true)
    (apart : ∀ k ∈ tokens.map Prod.fst, k ∉ others.map Prod.fst) : isOneOf others t = false := by
  refine Bool.eq_false_iff.2 fun other => ?_
  obtain ⟨l, rfl, mem⟩ := exists_leaf_of_isOneOf h
  obtain ⟨_, eq, mem'⟩ := exists_leaf_of_isOneOf other
  cases eq
  exact apart _ (mem_map_of_mem mem) (mem_map_of_mem mem')

/-- The fixers for spacing. -/
inductive Spacer where
  | comma
  | equal
  | operator
deriving DecidableEq, Repr

namespace Spacer

def fixer : Spacer → Fixer
  | comma => wsComma
  | equal => wsEqual
  | operator => wsOperator

def pattern : Spacer → Pattern
  | comma => commaPattern
  | equal => equalPattern
  | operator => operatorPattern

def tokens : Spacer → List (Kind × Text)
  | comma => commas
  | equal => equals
  | operator => operators

theorem pattern_fixer (r : Spacer) : r.fixer.pattern = some r.pattern := by
  obtain ⟨comma, equal, operator⟩ := spacing_patterns
  cases r with
  | comma => exact comma
  | equal => exact equal
  | operator => exact operator

theorem decided (r : Spacer) : r.pattern.Decided := by
  cases r with
  | comma => exact decided_commaPattern
  | equal => exact decided_equalPattern
  | operator => exact decided_operatorPattern

variable {t : SyntaxTree}

theorem exists_of_recognises_comma (h : comma.pattern.recognises t = true) :
    ∃ xs e ys, t.children = xs ++ e :: ys ∧ isOneOf [Fixes.comma] e = true ∧
      (ys = [] ∨ ∃ y, ys = [y]) := by
  obtain ⟨xs, e, ys, eq, sign, last⟩ := exists_of_takes_listed (takes_tokenPattern .comma [','])
    ((recognises_iff decided_commaPattern t).1 h)
  exact ⟨xs, e, ys, eq, sign, last.imp_right fun ⟨y, eq, _⟩ => ⟨y, eq⟩⟩

theorem exists_of_recognises_equal (h : equal.pattern.recognises t = true) :
    ∃ xs e y, t.children = xs ++ [e, y] ∧ xs ≠ [] ∧ (∀ x ∈ xs, isOneOf equals x = false) ∧
      isOneOf equals e = true ∧ isOneOf equals y = false := by
  have takes := takes_tokenPattern .equal ['=']
  obtain ⟨xs, e, y, eq, some, before, sign, after⟩ := exists_of_takes_infixed takes takes takes
    ((recognises_iff decided_equalPattern t).1 h)
  exact ⟨xs, e, y, eq, some, fun x hx => Bool.eq_false_iff.2 (before x hx), sign,
    Bool.eq_false_iff.2 after⟩

theorem exists_of_recognises_operator (h : operator.pattern.recognises t = true) :
    ∃ xs e y, t.children = xs ++ [e, y] ∧ isOneOf operators e = true ∧
      (∀ c ∈ t.children, isOneOf [Fixes.comma] c = false) ∧
      xs ≠ [] ∧ ∀ x ∈ xs, isOneOf operators x = false := by
  obtain ⟨xs, e, y, eq, some, before, sign, after⟩ := exists_of_takes_infixed (takes_among _)
    (takes_among _) (takes_among _) ((recognises_iff decided_operatorPattern t).1 h)
  simp only [any_append, any_kinded, Bool.or_eq_true, not_or] at before sign after
  have others : ∀ {c : SyntaxTree}, ¬ isOneOf (operators ++ [Fixes.comma]) c = true →
      isOneOf operators c = false ∧ isOneOf [Fixes.comma] c = false := by
    intro c none
    rw [isOneOf, any_append, Bool.or_eq_true, not_or] at none
    exact none.imp Bool.eq_false_iff.2 Bool.eq_false_iff.2
  refine ⟨xs, e, y, eq, sign, fun c hc => ?_, some, fun x hx => (others (before x hx).1).1⟩
  rw [eq, mem_append, mem_pair] at hc
  rcases hc with hc | rfl | rfl
  · exact (others (before c hc).1).2
  · exact isOneOf_eq_false sign (by decide)
  · exact (others after).2

theorem exists_sign_of_recognises (r : Spacer) (h : r.pattern.recognises t = true) :
    ∃ e ∈ t.children, IsLone Language.isSign e := by
  have lone : ∀ {tokens : List (Kind × Text)} {xs ys : List SyntaxTree} {e : SyntaxTree},
      t.children = xs ++ e :: ys → isOneOf tokens e = true →
      (∀ k ∈ tokens.map Prod.fst, Language.isSign k = true) →
      ∃ e ∈ t.children, IsLone Language.isSign e := by
    intro tokens xs ys e eq token signs
    obtain ⟨l, rfl, mem⟩ := exists_leaf_of_isOneOf token
    exact ⟨_, eq ▸ mem_append_right xs mem_cons_self, l, rfl, signs _ (mem_map_of_mem mem)⟩
  cases r with
  | comma =>
    obtain ⟨xs, e, ys, eq, sign, -⟩ := exists_of_recognises_comma h
    exact lone eq sign (by decide)
  | equal =>
    obtain ⟨xs, e, y, eq, -, -, sign, -⟩ := exists_of_recognises_equal h
    exact lone eq sign (by decide)
  | operator =>
    obtain ⟨xs, e, y, eq, sign, -⟩ := exists_of_recognises_operator h
    exact lone eq sign (by decide)

def Unmixed (t : SyntaxTree) : Prop :=
  ∀ n ∈ t.nodes, ∀ r r' : Spacer, r.pattern.recognises n = true → r'.pattern.recognises n = true → r = r'

theorem eq_of_children {xs xs' : List SyntaxTree} {e e' y y' : SyntaxTree}
    (eq : t.children = xs ++ [e, y]) (eq' : t.children = xs' ++ [e', y']) : e = e' := by
  have same : xs ++ [e] ++ [y] = xs' ++ [e'] ++ [y'] := by simpa using eq.symm.trans eq'
  obtain ⟨front, -⟩ := append_inj' same rfl
  exact (cons.inj (append_inj' front rfl).2).1

theorem eq_of_recognises
    (apart : ∀ xs e y, t.children = xs ++ [e, y] → isOneOf equals e = true →
      isOneOf [Fixes.comma] y = false) {r r' : Spacer} (h : r.pattern.recognises t = true)
    (h' : r'.pattern.recognises t = true) : r = r' := by
  have commaEqual : comma.pattern.recognises t = true → equal.pattern.recognises t = true → False := by
    intro h h'
    obtain ⟨xs, e, ys, eq, sign, last⟩ := exists_of_recognises_comma h
    obtain ⟨xs', e', y', eq', -, -, sign', -⟩ := exists_of_recognises_equal h'
    rcases last with rfl | ⟨y, rfl⟩
    · have other := apart xs' e' y' eq' sign'
      have same : e = y' := by simpa using congrArg getLast? (eq.symm.trans eq')
      rw [← same, sign] at other
      cases other
    · rw [← eq_of_children eq eq', isOneOf_eq_false sign (by decide)] at sign'
      cases sign'
  have commaOperator : comma.pattern.recognises t = true → operator.pattern.recognises t = true →
      False := by
    intro h h'
    obtain ⟨xs, e, ys, eq, sign, -⟩ := exists_of_recognises_comma h
    obtain ⟨-, -, -, -, -, none, -⟩ := exists_of_recognises_operator h'
    rw [none e (eq ▸ mem_append_right xs mem_cons_self)] at sign
    cases sign
  have equalOperator : equal.pattern.recognises t = true → operator.pattern.recognises t = true →
      False := by
    intro h h'
    obtain ⟨xs, e, y, eq, -, -, sign, -⟩ := exists_of_recognises_equal h
    obtain ⟨xs', e', y', eq', sign', -⟩ := exists_of_recognises_operator h'
    rw [← eq_of_children eq eq', isOneOf_eq_false sign (by decide)] at sign'
    cases sign'
  cases r with
  | comma =>
    cases r' with
    | comma => rfl
    | equal => exact (commaEqual h h').elim
    | operator => exact (commaOperator h h').elim
  | equal =>
    cases r' with
    | comma => exact (commaEqual h' h).elim
    | equal => rfl
    | operator => exact (equalOperator h h').elim
  | operator =>
    cases r' with
    | comma => exact (commaOperator h' h).elim
    | equal => exact (equalOperator h' h).elim
    | operator => rfl

section Programs

variable {g : Grammar} {shape : Shape}

/-- **No node of a program is recognised by two of the fixers.** -/
theorem unmixed_of_derives (hg : g ∈ Language.grammars) (h : Derives g shape g.start t) : Unmixed t := by
  intro n hn r r' first second
  refine eq_of_recognises (fun xs e y eq sign => ?_) first second
  have chain := Language.isChain_equal_comma hg h n hn
  rw [eq, isChain_append] at chain
  have apart := (isChain_cons_cons.1 chain.2.1).1
  refine Bool.eq_false_iff.2 fun comma => apart ⟨?_, ?_⟩
  · obtain ⟨l, rfl, mem⟩ := exists_leaf_of_isOneOf sign
    exact ⟨l, rfl, beq_iff_eq.2 (Prod.mk.inj (mem_singleton.1 mem)).1⟩
  · obtain ⟨l, rfl, mem⟩ := exists_leaf_of_isOneOf comma
    exact ⟨l, rfl, beq_iff_eq.2 (Prod.mk.inj (mem_singleton.1 mem)).1⟩

/-- **A whole program is recognised by none of the fixers.** -/
theorem not_recognises_root (hg : g ∈ Language.grammars) (h : Derives g shape g.start t) (r : Spacer) :
    r.pattern.recognises t = false := by
  refine Bool.eq_false_iff.2 fun recognised => ?_
  obtain ⟨e, mem, sign⟩ := r.exists_sign_of_recognises recognised
  exact Language.not_isSign_of_root hg h e mem sign

end Programs

end Spacer

end Fixes

end Retouch
