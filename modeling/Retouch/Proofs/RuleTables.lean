import Retouch.Proofs.LookAhead
import Retouch.Proofs.Predictive
import Retouch.Proofs.Simplifying

/-!
# Tables say what the rules say

A sequence of labels derives from a rule if it comes from a word of the right-hand side by replacing
the names of rules by what derives from them (`Derivable`).  The tables of a grammar hold the automata
of its rules with numbered labels, so where the automata accept the words of the right-hand sides, what
can come for the table of a rule is what derives from the rule, label by label
(`RuleTables.rest_iff`), and the children of a tree stand for a word of the rule of its symbol
(`RuleTables.exists_word_of_derives`).
-/

namespace Retouch.Grammar

open List

open Computability

/-! ## Equality of rules -/

namespace Ebnf

mutual
def same : Ebnf → Ebnf → Bool
  | label l, label l' => l == l'
  | alternatives options, alternatives options' => sameAll options options'
  | sequence e f, sequence e' f' => e.same e' && f.same f'
  | optional e, optional e' | plus e, plus e' | star e, star e' => e.same e'
  | _, _ => false

def sameAll : List Ebnf → List Ebnf → Bool
  | [], [] => true
  | e :: es, e' :: es' => e.same e' && sameAll es es'
  | _, _ => false
end

mutual
theorem same_iff (e e' : Ebnf) : e.same e' = true ↔ e = e' := by
  cases e <;> cases e' <;> simp [same, same_iff, sameAll_iff]

theorem sameAll_iff (es es' : List Ebnf) : sameAll es es' = true ↔ es = es' := by
  cases es <;> cases es' <;> simp [sameAll, same_iff, sameAll_iff]
end

instance : DecidableEq Ebnf := fun e e' => decidable_of_iff _ (same_iff e e')

end Ebnf

deriving instance DecidableEq for Rule

/-! ## Derivations by rules -/

/-- The first labels become the second ones by replacing every name of a rule by what a word of its
right-hand side becomes. -/
inductive Expands (rules : List Rule) : List Label → List Label → Prop
  | nil : Expands rules [] []
  | terminal {l : Label} {w v : List Label} (terminal : ∀ r ∈ rules, r.name ≠ l)
      (rest : Expands rules w v) : Expands rules (l :: w) (l :: v)
  | rule {r : Rule} {inner w u v : List Label} (mem : r ∈ rules) (word : inner ∈ r.rhs.language)
      (inside : Expands rules inner u) (rest : Expands rules w v) :
      Expands rules (r.name :: w) (u ++ v)

variable {rules : List Rule} {v : List Label}

theorem Expands.exists_append {l : Label} {w : List Label} (h : Expands rules (l :: w) v) :
    ∃ u u', v = u ++ u' ∧ Expands rules w u' := by
  cases h with
  | terminal _ rest => exact ⟨[l], _, rfl, rest⟩
  | rule _ _ _ rest => exact ⟨_, _, rfl, rest⟩

theorem Expands.eq_singleton {l : Label} (terminal : ∀ r ∈ rules, r.name ≠ l) (h : Expands rules [l] v) :
    v = [l] := by
  cases h with
  | terminal _ rest => cases rest; rfl
  | rule mem _ _ _ => exact absurd rfl (terminal _ mem)

def Derivable (rules : List Rule) (name : Label) (v : List Label) : Prop :=
  ∃ r ∈ rules, r.name = name ∧ ∃ w ∈ r.rhs.language, Expands rules w v

/-! ## Labels in derivations -/

mutual
def Ebnf.labels : Ebnf → List Label
  | .label l => [l]
  | .alternatives options => Ebnf.labelsAny options
  | .sequence first second => first.labels ++ second.labels
  | .optional e | .plus e | .star e => e.labels

def Ebnf.labelsAny : List Ebnf → List Label
  | [] => []
  | e :: es => e.labels ++ Ebnf.labelsAny es
end

theorem forall_mem_of_mem_kstar {α : Type} {l : Language α} {p : α → Prop}
    (h : ∀ w ∈ l, ∀ a ∈ w, p a) {w : List α} (hw : w ∈ l∗) : ∀ a ∈ w, p a := by
  obtain ⟨_, rfl, inside⟩ := Language.mem_kstar.1 hw
  intro a ha
  obtain ⟨part, mem, ha⟩ := mem_flatten.1 ha
  exact h part (inside part mem) a ha

mutual
theorem Ebnf.mem_labels (e : Ebnf) : ∀ w ∈ e.language, ∀ l ∈ w, l ∈ e.labels := by
  cases e with
  | label l =>
    rintro w rfl l' hl
    exact hl
  | alternatives options => exact Ebnf.mem_labelsAny options
  | sequence first second =>
    rintro _ ⟨u, hu, v, hv, rfl⟩ l hl
    rw [labels, mem_append]
    exact (mem_append.1 hl).imp (first.mem_labels u hu l) (second.mem_labels v hv l)
  | optional e =>
    rintro w (rfl | hw) l hl
    · cases hl
    · exact e.mem_labels w hw l hl
  | plus e =>
    rintro _ ⟨u, hu, v, hv, rfl⟩ l hl
    exact (mem_append.1 hl).elim (e.mem_labels u hu l) (forall_mem_of_mem_kstar e.mem_labels hv l)
  | star e => exact fun w hw => forall_mem_of_mem_kstar e.mem_labels hw

theorem Ebnf.mem_labelsAny (es : List Ebnf) : ∀ w ∈ languageAny es, ∀ l ∈ w, l ∈ labelsAny es := by
  cases es with
  | nil => exact fun w hw => absurd hw (Language.notMem_zero w)
  | cons e es =>
    intro w hw l hl
    rw [labelsAny, mem_append]
    exact hw.imp (e.mem_labels w · l hl) (Ebnf.mem_labelsAny es w · l hl)
end

def terminals (rules : List Rule) : List Label :=
  (rules.flatMap fun r => r.rhs.labels).filter fun l => rules.all fun r => r.name != l

theorem Expands.mem_terminals {w : List Label} (h : Expands rules w v)
    (known : ∀ l ∈ w, l ∈ rules.flatMap fun r => r.rhs.labels) : ∀ l ∈ v, l ∈ terminals rules := by
  induction h with
  | nil => exact nofun
  | terminal terminal _ ih =>
    obtain ⟨first, known⟩ := forall_mem_cons.1 known
    refine forall_mem_cons.2 ⟨mem_filter.2 ⟨first, ?_⟩, ih known⟩
    exact all_eq_true.2 fun r hr => bne_iff_ne.2 (terminal r hr)
  | @rule r _ _ _ _ mem word _ _ ih ih' =>
    intro l hl
    refine (mem_append.1 hl).elim (ih ?_ l) (ih' (forall_mem_cons.1 known).2 l)
    exact fun l hl => mem_flatMap.2 ⟨r, mem, r.rhs.mem_labels _ word l hl⟩

theorem Derivable.mem_terminals {name : Label} (h : Derivable rules name v) :
    ∀ l ∈ v, l ∈ terminals rules := by
  obtain ⟨r, mem, -, w, word, expands⟩ := h
  exact expands.mem_terminals fun l hl => mem_flatMap.2 ⟨r, mem, r.rhs.mem_labels w word l hl⟩

/-! ## Automata of rules -/

/-- A deterministic automaton in which every state is found at its own place. -/
structure Dfa.Placed (d : Dfa) : Prop where
  wellFormed : d.WellFormed
  placeOf_eq : ∀ (i : Nat) e, d[i]? = some e → d.placeOf e.1 = i

theorem Ebnf.placed_simplify_dfa (e : Ebnf) : (simplify e.dfa).Placed := by
  have built := e.build_built Nfa.closed_empty
  have wf : e.dfa.WellFormed :=
    wellFormed_determinise (built.grown.closed Nfa.closed_empty) built.initial.2
  obtain ⟨unified, none⟩ := unifyAll_spec wf (Nat.lt_succ_self _)
  exact ⟨unified.wellFormed, fun i e => placeOf_eq unified.wellFormed none⟩

theorem Ebnf.accepts_simplify_dfa {e : Ebnf} (h : e.Faithful) (w : List Label) :
    (simplify e.dfa).Accepts w ↔ w ∈ e.language := by
  have built := e.build_built Nfa.closed_empty
  have closed := built.grown.closed Nfa.closed_empty
  have wf : e.dfa.WellFormed := wellFormed_determinise closed built.initial.2
  obtain ⟨unified, -⟩ := unifyAll_spec wf (Nat.lt_succ_self _)
  have accepts : e.dfa.Accepts w ↔ _ := accepts_determinise_iff closed built.initial.2 w
  rw [← h.accepted_eq, ← e.path_automaton_iff]
  exact (unified.accepts_iff w).trans accepts

theorem get?_ofRules_of_mem (nodup : (rules.map Rule.name).Nodup) {r : Rule} (hr : r ∈ rules) :
    OrderedMap.get? (Automata.ofRules rules) r.name = some (simplify r.rhs.dfa) := by
  rw [get?_ofRules]
  refine OrderedMap.get?_of_mem ?_ (mem_map.2 ⟨r, mem_reverse.2 hr, rfl⟩)
  rw [OrderedMap.keys, map_map, map_reverse]
  exact nodup_reverse.2 nodup

/-! ## Tables of rules -/

/-- The table of a rule: its symbol, and the states of its automaton with numbered labels. -/
structure TableOf (rules : List Rule) (g : Grammar) (r : Rule) (k : Kind) (table : Entry) : Prop where
  mem : r ∈ rules
  symbol : OrderedMap.get? g.symbols r.name = some k
  entry : OrderedMap.get? g.entries k = some table
  states : List.Forall₂ (StateNumbered g (simplify r.rhs.dfa)) (simplify r.rhs.dfa) table.states

/-- The tables are those of the rules. -/
structure RuleTables (rules : List Rule) (g : Grammar) : Prop where
  labelled : Labelled g
  atLeast : ∀ name k, OrderedMap.get? g.symbols name = some k → Kind.firstSymbol ≤ k
  named : ∀ r ∈ rules, Lexeme.headIs Lexeme.isNameStart r.name = true
  symbols : ∀ name k, OrderedMap.get? g.symbols name = some k → ∃ r ∈ rules, r.name = name
  injective : ∀ a b k, OrderedMap.get? g.symbols a = some k →
    OrderedMap.get? g.symbols b = some k → a = b
  ofRule : ∀ r ∈ rules, ∃ k table, TableOf rules g r k table
  ofEntry : ∀ k table, OrderedMap.get? g.entries k = some table → ∃ r, TableOf rules g r k table

theorem ofText_ruleTables {text : Text} {g : Grammar} (hr : Reader.rules text = .ok rules)
    (hg : ofText text = .ok g) (nodup : (rules.map Rule.name).Nodup) : RuleTables rules g := by
  obtain ⟨_, firsts, hr', -, t, -⟩ := ofText_spec hg
  cases hr.symm.trans hr'
  have symbols := fun name k hk => has_ofRules_iff.1 ((t.symbol_iff name).1 ⟨k, hk⟩)
  have tableOf : ∀ r ∈ rules, ∀ k table, OrderedMap.get? g.symbols r.name = some k →
      OrderedMap.get? g.entries k = some table →
      RuleTable (.ofRules rules) firsts g r.name table → TableOf rules g r k table := by
    intro r hr k table hk entry described
    have states := described.states
    rw [get?_ofRules_of_mem nodup hr, Option.getD_some] at states
    exact ⟨hr, hk, entry, states⟩
  refine ⟨t.labelled, t.atLeast, Reader.rules_nameStart hr, symbols, t.injective, ?_, ?_⟩
  · intro r hr
    obtain ⟨k, hk⟩ := (t.symbol_iff r.name).2 (has_ofRules_iff.2 ⟨r, hr, rfl⟩)
    obtain ⟨table, entry, described⟩ := t.present r.name k hk
    exact ⟨k, table, tableOf r hr k table hk entry described⟩
  · intro k table entry
    obtain ⟨name, hk, described⟩ := t.known k table entry
    obtain ⟨r, hr, rfl⟩ := symbols name k hk
    exact ⟨r, tableOf r hr k table hk entry described⟩

/-! ## Steps of a table -/

section Steps

variable {g : Grammar} {d : Dfa} {table : Entry} {q i j : Nat} {e : Nat × DfaState} {l : Label}

theorem exists_stateNumbered (states : Forall₂ (StateNumbered g d) d table.states)
    (hq : d[q]? = some e) : StateNumbered g d e (table.states.getD q []) := by
  obtain ⟨lt, rfl⟩ := List.getElem?_eq_some_iff.1 hq
  have lt' := states.length_eq ▸ lt
  rw [getD_eq_getElem?_getD, getElem?_eq_getElem lt']
  exact states.get lt lt'

theorem Dfa.Placed.exists_place (placed : d.Placed) {target : Nat}
    (ht : target ∈ OrderedMap.keys d) :
    ∃ e, d[d.placeOf target]? = some e ∧ e.1 = target := by
  obtain ⟨e, he, rfl⟩ := mem_map.1 ht
  obtain ⟨j, hj⟩ := mem_iff_getElem?.1 he
  exact ⟨e, by rw [placed.placeOf_eq j e hj, hj], rfl⟩

theorem final_iff (hl : Labelled g) (placed : d.Placed)
    (states : Forall₂ (StateNumbered g d) d table.states) (hq : d[q]? = some e) :
    table.Final q ↔ e.2.final = true := by
  obtain ⟨arcs, numbered, eq⟩ := exists_stateNumbered states hq
  have unmarked : (0, q) ∉ arcs := by
    intro mark
    obtain ⟨_, -, number, -⟩ := exists_of_forall₂_right numbered mark
    exact absurd (number.pos hl) (lt_irrefl 0)
  rw [Entry.Final, eq]
  split
  · rename_i final
    rw [placed.placeOf_eq q e hq]
    simp [final]
  · rename_i final
    exact iff_of_false unmarked final

theorem next?_of_get? (placed : d.Placed)
    (states : Forall₂ (StateNumbered g d) d table.states)
    (nodup : ∀ state ∈ table.states, (state.map Prod.fst).Nodup) (hq : d[q]? = some e) {target : Nat}
    (arc : OrderedMap.get? e.2.arcs l = some target) :
    ∃ i j e', Numbered g l i ∧ table.next? q i = some j ∧ d[j]? = some e' ∧ e'.1 = target := by
  obtain ⟨_, numbered, eq⟩ := exists_stateNumbered states hq
  have mem := OrderedMap.mem_of_get? arc
  obtain ⟨⟨i, j⟩, hi, number, rfl⟩ := exists_of_forall₂_left numbered mem
  obtain ⟨e', he', rfl⟩ :=
    placed.exists_place (placed.wellFormed.targets e (mem_of_getElem? hq) _ mem)
  have hi : (i, d.placeOf e'.1) ∈ table.states.getD q [] := by
    rw [eq]
    split
    · exact mem_append_left _ hi
    · exact hi
  exact ⟨i, _, e', number, OrderedMap.get?_of_mem (nodup _ (Entry.mem_states hi).2) hi, he', rfl⟩

theorem get?_of_next? (placed : d.Placed)
    (states : Forall₂ (StateNumbered g d) d table.states) (hq : d[q]? = some e) (pos : 0 < i)
    (step : table.next? q i = some j) :
    ∃ l e', Numbered g l i ∧ d[j]? = some e' ∧ OrderedMap.get? e.2.arcs l = some e'.1 := by
  obtain ⟨arcs, numbered, eq⟩ := exists_stateNumbered states hq
  have hi : (i, j) ∈ arcs := by
    have mem := Entry.mem_of_next? step
    rw [eq] at mem
    split at mem
    · rcases mem_append.1 mem with mem | mark
      · exact mem
      · cases mem_singleton.1 mark
        exact absurd pos (lt_irrefl 0)
    · exact mem
  obtain ⟨⟨l, _⟩, arc, number, place⟩ := exists_of_forall₂_right numbered hi
  have he := mem_of_getElem? hq
  obtain ⟨e', he', rfl⟩ := placed.exists_place (placed.wellFormed.targets e he _ arc)
  have place : j = d.placeOf e'.1 := place
  exact ⟨l, e', number, place ▸ he', OrderedMap.get?_of_mem (placed.wellFormed.labels e he) arc⟩

end Steps

/-! ## What can come for a rule -/

namespace RuleTables

variable {rules : List Rule} {g : Grammar} {follow : Kind → List Nat} {rank : Kind → Nat} {r : Rule}
  {k : Kind} {table : Entry} {q i : Nat} {l : Label}

theorem labelOf (t : RuleTables rules g) (tableOf : TableOf rules g r k table)
    (number : Numbered g r.name i) : g.LabelOf k i := by
  have label := number.symbol t.labelled (t.named r tableOf.mem) tableOf.symbol
  exact ⟨by rw [label], t.atLeast _ _ tableOf.symbol⟩

theorem mem_tokenLabels (t : RuleTables rules g) (terminal : ∀ r ∈ rules, r.name ≠ l)
    (number : Numbered g l i) : i ∈ g.tokenLabels := by
  have other : OrderedMap.get? g.symbols l = none := by
    refine Option.eq_none_iff_forall_ne_some.2 fun k hk => ?_
    obtain ⟨r, hr, same⟩ := t.symbols l k hk
    exact terminal r hr same
  rcases number.token_or_keyword other with ⟨w, found⟩ | ⟨k, found⟩
  · exact mem_append_right _ (mem_map.2 ⟨_, OrderedMap.mem_of_get? found, rfl⟩)
  · exact mem_append_left _ (mem_map.2 ⟨_, OrderedMap.mem_of_get? found, rfl⟩)

theorem accepts_iff (d : Dfa) (w : List Label) :
    d.Accepts w ↔ ∃ e, d[0]? = some e ∧ d.AcceptsFrom e.1 w := by
  rw [Dfa.Accepts, head?_eq_getElem?]

variable {v labels : List Nat} {e : Nat × DfaState} {children : List SyntaxTree}

theorem lt_length_of_rest (rest : g.Rest table q v) : q < table.states.length := by
  cases rest with
  | done final => exact (Entry.mem_states final).1
  | token arc | symbol arc => exact (Entry.mem_states (Entry.mem_of_next? arc)).1

section

variable (t : RuleTables rules g) (h : g.LooksAhead follow rank)
include t h

theorem name_of_labelOf (tableOf : TableOf rules g r k table) (hl : g.LabelOf k i)
    (number : Numbered g l i) : l = r.name := by
  by_cases rule : ∃ r' ∈ rules, r'.name = l
  · obtain ⟨r', hr', rfl⟩ := rule
    obtain ⟨k', _, tableOf'⟩ := t.ofRule r' hr'
    have same := (t.labelOf tableOf' number).1.symm.trans hl.1
    exact t.injective _ _ k (same ▸ tableOf'.symbol) tableOf.symbol
  · push Not at rule
    exact absurd hl (h.not_labelOf (t.mem_tokenLabels rule number))

variable (faithful : ∀ r ∈ rules, r.rhs.Faithful)
include faithful

theorem exists_expands (rest : g.Rest table q v)
    (tableOf : TableOf rules g r k table) (hq : (simplify r.rhs.dfa)[q]? = some e) :
    ∃ w u, (simplify r.rhs.dfa).AcceptsFrom e.1 w ∧ Expands rules w u ∧
      Forall₂ (Numbered g) u v := by
  induction rest generalizing r k e with
  | done final =>
    have placed := r.rhs.placed_simplify_dfa
    have final := (final_iff t.labelled placed tableOf.states hq).1 final
    refine ⟨[], [], ⟨e.2, ?_, final⟩, .nil, .nil⟩
    exact placed.wellFormed.state?_iff.2 (mem_of_getElem? hq)
  | token arc label _ ih =>
    have placed := r.rhs.placed_simplify_dfa
    have pos := Nat.pos_of_ne_zero (h.token _ label).1
    obtain ⟨l, e', number, hj, arc⟩ := get?_of_next? placed tableOf.states hq pos arc
    obtain ⟨w, u, accepts, expands, numbered⟩ := ih tableOf hj
    have state := placed.wellFormed.state?_iff.2 (mem_of_getElem? hq)
    refine ⟨l :: w, l :: u, ⟨e.2, e'.1, state, arc, accepts⟩, .terminal ?_ expands,
      .cons number numbered⟩
    rintro r' hr' rfl
    obtain ⟨k', _, tableOf'⟩ := t.ofRule r' hr'
    exact h.not_labelOf label (t.labelOf tableOf' number)
  | symbol arc hl entry inside _ ih ih' =>
    have placed := r.rhs.placed_simplify_dfa
    obtain ⟨l, e', number, hj, arc⟩ :=
      get?_of_next? placed tableOf.states hq (h.pos_of_labelOf hl) arc
    obtain ⟨w, u, accepts, expands, numbered⟩ := ih' tableOf hj
    obtain ⟨r', tableOf'⟩ := t.ofEntry _ _ entry
    obtain rfl := t.name_of_labelOf h tableOf' hl number
    -- the symbol on the arc has a word of its own
    have lt := tableOf'.states.length_eq ▸ lt_length_of_rest inside
    have first := getElem?_eq_getElem lt
    obtain ⟨w', u', accepts', expands', numbered'⟩ := ih tableOf' first
    have word := (Ebnf.accepts_simplify_dfa (faithful r' tableOf'.mem) w').1
        ((accepts_iff _ _).2 ⟨_, first, accepts'⟩)
    have state := placed.wellFormed.state?_iff.2 (mem_of_getElem? hq)
    exact ⟨r'.name :: w, u' ++ u, ⟨e.2, e'.1, state, arc, accepts⟩,
      .rule tableOf'.mem word expands' expands, rel_append numbered' numbered⟩

theorem rest_of_expands {w u : List Label}
    (expands : Expands rules w u) (numbered : Forall₂ (Numbered g) u v)
    (tableOf : TableOf rules g r k table) (hq : (simplify r.rhs.dfa)[q]? = some e)
    (accepts : (simplify r.rhs.dfa).AcceptsFrom e.1 w) : g.Rest table q v := by
  induction expands generalizing v r k table q e with
  | nil =>
    cases numbered
    have placed := r.rhs.placed_simplify_dfa
    obtain ⟨s, state, final⟩ := accepts
    cases state.symm.trans (placed.wellFormed.state?_iff.2 (mem_of_getElem? hq))
    exact .done ((final_iff t.labelled placed tableOf.states hq).2 final)
  | terminal terminal _ ih =>
    have placed := r.rhs.placed_simplify_dfa
    obtain ⟨i, v, number, later, rfl⟩ := forall₂_cons_left_iff.1 numbered
    obtain ⟨s, target, state, arc, accepts⟩ := accepts
    cases state.symm.trans (placed.wellFormed.state?_iff.2 (mem_of_getElem? hq))
    obtain ⟨i', j, e', number', step, hj, rfl⟩ :=
      next?_of_get? placed tableOf.states (h.entry tableOf.entry).labels hq arc
    obtain rfl := number.unique number'
    exact .token step (t.mem_tokenLabels terminal number) (ih later tableOf hj accepts)
  | @rule r' inner w u u' mem word _ _ ih ih' =>
    have placed := r.rhs.placed_simplify_dfa
    obtain ⟨s, target, state, arc, accepts⟩ := accepts
    cases state.symm.trans (placed.wellFormed.state?_iff.2 (mem_of_getElem? hq))
    obtain ⟨i, j, e', number, step, hj, rfl⟩ :=
      next?_of_get? placed tableOf.states (h.entry tableOf.entry).labels hq arc
    obtain ⟨k', _, tableOf'⟩ := t.ofRule r' mem
    obtain ⟨_, first, accepts'⟩ := (accepts_iff _ _).1
      ((Ebnf.accepts_simplify_dfa (faithful r' mem) inner).2 word)
    have before := forall₂_take u.length numbered
    have after := forall₂_drop u.length numbered
    rw [take_left] at before
    rw [drop_left] at after
    rw [← take_append_drop u.length v]
    exact .symbol step (t.labelOf tableOf' number) tableOf'.entry (ih before tableOf' first accepts')
      (ih' after tableOf hj accepts)

/-- **What can come for the table of a rule derives from the rule.** -/
theorem rest_iff (tableOf : TableOf rules g r k table) (v : List Nat) :
    g.Rest table 0 v ↔ ∃ u, Forall₂ (Numbered g) u v ∧ Derivable rules r.name u := by
  constructor
  · intro rest
    have lt := tableOf.states.length_eq ▸ lt_length_of_rest rest
    have first := getElem?_eq_getElem lt
    obtain ⟨w, u, accepts, expands, numbered⟩ := t.exists_expands h faithful rest tableOf first
    have word := (Ebnf.accepts_simplify_dfa (faithful r tableOf.mem) w).1
      ((accepts_iff _ _).2 ⟨_, first, accepts⟩)
    exact ⟨u, numbered, r, tableOf.mem, rfl, w, word, expands⟩
  · rintro ⟨u, numbered, r', mem, name, w, word, expands⟩
    obtain ⟨k', _, tableOf'⟩ := t.ofRule r' mem
    obtain ⟨_, first, accepts⟩ := (accepts_iff _ _).1
      ((Ebnf.accepts_simplify_dfa (faithful r' mem) w).2 word)
    have rest := t.rest_of_expands h faithful expands numbered tableOf' first accepts
    have symbol := tableOf'.symbol
    rw [name, tableOf.symbol] at symbol
    cases symbol
    cases tableOf'.entry.symm.trans tableOf.entry
    exact rest

end

/-! ## Trees of a grammar -/

theorem exists_acceptsFrom (t : RuleTables rules g) (tableOf : TableOf rules g r k table)
    (pos : ∀ i ∈ labels, 0 < i) (hq : (simplify r.rhs.dfa)[q]? = some e) {last : Nat}
    (path : table.run? q labels = some last) (final : table.Final last) :
    ∃ w, (simplify r.rhs.dfa).AcceptsFrom e.1 w ∧ Forall₂ (Numbered g) w labels := by
  have placed := r.rhs.placed_simplify_dfa
  induction labels generalizing q e with
  | nil =>
    cases path
    have final := (final_iff t.labelled placed tableOf.states hq).1 final
    exact ⟨[], ⟨e.2, placed.wellFormed.state?_iff.2 (mem_of_getElem? hq), final⟩, .nil⟩
  | cons i labels ih =>
    obtain ⟨first, later⟩ := forall_mem_cons.1 pos
    obtain ⟨j, step, path⟩ := Option.bind_eq_some_iff.1 path
    obtain ⟨l, e', number, hj, arc⟩ := get?_of_next? placed tableOf.states hq first step
    obtain ⟨w, accepts, numbered⟩ := ih later hj path
    have state := placed.wellFormed.state?_iff.2 (mem_of_getElem? hq)
    exact ⟨l :: w, ⟨e.2, e'.1, state, arc, accepts⟩, .cons number numbered⟩

/-- The tree stands for a label of the rules: it is a token with the number of the label, or it derives
from the symbol that the label names. -/
inductive StandsFor (rules : List Rule) (g : Grammar) (shape : Shape) (l : Label) (tree : SyntaxTree) :
    Prop
  | token {t : Input} {i : Nat} (mem : l ∈ terminals rules) (leaf : tree = t.leaf)
      (label : Parser.classify g t = some i) (number : Numbered g l i)
  | symbol {r : Rule} {k : Kind} (mem : r ∈ rules) (name : r.name = l)
      (symbol : OrderedMap.get? g.symbols l = some k) (derived : Derives g shape k tree)

variable {shape : Shape}

theorem pos_of_spells (h : g.LooksAhead follow rank) (spelled : Spells g shape labels children) :
    ∀ i ∈ labels, 0 < i := by
  induction labels generalizing children with
  | nil => exact nofun
  | cons i labels ih =>
    refine forall_mem_cons.2 ?_
    cases spelled with
    | token label rest =>
      exact ⟨Nat.pos_of_ne_zero (h.token i (classify_mem_tokenLabels label)).1, ih rest⟩
    | symbol hl _ rest => exact ⟨h.pos_of_labelOf hl, ih rest⟩

theorem lt_length_of_run? {last : Nat} (path : table.run? q labels = some last)
    (final : table.Final last) : q < table.states.length := by
  cases labels with
  | nil =>
    cases path
    exact (Entry.mem_states final).1
  | cons i labels =>
    obtain ⟨j, step, -⟩ := Option.bind_eq_some_iff.1 path
    exact (Entry.mem_states (Entry.mem_of_next? step)).1

theorem standsFor_of_spells (t : RuleTables rules g) (h : g.LooksAhead follow rank)
    (spelled : Spells g shape labels children) {w : List Label}
    (numbered : Forall₂ (Numbered g) w labels)
    (known : ∀ l ∈ w, l ∈ rules.flatMap fun r => r.rhs.labels) :
    Forall₂ (StandsFor rules g shape) w children := by
  induction w generalizing labels children with
  | nil =>
    cases numbered
    cases spelled
    exact .nil
  | cons l w ih =>
    obtain ⟨i, labels, number, later, rfl⟩ := forall₂_cons_left_iff.1 numbered
    obtain ⟨mem, knowns⟩ := forall_mem_cons.1 known
    cases spelled with
    | token label rest =>
      refine .cons (.token ?_ rfl label number) (ih rest later knowns)
      refine mem_filter.2 ⟨mem, all_eq_true.2 fun r hr => bne_iff_ne.2 ?_⟩
      rintro rfl
      obtain ⟨k, table, tableOf⟩ := t.ofRule r hr
      exact h.not_labelOf (classify_mem_tokenLabels label) (t.labelOf tableOf number)
    | symbol hl derived rest =>
      obtain ⟨table, entry⟩ := derived.exists_entry
      obtain ⟨r, tableOf⟩ := t.ofEntry _ _ entry
      obtain rfl := t.name_of_labelOf h tableOf hl number
      exact .cons (.symbol tableOf.mem rfl tableOf.symbol derived) (ih rest later knowns)

/-- **The children of a tree stand for a word of the right-hand side of its rule.** -/
theorem exists_word_of_derives (t : RuleTables rules g) (h : g.LooksAhead follow rank)
    (faithful : ∀ r ∈ rules, r.rhs.Faithful) {tree : SyntaxTree} (derived : Derives g shape k tree) :
    ∃ r ∈ rules, OrderedMap.get? g.symbols r.name = some k ∧ ∃ w ∈ r.rhs.language, ∃ children,
      tree = shape.tree k children ∧ Forall₂ (StandsFor rules g shape) w children := by
  cases derived with
  | @intro _ table _ children q entry spelled _ path final =>
    obtain ⟨r, tableOf⟩ := t.ofEntry k table entry
    have lt := tableOf.states.length_eq ▸ lt_length_of_run? path final
    have first := getElem?_eq_getElem lt
    obtain ⟨w, accepts, numbered⟩ := t.exists_acceptsFrom tableOf (pos_of_spells h spelled) first path final
    have word := (Ebnf.accepts_simplify_dfa (faithful r tableOf.mem) w).1
      ((accepts_iff _ _).2 ⟨_, first, accepts⟩)
    refine ⟨r, tableOf.mem, tableOf.symbol, w, word, children, rfl, ?_⟩
    refine t.standsFor_of_spells h spelled numbered fun l hl => ?_
    exact mem_flatMap.2 ⟨r, tableOf.mem, r.rhs.mem_labels w word l hl⟩

end RuleTables

end Retouch.Grammar
