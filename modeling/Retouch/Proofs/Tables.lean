import Retouch.Grammar.Tables
import Retouch.Proofs.FirstSets

/-!
# Parsing tables keep their labels

Numbering a label adds at most one entry to the tables and changes none (`number_spec`), so that the
numbers on arcs and in first sets keep their meaning while the tables of all rules are made.  In the
finished tables a first set has exactly the numbers of the rule's first labels, and the states have the
arcs of the rule's automaton (`ofText_spec`).
-/

namespace Retouch.Grammar

open List OrderedMap

/-! ## Numbered labels -/

variable {g g' : Grammar} {label : Label} {i : Nat}

/-- What a label of the tables was made for. -/
inductive Origin where
  | keyword (word : Text)
  | token (kind : Kind)
  | symbol (name : Text)
deriving DecidableEq, Repr

def Origin.label? (g : Grammar) : Origin → Option Nat
  | keyword word => get? g.keywords word
  | token kind => get? g.tokens kind
  | symbol name => get? g.symbolLabels name

def Origin.entry? (g : Grammar) : Origin → Option (Kind × Option Text)
  | keyword word => some (Kind.name, some word)
  | token kind => some (kind, none)
  | symbol name => (g.symbol? name).map fun k => (k, none)

/-- The labels of the first tables are found in the second ones, under the same numbers. -/
structure Extends (g g' : Grammar) : Prop where
  symbols : g'.symbols = g.symbols
  label : ∀ (o : Origin) i, o.label? g = some i → o.label? g' = some i

/-- Every label but the first, which marks final states, was made for one thing, which stands in its
place. -/
structure Labelled (g : Grammar) : Prop where
  zero : ∃ word : Text, g.labels[0]? = some (0, some word)
  label : ∀ (o : Origin) i, o.label? g = some i →
    0 < i ∧ ∃ e, o.entry? g = some e ∧ g.labels[i]? = some e
  origin : ∀ i, 0 < i → i < g.labels.length → ∃ o : Origin, o.label? g = some i
  unique : ∀ (o o' : Origin) i, o.label? g = some i → o'.label? g = some i → o = o'
  tokenKind : ∀ k i, get? g.tokens k = some i → k ≤ Kind.firstSymbol

theorem Labelled.nonempty (h : Labelled g) : 0 < g.labels.length :=
  (List.getElem?_eq_some_iff.1 h.zero.choose_spec).1

theorem Labelled.lt_length (h : Labelled g) {o : Origin} (hi : o.label? g = some i) :
    i < g.labels.length := by
  obtain ⟨-, e, -, entry⟩ := h.label o i hi
  exact (List.getElem?_eq_some_iff.1 entry).1

theorem Labelled.keyword (h : Labelled g) (w : Text) (i : Nat)
    (hi : get? g.keywords w = some i) : 0 < i ∧ g.labels[i]? = some (Kind.name, some w) := by
  obtain ⟨pos, _, ⟨⟩, entry⟩ := h.label (.keyword w) i hi
  exact ⟨pos, entry⟩

theorem Labelled.token (h : Labelled g) (k : Kind) (i : Nat)
    (hi : get? g.tokens k = some i) : 0 < i ∧ g.labels[i]? = some (k, none) := by
  obtain ⟨pos, _, ⟨⟩, entry⟩ := h.label (.token k) i hi
  exact ⟨pos, entry⟩

theorem Labelled.symbol (h : Labelled g) (name : Text) (i : Nat)
    (hi : get? g.symbolLabels name = some i) :
    0 < i ∧ ∃ k, get? g.symbols name = some k ∧ g.labels[i]? = some (k, none) := by
  obtain ⟨pos, _, found, entry⟩ := h.label (.symbol name) i hi
  obtain ⟨k, hk, rfl⟩ := Option.map_eq_some_iff.1 found
  exact ⟨pos, k, hk, entry⟩

theorem labelled_empty (symbols : OrderedMap Text Kind) : Labelled { symbols } := by
  have empty : ∀ (o : Origin) i, o.label? { symbols } ≠ some i := by
    intro o i
    cases o <;> exact nofun
  exact ⟨⟨_, rfl⟩, fun o i hi => absurd hi (empty o i),
    fun i pos lt => absurd pos (not_lt.2 (Nat.le_of_lt_succ lt)),
    fun o _ i hi => absurd hi (empty o i), fun k i hi => absurd hi (empty (.token k) i)⟩

def Numbered (g : Grammar) (label : Label) (i : Nat) : Prop :=
  match meaning g.symbols label with
  | .ok (.symbol name _) => get? g.symbolLabels name = some i
  | .ok (.token k) => get? g.tokens k = some i
  | .ok (.keyword w) => get? g.keywords w = some i
  | .error _ => False

def Meaning.origin : Meaning → Origin
  | symbol name _ => .symbol name
  | token k => .token k
  | keyword w => .keyword w

theorem numbered_iff : Numbered g label i ↔
    ∃ m, meaning g.symbols label = .ok m ∧ m.origin.label? g = some i := by
  unfold Numbered
  cases meaning g.symbols label with
  | error e => simp
  | ok m => cases m <;> simp [Meaning.origin, Origin.label?]

theorem Extends.refl (g : Grammar) : Extends g g := ⟨rfl, fun _ _ h => h⟩

theorem Extends.trans {a b c : Grammar} (h : Extends a b) (h' : Extends b c) : Extends a c :=
  ⟨h'.symbols.trans h.symbols, fun o i hi => h'.label o i (h.label o i hi)⟩

theorem Numbered.mono (h : Extends g g') (hn : Numbered g label i) : Numbered g' label i := by
  obtain ⟨m, meant, hi⟩ := numbered_iff.1 hn
  exact numbered_iff.2 ⟨m, h.symbols ▸ meant, h.label _ i hi⟩

theorem Numbered.unique {j : Nat} (hi : Numbered g label i) (hj : Numbered g label j) : i = j := by
  obtain ⟨m, meant, hi⟩ := numbered_iff.1 hi
  obtain ⟨m', meant', hj⟩ := numbered_iff.1 hj
  cases meant.symm.trans meant'
  exact Option.some.inj (hi.symm.trans hj)

theorem Numbered.pos (hl : Labelled g) (h : Numbered g label i) : 0 < i := by
  obtain ⟨m, -, hi⟩ := numbered_iff.1 h
  exact (hl.label _ i hi).1

theorem Numbered.lt_length (hl : Labelled g) (h : Numbered g label i) : i < g.labels.length := by
  obtain ⟨m, -, hi⟩ := numbered_iff.1 h
  exact hl.lt_length hi

variable {k : Kind} {symbols : OrderedMap Text Kind} {d : Dfa} {raw : List (Label × Nat)} {name : Label}
  {α β : Type} {names : List Label}

theorem ofTokenName?_le {name : Text} (h : Kind.ofTokenName? name = some k) : k ≤ Kind.firstSymbol := by
  unfold Kind.ofTokenName? at h
  split at h
  · cases h
    exact le_refl _
  · have bound : k < Kind.tokenNames.length := by
      have := findIdx?_eq_some_iff_getElem.1 h
      exact this.1
    exact le_trans (le_of_lt bound) (by decide)

theorem ofOperator?_le {mark : Text} (h : Kind.ofOperator? mark = some k) : k ≤ Kind.firstSymbol := by
  have all : ∀ e ∈ Kind.operators, e.2 ≤ .firstSymbol := by decide
  exact all (mark, k) (mem_of_get? h)

theorem meaning_spec {m : Meaning} :
    meaning symbols label = .ok m → match m with
    | .symbol name k => name = label ∧ get? symbols name = some k
    | .token k => k ≤ Kind.firstSymbol
    | .keyword _ => True := by
  intro h
  unfold meaning at h
  repeat' split at h
  all_goals cases h
  · rename_i found
    exact ⟨rfl, found⟩
  · rename_i found
    exact ofTokenName?_le found
  · trivial
  · rename_i found
    exact ofOperator?_le found

theorem meaning_symbol {name : Text} (h : meaning symbols label = .ok (.symbol name k)) :
    name = label ∧ get? symbols name = some k :=
  meaning_spec h

theorem Numbered.token_or_keyword (other : get? g.symbols label = none)
    (h : Numbered g label i) :
    (∃ w, get? g.keywords w = some i) ∨ ∃ t, get? g.tokens t = some i := by
  obtain ⟨m, meant, hi⟩ := numbered_iff.1 h
  cases m with
  | symbol name k =>
    obtain ⟨rfl, found⟩ := meaning_symbol meant
    rw [other] at found
    cases found
  | token t => exact .inr ⟨t, hi⟩
  | keyword w => exact .inl ⟨w, hi⟩

def Meaning.entry : Meaning → Kind × Option Text
  | symbol _ k | token k => (k, none)
  | keyword w => (Kind.name, some w)

/-- A label was added to the tables. -/
structure Adds (g : Grammar) (m : Meaning) (g' : Grammar) : Prop where
  labels : g'.labels = g.labels ++ [m.entry]
  label : ∀ o : Origin, o.label? g' = if o = m.origin then some g.labels.length else o.label? g

theorem number_cases (h : g.number label = .ok (i, g')) :
    (g'.symbols = g.symbols ∧ g'.states = g.states ∧ g'.entries = g.entries ∧ g'.start = g.start) ∧
    ∃ m, meaning g.symbols label = .ok m ∧ (m.origin.label? g = some i ∧ g' = g ∨
      m.origin.label? g = none ∧ i = g.labels.length ∧ Adds g m g') := by
  obtain ⟨m, hm, h⟩ := bind_eq_ok.1 h
  cases m with
  | symbol name k | token k | keyword word =>
    simp only at h
    split at h
    · rename_i known
      cases h
      exact ⟨⟨rfl, rfl, rfl, rfl⟩, _, hm, .inl ⟨known, rfl⟩⟩
    · rename_i new
      cases h
      refine ⟨⟨rfl, rfl, rfl, rfl⟩, _, hm, .inr ⟨new, rfl, rfl, fun o => ?_⟩⟩
      cases o <;> simp [Origin.label?, Meaning.origin, get?_insert]

/-- Numbering a label keeps the others. -/
theorem number_spec (hl : Labelled g) (h : g.number label = .ok (i, g')) :
    Extends g g' ∧ Labelled g' ∧ Numbered g' label i := by
  obtain ⟨⟨symbols, -⟩, m, hm, ⟨known, rfl⟩ | ⟨new, rfl, added⟩⟩ := number_cases h
  · exact ⟨.refl _, hl, numbered_iff.2 ⟨m, hm, known⟩⟩
  have last : m.origin.label? g' = some g.labels.length := by rw [added.label, if_pos rfl]
  have kept : ∀ (o : Origin) i, o.label? g = some i → o.label? g' = some i := by
    intro o i hi
    rw [added.label, if_neg]
    · exact hi
    · rintro rfl
      rw [new] at hi
      cases hi
  have split : ∀ {o : Origin} {i}, o.label? g' = some i →
      o = m.origin ∧ i = g.labels.length ∨ o.label? g = some i := by
    intro o i hi
    rw [added.label] at hi
    split at hi
    · rename_i same
      exact .inl ⟨same, (Option.some.inj hi).symm⟩
    · exact .inr hi
  have entry : ∀ o : Origin, o.entry? g' = o.entry? g := by
    intro o
    cases o <;> simp [Origin.entry?, symbol?, symbols]
  have stays : ∀ {i : Nat} {e}, g.labels[i]? = some e → g'.labels[i]? = some e := by
    intro i e found
    rw [added.labels, getElem?_append_left (List.getElem?_eq_some_iff.1 found).1, found]
  refine ⟨⟨symbols, kept⟩, ⟨hl.zero.imp fun _ => stays, fun o i hi => ?_, fun i pos lt => ?_,
    fun o o' i hi hi' => ?_, fun k i hi => ?_⟩, numbered_iff.2 ⟨m, symbols ▸ hm, last⟩⟩
  · rw [entry]
    rcases split hi with ⟨rfl, rfl⟩ | hi
    · refine ⟨hl.nonempty, m.entry, ?_, by rw [added.labels]; exact getElem?_concat_length⟩
      cases m with
      | symbol name k =>
        rw [Meaning.origin, Origin.entry?, symbol?, (meaning_symbol hm).2]
        rfl
      | token | keyword => rfl
    · obtain ⟨pos, e, made, found⟩ := hl.label o i hi
      exact ⟨pos, e, made, stays found⟩
  · rw [added.labels, length_append, length_singleton] at lt
    by_cases new : i = g.labels.length
    · exact ⟨m.origin, new ▸ last⟩
    · obtain ⟨o, ho⟩ := hl.origin i pos (by omega)
      exact ⟨o, kept o i ho⟩
  · rcases split hi with ⟨rfl, rfl⟩ | hi <;> rcases split hi' with ⟨rfl, same⟩ | hi'
    · rfl
    · exact absurd (hl.lt_length hi') (lt_irrefl _)
    · exact absurd (hl.lt_length (same ▸ hi)) (lt_irrefl _)
    · exact hl.unique o o' i hi hi'
  · rcases split (o := .token k) hi with ⟨same, -⟩ | hi
    · cases m with
      | symbol | keyword => cases same
      | token =>
        cases same
        exact meaning_spec hm
    · exact hl.tokenKind k i hi

abbrev Numbers : Grammar → Grammar → Prop :=
  Relation.ReflTransGen fun g g' => ∃ label i, g.number label = .ok (i, g')

theorem Numbers.spec (h : Numbers g g') (hl : Labelled g) : Extends g g' ∧ Labelled g' := by
  induction h with
  | refl => exact ⟨.refl g, hl⟩
  | tail _ step ih =>
    obtain ⟨_, _, step⟩ := step
    obtain ⟨ext, labelled, -⟩ := number_spec ih.2 step
    exact ⟨ih.1.trans ext, labelled⟩

theorem Numbers.tables (h : Numbers g g') : g'.symbols = g.symbols ∧ g'.states = g.states ∧
    g'.entries = g.entries ∧ g'.start = g.start := by
  induction h with
  | refl => exact ⟨rfl, rfl, rfl, rfl⟩
  | tail _ step ih =>
    obtain ⟨_, _, step⟩ := step
    obtain ⟨⟨symbols, states, entries, start⟩, -⟩ := number_cases step
    exact ⟨symbols.trans ih.1, states.trans ih.2.1, entries.trans ih.2.2.1, start.trans ih.2.2.2⟩

/-! ## Tables of rules -/

/-- The arcs of a state of the automaton `d` with their labels numbered. -/
def ArcsNumbered (g : Grammar) (d : Dfa) (raw : List (Label × Nat)) (arcs : State) : Prop :=
  List.Forall₂ (fun a b => Numbered g a.1 b.1 ∧ b.2 = d.placeOf a.2) raw arcs

/-- A state of the automaton `d` in the tables: its arcs, and the mark of a final state. -/
def StateNumbered (g : Grammar) (d : Dfa) (s : Nat × DfaState) (state : State) : Prop :=
  ∃ arcs, ArcsNumbered g d s.2.arcs arcs ∧
    state = if s.2.final then arcs ++ [(0, d.placeOf s.1)] else arcs

/-- A table holds the states of an automaton and the numbers of first labels. -/
structure Described (g : Grammar) (d : Dfa) (first : List Label) (table : Entry) : Prop where
  states : List.Forall₂ (StateNumbered g d) d table.states
  label_of_first : ∀ j ∈ table.first, ∃ l ∈ first, Numbered g l j
  first_of_label : ∀ l ∈ first, ∃ j ∈ table.first, Numbered g l j

theorem ArcsNumbered.mono (h : Extends g g') {arcs : State} (ha : ArcsNumbered g d raw arcs) :
    ArcsNumbered g' d raw arcs :=
  .imp (fun _ _ hab => ⟨hab.1.mono h, hab.2⟩) ha

theorem StateNumbered.mono (h : Extends g g') {s : Nat × DfaState} {state : State}
    (hs : StateNumbered g d s state) : StateNumbered g' d s state := by
  obtain ⟨arcs, ha, he⟩ := hs
  exact ⟨arcs, ha.mono h, he⟩

theorem Described.mono (h : Extends g g') {first : List Label} {table : Entry}
    (hd : Described g d first table) : Described g' d first table := by
  refine ⟨.imp (fun _ _ hs => hs.mono h) hd.states, fun j hj => ?_, fun l hl => ?_⟩
  · obtain ⟨l, hl, hn⟩ := hd.label_of_first j hj
    exact ⟨l, hl, hn.mono h⟩
  · obtain ⟨j, hj, hn⟩ := hd.first_of_label l hl
    exact ⟨j, hj, hn.mono h⟩

theorem numberArcs_spec {arcs : State} (hl : Labelled g) (h : numberArcs d raw g = .ok (arcs, g')) :
    Numbers g g' ∧ ArcsNumbered g' d raw arcs := by
  induction raw generalizing g arcs with
  | nil =>
    cases h
    exact ⟨.refl, .nil⟩
  | cons arc raw ih =>
    obtain ⟨⟨i, _⟩, h₁, h⟩ := bind_eq_ok.1 h
    obtain ⟨⟨_, _⟩, h₂, h⟩ := bind_eq_ok.1 h
    cases h
    obtain ⟨-, hl₁, numbered⟩ := number_spec hl h₁
    obtain ⟨steps, arcs⟩ := ih hl₁ h₂
    exact ⟨.head ⟨_, _, h₁⟩ steps, .cons ⟨numbered.mono (steps.spec hl₁).1, rfl⟩ arcs⟩

theorem numberStates_spec {todo : Dfa} {states : List State} (hl : Labelled g)
    (h : numberStates d todo g = .ok (states, g')) :
    Numbers g g' ∧ Forall₂ (StateNumbered g' d) todo states := by
  induction todo generalizing g states with
  | nil =>
    cases h
    exact ⟨.refl, .nil⟩
  | cons s todo ih =>
    obtain ⟨⟨arcs, _⟩, h₁, h⟩ := bind_eq_ok.1 h
    obtain ⟨⟨_, _⟩, h₂, h⟩ := bind_eq_ok.1 h
    cases h
    obtain ⟨steps₁, arcs₁⟩ := numberArcs_spec hl h₁
    have hl₁ := (steps₁.spec hl).2
    obtain ⟨steps₂, states₂⟩ := ih hl₁ h₂
    exact ⟨steps₁.trans steps₂, .cons ⟨arcs, arcs₁.mono (steps₂.spec hl₁).1, rfl⟩ states₂⟩

theorem numberFirst_spec {labels : List Label} {first : List Nat} (hl : Labelled g)
    (h : numberFirst labels g = .ok (first, g')) : Numbers g g' ∧
      (∀ j ∈ first, ∃ l ∈ labels, Numbered g' l j) ∧ ∀ l ∈ labels, ∃ j ∈ first, Numbered g' l j := by
  induction labels generalizing g first with
  | nil =>
    cases h
    exact ⟨.refl, nofun, nofun⟩
  | cons label labels ih =>
    obtain ⟨⟨i, _⟩, h₁, h⟩ := bind_eq_ok.1 h
    obtain ⟨⟨rest, _⟩, h₂, h⟩ := bind_eq_ok.1 h
    cases h
    obtain ⟨-, hl₁, numbered⟩ := number_spec hl h₁
    obtain ⟨steps, from₂, has₂⟩ := ih hl₁ h₂
    have numbered := numbered.mono (steps.spec hl₁).1
    have mem : ∀ j, j ∈ (if rest.contains i then rest else i :: rest) ↔ j = i ∨ j ∈ rest := by
      intro j
      split
      · rename_i hi
        have hi' := contains_iff_mem.1 hi
        exact ⟨.inr, fun hj => hj.elim (fun e => e ▸ hi') id⟩
      · exact mem_cons
    refine ⟨.head ⟨_, _, h₁⟩ steps, fun j hj => ?_, fun l hmem => ?_⟩
    · rcases (mem j).1 hj with rfl | hj
      · exact ⟨label, mem_cons_self, numbered⟩
      · obtain ⟨l, hmem, hn⟩ := from₂ j hj
        exact ⟨l, mem_cons_of_mem _ hmem, hn⟩
    · rcases mem_cons.1 hmem with rfl | hmem
      · exact ⟨i, (mem i).2 (.inl rfl), numbered⟩
      · obtain ⟨j, hj, hn⟩ := has₂ l hmem
        exact ⟨j, (mem j).2 (.inr hj), hn⟩

variable {automata : Automata} {firsts : OrderedMap Label (List Label)}

def RuleTable (automata : Automata) (firsts : OrderedMap Label (List Label)) (g : Grammar)
    (name : Label) (table : Entry) : Prop :=
  Described g ((get? automata name).getD []) ((get? firsts name).getD []) table

theorem addRule_spec (hl : Labelled g) (h : addRule automata firsts g name = .ok g') :
    Extends g g' ∧ Labelled g' ∧ g'.start = g.start ∧ ∃ table, RuleTable automata firsts g' name table ∧
      g'.states = g.states ++ [table.states] ∧
      g'.entries = insert g.entries ((g.symbol? name).getD 0) table := by
  obtain ⟨⟨states, _⟩, h₁, h⟩ := bind_eq_ok.1 h
  obtain ⟨⟨first, g₂⟩, h₂, h⟩ := bind_eq_ok.1 h
  obtain rfl := (Except.ok.inj h).symm
  obtain ⟨steps₁, states₁⟩ := numberStates_spec hl h₁
  obtain ⟨ext₁, hl₁⟩ := steps₁.spec hl
  obtain ⟨steps₂, from₂, has₂⟩ := numberFirst_spec hl₁ h₂
  obtain ⟨ext₂, hl₂⟩ := steps₂.spec hl₁
  obtain ⟨symbols, states', entries, start⟩ := Numbers.tables (steps₁.trans steps₂)
  have described : RuleTable automata firsts g₂ name ⟨states, first⟩ :=
    ⟨.imp (fun _ _ hs => hs.mono ext₂) states₁, from₂, has₂⟩
  -- the last step leaves the labels as they are
  refine ⟨⟨symbols, (ext₁.trans ext₂).label⟩,
    ⟨hl₂.zero, hl₂.label, hl₂.origin, hl₂.unique, hl₂.tokenKind⟩, start, ⟨states, first⟩, ?_,
    by rw [states'], by rw [entries, symbol?, symbol?, symbols]⟩
  refine .mono ?_ described
  exact ⟨rfl, fun _ _ h => h⟩

/-! ## The tables of all rules -/

/-- Tables whose entries are those of rules, among them the rules `done`. -/
structure Filled (automata : Automata) (firsts : OrderedMap Label (List Label)) (done : List Label)
    (g : Grammar) : Prop where
  labelled : Labelled g
  start : g.start = Kind.firstSymbol
  known : ∀ k table, get? g.entries k = some table →
    ∃ name, get? g.symbols name = some k ∧ RuleTable automata firsts g name table
  present : ∀ name ∈ done, ∀ k, get? g.symbols name = some k →
    ∃ table, get? g.entries k = some table ∧ RuleTable automata firsts g name table

theorem addRule_filled {done : List Label}
    (injective : ∀ a b k, get? g.symbols a = some k →
      get? g.symbols b = some k → a = b) (hk : get? g.symbols name = some k)
    (hf : Filled automata firsts done g) (h : addRule automata firsts g name = .ok g') :
    Filled automata firsts (name :: done) g' := by
  obtain ⟨ext, labelled, start, table, described, -, entries⟩ := addRule_spec hf.labelled h
  rw [symbol?, hk, Option.getD_some] at entries
  refine ⟨labelled, start.trans hf.start, fun k' table' hk' => ?_, fun other hother k' hk' => ?_⟩
  · rw [entries, get?_insert] at hk'
    split at hk'
    · rename_i same
      cases hk'
      exact ⟨name, by rw [ext.symbols, eq_of_beq same, hk], described⟩
    · obtain ⟨other, hsym, hd⟩ := hf.known k' table' hk'
      exact ⟨other, by rw [ext.symbols, hsym], hd.mono ext⟩
  · rw [ext.symbols] at hk'
    rw [entries, get?_insert]
    by_cases same : k' = k
    · subst same
      obtain rfl := injective other name k' hk' hk
      exact ⟨table, if_pos (beq_self_eq_true _), described⟩
    · rw [if_neg (by simpa using same)]
      rcases mem_cons.1 hother with rfl | hother
      · rw [hk] at hk'
        cases hk'
        exact absurd rfl same
      · obtain ⟨table', ht, hd⟩ := hf.present other hother k' hk'
        exact ⟨table', ht, hd.mono ext⟩

variable {l : List α}

theorem foldlM_hands_on {ε : Type} {f : β → α → Except ε β} (I : List α → β → Prop)
    (step : ∀ a rest b b', I (a :: rest) b → f b a = .ok b' → I rest b') {b r : β}
    (h : I l b) (run : l.foldlM f b = .ok r) : I [] r := by
  induction l generalizing b with
  | nil =>
    cases run
    exact h
  | cons a rest ih =>
    obtain ⟨b', hb', run⟩ := bind_eq_ok.1 run
    exact ih (step a rest b b' h hb') run

def numberSymbols (names : List Label) : OrderedMap Text Kind :=
  names.zipIdx.map fun (name, i) => (name, Kind.firstSymbol + i)

theorem mem_numberSymbols (h : (name, k) ∈ numberSymbols names) :
    Kind.firstSymbol ≤ k ∧ names[k - Kind.firstSymbol]? = some name := by
  obtain ⟨⟨n, i⟩, hi, he⟩ := mem_map.1 h
  cases he
  refine ⟨Nat.le_add_right _ _, ?_⟩
  rw [Nat.add_sub_cancel_left]
  exact mk_mem_zipIdx_iff_getElem?.1 hi

theorem keys_numberSymbols (names : List Label) :
    OrderedMap.keys (numberSymbols names) = names := by
  rw [OrderedMap.keys, numberSymbols, map_map]
  exact zipIdx_map_fst 0 names

theorem numberSymbols_injective (a b : Label) (k : Kind)
    (ha : get? (numberSymbols names) a = some k)
    (hb : get? (numberSymbols names) b = some k) : a = b := by
  have ha := (mem_numberSymbols (mem_of_get? ha)).2
  rw [(mem_numberSymbols (mem_of_get? hb)).2] at ha
  exact (Option.some.inj ha).symm

theorem mem_iff_numberSymbols : name ∈ names ↔ ∃ k, get? (numberSymbols names) name = some k := by
  rw [← Option.isSome_iff_exists]
  conv_lhs => rw [← keys_numberSymbols names]
  exact (has_iff_mem_keys _ _).symm

/-- The tables of automata: each rule has a symbol, with a number of its own and a table, and there are
no other symbols and tables. -/
structure TablesOf (automata : Automata) (firsts : OrderedMap Label (List Label)) (g : Grammar) : Prop
    where
  labelled : Labelled g
  start : g.start = Kind.firstSymbol
  atLeast : ∀ name k, get? g.symbols name = some k → Kind.firstSymbol ≤ k
  injective : ∀ a b k, get? g.symbols a = some k →
    get? g.symbols b = some k → a = b
  symbol_iff : ∀ name, (∃ k, get? g.symbols name = some k) ↔
    OrderedMap.has automata name = true
  known : ∀ k table, get? g.entries k = some table →
    ∃ name, get? g.symbols name = some k ∧ RuleTable automata firsts g name table
  present : ∀ name k, get? g.symbols name = some k →
    ∃ table, get? g.entries k = some table ∧ RuleTable automata firsts g name table

theorem TablesOf.get?_symbols_eq_none (t : TablesOf automata firsts g) :
    get? g.symbols name = none ↔ has automata name = false := by
  rw [← Option.not_isSome_iff_eq_none, Option.isSome_iff_exists, t.symbol_iff, Bool.not_eq_true]

theorem TablesOf.exists_automaton (t : TablesOf automata firsts g) {table : Entry}
    (entry : get? g.entries k = some table) : ∃ name d,
      get? g.symbols name = some k ∧ get? automata name = some d ∧
      Described g d ((get? firsts name).getD []) table := by
  obtain ⟨name, hk, described⟩ := t.known k table entry
  obtain ⟨d, hd⟩ : ∃ d, get? automata name = some d :=
    Option.isSome_iff_exists.1 ((t.symbol_iff name).1 ⟨k, hk⟩)
  rw [RuleTable, hd] at described
  exact ⟨name, d, hk, hd, described⟩

theorem ofAutomata_spec {start : Label} (isRule : has automata start = true)
    (h : ofAutomata automata firsts start = .ok g) :
    g.symbols = numberSymbols (start :: (Text.sorted (keys automata)).erase start) ∧
    TablesOf automata firsts g := by
  obtain ⟨names, hn⟩ : ∃ names, start :: (Text.sorted (keys automata)).erase start = names :=
    ⟨_, rfl⟩
  replace h : names.foldlM (addRule automata firsts) { symbols := numberSymbols names } = .ok g := by
    rw [← hn]
    exact h
  have filled : Filled automata firsts [] { symbols := numberSymbols names } :=
    ⟨labelled_empty _, rfl, by simp [get?], by simp⟩
  -- the rules that are done are the first ones
  obtain ⟨symbols, done, all, filled⟩ := foldlM_hands_on (fun rest g => g.symbols = numberSymbols names ∧
    ∃ done, names = reverse done ++ rest ∧ Filled automata firsts done g) (by
      rintro name rest g₀ _ ⟨symbols, done, all, filled⟩ h₁
      obtain ⟨k, hk⟩ : ∃ k, get? g₀.symbols name = some k := by
        rw [symbols, ← mem_iff_numberSymbols, all]
        simp
      refine ⟨(addRule_spec filled.labelled h₁).1.symbols.trans symbols, name :: done, by simp [all], ?_⟩
      exact addRule_filled (symbols ▸ numberSymbols_injective) hk filled h₁) ⟨rfl, [], rfl, filled⟩ h
  refine ⟨by rw [hn, symbols], filled.labelled, filled.start, ?_, ?_, fun name => ?_, filled.known,
    fun name k hk => ?_⟩
  · rw [symbols]
    exact fun name k hk => (mem_numberSymbols (mem_of_get? hk)).1
  · rw [symbols]
    exact numberSymbols_injective
  · rw [symbols, ← mem_iff_numberSymbols, ← hn, mem_cons]
    by_cases same : name = start
    · exact iff_of_true (.inl same) (same ▸ isRule)
    · rw [or_iff_right same, mem_erase_of_ne same, (Text.perm_sorted _).mem_iff, has_iff_mem_keys]
  · have mem := mem_iff_numberSymbols.2 ⟨k, by rw [← symbols, hk]⟩
    rw [all, append_nil] at mem
    exact filled.present name (mem_reverse.1 mem) k hk

/-! ## The tables of a text -/

theorem get?_ofRules (rules : List Rule) (name : Label) : get? (Automata.ofRules rules) name =
    get? (rules.reverse.map fun r => (r.name, simplify r.rhs.dfa)) name := by
  rw [Automata.ofRules, ← foldr_reverse]
  induction rules.reverse with
  | nil => rfl
  | cons r rest ih =>
    rw [foldr_cons, get?_insert, ih, map_cons, get?, get?, lookup_cons]
    cases name == r.name <;> rfl

theorem exists_rule_of_get? {rules : List Rule}
    (h : get? (Automata.ofRules rules) name = some d) :
    ∃ r ∈ rules, r.name = name ∧ d = simplify r.rhs.dfa := by
  rw [get?_ofRules] at h
  obtain ⟨r, hr, same⟩ := mem_map.1 (mem_of_get? h)
  cases same
  exact ⟨r, mem_reverse.1 hr, rfl, rfl⟩

theorem has_ofRules_iff {rules : List Rule} :
    has (Automata.ofRules rules) name = true ↔ ∃ r ∈ rules, r.name = name := by
  rw [has_eq_isSome, get?_ofRules, ← has_eq_isSome, has_iff_mem_keys, OrderedMap.keys]
  simp

/-- The tables of a text are those of the automata of its rules, which have first sets. -/
theorem ofText_spec {text : Text} (h : ofText text = .ok g) : ∃ rules firsts,
    Reader.rules text = .ok rules ∧ firstSets (Automata.ofRules rules) = .ok firsts ∧
    TablesOf (Automata.ofRules rules) firsts g ∧
    ∃ r ∈ rules.head?, ofAutomata (Automata.ofRules rules) firsts r.name = .ok g := by
  obtain ⟨rules, hr, h⟩ := bind_eq_ok.1 h
  obtain ⟨firsts, hf, h⟩ := bind_eq_ok.1 h
  cases rules with
  | nil => cases h
  | cons r rest =>
    have isRule : has (Automata.ofRules (r :: rest)) r.name = true :=
      has_ofRules_iff.2 ⟨r, mem_cons_self, rfl⟩
    exact ⟨_, firsts, hr, hf, (ofAutomata_spec isRule h).2, r, rfl, h⟩

/-! ## Related lists -/

variable {R : α → β → Prop} {l' : List β}

theorem exists_of_forall₂_left (h : Forall₂ R l l') {a : α} (ha : a ∈ l) : ∃ b ∈ l', R a b := by
  induction h with
  | nil => cases ha
  | cons hab _ ih =>
    rcases mem_cons.1 ha with rfl | ha
    · exact ⟨_, mem_cons_self, hab⟩
    · obtain ⟨b, hb, related⟩ := ih ha
      exact ⟨b, mem_cons_of_mem _ hb, related⟩

theorem exists_of_forall₂_right (h : Forall₂ R l l') {b : β} (hb : b ∈ l') : ∃ a ∈ l, R a b :=
  exists_of_forall₂_left (.flip (h)) hb

end Retouch.Grammar
