import Retouch.Proofs.ArcConflicts

/-!
# The form of parsing tables

Tables that are made from a grammar text refer to one another without gaps: symbols are numbered one
after the other, arcs carry labels that exist and lead to states that exist, a label that stands for a
symbol finds its table, and each label has one use (`Grammar.WellFormed`).  Most of it follows from what
the making of the tables keeps (`TablesOf`) and from the form of the automata of rules.

Labels can be listed twice for one reason only: the kind at which symbols begin has a name among the
kinds of tokens, so that the start symbol and this kind have labels that look the same
(`WellFormed.nodup_labels_iff`).
-/

namespace Retouch

open List OrderedMap

namespace Grammar

variable {g : Grammar} {automata : Automata} {firsts : OrderedMap Label (List Label)}

/-! ## Symbols and tables in order -/

theorem map_snd_numberSymbols (names : List Label) :
    (numberSymbols names).map Prod.snd = range' Kind.firstSymbol names.length := by
  have places : (numberSymbols names).map Prod.snd =
      (names.zipIdx.map Prod.snd).map (Kind.firstSymbol + ·) := by
    rw [numberSymbols, map_map, map_map]
    rfl
  rw [places, zipIdx_map_snd, map_add_range', add_zero]

variable {i : Nat}

theorem get?_numberSymbols {names : List Label} (nodup : names.Nodup) {name : Label}
    (h : names[i]? = some name) :
    get? (numberSymbols names) name = some (Kind.firstSymbol + i) := by
  refine get?_of_mem (by rwa [keys_numberSymbols]) ?_
  exact mem_map.2 ⟨(name, i), mk_mem_zipIdx_iff_getElem?.2 h, rfl⟩

theorem find?_numberSymbols {names : List Label} (nodup : names.Nodup) (name : Label) (k : Kind) :
    get? (numberSymbols names) name = some k ↔
      ((numberSymbols names).find? fun e => e.2 == k).map Prod.fst = some name := by
  constructor
  · intro h
    have mem := mem_of_get? h
    cases found : (numberSymbols names).find? fun e => e.2 == k with
    | none => exact absurd (beq_self_eq_true k) (find?_eq_none.1 found _ mem)
    | some e =>
      obtain ⟨other, k'⟩ := e
      obtain rfl : k' = k := by simpa using find?_some found
      have here := (mem_numberSymbols (mem_of_find?_eq_some found)).2
      rw [(mem_numberSymbols mem).2] at here
      rw [Option.map_some, Option.some.inj here]
  · intro h
    obtain ⟨⟨other, k'⟩, found, rfl⟩ := Option.map_eq_some_iff.1 h
    obtain rfl : k' = k := by simpa using find?_some found
    exact get?_of_mem (by rwa [keys_numberSymbols]) (mem_of_find?_eq_some found)

theorem nodup_names {start : Label} (nodup : (keys automata).Nodup) :
    (start :: (Text.sorted (keys automata)).erase start).Nodup := by
  have sorted := (Text.perm_sorted _).nodup_iff.2 nodup
  exact nodup_cons.2 ⟨sorted.not_mem_erase, sorted.erase _⟩

theorem ofAutomata_inOrder {start : Label} (nodup : (OrderedMap.keys automata).Nodup)
    (h : ofAutomata automata firsts start = .ok g) :
    OrderedMap.keys g.entries = g.symbols.map Prod.snd ∧
      g.entries.map (fun e => e.2.states) = g.states := by
  obtain ⟨names, hn⟩ : ∃ names, start :: (Text.sorted (OrderedMap.keys automata)).erase start = names :=
    ⟨_, rfl⟩
  replace nodup := hn ▸ nodup_names nodup
  replace h : names.foldlM (addRule automata firsts) { symbols := numberSymbols names } = .ok g := by
    rwa [← hn]
  -- the rules that are done are the first ones, and theirs are all the tables so far
  have all := foldlM_hands_on
    (fun rest g => Labelled g ∧ g.symbols = numberSymbols names ∧ ∃ done, names = done ++ rest ∧
      OrderedMap.keys g.entries = range' Kind.firstSymbol done.length ∧
      g.entries.map (fun e => e.2.states) = g.states) ?_ ⟨labelled_empty _, rfl, [], rfl, rfl, rfl⟩ h
  · obtain ⟨-, symbols, done, eq, keys, states⟩ := all
    rw [append_nil] at eq
    exact ⟨by rw [keys, symbols, map_snd_numberSymbols, eq], states⟩
  · rintro name rest g₀ _ ⟨labelled, symbols, done, eq, keys, states⟩ h₁
    obtain ⟨ext, labelled₁, -, _, -, states₁, entries₁⟩ := addRule_spec labelled h₁
    have place : names[done.length]? = some name := by
      rw [eq]
      simp
    have new : Kind.firstSymbol + done.length ∉ OrderedMap.keys g₀.entries := by
      rw [keys, mem_range'_1]
      omega
    rw [symbol?, symbols, get?_numberSymbols nodup place, Option.getD_some,
      insert_of_notMem new] at entries₁
    refine ⟨labelled₁, ext.symbols.trans symbols, done ++ [name], by rw [eq, append_assoc]; rfl, ?_, ?_⟩
    · rw [entries₁, length_append, length_singleton, range'_concat, ← keys,
        OrderedMap.keys, map_append, one_mul]
      rfl
    · rw [entries₁, map_append, states, states₁]
      rfl

theorem nodup_keys_ofRules (rules : List Rule) : (OrderedMap.keys (Automata.ofRules rules)).Nodup :=
  foldlRecOn (motive := fun m => (OrderedMap.keys m).Nodup) rules _ nodup_nil
    fun _ hm _ _ => nodup_keys_insert hm _ _

/-! ## Automata of rules -/

theorem unifyAll_ne_nil (fuel : Nat) {d : Dfa} (h : d ≠ []) : unifyAll fuel d ≠ [] := by
  have once : ∀ (fuel i : Nat) (d : Dfa), d ≠ [] → (unifyFrom fuel i d).2 ≠ [] := by
    intro fuel
    induction fuel with
    | zero => exact fun _ _ h => h
    | succ fuel ih =>
      intro i d h
      rw [unifyFrom]
      obtain ⟨j, _, _, d', found, merged⟩ | ⟨none, -⟩ := unifyAt_cases d i
      · rw [found]
        refine ih (i + 1) d' ?_
        have two : 2 ≤ d.length := by
          have place := (List.getElem?_eq_some_iff.1 merged.atRemoved).1
          have later := merged.lt
          omega
        have := merged.length
        rintro rfl
        simp at this
        omega
      · rw [none]
        exact ih (i + 1) d h
  induction fuel generalizing d with
  | zero => exact h
  | succ fuel ih =>
    have next := once d.length 0 d h
    rw [unifyAll]
    split
    · rename_i d' found
      rw [found] at next
      exact ih next
    · rename_i d' found
      rwa [found] at next

theorem Ebnf.simplify_dfa_ne_nil (e : Ebnf) : simplify e.dfa ≠ [] := by
  have built := e.build_built Nfa.closed_empty
  have closed := built.grown.closed Nfa.closed_empty
  refine unifyAll_ne_nil _ fun none => ?_
  have keys : OrderedMap.keys e.dfa = range _ := keys_determinise closed built.initial.2
  have begun := (explored_spec closed built.initial.2).1.length_le
  rw [none] at keys
  have length := congrArg length keys
  rw [length_range] at length
  rw [← length] at begun
  exact absurd begun (by simp [OrderedMap.keys])

/-! ## Where labels come from -/

theorem Labelled.label_of_origin (hl : Labelled g) {o : Origin} (h : o.label? g = some i) :
    0 < i ∧ i < g.labels.length ∧ g.labels[i]? = o.entry? g := by
  obtain ⟨pos, e, made, found⟩ := hl.label o i h
  exact ⟨pos, hl.lt_length h, found.trans made.symm⟩

theorem Labelled.eq_or_of_entry (hl : Labelled g)
    (atLeast : ∀ name k, get? g.symbols name = some k → Kind.firstSymbol ≤ k)
    (injective : ∀ a b k, get? g.symbols a = some k →
      get? g.symbols b = some k → a = b) {o o' : Origin} {j : Nat}
    (ho : o.label? g = some i) (ho' : o'.label? g = some j) (same : o.entry? g = o'.entry? g) :
    o = o' ∨ ∃ name, g.symbol? name = some Kind.firstSymbol ∧
      (o = .token Kind.firstSymbol ∧ o' = .symbol name ∨
        o = .symbol name ∧ o' = .token Kind.firstSymbol) := by
  -- a kind of tokens and a symbol agree in the one kind only
  have mixed : ∀ {k name i}, get? g.tokens k = some i →
      some (k, none) = (g.symbol? name).map (fun k => (k, (none : Option Text))) →
      k = .firstSymbol ∧ g.symbol? name = some .firstSymbol := by
    intro k name i hi same
    obtain ⟨k', hk', eq⟩ := Option.map_eq_some_iff.1 same.symm
    obtain rfl := congrArg Prod.fst eq
    have : k' = .firstSymbol := le_antisymm (hl.tokenKind k' i hi) (atLeast name k' hk')
    exact ⟨this, this ▸ hk'⟩
  cases o with
  | keyword w =>
    cases o' with
    | keyword w' =>
      have words : w = w' := by simpa [Origin.entry?] using same
      exact .inl (congrArg _ words)
    | token k => simp [Origin.entry?] at same
    | symbol name => cases found : g.symbol? name <;> simp [Origin.entry?] at same
  | token k =>
    cases o' with
    | keyword w => simp [Origin.entry?] at same
    | token k' =>
      have kinds : k = k' := by simpa [Origin.entry?] using same
      exact .inl (congrArg _ kinds)
    | symbol name =>
      obtain ⟨rfl, first⟩ := mixed ho same
      exact .inr ⟨name, first, .inl ⟨rfl, rfl⟩⟩
  | symbol name =>
    cases o' with
    | keyword w => cases found : g.symbol? name <;> simp [Origin.entry?] at same
    | token k =>
      obtain ⟨rfl, first⟩ := mixed ho' same.symm
      exact .inr ⟨name, first, .inr ⟨rfl, rfl⟩⟩
    | symbol name' =>
      obtain ⟨-, k, hk, -⟩ := hl.symbol name i ho
      obtain ⟨-, k', hk', -⟩ := hl.symbol name' j ho'
      have kinds : k = k' := by simpa [Origin.entry?, symbol?, hk, hk'] using same
      exact .inl (congrArg _ (injective name name' k hk (kinds ▸ hk')))

/-! ## Well-formed tables -/

/-- The tables refer to one another without gaps. -/
structure WellFormed (g : Grammar) : Prop where
  start : g.start = Kind.firstSymbol
  /-- Symbols are numbered one after the other, and names and numbers determine one another. -/
  numbers : g.symbols.map Prod.snd = List.range' Kind.firstSymbol g.symbols.length
  names : ∀ name k, g.symbol? name = some k ↔ g.symbolName? k = some name
  tables : OrderedMap.keys g.entries = g.symbols.map Prod.snd
  states : g.entries.map (fun e => e.2.states) = g.states
  nonempty : ∀ k table, get? g.entries k = some table → 0 < table.states.length
  /-- Arcs carry labels and lead to states; label 0 only leads back. -/
  arcs : ∀ k table, get? g.entries k = some table →
    ∀ (q : Nat) (state : State), table.states[q]? = some state → ∀ arc ∈ state,
      arc.1 < g.labels.length ∧ arc.2 < table.states.length ∧ (arc.1 = 0 → arc.2 = q)
  /-- What can begin a symbol are tokens and keywords. -/
  first : ∀ k table, get? g.entries k = some table → ∀ i ∈ table.first,
    (∃ w, get? g.keywords w = some i) ∨ ∃ t, get? g.tokens t = some i
  /-- A label that stands for a symbol finds a table. -/
  found : ∀ (i : Nat) k word, g.labels[i]? = some (k, word) → Kind.firstSymbol ≤ k →
    ∃ table, get? g.entries k = some table
  /-- Every label but the first was made for one thing, which stands in its place. -/
  label : ∀ (o : Origin) i, o.label? g = some i → 0 < i ∧ g.labels[i]? = o.entry? g
  origin : ∀ i, 0 < i → i < g.labels.length → ∃! o : Origin, o.label? g = some i

theorem arc_of_stateNumbered (hl : Labelled g) {d : Dfa} {table : Entry} (placed : d.Placed)
    (states : Forall₂ (StateNumbered g d) d table.states) {q : Nat} {state : State}
    (hq : table.states[q]? = some state) {arc : Nat × Nat} (mem : arc ∈ state) :
    arc.1 < g.labels.length ∧ arc.2 < table.states.length ∧ (arc.1 = 0 → arc.2 = q) := by
  obtain ⟨lt, -⟩ := List.getElem?_eq_some_iff.1 hq
  have lt' := states.length_eq ▸ lt
  have he := getElem?_eq_getElem lt'
  obtain ⟨arcs, numbered, eq⟩ := exists_stateNumbered states he
  rw [getD_eq_getElem?_getD, hq, Option.getD_some] at eq
  -- an arc of the automaton, or the mark of a final state
  have cases : arc ∈ arcs ∨ arc = (0, q) := by
    rw [eq] at mem
    split at mem
    · rcases mem_append.1 mem with mem | mark
      · exact .inl mem
      · rw [placed.placeOf_eq q _ he] at mark
        exact .inr (mem_singleton.1 mark)
    · exact .inl mem
  rcases cases with mem | rfl
  · obtain ⟨_, hraw, number, target⟩ := exists_of_forall₂_right numbered mem
    obtain ⟨e', he', -⟩ :=
      placed.exists_place (placed.wellFormed.targets _ (mem_of_getElem? he) _ hraw)
    refine ⟨number.lt_length hl, ?_, fun zero => absurd zero (ne_of_gt (number.pos hl))⟩
    rw [target, ← states.length_eq]
    exact (List.getElem?_eq_some_iff.1 he').1
  · exact ⟨hl.nonempty, lt, fun _ => rfl⟩

/-- The table of a symbol is that of a rule. -/
structure TableFrom (automata : Automata) (g : Grammar) (name : Label) (d : Dfa) (table : Entry) :
    Prop where
  automaton : get? automata name = some d
  placed : d.Placed
  nonempty : d ≠ []
  states : List.Forall₂ (StateNumbered g d) d table.states
  first : ∀ i ∈ table.first, ∃ l, get? g.symbols l = none ∧ Numbered g l i

/-- The tables of rules, as they are made: the symbols are numbered in an order that begins with the
first rule, and each has the table of a rule. -/
structure MadeFrom (rules : List Rule) (g : Grammar) : Prop where
  labelled : Labelled g
  start : g.start = Kind.firstSymbol
  symbols : ∃ r ∈ rules.head?, ∃ others, (r.name :: others).Nodup ∧
    g.symbols = numberSymbols (r.name :: others)
  tables : OrderedMap.keys g.entries = g.symbols.map Prod.snd
  states : g.entries.map (fun e => e.2.states) = g.states
  table : ∀ k table, get? g.entries k = some table →
    ∃ name d, g.symbol? name = some k ∧ TableFrom (Automata.ofRules rules) g name d table

theorem ofText_madeFrom {text : Text} (h : ofText text = .ok g) :
    ∃ rules, Reader.rules text = .ok rules ∧ MadeFrom rules g := by
  obtain ⟨rules, _, hr, hf, t, r, hr', h⟩ := ofText_spec h
  have isRule := has_ofRules_iff.2 ⟨r, mem_of_mem_head? hr', rfl⟩
  have nodup := nodup_keys_ofRules rules
  obtain ⟨tables, states⟩ := ofAutomata_inOrder nodup h
  refine ⟨rules, hr, t.labelled, t.start, ⟨r, hr', _, nodup_names nodup, (ofAutomata_spec isRule h).1⟩,
    tables, states, fun k _ entry => ?_⟩
  obtain ⟨name, d, hk, hd, described⟩ := t.exists_automaton entry
  obtain ⟨r', -, -, rfl⟩ := exists_rule_of_get? hd
  refine ⟨name, _, hk, hd, r'.rhs.placed_simplify_dfa, r'.rhs.simplify_dfa_ne_nil, described.states,
    fun i hi => ?_⟩
  obtain ⟨l, mem, number⟩ := described.label_of_first i hi
  refine ⟨l, t.get?_symbols_eq_none.2 ?_, number⟩
  obtain ⟨_, hs⟩ := exists_firstSet hf ((t.symbol_iff name).1 ⟨k, hk⟩)
  rw [hs] at mem
  exact (((firstSet_of_firstSets hf hs).mem_iff l).1 mem).1

namespace MadeFrom

variable {rules : List Rule}

variable {k : Kind}

section

variable (h : MadeFrom rules g)
include h

theorem atLeast {name : Text} (hk : get? g.symbols name = some k) : Kind.firstSymbol ≤ k := by
  obtain ⟨r, -, _, -, symbols⟩ := h.symbols
  rw [symbols] at hk
  exact (mem_numberSymbols (mem_of_get? hk)).1

theorem injective {a b : Text} (ha : get? g.symbols a = some k) (hb : get? g.symbols b = some k) :
    a = b := by
  obtain ⟨r, -, _, -, symbols⟩ := h.symbols
  rw [symbols] at ha hb
  exact numberSymbols_injective a b k ha hb

theorem symbol?_first : ∃ r ∈ rules.head?, g.symbol? r.name = some g.start := by
  obtain ⟨r, hr, _, nodup, symbols⟩ := h.symbols
  refine ⟨r, hr, ?_⟩
  rw [symbol?, symbols, h.start]
  exact get?_numberSymbols nodup (i := 0) rfl

theorem exists_table {name : Text} (hk : g.symbol? name = some k) :
    ∃ table, get? g.entries k = some table := by
  have key : k ∈ keys g.entries := by
    rw [h.tables]
    exact mem_map.2 ⟨_, mem_of_get? hk, rfl⟩
  exact Option.isSome_iff_exists.1 ((has_iff_mem_keys _ _).2 key)

theorem exists_table_of_label {i : Nat} {word : Option Text} (hi : g.labels[i]? = some (k, word))
    (symbol : Kind.firstSymbol ≤ k) : ∃ table, get? g.entries k = some table := by
  have kind : g.LabelOf k i := by
    refine ⟨?_, symbol⟩
    rw [getD_eq_getElem?_getD, hi]
    rfl
  obtain ⟨_, hk, -⟩ | ⟨rfl, -⟩ := kind.origin h.labelled
  · exact h.exists_table hk
  · obtain ⟨r, -, first⟩ := h.symbol?_first
    rw [h.start] at first
    exact h.exists_table first

theorem wellFormed : g.WellFormed := by
  have hl := h.labelled
  obtain ⟨r, -, others, nodup, symbols⟩ := h.symbols
  refine ⟨h.start, ?_, ?_, h.tables, h.states, ?_, ?_, ?_, ?_, ?_, ?_⟩
  · have length : (numberSymbols (r.name :: others)).length = (r.name :: others).length := by
      simp [numberSymbols]
    rw [symbols, map_snd_numberSymbols, length]
  · intro name k
    rw [symbol?, symbolName?, symbols]
    exact find?_numberSymbols nodup name k
  · intro k table entry
    obtain ⟨name, d, -, made⟩ := h.table k table entry
    rw [← made.states.length_eq]
    exact length_pos_of_ne_nil made.nonempty
  · intro k table entry q _ hq _ mem
    obtain ⟨name, d, -, made⟩ := h.table k table entry
    exact arc_of_stateNumbered hl made.placed made.states hq mem
  · intro k table entry i hi
    obtain ⟨name, d, -, made⟩ := h.table k table entry
    obtain ⟨l, other, number⟩ := made.first i hi
    exact number.token_or_keyword other
  · intro i k _ hi symbol
    exact h.exists_table_of_label hi symbol
  · intro o i ho
    exact ⟨(hl.label_of_origin ho).1, (hl.label_of_origin ho).2.2⟩
  · intro i pos lt
    obtain ⟨o, ho⟩ := hl.origin i pos lt
    exact ⟨o, ho, fun o' ho' => hl.unique o' o i ho' ho⟩

/-- **When no label is listed twice**: unless both the start symbol and the kind at which symbols begin
have labels. -/
theorem nodup_labels_iff :
    g.labels.Nodup ↔
    get? g.tokens Kind.firstSymbol = none ∨
      ∀ name, g.symbol? name = some Kind.firstSymbol → get? g.symbolLabels name = none := by
  have hl := h.labelled
  constructor
  · intro nodup
    by_contra both
    obtain ⟨token, name, first, label⟩ : get? g.tokens .firstSymbol ≠ none ∧
        ∃ name, g.symbol? name = some .firstSymbol ∧ get? g.symbolLabels name ≠ none := by
      simpa using both
    obtain ⟨i, hi⟩ := Option.ne_none_iff_exists'.1 token
    obtain ⟨j, hj⟩ := Option.ne_none_iff_exists'.1 label
    -- the two labels look the same and have different numbers
    obtain ⟨-, lt, entry⟩ := hl.label_of_origin (o := .token .firstSymbol) hi
    obtain ⟨-, -, entry'⟩ := hl.label_of_origin (o := .symbol name) hj
    have same : g.labels[i]? = g.labels[j]? := by
      rw [entry, entry', Origin.entry?, Origin.entry?, first]
      rfl
    obtain rfl := (getElem?_inj lt nodup).1 same
    cases hl.unique (.token .firstSymbol) (.symbol name) i hi hj
  · intro plain
    rw [nodup_iff_getElem?_ne_getElem?]
    intro i j lt lt' same
    have entry := getElem?_eq_getElem lt'
    rw [entry] at same
    -- the label of final states is no other, as those of keywords are names
    have pos : 0 < i := by
      refine Nat.pos_of_ne_zero fun zero => ?_
      obtain ⟨word, zeroth⟩ := hl.zero
      rw [zero, zeroth] at same
      obtain ⟨o, ho⟩ := hl.origin j (by omega) lt'
      have clash : some (0, some word) = o.entry? g := by
        rw [same, ← entry]
        exact (hl.label_of_origin ho).2.2
      cases o with
      | keyword w | token k => cases clash
      | symbol name => cases found : g.symbol? name <;> simp [Origin.entry?] at clash
    obtain ⟨o, ho⟩ := hl.origin i pos (lt.trans lt')
    obtain ⟨o', ho'⟩ := hl.origin j (pos.trans lt) lt'
    have entries : o.entry? g = o'.entry? g := by
      rw [← (hl.label_of_origin ho).2.2, ← (hl.label_of_origin ho').2.2, same, entry]
    obtain rfl | ⟨name, first, ⟨rfl, rfl⟩ | ⟨rfl, rfl⟩⟩ :=
      hl.eq_or_of_entry (fun _ _ => h.atLeast) (fun _ _ _ => h.injective) ho ho' entries
    · exact absurd (Option.some.inj (ho.symm.trans ho')) (ne_of_lt lt)
    · rcases plain with none | none
      · cases ho.symm.trans none
      · cases ho'.symm.trans (none name first)
    · rcases plain with none | none
      · cases ho'.symm.trans none
      · cases ho.symm.trans (none name first)

end

end MadeFrom

end Grammar

end Retouch
