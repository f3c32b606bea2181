import Retouch.Proofs.RuleTables

/-!
# Which arcs the next token tells apart

The parser takes the first arc of a state that fits the next token.  That is the only one that fits
where no label can begin two arcs of the state (`Grammar.Distinct`).  For the tables of a text this
holds of a state exactly if no two labels of the text that begin different arcs have one number, and in
the initial state of a rule no label of the text begins two arcs, as that is checked when the first
sets are made (`Grammar.ofText_distinct`).

Nothing more is checked.  A later state of a rule can have two arcs that begin alike, and in the initial
state two labels with one number, such as two spellings of an operator, can begin different arcs
(`Grammar.ofText_not_distinct`).
-/

namespace Retouch

open List OrderedMap

namespace Grammar

variable {g : Grammar} {label : Nat}

/-! ## Arcs of a table -/

/-- The labels that can begin what a label stands for: the first set of a symbol, or the label. -/
def begins (g : Grammar) (i : Nat) : List Nat :=
  if g.isSymbol i then ((get? g.entries (g.labelKind i)).map Entry.first).getD [] else [i]

def Distinct (g : Grammar) (state : State) : Prop :=
  state.Pairwise fun a b => ∀ label ∈ g.begins a.1, label ∉ g.begins b.1

instance (g : Grammar) (state : State) : Decidable (g.Distinct state) :=
  inferInstanceAs (Decidable (List.Pairwise _ _))

theorem fits_iff (token : g.isSymbol label = false) (i : Nat) :
    g.fits label i = true ↔ label ∈ g.begins i := by
  unfold fits begins
  cases symbol : g.isSymbol i with
  | false => simp [eq_comm (a := label)]
  | true =>
    have different : i ≠ label := by
      rintro rfl
      rw [symbol] at token
      cases token
    cases get? g.entries (g.labelKind i) <;> simp [different]

theorem move_cons (g : Grammar) (label : Nat) (arc : Nat × Nat) (arcs : State) :
    Parser.move g label (arc :: arcs) =
      if g.fits label arc.1 then Parser.move g label [arc] else Parser.move g label arcs := by
  obtain ⟨i, next⟩ := arc
  rw [Parser.fits_eq, Parser.move, Parser.move, Parser.move]
  by_cases same : i = label
  · simp [same]
  · cases Parser.begun? g label i <;> simp [same]

/-- **Where no label can begin two arcs, the first arc that fits is the only one.** -/
theorem Distinct.move_eq {state : State} (h : g.Distinct state) (token : g.isSymbol label = false)
    {arc : Nat × Nat} (mem : arc ∈ state) (fit : label ∈ g.begins arc.1) :
    Parser.move g label state = Parser.move g label [arc] := by
  induction state with
  | nil => cases mem
  | cons first state ih =>
    obtain ⟨apart, h⟩ := pairwise_cons.1 h
    rw [move_cons]
    rcases mem_cons.1 mem with rfl | mem
    · rw [if_pos ((fits_iff token _).2 fit)]
    · rw [if_neg, ih h mem]
      rw [fits_iff token]
      exact fun begins => apart arc mem label begins fit

/-! ## Labels of a text -/

/-- The labels of a text that can begin an arc: the first set of the rule that it names, or the label
of the arc. -/
def Automata.begins (automata : Automata) (firsts : OrderedMap Label (List Label)) (arc : Label) :
    List Label :=
  if has automata arc then (get? firsts arc).getD [] else [arc]

def Alias (g : Grammar) (l l' : Label) : Prop := ∃ i, Numbered g l i ∧ Numbered g l' i

variable {firsts : OrderedMap Label (List Label)}

theorem mem_begins_iff {automata : Automata} (h : firstSets automata = .ok firsts) {arc l : Label} :
    l ∈ automata.begins firsts arc ↔ automata.CanBegin arc l := by
  unfold Automata.begins
  split
  · rename_i isRule
    obtain ⟨_, found⟩ := exists_firstSet h isRule
    rw [found]
    exact (firstSet_of_firstSets h found).mem_iff l
  · rename_i token
    rw [Automata.canBegin_token_iff (Bool.eq_false_of_not_eq_true token), mem_singleton]

theorem firstSets_apart {automata : Automata} (h : firstSets automata = .ok firsts) (name : Label)
    (isRule : has automata name = true) :
    (automata.initial name).Pairwise fun a b =>
      ∀ l ∈ automata.begins firsts a, l ∉ automata.begins firsts b := by
  obtain ⟨_, found⟩ := exists_firstSet h isRule
  refine (firstSet_of_firstSets h found).toldApart.imp fun {a b} apart l mem => ?_
  rw [mem_begins_iff h] at mem ⊢
  exact apart l mem

/-- In tables of automata what can begin a label of the text is what can begin its number. -/
structure Represents (automata : Automata) (firsts : OrderedMap Label (List Label)) (g : Grammar) :
    Prop where
  labelled : Labelled g
  begins : ∀ l i, Numbered g l i →
    ∀ j, j ∈ g.begins i ↔ ∃ l' ∈ automata.begins firsts l, Numbered g l' j

theorem pairwise_iff_of_forall₂ {α β : Type} {P : α → β → Prop} {R : α → α → Prop}
    {S : β → β → Prop} {l : List α} {l' : List β} (h : Forall₂ P l l')
    (related : ∀ {a b a' b'}, P a b → P a' b' → (R a a' ↔ S b b')) :
    l.Pairwise R ↔ l'.Pairwise S := by
  induction h with
  | nil => simp
  | cons hab rest ih =>
    rw [pairwise_cons, pairwise_cons, ih]
    refine and_congr_left fun _ => ⟨fun all b' hb' => ?_, fun all a' ha' => ?_⟩
    · obtain ⟨a', ha', hab'⟩ := exists_of_forall₂_right rest hb'
      exact (related hab hab').1 (all a' ha')
    · obtain ⟨b', hb', hab'⟩ := exists_of_forall₂_left rest ha'
      exact (related hab hab').2 (all b' hb')

section Texts

variable {automata : Automata} {firsts : OrderedMap Label (List Label)}

theorem Represents.distinct_iff (h : Represents automata firsts g) {d : Dfa} {s : Nat × DfaState}
    {state : State} (numbered : StateNumbered g d s state) :
    g.Distinct state ↔ (keys s.2.arcs).Pairwise fun a b =>
      ∀ l ∈ automata.begins firsts a, ∀ l' ∈ automata.begins firsts b, ¬ g.Alias l l' := by
  have zero : g.begins 0 = [0] := by
    have kind : g.isSymbol 0 = false := by
      obtain ⟨_, first⟩ := h.labelled.zero
      rw [isSymbol, labelKind, getD_eq_getElem?_getD, first]
      rfl
    rw [Grammar.begins, kind]
    rfl
  obtain ⟨arcs, numbered, rfl⟩ := numbered
  -- the mark of a final state begins with no label of the text
  have marked : g.Distinct (if s.2.final then arcs ++ [(0, d.placeOf s.1)] else arcs) ↔
      g.Distinct arcs := by
    split
    · refine ⟨fun distinct => (pairwise_append.1 distinct).1, fun distinct =>
        pairwise_append.2 ⟨distinct, pairwise_singleton _ _, fun a ha b hb i hi => ?_⟩⟩
      obtain rfl := mem_singleton.1 hb
      rw [zero, mem_singleton]
      obtain ⟨_, -, numbered⟩ := exists_of_forall₂_right numbered ha
      obtain ⟨l, -, hl⟩ := (h.begins _ _ numbered.1 i).1 hi
      exact ne_of_gt (hl.pos h.labelled)
    · exact .rfl
  rw [marked, OrderedMap.keys, pairwise_map]
  refine (pairwise_iff_of_forall₂ numbered fun {a i b j} hi hj => ?_).symm
  constructor
  · intro apart label begins begins'
    obtain ⟨l, mem, hl⟩ := (h.begins _ _ hi.1 label).1 begins
    obtain ⟨l', mem', hl'⟩ := (h.begins _ _ hj.1 label).1 begins'
    exact apart l mem l' mem' ⟨label, hl, hl'⟩
  · rintro apart l mem l' mem' ⟨label, hl, hl'⟩
    exact apart label ((h.begins _ _ hi.1 label).2 ⟨l, mem, hl⟩)
      ((h.begins _ _ hj.1 label).2 ⟨l', mem', hl'⟩)

theorem Labelled.isSymbol_eq_false (hl : Labelled g)
    (plain : get? g.tokens Kind.firstSymbol = none) {i : Nat}
    (h : (∃ w, get? g.keywords w = some i) ∨ ∃ k, get? g.tokens k = some i) :
    g.isSymbol i = false := by
  unfold isSymbol labelKind
  rw [getD_eq_getElem?_getD]
  obtain ⟨w, hw⟩ | ⟨k, hk⟩ := h
  · rw [(hl.keyword w i hw).2]
    rfl
  · rw [(hl.token k i hk).2]
    refine decide_eq_false fun symbol : .firstSymbol ≤ k => ?_
    rw [le_antisymm (hl.tokenKind k i hk) symbol, plain] at hk
    cases hk

theorem Numbered.isSymbol_eq_false (hl : Labelled g)
    (plain : get? g.tokens Kind.firstSymbol = none) {l : Label} {i : Nat}
    (other : get? g.symbols l = none) (h : Numbered g l i) : g.isSymbol i = false :=
  hl.isSymbol_eq_false plain (h.token_or_keyword other)

theorem ofText_represents {text : Text} (h : ofText text = .ok g)
    (plain : get? g.tokens Kind.firstSymbol = none) :
    ∃ rules firsts, Reader.rules text = .ok rules ∧
      firstSets (Automata.ofRules rules) = .ok firsts ∧
      Represents (Automata.ofRules rules) firsts g ∧
      ∀ k table, get? g.entries k = some table → ∃ name d,
        get? g.symbols name = some k ∧
        get? (Automata.ofRules rules) name = some d ∧
        Forall₂ (StateNumbered g d) d table.states := by
  obtain ⟨rules, firsts, hr, hf, t, -⟩ := ofText_spec h
  refine ⟨rules, firsts, hr, hf, ⟨t.labelled, fun l i hi j => ?_⟩, fun k table entry => ?_⟩
  · rw [Automata.begins]
    split
    · rename_i rule
      obtain ⟨k, table, label, symbol, entry, described⟩ :=
        t.table_of_numbered rule (headIs_of_has hr rule) hi
      have kind : g.labelKind i = k := by rw [labelKind, label]
      rw [begins, isSymbol, kind, if_pos (decide_eq_true symbol), entry]
      refine ⟨described.label_of_first j, ?_⟩
      rintro ⟨l', mem, hl'⟩
      obtain ⟨j', _, hj'⟩ := described.first_of_label l' mem
      rwa [hl'.unique hj']
    · rename_i token
      have other := t.get?_symbols_eq_none.2 (Bool.eq_false_of_not_eq_true token)
      rw [begins, hi.isSymbol_eq_false t.labelled plain other]
      simp only [Bool.false_eq_true, if_false, mem_singleton, exists_eq_left]
      exact ⟨fun eq => eq ▸ hi, fun hj => hj.unique hi⟩
  · obtain ⟨name, d, hk, hd, described⟩ := t.exists_automaton entry
    exact ⟨name, d, hk, hd, described.states⟩

end Texts

/-- **What the tables of a text guarantee.**  In each state of each table the labels that can begin two
arcs are disjoint exactly if no two labels of the text that begin these arcs have one number, and the
first arc that fits a token is then the only one.  In the initial state no label of the text begins two
arcs.  The one name that a text could use for a token and that stands for a symbol, that of the kind at
which symbols begin, is left out. -/
theorem ofText_distinct {text : Text} (h : ofText text = .ok g)
    (plain : OrderedMap.get? g.tokens Kind.firstSymbol = none) :
    ∃ rules firsts, Reader.rules text = .ok rules ∧
      firstSets (Automata.ofRules rules) = .ok firsts ∧
      ∀ k table, OrderedMap.get? g.entries k = some table → ∃ name d,
        OrderedMap.get? g.symbols name = some k ∧
        OrderedMap.get? (Automata.ofRules rules) name = some d ∧
        -- in every state only labels with one number can be taken for each other
        (∀ q s, d[q]? = some s → (g.Distinct (table.states.getD q []) ↔
          (OrderedMap.keys s.2.arcs).Pairwise fun a b =>
            ∀ l ∈ (Automata.ofRules rules).begins firsts a,
              ∀ l' ∈ (Automata.ofRules rules).begins firsts b, ¬ g.Alias l l')) ∧
        -- in the initial state no label begins two arcs
        ((initialLabels d).Pairwise fun a b =>
          ∀ l ∈ (Automata.ofRules rules).begins firsts a,
            l ∉ (Automata.ofRules rules).begins firsts b) ∧
        -- the parser has no choice in a state whose arcs are distinct
        ∀ q, g.Distinct (table.states.getD q []) → ∀ t label, Parser.classify g t = some label →
          ∀ arc ∈ table.states.getD q [], label ∈ g.begins arc.1 →
            Parser.move g label (table.states.getD q []) = Parser.move g label [arc] := by
  obtain ⟨rules, firsts, hr, hf, kept, entries⟩ := ofText_represents h plain
  refine ⟨rules, firsts, hr, hf, fun k table entry => ?_⟩
  obtain ⟨name, d, hk, hd, states⟩ := entries k table entry
  refine ⟨name, d, hk, hd, fun q s hs => kept.distinct_iff (exists_stateNumbered states hs), ?_,
    fun q distinct t label hl arc mem fit => ?_⟩
  · have apart := firstSets_apart hf name (Option.isSome_iff_exists.2 ⟨d, hd⟩)
    rwa [Automata.initial, hd, Option.getD_some] at apart
  · refine distinct.move_eq (kept.labelled.isSymbol_eq_false plain ?_) mem fit
    exact (classify_eq_some hl).imp (fun word => ⟨_, word.2⟩) fun token => ⟨_, token⟩

/-- Do the tables of a text, and the one of its start symbol, pass a check? -/
def passes (text : Text) (check : Grammar → Entry → Bool) : Bool :=
  match ofText text with
  | .ok g =>
    match get? g.entries g.start with
    | some table => check g table
    | none => false
  | .error _ => false

theorem exists_of_passes (text : Text) (check : Grammar → Entry → Bool)
    (h : passes text check = true) : ∃ g table, ofText text = .ok g ∧
      get? g.entries g.start = some table ∧ check g table = true := by
  unfold passes at h
  split at h
  · rename_i g made
    split at h
    · rename_i table entry
      exact ⟨g, table, made, entry, h⟩
    · cases h
  · cases h

/-- In a nested list an item is told from a comma and from the end of the list. -/
theorem ofText_distinct_nested : ∃ g table, ofText nestedText = .ok g ∧
    OrderedMap.get? g.tokens Kind.firstSymbol = none ∧
    OrderedMap.get? g.entries g.start = some table ∧ (table.states.getD 1 []).length = 3 ∧
    ∀ t label, Parser.classify g t = some label → ∀ arc ∈ table.states.getD 1 [],
      label ∈ g.begins arc.1 →
        Parser.move g label (table.states.getD 1 []) = Parser.move g label [arc] := by
  obtain ⟨g, table, made, entry, check⟩ := exists_of_passes nestedText
    (fun g table => decide (get? g.tokens Kind.firstSymbol = none ∧
      (table.states.getD 1 []).length = 3 ∧ g.Distinct (table.states.getD 1 []))) (by decide +kernel)
  obtain ⟨plain, three, distinct⟩ := of_decide_eq_true check
  obtain ⟨_, _, _, _, tables⟩ := ofText_distinct made plain
  obtain ⟨_, _, _, _, _, _, choice⟩ := tables _ table entry
  exact ⟨g, table, made, plain, entry, three, choice 1 distinct⟩

/-! ## What is not checked -/

def forkText : Text :=
  "start: NAME (a | b) NEWLINE ENDMARKER\na: NUMBER NAME\nb: NUMBER STRING\n"

def spellingText : Text := "start: ('<>' NAME | '!=' NUMBER) NEWLINE ENDMARKER\n"

/-- **Texts are accepted whose tables are not distinct**: in a later state, where two rules begin with
the same label, and in an initial state, where two labels have one number. -/
theorem ofText_not_distinct :
    (∃ g table, ofText forkText = .ok g ∧ OrderedMap.get? g.entries g.start = some table ∧
      ¬ g.Distinct (table.states.getD 1 [])) ∧
    ∃ g table, ofText spellingText = .ok g ∧ OrderedMap.get? g.entries g.start = some table ∧
      ¬ g.Distinct (table.states.getD 0 []) := by
  have conflict : ∀ {text : Text} {q : Nat},
      passes text (fun g table => decide (¬ g.Distinct (table.states.getD q []))) = true →
      ∃ g table, ofText text = .ok g ∧ get? g.entries g.start = some table ∧
        ¬ g.Distinct (table.states.getD q []) := by
    intro text q h
    obtain ⟨g, table, made, entry, check⟩ := exists_of_passes _ _ h
    exact ⟨g, table, made, entry, of_decide_eq_true check⟩
  exact ⟨conflict (by decide +kernel), conflict (by decide +kernel)⟩

end Grammar

end Retouch
