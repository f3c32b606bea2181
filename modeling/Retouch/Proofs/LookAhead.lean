import Mathlib.Data.List.Pairwise
import Retouch.Proofs.Derivation

/-!
# One token of look-ahead is enough

What can still come for a stack of automata is a language of token labels (`Parser.Remaining`).  The
parser decides by the next label alone, so it can go wrong only where two ways are open: two arcs of a
state that fit one label, or an arc that fits where the symbol can also end and the label can follow
it.  Tables in which neither happens look ahead (`Grammar.LooksAhead`).  With such tables each token
that the parser takes leaves exactly what can come after it, and a token that it refuses could not come
(`Parser.handle_exact`), so that a run ends well exactly on the sequences that derive from the start
symbol (`Parser.feed_iff`).
-/

namespace Retouch

open List OrderedMap

namespace Grammar

/-! ## What can come in a state -/

def isSymbol (g : Grammar) (i : Nat) : Bool := Kind.firstSymbol ≤ g.labelKind i

def tokenLabels (g : Grammar) : List Nat := g.tokens.map Prod.snd ++ g.keywords.map Prod.snd

/-- The sequences of token labels on which the automaton of a symbol comes from a state to its end. -/
inductive Rest (g : Grammar) : Entry → Nat → List Nat → Prop
  | done {table : Entry} {q : Nat} (final : table.Final q) : Rest g table q []
  | token {table : Entry} {q r i : Nat} {v : List Nat} (arc : table.next? q i = some r)
      (label : i ∈ g.tokenLabels) (rest : Rest g table r v) : Rest g table q (i :: v)
  | symbol {table inner : Entry} {q r i : Nat} {k : Kind} {u v : List Nat}
      (arc : table.next? q i = some r) (label : g.LabelOf k i)
      (entry : get? g.entries k = some inner) (inside : Rest g inner 0 u)
      (rest : Rest g table r v) : Rest g table q (u ++ v)

/-- Does an arc with label `i` fit a token with the given label? -/
def fits (g : Grammar) (label i : Nat) : Bool :=
  i == label || g.isSymbol i &&
    match get? g.entries (g.labelKind i) with
    | some table => table.first.contains label
    | none => false

def Entry.fitsAt (g : Grammar) (table : Entry) (q label : Nat) : Bool :=
  (table.states.getD q []).any fun arc => g.fits label arc.1

/-- A table in which the next token decides, where `follow` has at least the labels that can come after
a symbol, and `rank` goes down along the symbols that can begin a symbol. -/
@[mk_iff]
structure Entry.Decides (g : Grammar) (follow : Kind → List Nat) (rank : Kind → Nat) (k : Kind)
    (table : Entry) : Prop where
  nonempty : (0, 0) ∉ table.states.getD 0 []
  begins : ∀ label ∈ g.tokenLabels, table.fitsAt g 0 label = true → label ∈ table.first
  /-- The symbol does not begin with itself. -/
  rank_lt : rank k < g.entries.length
  descends : ∀ arc ∈ table.states.getD 0 [], g.isSymbol arc.1 = true →
    rank (g.labelKind arc.1) < rank k
  /-- No label is on two arcs of a state, and none fits two arcs. -/
  labels : ∀ state ∈ table.states, (state.map Prod.fst).Nodup
  distinct : ∀ state ∈ table.states, state.Pairwise fun a b =>
    ∀ label ∈ g.tokenLabels, ¬ (g.fits label a.1 = true ∧ g.fits label b.1 = true)
  /-- What can come after a symbol is in its follow set. -/
  follows : ∀ state ∈ table.states, ∀ arc ∈ state, g.isSymbol arc.1 = true →
    ∀ label ∈ g.tokenLabels, table.fitsAt g arc.2 label = true → label ∈ follow (g.labelKind arc.1)
  /-- So is what can come after a symbol that ends with it. -/
  passes : ∀ state ∈ table.states, ∀ arc ∈ state, g.isSymbol arc.1 = true →
    (0, arc.2) ∈ table.states.getD arc.2 [] → ∀ label ∈ follow k, label ∈ follow (g.labelKind arc.1)
  /-- What can come after the symbol fits no arc of a state in which it can end. -/
  apart : ∀ q < table.states.length, (0, q) ∈ table.states.getD q [] →
    ∀ label ∈ follow k, table.fitsAt g q label = false

set_option synthInstance.maxSize 500 in
instance (g : Grammar) (follow : Kind → List Nat) (rank : Kind → Nat) (k : Kind) (table : Entry) :
    Decidable (table.Decides g follow rank k) :=
  decidable_of_iff _ (Entry.decides_iff g follow rank k table).symm

/-- Every end of the symbol comes with a token, and then nothing else can come. -/
def Entry.EndsWithToken (g : Grammar) (table : Entry) : Prop :=
  ∀ q < table.states.length, (0, q) ∈ table.states.getD q [] → table.states.getD q [] = [(0, q)] ∧
    ∀ state ∈ table.states, ∀ arc ∈ state, arc.2 = q → g.isSymbol arc.1 = false

instance (g : Grammar) (table : Entry) : Decidable (table.EndsWithToken g) :=
  inferInstanceAs (Decidable (∀ q < table.states.length, _ → _))

/-- Tables for which one token of look-ahead is enough. -/
@[mk_iff]
structure LooksAhead (g : Grammar) (follow : Kind → List Nat) (rank : Kind → Nat) : Prop where
  /-- Labels of tokens mark no final state and stand for no symbol. -/
  token : ∀ i ∈ g.tokenLabels, i ≠ 0 ∧ g.isSymbol i = false
  mark : g.isSymbol 0 = false
  decides : ∀ e ∈ g.entries, e.2.Decides g follow rank e.1
  start : ∀ e ∈ g.entries, e.1 = g.start → e.2.EndsWithToken g

instance (g : Grammar) (follow : Kind → List Nat) (rank : Kind → Nat) :
    Decidable (g.LooksAhead follow rank) :=
  decidable_of_iff _ (looksAhead_iff g follow rank).symm

/-- The labels that can follow each symbol, as far as a number of rounds over all arcs finds them. -/
def followSets (g : Grammar) : Nat → OrderedMap Kind (List Nat)
  | 0 => []
  | rounds + 1 =>
    g.entries.foldl (fun sets e => e.2.states.flatten.foldl (fun sets arc =>
      if g.isSymbol arc.1 then
        let next := g.tokenLabels.filter fun label => e.2.fitsAt g arc.2 label
        let ends := (e.2.states.getD arc.2 []).contains (0, arc.2)
        let after := next ++ if ends then (get? sets e.1).getD [] else []
        alter sets (g.labelKind arc.1) [] fun old => after.foldl insertNew old
      else sets) sets) (followSets g rounds)

/-- The greatest number of symbols that a symbol can begin with, one inside the other; the first
argument bounds it. -/
def beginDepth (g : Grammar) : Nat → Kind → Nat
  | 0, _ => 0
  | bound + 1, k =>
    match get? g.entries k with
    | none => 0
    | some table => (table.states.getD 0 []).foldl (fun depth arc =>
        if g.isSymbol arc.1 then max depth (1 + beginDepth g bound (g.labelKind arc.1))
        else depth) 0

theorem classify_mem_tokenLabels {g : Grammar} {t : Input} {i : Nat}
    (h : Parser.classify g t = some i) : i ∈ g.tokenLabels := by
  rcases classify_eq_some h with ⟨-, keyword⟩ | token
  · exact mem_append_right _ (mem_map.2 ⟨_, mem_of_get? keyword, rfl⟩)
  · exact mem_append_left _ (mem_map.2 ⟨_, mem_of_get? token, rfl⟩)

theorem LabelOf.isSymbol {g : Grammar} {k : Kind} {i : Nat} (h : g.LabelOf k i) :
    g.isSymbol i = true ∧ g.labelKind i = k := by
  obtain ⟨kind, symbol⟩ := h
  have kind : g.labelKind i = k := kind
  rw [Grammar.isSymbol, kind]
  exact ⟨decide_eq_true symbol, rfl⟩

namespace LooksAhead

variable {g : Grammar} {follow : Kind → List Nat} {rank : Kind → Nat} {k : Kind}
  {table inner : Entry} {q i r label : Nat} {u v : List Nat}

theorem fitsAt_iff : table.fitsAt g q label = true ↔
    ∃ arc ∈ table.states.getD q [], g.fits label arc.1 = true := any_eq_true

theorem fits_symbol (hl : g.LabelOf k i) (entry : get? g.entries k = some inner)
    (first : label ∈ inner.first) : g.fits label i = true := by
  obtain ⟨symbol, kind⟩ := hl.isSymbol
  rw [fits, symbol, kind, entry]
  simp [first]

variable (h : g.LooksAhead follow rank)
include h

theorem entry (entry : get? g.entries k = some table) : table.Decides g follow rank k :=
  h.decides _ (mem_of_get? entry)

theorem not_labelOf (token : i ∈ g.tokenLabels) : ¬ g.LabelOf k i := by
  intro hl
  have none := (h.token i token).2
  rw [hl.isSymbol.1] at none
  cases none

theorem pos_of_labelOf (hl : g.LabelOf k i) : 0 < i := by
  refine Nat.pos_of_ne_zero fun zero => ?_
  have symbol := hl.isSymbol.1
  rw [zero, h.mark] at symbol
  cases symbol

theorem rest_ne_nil (entry : get? g.entries k = some table) (rest : g.Rest table 0 v) : v ≠ [] := by
  generalize zero : (0 : Nat) = q at rest
  induction rest generalizing k with
  | done final =>
    subst zero
    exact absurd final ((h.entry entry).nonempty)
  | token => exact cons_ne_nil _ _
  | symbol _ _ entry' _ _ inside => exact append_ne_nil_of_left_ne_nil (inside entry' rfl) _

theorem final_of_rest_nil (rest : g.Rest table q []) : table.Final q := by
  generalize hv : ([] : List Nat) = v at rest
  cases rest with
  | done final => exact final
  | token => cases hv
  | symbol _ _ entry inside _ =>
    exact absurd (append_eq_nil_iff.1 hv.symm).1 (h.rest_ne_nil entry inside)

theorem fitsAt_of_rest (token : label ∈ g.tokenLabels) (rest : g.Rest table q (label :: u)) :
    table.fitsAt g q label = true := by
  rw [fitsAt_iff]
  generalize hv : label :: u = v at rest
  induction rest generalizing u with
  | done => cases hv
  | token arc =>
    cases hv
    exact ⟨_, Entry.mem_of_next? arc, by simp [fits]⟩
  | symbol arc hl entry inside _ first _ =>
    obtain none | ⟨u', eq, -⟩ := cons_eq_append_iff.1 hv
    · exact absurd none.1 (h.rest_ne_nil entry inside)
    · have begins := (h.entry entry).begins label token (fitsAt_iff.2 (first eq.symm))
      exact ⟨_, Entry.mem_of_next? arc, fits_symbol hl entry begins⟩

theorem first_of_rest (token : label ∈ g.tokenLabels) (entry : get? g.entries k = some table)
    (rest : g.Rest table 0 (label :: u)) : label ∈ table.first :=
  (h.entry entry).begins label token (h.fitsAt_of_rest token rest)

theorem rest_cons (rest : g.Rest table q (label :: u)) :
    (∃ r, table.next? q label = some r ∧ g.Rest table r u) ∨
      ∃ i r k inner u₁ u₂, table.next? q i = some r ∧ g.LabelOf k i ∧
        get? g.entries k = some inner ∧ u = u₁ ++ u₂ ∧
        g.Rest inner 0 (label :: u₁) ∧ g.Rest table r u₂ := by
  generalize hv : label :: u = v at rest
  cases rest with
  | done => cases hv
  | token arc _ rest =>
    cases hv
    exact .inl ⟨_, arc, rest⟩
  | symbol arc hl entry inside rest =>
    obtain none | ⟨u', eq, rfl⟩ := cons_eq_append_iff.1 hv
    · exact absurd none.1 (h.rest_ne_nil entry inside)
    · exact .inr ⟨_, _, _, _, u', _, arc, hl, entry, rfl, eq ▸ inside, rest⟩

theorem eq_of_fits (entry : get? g.entries k = some table) (token : label ∈ g.tokenLabels)
    {a b : Nat × Nat} (ha : a ∈ table.states.getD q []) (hb : b ∈ table.states.getD q [])
    (fit : g.fits label a.1 = true) (fit' : g.fits label b.1 = true) : a = b := by
  have pairs := (h.entry entry).distinct _ (Entry.mem_states ha).2
  by_contra different
  have symm : Std.Symm fun a b : Nat × Nat => ∀ label ∈ g.tokenLabels,
      ¬ (g.fits label a.1 = true ∧ g.fits label b.1 = true) :=
    ⟨fun a b h label hl both => h label hl both.symm⟩
  exact pairs.forall ha hb different label token ⟨fit, fit'⟩

end LooksAhead

end Grammar

namespace Parser

open Grammar (LooksAhead)

variable {g : Grammar} {follow : Kind → List Nat} {rank : Kind → Nat} {shape : Shape} {label : Nat}

theorem fits_eq (g : Grammar) (label i : Nat) :
    g.fits label i = (i == label || (begun? g label i).isSome) := by
  unfold Grammar.fits Grammar.isSymbol begun?
  by_cases symbol : Kind.firstSymbol ≤ g.labelKind i
  · cases get? g.entries (g.labelKind i) <;> simp [symbol, Option.isSome_filter]
  · simp [symbol]

theorem fits_eq_false {arcs : Grammar.State} (h : move g label arcs = .none) {arc : Nat × Nat}
    (mem : arc ∈ arcs) : g.fits label arc.1 = false := by
  obtain ⟨other, none⟩ := move_none h arc mem
  rw [fits_eq, none, beq_eq_false_iff_ne.2 other]
  rfl

/-! ## What can come for a stack -/

/-- The sequences of token labels on which all symbols of a stack come to their end. -/
def Remaining (g : Grammar) : List Entry → List Nat → Prop
  | [], v => v = []
  | e :: below, v => ∃ u w, v = u ++ w ∧ g.Rest e.table e.state u ∧ Remaining g below w

/-- Every entry has the table of its symbol, and the state of the one below is where an arc with the
symbol leads. -/
def Linked (g : Grammar) : List Entry → Prop
  | [] => True
  | e :: below => get? g.entries e.symbol = some e.table ∧
      (∀ next rest, below = next :: rest → ∃ q i, g.LabelOf e.symbol i ∧
        (i, next.state) ∈ next.table.states.getD q []) ∧ Linked g below

variable {below : List Entry} {e top : Entry} {k : Kind} {next : Nat} {s : State}

section

variable (h : g.LooksAhead follow rank) (token : label ∈ g.tokenLabels)
include h token

theorem mem_follow {v : List Nat} (linked : Linked g (e :: below))
    (remaining : Remaining g below (label :: v)) : label ∈ follow e.symbol := by
  induction below generalizing e with
  | nil => cases remaining
  | cons next below ih =>
    obtain ⟨-, link, lower⟩ := linked
    obtain ⟨q, i, hl, arc⟩ := link next below rfl
    obtain ⟨symbol, kind⟩ := hl.isSymbol
    have state := (Grammar.Entry.mem_states arc).2
    have comes := (h.entry lower.1).follows _ state _ arc symbol
    have through := (h.entry lower.1).passes _ state _ arc symbol
    rw [kind] at comes through
    obtain ⟨u, w, split, rest, deeper⟩ := remaining
    obtain ⟨rfl, rfl⟩ | ⟨u', rfl, -⟩ := cons_eq_append_iff.1 split
    · exact through (h.final_of_rest_nil rest) label (ih lower deeper)
    · exact comes label token (h.fitsAt_of_rest token rest)

theorem remaining_cons_iff {v : List Nat} (linked : Linked g (e :: below))
    (fit : e.table.fitsAt g e.state label = true) :
    Remaining g (e :: below) (label :: v) ↔
      ∃ u w, v = u ++ w ∧ g.Rest e.table e.state (label :: u) ∧ Remaining g below w := by
  constructor
  · rintro ⟨u, w, split, rest, lower⟩
    obtain ⟨rfl, rfl⟩ | ⟨u', rfl, rfl⟩ := cons_eq_append_iff.1 split
    · obtain ⟨_, mem, -⟩ := LooksAhead.fitsAt_iff.1 fit
      have none := (h.entry linked.1).apart _ (Grammar.Entry.mem_states mem).1
        (h.final_of_rest_nil rest) label (mem_follow h token linked lower)
      rw [none] at fit
      cases fit
    · exact ⟨u', w, rfl, rest, lower⟩
  · rintro ⟨u, w, rfl, rest, lower⟩
    exact ⟨label :: u, w, rfl, rest, lower⟩

/-! ## Moves -/

theorem rest_cons_of_shift {table : Grammar.Entry} {q : Nat} (entry : get? g.entries k = some table)
    (shift : move g label (table.states.getD q []) = .shift next) (u : List Nat) :
    g.Rest table q (label :: u) ↔ g.Rest table next u := by
  have arc := move_shift shift
  have fit : g.fits label label = true := by simp [Grammar.fits]
  refine ⟨fun rest => ?_, .token arc token⟩
  obtain ⟨r, arc', rest⟩ | ⟨i, r, k', _, _, _, arc', hl, entry', -, inside, -⟩ :=
    h.rest_cons rest
  · cases arc.symm.trans arc'
    exact rest
  · have fit' := LooksAhead.fits_symbol hl entry' (h.first_of_rest token entry' inside)
    cases h.eq_of_fits entry token (Grammar.Entry.mem_of_next? arc)
      (Grammar.Entry.mem_of_next? arc') fit fit'
    exact absurd hl (h.not_labelOf token)

theorem rest_cons_of_push {k' : Kind} {table inner : Grammar.Entry} {q : Nat}
    (entry : get? g.entries k = some table)
    (push : move g label (table.states.getD q []) = .push k' inner next) (u : List Nat) :
    g.Rest table q (label :: u) ↔
      ∃ u₁ u₂, u = u₁ ++ u₂ ∧ g.Rest inner 0 (label :: u₁) ∧ g.Rest table next u₂ := by
  obtain ⟨entry', first, i, hl, arc⟩ := move_push push
  have mem := Grammar.Entry.mem_of_next? arc
  have fit := LooksAhead.fits_symbol hl entry' first
  constructor
  · intro rest
    obtain ⟨r, arc', rest⟩ | ⟨j, r, _, _, u₁, u₂, arc', hl', entry'', rfl, inside, rest⟩ :=
      h.rest_cons rest
    · have fit' : g.fits label label = true := by simp [Grammar.fits]
      cases h.eq_of_fits entry token mem (Grammar.Entry.mem_of_next? arc') fit fit'
      exact absurd hl (h.not_labelOf token)
    · have fit' := LooksAhead.fits_symbol hl' entry'' (h.first_of_rest token entry'' inside)
      cases h.eq_of_fits entry token mem (Grammar.Entry.mem_of_next? arc') fit fit'
      obtain rfl := hl.1.symm.trans hl'.1
      cases entry'.symm.trans entry''
      exact ⟨u₁, u₂, rfl, inside, rest⟩
  · rintro ⟨u₁, u₂, rfl, inside, rest⟩
    exact .symbol arc hl entry' inside rest

theorem remaining_of_shift (linked : Linked g (top :: below))
    (shift : move g label top.arcs = .shift next)
    (children : List SyntaxTree) (v : List Nat) :
    Remaining g ({ top with state := next, children } :: below) v ↔
      Remaining g (top :: below) (label :: v) := by
  have arc := move_shift shift
  have fit : top.table.fitsAt g top.state label = true :=
    LooksAhead.fitsAt_iff.2 ⟨_, Grammar.Entry.mem_of_next? arc, by simp [Grammar.fits]⟩
  rw [remaining_cons_iff h token linked fit]
  simp only [rest_cons_of_shift h token linked.1 shift]
  rfl

theorem remaining_of_push {inner : Grammar.Entry} (linked : Linked g (top :: below))
    (push : move g label top.arcs = .push k inner next) (v : List Nat) :
    Remaining g (⟨k, inner, 0, []⟩ :: { top with state := next } :: below) (label :: v) ↔
      Remaining g (top :: below) (label :: v) := by
  obtain ⟨entry, first, i, hl, arc⟩ := move_push push
  have mem := Grammar.Entry.mem_of_next? (arc)
  have fit := LooksAhead.fitsAt_iff.2 ⟨_, mem, LooksAhead.fits_symbol hl entry first⟩
  rw [remaining_cons_iff h token linked fit]
  simp only [rest_cons_of_push h token linked.1 push]
  constructor
  · rintro ⟨u, w, split, inside, u₂, w₂, rfl, rest, lower⟩
    obtain none | ⟨u₁, rfl, rfl⟩ := cons_eq_append_iff.1 split
    · exact absurd none.1 (h.rest_ne_nil entry inside)
    · exact ⟨u₁ ++ u₂, w₂, by simp, ⟨u₁, u₂, rfl, inside, rest⟩, lower⟩
  · rintro ⟨u, w, rfl, ⟨u₁, u₂, rfl, inside, rest⟩, lower⟩
    exact ⟨label :: u₁, u₂ ++ w, by simp, inside, u₂, w, rfl, rest, lower⟩

theorem remaining_of_none (none : move g label top.arcs = .none)
    (v : List Nat) :
    Remaining g (top :: below) (label :: v) ↔
      top.table.Final top.state ∧ Remaining g below (label :: v) := by
  constructor
  · rintro ⟨u, w, split, rest, lower⟩
    obtain ⟨rfl, rfl⟩ | ⟨u', rfl, -⟩ := cons_eq_append_iff.1 split
    · exact ⟨h.final_of_rest_nil rest, lower⟩
    · obtain ⟨arc, mem, fit⟩ := LooksAhead.fitsAt_iff.1 (h.fitsAt_of_rest token rest)
      rw [fits_eq_false none mem] at fit
      cases fit
  · exact fun ⟨final, lower⟩ => ⟨[], _, rfl, .done final, lower⟩

end

theorem rest_of_acceptOnly (h : g.LooksAhead follow rank) (only : acceptOnly e = true) (u : List Nat) :
    g.Rest e.table e.state u ↔ u = [] := by
  have arcs : e.table.states.getD e.state [] = [(0, e.state)] := eq_of_beq only
  have zero : ∀ i r, e.table.next? e.state i = some r → i = 0 := by
    intro i r arc
    have mem := Grammar.Entry.mem_of_next? arc
    rw [arcs] at mem
    cases mem_singleton.1 mem
    rfl
  constructor
  · intro rest
    cases rest with
    | done => rfl
    | token arc label =>
      have none := zero _ _ arc
      exact absurd none (h.token _ label).1
    | symbol arc hl => exact absurd (zero _ _ arc) (Nat.ne_of_gt (h.pos_of_labelOf hl))
  · rintro rfl
    refine .done ?_
    rw [Grammar.Entry.Final, arcs]
    exact mem_singleton_self _

/-! ## One token -/

/-- The stack is linked, with the start symbol at its bottom. -/
structure Tracks (g : Grammar) (s : State) : Prop where
  linked : Linked g s.stack
  bottom : s.stack ≠ [] → s.stack.getLast?.map Entry.symbol = some g.start

theorem pop_exact (full : shape ≠ .raw) (hs : s.stack = top :: below) (tracks : Tracks g s) :
    ∃ s', pop shape s = (.ok (), s') ∧ Tracks g s' ∧ s'.ready = s.ready ∧
      s'.stack.length = below.length ∧ ∀ v, Remaining g s'.stack v ↔ Remaining g below v := by
  obtain ⟨linked, bottom⟩ := tracks
  rw [hs] at linked bottom
  unfold pop
  rw [hs]
  cases below with
  | nil =>
    simp only [full]
    exact ⟨_, rfl, ⟨trivial, by simp⟩, rfl, rfl, fun _ => .rfl⟩
  | cons next rest =>
    refine ⟨_, rfl, ⟨linked.2.2, fun _ => ?_⟩, rfl, rfl, fun _ => .rfl⟩
    have last := bottom (by simp)
    cases rest <;> simpa using last

/-- What a token that was taken leaves: the top of the stack can do more than end. -/
structure Taken (g : Grammar) (s s' : State) : Prop where
  tracks : Tracks g s'
  ready : s'.ready = s.ready
  settled : ∀ top below, s'.stack = top :: below → acceptOnly top = false

section

variable (h : g.LooksAhead follow rank)
include h

theorem popFinished_exact (full : shape ≠ .raw) {fuel : Nat} (enough : s.stack.length ≤ fuel)
    (tracks : Tracks g s) :
    ∃ s', popFinished shape fuel s = (.ok s'.stack.isEmpty, s') ∧ Taken g s s' ∧
      ∀ v, Remaining g s'.stack v ↔ Remaining g s.stack v := by
  induction fuel generalizing s with
  | zero =>
    have none := length_eq_zero_iff.1 (Nat.le_zero.1 enough)
    exact ⟨s, rfl, ⟨tracks, rfl, by simp [none]⟩, fun _ => .rfl⟩
  | succ fuel ih =>
    unfold popFinished
    cases hs : s.stack with
    | nil => exact ⟨s, by simp [hs], ⟨tracks, rfl, by simp [hs]⟩, fun v => by rw [hs]⟩
    | cons top below =>
      simp only
      by_cases only : acceptOnly top = true
      · obtain ⟨_, hpop, tracks₁, ready₁, _, remaining₁⟩ := pop_exact full hs tracks
        rw [hs, length_cons] at enough
        obtain ⟨s', run, taken, remaining⟩ := ih (by omega) tracks₁
        rw [if_pos only, hpop]
        refine ⟨s', run, ⟨taken.tracks, taken.ready.trans ready₁, taken.settled⟩, fun v => ?_⟩
        rw [remaining, remaining₁]
        constructor
        · exact fun lower => ⟨[], v, rfl, (rest_of_acceptOnly h only []).2 rfl, lower⟩
        · rintro ⟨u, w, rfl, rest, lower⟩
          rwa [(rest_of_acceptOnly h only u).1 rest]
      · rw [if_neg only]
        refine ⟨s, by simp [hs], ⟨tracks, rfl, fun e rest he => ?_⟩, fun v => by rw [hs]⟩
        rw [hs] at he
        cases he
        exact Bool.eq_false_iff.2 only

/-- The number of steps is enough: symbols are left before any is begun, and a symbol begun for the
label has one of less rank on top. -/
def Enough (g : Grammar) (rank : Kind → Nat) (label fuel : Nat) (stack : List Entry) : Prop :=
  stack.length + g.entries.length < fuel ∨ ∃ top below, stack = top :: below ∧ top.state = 0 ∧
    label ∈ top.table.first ∧ rank top.symbol < fuel

/-- Handling a token either takes it, and leaves what can come after it, or fails because it could not
come. -/
theorem handle_exact (hg : g.Predictive) (full : shape ≠ .raw) (token : label ∈ g.tokenLabels)
    (t : Input) {fuel : Nat} (some : s.stack ≠ []) (enough : Enough g rank label fuel s.stack)
    (tracks : Tracks g s) :
    (∃ s', handle g shape label t fuel s = (.ok s'.stack.isEmpty, s') ∧ Taken g s s' ∧
      ∀ v, Remaining g s'.stack v ↔ Remaining g s.stack (label :: v)) ∨
    ∃ what s', handle g shape label t fuel s = (.error (.misfit what t), s') ∧
      ∀ v, ¬ Remaining g s.stack (label :: v) := by
  induction fuel generalizing s with
  | zero =>
    obtain lt | ⟨_, _, _, _, _, lt⟩ := enough <;> exact absurd lt (Nat.not_lt_zero _)
  | succ fuel ih =>
    obtain ⟨top, below, hs⟩ := exists_cons_of_ne_nil some
    have linked := tracks.linked
    have bottom := tracks.bottom
    rw [hs] at linked bottom
    unfold handle
    rw [hs]
    simp only
    cases hm : move g label top.arcs with
    | shift next =>
      have tracks' : Tracks g { s with stack :=
          { top with state := next, children := top.children ++ [t.leaf] } :: below } :=
        ⟨linked, fun _ => by cases below <;> simpa using bottom (by simp)⟩
      obtain ⟨s', run, taken, remaining⟩ := popFinished_exact h full (Nat.le_refl _) tracks'
      refine .inl ⟨s', run, ⟨taken.tracks, taken.ready, taken.settled⟩, fun v => ?_⟩
      exact (remaining v).trans (remaining_of_shift h token linked hm _ v)
    | push k inner next =>
      obtain ⟨entry, first, i, hl, arc⟩ := move_push hm
      have mem := Grammar.Entry.mem_of_next? (arc)
      have tracks' : Tracks g { s with stack :=
          ⟨k, inner, 0, []⟩ :: { top with state := next } :: below } := by
        refine ⟨⟨entry, fun e rest he => ?_, linked⟩, fun _ => ?_⟩
        · cases he
          exact ⟨top.state, i, hl, mem⟩
        · cases below <;> simpa using bottom (by simp)
      have enough' : Enough g rank label fuel
          (⟨k, inner, 0, []⟩ :: { top with state := next } :: below) := by
        refine .inr ⟨_, _, rfl, rfl, first, ?_⟩
        change rank k < fuel
        obtain lt | ⟨e, rest, he, zero, -, lt⟩ := enough
        · have bound := (h.entry entry).rank_lt
          omega
        · rw [hs] at he
          cases he
          rw [zero] at mem
          have less := (h.entry linked.1).descends _ mem hl.isSymbol.1
          rw [hl.isSymbol.2] at less
          omega
      have same := remaining_of_push h token linked hm
      obtain ⟨s', run, taken, remaining⟩ | ⟨what, s', run, none⟩ :=
        ih (s := { s with stack := _ }) (by simp) enough' tracks'
      · exact .inl ⟨s', run, ⟨taken.tracks, taken.ready, taken.settled⟩,
          fun v => (remaining v).trans (same v)⟩
      · exact .inr ⟨what, s', run, fun v comes => none v ((same v).2 comes)⟩
    | none =>
      have leaves : ∀ v, Remaining g (top :: below) (label :: v) ↔ _ := remaining_of_none h token hm
      by_cases final : top.arcs.contains (0, top.state) = true
      · obtain ⟨s₁, hpop, tracks₁, ready₁, _, remaining₁⟩ := pop_exact full hs tracks
        have same : ∀ v, Remaining g s₁.stack (label :: v) ↔
            Remaining g (top :: below) (label :: v) := by
          intro v
          have final : top.table.Final top.state := contains_iff_mem.1 final
          rw [remaining₁, leaves, and_iff_right final]
        simp only [final, if_true, hpop]
        by_cases empty : s₁.stack = []
        · refine .inr ⟨.tooMuch, s₁, by simp [empty], fun v comes => ?_⟩
          have none := (same v).2 comes
          rw [empty] at none
          cases none
        · rw [if_neg (by simpa using empty)]
          have enough' : Enough g rank label fuel s₁.stack := by
            obtain lt | ⟨e, rest, he, zero, first, -⟩ := enough
            · refine .inl ?_
              rw [hs, length_cons] at lt
              omega
            · rw [hs] at he
              cases he
              rw [Entry.arcs, zero] at hm
              exact absurd hm (hg.first_moves _ _ _ linked.1 first)
          obtain ⟨s', run, taken, remaining⟩ | ⟨what, s', run, none⟩ := ih empty enough' tracks₁
          · exact .inl ⟨s', run, ⟨taken.tracks, taken.ready.trans ready₁, taken.settled⟩,
              fun v => (remaining v).trans (same v)⟩
          · exact .inr ⟨what, s', run, fun v comes => none v ((same v).2 comes)⟩
      · rw [if_neg final]
        refine .inr ⟨.badInput, s, rfl, fun v comes => final ?_⟩
        exact contains_iff_mem.2 ((leaves v).1 comes).1

/-! ## A run -/

/-- A parser in the middle of a text: something has to come before it can end. -/
structure Waiting (g : Grammar) (s : State) : Prop where
  tracks : Tracks g s
  ready : s.ready = true
  nonempty : s.stack ≠ []
  more : ¬ Remaining g s.stack []

/-- Where the start symbol can end, it has to, so a stack on which it is left needs more to come.  An
entry below another one is not at an end, since a symbol does not end the start symbol. -/
theorem not_remaining_nil (above : Option Entry) {stack : List Entry}
    (linked : Linked g (above.toList ++ stack)) (nonempty : stack ≠ [])
    (bottom : stack.getLast?.map Entry.symbol = some g.start)
    (settled : ∀ top below, above = none → stack = top :: below → acceptOnly top = false) :
    ¬ Remaining g stack [] := by
  induction stack generalizing above with
  | nil => exact absurd rfl nonempty
  | cons top below ih =>
    rintro ⟨u, w, split, rest, lower⟩
    obtain ⟨rfl, rfl⟩ := append_eq_nil_iff.1 split.symm
    have final := h.final_of_rest_nil rest
    have here : Linked g (top :: below) := by
      cases above with
      | none => exact linked
      | some e => exact linked.2.2
    cases below with
    | cons next below =>
      exact ih (some top) here (by simp) (by simpa using bottom) (by simp) lower
    | nil =>
      have start : top.symbol = g.start := by simpa using bottom
      obtain ⟨only, token⟩ := h.start _ (mem_of_get? here.1) start _
        (Grammar.Entry.mem_states final).1 final
      cases above with
      | none =>
        have refused := settled top [] rfl rfl
        rw [acceptOnly, beq_eq_false_iff_ne] at refused
        exact refused only
      | some e =>
        obtain ⟨q, i, hl, arc⟩ := linked.2.1 top [] rfl
        have none := token _ (Grammar.Entry.mem_states arc).2 _ arc rfl
        rw [hl.isSymbol.1] at none
        cases none

theorem Taken.waiting {s' : State} (taken : Taken g s s') (ready : s.ready = true)
    (nonempty : s'.stack ≠ []) : Waiting g s' := by
  obtain ⟨tracks, ready', settled⟩ := taken
  refine ⟨tracks, ready'.trans ready, nonempty, ?_⟩
  exact not_remaining_nil h none tracks.linked nonempty (tracks.bottom nonempty)
    fun top below _ => settled top below

/-- A token is taken or refused, and refused only if it could not come. -/
theorem addToken_exact (hg : g.Predictive) (full : shape ≠ .raw) (t : Input) (waiting : Waiting g s) :
    (∃ i s', classify g t = some i ∧ addToken g shape t s = (.ok s'.stack.isEmpty, s') ∧
      (s'.stack ≠ [] → Waiting g s') ∧
      ∀ v, Remaining g s'.stack v ↔ Remaining g s.stack (i :: v)) ∨
    ∃ what s', addToken g shape t s = (.error (.misfit what t), s') ∧
      ∀ i v, classify g t = some i → ¬ Remaining g s.stack (i :: v) := by
  obtain ⟨tracks, ready, nonempty, _⟩ := waiting
  obtain ⟨stack, ready₁, -⟩ := s.noting_eq t
  have tracks₁ : Tracks g (s.noting t) := ⟨stack ▸ tracks.linked, stack ▸ tracks.bottom⟩
  rw [addToken_of_ready t ready]
  cases label : classify g t with
  | none => exact .inr ⟨.badToken, _, rfl, nofun⟩
  | some i =>
    have token := Grammar.classify_mem_tokenLabels label
    obtain ⟨s', run, taken, remaining⟩ | ⟨what, s', run, none⟩ :=
      handle_exact h hg full token t (stack ▸ nonempty) (.inl (Nat.lt_succ_self _)) tracks₁
    · exact .inl ⟨i, s', rfl, run, taken.waiting h (ready₁.trans ready), fun v => by rw [remaining, stack]⟩
    · refine .inr ⟨what, s', run, fun j v found => ?_⟩
      cases found
      rw [← stack]
      exact none v

theorem setUp_waiting {before : State} (hs : setUp g none before = (.ok (), s)) :
    Waiting g s ∧ ∃ table, get? g.entries g.start = some table ∧
      ∀ v, Remaining g s.stack v ↔ g.Rest table 0 v := by
  unfold setUp at hs
  simp only [Option.getD_none] at hs
  split at hs
  · cases hs
  · rename_i table entry
    cases hs
    have remaining : ∀ v, Remaining g [⟨g.start, table, 0, []⟩] v ↔ g.Rest table 0 v := by
      intro v
      constructor
      · rintro ⟨u, w, rfl, rest, rfl⟩
        rwa [append_nil]
      · exact fun rest => ⟨v, [], (append_nil v).symm, rest, rfl⟩
    refine ⟨⟨⟨⟨entry, by simp, trivial⟩, by simp⟩, rfl, by simp, fun done => ?_⟩, table, entry,
      remaining⟩
    exact h.rest_ne_nil entry ((remaining []).1 done) rfl

end

theorem addToken_finished (g : Grammar) (shape : Shape) (t : Input) (hs : s.stack = []) :
    ∃ e s', addToken g shape t s = (.error e, s') := by
  cases ready : s.ready with
  | false =>
    obtain ⟨e, s', refused, -⟩ := addToken_of_unready g shape t ready
    exact ⟨e, s', refused⟩
  | true =>
    rw [addToken_of_ready t ready]
    split
    · exact ⟨_, _, rfl⟩
    · rw [handle, (s.noting_eq t).1, hs]
      exact ⟨_, _, rfl⟩

/-- A run ends well exactly on the sequences that can come. -/
theorem feed_iff (h : g.LooksAhead follow rank) (hg : g.Predictive) (full : shape ≠ .raw)
    (ts : List Input) (waiting : Waiting g s) :
    (∃ s', feed g shape ts s = (.ok true, s')) ↔
      ∃ labels, Forall₂ (fun t i => classify g t = some i) ts labels ∧
        Remaining g s.stack labels := by
  induction ts generalizing s with
  | nil =>
    constructor
    · rintro ⟨s', run⟩
      cases run
    · rintro ⟨labels, spelled, remaining⟩
      cases spelled
      exact absurd remaining waiting.more
  | cons t ts ih =>
    unfold feed
    obtain ⟨i, s₁, label, run, waits, remaining⟩ | ⟨_, s₁, run, none⟩ :=
      addToken_exact h hg full t waiting
    · have spells : (∃ labels, Forall₂ (fun t i => classify g t = some i) (t :: ts) labels ∧
          Remaining g s.stack labels) ↔
          ∃ labels, Forall₂ (fun t i => classify g t = some i) ts labels ∧
            Remaining g s₁.stack labels := by
        constructor
        · rintro ⟨labels, spelled, comes⟩
          obtain ⟨j, rest, found, later, rfl⟩ := forall₂_cons_left_iff.1 spelled
          cases label.symm.trans found
          exact ⟨rest, later, (remaining rest).2 comes⟩
        · rintro ⟨labels, spelled, comes⟩
          exact ⟨i :: labels, .cons label spelled, (remaining labels).1 comes⟩
      rw [run, spells]
      by_cases done : s₁.stack = []
      · cases ts with
        | nil => exact iff_of_true ⟨s₁, by simp [done]⟩ ⟨[], .nil, by rw [done]; rfl⟩
        | cons t' ts =>
          refine iff_of_false ?_ ?_
          · rintro ⟨s', wrong⟩
            obtain ⟨e, _, run⟩ := addToken_finished g shape t' done
            simp [feed, run] at wrong
          · rintro ⟨labels, spelled, comes⟩
            rw [done] at comes
            rw [comes] at spelled
            cases spelled
      · rw [← ih (waits done)]
        cases ts with
        | nil => simp [feed, done]
        | cons t' ts => simp
    · rw [run]
      constructor
      · rintro ⟨s', wrong⟩
        cases wrong
      · rintro ⟨labels, spelled, comes⟩
        obtain ⟨i, rest, found, -, rfl⟩ := forall₂_cons_left_iff.1 spelled
        exact absurd comes (none i rest found)

end Parser

end Retouch
