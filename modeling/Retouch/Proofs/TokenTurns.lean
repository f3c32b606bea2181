import Retouch.Proofs.ParserLookups

/-!
# The turns the parser takes over one token

The parser handles a token in turns: it leaves the symbol on top of its stack, enters a symbol, or
takes the token.  `Handles` says which turns are taken and sets no bound on their number; the bound
that the parser works with is never met where these turns end (`Handles.handle_eq`).

That they end rests on the first sets.  A symbol is entered because the token can begin it, so it has
an arc for the token and is not left again, and every further symbol is a left corner of the one
before.  Left corners lead in no circle (`Grammar.wellFounded_corner`), unless a rule names the kind at
which symbols begin, which the tables take for the start symbol (`addToken_unphased`).
-/

namespace Retouch

open List OrderedMap

/-! ## Left corners in the tables -/

namespace Grammar

variable {g : Grammar}

/-- The symbol `k'` is on an arc out of the initial state of the symbol `k`. -/
def Corner (g : Grammar) (k k' : Kind) : Prop :=
  ∃ table i j, get? g.entries k = some table ∧ table.next? 0 i = some j ∧ g.LabelOf k' i

theorem LabelOf.get?_symbols (hl : Labelled g)
    (plain : get? g.tokens Kind.firstSymbol = none) {k : Kind} {i : Nat} {l : Label}
    (label : g.LabelOf k i) (number : Numbered g l i) : get? g.symbols l = some k := by
  have symbol := label.isSymbol.1
  obtain ⟨m, meant, hi⟩ := numbered_iff.1 number
  cases m with
  | symbol name _ =>
    obtain ⟨rfl, -⟩ := meaning_symbol meant
    obtain ⟨-, k', hk', labels⟩ := hl.symbol name i hi
    have kind := label.1
    rw [getD_eq_getElem?_getD, labels, Option.getD_some] at kind
    rw [hk', ← kind]
  | token k' =>
    rw [hl.isSymbol_eq_false plain (.inr ⟨k', hi⟩)] at symbol
    cases symbol
  | keyword w =>
    rw [hl.isSymbol_eq_false plain (.inl ⟨w, hi⟩)] at symbol
    cases symbol

theorem Corner.leftCorner {rules : List Rule} (made : MadeFrom rules g)
    (plain : get? g.tokens Kind.firstSymbol = none) {k k' : Kind} (h : g.Corner k k')
    {name : Label} (hk : get? g.symbols name = some k) :
    ∃ l, get? g.symbols l = some k' ∧ (Automata.ofRules rules).LeftCorner name l := by
  obtain ⟨table, i, j, entry, step, label⟩ := h
  obtain ⟨_, d, hk', made'⟩ := made.table k table entry
  cases made.injective hk hk'
  have pos : 0 < i := by
    obtain ⟨_, _, found⟩ | ⟨_, found⟩ := label.origin made.labelled
    · exact (made.labelled.symbol _ _ found).1
    · exact (made.labelled.token _ _ found).1
  cases d with
  | nil => exact absurd rfl made'.nonempty
  | cons e d =>
    obtain ⟨l, e', number, -, arc⟩ := get?_of_next? made'.placed made'.states rfl pos step
    refine ⟨l, label.get?_symbols made.labelled plain number, ?_⟩
    rw [Automata.LeftCorner, Automata.initial, made'.automaton]
    exact mem_map.2 ⟨_, mem_of_get? arc, rfl⟩

/-- Left corners lead in no circle. -/
theorem wellFounded_corner {text : Text} (h : ofText text = .ok g)
    (plain : get? g.tokens Kind.firstSymbol = none) :
    WellFounded fun k' k => g.Corner k k' := by
  obtain ⟨rules, hr, made⟩ := ofText_madeFrom h
  obtain ⟨_, _, hr', hf, -⟩ := ofText_spec h
  cases hr.symm.trans hr'
  have named : ∀ {name}, (Automata.ofRules rules).Bounded name →
      ∀ {k}, get? g.symbols name = some k → Acc (fun k' k => g.Corner k k') k := by
    intro name bounded
    induction bounded with
    | intro name _ ih =>
      intro k hk
      refine ⟨k, fun k' corner => ?_⟩
      obtain ⟨l, hl, corner⟩ := corner.leftCorner made plain hk
      exact ih l corner hl
  refine ⟨fun k => ⟨k, fun k' corner => ?_⟩⟩
  obtain ⟨table, _, _, entry, -⟩ := id corner
  obtain ⟨name, d, hk, made'⟩ := made.table k table entry
  obtain ⟨_, found⟩ := exists_firstSet hf (Option.isSome_iff_exists.2 ⟨d, made'.automaton⟩)
  exact (named (firstSet_of_firstSets hf found).bounded hk).inv corner

end Grammar

/-! ## Turns -/

namespace Parser

/-- What the parser does in one turn. -/
inductive Turn where
  /-- It leaves the symbol on top of the stack. -/
  | leave
  | enter (symbol : Kind)
  | take
deriving DecidableEq, Repr

/-- What comes after a turn. -/
inductive Outcome where
  | goesOn (turn : Turn) (s : State)
  /-- The answer, after the turn if there was one. -/
  | answers (turn : Option Turn) (answer : Except ParseError Bool × State)

section Turns

variable (g : Grammar) (shape : Shape) (label : Nat) (t : Input)

def turn (s : State) : Outcome :=
  match s.stack with
  | [] => .answers none (.error .finished, s)
  | top :: below =>
    let arcs := top.table.states.getD top.state []
    match move g label arcs with
    | .shift next =>
      let top := { top with state := next, children := top.children ++ [t.leaf] }
      .answers (some .take) (popFinished shape (below.length + 1) { s with stack := top :: below })
    | .push symbol table next => .goesOn (.enter symbol)
        { s with stack := ⟨symbol, table, 0, []⟩ :: { top with state := next } :: below }
    | .none =>
      if arcs.contains (0, top.state) then
        match pop shape s with
        | (.error e, s') => .answers (some .leave) (.error e, s')
        | (.ok (), s') =>
          if s'.stack.isEmpty then .answers (some .leave) (.error (.misfit .tooMuch t), s')
          else .goesOn .leave s'
      else .answers none (.error (.misfit .badInput t), s)

/-- The token is handled by the turns, with the answer at the end.  Nothing bounds the number of turns. -/
inductive Handles : State → List Turn → Except ParseError Bool × State → Prop
  | last {s : State} {last : Option Turn} {answer : Except ParseError Bool × State}
      (h : turn g shape label t s = .answers last answer) : Handles s last.toList answer
  | next {s s' : State} {first : Turn} {turns : List Turn} {answer : Except ParseError Bool × State}
      (h : turn g shape label t s = .goesOn first s') (rest : Handles s' turns answer) :
      Handles s (first :: turns) answer

end Turns

variable {g : Grammar} {shape : Shape} {label : Nat} {t : Input} {s : State} {turns : List Turn}
  {answer : Except ParseError Bool × State}

theorem handle_succ (fuel : Nat) (s : State) : handle g shape label t (fuel + 1) s =
    match turn g shape label t s with
    | .goesOn _ s' => handle g shape label t fuel s'
    | .answers _ answer => answer := by
  rw [handle, turn]
  cases s.stack with
  | nil => rfl
  | cons top below =>
    simp only
    cases move g label top.arcs with
    | shift | push => rfl
    | none =>
      simp only
      split
      · cases pop shape s with
        | mk r s' =>
          cases r with
          | error => rfl
          | ok =>
            simp only
            split <;> rfl
      · rfl

theorem turn_cases {top : Entry} {below : List Entry} (stack : s.stack = top :: below) :
    match move g label top.arcs with
    | .shift _ => ∃ s', turn g shape label t s =
        .answers (some .take) (popFinished shape (below.length + 1) s')
    | .push k table next => turn g shape label t s = .goesOn (.enter k)
        { s with stack := ⟨k, table, 0, []⟩ :: { top with state := next } :: below }
    | .none => (∃ s', turn g shape label t s = .goesOn .leave s' ∧ s'.stack ≠ [] ∧
        s'.stack.length = below.length) ∨
      ∃ last ∈ [none, some Turn.leave], ∃ e s',
        turn g shape label t s = .answers last (.error e, s') ∧ e ≠ .finished := by
  rw [turn, stack]
  simp only
  cases move g label top.arcs with
  | shift next => exact ⟨_, rfl⟩
  | push k table next => rfl
  | none =>
    simp only
    split
    · unfold pop
      rw [stack]
      cases below with
      | nil =>
        by_cases raw : shape = .raw
        · simp only [raw]
          exact .inr ⟨some .leave, by simp, _, _, rfl, nofun⟩
        · simp only [raw]
          exact .inr ⟨some .leave, by simp, _, _, rfl, nofun⟩
      | cons next rest => exact .inl ⟨_, rfl, cons_ne_nil _ _, rfl⟩
    · exact .inr ⟨none, by simp, _, _, rfl, nofun⟩

theorem turn_of_nil (stack : s.stack = []) :
    turn g shape label t s = .answers none (.error .finished, s) := by
  cases s
  cases stack
  rfl

/-- A bound that is higher than the number of turns changes nothing. -/
theorem Handles.handle_eq (h : Handles g shape label t s turns answer) {fuel : Nat}
    (enough : turns.length ≤ fuel) : handle g shape label t (fuel + 1) s = answer := by
  induction h generalizing fuel with
  | last h => rw [handle_succ, h]
  | next h rest ih =>
    rw [handle_succ, h]
    cases fuel with
    | zero => cases enough
    | succ fuel => exact ih (Nat.le_of_succ_le_succ enough)

/-! ## The order of the turns -/

theorem popFinished_ne_misfit (fuel : Nat) (s : State) (what : Misfit) (u : Input) :
    (popFinished shape fuel s).1 ≠ .error (.misfit what u) := by
  fun_induction popFinished shape fuel s with
  | case1 | case2 | case5 => rintro ⟨⟩
  | case3 _ _ _ _ _ _ _ _ ih => exact ih
  | case4 _ s _ _ _ _ e s' left =>
    unfold pop at left
    repeat' split at left
    all_goals
      cases left
      try rintro ⟨⟩

theorem exists_enters (hg : g.Predictive) (wf : WellFounded fun k' k => g.Corner k k') {k : Kind} :
    ∀ {s : State} {table : Grammar.Entry} {below : List Entry},
      s.stack = ⟨k, table, 0, []⟩ :: below → get? g.entries k = some table →
      label ∈ table.first → ∃ ks answer, Handles g shape label t s (ks.map .enter ++ [.take]) answer ∧
        (k :: ks).IsChain g.Corner ∧ (∀ k' ∈ k :: ks, k' ∈ keys g.entries) ∧
        ∀ what u, answer.1 ≠ .error (.misfit what u) := by
  induction k using wf.induction with
  | _ k ih =>
    intro s table below stack entry first
    have key := (has_iff_mem_keys _ _).1 (Option.isSome_iff_exists.2 ⟨table, entry⟩)
    have turned := @turn_cases g shape label t s _ below stack
    cases fits : move g label (table.states.getD 0 []) with
    | none => exact absurd fits (hg.first_moves k table label entry first)
    | shift next =>
      rw [fits] at turned
      obtain ⟨s', taken⟩ := turned
      exact ⟨[], _, .last taken, .singleton k, by simpa using key, popFinished_ne_misfit _ _⟩
    | push k' table' next =>
      rw [fits] at turned
      obtain ⟨entry', first', i, labelled, step⟩ := move_push fits
      have corner : g.Corner k k' := ⟨table, i, next, entry, step, labelled⟩
      obtain ⟨ks, answer, handled, chain, keys, fine⟩ := @ih k' corner
        { s with stack := _ :: _ :: _ } table' _ rfl entry' first'
      exact ⟨k' :: ks, answer, .next turned handled, .cons_cons corner chain,
        forall_mem_cons.2 ⟨key, keys⟩, fine⟩

theorem nodup_of_corners (wf : WellFounded fun k' k => g.Corner k k') {ks : List Kind}
    (chain : ks.IsChain g.Corner) : ks.Nodup := by
  have reached : ks.Pairwise (Relation.TransGen g.Corner) :=
    isChain_iff_pairwise.1 (chain.imp fun _ _ => .single)
  refine reached.imp fun {a b} circle same => ?_
  subst same
  exact wf.transGen.irrefl.irrefl _ (Relation.transGen_swap.1 circle)

theorem exists_handles (hg : g.Predictive) (wf : WellFounded fun k' k => g.Corner k k')
    (stack : s.stack ≠ []) :
    ∃ n answer, (∃ ks : List Kind, ks.Nodup ∧ n + ks.length + 1 ≤ s.stack.length + g.entries.length ∧
        Handles g shape label t s (.replicate n .leave ++ ks.map .enter ++ [.take]) answer ∧
        ∀ what u, answer.1 ≠ .error (.misfit what u)) ∨
      n ≤ s.stack.length ∧ Handles g shape label t s (.replicate n .leave) answer ∧
        ∃ e ≠ .finished, answer.1 = .error e := by
  generalize size : s.stack.length = length
  induction length generalizing s with
  | zero => exact absurd (eq_nil_of_length_eq_zero size) stack
  | succ length ih =>
    obtain ⟨top, below, eq⟩ := exists_cons_of_ne_nil stack
    have below_length : below.length = length := by simpa [eq] using size
    have turned := @turn_cases g shape label t s top below eq
    cases fits : move g label top.arcs with
    | shift next =>
      rw [fits] at turned
      obtain ⟨s', taken⟩ := turned
      exact ⟨0, _, .inl ⟨[], .nil, by simp only [length_nil]; omega, .last taken,
        popFinished_ne_misfit _ _⟩⟩
    | push k table next =>
      rw [fits] at turned
      obtain ⟨entry, first, -⟩ := move_push fits
      obtain ⟨ks, answer, handled, chain, keys, fine⟩ := @exists_enters g shape label t hg wf k
        { s with stack := _ :: _ :: _ } table _ rfl entry first
      have nodup := nodup_of_corners wf chain
      have bound : (k :: ks).length ≤ g.entries.length := by
        simpa [OrderedMap.keys] using (nodup.subperm keys).length_le
      exact ⟨0, answer, .inl ⟨k :: ks, nodup, by omega, .next turned handled, fine⟩⟩
    | none =>
      rw [fits] at turned
      rcases turned with ⟨s', left, more, shorter⟩ | ⟨_, mem, e, s', refused, other⟩
      · obtain ⟨n, answer, ⟨ks, nodup, bound, handled, fine⟩ | ⟨bound, handled, refused⟩⟩ :=
          ih more (shorter.trans below_length)
        · exact ⟨n + 1, answer, .inl ⟨ks, nodup, by omega, .next left handled, fine⟩⟩
        · exact ⟨n + 1, answer, .inr ⟨by omega, .next left handled, refused⟩⟩
      · have turns := Handles.last refused
        rcases mem_pair.1 mem with rfl | rfl
        · exact ⟨0, _, .inr ⟨by omega, turns, e, other, rfl⟩⟩
        · exact ⟨1, _, .inr ⟨by omega, turns, e, other, rfl⟩⟩

/-- **How a token is handled.**  With the tables of a text in which no rule names the kind at which
symbols begin, a parser that was set up takes finitely many turns over every token: it leaves symbols,
then enters symbols that all differ, then takes the token.  A token is refused only where it has no
label or before a symbol is entered for it, and only after the end of the program it is no misfit but
finds no symbol to work on. -/
theorem addToken_phases {text : Text} (h : Grammar.ofText text = .ok g)
    (plain : OrderedMap.get? g.tokens Kind.firstSymbol = none) (ready : s.ready = true) :
    (classify g t = none → (addToken g shape t s).1 = .error (.misfit .badToken t)) ∧
    ∀ label, classify g t = some label → ∃ s₁ n, s₁.stack = s.stack ∧
      ((∃ ks : List Kind, ks.Nodup ∧
        Handles g shape label t s₁ (.replicate n .leave ++ ks.map .enter ++ [.take])
          (addToken g shape t s) ∧
        ∀ what u, (addToken g shape t s).1 ≠ .error (.misfit what u)) ∨
      Handles g shape label t s₁ (.replicate n .leave) (addToken g shape t s) ∧
        ∃ e, (addToken g shape t s).1 = .error e ∧ (e = .finished ↔ s.stack = [])) := by
  obtain ⟨predictive, -⟩ := Grammar.ofText_predictive h
  have wf := Grammar.wellFounded_corner h plain
  rw [addToken_of_ready t ready, ← (s.noting_eq t).1]
  generalize s.noting t = s₁
  refine ⟨fun unknown => by rw [unknown], fun label known => ⟨s₁, ?_⟩⟩
  simp only [known]
  by_cases empty : s₁.stack = []
  · have finished := @turn_of_nil g shape label t s₁ empty
    refine ⟨0, trivial, .inr ?_⟩
    rw [(Handles.last finished).handle_eq (Nat.zero_le _)]
    exact ⟨.last finished, _, rfl, iff_of_true rfl empty⟩
  · obtain ⟨n, answer, ⟨ks, nodup, bound, handled, fine⟩ | ⟨bound, handled, e, other, refused⟩⟩ :=
      @exists_handles g shape label t s₁ predictive wf empty
    · refine ⟨n, trivial, .inl ⟨ks, nodup, ?_⟩⟩
      rw [handled.handle_eq (by simpa [Nat.add_assoc] using bound)]
      exact ⟨handled, fine⟩
    · refine ⟨n, trivial, .inr ?_⟩
      rw [handled.handle_eq (by rw [length_replicate]; omega)]
      exact ⟨handled, e, refused, iff_of_false other empty⟩

/-- The second bracket of a nested list is taken after symbols are entered for it. -/
theorem addToken_phases_nested : ∃ g s t label s₁ n, ∃ ks : List Kind,
    Grammar.ofText nestedText = .ok g ∧ OrderedMap.get? g.tokens Kind.firstSymbol = none ∧
    s.ready = true ∧ nestedTokens[3]? = some t ∧ classify g t = some label ∧ s₁.stack = s.stack ∧ ks.Nodup ∧
    Handles g .full label t s₁ (.replicate n .leave ++ ks.map .enter ++ [.take])
      (addToken g .full t s) := by
  obtain ⟨g, table, made, entry, check⟩ := Grammar.exists_of_passes nestedText
    (fun g table =>
      let s := (feed g .full (nestedTokens.take 3) { ready := true, stack := [⟨g.start, table, 0, []⟩] }).2
      let t : Input := ⟨9, ['['], [' '], ⟨1, 4⟩⟩
      (get? g.tokens Kind.firstSymbol).isNone && s.ready && (classify g t).isSome &&
        (addToken g .full t s).1.toBool)
    (by decide +kernel)
  simp only [Bool.and_eq_true, Option.isNone_iff_eq_none, Option.isSome_iff_exists] at check
  obtain ⟨⟨⟨plain, ready⟩, label, known⟩, taken⟩ := check
  obtain ⟨s₁, n, stack, ⟨ks, nodup, handled, -⟩ | ⟨-, e, refused, -⟩⟩ :=
    (@addToken_phases g .full _ _ nestedText made plain ready).2 label known
  · exact ⟨g, _, _, label, s₁, n, ks, made, plain, ready, rfl, known, stack, nodup, handled⟩
  · rw [refused] at taken
    cases taken

/-! ## A circle of left corners -/

/-- The table of the symbol that is entered first from the initial state of a table. -/
def entered? (g : Grammar) (label : Nat) (table : Grammar.Entry) : Option Grammar.Entry :=
  match move g label (table.states.getD 0 []) with
  | .push _ inner _ => some inner
  | _ => none

theorem not_handles_of_circle {a b : Grammar.Entry} (first : entered? g label a = some b)
    (back : entered? g label b = some a) {top : Entry} {below : List Entry}
    (stack : s.stack = top :: below) (state : top.state = 0) (table : top.table = a ∨ top.table = b) :
    ¬ Handles g shape label t s turns answer := by
  have push : ∀ {top : Entry}, top.state = 0 → top.table = a ∨ top.table = b →
      ∃ k inner next, move g label top.arcs = .push k inner next ∧
        (inner = a ∨ inner = b) := by
    intro top state table
    rw [Entry.arcs, state]
    unfold entered? at first back
    rcases table with rfl | rfl
    · split at first <;> cases first
      exact ⟨_, _, _, ‹_›, .inr rfl⟩
    · split at back <;> cases back
      exact ⟨_, _, _, ‹_›, .inl rfl⟩
  intro h
  induction h generalizing top below with
  | @last s _ _ h =>
    obtain ⟨k, inner, next, fits, -⟩ := push state table
    have turned := @turn_cases g shape label t s top below stack
    rw [fits] at turned
    cases turned.symm.trans h
  | @next s _ _ _ _ h rest ih =>
    obtain ⟨k, inner, next, fits, again⟩ := push state table
    have turned := @turn_cases g shape label t s top below stack
    rw [fits] at turned
    cases turned.symm.trans h
    exact ih rfl rfl again

def circleText : Text := "start: a NEWLINE ENDMARKER\na: NT_OFFSET NUMBER | NAME\n"

def isFinished : Except ParseError Bool → Bool
  | .error .finished => true
  | _ => false

/-- **Tokens that are not handled in these phases.**  After the end of a program a token that has a label
finds no symbol to work on.  And with the tables of a text in which a rule names the kind at which
symbols begin, no number of turns handles a name at the start of the program, as the two symbols enter
each other. -/
theorem addToken_unphased :
    (∃ g s s' t label, Grammar.ofText nestedText = .ok g ∧ setUp g none {} = (.ok (), s) ∧
      feed g .full nestedTokens s = (.ok true, s') ∧ classify g t = some label ∧
      (addToken g .full t s').1 = .error .finished) ∧
    ∃ g s t label, Grammar.ofText circleText = .ok g ∧ setUp g none {} = (.ok (), s) ∧
      t.kind < Kind.firstSymbol ∧ classify g t = some label ∧
      ∀ shape turns answer, ¬ Handles g shape label t s turns answer := by
  have start : ∀ {g : Grammar} {table}, get? g.entries g.start = some table →
      setUp g none {} = (.ok (), { ready := true, stack := [⟨g.start, table, 0, []⟩] }) := by
    intro g table entry
    rw [setUp, Option.getD_none, entry]
  constructor
  · obtain ⟨g, s, done, s', made, begun, fed, check⟩ := exists_of_takes nestedText nestedTokens
      (fun g done s' =>
        let t : Input := ⟨Kind.name, ['x'], [], ⟨1, 8⟩⟩
        done && ((classify g t).isSome && isFinished (addToken g .full t s').1)) (by decide +kernel)
    simp only [Bool.and_eq_true] at check
    obtain ⟨rfl, known, answer⟩ := check
    obtain ⟨label, known⟩ := Option.isSome_iff_exists.1 known
    refine ⟨g, s, s', _, label, made, begun, fed, known, ?_⟩
    unfold isFinished at answer
    split at answer
    · assumption
    · cases answer
  · obtain ⟨g, table, made, entry, check⟩ := Grammar.exists_of_passes circleText
      (fun g table => (classify g ⟨Kind.name, ['x'], [], ⟨1, 0⟩⟩).any fun label =>
        ((entered? g label table).bind (entered? g label)) == some table) (by decide +kernel)
    obtain ⟨label, known, circle⟩ := (Option.any_eq_true _ _).1 check
    obtain ⟨inner, first, back⟩ := Option.bind_eq_some_iff.1 (eq_of_beq circle)
    exact ⟨g, _, _, label, made, start entry, by decide, known,
      fun _ _ _ => not_handles_of_circle first back rfl rfl (.inl rfl)⟩

end Parser

end Retouch
