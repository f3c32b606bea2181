import Retouch.Proofs.TableForms

/-!
# The parser finds what it looks up

The parser looks up states, labels and tables by their numbers, and does something else where one is
missing.  Here is a parser that has no answer in these cases: where the number of a state, a label or
a table leads nowhere, where the stack has no top, and where the label of a token stands for a symbol.
Over the tables of a grammar text the two parsers agree (`Grammar.ofText_wellFormed`): every entry of
the stack has the table of its symbol and a state of this table, at the beginning and after every token.
-/

namespace Retouch

open List

namespace Parser

/-! ## A parser that looks up strictly -/

/-- The first arc of a state that fits the label of a token, if all labels and tables up to it exist
and the label is no symbol. -/
def move? (g : Grammar) (label : Nat) : Grammar.State → Option Move
  | [] => some .none
  | (i, next) :: arcs =>
    match g.labels[i]? with
    | none => none
    | some (kind, _) =>
      if i = label then
        if kind < Kind.firstSymbol then some (.shift next) else none
      else if Kind.firstSymbol ≤ kind then
        match OrderedMap.get? g.entries kind with
        | none => none
        | some table =>
          if table.first.contains label then some (.push kind table next) else move? g label arcs
      else move? g label arcs

def popFinished? (shape : Shape) : Nat → State → Option (Except ParseError Bool × State)
  | 0, s => some (.ok s.stack.isEmpty, s)
  | fuel + 1, s =>
    match s.stack with
    | [] => some (.ok true, s)
    | top :: _ =>
      match top.table.states[top.state]? with
      | none => none
      | some arcs =>
        if arcs == [(0, top.state)] then
          match pop shape s with
          | (.ok (), s') => popFinished? shape fuel s'
          | (.error e, s') => some (.error e, s')
        else some (.ok false, s)

/-- Handle a token with a given label, if the stack has a top whose state exists. -/
def handle? (g : Grammar) (shape : Shape) (label : Nat) (t : Input) :
    Nat → State → Option (Except ParseError Bool × State)
  | 0, s => some (.error (.misfit .badInput t), s)
  | fuel + 1, s =>
    match s.stack with
    | [] => none
    | top :: below =>
      match top.table.states[top.state]? with
      | none => none
      | some arcs =>
        match move? g label arcs with
        | none => none
        | some (.shift next) =>
          popFinished? shape (below.length + 1) { s with
            stack := { top with state := next, children := top.children ++ [t.leaf] } :: below }
        | some (.push symbol table next) =>
          handle? g shape label t fuel
            { s with stack := ⟨symbol, table, 0, []⟩ :: { top with state := next } :: below }
        | some .none =>
          if arcs.contains (0, top.state) then
            match pop shape s with
            | (.error e, s') => some (.error e, s')
            | (.ok (), s') =>
              if s'.stack.isEmpty then some (.error (.misfit .tooMuch t), s')
              else handle? g shape label t fuel s'
          else some (.error (.misfit .badInput t), s)

def addToken? (g : Grammar) (shape : Shape) (t : Input) (s : State) :
    Option (Except ParseError Bool × State) :=
  if !s.ready && t.kind == Kind.name then some (.error .notReady, s)
  else
    let s := if t.kind = Kind.name then { s with names := insertNew s.names t.value } else s
    match classify g t with
    | none => some (.error (.misfit .badToken t), s)
    | some label =>
      if s.ready then handle? g shape label t (s.stack.length + g.entries.length + 1) s
      else some (.error .notReady, s)

/-! ## Entries of the stack -/

variable {g : Grammar} {shape : Shape}

/-- The entry has the table of its symbol, and a state of it. -/
structure Entry.Tabled (g : Grammar) (e : Entry) : Prop where
  table : OrderedMap.get? g.entries e.symbol = some e.table
  state : e.state < e.table.states.length

def Tabled (g : Grammar) (s : State) : Prop := ∀ e ∈ s.stack, e.Tabled g

theorem Entry.Tabled.exists_arcs {e : Entry} (h : e.Tabled g) :
    ∃ arcs, e.table.states[e.state]? = some arcs ∧ e.arcs = arcs := by
  have found := getElem?_eq_getElem h.state
  exact ⟨_, found, by rw [Entry.arcs, getD_eq_getElem?_getD, found]; rfl⟩

variable {s s' : State} {label fuel : Nat} {r : Except ParseError Bool} {t : Input}

theorem setUp_tabled (wf : g.WellFormed) {start : Option Kind} {before : State}
    (h : setUp g start before = (.ok (), s)) : Tabled g s := by
  unfold setUp at h
  simp only at h
  split at h
  · cases h
  · rename_i table entry
    cases h
    intro e he
    obtain rfl := mem_singleton.1 he
    exact ⟨entry, wf.nonempty _ table entry⟩

theorem pop_tabled {r : Except ParseError Unit} (hs : Tabled g s) (h : pop shape s = (r, s')) :
    Tabled g s' := by
  unfold pop at h
  split at h
  · cases h
    exact hs
  · rename_i top below stack
    split at h
    · split at h
      all_goals
        cases h
        exact nofun
    · rename_i next rest
      cases h
      unfold Tabled at hs
      rw [stack] at hs
      obtain ⟨-, tabled, rest⟩ : top.Tabled g ∧ next.Tabled g ∧ ∀ e ∈ rest, e.Tabled g := by
        simpa using hs
      exact forall_mem_cons.2 ⟨⟨tabled.table, tabled.state⟩, rest⟩

/-! ## Steps with strict look-ups -/

theorem move?_eq (wf : g.WellFormed)
    (token : ∀ kind word, g.labels[label]? = some (kind, word) → kind < Kind.firstSymbol)
    {arcs : Grammar.State} (bounded : ∀ arc ∈ arcs, arc.1 < g.labels.length) :
    move? g label arcs = some (move g label arcs) := by
  induction arcs with
  | nil => rfl
  | cons arc arcs ih =>
    obtain ⟨i, _⟩ := arc
    obtain ⟨lt, later⟩ := forall_mem_cons.1 bounded
    obtain ⟨⟨kind, word⟩, entry⟩ : ∃ l, g.labels[i]? = some l := ⟨_, getElem?_eq_getElem lt⟩
    have value : g.labelKind i = kind := by
      rw [Grammar.labelKind, getD_eq_getElem?_getD, entry]
      rfl
    simp only [move?, move, begun?, entry, value]
    by_cases same : i = label
    · subst same
      rw [if_pos rfl, if_pos rfl, if_pos (token kind word entry)]
    · rw [if_neg same, if_neg same]
      by_cases symbol : .firstSymbol ≤ kind
      · obtain ⟨_, found⟩ := wf.found i kind word entry symbol
        rw [if_pos symbol, if_pos symbol, found]
        simp only [Option.filter]
        split
        · rfl
        · exact ih later
      · rw [if_neg symbol, if_neg symbol]
        exact ih later

theorem popFinished?_eq (hs : Tabled g s) :
    popFinished? shape fuel s = some (popFinished shape fuel s) := by
  induction fuel generalizing s with
  | zero => rfl
  | succ fuel ih =>
    unfold popFinished? popFinished acceptOnly
    cases stack : s.stack with
    | nil => rfl
    | cons top below =>
      obtain ⟨_, found, value⟩ := (hs top (by rw [stack]; exact mem_cons_self)).exists_arcs
      simp only [found, value]
      split
      · cases popped : pop shape s with
        | mk r s' =>
          cases r with
          | error e => rfl
          | ok _ => exact ih (pop_tabled hs popped)
      · rfl

theorem follow_tabled (wf : g.WellFormed) {top : Entry} {below : List Entry} {i next : Nat}
    (hs : Tabled g s) (stack : s.stack = top :: below)
    (arc : top.arcs.lookup i = some next) (children : List SyntaxTree) :
    Tabled g { s with stack := { top with state := next, children := children } :: below } := by
  unfold Tabled at hs
  rw [stack] at hs
  obtain ⟨tabled, rest⟩ := forall_mem_cons.1 hs
  obtain ⟨_, found, value⟩ := tabled.exists_arcs
  rw [value] at arc
  refine forall_mem_cons.2 ⟨⟨tabled.table, ?_⟩, rest⟩
  exact (wf.arcs _ _ tabled.table _ _ found _ (OrderedMap.mem_of_get? arc)).2.1

theorem push_tabled (wf : g.WellFormed) {top : Entry} {below : List Entry} {next : Nat} {k : Kind}
    {table : Grammar.Entry} (hs : Tabled g s) (stack : s.stack = top :: below)
    (h : move g label top.arcs = .push k table next) :
    Tabled g { s with stack := ⟨k, table, 0, []⟩ :: { top with state := next } :: below } := by
  obtain ⟨entry, -, i, -, arc⟩ := move_push h
  exact forall_mem_cons.2 ⟨⟨entry, wf.nonempty k table entry⟩, follow_tabled wf hs stack arc _⟩

theorem handle?_eq (wf : g.WellFormed)
    (token : ∀ kind word, g.labels[label]? = some (kind, word) → kind < Kind.firstSymbol)
    (hs : Tabled g s) (top : s.stack ≠ []) :
    handle? g shape label t fuel s = some (handle g shape label t fuel s) := by
  induction fuel generalizing s with
  | zero => rfl
  | succ fuel ih =>
    unfold handle? handle
    cases stack : s.stack with
    | nil => exact absurd stack top
    | cons top below =>
      have tabled := hs top (by rw [stack]; exact mem_cons_self)
      obtain ⟨arcs, found, value⟩ := tabled.exists_arcs
      have looked := move?_eq wf token fun arc mem => (wf.arcs _ _ tabled.table _ _ found arc mem).1
      simp only [found, value, looked]
      cases moved : move g label arcs with
      | shift next =>
        refine popFinished?_eq (follow_tabled (i := label) wf hs stack ?_ _)
        rw [value]
        exact move_shift moved
      | push k table next =>
        rw [← value] at moved
        exact ih (push_tabled wf hs stack moved) (cons_ne_nil _ _)
      | none =>
        simp only
        split
        · cases popped : pop shape s with
          | mk r s' =>
            cases r with
            | error e => rfl
            | ok _ =>
              by_cases last : s'.stack.isEmpty = true
              · simp [last]
              · simpa [last] using ih (pop_tabled hs popped) (by simpa using last)
        · rfl

/-! ## A run -/

theorem popFinished_done {done : Bool} (h : popFinished shape fuel s = (.ok done, s')) :
    done = s'.stack.isEmpty := by
  fun_induction popFinished shape fuel s with
  | case1 =>
    cases h
    rfl
  | case2 _ _ stack | case5 _ _ _ _ stack =>
    cases h
    rw [stack]
    rfl
  | case3 _ _ _ _ _ _ _ _ ih => exact ih h
  | case4 => cases h

theorem handle_done {done : Bool} (h : handle g shape label t fuel s = (.ok done, s')) :
    done = s'.stack.isEmpty := by
  fun_induction handle g shape label t fuel s with
  | case1 | case2 | case5 | case6 | case8 => cases h
  | case3 => exact popFinished_done h
  | case4 _ _ _ _ _ _ _ _ _ ih | case7 _ _ _ _ _ _ _ _ _ _ ih => exact ih h

theorem addToken_tabled (wf : g.WellFormed) (hs : Tabled g s) (h : addToken g shape t s = (r, s')) :
    Tabled g s' ∧ ∀ done, r = .ok done → done = s'.stack.isEmpty := by
  have noted := fun e he => hs e ((s.noting_eq t).1 ▸ he)
  cases ready : s.ready with
  | false =>
    obtain ⟨e, _, refused, stack⟩ := addToken_of_unready g shape t ready
    cases refused.symm.trans h
    exact ⟨fun e he => hs e (stack ▸ he), nofun⟩
  | true =>
    rw [addToken_of_ready t ready] at h
    split at h
    · cases h
      exact ⟨noted, nofun⟩
    · refine ⟨handle_invariant pop_tabled ?_ (push_tabled wf) noted h, fun done hr => handle_done (hr ▸ h)⟩
      exact fun hs stack moved => follow_tabled wf hs stack (move_shift moved) _

theorem feed_tabled (wf : g.WellFormed) {ts : List Input} (hs : Tabled g s) (top : s.stack ≠ [])
    (h : feed g shape ts s = (.ok false, s')) : Tabled g s' ∧ s'.stack ≠ [] := by
  induction ts generalizing s with
  | nil =>
    cases h
    exact ⟨hs, top⟩
  | cons t ts ih =>
    unfold feed at h
    split at h
    · cases h
    · rename_i done s₁ added
      obtain ⟨hs₁, ended⟩ := addToken_tabled wf hs added
      split at h
      · cases h
        exact ⟨hs₁, by simpa using ended⟩
      · rename_i more
        refine ih hs₁ (fun last => ?_) h
        -- after the end of the program no further token is taken
        cases ts with
        | nil => exact more rfl
        | cons u ts =>
          obtain ⟨e, _, refused⟩ := addToken_finished g shape u last
          unfold feed at h
          rw [refused] at h
          cases h

theorem kind_of_classify (wf : g.WellFormed) (h : classify g t = some label)
    (kind : t.kind < Kind.firstSymbol) {k : Kind} {word : Option Text}
    (entry : g.labels[label]? = some (k, word)) : k < Kind.firstSymbol := by
  rcases Grammar.classify_eq_some h with ⟨-, keyword⟩ | token
  · have found := (wf.label (.keyword t.value) label keyword).2
    rw [entry] at found
    cases found
    decide
  · have found := (wf.label (.token t.kind) label token).2
    rw [entry] at found
    cases found
    exact kind

theorem addToken?_eq (wf : g.WellFormed) (hs : Tabled g s) (top : s.stack ≠ [])
    (kind : t.kind < Kind.firstSymbol) : addToken? g shape t s = some (addToken g shape t s) := by
  obtain ⟨stack, -⟩ := s.noting_eq t
  unfold addToken? addToken
  by_cases unready : (!s.ready && t.kind == .name) = true
  · rw [if_pos unready, if_pos unready]
  · rw [if_neg unready, if_neg unready]
    cases classified : classify g t with
    | none => rfl
    | some label =>
      have handled : ∀ fuel, handle? g shape label t fuel (s.noting t) =
          some (handle g shape label t fuel (s.noting t)) := fun fuel =>
        handle?_eq wf (fun k _ => kind_of_classify wf classified kind)
          (fun e he => hs e (stack ▸ he)) (stack ▸ top)
      by_cases ready : (s.noting t).ready = true
      · exact (if_pos ready).trans ((handled _).trans (congrArg some (if_pos ready).symm))
      · exact (if_neg ready).trans (congrArg some (if_neg ready).symm)

end Parser

namespace Grammar

/-- **The tables of a grammar text are well formed.**  They refer to one another without gaps; the first
rule is the start symbol, and the states that are marked as final are the final ones of the rules'
automata.  No label is listed twice, unless both the start symbol and the kind at which symbols begin
have labels.  So a parser that has been set up, and has not come to the end of the program, finds
whatever it looks up for a token. -/
theorem ofText_wellFormed {text : Text} {g : Grammar} (h : ofText text = .ok g) :
    g.WellFormed ∧
    (∃ rules, Reader.rules text = .ok rules ∧ (∃ r ∈ rules.head?, g.symbol? r.name = some g.start) ∧
      ∀ k table, OrderedMap.get? g.entries k = some table → ∃ name d, g.symbol? name = some k ∧
        OrderedMap.get? (Automata.ofRules rules) name = some d ∧ table.states.length = d.length ∧
        ∀ q e, d[q]? = some e → (table.Final q ↔ e.2.final = true)) ∧
    (g.labels.Nodup ↔ OrderedMap.get? g.tokens Kind.firstSymbol = none ∨
      ∀ name, g.symbol? name = some Kind.firstSymbol → OrderedMap.get? g.symbolLabels name = none) ∧
    ∀ shape start before s ts s' t, Parser.setUp g start before = (.ok (), s) →
      Parser.feed g shape ts s = (.ok false, s') → t.kind < Kind.firstSymbol →
      Parser.addToken? g shape t s' = some (Parser.addToken g shape t s') := by
  obtain ⟨rules, hr, made⟩ := ofText_madeFrom h
  have wf := made.wellFormed
  refine ⟨wf, ⟨rules, hr, made.symbol?_first, fun k table entry => ?_⟩, made.nodup_labels_iff, ?_⟩
  · obtain ⟨name, d, hk, table⟩ := made.table k table entry
    exact ⟨name, d, hk, table.automaton, table.states.length_eq.symm,
      fun q e he => final_iff made.labelled table.placed table.states he⟩
  · intro shape start before s ts s' t ready fed kind
    have begun : s.stack ≠ [] := by
      unfold Parser.setUp at ready
      simp only at ready
      split at ready
      · cases ready
      · cases ready
        exact cons_ne_nil _ _
    obtain ⟨tabled, top⟩ := Parser.feed_tabled wf (Parser.setUp_tabled wf ready) begun fed
    exact Parser.addToken?_eq wf tabled top kind

/-- In the middle of a nested list every further token finds what it looks up. -/
theorem ofText_wellFormed_nested : ∃ g s s', ofText nestedText = .ok g ∧
    Parser.setUp g none {} = (.ok (), s) ∧
    Parser.feed g .full (nestedTokens.take 4) s = (.ok false, s') ∧ g.WellFormed ∧ g.labels.Nodup ∧
    ∀ t ∈ nestedTokens, Parser.addToken? g .full t s' = some (Parser.addToken g .full t s') := by
  obtain ⟨g, s, done, s', hg, hs, fed, run⟩ := Parser.exists_of_takes nestedText (nestedTokens.take 4)
    (fun g done _ => !done && (OrderedMap.get? g.tokens Kind.firstSymbol).isNone) (by decide +kernel)
  obtain ⟨more, plain⟩ := Bool.and_eq_true_iff.1 run
  cases (show done = false by simpa using more)
  obtain ⟨wf, -, nodup, strict⟩ := ofText_wellFormed hg
  refine ⟨g, s, s', hg, hs, fed, wf, nodup.2 (.inl (Option.isNone_iff_eq_none.1 plain)), ?_⟩
  intro t ht
  have kinds : ∀ t ∈ nestedTokens, t.kind < Kind.firstSymbol := by decide
  exact strict .full none {} s _ s' t hs fed (kinds t ht)

def offsetText : Text := "start: NAME [start] NT_OFFSET NEWLINE ENDMARKER\n"

/-- The text is accepted, and two of its labels look the same. -/
theorem ofText_labels_repeated : ∃ g, ofText offsetText = .ok g ∧ ¬ g.labels.Nodup := by
  obtain ⟨g, -, made, -, check⟩ := exists_of_passes offsetText
    (fun g _ => decide (¬ g.labels.Nodup)) (by decide +kernel)
  exact ⟨g, made, of_decide_eq_true check⟩

end Grammar

end Retouch
