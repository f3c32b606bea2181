import Retouch.Proofs.Derivation
import Retouch.Proofs.RuleLanguage
import Retouch.Proofs.ScanSteps
import Retouch.Proofs.Tables

/-!
# Tables made from a text are predictive

The parser enters a symbol when the next token can begin it, and then has to find an arc.  Tables
made from a grammar text never let it down (`ofText_predictive`): what is in a first set comes from
an arc out of the initial state.  The names of rules are tokens of kind name, so that an arc named
like a rule is never read as a literal.  So whatever the parser accepts is a derivation of the start
symbol (`feed_derives`).
-/

namespace Retouch

open List OrderedMap

/-! ## Names in a scanned text -/

namespace Scan

theorem headIs_of_plainKind {depth : Int} {lexeme : Text} (h : plainKind depth lexeme = Kind.name) :
    Lexeme.headIs Lexeme.isNameStart lexeme = true := by
  unfold plainKind at h
  split at h
  · cases h
  · by_contra hc
    rw [Lexeme.headIs] at hc
    repeat' split at h
    all_goals cases h

theorem Made.headIs_of_name {t : Token} (h : Made t) (name : t.kind = Kind.name) :
    Lexeme.headIs Lexeme.isNameStart t.text = true := by
  cases h with
  | loose kind | mark kind | indent kind | string kind =>
    rw [name] at kind
    exact absurd kind (by decide)
  | plain depth kind => exact headIs_of_plainKind (kind.symm.trans name)

end Scan

/-! ## Names of rules -/

namespace Grammar

namespace Reader

variable {i : Input}

theorem expect_suffix {kind : Kind} {text : Option Text} {i' : Input} {found : Text}
    (h : expect kind text i = .ok (found, i')) : i'.tokens <:+ i.tokens := by
  obtain ⟨t, ht, h⟩ := bind_eq_ok.1 h
  split at h
  · cases h
    exact drop_suffix 1 _
  · cases h

theorem rule_spec {i' : Input} {r : Rule} (h : rule i = .ok (r, i')) :
    i'.tokens <:+ i.tokens ∧ ∃ t ∈ i.tokens, t.kind = Kind.name ∧ t.text = r.name := by
  obtain ⟨⟨_, _⟩, h₁, h⟩ := bind_eq_ok.1 h
  obtain ⟨⟨_, _⟩, h₂, h⟩ := bind_eq_ok.1 h
  obtain ⟨⟨e, _⟩, h₃, h⟩ := bind_eq_ok.1 h
  obtain ⟨⟨_, _⟩, h₄, h⟩ := bind_eq_ok.1 h
  cases h
  have skipped : (skipNewlines i).tokens <:+ i.tokens := dropWhile_suffix _
  refine ⟨?_, ?_⟩
  · obtain ⟨used, split, -⟩ := (rhs_reads _).1 _ _ _ h₃
    exact (expect_suffix h₄).trans (.trans ⟨used, split.symm⟩
      ((expect_suffix h₂).trans ((expect_suffix h₁).trans skipped)))
  · obtain ⟨t, ht, h₁⟩ := bind_eq_ok.1 h₁
    split at h₁
    · rename_i fits
      cases h₁
      exact ⟨t, skipped.subset (peek_eq_ok ht ▸ mem_cons_self), fits.1, rfl⟩
    · cases h₁

theorem rulesFrom_names {fuel : Nat} {found : List Rule} (h : rulesFrom fuel i = .ok found) :
    ∀ r ∈ found, ∃ t ∈ i.tokens, t.kind = Kind.name ∧ t.text = r.name := by
  induction fuel generalizing i found with
  | zero => cases h
  | succ fuel ih =>
    obtain ⟨t, _, h⟩ := bind_eq_ok.1 h
    split at h
    · cases h
      simp
    · obtain ⟨⟨r, _⟩, h₁, h⟩ := bind_eq_ok.1 h
      obtain ⟨_, h₂, h⟩ := bind_eq_ok.1 h
      cases h
      obtain ⟨suffix, named⟩ := rule_spec h₁
      intro r' hr
      rcases mem_cons.1 hr with rfl | hr
      · exact named
      · obtain ⟨t, ht, hk⟩ := ih h₂ r' hr
        exact ⟨t, suffix.subset ht, hk⟩

theorem rules_nameStart {text : Text} {found : List Rule} (h : rules text = .ok found) :
    ∀ r ∈ found, Lexeme.headIs Lexeme.isNameStart r.name = true := by
  intro r hr
  obtain ⟨t, ht, hk, hn⟩ := rulesFrom_names h r hr
  rw [← hn]
  exact (Scan.scan_made _ t (mem_of_mem_filter ht)).headIs_of_name hk

end Reader

theorem headIs_of_has {text : Text} {rules : List Rule} (hr : Reader.rules text = .ok rules)
    {name : Label} (h : has (Automata.ofRules rules) name = true) :
    Lexeme.headIs Lexeme.isNameStart name = true := by
  obtain ⟨r, mem, rfl⟩ := has_ofRules_iff.1 h
  exact Reader.rules_nameStart hr r mem

/-! ## Finding an arc -/

variable {g : Grammar} {automata : Automata} {firsts : OrderedMap Label (List Label)}

variable {i : Nat}

theorem Described.initial_arc {d : Dfa} {first : List Label} {table : Entry}
    (hd : Described g d first table) {arc : Label} (h : arc ∈ initialLabels d) :
    ∃ i next, (i, next) ∈ table.states.getD 0 [] ∧ Numbered g arc i := by
  obtain ⟨_, _⟩ := table
  cases hd.states with
  | nil => cases h
  | cons hs _ =>
    obtain ⟨_, numbered, rfl⟩ := hs
    obtain ⟨⟨_, _⟩, hmem, rfl⟩ := mem_map.1 h
    obtain ⟨⟨i, next⟩, hi, hn, -⟩ := exists_of_forall₂_left numbered hmem
    refine ⟨i, next, ?_, hn⟩
    split
    · exact mem_append_left _ hi
    · exact hi

theorem Numbered.symbol {label : Label} {k : Kind} (hl : Labelled g)
    (named : Lexeme.headIs Lexeme.isNameStart label = true)
    (hk : get? g.symbols label = some k) (hn : Numbered g label i) :
    g.labels.getD i (0, none) = (k, none) := by
  obtain ⟨m, hm, hi⟩ := numbered_iff.1 hn
  -- the name begins with a letter or an underscore, so it is not in quotes
  obtain ⟨name, k', rfl⟩ : ∃ name k', m = .symbol name k' := by
    cases label with
    | nil => cases named
    | cons c cs =>
      simp only [meaning, hk] at hm
      split at hm
      · cases hm
        exact ⟨_, _, rfl⟩
      · split at hm
        · rename_i quote
          rcases quote with rfl | rfl <;> cases named
        · cases hm
  obtain ⟨rfl, _⟩ := meaning_symbol hm
  obtain ⟨_, _, hk₂, found⟩ := hl.symbol _ _ hi
  rw [hk] at hk₂
  cases hk₂
  rw [getD_eq_getElem?_getD, found]
  rfl

theorem TablesOf.table_of_numbered (t : TablesOf automata firsts g) {l : Label}
    (isRule : has automata l = true) (named : Lexeme.headIs Lexeme.isNameStart l = true)
    (hi : Numbered g l i) : ∃ k table, g.labels.getD i (0, none) = (k, none) ∧
      Kind.firstSymbol ≤ k ∧ get? g.entries k = some table ∧
      RuleTable automata firsts g l table := by
  obtain ⟨k, hk⟩ := (t.symbol_iff l).2 isRule
  obtain ⟨table, entry, described⟩ := t.present l k hk
  exact ⟨k, table, hi.symbol t.labelled named hk, t.atLeast l k hk, entry, described⟩

theorem TablesOf.predictive (t : TablesOf automata firsts g) (hf : firstSets automata = .ok firsts)
    (named : ∀ name, has automata name = true →
      Lexeme.headIs Lexeme.isNameStart name = true) : g.Predictive := by
  refine ⟨?_, ?_⟩
  · intro t' i hi
    rcases classify_eq_some hi with ⟨_, word⟩ | token
    · exact ne_of_gt (t.labelled.keyword _ i word).1
    · exact ne_of_gt (t.labelled.token _ i token).1
  · intro k table label hk hlabel
    obtain ⟨name, _, rule⟩ := t.known k table hk
    obtain ⟨l, hl, hnum⟩ := rule.label_of_first label hlabel
    obtain ⟨set, hset, hlset⟩ : ∃ set, get? firsts name = some set ∧ l ∈ set := by
      cases hset : get? firsts name with
      | none => rw [hset] at hl; cases hl
      | some set => exact ⟨set, rfl, by rw [hset] at hl; exact hl⟩
    have begins := ((firstSet_of_firstSets hf hset).mem_iff l).1 hlset
    obtain ⟨arc, harc, begins⟩ :=
      (Automata.canBegin_rule_iff (isRule_of_firstSets hf hset)).1 begins
    obtain ⟨i, _, hmem, hi⟩ := rule.initial_arc harc
    intro none
    obtain ⟨other, never⟩ := Parser.move_none none _ hmem
    by_cases isRule : has automata arc = true
    · obtain ⟨_, hset'⟩ := exists_firstSet hf isRule
      have hl' := ((firstSet_of_firstSets hf hset').mem_iff l).2 begins
      obtain ⟨k', table', label', symbol, entry, rule'⟩ := t.table_of_numbered isRule (named arc isRule) hi
      obtain ⟨j, hj, hnum'⟩ := rule'.first_of_label l (by rw [hset']; exact hl')
      rw [hnum'.unique hnum] at hj
      have kind : g.labelKind i = k' := congrArg Prod.fst label'
      exact nomatch never.symm.trans (Parser.begun?_eq_some.2
        ⟨⟨rfl, kind ▸ symbol⟩, kind ▸ entry, hj⟩)
    · rw [Automata.canBegin_token_iff (Bool.eq_false_of_not_eq_true isRule)] at begins
      subst begins
      exact other (hi.unique hnum)

/-- The tables of a grammar text are predictive, and their labels are those they were given while
they were made. -/
theorem ofText_predictive {text : Text} (h : ofText text = .ok g) : g.Predictive ∧ Labelled g := by
  obtain ⟨_, _, hr, hf, t, -⟩ := ofText_spec h
  exact ⟨t.predictive hf fun _ => headIs_of_has hr, t.labelled⟩

/-- The label that stands for a symbol is the number of its name.  The first symbol can have another
one, as its kind has a name among the kinds of tokens. -/
theorem LabelOf.origin (hl : Labelled g) {k : Kind} (h : g.LabelOf k i) :
    (∃ name, get? g.symbols name = some k ∧
      get? g.symbolLabels name = some i) ∨
    k = Kind.firstSymbol ∧ get? g.tokens k = some i := by
  obtain ⟨kind, symbol⟩ := h
  rw [getD_eq_getElem?_getD] at kind
  cases found : g.labels[i]? with
  | none =>
    rw [found] at kind
    subst kind
    cases symbol
  | some label =>
    rw [found] at kind
    have pos : 0 < i := by
      refine Nat.pos_of_ne_zero fun zero => ?_
      obtain ⟨_, first⟩ := hl.zero
      rw [zero, first] at found
      cases found
      subst kind
      exact absurd (show Kind.firstSymbol ≤ 0 from symbol) (by decide)
    obtain ⟨w | k' | name, ho⟩ := hl.origin i pos (List.getElem?_eq_some_iff.1 found).1
    · rw [(hl.keyword w i ho).2] at found
      cases found
      subst kind
      exact absurd (show Kind.firstSymbol ≤ .name from symbol) (by decide)
    · rw [(hl.token k' i ho).2] at found
      cases found
      subst kind
      exact .inr ⟨le_antisymm (hl.tokenKind k' i ho) symbol, ho⟩
    · obtain ⟨_, k', hk, hi⟩ := hl.symbol name i ho
      rw [hi] at found
      cases found
      subst kind
      exact .inl ⟨name, hk, ho⟩

end Grammar

/-! ## Parsing with the tables of a text -/

/-- **The parser is sound.**  For every grammar text that has tables, a run that the parser ends with
the last token builds a tree with a node for every symbol that derives from the start symbol: its
leaves are the given tokens, and the labels of the children of a node lead the automaton of its symbol
from the initial to a final state.  The label of a token is the one that the parser looks it up by,
and that of a symbol is the number of its name. -/
theorem Parser.feed_derives {text : Text} {g : Grammar} (hg : Grammar.ofText text = .ok g)
    {start : Option Kind} {before s s' : State} {ts : List Input}
    (hs : setUp g start before = (.ok (), s)) (h : feed g .full ts s = (.ok true, s')) :
    (∃ tree, s'.root = some tree ∧ Derives g .full (start.getD g.start) tree ∧
      tree.leaves = ts.map Input.token) ∧
    ∀ k i, g.LabelOf k i →
      (∃ name, OrderedMap.get? g.symbols name = some k ∧
        OrderedMap.get? g.symbolLabels name = some i) ∨
      k = Kind.firstSymbol ∧ OrderedMap.get? g.tokens k = some i := by
  obtain ⟨predictive, labelled⟩ := Grammar.ofText_predictive hg
  obtain ⟨sound, ready⟩ := setUp_sound hs
  exact ⟨feed_sound predictive sound ready h, fun _ _ label => label.origin labelled⟩

def nestedText : Text := "list: '[' [item (',' item)*] ']'\nitem: NAME | list\n"

/-- The tokens of the list `[a, [b]]`. -/
def nestedTokens : List Input :=
  [⟨9, ['['], [], ⟨1, 0⟩⟩, ⟨1, ['a'], [], ⟨1, 1⟩⟩, ⟨12, [','], [], ⟨1, 2⟩⟩,
    ⟨9, ['['], [' '], ⟨1, 4⟩⟩, ⟨1, ['b'], [], ⟨1, 5⟩⟩, ⟨10, [']'], [], ⟨1, 6⟩⟩,
    ⟨10, [']'], [], ⟨1, 7⟩⟩]

/-- Does a parser for the text take the tokens, with an answer that passes a check? -/
def Parser.takes (text : Text) (tokens : List Input) (check : Grammar → Bool → State → Bool) : Bool :=
  match Grammar.ofText text with
  | .ok g =>
    match setUp g none {} with
    | (.ok (), s) =>
      match feed g .full tokens s with
      | (.ok done, s') => check g done s'
      | _ => false
    | _ => false
  | .error _ => false

theorem Parser.exists_of_takes (text : Text) (tokens : List Input)
    (check : Grammar → Bool → State → Bool) (h : takes text tokens check = true) :
    ∃ g s done s', Grammar.ofText text = .ok g ∧ setUp g none {} = (.ok (), s) ∧
      feed g .full tokens s = (.ok done, s') ∧ check g done s' = true := by
  unfold takes at h
  split at h
  · rename_i g hg
    split at h
    · rename_i s hs
      split at h
      · rename_i done s' fed
        exact ⟨g, s, done, s', hg, hs, fed, h⟩
      · cases h
    · cases h
  · cases h

theorem Parser.feed_derives_nested : ∃ g s s' tree, Grammar.ofText nestedText = .ok g ∧
    setUp g none {} = (.ok (), s) ∧ feed g .full nestedTokens s = (.ok true, s') ∧
    s'.root = some tree ∧ Derives g .full g.start tree ∧
    tree.leaves = nestedTokens.map Input.token := by
  obtain ⟨g, s, done, s', hg, hs, h, ended⟩ :=
    exists_of_takes nestedText nestedTokens (fun _ done _ => done) (by decide +kernel)
  cases (show done = true from ended)
  obtain ⟨⟨tree, root, derived, leaves⟩, _⟩ := feed_derives hg hs h
  exact ⟨g, s, s', tree, hg, hs, h, root, derived, leaves⟩

end Retouch
