import Retouch.Proofs.ParserRuns
import Retouch.Proofs.PatternRules
import Retouch.Proofs.TokenOrder

/-!
# The language of patterns is parsed exactly

A text is parsed as a pattern exactly if the labels of its tokens derive from `Matcher` by the rules
of the language (`Pattern.Language.parse_exact`).  The proof has three parts that hold for any grammar:
the parser takes exactly what can come for its tables if these look ahead, what can come for the tables
is what derives from the rules, and the tokens of a text come in order, so that the parser is given all
of them.  What is left is checked on the rules and tables of the language
(`Pattern.Language.Made`).
-/

namespace Retouch

open List

/-! ## Parsing tokens that come in order -/

namespace Source

open Scan (Ascends)
open Retouch.Parser (Waiting Remaining)

/-- Each token starts at or after the place that the one before it leads to. -/
def InOrder : Position → List Token → Prop
  | _, [] => True
  | p, t :: ts => p.le t.start = true ∧ InOrder (placeAfter t) ts

variable {ts us : List Token}

theorem inOrder_of_ascends {p q : Position} (h : Ascends p ts q)
    (h' : InOrder q us) : InOrder p (ts ++ us) := by
  induction ts generalizing p with
  | nil =>
    cases us with
    | nil => trivial
    | cons t us => exact ⟨Position.le_trans h h'.1, h'.2⟩
  | cons t ts ih => exact ⟨h.2.1, ih h.2.2.2⟩

variable {t : Token} {refused : SourceError → Prop}

theorem moveTo_of_le {c : Cursor} (h : c.place.le t.start = true) :
    ∃ lead, c.moveTo t = .ok ⟨t.start, lead⟩ := by
  unfold Cursor.moveTo
  split
  · rename_i same
    exact ⟨c.lead, by rw [same]⟩
  · rw [if_neg (by simp [h])]
    exact ⟨_, rfl⟩

def HasLabel (g : Grammar) (t : Token) (i : Nat) : Prop :=
  ∃ k, parserKind t = .ok k ∧ Parser.classify g ⟨k, t.text, [], t.start⟩ = some i

theorem parserKind_error {e : SourceError} (h : parserKind t = .error e) :
    t.kind = Kind.operator ∧ Kind.ofOperator? t.text = none ∧ e = .unknownOperator t.text := by
  unfold parserKind at h
  split at h
  · rename_i kind
    split at h
    · cases h
    · rename_i unknown
      cases h
      exact ⟨kind, unknown, rfl⟩
  · cases h

/-- What goes wrong with tokens that come in order: a token does not fit, they break off, or a mark is
no operator. -/
def Refused (failure : Option ScanError) (ts : List Token) (e : SourceError) : Prop :=
  (∃ what t, e = .parse (.misfit what t)) ∨ (∃ f, failure = some f ∧ e = .scan f) ∨
    ∃ t ∈ parsed ts, parserKind t = .error e

def Comes (g : Grammar) (stack : List Parser.Entry) (ts : List Token) : Prop :=
  ∃ pre labels, pre <+: parsed ts ∧ List.Forall₂ (HasLabel g) pre labels ∧ Remaining g stack labels

/-- A parse succeeds exactly if `comes`, and otherwise is `refused` for its error. -/
inductive Answers (comes : Prop) (refused : SourceError → Prop) : Except SourceError Source → Prop
  | ok (source : Source) (yes : comes) : Answers comes refused (.ok source)
  | error {e : SourceError} (no : ¬ comes) (why : refused e) : Answers comes refused (.error e)

variable {g : Grammar} {follow : Kind → List Nat} {rank : Kind → Nat} {shape : Shape}

theorem comes_cons_iff {stack : List Parser.Entry}
    (h : isTrivia t = false) (more : ¬ Remaining g stack []) :
    Comes g stack (t :: ts) ↔ ∃ pre i labels, pre <+: parsed ts ∧ HasLabel g t i ∧
      Forall₂ (HasLabel g) pre labels ∧ Remaining g stack (i :: labels) := by
  unfold Comes
  rw [parsed_cons ts h]
  constructor
  · rintro ⟨pre, labels, first, labelled, comes⟩
    cases labelled with
    | nil => exact absurd comes more
    | cons label labelled =>
      obtain ⟨rfl, later⟩ := cons_prefix_cons.1 first
      exact ⟨_, _, _, later, label, labelled, comes⟩
  · rintro ⟨pre, i, labels, first, label, labelled, comes⟩
    exact ⟨t :: pre, i :: labels, cons_prefix_cons.2 ⟨rfl, first⟩, .cons label labelled, comes⟩

theorem Answers.noting {comes : Prop} {o : Outcome} (line : Text) (h : Answers comes refused o.result) :
    Answers comes refused (o.noting line).result := h

theorem Answers.congr {comes comes' : Prop} {refused' : SourceError → Prop}
    {r : Except SourceError Source} (h : Answers comes refused r) (same : comes ↔ comes')
    (refuses : ∀ e, refused e → refused' e) : Answers comes' refused' r := by
  cases h with
  | ok source yes => exact .ok source (same.1 yes)
  | error no why => exact .error (fun yes => no (same.2 yes)) (refuses _ why)

theorem Refused.cons {failure : Option ScanError} {e : SourceError}
    (h : Refused failure ts e) : Refused failure (t :: ts) e := by
  obtain h | h | ⟨u, mem, unknown⟩ := h
  · exact .inl h
  · exact .inr (.inl h)
  · refine .inr (.inr ⟨u, ?_, unknown⟩)
    exact ((sublist_cons_self t ts).filter _).subset mem

theorem parseFrom_exact (h : g.LooksAhead follow rank) (hg : g.Predictive) (full : shape ≠ .raw)
    (failure : Option ScanError) {state : Parser.State} {cursor : Cursor}
    (last : Input) (order : InOrder cursor.place ts) (waiting : Waiting g state) :
    Answers (Comes g state.stack ts) (Refused failure ts)
      (parseFrom g shape failure state cursor last ts).result := by
  induction ts generalizing state cursor last with
  | nil =>
    have none : ¬ Comes g state.stack [] := by
      rintro ⟨pre, labels, first, labelled, comes⟩
      rw [prefix_nil.1 first] at labelled
      cases labelled
      exact waiting.more comes
    cases failure with
    | some f => exact .error none (.inr (.inl ⟨f, rfl, rfl⟩))
    | none => exact .error none (.inl ⟨_, _, rfl⟩)
  | cons t ts ih =>
    obtain ⟨start, order⟩ := order
    obtain ⟨lead, moved⟩ := moveTo_of_le start
    unfold parseFrom
    rw [moved]
    cases trivia : isTrivia t with
    | true =>
      have same : Comes g state.stack ts ↔ Comes g state.stack (t :: ts) := by
        rw [Comes, Comes, parsed_cons_of_trivia ts trivia]
      exact (ih _ order waiting).congr same fun _ => .cons
    | false =>
      have first := @comes_cons_iff ts t g _ trivia waiting.more
      cases kind : parserKind t with
      | error e =>
        refine .error ?_ (.inr (.inr ⟨t, by simp [parsed_cons ts trivia], kind⟩))
        rw [first]
        rintro ⟨_, _, _, _, ⟨k, found, _⟩, _⟩
        cases kind.symm.trans found
      | ok k =>
        simp only [Bool.false_eq_true]
        obtain ⟨i, s', label, run, waits, remaining⟩ | ⟨_, s', run, none⟩ :=
          Parser.addToken_exact h hg full ⟨k, t.text, lead, t.start⟩ waiting
        · have hasLabel : HasLabel g t i := ⟨k, kind, label⟩
          rw [run]
          by_cases done : s'.stack = []
          · rw [done]
            refine .ok _ (first.2 ⟨[], i, [], nil_prefix, hasLabel, .nil, ?_⟩)
            rw [← remaining, done]
            rfl
          · rw [isEmpty_eq_false_iff.2 done]
            refine .noting _ ((ih _ order (waits done)).congr ?_ fun _ => .cons)
            rw [first]
            constructor
            · rintro ⟨pre, labels, first, labelled, comes⟩
              exact ⟨pre, i, labels, first, hasLabel, labelled, (remaining labels).1 comes⟩
            · rintro ⟨pre, j, labels, first, ⟨k', kind', label'⟩, labelled, comes⟩
              cases kind.symm.trans kind'
              cases label.symm.trans label'
              exact ⟨pre, labels, first, labelled, (remaining labels).2 comes⟩
        · rw [run]
          refine .error ?_ (.inl ⟨_, _, rfl⟩)
          rw [first]
          rintro ⟨pre, j, labels, -, ⟨k', kind', label'⟩, -, comes⟩
          cases kind.symm.trans kind'
          exact none j labels label' comes

end Source

namespace Pattern.Language

open Grammar Source

variable {g : Grammar}

/-! ## Labels of whole texts -/

theorem eq_map_iff {α : Type} {R : α → Nat → Prop} {f : α → Label}
    (h : ∀ l ∈ terminals languageRules, ∀ a, l = f a ↔ ∃ i, Numbered g l i ∧ R a i)
    {u : List Label} (hu : ∀ l ∈ u, l ∈ terminals languageRules) (as : List α) :
    u = as.map f ↔
      ∃ v, Forall₂ (Numbered g) u v ∧ Forall₂ R as v := by
  induction u generalizing as with
  | nil =>
    constructor
    · intro eq
      rw [map_eq_nil_iff.1 eq.symm]
      exact ⟨[], .nil, .nil⟩
    · rintro ⟨v, numbered, related⟩
      cases numbered
      cases related
      rfl
  | cons l u ih =>
    obtain ⟨first, later⟩ := forall_mem_cons.1 hu
    cases as with
    | nil =>
      refine iff_of_false nofun ?_
      rintro ⟨v, numbered, related⟩
      cases related
      cases numbered
    | cons a as =>
      rw [map_cons, cons.injEq, h l first a, ih later as]
      constructor
      · rintro ⟨⟨i, number, rel⟩, v, numbered, related⟩
        exact ⟨i :: v, .cons number numbered, .cons rel related⟩
      · rintro ⟨v, numbered, related⟩
        cases numbered with
        | cons number numbered =>
          cases related with
          | cons rel related => exact ⟨⟨_, number, rel⟩, _, numbered, related⟩

theorem derivable_map_iff {α : Type} {R : α → Nat → Prop} {f : α → Label}
    (h : ∀ l ∈ terminals languageRules, ∀ a, l = f a ↔ ∃ i, Numbered g l i ∧ R a i)
    (as : List α) :
    Derivable languageRules "Matcher" (as.map f) ↔ ∃ v, Forall₂ R as v ∧
      ∃ u, Forall₂ (Numbered g) u v ∧ Derivable languageRules "Matcher" u := by
  constructor
  · intro derivable
    obtain ⟨v, numbered, related⟩ := (eq_map_iff h derivable.mem_terminals as).1 rfl
    exact ⟨v, related, _, numbered, derivable⟩
  · rintro ⟨v, related, u, numbered, derivable⟩
    rwa [← (eq_map_iff h derivable.mem_terminals as).2 ⟨v, numbered, related⟩]

theorem Made.exists_setUp (h : Made g) : ∃ s, Parser.setUp g none {} = (.ok (), s) ∧
    Parser.Waiting g s ∧ ∀ v, Parser.Remaining g s.stack v ↔
      ∃ u, Forall₂ (Numbered g) u v ∧ Derivable languageRules "Matcher" u := by
  have ahead := h.suits.looksAhead
  obtain ⟨k, table, tableOf⟩ := h.tables.ofRule _ mem_cons_self
  have symbol := tableOf.symbol
  rw [h.suits.symbols] at symbol
  obtain rfl := (Option.some.inj (symbol.symm.trans (by rfl))).trans h.suits.start.symm
  have started : Parser.setUp g none {} =
      (.ok (), { ready := true, stack := [⟨g.start, table, 0, []⟩] }) := by
    simp [Parser.setUp, tableOf.entry]
  obtain ⟨waiting, _, entry, remaining⟩ := Parser.setUp_waiting ahead started
  cases tableOf.entry.symm.trans entry
  refine ⟨_, started, waiting, fun v => ?_⟩
  rw [remaining, h.tables.rest_iff ahead languageRules_faithful tableOf]

theorem exists_endMarker {v : List Label} (h : Derivable languageRules "Matcher" v) :
    ∃ u, v = u ++ [("ENDMARKER" : Text)] := by
  have one : ∀ r ∈ languageRules, r.name = "Matcher" →
      r.rhs = .sequence (.label "Alternatives") (.label "ENDMARKER") := by decide
  have mark : ∀ r ∈ languageRules, r.name ≠ "ENDMARKER" := by decide
  obtain ⟨r, mem, name, w, word, expands⟩ := h
  rw [one r mem name] at word
  obtain ⟨_, rfl, _, rfl, rfl⟩ := word
  obtain ⟨u, u', rfl, rest⟩ := expands.exists_append
  exact ⟨u, by rw [rest.eq_singleton mark]⟩

def tokens (text : Text) : List Token := parsed (scanned text).tokens

def tokenLabel (t : Token) : Label :=
  match parserKind t with
  | .ok k => label ⟨k, t.text, [], t.start⟩
  | .error _ => []

theorem Made.eq_tokenLabel_iff (h : Made g) (l : Label) (hl : l ∈ terminals languageRules) (t : Token) :
    l = tokenLabel t ↔ ∃ i, Numbered g l i ∧ HasLabel g t i := by
  unfold tokenLabel HasLabel
  cases parserKind t with
  | ok k =>
    simp only [Except.ok.injEq, exists_eq_left']
    exact h.eq_label_iff hl _
  | error e =>
    have nonempty : ∀ l ∈ terminals languageRules, l ≠ [] := by decide
    simp only [reduceCtorEq, false_and, exists_false, and_false, iff_false]
    exact nonempty l hl

theorem kind_of_parserKind {t : Token} (h : parserKind t = .ok Kind.endMarker) :
    t.kind = Kind.endMarker := by
  have operators : ∀ op ∈ Kind.operators, op.2 ≠ .endMarker := by decide
  unfold parserKind at h
  split at h
  · split at h
    · rename_i k found
      cases h
      exact absurd rfl (operators _ (@OrderedMap.mem_of_get? _ _ _ _ _ Kind.operators _ found))
    · cases h
  · exact Except.ok.inj h

theorem kind_of_tokenLabel {t : Token} (h : tokenLabel t = "ENDMARKER") :
    t.kind = Kind.endMarker := by
  have only : ∀ k ∈ kinds, kindLabel k = "ENDMARKER" → k = .endMarker := by decide
  unfold tokenLabel at h
  split at h
  · rename_i k kind
    unfold label at h
    split at h
    · exact absurd h (by decide)
    · have mem : k ∈ kinds := by
        by_contra mem
        exact absurd ((kindLabel_of_notMem mem).symm.trans h) (by decide)
      rw [only k mem h] at kind
      exact kind_of_parserKind kind
  · exact absurd h (by decide)

/-! ## Exactness -/

theorem exists_kind_endMarker {ts : List Token}
    (h : Derivable languageRules "Matcher" (ts.map tokenLabel)) :
    ∃ t ∈ ts, t.kind = Kind.endMarker := by
  obtain ⟨u, eq⟩ := exists_endMarker h
  have mem : ("ENDMARKER" : Text) ∈ ts.map tokenLabel := by
    rw [eq]
    exact mem_append_right u (mem_singleton_self _)
  obtain ⟨t, ht, label⟩ := mem_map.1 mem
  exact ⟨t, ht, kind_of_tokenLabel label⟩

theorem scanned_leads (text : Text) : Scan.TextLeads ⟨1, 0⟩ (scanned text) := by
  have leads := Scan.scan_leads text
  unfold scanned
  generalize scan (Text.lines text) = s at leads
  cases leads with
  | @complete ts q last ascends kind empty start =>
    have kept : (ts ++ [last]).filter (fun t => !isLayout t) =
        ts.filter (fun t => !isLayout t) ++ [last] := by
      simp [isLayout, kind, Kind.endMarker, Kind.newline, Kind.indent, Kind.dedent]
    simp only [kept]
    exact .complete (ascends.filter _) kind empty start
  | broken ascends => exact .broken (ascends.filter _)

theorem inOrder_scanned (text : Text) : InOrder ⟨1, 0⟩ (scanned text).tokens := by
  have leads := scanned_leads text
  generalize scanned text = s at leads
  cases leads with
  | complete ascends _ _ start =>
    exact inOrder_of_ascends ascends ⟨start ▸ Position.le_refl _, trivial⟩
  | @broken ts _ _ ascends =>
    rw [← append_nil ts]
    exact inOrder_of_ascends ascends trivial

theorem exists_prefix_iff (text : Text) :
    (∃ pre, pre <+: tokens text ∧ Derivable languageRules "Matcher" (pre.map tokenLabel)) ↔
      (scanned text).failure = none ∧
        Derivable languageRules "Matcher" ((tokens text).map tokenLabel) := by
  constructor
  · rintro ⟨pre, first, derivable⟩
    obtain ⟨t, mem, mark⟩ := exists_kind_endMarker derivable
    have leads := scanned_leads text
    unfold tokens at first ⊢
    generalize scanned text = s at leads first
    cases leads with
    | @complete ts q last ascends kind _ _ =>
      have counts : parsed (ts ++ [last]) = parsed ts ++ [last] := by
        simp [parsed, isTrivia, kind, Kind.endMarker, Kind.comment, Kind.lineBreak]
      rw [counts] at first ⊢
      obtain rfl | first := prefix_concat_iff.1 first
      · exact ⟨rfl, derivable⟩
      · exact absurd mark (ascends.kind_ne t (mem_of_mem_filter (first.subset mem)))
    | broken ascends =>
      exact absurd mark (ascends.kind_ne t (mem_of_mem_filter (first.subset mem)))
  · rintro ⟨-, derivable⟩
    exact ⟨_, prefix_rfl, derivable⟩

theorem Made.parseScan_answers (h : Made g) (text : Text) :
    Answers ((scanned text).failure = none ∧
        Derivable languageRules "Matcher" ((tokens text).map tokenLabel))
      (Refused (scanned text).failure (scanned text).tokens)
      (parseScan g .full (scanned text)).result := by
  obtain ⟨s, started, waiting, remaining⟩ := h.exists_setUp
  unfold parseScan
  rw [started]
  refine (parseFrom_exact h.suits.looksAhead h.predictive (by decide) _ _
    (inOrder_scanned text) waiting).congr ?_ fun _ refused => refused
  rw [← exists_prefix_iff]
  refine exists_congr fun _ => ?_
  rw [derivable_map_iff h.eq_tokenLabel_iff]
  simp only [remaining, exists_and_left]
  rfl

theorem Made.exists_feed (h : Made g) : ∃ s, Parser.setUp g none {} = (.ok (), s) ∧
    ∀ ts : List Input, (∃ s', Parser.feed g .full ts s = (.ok true, s')) ↔
      Derivable languageRules "Matcher" (ts.map label) := by
  obtain ⟨s, started, waiting, remaining⟩ := h.exists_setUp
  refine ⟨s, started, fun ts => ?_⟩
  rw [Parser.feed_iff h.suits.looksAhead h.predictive (by decide) ts waiting,
    derivable_map_iff fun l hl => h.eq_label_iff hl]
  simp [remaining]

def IsSyntaxError (e : PatternError) : Prop := e.message?.isSome = true

/-- The error of a text that cannot be split into tokens, or has a mark that is no operator. -/
inductive IsTokenError (text : Text) : PatternError → Prop
  | scan {f : ScanError} (failure : (scanned text).failure = some f) :
      IsTokenError text (.source (.scan f))
  | operator {t : Token} (mem : t ∈ tokens text) (kind : t.kind = Kind.operator)
      (unknown : Kind.ofOperator? t.text = none) :
      IsTokenError text (.source (.unknownOperator t.text))

theorem Made.parseBy_exact (h : Made g) (text : Text) :
    ((∃ tree, parseBy g text = .ok tree) ↔ (scanned text).failure = none ∧
      Derivable languageRules "Matcher" ((tokens text).map tokenLabel)) ∧
    ∀ e, parseBy g text = .error e → IsSyntaxError e ∨ IsTokenError text e := by
  have answers := h.parseScan_answers text
  unfold parseBy
  generalize (parseScan g .full _).result = r at answers
  cases answers with
  | ok source yes => exact ⟨iff_of_true ⟨_, rfl⟩ yes, nofun⟩
  | error no why =>
    refine ⟨iff_of_false nofun no, ?_⟩
    rintro _ ⟨⟩
    obtain ⟨_, t, rfl⟩ | ⟨f, failure, rfl⟩ | ⟨t, mem, unknown⟩ := why
    · exact .inl rfl
    · exact .inr (.scan failure)
    · obtain ⟨kind, noKind, rfl⟩ := parserKind_error unknown
      exact .inr (.operator mem kind noKind)

/-- **The language of patterns is parsed exactly.**  The parser takes a sequence of tokens if and only
if their labels derive from `Matcher`, and a text is parsed if and only if it can be split into tokens
whose labels do.  Any other text is refused with a message, unless it cannot be split into tokens or has
a mark that is no operator. -/
theorem parse_exact (text : Text) :
    (∃ s, Parser.setUp languageGrammar none {} = (.ok (), s) ∧
      ∀ ts : List Input, (∃ s', Parser.feed languageGrammar .full ts s = (.ok true, s')) ↔
        Derivable languageRules "Matcher" (ts.map label)) ∧
    ((∃ tree, parse text = .ok tree) ↔ (scanned text).failure = none ∧
      Derivable languageRules "Matcher" ((tokens text).map tokenLabel)) ∧
    ((∃ tree, parse text = .ok tree) ∨ ∃ e, parse text = .error e ∧ compile text = .error e ∧
      (IsSyntaxError e ∨ IsTokenError text e)) := by
  refine ⟨made_languageGrammar.exists_feed, ?_⟩
  obtain ⟨parses, refuses⟩ := made_languageGrammar.parseBy_exact text
  refine ⟨parses, ?_⟩
  cases run : parse text with
  | ok tree => exact .inl ⟨tree, rfl⟩
  | error e =>
    refine .inr ⟨e, rfl, ?_, refuses e run⟩
    rw [compile, run]
    rfl

/-- A mark that is no operator is refused without a word about the pattern. -/
theorem compile_imaginaryDigit :
    ¬ Derivable languageRules "Matcher" ((tokens "٣j").map tokenLabel) ∧
      compile "٣j" = .error (.source (.unknownOperator "٣j")) ∧
      ¬ IsSyntaxError (.source (.unknownOperator "٣j")) := by
  have eq : scanned "٣j" = ⟨[⟨Kind.operator, "٣j", ⟨1, 0⟩, ⟨1, 2⟩, "٣j"⟩,
      ⟨Kind.endMarker, [], ⟨2, 0⟩, ⟨2, 0⟩, []⟩], none⟩ := by decide +kernel
  refine ⟨fun derivable => ?_, ?_, nofun⟩
  · have none : [] ∉ terminals languageRules := by decide
    refine none (derivable.mem_terminals [] ?_)
    rw [tokens, eq]
    decide
  · have refused : ∀ g, Made g → parseBy g "٣j" = .error (.source (.unknownOperator "٣j")) := by
      intro g h
      obtain ⟨s, started, -⟩ := h.exists_setUp
      rw [parseBy, eq, parseScan, started]
      rfl
    rw [compile, parse, refused _ made_languageGrammar]
    rfl

end Pattern.Language

end Retouch
