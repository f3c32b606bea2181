import Retouch.Proofs.Derivation
import Retouch.Syntax.Source

/-!
# What the parser is given

To parse tokens is to give the parser what they become, each with its lead (`Source.parseFrom_given`).  So
a tree that is parsed derives from the start, its leaves are the tokens from the first on, and the names among them
are kept (`Source.parseScan_ok`).
-/

namespace Retouch

open List

namespace Parser

def accepts (g : Grammar) (shape : Shape) : List Input → State → Option State
  | [], _ => none
  | t :: ts, s =>
    match addToken g shape t s with
    | (.ok true, s') => some s'
    | (.ok false, s') => accepts g shape ts s'
    | (.error _, _) => none

def State.source (g : Grammar) (s : State) : Source := ⟨s.root.getD (.node () g.start []), s.names⟩

variable {g : Grammar} {shape : Shape} {s s' : State}

/-! ## Names -/

theorem pop_names {r : Except ParseError Unit} (h : pop shape s = (r, s')) : s'.names = s.names := by
  unfold pop at h
  repeat' split at h
  all_goals
    cases h
    rfl

theorem addToken_names {t : Input} {done : Bool} (h : addToken g shape t s = (.ok done, s')) :
    s'.names = if t.kind = Kind.name then insertNew s.names t.value else s.names := by
  have noted : (s.noting t).names =
      if t.kind = .name then insertNew s.names t.value else s.names := by
    unfold State.noting
    split <;> rfl
  rw [← noted]
  cases ready : s.ready with
  | false =>
    obtain ⟨e, _, refused, -⟩ := addToken_of_unready g shape t ready
    cases refused.symm.trans h
  | true =>
    rw [addToken_of_ready t ready] at h
    split at h
    · cases h
    · exact handle_invariant (P := fun s' => s'.names = (s.noting t).names)
        (fun same popped => (pop_names popped).trans same) (fun same _ _ => same)
        (fun same _ _ => same) rfl h

theorem accepts_sound (hg : g.Predictive) {start : Kind} {fed : List Leaf} {ins : List Input}
    (sound : Sound g shape start fed s) (ready : Ready s) (h : accepts g shape ins s = some s') :
    ∃ a t b tree, ins = a ++ t :: b ∧ s'.root = some tree ∧ Derives g shape start tree ∧
      tree.leaves = fed ++ (a ++ [t]).map Input.token ∧ s.names ⊆ s'.names ∧
      ∀ i ∈ a ++ [t], i.kind = Kind.name → i.value ∈ s'.names := by
  induction ins generalizing fed s with
  | nil => cases h
  | cons t ins ih =>
    have named {done : Bool} {s₁ : State} (added : addToken g shape t s = (.ok done, s₁)) :
        s.names ⊆ s₁.names ∧ (t.kind = .name → t.value ∈ s₁.names) := by
      rw [addToken_names added, insertNew]
      split
      · split <;> simp_all
      · exact ⟨.refl _, fun name => absurd name ‹_›⟩
    unfold accepts at h
    split at h
    · rename_i s₁ added
      cases h
      obtain ⟨sound', _, done⟩ := addToken_sound hg sound ready added
      obtain ⟨tree, root, derived, leaves⟩ := sound'.root (by simpa using done.symm)
      refine ⟨[], t, ins, tree, rfl, root, derived, by simpa using leaves, (named added).1, ?_⟩
      exact forall_mem_singleton.2 (named added).2
    · rename_i s₁ added
      obtain ⟨sound', ready', _⟩ := addToken_sound hg sound ready added
      obtain ⟨a, u, b, tree, rfl, root, derived, leaves, kept, names⟩ := ih sound' ready' h
      refine ⟨t :: a, u, b, tree, rfl, root, derived, by simpa using leaves,
        Subset.trans (named added).1 kept, ?_⟩
      exact forall_mem_cons.2 ⟨fun name => kept ((named added).2 name), names⟩
    · cases h

end Parser

namespace Source

variable {g : Grammar} {shape : Shape}

def parsed (ts : List Token) : List Token := ts.filter fun t => !isTrivia t

theorem parsed_cons_of_trivia {t : Token} (ts : List Token) (h : isTrivia t = true) :
    parsed (t :: ts) = parsed ts := by
  simp [parsed, h]

theorem parsed_cons {t : Token} (ts : List Token) (h : isTrivia t = false) :
    parsed (t :: ts) = t :: parsed ts := by
  simp [parsed, h]

/-- What the parser is given of tokens, up to one that is misplaced or unknown. -/
def given (cursor : Cursor) : List Token → List Input
  | [] => []
  | t :: ts =>
    match cursor.moveTo t with
    | .error _ => []
    | .ok cursor =>
      if isTrivia t then given ⟨placeAfter t, cursor.lead ++ t.text⟩ ts
      else
        match parserKind t with
        | .error _ => []
        | .ok kind => ⟨kind, t.text, cursor.lead, t.start⟩ :: given ⟨placeAfter t, []⟩ ts

/-- **To parse tokens is to give them to the parser.** -/
theorem parseFrom_given (failure : Option ScanError) (state : Parser.State) (cursor : Cursor)
    (last : Input) (ts : List Token) :
    (parseFrom g shape failure state cursor last ts).result.toOption =
      (Parser.accepts g shape (given cursor ts) state).map (Parser.State.source g) := by
  induction ts generalizing state cursor last with
  | nil =>
    cases failure <;> rfl
  | cons t ts ih =>
    unfold parseFrom given
    cases cursor.moveTo t with
    | error e => rfl
    | ok cursor =>
      simp only
      split
      · exact ih ..
      · cases parserKind t with
        | error e => rfl
        | ok kind =>
          simp only [Parser.accepts]
          split
          · rename_i added
            rw [added]
            rfl
          · rename_i added
            rw [added]
            rfl
          · rename_i added
            rw [added]
            exact ih ..

/-- The leaf has the characters of the token, and the kind by which the parser knows it. -/
structure Becomes (t : Token) (l : Leaf) : Prop where
  kind : parserKind t = .ok l.kind
  value : l.value = .text t.text

theorem given_becomes (cursor : Cursor) (ts : List Token) :
    ∃ pre, pre <+: parsed ts ∧ Forall₂ Becomes pre ((given cursor ts).map Input.token) := by
  induction ts generalizing cursor with
  | nil => exact ⟨[], nil_prefix, .nil⟩
  | cons t ts ih =>
    unfold given
    split
    · exact ⟨[], nil_prefix, .nil⟩
    · split
      · rename_i trivia
        rw [parsed_cons_of_trivia ts trivia]
        exact ih _
      · rename_i other
        rw [parsed_cons ts (Bool.eq_false_iff.2 other)]
        split
        · exact ⟨[], nil_prefix, .nil⟩
        · rename_i known
          obtain ⟨pre, first, become⟩ := ih ⟨placeAfter t, []⟩
          exact ⟨t :: pre, cons_prefix_cons.2 ⟨rfl, first⟩, .cons ⟨known, rfl⟩ become⟩

/-- A tree that is parsed derives from the start.  Its leaves are the first tokens that the parser is
given, and the names among them are known. -/
theorem parseScan_ok (hg : g.Predictive) {s : Scan} {source : Source}
    (h : (parseScan g shape s).result = .ok source) :
    Derives g shape g.start source.tree ∧ ∃ ins, ins <+: given {} s.tokens ∧
      source.tree.leaves = ins.map Input.token ∧
      ∀ i ∈ ins, i.kind = Kind.name → i.value ∈ source.names := by
  unfold parseScan at h
  split at h
  · cases h
  · rename_i state started
    obtain ⟨sound, ready⟩ := @Parser.setUp_sound g shape _ _ _ started
    have run := @parseFrom_given g shape s.failure state {} ⟨0, [], [], ⟨0, 0⟩⟩ s.tokens
    rw [h] at run
    obtain ⟨s', accepted, rfl⟩ := Option.map_eq_some_iff.1 run.symm
    obtain ⟨a, t, b, _, eq, root, derived, leaves, -, names⟩ :=
      Parser.accepts_sound hg sound ready accepted
    rw [Parser.State.source, root]
    exact ⟨derived, a ++ [t], ⟨b, by rw [eq]; simp⟩, leaves, names⟩

theorem leaves_of_parseScan (hg : g.Predictive) {s : Scan} {source : Source}
    (h : (parseScan g shape s).result = .ok source) :
    ∃ pre, pre <+: parsed s.tokens ∧ Forall₂ Becomes pre source.tree.leaves := by
  obtain ⟨-, ins, ⟨_, all⟩, leaves, -⟩ := parseScan_ok hg h
  obtain ⟨pre, first, become⟩ := given_becomes {} s.tokens
  rw [← all, map_append] at become
  rw [leaves]
  refine ⟨pre.take (ins.map Input.token).length, ( take_prefix _ _).trans first, ?_⟩
  exact forall₂_take_append _ _ _ become

end Source

end Retouch
