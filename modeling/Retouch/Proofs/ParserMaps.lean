import Mathlib.Tactic.Common
import Retouch.Syntax.Parser

/-!
# The parser does not look at trees

What the parser does depends on its tables and on the kinds and values of the tokens, never on the trees
it has made.  So changing all trees, and what tokens have besides kind and value, commutes with every
step of the parser (`Parser.Recasts.addToken`), as long as it commutes with the making of trees
(`Parser.Recasts`).
-/

namespace Retouch

def ParseError.recast (φ : Input → Input) : ParseError → ParseError
  | .misfit what t => .misfit what (φ t)
  | e => e

namespace Parser

def Entry.recast (F : SyntaxTree → SyntaxTree) (e : Entry) : Entry := { e with children := e.children.map F }

def State.recast (F : SyntaxTree → SyntaxTree) (s : State) : State :=
  { s with stack := s.stack.map (Entry.recast F), root := s.root.map F }

def recast {α : Type} (F : SyntaxTree → SyntaxTree) (φ : Input → Input)
    (r : Except ParseError α × State) : Except ParseError α × State :=
  (r.1.mapError (ParseError.recast φ), r.2.recast F)

/-- Changing trees by `F` and tokens by `φ` makes trees of one shape into trees of another. -/
structure Recasts (F : SyntaxTree → SyntaxTree) (φ : Input → Input) (shape shape' : Shape) : Prop where
  tree : ∀ k cs, F (shape.tree k cs) = shape'.tree k (cs.map F)
  raw : shape' = .raw ↔ shape = .raw
  leaf : ∀ t : Input, F t.leaf = (φ t).leaf
  kind : ∀ t, (φ t).kind = t.kind
  value : ∀ t, (φ t).value = t.value

variable {F : SyntaxTree → SyntaxTree} {φ : Input → Input} {shape shape' : Shape} {g : Grammar}

theorem Entry.recast_push (e : Entry) (q : Nat) (t : SyntaxTree) :
    recast F { e with state := q, children := e.children ++ [t] } =
      { e.recast F with state := q, children := (e.recast F).children ++ [F t] } := by
  rw [recast, List.map_append]
  rfl

namespace Recasts

variable (h : Recasts F φ shape shape')

include h

theorem pop (s : State) : Parser.pop shape' (s.recast F) = recast F φ (Parser.pop shape s) := by
  obtain ⟨ready, stack, root, names⟩ := s
  match stack with
  | [] => rfl
  | [top] =>
    simp only [Parser.pop, State.recast, List.map, Entry.recast, ← h.tree, h.raw]
    split <;> rfl
  | top :: next :: rest =>
    have pushed := Entry.recast_push (F := F) next next.state (shape.tree top.symbol top.children)
    rw [h.tree] at pushed
    exact congrArg (fun e => (Except.ok (), State.mk ready (e :: rest.map (Entry.recast F))
      (root.map F) names)) pushed.symm

theorem popFinished (fuel : Nat) (s : State) :
    Parser.popFinished shape' fuel (s.recast F) = recast F φ (Parser.popFinished shape fuel s) := by
  induction fuel generalizing s with
  | zero => simp [Parser.popFinished, recast, State.recast, Except.mapError]
  | succ fuel ih =>
    unfold Parser.popFinished
    rw [h.pop]
    cases hs : s.stack with
    | nil => simp [State.recast, hs, recast, Except.mapError]
    | cons top below =>
      have stack : (s.recast F).stack = top.recast F :: below.map (.recast F) := by
        simp [State.recast, hs]
      have only : acceptOnly (top.recast F) = acceptOnly top := rfl
      rw [stack]
      simp only [only]
      split
      · obtain ⟨_ | _, s'⟩ := Parser.pop shape s
        · rfl
        · exact ih s'
      · rfl

theorem handle (label : Nat) (t : Input) (fuel : Nat) (s : State) :
    Parser.handle g shape' label (φ t) fuel (s.recast F) =
      recast F φ (Parser.handle g shape label t fuel s) := by
  induction fuel generalizing s with
  | zero => rfl
  | succ fuel ih =>
    unfold Parser.handle
    rw [h.pop]
    cases hs : s.stack with
    | nil => simp [State.recast, hs, recast, Except.mapError, ParseError.recast]
    | cons top below =>
      have stack : (s.recast F).stack = top.recast F :: below.map (.recast F) := by
        simp [State.recast, hs]
      have same : (top.recast F).arcs = top.arcs ∧ (top.recast F).state = top.state := ⟨rfl, rfl⟩
      rw [stack]
      simp only [same]
      split
      · rename_i next _
        have pushed := Entry.recast_push (F := F) top next t.leaf
        have taken := h.popFinished (below.length + 1)
          { s with stack := { top with state := next, children := top.children ++ [t.leaf] } :: below }
        simp only [State.recast, List.map_cons, pushed, h.leaf] at taken
        rwa [List.length_map]
      · rename_i k table next _
        exact ih { s with stack := ⟨k, table, 0, []⟩ :: { top with state := next } :: below }
      · split
        · obtain ⟨_ | _, s'⟩ := Parser.pop shape s
          · rfl
          · simp only [recast, Except.mapError]
            have empty : (s'.recast F).stack.isEmpty = s'.stack.isEmpty := by simp [State.recast]
            rw [empty]
            split
            · rfl
            · exact ih s'
        · rfl

/-- **Changing trees commutes with giving the parser a token.** -/
theorem addToken (t : Input) (s : State) :
    Parser.addToken g shape' (φ t) (s.recast F) = recast F φ (Parser.addToken g shape t s) := by
  have named : (if t.kind = .name then
      { s.recast F with names := insertNew (s.recast F).names t.value } else s.recast F) =
      State.recast F (if t.kind = .name then { s with names := insertNew s.names t.value }
        else s) := by
    split <;> rfl
  have label : classify g (φ t) = classify g t := by rw [classify, classify, h.kind, h.value]
  unfold Parser.addToken
  simp only [h.kind, h.value, label] at named ⊢
  rw [named]
  generalize (if t.kind = .name then { s with names := insertNew s.names t.value } else s) = s'
  have ready : (s.recast F).ready = s.ready ∧ (s'.recast F).ready = s'.ready := ⟨rfl, rfl⟩
  have size : (s'.recast F).stack.length = s'.stack.length := by simp [State.recast]
  rw [ready.1, ready.2, size]
  split
  · rfl
  · split
    · rfl
    · split
      · exact h.handle _ t _ s'
      · rfl

end Recasts

theorem setUp_recast {start : Option Kind} {before s : State} (F : SyntaxTree → SyntaxTree)
    (h : setUp g start before = (.ok (), s)) : s.recast F = s := by
  unfold setUp at h
  simp only at h
  split at h
  · cases h
  · cases h
    rfl

end Parser

end Retouch
