import Retouch.Proofs.Lossless
import Retouch.Proofs.ParserMaps
import Retouch.Proofs.Respacing

/-!
# The parser sees no blanks

Tokens with the same kinds and values are parsed to trees that are the same apart from blanks and places,
as taking these away commutes with parsing (`Parser.accepts_bare`).  So lines with other blanks between
their pieces are parsed to the same tree (`Source.parseLines_respaced`).
-/

namespace Retouch

open List

/-! ## Trees that are the same -/

namespace Leaf

@[simp] theorem kind_bare (l : Leaf) : l.bare.kind = l.kind := rfl

@[simp] theorem value_bare (l : Leaf) : l.bare.value = l.value := rfl

variable {l : Leaf}

theorem kind_eq_of_bare {l' : Leaf} (h : l.bare = l'.bare) : l.kind = l'.kind :=
  (mk.inj h).1

theorem value_eq_of_bare {l' : Leaf} (h : l.bare = l'.bare) : l.value = l'.value :=
  (mk.inj h).2.1

end Leaf

open Tree

variable {α : Type}

theorem Tree.same_of_bare {t u : Tree α} (h : t.bare = u.bare) : t.same u = true := by
  induction t using induct generalizing u with
  | leaf i l =>
    cases u with
    | leaf j l' =>
      have bare : l.bare = l'.bare := by injection h
      simp [same, Leaf.kind_eq_of_bare bare, Leaf.value_eq_of_bare bare]
    | node j k cs => cases h
  | node i k cs ih =>
    cases u with
    | leaf j l => cases h
    | node j k' ds =>
      injection h with _ kind children
      have below : sameAll cs ds = true := by
        induction cs generalizing ds with
        | nil =>
          cases ds with
          | nil => rfl
          | cons d ds => cases children
        | cons c cs ih' =>
          cases ds with
          | nil => cases children
          | cons d ds =>
            injection children with first later
            rw [sameAll, ih c mem_cons_self first]
            exact ih' (fun e he => ih e (mem_cons_of_mem _ he)) _ later
      rw [same, kind, beq_self_eq_true, Bool.true_and, below]

def Input.bare (t : Input) : Input := ⟨t.kind, t.value, [], ⟨0, 0⟩⟩

namespace Parser

variable {g : Grammar} {shape : Shape}

theorem recasts_bare (shape : Shape) : Recasts bare Input.bare shape shape where
  tree k cs := by
    match shape, cs with
    | .collapsed, [c] => rfl
    | .collapsed, [] => rfl
    | .collapsed, c :: d :: cs => exact bare_node () k (c :: d :: cs)
    | .full, cs => exact bare_node () k cs
    | .raw, cs => exact bare_node () k cs
  raw := .rfl
  leaf _ := rfl
  kind _ := rfl
  value _ := rfl

/-- **Taking blanks and places away commutes with parsing.** -/
theorem accepts_bare (ins : List Input) (s : State) :
    accepts g shape (ins.map Input.bare) (s.recast bare) =
      (accepts g shape ins s).map (State.recast bare) := by
  induction ins generalizing s with
  | nil => rfl
  | cons t ins ih =>
    rw [map_cons, accepts, accepts, (recasts_bare shape).addToken]
    obtain ⟨_ | _ | _, s'⟩ := addToken g shape t s
    · rfl
    · exact ih s'
    · rfl

theorem State.source_same {s s' : State} (same : s'.recast bare = s.recast bare) (g : Grammar) :
    (s'.source g).tree.same (s.source g).tree = true := by
  have root : s'.root.map bare = s.root.map bare := congrArg root same
  refine same_of_bare ?_
  show bare (s'.root.getD _) = bare (s.root.getD _)
  rw [← Option.getD_map bare, root, Option.getD_map]

end Parser

/-! ## Lines with other blanks -/

variable {ps ps' : List Scan.Piece}

theorem Scan.Respaced.offered {prev : Option Text} (h : Respaced prev ps ps') (lead lead' : Text) :
    (Scan.offered lead' ps').map Input.bare = (Scan.offered lead ps).map Input.bare := by
  induction h generalizing lead lead' with
  | nil => rfl
  | @cons _ p gap _ _ _ _ ih =>
    have trivia : Piece.isTrivia { p with gap } = p.isTrivia := rfl
    unfold Scan.offered
    rw [trivia]
    split
    · exact ih _ _
    · exact congrArg (_ :: ·) (ih _ _)

/-- **Lines with other blanks between their pieces are parsed to the same tree.** -/
theorem Source.parseLines_respaced {g : Grammar} {shape : Shape}
    (hg : OrderedMap.get? g.tokens Kind.stray = none) {lines : List Text}
    (hl : ∀ l ∈ lines, Scan.IsLine l) (scans : Scan.Scans {} [] [] lines ps .complete)
    (hr : Scan.Respaced none ps ps') {s : Source} (h : parseLines g shape lines = .ok s) :
    ∃ lines' s', (∀ l ∈ lines', Scan.IsLine l) ∧ lines'.flatten = ps'.flatMap Scan.Piece.chars ∧
      parseLines g shape lines' = .ok s' ∧ s'.tree.same s.tree = true := by
  obtain ⟨_, lines', scans', _, hl', same, _⟩ :=
    scans.respaced rfl (.inl rfl) hl hr (fun _ => rfl) nofun
  cases same.2 rfl
  obtain ⟨ins, given, _, parsed⟩ := parseLines_reading hg shape hl scans
  obtain ⟨ins', given', _, parsed'⟩ := parseLines_reading hg shape hl' scans'
  have alike : (ins'.map .unplaced).map Input.bare = (ins.map .unplaced).map Input.bare := by
    rw [given', given]
    exact hr.offered [] []
  rw [map_map, map_map] at alike
  rw [h] at parsed
  obtain ⟨_, accepted, rfl⟩ := Option.map_eq_some_iff.1 parsed.symm
  obtain ⟨s₀, begun, accepted⟩ := Option.bind_eq_some_iff.1 accepted
  have run := @Parser.accepts_bare g shape ins' s₀
  rw [show ins'.map Input.bare = ins.map Input.bare from alike, Parser.accepts_bare, accepted] at run
  obtain ⟨s₁', accepted', bare⟩ := Option.map_eq_some_iff.1 run.symm
  rw [begun, Option.bind_some, accepted'] at parsed'
  refine ⟨lines', s₁'.source g, hl', (scans'.text (.inl rfl) hl' rfl), ?_, ?_⟩
  · cases hp : parseLines g shape lines' with
    | error e => rw [hp] at parsed'; cases parsed'
    | ok s' => rw [hp] at parsed'; cases parsed'; rfl
  · exact Parser.State.source_same bare g

end Retouch
