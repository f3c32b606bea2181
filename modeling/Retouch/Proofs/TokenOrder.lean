import Retouch.Proofs.Coverage

/-!
# Tokens come in order

In the lines of any text each token starts at or after the place where the one before it stops, which
is on the next row if that token ends in a newline (`Scan.scan_leads`).  The token that marks the end
of the text comes last, and only if scanning does not fail.  The tokens cover the text
(`Scan.Runs.covers`), so all that is left to see is that no token starts behind a newline.
-/

namespace Retouch

open List

namespace Text

def NewlineLast (l : Text) : Prop := ∀ a b, l = a ++ '\n' :: b → b = []

theorem NewlineLast.nil_of_getLast? {a b : Text} (h : NewlineLast (a ++ b))
    (last : a.getLast? = some '\n') : b = [] := by
  obtain ⟨front, rfl⟩ := getLast?_eq_some_iff.1 last
  exact h front b (by simp)

theorem newlineLast_cons {c : Char} {l : Text} (hc : c ≠ '\n') (h : NewlineLast l) :
    NewlineLast (c :: l) := by
  rintro (_ | ⟨d, a⟩) b eq
  · cases eq
    exact absurd rfl hc
  · cases eq
    exact h a b rfl

theorem newlineLast_lines (t : Text) : ∀ l ∈ lines t, NewlineLast l := by
  have single : ∀ c : Char, NewlineLast [c] := by
    rintro c (_ | ⟨d, a⟩) b eq
    · cases eq
      rfl
    · cases a <;> cases eq
  fun_induction lines t with
  | case1 => simp
  | case2 cs ih => exact forall_mem_cons.2 ⟨newlineLast_cons (by decide) (single _), ih⟩
  | case3 c cs _ _ ih => exact forall_mem_cons.2 ⟨single c, ih⟩
  | case4 c cs _ notEnd ih =>
    have hc : c ≠ '\n' := by
      rintro rfl
      exact notEnd rfl
    cases hl : lines cs with
    | nil => simpa [consLine] using single c
    | cons l ls =>
      rw [hl] at ih
      obtain ⟨first, rest⟩ := forall_mem_cons.1 ih
      exact forall_mem_cons.2 ⟨newlineLast_cons hc first, rest⟩

theorem HasPlace.of_newline {lines : List Text} (newline : ∀ l ∈ lines, NewlineLast l) {p : Position}
    (place : HasPlace lines p) (inside : 0 < p.column) (last : (upTo lines p).getLast? = some '\n') :
    (lines.getD (p.row - 1) []).getLast? = some '\n' ∧ p.column = (lines.getD (p.row - 1) []).length := by
  obtain ⟨_ | row, col⟩ := p
  · cases place.1
  replace place := place.2
  rw [Nat.add_sub_cancel, getD_eq_getElem?_getD] at place ⊢
  cases here : lines[row]? with
  | none =>
    rw [here] at place
    exact absurd place (Nat.not_le.2 inside)
  | some line =>
    replace place : col ≤ line.length := by rwa [here] at place
    have taken := length_pos_iff.1 (by rwa [length_take_of_le place])
    rw [upTo_row here col place, getLast?_append_of_ne_nil _ taken] at last
    have whole := newline line (mem_of_getElem? here)
    rw [← take_append_drop col line] at whole
    have size := drop_eq_nil_iff.1 (whole.nil_of_getLast? last)
    exact ⟨take_of_length_le size ▸ last, Nat.le_antisymm place size⟩

end Text

namespace Scan

open Source (placeAfter)
open Text

/-- The tokens come one after the other from the first place to the second one, and none of them
marks the end of the text. -/
def Ascends : Position → List Token → Position → Prop
  | p, [], q => p.le q = true
  | p, t :: ts, q => t.kind ≠ Kind.endMarker ∧ p.le t.start = true ∧
      t.start.le (placeAfter t) = true ∧ Ascends (placeAfter t) ts q

variable {p q : Position} {t : Token} {ts us : List Token} {lines : List Text}

theorem Ascends.from_le {p' : Position} (h : Ascends p ts q) (hp : p'.le p = true) :
    Ascends p' ts q := by
  cases ts with
  | nil => exact Position.le_trans hp h
  | cons t ts => exact ⟨h.1, Position.le_trans hp h.2.1, h.2.2⟩

theorem Ascends.kind_ne (h : Ascends p ts q) : ∀ t ∈ ts, t.kind ≠ Kind.endMarker := by
  induction ts generalizing p with
  | nil => exact nofun
  | cons t ts ih => exact forall_mem_cons.2 ⟨h.1, ih h.2.2.2⟩

theorem Ascends.filter (h : Ascends p ts q) (keep : Token → Bool) : Ascends p (ts.filter keep) q := by
  induction ts generalizing p with
  | nil => exact h
  | cons t ts ih =>
    obtain ⟨kind, before, inside, after⟩ := h
    rw [filter_cons]
    split
    · exact ⟨kind, before, inside, ih after⟩
    · exact (ih after).from_le (Position.le_trans before inside)

theorem Lies.start_le (h : Lies lines t) : t.start.le (placeAfter t) = true := by
  rw [placeAfter]
  split
  · exact Position.le_trans h.text.order (Position.le_of_row (Nat.lt_succ_self _))
  · exact h.text.order

theorem Lies.placeAfter_le (h : Lies lines t) (newline : ∀ l ∈ lines, NewlineLast l)
    (gap : Apart lines t.stop q) (place : CanStart lines q) : (placeAfter t).le q = true := by
  obtain ⟨_, spans, -⟩ := gap
  rw [placeAfter]
  split
  · rename_i last
    have some : t.text ≠ [] := by
      intro nil
      rw [nil] at last
      cases last
    have inside := h.stop some
    obtain ⟨ends, _⟩ := h.text.place.of_newline newline inside
      (by rw [h.text.text, getLast?_append_of_ne_nil _ some, last])
    have order := Position.le_iff.1 spans.order
    have before := place.before
    rw [Position.le_iff]
    change t.stop.row + 1 < q.row ∨ t.stop.row + 1 = q.row ∧ 0 ≤ q.column
    by_cases same : q.row = t.stop.row
    · rw [same] at before
      have late := before (by omega) ends
      omega
    · omega
  · exact spans.order

theorem Covers.ascends {p' : Position} (h : Covers lines p ts q) (newline : ∀ l ∈ lines, NewlineLast l)
    (place : CanStart lines q) (unmarked : ∀ t ∈ ts, t.kind ≠ Kind.endMarker)
    (first : ∀ r, Apart lines p r → CanStart lines r → p'.le r = true) : Ascends p' ts q := by
  induction ts generalizing p p' with
  | nil => exact first q h place
  | cons t ts ih =>
    obtain ⟨gap, lies, later⟩ := h
    obtain ⟨kind, unmarked⟩ := forall_mem_cons.1 unmarked
    exact ⟨kind, first _ gap lies.start, lies.start_le,
      ih later unmarked fun r => lies.placeAfter_le newline⟩

theorem Covers.of_append (h : Covers lines p (ts ++ t :: us) q) :
    Covers lines p ts t.start ∧ CanStart lines t.start := by
  induction ts generalizing p with
  | nil => exact ⟨h.1, h.2.1.start⟩
  | cons t ts ih =>
    obtain ⟨later, place⟩ := ih h.2.2
    exact ⟨⟨h.1, h.2.1, later⟩, place⟩

/-- What the tokens of a text are: in order, and with the token that marks the end last if there is no
failure. -/
inductive TextLeads (p : Position) : Scan → Prop
  | complete {ts : List Token} {q : Position} {last : Token} (ascends : Ascends p ts q)
      (kind : last.kind = Kind.endMarker) (text : last.text = []) (start : last.start = q) :
      TextLeads p ⟨ts ++ [last], none⟩
  | broken {ts : List Token} {q : Position} {e : ScanError} (ascends : Ascends p ts q) :
      TextLeads p ⟨ts, some e⟩

/-- **The tokens of a text come in order.** -/
theorem scan_leads (text : Text) : TextLeads ⟨1, 0⟩ (scan (Text.lines text)) := by
  have runs := scanFromState_runs {} (Text.lines text)
  obtain ⟨q, covers, place, -⟩ := runs.covers rfl (State.holds_of_closed rfl)
  obtain ⟨front, inner, made⟩ := runs.made nofun
  have ascends {q : Position} (covers : Covers (Text.lines text) ⟨1, 0⟩ front q)
      (place : CanStart (Text.lines text) q) : Ascends ⟨1, 0⟩ front q :=
    covers.ascends (newlineLast_lines text) place (fun t ht => (inner t ht).2)
      fun _ gap _ => gap.choose_spec.1.order
  rw [scan]
  generalize scanFromState {} (Text.lines text) = s at covers made
  obtain ⟨ts, _⟩ := s
  rcases made with ⟨rfl, broken⟩ | ⟨_, rfl, rfl⟩
  · obtain ⟨e, rfl⟩ := Option.ne_none_iff_exists'.1 broken
    exact .broken (ascends covers place)
  · obtain ⟨covers, place⟩ := covers.of_append
    exact .complete (ascends covers place) rfl rfl rfl

end Scan

end Retouch
