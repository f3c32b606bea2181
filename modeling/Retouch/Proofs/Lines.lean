import Retouch.Proofs.Reading

/-!
# Lines of a text

The lines of a text put together are the text, in both ways of taking lines.  A text that is empty
or ends in a newline falls into lines with one newline each, at the end (`isLine_newlineLines`), and
in no other way (`newlineLines_flatten`).  The two ways agree exactly on texts in which every other
line end stands before a newline or at the very end (`lines_eq_newlineLines_iff`).
-/

namespace Retouch.Text

open List

open Scan (IsLine)

/-! ## Lines that end in newlines -/

theorem flatten_consLine (c : Char) (ls : List Text) :
    (consLine c ls).flatten = c :: ls.flatten := by
  cases ls <;> rfl

theorem flatten_newlineLines (t : Text) : (newlineLines t).flatten = t := by
  induction t with
  | nil => rfl
  | cons c cs ih =>
    unfold newlineLines
    split
    · rename_i h
      rw [flatten_cons, ih, h]
      rfl
    · rw [flatten_consLine, ih]

def Ended (t : Text) : Prop := t = [] ∨ t.getLast? = some '\n'

variable {c : Char} {cs t : Text}

theorem Ended.tail (h : Ended (c :: cs)) : Ended cs := by
  cases cs with
  | nil => exact .inl rfl
  | cons d ds => exact .inr (h.resolve_left (by simp))

theorem isLine_consLine {ls : List Text} (hc : c ≠ '\n') (hls : ls ≠ []) (h : ∀ l ∈ ls, IsLine l) :
    ∀ l ∈ consLine c ls, IsLine l := by
  cases ls with
  | nil => exact absurd rfl hls
  | cons l ls =>
    obtain ⟨⟨body, rfl, free⟩, rest⟩ := forall_mem_cons.1 h
    refine forall_mem_cons.2 ⟨⟨c :: body, rfl, ?_⟩, rest⟩
    rintro (_ | ⟨_, mem⟩)
    · exact hc rfl
    · exact free mem

/-- The lines of a text that ends in a newline have one newline each, at the end. -/
theorem isLine_newlineLines (h : Ended t) : ∀ l ∈ newlineLines t, IsLine l := by
  induction t with
  | nil => intro l hl; cases hl
  | cons c cs ih =>
    unfold newlineLines
    split
    · exact forall_mem_cons.2 ⟨⟨[], rfl, by simp⟩, ih h.tail⟩
    · rename_i hc
      refine isLine_consLine hc ?_ (ih h.tail)
      intro none
      have := flatten_newlineLines cs
      rw [none] at this
      cases this
      rcases h with h | h
      · cases h
      · exact hc (Option.some.inj h)

theorem newlineLines_line {body : Text} (free : '\n' ∉ body) (rest : Text) :
    newlineLines (body ++ '\n' :: rest) = (body ++ ['\n']) :: newlineLines rest := by
  induction body with
  | nil => simp [newlineLines]
  | cons c cs ih =>
    rw [mem_cons, not_or] at free
    rw [cons_append, newlineLines, if_neg (Ne.symm free.1), ih free.2]
    rfl

/-- Lines with one newline each, at the end, are the lines of their text. -/
theorem newlineLines_flatten {ls : List Text} (h : ∀ l ∈ ls, IsLine l) :
    newlineLines ls.flatten = ls := by
  induction ls with
  | nil => rfl
  | cons l ls ih =>
    obtain ⟨⟨_, rfl, free⟩, rest⟩ := forall_mem_cons.1 h
    rw [flatten_cons, append_assoc, singleton_append, newlineLines_line free, ih rest]

/-! ## The two ways of taking lines -/

theorem flatten_lines (t : Text) : (lines t).flatten = t := by
  fun_induction lines t with
  | case1 => rfl
  | case2 cs ih | case3 c cs _ _ ih => rw [flatten_cons, ih]; rfl
  | case4 c cs _ _ ih => rw [flatten_consLine, ih]

/-- Every line end of the text is a newline, stands before a newline or is at the very end. -/
def Plain (t : Text) : Prop :=
  ∀ a c b, t = a ++ c :: b → isLineEnd c = true →
    c = '\n' ∨ (c = '\r' ∧ b.head? = some '\n') ∨ b = []

theorem Plain.tail (h : Plain (c :: cs)) : Plain cs := by
  intro a d b eq
  exact h (c :: a) d b (by rw [eq]; rfl)

theorem plain_of_newlines (h : ∀ c ∈ t, isLineEnd c = true → c = '\n') : Plain t := by
  intro a c b eq hc
  exact .inl (h c (by rw [eq]; simp) hc)

theorem lines_ne_nil : lines (c :: cs) ≠ [] := by
  intro none
  have := flatten_lines (c :: cs)
  rw [none] at this
  cases this

theorem lines_eq_newlineLines (h : Plain t) : lines t = newlineLines t := by
  fun_induction lines t with
  | case1 => rfl
  | case2 cs ih =>
    rw [ih h.tail.tail]
    simp [newlineLines, consLine]
  | case3 c cs hr hc ih =>
    rw [newlineLines]
    rcases h [] c cs rfl hc with rfl | ⟨rfl, next⟩ | rfl
    · rw [if_pos rfl, ih h.tail]
    · cases cs with
      | nil => cases next
      | cons d ds =>
        cases next
        exact absurd rfl (hr ds rfl)
    · simp only [lines, newlineLines, consLine]
      split
      · rename_i hn
        rw [hn]
      · rfl
  | case4 c cs hr hc ih =>
    rw [newlineLines, ih h.tail, if_neg]
    rintro rfl
    exact hc rfl

theorem ne_nil_of_mem_newlineLines {l : Text} (h : l ∈ newlineLines t) : l ≠ [] := by
  induction t generalizing l with
  | nil => cases h
  | cons c cs ih =>
    unfold newlineLines at h
    split at h
    · rcases mem_cons.1 h with rfl | h
      · simp
      · exact ih h
    · cases hls : newlineLines cs with
      | nil =>
        rw [hls] at h
        rw [mem_singleton.1 h]
        simp
      | cons l' ls =>
        rw [hls] at h
        rcases mem_cons.1 h with rfl | h
        · simp
        · exact ih (by rw [hls]; exact mem_cons_of_mem _ h)

/-- **The two ways of taking lines agree exactly on plain texts.** -/
theorem lines_eq_newlineLines_iff (t : Text) : lines t = newlineLines t ↔ Plain t := by
  refine ⟨fun h => ?_, lines_eq_newlineLines⟩
  -- a character in front keeps the property if it is no line end or is followed by nothing
  have cons : ∀ {c : Char} {cs : Text}, Plain cs → (isLineEnd c = true →
      c = '\n' ∨ (c = '\r' ∧ cs.head? = some '\n') ∨ cs = []) → Plain (c :: cs) := by
    intro c cs plain front a d b eq hd
    cases a with
    | nil =>
      cases eq
      exact front hd
    | cons e a =>
      cases eq
      exact plain a d b rfl hd
  fun_induction lines t with
  | case1 =>
    intro a c b eq
    cases a <;> cases eq
  | case2 cs ih =>
    exact cons (cons (ih (List.cons.inj h).2) fun _ => .inl rfl) fun _ => .inr (.inl ⟨rfl, rfl⟩)
  | case3 c cs hr hc ih =>
    rw [newlineLines] at h
    split at h
    · rename_i hn
      exact cons (ih (List.cons.inj h).2) fun _ => .inl hn
    · cases hls : newlineLines cs with
      | nil =>
        have := flatten_newlineLines cs
        rw [hls] at this
        cases this
        exact cons (fun a d b eq => by cases a <;> cases eq) fun _ => .inr (.inr rfl)
      | cons l ls =>
        rw [hls] at h
        have : l = [] := (List.cons.inj (List.cons.inj h).1).2.symm
        exact absurd this (ne_nil_of_mem_newlineLines (by rw [hls]; exact mem_cons_self))
  | case4 c cs hr hc ih =>
    rw [newlineLines, if_neg (by rintro rfl; exact hc rfl)] at h
    refine cons (ih ?_) fun hc' => absurd hc' hc
    cases cs with
    | nil => rfl
    | cons d ds =>
      have newline_text := flatten_newlineLines (d :: ds)
      cases hl : lines (d :: ds) with
      | nil => exact absurd hl lines_ne_nil
      | cons l ls =>
        cases hn : newlineLines (d :: ds) with
        | nil =>
          rw [hn] at newline_text
          cases newline_text
        | cons l' ls' =>
          rw [hl, hn] at h
          obtain ⟨first, rest⟩ := List.cons.inj h
          rw [(List.cons.inj first).2, rest]

end Retouch.Text
