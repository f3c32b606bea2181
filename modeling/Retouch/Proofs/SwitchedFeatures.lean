import Retouch.Refactor.Features

/-!
# The features that a program switches on

At the beginning of a program stand comments, line ends, a string and import statements
(`Features.Beginning`).  The names in these statements are found, up to where something else begins; but
a list of names in parentheses is left at its first line end, and with it all that comes after
(`Features.detect_beginning`).
-/

namespace Retouch.Features

open List

/-! ## Statements -/

/-- Names, each with a comma after it. -/
inductive Commas : List Token → List Text → Prop
  | nil : Commas [] []
  | cons {t u : Token} {ts : List Token} {xs : List Text} (name : t.kind = Kind.name)
      (comma : isMark "," u = true) (rest : Commas ts xs) : Commas (t :: u :: ts) (t.text :: xs)

/-- What stands after the words of an import, and the names in it.  Without parentheses a token comes
after the names that ends the statement, or is a comment before its end. -/
inductive Clause : List Token → List Text → Prop
  | bare {t u : Token} {ts : List Token} {xs : List Text} (names : Commas ts xs)
      (name : t.kind = Kind.name) (last : isMark "," u = false) : Clause (ts ++ [t, u]) (xs ++ [t.text])
  | paren {p t u : Token} {ts : List Token} {xs : List Text} (opens : isMark "(" p = true)
      (names : Commas ts xs) (name : t.kind = Kind.name) (closes : isMark ")" u = true) :
      Clause (p :: ts ++ [t, u]) (xs ++ [t.text])
  | trailing {p u : Token} {ts : List Token} {xs : List Text} (opens : isMark "(" p = true)
      (names : Commas ts xs) (closes : isMark ")" u = true) : Clause (p :: ts ++ [u]) xs

/-- The words at the beginning of an import of features. -/
structure Imports (a b c : Token) : Prop where
  source : isWord "from" a = true
  future : isWord "__future__" b = true
  word : isWord "import" c = true

/-- The tokens at the beginning of a program, and the names that are imported there.  One string may be
among them; was it seen before them, and after them? -/
inductive Beginning : Bool → List Token → Bool → List Text → Prop
  | nil {seen : Bool} : Beginning seen [] seen []
  | ignored {seen seen' : Bool} {t : Token} {ts : List Token} {xs : List Text} (ignored : isIgnored t = true)
      (rest : Beginning seen ts seen' xs) : Beginning seen (t :: ts) seen' xs
  | string {seen : Bool} {t : Token} {ts : List Token} {xs : List Text} (string : t.kind = Kind.string)
      (rest : Beginning true ts seen xs) : Beginning false (t :: ts) seen xs
  | statement {seen seen' : Bool} {a b c : Token} {clause ts : List Token} {xs ys : List Text}
      (imports : Imports a b c) (names : Clause clause xs) (rest : Beginning seen ts seen' ys) :
      Beginning seen (a :: b :: c :: (clause ++ ts)) seen' (xs ++ ys)

def Ends (seen : Bool) : List Token → Prop
  | [] => True
  | t :: ts => isIgnored t = false ∧ (t.kind = Kind.string → seen = true) ∧
      ∀ b c later, ts = b :: c :: later → ¬ Imports t b c

/-- An import whose names in parentheses go on after a line end or a comment, with those before it. -/
inductive Broken : List Token → List Text → Prop
  | intro {a b c p u t : Token} {ts gap later : List Token} {xs : List Text} (imports : Imports a b c)
      (opens : isMark "(" p = true) (names : Commas ts xs) (ends : isIgnored u = true)
      (ignored : ∀ v ∈ gap, isIgnored v = true)
      (goesOn : t.kind = Kind.name ∧ isWord "from" t = false ∨ isMark ")" t = true) :
      Broken (a :: b :: c :: p :: (ts ++ u :: (gap ++ t :: later))) xs

/-! ## What the search makes of them -/

variable {t u : Token} {ts rest : List Token} {xs : List Text}

theorem names_commas (h : Commas ts xs) (found : List Text) (rest : List Token) :
    names found (ts ++ rest) = names (found ++ xs) rest := by
  induction h generalizing found with
  | nil => rw [nil_append, append_nil]
  | cons name comma _ ih =>
    rw [cons_append, cons_append, names, if_pos name, if_pos comma, ih, append_assoc, singleton_append]

theorem names_last (name : t.kind = Kind.name) (last : isMark "," u = false) (found : List Text)
    (rest : List Token) : names found (t :: u :: rest) = ⟨found ++ [t.text], some rest⟩ := by
  rw [names, if_pos name, last, if_neg Bool.false_ne_true]

theorem names_stop (other : u.kind ≠ Kind.name) (found : List Text) (rest : List Token) :
    names found (u :: rest) = ⟨found, some rest⟩ := by
  cases rest <;> rw [names, if_neg other]

theorem kind_of_isMark {mark : Text} (h : isMark mark t = true) : t.kind = Kind.operator :=
  eq_of_beq (Bool.and_eq_true_iff.1 h).1

theorem kind_of_isWord {word : Text} (h : isWord word t = true) : t.kind = Kind.name :=
  eq_of_beq (Bool.and_eq_true_iff.1 h).1

theorem isMark_of_name (h : t.kind = Kind.name) (mark : Text) : isMark mark t = false := by
  rw [isMark, h]
  rfl

theorem isMark_comma (h : isMark ")" t = true) : isMark "," t = false := by
  rw [isMark, eq_of_beq (Bool.and_eq_true_iff.1 h).2]
  exact Bool.and_false _

theorem statement_imports {a b c : Token} (h : Imports a b c) (found : List Text) (v : Token)
    (vs : List Token) : statement found (b :: c :: v :: vs) =
      some (if isMark "(" v then names found vs else names found (v :: vs)) := by
  rw [statement, h.future]
  show (if (!isWord "import" c) = true then none else _) = _
  rw [h.word]
  show (if isMark "(" v then some (names found vs) else _) = _
  split <;> rfl

theorem statement_other {a : Token} (source : isWord "from" a = true)
    (other : ∀ b c later, ts = b :: c :: later → ¬ Imports a b c) (found : List Text) :
    statement found ts = none ∨ ts.length < 2 ∧ statement found ts = some ⟨found, none⟩ := by
  have both : ∀ x : Bool, ¬(!x) = true → x = true := by decide
  unfold statement
  split
  · exact .inr ⟨Nat.zero_lt_two, rfl⟩
  · split
    · exact .inl rfl
    · rename_i future
      split
      · exact .inr ⟨Nat.one_lt_two, rfl⟩
      · split
        · exact .inl rfl
        · rename_i word
          exact absurd ⟨source, both _ future, both _ word⟩ (other _ _ _ rfl)

theorem statement_clause {a b c : Token} (imports : Imports a b c) (h : Clause ts xs) (found : List Text)
    (rest : List Token) :
    statement found (b :: c :: (ts ++ rest)) = some ⟨found ++ xs, some rest⟩ := by
  cases h with
  | @bare t u ts xs names name last =>
    obtain ⟨v, vs, eq, first⟩ : ∃ v vs, ts ++ [t, u] = v :: vs ∧ v.kind = .name := by
      cases names with
      | nil => exact ⟨t, [u], rfl, name⟩
      | cons name' _ _ => exact ⟨_, _, rfl, name'⟩
    rw [eq, cons_append, statement_imports imports, isMark_of_name first,
      ← cons_append, ← eq, append_assoc, names_commas names, ← append_assoc found]
    exact congrArg some (names_last name last _ rest)
  | paren opens names name closes =>
    rw [cons_append, cons_append, statement_imports imports, if_pos opens, append_assoc,
      names_commas names, ← append_assoc found]
    exact congrArg some (names_last name (isMark_comma closes) _ rest)
  | trailing opens names closes =>
    rw [cons_append, cons_append, statement_imports imports, if_pos opens, append_assoc,
      names_commas names]
    exact congrArg some (names_stop (by rw [kind_of_isMark closes]; decide) _ rest)

theorem isIgnored_of_kind {k : Kind} (h : t.kind = k)
    (other : k ≠ Kind.newline ∧ k ≠ Kind.lineBreak ∧ k ≠ Kind.comment) : isIgnored t = false := by
  simp [isIgnored, h, other]

theorem search_imports {a b c : Token} (h : Imports a b c) (fuel : Nat) (seen : Bool) (found : List Text)
    {later more : List Token} (made : statement found (b :: c :: later) = some ⟨found ++ xs, some more⟩) :
    search (fuel + 1) seen found (a :: b :: c :: later) = search fuel seen (found ++ xs) more := by
  have name := kind_of_isWord h.source
  rw [search, isIgnored_of_kind name (by decide), if_neg Bool.false_ne_true, name,
    if_neg (by decide), if_pos h.source, made]

theorem search_beginning {seen seen' : Bool} (h : Beginning seen ts seen' xs) (rest : List Token)
    (found : List Text) {fuel : Nat} (enough : (ts ++ rest).length < fuel) :
    ∃ fuel', rest.length < fuel' ∧
      search fuel seen found (ts ++ rest) = search fuel' seen' (found ++ xs) rest := by
  induction h generalizing found fuel with
  | nil => exact ⟨fuel, enough, by rw [append_nil]; rfl⟩
  | ignored ignored _ ih =>
    obtain _ | fuel := fuel
    · cases enough
    · rw [cons_append, search, if_pos ignored]
      exact ih found (Nat.lt_of_succ_lt_succ enough)
  | string string _ ih =>
    obtain _ | fuel := fuel
    · cases enough
    · rw [cons_append, search, isIgnored_of_kind string (by decide), if_pos string]
      exact ih found (Nat.lt_of_succ_lt_succ enough)
  | @statement _ _ a b c clause ts xs ys imports names _ ih =>
    obtain _ | fuel := fuel
    · cases enough
    · have made := statement_clause imports names found (ts ++ rest)
      rw [cons_append, cons_append, cons_append, append_assoc, search_imports imports _ _ _ made,
        ← append_assoc found]
      refine ih _ ?_
      simp only [length_cons, length_append] at enough ⊢
      omega

theorem search_ends {seen : Bool} (h : Ends seen rest) {fuel : Nat} (enough : rest.length < fuel)
    (found : List Text) : (search fuel seen found rest).1 = found ∧
      (3 ≤ rest.length → (search fuel seen found rest).2 = false) := by
  obtain _ | fuel := fuel
  · cases enough
  cases rest with
  | nil => exact ⟨rfl, nofun⟩
  | cons t ts =>
    obtain ⟨shown, string, other⟩ := h
    rw [search, shown, if_neg Bool.false_ne_true]
    split
    · rename_i isString
      rw [string isString]
      exact ⟨rfl, fun _ => rfl⟩
    · split
      · rename_i source
        obtain none | ⟨_, none⟩ := statement_other source other found
        · rw [none]
          exact ⟨rfl, fun _ => rfl⟩
        · rw [none]
          exact ⟨rfl, fun long => absurd long (by rw [length_cons]; omega)⟩
      · exact ⟨rfl, fun _ => rfl⟩

theorem beginning_of_ignored (seen : Bool) (h : ∀ t ∈ ts, isIgnored t = true) :
    Beginning seen ts seen [] := by
  induction ts with
  | nil => exact .nil
  | cons t ts ih =>
    obtain ⟨first, rest⟩ := forall_mem_cons.1 h
    exact .ignored first (ih rest)

theorem search_broken (h : Broken rest xs) (seen : Bool) (found : List Text) {fuel : Nat}
    (enough : rest.length < fuel) : search fuel seen found rest = (found ++ xs, false) := by
  obtain ⟨imports, opens, names, ends, ignored, goesOn⟩ := h
  rename_i a b c p u t ts gap later
  obtain _ | fuel := fuel
  · cases enough
  have kinds : ∀ {v : Token}, isIgnored v = true → v.kind ≠ .name := by
    rintro v ignored name
    rw [isIgnored_of_kind name (by decide)] at ignored
    cases ignored
  have made : statement found (b :: c :: p :: (ts ++ u :: (gap ++ t :: later))) =
      some ⟨found ++ xs, some (gap ++ t :: later)⟩ := by
    rw [statement_imports imports, if_pos opens, names_commas names, names_stop (kinds ends)]
  rw [search_imports imports _ _ _ made]
  obtain ⟨fuel', enough', eq⟩ := search_beginning (beginning_of_ignored seen ignored) (t :: later)
    (found ++ xs) (show _ < fuel by simp at enough ⊢; omega)
  rw [eq, append_nil]
  obtain _ | fuel' := fuel'
  · cases enough'
  have stops : isIgnored t = false ∧ t.kind ≠ .string ∧ isWord "from" t = false := by
    obtain ⟨name, other⟩ | closes := goesOn
    · exact ⟨isIgnored_of_kind name (by decide), by rw [name]; decide, other⟩
    · have kind := kind_of_isMark closes
      refine ⟨isIgnored_of_kind kind (by decide), by rw [kind]; decide, ?_⟩
      rw [isWord, kind]
      rfl
  rw [search, stops.1, if_neg Bool.false_ne_true, if_neg stops.2.1, stops.2.2, if_neg Bool.false_ne_true]

/-- **The names at the beginning of a program are found**, each once, if the program ends after the
imports or goes on with something else; a semicolon after parentheses is something else.  Where names in
parentheses go on after a line end, those before it are found and nothing after them. -/
theorem detect_beginning {text : Text} {front rest : List Token} {seen : Bool} {names : List Text}
    (tokens : (scan (Text.newlineLines text)).tokens = front ++ rest)
    (begins : Beginning false front seen names) :
    (Ends seen rest → ((scan (Text.newlineLines text)).failure = none ∨ 3 ≤ rest.length) →
      detect text = .ok names.eraseDups) ∧
    (∀ more, Broken rest more → detect text = .ok (names ++ more).eraseDups) := by
  obtain ⟨fuel, enough, run⟩ := search_beginning begins rest [] (Nat.lt_succ_self _)
  rw [nil_append] at run
  unfold detect ofScan
  rw [tokens, run]
  refine ⟨fun ends sound => ?_, fun more broken => ?_⟩
  · obtain ⟨found, stops⟩ := search_ends ends enough names
    rw [← Prod.eta (search fuel seen names rest), found]
    obtain none | long := sound
    · rw [none]
      cases (search fuel seen names rest).2 <;> rfl
    · rw [stops long]
  · rw [search_broken broken seen names enough]

theorem detect_beginning_bare : detect "from __future__ import a\n" = .ok ["a".toList] := by
  have tokens : (scan (Text.newlineLines "from __future__ import a\n")).tokens =
      [⟨Kind.name, "from", ⟨1, 0⟩, ⟨1, 4⟩, "from __future__ import a\n"⟩,
        ⟨Kind.name, "__future__", ⟨1, 5⟩, ⟨1, 15⟩, "from __future__ import a\n"⟩,
        ⟨Kind.name, "import", ⟨1, 16⟩, ⟨1, 22⟩, "from __future__ import a\n"⟩,
        ⟨Kind.name, "a", ⟨1, 23⟩, ⟨1, 24⟩, "from __future__ import a\n"⟩,
        ⟨Kind.newline, "\n", ⟨1, 24⟩, ⟨1, 25⟩, "from __future__ import a\n"⟩] ++
      [⟨Kind.endMarker, [], ⟨2, 0⟩, ⟨2, 0⟩, []⟩] := by decide +kernel
  refine (detect_beginning tokens (.statement ⟨?_, ?_, ?_⟩ (.bare .nil rfl ?_) .nil)).1 ⟨?_, ?_, nofun⟩ (.inl ?_)
  all_goals decide +kernel

/-- **A line end in parentheses hides features**, and so does a semicolon after them. -/
theorem detect_hidden :
    (detect "from __future__ import (a,\n b)\n").toOption = some ["a".toList] ∧
    (detect "from __future__ import (a); from __future__ import b\n").toOption = some ["a".toList] := by
  decide +kernel

end Retouch.Features
