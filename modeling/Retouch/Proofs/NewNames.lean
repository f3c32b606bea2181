import Retouch.Proofs.LeafTokens
import Retouch.Proofs.Rewriting

/-!
# New names

The parser keeps all names of a program (`Source.mem_names_of_parse`), and fixers that ask for names add
those that they are given.  The numbers that a template is tried with make different names, so that one
of them is free before they run out (`Fixer.newName_fresh`): no two names that fixers are given are the
same, and none is a name of the program (`Fixer.answers_fresh`).
-/

namespace Retouch

open List

namespace Source

theorem parsed_becomes {g : Grammar} (hg : g ∈ Language.grammars) {shape : Shape} {text : Text}
    {source : Source} (h : parse g shape text = .ok source) :
    Forall₂ Becomes (parsed (scan (Text.lines text)).tokens) source.tree.leaves := by
  have closed := Language.closed_of_mem hg
  obtain ⟨derived, -⟩ := parseScan_ok closed.predictive h
  obtain ⟨pre, first, become⟩ := leaves_of_parseScan closed.predictive h
  have nonempty := derived.leaves_nodes_ne_nil source.tree (Tree.self_mem_nodes _)
  -- the last leaf marks the end, and so does the token it comes from
  obtain ⟨t, mem, kind, -⟩ := Grammar.exists_of_forall₂_right become (getLast_mem nonempty)
  rw [closed.ending shape _ derived _ (getLast?_eq_some_getLast nonempty)] at kind
  have mark := Pattern.Language.kind_of_parserKind kind
  have unmarked {ts : List Token} {p q : Position} (ascends : Scan.Ascends p ts q) : ¬ pre <+: parsed ts :=
    fun early => ascends.kind_ne t (mem_of_mem_filter (early.subset mem)) mark
  have leads := Scan.scan_leads text
  generalize scan (Text.lines text) = s at leads first ⊢
  cases leads with
  | broken ascends => exact absurd first (unmarked ascends)
  | @complete ts q last ascends last_kind =>
    have split : parsed (ts ++ [last]) = parsed ts ++ [last] := by
      simp [parsed, isTrivia, last_kind, Kind.endMarker, Kind.comment, Kind.lineBreak]
    rw [split] at first ⊢
    obtain rfl | early := prefix_concat_iff.1 first
    · exact become
    · exact absurd early (unmarked ascends)

/-- The parser keeps the names of a program. -/
theorem mem_names_of_parse {g : Grammar} (hg : g ∈ Language.grammars) {shape : Shape} {text : Text}
    {source : Source} (h : parse g shape text = .ok source) {t : Token}
    (mem : t ∈ (scan (Text.lines text)).tokens) (name : t.kind = Kind.name) : t.text ∈ source.names := by
  obtain ⟨-, _, -, leaves, names⟩ := parseScan_ok (Language.closed_of_mem hg).predictive h
  have given : t ∈ parsed (scan (Text.lines text)).tokens :=
    mem_filter.2 ⟨mem, by simp [isTrivia, name, Kind.name, Kind.comment, Kind.lineBreak]⟩
  obtain ⟨l, hl, kind, value⟩ := Grammar.exists_of_forall₂_left (parsed_becomes hg h) given
  rw [leaves] at hl
  obtain ⟨i, hi, rfl⟩ := mem_map.1 hl
  rw [parserKind, name] at kind
  rw [← Value.text.inj value]
  exact names i hi (Except.ok.inj kind).symm

end Source

namespace Fixer

theorem ofNat_injective {a b : Nat} (h : Text.ofNat a = Text.ofNat b) : a = b := by
  have number : Nat.ofDigitChars 10 (Text.ofNat a) 0 = Nat.ofDigitChars 10 (Text.ofNat b) 0 := by rw [h]
  simpa [Text.ofNat] using number

variable {template name : Text} {job : Job}

theorem newNameWith_succ (template : Text) (fuel : Nat) (name : Text) (job : Job) :
    newNameWith template (fuel + 1) name job =
      if job.names.contains name then
        newNameWith template fuel (template ++ Text.ofNat job.memory.counter)
          { job with memory := { job.memory with counter := job.memory.counter + 1 } }
      else .ok name { job with names := job.names ++ [name] } := by
  change (ite _ _ _ : Fix Text) job = _
  split <;> rfl

theorem newNameWith_fresh {fuel : Nat} {taken : List Text} (few : taken.length < fuel)
    (begins : template <+: name)
    (other : ∀ n, job.memory.counter ≤ n → name ≠ template ++ Text.ofNat n)
    (all : ∀ x ∈ job.names, x = name ∨ (∃ n, job.memory.counter ≤ n ∧ x = template ++ Text.ofNat n) →
      x ∈ taken) :
    ∃ new memory, newNameWith template fuel name job =
      .ok new { job with names := job.names ++ [new], memory } ∧ new ∉ job.names ∧ template <+: new := by
  induction fuel generalizing name job taken with
  | zero => cases few
  | succ fuel ih =>
    rw [newNameWith_succ]
    by_cases used : name ∈ job.names
    · have mem := all name used (.inl rfl)
      rw [if_pos (contains_iff_mem.2 used)]
      have least := length_pos_of_mem mem
      refine @ih _ _ (taken.erase name) ?_ (prefix_append _ _) (fun n later same => ?_) ?_
      · rw [length_erase_of_mem mem]
        omega
      · have := ofNat_injective (append_cancel_left same)
        simp only at later
        omega
      · intro x hx either
        obtain ⟨n, later, rfl⟩ : ∃ n, job.memory.counter ≤ n ∧ x = template ++ .ofNat n := by
          obtain rfl | ⟨n, later, eq⟩ := either
          · exact ⟨_, le_refl _, rfl⟩
          · exact ⟨n, Nat.le_of_succ_le later, eq⟩
        exact (mem_erase_of_ne (other n later).symm).2 (all _ hx (.inr ⟨n, later, rfl⟩))
    · rw [if_neg (mt contains_iff_mem.1 used)]
      exact ⟨name, job.memory, rfl, used, begins⟩

/-- **A new name is not in use**, and in use from then on. -/
theorem newName_fresh (template : Text) (job : Job) : ∃ new memory, newName template job =
      .ok new { job with names := job.names ++ [new], memory } ∧ new ∉ job.names ∧ template <+: new := by
  refine newNameWith_fresh (Nat.lt_succ_self _) (prefix_refl _) (fun n _ same => ?_) fun x hx _ => hx
  exact Nat.toDigits_ne_nil (self_eq_append_right.1 same)

end Fixer

/-- What a fixer can ask for. -/
inductive Asking where
  /-- To begin with the program in a file. -/
  | begin (file : Text)
  | name (template : Text)

namespace Asking

def template? : Asking → Option Text
  | begin _ => none
  | name template => some template

def answers : List (Worker × Asking) → Fix (List Text)
  | [] => return []
  | (w, begin file) :: rs => do
    w.atWork (Fixer.begin file)
    answers rs
  | (w, name template) :: rs => do
    let new ← w.atWork (Fixer.newName template)
    return new :: (← answers rs)

theorem answers_run (rs : List (Worker × Asking)) (job : Job) : ∃ news job',
    answers rs job = .ok news job' ∧ job'.names = job.names ++ news ∧
      (news.Nodup ∧ ∀ n ∈ news, n ∉ job.names) ∧
      Forall₂ (· <+: ·) (rs.filterMap fun r => r.2.template?) news := by
  induction rs generalizing job with
  | nil => exact ⟨[], job, rfl, (append_nil _).symm, ⟨nodup_nil, nofun⟩, .nil⟩
  | cons r rs ih =>
    obtain ⟨w, file | template⟩ := r
    · obtain ⟨news, job', run, same, fresh⟩ := ih (Job.shelved w
        { job with memory := { file := some file } })
      refine ⟨news, job', ?_, same, fresh⟩
      rw [answers, Fix.bind_of_ok (w.atWork_run _ job), run]
    · obtain ⟨new, memory, found, free, begins⟩ :=
        Fixer.newName_fresh template { job with memory := job.shelf.getD w.slot {} }
      obtain ⟨news, job', run, same, ⟨nodup, apart⟩, begin⟩ := ih (Job.shelved w
        { job with names := job.names ++ [new], memory })
      have given : w.atWork (Fixer.newName template) job =
          .ok new (Job.shelved w { job with names := job.names ++ [new], memory }) := by
        rw [w.atWork_run, found]
      refine ⟨new :: news, job', ?_, ?_, ⟨nodup_cons.2 ⟨fun again => ?_, nodup⟩, ?_⟩, .cons begins begin⟩
      · rw [answers, Fix.bind_of_ok given, Fix.bind_of_ok run]
        rfl
      · rw [same, Job.shelved, append_assoc]
        rfl
      · exact apart new again (mem_append_right _ (mem_singleton_self _))
      · exact forall_mem_cons.2 ⟨free, fun n mem used => apart n mem (mem_append_left _ used)⟩

/-- **New names are fresh.**  However fixers begin with a parsed program and ask for names, in whatever
order, each is given one that begins with its template; these are all different, and none of them is a
name of the program. -/
theorem answers_fresh {g : Grammar} (hg : g ∈ [Language.grammar, Language.grammarWithoutPrint])
    {shape : Shape} {text : Text} {source : Source} (parsed : Source.parse g shape text = .ok source)
    (rs : List (Worker × Asking)) {job : Job} (begun : job.names = source.names) :
    ∃ news job', answers rs job = .ok news job' ∧
      Forall₂ (· <+: ·) (rs.filterMap fun r => r.2.template?) news ∧ news.Nodup ∧
      ∀ t ∈ (scan (Text.lines text)).tokens, t.kind = Kind.name → t.text ∉ news := by
  obtain ⟨news, job', run, -, ⟨nodup, apart⟩, begin⟩ := answers_run rs job
  refine ⟨news, job', run, begin, nodup, fun t mem name again => ?_⟩
  exact apart _ again (begun ▸ Source.mem_names_of_parse hg parsed mem name)

def idle (slot : Nat) : Worker :=
  ⟨{ title := [], recognise := fun _ => return none, transform := fun _ _ => return .keep }, .every, slot⟩

theorem answers_fresh_sample :
    Source.parse Language.grammar .collapsed Language.sample = .ok Language.sampleSource ∧
    ∃ news job', answers [(idle 0, begin "a"), (idle 1, begin "a"), (idle 1, name "x"), (idle 0, name "x")]
        { names := Language.sampleSource.names, shelf := [{}, {}] } = .ok news job' ∧
      Forall₂ (· <+: ·) ["x".toList, "x".toList] news ∧ news.Nodup := by
  obtain ⟨_, _, parsed⟩ := Language.ofText_grammarText
  obtain ⟨news, job', run, begin, nodup, -⟩ := @answers_fresh _ mem_cons_self _ _ _ parsed
    [(idle 0, begin "a"), (idle 1, begin "a"), (idle 1, name "x"), (idle 0, name "x")]
    { names := Language.sampleSource.names, shelf := [{}, {}] } rfl
  exact ⟨parsed, news, job', run, begin, nodup⟩

end Asking

end Retouch
