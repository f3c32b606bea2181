import Retouch.Proofs.BadFiles
import Retouch.Proofs.Documented

/-!
# Files whose examples are changed

A file is read with a newline at its end, and where only examples are changed this newline is written
with the rest: every file that ends its last line has an empty line more afterwards, outside of all
examples (`Work.changeFile_doctests`).
-/

namespace Retouch

open List

/-! ## A newline more -/

namespace Text

def Closed (t : Text) : Prop := ∀ c ∈ t.getLast?, isLineEnd c = true

theorem lines_cons {c : Char} (h : c ≠ '\r') (t : Text) :
    lines (c :: t) = if isLineEnd c then [c] :: lines t else consLine c (lines t) := by
  rw [lines]
  rintro _ rfl
  exact absurd rfl h

theorem lines_newline {t : Text} (h : '\r' ∉ t) :
    (Closed t → lines (t ++ ['\n']) = lines t ++ [['\n']]) ∧
    (¬ Closed t → ∃ front last, lines t = front ++ [last] ∧
      lines (t ++ ['\n']) = front ++ [last ++ ['\n']]) := by
  induction t with
  | nil => exact ⟨fun _ => rfl, absurd nofun⟩
  | cons c t ih =>
    obtain ⟨other, rest⟩ := not_or.1 (mt mem_cons.2 h)
    have hc : c ≠ '\r' := fun same => other same.symm
    rw [cons_append, lines_cons hc, lines_cons hc]
    cases t with
    | nil =>
      have iff : Closed [c] ↔ isLineEnd c = true := by simp [Closed]
      rw [iff]
      split
      · rename_i ends
        exact ⟨fun _ => rfl, absurd ends⟩
      · rename_i goesOn
        exact ⟨fun ends => absurd ends goesOn, fun _ => ⟨[], [c], rfl, rfl⟩⟩
    | cons d t =>
      obtain ⟨ended, ends⟩ := ih rest
      obtain ⟨l, ls, eq⟩ := exists_cons_of_ne_nil (@lines_ne_nil d t)
      refine ⟨fun closed => ?_, fun no => ?_⟩
      · rw [ended closed, eq]
        split <;> rfl
      · obtain ⟨front, last, eq, eq'⟩ := ends no
        rw [eq, eq']
        split
        · exact ⟨[c] :: front, last, rfl, rfl⟩
        · cases front with
          | nil => exact ⟨[], c :: last, rfl, rfl⟩
          | cons l front => exact ⟨(c :: l) :: front, last, rfl, rfl⟩

theorem return_notMem_unifyNewlines (t : Text) : '\r' ∉ unifyNewlines t := by
  fun_induction unifyNewlines t with
  | case1 => exact not_mem_nil
  | case2 cs ih => simpa using ih
  | case3 c cs _ ih =>
    rw [mem_cons, not_or]
    refine ⟨?_, ih⟩
    split
    · decide
    · exact fun same => absurd same.symm ‹_›

end Text

namespace Doctest

theorem goesOn_newline (indent : Text) : goesOn indent ['\n'] = false := by
  rw [Bool.eq_false_iff, ne_eq, goesOn_iff]
  rintro (⟨_, same⟩ | same)
  all_goals
    have long := congrArg length same
    simp only [length_append, show nextPrompt.length = 4 from rfl, length_cons, length_nil] at long
    omega

theorem partsFrom_newline (row : Nat) (begun : Option Example) (ls : List Text) :
    partsFrom row begun (ls ++ [['\n']]) = partsFrom row begun ls ++ [.plain ['\n']] := by
  have plain : begins ['\n'] = false := rfl
  induction ls generalizing row begun with
  | nil =>
    cases begun with
    | none => rfl
    | some e => simp [partsFrom, plain, goesOn_newline]
  | cons l ls ih =>
    simp only [cons_append, partsFrom]
    split
    · rw [ih, append_assoc]
    · cases begun with
      | none => exact congrArg (_ :: ·) (ih ..)
      | some e =>
        simp only
        split
        · exact ih ..
        · exact congrArg (_ :: _ :: ·) (ih ..)

end Doctest

namespace Work

open Doctest Retouch.Text.Cookie

variable {m : Manner} {file : Text} {s : Session}

theorem contentOf?_writeProgram {parts : List Text} (found : s.store.find file = .file parts)
    (backup : (m.interactive && m.keepsBackups) = false) (text : Text) (encoding : Encoding) :
    (reached ((writeProgram m file text encoding).run s)).store.contentOf? parts =
      some ((encoding.encode? text).getD []) := by
  unfold writeProgram
  rw [backup]
  have opened : ∀ act : Session → Work Unit, ((get : Work Session) >>= act).run s = (act s).run s :=
    fun _ => rfl
  have place : (s.store.find file).toWrite = .ok parts := by rw [found]; rfl
  simp only [Bool.false_eq_true, if_false, opened, place]
  cases encoding.encode? text <;> exact OrderedMap.get?_insert_self ..

theorem run_changeDoctests (tool : Tool) (text : Text) (s : Session) :
    ∃ log, (changeDoctests tool file text).run s =
      match (tool.changeDoctests { store := s.store } file text).result with
      | .ok new => .ok new { s with log }
      | .error f => .error (.program (.faulty f)) { s with log } := by
  refine ⟨s.log ++ (tool.changeDoctests { store := s.store } file text).log, ?_⟩
  show (match (tool.changeDoctests { store := s.store } file text).result with
    | .ok t => _ | .error f => _ : Work Text) _ = _
  cases (tool.changeDoctests { store := s.store } file text).result <;> rfl

def Smooth (x : Work Unit) : Prop := ∀ s, ∃ t, x.run s = .ok () t ∧ t.store = s.store

theorem smooth_bind {x : Work Unit} {f : Unit → Work Unit} (hx : Smooth x) (hf : Smooth (f ())) :
    Smooth (x >>= f) := by
  intro s
  obtain ⟨t, run, kept⟩ := hx s
  obtain ⟨u, next, kept'⟩ := hf t
  exact ⟨u, (run_bind_ok run).trans next, kept'.trans kept⟩

theorem smooth_printDifferences (lines : List Text) : Smooth (printDifferences m file lines) := by
  induction lines with
  | nil => exact fun s => ⟨s, rfl, rfl⟩
  | cons line lines ih =>
    unfold printDifferences
    split
    · exact fun s => ⟨_, rfl, rfl⟩
    · exact smooth_bind (fun s => ⟨_, rfl, rfl⟩) ih

theorem smooth_report (o : Output) : Smooth (report m o) := by
  refine smooth_bind (fun s => ⟨_, rfl, rfl⟩) ?_
  split
  · split
    · exact fun s => ⟨_, rfl, rfl⟩
    · refine smooth_bind (fun s => ⟨_, rfl, rfl⟩) ?_
      split
      · exact smooth_printDifferences _
      · exact fun s => ⟨s, rfl, rfl⟩
  · exact fun s => ⟨s, rfl, rfl⟩

theorem contentOf?_handle {path : List Text} (found : s.store.find file = .file path)
    (writes : m.writes = true) (backup : (m.interactive && m.keepsBackups) = false) {new old : Text}
    (other : new ≠ old) (encoding : Encoding) :
    (reached ((handle m file new old (some encoding)).run s)).store.contentOf? path =
      some ((encoding.encode? new).getD []) := by
  have unequal : Output.equal ⟨file, old, new⟩ = false := beq_false_of_ne other.symm
  obtain ⟨t, reported, kept⟩ := smooth_report (m := m) ⟨file, old, new⟩ s
  unfold handle
  simp only [unequal, writes]
  rw [run_bind_ok reported]
  exact contentOf?_writeProgram (by rw [kept]; exact found) backup _ _

theorem return_notMem_decoded {bytes : Bytes} {c : Text} {encoding : Encoding}
    (h : decoded bytes = .ok (c, encoding)) : '\r' ∉ c := by
  unfold decoded at h
  repeat' split at h
  all_goals cases h
  exact Text.return_notMem_unifyNewlines _

/-- **Changing the examples in a file** leaves the file alone, or writes its lines with the new examples
and one newline more: after the last line, if that was ended, there is an empty line. -/
theorem changeFile_doctests (tool : Tool) (only : m.doctestsOnly = true) (writes : m.writes = true)
    (backup : (m.interactive && m.keepsBackups) = false) {bytes : Bytes} {c : Text} {encoding : Encoding}
    (read : s.store.read file = .ok bytes) (text : decoded bytes = .ok (c, encoding)) :
    let store := (reached ((changeFile tool m file).run s)).store
    let result := (tool.changeDoctests { store := s.store } file (c ++ ['\n'])).result
    (∀ f, result = .error f → store = s.store) ∧
    (∀ new, result = .ok new → ∃ path news, s.store.find file = .file path ∧
      (parts (c ++ ['\n'])).Forall₂ (Becomes tool { store := s.store } file) news ∧
      new = Text.concat news.flatten ∧
      if new = c ++ ['\n'] then store = s.store
      else store.contentOf? path = some ((encoding.encode? new).getD [])) ∧
    (Text.Closed c → parts (c ++ ['\n']) = parts c ++ [.plain ['\n']]) ∧
    (¬ Text.Closed c → ∃ front last, Text.lines c = front ++ [last] ∧
      Text.lines (c ++ ['\n']) = front ++ [last ++ ['\n']]) := by
  obtain ⟨ended, ends⟩ := Text.lines_newline (return_notMem_decoded text)
  have newline : "\n".toList = ['\n'] := rfl
  have opened := @run_readProgram m file s bytes read
  rw [text] at opened
  unfold changeFile
  rw [run_bind_ok opened]
  simp only [only, if_true, newline]
  obtain ⟨told, tells⟩ : ∃ told, (tell .debug ("Refactoring doctests in " ++ file)).run s =
      .ok () { s with notices := told } := ⟨_, rfl⟩
  rw [run_bind_ok tells]
  obtain ⟨log, run⟩ := @run_changeDoctests file tool (c ++ ['\n']) { s with notices := told }
  refine ⟨fun f failed => ?_, fun new changed => ?_,
    fun closed => by rw [parts, ended closed, partsFrom_newline, parts], ends⟩
  · simp only [failed] at run
    rw [run_bind_error run]
    rfl
  · obtain ⟨path, found⟩ : ∃ path, s.store.find file = .file path := by
      rw [Files.Store.read] at read
      cases found : s.store.find file with
      | file path => exact ⟨path, rfl⟩
      | _ => rw [found] at read; cases read
    obtain ⟨lines, made, rfl⟩ := map_eq_ok.1 changed
    obtain ⟨news, become, rfl⟩ : ∃ news,
      (parts (c ++ ['\n'])).Forall₂ (Becomes tool { store := s.store } file) news ∧
        lines = news.flatten := becomes_of_changeParts made
    refine ⟨path, news, found, become, rfl, ?_⟩
    simp only [changed] at run
    rw [run_bind_ok run]
    by_cases same : Text.concat news.flatten = c ++ ['\n']
    · rw [if_pos same, if_neg (not_not_intro same)]
      rfl
    · rw [if_neg same, if_pos same, run_bind_ok (run_noteModified _)]
      exact contentOf?_handle (s := { s with notices := told, log, modified := s.modified ++ [file] })
        found writes backup same encoding

def oneExample : Text := ">>> 1 <> 2\n"

def exampleBytes : Bytes := oneExample.map fun c => c.toNat.toUInt8

theorem decoded_exampleBytes : decoded exampleBytes = .ok (oneExample, Encoding.utf8) := by
  have run : (decoded exampleBytes).toOption = some (oneExample, .utf8) := by decide +kernel
  cases made : decoded exampleBytes with
  | error e => rw [made] at run; cases run
  | ok p => rw [made] at run; cases run; rfl

def exampleStore : Files.Store where
  files := [(["a.py".toList], exampleBytes)]

/-- A file that is one example: tools that change the example add an empty line. -/
theorem changeFile_doctests_last :
    parts (oneExample ++ ['\n']) = [.example ⟨1, [], [oneExample]⟩, .plain ['\n']] ∧
    ∀ (tool : Tool) (new : Text),
      (tool.changeDoctests { store := exampleStore } "a.py" (oneExample ++ ['\n'])).result = .ok new →
      new ≠ oneExample ++ ['\n'] →
      ∃ lines, Becomes tool { store := exampleStore } "a.py" (.example ⟨1, [], [oneExample]⟩) lines ∧
        (reached ((changeFile tool { doctestsOnly := true, writes := true } "a.py").run
          { store := exampleStore })).store.contentOf? ["a.py".toList] =
          some ((Encoding.utf8.encode? (Text.concat (lines ++ [['\n']]))).getD []) := by
  have two : parts (oneExample ++ ['\n']) = [.example ⟨1, [], [oneExample]⟩, .plain ['\n']] := by
    decide +kernel
  refine ⟨two, fun tool new changed other => ?_⟩
  have found : exampleStore.find "a.py" = .file ["a.py".toList] := by decide +kernel
  have read : exampleStore.read "a.py" = .ok exampleBytes := by
    rw [Files.Store.read, found]
    rfl
  obtain ⟨-, writes, -⟩ := changeFile_doctests (m := { doctestsOnly := true, writes := true })
    (s := { store := exampleStore }) tool rfl rfl rfl read decoded_exampleBytes
  obtain ⟨path, news, found', become, rfl, content⟩ := writes new changed
  rw [if_neg other] at content
  rw [two] at become
  cases found.symm.trans found'
  cases become with | cons first rest =>
  cases rest with | cons second rest =>
  cases rest
  cases second
  exact ⟨_, first, content⟩

end Work

end Retouch
