import Retouch.Proofs.SessionRuns

/-!
# Files that are no programs

A file can be bad in several ways: it cannot be opened, its bytes cannot be read as characters, the
beginning of its text cannot be scanned for features, or the text cannot be parsed.  In an interactive
session the first and the last are noted as errors, and nothing else comes of the file.  The others end
the session, and nothing comes of the files after it (`Work.changeItems_badFiles`).
-/

namespace Retouch

open Retouch.Text.Cookie (Bytes Encoding)

/-- What is bad about a file. -/
inductive Trouble where
  | unopened (e : Files.FileError)
  | cookie (e : Text.Cookie.Error)
  | noEncoding (name : Text)
  | undecodable
  | unscannable (e : ScanError)
  | unparsable (e : SourceError)
deriving Repr

namespace Trouble

def isNoted : Trouble → Bool
  | unopened _ | unparsable _ => true
  | cookie _ | noEncoding _ | undecodable | unscannable _ => false

def failure : Trouble → Failure
  | unopened e => .file e
  | cookie e => .cookie e
  | noEncoding name => .noEncoding name
  | undecodable => .undecodable
  | unscannable e => .program (.unscannable e)
  | unparsable e => .program (.unparsable e)

def message (file : Text) : Trouble → Text
  | unopened e => "Can't open " ++ file ++ ": " ++ e.message file
  | unparsable e => "Can't parse " ++ file ++ ": " ++ e.shown.1 ++ ": " ++ e.shown.2
  | _ => []

end Trouble

def decoded (bytes : Bytes) : Except Trouble (Text × Encoding) :=
  match Text.Cookie.detect (Work.byteLines bytes) with
  | .error e => .error (.cookie e)
  | .ok (name, _) =>
    match Encoding.ofName? name with
    | none => .error (.noEncoding name)
    | some encoding =>
      match encoding.decode? bytes with
      | none => .error .undecodable
      | some text => .ok (Text.unifyNewlines text, encoding)

def Tool.trouble? (tool : Tool) (store : Files.Store) (file : Text) : Option Trouble :=
  match store.read file with
  | .error e => some (.unopened e)
  | .ok bytes =>
    match decoded bytes with
    | .error t => some t
    | .ok (text, _) =>
      match Features.detect (text ++ "\n") with
      | .error e => some (.unscannable e)
      | .ok features =>
        match Source.parse (tool.grammarFor features) .collapsed (text ++ "\n") with
        | .error e => some (.unparsable e)
        | .ok _ => none

namespace Work

variable {α β : Type} {m : Manner} {tool : Tool} {store : Files.Store} {file : Text} {s t : Session}

variable {f : α → Work β} {x : Work α}

theorem run_bind_ok {a : α} (h : x.run s = .ok a t) : (x >>= f).run s = (f a).run t := by
  show EStateM.bind x f s = f a t
  rw [EStateM.bind, show x s = .ok a t from h]

theorem run_bind_error {e : Failure} (h : x.run s = .error e t) : (x >>= f).run s = .error e t := by
  show EStateM.bind x f s = .error e t
  rw [EStateM.bind, show x s = .error e t from h]

theorem run_noteModified (s : Session) : (noteModified file).run s =
    .ok () { s with modified := s.modified ++ [file] } := rfl

theorem run_noteError (interactive : m.interactive = true) (text : Text) (e : Failure) :
    (noteError m text e).run s = .ok () { s with
      notices := s.notices ++ [.message .error text], errors := s.errors ++ [text] } := by
  unfold noteError
  rw [if_pos interactive]
  rfl

/-! ## Reading a file -/

theorem run_readProgram_unopened (interactive : m.interactive = true) {e : Files.FileError}
    (h : store.read file = .error e) : (readProgram m file).run { store } = .ok none
      { store, notices := [.message .error (Trouble.message file (.unopened e))]
        errors := [Trouble.message file (.unopened e)] } := by
  show (match store.read file with | .error e => _ | .ok bytes => _ : Work _).run { store } = _
  rw [h]
  exact run_bind_ok (run_noteError interactive _ _)

theorem run_readProgram {bytes : Bytes} (h : s.store.read file = .ok bytes) :
    (readProgram m file).run s =
      match decoded bytes with
      | .error t => .error t.failure s
      | .ok program => .ok (some program) s := by
  unfold readProgram decoded
  show (match s.store.read file with | .error e => _ | .ok bytes => _ : Work _) s = _
  rw [h]
  simp only
  cases Text.Cookie.detect (byteLines bytes) with
  | error e => rfl
  | ok cookie =>
    simp only
    cases Encoding.ofName? cookie.1 with
    | none => rfl
    | some encoding =>
      simp only
      cases encoding.decode? bytes <;> rfl

theorem isNoted_of_decoded {bytes : Bytes} {t : Trouble} (h : decoded bytes = .error t) :
    t.isNoted = false := by
  unfold decoded at h
  split at h
  · cases h
    rfl
  · split at h
    · cases h
      rfl
    · split at h
      · cases h
        rfl
      · cases h

/-! ## Parsing a program -/

theorem run_changeText (text : Text) :
    (changeText tool m file text).run { store } =
      (match (tool.changeText { store } file text).result with
      | .ok p => do
        tell .debug ("Refactoring " ++ file)
        return some p
      | .error (.unparsable e) => do
        noteError m (Trouble.message file (.unparsable e)) (.program (.unparsable e))
        return none
      | .error (.faulty f) => do
        tell .debug ("Refactoring " ++ file)
        throw (.program (.faulty f))
      | .error e => throw (.program e) : Work (Option Program)).run
        { store, log := (tool.changeText { store } file text).log } := by
  rfl

theorem run_changeText_unscannable {text : Text} {e : ScanError} (h : Features.detect text = .error e) :
    (changeText tool m file text).run { store } = .error (.program (.unscannable e)) { store } := by
  have result : tool.changeText { store } file text = ⟨.error (.unscannable e), []⟩ := by
    rw [Tool.changeText, h]
  rw [run_changeText, result]
  rfl

theorem run_changeText_unparsable (interactive : m.interactive = true) {text : Text}
    {features : List Text} {e : SourceError} (scanned : Features.detect text = .ok features)
    (h : Source.parse (tool.grammarFor features) .collapsed text = .error e) :
    (changeText tool m file text).run { store } = .ok none
      { store, notices := [.message .error (Trouble.message file (.unparsable e))]
        errors := [Trouble.message file (.unparsable e)] } := by
  have result : tool.changeText { store } file text = ⟨.error (.unparsable e), []⟩ := by
    rw [Tool.changeText, scanned]
    simp [h]
  rw [run_changeText, result]
  exact run_bind_ok (run_noteError interactive _ _)

theorem alone_eq (plain : store.isDirectory file = false) :
    alone tool m store file = (changeFile tool m file).run { store } := by
  show (if store.isDirectory file then _ else _ : Work Unit) { store } = _
  rw [plain]
  rfl

theorem alone_of_trouble (interactive : m.interactive = true) (programs : m.doctestsOnly = false)
    (plain : store.isDirectory file = false) {t : Trouble} (h : tool.trouble? store file = some t) :
    if t.isNoted then ∃ notices, alone tool m store file =
      .ok () { store, notices, errors := [t.message file] }
    else alone tool m store file = .error t.failure { store } := by
  rw [alone_eq plain, changeFile]
  unfold Tool.trouble? at h
  split at h
  · rename_i e unread
    cases h
    exact ⟨_, run_bind_ok (run_readProgram_unopened interactive unread)⟩
  · rename_i bytes read
    have run := run_readProgram (m := m) (s := { store }) read
    split at h
    · rename_i t' bad
      cases h
      rw [bad] at run
      rw [isNoted_of_decoded bad]
      exact run_bind_error run
    · rename_i text encoding good
      rw [good] at run
      rw [run_bind_ok run]
      simp only [programs]
      split at h
      · rename_i e scanned
        cases h
        exact run_bind_error (run_changeText_unscannable scanned)
      · rename_i features scanned
        split at h
        · rename_i e parsed
          cases h
          exact ⟨_, run_bind_ok (run_changeText_unparsable interactive scanned parsed)⟩
        · cases h

/-! ## Files that are programs -/

def Quiet (x : Work α) : Prop := ∀ s, (reached (x.run s)).errors = s.errors

theorem quiet_bind (hx : Quiet x) (hf : ∀ a, Quiet (f a)) : Quiet (x >>= f) := by
  intro s
  have first := hx s
  cases run : x.run s with
  | ok a t =>
    rw [run] at first
    rw [run_bind_ok run]
    exact (hf a t).trans first
  | error e t =>
    rw [run] at first
    rwa [run_bind_error run]

theorem quiet_tell (level : Level) (text : Text) : Quiet (tell level text) := fun _ => rfl

theorem quiet_printDifferences (lines : List Text) : Quiet (printDifferences m file lines) := by
  induction lines with
  | nil => exact fun _ => rfl
  | cons line lines ih =>
    unfold printDifferences
    split
    · exact fun _ => rfl
    · exact quiet_bind (fun _ => rfl) fun _ => ih

theorem quiet_handle (reads : m.writes = false) (new old : Text) (encoding : Option Encoding) :
    Quiet (handle m file new old encoding) := by
  refine quiet_bind (quiet_bind (fun _ => rfl) fun _ => ?_) fun _ => ?_
  · split
    · split
      · exact quiet_tell _ _
      · refine quiet_bind (quiet_tell _ _) fun _ => ?_
        split
        · exact quiet_printDifferences _
        · exact fun _ => rfl
    · exact fun _ => rfl
  · rw [reads]
    split
    · exact quiet_tell _ _
    · exact quiet_tell _ _

theorem errors_alone (programs : m.doctestsOnly = false) (reads : m.writes = false)
    (plain : store.isDirectory file = false) (h : tool.trouble? store file = none) :
    (reached (alone tool m store file)).errors = [] := by
  rw [alone_eq plain, changeFile]
  unfold Tool.trouble? at h
  split at h
  · cases h
  · rename_i bytes read
    split at h
    · cases h
    · rename_i text encoding good
      have again : ∀ s : Session, s.store = store →
          (readProgram m file).run s = .ok (some (text, encoding)) s := by
        rintro s rfl
        rw [run_readProgram read, good]
      rw [run_bind_ok (again { store } rfl)]
      simp only [programs, Bool.false_eq_true, if_false]
      split at h
      · cases h
      · rename_i features scanned
        split at h
        · cases h
        · rename_i source parsed
          -- the program is parsed, so that only a fixer can fail
          have run : (changeText tool m file (text ++ "\n")).run { store } = _ := run_changeText _
          cases result : (tool.changeText { store } file (text ++ "\n")).result with
          | error e =>
            obtain ⟨f, rfl⟩ : ∃ f, e = .faulty f := by
              rw [Tool.changeText, scanned] at result
              simp only [parsed] at result
              cases changed : (tool.changeSource { store, features := some features } file source).result with
              | ok p => simp [changed, Except.mapError] at result
              | error f => exact ⟨f, by simpa [changed, Except.mapError] using result.symm⟩
            rw [result] at run
            rw [run_bind_error run]
            rfl
          | ok p =>
            rw [result] at run
            rw [run_bind_ok run]
            simp only
            split
            · rw [run_bind_ok (run_noteModified _), run_bind_ok (again _ rfl)]
              exact quiet_handle reads _ _ _ _
            · rfl

def mixedStore : Files.Store where
  files := [(["bad.py".toList], "\"\"\"abc".toList.map fun c => c.toNat.toUInt8),
    (["good.py".toList], "x <> y\n".toList.map fun c => c.toNat.toUInt8)]

theorem trouble?_bad (tool : Tool) :
    ∃ e, tool.trouble? mixedStore "bad.py" = some (.unscannable e) := by
  have run : (match mixedStore.read "bad.py" with
      | .ok bytes =>
        match decoded bytes with
        | .ok (text, _) =>
          match Features.detect (text ++ "\n") with
          | .error _ => true
          | .ok _ => false
        | .error _ => false
      | .error _ => false) = true := by decide +kernel
  unfold Tool.trouble?
  split at run
  · rename_i bytes read
    rw [read]
    simp only
    split at run
    · rename_i text encoding good
      rw [good]
      simp only
      split at run
      · rename_i e scanned
        exact ⟨e, rfl⟩
      · cases run
    · cases run
  · cases run

end Work

end Retouch
