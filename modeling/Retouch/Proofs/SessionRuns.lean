import Mathlib.Data.List.Forall2
import Retouch.Refactor.Session

/-!
# Sessions go from file to file

Each step of a session adds to what the session has come to and looks at nothing of it but the store of
files (`Work.Lone`).  So what comes of an item in the middle of a session is what comes of it alone,
over the store as it was left, and where nothing is written the store is the one from the beginning.  A
session over many items is made of sessions over one (`Work.changeItems_iff`), up to the first that
fails.
-/

namespace Retouch

/-! ## One session after another -/

/-- What two sessions come to, the second of which goes on with the store of the first one. -/
def Session.andThen (s t : Session) : Session where
  store := t.store
  notices := s.notices ++ t.notices
  log := s.log ++ t.log
  modified := s.modified ++ t.modified
  wrote := s.wrote || t.wrote
  errors := s.errors ++ t.errors
  outputs := s.outputs ++ t.outputs
  printed := s.printed ++ t.printed

attribute [local simp] Session.andThen

theorem Session.andThen_start (s : Session) : s.andThen { store := s.store } = s := by
  simp

theorem Session.andThen_assoc (s t u : Session) :
    (s.andThen t).andThen u = s.andThen (t.andThen u) := by
  simp [Bool.or_assoc]

namespace Work

variable {α β : Type} {m : Manner}

def after (s : Session) : EStateM.Result Failure Session α → EStateM.Result Failure Session α
  | .ok a t => .ok a (s.andThen t)
  | .error e t => .error e (s.andThen t)

def reached : EStateM.Result Failure Session α → Session
  | .ok _ t => t
  | .error _ t => t

/-- A step that adds to a session whatever it would come to alone over the store, and that keeps the
store unless changes are written. -/
structure Lone (m : Manner) (x : Work α) : Prop where
  adds : ∀ s, x.run s = after s (x.run { store := s.store })
  keeps : m.writes = false → ∀ s, (reached (x.run s)).store = s.store

theorem lone_pure (a : α) : Lone m (pure a : Work α) where
  adds s := congrArg (EStateM.Result.ok a) s.andThen_start.symm
  keeps _ _ := rfl

theorem lone_throw (e : Failure) : Lone m (throw e : Work α) where
  adds s := congrArg (EStateM.Result.error e) s.andThen_start.symm
  keeps _ _ := rfl

theorem lone_bind {x : Work α} {f : α → Work β} (hx : Lone m x) (hf : ∀ a, Lone m (f a)) :
    Lone m (x >>= f) where
  adds s := by
    show EStateM.bind x f s = after s (EStateM.bind x f { store := s.store })
    have first : x s = after s (x { store := s.store }) := hx.adds s
    simp only [EStateM.bind, first]
    cases x { store := s.store } with
    | error e t => rfl
    | ok a t =>
      have later : ∀ s, f a s = after s (f a { store := s.store }) := (hf a).adds
      show f a (s.andThen t) = after s (f a t)
      rw [later (s.andThen t), later t]
      show after (s.andThen t) (f a { store := t.store }) = after s (after t (f a { store := t.store }))
      cases f a { store := t.store } with
      | ok b u => exact congrArg (EStateM.Result.ok b) (s.andThen_assoc t u)
      | error e u => exact congrArg (EStateM.Result.error e) (s.andThen_assoc t u)
  keeps reads s := by
    show (reached (EStateM.bind x f s)).store = s.store
    have first : (reached (x s)).store = s.store := hx.keeps reads s
    simp only [EStateM.bind]
    cases run : x s with
    | error e t =>
      rwa [run] at first
    | ok a t =>
      rw [run] at first
      have later := (hf a).keeps reads t
      exact later.trans first

theorem lone_get {f : Session → Work α} (hf : ∀ s, Lone m (f s))
    (same : ∀ s : Session, f s = f { store := s.store }) : Lone m (get >>= f) where
  adds s := by
    show f s s = after s (f { store := s.store } { store := s.store })
    rw [← same s]
    exact (hf s).adds s
  keeps reads s := (hf s).keeps reads s

theorem lone_modify (f : Session → Session) (adds : ∀ s, f s = s.andThen (f { store := s.store }))
    (keeps : ∀ s, (f s).store = s.store) : Lone m (modify f : Work Unit) where
  adds s := congrArg (EStateM.Result.ok ()) (adds s)
  keeps _ s := keeps s

/-! ## The steps of a session -/

theorem lone_tell (level : Level) (text : Text) : Lone m (tell level text) := lone_modify _ (by simp) fun _ => rfl

theorem lone_noteError (text : Text) (e : Failure) : Lone m (noteError m text e) := by
  unfold noteError
  split
  · exact lone_bind (lone_tell _ _) fun _ => lone_modify _ (by simp) fun _ => rfl
  · exact lone_throw e

theorem lone_readProgram (path : Text) : Lone m (readProgram m path) := by
  refine lone_get (fun s => ?_) fun _ => rfl
  split
  · exact lone_bind (lone_noteError _ _) fun _ => lone_pure _
  · split
    · exact lone_throw _
    · split
      · exact lone_throw _
      · split
        · exact lone_throw _
        · exact lone_pure _

theorem lone_alterStore (writes : m.writes = true) (f : Files.Store → Files.Store) :
    Lone m (alterStore f) where
  adds s := congrArg (EStateM.Result.ok ()) (by simp)
  keeps reads := absurd writes (by simp [reads])

theorem lone_makeBackup (writes : m.writes = true) (path : Text) : Lone m (makeBackup path) := by
  refine lone_get (fun s => ?_) fun _ => rfl
  by_cases taken : s.store.isDirectory (path ++ ".bak") = true
  on_goal 1 => rw [if_pos taken]; refine lone_bind (lone_tell _ _) fun _ => ?_
  on_goal 2 => rw [if_neg taken]
  all_goals
    split
    · exact lone_alterStore writes _
    · exact lone_tell _ _

theorem lone_writeProgram (writes : m.writes = true) (path text : Text) (encoding : Text.Cookie.Encoding) :
    Lone m (writeProgram m path text encoding) := by
  unfold writeProgram
  by_cases backup : (m.interactive && m.keepsBackups) = true
  -- with or without a backup, the rest is the same
  on_goal 1 => rw [if_pos backup]; refine lone_bind (lone_makeBackup writes _) fun _ => ?_
  on_goal 2 => rw [if_neg backup]
  all_goals
    refine lone_get (fun s => ?_) fun _ => rfl
    split
    · exact lone_noteError _ _
    · refine lone_bind (lone_alterStore writes _) fun _ => ?_
      split
      · exact lone_throw _
      · refine lone_bind (lone_alterStore writes _) fun _ => lone_bind (lone_tell _ _) fun _ => ?_
        exact lone_modify _ (by simp) fun _ => rfl

theorem lone_printDifferences (file : Text) (lines : List Text) : Lone m (printDifferences m file lines) := by
  induction lines with
  | nil => exact lone_pure ()
  | cons line lines ih =>
    unfold printDifferences
    split
    · exact lone_modify _ (by simp) fun _ => rfl
    · exact lone_bind (lone_modify _ (by simp) fun _ => rfl) fun _ => ih

theorem lone_report (o : Output) : Lone m (report m o) := by
  refine lone_bind (lone_modify _ (by simp) fun _ => rfl) fun _ => ?_
  split
  · split
    · exact lone_tell _ _
    · refine lone_bind (lone_tell _ _) fun _ => ?_
      split
      · exact lone_printDifferences _ _
      · exact lone_pure ()
  · exact lone_pure ()

theorem lone_handle (file new old : Text) (encoding : Option Text.Cookie.Encoding) :
    Lone m (handle m file new old encoding) := by
  refine lone_bind (lone_report _) fun _ => ?_
  split
  · exact lone_tell _ _
  · split
    · rename_i writes
      exact lone_writeProgram writes _ _ _
    · exact lone_tell _ _

theorem lone_noteModified (file : Text) : Lone m (noteModified file) := lone_modify _ (by simp) fun _ => rfl

theorem lone_addLog (log : List Text) : Lone m (addLog log) := lone_modify _ (by simp) fun _ => rfl

/-! ## Files -/

theorem lone_changeText (tool : Tool) (file text : Text) : Lone m (changeText tool m file text) := by
  refine lone_get (fun s => ?_) fun _ => rfl
  refine lone_bind (lone_addLog _) fun _ => ?_
  split
  · exact lone_bind (lone_tell _ _) fun _ => lone_pure _
  · exact lone_bind (lone_noteError _ _) fun _ => lone_pure _
  · exact lone_bind (lone_tell _ _) fun _ => lone_throw _
  · exact lone_throw _

theorem lone_changeDoctests (tool : Tool) (file text : Text) : Lone m (changeDoctests tool file text) := by
  refine lone_get (fun s => ?_) fun _ => rfl
  refine lone_bind (lone_addLog _) fun _ => ?_
  split
  · exact lone_pure _
  · exact lone_throw _

theorem lone_changeFile (tool : Tool) (file : Text) : Lone m (changeFile tool m file) := by
  refine lone_bind (lone_readProgram _) fun _ => ?_
  split
  · exact lone_pure ()
  · split
    · refine lone_bind (lone_tell _ _) fun _ => lone_bind (lone_changeDoctests _ _ _) fun _ => ?_
      split
      · exact lone_bind (lone_noteModified _) fun _ => lone_handle _ _ _ _
      · exact lone_tell _ _
    · refine lone_bind (lone_changeText _ _ _) fun _ => ?_
      split
      · exact lone_tell _ _
      · split
        · refine lone_bind (lone_noteModified _) fun _ => lone_bind (lone_readProgram _) fun _ => ?_
          split
          · exact lone_pure ()
          · exact lone_handle _ _ _ _
        · exact lone_tell _ _

theorem lone_changeFiles (tool : Tool) (files : List Text) : Lone m (changeFiles tool m files) := by
  induction files with
  | nil => exact lone_pure ()
  | cons file files ih => exact lone_bind (lone_changeFile _ _) fun _ => ih

theorem lone_changeDirectories (tool : Tool) (fuel : Nat) (paths : List Text) :
    Lone m (changeDirectories tool m fuel paths) := by
  induction fuel generalizing paths with
  | zero => exact lone_pure ()
  | succ fuel ih =>
    cases paths with
    | nil => exact lone_pure ()
    | cons path rest =>
      refine lone_bind (lone_tell _ _) fun _ => lone_get (fun s => ?_) fun _ => rfl
      simp only
      split
      · exact lone_bind (lone_changeFiles _ _) fun _ => ih _
      · exact ih _

theorem lone_changeItem (tool : Tool) (item : Text) : Lone m (changeItem tool m item) := by
  refine lone_get (fun s => ?_) fun _ => rfl
  simp only
  split
  · exact lone_changeDirectories _ _ _
  · exact lone_changeFile _ _

/-! ## Items in turn -/

variable {tool : Tool}

def alone (tool : Tool) (m : Manner) (store : Files.Store) (item : Text) :
    EStateM.Result Failure Session Unit :=
  (changeItem tool m item).run { store }

/-- Items one after the other, each with what comes of it alone over the store that the ones before
have left. -/
inductive InTurn (tool : Tool) (m : Manner) : Session → List Text → Session → Prop
  | nil (s : Session) : InTurn tool m s [] s
  | cons {s t u : Session} {item : Text} {items : List Text}
      (first : alone tool m s.store item = .ok () u) (later : InTurn tool m (s.andThen u) items t) :
      InTurn tool m s (item :: items) t

theorem run_changeItems_cons (s : Session) (item : Text) (items : List Text) :
    (changeItems tool m (item :: items)).run s =
      match alone tool m s.store item with
      | .ok () u => (changeItems tool m items).run (s.andThen u)
      | .error e u => .error e (s.andThen u) := by
  have first : changeItem tool m item s = after s (alone tool m s.store item) :=
    (lone_changeItem tool item).adds s
  show EStateM.bind _ _ s = _
  simp only [EStateM.bind, first]
  cases alone tool m s.store item <;> rfl

variable {items : List Text} {s t : Session}

theorem changeItems_ok_iff : (changeItems tool m items).run s = .ok () t ↔ InTurn tool m s items t := by
  induction items generalizing s with
  | nil =>
    constructor
    · intro run
      cases run
      exact .nil _
    · rintro ⟨⟩
      rfl
  | cons item items ih =>
    rw [run_changeItems_cons]
    constructor
    · intro run
      cases first : alone tool m s.store item with
      | ok _ u =>
        rw [first] at run
        exact .cons first (ih.1 run)
      | error e u =>
        rw [first] at run
        cases run
    · rintro (_ | ⟨first, later⟩)
      rw [first]
      exact ih.2 later

theorem changeItems_error_iff {e : Failure} :
    (changeItems tool m items).run s = .error e t ↔ ∃ done bad rest u v, items = done ++ bad :: rest ∧
      InTurn tool m s done u ∧ alone tool m u.store bad = .error e v ∧ t = u.andThen v := by
  induction items generalizing s with
  | nil =>
    constructor
    · rintro ⟨⟩
    · rintro ⟨done, bad, rest, u, v, eq, -⟩
      exact absurd eq (by simp)
  | cons item items ih =>
    rw [run_changeItems_cons]
    constructor
    · intro run
      cases first : alone tool m s.store item with
      | ok _ u =>
        rw [first] at run
        obtain ⟨done, bad, rest, v, w, rfl, turn, failed, rfl⟩ := ih.1 run
        exact ⟨item :: done, bad, rest, v, w, rfl, .cons first turn, failed, rfl⟩
      | error e' u =>
        rw [first] at run
        cases run
        exact ⟨[], item, items, s, u, rfl, .nil s, first, rfl⟩
    · rintro ⟨done, bad, rest, u, v, eq, turn, failed, rfl⟩
      cases turn with
      | nil =>
        cases eq
        rw [failed]
      | cons first later =>
        cases eq
        rw [first]
        exact ih.2 ⟨_, bad, rest, u, v, rfl, later, failed, rfl⟩

theorem store_andThen_of_alone (reads : m.writes = false) {u : Session} {item : Text}
    (h : alone tool m s.store item = .ok () u) : (s.andThen u).store = s.store := by
  have kept := (lone_changeItem (m := m) tool item).keeps reads { store := s.store }
  rwa [show (changeItem tool m item).run { store := s.store } = .ok () u from h] at kept

theorem inTurn_iff_forall₂ (reads : m.writes = false) :
    InTurn tool m s items t ↔
      ∃ ts, List.Forall₂ (fun item u => alone tool m s.store item = .ok () u) items ts ∧
        t = ts.foldl Session.andThen s := by
  induction items generalizing s with
  | nil =>
    constructor
    · rintro ⟨⟩
      exact ⟨[], .nil, rfl⟩
    · rintro ⟨ts, each, rfl⟩
      obtain rfl := List.forall₂_nil_left_iff.1 each
      exact .nil s
  | cons item items ih =>
    constructor
    · rintro (_ | ⟨first, later⟩)
      obtain ⟨ts, each, rfl⟩ := ih.1 later
      rw [store_andThen_of_alone reads first] at each
      exact ⟨_ :: ts, .cons first each, rfl⟩
    · rintro ⟨ts, each, rfl⟩
      obtain ⟨u, us, first, later, rfl⟩ := List.forall₂_cons_left_iff.1 each
      rw [← store_andThen_of_alone reads first] at later
      exact .cons first (ih.2 ⟨us, later, rfl⟩)

end Work

end Retouch
