import Retouch.Proofs.Rewriting

/-!
# The forms of whole numbers

In the old form a leading zero makes a number octal, and a letter at the end marks a long number
(`Fixes.oldValue?`).  In the new form only zero has leading zeros, and there is no such letter
(`Fixes.newValue?`).  The fixer for numbers writes the same number in the new form, but for octal numbers
with the letter at the end, which lose it and nothing else (`Fixes.numliterals_value`).
-/

namespace Retouch

open List

namespace Fixes

def digit? (base : Nat) (c : Char) : Option Nat :=
  let value :=
    if c.isDigit then c.toNat - '0'.toNat
    else if 'a' ≤ c ∧ c ≤ 'f' then c.toNat - 'a'.toNat + 10
    else if 'A' ≤ c ∧ c ≤ 'F' then c.toNat - 'A'.toNat + 10
    else base
  if value < base then some value else none

/-- The value of digits that come after others, whose value is given. -/
def digits? (base : Nat) : Nat → Text → Option Nat
  | value, [] => some value
  | value, c :: cs => (digit? base c).bind fun d => digits? base (base * value + d) cs

/-- The value of one digit or more. -/
def number? (base : Nat) (ds : Text) : Option Nat := if ds = [] then none else digits? base 0 ds

/-- The value of a number with a mark of its base after a zero, or without leading zeros; `zero` gives
that of other numbers, without the first zero. -/
def marked? (zero : Text → Option Nat) : Text → Option Nat
  | '0' :: c :: ds =>
    if c = 'x' ∨ c = 'X' then number? 16 ds
    else if c = 'o' ∨ c = 'O' then number? 8 ds
    else if c = 'b' ∨ c = 'B' then number? 2 ds
    else zero (c :: ds)
  | ds => number? 10 ds

def isLong (t : Text) : Bool := t.getLast?.any isLongMark

/-- The value of a whole number in the old form. -/
def oldValue? (t : Text) : Option Nat := marked? (number? 8) (if isLong t then t.dropLast else t)

/-- The value of a whole number in the new form, without underscores. -/
def newValue? : Text → Option Nat := marked? fun ds => if ds.all (· == '0') then some 0 else none

/-- Does the text begin like an octal number without a mark of its base? -/
def isOldOctal (t : Text) : Bool := Text.startsWith "0" t && Lexeme.headIs Lexeme.isOctal (t.drop 1)

variable {value n : Nat} {c : Char} {ds t : Text}

theorem isDigit_iff : c.isDigit = true ↔ 48 ≤ c.toNat ∧ c.toNat ≤ 57 := by
  simp [Char.isDigit, UInt32.le_iff_toNat_le]

theorem isOctal_iff : Lexeme.isOctal c = true ↔ 48 ≤ c.toNat ∧ c.toNat ≤ 55 := by
  simp [Lexeme.isOctal, Char.le_def, UInt32.le_iff_toNat_le]

theorem of_digit?_eight {d : Nat} (h : digit? 8 c = some d) :
    Lexeme.isOctal c = true ∧ (d = 0 ↔ c = '0') := by
  simp only [digit?, Option.ite_none_right_eq_some, Option.some_inj, isDigit_iff] at h
  obtain ⟨small, value⟩ := h
  have zero : c = '0' ↔ c.toNat = 48 := by
    rw [Char.ext_iff, ← UInt32.toNat_inj]
    rfl
  have digit : 48 ≤ c.toNat ∧ c.toNat ≤ 57 := by
    by_contra other
    rw [if_neg other] at small
    split at small
    · omega
    · split at small <;> omega
  rw [if_pos digit] at small value
  rw [isOctal_iff, zero]
  have : '0'.toNat = 48 := rfl
  omega

theorem isDigit_of_isOctal (h : Lexeme.isOctal c = true) : Text.isDigit c = true := by
  rw [isOctal_iff] at h
  have digit := isDigit_iff.2 ⟨h.1, Nat.le_trans h.2 (by decide)⟩
  rw [Text.isDigit, Text.isDecimal, Text.decimalValue?]
  simp [digit, Nat.lt_of_le_of_lt h.2 (show 55 < 128 by decide)]

/-- Octal digits with the value zero are zeros. -/
theorem of_digits?_eight (h : digits? 8 value ds = some n) :
    (∀ d ∈ ds, Lexeme.isOctal d = true) ∧ (n = 0 ↔ value = 0 ∧ ∀ d ∈ ds, d = '0') := by
  induction ds generalizing value with
  | nil =>
    cases h
    simp
  | cons c ds ih =>
    obtain ⟨d, first, later⟩ := Option.bind_eq_some_iff.1 h
    obtain ⟨octal, zero⟩ := of_digit?_eight first
    obtain ⟨octals, zeros⟩ := ih later
    rw [zeros, forall_mem_cons, forall_mem_cons, ← zero, ← and_assoc]
    exact ⟨⟨octal, octals⟩, and_congr_left fun _ => by omega⟩

theorem of_number?_eight (h : number? 8 ds = some n) :
    (∀ d ∈ ds, Lexeme.isOctal d = true) ∧ (n = 0 ↔ ds.all (· == '0') = true) := by
  rw [number?] at h
  split at h
  · cases h
  · simpa using of_digits?_eight h

theorem marked?_digit (zero : Text → Option Nat) (digit : Text.isDigit c = true) :
    marked? zero ('0' :: c :: ds) = zero (c :: ds) := by
  have plain (m : Char) (other : Text.isDigit m = false) : c ≠ m := by
    rintro rfl
    rw [digit] at other
    cases other
  have letters : ['x', 'X', 'o', 'O', 'b', 'B'].all (!Text.isDigit ·) = true := by decide +kernel
  have letter : ∀ m ∈ ['x', 'X', 'o', 'O', 'b', 'B'], c ≠ m := fun m hm =>
    plain m (by simpa using all_eq_true.1 letters m hm)
  simp only [forall_mem_cons] at letter
  simp [marked?, letter]

/-- Two readings of a number differ only where it has a leading zero and no mark of its base. -/
theorem marked?_cases (h : marked? (number? 8) t = some n) :
    (isOldOctal t = false ∧ ∀ other, marked? other t = some n) ∨
      ∃ c ds, t = '0' :: c :: ds ∧ Lexeme.isOctal c = true ∧ number? 8 (c :: ds) = some n := by
  unfold marked? at h ⊢
  split at h
  · rename_i c ds
    split_ifs at h ⊢ with hex octal binary
    · exact .inl ⟨by rcases hex with rfl | rfl <;> rfl, fun _ => h⟩
    · exact .inl ⟨by rcases octal with rfl | rfl <;> rfl, fun _ => h⟩
    · exact .inl ⟨by rcases binary with rfl | rfl <;> rfl, fun _ => h⟩
    · exact .inr ⟨c, ds, rfl, (of_number?_eight h).1 c mem_cons_self, h⟩
  · rename_i plain
    refine .inl ⟨?_, fun _ => h⟩
    rw [isOldOctal, Bool.and_eq_false_iff]
    match t with
    | [] => exact .inl rfl
    | [c] => exact .inr rfl
    | d :: c :: ds =>
      simp [Text.startsWith, isPrefixOf, show '0' ≠ d from fun zero => plain c ds (by rw [zero])]

theorem newValue?_of_marked? (h : marked? (number? 8) t = some n) :
    newValue? t = if isOldOctal t && n != 0 then none else some n := by
  rcases marked?_cases h with ⟨other, same⟩ | ⟨c, ds, rfl, octal, value⟩
  · rw [newValue?, same, other]
    rfl
  · rw [newValue?, marked?_digit _ (isDigit_of_isOctal octal),
      show isOldOctal ('0' :: c :: ds) = true from octal]
    by_cases zero : n = 0
    · rw [if_pos ((of_number?_eight value).2.1 zero), zero]
      rfl
    · rw [if_neg fun zeros => zero ((of_number?_eight value).2.2 zeros), if_pos (by simpa using zero)]

theorem newValue?_remarked {m : Char} (h : marked? (number? 8) t = some n) (last : t.getLast? = some m) :
    newValue? (if Text.startsWith "0" t && t.all Text.isDigit && t.any (· != m) then
      '0' :: 'o' :: t.drop 1 else t) = some n := by
  rcases marked?_cases h with ⟨-, same⟩ | ⟨c, ds, rfl, _, value⟩
  · split
    · rename_i digits
      simp only [Bool.and_eq_true, all_eq_true, any_eq_true, bne_iff_ne] at digits
      obtain ⟨⟨zero, digits⟩, d, hd, different⟩ := digits
      match t with
      | [c] =>
        cases last
        exact absurd (mem_singleton.1 hd) different
      | z :: c :: ds =>
        obtain rfl : '0' = z := by simpa [Text.startsWith] using zero
        have none := same fun _ => none
        rw [marked?_digit _ (digits c (by simp))] at none
        cases none
    · exact same _
  · split
    · exact value
    · rename_i equal
      have digits := fun d hd => isDigit_of_isOctal ((of_number?_eight value).1 d hd)
      have all : ('0' :: c :: ds).all Text.isDigit = true :=
        all_eq_true.2 (forall_mem_cons.2 ⟨isDigit_of_isOctal rfl, digits⟩)
      rw [all, show Text.startsWith "0" ('0' :: c :: ds) = true from rfl] at equal
      have zeros : ∀ d ∈ '0' :: c :: ds, d = m := by simpa using equal
      have zero := (of_number?_eight value).2.2 <| all_eq_true.2 fun d hd => beq_iff_eq.2
        ((zeros d (mem_cons_of_mem _ hd)).trans (zeros '0' mem_cons_self).symm)
      rw [newValue?_of_marked? h, zero, bne_self_eq_false, Bool.and_false]
      rfl

/-- What is written for a number has the same value in the new form, unless it was octal and long. -/
theorem newValue?_modernNumber (old : oldValue? t = some n) : newValue? (modernNumber t) =
    if isLong t && isOldOctal t && n != 0 then none else some n := by
  rcases eq_nil_or_concat t with rfl | ⟨us, m, rfl⟩
  · cases old
  rw [concat_eq_append] at old ⊢
  rw [oldValue?, isLong, getLast?_concat, Option.any_some] at old
  rw [modernNumber, isLong, getLast?_concat, Option.any_some]
  dsimp only
  by_cases long : isLongMark m = true
  · have begins : isOldOctal (us ++ [m]) = isOldOctal us := by
      match us with
      | [] => simp [isOldOctal, Lexeme.headIs]
      | [c] =>
        have mark : m = 'L' ∨ m = 'l' := by simpa [isLongMark] using long
        rcases mark with rfl | rfl <;> simp [isOldOctal, Lexeme.headIs, Lexeme.isOctal]
      | c :: d :: ds => rfl
    rw [if_pos long, dropLast_concat] at old
    rw [if_pos long, dropLast_concat, newValue?_of_marked? old, long, begins, Bool.true_and]
  · rw [if_neg long] at old
    rw [if_neg long, eq_false_of_ne_true long, newValue?_remarked old getLast?_concat]
    rfl

/-- **Numbers keep their value.**  The fixer sees the numbers with a leading zero or the letter of a long
number.  What it puts in the place of one is a number of the new form with the same value; but an octal
number with the letter that is not zero becomes no number at all. -/
theorem numliterals_value {job : Job} {i : NodeId} {l : Leaf} (stands : job.forest.Stands (.leaf i l))
    (literal : l.value = .text t) (old : oldValue? t = some n) :
    numliterals.recognise i job =
      .ok (if Text.startsWith "0" t || isLong t then some [] else none) job ∧
    ∃ job' new, numliterals.transform i [] job = .ok (.put job.forest.size) job' ∧
      job'.forest.Stands (.leaf job.forest.size ⟨Kind.number, .text new, l.lead, 0, 0⟩) ∧
      newValue? new = if isLong t && isOldOctal t && n != 0 then none else some n := by
  have value := valueOf_leaf stands
  rw [literal] at value
  refine ⟨?_, { job with forest := _ }, modernNumber t, ?_, (whole_newLeaf job.forest _).stands,
    newValue?_modernNumber old⟩
  · show (liftM (Forest.valueOf i) >>= _ : Fix _) job = _
    rw [Fix.bind_of_ok (liftEdit_of_ok value)]
    have seen : isOldNumber (.text t) = .ok (Text.startsWith "0" t || isLong t) := by
      rw [isOldNumber]
      split
      · rename_i zero
        rw [zero]
        rfl
      · rename_i zero
        rw [eq_false_of_ne_true zero, isLong, Bool.false_or]
        cases last : t.getLast? with
        | some c => rfl
        | none =>
          rw [getLast?_eq_none_iff.1 last] at old
          cases old
    rw [seen]
    cases Text.startsWith "0" t || isLong t <;> rfl
  · show (liftM (valueText i) >>= _ : Fix _) job = _
    rw [Fix.bind_of_ok (liftEdit_of_ok (valueText_leaf stands literal)), Fix.bind_of_ok (leadOf_leaf stands)]
    rfl

/-- The octal number `0777L` would be `0777`, which is no number of the new form. -/
theorem numliterals_longOctal : let t := ['0', '7', '7', '7', 'L']
    Lexeme.number? t = some t.length ∧ oldValue? t = some 511 ∧ isOldNumber (.text t) = .ok true ∧
      modernNumber t = ['0', '7', '7', '7'] ∧ newValue? (modernNumber t) = none := by
  decide +kernel

/-- A long hexadecimal number keeps its value. -/
theorem numliterals_value_hex : let t := ['0', 'x', 'F', 'F', 'l']
    let job : Job := { forest := (Forest.ofTree (.leaf () (.ofText Kind.number t))).2 }
    oldValue? t = some 255 ∧ ∃ job' new, numliterals.transform 0 [] job = .ok (.put 1) job' ∧
      job'.forest.Stands (.leaf 1 ⟨Kind.number, .text new, [], 0, 0⟩) ∧ newValue? new = some 255 := by
  intro t job
  have old : oldValue? t = some 255 := by decide +kernel
  have whole : Forest.Whole job.forest (.leaf 0 (.ofText Kind.number t)) := whole_ofTree _
  exact ⟨old, (numliterals_value whole.stands rfl old).2⟩

end Fixes

end Retouch
