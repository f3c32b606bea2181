import Retouch.Proofs.Maps
import Retouch.Text.Cookie

/-!
# Files with a byte order mark

The name that is found for a file with a byte order mark is the usual one of UTF-8 with a mark, apart
from one case: the families of `utf8` and `u8` name the same encoding, but have no usual name, and
nothing is known by their names with a mark (`detect_marked`).
-/

namespace Retouch.Text.Cookie

open List

def plainName (name : Text) : Text := (lowered name).map fun c => if c = '_' then '-' else c

def declared? (line : Bytes) : Option Text := (asciiText? line).bind name?

def shortNames : List Text := ["utf8", "u8"]

variable {name found : Text}

theorem plainName_append (a b : Text) : plainName (a ++ b) = plainName a ++ plainName b := by
  simp [plainName, lowered]

theorem plainName_of_ofName? (h : Encoding.ofName? name = some .utf8) :
    plainName name = "utf-8" ∨ plainName name ∈ shortNames := by
  unfold Encoding.ofName? at h
  simp only at h
  split at h
  · rename_i known
    simpa [plainName, shortNames] using known
  · repeat' split at h
    all_goals cases h

def isUsual (name : Text) : Bool := name == "utf-8" || startsWith "utf-8-" name

theorem usualName_cases (found : Text) :
    isUsual (plainName (found.take 12)) = true ∧ usualName found = "utf-8" ∨
      isUsual (plainName (found.take 12)) = false ∧
        (usualName found = "iso-8859-1" ∨ usualName found = found) := by
  unfold usualName isUsual plainName
  simp only [Bool.or_eq_true, beq_iff_eq, Bool.or_eq_false_iff, beq_eq_false_iff_ne]
  split
  · rename_i usual
    exact .inl ⟨usual, rfl⟩
  · rename_i other
    rw [not_or, Bool.not_eq_true] at other
    refine .inr ⟨other, ?_⟩
    split
    · exact .inl rfl
    · exact .inr rfl

theorem usualName_of_utf8 (h : Encoding.ofName? (usualName found) = some .utf8) :
    usualName found = if plainName found ∈ shortNames then found else "utf-8" := by
  -- twelve characters are all of such a name
  have whole (either : plainName found = "utf-8" ∨ plainName found ∈ shortNames) :
      plainName (found.take 12) = plainName found ∧
        (isUsual (plainName found) = true ↔ plainName found ∉ shortNames) := by
    have length : found.length = (plainName found).length := by simp [plainName, lowered]
    simp only [shortNames, mem_cons, not_mem_nil, or_false] at either ⊢
    rw [take_of_length_le]
    · obtain same | same | same := either <;> rw [same] <;> decide
    · rw [length]
      obtain same | same | same := either <;> rw [same] <;> decide
  obtain ⟨usual, eq⟩ | ⟨other, latin | same⟩ := usualName_cases found
  · rw [eq, if_neg]
    intro short
    rw [(whole (.inr short)).1, (whole (.inr short)).2] at usual
    exact usual short
  · rw [latin] at h
    cases h
  · rw [same] at h ⊢
    have either := plainName_of_ofName? h
    rw [(whole either).1, Bool.eq_false_iff, ne_eq, (whole either).2, not_not] at other
    rw [if_pos other]

-- named, so that `signed` has the same instance wherever it is read
instance : LawfulBEq Text := inferInstanceAs (LawfulBEq (List Char))

def signed (found : Text) : Text := (if plainName found ∈ shortNames then found else "utf-8") ++ "-sig"

theorem ofLine_marked {line : Bytes} {answer : Option Text} (h : ofLine true line = .ok answer) :
    answer = (declared? line).map signed := by
  unfold ofLine at h
  rw [show (asciiText? line).bind name? = declared? line from rfl] at h
  cases declares : declared? line with
  | none =>
    rw [declares] at h
    cases h
    rfl
  | some found =>
    rw [declares] at h
    simp only [if_true] at h
    split at h
    · cases h
    · split at h
      · rename_i known utf8
        cases h
        rw [usualName_of_utf8 (known.trans (congrArg some utf8))]
        rfl
      · cases h

def cookie (first : Bytes) (rest : List Bytes) : Option Text :=
  if first = [] then none else declared? first <|> declared? (rest.headD [])

theorem detect_eq_signed {first : Bytes} {rest read : List Bytes}
    (h : detect ((mark ++ first) :: rest) = .ok (name, read)) :
    name = ((cookie first rest).map signed).getD "utf-8-sig" := by
  unfold detect at h
  have marked : mark.isPrefixOf (mark ++ first) = true := isPrefixOf_iff_prefix.2 ⟨first, rfl⟩
  have after : (mark ++ first).drop 3 = first := rfl
  simp only [headD_cons, marked, after, if_true, drop_one, tail_cons] at h
  unfold cookie
  split at h
  · rename_i empty
    cases h
    rw [if_pos empty]
    rfl
  · rename_i full
    rw [if_neg full]
    obtain ⟨answer, found, h⟩ := bind_eq_ok.1 h
    cases ofLine_marked found
    generalize declared? first = declared at h
    cases declared with
    | some found =>
      cases h
      rfl
    | none =>
      simp only [Option.map_none] at h
      split at h
      · rename_i ended
        cases h
        rw [ended]
        rfl
      · obtain ⟨answer, found, h⟩ := bind_eq_ok.1 h
        cases ofLine_marked found
        generalize declared? (rest.headD []) = declared at h
        cases declared <;> cases h <;> rfl

theorem ofName?_signed (found : Text) : Encoding.ofName? (signed found) =
    if plainName found ∈ shortNames then none else some .utf8Signed := by
  unfold signed
  split
  · rename_i short
    have plain := plainName_append found "-sig"
    simp only [shortNames, mem_cons, not_mem_nil, or_false] at short
    unfold Encoding.ofName?
    unfold plainName at plain short
    obtain same | same := short <;> rw [same] at plain <;> simp only [plain] <;> decide
  · decide

/-- **The encoding of a file with a byte order mark.**  It is UTF-8 with a mark by the usual name, unless
a short name of UTF-8 is declared: then the name is made from that one, and no encoding has it. -/
theorem detect_marked {first : Bytes} {rest read : List Bytes}
    (h : detect ((mark ++ first) :: rest) = .ok (name, read)) :
    name = ((cookie first rest).map signed).getD "utf-8-sig" ∧
    (name = "utf-8-sig" ↔ ∀ found ∈ cookie first rest, plainName found ∉ shortNames) ∧
    (name = "utf-8-sig" ↔ ∃ encoding, Encoding.ofName? name = some encoding) := by
  have known : ∃ encoding, Encoding.ofName? "utf-8-sig" = some encoding := ⟨.utf8Signed, by decide⟩
  have named := detect_eq_signed h
  refine ⟨named, ?_⟩
  cases declares : cookie first rest with
  | none =>
    rw [declares] at named
    cases named
    exact ⟨iff_of_true rfl nofun, iff_of_true rfl known⟩
  | some found =>
    obtain rfl : name = signed found := by rw [named, declares]; rfl
    have sig := ofName?_signed found
    by_cases short : plainName found ∈ shortNames
    · rw [if_pos short] at sig
      have other : signed found ≠ "utf-8-sig" := fun same => by
        rw [same] at sig
        cases sig
      refine ⟨iff_of_false other fun none => none found rfl short, iff_of_false other ?_⟩
      rw [sig]
      nofun
    · have usual : signed found = "utf-8-sig" := by
        rw [signed, if_neg short]
        rfl
      refine ⟨iff_of_true usual ?_, iff_of_true usual (usual ▸ known)⟩
      rintro _ ⟨⟩
      exact short

def ofAscii (line : Text) : Bytes := line.map fun c => UInt8.ofNat c.toNat

theorem detect_marked_usual :
    detect [mark ++ ofAscii "# coding: UTF_8\n"] = .ok ("utf-8-sig", [ofAscii "# coding: UTF_8\n"]) ∧
      ∃ encoding, Encoding.ofName? "utf-8-sig" = some encoding := by
  have found : detect [mark ++ ofAscii "# coding: UTF_8\n"] =
      .ok ("utf-8-sig", [ofAscii "# coding: UTF_8\n"]) := by decide
  exact ⟨found, (detect_marked found).2.2.1 rfl⟩

/-- With a short name the answer is no name of an encoding. -/
theorem detect_marked_short :
    detect [mark ++ ofAscii "# coding: utf8\n"] = .ok ("utf8-sig", [ofAscii "# coding: utf8\n"]) ∧
      Encoding.ofName? "utf8-sig" = none := by
  decide

end Retouch.Text.Cookie
