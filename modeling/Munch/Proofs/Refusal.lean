import Munch.Literal

/-!
# Why literals are refused

Each form of literal is refused for faults of a few kinds only: texts for missing quotes,
ill-formed UTF-8 or escapes, numerals for being malformed or out of range, and verbatim
literals for ill-formed UTF-8. In particular no literal is refused as an unmatched character.

## Main definitions

* `RefusedAt`: a reading is refused for a fault of some kind at some index.
* `Literal.faultKinds`: the kinds of faults of a form of literal.
-/
namespace Munch

/-- A reading is refused for a fault of the kind at the index. -/
def RefusedAt {α : Type} (x : Except Refusal α) (kind : FaultKind) (index : Nat) : Prop :=
  ∃ fault : Fault, x = .error ⟨fault, index⟩ ∧ fault.kind = kind

theorem refusedAt_error {α : Type} {r : Refusal} {kind : FaultKind} {index : Nat} :
    RefusedAt (.error r : Except Refusal α) kind index ↔ r.fault.kind = kind ∧ r.index = index := by
  constructor
  · rintro ⟨fault, hr, hkind⟩
    obtain rfl := Except.error.inj hr
    exact ⟨hkind, rfl⟩
  · rintro ⟨hkind, rfl⟩
    exact ⟨r.fault, rfl, hkind⟩

theorem Except.eq_error_of_map {ε α β : Type} {x : Except ε α} {f : α → β} {e : ε}
    (h : x.map f = .error e) : x = .error e := by
  cases x with
  | error => simpa [Except.map] using h
  | ok => simp [Except.map] at h

theorem Except.exists_ok_of_map {ε α β : Type} {x : Except ε α} {f : α → β} {b : β}
    (h : x.map f = .ok b) : ∃ a, x = .ok a ∧ f a = b := by
  cases x with
  | error => simp [Except.map] at h
  | ok a => exact ⟨a, rfl, by simpa [Except.map] using h⟩

theorem fault_of_mapError_shift {α : Type} {x : Except Refusal α} {n : Nat} {r : Refusal}
    (h : x.mapError (Refusal.shift n) = .error r) : ∃ r', x = .error r' ∧ r'.fault = r.fault := by
  cases x with
  | error r' => exact ⟨r', rfl, by cases h; rfl⟩
  | ok => cases h

/-- The kinds of faults for which a form of literal is refused. -/
def Literal.faultKinds : Literal → List FaultKind
  | text => [.unterminatedText, .invalidUtf8, .invalidEscape]
  | natural | number | double => [.invalidNumericLiteral]
  | label | path | address => [.invalidUtf8]

namespace Literal

variable {s : Bytes} {r : Refusal}

theorem Text.kind_of_unescape_error {index : Nat} (h : Text.unescape index s = .error r) :
    r.fault.kind = .invalidEscape := by
  fun_induction Text.unescape index s with
  | case1 => cases h
  | case2 => cases h; rfl
  | case3 index code s value _ ih => exact ih (Except.eq_error_of_map h)
  | case4 => cases h; rfl
  | case5 index b s _ ih => exact ih (Except.eq_error_of_map h)

theorem Text.kind_of_unquote_error (h : Text.unquote s = .error r) :
    r.fault.kind ∈ faultKinds .text := by
  unfold Text.unquote at h
  split at h
  · cases h; simp [faultKinds, Fault.kind]
  · split at h
    · cases h; simp [faultKinds, Fault.kind]
    · simp [faultKinds, Text.kind_of_unescape_error h]

theorem Numeral.kind_of_readNumber_error (h : Numeral.readNumber s = .error r) :
    r.fault.kind = .invalidNumericLiteral := by
  unfold Numeral.readNumber at h
  split at h <;> cases h
  rfl

theorem Double.kind_of_readFraction_error {index : Nat}
    (h : Double.Parts.readFraction s index = .error r) :
    r.fault.kind = .invalidNumericLiteral := by
  unfold Double.Parts.readFraction at h
  grind [Fault.kind]

theorem Double.kind_of_readPower_error {index : Nat}
    (h : Double.Parts.readPower s index = .error r) :
    r.fault.kind = .invalidNumericLiteral := by
  unfold Double.Parts.readPower at h
  grind [Fault.kind]

theorem Double.kind_of_parts_error (h : Double.Parts.read s = .error r) :
    r.fault.kind = .invalidNumericLiteral := by
  unfold Double.Parts.read at h
  dsimp only at h
  split at h
  · cases h; rfl
  · cases hfraction : Double.Parts.readFraction (Double.Parts.splitDigits s).2
        (s.length - (Double.Parts.splitDigits s).2.length) with
    | error r' =>
      rw [hfraction] at h
      cases h
      exact Double.kind_of_readFraction_error hfraction
    | ok fraction =>
      rw [hfraction] at h
      replace h : (Double.Parts.readPower fraction.2 (s.length - fraction.2.length) >>= _) =
        Except.error r := h
      cases hpower : Double.Parts.readPower fraction.2 (s.length - fraction.2.length) with
      | error r' =>
        rw [hpower] at h
        cases h
        exact Double.kind_of_readPower_error hpower
      | ok power =>
        rw [hpower] at h
        simp only [bind, Except.bind] at h
        split at h
        · cases h
        · cases h; rfl

theorem Double.kind_of_read_error (h : Double.read s = .error r) :
    r.fault.kind = .invalidNumericLiteral := by
  rw [Double.read_eq] at h
  cases hparts : Double.Parts.read s with
  | error r' =>
    rw [hparts] at h
    cases h
    exact Double.kind_of_parts_error hparts
  | ok parts =>
    rw [hparts] at h
    simp only [Except.bind] at h
    split at h
    · cases h
    · cases h; rfl

theorem Verbatim.kind_of_read_error (h : Verbatim.read s = .error r) :
    r.fault.kind = .invalidUtf8 := by
  unfold Verbatim.read at h
  split at h <;> cases h
  rfl

/-- A form of literal is refused for a fault of one of its kinds. -/
theorem kind_of_read_error {form : Literal} (h : form.read s = .error r) :
    r.fault.kind ∈ form.faultKinds := by
  cases form with
  | text => exact Text.kind_of_unquote_error (Except.eq_error_of_map h)
  | natural =>
    obtain ⟨r', hr', hfault⟩ := fault_of_mapError_shift (Except.eq_error_of_map h)
    simp [faultKinds, ← hfault, Numeral.kind_of_readNumber_error hr']
  | number =>
    simp [faultKinds, Numeral.kind_of_readNumber_error (Except.eq_error_of_map h)]
  | double => simp [faultKinds, Double.kind_of_read_error (Except.eq_error_of_map h)]
  | label | address =>
    simp [faultKinds, Verbatim.kind_of_read_error (Except.eq_error_of_map h)]
  | path =>
    have h' := Except.eq_error_of_map h
    unfold Verbatim.readPath at h'
    split at h'
    · obtain ⟨r', hr', hfault⟩ := fault_of_mapError_shift h'
      simp [faultKinds, ← hfault, Verbatim.kind_of_read_error hr']
    · simp [faultKinds, Verbatim.kind_of_read_error h']

theorem kind_ne_unmatched_of_read_error {form : Literal} (h : form.read s = .error r) :
    r.fault.kind ≠ .unmatchedCharacter := by
  have hmem := kind_of_read_error h
  rintro heq
  rw [heq] at hmem
  cases form <;> simp [faultKinds] at hmem

end Literal
end Munch
