import Munch.Json
import Munch.Proofs.Boundary
import Munch.Proofs.CodePoint

/-!
# The JSON grammar

The grammar of JSON texts, each part as a relation between a text, what the part denotes and what is
left behind it. Strings denote texts, whichever escapes they are written with; a number denotes
its own lexeme. A text denotes at most one value.

## Main definitions

* `Json.Value`: what a JSON text denotes.
* `Json.Characters`: the inside of a string.
* `Json.Reads`: values, and the parts of arrays and objects.
* `Json.Denotes`: a whole text is one value.
-/
namespace Munch.Json

inductive Value
  | null
  | bool (b : Bool)
  | number (lexeme : Bytes)
  | text (s : Bytes)
  | array (items : List Value)
  | object (fields : List (Bytes × Value))

/-! ## White space -/

/-- Space, tab, line feed and carriage return. -/
def isBlank (b : Byte) : Bool := b == 0x20 || b == 0x09 || b == 0x0A || b == 0x0D

/-- What is left behind the white space at the head of a text. -/
def skip (s : Bytes) : Bytes := s.dropWhile isBlank

theorem skip_cons_of_not_blank {b : Byte} (h : isBlank b = false) (s : Bytes) :
    skip (b :: s) = b :: s := by
  simp [skip, h]

theorem skip_append {w : Bytes} (h : ∀ b ∈ w, isBlank b = true) (s : Bytes) :
    skip (w ++ s) = skip s := List.dropWhile_append_of_pos h

/-! ## Strings -/

/-- What may stand behind a backslash, and the byte that the two stand for. -/
def escapes : List (Byte × Byte) :=
  [(0x22, 0x22), (0x5C, 0x5C), (0x2F, 0x2F), (0x62, 0x08), (0x66, 0x0C), (0x6E, 0x0A),
   (0x72, 0x0D), (0x74, 0x09)]

/-- The number that a hexadecimal digit of either case stands for. -/
def hexValue? (b : Byte) : Option Nat :=
  if 0x30 ≤ b ∧ b ≤ 0x39 then some (b.toNat - 0x30)
  else if 0x61 ≤ b ∧ b ≤ 0x66 then some (b.toNat - 0x57)
  else if 0x41 ≤ b ∧ b ≤ 0x46 then some (b.toNat - 0x37)
  else none

/-- The text is four hexadecimal digits with this value. -/
def IsHex (n : Nat) (s : Bytes) : Prop :=
  s.length = 4 ∧ (s.mapM hexValue?).map (List.foldl (fun n d => 16 * n + d) 0) = some n

/-- The characters up to the closing quote denote the first text. A character is written as it is,
unless it is a quote, a backslash or a control, or it is escaped: by a letter, by its number, or by
the numbers of two surrogates if it has more than sixteen bits. -/
inductive Characters : Bytes → Bytes → Bytes → Prop
  | close {s rest : Bytes} (h : s = Byte.quote :: rest) : Characters [] s rest
  | plain {c : Char} {cs s t rest : Bytes} (h : s = String.utf8EncodeChar c ++ t)
      (hcontrol : 0x20 ≤ c.toNat) (hquote : c ≠ '"') (hbackslash : c ≠ '\\')
      (hcs : Characters cs t rest) : Characters (String.utf8EncodeChar c ++ cs) s rest
  | letter {code b : Byte} {cs s t rest : Bytes} (h : s = Byte.backslash :: code :: t)
      (hcode : (code, b) ∈ escapes) (hcs : Characters cs t rest) : Characters (b :: cs) s rest
  | number {c : Char} {digits cs s t rest : Bytes}
      (h : s = Byte.backslash :: 0x75 :: (digits ++ t)) (hdigits : IsHex c.toNat digits)
      (hcs : Characters cs t rest) : Characters (String.utf8EncodeChar c ++ cs) s rest
  | surrogates {c : Char} {i j : Nat} {high low cs s t rest : Bytes}
      (h : s = Byte.backslash :: 0x75 :: (high ++ Byte.backslash :: 0x75 :: (low ++ t)))
      (hhigh : IsHex (0xD800 + i) high) (hlow : IsHex (0xDC00 + j) low) (hi : i < 0x400)
      (hj : j < 0x400) (hc : c.toNat = 0x10000 + 0x400 * i + j) (hcs : Characters cs t rest) :
      Characters (String.utf8EncodeChar c ++ cs) s rest

theorem IsHex.unique {m n : Nat} {u v s t : Bytes} (h : IsHex m u) (h' : IsHex n v)
    (heq : u ++ s = v ++ t) : m = n ∧ s = t := by
  obtain ⟨rfl, rfl⟩ := List.append_inj heq (h.1.trans h'.1.symm)
  exact ⟨Option.some.inj (h.2.symm.trans h'.2), rfl⟩

theorem escapes_unique : ∀ e ∈ escapes, ∀ e' ∈ escapes, e.1 = e'.1 → e.2 = e'.2 := by
  simp [escapes]

theorem number_notMem_escapes : ∀ e ∈ escapes, e.1 ≠ 0x75 := by simp [escapes]

/-- No character has the number of a surrogate. -/
theorem toNat_ne_surrogate (c : Char) {i : Nat} (hi : i < 0x400) : c.toNat ≠ 0xD800 + i := by
  have hvalid : c.toNat.isValidChar := c.valid
  rw [Nat.isValidChar] at hvalid
  omega

section Characters

variable {c : Char} {cs cs' s t rest rest' : Bytes}

/-- A character that is written as it is begins neither with a quote nor with a backslash. -/
theorem encodeChar_append_ne (hquote : c ≠ '"') (hbackslash : c ≠ '\\') :
    String.utf8EncodeChar c ++ s ≠ Byte.quote :: t ∧
      String.utf8EncodeChar c ++ s ≠ Byte.backslash :: t := by
  constructor
  · intro h
    exact hquote (Char.toNat_inj.1 (Utf8.toNat_of_encodeChar_append (by decide) h))
  · intro h
    exact hbackslash (Char.toNat_inj.1 (Utf8.toNat_of_encodeChar_append (by decide) h))

theorem quote_ne_backslash : Byte.quote :: s ≠ Byte.backslash :: t := by
  simp [Byte.quote, Byte.backslash]

/-- The inside of a string denotes one text and ends at one place. -/
theorem Characters.unique (h : Characters cs s rest) (h' : Characters cs' s rest') :
    cs = cs' ∧ rest = rest' := by
  induction h generalizing cs' with
  | close hs =>
    subst hs
    cases h' with
    | close hs' => exact ⟨rfl, (List.cons.inj hs').2⟩
    | plain hs' _ hquote hbackslash =>
      exact absurd hs'.symm (encodeChar_append_ne hquote hbackslash).1
    | letter hs' | number hs' | surrogates hs' => exact absurd hs' quote_ne_backslash
  | plain hs _ hquote hbackslash _ ih =>
    subst hs
    cases h' with
    | close hs' => exact absurd hs' (encodeChar_append_ne hquote hbackslash).1
    | plain hs' _ _ _ hcs' =>
      obtain ⟨hc, rfl⟩ := Utf8.encodeChar_append_inj hs'
      obtain ⟨rfl, rfl⟩ := ih hcs'
      exact ⟨congrArg (· ++ _) hc, rfl⟩
    | letter hs' | number hs' | surrogates hs' =>
      exact absurd hs' (encodeChar_append_ne hquote hbackslash).2
  | letter hs hcode _ ih =>
    subst hs
    cases h' with
    | close hs' => exact absurd hs'.symm quote_ne_backslash
    | plain hs' _ hquote hbackslash =>
      exact absurd hs'.symm (encodeChar_append_ne hquote hbackslash).2
    | letter hs' hcode' hcs' =>
      obtain ⟨rfl, rfl⟩ := List.cons.inj (List.cons.inj hs').2
      obtain ⟨rfl, rfl⟩ := ih hcs'
      exact ⟨congrArg (· :: _) (escapes_unique _ hcode _ hcode' rfl), rfl⟩
    | number hs' | surrogates hs' =>
      exact absurd (List.cons.inj (List.cons.inj hs').2).1 (number_notMem_escapes _ hcode)
  | @number c _ _ _ _ _ hs hdigits _ ih =>
    subst hs
    cases h' with
    | close hs' => exact absurd hs'.symm quote_ne_backslash
    | plain hs' _ hquote hbackslash =>
      exact absurd hs'.symm (encodeChar_append_ne hquote hbackslash).2
    | letter hs' hcode' =>
      exact absurd (List.cons.inj (List.cons.inj hs').2).1.symm (number_notMem_escapes _ hcode')
    | number hs' hdigits' hcs' =>
      obtain ⟨hc, rfl⟩ := hdigits.unique hdigits' (List.cons.inj (List.cons.inj hs').2).2
      obtain ⟨rfl, rfl⟩ := ih hcs'
      rw [Char.toNat_inj.1 hc]
      exact ⟨rfl, rfl⟩
    | surrogates hs' hhigh' _ hi' =>
      have hc := (hdigits.unique hhigh' (List.cons.inj (List.cons.inj hs').2).2).1
      exact absurd hc (toNat_ne_surrogate c hi')
  | surrogates hs hhigh hlow hi _ hc _ ih =>
    subst hs
    cases h' with
    | close hs' => exact absurd hs'.symm quote_ne_backslash
    | plain hs' _ hquote hbackslash =>
      exact absurd hs'.symm (encodeChar_append_ne hquote hbackslash).2
    | letter hs' hcode' =>
      exact absurd (List.cons.inj (List.cons.inj hs').2).1.symm (number_notMem_escapes _ hcode')
    | @number c' _ _ _ _ _ hs' hdigits' =>
      have hc' := (hhigh.unique hdigits' (List.cons.inj (List.cons.inj hs').2).2).1
      exact absurd hc'.symm (toNat_ne_surrogate c' hi)
    | surrogates hs' hhigh' hlow' _ _ hc' hcs' =>
      obtain ⟨hi, hs'⟩ := hhigh.unique hhigh' (List.cons.inj (List.cons.inj hs').2).2
      obtain ⟨hj, rfl⟩ := hlow.unique hlow' (List.cons.inj (List.cons.inj hs').2).2
      obtain ⟨rfl, rfl⟩ := ih hcs'
      rw [Char.toNat_inj.1 (hc.trans (by rw [hc']; omega))]
      exact ⟨rfl, rfl⟩

end Characters

/-! ## Numbers -/

/-- The bytes that numbers are made of. -/
def isNumberPart (b : Byte) : Bool :=
  b.isDigit || b == 0x2B || b == 0x2D || b == 0x2E || b == 0x45 || b == 0x65

/-- No byte of a number stands at the head. -/
def EndsNumber (s : Bytes) : Prop := ∀ b ∈ s.head?, isNumberPart b = false

theorem endsNumber_nil : EndsNumber [] := by simp [EndsNumber]

theorem endsNumber_cons {b : Byte} (hb : isNumberPart b = false) (s : Bytes) :
    EndsNumber (b :: s) := by
  simpa [EndsNumber] using hb

section Numerals

open Grammar
open scoped Computability

/-- Zero, or digits of which the first is not zero. -/
def wholeNumeral : Language Byte :=
  fixed "0" + byte {b | 0x31 ≤ b ∧ b ≤ 0x39} * (byte digit)∗

def numeral : Language Byte :=
  optional (fixed "-") * (wholeNumeral * optional fraction * optional exponent)

theorem isNumberPart_of_digit {b : Byte} (h : b ∈ digit) : isNumberPart b = true := by
  simp [isNumberPart, isDigit_iff.2 h]

theorem over_wholeNumeral : Over {b | isNumberPart b = true} wholeNumeral := by
  have hnonzero : ∀ b ∈ {b : Byte | 0x31 ≤ b ∧ b ≤ 0x39}, isNumberPart b = true := by
    intro b hb
    exact isNumberPart_of_digit ⟨UInt8.le_trans (by decide) hb.1, hb.2⟩
  apply Over.add
  · exact over_fixed (List.all_eq_true.1 (by decide))
  · exact (over_byte hnonzero).mul (over_star_byte fun _ => isNumberPart_of_digit)

theorem over_numeral : Over {b | isNumberPart b = true} numeral := by
  have hfixed {t : String} (h : (Bytes.ascii t).all isNumberPart = true) :
      Over {b | isNumberPart b = true} (fixed t) := over_fixed (List.all_eq_true.1 h)
  have hnumber : Over {b | isNumberPart b = true} Grammar.number :=
    over_number fun _ => isNumberPart_of_digit
  have hmark : Over {b | isNumberPart b = true} (byte {0x65, 0x45}) :=
    over_byte (by rintro b (rfl | rfl) <;> decide)
  have hsign : Over {b | isNumberPart b = true} (byte {0x2B, 0x2D}) :=
    over_byte (by rintro b (rfl | rfl) <;> decide)
  have hfraction := ((hfixed (t := ".") (by decide)).mul hnumber).optional
  have hexponent := ((hmark.mul hsign.optional).mul hnumber).optional
  exact (hfixed (by decide)).optional.mul ((over_wholeNumeral.mul hfraction).mul hexponent)

theorem nil_notMem_wholeNumeral : [] ∉ wholeNumeral := by
  rintro (h | h)
  · exact nil_notMem_fixed (by decide) h
  · exact nil_notMem_byte_mul h

theorem ne_nil_of_mem_numeral {s : Bytes} (h : s ∈ numeral) : s ≠ [] := by
  rintro rfl
  obtain ⟨u, -, v, hv, hnil⟩ := h
  obtain ⟨-, rfl⟩ := List.append_eq_nil_iff.1 hnil
  exact nil_notMem_mul (nil_notMem_mul nil_notMem_wholeNumeral) hv

/-- A number goes on as far as there are bytes of numbers. -/
theorem numeral_unique {u v s t : Bytes} (hu : u ∈ numeral) (hv : v ∈ numeral)
    (hs : EndsNumber s) (ht : EndsNumber t) (h : u ++ s = v ++ t) : u = v ∧ s = t := by
  have longer {u v s t : Bytes} (hv : v ∈ numeral) (hs : EndsNumber s)
      (hsplit : ∃ w, v = u ++ w ∧ s = w ++ t) : u = v ∧ s = t := by
    obtain ⟨w, rfl, rfl⟩ := hsplit
    cases w with
    | nil => simp
    | cons b w =>
      have hb : isNumberPart b = true := over_numeral _ hv b (by simp)
      rw [hs b rfl] at hb
      cases hb
  rcases List.append_eq_append_iff.1 h with hsplit | ⟨w, hv', ht'⟩
  · exact longer hv hs hsplit
  · obtain ⟨rfl, rfl⟩ := longer hu ht ⟨w, hv', ht'⟩
    exact ⟨rfl, rfl⟩

end Numerals

/-! ## Values -/

/-- The word that a value is written as, if it is one of the three that are. -/
def Value.word? : Value → Option Bytes
  | null => some (.ascii "null")
  | bool true => some (.ascii "true")
  | bool false => some (.ascii "false")
  | _ => none

/-- The parts of a JSON text. The items of an array are the elements that follow after the first
one, and so are the fields of an object the members after the first one. -/
inductive Part
  | value (v : Value)
  | elements (vs : List Value)
  | items (vs : List Value)
  | member (field : Bytes × Value)
  | members (fs : List (Bytes × Value))
  | fields (fs : List (Bytes × Value))

/-- The part stands at the head of the text, behind white space. Elements, items, members and fields
include the closing bracket. A number goes on as far as there are bytes of numbers. -/
inductive Reads : Part → Bytes → Bytes → Prop
  | word {v : Value} {w s rest : Bytes} (hword : v.word? = some w) (h : skip s = w ++ rest) :
      Reads (.value v) s rest
  | number {lexeme s rest : Bytes} (h : skip s = lexeme ++ rest) (hlexeme : lexeme ∈ numeral)
      (hrest : EndsNumber rest) : Reads (.value (.number lexeme)) s rest
  | text {cs s t rest : Bytes} (h : skip s = Byte.quote :: t) (hcs : Characters cs t rest) :
      Reads (.value (.text cs)) s rest
  | array {vs : List Value} {s t rest : Bytes} (h : skip s = 0x5B :: t)
      (hvs : Reads (.elements vs) t rest) : Reads (.value (.array vs)) s rest
  | object {fs : List (Bytes × Value)} {s t rest : Bytes} (h : skip s = 0x7B :: t)
      (hfs : Reads (.members fs) t rest) : Reads (.value (.object fs)) s rest
  | noElements {s rest : Bytes} (h : skip s = 0x5D :: rest) : Reads (.elements []) s rest
  | elements {v : Value} {vs : List Value} {s t rest : Bytes} (hv : Reads (.value v) s t)
      (hvs : Reads (.items vs) t rest) : Reads (.elements (v :: vs)) s rest
  | noItems {s rest : Bytes} (h : skip s = 0x5D :: rest) : Reads (.items []) s rest
  | items {v : Value} {vs : List Value} {s t u rest : Bytes} (h : skip s = 0x2C :: t)
      (hv : Reads (.value v) t u) (hvs : Reads (.items vs) u rest) : Reads (.items (v :: vs)) s rest
  | member {v : Value} {key s t u w rest : Bytes} (h : skip s = Byte.quote :: t)
      (hkey : Characters key t u) (hcolon : skip u = 0x3A :: w) (hv : Reads (.value v) w rest) :
      Reads (.member (key, v)) s rest
  | noMembers {s rest : Bytes} (h : skip s = 0x7D :: rest) : Reads (.members []) s rest
  | members {f : Bytes × Value} {fs : List (Bytes × Value)} {s t rest : Bytes}
      (hf : Reads (.member f) s t) (hfs : Reads (.fields fs) t rest) :
      Reads (.members (f :: fs)) s rest
  | noFields {s rest : Bytes} (h : skip s = 0x7D :: rest) : Reads (.fields []) s rest
  | fields {f : Bytes × Value} {fs : List (Bytes × Value)} {s t u rest : Bytes}
      (h : skip s = 0x2C :: t) (hf : Reads (.member f) t u) (hfs : Reads (.fields fs) u rest) :
      Reads (.fields (f :: fs)) s rest

/-- The text is one value with white space around it. -/
def Denotes (s : Bytes) (v : Value) : Prop := ∃ rest, Reads (.value v) s rest ∧ skip rest = []

/-! ## Unambiguity -/

section Unambiguity

variable {v v' : Value} {p p' : Part} {s rest rest' : Bytes}

/-- The byte with which a value begins; none for a number. -/
def Value.lead : Value → Option Byte
  | null => some 0x6E
  | bool true => some 0x74
  | bool false => some 0x66
  | number _ => none
  | text _ => some 0x22
  | array _ => some 0x5B
  | object _ => some 0x7B

theorem Value.lead_of_word {w : Bytes} (h : v.word? = some w) :
    ∃ b t, w = b :: t ∧ isNumberPart b = false ∧ v.lead = some b := by
  rcases v with _ | (_ | _) | _ | _ | _ | _ <;> cases h <;> exact ⟨_, _, rfl, by decide, rfl⟩

/-- A value that is a word is known by the byte with which it begins. -/
theorem Value.eq_of_word {w : Bytes} (h : v.word? = some w) (hlead : v.lead = v'.lead) :
    v' = v := by
  rcases v with _ | (_ | _) | _ | _ | _ | _ <;> cases h <;>
    rcases v' with _ | (_ | _) | _ | _ | _ | _ <;> simp [lead] at hlead ⊢

theorem Value.word?_eq (h : v.lead = v'.lead) : v.word? = v'.word? := by
  rcases v with _ | (_ | _) | _ | _ | _ | _ <;>
    rcases v' with _ | (_ | _) | _ | _ | _ | _ <;> simp [lead, word?] at h ⊢

theorem Reads.lead_spec (h : Reads (.value v) s rest) :
    ∃ b t, skip s = b :: t ∧ v.lead = if isNumberPart b then none else some b := by
  cases h with
  | word hword h =>
    obtain ⟨b, t, rfl, hb, hlead⟩ := Value.lead_of_word hword
    exact ⟨b, _, h, by simp [hb, hlead]⟩
  | text h | array h | object h => exact ⟨_, _, h, rfl⟩
  | number h hlexeme =>
    obtain ⟨b, t, rfl⟩ := List.exists_cons_of_ne_nil (ne_nil_of_mem_numeral hlexeme)
    have hb : isNumberPart b = true := over_numeral _ hlexeme b (by simp)
    exact ⟨b, _, h, by simp [hb, Value.lead]⟩

theorem Reads.lead_eq (h : Reads (.value v) s rest) (h' : Reads (.value v') s rest') :
    v.lead = v'.lead := by
  obtain ⟨b, t, hs, hlead⟩ := h.lead_spec
  obtain ⟨b', t', hs', hlead'⟩ := h'.lead_spec
  obtain ⟨rfl, -⟩ := List.cons.inj (hs.symm.trans hs')
  exact hlead.trans hlead'.symm

/-- A value does not begin with a byte that closes or separates. -/
theorem Reads.skip_ne {b : Byte} {t : Bytes} (h : Reads (.value v) s rest)
    (hb : b ∈ [0x5D, 0x2C, 0x7D]) : skip s ≠ b :: t := by
  intro heq
  obtain ⟨c, u, hs, hlead⟩ := h.lead_spec
  obtain ⟨rfl, -⟩ := List.cons.inj (heq.symm.trans hs)
  have hpart : isNumberPart b = false := by
    simp only [List.mem_cons, List.not_mem_nil, or_false] at hb
    rcases hb with rfl | rfl | rfl <;> rfl
  have hvalue : v.lead ∉ [some 0x5D, some 0x2C, some 0x7D] := by
    rcases v with _ | (_ | _) | _ | _ | _ | _ <;> simp [Value.lead]
  rw [hpart] at hlead
  rw [hlead] at hvalue
  exact hvalue (by simpa using hb)

/-! What stands at the head of a value tells its form. -/

theorem Reads.eq_word {w : Bytes} (h : Reads (.value v') s rest') (hword : v.word? = some w)
    (hs : skip s = w ++ rest) : v' = v ∧ rest' = rest := by
  obtain rfl := Value.eq_of_word hword ((Reads.word hword hs).lead_eq h)
  cases h with
  | word hword' hs' =>
    obtain rfl := Option.some.inj (hword.symm.trans hword')
    exact ⟨rfl, List.append_cancel_left (hs'.symm.trans hs)⟩
  | _ => cases hword

theorem Reads.eq_number {lexeme : Bytes} (h : Reads (.value v') s rest')
    (hs : skip s = lexeme ++ rest) (hlexeme : lexeme ∈ numeral) (hrest : EndsNumber rest) :
    v' = .number lexeme ∧ rest' = rest := by
  have hlead := (Reads.number hs hlexeme hrest).lead_eq h
  cases h with
  | number hs' hlexeme' hrest' =>
    obtain ⟨rfl, rfl⟩ := numeral_unique hlexeme' hlexeme hrest' hrest (hs'.symm.trans hs)
    exact ⟨rfl, rfl⟩
  | word hword => cases (Value.word?_eq hlead).trans hword
  | _ => cases hlead

theorem Reads.eq_text {cs t : Bytes} (h : Reads (.value v') s rest') (hs : skip s = Byte.quote :: t)
    (hcs : Characters cs t rest) : v' = .text cs ∧ rest' = rest := by
  have hlead := (Reads.text hs hcs).lead_eq h
  cases h with
  | text hs' hcs' =>
    obtain ⟨-, rfl⟩ := List.cons.inj (hs.symm.trans hs')
    obtain ⟨rfl, rfl⟩ := hcs.unique hcs'
    exact ⟨rfl, rfl⟩
  | word hword => cases (Value.word?_eq hlead).trans hword
  | _ => simp [Value.lead] at hlead

theorem Reads.exists_array {vs : List Value} {t : Bytes} (h : Reads (.value v') s rest')
    (hs : skip s = 0x5B :: t) (hvs : Reads (.elements vs) t rest) :
    ∃ vs', v' = .array vs' ∧ Reads (.elements vs') t rest' := by
  have hlead := (Reads.array hs hvs).lead_eq h
  cases h with
  | array hs' hvs' =>
    obtain ⟨-, rfl⟩ := List.cons.inj (hs.symm.trans hs')
    exact ⟨_, rfl, hvs'⟩
  | word hword => cases (Value.word?_eq hlead).trans hword
  | _ => simp [Value.lead] at hlead

theorem Reads.exists_object {fs : List (Bytes × Value)} {t : Bytes}
    (h : Reads (.value v') s rest') (hs : skip s = 0x7B :: t) (hfs : Reads (.members fs) t rest) :
    ∃ fs', v' = .object fs' ∧ Reads (.members fs') t rest' := by
  have hlead := (Reads.object hs hfs).lead_eq h
  cases h with
  | object hs' hfs' =>
    obtain ⟨-, rfl⟩ := List.cons.inj (hs.symm.trans hs')
    exact ⟨_, rfl, hfs'⟩
  | word hword => cases (Value.word?_eq hlead).trans hword
  | _ => simp [Value.lead] at hlead

/-- A field begins with a quote, not with a closing brace. -/
theorem Reads.member_skip_ne {f : Bytes × Value} {t : Bytes} (h : Reads (.member f) s rest) :
    skip s ≠ 0x7D :: t := by
  cases h with
  | member hs => simp [hs, Byte.quote]

/-- The two parts are of the same sort. -/
def Part.Alike : Part → Part → Prop
  | value _, value _ | elements _, elements _ | items _, items _ | member _, member _
  | members _, members _ | fields _, fields _ => True
  | _, _ => False

theorem Part.Alike.exists_value (h : (Part.value v).Alike p) : ∃ v', p = .value v' := by
  cases p with
  | value v' => exact ⟨v', rfl⟩
  | _ => cases h

/-- At the head of a text there is one part of each sort, and it ends at one place. -/
theorem Reads.unique (h : Reads p s rest) (h' : Reads p' s rest') (halike : p.Alike p') :
    p' = p ∧ rest' = rest := by
  induction h generalizing p' rest' with
  | word hword hs =>
    obtain ⟨v', rfl⟩ := halike.exists_value
    obtain ⟨rfl, rfl⟩ := h'.eq_word hword hs
    exact ⟨rfl, rfl⟩
  | number hs hlexeme hrest =>
    obtain ⟨v', rfl⟩ := halike.exists_value
    obtain ⟨rfl, rfl⟩ := h'.eq_number hs hlexeme hrest
    exact ⟨rfl, rfl⟩
  | text hs hcs =>
    obtain ⟨v', rfl⟩ := halike.exists_value
    obtain ⟨rfl, rfl⟩ := h'.eq_text hs hcs
    exact ⟨rfl, rfl⟩
  | array hs hvs ih =>
    obtain ⟨v', rfl⟩ := halike.exists_value
    obtain ⟨vs', rfl, hvs'⟩ := h'.exists_array hs hvs
    obtain ⟨heq, rfl⟩ := ih hvs' trivial
    cases heq
    exact ⟨rfl, rfl⟩
  | object hs hfs ih =>
    obtain ⟨v', rfl⟩ := halike.exists_value
    obtain ⟨fs', rfl, hfs'⟩ := h'.exists_object hs hfs
    obtain ⟨heq, rfl⟩ := ih hfs' trivial
    cases heq
    exact ⟨rfl, rfl⟩
  | noElements hs =>
    cases h' with
    | noElements hs' => exact ⟨rfl, (List.cons.inj (hs'.symm.trans hs)).2⟩
    | elements hv' => exact absurd hs (hv'.skip_ne (by simp))
    | _ => cases halike
  | elements hv _ ihv ihvs =>
    cases h' with
    | noElements hs' => exact absurd hs' (hv.skip_ne (by simp))
    | elements hv' hvs' =>
      obtain ⟨heq, rfl⟩ := ihv hv' trivial
      obtain ⟨heqs, rfl⟩ := ihvs hvs' trivial
      cases heq
      cases heqs
      exact ⟨rfl, rfl⟩
    | _ => cases halike
  | noItems hs =>
    cases h' with
    | noItems hs' => exact ⟨rfl, (List.cons.inj (hs'.symm.trans hs)).2⟩
    | items hs' => simp [hs] at hs'
    | _ => cases halike
  | items hs _ _ ihv ihvs =>
    cases h' with
    | noItems hs' => simp [hs] at hs'
    | items hs' hv' hvs' =>
      obtain ⟨-, rfl⟩ := List.cons.inj (hs.symm.trans hs')
      obtain ⟨heq, rfl⟩ := ihv hv' trivial
      obtain ⟨heqs, rfl⟩ := ihvs hvs' trivial
      cases heq
      cases heqs
      exact ⟨rfl, rfl⟩
    | _ => cases halike
  | member hs hkey hcolon _ ih =>
    cases h' with
    | member hs' hkey' hcolon' hv' =>
      obtain ⟨-, rfl⟩ := List.cons.inj (hs.symm.trans hs')
      obtain ⟨rfl, rfl⟩ := hkey.unique hkey'
      obtain ⟨-, rfl⟩ := List.cons.inj (hcolon.symm.trans hcolon')
      obtain ⟨heq, rfl⟩ := ih hv' trivial
      cases heq
      exact ⟨rfl, rfl⟩
    | _ => cases halike
  | noMembers hs =>
    cases h' with
    | noMembers hs' => exact ⟨rfl, (List.cons.inj (hs'.symm.trans hs)).2⟩
    | members hf' => exact absurd hs hf'.member_skip_ne
    | _ => cases halike
  | members hf _ ihf ihfs =>
    cases h' with
    | noMembers hs' => exact absurd hs' hf.member_skip_ne
    | members hf' hfs' =>
      obtain ⟨heq, rfl⟩ := ihf hf' trivial
      obtain ⟨heqs, rfl⟩ := ihfs hfs' trivial
      cases heq
      cases heqs
      exact ⟨rfl, rfl⟩
    | _ => cases halike
  | noFields hs =>
    cases h' with
    | noFields hs' => exact ⟨rfl, (List.cons.inj (hs'.symm.trans hs)).2⟩
    | fields hs' => simp [hs] at hs'
    | _ => cases halike
  | fields hs _ _ ihf ihfs =>
    cases h' with
    | noFields hs' => simp [hs] at hs'
    | fields hs' hf' hfs' =>
      obtain ⟨-, rfl⟩ := List.cons.inj (hs.symm.trans hs')
      obtain ⟨heq, rfl⟩ := ihf hf' trivial
      obtain ⟨heqs, rfl⟩ := ihfs hfs' trivial
      cases heq
      cases heqs
      exact ⟨rfl, rfl⟩
    | _ => cases halike

/-- A text denotes one value at most. -/
theorem Denotes.unique (h : Denotes s v) (h' : Denotes s v') : v = v' := by
  obtain ⟨rest, h, -⟩ := h
  obtain ⟨rest', h', -⟩ := h'
  cases (h.unique h' trivial).1
  rfl

end Unambiguity

end Munch.Json
