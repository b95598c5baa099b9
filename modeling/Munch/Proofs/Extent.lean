import Munch.Proofs.LongestPrefix

/-!
# Extents are longest matches

The extent of a layout, a numeral or a verbatim literal is the length of the longest prefix in
its language. The parts of a double are found one after the other, which loses nothing since
no part begins with a byte that the part before it may hold.
-/
namespace Munch.Grammar

open scoped Computability

variable {l : Language Byte} {s : Bytes} {k : Nat}

/-! ## Layout -/

theorem isLongest_whitespace (s : Bytes) : IsLongest whitespace s (Layout.whitespace.extent s) :=
  isLongest_many_byte isWhite_iff s

theorem isLongest_comment (s : Bytes) : IsLongest comment s (Layout.comment.extent s) := by
  simp only [Layout.extent]
  split
  · have hline := isLongest_star_byte (p := {0x0A}ᶜ) (q := fun b => decide (b ≠ Byte.newline))
      decide_eq_true_iff (s.drop 2)
    exact hline.singleton_mul (by decide) (List.isPrefixOf_iff_prefix.1 ‹_›)
      (Or.inr (Language.nil_mem_kstar _))
  · exact isLongest_singleton_mul_of_not_prefix (mt List.isPrefixOf_iff_prefix.2 ‹_›)

/-! ## Numerals -/

theorem nil_notMem_number : [] ∉ number := fun h => (mem_many_byte.1 h).1 rfl

theorem isLongest_number (s : Bytes) :
    IsLongest number s (Literal.Numeral.digitsLength s) :=
  isLongest_many_byte isDigit_iff s

theorem fixed_eq_byte {c : Byte} {t : String} (h : Bytes.ascii t = [c]) : fixed t = byte {c} := by
  ext w
  exact ⟨fun hw => ⟨c, rfl, hw.trans h⟩, fun ⟨d, hd, hw⟩ => hw.trans (hd ▸ h.symm)⟩

/-- A byte with a run after it, for a run that must not be empty. -/
theorem isLongest_byte_mul_run {p : Set Byte} {b : Byte} {isFirst : Prop} [Decidable isFirst]
    (hfirst : isFirst ↔ b ∈ p) (h : IsLongest l s k) (hl : [] ∉ l) :
    IsLongest (byte p * l) (b :: s) (if isFirst ∧ k ≠ 0 then 1 + k else 0) := by
  split
  · rename_i hrun
    exact h.byte_mul (hfirst.1 hrun.1) (Or.inl hrun.2)
  · rename_i hrun
    by_cases hb : b ∈ p
    · have hk : k = 0 := by simpa [hfirst.2 hb] using hrun
      exact (hk ▸ h).byte_mul_zero hl
    · exact isLongest_byte_mul_of_notMem hb

theorem isLongest_natural (s : Bytes) :
    IsLongest natural s (Literal.Numeral.naturalExtent s) := by
  rw [natural, fixed_eq_byte (c := 0x2B) rfl]
  cases s with
  | nil => exact isLongest_nil
  | cons b s => exact isLongest_byte_mul_run Iff.rfl (isLongest_number s) nil_notMem_number

/-! ## Doubles -/

open Literal.Double in
theorem isLongest_fraction (s : Bytes) : IsLongest fraction s (fractionExtent s) := by
  rw [fraction, fixed_eq_byte (c := 0x2E) rfl]
  cases s with
  | nil => exact isLongest_nil
  | cons b s => exact isLongest_byte_mul_run Iff.rfl (isLongest_number s) nil_notMem_number

theorem optional_mul (l l' : Language Byte) : optional l * l' = l' + l * l' := by
  rw [optional, add_mul, one_mul]

theorem isExponentMark_iff {b : Byte} :
    Literal.Double.isExponentMark b = true ↔ b ∈ ({0x65, 0x45} : Set Byte) := by
  simp [Literal.Double.isExponentMark]

theorem isSign_iff {b : Byte} : Literal.Double.isSign b = true ↔ b ∈ ({0x2B, 0x2D} : Set Byte) := by
  simp [Literal.Double.isSign]

/-- The digits of an exponent, with its sign before them or none. -/
def power : Language Byte := optional (byte {0x2B, 0x2D}) * number

theorem exponent_eq : exponent = byte {0x65, 0x45} * power := mul_assoc _ _ _

theorem nil_notMem_power : [] ∉ power := by
  rw [power, optional_mul]
  rintro (h | h)
  · exact nil_notMem_number h
  · exact nil_notMem_byte_mul h

open Literal.Double Literal.Numeral in
theorem isLongest_power (s : Bytes) :
    IsLongest power s
      (if digitsLength (s.drop (signLength s)) = 0 then 0
      else signLength s + digitsLength (s.drop (signLength s))) := by
  rw [power, optional_mul]
  cases s with
  | nil => exact isLongest_nil
  | cons b s =>
    by_cases hb : isSign b = true
    · have hsign : signLength (b :: s) = 1 := by simp [signLength, hb]
      have hdigit : b.isDigit = false := by
        rcases isSign_iff.1 hb with rfl | rfl <;> rfl
      have hnumber : IsLongest number (b :: s) 0 := by
        simpa [digitsLength, hdigit] using isLongest_number (b :: s)
      have hsigned := isLongest_byte_mul_run (isSign_iff (b := b)) (isLongest_number s)
        nil_notMem_number
      rw [hsign]
      convert hnumber.add hsigned using 1
      simp only [List.drop_succ_cons, List.drop_zero, Nat.zero_max]
      split <;> simp_all
    · have hsign : signLength (b :: s) = 0 := by simp [signLength, hb]
      have hsigned : IsLongest (byte {0x2B, 0x2D} * number) (b :: s) 0 :=
        isLongest_byte_mul_of_notMem (mt isSign_iff.2 hb)
      rw [hsign]
      convert (isLongest_number (b :: s)).add hsigned using 1
      simp only [List.drop_zero, Nat.max_zero, Nat.zero_add]
      split <;> simp_all

open Literal.Double in
theorem isLongest_exponent (s : Bytes) : IsLongest exponent s (exponentExtent s) := by
  rw [exponent_eq]
  cases s with
  | nil => exact isLongest_nil
  | cons b s =>
    convert isLongest_byte_mul_run isExponentMark_iff (isLongest_power s) nil_notMem_power using 1
    simp only [exponentExtent]
    split <;> split <;> grind

theorem digit_of_mem_number {w : Bytes} (hw : w ∈ number) {b : Byte} (hb : b ∈ w) : b ∈ digit :=
  (mem_many_byte.1 hw).2 b hb

/-- Up to the exponent a double has digits and a point. -/
theorem mem_of_mem_mantissa {w : Bytes} (hw : w ∈ number * optional fraction) {b : Byte}
    (hb : b ∈ w) : b ∈ digit ∪ {0x2E} := by
  obtain ⟨u, hu, v, hv, rfl⟩ := hw
  rcases List.mem_append.1 hb with hb | hb
  · exact Or.inl (digit_of_mem_number hu hb)
  · rcases mem_optional.1 hv with rfl | hv
    · simp at hb
    · rw [fraction, fixed_eq_byte (c := 0x2E) rfl] at hv
      obtain ⟨_, ⟨c, rfl, rfl⟩, d, hd, rfl⟩ := hv
      rcases List.mem_cons.1 hb with rfl | hb
      · exact Or.inr rfl
      · exact Or.inl (digit_of_mem_number hd hb)

theorem eq_point_of_cons_mem_fraction {b : Byte} {u : Bytes} (h : b :: u ∈ optional fraction) :
    b = 0x2E := by
  rw [fraction, fixed_eq_byte (c := 0x2E) rfl] at h
  exact (mem_of_cons_mem_byte_mul ((mem_optional.1 h).resolve_left (List.cons_ne_nil b u))).1

theorem mark_of_cons_mem_exponent {b : Byte} {u : Bytes} (h : b :: u ∈ optional exponent) :
    b = 0x65 ∨ b = 0x45 := by
  rw [exponent_eq] at h
  exact (mem_of_cons_mem_byte_mul ((mem_optional.1 h).resolve_left (List.cons_ne_nil b u))).1

open Literal.Double Literal.Numeral in
theorem isLongest_double (s : Bytes) : IsLongest double s (Literal.Double.extent s) := by
  have hwhole := isLongest_number s
  simp only [Literal.Double.extent]
  split
  · rename_i h0
    rw [h0] at hwhole
    rw [double, mul_assoc]
    exact hwhole.mul_of_left_zero nil_notMem_number
  · rename_i h0
    have hmantissa : IsLongest (number * optional fraction) s
        (digitsLength s + fractionExtent (s.drop (digitsLength s))) := by
      refine hwhole.mul (isLongest_fraction _).optional ?_ h0 (Or.inr (mem_optional.2 (Or.inl rfl)))
      refine hwhole.greedy_of_disjoint (fun w hw b => digit_of_mem_number hw) fun b u hu => ?_
      rw [eq_point_of_cons_mem_fraction hu]
      simp [digit]
    refine hmantissa.mul (isLongest_exponent _).optional ?_ (by omega)
      (Or.inr (mem_optional.2 (Or.inl rfl)))
    refine hmantissa.greedy_of_disjoint (fun w hw b => mem_of_mem_mantissa hw) fun b u hu => ?_
    rcases mark_of_cons_mem_exponent hu with rfl | rfl <;> simp [digit]

/-! ## Labels -/

theorem isLongest_identifier (s : Bytes) :
    IsLongest identifier s (Literal.Verbatim.identifierExtent s) := by
  cases s with
  | nil => exact isLongest_nil
  | cons b s =>
    simp only [Literal.Verbatim.identifierExtent]
    split
    · exact (isLongest_star_byte isIdentifierPart_iff s).byte_mul (isIdentifierStart_iff.1 ‹_›)
        (Or.inr (Language.nil_mem_kstar _))
    · exact isLongest_byte_mul_of_notMem (mt isIdentifierStart_iff.2 ‹_›)

theorem nil_notMem_fixed {t : String} (h : Bytes.ascii t ≠ []) : [] ∉ fixed t :=
  fun hnil => h hnil.symm

theorem nil_notMem_mul {l l' : Language Byte} (h : [] ∉ l) : [] ∉ l * l' := by
  rintro ⟨w, hw, u, _, hnil⟩
  exact h ((List.append_eq_nil_iff.1 hnil).1 ▸ hw)

theorem nil_notMem_many_byte {p : Set Byte} : [] ∉ many (byte p) :=
  fun h => (mem_many_byte.1 h).1 rfl

/-- The operator bytes with the closing parenthesis after them. -/
theorem isLongest_operator_closed (s : Bytes) :
    IsLongest (many (byte operator) * fixed ")") s
      (if (s.takeWhile Byte.isOperator).length ≠ 0 ∧
          s[(s.takeWhile Byte.isOperator).length]? = some 0x29
        then (s.takeWhile Byte.isOperator).length + 1 else 0) := by
  have hrun := isLongest_many_byte isOperator_iff s
  have hclose := isLongest_singleton [0x29] (s.drop (s.takeWhile Byte.isOperator).length)
  have hhead : ([0x29].isPrefixOf (s.drop (s.takeWhile Byte.isOperator).length) = true) ↔
      s[(s.takeWhile Byte.isOperator).length]? = some 0x29 := by
    rw [← List.head?_drop]
    cases s.drop (s.takeWhile Byte.isOperator).length with
    | nil => simp
    | cons c t => simpa using eq_comm
  have hgreedy : IsLongest.Greedy (many (byte operator)) (fixed ")") s
      (s.takeWhile Byte.isOperator).length := by
    refine hrun.greedy_of_disjoint (fun w hw => (mem_many_byte.1 hw).2) fun b u hu => ?_
    obtain ⟨rfl, -⟩ := List.cons.inj (show b :: u = [0x29] from hu)
    simp only [operator, Set.mem_ofPred_eq]
    decide
  split
  · rename_i h
    rw [if_pos (hhead.2 h.2)] at hclose
    exact hrun.mul hclose hgreedy h.1 (Or.inl (by simp))
  · rename_i h
    by_cases h0 : (s.takeWhile Byte.isOperator).length = 0
    · rw [h0] at hrun
      exact hrun.mul_of_left_zero nil_notMem_many_byte
    · rw [if_neg fun hp => h ⟨h0, hhead.1 hp⟩] at hclose
      exact hrun.mul_of_right_zero hclose hgreedy (nil_notMem_fixed (by decide))

theorem isLongest_operatorLabel (s : Bytes) :
    IsLongest operatorLabel s (Literal.Verbatim.operatorExtent s) := by
  rw [operatorLabel, mul_assoc, fixed_eq_byte (c := 0x28) rfl]
  cases s with
  | nil => exact isLongest_nil
  | cons b s =>
    have hfirst : b = 0x28 ↔ b ∈ ({0x28} : Set Byte) := Iff.rfl
    convert isLongest_byte_mul_run hfirst (isLongest_operator_closed s)
      (nil_notMem_mul nil_notMem_many_byte) using 1
    simp only [Literal.Verbatim.operatorExtent]
    split <;> split <;> grind

/-! ## Paths and addresses -/

/-- A beginning from a list with a run of other bytes than white space after it. At most one
of the beginnings stands at the head of a text. -/
theorem isLongest_runExtent {beginnings : List Bytes} (hl : ∀ {w}, w ∈ l ↔ w ∈ beginnings)
    (hne : [] ∉ beginnings) (hone : ∀ t ∈ beginnings, ∀ t' ∈ beginnings, t <+: t' → t = t')
    (s : Bytes) :
    IsLongest (l * many (byte whiteᶜ)) s (Literal.Verbatim.runExtent beginnings s) := by
  have hwhite : ∀ {b : Byte}, (!b.isWhite) = true ↔ b ∈ whiteᶜ := by
    simp [← isWhite_iff]
  unfold Literal.Verbatim.runExtent
  split
  · rename_i hnone
    have hzero : IsLongest l s 0 := isLongest_zero_iff.2 fun w hw hs =>
      absurd (List.isPrefixOf_iff_prefix.2 hs) (List.find?_eq_none.1 hnone w (hl.1 hw))
    exact hzero.mul_of_left_zero (mt hl.1 hne)
  · rename_i t hfind
    have hmem := List.mem_of_find?_eq_some hfind
    have hfound := List.find?_some hfind
    have hts : t <+: s := List.isPrefixOf_iff_prefix.1 hfound
    have honly : ∀ w ∈ l, w <+: s → w = t := fun w hw hs =>
      (List.prefix_or_prefix_of_prefix hs hts).elim (hone w (hl.1 hw) t hmem)
        fun h => (hone t hmem w (hl.1 hw) h).symm
    have hfirst : IsLongest l s t.length :=
      ⟨fun w hw hs => (congrArg List.length (honly w hw hs)).le, fun _ => ⟨t, hl.2 hmem, hts, rfl⟩⟩
    have hgreedy : IsLongest.Greedy l (many (byte whiteᶜ)) s t.length :=
      fun w hw u _ hs hlt =>
        absurd (congrArg List.length (honly w hw ((List.prefix_append w u).trans hs))) (by omega)
    have hrun := isLongest_many_byte hwhite (s.drop t.length)
    have ht : t.length ≠ 0 := fun h0 => hne (List.eq_nil_of_length_eq_zero h0 ▸ hmem)
    dsimp only
    split
    · rename_i h0
      rw [h0] at hrun
      exact hfirst.mul_of_right_zero hrun hgreedy nil_notMem_many_byte
    · rename_i h0
      exact hfirst.mul hrun hgreedy ht (Or.inl h0)

theorem isLongest_path (s : Bytes) : IsLongest path s (Literal.Verbatim.pathExtent s) := by
  refine isLongest_runExtent (fun {w} => ?_) (by decide) (by decide) s
  simp only [Language.mem_add, List.mem_cons, List.not_mem_nil, or_false]
  constructor
  · rintro ((h | h) | h)
    exacts [Or.inr (Or.inr h), Or.inr (Or.inl h), Or.inl h]
  · rintro (h | h | h)
    exacts [Or.inr h, Or.inl (Or.inr h), Or.inl (Or.inl h)]

theorem isLongest_address (s : Bytes) : IsLongest address s (Literal.Verbatim.addressExtent s) := by
  refine isLongest_runExtent (fun {w} => ?_) (by decide) (by decide) s
  simp only [Language.mem_add, List.mem_cons, List.not_mem_nil, or_false]
  exact or_comm

end Munch.Grammar
