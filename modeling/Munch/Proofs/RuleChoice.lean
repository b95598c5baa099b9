import Munch.Proofs.Extent
import Munch.Proofs.TextExtent

/-!
# The rule that applies

At the head of a text the longest lexeme of any rule is taken, by the first rule that has this
lexeme in its language. This is said of the languages alone; `longest?_eq_some_iff` and
`longest?_eq_none_iff` say that the search through the table decides it.

## Main definitions

* `Applies`: a rule takes a lexeme at the head of a text.
* `Unmatched`: no rule has a lexeme at the head of a text.
-/
namespace Munch

open Grammar (IsLongest isLongest_zero_iff)

theorem Rule.isLongest_extent (rule : Rule) (s : Bytes) :
    IsLongest rule.language s (rule.extent s) := by
  cases rule with
  | layout form =>
    cases form with
    | whitespace => exact Grammar.isLongest_whitespace s
    | comment => exact Grammar.isLongest_comment s
  | fixed lexeme kind => exact Grammar.isLongest_singleton lexeme s
  | literal form =>
    cases form with
    | text => exact Grammar.isLongest_text s
    | natural => exact Grammar.isLongest_natural s
    | number => exact Grammar.isLongest_number s
    | double => exact Grammar.isLongest_double s
    | label => exact (Grammar.isLongest_identifier s).add (Grammar.isLongest_operatorLabel s)
    | path => exact Grammar.isLongest_path s
    | address => exact Grammar.isLongest_address s

/-- The rule takes the lexeme at the head of the text: no rule has a longer lexeme there, and
no rule declared earlier has the same. -/
structure Applies (rule : Rule) (lexeme s : Bytes) : Prop where
  head : lexeme <+: s
  ne_nil : lexeme ≠ []
  longest : ∀ r ∈ rules, ∀ w ∈ r.language, w <+: s → w.length ≤ lexeme.length
  earliest : ∃ earlier later, rules = earlier ++ rule :: later ∧
    lexeme ∈ rule.language ∧ ∀ r ∈ earlier, lexeme ∉ r.language

/-- No rule has a lexeme at the head of the text. -/
def Unmatched (s : Bytes) : Prop := ∀ r ∈ rules, ∀ w ∈ r.language, w <+: s → w = []

namespace Applies

variable {rule rule' : Rule} {lexeme lexeme' s : Bytes}

theorem mem_rules (h : Applies rule lexeme s) : rule ∈ rules := by
  obtain ⟨earlier, later, hrules, -⟩ := h.earliest
  simp [hrules]

theorem mem_language (h : Applies rule lexeme s) : lexeme ∈ rule.language := by
  obtain ⟨_, _, -, hmem, -⟩ := h.earliest
  exact hmem

theorem not_unmatched (h : Applies rule lexeme s) : ¬ Unmatched s :=
  fun hu => h.ne_nil (hu rule h.mem_rules lexeme h.mem_language h.head)

/-- The lexeme taken at the head of a text is also taken at the head of any beginning of the
text that holds it. -/
theorem of_prefix {t : Bytes} (h : Applies rule lexeme s) (hlexeme : lexeme <+: t) (ht : t <+: s) :
    Applies rule lexeme t :=
  ⟨hlexeme, h.ne_nil, fun r hr w hw hs => h.longest r hr w hw (hs.trans ht), h.earliest⟩

theorem alone (h : Applies rule lexeme s) : Applies rule lexeme lexeme :=
  h.of_prefix (List.prefix_refl lexeme) h.head

theorem unique (h : Applies rule lexeme s) (h' : Applies rule' lexeme' s) :
    rule = rule' ∧ lexeme = lexeme' := by
  have hlength : lexeme.length = lexeme'.length := Nat.le_antisymm
    (h'.longest rule h.mem_rules lexeme h.mem_language h.head)
    (h.longest rule' h'.mem_rules lexeme' h'.mem_language h'.head)
  have hlexeme : lexeme = lexeme' :=
    (List.prefix_of_prefix_length_le h.head h'.head hlength.le).eq_of_length hlength
  subst hlexeme
  refine ⟨?_, rfl⟩
  obtain ⟨earlier, later, hrules, hmem, hnot⟩ := h.earliest
  obtain ⟨earlier', later', hrules', hmem', hnot'⟩ := h'.earliest
  rcases List.append_eq_append_iff.1 (hrules.symm.trans hrules') with
    ⟨t, rfl, ht⟩ | ⟨t, rfl, ht⟩
  · cases t with
    | nil => exact (List.cons.inj ht).1
    | cons r t =>
      obtain ⟨rfl, -⟩ := List.cons.inj ht
      exact absurd hmem (hnot' _ (by simp))
  · cases t with
    | nil => exact (List.cons.inj ht).1.symm
    | cons r t =>
      obtain ⟨rfl, -⟩ := List.cons.inj ht
      exact absurd hmem' (hnot _ (by simp))

/-- A lexeme that stands alone is taken by the first rule that has it. -/
theorem alone_of_mem (hrule : rule ∈ rules) (hne : lexeme ≠ []) (hmem : lexeme ∈ rule.language)
    (hfirst : ∀ r ∈ rules.takeWhile (· ≠ rule), lexeme ∉ r.language) :
    Applies rule lexeme lexeme := by
  obtain ⟨earlier, later, hrules, hnot⟩ := List.eq_append_cons_of_mem hrule
  have hearlier : rules.takeWhile (· ≠ rule) = earlier := by
    have hall : ∀ r ∈ earlier, decide (r ≠ rule) = true := fun r hr =>
      decide_eq_true fun heq => hnot (heq ▸ hr)
    rw [hrules, List.takeWhile_append_of_pos hall, List.takeWhile_cons_of_neg (by simp),
      List.append_nil]
  exact ⟨List.prefix_refl _, hne, fun r _ w _ hw => hw.length_le, earlier, later, hrules, hmem,
    hearlier ▸ hfirst⟩

end Applies

/-! ## The search through the table -/

theorem extent_le_matchedLength (table : List Rule) (s : Bytes) :
    ∀ r ∈ table, r.extent s ≤ matchedLength (longestOf? table s) := by
  induction table using List.reverseRecOn with
  | nil => simp
  | append_singleton table rule ih =>
    intro r hr
    rw [longestOf?_append_singleton, better]
    rcases List.mem_append.1 hr with hr | hr
    · have := ih r hr
      split
      · simp only [matchedLength, Option.elim_some] at *; omega
      · exact this
    · obtain rfl := List.mem_singleton.1 hr
      split
      · simp [matchedLength]
      · omega

/-- A match found stands in the table behind rules with shorter matches only. -/
theorem earlier_of_longestOf? {table : List Rule} {s : Bytes} {m : Match}
    (h : longestOf? table s = some m) : ∃ earlier later,
      table = earlier ++ m.rule :: later ∧ ∀ r ∈ earlier, r.extent s < m.length := by
  induction table using List.reverseRecOn with
  | nil => simp [longestOf?] at h
  | append_singleton table rule ih =>
    rw [longestOf?_append_singleton, better] at h
    split at h
    · cases h
      exact ⟨table, [], rfl, fun r hr =>
        Nat.lt_of_le_of_lt (extent_le_matchedLength table s r hr) ‹_›⟩
    · obtain ⟨earlier, later, htable, hshorter⟩ := ih h
      exact ⟨earlier, later ++ [rule], by simp [htable], hshorter⟩

theorem applies_of_longest? {s : Bytes} {m : Match} (h : longest? s = some m) :
    Applies m.rule (s.take m.length) s ∧ (s.take m.length).length = m.length := by
  obtain ⟨hpos, hextent⟩ := extent_of_longestOf? h
  have hlongest := m.rule.isLongest_extent s
  rw [hextent] at hlongest
  have hlength : (s.take m.length).length = m.length :=
    List.length_take_of_le hlongest.le_length
  obtain ⟨earlier, later, hrules, hshorter⟩ := earlier_of_longestOf? h
  refine ⟨⟨List.take_prefix _ _, List.length_pos_iff.1 (by omega), fun r hr w hw hs => ?_,
    earlier, later, hrules, hlongest.take_mem (by omega), fun r hr hmem => ?_⟩, hlength⟩
  · have hle := extent_le_matchedLength rules s r hr
    rw [show longestOf? rules s = some m from h] at hle
    rw [hlength]
    exact ((r.isLongest_extent s).length_le w hw hs).trans hle
  · have hle := (r.isLongest_extent s).length_le _ hmem (List.take_prefix _ _)
    have hlt := hshorter r hr
    omega

theorem unmatched_of_longest? {s : Bytes} (h : longest? s = none) : Unmatched s := by
  intro r hr
  have hle := extent_le_matchedLength rules s r hr
  rw [show longestOf? rules s = none from h] at hle
  have hlongest := r.isLongest_extent s
  rw [Nat.le_zero.1 hle] at hlongest
  exact isLongest_zero_iff.1 hlongest

theorem longest?_eq_none_iff {s : Bytes} : longest? s = none ↔ Unmatched s := by
  refine ⟨unmatched_of_longest?, fun hu => ?_⟩
  cases h : longest? s with
  | none => rfl
  | some m => exact absurd hu (applies_of_longest? h).1.not_unmatched

theorem Applies.longest?_eq {rule : Rule} {lexeme s : Bytes} (h : Applies rule lexeme s) :
    longest? s = some ⟨rule, lexeme.length⟩ := by
  cases hm : longest? s with
  | none => exact absurd (unmatched_of_longest? hm) h.not_unmatched
  | some m =>
    obtain ⟨happlies, hlength⟩ := applies_of_longest? hm
    obtain ⟨hrule, hlexeme⟩ := happlies.unique h
    rw [← hrule, ← hlexeme, hlength]

theorem longest?_eq_some_iff {s : Bytes} {m : Match} :
    longest? s = some m ↔ ∃ lexeme, Applies m.rule lexeme s ∧ lexeme.length = m.length := by
  constructor
  · intro h
    exact ⟨_, applies_of_longest? h⟩
  · rintro ⟨lexeme, h, hlength⟩
    rw [h.longest?_eq, hlength]

theorem applies_or_unmatched (s : Bytes) :
    (∃ rule lexeme, Applies rule lexeme s) ∨ Unmatched s := by
  cases h : longest? s with
  | none => exact Or.inr (unmatched_of_longest? h)
  | some m => exact Or.inl ⟨_, _, (applies_of_longest? h).1⟩

end Munch
