import Munch.Proofs.RefusedLexeme
import Munch.Proofs.RenderedToken

/-!
# Paths from the root

A path from the root begins with a slash. A lexeme that begins with `./` is read without these two
bytes, whatever follows them, and every other path is read as it is written. So a path that is
written as seen from a directory is read as one from the root exactly if it begins with `.//`.

## Main definitions

* `Bytes.IsRooted`: a text begins with a slash.
-/
namespace Munch

/-- The text begins with a slash, as a path from the root does. -/
def Bytes.IsRooted (s : Bytes) : Prop := s.head? = some Byte.slash

instance (s : Bytes) : Decidable s.IsRooted := inferInstanceAs (Decidable (_ = _))

theorem Bytes.not_isRooted_of_dot (s : Bytes) : ¬ IsRooted (0x2E :: s) := by
  simp [IsRooted, Byte.slash]

namespace Literal

variable {lexeme s : Bytes}

/-- A path is its lexeme, or what stands behind a leading `./`. -/
theorem readPath_cases (h : Verbatim.readPath lexeme = .ok s) :
    lexeme = Bytes.ascii "./" ++ s ∨ ¬ Bytes.ascii "./" <+: lexeme ∧ s = lexeme := by
  by_cases hdot : Bytes.ascii "./" <+: lexeme
  · obtain ⟨rest, rfl⟩ := hdot
    replace h : (Verbatim.read rest).mapError (Refusal.shift 2) = .ok s := h
    cases hread : Verbatim.read rest with
    | error r =>
      rw [hread] at h
      cases h
    | ok s' =>
      rw [hread] at h
      obtain rfl : s' = s := Except.ok.inj h
      exact Or.inl (congrArg _ (eq_of_read hread).symm)
  · exact Or.inr ⟨hdot, eq_of_readPath h hdot⟩

/-- Behind `./` a slash makes a path one from the root. -/
theorem isRooted_iff_of_readPath (h : Verbatim.readPath lexeme = .ok s) :
    s.IsRooted ↔ lexeme.IsRooted ∨ Bytes.ascii ".//" <+: lexeme := by
  rcases readPath_cases h with rfl | ⟨hdot, rfl⟩
  · have hdots : ¬ (Bytes.ascii "./" ++ s).IsRooted := Bytes.not_isRooted_of_dot _
    have hslashes : Bytes.ascii ".//" <+: Bytes.ascii "./" ++ s ↔ [Byte.slash] <+: s :=
      List.prefix_append_right_inj (Bytes.ascii "./")
    rw [hslashes, or_iff_right hdots, Bytes.IsRooted, List.head?_eq_some_iff]
    constructor
    · rintro ⟨rest, rfl⟩
      exact ⟨rest, rfl⟩
    · rintro ⟨rest, rfl⟩
      exact ⟨rest, rfl⟩
  · have hslashes : ¬ Bytes.ascii ".//" <+: s := fun h =>
      hdot ((List.prefix_append (Bytes.ascii "./") [Byte.slash]).trans h)
    exact (or_iff_left hslashes).symm

end Literal

namespace Lexer

variable {source : Bytes} {t : Token} {n : Nat}

/-- A path that a lexer yields is one from the root if it is written so or with a leading `.//`.
Reading keeps paths from the root and other paths apart exactly in lexemes without a leading
`.//`. -/
theorem file_isRooted_iff (h : .ok t ∈ (ofSource source).pull n) (hfile : t.kind = .file) :
    let lexeme := source.slice t.span.first t.span.last
    ∃ path, t.payload = .path path ∧
      (path.IsRooted ↔ lexeme.IsRooted ∨ Bytes.ascii ".//" <+: lexeme) ∧
      ((path.IsRooted ↔ lexeme.IsRooted) ↔ ¬ Bytes.ascii ".//" <+: lexeme) := by
  intro lexeme
  rw [← place_zero] at h
  obtain ⟨offset, rule, _, -, hfinds⟩ :=
    exists_finds_of_mem_pull (Nat.zero_le _) h (by rw [hfile]; decide)
  obtain rfl : lexeme = _ := hfinds.slice_eq
  obtain rfl := (hfinds.rule_eq_literal_iff .path).2 hfile
  have hyields := hfinds.yields
  generalize t.kind = kind, t.payload = payload at hyields
  obtain _ | hread := hyields
  obtain ⟨path, hpath, rfl⟩ := Except.exists_ok_of_map hread
  have hrooted := Literal.isRooted_iff_of_readPath hpath
  refine ⟨path, rfl, hrooted, ?_⟩
  have hexclusive : lexeme.IsRooted → ¬ Bytes.ascii ".//" <+: lexeme := by
    rintro hslash ⟨rest, hrest⟩
    rw [← hrest] at hslash
    exact Bytes.not_isRooted_of_dot _ hslash
  tauto

/-- A path that leaves the directory is not one from the root, whatever slashes follow. -/
theorem file_isRooted_iff_parent :
    let source := Bytes.ascii "..//a"
    let t : Token := ⟨.file, .path source, ⟨0, 5⟩, ⟨1, 1⟩⟩
    .ok t ∈ (ofSource source).pull 1 ∧ t.kind = .file ∧
      ∃ path, t.payload = .path path ∧ (path.IsRooted ↔ source.IsRooted) := by
  intro source t
  have hread : Literal.read .path source = .ok (.path source) := by
    have hascii : ∀ b ∈ source, b < 0x80 := by simp [source, Bytes.ascii]
    rw [Literal.read, Literal.Verbatim.readPath, if_neg (by decide),
      Literal.Verbatim.read_of_ascii hascii]
    rfl
  have hlongest : longest? source = some ⟨.literal .path, 5⟩ := by decide +kernel
  have hmem : .ok t ∈ (ofSource source).pull 1 :=
    mem_pull_of_yields (applies_of_longest? hlongest).1 (.literal hread)
  obtain ⟨path, hpath, -, hkept⟩ := file_isRooted_iff hmem rfl
  exact ⟨hmem, rfl, path, hpath, hkept.2 (by decide)⟩

/-- The path `.//a` is written as seen from a directory and read as one from the root. -/
theorem file_isRooted_of_slashes :
    let source := Bytes.ascii ".//a"
    let path := Bytes.ascii "/a"
    .ok ⟨.file, .path path, ⟨0, 4⟩, ⟨1, 1⟩⟩ ∈ (ofSource source).pull 1 ∧
      source.slice 0 4 = source ∧ path.IsRooted ∧ ¬ source.IsRooted := by
  intro source path
  have hread : Literal.read .path source = .ok (.path path) := by
    have hascii : ∀ b ∈ path, b < 0x80 := by simp [path, Bytes.ascii]
    rw [Literal.read, Literal.Verbatim.readPath, if_pos (by decide),
      show source.drop 2 = path from rfl, Literal.Verbatim.read_of_ascii hascii]
    rfl
  have hlongest : longest? source = some ⟨.literal .path, 4⟩ := by decide +kernel
  exact ⟨mem_pull_of_yields (applies_of_longest? hlongest).1 (.literal hread), by decide, by decide,
    by decide⟩

end Lexer
end Munch
