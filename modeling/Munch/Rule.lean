import Munch.Layout
import Munch.Literal

/-!
# Lexical rules

A rule matches layout, one fixed lexeme or one form of literal. At the head of a source the
rule with the longest match applies, and among rules with equally long matches the first in
the table: a fixed word comes before the label of the same bytes, and a number before the
double of the same digits.

## Main definitions

* `Rule`, `rules`: the rules and their table.
* `Rule.extent`: the length of a rule's match at the head of a source.
* `longest?`: the match that applies.
-/
namespace Munch

inductive Rule
  | layout (form : Layout)
  | fixed (lexeme : Bytes) (kind : Kind)
  | literal (form : Literal)
deriving DecidableEq, Repr

namespace Rule

/-- The length of the rule's match at the head of a source; zero if it has none. -/
def extent : Rule → Bytes → Nat
  | layout form, s => form.extent s
  | fixed lexeme _, s => if lexeme.isPrefixOf s then lexeme.length else 0
  | literal form, s => form.extent s

/-- The kind of token that the rule yields; none for layout. -/
def kind? : Rule → Option Kind
  | layout _ => none
  | fixed _ kind => some kind
  | literal form => some form.kind

end Rule

/-- The rules in the order that decides between matches of one length. -/
def rules : List Rule :=
  [.layout .whitespace, .layout .comment] ++
  [.fixed (.ascii "(") .leftParen, .fixed (.ascii ")") .rightParen,
   .fixed (.ascii "\x7b\x7b") .doubleLeftBrace, .fixed (.ascii "\x7d\x7d") .doubleRightBrace,
   .fixed (.ascii "\x7b") .leftBrace, .fixed (.ascii "\x7d") .rightBrace,
   .fixed (.ascii "[") .leftBracket, .fixed (.ascii "]") .rightBracket,
   .fixed (.ascii ":") .colon, .fixed (.ascii ",") .comma, .fixed (.ascii ".") .dot,
   .fixed (.ascii "=") .equal,
   .fixed (.ascii "&&") .andAnd, .fixed (.ascii "||") .orOr,
   .fixed (.ascii "++") .plusPlus, .fixed (.ascii "+") .plus, .fixed (.ascii "-") .minus,
   .fixed (.ascii "*") .star, .fixed (.ascii "@") .atSign,
   .fixed (.ascii "->") .arrow,
   .fixed [0xE2, 0x86, 0x92] .arrow,  -- U+2192
   .fixed (.ascii "\\") .lambda,
   .fixed [0xCE, 0xBB] .lambda,  -- U+03BB
   .fixed (.ascii "let") .letKeyword, .fixed (.ascii "in") .inKeyword,
   .fixed (.ascii "Type") .typeKeyword, .fixed (.ascii "Kind") .kindKeyword,
   .fixed (.ascii "forall") .forallKeyword,
   .fixed [0xE2, 0x88, 0x80] .forallKeyword,  -- U+2200
   .fixed (.ascii "Bool") .boolKeyword, .fixed (.ascii "True") .trueKeyword,
   .fixed (.ascii "False") .falseKeyword,
   .fixed (.ascii "if") .ifKeyword, .fixed (.ascii "then") .thenKeyword,
   .fixed (.ascii "else") .elseKeyword,
   .fixed (.ascii "Natural") .naturalKeyword, .fixed (.ascii "Natural/fold") .naturalFoldKeyword,
   .fixed (.ascii "Integer") .integerKeyword, .fixed (.ascii "Text") .textKeyword,
   .fixed (.ascii "Double") .doubleKeyword, .fixed (.ascii "Maybe") .maybeKeyword,
   .fixed (.ascii "Nothing") .nothingKeyword, .fixed (.ascii "Just") .justKeyword,
   .fixed (.ascii "List/build") .listBuildKeyword, .fixed (.ascii "List/fold") .listFoldKeyword] ++
  [.literal .text, .literal .natural, .literal .number, .literal .double,
   .literal .label, .literal .path, .literal .address]

theorem kind?_ne_eof : ∀ rule ∈ rules, rule.kind? ≠ some .eof := by decide

theorem kind?_ne_unknown : ∀ rule ∈ rules, rule.kind? ≠ some .unknown := by decide

/-- A kind with a spelling has a rule for this spelling. -/
theorem fixed_spelling_mem_rules {kind : Kind} (h : kind.spelling ≠ []) :
    .fixed kind.spelling kind ∈ rules := by
  cases kind <;> first | decide | exact absurd rfl h

/-- Fixed lexemes, its own spelling or another one, are those of kinds with a spelling. -/
theorem spelling_ne_nil_iff (kind : Kind) :
    kind.spelling ≠ [] ↔ ∃ lexeme, .fixed lexeme kind ∈ rules := by
  refine ⟨fun h => ⟨_, fixed_spelling_mem_rules h⟩, fun ⟨lexeme, h⟩ => ?_⟩
  have hfixed : rules.all (fun | .fixed _ kind => kind.spelling ≠ [] | _ => true) = true := by
    decide
  simpa using List.all_eq_true.1 hfixed _ h

/-- A rule and the length of its match. -/
structure Match where
  rule : Rule
  length : Nat
deriving DecidableEq, Repr

/-- The length of a match; zero where there is none. -/
def matchedLength (best : Option Match) : Nat := best.elim 0 Match.length

/-- The better of a match and the one that a later rule offers: only a longer one replaces
it. -/
def better (s : Bytes) (best : Option Match) (rule : Rule) : Option Match :=
  if matchedLength best < rule.extent s then some ⟨rule, rule.extent s⟩ else best

/-- The longest match of some rules at the head of a source, the first of equally long
ones. -/
def longestOf? (table : List Rule) (s : Bytes) : Option Match := table.foldl (better s) none

def longest? (s : Bytes) : Option Match := longestOf? rules s

theorem longestOf?_append_singleton (table : List Rule) (rule : Rule) (s : Bytes) :
    longestOf? (table ++ [rule]) s = better s (longestOf? table s) rule := by
  simp [longestOf?]

/-- A match that applies is not empty and is one of its rule. -/
theorem extent_of_longestOf? {table : List Rule} {s : Bytes} {m : Match}
    (h : longestOf? table s = some m) : 0 < m.length ∧ m.rule.extent s = m.length := by
  suffices ∀ best : Option Match,
      (∀ b, best = some b → 0 < b.length ∧ b.rule.extent s = b.length) →
      ∀ m, table.foldl (better s) best = some m → 0 < m.length ∧ m.rule.extent s = m.length from
    this none (by simp) m h
  clear h
  induction table with
  | nil => intro best hb m hm; exact hb m hm
  | cons rule table ih =>
    intro best hb m hm
    refine ih _ (fun b h => ?_) m hm
    unfold better at h
    split at h
    · cases h; exact ⟨by simp only; omega, rfl⟩
    · exact hb b h

theorem longest?_length_pos {s : Bytes} {m : Match} (h : longest? s = some m) :
    0 < m.length := (extent_of_longestOf? h).1

end Munch
