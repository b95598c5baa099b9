import Munch.Proofs.Lexeme
import Munch.Proofs.Relocation

/-!
# Layout is invisible behind a token

Separating layout put in behind a token changes nothing up to this token, and behind it only places
in the source. The layout begins with white space, so no lexeme goes on into it, and its comments
end with their lines, so none goes on behind it. It has no quote, which could close a text in front
of it.

## Main definitions

* `Grammar.separator`: the layout that may be put in.
-/
namespace Munch

namespace Grammar

open scoped Computability

/-! ## Separating layout -/

/-- A comment without quotes, up to and including the line feed. -/
def commentLine : Language Byte := fixed "--" * (byte {0x0A, 0x22}ᶜ)∗ * fixed "\n"

/-- A white byte, and then white bytes and comments in any order. -/
def separator : Language Byte := byte white * (byte white + commentLine)∗

variable {g : Bytes}

theorem over_separator : Over {0x22}ᶜ separator := by
  have hwhite : Over {0x22}ᶜ (byte white) := by
    refine over_byte fun b hb heq => ?_
    obtain rfl : b = 0x22 := heq
    simp [white] at hb
  have hline : Over {0x22}ᶜ (byte {0x0A, 0x22}ᶜ)∗ :=
    over_star_byte fun b hb heq => hb (Or.inr heq)
  have hfixed {text : String} (h : (0x22 : Byte) ∉ Bytes.ascii text) :
      Over {0x22}ᶜ (fixed text) := by
    refine over_fixed fun b hb heq => h ?_
    obtain rfl : b = 0x22 := heq
    exact hb
  have hcomment : Over {0x22}ᶜ commentLine :=
    ((hfixed (by decide)).mul hline).mul (hfixed (by decide))
  exact hwhite.mul (hwhite.add hcomment).star

theorem exists_white_of_mem_separator (hg : g ∈ separator) : ∃ b g', b ∈ white ∧ g = b :: g' := by
  obtain ⟨_, ⟨b, hb, rfl⟩, g', -, rfl⟩ := hg
  exact ⟨b, g', hb, rfl⟩

theorem isGap_of_mem_commentLine (hg : g ∈ commentLine) (rest : Bytes) : IsGap g rest := by
  obtain ⟨_, ⟨_, rfl, line, hline, rfl⟩, _, rfl, rfl⟩ := hg
  refine .comment (fun hnew => ?_) (Or.inr rfl) (.white newline_mem_white rest)
  exact mem_star_byte.1 hline _ hnew (Or.inl rfl)

/-- Separating layout is a gap in front of anything. -/
theorem isGap_of_mem_separator (hg : g ∈ separator) (rest : Bytes) : IsGap g rest := by
  obtain ⟨_, ⟨b, hb, rfl⟩, _, ⟨pieces, rfl, hpieces⟩, rfl⟩ := hg
  refine (IsGap.white hb _).append ?_
  induction pieces with
  | nil => exact .nil rest
  | cons piece pieces ih =>
    obtain ⟨hpiece, hpieces⟩ := List.forall_mem_cons.1 hpieces
    refine IsGap.append ?_ (ih hpieces)
    rcases hpiece with ⟨c, hc, rfl⟩ | hline
    · exact .white hc _
    · exact isGap_of_mem_commentLine hline _

end Grammar

/-! ## Behind a token -/

/-- A token stays what it is if separating layout is put in somewhere behind it. -/
theorem Finds.insert_separator {front back lexeme g : Bytes} {offset : Nat} {rule : Rule}
    {t : Token} (h : Finds (front ++ back) offset rule lexeme t)
    (hlast : t.span.last ≤ front.length) (hg : g ∈ Grammar.separator) :
    Finds (front ++ (g ++ back)) offset rule lexeme t := by
  obtain ⟨b, g, hb, rfl⟩ := Grammar.exists_white_of_mem_separator hg
  refine h.before_white hlast hb fun htext hcloses hquote => ?_
  have hback := h.quote_notMem htext hcloses
  rw [List.drop_append_of_le_length hlast] at hback
  rcases List.mem_append.1 hquote with hquote | hquote
  · exact Grammar.over_separator _ hg _ (List.mem_cons_of_mem b hquote) rfl
  · exact hback (List.mem_append_right _ hquote)

namespace Lexer

variable {front back g : Bytes} {ts : List Token} {t : Token}

/-- Behind separating layout a lexer says the same as in its place. -/
theorem content_pull_behind_separator (hg : g ∈ Grammar.separator) (n : Nat) :
    ((place (front ++ (g ++ back)) front.length).pull n).map Outcome.content =
      ((place (front ++ back) front.length).pull n).map Outcome.content := by
  have hscan := Cursor.scan_of_gap (Grammar.isGap_of_mem_separator hg back)
    (c := .place (front ++ (g ++ back)) front.length) List.drop_left
  rw [Cursor.advance_place] at hscan
  have hpull : (place (front ++ (g ++ back)) front.length).pull n =
      (place (front ++ (g ++ back)) (front.length + g.length)).pull n :=
    pull_of_scan_eq rfl rfl hscan n
  rw [hpull]
  refine content_pull rfl rfl ?_ n
  simp [place, ← List.append_assoc]

/-- From every offset the answers up to a token stay as they are, and all answers say the same. -/
theorem pull_place_insert_separator {offset : Nat} (hoffset : offset ≤ (front ++ back).length)
    (h : (place (front ++ back) offset).pull (ts.length + 1) = (ts ++ [t]).map .ok)
    (ht : t.kind ≠ .eof) (hlast : t.span.last = front.length) (hg : g ∈ Grammar.separator) :
    let l := place (front ++ (g ++ back)) offset
    l.pull (ts.length + 1) = (ts ++ [t]).map .ok ∧
      ∀ n, (l.pull n).map Outcome.content =
        ((place (front ++ back) offset).pull n).map Outcome.content := by
  intro l
  induction ts generalizing offset with
  | nil =>
    obtain ⟨rule, lexeme, hfinds⟩ := exists_finds_of_next hoffset (List.cons.inj h).1 ht
    have hfinds' := hfinds.insert_separator hlast.le hg
    refine ⟨?_, fun n => ?_⟩
    · rw [List.length_nil, pull, next_of_finds hfinds']
      rfl
    · cases n with
      | zero => rfl
      | succ n =>
        rw [pull, pull, next_of_finds hfinds, next_of_finds hfinds', hlast]
        exact congrArg (_ :: ·) (content_pull_behind_separator hg n)
  | cons u ts ih =>
    have hmem : .ok t ∈ (place (front ++ back) offset).pull ((u :: ts).length + 1) := by
      rw [h]
      simp
    obtain ⟨hnext, hbehind⟩ := List.cons.inj h
    have hu := kind_ne_eof_of_mem_pull rfl hnext hmem ht
    obtain ⟨rule, lexeme, hfinds⟩ := exists_finds_of_next hoffset hnext hu
    rw [next_of_finds hfinds] at hbehind
    change (place (front ++ back) u.span.last).pull (ts.length + 1) = (ts ++ [t]).map .ok at hbehind
    -- The token comes later, so this one ends in front of it.
    have hfront : u.span.last ≤ front.length := by
      have hmem' : .ok t ∈ (place (front ++ back) u.span.last).pull (ts.length + 1) := by
        rw [hbehind]
        simp
      obtain ⟨first, _, _, hle, hfinds'⟩ := exists_finds_of_mem_pull hfinds.last_le hmem' ht
      have hfirst := hfinds'.le
      have hlt := hfinds'.first_lt_last
      omega
    have hfinds' := hfinds.insert_separator hfront hg
    obtain ⟨htokens, hcontents⟩ := ih hfinds.last_le hbehind
    refine ⟨?_, fun n => ?_⟩
    · rw [List.length_cons, pull, next_of_finds hfinds']
      exact congrArg (_ :: ·) htokens
    · cases n with
      | zero => rfl
      | succ n =>
        rw [pull, pull, next_of_finds hfinds, next_of_finds hfinds']
        exact congrArg (_ :: ·) (hcontents n)

/-- Layout is invisible at token ends. If separating layout is put in behind a token, the answers up
to this token stay as they are, and all answers say the same as before. -/
theorem pull_insert_separator {source : Bytes}
    (h : (ofSource source).pull (ts.length + 1) = (ts ++ [t]).map .ok) (ht : t.kind ≠ .eof)
    (hg : g ∈ Grammar.separator) :
    let l := ofSource (source.take t.span.last ++ g ++ source.drop t.span.last)
    l.pull (ts.length + 1) = (ts ++ [t]).map .ok ∧
      ∀ n, (l.pull n).map Outcome.content = ((ofSource source).pull n).map Outcome.content := by
  have hmem : .ok t ∈ (place source 0).pull (ts.length + 1) := by
    rw [place_zero, h]
    simp
  obtain ⟨_, _, _, -, hfinds⟩ := exists_finds_of_mem_pull (Nat.zero_le _) hmem ht
  have hfront : t.span.last = (source.take t.span.last).length :=
    (List.length_take_of_le hfinds.last_le).symm
  have hsource := List.take_append_drop t.span.last source
  rw [← place_zero, ← hsource] at h
  have hinsert := pull_place_insert_separator (Nat.zero_le _) h ht hfront hg
  rw [hsource, place_zero, place_zero] at hinsert
  rwa [List.append_assoc]

/-- A comment behind the text of one backslash. -/
theorem pull_insert_separator_comment :
    let source := Bytes.ascii "\"\\\\\".x"
    let t : Token := ⟨.text, .text [0x5C], ⟨0, 4⟩, ⟨1, 1⟩⟩
    let l := ofSource (Bytes.ascii "\"\\\\\" --c\n.x")
    (ofSource source).pull 1 = [.ok t] ∧ t.kind ≠ .eof ∧ Bytes.ascii " --c\n" ∈ Grammar.separator ∧
      l.pull 1 = [.ok t] ∧
        ∀ n, (l.pull n).map Outcome.content = ((ofSource source).pull n).map Outcome.content := by
  intro source t l
  have hlongest : longest? source = some ⟨.literal .text, 4⟩ := by decide +kernel
  have hread : Literal.read .text (source.take 4) = .ok (.text [0x5C]) := by
    rw [Literal.read, Literal.Text.unquote_of_ascii (by decide) (by decide)]
    rfl
  have hpull : (ofSource source).pull (([] : List Token).length + 1) = ([] ++ [t]).map .ok :=
    pull_one_of_yields (applies_of_longest? hlongest).1 (.literal hread)
  have hline : ∀ b ∈ Bytes.ascii "c", b ∈ ({0x0A, 0x22}ᶜ : Set Byte) := by
    rintro b hb (rfl | rfl) <;> revert hb <;> decide
  have hcomment : Bytes.ascii "--c\n" ∈ Grammar.commentLine :=
    ⟨Bytes.ascii "--c", ⟨_, rfl, _, Grammar.mem_star_byte.2 hline, rfl⟩, _, rfl, rfl⟩
  have hseparator : Bytes.ascii " --c\n" ∈ Grammar.separator :=
    ⟨[0x20], ⟨0x20, Or.inl rfl, rfl⟩, Bytes.ascii "--c\n",
      ⟨[Bytes.ascii "--c\n"], rfl, List.forall_mem_singleton.2 (Or.inr hcomment)⟩, rfl⟩
  exact ⟨hpull, by decide, hseparator, pull_insert_separator hpull (by decide) hseparator⟩

end Lexer
end Munch
