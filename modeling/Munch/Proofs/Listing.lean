import Munch.Proofs.Lines
import Munch.Proofs.RootedPath
import Munch.Proofs.RunEffect

/-!
# Listings

A listing has one line for each token, and the line says where the token begins, of what kind it is
and what is rendered for it. No line feed stands in any of these, although a token can go over some
lines of the source. A diagnostic has one line too, except for an escaped line feed, which its
message quotes.

## Main definitions

* `Token.Entry`, `Token.Entry.ofLine?`: what a line says about a token.
* `Diagnostic.EscapesNewline`: a diagnostic is about a backslash in front of a line feed.
* `WholeListing`, `BrokenListing`: what is printed for tokens, alone or with a diagnostic behind them.
* `Command.Invocation.Lists`: a command line asks for the listing of a source.
-/
namespace Munch

open Byte (newline)

/-! ## Reading a line -/

/-- What stands before and behind the first byte of this value; nothing if there is none. -/
def Bytes.cut? (b : Byte) (s : Bytes) : Option (Bytes × Bytes) :=
  match s.dropWhile (· ≠ b) with
  | [] => none
  | _ :: back => some (s.takeWhile (· ≠ b), back)

/-- What a line says about a token. -/
structure Token.Entry where
  position : Position
  kind : Kind
  /-- What is rendered for the token; the end of the source has no text. -/
  text : Option Bytes
deriving DecidableEq, Repr

/-- The line of a token goes up to the first colon, its column up to the next space and its kind up
to the second space, behind which the text stands. -/
def Token.Entry.ofLine? (s : Bytes) : Option Entry := do
  let (line, s) ← s.cut? 0x3A
  let (col, s) ← s.cut? 0x20
  let position : Position := ⟨Bytes.ofDecimal line, Bytes.ofDecimal col⟩
  match s.cut? 0x20 with
  | none => (Kind.ofName? s).map fun kind => ⟨position, kind, none⟩
  | some (name, text) => (Kind.ofName? name).map fun kind => ⟨position, kind, some text⟩

def Token.entry (t : Token) : Entry :=
  ⟨t.position, t.kind, if t.kind = .eof then none else some t.render⟩

namespace Bytes

variable {b : Byte} {s front : Bytes}

theorem cut?_append (h : b ∉ front) (back : Bytes) :
    cut? b (front ++ b :: back) = some (front, back) := by
  have hfront : ∀ c ∈ front, decide (c ≠ b) = true := by
    intro c hc
    exact decide_eq_true fun heq => h (heq ▸ hc)
  rw [cut?, List.dropWhile_append_of_pos hfront, List.takeWhile_append_of_pos hfront]
  simp

theorem cut?_of_notMem (h : b ∉ s) : cut? b s = none := by
  have hs : s.dropWhile (· ≠ b) = [] := by
    refine List.dropWhile_eq_nil_iff.2 fun c hc => ?_
    exact decide_eq_true fun heq => h (heq ▸ hc)
  rw [cut?, hs]

theorem notMem_decimal (hb : b.isDigit = false) (n : Nat) : b ∉ decimal n := by
  intro h
  rw [isDigit_of_mem_decimal h] at hb
  cases hb

end Bytes

/-- The bytes of a name are neither spaces nor line feeds. -/
theorem Kind.notMem_name (kind : Kind) :
    0x20 ∉ Bytes.ascii kind.name ∧ newline ∉ Bytes.ascii kind.name := by
  cases kind <;> decide

namespace Token

/-- The parts of a line. -/
theorem line_eq (t : Token) : t.line =
    Bytes.decimal t.position.line ++ 0x3A :: (Bytes.decimal t.position.col ++ 0x20 ::
      (Bytes.ascii t.kind.name ++ t.entry.text.elim [] (0x20 :: ·))) := by
  by_cases heof : t.kind = .eof <;> simp [line, entry, heof, Bytes.ascii]

/-- What a token says is read back from its line. -/
theorem ofLine?_line {t : Token} (h : t.kind ≠ .unknown) : Entry.ofLine? t.line = some t.entry := by
  have hcolon : (0x3A : Byte) ∉ Bytes.decimal t.position.line := Bytes.notMem_decimal rfl _
  have hcol : (0x20 : Byte) ∉ Bytes.decimal t.position.col := Bytes.notMem_decimal rfl _
  have hspace := t.kind.notMem_name.1
  have hname := Kind.ofName?_name h
  rw [Entry.ofLine?, line_eq, Bytes.cut?_append hcolon]
  simp only [Option.bind_eq_bind, Option.bind_some, Bytes.cut?_append hcol, Bytes.ofDecimal_decimal]
  by_cases heof : t.kind = .eof
  · simp only [entry, heof, if_true, Option.elim_none, List.append_nil] at hspace hname ⊢
    rw [Bytes.cut?_of_notMem hspace, hname]
    rfl
  · simp only [entry, heof, if_false, Option.elim_some, Bytes.cut?_append hspace, hname]
    rfl

end Token

/-! ## Line feeds in tokens -/

theorem Kind.newline_notMem_spelling (kind : Kind) : newline ∉ kind.spelling := by
  cases kind <;> decide

theorem Bytes.IsDigits.newline_notMem {s : Bytes} (h : Bytes.IsDigits s) : newline ∉ s :=
  fun hmem => absurd (h _ hmem) (by decide)

namespace Literal

variable {lexeme : Bytes}

/-- A line feed is written as an escape, and no code is one. -/
theorem Text.newline_notMem_escape (b : Byte) : newline ∉ Text.escape b := by
  by_cases hb : b = newline
  · subst hb
    decide
  · have hbackslash : newline ≠ Byte.backslash := by decide
    have hcodes : newline ∉ Text.escapes.map Prod.fst := by decide
    rcases Text.escape_cases b with ⟨code, hescape, hmem⟩ | ⟨hescape, -, -⟩
    · have hcode : newline ≠ code := fun heq => hcodes (heq ▸ List.mem_map_of_mem hmem)
      simp [hescape, hbackslash, hcode]
    · simp [hescape, Ne.symm hb]

/-- A line feed in a text is rendered as an escape. -/
theorem Text.newline_notMem_quote (s : Bytes) : newline ∉ Text.quote s := by
  simp only [Text.quote, List.mem_cons, List.mem_append, List.mem_flatMap, List.not_mem_nil,
    or_false, not_or, not_exists, not_and]
  exact ⟨by decide, fun b _ => Text.newline_notMem_escape b, by decide⟩

/-- Only a text can go over some lines. -/
theorem newline_notMem_of_mem (form : Literal) (h : form ≠ .text)
    (hmem : lexeme ∈ form.language) : newline ∉ lexeme :=
  fun hnew => over_nonwhite h lexeme hmem newline hnew Grammar.newline_mem_white

end Literal

open Literal in
/-- What is rendered for a token that a rule makes of a lexeme is on one line. -/
theorem Rule.Yields.newline_notMem_render {rule : Rule} {lexeme : Bytes} {t : Token}
    (h : rule.Yields lexeme t.kind t.payload) (hrule : rule ∈ rules)
    (hmem : lexeme ∈ rule.language) : newline ∉ t.render := by
  obtain ⟨kind, payload, span, position⟩ := t
  cases h with
  | fixed =>
    rw [Token.render_of_none (fits_of_mem hrule)]
    exact kind.newline_notMem_spelling
  | @literal form _ _ hread =>
    cases form with
    | text =>
      obtain ⟨s, -, rfl⟩ := Except.exists_ok_of_map hread
      exact Text.newline_notMem_quote s
    | natural =>
      obtain ⟨n, hn, rfl⟩ := Except.exists_ok_of_map hread
      have hcanonical := canonical_of_readNumber (readNatural_eq_ok_iff.1 hn)
      exact List.not_mem_cons_of_ne_of_not_mem (by decide)
        (LimbNat.decimal_spec hcanonical.1).1.newline_notMem
    | number =>
      obtain ⟨n, hn, rfl⟩ := Except.exists_ok_of_map hread
      have hcanonical := canonical_of_readNumber hn
      exact (LimbNat.decimal_spec hcanonical.1).1.newline_notMem
    | double =>
      obtain ⟨d, hd, rfl⟩ := Except.exists_ok_of_map hread
      obtain ⟨m, hm, rfl⟩ := Double.exists_magnitude_of_read hd
      obtain ⟨-, hdouble, -⟩ := Double.read_text hm
      exact newline_notMem_of_mem .double (by decide) hdouble
    | label =>
      obtain ⟨s, hs, rfl⟩ := Except.exists_ok_of_map hread
      obtain rfl := eq_of_read hs
      exact newline_notMem_of_mem .label (by decide) hmem
    | path =>
      obtain ⟨s, hs, rfl⟩ := Except.exists_ok_of_map hread
      have hlexeme := newline_notMem_of_mem .path (by decide) hmem
      rcases readPath_cases hs with rfl | ⟨-, rfl⟩
      · exact fun hnew => hlexeme (List.mem_append_right _ hnew)
      · exact hlexeme
    | address =>
      obtain ⟨s, hs, rfl⟩ := Except.exists_ok_of_map hread
      obtain rfl := eq_of_read hs
      exact newline_notMem_of_mem .address (by decide) hmem

namespace Token

theorem newline_notMem_line {t : Token} (h : t.kind ≠ .eof → newline ∉ t.render) :
    newline ∉ t.line := by
  have hline : newline ∉ Bytes.decimal t.position.line := Bytes.notMem_decimal rfl _
  have hcol : newline ∉ Bytes.decimal t.position.col := Bytes.notMem_decimal rfl _
  have hmarks : newline ≠ 0x3A ∧ newline ≠ 0x20 := by decide
  have htext : newline ∉ t.entry.text.elim [] (0x20 :: ·) := by
    by_cases heof : t.kind = .eof
    · simp [entry, heof]
    · simp [entry, heof, hmarks.2, h heof]
  rw [line_eq]
  simp [hline, hcol, hmarks, t.kind.notMem_name.2, htext]

end Token

namespace Lexer

variable {source : Bytes} {t : Token} {n : Nat}

/-- The line of a token that is read has no line feed, and the token is of a known kind. -/
theorem line_spec_of_mem_pull (h : .ok t ∈ (ofSource source).pull n) :
    newline ∉ t.line ∧ t.kind ≠ .unknown := by
  by_cases heof : t.kind = .eof
  · exact ⟨Token.newline_notMem_line (absurd heof), by simp [heof]⟩
  · rw [← place_zero] at h
    obtain ⟨offset, rule, lexeme, -, hfinds⟩ := exists_finds_of_mem_pull (Nat.zero_le _) h heof
    have hrule := hfinds.applies.mem_rules
    refine ⟨Token.newline_notMem_line fun _ =>
      hfinds.yields.newline_notMem_render hrule hfinds.applies.mem_language, fun hkind => ?_⟩
    exact kind?_ne_unknown rule hrule (hfinds.yields.kind?_eq.trans (congrArg some hkind))

end Lexer

/-! ## Line feeds in diagnostics -/

namespace Fault

theorem newline_notMem_hex (b : Byte) : newline ∉ Bytes.hex b :=
  Byte.of_forall_fin (p := fun b => newline ∉ Bytes.hex b) (by decide +kernel) b.toNat_lt

/-- A line feed that is found is shown by its number. -/
theorem newline_notMem_describe {fragment : Bytes} (h : newline ∈ fragment → fragment = [newline]) :
    newline ∉ describe fragment := by
  have hshown (hfragment : newline ∉ fragment) :
      newline ∉ Bytes.ascii "unexpected character '" ++ fragment ++ Bytes.ascii "'" := by
    have hconstants : newline ∉ Bytes.ascii "unexpected character '" ∧
        newline ∉ Bytes.ascii "'" := by decide
    simp [hfragment, hconstants]
  unfold describe
  split
  · exact hshown List.not_mem_nil
  · rename_i b
    split
    · rename_i hb
      refine hshown fun hmem => ?_
      rw [← List.mem_singleton.1 hmem] at hb
      exact absurd hb.1 (by decide)
    · have hconstant : newline ∉ Bytes.ascii "unexpected byte 0x" := by decide
      rw [List.mem_append, not_or]
      exact ⟨hconstant, newline_notMem_hex b⟩
  · rename_i hlong
    exact hshown fun hmem => hlong newline (h hmem)

/-- Only an escaped line feed is quoted as it is. -/
theorem newline_notMem_message {fault : Fault} (hcode : fault ≠ .unknownEscape newline)
    (hfragment : ∀ fragment, fault = .unmatched fragment → newline ∉ describe fragment) :
    newline ∉ fault.message := by
  cases fault with
  | unmatched fragment => exact hfragment fragment rfl
  | unknownEscape code =>
    have hne : newline ≠ code := fun heq => hcode (congrArg _ heq.symm)
    have hconstants : newline ∉ Bytes.ascii "unknown escape sequence '\\" ∧
        newline ∉ Bytes.ascii "'" := by decide
    simp [message, hne, hconstants]
  | _ => decide

end Fault

/-- An ASCII byte in the piece that a report shows is the whole piece. -/
theorem Utf8.fragment_of_ascii_mem {s : Bytes} {b : Byte} (h : b ∈ fragment s) (hb : b < 0x80) :
    fragment s = [b] := by
  cases hpoint : codePointLength? s with
  | none =>
    rw [fragment_of_none hpoint] at h ⊢
    cases s with
    | nil => cases h
    | cons c s =>
      obtain rfl : b = c := List.mem_singleton.1 h
      rfl
  | some n =>
    rw [fragment, hpoint, Option.getD_some] at h ⊢
    exact (isCodePoint_take hpoint).eq_of_ascii_mem h hb

namespace Diagnostic

/-- The diagnostic is about a backslash in front of a line feed. -/
def EscapesNewline (source : Bytes) (d : Diagnostic) : Prop :=
  d.kind = .invalidEscape ∧ source[d.offset + 1]? = some newline

/-- What stands in front of the message. -/
def heading (d : Diagnostic) : Bytes :=
  .ascii "[line " ++ Bytes.decimal d.position.line ++ .ascii ":" ++
    Bytes.decimal d.position.col ++ .ascii "] "

theorem what_eq (d : Diagnostic) : d.what = Bytes.untilZero (d.heading ++ d.message) := rfl

theorem notMem_heading {b : Byte} (hb : b.isDigit = false)
    (hconstants : b ∉ Bytes.ascii "[line :] ") (d : Diagnostic) : b ∉ d.heading := by
  have hline := Bytes.notMem_decimal hb d.position.line
  have hcol := Bytes.notMem_decimal hb d.position.col
  simp [Bytes.ascii] at hconstants
  simp [heading, Bytes.ascii, hline, hcol, hconstants]

theorem newline_notMem_what {d : Diagnostic} (h : newline ∉ d.message) : newline ∉ d.what := by
  have hheading := d.notMem_heading (b := newline) (by decide) (by decide)
  rw [what_eq]
  exact fun hmem => (List.mem_append.1 (List.takeWhile_subset _ hmem)).elim hheading h

/-- A message without a zero byte is shown as a whole. -/
theorem what_of_zero_notMem {d : Diagnostic} (h : 0 ∉ d.message) :
    d.what = d.heading ++ d.message := by
  have hheading := d.notMem_heading (b := 0) (by decide) (by decide)
  rw [what_eq, Bytes.untilZero_of_notMem]
  exact fun hmem => (List.mem_append.1 hmem).elim hheading h

end Diagnostic

namespace Cursor

variable {source : Bytes} {stop : Nat}

theorem newline_notMem_what_report (c : Cursor) {fault : Fault}
    (hcode : fault ≠ .unknownEscape newline)
    (hfragment : ∀ fragment, fault = .unmatched fragment → newline ∉ Fault.describe fragment) :
    newline ∉ (c.report fault).what :=
  Diagnostic.newline_notMem_what (Fault.newline_notMem_message hcode hfragment)

/-- Only the message about an escaped line feed has a line feed. -/
theorem Reports.what_cases {d : Diagnostic} (h : Reports source stop d) :
    ¬ d.EscapesNewline source ∧ newline ∉ d.what ∨
      d.EscapesNewline source ∧ d.what = d.heading ++ Bytes.ascii "unknown escape sequence '\\" ++
        newline :: Bytes.ascii "'" := by
  cases h with
  | unmatched =>
    refine Or.inl ⟨by rintro ⟨⟨⟩, -⟩, newline_notMem_what_report _ (by simp) ?_⟩
    rintro _ ⟨⟩
    exact Fault.newline_notMem_describe fun hmem => Utf8.fragment_of_ascii_mem hmem (by decide)
  | @refused form lexeme rest refusal hrest happlies hrefuses =>
    -- The diagnostic stands at a backslash of the lexeme, and the byte behind it is the code.
    have hescapes {front back : Bytes} {code : Byte} {fault : Fault}
        (h : lexeme = front ++ Byte.backslash :: code :: back)
        (hkind : fault.kind = .invalidEscape) :
        ((place source (stop + front.length)).report fault).EscapesNewline source ↔
          code = newline := by
      have hoffset : ((place source (stop + front.length)).report fault).offset =
          stop + front.length := offset_place source _
      have hcode : source[stop + front.length + 1]? = some code := by
        rw [Nat.add_assoc, ← List.getElem?_drop, hrest, h]
        simp
      rw [Diagnostic.EscapesNewline, hoffset, hcode, Option.some.injEq]
      exact and_iff_right hkind
    cases hrefuses with
    | illFormedText | illFormedSequence | outOfRange =>
      exact Or.inl ⟨by rintro ⟨⟨⟩, -⟩, newline_notMem_what_report _ (by simp) (by simp)⟩
    | dangling hsplit =>
      exact Or.inl ⟨fun h => absurd ((hescapes hsplit rfl).1 h) (by decide),
        newline_notMem_what_report _ (by simp) (by simp)⟩
    | @unknown front back code hsplit =>
      by_cases hcode : code = newline
      · subst hcode
        have hzero : (0 : Byte) ∉ (Fault.unknownEscape newline).message := by decide
        refine Or.inr ⟨(hescapes hsplit rfl).2 rfl, ?_⟩
        rw [Diagnostic.what_of_zero_notMem hzero, List.append_assoc]
        rfl
      · exact Or.inl ⟨fun h => hcode ((hescapes hsplit rfl).1 h),
          newline_notMem_what_report _ (by simpa using hcode) (by simp)⟩

end Cursor

/-! ## Printed listings -/

theorem lines_tokenLines {ts : List Token} (h : ∀ t ∈ ts, newline ∉ t.line) (s : Bytes) :
    (tokenLines ts ++ s).lines = ts.map Token.line ++ s.lines := by
  have hlines : ∀ t ∈ ts, Bytes.lines (t.line ++ [newline]) = [t.line] :=
    fun t ht => Bytes.lines_append_newline (h t ht) []
  have hended (t : Token) :
      t.line ++ [newline] = [] ∨ ∃ s, t.line ++ [newline] = s ++ [newline] :=
    Or.inr ⟨t.line, rfl⟩
  rw [tokenLines, Bytes.lines_flatMap_append hended, List.flatMap_congr hlines,
    ← List.map_eq_flatMap]

/-- Tokens on lines of their own have as many line feeds as there are tokens. -/
theorem count_tokenLines {ts : List Token} (h : ∀ t ∈ ts, newline ∉ t.line) :
    (tokenLines ts).count newline = ts.length := by
  induction ts with
  | nil => rfl
  | cons t ts ih =>
    obtain ⟨ht, hts⟩ := List.forall_mem_cons.1 h
    have hcons : tokenLines (t :: ts) = t.line ++ newline :: tokenLines ts := by simp [tokenLines]
    rw [hcons, List.count_append, List.count_eq_zero_of_not_mem ht, List.count_cons_self, ih hts,
      Nat.zero_add, List.length_cons]

/-- The listing of a source that is lexed. -/
structure WholeListing (ts : List Token) (text : Bytes) : Prop where
  text_eq : text = tokenLines ts
  lines_eq : text.lines = ts.map Token.line
  count_eq : text.count newline = ts.length

/-- The listing of a source with a diagnostic behind these tokens. -/
structure BrokenListing (source : Bytes) (ts : List Token) (d : Diagnostic) (text : Bytes) :
    Prop where
  text_eq : text = tokenLines ts ++ .ascii "lex error: " ++ d.what ++ [newline]
  one_line : ¬ d.EscapesNewline source →
    text.lines = ts.map Token.line ++ [.ascii "lex error: " ++ d.what] ∧
      text.count newline = ts.length + 1
  two_lines : d.EscapesNewline source →
    text.lines = ts.map Token.line ++
      [.ascii "lex error: " ++ d.heading ++ .ascii "unknown escape sequence '\\", .ascii "'"] ∧
      text.count newline = ts.length + 2

theorem wholeListing_tokenLines {ts : List Token} (h : ∀ t ∈ ts, newline ∉ t.line) :
    WholeListing ts (tokenLines ts) := by
  refine ⟨rfl, ?_, count_tokenLines h⟩
  have hlines := lines_tokenLines h []
  rwa [List.append_nil, Bytes.lines, List.append_nil] at hlines

namespace Cursor.Run

/-- The diagnostic that ends a run is reported at some place. -/
theorem exists_reports {source : Bytes} {ts : List Token} {d : Diagnostic} {c : Cursor}
    (h : (Cursor.ofSource source).Run ts (.error d) c) : ∃ stop, Reports source stop d := by
  rw [← advance_zero (Cursor.ofSource source)] at h
  obtain ⟨-, stop, -, -, hreads⟩ :=
    h.forall_reads (Session.passes_true source) (Nat.zero_le _) trivial
  exact ⟨stop, hreads.reports⟩

/-- Tokens with a diagnostic behind them are those of the run. -/
theorem eq_of_pull {l : Lexer} {ts us : List Token} {last : Except Diagnostic Token} {c : Cursor}
    {d : Diagnostic} (h : l.cursor.Run ts last c) (hl : l.failure = none)
    (hpull : l.pull (us.length + 1) = us.map .ok ++ [.error d]) : us = ts ∧ last = .error d := by
  generalize hc : l.cursor = start at h
  induction h generalizing l us with
  | @stop c c' last h hlast =>
    subst hc
    cases last with
    | ok t =>
      have hmem : Except.error d ∈ us.map .ok ++ [.error d] := List.mem_append_right _ (.head _)
      rw [← hpull, Lexer.pull_of_scan_eof hl h (hlast t rfl)] at hmem
      cases List.eq_of_mem_replicate hmem
    | error e =>
      rw [Lexer.pull, Lexer.next_of_scan_error hl h] at hpull
      cases us with
      | nil => exact ⟨rfl, (List.cons.inj hpull).1⟩
      | cons u us => cases (List.cons.inj hpull).1
  | @token c c' c'' t ts last h _ _ ih =>
    subst hc
    rw [Lexer.pull, Lexer.next_of_scan_ok hl h] at hpull
    cases us with
    | nil => cases (List.cons.inj hpull).1
    | cons u us =>
      obtain ⟨hu, hus⟩ := List.cons.inj hpull
      obtain ⟨rfl, hlast⟩ := @ih { l with cursor := c' } us hl hus rfl
      cases hu
      exact ⟨rfl, hlast⟩

end Cursor.Run

/-- A diagnostic goes over two lines exactly if it is about an escaped line feed. -/
theorem Cursor.Reports.brokenListing {source : Bytes} {stop : Nat} {d : Diagnostic}
    {ts : List Token} (h : Cursor.Reports source stop d) (hts : ∀ t ∈ ts, newline ∉ t.line) :
    BrokenListing source ts d (tokenLines ts ++ .ascii "lex error: " ++ d.what ++ [newline]) := by
  -- The text is ended, so both cases follow from its lines.
  have hcount : (tokenLines ts ++ .ascii "lex error: " ++ d.what ++ [newline]).count newline =
      (tokenLines ts ++ .ascii "lex error: " ++ d.what ++ [newline]).lines.length :=
    (Bytes.length_lines _).symm
  have hlines : (tokenLines ts ++ .ascii "lex error: " ++ d.what ++ [newline]).lines =
      ts.map Token.line ++ Bytes.lines (.ascii "lex error: " ++ d.what ++ [newline]) := by
    simpa only [List.append_assoc] using lines_tokenLines hts _
  have herror : newline ∉ Bytes.ascii "lex error: " := by decide
  rw [hlines] at hcount
  rcases h.what_cases with ⟨hescapes, hwhat⟩ | ⟨hescapes, hwhat⟩
  · have hdiagnostic : Bytes.lines (.ascii "lex error: " ++ d.what ++ [newline]) =
        [.ascii "lex error: " ++ d.what] :=
      Bytes.lines_append_newline (by simp [herror, hwhat]) []
    rw [hdiagnostic] at hlines hcount
    exact ⟨rfl, fun _ => ⟨hlines, by simpa using hcount⟩, fun h => absurd h hescapes⟩
  · have hheading := d.notMem_heading (b := newline) (by decide) (by decide)
    have hquote : newline ∉ Bytes.ascii "unknown escape sequence '\\" ∧
        newline ∉ Bytes.ascii "'" := by decide
    have hdiagnostic : Bytes.lines (.ascii "lex error: " ++ d.what ++ [newline]) =
        [.ascii "lex error: " ++ d.heading ++ .ascii "unknown escape sequence '\\", .ascii "'"] := by
      have hsecond : Bytes.lines (.ascii "'" ++ [newline]) = [.ascii "'"] :=
        Bytes.lines_append_newline hquote.2 []
      have hfront : newline ∉
          .ascii "lex error: " ++ d.heading ++ Bytes.ascii "unknown escape sequence '\\" := by
        simp [herror, hheading, hquote]
      have hfirst := Bytes.lines_append_newline hfront (.ascii "'" ++ [newline])
      rw [hsecond] at hfirst
      rw [hwhat]
      simpa only [List.append_assoc, List.cons_append] using hfirst
    rw [hdiagnostic] at hlines hcount
    exact ⟨rfl, fun h => absurd hescapes h, fun _ => ⟨hlines, by simpa using hcount⟩⟩

namespace Command

variable {call : Invocation} {tree : FileTree} {source : Bytes}

/-- The command line asks for the listing of this source, which can be read. An output file may be
asked for as well. -/
def Invocation.Lists (call : Invocation) (tree : FileTree) (source : Bytes) : Prop :=
  ∃ o, call.options = .ok o ∧ o.mode = .tokens ∧ call.input? tree o.input = some source

theorem stdout_runOptions (call : Invocation) (tree : FileTree) (o : Options) :
    (runOptions call tree o).1.stdout = (o.draft (call.input? tree o.input)).text.getD [] := by
  rw [runOptions_eq]
  dsimp only
  split <;> exact Draft.stdout_finish _ _ _

/-- A listing is printed also where it is written to a file. -/
theorem Invocation.Lists.stdout_eq (h : call.Lists tree source) : ∃ o : Options,
    (run call tree).1.stdout = (o.listing source).text.getD [] := by
  obtain ⟨o, ho, hmode, hinput⟩ := h
  refine ⟨o, ?_⟩
  rw [run_of_ok ho]
  simp only [stdout_runOptions, hinput, Options.draft, Options.answer, hmode]

/-- Every token that is read has one line, which says all about it. So the listing of a source that
is lexed has a line for each token, and a listing that breaks off has one more line for the
diagnostic, or two if that is about an escaped line feed. -/
theorem run_listing (source : Bytes) :
    (∀ n t, .ok t ∈ (Lexer.ofSource source).pull n →
      newline ∉ t.line ∧ Token.Entry.ofLine? t.line = some t.entry) ∧
    ((∃ ts, (Lexer.ofSource source).drain.1 = .ok ts) ∨
      ∃ (ts : List Token) (d : Diagnostic),
        (Lexer.ofSource source).pull (ts.length + 1) = ts.map .ok ++ [.error d]) ∧
    ∀ call tree, call.Lists tree source →
      (∀ ts, (Lexer.ofSource source).drain.1 = .ok ts →
        WholeListing ts (run call tree).1.stdout) ∧
      ∀ (ts : List Token) (d : Diagnostic),
        (Lexer.ofSource source).pull (ts.length + 1) = ts.map .ok ++ [.error d] →
          BrokenListing source ts d (run call tree).1.stdout := by
  have hline (n : Nat) (t : Token) (h : .ok t ∈ (Lexer.ofSource source).pull n) :
      newline ∉ t.line := (Lexer.line_spec_of_mem_pull h).1
  refine ⟨fun n t h => ⟨hline n t h, Token.ofLine?_line (Lexer.line_spec_of_mem_pull h).2⟩, ?_, ?_⟩
  · rcases Reading.ofSource_cases source with ⟨ts, -, -, -, hdrain, -⟩ | ⟨ts, d, -, -, hpull⟩
    · exact Or.inl ⟨ts, hdrain⟩
    · exact Or.inr ⟨ts, d, hpull⟩
  intro call tree hlists
  obtain ⟨ts, last, c, hrun⟩ := (Cursor.ofSource source).exists_run
  have hpull := hrun.pull_eq (l := .ofSource source) rfl
  have hdrain := congrArg Prod.fst (hrun.drain_eq (l := .ofSource source) rfl)
  have hread : Reading.ofSource source = _ := hrun.read_eq
  obtain ⟨o, hstdout⟩ := hlists.stdout_eq
  constructor
  · intro us hus
    rw [hdrain] at hus
    cases last with
    | error d => cases hus
    | ok t =>
      obtain rfl : ts ++ [t] = us := Except.ok.inj hus
      have htext : (run call tree).1.stdout = tokenLines (ts ++ [t]) := by
        simp [hstdout, Options.listing, hread, tokenLines]
      rw [htext]
      refine wholeListing_tokenLines fun u hu => hline (ts.length + 1) u ?_
      rw [hpull]
      simpa [or_comm] using hu
  · intro us d hus
    obtain ⟨rfl, rfl⟩ := hrun.eq_of_pull (l := .ofSource source) rfl hus
    have htext : (run call tree).1.stdout =
        tokenLines us ++ .ascii "lex error: " ++ d.what ++ [newline] := by
      simp [hstdout, Options.listing, hread, tokenLines]
    obtain ⟨stop, hreports⟩ := hrun.exists_reports
    rw [htext]
    refine hreports.brokenListing fun u hu => hline (us.length + 1) u ?_
    rw [hpull]
    exact List.mem_append_left _ (List.mem_map_of_mem hu)

/-- An escaped line feed is quoted as it is, so that the diagnostic goes over two lines. -/
theorem run_listing_escaped_newline :
    let source := Bytes.ascii "\"\\\n\""
    let call : Invocation := ⟨[.ascii "--tokens", .ascii "-"], none, source, .ascii "/"⟩
    let d : Diagnostic := ⟨.invalidEscape, (Fault.unknownEscape newline).message, 1, ⟨1, 2⟩, [0x5C]⟩
    call.Lists .empty source ∧ (Lexer.ofSource source).pull 1 = [.error d] ∧
      d.EscapesNewline source ∧ BrokenListing source [] d (run call .empty).1.stdout ∧
      (run call .empty).1.stdout.count newline = 2 := by
  intro source call d
  have hlongest : longest? source = some ⟨.literal .text, 4⟩ := by decide +kernel
  have hread : Literal.read .text (source.take 4) = .error ⟨.unknownEscape newline, 1⟩ := by
    rw [Literal.read, Literal.Text.unquote_of_ascii (by decide) (by decide)]
    rfl
  have happlies : Applies (.literal .text) (source.take 4) source := (applies_of_longest? hlongest).1
  have hscan := Cursor.scan_of_refused (c := .ofSource source) happlies hread
  have hpull : (Lexer.ofSource source).pull 1 = [.error d] := by
    rw [Lexer.pull, Lexer.next_of_scan_error (l := .ofSource source) rfl hscan]
    rfl
  have hlists : call.Lists .empty source := ⟨⟨.tokens, .ascii "-", [], false⟩, rfl, rfl, rfl⟩
  have hescapes : d.EscapesNewline source := ⟨rfl, rfl⟩
  have hbroken := ((run_listing source).2.2 call .empty hlists).2 [] d hpull
  exact ⟨hlists, hpull, hescapes, hbroken, (hbroken.two_lines hescapes).2⟩

end Command
end Munch
