import Munch.Proofs.RenderedToken

/-!
# Rendering keeps the tokens

The rendered tokens of a source, put one behind the other with a space between them, are read as
tokens of the same kinds and payloads. A text that would not close in front of a later quote is
the last one: no quote comes after it in the source, and so none in what is rendered after it.

## Main definitions

* `renderAll`: the rendered tokens with spaces between them.
-/
namespace Munch

/-- The rendered tokens with one space between two of them. -/
def renderAll (ts : List Token) : Bytes := [0x20].intercalate (ts.map Token.render)

theorem renderAll_nil : renderAll [] = [] := rfl

theorem renderAll_singleton (t : Token) : renderAll [t] = t.render := by
  simp [renderAll]

theorem renderAll_cons_cons (t u : Token) (ts : List Token) :
    renderAll (t :: u :: ts) = t.render ++ 0x20 :: renderAll (u :: ts) := by
  simp [renderAll, List.intercalate_cons_cons]

theorem quote_notMem_renderAll {ts : List Token} (h : ∀ t ∈ ts, Byte.quote ∉ t.render) :
    Byte.quote ∉ renderAll ts := by
  induction ts with
  | nil => simp [renderAll_nil]
  | cons t ts ih =>
    obtain ⟨ht, hts⟩ := List.forall_mem_cons.1 h
    cases ts with
    | nil => rwa [renderAll_singleton]
    | cons u ts =>
      rw [renderAll_cons_cons]
      simp only [List.mem_append, List.mem_cons, not_or]
      exact ⟨ht, by decide, ih hts⟩

/-! ## Runs -/

namespace Cursor

variable {source : Bytes} {offset : Nat}

/-- No path among the tokens is written with a leading `./`. -/
def PathsKept (source : Bytes) (ts : List Token) : Prop :=
  ∀ t ∈ ts, t.kind = .file → ¬ Bytes.ascii "./" <+: source.slice t.span.first t.span.last

/-- Every token of a run is rendered from bytes behind the offset at which the run begins. -/
theorem Run.forall_rendersFrom {c' : Cursor} {ts : List Token} {last : Except Diagnostic Token}
    (h : (place source offset).Run ts last c') (hoffset : offset ≤ source.length)
    (hpaths : PathsKept source ts) :
    ∀ t ∈ ts, ∃ lexeme, t.RendersFrom lexeme ∧ lexeme ⊆ source.drop offset := by
  generalize hc : place source offset = c at h
  induction h generalizing offset with
  | stop => simp
  | @token c c' c'' t ts last hscan ht _ ih =>
    subst hc
    obtain ⟨rfl, rule, lexeme, hfinds⟩ := exists_finds_of_scan hscan ht hoffset
    obtain ⟨hpath, hpaths⟩ := List.forall_mem_cons.1 hpaths
    rw [hfinds.slice_eq] at hpath
    obtain ⟨hlexeme, hrest⟩ := hfinds.subset
    refine List.forall_mem_cons.2
      ⟨⟨lexeme, Token.rendersFrom hfinds.applies hfinds.yields hpath, hlexeme⟩, fun u hu => ?_⟩
    obtain ⟨lexeme', hrenders, hsubset⟩ := ih hfinds.last_le hpaths rfl u hu
    exact ⟨lexeme', hrenders, List.Subset.trans hsubset hrest⟩

/-- The rendered tokens of a run are read as a run of tokens with the same contents. -/
theorem Run.exists_run_renderAll {c' : Cursor} {ts : List Token} {last : Except Diagnostic Token}
    (h : (place source offset).Run ts last c') (hoffset : offset ≤ source.length)
    (hpaths : PathsKept source ts) {t : Token} (ht : last = .ok t) :
    ∀ d : Cursor, d.rest = renderAll ts → ∃ us u d', d.Run us (.ok u) d' ∧
      us.map Token.content = ts.map Token.content ∧ u.content = t.content := by
  generalize hc : place source offset = c at h
  induction h generalizing offset with
  | @stop c c' last hscan hlast =>
    subst hc ht
    intro d hd
    obtain ⟨stop, -, -, -, hreads⟩ := exists_slice_reads hoffset
    rw [hscan] at hreads
    refine ⟨[], d.endToken, d, .stop (scan_of_rest_nil hd) ?_, rfl, ?_⟩
    · rintro _ ⟨⟩
      rfl
    · rw [(hreads.atEnd_of_eof (hlast t rfl)).2.1]
      rfl
  | @token c c' c'' u ts last hscan hu hrun ih =>
    subst hc
    intro d hd
    obtain ⟨rfl, rule, lexeme, hfinds⟩ := exists_finds_of_scan hscan hu hoffset
    obtain ⟨hpath, hpaths⟩ := List.forall_mem_cons.1 hpaths
    rw [hfinds.slice_eq] at hpath
    have hrenders := Token.rendersFrom hfinds.applies hfinds.yields hpath
    have hlater := hrun.forall_rendersFrom hfinds.last_le hpaths
    obtain ⟨rule', happlies', hyields'⟩ := hrenders.isWrittenBy
    have hkind : rule'.kind? ≠ none := by simp [hyields'.kind?_eq]
    have hhere : Applies rule' u.render d.rest := by
      cases ts with
      | nil => rwa [hd, renderAll_singleton]
      | cons v ts =>
        rw [hd, renderAll_cons_cons]
        refine happlies'.before_white hkind (by simp [Grammar.white]) fun htext hcloses => ?_
        -- The text was read from a literal that closes after a backslash too.
        have hutext : u.kind = .text := by
          have hkind' := hyields'.kind?_eq
          rw [htext] at hkind'
          exact (Option.some.inj hkind').symm
        have hquote := hfinds.quote_notMem (hfinds.rule_eq_text_iff.2 hutext)
          (hrenders.closesEscaped hutext hcloses)
        refine quote_notMem_renderAll fun w hw hmem => ?_
        obtain ⟨lexeme', hrenders', hsubset⟩ := hlater w hw
        exact hquote (hsubset (hrenders'.quote_mem hmem))
    have hscan' := scan_of_yields hhere hyields'
    obtain ⟨d₁, hd₁, hscan₁⟩ : ∃ d₁ : Cursor, d₁.rest = renderAll ts ∧
        (d.advance u.render.length).scan = d₁.scan := by
      cases ts with
      | nil =>
        refine ⟨_, ?_, rfl⟩
        rw [rest_advance, hd, renderAll_singleton, List.drop_length]
        rfl
      | cons v ts =>
        have hspace : (d.advance u.render.length).rest = [0x20] ++ renderAll (v :: ts) := by
          rw [rest_advance, hd, renderAll_cons_cons, List.drop_left]
          rfl
        refine ⟨_, ?_, scan_of_gap (.white (by simp [Grammar.white]) _) hspace⟩
        rw [rest_advance, hspace, List.drop_left]
    obtain ⟨us, v, d', hrun', hcontents, hcontent⟩ := ih hfinds.last_le hpaths ht rfl d₁ hd₁
    exact ⟨_, v, d', .token hscan' hu (hrun'.of_scan_eq hscan₁), by
      rw [List.map_cons, List.map_cons, hcontents]; rfl, hcontent⟩

end Cursor

/-! ## Streams -/

/-- A path that begins with `/` or `../` does not begin with `./`. -/
theorem not_dot_slash_of_prefix {s : Bytes}
    (h : Bytes.ascii "/" <+: s ∨ Bytes.ascii "../" <+: s) : ¬ Bytes.ascii "./" <+: s := by
  rintro ⟨u, rfl⟩
  rcases h with ⟨v, hv⟩ | ⟨v, hv⟩
  · exact absurd (List.cons.inj hv).1 (by decide)
  · exact absurd (List.cons.inj (List.cons.inj hv).2).1 (by decide)

/-- Rendering keeps the tokens. If a source is lexed and no path in it is written with a leading
`./`, then the rendered tokens with spaces between them are lexed too, and the tokens have the same
kinds and payloads. -/
theorem Lexer.drain_renderAll {source : Bytes} {ts : List Token} {t : Token}
    (h : (ofSource source).drain.1 = .ok (ts ++ [t]))
    (hpaths : ∀ u ∈ ts, u.kind = .file →
      let lexeme := source.slice u.span.first u.span.last
      Bytes.ascii "/" <+: lexeme ∨ Bytes.ascii "../" <+: lexeme) :
    ∃ us, (ofSource (renderAll ts)).drain.1 = .ok us ∧
      us.map Token.content = (ts ++ [t]).map Token.content := by
  obtain ⟨ts', last, c', hrun⟩ := (Cursor.ofSource source).exists_run
  have hdrain := congrArg Prod.fst (hrun.drain_eq (l := ofSource source) rfl)
  rw [h] at hdrain
  cases last with
  | error d => cases hdrain
  | ok t' =>
    obtain ⟨rfl, heq⟩ := List.append_inj' (Except.ok.inj hdrain) rfl
    obtain rfl : t = t' := List.singleton_inj.1 heq
    have hplace : (Cursor.place source 0).Run ts (.ok t) c' := by
      rwa [Cursor.place, Cursor.advance_zero]
    obtain ⟨us, u, d', hrun', hcontents, hcontent⟩ := hplace.exists_run_renderAll (Nat.zero_le _)
      (fun u hu hfile => not_dot_slash_of_prefix (hpaths u hu hfile)) rfl (.ofSource (renderAll ts))
      (Cursor.rest_ofSource _)
    refine ⟨us ++ [u], congrArg Prod.fst (hrun'.drain_eq (l := ofSource (renderAll ts)) rfl), ?_⟩
    rw [List.map_append, List.map_append, hcontents, List.map_singleton, List.map_singleton,
      hcontent]

/-- The text of one backslash, and a path behind it. -/
theorem Lexer.drain_renderAll_backslash :
    let source := Bytes.ascii "\"\\\\\" /x"
    let text : Token := ⟨.text, .text [0x5C], ⟨0, 4⟩, ⟨1, 1⟩⟩
    let path : Token := ⟨.file, .path (Bytes.ascii "/x"), ⟨5, 7⟩, ⟨1, 6⟩⟩
    let eof : Token := ⟨.eof, .none, ⟨7, 7⟩, ⟨1, 8⟩⟩
    (ofSource source).drain.1 = .ok ([text, path] ++ [eof]) ∧ renderAll [text, path] = source ∧
      ∃ us, (ofSource (renderAll [text, path])).drain.1 = .ok us ∧
        us.map Token.content = ([text, path] ++ [eof]).map Token.content := by
  intro source text path eof
  have htext : Literal.read .text (source.take 4) = .ok (.text [0x5C]) := by
    rw [Literal.read, Literal.Text.unquote_of_ascii (by decide) (by decide)]
    rfl
  have hpath : Literal.read .path ((source.drop 5).take 2) = .ok (.path (Bytes.ascii "/x")) := by
    have hfault : Utf8.firstFault? ((source.drop 5).take 2) = none :=
      Utf8.firstFault?_of_ascii (by decide)
    rw [Literal.read, Literal.Verbatim.readPath, if_neg (by decide), Literal.Verbatim.read, hfault]
    rfl
  have hscan : (Cursor.ofSource source).scan = (.ok text, ⟨source.drop 4, 4, ⟨1, 5⟩⟩) := by
    have hlongest : longest? source = some ⟨.literal .text, 4⟩ := by decide +kernel
    exact Cursor.scan_of_yields (applies_of_longest? hlongest).1 (.literal htext)
  have hscan' : (⟨source.drop 4, 4, ⟨1, 5⟩⟩ : Cursor).scan = (.ok path, ⟨[], 7, ⟨1, 8⟩⟩) := by
    have hspace : longest? (source.drop 4) = some ⟨.layout .whitespace, 1⟩ := by decide +kernel
    have hlongest : longest? (source.drop 5) = some ⟨.literal .path, 2⟩ := by decide +kernel
    rw [Cursor.scan_of_applies_layout (applies_of_longest? hspace).1]
    exact Cursor.scan_of_yields (applies_of_longest? hlongest).1 (.literal hpath)
  have hrun : (Cursor.ofSource source).Run [text, path] (.ok eof) ⟨[], 7, ⟨1, 8⟩⟩ := by
    have hend : (⟨[], 7, ⟨1, 8⟩⟩ : Cursor).Run [] (.ok eof) ⟨[], 7, ⟨1, 8⟩⟩ := by
      refine .stop (Cursor.scan_of_rest_nil rfl) fun t ht => ?_
      rw [← Except.ok.inj ht]
    exact .token hscan (by decide) (.token hscan' (by decide) hend)
  have h := congrArg Prod.fst (hrun.drain_eq (l := ofSource source) rfl)
  refine ⟨h, by decide +kernel, drain_renderAll h fun u hu hfile => ?_⟩
  rcases List.mem_pair.1 hu with rfl | rfl
  · cases hfile
  · exact Or.inl ⟨[0x78], by decide⟩

end Munch
