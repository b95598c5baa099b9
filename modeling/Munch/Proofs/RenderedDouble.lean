import Munch.Proofs.RenderedToken

/-!
# Rendered doubles

A finite number without sign is rendered as its shortest decimal. The text is one double, whatever
the notation, and the double is the number.
-/
namespace Munch.Lexer

variable {t : Token} {d : Binary64} {x : Decimal}

/-- The text of a decimal is read as one double, the number as which the decimal is read. -/
theorem drain_decimal (hsign : d.isNegative = false) (hfinite : d.isFinite = true)
    (hx : Binary64.ofDecimal? x.digits x.exponent = some d) {style : DecimalStyle}
    (hstyle : style.IsPointed) :
    let text := style.decimal x
    (ofSource text).drain.1 = .ok [⟨.double, .double d, ⟨0, text.length⟩, ⟨1, 1⟩⟩,
      ⟨.eof, .none, ⟨text.length, text.length⟩, Position.after text⟩] := by
  intro text
  have hm := Binary64.isFinite_iff.1 hfinite
  rw [← Binary64.ofMagnitude_magnitude hsign] at hx ⊢
  obtain ⟨hread, hdouble, hnumber⟩ :=
    Literal.Double.read_decimal hm (Binary64.roundsTo_of_ofDecimal? hm hx) hstyle
  have hpayload : Literal.read .double text = .ok (.double (.ofMagnitude d.magnitude)) := by
    rw [Literal.read, hread]
    rfl
  exact drain_of_applies (Literal.applies_double hdouble hnumber) (.literal hpayload)

/-- What is rendered for a finite number without sign is its shortest decimal, with a fraction if it
would be a whole number. It is read as one double with the same bits, which covers the whole text,
and the end. -/
theorem drain_render_double (hkind : t.kind = .double) (hpayload : t.payload = .double d)
    (hsign : d.isNegative = false) (hfinite : d.isFinite = true) :
    let text := t.render
    (∃ x, d.IsShortest x ∧ text = Token.withFraction (DecimalStyle.listing.decimal x)) ∧
      (ofSource text).drain.1 = .ok [⟨.double, .double d, ⟨0, text.length⟩, ⟨1, 1⟩⟩,
        ⟨.eof, .none, ⟨text.length, text.length⟩, Position.after text⟩] := by
  intro text
  have hm := Binary64.isFinite_iff.1 hfinite
  have hd := Binary64.ofMagnitude_magnitude hsign
  have hshortest := Binary64.isShortest_shortest hm
  rw [hd] at hshortest
  have htext : text =
      Token.withFraction (DecimalStyle.listing.decimal (Binary64.shortest d.magnitude)) := by
    rw [← Binary64.text_ofMagnitude hm, hd]
    simp only [text, Token.render, hkind, hpayload]
  refine ⟨⟨_, hshortest, htext⟩, ?_⟩
  rw [htext, DecimalStyle.withFraction_decimal rfl]
  exact drain_decimal hsign hfinite hshortest.read_eq (DecimalStyle.isPointed_pointed _)

/-- The least positive number is written with one digit and a power. -/
theorem drain_render_double_least :
    let d : Binary64 := ⟨1⟩
    let t : Token := ⟨.double, .double d, ⟨0, 0⟩, .start⟩
    d.isNegative = false ∧ d.isFinite = true ∧ t.render = Bytes.ascii "5e-324" ∧
      (ofSource t.render).drain.1 = .ok [⟨.double, .double d, ⟨0, 6⟩, ⟨1, 1⟩⟩,
        ⟨.eof, .none, ⟨6, 6⟩, ⟨1, 7⟩⟩] := by
  intro d t
  have hrender : t.render = Bytes.ascii "5e-324" := by decide +kernel
  have hdrain := (drain_render_double (t := t) rfl rfl (by decide) (by decide)).2
  rw [hrender] at hdrain ⊢
  exact ⟨by decide, by decide, rfl, hdrain⟩

end Munch.Lexer
