import Munch.Proofs.CleanText
import Munch.Proofs.Rendering

/-!
# Values that are read

Every token that is read holds a value of the form its kind asks for, in normal form: texts are
well-formed, numbers canonical and doubles finite. So what is rendered for it is well-formed.

## Main definitions

* `Payload.IsNormal`: the value is in normal form.
* `Token.IsSound`: the token holds a value in normal form that fits its kind.
-/
namespace Munch

open Utf8 (WellFormed)

/-! ## Normal forms -/

/-- Texts are well-formed, numbers are canonical, and doubles are finite and not negative. -/
def Payload.IsNormal : Payload → Prop
  | none => True
  | text s | path s => WellFormed s
  | natural n => n.Canonical
  | double d => ∃ m < Binary64.infinity, d = .ofMagnitude m

namespace Literal

variable {s lexeme : Bytes}

theorem wellFormed_of_read (h : Verbatim.read lexeme = .ok s) : WellFormed s := by
  unfold Verbatim.read at h
  split at h
  · cases h
  · cases h
    exact Utf8.firstFault?_eq_none_iff.1 ‹_›

theorem wellFormed_of_readPath (h : Verbatim.readPath lexeme = .ok s) : WellFormed s := by
  unfold Verbatim.readPath at h
  split at h
  · cases hread : Verbatim.read (lexeme.drop 2) with
    | ok =>
      rw [hread] at h
      cases h
      exact wellFormed_of_read hread
    | error =>
      rw [hread] at h
      cases h
  · exact wellFormed_of_read h

theorem isNormal_of_read {form : Literal} {payload : Payload}
    (h : form.read lexeme = .ok payload) : payload.IsNormal := by
  cases form with
  | text =>
    obtain ⟨s, hs, rfl⟩ := Except.exists_ok_of_map h
    obtain ⟨body, -, hwell, hbody⟩ := Text.exists_body_of_unquote hs
    exact Text.wellFormed_of_unescape hbody hwell
  | natural =>
    obtain ⟨n, hn, rfl⟩ := Except.exists_ok_of_map h
    exact canonical_of_readNumber (readNatural_eq_ok_iff.1 hn)
  | number =>
    obtain ⟨n, hn, rfl⟩ := Except.exists_ok_of_map h
    exact canonical_of_readNumber hn
  | double =>
    obtain ⟨d, hd, rfl⟩ := Except.exists_ok_of_map h
    exact Double.exists_magnitude_of_read hd
  | label | address =>
    obtain ⟨s, hs, rfl⟩ := Except.exists_ok_of_map h
    exact wellFormed_of_read hs
  | path =>
    obtain ⟨s, hs, rfl⟩ := Except.exists_ok_of_map h
    exact wellFormed_of_readPath hs

end Literal

/-! ## Tokens -/

/-- The token holds a value in normal form that fits its kind, which is a known one. -/
structure Token.IsSound (t : Token) : Prop where
  fits : t.payload.Fits t.kind
  isNormal : t.payload.IsNormal
  kind_ne : t.kind ≠ .unknown

/-- A rule with a fixed lexeme is of a kind without a value. -/
def Rule.isBare : Rule → Bool
  | fixed _ kind => Payload.none.Fits kind
  | _ => true

theorem Rule.isBare_of_mem : ∀ rule ∈ rules, rule.isBare = true := by decide

theorem Rule.fits_of_mem {lexeme : Bytes} {kind : Kind} (h : fixed lexeme kind ∈ rules) :
    Payload.none.Fits kind := of_decide_eq_true (isBare_of_mem _ h)

theorem Rule.Yields.isNormal {rule : Rule} {lexeme : Bytes} {kind : Kind} {payload : Payload}
    (h : rule.Yields lexeme kind payload) (hrule : rule ∈ rules) :
    payload.Fits kind ∧ payload.IsNormal := by
  cases h with
  | fixed => exact ⟨fits_of_mem hrule, trivial⟩
  | literal hread => exact ⟨Literal.read_fits hread, Literal.isNormal_of_read hread⟩

theorem Cursor.Reads.isSound {c c' : Cursor} {t : Token} (h : c.Reads (.ok t, c')) :
    t.IsSound := by
  rcases h.token_cases with ⟨-, rfl, -⟩ | ⟨rule, lexeme, kind, payload, happlies, hyields, rfl, -⟩
  · exact ⟨by simp [endToken, Payload.Fits], trivial, by simp [endToken]⟩
  · obtain ⟨hfits, hnormal⟩ := hyields.isNormal happlies.mem_rules
    refine ⟨hfits, hnormal, fun hkind => ?_⟩
    exact kind?_ne_unknown _ happlies.mem_rules (hyields.kind?_eq.trans (congrArg some hkind))

/-- All tokens of a source are sound. -/
theorem Lexer.isSound_of_drain {source : Bytes} {ts : List Token}
    (h : (ofSource source).drain.1 = .ok ts) : ∀ t ∈ ts, t.IsSound := by
  obtain ⟨us, t, c', rfl, hrun⟩ := exists_run_of_ok h
  obtain ⟨htokens, stop, -, -, hlast⟩ :=
    hrun.forall_reads (Session.passes_true source) (Nat.zero_le _) trivial
  intro u hu
  rcases List.mem_append.1 hu with hu | hu
  · obtain ⟨stop, -, -, c, hreads⟩ := htokens u hu
    exact hreads.isSound
  · obtain rfl := List.mem_singleton.1 hu
    exact hlast.isSound

/-! ## Rendering -/

theorem Kind.wellFormed_spelling (kind : Kind) : WellFormed kind.spelling := by
  apply Utf8.wellFormed_of_ascii
  cases kind <;> decide

theorem Bytes.IsDigits.wellFormed {s : Bytes} (h : Bytes.IsDigits s) : WellFormed s := by
  refine Utf8.wellFormed_of_ascii (List.all_eq_true.2 fun b hb => ?_)
  exact decide_eq_true (Grammar.ascii_of_digit (Grammar.isDigit_iff.1 (h b hb)))

theorem LimbNat.wellFormed_decimal {n : LimbNat} (h : n.Canonical) : WellFormed n.decimal :=
  (LimbNat.decimal_spec h.1).1.wellFormed

theorem Binary64.wellFormed_text {m : Nat} (hm : m < infinity) :
    WellFormed (Token.withFraction ((ofMagnitude m).text .listing)) := by
  obtain ⟨-, hdouble, -⟩ := Literal.Double.read_text hm
  have hover : Grammar.Over {b | b < 0x80} (Literal.language .double) := Literal.over_ascii rfl
  exact Utf8.wellFormed_of_ascii (by simpa using hover _ hdouble)

theorem Token.render_of_none {kind : Kind} {span : Span} {position : Position}
    (h : Payload.none.Fits kind) : render ⟨kind, .none, span, position⟩ = kind.spelling := by
  cases kind with
  | text | natural | double | number | label | file | url => simp [Payload.Fits] at h
  | _ => rfl

/-- What is rendered for a token that is read is well-formed. -/
theorem Token.IsSound.wellFormed_render {t : Token} (h : t.IsSound) : WellFormed t.render := by
  obtain ⟨kind, payload, span, position⟩ := t
  obtain ⟨hfits, hnormal, -⟩ := h
  cases payload with
  | none =>
    rw [render_of_none hfits]
    exact kind.wellFormed_spelling
  | text s =>
    rcases hfits with rfl | rfl | rfl
    · exact Literal.Text.wellFormed_quote hnormal
    · exact hnormal
    · exact hnormal
  | natural n =>
    rcases hfits with rfl | rfl
    · exact Utf8.wellFormed_ascii_cons (by decide) (LimbNat.wellFormed_decimal hnormal)
    · exact LimbNat.wellFormed_decimal hnormal
  | double d =>
    obtain rfl := hfits
    obtain ⟨m, hm, rfl⟩ := hnormal
    exact Binary64.wellFormed_text hm
  | path s =>
    obtain rfl := hfits
    exact hnormal

end Munch
