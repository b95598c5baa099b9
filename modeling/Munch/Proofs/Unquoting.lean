import Munch.Proofs.CodePoint
import Munch.Proofs.Quoting

/-!
# What a text literal writes

The body of a literal is a row of items, each a byte of its own or a backslash with a code, as long
as every backslash has a code of the table behind it. The row is unique, and decoding gives the
values of its items. A body of another form has a longest row at its head, and decoding stops at the
backslash behind it. Missing quotes are found before bytes that are no UTF-8, and these before
escapes.

## Main definitions

* `Text.Item`: a byte of its own or a backslash with a code.
* `Text.written`, `Text.values`: the bytes of a row of items, and what they stand for.
* `Text.IsBroken`: a body begins with a backslash that no code follows.
-/
namespace Munch.Literal.Text

/-! ## Items -/

/-- A byte other than a backslash, or a backslash with a code of the table. -/
inductive Item
  | single (b : Byte) (h : b ≠ Byte.backslash)
  | pair (code value : Byte) (h : (code, value) ∈ escapes)

namespace Item

def bytes : Item → Bytes
  | single b _ => [b]
  | pair code _ _ => [Byte.backslash, code]

def value : Item → Byte
  | single b _ => b
  | pair _ value _ => value

end Item

/-- The bytes of a row of items. -/
def written (items : List Item) : Bytes := items.flatMap Item.bytes

/-- What a row of items stands for. -/
def values (items : List Item) : Bytes := items.map Item.value

/-- A backslash at the head is the last byte, or it stands before a byte that is no code. -/
inductive IsBroken : Bytes → Fault → Prop
  | dangling : IsBroken [Byte.backslash] .danglingEscape
  | unknown {code : Byte} (rest : Bytes) (h : ∀ e ∈ escapes, e.1 ≠ code) :
      IsBroken (Byte.backslash :: code :: rest) (.unknownEscape code)

/-- The codes that may follow a backslash. -/
example : escapes.map Prod.fst = Bytes.ascii "\"\\/'bfnrtva0" := by decide

variable {items items' : List Item} {s t rest : Bytes} {fault : Fault}

theorem written_cons (item : Item) (items : List Item) :
    written (item :: items) = item.bytes ++ written items := rfl

theorem escapeValue?_eq_none_iff {code : Byte} :
    escapeValue? code = none ↔ ∀ e ∈ escapes, e.1 ≠ code := by
  rw [escapeValue?, List.lookup_eq_none_iff]
  exact forall₂_congr fun _ _ => bne_iff_ne.trans ne_comm

/-- The bytes of an item say where it ends, so the items are found one after the other. -/
theorem Item.bytes_append_inj {item item' : Item} (h : item.bytes ++ s = item'.bytes ++ t) :
    item = item' ∧ s = t := by
  cases item with
  | single b hb =>
    cases item' with
    | single c hc =>
      obtain ⟨rfl, rfl⟩ := List.cons.inj h
      exact ⟨rfl, rfl⟩
    | pair code value hmem => exact absurd (List.cons.inj h).1 hb
  | pair code value hmem =>
    cases item' with
    | single c hc => exact absurd (List.cons.inj h).1.symm hc
    | pair code' value' hmem' =>
      obtain ⟨rfl, rfl⟩ := List.cons.inj (List.cons.inj h).2
      obtain rfl : value = value' :=
        Option.some.inj ((escapes_spec _ hmem).1.symm.trans (escapes_spec _ hmem').1)
      exact ⟨rfl, rfl⟩

theorem written_injective : Function.Injective written := by
  intro items items' h
  induction items generalizing items' with
  | nil =>
    cases items' with
    | nil => rfl
    | cons item items' => cases item <;> cases h
  | cons item items ih =>
    cases items' with
    | nil => cases item <;> cases h
    | cons item' items' =>
      obtain ⟨rfl, hrest⟩ := Item.bytes_append_inj h
      rw [ih hrest]

/-- Every text begins with a longest row of items: behind it there is nothing, or a backslash that
no code follows. -/
theorem exists_items (t : Bytes) : ∃ items rest, t = written items ++ rest ∧
    (rest = [] ∨ ∃ fault, IsBroken rest fault) := by
  have more (item : Item) {t : Bytes} : (∃ items rest, t = written items ++ rest ∧
      (rest = [] ∨ ∃ fault, IsBroken rest fault)) → ∃ items rest,
        item.bytes ++ t = written items ++ rest ∧ (rest = [] ∨ ∃ fault, IsBroken rest fault) := by
    rintro ⟨items, rest, rfl, hrest⟩
    exact ⟨item :: items, rest, by rw [written_cons, List.append_assoc], hrest⟩
  fun_induction unescape 0 t with
  | case1 => exact ⟨[], [], rfl, Or.inl rfl⟩
  | case2 => exact ⟨[], _, rfl, Or.inr ⟨_, .dangling⟩⟩
  | case3 _ code t value hvalue ih =>
    exact more (.pair code value (mem_escapes_of_escapeValue? hvalue)) ih
  | case4 _ code t hcode =>
    exact ⟨[], _, rfl, Or.inr ⟨_, .unknown t (escapeValue?_eq_none_iff.1 hcode)⟩⟩
  | case5 _ b t hb ih => exact more (.single b hb) ih

/-! ## Decoding -/

/-- Decoding replaces the items at the head of a text by what they stand for. -/
theorem unescape_written_append (items : List Item) (index : Nat) (t : Bytes) :
    unescape index (written items ++ t) =
      (unescape (index + (written items).length) t).map (values items ++ ·) := by
  induction items generalizing index with
  | nil => cases h : unescape index t <;> simp [written, values, h, Except.map]
  | cons item items ih =>
    have hitem : unescape index (item.bytes ++ (written items ++ t)) =
        (unescape (index + item.bytes.length) (written items ++ t)).map (item.value :: ·) := by
      cases item with
      | single b hb => exact unescape_cons_of_ne hb index _
      | pair code value hmem => exact unescape_pair hmem index _
    rw [written_cons, List.append_assoc, hitem, ih, List.length_append, ← Nat.add_assoc]
    cases unescape (index + item.bytes.length + (written items).length) t <;> rfl

theorem unescape_written (items : List Item) (index : Nat) :
    unescape index (written items) = .ok (values items) := by
  have happend := unescape_written_append items index []
  rw [List.append_nil] at happend
  rw [happend]
  simp [unescape, Except.map]

theorem IsBroken.unescape_eq (h : IsBroken rest fault) (index : Nat) :
    unescape index rest = .error ⟨fault, index⟩ := by
  cases h with
  | dangling => rfl
  | unknown rest hcode =>
    rw [unescape, if_pos rfl]
    simp [escapeValue?_eq_none_iff.2 hcode]

theorem IsBroken.kind_eq (h : IsBroken rest fault) : fault.kind = .invalidEscape := by
  cases h <;> rfl

theorem IsBroken.unescape_written_append (h : IsBroken rest fault) (items : List Item)
    (index : Nat) : unescape index (written items ++ rest) =
      .error ⟨fault, index + (written items).length⟩ := by
  rw [Text.unescape_written_append, h.unescape_eq]
  rfl

/-- A text is decoded if and only if it is a row of items. -/
theorem unescape_eq_ok_iff {index : Nat} :
    unescape index t = .ok s ↔ ∃ items, t = written items ∧ s = values items := by
  constructor
  · intro h
    obtain ⟨items, rest, rfl, rfl | ⟨fault, hbroken⟩⟩ := exists_items t
    · rw [List.append_nil, unescape_written] at h
      exact ⟨items, List.append_nil _, (Except.ok.inj h).symm⟩
    · rw [hbroken.unescape_written_append] at h
      cases h
  · rintro ⟨items, rfl, rfl⟩
    exact unescape_written items index

/-- Decoding stops behind the items at a backslash that no code follows. -/
theorem exists_broken_of_unescape {index : Nat} {r : Refusal} (h : unescape index t = .error r) :
    ∃ items rest, t = written items ++ rest ∧ IsBroken rest r.fault ∧
      r.index = index + (written items).length := by
  obtain ⟨items, rest, rfl, rfl | ⟨fault, hbroken⟩⟩ := exists_items t
  · rw [List.append_nil, unescape_written] at h
    cases h
  · rw [hbroken.unescape_written_append] at h
    obtain rfl := Except.error.inj h
    exact ⟨items, rest, rfl, hbroken, rfl⟩

/-! ## Literals -/

section Literals

variable {q : Bytes} {index : Nat}

theorem unquote_of_not_isQuoted (h : isQuoted q = false) :
    unquote q = .error ⟨.unterminatedText, 0⟩ := by
  simp [unquote, h]

theorem unquote_of_firstFault? (hquoted : isQuoted q = true)
    (h : Utf8.firstFault? q = some index) : unquote q = .error ⟨.illFormedText, index⟩ := by
  simp [unquote, hquoted, h]

theorem unquote_of_isText (hquoted : isQuoted q = true) (h : Utf8.IsText q) :
    unquote q = unescape 1 (body q) := by
  have hfault := Utf8.firstFault?_eq_none_iff.2 (Utf8.isText_iff_wellFormed.1 h)
  simp [unquote, hquoted, hfault]

/-- Quotes are missed before anything else is looked at. -/
theorem refusedAt_unterminatedText_iff :
    RefusedAt (unquote q) .unterminatedText index ↔ isQuoted q = false ∧ index = 0 := by
  cases hquoted : isQuoted q with
  | false =>
    rw [unquote_of_not_isQuoted hquoted, refusedAt_error]
    simp [Fault.kind, eq_comm]
  | true =>
    simp only [Bool.true_eq_false, false_and, iff_false]
    rintro ⟨fault, h, hkind⟩
    cases hfault : Utf8.firstFault? q with
    | some i =>
      rw [unquote_of_firstFault? hquoted hfault] at h
      cases h
      cases hkind
    | none =>
      have htext := Utf8.isText_iff_wellFormed.2 (Utf8.firstFault?_eq_none_iff.1 hfault)
      rw [unquote_of_isText hquoted htext] at h
      rw [kind_of_unescape_error h] at hkind
      cases hkind

/-- Between quotes the first byte that begins no code point is found before any escape. -/
theorem refusedAt_invalidUtf8_iff (hquoted : isQuoted q = true) :
    RefusedAt (unquote q) .invalidUtf8 index ↔ Utf8.firstFault? q = some index := by
  cases hfault : Utf8.firstFault? q with
  | some i =>
    rw [unquote_of_firstFault? hquoted hfault, refusedAt_error]
    simp [Fault.kind]
  | none =>
    simp only [reduceCtorEq, iff_false]
    rintro ⟨fault, h, hkind⟩
    have htext := Utf8.isText_iff_wellFormed.2 (Utf8.firstFault?_eq_none_iff.1 hfault)
    rw [unquote_of_isText hquoted htext] at h
    rw [kind_of_unescape_error h] at hkind
    cases hkind

/-- A body that is no row of items is refused at the backslash behind the longest row. -/
theorem exists_refusedAt_invalidEscape (hquoted : isQuoted q = true) (htext : Utf8.IsText q)
    (hnone : ¬ ∃ items, body q = written items) : ∃ items rest fault,
      q = Byte.quote :: (written items ++ rest ++ [Byte.quote]) ∧ IsBroken rest fault ∧
        RefusedAt (unquote q) .invalidEscape ((written items).length + 1) := by
  rw [unquote_of_isText hquoted htext]
  obtain ⟨t, rfl⟩ := isQuoted_iff.1 hquoted
  rw [body_of_quotes] at hnone ⊢
  cases h : unescape 1 t with
  | ok s =>
    obtain ⟨items, ht, -⟩ := unescape_eq_ok_iff.1 h
    exact absurd ⟨items, ht⟩ hnone
  | error r =>
    obtain ⟨items, rest, rfl, hbroken, hindex⟩ := exists_broken_of_unescape h
    refine ⟨items, rest, r.fault, rfl, hbroken, refusedAt_error.2 ⟨hbroken.kind_eq, ?_⟩⟩
    rw [hindex, Nat.add_comm]

theorem isText_of_unquote (h : unquote q = .ok s) : Utf8.IsText s := by
  obtain ⟨t, -, ht, hs⟩ := exists_body_of_unquote h
  exact Utf8.isText_iff_wellFormed.2 (wellFormed_of_unescape hs ht)

/-- A literal must have its quotes, then it must be UTF-8, and then its body must be a row of items,
which is unique and gives the text. The first of these that fails is what is reported, in the last
case at the backslash behind the items. The text is UTF-8 again. -/
theorem unquote_exact (q : Bytes) :
    let quoted := 2 ≤ q.length ∧ q.head? = some Byte.quote ∧ q.getLast? = some Byte.quote
    (∀ index, RefusedAt (unquote q) .unterminatedText index ↔ ¬ quoted ∧ index = 0) ∧
    (quoted → (∀ index, RefusedAt (unquote q) .invalidUtf8 index ↔ Utf8.firstFault? q = some index) ∧
      ((∃ index, RefusedAt (unquote q) .invalidUtf8 index) ↔ ¬ Utf8.IsText q)) ∧
    (quoted → Utf8.IsText q →
      (∀ s, unquote q = .ok s ↔ ∃ items, body q = written items ∧ s = values items) ∧
      ((¬ ∃ items, body q = written items) → ∃ items rest fault,
        q = Byte.quote :: (written items ++ rest ++ [Byte.quote]) ∧ IsBroken rest fault ∧
          RefusedAt (unquote q) .invalidEscape ((written items).length + 1))) ∧
    (∀ items items', written items = written items' → items = items') ∧
    ∀ s, unquote q = .ok s → Utf8.IsText s := by
  intro quoted
  have hiff : isQuoted q = true ↔ quoted := by simp [isQuoted, quoted, and_assoc]
  have hfault : (∃ index, Utf8.firstFault? q = some index) ↔ ¬ Utf8.IsText q := by
    rw [Utf8.isText_iff_wellFormed, ← Utf8.firstFault?_eq_none_iff, ← ne_eq,
      Option.ne_none_iff_exists']
  refine ⟨fun index => ?_, fun hquoted => ?_, fun hquoted htext => ?_, fun _ _ h => ?_,
    fun s => isText_of_unquote⟩
  · rw [refusedAt_unterminatedText_iff, ← hiff, Bool.not_eq_true]
  · have hindex (index : Nat) :
        RefusedAt (unquote q) .invalidUtf8 index ↔ Utf8.firstFault? q = some index :=
      refusedAt_invalidUtf8_iff (hiff.2 hquoted)
    exact ⟨hindex, (exists_congr hindex).trans hfault⟩
  · refine ⟨fun s => ?_, exists_refusedAt_invalidEscape (hiff.2 hquoted) htext⟩
    rw [unquote_of_isText (hiff.2 hquoted) htext, unescape_eq_ok_iff]
  · exact written_injective h

/-- Behind a pair of backslashes a third one stands before a byte that is no code. A line feed that
is written by its code is one item. -/
theorem unquote_exact_unknown :
    let q := Bytes.ascii "\"a\\\\\\q\""
    let line := Bytes.ascii "\"\\n\""
    let newline : Item := .pair 0x6E 0x0A (by decide)
    (2 ≤ q.length ∧ q.head? = some Byte.quote ∧ q.getLast? = some Byte.quote) ∧ Utf8.IsText q ∧
      (¬ ∃ items, body q = written items) ∧
      (∃ items rest fault, q = Byte.quote :: (written items ++ rest ++ [Byte.quote]) ∧
        IsBroken rest fault ∧ RefusedAt (unquote q) .invalidEscape ((written items).length + 1)) ∧
      (∀ items, written items = written [newline] → items = [newline]) ∧
      unquote line = .ok [0x0A] ∧ Utf8.IsText [0x0A] := by
  intro q line newline
  have hquoted : 2 ≤ q.length ∧ q.head? = some Byte.quote ∧ q.getLast? = some Byte.quote := by
    decide
  have hascii : q.all (fun b => b < 0x80) = true := by decide
  have htext : Utf8.IsText q := Utf8.isText_iff_wellFormed.2 (Utf8.wellFormed_of_ascii hascii)
  have hbody : body q = written [.single 0x61 (by decide), .pair 0x5C 0x5C (by decide)] ++
      [Byte.backslash, 0x71] := by decide
  have hrefused : unquote q = .error ⟨.unknownEscape 0x71, 4⟩ := by
    rw [unquote_of_ascii hascii (by decide), hbody]
    have hcode : escapeValue? 0x71 = none := by decide
    exact (IsBroken.unknown [] (escapeValue?_eq_none_iff.1 hcode)).unescape_written_append _ 1
  have hline : unquote line = .ok [0x0A] := (unquote_of_ascii (by decide) (by decide)).trans rfl
  obtain ⟨-, -, hread, hunique, -⟩ := unquote_exact q
  obtain ⟨hok, hbroken⟩ := hread hquoted htext
  have hnone : ¬ ∃ items, body q = written items := by
    rintro ⟨items, hitems⟩
    have hread := (hok (values items)).2 ⟨items, hitems, rfl⟩
    rw [hrefused] at hread
    cases hread
  exact ⟨hquoted, htext, hnone, hbroken hnone, fun items => hunique items [newline], hline,
    (unquote_exact line).2.2.2.2 [0x0A] hline⟩

end Literals

end Munch.Literal.Text
