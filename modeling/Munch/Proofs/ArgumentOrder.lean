import Munch.Command.Run

/-!
# The order of arguments

After a lexing mode the arguments are read from left to right as units, and every unit writes one
item. The meaning of an argument depends on those before it only where an output path stands alone
and takes the next argument. So a reading is a list of items, and the options ask for no more of it
than which items are in it and which output path and which input come last.

## Main definitions

* `Item.Writes`, `Item.WriteAll`: the arguments that write an item, and a list of items.
* `Item.NoUnit`: the first argument begins no unit.
* `Item.Last`: the last item of a kind.
* `Options.AskedBy`: the options that items ask for.
* `Invocation.Refused`: a command line that is answered with the usage.
-/
namespace Munch.Command

namespace Item

/-- The arguments of one unit, with the item that they write. -/
inductive Writes : Item → List Bytes → Prop
  | attached (path : Bytes) : Writes (out path) [.ascii "--out=" ++ path]
  | detached (path : Bytes) : Writes (out path) [.ascii "--out", path]
  | verbose : Writes verbose [.ascii "--verbose"]
  | dash : Writes (input (.ascii "-")) [.ascii "-"]
  | name {b : Byte} {s : Bytes} (h : b ≠ 0x2D) : Writes (input (b :: s)) [b :: s]

/-- Units in a row write their items. -/
inductive WriteAll : List Item → List Bytes → Prop
  | nil : WriteAll [] []
  | cons {item : Item} {items : List Item} {unit arguments : List Bytes} (h : item.Writes unit)
      (hs : WriteAll items arguments) : WriteAll (item :: items) (unit ++ arguments)

/-- The first argument begins no unit. -/
inductive NoUnit : List Bytes → Prop
  | empty (rest : List Bytes) : NoUnit ([] :: rest)
  | lastOut : NoUnit [.ascii "--out"]
  | dashed {argument : Bytes} {rest : List Bytes} (h : argument.head? = some 0x2D)
      (hne : argument ∉ [.ascii "-", .ascii "--out", .ascii "--verbose"])
      (hattached : ¬ Bytes.ascii "--out=" <+: argument) : NoUnit (argument :: rest)

/-! ## Reading units -/

section Reading

variable {item : Item} {items : List Item} {argument path : Bytes} {unit arguments : List Bytes}

theorem attachedPath?_eq_some_iff :
    attachedPath? argument = some path ↔ argument = .ascii "--out=" ++ path := by
  rw [attachedPath?]
  constructor
  · intro h
    split at h
    · obtain ⟨rest, rfl⟩ := List.isPrefixOf_iff_prefix.1 ‹_›
      obtain rfl := Option.some.inj h
      rfl
    · cases h
  · rintro rfl
    rw [if_pos (List.isPrefixOf_iff_prefix.2 (List.prefix_append _ _))]
    rfl

theorem attachedPath?_eq_none_iff :
    attachedPath? argument = none ↔ ¬ Bytes.ascii "--out=" <+: argument := by
  simp [attachedPath?]

theorem isInputName_of_ne {b : Byte} {s : Bytes} (h : b ≠ 0x2D) : isInputName (b :: s) = true := by
  simp [isInputName, h]

/-- A unit is read as the item that it writes. -/
theorem ofArguments_writes (h : item.Writes unit) (rest : List Bytes) :
    ofArguments (unit ++ rest) = (ofArguments rest).map (item :: ·) := by
  cases h with
  | attached path =>
    rw [List.singleton_append, ofArguments.eq_def]
    simp only [attachedPath?_eq_some_iff.2 rfl]
  | detached path => rfl
  | verbose | dash => rw [List.singleton_append, ofArguments.eq_def]; rfl
  | @name b s h =>
    have hattached : attachedPath? (b :: s) = none :=
      attachedPath?_eq_none_iff.2 fun hdash => h (List.cons_prefix_cons.1 hdash).1.symm
    have hne {t : Bytes} : b :: s ≠ 0x2D :: t := fun heq => h (List.cons.inj heq).1
    have hout : b :: s ≠ Bytes.ascii "--out" := hne
    have hverbose : b :: s ≠ Bytes.ascii "--verbose" := hne
    rw [List.singleton_append, ofArguments.eq_def]
    simp only [hattached, hout, hverbose, isInputName_of_ne h, if_true, if_false]

theorem ofArguments_writeAll (h : WriteAll items arguments) (rest : List Bytes) :
    ofArguments (arguments ++ rest) = (ofArguments rest).map (items ++ ·) := by
  induction h with
  | nil => cases h : ofArguments rest <;> simp [h, Except.map]
  | cons h _ ih =>
    rw [List.append_assoc, ofArguments_writes h, ih]
    cases ofArguments rest <;> rfl

/-- An argument that begins no unit ends the reading. -/
theorem ofArguments_noUnit (h : NoUnit arguments) :
    ∃ argument, ofArguments arguments = .error argument := by
  cases h with
  | empty rest => exact ⟨[], by rw [ofArguments.eq_def]; rfl⟩
  | lastOut => exact ⟨_, rfl⟩
  | @dashed argument rest h hne hattached =>
    obtain ⟨s, rfl⟩ := List.head?_eq_some_iff.1 h
    simp only [List.mem_cons, List.not_mem_nil, or_false, not_or] at hne
    obtain ⟨hdash, hout, hverbose⟩ := hne
    have hname : isInputName (0x2D :: s) = false := by
      cases s with
      | nil => exact absurd rfl hdash
      | cons => rfl
    refine ⟨0x2D :: s, ?_⟩
    rw [ofArguments.eq_def]
    simp only [attachedPath?_eq_none_iff.2 hattached, hout, hverbose, hname, if_false,
      Bool.false_eq_true]

theorem writes_of_isInputName (h : isInputName argument = true) :
    Writes (input argument) [argument] := by
  cases argument with
  | nil => cases h
  | cons b s =>
    by_cases hb : b = 0x2D
    · obtain rfl : s = [] := by simpa [isInputName, hb] using h
      exact hb ▸ .dash
    · exact .name hb

/-- Arguments are units to their end, or up to an argument that begins none. -/
theorem exists_writeAll_or_noUnit (arguments : List Bytes) :
    ∃ items front rest, arguments = front ++ rest ∧ WriteAll items front ∧
      (rest = [] ∨ NoUnit rest) := by
  have prepend {item : Item} {unit arguments : List Bytes} (h : item.Writes unit) :
      (∃ items front rest, arguments = front ++ rest ∧ WriteAll items front ∧
        (rest = [] ∨ NoUnit rest)) →
      ∃ items front rest, unit ++ arguments = front ++ rest ∧ WriteAll items front ∧
        (rest = [] ∨ NoUnit rest) := by
    rintro ⟨items, front, rest, rfl, hitems, hrest⟩
    exact ⟨item :: items, unit ++ front, rest, by simp, .cons h hitems, hrest⟩
  fun_induction ofArguments arguments with
  | case1 => exact ⟨[], [], [], rfl, .nil, Or.inl rfl⟩
  | case2 argument rest path hattached ih =>
    obtain rfl := attachedPath?_eq_some_iff.1 hattached
    exact prepend (.attached path) ih
  | case3 => exact ⟨[], [], _, rfl, .nil, Or.inr .lastOut⟩
  | case4 path rest _ ih => exact prepend (.detached path) ih
  | case5 rest _ _ ih => exact prepend .verbose ih
  | case6 argument rest _ _ _ hname ih => exact prepend (writes_of_isInputName hname) ih
  | case7 argument rest hattached hout hverbose hname =>
    refine ⟨[], [], _, rfl, .nil, Or.inr ?_⟩
    cases argument with
    | nil => exact .empty rest
    | cons b s =>
      obtain ⟨rfl, hs⟩ : b = 0x2D ∧ s ≠ [] := by simpa [isInputName] using hname
      refine .dashed rfl ?_ (attachedPath?_eq_none_iff.1 hattached)
      have hdash : 0x2D :: s ≠ Bytes.ascii "-" := fun h => hs (List.cons.inj h).2
      simp [hdash, hout, hverbose]

/-- The reading comes upon an argument that begins no unit. -/
def Stuck (arguments : List Bytes) : Prop :=
  ∃ items front rest, arguments = front ++ rest ∧ WriteAll items front ∧ NoUnit rest

theorem ofArguments_eq_ok_iff : ofArguments arguments = .ok items ↔ WriteAll items arguments := by
  constructor
  · intro h
    obtain ⟨items', front, rest, rfl, hitems, rfl | hnone⟩ := exists_writeAll_or_noUnit arguments
    · rw [ofArguments_writeAll hitems] at h
      obtain rfl : items' ++ [] = items := Except.ok.inj h
      simpa using hitems
    · obtain ⟨argument, hargument⟩ := ofArguments_noUnit hnone
      rw [ofArguments_writeAll hitems, hargument] at h
      cases h
  · intro h
    have hread := ofArguments_writeAll h []
    simpa [ofArguments, Except.map] using hread

theorem exists_ofArguments_error_iff :
    (∃ argument, ofArguments arguments = .error argument) ↔ Stuck arguments := by
  constructor
  · rintro ⟨argument, h⟩
    obtain ⟨items, front, rest, rfl, hitems, rfl | hnone⟩ := exists_writeAll_or_noUnit arguments
    · rw [ofArguments_writeAll hitems] at h
      cases h
    · exact ⟨items, front, rest, rfl, hitems, hnone⟩
  · rintro ⟨items, front, rest, rfl, hitems, hnone⟩
    obtain ⟨argument, hargument⟩ := ofArguments_noUnit hnone
    exact ⟨argument, by rw [ofArguments_writeAll hitems, hargument]; rfl⟩

theorem WriteAll.unique {items' : List Item} (h : WriteAll items arguments)
    (h' : WriteAll items' arguments) : items' = items :=
  Except.ok.inj ((ofArguments_eq_ok_iff.2 h').symm.trans (ofArguments_eq_ok_iff.2 h))

theorem WriteAll.not_stuck (h : WriteAll items arguments) : ¬ Stuck arguments := by
  intro hstuck
  obtain ⟨argument, hargument⟩ := exists_ofArguments_error_iff.2 hstuck
  rw [ofArguments_eq_ok_iff.2 h] at hargument
  cases hargument

end Reading

/-! ## The last item of a kind -/

/-- The last item of this make has this value. -/
def Last (make : Bytes → Item) (items : List Item) (value : Bytes) : Prop :=
  ∃ before after, items = before ++ make value :: after ∧ ∀ other, make other ∉ after

section Last

variable {make : Bytes → Item} {value? : Item → Option Bytes} {items : List Item} {value : Bytes}

/-- The function reads the value of the items of a make. -/
def Reads (make : Bytes → Item) (value? : Item → Option Bytes) : Prop :=
  ∀ item value, value? item = some value ↔ item = make value

theorem reads_path? : Reads out path? := by
  intro item value
  cases item <;> simp [path?]

theorem reads_inputName? : Reads input inputName? := by
  intro item value
  cases item <;> simp [inputName?]

theorem getLast?_filterMap_eq_some_iff (h : Reads make value?) :
    (items.filterMap value?).getLast? = some value ↔ Last make items value := by
  rw [List.getLast?_filterMap, List.findSome?_eq_some_iff]
  constructor
  · rintro ⟨front, item, back, heq, hitem, hnone⟩
    obtain rfl := (h item value).1 hitem
    refine ⟨back.reverse, front.reverse, ?_, fun other hother => ?_⟩
    · rw [← List.reverse_reverse items, heq]
      simp
    · have hother := hnone _ (List.mem_reverse.1 hother)
      rw [(h _ other).2 rfl] at hother
      cases hother
  · rintro ⟨before, after, rfl, hafter⟩
    refine ⟨after.reverse, make value, before.reverse, by simp, (h _ value).2 rfl, ?_⟩
    intro item hitem
    refine Option.eq_none_iff_forall_ne_some.2 fun other hother => ?_
    obtain rfl := (h item other).1 hother
    exact hafter other (List.mem_reverse.1 hitem)

theorem getLast?_filterMap_eq_none_iff (h : Reads make value?) :
    (items.filterMap value?).getLast? = none ↔ ∀ value, make value ∉ items := by
  rw [List.getLast?_eq_none_iff, List.filterMap_eq_nil_iff]
  constructor
  · intro hnone value hmem
    have hvalue := hnone _ hmem
    rw [(h _ value).2 rfl] at hvalue
    cases hvalue
  · intro hnotMem item hitem
    refine Option.eq_none_iff_forall_ne_some.2 fun value hvalue => ?_
    obtain rfl := (h item value).1 hvalue
    exact hnotMem value hitem

/-- Two lists with the same last item of a kind, or without one, have the same last value. -/
theorem getLast?_filterMap_congr (h : Reads make value?) {items' : List Item}
    (hlast : ∀ value, Last make items value ↔ Last make items' value) :
    (items.filterMap value?).getLast? = (items'.filterMap value?).getLast? := by
  refine Option.ext fun value => ?_
  rw [getLast?_filterMap_eq_some_iff h, getLast?_filterMap_eq_some_iff h, hlast]

end Last

end Item

/-! ## Options -/

open Item (WriteAll Stuck Last)

/-- The options are what the items ask for in a mode; `trace` is the value that may ask for the log
from outside. -/
structure Options.AskedBy (o : Options) (mode : Mode) (trace : Option Bytes) (items : List Item) :
    Prop where
  mode : o.mode = mode
  input : Last .input items o.input
  out : Last .out items o.out ∨ (∀ path, .out path ∉ items) ∧ o.out = []
  verbose : o.verbose = true ↔ .verbose ∈ items ∨ trace = some (.ascii "1")

namespace Options

variable {mode : Mode} {trace : Option Bytes} {items items' : List Item}

theorem askedBy_of_ofItems? {o : Options} (h : ofItems? mode (isTraced trace) items = some o) :
    o.AskedBy mode trace items := by
  obtain ⟨input, hinput, rfl⟩ := Option.map_eq_some_iff.1 h
  refine ⟨rfl, (Item.getLast?_filterMap_eq_some_iff Item.reads_inputName?).1 hinput, ?_, ?_⟩
  · cases hout : (items.filterMap Item.path?).getLast? with
    | none => exact Or.inr ⟨(Item.getLast?_filterMap_eq_none_iff Item.reads_path?).1 hout, rfl⟩
    | some path =>
      exact Or.inl ((Item.getLast?_filterMap_eq_some_iff Item.reads_path?).1 hout)
  · simp [isTraced, or_comm]

theorem ofItems?_eq_none_iff {traced : Bool} :
    ofItems? mode traced items = none ↔ ∀ name, .input name ∉ items := by
  rw [ofItems?, Option.map_eq_none_iff, Item.getLast?_filterMap_eq_none_iff Item.reads_inputName?]

theorem ofItems?_congr {traced : Bool} (hperm : items.Perm items')
    (hout : ∀ path, Last .out items path ↔ Last .out items' path)
    (hinput : ∀ name, Last .input items name ↔ Last .input items' name) :
    ofItems? mode traced items = ofItems? mode traced items' := by
  have hverbose : items.contains .verbose = items'.contains .verbose := by
    rw [Bool.eq_iff_iff, List.contains_iff_mem, List.contains_iff_mem, hperm.mem_iff]
  rw [ofItems?, ofItems?, Item.getLast?_filterMap_congr Item.reads_inputName? hinput,
    Item.getLast?_filterMap_congr Item.reads_path? hout, hverbose]

end Options

/-! ## Command lines -/

namespace Invocation

variable {call : Invocation} {mode : Mode} {arguments : List Bytes} {items : List Item}

/-- The command line is answered with the usage and the status 2. Nothing is read or written for
that. -/
def Refused (call : Invocation) : Prop :=
  ∃ help, call.options = .error help ∧ help.outcome.status = 2 ∧
    ∀ stdin tree, run { call with stdin } tree = (help.outcome, tree)

theorem options_of_arguments (h : call.arguments.map Bytes.untilZero = mode.name :: arguments) :
    call.options = Options.ofMode mode (isTraced (call.trace.map Bytes.untilZero)) arguments := by
  have hmode : ∀ mode : Mode, mode.name ≠ .ascii "--help" ∧ mode.name ≠ .ascii "--version" ∧
      Mode.ofName? mode.name = some mode := by
    intro mode
    cases mode <;> decide
  obtain ⟨hhelp, hversion, hname⟩ := hmode mode
  simp only [options, h, Options.ofArguments, hhelp, hversion, hname, if_false]
  split
  · rename_i hnil
    rw [hnil]
    rfl
  · rfl

theorem refused_of_options {help : Help} (h : call.options = .error help)
    (hstatus : help.outcome.status = 2) : call.Refused := by
  refine ⟨help, h, hstatus, fun stdin tree => ?_⟩
  have hoptions : ({ call with stdin } : Invocation).options = .error help := h
  exact run_of_error hoptions tree

/-- The arguments after a lexing mode come upon one that begins no unit, or have no input, or ask for
options. -/
theorem reading_cases (h : call.arguments.map Bytes.untilZero = mode.name :: arguments) :
    (Stuck arguments ∧ call.Refused) ∨
      (∃ items, WriteAll items arguments ∧ (∀ name, .input name ∉ items) ∧ call.Refused) ∨
      ∃ items o, WriteAll items arguments ∧ call.options = .ok o ∧
        o.AskedBy mode (call.trace.map Bytes.untilZero) items := by
  have hoptions := options_of_arguments h
  rw [Options.ofMode] at hoptions
  cases hread : Item.ofArguments arguments with
  | error argument =>
    rw [hread] at hoptions
    exact Or.inl ⟨Item.exists_ofArguments_error_iff.1 ⟨argument, hread⟩,
      refused_of_options hoptions rfl⟩
  | ok items =>
    have hitems := Item.ofArguments_eq_ok_iff.1 hread
    rw [hread] at hoptions
    cases hasked : Options.ofItems? mode (isTraced (call.trace.map Bytes.untilZero)) items with
    | none =>
      simp only [hasked] at hoptions
      exact Or.inr (Or.inl ⟨items, hitems, Options.ofItems?_eq_none_iff.1 hasked,
        refused_of_options hoptions rfl⟩)
    | some o =>
      simp only [hasked] at hoptions
      exact Or.inr (Or.inr ⟨items, o, hitems, hoptions, Options.askedBy_of_ofItems? hasked⟩)

theorem not_refused_of_options {o : Options} (h : call.options = .ok o) : ¬ call.Refused := by
  rintro ⟨help, hhelp, -⟩
  rw [h] at hhelp
  cases hhelp

/-- A command line in a lexing mode is refused exactly if it comes upon an argument that begins no
unit or has no input. -/
theorem refused_iff (h : call.arguments.map Bytes.untilZero = mode.name :: arguments) :
    call.Refused ↔
      Stuck arguments ∨ ∃ items, WriteAll items arguments ∧ ∀ name, .input name ∉ items := by
  rcases reading_cases h with ⟨hstuck, hrefused⟩ | ⟨items, hitems, hinput, hrefused⟩ |
    ⟨items, o, hitems, ho, hasked⟩
  · exact iff_of_true hrefused (Or.inl hstuck)
  · exact iff_of_true hrefused (Or.inr ⟨items, hitems, hinput⟩)
  · refine iff_of_false (not_refused_of_options ho) ?_
    rintro (hstuck | ⟨items', hitems', hinput⟩)
    · exact hitems.not_stuck hstuck
    · obtain rfl := hitems.unique hitems'
      obtain ⟨before, after, rfl, -⟩ := hasked.input
      exact hinput o.input (by simp)

/-- A command line that is not refused has one reading, and its options are what that asks for. -/
theorem exists_askedBy (h : call.arguments.map Bytes.untilZero = mode.name :: arguments)
    (hok : ¬ call.Refused) : ∃ o items, call.options = .ok o ∧ WriteAll items arguments ∧
      (∀ items', WriteAll items' arguments → items' = items) ∧
        o.AskedBy mode (call.trace.map Bytes.untilZero) items := by
  rcases reading_cases h with ⟨-, hrefused⟩ | ⟨-, -, -, hrefused⟩ | ⟨items, o, hitems, ho, hasked⟩
  · exact absurd hrefused hok
  · exact absurd hrefused hok
  · exact ⟨o, items, ho, hitems, fun _ => hitems.unique, hasked⟩

end Invocation

theorem run_of_out_nil {call : Invocation} {o : Options} (h : call.options = .ok o)
    (hout : o.out = []) (tree : FileTree) : (run call tree).2 = tree := by
  rw [run_of_ok h, runOptions_of_nothing rfl (Or.inl hout)]

/-- The arguments after a lexing mode are read as units from left to right. A command line is refused
exactly if it comes upon an argument that begins no unit, or has no input; otherwise its options are
what its items ask for, and without an output path nothing is written. So two command lines with the
same items in any order, among them the same last output path and the same last input, have the same
outcome and leave the same files. -/
theorem run_order_independent (mode : Mode) :
    (∀ (call : Invocation) (arguments : List Bytes),
      call.arguments.map Bytes.untilZero = mode.name :: arguments →
        (call.Refused ↔
          Stuck arguments ∨ ∃ items, WriteAll items arguments ∧ ∀ name, .input name ∉ items) ∧
        (¬ call.Refused → ∃ o items, call.options = .ok o ∧ WriteAll items arguments ∧
          (∀ items', WriteAll items' arguments → items' = items) ∧
          o.AskedBy mode (call.trace.map Bytes.untilZero) items ∧
          (o.out = [] → ∀ tree, (run call tree).2 = tree))) ∧
    ∀ (call : Invocation) (given given' arguments arguments' : List Bytes) (items items' : List Item),
      given.map Bytes.untilZero = mode.name :: arguments →
      given'.map Bytes.untilZero = mode.name :: arguments' →
      WriteAll items arguments → WriteAll items' arguments' → items.Perm items' →
      (∀ path, Last .out items path ↔ Last .out items' path) →
      (∀ name, Last .input items name ↔ Last .input items' name) →
        ∀ tree, run { call with arguments := given } tree = run { call with arguments := given' } tree := by
  refine ⟨fun call arguments h => ⟨call.refused_iff h, fun hok => ?_⟩, ?_⟩
  · obtain ⟨o, items, ho, hitems, hunique, hasked⟩ := call.exists_askedBy h hok
    exact ⟨o, items, ho, hitems, hunique, hasked, run_of_out_nil ho⟩
  · intro call given given' arguments arguments' items items'
      h h' hitems hitems' hperm hout hinput tree
    have hoptions : ({ call with arguments := given } : Invocation).options =
        ({ call with arguments := given' } : Invocation).options := by
      rw [Invocation.options_of_arguments h, Invocation.options_of_arguments h', Options.ofMode,
        Options.ofMode, Item.ofArguments_eq_ok_iff.2 hitems, Item.ofArguments_eq_ok_iff.2 hitems']
      simp only [Options.ofItems?_congr hperm hout hinput]
    cases ho : ({ call with arguments := given } : Invocation).options with
    | error help => rw [run_of_error ho, run_of_error (hoptions ▸ ho)]
    | ok o =>
      rw [run_of_ok ho, run_of_ok (hoptions ▸ ho)]
      rfl

/-- The word after `--out` is a path whatever it is, and the last path and the last input count. -/
theorem run_order_independent_check :
    let given := [Bytes.ascii "--check", .ascii "--out", .ascii "--verbose", .ascii "x",
      .ascii "--out=a", .ascii "-"]
    let given' := [Bytes.ascii "--check", .ascii "x", .ascii "-", .ascii "--out=--verbose",
      .ascii "--out", .ascii "a"]
    let items := [Item.out (.ascii "--verbose"), .input (.ascii "x"), .out (.ascii "a"),
      .input (.ascii "-")]
    let items' := [Item.input (.ascii "x"), .input (.ascii "-"), .out (.ascii "--verbose"),
      .out (.ascii "a")]
    let call : Invocation := ⟨given, some (.ascii "1"), .ascii "1", .ascii "/"⟩
    call.arguments.map Bytes.untilZero = Mode.check.name :: given.tail ∧ ¬ call.Refused ∧
      (∃ o, call.options = .ok o ∧ o.AskedBy .check (call.trace.map Bytes.untilZero) items) ∧
      items.Perm items' ∧
      run call .empty = run { call with arguments := given' } .empty := by
  intro given given' items items' call
  obtain ⟨hread, hrun⟩ := run_order_independent .check
  have hgiven : call.arguments.map Bytes.untilZero = Mode.check.name :: given.tail := by decide
  have hgiven' : given'.map Bytes.untilZero = Mode.check.name :: given'.tail := by decide
  have hitems : WriteAll items given.tail :=
    .cons (.detached _) (.cons (.name (by decide)) (.cons (.attached _) (.cons .dash .nil)))
  have hitems' : WriteAll items' given'.tail :=
    .cons (.name (by decide)) (.cons .dash (.cons (.attached _) (.cons (.detached _) .nil)))
  have hperm : items.Perm items' := by decide
  have hok : ¬ call.Refused :=
    Invocation.not_refused_of_options (o := ⟨.check, .ascii "-", .ascii "a", true⟩) rfl
  obtain ⟨o, items'', ho, -, hunique, hasked, -⟩ := (hread call _ hgiven).2 hok
  obtain rfl := hunique items hitems
  refine ⟨hgiven, hok, ⟨o, ho, hasked⟩, hperm, ?_⟩
  refine hrun call given given' _ _ items items' hgiven hgiven' hitems hitems' hperm ?_ ?_ .empty
  · intro path
    rw [← Item.getLast?_filterMap_eq_some_iff Item.reads_path?,
      ← Item.getLast?_filterMap_eq_some_iff Item.reads_path?]
    rfl
  · intro name
    rw [← Item.getLast?_filterMap_eq_some_iff Item.reads_inputName?,
      ← Item.getLast?_filterMap_eq_some_iff Item.reads_inputName?]
    rfl

end Munch.Command
