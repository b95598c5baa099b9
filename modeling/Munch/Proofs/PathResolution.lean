import Mathlib.Logic.Basic
import Munch.Command.FileTree

/-!
# Where paths lead

Names are followed one by one, and what is at the end of a walk depends only on the directories
and links on the way. So a tree that keeps these leads the same names to the same place, whatever
becomes of its regular files, and the last name of a path is an entry of the directory to which
the others lead, unless it is a link.

## Main definitions

* `FileTree.way?`: the directory or the link at a place.
* `FileTree.Walks`: how names are followed from a place.
* `FileTree.KeepsWays`: a tree has the directories and the links of another one.
-/
namespace Munch.Command

/-! ## Names in a path -/

section Names

variable {path s : Bytes} {b : Byte}

theorem splitPath_ne_nil (path : Bytes) : splitPath path ≠ [] := by
  cases path with
  | nil => exact List.cons_ne_nil _ _
  | cons b path =>
    rw [splitPath, List.foldr_cons]
    split
    · exact List.cons_ne_nil _ _
    · split <;> exact List.cons_ne_nil _ _

theorem splitPath_slash (path : Bytes) : splitPath (Byte.slash :: path) = [] :: splitPath path := by
  simp [splitPath]

theorem splitPath_cons_of_ne (hb : b ≠ Byte.slash) {name : Bytes} {names : List Bytes}
    (h : splitPath path = name :: names) : splitPath (b :: path) = (b :: name) :: names := by
  rw [splitPath] at h ⊢
  rw [List.foldr_cons, if_neg hb, h]

/-- The names of a text are those before its last slash and the one after it. -/
theorem splitPath_eq (path : Bytes) : splitPath path = parentNames path ++ [lastName path] := by
  have hne := splitPath_ne_nil path
  rw [parentNames, lastName, List.getLast?_eq_some_getLast hne, Option.getD_some,
    List.dropLast_concat_getLast]

theorem splitPath_of_notMem (hs : Byte.slash ∉ s) : splitPath s = [s] := by
  induction s with
  | nil => rfl
  | cons b s ih =>
    obtain ⟨hb, hs⟩ := not_or.1 (List.mem_cons.not.1 hs)
    exact splitPath_cons_of_ne (Ne.symm hb) (ih hs)

/-- Bytes other than slashes lengthen the last name of a text. -/
theorem splitPath_append (hs : Byte.slash ∉ s) {front : List Bytes} {last : Bytes}
    (h : splitPath path = front ++ [last]) : splitPath (path ++ s) = front ++ [last ++ s] := by
  induction path generalizing front last with
  | nil =>
    have hnil : [[]] = front ++ [last] := h
    cases front with
    | nil =>
      obtain rfl : [] = last := List.singleton_inj.1 hnil
      exact splitPath_of_notMem hs
    | cons name front => simp at hnil
  | cons b path ih =>
    by_cases hb : b = Byte.slash
    · subst hb
      rw [splitPath_slash] at h
      rw [List.cons_append, splitPath_slash]
      cases front with
      | nil => exact absurd (List.cons.inj h).2 (splitPath_ne_nil path)
      | cons name front =>
        obtain ⟨rfl, hpath⟩ := List.cons.inj h
        rw [ih hpath, List.cons_append]
    · obtain ⟨name, names, hnames⟩ := List.exists_cons_of_ne_nil (splitPath_ne_nil path)
      rw [splitPath_cons_of_ne hb hnames] at h
      cases front with
      | nil =>
        obtain ⟨rfl, rfl⟩ := List.cons.inj h
        have hrest : splitPath (path ++ s) = [name ++ s] := ih (List.nil_append [name] ▸ hnames)
        exact splitPath_cons_of_ne hb hrest
      | cons first front =>
        obtain ⟨rfl, rfl⟩ := List.cons.inj h
        have hrest : splitPath (path ++ s) = name :: (front ++ [last ++ s]) :=
          ih (List.cons_append ▸ hnames)
        exact splitPath_cons_of_ne hb hrest

theorem splitPath_temporaryPath (path : Bytes) :
    splitPath (temporaryPath path) = parentNames path ++ [lastName path ++ .ascii ".tmp"] :=
  splitPath_append (by decide) (splitPath_eq path)

@[simp] theorem parentNames_temporaryPath (path : Bytes) :
    parentNames (temporaryPath path) = parentNames path := by
  rw [parentNames, splitPath_temporaryPath, List.dropLast_concat]

@[simp] theorem lastName_temporaryPath (path : Bytes) :
    lastName (temporaryPath path) = lastName path ++ .ascii ".tmp" := by
  rw [lastName, splitPath_temporaryPath, List.getLast?_concat, Option.getD_some]

theorem isEntryName_temporaryPath (path : Bytes) :
    isEntryName (lastName (temporaryPath path)) = true := by
  rw [lastName_temporaryPath]
  have hlength : (lastName path ++ .ascii ".tmp").length = (lastName path).length + 4 :=
    List.length_append
  simp only [isEntryName, Bool.and_eq_true, bne_iff_ne]
  refine ⟨⟨fun h => ?_, fun h => ?_⟩, fun h => ?_⟩ <;>
  · rw [h] at hlength
    simp [Bytes.ascii] at hlength

theorem isEntryName_iff {name : Bytes} :
    isEntryName name = true ↔ name ≠ [] ∧ name ≠ .ascii "." ∧ name ≠ .ascii ".." := by
  simp [isEntryName, and_assoc]

/-- A name is one of an entry, or it is empty or made of dots. -/
theorem isEntryName_cases (name : Bytes) :
    (name = [] ∨ name = .ascii ".") ∨ name = .ascii ".." ∨ isEntryName name = true := by
  by_cases hempty : name = []
  · exact Or.inl (Or.inl hempty)
  · by_cases hdot : name = .ascii "."
    · exact Or.inl (Or.inr hdot)
    · by_cases hdots : name = .ascii ".."
      · exact Or.inr (Or.inl hdots)
      · exact Or.inr (Or.inr (by simp [isEntryName, hempty, hdot, hdots]))

end Names

namespace FileTree

variable {t t' : FileTree} {links : Nat} {here place : Place} {name path : Bytes}
  {names front : List Bytes}

theorem isDirectory_iff : t.isDirectory place = true ↔ t.node? place = some .directory := by
  simp [isDirectory]

/-! ## Walks -/

/-- The directory or the link at a place. -/
def way? (t : FileTree) (place : Place) : Option Node :=
  match t.node? place with
  | some (.file _) => none
  | node => node

theorem way?_eq_directory_iff : t.way? place = some .directory ↔ t.isDirectory place = true := by
  rw [isDirectory_iff, way?]
  split <;> simp_all

theorem way?_eq_link_iff :
    t.way? place = some (.link path) ↔ t.node? place = some (.link path) := by
  rw [way?]
  split <;> simp_all

theorem way?_eq_none_iff :
    t.way? place = none ↔ t.node? place = none ∨ ∃ number, t.node? place = some (.file number) := by
  rw [way?]
  split <;> simp_all

theorem way?_cases (t : FileTree) (place : Place) : t.way? place = none ∨
    t.way? place = some .directory ∨ ∃ path, t.way? place = some (.link path) := by
  rcases hway : t.way? place with _ | _ | number | path
  · exact Or.inl rfl
  · exact Or.inr (Or.inl rfl)
  · rw [way?] at hway
    split at hway <;> simp_all
  · exact Or.inr (Or.inr ⟨path, rfl⟩)

theorem way?_eq_none_of_unlinked (hdirectory : t.isDirectory place = false)
    (hlink : ∀ there, t.node? place ≠ some (.link there)) : t.way? place = none := by
  rcases t.way?_cases place with hway | hway | ⟨there, hway⟩
  · exact hway
  · simp [way?_eq_directory_iff, hdirectory] at hway
  · exact absurd (way?_eq_link_iff.1 hway) (hlink there)

/-- From a place names lead to another one, through at most so many links. -/
inductive Walks (way? : Place → Option Node) : Nat → Place → List Bytes → Place → Prop
  | done {links : Nat} {here : Place} : Walks way? links here [] here
  | stay {links : Nat} {here place : Place} {name : Bytes} {names : List Bytes}
      (hhere : way? here = some .directory) (hname : name = [] ∨ name = .ascii ".")
      (hrest : Walks way? links here names place) : Walks way? links here (name :: names) place
  | up {links : Nat} {here place : Place} {names : List Bytes}
      (hhere : way? here = some .directory) (hrest : Walks way? links here.dropLast names place) :
      Walks way? links here (.ascii ".." :: names) place
  | last {links : Nat} {here : Place} {name : Bytes} (hhere : way? here = some .directory)
      (hname : isEntryName name = true) (hway : way? (here ++ [name]) = none) :
      Walks way? links here [name] (here ++ [name])
  | enter {links : Nat} {here place : Place} {name : Bytes} {names : List Bytes}
      (hhere : way? here = some .directory) (hname : isEntryName name = true)
      (hway : way? (here ++ [name]) = some .directory)
      (hrest : Walks way? links (here ++ [name]) names place) :
      Walks way? links here (name :: names) place
  | follow {links : Nat} {here place : Place} {name path : Bytes} {names : List Bytes}
      (hhere : way? here = some .directory) (hname : isEntryName name = true)
      (hway : way? (here ++ [name]) = some (.link path))
      (hrest : Walks way? links (if path.head? = some Byte.slash then [] else here)
        (splitPath path ++ names) place) :
      Walks way? (links + 1) here (name :: names) place

/-! A name says which rule a walk begins with, and so does what its entry is. -/

section Cases

variable {way? : Place → Option Node}

theorem walks_nil_iff : Walks way? links here [] place ↔ here = place := by
  constructor
  · rintro ⟨⟩
    rfl
  · rintro rfl
    exact .done

theorem walks_stay_iff (hname : name = [] ∨ name = .ascii ".") :
    Walks way? links here (name :: names) place ↔
      way? here = some .directory ∧ Walks way? links here names place := by
  refine ⟨fun h => ?_, fun ⟨hhere, hrest⟩ => .stay hhere hname hrest⟩
  have hentry : ¬ isEntryName name = true := by rcases hname with rfl | rfl <;> decide
  cases h with
  | stay hhere _ hrest => exact ⟨hhere, hrest⟩
  | up => exact absurd hname (by decide)
  | last _ h | enter _ h | follow _ h => exact absurd h hentry

theorem walks_up_iff : Walks way? links here (.ascii ".." :: names) place ↔
    way? here = some .directory ∧ Walks way? links here.dropLast names place := by
  refine ⟨fun h => ?_, fun ⟨hhere, hrest⟩ => .up hhere hrest⟩
  have hentry : ¬ isEntryName (.ascii "..") = true := by decide
  cases h with
  | stay _ h => exact absurd h (by decide)
  | up hhere hrest => exact ⟨hhere, hrest⟩
  | last _ h | enter _ h | follow _ h => exact absurd h hentry

variable (hname : isEntryName name = true)
include hname

theorem walks_last_iff (hway : way? (here ++ [name]) = none) :
    Walks way? links here (name :: names) place ↔
      way? here = some .directory ∧ names = [] ∧ here ++ [name] = place := by
  obtain ⟨hempty, hdot, hdots⟩ := isEntryName_iff.1 hname
  constructor
  · intro h
    cases h with
    | stay _ h => exact absurd h (not_or.2 ⟨hempty, hdot⟩)
    | up => exact absurd rfl hdots
    | last hhere => exact ⟨hhere, rfl, rfl⟩
    | enter _ _ h | follow _ _ h => simp [hway] at h
  · rintro ⟨hhere, rfl, rfl⟩
    exact .last hhere hname hway

theorem walks_enter_iff (hway : way? (here ++ [name]) = some .directory) :
    Walks way? links here (name :: names) place ↔
      way? here = some .directory ∧ Walks way? links (here ++ [name]) names place := by
  obtain ⟨hempty, hdot, hdots⟩ := isEntryName_iff.1 hname
  refine ⟨fun h => ?_, fun ⟨hhere, hrest⟩ => .enter hhere hname hway hrest⟩
  cases h with
  | stay _ h => exact absurd h (not_or.2 ⟨hempty, hdot⟩)
  | up => exact absurd rfl hdots
  | last _ _ h | follow _ _ h => simp [hway] at h
  | enter hhere _ _ hrest => exact ⟨hhere, hrest⟩

theorem walks_follow_iff (hway : way? (here ++ [name]) = some (.link path)) :
    Walks way? links here (name :: names) place ↔ way? here = some .directory ∧ ∃ n, links = n + 1 ∧
      Walks way? n (if path.head? = some Byte.slash then [] else here)
        (splitPath path ++ names) place := by
  obtain ⟨hempty, hdot, hdots⟩ := isEntryName_iff.1 hname
  constructor
  · intro h
    cases h with
    | stay _ h => exact absurd h (not_or.2 ⟨hempty, hdot⟩)
    | up => exact absurd rfl hdots
    | last _ _ h | enter _ _ h => simp [hway] at h
    | follow hhere _ h hrest =>
      obtain rfl := Node.link.inj (Option.some.inj (hway.symm.trans h))
      exact ⟨hhere, _, rfl, hrest⟩
  · rintro ⟨hhere, n, rfl, hrest⟩
    exact .follow hhere hname hway hrest

end Cases

theorem Walks.directory {way? : Place → Option Node}
    (h : Walks way? links here (name :: names) place) : way? here = some .directory := by
  cases h <;> assumption

/-- A walk is what is found, if that is known for the walks on from a link. -/
theorem walkWith_eq_some_iff {follow : Place → List Bytes → Option Place}
    (hfollow : ∀ here names place, follow here names = some place ↔
      ∃ n, links = n + 1 ∧ Walks t.way? n here names place) :
    t.walkWith follow here names = some place ↔ Walks t.way? links here names place := by
  induction names generalizing here with
  | nil => rw [walks_nil_iff, walkWith, Option.some_inj]
  | cons name names ih =>
    by_cases hhere : t.way? here = some .directory
    case neg =>
      have hnot : (!t.isDirectory here) = true := by
        simpa [way?_eq_directory_iff] using hhere
      rw [walkWith, if_pos hnot]
      exact iff_of_false nofun fun h => hhere h.directory
    have hdirectory : ¬ (!t.isDirectory here) = true := by
      simpa using way?_eq_directory_iff.1 hhere
    rw [walkWith, if_neg hdirectory]
    rcases isEntryName_cases name with hstay | rfl | hname
    · rw [if_pos hstay, ih, walks_stay_iff hstay, and_iff_right hhere]
    · rw [if_neg (by decide), if_pos rfl, ih, walks_up_iff, and_iff_right hhere]
    · obtain ⟨hempty, hdot, hdots⟩ := isEntryName_iff.1 hname
      rw [if_neg (not_or.2 ⟨hempty, hdot⟩), if_neg hdots]
      rcases hnode : t.node? (here ++ [name]) with _ | _ | number | path
      · rw [walks_last_iff hname (way?_eq_none_iff.2 (Or.inl hnode)), and_iff_right hhere]
        simp
      · have hway := way?_eq_directory_iff.2 (isDirectory_iff.2 hnode)
        rw [walks_enter_iff hname hway, and_iff_right hhere]
        exact ih
      · -- From a file there is no way on.
        have hway := way?_eq_none_iff.2 (Or.inr ⟨number, hnode⟩)
        rw [walks_last_iff hname hway, and_iff_right hhere]
        refine ih.trans ?_
        cases names with
        | nil => simp [walks_nil_iff]
        | cons => exact iff_of_false (fun h => by simp [h.directory] at hway) (by simp)
      · rw [walks_follow_iff hname (way?_eq_link_iff.2 hnode), and_iff_right hhere]
        exact hfollow _ _ _

theorem walk_eq_some_iff :
    t.walk links here names = some place ↔ Walks t.way? links here names place := by
  induction links generalizing here names place with
  | zero => exact walkWith_eq_some_iff (by simp)
  | succ links ih => exact walkWith_eq_some_iff (by simp [ih])

theorem locate?_eq_some_iff : t.locate? names = some place ↔ Walks t.way? 40 [] names place :=
  walk_eq_some_iff

/-! ## Trees with the same ways -/

theorem locate?_congr (h : ∀ place, t'.way? place = t.way? place) :
    t'.locate? names = t.locate? names := by
  refine Option.ext fun place => ?_
  rw [locate?_eq_some_iff, locate?_eq_some_iff, funext h]

/-- A tree has the directories and the links of another one. -/
def KeepsWays (t t' : FileTree) : Prop :=
  ∀ place node, t.way? place = some node → t'.way? place = some node

/-- Names lead to the same place in a tree that keeps the ways, unless a link was put there. -/
theorem Walks.mono (hkeeps : t.KeepsWays t') (hend : ∀ path, t'.way? place ≠ some (.link path))
    (h : Walks t.way? links here names place) : Walks t'.way? links here names place := by
  induction h with
  | done => exact .done
  | stay hhere hname _ ih => exact .stay (hkeeps _ _ hhere) hname (ih hend)
  | up hhere _ ih => exact .up (hkeeps _ _ hhere) (ih hend)
  | @last _ here name hhere hname hway =>
    rcases t'.way?_cases (here ++ [name]) with hway' | hway' | ⟨path, hway'⟩
    · exact .last (hkeeps _ _ hhere) hname hway'
    · exact .enter (hkeeps _ _ hhere) hname hway' .done
    · exact absurd hway' (hend path)
  | enter hhere hname hway _ ih =>
    exact .enter (hkeeps _ _ hhere) hname (hkeeps _ _ hway) (ih hend)
  | follow hhere hname hway _ ih =>
    exact .follow (hkeeps _ _ hhere) hname (hkeeps _ _ hway) (ih hend)

/-! ## The last name -/

/-- From a directory a last name leads to its entry, unless that is a link. -/
theorem Walks.concat (h : Walks t.way? links here front place)
    (hplace : t.way? place = some .directory) (hname : isEntryName name = true)
    (hlink : ∀ path, t.way? (place ++ [name]) ≠ some (.link path)) :
    Walks t.way? links here (front ++ [name]) (place ++ [name]) := by
  induction h with
  | @done _ here =>
    rcases t.way?_cases (here ++ [name]) with hway | hway | ⟨path, hway⟩
    · exact .last hplace hname hway
    · exact .enter hplace hname hway .done
    · exact absurd hway (hlink path)
  | stay hhere hstay _ ih => exact .stay hhere hstay (ih hplace hlink)
  | up hhere _ ih => exact .up hhere (ih hplace hlink)
  | last _ _ hway => simp [hway] at hplace
  | enter hhere hname hway _ ih => exact .enter hhere hname hway (ih hplace hlink)
  | follow hhere hname hway _ ih =>
    exact .follow hhere hname hway (List.append_assoc _ _ _ ▸ ih hplace hlink)

/-- A last name is followed from a directory to which the names before it lead. -/
theorem Walks.exists_directory (h : Walks t.way? links here (front ++ [name]) place) :
    ∃ directory n, Walks t.way? links here front directory ∧
      t.way? directory = some .directory ∧ Walks t.way? n directory [name] place := by
  generalize hnames : front ++ [name] = names at h
  induction h generalizing front with
  | done => simp at hnames
  | @stay links here _ first _ hhere hstay hrest ih =>
    rcases List.append_eq_cons_iff.1 hnames with ⟨rfl, hname⟩ | ⟨rest, rfl, rfl⟩
    · exact ⟨here, links, .done, hhere, hname ▸ .stay hhere hstay hrest⟩
    · obtain ⟨directory, n, hwalks, hlast⟩ := ih rfl
      exact ⟨directory, n, .stay hhere hstay hwalks, hlast⟩
  | @up links here _ _ hhere hrest ih =>
    rcases List.append_eq_cons_iff.1 hnames with ⟨rfl, hname⟩ | ⟨rest, rfl, rfl⟩
    · exact ⟨here, links, .done, hhere, hname ▸ .up hhere hrest⟩
    · obtain ⟨directory, n, hwalks, hlast⟩ := ih rfl
      exact ⟨directory, n, .up hhere hwalks, hlast⟩
  | @last links here _ hhere hname hway =>
    obtain ⟨rfl, heq⟩ := List.append_eq_singleton_iff.1 hnames |>.resolve_right (by simp)
    obtain rfl := List.singleton_inj.1 heq
    exact ⟨here, links, .done, hhere, .last hhere hname hway⟩
  | @enter links here _ _ _ hhere hname hway hrest ih =>
    rcases List.append_eq_cons_iff.1 hnames with ⟨rfl, heq⟩ | ⟨rest, rfl, rfl⟩
    · exact ⟨here, links, .done, hhere, heq ▸ .enter hhere hname hway hrest⟩
    · obtain ⟨directory, n, hwalks, hlast⟩ := ih rfl
      exact ⟨directory, n, .enter hhere hname hway hwalks, hlast⟩
  | @follow links here _ _ path _ hhere hname hway hrest ih =>
    rcases List.append_eq_cons_iff.1 hnames with ⟨rfl, heq⟩ | ⟨rest, rfl, rfl⟩
    · exact ⟨here, links + 1, .done, hhere, heq ▸ .follow hhere hname hway hrest⟩
    · obtain ⟨directory, n, hwalks, hlast⟩ := ih (List.append_assoc _ _ _)
      exact ⟨directory, n, .follow hhere hname hway hwalks, hlast⟩

/-- A name that is not one of an entry leads from a directory to itself or to one above it. -/
theorem Walks.length_le (h : Walks t.way? links here [name] place)
    (hname : isEntryName name = false) : place.length ≤ here.length := by
  rcases isEntryName_cases name with hstay | rfl | hentry
  · rw [walks_stay_iff hstay, walks_nil_iff] at h
    exact Nat.le_of_eq (congrArg List.length h.2).symm
  · rw [walks_up_iff, walks_nil_iff] at h
    rw [← h.2, List.length_dropLast]
    omega
  · simp [hname] at hentry

/-! ## Own places -/

theorem entryPlace?_eq_some_iff : t.entryPlace? front name = some place ↔
    ∃ directory, t.locate? front = some directory ∧ t.isDirectory directory = true ∧
      directory ++ [name] = place := by
  simp [entryPlace?, Option.filter_eq_some_iff, and_assoc]

/-- A path leads to its own place, unless there is a link. -/
theorem locate?_of_ownPlace? (h : t.ownPlace? path = some place)
    (hname : isEntryName (lastName path) = true)
    (hlink : ∀ there, t.node? place ≠ some (.link there)) :
    t.locate? (splitPath path) = some place := by
  obtain ⟨directory, hfront, hdirectory, rfl⟩ := entryPlace?_eq_some_iff.1 h
  rw [splitPath_eq, locate?_eq_some_iff]
  refine (locate?_eq_some_iff.1 hfront).concat (way?_eq_directory_iff.2 hdirectory) hname ?_
  exact fun there h => hlink there (way?_eq_link_iff.1 h)

theorem exists_ownPlace? (h : t.locate? (splitPath path) = some place) :
    ∃ own, t.ownPlace? path = some own := by
  rw [splitPath_eq, locate?_eq_some_iff] at h
  obtain ⟨directory, _, hfront, hdirectory, -⟩ := h.exists_directory
  exact ⟨_, entryPlace?_eq_some_iff.2
    ⟨directory, locate?_eq_some_iff.2 hfront, way?_eq_directory_iff.1 hdirectory, rfl⟩⟩

/-- A path and that of its temporary file have places of their own in one directory. -/
theorem ownPlace?_temporary {temporary : Place}
    (h : t.ownPlace? (temporaryPath path) = some temporary) :
    ∃ own, t.ownPlace? path = some own ∧ own ≠ temporary := by
  obtain ⟨directory, hfront, hdirectory, rfl⟩ := entryPlace?_eq_some_iff.1 h
  rw [parentNames_temporaryPath] at hfront
  refine ⟨_, entryPlace?_eq_some_iff.2 ⟨directory, hfront, hdirectory, rfl⟩, fun heq => ?_⟩
  have hlength := congrArg List.length (List.singleton_inj.1 (List.append_cancel_left heq) :
    lastName path = lastName (temporaryPath path))
  simp [Bytes.ascii] at hlength

end FileTree
end Munch.Command
