import Mathlib.Data.List.Basic
import Munch.Proofs.PathResolution

/-!
# What the operations on a file tree do

Making directories adds nothing but directories. Opening a file to write leads to one regular
file, which is there or new, and what is written is only in this file. Renaming moves what is at
one place to another one. An operation that fails leaves the tree as it is, and what made it fail
is known.

## Main definitions

* `FileTree.file?`, `FileTree.fileAt?`: the content of the regular file at a place, and of the one
  to which a path leads.
* `FileTree.Grows`: a tree has more directories than another one, and otherwise the same.
* `FileTree.Opens`, `FileTree.Overwrites`: what opening a file and writing to it do.
* `FileTree.Moves`, `FileTree.TakesOver`: what renaming a file does.
-/
namespace Munch.Command

namespace FileTree

variable {t t' made : FileTree} {place other own : Place} {n : Nat}
  {path target text content : Bytes}

/-! ## Regular files -/

/-- The number of the regular file at a place. -/
def numberAt? (t : FileTree) (place : Place) : Option Nat :=
  match t.node? place with
  | some (.file n) => some n
  | _ => none

/-- The content of the regular file at a place. -/
def file? (t : FileTree) (place : Place) : Option Bytes := (t.numberAt? place).map t.content

/-- The number of the regular file to which a path leads. -/
def number? (t : FileTree) (path : Bytes) : Option Nat :=
  (t.locate? (splitPath path)).bind t.numberAt?

/-- The content of the regular file to which a path leads. -/
def fileAt? (t : FileTree) (path : Bytes) : Option Bytes :=
  (t.locate? (splitPath path)).bind t.file?

theorem numberAt?_eq_some_iff : t.numberAt? place = some n ↔ t.node? place = some (.file n) := by
  unfold numberAt?
  split <;> simp_all

theorem file?_eq_some_iff :
    t.file? place = some content ↔ ∃ n, t.node? place = some (.file n) ∧ t.content n = content := by
  simp [file?, numberAt?_eq_some_iff]

/-- What is at a place and what the file there holds say all about it. -/
theorem file?_congr (hnode : t'.node? place = t.node? place)
    (hcontent : ∀ n, t.node? place = some (.file n) → t'.content n = t.content n) :
    t'.file? place = t.file? place := by
  refine Option.ext fun content => ?_
  rw [file?_eq_some_iff, file?_eq_some_iff, hnode]
  exact exists_congr fun n => and_congr_right fun h => by rw [hcontent n h]

/-- A tree has what another one has, and beyond it nothing but directories. -/
structure Grows (t t' : FileTree) : Prop where
  node? : ∀ place, t'.node? place = t.node? place ∨
    t.node? place = none ∧ t'.node? place = some .directory
  contents : t'.contents = t.contents
  limits : t'.limits = t.limits

namespace Grows

theorem refl (t : FileTree) : t.Grows t := ⟨fun _ => Or.inl rfl, rfl, rfl⟩

theorem trans (h : t.Grows made) (h' : made.Grows t') : t.Grows t' where
  node? place := by
    rcases h'.node? place with heq | ⟨hnone, hdirectory⟩
    · rw [heq]
      exact h.node? place
    · rcases h.node? place with heq | ⟨-, hnew⟩
      · exact Or.inr ⟨heq ▸ hnone, hdirectory⟩
      · rw [hnone] at hnew
        cases hnew
  contents := h'.contents.trans h.contents
  limits := h'.limits.trans h.limits

theorem content_eq (h : t.Grows t') (n : Nat) : t'.content n = t.content n := by
  rw [content, content, h.contents]

/-- The regular files are the same, place by place. -/
theorem node?_file_iff (h : t.Grows t') :
    t'.node? place = some (.file n) ↔ t.node? place = some (.file n) := by
  rcases h.node? place with heq | ⟨hnone, hdirectory⟩ <;> simp [*]

theorem file?_eq (h : t.Grows t') (place : Place) : t'.file? place = t.file? place := by
  refine Option.ext fun content => ?_
  simp only [file?_eq_some_iff, h.node?_file_iff, h.content_eq]

end Grows

theorem grows_makeDirectory (t : FileTree) (front : List Bytes) (name : Bytes) :
    t.Grows (t.makeDirectory front name) := by
  unfold makeDirectory
  split
  · exact .refl t
  · rename_i place hplace
    split
    · rename_i hfree
      simp only [Bool.and_eq_true, Option.isNone_iff_eq_none] at hfree
      refine ⟨fun other => ?_, rfl, rfl⟩
      by_cases hother : other = place
      · subst hother
        obtain ⟨directory, -, -, rfl⟩ := entryPlace?_eq_some_iff.1 hplace
        exact Or.inr ⟨hfree.1.2, node?_insert_self t _ (by simp)⟩
      · exact Or.inl (node?_insert_of_ne t _ hother)
    · exact .refl t

theorem grows_makeDirectories (t : FileTree) (front names : List Bytes) :
    t.Grows (t.makeDirectories front names) := by
  induction names generalizing t front with
  | nil => exact .refl t
  | cons name names ih => exact (t.grows_makeDirectory front name).trans (ih _ _)

/-! ## Opening and writing -/

/-- A path leads to the regular file of a number at a place, or to where it can be made. -/
structure Opens (t : FileTree) (path : Bytes) (place : Place) (n : Nat) : Prop where
  locate : t.locate? (splitPath path) = some place
  node : t.node? place = some (.file n) ∨
    t.node? place = none ∧ ∀ other, t.node? other ≠ some (.file n)

/-- A tree has a text in the regular file of a number, which is at a place, and otherwise what
another one has. -/
structure Overwrites (t t' : FileTree) (place : Place) (n : Nat) (text : Bytes) : Prop where
  node_self : t'.node? place = some (.file n)
  node_of_ne : ∀ other ≠ place, t'.node? other = t.node? other
  content_self : t'.content n = text
  content_of_ne : ∀ k ≠ n, t'.content k = t.content k
  limits : t'.limits = t.limits

namespace Overwrites

/-- What is written last is what the file holds. -/
theorem store (h : t.Overwrites t' place n text) (content : Bytes) :
    t.Overwrites (t'.store n content) place n content where
  node_self := h.node_self
  node_of_ne := h.node_of_ne
  content_self := content_store_self t' content
  content_of_ne k hk := (content_store_of_ne t' content hk).trans (h.content_of_ne k hk)
  limits := h.limits

/-- Writing to a file changes no directory and no link. -/
theorem way?_eq (hopens : t.Opens path place n) (h : t.Overwrites t' place n text) (other : Place) :
    t'.way? other = t.way? other := by
  by_cases hother : other = place
  · subst hother
    have hnone : t.way? other = none :=
      way?_eq_none_iff.2 (hopens.node.symm.imp And.left fun h => ⟨n, h⟩)
    rw [hnone]
    exact way?_eq_none_iff.2 (Or.inr ⟨n, h.node_self⟩)
  · rw [way?, h.node_of_ne other hother, ← way?]

theorem file?_eq (h : t.Overwrites t' place n text) (hplace : other ≠ place)
    (hn : t.node? other ≠ some (.file n)) : t'.file? other = t.file? other := by
  refine file?_congr (h.node_of_ne other hplace) fun k hk => h.content_of_ne k ?_
  rintro rfl
  exact hn hk

end Overwrites

/-! ## Renaming -/

/-- What was at a place is at another one. -/
structure Moves (t t' : FileTree) (place own : Place) : Prop where
  node_new : t'.node? own = t.node? place
  node_old : t'.node? place = none
  node_of_ne : ∀ other, other ≠ place → other ≠ own → t'.node? other = t.node? other
  contents : t'.contents = t.contents

/-- What was at a place is at another one, unless both have the same regular file. -/
def TakesOver (t t' : FileTree) (place own : Place) : Prop :=
  t.Moves t' place own ∨ t' = t ∧ ∃ n, t.node? own = some (.file n) ∧ t.node? place = some (.file n)

theorem Moves.content_eq (h : t.Moves t' place own) (n : Nat) : t'.content n = t.content n := by
  rw [content, content, h.contents]

/-- A move from and to places off the ways changes none of them. -/
theorem Moves.way?_eq (h : t.Moves t' place own) (hplace : t.way? place = none)
    (hown : t.way? own = none) (other : Place) : t'.way? other = t.way? other := by
  by_cases hother : other = own
  · subst hother
    rw [way?, h.node_new, ← way?, hplace, hown]
  · by_cases hother' : other = place
    · subst hother'
      rw [way?, h.node_old, hplace]
    · rw [way?, h.node_of_ne other hother' hother, ← way?]

theorem TakesOver.file?_eq (h : t.TakesOver t' place own) (hplace : other ≠ place)
    (hown : other ≠ own) : t'.file? other = t.file? other := by
  rcases h with hmoves | ⟨rfl, -⟩
  · exact file?_congr (hmoves.node_of_ne other hplace hown) fun n _ => hmoves.content_eq n
  · rfl

end FileTree

end Munch.Command
