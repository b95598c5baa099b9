import Munch.Proofs.FileOperation

/-!
# Replacing a file

Directories are made, the temporary file is opened, written and renamed, and a system can refuse to
go on at each of these steps. None of them before the last changes where a path leads. So the target
is what it was until the temporary file takes its name, as long as the temporary path is not itself
a way to the target.

## Main definitions

* `FileTree.Apart`: a temporary path is not a way to its target. In a tree without links it never
  is (`FileTree.Plain.apart`).
* `FileTree.Replaced`: a target has a new content, and its temporary file is gone.
* `FileTree.WriteEffect`: what a tree has after a file was replaced or could not be.
-/
namespace Munch.Command

namespace FileTree

variable {t t' written : FileTree} {place other own temporary : Place} {n : Nat}
  {path target text content : Bytes}

/-! ## Temporary files -/

/-- The tree with the directories that a target needs, as far as they can be made. -/
def prepare (t : FileTree) (target : Bytes) : FileTree := t.makeDirectories [] (parentNames target)

theorem grows_prepare (t : FileTree) (target : Bytes) : t.Grows (t.prepare target) :=
  t.grows_makeDirectories [] (parentNames target)

/-- A text has been written to the regular file to which a path leads. -/
def WritesTo (t t' : FileTree) (path text : Bytes) : Prop :=
  ∃ place n, t.Opens path place n ∧ t.Overwrites t' place n text

/-- There is no link at the own place of a path. -/
def Unlinked (t : FileTree) (path : Bytes) : Prop :=
  ∀ place, t.ownPlace? path = some place → ∀ there, t.node? place ≠ some (.link there)

/-- A target and its temporary path lead to different places, and not to two that have the same
regular file. Without links they always do (`Plain.apart`). With one, writing to the temporary file
can be writing to the target. -/
structure Apart (t : FileTree) (target : Bytes) : Prop where
  locate_ne : ∀ place, t.locate? (splitPath target) = some place →
    t.locate? (splitPath (temporaryPath target)) ≠ some place
  number_ne : ∀ n, t.number? target = some n → t.number? (temporaryPath target) ≠ some n

/-- A place is that of a temporary path, or one of the regular file to which it leads. -/
def IsTemporary (t : FileTree) (target : Bytes) (place : Place) : Prop :=
  t.ownPlace? (temporaryPath target) = some place ∨
    t.locate? (splitPath (temporaryPath target)) = some place ∨
      ∃ n, t.number? (temporaryPath target) = some n ∧ t.node? place = some (.file n)

/-- At the target's own place there is a regular file with the content, and the place of the
temporary path is free. Unless the target was a link, its path leads to that file. -/
def Replaced (t t' : FileTree) (target content : Bytes) : Prop :=
  ∃ own temporary, t.ownPlace? target = some own ∧
    t.ownPlace? (temporaryPath target) = some temporary ∧
    t'.file? own = some content ∧ t'.node? temporary = none ∧
    (t.Unlinked target →
      t'.fileAt? target = some content ∧ t'.fileAt? (temporaryPath target) = none)

theorem number?_of_locate? (hplace : t.locate? (splitPath path) = some place)
    (hnode : t.node? place = some (.file n)) : t.number? path = some n := by
  rw [number?, hplace, Option.bind_some, numberAt?_eq_some_iff, hnode]

/-- If the file that is opened stood anywhere before, the path led to it. -/
theorem Opens.number?_of_node? (h : t.Opens path place n) (hnode : t.node? other = some (.file n)) :
    t.number? path = some n := by
  rcases h.node with hplace | ⟨-, hfresh⟩
  · exact number?_of_locate? h.locate hplace
  · exact absurd hnode (hfresh other)

/-- Without a link there, the temporary path leads to its own place. -/
theorem Opens.eq_of_ownPlace? (h : t.Opens (temporaryPath target) place n)
    (hown : t.ownPlace? (temporaryPath target) = some temporary)
    (hlink : ∀ there, t.node? temporary ≠ some (.link there)) : place = temporary :=
  Option.some.inj (h.locate.symm.trans
    (locate?_of_ownPlace? hown (isEntryName_temporaryPath target) hlink))

theorem WritesTo.way?_eq (h : t.WritesTo t' path text) (place : Place) :
    t'.way? place = t.way? place := by
  obtain ⟨_, n, hopens, hwrites⟩ := h
  exact Overwrites.way?_eq hopens hwrites place

theorem WritesTo.limits (h : t.WritesTo t' path text) : t'.limits = t.limits := by
  obtain ⟨_, _, -, hwrites⟩ := h
  exact hwrites.limits

theorem WritesTo.fileAt? (h : t.WritesTo t' path text) : t'.fileAt? path = some text := by
  have hlocate : t'.locate? (splitPath path) = t.locate? (splitPath path) := locate?_congr h.way?_eq
  obtain ⟨place, n, hopens, hwrites⟩ := h
  rw [FileTree.fileAt?, hlocate, hopens.locate, Option.bind_some, file?_eq_some_iff]
  exact ⟨n, hwrites.node_self, hwrites.content_self⟩

theorem WritesTo.file?_eq (h : t.WritesTo t' (temporaryPath target) text)
    (hplace : ¬ t.IsTemporary target place) : t'.file? place = t.file? place := by
  obtain ⟨_, n, hopens, hwrites⟩ := h
  refine hwrites.file?_eq ?_ fun hnode => hplace ?_
  · rintro rfl
    exact hplace (Or.inr (Or.inl hopens.locate))
  · exact Or.inr (Or.inr ⟨n, hopens.number?_of_node? hnode, hnode⟩)

theorem WritesTo.exists_ownPlace? (h : t.WritesTo t' path text) :
    ∃ own, t.ownPlace? path = some own := by
  obtain ⟨_, _, hopens, -⟩ := h
  exact FileTree.exists_ownPlace? hopens.locate

namespace Apart

variable (hapart : t.Apart target)
include hapart

/-- The two paths are not names of one file, so the temporary file takes the target's place. -/
theorem moves (hname : isEntryName (lastName target) = true)
    (hown : t.ownPlace? target = some own) (hne : own ≠ temporary)
    (hopens : t.Opens (temporaryPath target) temporary n)
    (hwrites : t.Overwrites written temporary n text)
    (hrenamed : written.TakesOver t' temporary own) : written.Moves t' temporary own := by
  refine hrenamed.resolve_right ?_
  rintro ⟨-, m, hm, hm'⟩
  obtain rfl : n = m := by simpa [hwrites.node_self] using hm'
  rw [hwrites.node_of_ne own hne] at hm
  have hlocate := locate?_of_ownPlace? hown hname (by simp [hm])
  exact hapart.number_ne n (number?_of_locate? hlocate hm) (hopens.number?_of_node? hm)

theorem replaced (hunlinked : t.Unlinked (temporaryPath target))
    (hname : isEntryName (lastName target) = true)
    (hown : t.ownPlace? target = some own) (hdirectory : t.isDirectory own = false)
    (htemporary : t.ownPlace? (temporaryPath target) = some temporary) (hne : own ≠ temporary)
    (hwritten : t.WritesTo written (temporaryPath target) content)
    (hrenamed : written.TakesOver t' temporary own) : t.Replaced t' target content := by
  have hway := hwritten.way?_eq
  obtain ⟨place, n, hopens, hwrites⟩ := hwritten
  obtain rfl := hopens.eq_of_ownPlace? htemporary (hunlinked _ htemporary)
  have hmoves := hapart.moves hname hown hne hopens hwrites hrenamed
  have hnode : t'.node? own = some (.file n) := hmoves.node_new.trans hwrites.node_self
  have hfile : t'.file? own = some content :=
    file?_eq_some_iff.2 ⟨n, hnode, (hmoves.content_eq n).trans hwrites.content_self⟩
  refine ⟨own, place, hown, htemporary, hfile, hmoves.node_old, fun htarget => ?_⟩
  -- With a file in place of a file or of nothing, both paths lead where they led.
  have hlink := htarget own hown
  have hfree : written.way? own = none :=
    (hway own).trans (way?_eq_none_of_unlinked hdirectory hlink)
  have htaken : written.way? place = none := way?_eq_none_iff.2 (Or.inr ⟨n, hwrites.node_self⟩)
  have hsame (other : Place) : t'.way? other = t.way? other :=
    (hmoves.way?_eq htaken hfree other).trans (hway other)
  constructor
  · rw [fileAt?, locate?_congr hsame, locate?_of_ownPlace? hown hname hlink, Option.bind_some,
      hfile]
  · rw [fileAt?, locate?_congr hsame, hopens.locate, Option.bind_some]
    simp [file?, numberAt?, hmoves.node_old]

end Apart

/-! ## Trees without links -/

/-- There are no links, and no regular file is at two places. -/
structure Plain (t : FileTree) : Prop where
  no_link : ∀ place there, t.node? place ≠ some (.link there)
  one_place : ∀ n place other, t.node? place = some (.file n) →
    t.node? other = some (.file n) → place = other

theorem Grows.plain (h : t.Grows t') (hplain : t.Plain) : t'.Plain where
  no_link place there := by
    rcases h.node? place with heq | ⟨-, hdirectory⟩
    · rw [heq]
      exact hplain.no_link place there
    · simp [hdirectory]
  one_place n place other := by
    rw [h.node?_file_iff, h.node?_file_iff]
    exact hplain.one_place n place other

namespace Plain

variable (h : t.Plain)
include h

/-- Without links a target and its temporary path lead to different places. -/
theorem locate_ne (hplace : t.locate? (splitPath target) = some place) :
    t.locate? (splitPath (temporaryPath target)) ≠ some place := by
  intro hplace'
  obtain ⟨temporary, htemporary⟩ := exists_ownPlace? hplace'
  obtain ⟨own, hown, hne⟩ := ownPlace?_temporary htemporary
  have hlocate := locate?_of_ownPlace? htemporary (isEntryName_temporaryPath target)
    (h.no_link temporary)
  obtain rfl : place = temporary := Option.some.inj (hplace'.symm.trans hlocate)
  cases hname : isEntryName (lastName target)
  · -- The target ends at its directory or above it.
    obtain ⟨directory, hfront, -, rfl⟩ := entryPlace?_eq_some_iff.1 htemporary
    rw [splitPath_eq, locate?_eq_some_iff] at hplace
    obtain ⟨directory', _, hfront', -, hlast⟩ := hplace.exists_directory
    rw [parentNames_temporaryPath, locate?_eq_some_iff.2 hfront'] at hfront
    obtain rfl := Option.some.inj hfront
    have hlength := hlast.length_le hname
    rw [List.length_append, List.length_singleton] at hlength
    omega
  · have hlocate' := locate?_of_ownPlace? hown hname (h.no_link own)
    exact hne (Option.some.inj (hlocate'.symm.trans hplace))

end Plain

/-! ## Replacing -/

/-- What a tree has after a path's file was replaced, or could not be for some fault. -/
inductive WriteEffect (t : FileTree) (target content : Bytes) :
    Option WriteFault → FileTree → Prop
  /-- No regular file has changed. Opening the temporary file is refused, its directory is not
  there, or something that is no regular file is in its place. -/
  | notOpened (hgrows : t.Grows (t.prepare target))
      (hcause : temporaryPath target ∈ t.limits.unwritable ∨
        ∀ place, (t.prepare target).locate? (splitPath (temporaryPath target)) = some place →
          (t.prepare target).node? place ≠ none ∧
            ∀ n, (t.prepare target).node? place ≠ some (.file n)) :
      WriteEffect t target content (some .cannotOpen) (t.prepare target)
  /-- The target is what it was, and the temporary file has as much of the content as is stored. -/
  | notFlushed {t' : FileTree} {size : Nat} (hcause : t.limits.storedBytes? = some size)
      (hwritten :
        (t.prepare target).WritesTo t' (temporaryPath target) (content.take size))
      (htemporary : t'.fileAt? (temporaryPath target) = some (content.take size))
      (hunchanged : (t.prepare target).Apart target →
        t'.fileAt? target = (t.prepare target).fileAt? target) :
      WriteEffect t target content (some .cannotFlush) t'
  /-- The target is what it was, and the temporary file has the content. Renaming is refused, or the
  target is not the path of a file. -/
  | notRenamed {t' : FileTree} {fault : RenameFault}
      (hcause : t.limits.renameFault? = some fault ∨ isEntryName (lastName target) = false ∨
        ∃ own, (t.prepare target).ownPlace? target = some own ∧
          (t.prepare target).isDirectory own = true)
      (hwritten : (t.prepare target).WritesTo t' (temporaryPath target) content)
      (htemporary : t'.fileAt? (temporaryPath target) = some content)
      (hunchanged : (t.prepare target).Apart target →
        t'.fileAt? target = (t.prepare target).fileAt? target) :
      WriteEffect t target content (some (.cannotRename fault)) t'
  /-- The content was written to the temporary file, and this has taken the place of the target. -/
  | replaced {written t' : FileTree} {own temporary : Place}
      (hwritten : (t.prepare target).WritesTo written (temporaryPath target) content)
      (hown : (t.prepare target).ownPlace? target = some own)
      (htemporary : (t.prepare target).ownPlace? (temporaryPath target) = some temporary)
      (hrenamed : written.TakesOver t' temporary own)
      (hreplaced : (t.prepare target).Apart target →
        (t.prepare target).Unlinked (temporaryPath target) →
          (t.prepare target).Replaced t' target content) :
      WriteEffect t target content none t'

/-- Only what a temporary path leads to and the target's own place can have something else. -/
theorem WriteEffect.file?_eq {fault : Option WriteFault} (h : t.WriteEffect target content fault t')
    (hown : (t.prepare target).ownPlace? target ≠ some place)
    (htemporary : ¬ (t.prepare target).IsTemporary target place) :
    t'.file? place = t.file? place := by
  have hgrows := t.grows_prepare target
  cases h with
  | notOpened => exact hgrows.file?_eq place
  | notFlushed _ hwritten | notRenamed _ hwritten =>
    exact (hwritten.file?_eq htemporary).trans (hgrows.file?_eq place)
  | @replaced _ _ own temporary hwritten hown' htemporary' hrenamed =>
    have hplace : place ≠ temporary := by
      rintro rfl
      exact htemporary (Or.inl htemporary')
    have hplace' : place ≠ own := by
      rintro rfl
      exact hown hown'
    exact (hrenamed.file?_eq hplace hplace').trans
      ((hwritten.file?_eq htemporary).trans (hgrows.file?_eq place))

end FileTree

end Munch.Command
