import Hyphae.Lib.Bytes
import Hyphae.Lib.OrderedMap

/-!
# Files that survive a crash

A written file reaches the disk for certain only when it is synchronized, and its name
only when its directory is. A crash keeps the entries that were synchronized and are
still there, keeps or loses any other entry, and cuts every file that was not
synchronized at an arbitrary place.
-/

namespace Lib

/-- What has been written to a file, and whether it has been synchronized since. -/
structure File where
  bytes : Bytes
  synced : Bool
  deriving DecidableEq

/-- What a crash may leave of a file. -/
def File.Leaves (file left : File) : Prop :=
  left.synced ∧ left.bytes <+: file.bytes ∧ (file.synced → left.bytes = file.bytes)

/-- The entries of a directory now, and those of its last synchronization. -/
structure Directory (κ : Type) [LinearOrder κ] where
  current : OrderedMap κ File
  durable : OrderedMap κ File

namespace Directory

variable {κ : Type} [LinearOrder κ]

variable {name : κ} {file : File} {directory : Directory κ} {image : OrderedMap κ File}

/-- The entry is there now, or was there at the last synchronization. -/
def Holds (directory : Directory κ) (name : κ) (file : File) : Prop :=
  directory.current.get name = some file ∨ directory.durable.get name = some file

def write (directory : Directory κ) (name : κ) (file : File) : Directory κ :=
  { directory with current := directory.current.insert name file }

def remove (directory : Directory κ) (name : κ) : Directory κ :=
  { directory with current := directory.current.erase name }

def sync (directory : Directory κ) : Directory κ := { directory with durable := directory.current }

/-- The directory as a disk holds it. -/
def ofImage (image : OrderedMap κ File) : Directory κ := ⟨image, image⟩

@[simp] theorem holds_ofImage :
    (ofImage image).Holds name file ↔ image.get name = some file := by simp [ofImage, Holds]

theorem holds_sync (h : directory.sync.Holds name file) : directory.Holds name file := by
  rcases h with h | h <;> exact .inl h

/-- A written entry is the new one or one that was there. -/
theorem holds_write {name' : κ} {file' : File} (h : (directory.write name file).Holds name' file') :
    (name' = name ∧ file' = file) ∨ directory.Holds name' file' := by
  rcases h with h | h
  · rw [write, OrderedMap.get_insert] at h
    split at h
    · exact .inl ⟨‹_›, (Option.some.inj h).symm⟩
    · exact .inr (.inl h)
  · exact .inr (.inr h)

/-- A new name leaves the entries there as they are. -/
theorem current_write (habsent : directory.current.get name = none) {name' : κ} {file' : File}
    (h : directory.current.get name' = some file') : (directory.write name file).current.get name' = some file' := by
  rw [write, OrderedMap.get_insert, if_neg, h]
  rintro rfl
  rw [habsent] at h
  cases h

/-- What a crash may leave of a directory. -/
structure Survives (directory : Directory κ) (image : OrderedMap κ File) : Prop where
  origin : ∀ name left, image.get name = some left → ∃ file, directory.Holds name file ∧ file.Leaves left
  kept : ∀ name, (directory.durable.get name).isSome → (directory.current.get name).isSome → (image.get name).isSome

/-- When every file is synchronized, the entries a crash leaves are entries of the directory. -/
theorem Survives.holds (h : directory.Survives image) (hsynced : ∀ name file, directory.Holds name file → file.synced)
    (hget : image.get name = some file) :
    directory.Holds name file := by
  obtain ⟨written, hholds, hsync, -, hwhole⟩ := h.origin name file hget
  have hwritten := hsynced name written hholds
  obtain rfl : file = written := by
    cases file
    cases written
    simp_all
  exact hholds

end Directory

end Lib
