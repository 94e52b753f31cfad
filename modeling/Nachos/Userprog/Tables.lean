import Nachos.Machine.BitMap

/-!
# The tables of a user thread

`NachosOpenFilesTable` of `userprog/nachostabla.cc` and `NachosSems` of `userprog/NachosSems.cc`.
Both are an array with a bit map of the places in use; forked threads share them.  A semaphore is
its number in place of its address.
-/

namespace Nachos

open Function

abbrev MAX_FILES : ℕ := 128

abbrev MAX_SEMS : ℕ := 6

/-- The subscript `id` of an array of length `n`. -/
def subscript (n : ℕ) (id : ℤ) : Except Fault (Fin n) :=
  if h : 0 ≤ id ∧ id.toNat < n then .ok ⟨id.toNat, h.2⟩ else .error .wildAccess

theorem subscript_fin {n : ℕ} (x : Fin n) : subscript n (x : ℕ) = .ok x := by
  unfold subscript
  rw [dif_pos ⟨by omega, by simp⟩]
  simp

/-- `class NachosOpenFilesTable`. -/
structure NachosOpenFilesTable where
  openFiles : Fin MAX_FILES → ℤ
  openFilesMap : BitMap MAX_FILES
  usage : ℤ

namespace NachosOpenFilesTable

/-- `NachosOpenFilesTable::NachosOpenFilesTable`: the files of the console are open.  It leaves
`usage` as it is, and the words of the map are what was there. -/
def new (usage : ℤ) (words : ℕ → BitVec 32) : NachosOpenFilesTable where
  openFiles x := if (x : ℕ) < 3 then x else 0
  openFilesMap := (((BitMap.new MAX_FILES words).setBit 0).setBit 1).setBit 2
  usage := usage

/-- `isOpened`. -/
def isOpened (t : NachosOpenFilesTable) (NachosHandle : ℤ) : Bool :=
  if 0 ≤ NachosHandle ∧ NachosHandle < MAX_FILES then t.openFilesMap.isSet NachosHandle.toNat
  else false

/-- `Open`; the result is `-1` when the table is full. -/
def Open (t : NachosOpenFilesTable) (UnixHandle : ℤ) : ℤ × NachosOpenFilesTable :=
  match t.openFilesMap.find with
  | (some freeFile, openFilesMap) =>
    (freeFile, { t with
      openFiles := update t.openFiles freeFile UnixHandle
      openFilesMap := openFilesMap })
  | (none, _) => (-1, t)

/-- `Close`. -/
def Close (t : NachosOpenFilesTable) (NachosHandle : ℤ) : ℤ × NachosOpenFilesTable :=
  if t.isOpened NachosHandle then
    (0, { t with
      openFiles := fun x => if (x : ℤ) = NachosHandle then 0 else t.openFiles x
      openFilesMap := t.openFilesMap.clearBit NachosHandle.toNat })
  else (-1, t)

/-- `getUnixHandle`. -/
def getUnixHandle (t : NachosOpenFilesTable) (NachosHandle : ℤ) : ℤ :=
  if h : NachosHandle.toNat < MAX_FILES then
    if t.isOpened NachosHandle then t.openFiles ⟨NachosHandle.toNat, h⟩ else -1
  else -1

/-- `addThread`. -/
def addThread (t : NachosOpenFilesTable) : NachosOpenFilesTable := { t with usage := t.usage + 1 }

end NachosOpenFilesTable

/-- `class NachosSems`; `none` is the `-1` of a place that is not in use. -/
structure NachosSems where
  openSemsMap : BitMap MAX_SEMS
  semaphores : Fin MAX_SEMS → Option ℕ
  usage : ℤ

namespace NachosSems

/-- The place that a user's number means: `semaphores[id]` is outside the array if there is
none. -/
def place (id : ℤ) : Except Fault (Fin MAX_SEMS) := subscript MAX_SEMS id

/-- `registerSem`. -/
def registerSem (t : NachosSems) (s : ℕ) : ℤ × NachosSems :=
  match t.openSemsMap.find with
  | (some freeSemSpace, openSemsMap) =>
    (freeSemSpace, { t with
      openSemsMap := openSemsMap
      semaphores := update t.semaphores freeSemSpace (some s) })
  | (none, _) => (-1, t)

/-- `unRegisterSem`. -/
def unRegisterSem (t : NachosSems) (id : ℤ) : Except Fault (Option ℕ × NachosSems) := do
  let x ← place id
  match t.semaphores x with
  | some s => return (some s, { t with
      openSemsMap := ← t.openSemsMap.clear id
      semaphores := update t.semaphores x none })
  | none => return (none, t)

/-- `getNachosPointer`. -/
def getNachosPointer (t : NachosSems) (id : ℤ) : Except Fault (Option ℕ) := do
  let x ← place id
  return t.semaphores x

/-- `addSem`. -/
def addSem (t : NachosSems) : NachosSems := { t with usage := t.usage + 1 }

end NachosSems

end Nachos
