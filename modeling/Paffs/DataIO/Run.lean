import Paffs.DataIO.Bytes

/-! Runs of writes on a file. -/
namespace Paffs.DataIO
open Bytes (Byte Memory)
variable {c : Config} {env : Env}

/-- What a file is for: so many bytes. -/
structure ByteArray where
  size : Nat
  content : Memory

structure Write where
  offs : Nat
  bytes : Nat
  data : Memory

namespace ByteArray

def empty : ByteArray := ⟨0, fun _ => 0⟩

/-- Bytes that were never written are zero. -/
def write (f : ByteArray) (w : Write) : ByteArray where
  size := max f.size (w.offs + w.bytes)
  content := State.overwrite f.content f.size w.offs w.bytes w.data

end ByteArray

namespace State
variable {s : State}

def write (c : Config) (env : Env) (s : State) (w : Write) : State := (s.writeInodeData c env w.offs w.bytes w.data).2

/-- All calls of the run return `ok`. -/
def AllOk (c : Config) (env : Env) : List Write → State → Prop
  | [], _ => True
  | w :: ws, s => (s.writeInodeData c env w.offs w.bytes w.data).1.1 = .ok ∧ AllOk c env ws (s.write c env w)

/-- The write leaves no gap inside a page that is on flash, and all its pages fit the list of the state machine. -/
def Keeps (c : Config) (s : State) (w : Write) : Prop :=
  s.NoGap c w.offs ∧ w.offs + w.bytes < 2 ^ 32 ∧
    lastPage c (w.offs + w.bytes) < w.offs / c.dataBytesPerPage + c.maxPagesPerWrite

/-- Every write of the run does. -/
def AllKeep (c : Config) (env : Env) : List Write → State → Prop
  | [], _ => True
  | w :: ws, s => Keeps c s w ∧ AllKeep c env ws (s.write c env w)

/-- A file nothing was written to. -/
structure Empty (s : State) : Prop where
  size : s.size = 0
  page : ∀ p, s.page p = 0
  replaced : s.replaced = []

theorem Empty.sound (h : s.Empty) : s.Sound c env where
  used p hp := absurd (h.page p) hp
  injective p _ hp := absurd (h.page p) hp
  beyond p hp := absurd (h.page p) hp
  size_lt := by rw [h.size]; exact Nat.two_pow_pos 32
  addressable := by rw [h.size]; exact Nat.zero_le _
  replaced := h.replaced

/-- The file holds the bytes of the array. -/
structure Holds (c : Config) (env : Env) (s : State) (f : ByteArray) : Prop where
  sound : s.Sound c env
  size_eq : s.size = f.size
  byteAt_eq : ∀ i < f.size, s.byteAt c i = f.content i

theorem Holds.write {f : ByteArray} (h : s.Holds c env f) {w : Write} (hkeeps : Keeps c s w)
    (hok : (s.writeInodeData c env w.offs w.bytes w.data).1.1 = .ok) : (s.write c env w).Holds c env (f.write w) := by
  obtain ⟨hsound, hsize, hbytes, -⟩ := writeInodeData_ok h.sound hkeeps.1 hkeeps.2.1 hkeeps.2.2 hok
  refine ⟨hsound, hsize.trans (by rw [h.size_eq]; rfl), fun i hi => ?_⟩
  have hi' : i < (s.writeInodeData c env w.offs w.bytes w.data).2.size := by
    rw [hsize, h.size_eq]
    exact hi
  refine (hbytes i hi').trans ?_
  change overwrite _ _ _ _ _ _ = overwrite _ _ _ _ _ _
  unfold overwrite
  rw [h.size_eq]
  split_ifs with hin hold
  · rfl
  · exact h.byteAt_eq i hold
  · rfl

theorem Holds.all {f : ByteArray} (h : s.Holds c env f) (ws : List Write) (hok : AllOk c env ws s)
    (hkeep : AllKeep c env ws s) : (ws.foldl (State.write c env) s).Holds c env (ws.foldl ByteArray.write f) := by
  induction ws generalizing s f with
  | nil => exact h
  | cons w ws ih => exact ih (h.write hkeep.1 hok.1) hok.2 hkeep.2

instance (w : Write) : Decidable (Keeps c s w) := inferInstanceAs (Decidable ((_ ∨ _ ∨ _) ∧ _ ∧ _))

/-- Pages of four bytes. -/
def fourBytes : Config := ⟨4, 4, by decide, by decide, by decide⟩

/-- Each page is the next one. -/
def nextPage : Env where
  findFreePage n used := if used (n + 1) then .error .noSpace else .ok (n + 1)
  outcome _ := .ok
  addressable := 100
  addressable_pos := by decide
  free := by
    intro n used a h
    split at h
    · cases h
    · rename_i hfree
      cases h
      exact ⟨Nat.succ_ne_zero n, by simpa using hfree⟩
  failed := by
    intro n used r h
    split at h
    · cases h
      decide
    · cases h

def newFile : State := ⟨0, 0, fun _ => 0, fun _ _ => 0xFF, fun _ => false, [], 0⟩

theorem newFile_empty : newFile.Empty := ⟨rfl, fun _ => rfl, rfl⟩

def sevens (offs bytes : Nat) : Write := ⟨offs, bytes, fun _ => 7⟩

end State
end Paffs.DataIO
