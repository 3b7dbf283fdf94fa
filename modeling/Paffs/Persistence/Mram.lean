import Paffs.Common.Types
import Paffs.Persistence.Layout

/-! The log in magnetoresistive RAM: a high water mark in the first four bytes, the entries behind it. -/
namespace Paffs.Persistence
open Bytes Bytes.Memory

/-- What a device is compiled for. -/
structure MramConfig where
  dataPagesPerArea : Word 2
  mramSize : Word 4
  reservedLogsize : Nat
  mramSize_mod : mramSize.toNat % 512 = 0

/-- `TwoBitList<dataPagesPerArea>::byteUsage` -/
def MramConfig.byteUsage (c : MramConfig) : Nat := (c.dataPagesPerArea.toNat + 3) / 4

/-- The configuration under `config/default`. -/
def MramConfig.default : MramConfig := ⟨Word.ofNat 2 127, Word.ofNat 4 (4096 * 512), 4096, by decide⟩

structure MramPersistence where
  mram : Memory
  curr : Nat

namespace MramPersistence
variable (c : MramConfig) (s : MramPersistence)

def sizeofPageAbs : Nat := 4

def rewind : MramPersistence := { s with curr := sizeofPageAbs }

def clear : MramPersistence where
  mram := s.mram.writeWord 0 4 (Word.ofNat 4 sizeofPageAbs)
  curr := sizeofPageAbs

def isLowMem : Bool := c.mramSize.toNat ≠ 0 ∧ c.mramSize.toNat - s.curr < c.reservedLogsize

/-- `entry` is the object that is passed by reference. -/
def appendEntry (entry : Memory) : Result × MramPersistence :=
  if s.curr + sizeofMax c.byteUsage > c.mramSize.toNat then (.noSpace, s)
  else
    let size := getSizeFromJE c.byteUsage entry
    let curr := s.curr + size
    let s' := ⟨(s.mram.write s.curr (entry.read 0 size)).writeWord 0 4 (Word.ofNat 4 curr), curr⟩
    (if isLowMem c s' then .lowMem else .ok, s')

def hwm : Nat := (s.mram.readWord 0 4).toNat

/-- The bytes that are copied into `journalEntry::Max`. -/
def fetched : Memory := fun i => if i < sizeofMax c.byteUsage then s.mram (s.curr + i) else 0

def readNextElem : Except Result (Memory × MramPersistence) :=
  if s.hwm = 2 ^ 32 - 1 ∨ s.curr ≥ s.hwm then .error .notFound
  else
    let entry := fetched c s
    let size := getSizeFromJE c.byteUsage entry
    if size = 0 then .error .fail else .ok (entry, { s with curr := s.curr + size })

/-! ### Whole logs -/

/-- The entries one after the other, none of them refused for lack of space. -/
def appendAll : MramPersistence → List Memory → Option MramPersistence
  | s, [] => some s
  | s, entry :: rest =>
    let (r, s') := appendEntry c s entry
    if r = .noSpace then none else appendAll s' rest

/-- Elements until `notFound`; `none` on any other result or when the fuel runs out. -/
def readAll : Nat → MramPersistence → Option (List Memory)
  | 0, _ => none
  | fuel + 1, s =>
    match readNextElem c s with
    | .error .notFound => some []
    | .error _ => none
    | .ok (entry, s') => (readAll fuel s').map (entry :: ·)

end MramPersistence
end Paffs.Persistence
