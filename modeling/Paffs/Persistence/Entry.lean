import Paffs.Lib.Bytes
import Mathlib.Data.List.OfFn

/-! The journal's entries, and what they look like in memory. -/
namespace Paffs.Persistence
open Bytes Bytes.Memory

abbrev Addr := Word 4
abbrev AreaPos := Word 2
abbrev PageOffs := Word 2
abbrev PageAbs := Word 4
abbrev InodeNo := Word 4
abbrev FileSize := Word 4

/-! ### Enumerations -/

/-- The values in order; the first one is stored as 0. -/
class Enumeration (α : Type) [DecidableEq α] where
  values : List α
  complete : ∀ x, x ∈ values
  small : values.length ≤ 256

namespace Enumeration
variable {α : Type} [DecidableEq α] [Enumeration α]

def code (x : α) : Word 1 := Word.ofNat 1 ((values : List α).idxOf x)

def ofCode (α : Type) [DecidableEq α] [Enumeration α] (b : Word 1) : Option α := (values : List α)[b.toNat]?

@[simp] theorem ofCode_code (x : α) : ofCode α (code x) = some x := by
  have hlt := List.idxOf_lt_length_of_mem (complete x)
  have hsmall : (values : List α).length ≤ 256 := small
  rw [ofCode, code, Word.toNat_ofNat (by omega), List.getElem?_eq_getElem hlt, List.getElem_idxOf hlt]

end Enumeration

inductive Topic where
  | invalid | checkpoint | pagestate | superblock | areaMgmt | garbage | summaryCache | tree | dataIo | pac | device
  deriving DecidableEq, Repr

inductive AreaType where
  | unset | superblock | journal | index | data | garbageBuffer | retired | no
  deriving DecidableEq, Repr

inductive AreaStatus where
  | closed | active | empty
  deriving DecidableEq, Repr

inductive SummaryEntry where
  | free | used | dirty | error
  deriving DecidableEq, Repr

def directAddrCount : Nat := 11

inductive InodeType where
  | file | dir | lnk
  deriving DecidableEq, Repr

/-- `Pagestate::Type` -/
inductive PagestateType where
  | replacePage | replacePagePos | success | invalidateOldPages
  deriving DecidableEq, Repr

/-- `Superblock::Type` -/
inductive SuperblockType where
  | rootnode | areaMap | activeArea | usedAreas
  deriving DecidableEq, Repr

/-- `AreaMap::Operation` -/
inductive AreaMapOperation where
  | type | status | increaseErasecount | position | swap
  deriving DecidableEq, Repr

/-- `AreaMgmt::Operation` -/
inductive AreaMgmtOperation where
  | initAreaAs | closeArea | retireArea | deleteAreaContents | deleteArea
  deriving DecidableEq, Repr

/-- `GarbageCollection::Operation` -/
inductive GarbageOperation where
  | moveValidData
  deriving DecidableEq, Repr

/-- `SummaryCache::Subtype` -/
inductive SummaryCacheSubtype where
  | commit | remove | reset | setStatus | setStatusBlock
  deriving DecidableEq, Repr

/-- `BTree::Operation` -/
inductive BTreeOperation where
  | insert | update | remove
  deriving DecidableEq, Repr

/-- `PAC::Operation` -/
inductive PacOperation where
  | setAddress
  deriving DecidableEq, Repr

/-- `DataIO::Operation` -/
inductive DataIoOperation where
  | newInodeSize
  deriving DecidableEq, Repr

/-- `Device::Action` -/
inductive DeviceAction where
  | mkObjInode | insertIntoDir | removeObj
  deriving DecidableEq, Repr

instance : Enumeration Topic where
  values := [.invalid, .checkpoint, .pagestate, .superblock, .areaMgmt, .garbage, .summaryCache, .tree, .dataIo, .pac, .device]
  complete x := by cases x <;> decide
  small := by decide

instance : Enumeration AreaType where
  values := [.unset, .superblock, .journal, .index, .data, .garbageBuffer, .retired, .no]
  complete x := by cases x <;> decide
  small := by decide

instance : Enumeration AreaStatus where
  values := [.closed, .active, .empty]
  complete x := by cases x <;> decide
  small := by decide

instance : Enumeration SummaryEntry where
  values := [.free, .used, .dirty, .error]
  complete x := by cases x <;> decide
  small := by decide

instance : Enumeration InodeType where
  values := [.file, .dir, .lnk]
  complete x := by cases x <;> decide
  small := by decide

instance : Enumeration PagestateType where
  values := [.replacePage, .replacePagePos, .success, .invalidateOldPages]
  complete x := by cases x <;> decide
  small := by decide

instance : Enumeration SuperblockType where
  values := [.rootnode, .areaMap, .activeArea, .usedAreas]
  complete x := by cases x <;> decide
  small := by decide

instance : Enumeration AreaMapOperation where
  values := [.type, .status, .increaseErasecount, .position, .swap]
  complete x := by cases x <;> decide
  small := by decide

instance : Enumeration AreaMgmtOperation where
  values := [.initAreaAs, .closeArea, .retireArea, .deleteAreaContents, .deleteArea]
  complete x := by cases x <;> decide
  small := by decide

instance : Enumeration GarbageOperation where
  values := [.moveValidData]
  complete x := by cases x; decide
  small := by decide

instance : Enumeration SummaryCacheSubtype where
  values := [.commit, .remove, .reset, .setStatus, .setStatusBlock]
  complete x := by cases x <;> decide
  small := by decide

instance : Enumeration BTreeOperation where
  values := [.insert, .update, .remove]
  complete x := by cases x <;> decide
  small := by decide

instance : Enumeration PacOperation where
  values := [.setAddress]
  complete x := by cases x; decide
  small := by decide

instance : Enumeration DataIoOperation where
  values := [.newInodeSize]
  complete x := by cases x; decide
  small := by decide

instance : Enumeration DeviceAction where
  values := [.mkObjInode, .insertIntoDir, .removeObj]
  complete x := by cases x <;> decide
  small := by decide

/-! ### Entries -/

structure Inode where
  no : InodeNo
  type : InodeType
  perm : BitVec 3
  reservedPages : Word 2
  size : FileSize
  crea : Word 8
  mod : Word 8
  direct : Fin directAddrCount → Addr
  indir : Addr
  d_indir : Addr
  t_indir : Addr

inductive Pagestate where
  | replacePage (neu old : Addr)
  | replacePagePos (neu old : Addr) (nod : InodeNo) (pos : PageAbs)
  | success
  | invalidateOldPages

inductive AreaMap where
  | type (type : AreaType)
  | status (status : AreaStatus)
  | increaseErasecount
  | position (position : AreaPos)
  | swap (b : AreaPos)

inductive Superblock where
  | rootnode (addr : Addr)
  | areaMap (offs : AreaPos) (operation : AreaMap)
  | activeArea (type : AreaType) (area : AreaPos)
  | usedAreas (usedAreas : AreaPos)

inductive AreaMgmt where
  | initAreaAs (type : AreaType)
  | closeArea
  | retireArea
  | deleteAreaContents (swappedArea : AreaPos)
  | deleteArea

/-- `n` is the number of bytes that the statuses of an area take. -/
inductive SummaryCache (n : Nat) where
  | commit
  | remove
  | reset
  | setStatus (page : PageOffs) (status : SummaryEntry)
  | setStatusBlock (status : Word n)

inductive BTree where
  | insert (inode : Inode)
  | update (inode : Inode)
  | remove (no : InodeNo)

inductive Device where
  | mkObjInode (inode : InodeNo)
  | insertIntoDir (dirInode : InodeNo)
  | removeObj (obj parDir : InodeNo)

inductive Entry (n : Nat) where
  | checkpoint (target : Topic)
  | pagestate (target : Topic) (entry : Pagestate)
  | superblock (entry : Superblock)
  | areaMgmt (area : AreaPos) (operation : AreaMgmt)
  | moveValidData (source : AreaPos)
  | summaryCache (area : AreaPos) (entry : SummaryCache n)
  | btree (op : BTree)
  | setAddress (inodeNo : InodeNo) (page : PageOffs) (addr : Addr)
  | newInodeSize (inodeNo : InodeNo) (filesize : FileSize)
  | device (action : Device)

end Paffs.Persistence
