import Paffs.Lib.Layout
import Paffs.Persistence.Entry

/-! The classes of the entries as objects in memory, and what `getSizeFromJE` makes of them. -/
namespace Paffs.Persistence
open Bytes Bytes.Memory Enumeration

abbrev u8 : Slot := (1, 1)
abbrev u16 : Slot := (2, 2)
abbrev u32 : Slot := (4, 4)
abbrev u64 : Slot := (8, 8)
/-- Takes no room; the class that follows starts at a multiple of eight. -/
abbrev mark64 : Slot := (0, 8)

/-! ### Classes, each with its base class in front -/
namespace Shape

def journalEntry : List Slot := [u8]
def checkpoint := journalEntry ++ [u8]

def pagestate := journalEntry ++ [u8, u8]
def replacePage := pagestate ++ [u32, u32]
def replacePagePos := pagestate ++ [u32, u32, u32, u32]
def success := pagestate
def invalidateOldPages := pagestate

def superblock := journalEntry ++ [u8]
def rootnode := superblock ++ [u32]
def areaMap := superblock ++ [u16, u8]
def areaMapType := areaMap ++ [u8]
def areaMapStatus := areaMap ++ [u8]
def increaseErasecount := areaMap
def areaMapPosition := areaMap ++ [u16]
def areaMapSwap := areaMap ++ [u16]
def activeArea := superblock ++ [u8, u16]
def usedAreas := superblock ++ [u16]

def areaMgmt := journalEntry ++ [u16, u8]
def initAreaAs := areaMgmt ++ [u8]
def closeArea := areaMgmt
def retireArea := areaMgmt
def deleteAreaContents := areaMgmt ++ [u16]
def deleteArea := areaMgmt

def garbageCollection := journalEntry ++ [u8]
def moveValidData := garbageCollection ++ [u16]

def summaryCache := journalEntry ++ [u16, u8]
def commit := summaryCache
def remove := summaryCache
def resetASWritten := summaryCache
def setStatus := summaryCache ++ [u16, u8]
def setStatusBlock (n : Nat) := summaryCache ++ [(n, 1)]

def inode : List Slot :=
  [mark64, u32, u8, u8, u16, u32, u64, u64] ++ List.replicate directAddrCount u32 ++ [u32, u32, u32]

def btree := journalEntry ++ [u8]
def btreeInsert := btree ++ inode
def btreeUpdate := btree ++ inode
def btreeRemove := btree ++ [u32]

def pac := journalEntry ++ [u8]
def setAddress := pac ++ [u32, u16, u32]

def dataIo := journalEntry ++ [u8]
def newInodeSize := dataIo ++ [u32, u32]

def device := journalEntry ++ [u8]
def mkObjInode := device ++ [u32]
def insertIntoDir := device ++ [u32]
def removeObj := device ++ [u32, u32]

/-- The members of `journalEntry::Max`. -/
def all (n : Nat) : List (List Slot) :=
  [journalEntry, checkpoint, pagestate, replacePage, replacePagePos, success, invalidateOldPages, superblock, rootnode,
   areaMap, areaMapType, areaMapStatus, increaseErasecount, areaMapPosition, areaMapSwap, activeArea, usedAreas, areaMgmt,
   initAreaAs, closeArea, retireArea, deleteAreaContents, deleteArea, garbageCollection, moveValidData, btree, btreeInsert,
   btreeUpdate, btreeRemove, summaryCache, commit, remove, setStatus, setStatusBlock n, pac, setAddress, dataIo,
   newInodeSize, device, mkObjInode, insertIntoDir, removeObj]

end Shape

def sizeofMax (n : Nat) : Nat :=
  alignUp (((Shape.all n).map sizeof).foldr max 0) (((Shape.all n).map alignment).foldr max 1)

/-! ### Objects -/

abbrev byte (x : Word 1) : Member := ⟨1, 1, x⟩
abbrev half (x : Word 2) : Member := ⟨2, 2, x⟩
abbrev word (x : Word 4) : Member := ⟨4, 4, x⟩
abbrev long (x : Word 8) : Member := ⟨8, 8, x⟩
abbrev mark : Member := ⟨0, 8, Word.ofNat 0 0⟩

/-- What the fields leave open: the bytes between them, and the five bits beside `perm`. -/
structure Padding where
  memory : Memory
  besidePerm : BitVec 5

/-- `Permission perm : 3` takes the low bits of its byte. -/
def permByte (beside : BitVec 5) (perm : BitVec 3) : Word 1 := beside ++ perm

def permOf (b : Word 1) : BitVec 3 := BitVec.setWidth 3 b

@[simp] theorem permOf_permByte (beside : BitVec 5) (perm : BitVec 3) : permOf (permByte beside perm) = perm :=
  BitVec.setWidth_append_eq_right

def areaMapMembers (offs : AreaPos) (operation : AreaMapOperation) : List Member :=
  [byte (code Topic.superblock), byte (code SuperblockType.areaMap), half offs, byte (code operation)]

def areaMgmtMembers (area : AreaPos) (operation : AreaMgmtOperation) : List Member :=
  [byte (code Topic.areaMgmt), half area, byte (code operation)]

def summaryCacheMembers (area : AreaPos) (subtype : SummaryCacheSubtype) : List Member :=
  [byte (code Topic.summaryCache), half area, byte (code subtype)]

def inodeMembers (besidePerm : BitVec 5) (i : Inode) : List Member :=
  [mark, word i.no, byte (code i.type), byte (permByte besidePerm i.perm), half i.reservedPages, word i.size,
   long i.crea, long i.mod] ++ (List.ofFn fun k => word (i.direct k)) ++ [word i.indir, word i.d_indir, word i.t_indir]

def members {n : Nat} (besidePerm : BitVec 5) : Entry n → List Member
  | .checkpoint target => [byte (code Topic.checkpoint), byte (code target)]
  | .pagestate target entry => [byte (code Topic.pagestate), byte (code target)] ++
    match entry with
    | .replacePage neu old => [byte (code PagestateType.replacePage), word neu, word old]
    | .replacePagePos neu old nod pos =>
      [byte (code PagestateType.replacePagePos), word neu, word old, word nod, word pos]
    | .success => [byte (code PagestateType.success)]
    | .invalidateOldPages => [byte (code PagestateType.invalidateOldPages)]
  | .superblock entry =>
    match entry with
    | .rootnode addr => [byte (code Topic.superblock), byte (code SuperblockType.rootnode), word addr]
    | .areaMap offs operation =>
      match operation with
      | .type type => areaMapMembers offs .type ++ [byte (code type)]
      | .status status => areaMapMembers offs .status ++ [byte (code status)]
      | .increaseErasecount => areaMapMembers offs .increaseErasecount
      | .position position => areaMapMembers offs .position ++ [half position]
      | .swap b => areaMapMembers offs .swap ++ [half b]
    | .activeArea type area =>
      [byte (code Topic.superblock), byte (code SuperblockType.activeArea), byte (code type), half area]
    | .usedAreas usedAreas => [byte (code Topic.superblock), byte (code SuperblockType.usedAreas), half usedAreas]
  | .areaMgmt area operation =>
    match operation with
    | .initAreaAs type => areaMgmtMembers area .initAreaAs ++ [byte (code type)]
    | .closeArea => areaMgmtMembers area .closeArea
    | .retireArea => areaMgmtMembers area .retireArea
    | .deleteAreaContents swappedArea => areaMgmtMembers area .deleteAreaContents ++ [half swappedArea]
    | .deleteArea => areaMgmtMembers area .deleteArea
  | .moveValidData source => [byte (code Topic.garbage), byte (code GarbageOperation.moveValidData), half source]
  | .summaryCache area entry =>
    match entry with
    | .commit => summaryCacheMembers area .commit
    | .remove => summaryCacheMembers area .remove
    | .reset => summaryCacheMembers area .reset
    | .setStatus page status => summaryCacheMembers area .setStatus ++ [half page, byte (code status)]
    | .setStatusBlock status => summaryCacheMembers area .setStatusBlock ++ [⟨n, 1, status⟩]
  | .btree op => byte (code Topic.tree) ::
    match op with
    | .insert inode => byte (code BTreeOperation.insert) :: inodeMembers besidePerm inode
    | .update inode => byte (code BTreeOperation.update) :: inodeMembers besidePerm inode
    | .remove no => [byte (code BTreeOperation.remove), word no]
  | .setAddress inodeNo page addr =>
    [byte (code Topic.pac), byte (code PacOperation.setAddress), word inodeNo, half page, word addr]
  | .newInodeSize inodeNo filesize =>
    [byte (code Topic.dataIo), byte (code DataIoOperation.newInodeSize), word inodeNo, word filesize]
  | .device action => byte (code Topic.device) ::
    match action with
    | .mkObjInode inode => [byte (code DeviceAction.mkObjInode), word inode]
    | .insertIntoDir dirInode => [byte (code DeviceAction.insertIntoDir), word dirInode]
    | .removeObj obj parDir => [byte (code DeviceAction.removeObj), word obj, word parDir]

def object {n : Nat} (pad : Padding) (e : Entry n) : Memory := pad.memory.store 0 (members pad.besidePerm e)

/-! ### Reading an object through its topic and type fields -/

def nextCode (α : Type) [DecidableEq α] [Enumeration α] (m : Memory) : Reader α := do
  let b ← next m 1 1
  ofCode α b

def getSizeFromJE (n : Nat) (m : Memory) : Nat :=
  let size : Reader Nat := do
    match ← nextCode Topic m with
    | .invalid => return 0
    | .checkpoint => return sizeof Shape.checkpoint
    | .pagestate =>
      let _ ← next m 1 1
      match ← nextCode PagestateType m with
      | .replacePage => return sizeof Shape.replacePage
      | .replacePagePos => return sizeof Shape.replacePagePos
      | .success => return sizeof Shape.success
      | .invalidateOldPages => return sizeof Shape.invalidateOldPages
    | .superblock =>
      match ← nextCode SuperblockType m with
      | .rootnode => return sizeof Shape.rootnode
      | .areaMap =>
        let _ ← next m 2 2
        match ← nextCode AreaMapOperation m with
        | .type => return sizeof Shape.areaMapType
        | .status => return sizeof Shape.areaMapStatus
        | .increaseErasecount => return sizeof Shape.increaseErasecount
        -- the source names the wrong class here
        | .position => return sizeof Shape.areaMapType
        | .swap => return sizeof Shape.areaMapSwap
      | .activeArea => return sizeof Shape.activeArea
      | .usedAreas => return sizeof Shape.usedAreas
    | .areaMgmt =>
      let _ ← next m 2 2
      match ← nextCode AreaMgmtOperation m with
      | .initAreaAs => return sizeof Shape.initAreaAs
      | .closeArea => return sizeof Shape.closeArea
      | .retireArea => return sizeof Shape.retireArea
      | .deleteAreaContents => return sizeof Shape.deleteAreaContents
      | .deleteArea => return sizeof Shape.deleteArea
    | .garbage =>
      match ← nextCode GarbageOperation m with
      | .moveValidData => return sizeof Shape.moveValidData
    | .summaryCache =>
      let _ ← next m 2 2
      match ← nextCode SummaryCacheSubtype m with
      | .commit => return sizeof Shape.commit
      | .remove => return sizeof Shape.remove
      | .reset => return sizeof Shape.resetASWritten
      | .setStatus => return sizeof Shape.setStatus
      | .setStatusBlock => return sizeof (Shape.setStatusBlock n)
    | .tree =>
      match ← nextCode BTreeOperation m with
      | .insert => return sizeof Shape.btreeInsert
      | .update => return sizeof Shape.btreeUpdate
      | .remove => return sizeof Shape.btreeRemove
    | .pac =>
      match ← nextCode PacOperation m with
      | .setAddress => return sizeof Shape.setAddress
    | .dataIo =>
      match ← nextCode DataIoOperation m with
      | .newInodeSize => return sizeof Shape.newInodeSize
    | .device =>
      match ← nextCode DeviceAction m with
      | .mkObjInode => return sizeof Shape.mkObjInode
      | .insertIntoDir => return sizeof Shape.insertIntoDir
      | .removeObj => return sizeof Shape.removeObj
  -- no case of the switches: `return 0`; the result is an `uint16_t`
  ((size.run' 0).getD 0) % 2 ^ 16

def inodeView (m : Memory) : Reader Inode := do
  let _ ← next m 0 8
  let no ← next m 4 4
  let type ← nextCode InodeType m
  let perm ← next m 1 1
  let reservedPages ← next m 2 2
  let size ← next m 4 4
  let crea ← next m 8 8
  let mod ← next m 8 8
  let direct ← nextAll m 4 4 directAddrCount
  let indir ← next m 4 4
  let d_indir ← next m 4 4
  let t_indir ← next m 4 4
  return ⟨no, type, permOf perm, reservedPages, size, crea, mod, direct, indir, d_indir, t_indir⟩

/-- The entry whose fields the bytes hold, as the topics see it when they cast to the class its type fields name. -/
def view (n : Nat) (m : Memory) : Option (Entry n) :=
  let entry : Reader (Entry n) := do
    match ← nextCode Topic m with
    | .invalid => failure
    | .checkpoint => return .checkpoint (← nextCode Topic m)
    | .pagestate =>
      let target ← nextCode Topic m
      match ← nextCode PagestateType m with
      | .replacePage => return .pagestate target (.replacePage (← next m 4 4) (← next m 4 4))
      | .replacePagePos =>
        return .pagestate target (.replacePagePos (← next m 4 4) (← next m 4 4) (← next m 4 4) (← next m 4 4))
      | .success => return .pagestate target .success
      | .invalidateOldPages => return .pagestate target .invalidateOldPages
    | .superblock =>
      match ← nextCode SuperblockType m with
      | .rootnode => return .superblock (.rootnode (← next m 4 4))
      | .areaMap =>
        let offs ← next m 2 2
        match ← nextCode AreaMapOperation m with
        | .type => return .superblock (.areaMap offs (.type (← nextCode AreaType m)))
        | .status => return .superblock (.areaMap offs (.status (← nextCode AreaStatus m)))
        | .increaseErasecount => return .superblock (.areaMap offs .increaseErasecount)
        | .position => return .superblock (.areaMap offs (.position (← next m 2 2)))
        | .swap => return .superblock (.areaMap offs (.swap (← next m 2 2)))
      | .activeArea => return .superblock (.activeArea (← nextCode AreaType m) (← next m 2 2))
      | .usedAreas => return .superblock (.usedAreas (← next m 2 2))
    | .areaMgmt =>
      let area ← next m 2 2
      match ← nextCode AreaMgmtOperation m with
      | .initAreaAs => return .areaMgmt area (.initAreaAs (← nextCode AreaType m))
      | .closeArea => return .areaMgmt area .closeArea
      | .retireArea => return .areaMgmt area .retireArea
      | .deleteAreaContents => return .areaMgmt area (.deleteAreaContents (← next m 2 2))
      | .deleteArea => return .areaMgmt area .deleteArea
    | .garbage =>
      match ← nextCode GarbageOperation m with
      | .moveValidData => return .moveValidData (← next m 2 2)
    | .summaryCache =>
      let area ← next m 2 2
      match ← nextCode SummaryCacheSubtype m with
      | .commit => return .summaryCache area .commit
      | .remove => return .summaryCache area .remove
      | .reset => return .summaryCache area .reset
      | .setStatus => return .summaryCache area (.setStatus (← next m 2 2) (← nextCode SummaryEntry m))
      | .setStatusBlock => return .summaryCache area (.setStatusBlock (← next m n 1))
    | .tree =>
      match ← nextCode BTreeOperation m with
      | .insert => return .btree (.insert (← inodeView m))
      | .update => return .btree (.update (← inodeView m))
      | .remove => return .btree (.remove (← next m 4 4))
    | .pac =>
      match ← nextCode PacOperation m with
      | .setAddress => return .setAddress (← next m 4 4) (← next m 2 2) (← next m 4 4)
    | .dataIo =>
      match ← nextCode DataIoOperation m with
      | .newInodeSize => return .newInodeSize (← next m 4 4) (← next m 4 4)
    | .device =>
      match ← nextCode DeviceAction m with
      | .mkObjInode => return .device (.mkObjInode (← next m 4 4))
      | .insertIntoDir => return .device (.insertIntoDir (← next m 4 4))
      | .removeObj => return .device (.removeObj (← next m 4 4) (← next m 4 4))
  entry.run' 0

end Paffs.Persistence
