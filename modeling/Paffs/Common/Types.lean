import Mathlib

/-! The common data types of the file system: results, addresses, inodes and
the sizes that are fixed when a device configuration is compiled. -/
namespace Paffs

inductive Result where
  | ok | biterrorCorrected | biterrorNotCorrected | notFound | exists | tooBig | invalidInput
  | nimpl | bug | noParent | noSpace | noPerm | lowMem | dirNotEmpty | badFlash | notMounted
  | alrMounted | objNameTooLong | readOnly | fail
  deriving DecidableEq, Repr

/-- Logical area and page of the area; `0` stands for "not written yet". -/
abbrev Addr := Nat
/-- All 32-bit values may occur as inode numbers. -/
abbrev InodeNo := UInt32
abbrev PageNo := Nat

inductive InodeType where
  | file | dir | lnk
  deriving DecidableEq, Repr

def directAddrCount : Nat := 11

structure Inode where
  no : InodeNo
  type : InodeType
  perm : Nat
  reservedPages : Nat
  size : Nat
  crea : Nat
  mod : Nat
  direct : Fin directAddrCount → Addr
  indir : Addr
  d_indir : Addr
  t_indir : Addr
  deriving DecidableEq

/-- The page-sized inode record with everything but its number cleared. -/
def Inode.empty (no : InodeNo) : Inode :=
  ⟨no, .file, 0, 0, 0, 0, 0, fun _ => 0, 0, 0, 0⟩

@[simp] theorem Inode.empty_no (no : InodeNo) : (Inode.empty no).no = no := rfl

/-- Compile-time sizes. A leaf of a tree node holds at least one inode, since the
array `pInodes[leafOrder]` cannot be empty; at least two tree nodes are cached. -/
structure Config where
  dataBytesPerPage : Nat
  treeNodeCacheSize : Nat
  oneInodeFits : 98 ≤ dataBytesPerPage
  twoNodesCached : 2 ≤ treeNodeCacheSize

namespace Config
variable (c : Config)

def sizeofAddr : Nat := 4
def sizeofInodeNo : Nat := 4
/-- `sizeof(Inode)`, with the four bytes of padding before `crea`. -/
def sizeofInode : Nat := 88

def branchOrder : Nat := (c.dataBytesPerPage - sizeofAddr - 1 - 1) / (sizeofAddr + sizeofInodeNo)
def leafOrder : Nat := (c.dataBytesPerPage - sizeofAddr - 1 - 1) / (sizeofInode + sizeofInodeNo)
def addrsPerPage : Nat := c.dataBytesPerPage / sizeofAddr

theorem leafOrder_pos : 1 ≤ c.leafOrder := by
  have h := c.oneInodeFits
  simp only [leafOrder, sizeofAddr, sizeofInode, sizeofInodeNo]
  omega

theorem three_le_branchOrder : 3 ≤ c.branchOrder := by
  have h := c.oneInodeFits
  simp only [branchOrder, sizeofAddr, sizeofInodeNo]
  omega

theorem addrsPerPage_pos : 0 < c.addrsPerPage := by
  have h := c.oneInodeFits
  simp only [addrsPerPage, sizeofAddr]
  omega

/-- The configuration under `config/default`: 512-byte pages and five cached tree nodes. -/
def default : Config := ⟨512, 5, by decide, by decide⟩

example : default.leafOrder = 5 ∧ default.branchOrder = 63 ∧ default.addrsPerPage = 128 := by decide

end Config
end Paffs
