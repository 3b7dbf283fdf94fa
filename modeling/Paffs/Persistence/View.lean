import Paffs.Persistence.Layout
import Mathlib.Data.List.MinMax

/-! What is left of an entry when only the bytes that `getSizeFromJE` counts are kept. -/
namespace Paffs.Persistence
open Bytes Bytes.Memory Enumeration

variable {n : Nat}

/-- The class of an entry. -/
def shape : Entry n → List Slot
  | .checkpoint _ => Shape.checkpoint
  | .pagestate _ (.replacePage ..) => Shape.replacePage
  | .pagestate _ (.replacePagePos ..) => Shape.replacePagePos
  | .pagestate _ .success => Shape.success
  | .pagestate _ .invalidateOldPages => Shape.invalidateOldPages
  | .superblock (.rootnode _) => Shape.rootnode
  | .superblock (.areaMap _ (.type _)) => Shape.areaMapType
  | .superblock (.areaMap _ (.status _)) => Shape.areaMapStatus
  | .superblock (.areaMap _ .increaseErasecount) => Shape.increaseErasecount
  | .superblock (.areaMap _ (.position _)) => Shape.areaMapPosition
  | .superblock (.areaMap _ (.swap _)) => Shape.areaMapSwap
  | .superblock (.activeArea ..) => Shape.activeArea
  | .superblock (.usedAreas _) => Shape.usedAreas
  | .areaMgmt _ (.initAreaAs _) => Shape.initAreaAs
  | .areaMgmt _ .closeArea => Shape.closeArea
  | .areaMgmt _ .retireArea => Shape.retireArea
  | .areaMgmt _ (.deleteAreaContents _) => Shape.deleteAreaContents
  | .areaMgmt _ .deleteArea => Shape.deleteArea
  | .moveValidData _ => Shape.moveValidData
  | .summaryCache _ .commit => Shape.commit
  | .summaryCache _ .remove => Shape.remove
  | .summaryCache _ .reset => Shape.resetASWritten
  | .summaryCache _ (.setStatus ..) => Shape.setStatus
  | .summaryCache _ (.setStatusBlock _) => Shape.setStatusBlock n
  | .btree (.insert _) => Shape.btreeInsert
  | .btree (.update _) => Shape.btreeUpdate
  | .btree (.remove _) => Shape.btreeRemove
  | .setAddress .. => Shape.setAddress
  | .newInodeSize .. => Shape.newInodeSize
  | .device (.mkObjInode _) => Shape.mkObjInode
  | .device (.insertIntoDir _) => Shape.insertIntoDir
  | .device (.removeObj ..) => Shape.removeObj

/-- The members that `getSizeFromJE` counts. -/
def counted (besidePerm : BitVec 5) : Entry n → List Member
  | .superblock (.areaMap offs (.position _)) => areaMapMembers offs .position
  | e => members besidePerm e

def countedSize : Entry n → Nat
  | .superblock (.areaMap _ (.position _)) => sizeof Shape.areaMapType
  | e => sizeof (shape e)

/-- A position is read from the two bytes `behind` the counted ones. -/
def seen (behind : Word 2) : Entry n → Entry n
  | .superblock (.areaMap offs (.position _)) => .superblock (.areaMap offs (.position behind))
  | e => e

/-- The entry is read as it was written. -/
def Legible (behind : Word 2) : Entry n → Prop
  | .superblock (.areaMap _ (.position position)) => position = behind
  | _ => True

/-- Only positions are cut. -/
theorem position_or_whole (e : Entry n) : (∃ offs position, e = .superblock (.areaMap offs (.position position))) ∨
    ((∀ b, counted b e = members b e) ∧ countedSize e = sizeof (shape e) ∧ (∀ v, seen v e = e) ∧ ∀ v, Legible v e) := by
  cases e with
  | superblock entry =>
    cases entry with
    | areaMap offs operation =>
      cases operation with
      | position position => exact .inl ⟨offs, position, rfl⟩
      | _ => exact .inr ⟨fun _ => rfl, rfl, fun _ => rfl, fun _ => trivial⟩
    | _ => exact .inr ⟨fun _ => rfl, rfl, fun _ => rfl, fun _ => trivial⟩
  | _ => exact .inr ⟨fun _ => rfl, rfl, fun _ => rfl, fun _ => trivial⟩

theorem seen_eq_self_iff (behind : Word 2) (e : Entry n) : seen behind e = e ↔ Legible behind e := by
  rcases position_or_whole e with ⟨offs, position, rfl⟩ | ⟨-, -, hseen, hlegible⟩
  · simp [seen, Legible, eq_comm]
  · exact iff_of_true (hseen behind) (hlegible behind)

theorem slots_members (b : BitVec 5) (e : Entry n) : slots (members b e) = shape e := by
  cases e with
  | pagestate target entry => cases entry <;> rfl
  | superblock entry =>
    cases entry with
    | areaMap offs operation => cases operation <;> rfl
    | _ => rfl
  | areaMgmt area operation => cases operation <;> rfl
  | summaryCache area entry => cases entry <;> rfl
  | btree op => cases op <;> rfl
  | device action => cases action <;> rfl
  | _ => rfl

theorem members_align (b : BitVec 5) (e : Entry n) : ∀ x ∈ members b e, 0 < x.align := by
  have hshape : ∀ s ∈ shape e, 0 < s.2 := by
    unfold shape
    split
    case h_24 => simp [Shape.setStatusBlock, Shape.summaryCache, Shape.journalEntry]
    all_goals decide
  intro x hx
  refine hshape x.slot ?_
  rw [← slots_members b e]
  exact List.mem_map_of_mem hx

/-! ### The readers on stored members -/

theorem nextCode_run (α : Type) [DecidableEq α] [Enumeration α] (m : Memory) (a : Nat) :
    (nextCode α m).run a = (ofCode α (m.readWord (alignUp a 1) 1)).map fun x => (x, alignUp a 1 + 1) := by
  simp only [nextCode, StateT.run_bind, next_run, Option.bind_eq_bind, Option.bind_some]
  cases ofCode α (m.readWord (alignUp a 1) 1) with
  | none => rfl
  | some x => rfl

theorem getSizeFromJE_of_stored {m : Memory} {b : BitVec 5} {e : Entry n} (h : m.Stored 0 (counted b e)) :
    getSizeFromJE n m = countedSize e % 2 ^ 16 := by
  cases e with
  | checkpoint target =>
    simp [counted, members, Stored, alignUp] at h
    simp [getSizeFromJE, countedSize, shape, nextCode_run, h, alignUp]
  | pagestate target entry =>
    cases entry <;> simp [counted, members, Stored, alignUp] at h <;>
      simp [getSizeFromJE, countedSize, shape, next_run, nextCode_run, h, alignUp]
  | superblock entry =>
    cases entry with
    | areaMap offs operation =>
      cases operation <;> simp [counted, members, areaMapMembers, Stored, alignUp] at h <;>
        simp [getSizeFromJE, countedSize, shape, next_run, nextCode_run, h, alignUp]
    | _ =>
      simp [counted, members, Stored, alignUp] at h
      simp [getSizeFromJE, countedSize, shape, nextCode_run, h, alignUp]
  | areaMgmt area operation =>
    cases operation <;> simp [counted, members, areaMgmtMembers, Stored, alignUp] at h <;>
      simp [getSizeFromJE, countedSize, shape, next_run, nextCode_run, h, alignUp]
  | summaryCache area entry =>
    cases entry <;> simp [counted, members, summaryCacheMembers, Stored, alignUp] at h <;>
      simp [getSizeFromJE, countedSize, shape, next_run, nextCode_run, h, alignUp]
  | btree op =>
    cases op <;> simp [counted, members, inodeMembers, Stored, alignUp] at h <;>
      simp [getSizeFromJE, countedSize, shape, nextCode_run, h, alignUp]
  | device action =>
    cases action <;> simp [counted, members, Stored, alignUp] at h <;>
      simp [getSizeFromJE, countedSize, shape, nextCode_run, h, alignUp]
  | _ =>
    simp [counted, members, Stored, alignUp] at h
    simp [getSizeFromJE, countedSize, shape, nextCode_run, h, alignUp]

/-! ### The object as a whole -/

theorem counted_prefix (b : BitVec 5) (e : Entry n) : ∃ rest, members b e = counted b e ++ rest := by
  rcases position_or_whole e with ⟨offs, position, rfl⟩ | ⟨hcounted, -⟩
  · exact ⟨[half position], rfl⟩
  · exact ⟨[], by rw [hcounted, List.append_nil]⟩

theorem endOf_counted (b : BitVec 5) (e : Entry n) : endOf 0 (slots (counted b e)) ≤ countedSize e := by
  rcases position_or_whole e with ⟨offs, position, rfl⟩ | ⟨hcounted, hsize, -⟩
  · exact show endOf 0 Shape.areaMap ≤ sizeof Shape.areaMapType by decide
  · rw [hcounted, hsize, slots_members]
    exact endOf_le_sizeof _

theorem counted_stored {pad : Padding} {e : Entry n} {m : Memory} (h : ∀ i < countedSize e, m i = object pad e i) :
    m.Stored 0 (counted pad.besidePerm e) := by
  obtain ⟨rest, hrest⟩ := counted_prefix pad.besidePerm e
  have halign := members_align pad.besidePerm e
  have hall := store_stored halign pad.memory 0
  rw [hrest] at halign hall
  refine (stored_append.1 hall).1.congr (fun x hx => halign x (List.mem_append_left _ hx)) fun i _ hi => ?_
  rw [← hrest]
  exact h i (hi.trans_le (endOf_counted _ _))

theorem shape_mem_all (e : Entry n) : shape e ∈ Shape.all n := by
  unfold shape
  split <;> simp [Shape.all, Shape.resetASWritten, Shape.commit]

theorem setStatusBlock_size (n : Nat) : sizeof (Shape.setStatusBlock n) = (6 + n) / 2 * 2 := by
  simp [sizeof, Shape.setStatusBlock, Shape.summaryCache, Shape.journalEntry, endOf, alignUp, alignment]
  omega

/-- All classes but `SetStatusBlock` have a fixed size. -/
theorem countedSize_bounds (e : Entry n) : 2 ≤ countedSize e ∧ countedSize e ≤ max 96 (6 + n) := by
  have fixed : ∀ k, 2 ≤ k ∧ k ≤ 96 → 2 ≤ k ∧ k ≤ max 96 (6 + n) := fun k hk => ⟨hk.1, hk.2.trans (le_max_left _ _)⟩
  have hblock := setStatusBlock_size n
  rcases position_or_whole e with ⟨offs, position, rfl⟩ | ⟨-, hsize, -⟩
  · exact fixed (sizeof Shape.areaMapType) (by decide)
  · rw [hsize]
    unfold shape
    split
    case h_24 => omega
    all_goals exact fixed _ (by decide)

theorem countedSize_le_sizeofMax (e : Entry n) : countedSize e ≤ sizeofMax n := by
  have hmem : ∃ ss ∈ Shape.all n, countedSize e = sizeof ss := by
    rcases position_or_whole e with ⟨offs, position, rfl⟩ | ⟨-, hsize, -⟩
    · exact ⟨Shape.areaMapType, by simp [Shape.all], rfl⟩
    · exact ⟨shape e, shape_mem_all e, hsize⟩
  obtain ⟨ss, hss, hsize⟩ := hmem
  have halign : 0 < ((Shape.all n).map alignment).foldr max 1 := by
    rw [Shape.all, List.map_cons, List.foldr_cons]
    exact lt_max_of_lt_left (alignment_pos _)
  calc countedSize e = sizeof ss := hsize
    _ ≤ ((Shape.all n).map sizeof).foldr max 0 := List.le_max_of_le' 0 (List.mem_map_of_mem hss) le_rfl
    _ ≤ sizeofMax n := le_alignUp halign

theorem inodeView_of_stored {m : Memory} {b : BitVec 5} {i : Inode} (h : m.Stored 2 (inodeMembers b i)) :
    (inodeView m).run 2 = some (i, 96) := by
  rw [inodeMembers, stored_append, stored_append] at h
  obtain ⟨⟨hfront, hdirect⟩, hindirect⟩ := h
  have hend : endOf 40 (List.replicate directAddrCount (4, 4)) = 84 := rfl
  have hslots : slots (List.ofFn fun k => word (i.direct k)) = List.replicate directAddrCount (4, 4) := rfl
  simp only [slots, List.map_append, endOf_append, endOf, List.map_cons, List.map_nil, alignUp] at hfront hdirect hindirect
  rw [← slots, hslots, hend] at hindirect
  simp [Stored, alignUp] at hfront hindirect
  simp [inodeView, next_run, nextCode_run, nextAll_run hdirect, hend, hfront, hindirect, alignUp]

theorem view_of_stored {m : Memory} {b : BitVec 5} {e : Entry n} (h : m.Stored 0 (counted b e)) :
    view n m = some (seen (m.readWord (countedSize e) 2) e) := by
  have hposition : sizeof Shape.areaMapType = 6 := by decide
  cases e with
  | checkpoint target =>
    simp [counted, members, Stored, alignUp] at h
    simp [view, seen, nextCode_run, h, alignUp]
  | pagestate target entry =>
    cases entry <;> simp [counted, members, Stored, alignUp] at h <;>
      simp [view, seen, next_run, nextCode_run, h, alignUp]
  | superblock entry =>
    cases entry with
    | areaMap offs operation =>
      cases operation <;> simp [counted, members, areaMapMembers, Stored, alignUp] at h <;>
        simp [view, seen, countedSize, hposition, next_run, nextCode_run, h, alignUp]
    | _ =>
      simp [counted, members, Stored, alignUp] at h
      simp [view, seen, next_run, nextCode_run, h, alignUp]
  | areaMgmt area operation =>
    cases operation <;> simp [counted, members, areaMgmtMembers, Stored, alignUp] at h <;>
      simp [view, seen, next_run, nextCode_run, h, alignUp]
  | summaryCache area entry =>
    cases entry <;> simp [counted, members, summaryCacheMembers, Stored, alignUp] at h <;>
      simp [view, seen, next_run, nextCode_run, h, alignUp]
  | btree op =>
    cases op with
    | insert inode =>
      obtain ⟨htopic, hop, hinode⟩ := h
      have hrun := inodeView_of_stored hinode
      simp [alignUp] at htopic hop
      simp [view, seen, nextCode_run, htopic, hop, hrun, alignUp]
    | update inode =>
      obtain ⟨htopic, hop, hinode⟩ := h
      have hrun := inodeView_of_stored hinode
      simp [alignUp] at htopic hop
      simp [view, seen, nextCode_run, htopic, hop, hrun, alignUp]
    | remove no =>
      simp [counted, members, Stored, alignUp] at h
      simp [view, seen, next_run, nextCode_run, h, alignUp]
  | device action =>
    cases action <;> simp [counted, members, Stored, alignUp] at h <;>
      simp [view, seen, next_run, nextCode_run, h, alignUp]
  | _ =>
    simp [counted, members, Stored, alignUp] at h
    simp [view, seen, next_run, nextCode_run, h, alignUp]

end Paffs.Persistence
