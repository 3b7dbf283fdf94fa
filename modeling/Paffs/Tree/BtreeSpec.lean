import Paffs.Tree.DeleteSpec

/-! What each call of `Btree` does to a well-formed tree and to the inodes it holds. -/
namespace Paffs.Tree
open Tiling
variable {c : Config} {top h : Nat} {n : Node}

theorem findInLeaf_eq {m lo hi : Nat} {l : Leaf} (hl : LeafWF c m lo hi l) (key : Nat) :
    findInLeaf l key = (l.entries.lookup key).elim (.error .notFound) .ok := by
  have hpos : l.entries.findIdx (fun e => e.1 == key) = Ascending.position key l.entries := rfl
  rw [findInLeaf, hpos]
  cases he : l.entries[Ascending.position key l.entries]? with
  | some e =>
    have hlook := Ascending.lookup_of_getElem? hl.ascending he
    rw [Ascending.getElem?_position he] at hlook
    rw [hlook]
    rfl
  | none =>
    rw [Ascending.lookup_eq_none_of_ne (Ascending.ne_of_getElem?_position he)]
    rfl

/-- A search ends at the one leaf that may hold the number, or runs out of cache on its way. -/
theorem findLeaf_spec (hn : RootWF c top h n) {key : Nat} (hk : key < top) :
    findLeaf c key n = .error .lowMem ∨ ∃ l path lo hi, findLeaf c key n = .ok (l, path) ∧
      PathWF c top 0 lo hi path ∧ LeafWF c (need c 0 path) lo hi l ∧ lo ≤ key ∧ key < hi ∧
      n = root (.leaf l) path := by
  have hp : PathWF c top h 0 top [] := ⟨rfl, rfl⟩
  rcases findLeafFrom_spec key (c.treeNodeCacheSize - 2) hp hn (Nat.zero_le _) hk with he | he
  · exact .inl he
  · obtain ⟨l, path, lo, hi, he, hpath, hl, hlo, hhi, hroot⟩ := he
    exact .inr ⟨l, path, lo, hi, he, hpath, hl, hlo, hhi, hroot.symm⟩

section Place
variable {lo hi key : Nat} {l : Leaf} {path : List Parent} (hp : PathWF c top 0 lo hi path) (hlo : lo ≤ key)
  (hhi : key < hi)
include hp hlo hhi

/-- The number occurs in no other leaf. -/
theorem PathWF.lookup_root : (root (.leaf l) path).entries.lookup key = l.entries.lookup key := by
  obtain ⟨hb, ha⟩ := hp.outside
  rw [entries_root]
  exact Ascending.lookup_middle (fun e he => by have := hb e he; omega) fun e he => by have := ha e he; omega

/-- Changing a number in its leaf changes it in the tree. -/
theorem PathWF.lookup_replaced {v : Option Inode} {es : List Entry}
    (hes : ∀ k, es.lookup k = if k = key then v else l.entries.lookup k) (k : Nat) :
    (before path ++ es ++ after path).lookup k =
      if k = key then v else (root (.leaf l) path).entries.lookup k := by
  obtain ⟨hb, ha⟩ := hp.outside
  rw [entries_root]
  exact Ascending.lookup_replace (fun e he => by have := hb e he; omega) (fun e he => by have := ha e he; omega)
    hes k

end Place

namespace Btree
variable {s : Btree}

theorem findLeaf_cached (hs : s.cached = some n) (key : InodeNo) :
    s.findLeaf c key = (Tree.findLeaf c key.toNat n, s) := by
  simp [Btree.findLeaf, getRootNodeFromCache, hs]

/-- Where the number would go, splitting needs no key of more than 16 bits. -/
def insertionOk (c : Config) (n : Node) (inode : Inode) : Bool :=
  match Tree.findLeaf c inode.no.toNat n with
  | .ok (l, path) => insertionFits c l inode path
  | .error _ => true

/-- Where the number is, coalescing needs no key of more than 16 bits. -/
def deletionOk (c : Config) (n : Node) (number : InodeNo) : Bool :=
  match Tree.findLeaf c number.toNat n with
  | .ok (l, path) => kPrimesFit c true (l.entries.length - 1) path
  | .error _ => true

/-- The leaf of a number still has it in a slot behind its used ones. -/
def leftover (c : Config) (n : Node) (number : InodeNo) : Bool :=
  match Tree.findLeaf c number.toNat n with
  | .ok (l, _) => 0 < l.entries.length && l.unused.any (· == number.toNat)
  | .error _ => false

theorem lookup_isSome_iff (es : List Entry) (key : Nat) : (es.lookup key).isSome ↔ ∃ e ∈ es, e.1 = key := by
  rw [Option.isSome_iff_ne_none, ne_eq, List.lookup_eq_none_iff]
  simp only [not_forall, Bool.not_eq_true, bne_eq_false_iff_eq, exists_prop]
  exact exists_congr fun e => and_congr_right fun _ => eq_comm

theorem insertInode_cases (hs : s.cached = some n) (hn : RootWF c top h n) {inode : Inode}
    (hk : inode.no.toNat < top) (hfit : n.entries.lookup inode.no.toNat = none → insertionOk c n inode) :
    s.insertInode c inode = (.lowMem, s) ∨
    s.insertInode c inode = (.exists, s) ∧
      ((n.entries.lookup inode.no.toNat).isSome ∨ leftover c n inode.no) ∨
    ∃ n', s.insertInode c inode = (.ok, { s with cached := some n' }) ∧ n.entries.lookup inode.no.toNat = none ∧
      (∃ h', RootWF c top h' n') ∧
      ∀ k, n'.entries.lookup k = if k = inode.no.toNat then some inode else n.entries.lookup k := by
  rw [insertInode, findLeaf_cached hs]
  rcases findLeaf_spec hn hk with he | ⟨l, path, lo, hi, he, hp, hl, hlo, hhi, rfl⟩
  · exact .inl (by rw [he])
  simp only [insertionOk, leftover, he] at hfit ⊢
  right
  rw [hp.lookup_root hlo hhi] at hfit ⊢
  rw [lookup_isSome_iff]
  by_cases hex : alreadyExisting l inode.no
  · left
    refine ⟨by rw [if_pos hex], ?_⟩
    simp only [alreadyExisting, List.any_append, List.any_map, Bool.and_eq_true, Bool.or_eq_true,
      List.any_eq_true, Function.comp_apply, beq_iff_eq] at hex
    exact hex.2.imp id fun hu => by simpa [hex.1] using hu
  · right
    have hfresh : ∀ e ∈ l.entries, e.1 ≠ inode.no.toNat := by
      intro e he hne
      have hpos := List.length_pos_of_mem he
      refine hex ?_
      simp only [alreadyExisting, hpos, decide_true, Bool.true_and, List.any_eq_true, List.mem_append, List.mem_map]
      exact ⟨e.1, .inl ⟨e, he, rfl⟩, by simpa using hne⟩
    have hnone := Ascending.lookup_eq_none_of_ne hfresh
    obtain ⟨hwf, hes⟩ := insert_spec hp hl hlo hhi hfresh (hfit hnone)
    refine ⟨_, ?_, hnone, hwf, fun k => ?_⟩
    · rw [if_neg hex]
      split <;> rfl
    · rw [hes]
      exact hp.lookup_replaced hlo hhi (lookup_insertEntry l inode) k

theorem updateExistingInode_cases (hs : s.cached = some n) (hn : RootWF c top h n) {inode : Inode}
    (hk : inode.no.toNat < top) :
    s.updateExistingInode c inode = (.lowMem, s) ∨
    s.updateExistingInode c inode = (.bug, s) ∧ n.entries.lookup inode.no.toNat = none ∨
    ∃ n', s.updateExistingInode c inode = (.ok, { s with cached := some n' }) ∧
      (n.entries.lookup inode.no.toNat).isSome ∧ (∃ h', RootWF c top h' n') ∧
      ∀ k, n'.entries.lookup k = if k = inode.no.toNat then some inode else n.entries.lookup k := by
  rw [updateExistingInode, findLeaf_cached hs]
  rcases findLeaf_spec hn hk with he | ⟨l, path, lo, hi, he, hp, hl, hlo, hhi, rfl⟩
  · exact .inl (by rw [he])
  have hpos : l.entries.findIdx (fun e => e.1 == inode.no.toNat) = Ascending.position inode.no.toNat l.entries := rfl
  simp only [he, hpos]
  right
  rw [hp.lookup_root hlo hhi]
  cases hget : l.entries[Ascending.position inode.no.toNat l.entries]? with
  | none => exact .inl ⟨rfl, Ascending.lookup_eq_none_of_ne (Ascending.ne_of_getElem?_position hget)⟩
  | some e =>
    right
    have hkey := Ascending.getElem?_position hget
    have hlook := Ascending.lookup_of_getElem? hl.ascending hget
    have hset := Ascending.lookup_set hl.ascending hget inode
    rw [hkey] at hlook hset
    by_cases hsame : e.2 = inode
    · refine ⟨root (.leaf l) path, by simp [hsame, ← hs], by simp [hlook], ⟨h, hn⟩, fun k => ?_⟩
      split
      · next hk' => rw [hk', hp.lookup_root hlo hhi, hlook, hsame]
      · rfl
    · have hmem : ∀ x ∈ l.entries.set (Ascending.position inode.no.toNat l.entries) (inode.no.toNat, inode),
          x = (inode.no.toNat, inode) ∨ x ∈ l.entries := fun x hx => (List.mem_or_eq_of_mem_set hx).symm
      have hwf : LeafWF c (need c 0 path) lo hi
          { l with entries := l.entries.set (Ascending.position inode.no.toNat l.entries) (inode.no.toNat, inode) } := by
        refine ⟨hl.proper, ?_, fun x hx => ?_, fun x hx => ?_, by simpa using hl.enough, by simpa using hl.slots⟩
        · have hasc := Ascending.pairwise_set hl.ascending hget inode
          rwa [hkey] at hasc
        · rcases hmem x hx with rfl | hx
          · exact ⟨hlo, hhi⟩
          · exact hl.within x hx
        · rcases hmem x hx with rfl | hx
          · rfl
          · exact hl.numbered x hx
      refine ⟨root (.leaf _) path, by simp [hsame, hkey], by simp [hlook], hp.root_wf hwf, fun k => ?_⟩
      rw [entries_root]
      exact hp.lookup_replaced hlo hhi hset k

theorem deleteInode_cases (hs : s.cached = some n) (hn : RootWF c top h n) {number : InodeNo}
    (hk : number.toNat < top)
    (hfit : (n.entries.lookup number.toNat).isSome → deletionOk c n number) :
    s.deleteInode c number = (.lowMem, s) ∨
    s.deleteInode c number = (.notFound, s) ∧ n.entries.lookup number.toNat = none ∨
    ∃ t, s.deleteInode c number = (.ok, { s with cached := t }) ∧ (n.entries.lookup number.toNat).isSome ∧
      ∃ es, Leaves c top es t ∧ ∀ k, es.lookup k = if k = number.toNat then none else n.entries.lookup k := by
  rw [deleteInode, findLeaf_cached hs]
  rcases findLeaf_spec hn hk with he | ⟨l, path, lo, hi, he, hp, hl, hlo, hhi, rfl⟩
  · exact .inl (by rw [he])
  simp only [deletionOk, he, findInLeaf_eq hl] at hfit ⊢
  rw [hp.lookup_root hlo hhi] at hfit ⊢
  right
  cases hget : l.entries[Ascending.position number.toNat l.entries]? with
  | none =>
    have hnone := Ascending.lookup_eq_none_of_ne (Ascending.ne_of_getElem?_position hget)
    exact .inl ⟨by simp [hnone], hnone⟩
  | some e =>
    right
    have hlook := Ascending.lookup_of_getElem? hl.ascending hget
    have herase := Ascending.lookup_eraseIdx hl.ascending hget
    rw [Ascending.getElem?_position hget] at hlook herase
    obtain ⟨hok, hleft⟩ := delete_spec hp hl hget (hfit (by simp [hlook]))
    refine ⟨_, ?_, by simp [hlook], _, hleft, hp.lookup_replaced hlo hhi herase⟩
    simp only [hlook, Option.elim_some]
    rw [← hok]

theorem getInode_cases (hs : s.cached = some n) (hn : RootWF c top h n) {number : InodeNo}
    (hk : number.toNat < top) :
    s.getInode c number = (.error .lowMem, s) ∨
    s.getInode c number = ((n.entries.lookup number.toNat).elim (.error .notFound) .ok, s) := by
  rw [getInode, findLeaf_cached hs]
  rcases findLeaf_spec hn hk with he | ⟨l, path, lo, hi, he, hp, hl, hlo, hhi, rfl⟩
  · exact .inl (by rw [he])
  · right
    simp only [he, findInLeaf_eq hl, hp.lookup_root hlo hhi]

/-- The largest number of a tree is the last one of its last leaf. -/
theorem lastLeaf_spec (fuel : Nat) {m lo hi : Nat} (hn : WF c h m lo hi n) :
    lastLeaf fuel n = .error .lowMem ∨
      ∃ l, lastLeaf fuel n = .ok l ∧ l.entries.getLast? = n.entries.getLast? := by
  induction fuel generalizing h m lo hi n with
  | zero =>
    match h, n, hn with
    | 0, .leaf l, hn => exact .inr ⟨l, rfl, rfl⟩
    | h + 1, .branch keys pointers, hn => exact .inl rfl
  | succ fuel ih =>
    match h, n, hn with
    | 0, .leaf l, hn => exact .inr ⟨l, rfl, rfl⟩
    | h + 1, .branch keys pointers, hn =>
      have hlen := hn.2.2.length_eq
      have hx : pointers[keys.length]? = some pointers[keys.length] := List.getElem?_eq_getElem (by omega)
      obtain ⟨a, b, -, hc, -⟩ := hn.2.2.focus keys.length _ hx
      have hlast : pointers = pointers.take keys.length ++ [pointers[keys.length]] := by
        rw [← List.take_succ_eq_append_getElem (by omega), List.take_of_length_le (by omega)]
      have hes : pointers.flatMap Node.entries =
          (pointers.take keys.length).flatMap Node.entries ++ pointers[keys.length].entries := by
        conv_lhs => rw [hlast]
        rw [List.flatMap_append, List.flatMap_singleton]
      have hne := hc.entries_ne_nil (minFill_pos c h)
      have he := List.getLast?_eq_some_getLast hne
      simp only [lastLeaf, hx]
      rcases ih hc with hl | ⟨l, hl, hel⟩
      · exact .inl hl
      · exact .inr ⟨l, hl, by rw [hel, entries_branch, hes, List.getLast?_append, he, Option.some_or]⟩

theorem findFirstFreeNo_cases (hs : s.cached = some n) (hn : RootWF c top h n) :
    s.findFirstFreeNo c = (.error .lowMem, s) ∨
    ∃ no, s.findFirstFreeNo c = (.ok no, s) ∧
      (n.entries.lookup 4294967295 = none ∨ n.entries.lookup 0 = none → n.entries.lookup no.toNat = none) := by
  have hroot : s.getRootNodeFromCache = (.ok n, s) := by simp [getRootNodeFromCache, hs]
  rw [findFirstFreeNo, hroot]
  rcases lastLeaf_spec (c.treeNodeCacheSize - 1) hn with he | ⟨l, he, hl⟩
  · exact .inl (by simp [he])
  right
  simp only [he, hl]
  rcases List.eq_nil_or_concat n.entries with hnil | ⟨init, e, hes⟩
  · exact ⟨0, by simp [hnil], by simp [hnil]⟩
  rw [List.concat_eq_append] at hes
  have hno : e.1 = e.2.no.toNat := hn.numbered e (by simp [hes])
  have hasc := hn.ascending
  rw [hes, List.pairwise_append] at hasc
  have hmax : ∀ x ∈ n.entries, x.1 ≤ e.1 := by
    intro x hx
    rw [hes, List.mem_append, List.mem_singleton] at hx
    rcases hx with hx | rfl
    · exact (hasc.2.2 x hx e (by simp)).le
    · exact le_rfl
  refine ⟨e.2.no + 1, by simp [hes], fun hroom => ?_⟩
  have hlt := e.2.no.toNat_lt
  have hadd : (e.2.no + 1).toNat = (e.2.no.toNat + 1) % 4294967296 := by simp [UInt32.toNat_add]
  by_cases htop : e.2.no.toNat = 4294967295
  · have hfull : n.entries.lookup 4294967295 ≠ none := by
      have hsome : (n.entries.lookup e.1).isSome := (lookup_isSome_iff _ _).2 ⟨e, by simp [hes], rfl⟩
      rw [hno, htop] at hsome
      exact Option.isSome_iff_ne_none.1 hsome
    rw [hadd, htop]
    exact hroom.resolve_left hfull
  · rw [hadd, Nat.mod_eq_of_lt (by omega)]
    exact Ascending.lookup_eq_none_of_ne fun x hx => by have := hmax x hx; omega

end Btree
end Paffs.Tree
