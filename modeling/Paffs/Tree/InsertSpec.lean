import Paffs.Tree.Invariant

/-! Insertion keeps the tree well formed and adds exactly the new inode, as long as the keys
that splitting hands upwards fit the 16-bit variables they are carried in. -/
namespace Paffs.Tree
open Tiling

/-- No branch above, if it has to be split for `key`, is split at a key of more than 16 bits. -/
def splitKeysFit (c : Config) (key : Nat) : List Parent → Bool
  | [] => true
  | p :: path => p.keys.length < c.branchOrder - 1 ||
      (splitKey c p key < 65536 && splitKeysFit c (splitKey c p key) path)

/-- Neither the leaf nor a branch above it is split at a key of more than 16 bits. -/
def insertionFits (c : Config) (l : Leaf) (newInode : Inode) (path : List Parent) : Bool :=
  l.entries.length < c.leafOrder ||
    (newLeafKey c l newInode < 65536 && splitKeysFit c (newLeafKey c l newInode) path)

variable {c : Config}

theorem zeroPadded_wf {m lo hi : Nat} {entries : List Entry} (hlt : lo < hi)
    (hs : entries.Pairwise (·.1 < ·.1)) (hw : ∀ e ∈ entries, lo ≤ e.1 ∧ e.1 < hi)
    (hn : ∀ e ∈ entries, e.1 = e.2.no.toNat) (hm : m ≤ entries.length) (hmax : entries.length ≤ c.leafOrder) :
    LeafWF c m lo hi (zeroPadded c entries) :=
  ⟨hlt, hs, hw, hn, hm, by simp only [zeroPadded, List.length_replicate]; omega⟩

section Leaf
variable {m lo hi : Nat} {l : Leaf} {newInode : Inode}

theorem length_insertEntry (l : Leaf) (newInode : Inode) :
    (insertEntry l newInode).length = l.entries.length + 1 := by
  have h : insertionPoint l newInode.no.toNat ≤ l.entries.length := List.findIdx_le_length
  simp only [insertEntry, List.length_append, List.length_take, List.length_cons, List.length_drop]
  omega

theorem mem_insertEntry (l : Leaf) (newInode : Inode) (e : Entry) :
    e ∈ insertEntry l newInode ↔ e = (newInode.no.toNat, newInode) ∨ e ∈ l.entries := by
  have h := List.take_append_drop (insertionPoint l newInode.no.toNat) l.entries
  rw [insertEntry, List.mem_append, List.mem_cons, or_left_comm, ← List.mem_append, h]

theorem lookup_insertEntry (l : Leaf) (newInode : Inode) (k : Nat) :
    (insertEntry l newInode).lookup k = if k = newInode.no.toNat then some newInode else l.entries.lookup k :=
  Ascending.lookup_insert newInode l.entries k

theorem insertEntry_wf (hl : LeafWF c m lo hi l) (hlo : lo ≤ newInode.no.toNat) (hhi : newInode.no.toNat < hi)
    (hfresh : ∀ e ∈ l.entries, e.1 ≠ newInode.no.toNat) :
    (insertEntry l newInode).Pairwise (·.1 < ·.1) ∧ (∀ e ∈ insertEntry l newInode, lo ≤ e.1 ∧ e.1 < hi) ∧
      ∀ e ∈ insertEntry l newInode, e.1 = e.2.no.toNat := by
  refine ⟨Ascending.pairwise_insert newInode hl.ascending hfresh, fun e he => ?_, fun e he => ?_⟩
  · rcases (mem_insertEntry l newInode e).1 he with rfl | he
    · exact ⟨hlo, hhi⟩
    · exact hl.within e he
  · rcases (mem_insertEntry l newInode e).1 he with rfl | he
    · rfl
    · exact hl.numbered e he

theorem insertIntoLeaf_wf (hl : LeafWF c m lo hi l) (hlo : lo ≤ newInode.no.toNat) (hhi : newInode.no.toNat < hi)
    (hfresh : ∀ e ∈ l.entries, e.1 ≠ newInode.no.toNat) (hroom : l.entries.length < c.leafOrder) :
    LeafWF c m lo hi (insertIntoLeaf l newInode) := by
  obtain ⟨hs, hw, hn⟩ := insertEntry_wf hl hlo hhi hfresh
  have hlen := length_insertEntry l newInode
  have henough := hl.enough
  have hslots := hl.slots
  refine ⟨hl.proper, hs, hw, hn, ?_, ?_⟩ <;> simp only [insertIntoLeaf, hlen, List.length_tail] <;> omega

/-- A full leaf is split at a key inside its range. -/
theorem splitLeaf_wf (hl : LeafWF c m lo hi l) (hlo : lo ≤ newInode.no.toNat) (hhi : newInode.no.toNat < hi)
    (hfresh : ∀ e ∈ l.entries, e.1 ≠ newInode.no.toNat) (hfull : ¬ l.entries.length < c.leafOrder) :
    LeafWF c (minFill c 0) lo (newLeafKey c l newInode) (splitLeaf c l newInode).1 ∧
      LeafWF c (minFill c 0) (newLeafKey c l newInode) hi (splitLeaf c l newInode).2 := by
  obtain ⟨hs, hw, hn⟩ := insertEntry_wf hl hlo hhi hfresh
  have hlen := length_insertEntry l newInode
  have hslots := hl.slots
  have hcut := cut_spec c.leafOrder
  have hpos := c.leafOrder_pos
  have hi' : cut c.leafOrder < (insertEntry l newInode).length := by omega
  have hget : (insertEntry l newInode)[cut c.leafOrder]? = some (insertEntry l newInode)[cut c.leafOrder] :=
    List.getElem?_eq_getElem hi'
  have hkey : newLeafKey c l newInode = (insertEntry l newInode)[cut c.leafOrder].1 := by
    rw [newLeafKey, hget]; rfl
  obtain ⟨-, hlt, hgt⟩ := Ascending.split_at hs hget
  have hin := hw _ (List.getElem_mem hi')
  have hdrop : ∀ e ∈ (insertEntry l newInode).drop (cut c.leafOrder), newLeafKey c l newInode ≤ e.1 := by
    intro e he
    rw [List.drop_eq_getElem_cons hi'] at he
    rcases List.mem_cons.1 he with rfl | he
    · exact hkey.le
    · exact hkey ▸ (hgt e he).le
  have hlow : lo < newLeafKey c l newInode := by
    have h0 : (insertEntry l newInode)[0] ∈ (insertEntry l newInode).take (cut c.leafOrder) :=
      List.mem_take_iff_getElem.2 ⟨0, by omega, rfl⟩
    rw [hkey]
    exact (hw _ (List.getElem_mem (by omega))).1.trans_lt (hlt _ h0)
  constructor
  · refine zeroPadded_wf hlow hs.take (fun e he => ⟨(hw e (List.mem_of_mem_take he)).1, hkey ▸ hlt e he⟩)
      (fun e he => hn e (List.mem_of_mem_take he)) ?_ ?_ <;> simp only [minFill, List.length_take] <;> omega
  · refine zeroPadded_wf (hkey ▸ hin.2) hs.drop (fun e he => ⟨hdrop e he, (hw e (List.mem_of_mem_drop he)).2⟩)
      (fun e he => hn e (List.mem_of_mem_drop he)) ?_ ?_ <;> simp only [minFill, List.length_drop] <;> omega

theorem entries_splitLeaf (c : Config) (l : Leaf) (newInode : Inode) :
    (splitLeaf c l newInode).1.entries ++ (splitLeaf c l newInode).2.entries = insertEntry l newInode :=
  List.take_append_drop _ _

end Leaf

/-- The branch over two nodes that have replaced one. -/
theorem tempKeys_tiles {h lo hi lo' hi' key : Nat} {p : Parent} {left right : Node}
    (hl : LeftOf (Child c h) lo' (p.keys.take p.left.length) p.left lo)
    (hr : RightOf (Child c h) hi (p.keys.drop p.left.length) p.right hi')
    (hleft : Child c h lo key left) (hright : Child c h key hi right) :
    Tiles (Child c h) lo' (tempKeys p key) (p.left ++ left :: right :: p.right) hi' := by
  have ht := hl.fill (s := [key]) (d := [left, right]) ⟨hleft, hright⟩ hr
  simpa [tempKeys] using ht

theorem length_tempKeys (p : Parent) (key : Nat) : (tempKeys p key).length = p.keys.length + 1 := by
  simp only [tempKeys, List.length_append, List.length_take, List.length_cons, List.length_drop]
  omega

/-- Both halves of a split branch are well formed. -/
theorem insertIntoNodeAfterSplitting_wf {h lo' hi' key : Nat} {p : Parent} {left right : Node}
    (ht : Tiles (Child c h) lo' (tempKeys p key) (p.left ++ left :: right :: p.right) hi')
    (hfull : p.keys.length = c.branchOrder - 1) (hfit : splitKey c p key < 65536) :
    ∃ old new, insertIntoNodeAfterSplitting c p left key right = (old, splitKey c p key, new) ∧
      Child c (h + 1) lo' (splitKey c p key) old ∧ Child c (h + 1) (splitKey c p key) hi' new ∧
      old.entries ++ new.entries = (p.left ++ left :: right :: p.right).flatMap Node.entries := by
  have hlen := length_tempKeys p key
  have hcut := cut_spec c.branchOrder
  have hord := c.three_le_branchOrder
  have hlt : cut c.branchOrder - 1 < (tempKeys p key).length := by omega
  have hkey : splitKey c p key = (tempKeys p key)[cut c.branchOrder - 1] := by
    simp [splitKey, hlt]
  have hkeys : tempKeys p key = (tempKeys p key).take (cut c.branchOrder - 1) ++
      splitKey c p key :: (tempKeys p key).drop (cut c.branchOrder) := by
    have hd := List.drop_eq_getElem_cons hlt
    rw [show cut c.branchOrder - 1 + 1 = cut c.branchOrder by omega] at hd
    rw [hkey, ← hd, List.take_append_drop]
  generalize hcs : p.left ++ left :: right :: p.right = cs at ht ⊢
  have hcount := ht.length_eq
  have htake : (cs.take (cut c.branchOrder)).length =
      ((tempKeys p key).take (cut c.branchOrder - 1)).length + 1 := by
    simp only [List.length_take]; omega
  rw [← List.take_append_drop (cut c.branchOrder) cs, hkeys] at ht
  obtain ⟨hold, hnew⟩ := (tiles_append htake).1 ht
  refine ⟨.branch _ _, .branch _ _, by rw [insertIntoNodeAfterSplitting, u16_of_lt hfit, hcs],
    ⟨?_, ?_, hold⟩, ⟨?_, ?_, hnew⟩, ?_⟩
  · simp only [minFill, List.length_take]; omega
  · simp only [List.length_take]; omega
  · simp only [minFill, List.length_drop]; omega
  · simp only [List.length_drop]; omega
  · rw [entries_branch, entries_branch, ← List.flatMap_append, List.take_append_drop]

/-- Two nodes in the place of one, the key between them on its way upwards. -/
theorem insertIntoParent_spec {top h lo hi key : Nat} {left right : Node} {path : List Parent}
    (hp : PathWF c top h lo hi path) (hleft : Child c h lo key left) (hright : Child c h key hi right)
    (hfit : splitKeysFit c key path) :
    (∃ h', RootWF c top h' (insertIntoParent c left key right path)) ∧
      (insertIntoParent c left key right path).entries =
        before path ++ (left.entries ++ right.entries) ++ after path := by
  induction path generalizing h lo hi key left right with
  | nil =>
    obtain ⟨rfl, rfl⟩ := hp
    have hord := c.three_le_branchOrder
    refine ⟨⟨h + 1, ?_, ?_, hleft, hright⟩, ?_⟩
    · simp [rootFill]
    · simp only [List.length_singleton]; omega
    · simp [insertIntoParent, insertIntoNewRoot, before, after]
  | cons p path ih =>
    obtain ⟨lo', hi', hpath, hmin, hmax, hl, hr⟩ := hp
    have ht := tempKeys_tiles hl hr hleft hright
    have hlen := length_tempKeys p key
    rw [insertIntoParent]
    split
    · next hroom =>
      have hn : WF c (h + 1) (need c (h + 1) path) lo' hi' (insertIntoNode p left key right) :=
        ⟨by change _ ≤ (tempKeys p key).length; omega, by change (tempKeys p key).length ≤ _; omega, ht⟩
      refine ⟨hpath.root_wf hn, ?_⟩
      rw [entries_root, insertIntoNode, entries_branch]
      simp [before, after]
    · next hroom =>
      simp only [splitKeysFit, hroom, decide_false, Bool.false_or, Bool.and_eq_true,
        decide_eq_true_eq] at hfit
      obtain ⟨old, new, he, hold, hnew, hentries⟩ :=
        insertIntoNodeAfterSplitting_wf ht (by omega) hfit.1
      rw [he]
      obtain ⟨hwf, hes⟩ := ih hpath hold hnew hfit.2
      refine ⟨hwf, ?_⟩
      rw [hes, hentries]
      simp [before, after]

/-- Inserting a new number anywhere. -/
theorem insert_spec {top lo hi : Nat} {l : Leaf} {path : List Parent} {newInode : Inode}
    (hp : PathWF c top 0 lo hi path) (hl : LeafWF c (need c 0 path) lo hi l) (hlo : lo ≤ newInode.no.toNat)
    (hhi : newInode.no.toNat < hi) (hfresh : ∀ e ∈ l.entries, e.1 ≠ newInode.no.toNat)
    (hfit : insertionFits c l newInode path) :
    let n := if l.entries.length < c.leafOrder then root (.leaf (insertIntoLeaf l newInode)) path
      else insertIntoLeafAfterSplitting c l newInode path
    (∃ h', RootWF c top h' n) ∧ n.entries = before path ++ insertEntry l newInode ++ after path := by
  intro n
  simp only [n]
  split
  · next hroom =>
    exact ⟨hp.root_wf (insertIntoLeaf_wf hl hlo hhi hfresh hroom), entries_root _ _⟩
  · next hroom =>
    obtain ⟨hleft, hright⟩ := splitLeaf_wf hl hlo hhi hfresh hroom
    simp only [insertionFits, hroom, decide_false, Bool.false_or, Bool.and_eq_true,
      decide_eq_true_eq] at hfit
    rw [insertIntoLeafAfterSplitting, u16_of_lt hfit.1]
    have hs := insertIntoParent_spec hp (show Child c 0 _ _ (.leaf _) from hleft) (show Child c 0 _ _ (.leaf _) from hright) hfit.2
    rwa [entries_leaf, entries_leaf, entries_splitLeaf] at hs

end Paffs.Tree
