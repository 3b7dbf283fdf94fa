import Paffs.Tree.BtreeSpec

/-! The shape of the inode tree after every successful insertion and deletion. -/
namespace Paffs.Tree
open Tiling

/-- `x` is a node of the tree, `depth` levels below its root. -/
inductive At : Node → Nat → Node → Prop where
  | root (n : Node) : At n 0 n
  | child {keys : List Nat} {pointers : List Node} {q x : Node} {depth : Nat} (hq : q ∈ pointers)
      (h : At q depth x) : At (.branch keys pointers) (depth + 1) x

/-- The representation invariant, node by node. -/
structure TreeInvariant (c : Config) (n : Node) : Prop where
  sameDepth : ∃ height, ∀ l depth, At n depth (.leaf l) → depth = height
  leafAscending : ∀ l depth, At n depth (.leaf l) → l.entries.Pairwise (·.1 < ·.1)
  branchAscending : ∀ keys pointers depth, At n depth (.branch keys pointers) → keys.Pairwise (· < ·)
  /-- `findLeaf` goes right of a key that is not above the wanted one. -/
  leftOfKey : ∀ keys pointers depth, At n depth (.branch keys pointers) →
    ∀ (i : Nat) (k : Nat) (q : Node), keys[i]? = some k → pointers[i]? = some q → ∀ e ∈ q.entries, e.1 < k
  rightOfKey : ∀ keys pointers depth, At n depth (.branch keys pointers) →
    ∀ (i : Nat) (k : Nat) (q : Node), keys[i]? = some k → pointers[i + 1]? = some q → ∀ e ∈ q.entries, k ≤ e.1
  leafFill : ∀ l depth, At n depth (.leaf l) → l.entries.length ≤ c.leafOrder ∧
    (0 < depth → cut c.leafOrder ≤ l.entries.length)
  branchFill : ∀ keys pointers depth, At n depth (.branch keys pointers) → keys.length ≤ c.branchOrder - 1 ∧
    (0 < depth → cut c.branchOrder - 1 ≤ keys.length)
  children : ∀ keys pointers depth, At n depth (.branch keys pointers) → pointers.length = keys.length + 1

variable {c : Config}

/-- A node at some depth of a well-formed tree is well formed itself, and so much lower. -/
theorem At.wf {n x : Node} {depth h m lo hi : Nat} (hx : At n depth x) (hn : WF c h m lo hi n) :
    ∃ h' m' lo' hi', h = h' + depth ∧ (depth = 0 → m' = m) ∧ (0 < depth → m' = minFill c h') ∧
      WF c h' m' lo' hi' x := by
  induction hx generalizing h m lo hi with
  | root n => exact ⟨h, m, lo, hi, rfl, fun _ => rfl, by simp, hn⟩
  | @child keys pointers q x depth hq hx ih =>
    match h, hn with
    | h + 1, hn =>
      obtain ⟨i, hi', rfl⟩ := List.mem_iff_getElem.1 hq
      obtain ⟨a, b, -, hc, -⟩ := hn.2.2.focus i _ (List.getElem?_eq_getElem hi')
      obtain ⟨h', m', lo', hi'', rfl, hm, hm', hwf⟩ := ih hc
      refine ⟨h', m', lo', hi'', rfl, by simp, fun _ => ?_, hwf⟩
      rcases Nat.eq_zero_or_pos depth with rfl | hd
      · exact hm rfl
      · exact hm' hd

/-- The nodes on either side of a key. -/
theorem WF.around {h m lo hi : Nat} {keys : List Nat} {pointers : List Node}
    (hn : WF c (h + 1) m lo hi (.branch keys pointers)) {i k : Nat} (hk : keys[i]? = some k) :
    (∀ q, pointers[i]? = some q → ∀ e ∈ q.entries, e.1 < k) ∧
      ∀ q, pointers[i + 1]? = some q → ∀ e ∈ q.entries, k ≤ e.1 := by
  obtain ⟨hi', rfl⟩ := List.getElem?_eq_some_iff.1 hk
  constructor
  · intro q hq e he
    obtain ⟨a, b, -, hc, hr⟩ := hn.2.2.focus i q hq
    rw [List.drop_eq_getElem_cons hi'] at hr
    obtain ⟨hj, -⟩ := List.getElem?_eq_some_iff.1 hq
    have hne : pointers.drop (i + 1) ≠ [] := by
      have := hn.2.2.length_eq
      rw [ne_eq, List.drop_eq_nil_iff]
      omega
    obtain ⟨ks', cs', x, m', hks, -⟩ := hr.first hne
    rw [(List.cons.inj hks).1]
    exact (hc.within e he).2
  · intro q hq e he
    obtain ⟨a, b, hl, hc, -⟩ := hn.2.2.focus (i + 1) q hq
    obtain ⟨hj, -⟩ := List.getElem?_eq_some_iff.1 hq
    obtain ⟨ks', -, -, -, hks, -⟩ := hl.last (by
      rw [ne_eq, List.take_eq_nil_iff, not_or]
      exact ⟨by omega, fun h => by simp [h] at hj⟩)
    have hlast : keys[i] = a := by
      rw [List.take_succ_eq_append_getElem hi'] at hks
      simpa using (List.append_inj_right' hks rfl)
    rw [hlast]
    exact (hc.within e he).1

theorem RootWF.treeInvariant {top h : Nat} {n : Node} (hn : RootWF c top h n) : TreeInvariant c n := by
  have hleaf : ∀ l depth, At n depth (.leaf l) → h = depth ∧ ∃ m lo hi, (0 < depth → m = minFill c 0) ∧
      LeafWF c m lo hi l := by
    intro l depth hx
    obtain ⟨h', m, lo, hi, heq, -, hm, hwf⟩ := hx.wf hn
    match h', hwf with
    | 0, hwf => exact ⟨by omega, m, lo, hi, hm, hwf⟩
  have hbranch : ∀ keys pointers depth, At n depth (.branch keys pointers) → ∃ h' m lo hi,
      (0 < depth → m = minFill c (h' + 1)) ∧ WF c (h' + 1) m lo hi (.branch keys pointers) := by
    intro keys pointers depth hx
    obtain ⟨h', m, lo, hi, -, -, hm, hwf⟩ := hx.wf hn
    match h', hwf with
    | h' + 1, hwf => exact ⟨h', m, lo, hi, hm, hwf⟩
  constructor
  · exact ⟨h, fun l depth hx => (hleaf l depth hx).1.symm⟩
  · intro l depth hx
    obtain ⟨-, m, lo, hi, -, hl⟩ := hleaf l depth hx
    exact hl.ascending
  · intro keys pointers depth hx
    obtain ⟨h', m, lo, hi, -, hwf⟩ := hbranch keys pointers depth hx
    exact (hwf.2.2.borders fun a b x hx => WF.lt hx).2.2
  · intro keys pointers depth hx i k q hk
    obtain ⟨h', m, lo, hi, -, hwf⟩ := hbranch keys pointers depth hx
    exact (hwf.around hk).1 q
  · intro keys pointers depth hx i k q hk
    obtain ⟨h', m, lo, hi, -, hwf⟩ := hbranch keys pointers depth hx
    exact (hwf.around hk).2 q
  · intro l depth hx
    obtain ⟨-, m, lo, hi, hm, hl⟩ := hleaf l depth hx
    have hslots := hl.slots
    exact ⟨by omega, fun hd => (hm hd).ge.trans hl.enough⟩
  · intro keys pointers depth hx
    obtain ⟨h', m, lo, hi, hm, hwf⟩ := hbranch keys pointers depth hx
    exact ⟨hwf.2.1, fun hd => (hm hd).ge.trans hwf.1⟩
  · intro keys pointers depth hx
    obtain ⟨h', m, lo, hi, -, hwf⟩ := hbranch keys pointers depth hx
    exact hwf.2.2.length_eq

/-! ### Numbers of at most 16 bits -/

section Narrow
variable {top h lo hi : Nat} {path : List Parent}

theorem PathWF.keys_lt (hp : PathWF c top h lo hi path) (hlt : lo < hi) :
    hi ≤ top ∧ ∀ p ∈ path, ∀ k ∈ p.keys, k < top := by
  induction path generalizing h lo hi with
  | nil => exact ⟨hp.2.le, by simp⟩
  | cons p path ih =>
    obtain ⟨lo', hi', hpath, -, -, hl, hr⟩ := hp
    obtain ⟨hlo, hkl⟩ := hl.borders fun a b x hx => WF.lt hx
    obtain ⟨hhi, hkr⟩ := hr.borders fun a b x hx => WF.lt hx
    obtain ⟨htop, hkeys⟩ := ih hpath (by omega)
    refine ⟨hhi.trans htop, fun q hq k hk => ?_⟩
    rcases List.mem_cons.1 hq with rfl | hq
    · rw [← List.take_append_drop q.left.length q.keys, List.mem_append] at hk
      rcases hk with hk | hk
      · have := hkl k hk
        omega
      · exact (hkr k hk).trans_le htop
    · exact hkeys q hq k hk

theorem splitKeysFit_of_lt {key : Nat} (hkeys : ∀ p ∈ path, ∀ k ∈ p.keys, k < 65536) (hk : key < 65536) :
    splitKeysFit c key path := by
  induction path generalizing key with
  | nil => rfl
  | cons p path ih =>
    have hsplit : splitKey c p key < 65536 := by
      rw [splitKey, List.getD_eq_getElem?_getD]
      cases hget : (tempKeys p key)[cut c.branchOrder - 1]? with
      | none => simp
      | some k =>
        have hmem := List.mem_of_getElem? hget
        simp only [tempKeys, List.mem_append, List.mem_cons] at hmem
        rcases hmem with h | rfl | h
        · exact hkeys p (by simp) k (List.mem_of_mem_take h)
        · exact hk
        · exact hkeys p (by simp) k (List.mem_of_mem_drop h)
    rw [splitKeysFit, Bool.or_eq_true, Bool.and_eq_true, decide_eq_true_eq, decide_eq_true_eq]
    exact .inr ⟨hsplit, ih (fun q hq => hkeys q (List.mem_cons_of_mem _ hq)) hsplit⟩

theorem kPrimesFit_of_lt (hkeys : ∀ p ∈ path, ∀ k ∈ p.keys, k < 65536) (isLeaf : Bool) (m : Nat) :
    kPrimesFit c isLeaf m path := by
  induction path generalizing isLeaf m with
  | nil => rfl
  | cons p path ih =>
    have hk : kPrime p < 65536 := by
      rw [kPrime, List.getD_eq_getElem?_getD]
      cases hget : p.keys[p.left.length - 1]? with
      | none => simp
      | some k => exact hkeys p (by simp) k (List.mem_of_getElem? hget)
    have hnext := ih (fun q hq => hkeys q (List.mem_cons_of_mem _ hq))
    rw [kPrimesFit, Bool.or_eq_true]
    right
    cases neighbor p with
    | none => rfl
    | some nb => simp [hk, hnext]

theorem insertionOk_of_lt {n : Node} (hn : RootWF c top h n) (htop : top ≤ 65536) {inode : Inode}
    (hk : inode.no.toNat < top) : Btree.insertionOk c n inode := by
  rcases findLeaf_spec hn hk with he | ⟨l, path, lo, hi, he, hp, hl, hlo, hhi, -⟩
  · simp [Btree.insertionOk, he]
  obtain ⟨htop', hkeys⟩ := hp.keys_lt hl.proper
  have hnew : newLeafKey c l inode < 65536 := by
    rw [newLeafKey]
    cases hget : (insertEntry l inode)[cut c.leafOrder]? with
    | none => simp
    | some e =>
      rcases (mem_insertEntry l inode e).1 (List.mem_of_getElem? hget) with rfl | hmem
      · exact hk.trans_le htop
      · exact ((hl.within e hmem).2.trans_le htop').trans_le htop
  have hfit := splitKeysFit_of_lt (c := c) (fun p hp k hk => (hkeys p hp k hk).trans_le htop) hnew
  simp [Btree.insertionOk, he, insertionFits, hnew, hfit]

theorem deletionOk_of_lt {n : Node} (hn : RootWF c top h n) (htop : top ≤ 65536) {number : InodeNo}
    (hk : number.toNat < top) : Btree.deletionOk c n number := by
  rcases findLeaf_spec hn hk with he | ⟨l, path, lo, hi, he, hp, hl, hlo, hhi, -⟩
  · simp [Btree.deletionOk, he]
  have hfit := kPrimesFit_of_lt (c := c) (fun p hq k hk => ((hp.keys_lt hl.proper).2 p hq k hk).trans_le htop) true
    (l.entries.length - 1)
  simp [Btree.deletionOk, he, hfit]

end Narrow

namespace Btree

/-- The states after successful insertions and deletions of numbers that fit 16 bits, with commits at any
point in between. -/
inductive Reachable (c : Config) : Btree → Prop where
  | startNewTree : Reachable c (startNewTree c)
  | insertInode {s s' : Btree} {inode : Inode} (h : Reachable c s) (hk : inode.no.toNat < 65536)
      (hok : s.insertInode c inode = (.ok, s')) : Reachable c s'
  | deleteInode {s s' : Btree} {number : InodeNo} (h : Reachable c s) (hk : number.toNat < 65536)
      (hok : s.deleteInode c number = (.ok, s')) : Reachable c s'
  | commitCache {s : Btree} (h : Reachable c s) : Reachable c s.commitCache

/-- Both the tree in RAM and the written one are well formed. -/
structure Sound (c : Config) (s : Btree) : Prop where
  cached : ∀ n, s.cached = some n → ∃ h, RootWF c 65536 h n
  committed : ∀ n, s.committed = some n → ∃ h, RootWF c 65536 h n

variable {s t : Btree} {n : Node} {r : Result}

/-- A root that can be had is in RAM afterwards, and the call goes on from there. -/
theorem getRootNodeFromCache_ok (hs : Sound c s) (h : s.getRootNodeFromCache = (.ok n, t)) :
    Sound c t ∧ t.cached = some n ∧ ∀ key, s.findLeaf c key = t.findLeaf c key := by
  have hfind : t.cached = some n → ∀ key, s.findLeaf c key = t.findLeaf c key := by
    intro ht key
    rw [findLeaf_cached ht, Btree.findLeaf, h]
  unfold getRootNodeFromCache at h
  split at h
  · next hc =>
    obtain ⟨⟨rfl⟩, rfl⟩ := Prod.mk.inj h
    exact ⟨hs, hc, hfind hc⟩
  · next hc hw =>
    obtain ⟨⟨rfl⟩, rfl⟩ := Prod.mk.inj h
    exact ⟨⟨fun n hn => hs.committed n (hw.trans hn), fun n hn => hs.committed n (hw.trans hn)⟩, rfl, hfind rfl⟩
  · cases (Prod.mk.inj h).1

theorem getRootNodeFromCache_error (h : s.getRootNodeFromCache = (.error r, t)) :
    r = .bug ∧ ∀ key, s.findLeaf c key = (.error r, t) := by
  refine ⟨?_, fun key => by rw [Btree.findLeaf, h]⟩
  unfold getRootNodeFromCache at h
  split at h <;> cases (Prod.mk.inj h).1
  rfl

theorem Sound.insertInode (hs : Sound c s) {inode : Inode} (hk : inode.no.toNat < 65536)
    (hok : s.insertInode c inode = (.ok, t)) : Sound c t := by
  cases hroot : s.getRootNodeFromCache with
  | mk root u =>
    cases root with
    | error r =>
      obtain ⟨rfl, hfind⟩ := getRootNodeFromCache_error (c := c) hroot
      rw [Btree.insertInode, hfind] at hok
      cases (Prod.mk.inj hok).1
    | ok n =>
      obtain ⟨hu, hn, hfind⟩ := getRootNodeFromCache_ok hs hroot
      obtain ⟨h, hwf⟩ := hu.cached n hn
      have hsame : s.insertInode c inode = u.insertInode c inode := by
        rw [Btree.insertInode, Btree.insertInode, hfind]
      rw [hsame] at hok
      rcases insertInode_cases hn hwf hk (fun _ => insertionOk_of_lt hwf le_rfl hk) with
        he | ⟨he, -⟩ | ⟨n', he, -, hwf', -⟩
      · rw [he] at hok
        cases (Prod.mk.inj hok).1
      · rw [he] at hok
        cases (Prod.mk.inj hok).1
      · rw [he] at hok
        obtain rfl := (Prod.mk.inj hok).2
        refine ⟨fun x hx => ?_, hu.committed⟩
        obtain rfl := Option.some.inj hx
        exact hwf'

theorem Sound.deleteInode (hs : Sound c s) {number : InodeNo} (hk : number.toNat < 65536)
    (hok : s.deleteInode c number = (.ok, t)) : Sound c t := by
  cases hroot : s.getRootNodeFromCache with
  | mk root u =>
    cases root with
    | error r =>
      obtain ⟨rfl, hfind⟩ := getRootNodeFromCache_error (c := c) hroot
      rw [Btree.deleteInode, hfind] at hok
      cases (Prod.mk.inj hok).1
    | ok n =>
      obtain ⟨hu, hn, hfind⟩ := getRootNodeFromCache_ok hs hroot
      obtain ⟨h, hwf⟩ := hu.cached n hn
      have hsame : s.deleteInode c number = u.deleteInode c number := by
        rw [Btree.deleteInode, Btree.deleteInode, hfind]
      rw [hsame] at hok
      rcases deleteInode_cases hn hwf hk (fun _ => deletionOk_of_lt hwf le_rfl hk) with
        he | ⟨he, -⟩ | ⟨tree, he, -, es, htree, -⟩
      · rw [he] at hok
        cases (Prod.mk.inj hok).1
      · rw [he] at hok
        cases (Prod.mk.inj hok).1
      · rw [he] at hok
        obtain rfl := (Prod.mk.inj hok).2
        refine ⟨fun x hx => ?_, hu.committed⟩
        obtain rfl : tree = some x := hx
        exact htree.1

theorem Sound.commitCache (hs : Sound c s) : Sound c s.commitCache := by
  unfold Btree.commitCache
  split
  · next n hn => exact ⟨fun x hx => hs.cached x (hn.trans hx), fun x hx => hs.cached x (hn.trans hx)⟩
  · exact hs

theorem startNewTree_sound : Sound c (startNewTree c) := by
  have hp := c.leafOrder_pos
  refine ⟨fun n hn => ⟨0, ?_⟩, fun n hn => by cases hn⟩
  obtain rfl := Option.some.inj hn
  exact zeroPadded_wf (by omega) List.Pairwise.nil (by simp) (by simp) (by simp [rootFill]) (by simp)

theorem Reachable.sound (hs : Reachable c s) : Sound c s := by
  induction hs with
  | startNewTree => exact startNewTree_sound
  | insertInode _ hk hok ih => exact ih.insertInode hk hok
  | deleteInode _ hk hok ih => exact ih.deleteInode hk hok
  | commitCache _ ih => exact ih.commitCache

end Btree
end Paffs.Tree
