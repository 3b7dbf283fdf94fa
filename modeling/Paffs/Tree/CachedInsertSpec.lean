import Paffs.Tree.CachedInsert
import Paffs.Tree.Locks

/-! An insertion takes as many new nodes as were predicted, and makes no room for them on the way. -/
namespace Paffs.Tree

namespace Action
variable {size : Nat} {α β : Type} {t t' : TreeCache size} {action : Action size α} {next : α → Action size β}

theorem bind_of_ok {a : α} (h : action t = some (.ok a, t')) : (action >>= next) t = next a t' := by
  simp only [bind, h]

end Action

namespace TreeCache
variable {size : Nat} {o : Surroundings size} {c : Config} {t t' : TreeCache size} {x p left right : Fin size} {ps : List (Fin size)}

/-! ### Prediction -/

/-- `keys` of a branch before it is split. -/
def isFull (c : Config) (t : TreeCache size) (x : Fin size) : Prop :=
  (t.cache x).raw.keys = if (t.cache x).raw.isLeaf then c.leafOrder else c.branchOrder - 1

instance : Decidable (t.isFull c x) := inferInstanceAs (Decidable (_ = _))

/-- The nodes that are needed above one that is split. -/
def neededAbove (c : Config) (t : TreeCache size) : List (Fin size) → Nat
  | [] => 1
  | p :: ps => if t.isFull c p then 1 + neededAbove c t ps else 0

theorem calculateMaxNeededNewNodesForInsertion_of_path (h : t.Path x ps) {fuel : Nat} (hfuel : ps.length < fuel) :
    t.calculateMaxNeededNewNodesForInsertion c fuel x = some (if t.isFull c x then 1 + t.neededAbove c ps else 0) := by
  induction fuel generalizing x ps with
  | zero => cases hfuel
  | succ fuel ih =>
    rw [calculateMaxNeededNewNodesForInsertion]
    by_cases hfull : t.isFull c x
    · have hkeys : (t.cache x).raw.keys = if (t.cache x).raw.isLeaf then c.leafOrder else c.branchOrder - 1 := hfull
      rw [if_pos hfull, if_pos hkeys]
      cases h with
      | root hp =>
        rw [hp]
        exact if_neg fun hne => hne rfl
      | step hp hne hpath =>
        rw [hp]
        dsimp only
        rw [if_pos hne, ih hpath (Nat.lt_of_succ_lt_succ hfuel), neededAbove]
        rfl
    · rw [if_neg hfull]
      exact if_neg hfull

/-! ### New nodes -/

/-- No commit and no eviction: nothing is written, and no slot is given up. -/
structure Untouched (t t' : TreeCache size) : Prop where
  flash : t'.flash = t.flash
  rootnodeAddr : t'.rootnodeAddr = t.rootnodeAddr
  pageList : t'.pageList = t.pageList
  clock : t'.clock = t.clock
  cacheUsage : ∀ a, t.cacheUsage a = true → t'.cacheUsage a = true

theorem Untouched.refl (t : TreeCache size) : Untouched t t := ⟨rfl, rfl, rfl, rfl, fun _ h => h⟩

theorem Untouched.trans {t'' : TreeCache size} (h : Untouched t t') (h' : Untouched t' t'') : Untouched t t'' :=
  ⟨h'.flash.trans h.flash, h'.rootnodeAddr.trans h.rootnodeAddr, h'.pageList.trans h.pageList, h'.clock.trans h.clock,
    fun a ha => h'.cacheUsage a (h.cacheUsage a ha)⟩

/-- Where a slot is free the first attempt succeeds. -/
theorem addNewCacheNode_of_free (h : t.countSetBits < size) : ∃ x t', addNewCacheNode o t = some (.ok x, t') ∧
    t.cacheUsage x = false ∧
    t' = { t.update x (fun _ => .cleared) with cacheUsage := Function.update t.cacheUsage x true, added := t.added + 1 } := by
  have hfree : ∃ x, t.findFirstFreeIndex = some x := by
    rw [← Option.isSome_iff_exists, findFirstFreeIndex, List.find?_isSome]
    by_contra hno
    have hall : ∀ x, t.cacheUsage x = true := by
      intro x
      by_contra hx
      exact hno ⟨x, List.mem_finRange x, by simpa using hx⟩
    have hcount : t.countSetBits = size := by
      rw [countSetBits, Finset.filter_true_of_mem fun x _ => hall x, Finset.card_univ, Fintype.card_fin]
    omega
  obtain ⟨x, hx⟩ := hfree
  refine ⟨x, _, ?_, ?_, rfl⟩
  · have hfirst : findFirstFreeIndex { t with added := t.added + 1 } = some x := hx
    rw [addNewCacheNode, tryAddNewCacheNode, hfirst]
    rfl
  · rw [findFirstFreeIndex] at hx
    simpa using List.find?_some hx

/-- So many calls to `addNewCacheNode`, each of which took a slot that was free. -/
structure Takes (n : Nat) (t t' : TreeCache size) : Prop where
  untouched : Untouched t t'
  added : t'.added = t.added + n
  countSetBits : t'.countSetBits = t.countSetBits + n

theorem Takes.trans {m n : Nat} {t'' : TreeCache size} (h : Takes m t t') (h' : Takes n t' t'') : Takes (m + n) t t'' :=
  ⟨h.untouched.trans h'.untouched, by rw [h'.added, h.added, Nat.add_assoc], by rw [h'.countSetBits, h.countSetBits, Nat.add_assoc]⟩

theorem Takes.of_cacheUsage_eq (hu : t'.cacheUsage = t.cacheUsage) (hflash : t'.flash = t.flash) (hroot : t'.rootnodeAddr = t.rootnodeAddr)
    (hlist : t'.pageList = t.pageList) (hclock : t'.clock = t.clock) (hadded : t'.added = t.added) : Takes 0 t t' :=
  ⟨⟨hflash, hroot, hlist, hclock, fun a ha => by rw [hu]; exact ha⟩, hadded, by unfold TreeCache.countSetBits; rw [hu]; rfl⟩

theorem countSetBits_add (h : t.cacheUsage x = false) (husage : t'.cacheUsage = Function.update t.cacheUsage x true) :
    t'.countSetBits = t.countSetBits + 1 := by
  have hinsert : (Finset.univ.filter fun i => t'.cacheUsage i = true) =
      insert x (Finset.univ.filter fun i => t.cacheUsage i = true) := by
    ext a
    rw [Finset.mem_insert, Finset.mem_filter_univ, Finset.mem_filter_univ, husage]
    by_cases ha : a = x
    · subst ha
      rw [Function.update_self]
      exact iff_of_true rfl (.inl rfl)
    · rw [Function.update_of_ne ha]
      exact ⟨.inr, fun h => h.resolve_left ha⟩
  have hnot : x ∉ Finset.univ.filter fun i => t.cacheUsage i = true := by
    rw [Finset.mem_filter_univ, h]
    exact Bool.false_ne_true
  rw [countSetBits, hinsert, Finset.card_insert_of_notMem hnot, countSetBits]

/-- One slot is new, and the other nodes are what they were but for their locks. -/
structure Adds (t t' : TreeCache size) (x : Fin size) : Prop where
  unused : t.cacheUsage x = false
  cacheUsage : t'.cacheUsage = Function.update t.cacheUsage x true
  raw : ∀ a, a ≠ x → (t'.cache a).raw = (t.cache a).raw
  parent : ∀ a, a ≠ x → (t'.cache a).parent = (t.cache a).parent
  pointers : ∀ a, a ≠ x → (t'.cache a).pointers = (t.cache a).pointers
  flash : t'.flash = t.flash
  rootnodeAddr : t'.rootnodeAddr = t.rootnodeAddr
  pageList : t'.pageList = t.pageList
  clock : t'.clock = t.clock
  added : t'.added = t.added + 1

namespace Adds

theorem ne_of_used (h : Adds t t' x) {a : Fin size} (ha : t.cacheUsage a = true) : a ≠ x := by
  rintro rfl
  rw [h.unused] at ha
  cases ha

theorem used (h : Adds t t' x) {a : Fin size} (ha : t.cacheUsage a = true) : t'.cacheUsage a = true := by
  rw [h.cacheUsage, Function.update_of_ne (h.ne_of_used ha)]
  exact ha

theorem used_self (h : Adds t t' x) : t'.cacheUsage x = true := by
  rw [h.cacheUsage, Function.update_self]

theorem takes (h : Adds t t' x) : Takes 1 t t' :=
  ⟨⟨h.flash, h.rootnodeAddr, h.pageList, h.clock, fun _ => h.used⟩, h.added, countSetBits_add h.unused h.cacheUsage⟩

theorem path (h : Adds t t' x) (hpath : t.Path p ps) (hused : ∀ a ∈ p :: ps, t.cacheUsage a = true) : t'.Path p ps :=
  hpath.congr fun a ha => h.parent a (h.ne_of_used (hused a ha))

theorem before (hs : Relocks t t') {t'' : TreeCache size} (h : Adds t' t'' x) : Adds t t'' x := by
  obtain ⟨_, _, rfl⟩ := hs
  exact ⟨h.unused, h.cacheUsage, h.raw, h.parent, h.pointers, h.flash, h.rootnodeAddr, h.pageList, h.clock, h.added⟩

theorem after (h : Adds t t' x) {t'' : TreeCache size} (hs : Relocks t' t'') : Adds t t'' x := by
  obtain ⟨_, _, rfl⟩ := hs
  exact ⟨h.unused, h.cacheUsage, h.raw, h.parent, h.pointers, h.flash, h.rootnodeAddr, h.pageList, h.clock, h.added⟩

end Adds

theorem addNewCacheNode_adds (h : t.countSetBits < size) : ∃ x t', addNewCacheNode o t = some (.ok x, t') ∧ Adds t t' x := by
  obtain ⟨x, t', hrun, hunused, rfl⟩ := addNewCacheNode_of_free h
  have hne : ∀ a, a ≠ x → (t.update x fun _ => .cleared).cache a = t.cache a := fun a ha => update_cache_ne t _ ha
  exact ⟨x, _, hrun, hunused, rfl, fun a ha => congrArg _ (hne a ha), fun a ha => congrArg _ (hne a ha),
    fun a ha => congrArg _ (hne a ha), rfl, rfl, rfl, rfl, rfl⟩

/-- A used node whose parent leads to the root over used nodes. -/
def Hangs (t : TreeCache size) (x : Fin size) : Prop :=
  t.cacheUsage x = true ∧ ∃ p ps, (t.cache x).parent = some p ∧ t.Path p ps ∧ ps.length < size ∧ ∀ a ∈ p :: ps, t.cacheUsage a = true

namespace Hangs

theorem relocks (h : t.Hangs x) (hs : Relocks t t') : t'.Hangs x := by
  obtain ⟨_, _, rfl⟩ := hs
  obtain ⟨hx, p, ps, hparent, hpath, hlen, hused⟩ := h
  exact ⟨hx, p, ps, hparent, hpath.congr fun _ _ => rfl, hlen, hused⟩

theorem adds (h : t.Hangs x) {y : Fin size} (ha : Adds t t' y) : t'.Hangs x := by
  obtain ⟨hx, p, ps, hparent, hpath, hlen, hused⟩ := h
  exact ⟨ha.used hx, p, ps, (ha.parent x (ha.ne_of_used hx)).trans hparent, ha.path hpath hused, hlen, fun a hm => ha.used (hused a hm)⟩

theorem lock (h : t.Hangs x) : ∃ t', Action.lock x t = some (.ok (), t') ∧ Relocks t t' ∧ (t'.cache x).locked = true := by
  obtain ⟨-, p, ps, hparent, hpath, hlen, -⟩ := h
  rw [Action.lock, lockTreeCacheNode_of_path hparent hpath hlen]
  exact ⟨_, rfl, ⟨_, _, rfl⟩, Function.update_self (f := fun a => (t.cache a).locked) ..⟩

theorem unlock (h : t.Hangs x) : ∃ t', Action.unlock x t = some (.ok (), t') ∧ Relocks t t' := by
  obtain ⟨-, p, ps, hparent, hpath, hlen, -⟩ := h
  obtain ⟨t', hrun, hs⟩ := unlockTreeCacheNode_of_path hparent hpath hlen
  rw [Action.unlock, hrun]
  exact ⟨t', rfl, hs⟩

end Hangs

theorem addNewCacheNodeBeside_adds (hleft : t.Hangs left) (hright : t.Hangs right) (hroom : t.countSetBits < size) :
    ∃ x t', addNewCacheNodeBeside o left right t = some (.ok x, t') ∧ Adds t t' x := by
  obtain ⟨t₁, hrun₁, hs₁, -⟩ := hleft.lock
  obtain ⟨t₂, hrun₂, hs₂, -⟩ := (hright.relocks hs₁).lock
  have hs₁₂ := hs₁.trans hs₂
  have hroom₂ : t₂.countSetBits < size := by
    rw [countSetBits, hs₁₂.cacheUsage]
    exact hroom
  obtain ⟨x, t₃, hrun₃, ha⟩ := addNewCacheNode_adds (o := o) hroom₂
  obtain ⟨t₄, hrun₄, hs₄⟩ := ((hleft.relocks hs₁₂).adds ha).unlock
  obtain ⟨t₅, hrun₅, hs₅⟩ := (((hright.relocks hs₁₂).adds ha).relocks hs₄).unlock
  refine ⟨x, t₅, ?_, (ha.before hs₁₂).after (hs₄.trans hs₅)⟩
  rw [addNewCacheNodeBeside, Action.bind_of_ok hrun₁, Action.bind_of_ok hrun₂, Action.bind_of_ok hrun₃, Action.bind_of_ok hrun₄,
    Action.bind_of_ok hrun₅]
  rfl

/-! ### Splitting -/

/-- The way to the root as far as an insertion relies on it. The children of a node stand below it. -/
structure Climbs (c : Config) (rank : Fin size → Nat) (t : TreeCache size) (x : Fin size) (ps : List (Fin size)) : Prop where
  path : t.Path x ps
  short : ps.length < size
  used : ∀ a ∈ x :: ps, t.cacheUsage a = true
  sorted : (x :: ps).Pairwise (rank · < rank ·)
  branch : ∀ p ∈ ps, (t.cache p).raw.isLeaf = false
  keys_le : ∀ p ∈ ps, (t.cache p).raw.keys ≤ c.branchOrder - 1
  below : ∀ p ∈ ps, ∀ i ≤ (t.cache p).raw.keys, ∀ d, (t.cache p).pointers i = some d →
    rank d < rank p ∧ t.cacheUsage d = true

namespace Climbs
variable {rank : Fin size → Nat}

theorem congr (h : Climbs c rank t x ps) (hused : ∀ a, t.cacheUsage a = true → t'.cacheUsage a = true)
    (hparent : ∀ a ∈ x :: ps, (t'.cache a).parent = (t.cache a).parent) (hraw : ∀ a ∈ ps, (t'.cache a).raw = (t.cache a).raw)
    (hpointers : ∀ a ∈ ps, (t'.cache a).pointers = (t.cache a).pointers) : Climbs c rank t' x ps := by
  refine ⟨h.path.congr hparent, h.short, fun a ha => hused a (h.used a ha), h.sorted, ?_, ?_, ?_⟩
  · intro p hp
    rw [hraw p hp]
    exact h.branch p hp
  · intro p hp
    rw [hraw p hp]
    exact h.keys_le p hp
  · intro p hp
    rw [hraw p hp, hpointers p hp]
    exact fun i hi d hd => ⟨(h.below p hp i hi d hd).1, hused d (h.below p hp i hi d hd).2⟩

theorem tail (h : Climbs c rank t x (p :: ps)) : Climbs c rank t p ps := by
  have hpath : t.Path p ps := by
    cases h.path with
    | step _ _ hpath => exact hpath
  exact ⟨hpath, (Nat.lt_succ_self _).trans h.short, fun a ha => h.used a (List.mem_cons_of_mem _ ha),
    (List.pairwise_cons.mp h.sorted).2, fun a ha => h.branch a (List.mem_cons_of_mem _ ha),
    fun a ha => h.keys_le a (List.mem_cons_of_mem _ ha), fun a ha => h.below a (List.mem_cons_of_mem _ ha)⟩

theorem hangs (h : Climbs c rank t x ps) : t.Hangs x := by
  refine ⟨h.used x List.mem_cons_self, ?_⟩
  cases hpath : h.path with
  | root hp => exact ⟨x, [], hp, h.path, h.short, h.used⟩
  | @step _ p rest hp _ hrest =>
    exact ⟨p, rest, hp, hrest, (Nat.lt_succ_self _).trans h.short, fun a ha => h.used a (List.mem_cons_of_mem _ ha)⟩

/-- A node with the same parent hangs as well. -/
theorem hangs_of_parent (h : Climbs c rank t x ps) {y : Fin size} (hy : t.cacheUsage y = true)
    (hparent : (t.cache y).parent = (t.cache x).parent) : t.Hangs y := by
  obtain ⟨-, p, rest, hp, hrest⟩ := h.hangs
  exact ⟨hy, p, rest, hparent.trans hp, hrest⟩

end Climbs

theorem neededAbove_congr (h : ∀ p ∈ ps, (t'.cache p).raw = (t.cache p).raw) : t'.neededAbove c ps = t.neededAbove c ps := by
  induction ps with
  | nil => rfl
  | cons p ps ih =>
    have hfull : t'.isFull c p ↔ t.isFull c p := by
      unfold isFull
      rw [h p List.mem_cons_self]
    rw [neededAbove, neededAbove, ih fun a ha => h a (List.mem_cons_of_mem _ ha)]
    simp only [hfull]

theorem store_eq (x : Fin size) (f : TreeCacheNode size → TreeCacheNode size) (t : TreeCache size) :
    Action.store x f t = some (.ok (), t.update x f) := rfl

theorem node_eq (x : Fin size) (t : TreeCache size) : Action.node x t = some (.ok (t.cache x), t) := rfl

theorem insertIntoNewRoot_takes (hleft : t.Hangs left) (hright : t.Hangs right) (hroom : t.countSetBits < size) (key : Nat) :
    ∃ t', insertIntoNewRoot o left key right t = some (.ok (), t') ∧ Takes 1 t t' := by
  obtain ⟨x, t₁, hrun, ha⟩ := addNewCacheNodeBeside_adds (o := o) hleft hright hroom
  rw [insertIntoNewRoot, Action.bind_of_ok hrun]
  refine ⟨_, rfl, ha.takes.trans (n := 0) ?_⟩
  exact .of_cacheUsage_eq rfl rfl rfl rfl rfl rfl

theorem as_of_branch {n : TreeNode} (h : n.isLeaf = false) : ∃ keys pointers, n.as = .branch keys pointers ∧ n.keys = keys.length := by
  obtain ⟨_ | ⟨keys, pointers⟩, self⟩ := n
  · cases h
  · exact ⟨keys, pointers, rfl, rfl⟩

theorem insertIntoNode_takes (hbranch : (t.cache p).raw.isLeaf = false) (leftIndex key : Nat) (right : Fin size) :
    ∃ t', insertIntoNode p leftIndex key right t = some (.ok (), t') ∧ Takes 0 t t' := by
  obtain ⟨keys, pointers, has, -⟩ := as_of_branch hbranch
  rw [insertIntoNode, Action.bind_of_ok (node_eq p t), Action.bind_of_ok (node_eq right t)]
  dsimp only
  rw [has]
  exact ⟨_, rfl, .of_cacheUsage_eq rfl rfl rfl rfl rfl rfl⟩

theorem getLeftIndex_le (t : TreeCache size) (p left : Fin size) : t.getLeftIndex p left ≤ (t.cache p).raw.keys := by
  unfold getLeftIndex
  dsimp only
  cases hfind : (List.range (t.cache p).raw.keys).find? fun i =>
      (t.cache p).raw.pointer i ≠ 0 && (t.cache p).raw.pointer i = (t.cache left).raw.self || (t.cache p).pointers i = some left with
  | none => exact le_rfl
  | some i => exact (List.mem_range.mp (List.mem_of_find?_eq_some hfind)).le

/-- A split moves children of the old node, and hangs the new node beside it. -/
structure Splits (t t' : TreeCache size) (oldNode newNode right : Fin size) : Prop where
  cacheUsage : t'.cacheUsage = t.cacheUsage
  flash : t'.flash = t.flash
  rootnodeAddr : t'.rootnodeAddr = t.rootnodeAddr
  pageList : t'.pageList = t.pageList
  clock : t'.clock = t.clock
  added : t'.added = t.added
  raw : ∀ a, a ≠ oldNode → a ≠ newNode → (t'.cache a).raw = (t.cache a).raw
  pointers : ∀ a, a ≠ oldNode → a ≠ newNode → (t'.cache a).pointers = (t.cache a).pointers
  parent : ∀ a, a ≠ newNode → a ≠ right → (∀ i ≤ (t.cache oldNode).raw.keys, (t.cache oldNode).pointers i ≠ some a) →
    (t'.cache a).parent = (t.cache a).parent
  parent_new : newNode ≠ right → (∀ i ≤ (t.cache oldNode).raw.keys, (t.cache oldNode).pointers i ≠ some newNode) →
    (t'.cache newNode).parent = (t.cache oldNode).parent

theorem adopt_splits {oldNode newNode : Fin size} (hne : oldNode ≠ newNode) {f g : TreeCacheNode size → TreeCacheNode size}
    {childs : List (Option (Fin size))} (hf : (f (t.cache oldNode)).parent = (t.cache oldNode).parent)
    (hg : (g (t.cache newNode)).parent = (t.cache oldNode).parent)
    (hchilds : ∀ a, some a ∈ childs → a = right ∨ ∃ i ≤ (t.cache oldNode).raw.keys, (t.cache oldNode).pointers i = some a) :
    Splits t (((t.update oldNode f).update newNode g).adopt newNode childs) oldNode newNode right := by
  have hcache : ∀ a, (((t.update oldNode f).update newNode g).adopt newNode childs).cache a =
      if some a ∈ childs then { ((t.update oldNode f).update newNode g).cache a with parent := some newNode }
      else ((t.update oldNode f).update newNode g).cache a := fun _ => rfl
  have hother : ∀ a, a ≠ oldNode → a ≠ newNode → ((t.update oldNode f).update newNode g).cache a = t.cache a := by
    intro a hold hnew
    rw [update_cache_ne _ _ hnew, update_cache_ne _ _ hold]
  have hparent : ∀ a, a ≠ newNode → (((t.update oldNode f).update newNode g).cache a).parent = (t.cache a).parent := by
    intro a hnew
    rw [update_cache_ne _ _ hnew]
    by_cases hold : a = oldNode
    · subst hold
      rw [update_cache_self, hf]
    · rw [update_cache_ne _ _ hold]
  have hnot : ∀ a, a ≠ right → (∀ i ≤ (t.cache oldNode).raw.keys, (t.cache oldNode).pointers i ≠ some a) → some a ∉ childs := by
    intro a hright hno hmem
    rcases hchilds a hmem with heq | ⟨i, hi, hsome⟩
    · exact hright heq
    · exact hno i hi hsome
  refine ⟨rfl, rfl, rfl, rfl, rfl, rfl, fun a hold hnew => ?_, fun a hold hnew => ?_, fun a hnew hright hno => ?_, fun hright hno => ?_⟩
  · rw [hcache, ← hother a hold hnew]
    split
    · rfl
    · rfl
  · rw [hcache, ← hother a hold hnew]
    split
    · rfl
    · rfl
  · rw [hcache, if_neg (hnot a hright hno), hparent a hnew]
  · rw [hcache, if_neg (hnot newNode hright hno), update_cache_self, update_cache_ne _ _ hne.symm, hg]

theorem Splits.takes {oldNode newNode : Fin size} (h : Splits t t' oldNode newNode right) : Takes 0 t t' :=
  .of_cacheUsage_eq h.cacheUsage h.flash h.rootnodeAddr h.pageList h.clock h.added

theorem insertPointer_cases {pointers : Nat → Option (Fin size)} {leftIndex i : Nat} {a : Fin size}
    (h : insertPointer pointers leftIndex (some right) i = some a) : a = right ∨ ∃ j, (j = i ∧ i ≤ leftIndex ∨ j + 1 = i) ∧ pointers j = some a := by
  unfold insertPointer at h
  split at h
  · rename_i hle
    exact .inr ⟨i, .inl ⟨rfl, hle⟩, h⟩
  · split at h
    · exact .inl (Option.some.inj h).symm
    · exact .inr ⟨i - 1, .inr (by omega), h⟩

theorem splitNode_splits {oldNode newNode : Fin size} (hne : oldNode ≠ newNode) (hbranch : (t.cache oldNode).raw.isLeaf = false)
    (hfull : (t.cache oldNode).raw.keys = c.branchOrder - 1) {leftIndex : Nat} (hle : leftIndex ≤ (t.cache oldNode).raw.keys)
    (key : Nat) (right : Fin size) :
    ∃ kPrime t', splitNode c oldNode newNode leftIndex key right t = some (.ok kPrime, t') ∧ Splits t t' oldNode newNode right := by
  obtain ⟨keys, pointers, has, -⟩ := as_of_branch hbranch
  rw [splitNode, Action.bind_of_ok (node_eq oldNode t), Action.bind_of_ok (node_eq right t)]
  dsimp only
  rw [has]
  refine ⟨_, _, rfl, adopt_splits hne rfl rfl fun a hmem => ?_⟩
  obtain ⟨j, hj, hsome⟩ := List.mem_map.mp hmem
  have hlast : cut c.branchOrder + j ≤ c.branchOrder := by
    have hj' := List.mem_range.mp hj
    have hcut := cut_spec c.branchOrder
    have horder := c.three_le_branchOrder
    omega
  rcases insertPointer_cases hsome with heq | ⟨i, hi, hpointer⟩
  · exact .inl heq
  · refine .inr ⟨i, ?_, hpointer⟩
    omega

/-- The nodes above a node that is split are split one after another, until one has room or there is a new root. -/
theorem insertIntoParent_takes {rank : Fin size → Nat} (h : Climbs c rank t left ps) (hused : t.cacheUsage right = true)
    (hright : right ∉ left :: ps) (hparent : (t.cache right).parent = (t.cache left).parent)
    (hroom : t.countSetBits + t.neededAbove c ps ≤ size) (key : Nat) {fuel : Nat} (hfuel : ps.length < fuel) :
    ∃ t', insertIntoParent o c fuel left key right t = some (.ok (), t') ∧ Takes (t.neededAbove c ps) t t' := by
  induction fuel generalizing t left right ps key with
  | zero => cases hfuel
  | succ fuel ih =>
    rw [insertIntoParent, Action.bind_of_ok (node_eq left t)]
    cases hpath : h.path with
    | root hp =>
      rw [hp]
      have hof : Action.ofOption (some left) t = some (.ok left, t) := rfl
      rw [Action.bind_of_ok hof, if_pos rfl]
      exact insertIntoNewRoot_takes h.hangs (h.hangs_of_parent hused hparent) hroom key
    | @step _ p rest hp hne _ =>
      have hof : Action.ofOption (some p) t = some (.ok p, t) := rfl
      have hread : Action.read (·.getLeftIndex p left) t = some (.ok (t.getLeftIndex p left), t) := rfl
      have hbranch := h.branch p List.mem_cons_self
      have hkeys := h.keys_le p List.mem_cons_self
      rw [hp, Action.bind_of_ok hof, if_neg hne.symm, Action.bind_of_ok hread, Action.bind_of_ok (node_eq p t)]
      by_cases hroomy : (t.cache p).raw.keys < c.branchOrder - 1
      · rw [if_pos hroomy]
        have hnone : t.neededAbove c (p :: rest) = 0 := by
          rw [neededAbove]
          refine if_neg fun hfull => ?_
          rw [isFull, hbranch] at hfull
          simp only [Bool.false_eq_true, if_false] at hfull
          omega
        rw [hnone]
        exact insertIntoNode_takes hbranch _ key right
      · rw [if_neg hroomy]
        have hfull : (t.cache p).raw.keys = c.branchOrder - 1 := by omega
        have hneeded : t.neededAbove c (p :: rest) = 1 + t.neededAbove c rest := by
          rw [neededAbove]
          refine if_pos ?_
          rw [isFull, hbranch, hfull]
          rfl
        rw [hneeded] at hroom ⊢
        obtain ⟨x, t₁, hrun₁, ha⟩ := addNewCacheNodeBeside_adds (o := o) h.tail.hangs (h.hangs_of_parent hused hparent) (by omega)
        have hpx : p ≠ x := ha.ne_of_used (h.tail.used p List.mem_cons_self)
        have hchild : ∀ i ≤ (t₁.cache p).raw.keys, ∀ d, (t₁.cache p).pointers i = some d → rank d < rank p ∧ t.cacheUsage d = true := by
          rw [ha.raw p hpx, ha.pointers p hpx]
          exact h.below p List.mem_cons_self
        have hle : t.getLeftIndex p left ≤ (t₁.cache p).raw.keys := by
          rw [ha.raw p hpx]
          exact getLeftIndex_le t p left
        obtain ⟨kPrime, t₂, hrun₂, hs⟩ := splitNode_splits hpx (by rw [ha.raw p hpx]; exact hbranch)
          (by rw [ha.raw p hpx]; exact hfull) hle key right
        rw [Action.bind_of_ok hrun₁, Action.bind_of_ok hrun₂]
        have hsorted := List.pairwise_cons.mp (List.pairwise_cons.mp h.sorted).2
        have husage : ∀ a, t.cacheUsage a = true → t₂.cacheUsage a = true := by
          intro a hu
          rw [hs.cacheUsage]
          exact ha.used hu
        have hnode : ∀ a ∈ rest, a ≠ p ∧ a ≠ x := by
          intro a hmem
          refine ⟨?_, ha.ne_of_used (h.used a (by simp [hmem]))⟩
          rintro rfl
          exact (hsorted.1 a hmem).false
        have hup : ∀ a ∈ p :: rest, (t₂.cache a).parent = (t.cache a).parent := by
          intro a hmem
          have hax : a ≠ x := ha.ne_of_used (h.tail.used a hmem)
          have haright : a ≠ right := by
            rintro rfl
            exact hright (List.mem_cons_of_mem _ hmem)
          have hnot : ∀ i ≤ (t₁.cache p).raw.keys, (t₁.cache p).pointers i ≠ some a := by
            intro i hi hsome
            have hlt := (hchild i hi a hsome).1
            rcases List.mem_cons.mp hmem with rfl | hmem
            · exact hlt.false
            · exact (hlt.trans (hsorted.1 a hmem)).false
          rw [hs.parent a hax haright hnot, ha.parent a hax]
        have hraw : ∀ a ∈ rest, (t₂.cache a).raw = (t.cache a).raw := by
          intro a hmem
          rw [hs.raw a (hnode a hmem).1 (hnode a hmem).2, ha.raw a (hnode a hmem).2]
        have hpointers : ∀ a ∈ rest, (t₂.cache a).pointers = (t.cache a).pointers := by
          intro a hmem
          rw [hs.pointers a (hnode a hmem).1 (hnode a hmem).2, ha.pointers a (hnode a hmem).2]
        have hclimbs : Climbs c rank t₂ p rest := h.tail.congr husage hup hraw hpointers
        have hx : t₂.cacheUsage x = true := by
          rw [hs.cacheUsage]
          exact ha.used_self
        have hxabove : x ∉ p :: rest := fun hmem => ha.ne_of_used (h.tail.used x hmem) rfl
        have hxparent : (t₂.cache x).parent = (t₂.cache p).parent := by
          have hxright : x ≠ right := (ha.ne_of_used hused).symm
          have hnot : ∀ i ≤ (t₁.cache p).raw.keys, (t₁.cache p).pointers i ≠ some x := by
            intro i hi hsome
            exact ha.ne_of_used (hchild i hi x hsome).2 rfl
          rw [hs.parent_new hxright hnot, hup p List.mem_cons_self, ha.parent p hpx]
        have htakes : Takes 1 t t₂ := ha.takes.trans hs.takes
        have hcount := htakes.countSetBits
        have hneeded₂ : t₂.neededAbove c rest = t.neededAbove c rest := neededAbove_congr hraw
        obtain ⟨t₃, hrun₃, htakes₃⟩ := ih hclimbs hx hxabove hxparent (by omega) kPrime (Nat.lt_of_succ_lt_succ hfuel)
        rw [hneeded₂] at htakes₃
        exact ⟨t₃, hrun₃, htakes.trans htakes₃⟩

/-- One node for the leaf, and those above it. -/
theorem insertIntoLeafAfterSplitting_takes {rank : Fin size → Nat} (h : Climbs c rank t x ps)
    (hleaf : (t.cache x).raw.isLeaf = true) (hroom : t.countSetBits + (1 + t.neededAbove c ps) ≤ size) (inode : Inode) :
    ∃ t', insertIntoLeafAfterSplitting o c x inode t = some (.ok (), t') ∧ Takes (1 + t.neededAbove c ps) t t' := by
  have hx := h.used x List.mem_cons_self
  obtain ⟨t₁, hrun₁, hs₁, -⟩ := h.hangs.lock
  have hroom₁ : t₁.countSetBits < size := by
    rw [countSetBits, hs₁.cacheUsage]
    rw [countSetBits] at hroom
    omega
  obtain ⟨y, t₂, hrun₂, hadd⟩ := addNewCacheNode_adds (o := o) hroom₁
  have hrun₂' : Action.attempt (addNewCacheNode o) t₁ = some (.ok (.ok y), t₂) := by
    rw [Action.attempt, hrun₂]
    rfl
  obtain ⟨t₃, hrun₃, hs₃⟩ := ((h.hangs.relocks hs₁).adds hadd).unlock
  have ha : Adds t t₃ y := (hadd.before hs₁).after hs₃
  have hof : Action.ofExcept (.ok y) t₃ = some (.ok y, t₃) := rfl
  have hxy : x ≠ y := ha.ne_of_used hx
  have hleaf₃ : ∃ l, (t₃.cache x).raw.as = .leaf l := by
    rw [ha.raw x hxy]
    cases has : (t.cache x).raw.as with
    | leaf l => exact ⟨l, rfl⟩
    | branch keys pointers =>
      rw [TreeNode.isLeaf, has] at hleaf
      cases hleaf
  obtain ⟨l, hl⟩ := hleaf₃
  rw [insertIntoLeafAfterSplitting, Action.bind_of_ok hrun₁, Action.bind_of_ok hrun₂', Action.bind_of_ok hrun₃,
    Action.bind_of_ok hof, Action.bind_of_ok (node_eq x t₃)]
  dsimp only
  rw [hl]
  dsimp only
  rw [Action.bind_of_ok (store_eq ..), Action.bind_of_ok (store_eq ..)]
  set f : TreeCacheNode size → TreeCacheNode size := fun n => { n with raw := { n.raw with as := .leaf (splitLeaf c l inode).1 }, dirty := true }
  set g : TreeCacheNode size → TreeCacheNode size := fun m =>
    { m with raw := { m.raw with as := .leaf (splitLeaf c l inode).2 }, dirty := true, parent := (t₃.cache x).parent }
  set t₄ : TreeCache size := (t₃.update y g).update x f
  have hparent : (t₄.cache x).parent = (t.cache x).parent := by
    rw [update_cache_self, update_cache_ne _ _ hxy]
    exact ha.parent x hxy
  have hparent' : (t₄.cache y).parent = (t.cache x).parent := by
    rw [update_cache_ne _ _ hxy.symm, update_cache_self]
    exact ha.parent x hxy
  have hother : ∀ a ∈ ps, t₄.cache a = t₃.cache a ∧ a ≠ y := by
    intro a hmem
    have hay : a ≠ y := ha.ne_of_used (h.used a (List.mem_cons_of_mem _ hmem))
    have hax : a ≠ x := by
      rintro rfl
      exact ((List.pairwise_cons.mp h.sorted).1 a hmem).false
    exact ⟨(update_cache_ne _ _ hax).trans (update_cache_ne _ _ hay), hay⟩
  have hclimbs : Climbs c rank t₄ x ps := by
    refine h.congr (fun a => ha.used) (fun a hmem => ?_) (fun a hmem => ?_) fun a hmem => ?_
    · rcases List.mem_cons.mp hmem with rfl | hmem
      · exact hparent
      · rw [(hother a hmem).1, ha.parent a (hother a hmem).2]
    · rw [(hother a hmem).1, ha.raw a (hother a hmem).2]
    · rw [(hother a hmem).1, ha.pointers a (hother a hmem).2]
  have hneeded : t₄.neededAbove c ps = t.neededAbove c ps :=
    neededAbove_congr fun a hmem => by rw [(hother a hmem).1, ha.raw a (hother a hmem).2]
  have hstores : Takes 0 t₃ t₄ := .of_cacheUsage_eq rfl rfl rfl rfl rfl rfl
  have htakes : Takes 1 t t₄ := ha.takes.trans hstores
  have hcount := htakes.countSetBits
  have hy : y ∉ x :: ps := fun hmem => ha.ne_of_used (h.used y hmem) rfl
  obtain ⟨t', hrun, htakes'⟩ := insertIntoParent_takes (o := o) hclimbs ha.used_self hy (hparent'.trans hparent.symm)
    (by omega) (u16 (newLeafKey c l inode)) h.short
  rw [hneeded] at htakes'
  exact ⟨t', hrun, htakes.trans htakes'⟩

theorem insertIntoTarget_takes {rank : Fin size → Nat} (h : Climbs c rank t x ps) (hleaf : (t.cache x).raw.isLeaf = true)
    (hkeys : (t.cache x).raw.keys ≤ c.leafOrder)
    (hroom : t.countSetBits + (if t.isFull c x then 1 + t.neededAbove c ps else 0) ≤ size) (inode : Inode) :
    ∃ t', insertIntoTarget o c x inode t = some (.ok (), t') ∧ Takes (if t.isFull c x then 1 + t.neededAbove c ps else 0) t t' := by
  rw [insertIntoTarget, Action.bind_of_ok (node_eq x t)]
  by_cases hfull : t.isFull c x
  · rw [if_pos hfull] at hroom ⊢
    rw [isFull, hleaf, if_pos rfl] at hfull
    rw [if_neg (by omega)]
    exact insertIntoLeafAfterSplitting_takes h hleaf hroom inode
  · rw [if_neg hfull]
    rw [isFull, hleaf, if_pos rfl] at hfull
    rw [if_pos (by omega), insertIntoLeaf, Action.bind_of_ok (node_eq x t)]
    dsimp only
    cases has : (t.cache x).raw.as with
    | leaf l => exact ⟨_, rfl, .of_cacheUsage_eq rfl rfl rfl rfl rfl rfl⟩
    | branch keys pointers =>
      rw [TreeNode.isLeaf, has] at hleaf
      cases hleaf

/-! ### From the reservation on -/

/-- No node has more keys than fit. -/
def Bounded (c : Config) (t : TreeCache size) : Prop :=
  ∀ x, t.cacheUsage x = true → (t.cache x).raw.keys ≤ if (t.cache x).raw.isLeaf then c.leafOrder else c.branchOrder - 1

theorem Linked.exists_climbs (h : t.Linked) (hb : t.Bounded c) (hx : t.cacheUsage x = true) : ∃ rank ps, Climbs c rank t x ps := by
  obtain ⟨rank, hr⟩ := h.ranked
  obtain ⟨ps, hpath, hlen, hsorted, hall⟩ := h.exists_path hr hx
  refine ⟨rank, ps, hpath, by omega, ?_, hsorted, fun p hp => (hall p hp).2, fun p hp => ?_, fun p hp i hi d hd => ?_⟩
  · intro a ha
    rcases List.mem_cons.mp ha with rfl | ha
    · exact hx
    · exact (hall a ha).1
  · have hle := hb p (hall p hp).1
    rwa [(hall p hp).2, if_neg Bool.false_ne_true] at hle
  · have hchild : t.HasChild p i d := ⟨(hall p hp).2, hi, hd⟩
    exact ⟨hr.lt_of_hasChild p i d (hall p hp).1 hchild, (h.child p i d (hall p hp).1 hchild).1⟩

theorem Bounded.thins (hb : t.Bounded c) (h : Thins t t') : t'.Bounded c := by
  intro x hx
  rw [(h.as x).keys, (h.as x).isLeaf]
  exact hb x (h.subset x hx)

theorem Bounded.relocks (hb : t.Bounded c) (h : Relocks t t') : t'.Bounded c := by
  obtain ⟨_, _, rfl⟩ := h
  exact hb

theorem Relocks.raw (h : Relocks t t') (x : Fin size) : (t'.cache x).raw = (t.cache x).raw := by
  obtain ⟨_, _, rfl⟩ := h
  rfl

theorem calculateMaxNeededNewNodesForInsertion_congr (hkeys : ∀ a, (t'.cache a).raw.keys = (t.cache a).raw.keys)
    (hleaf : ∀ a, (t'.cache a).raw.isLeaf = (t.cache a).raw.isLeaf) (hparent : ∀ a, (t'.cache a).parent = (t.cache a).parent)
    (fuel : Nat) (x : Fin size) :
    t'.calculateMaxNeededNewNodesForInsertion c fuel x = t.calculateMaxNeededNewNodesForInsertion c fuel x := by
  induction fuel generalizing x with
  | zero => rfl
  | succ fuel ih =>
    rw [calculateMaxNeededNewNodesForInsertion, calculateMaxNeededNewNodesForInsertion]
    simp only [hkeys, hleaf, hparent, ih]

/-- What is predicted for the leaf, locked and with room made for it, is exactly what the insertion takes then: each call to
`addNewCacheNode` gets a slot that was free, so that nothing is written and no node is given up before all is in place. -/
theorem insertion_takes_predicted (ho : o.Careful) (h : t.Valid) (hb : t.Bounded c) (hx : t.cacheUsage x = true)
    (hleaf : (t.cache x).raw.isLeaf = true) (inode : Inode) :
    ∃ t₁ needed, Action.lock x t = some (.ok (), t₁) ∧ t₁.calculateMaxNeededNewNodesForInsertion c size x = some needed ∧
      ∃ r t₂, t₁.reserveNodes o needed = some (r, t₂) ∧
        (r = .ok → ∃ t₃ t₄, Action.unlock x t₂ = some (.ok (), t₃) ∧ insertIntoTarget o c x inode t₃ = some (.ok (), t₄) ∧
          Takes needed t₃ t₄) := by
  obtain ⟨_, _, hclimbs⟩ := h.toLinked.exists_climbs hb hx
  obtain ⟨t₁, hlock, hs₁, hlocked⟩ := hclimbs.hangs.lock
  have hv₁ := hs₁.valid h
  have hb₁ := hb.relocks hs₁
  have hx₁ : t₁.cacheUsage x = true := by rwa [hs₁.cacheUsage]
  obtain ⟨_, ps₁, hclimbs₁⟩ := hv₁.toLinked.exists_climbs hb₁ hx₁
  have hneeded := calculateMaxNeededNewNodesForInsertion_of_path (c := c) hclimbs₁.path hclimbs₁.short
  refine ⟨t₁, _, hlock, hneeded, ?_⟩
  set needed := if t₁.isFull c x then 1 + t₁.neededAbove c ps₁ else 0
  obtain ⟨r, t₂, hreserve, hf, hroom⟩ := reserveNodes_frees ho hv₁ needed
  refine ⟨r, t₂, hreserve, fun hok => ?_⟩
  have hth := hf.thins
  have hx₂ : t₂.cacheUsage x = true := hth.stays x hx₁ (.inl hlocked)
  have hb₂ := hb₁.thins hth
  obtain ⟨_, _, hclimbs₂⟩ := hf.valid.toLinked.exists_climbs hb₂ hx₂
  obtain ⟨t₃, hunlock, hs₃⟩ := hclimbs₂.hangs.unlock
  obtain ⟨_, ps₃, hclimbs₃⟩ := (hs₃.valid hf.valid).toLinked.exists_climbs (hb₂.relocks hs₃) (x := x) (by rwa [hs₃.cacheUsage])
  -- what is needed depends on keys, leaves and parents only
  have hsame : t₃.calculateMaxNeededNewNodesForInsertion c size x = t₁.calculateMaxNeededNewNodesForInsertion c size x :=
    calculateMaxNeededNewNodesForInsertion_congr (fun a => by rw [hs₃.raw, (hth.as a).keys])
      (fun a => by rw [hs₃.raw, (hth.as a).isLeaf]) (fun a => (hs₃.parent a).trans (hth.parent a)) size x
  rw [calculateMaxNeededNewNodesForInsertion_of_path hclimbs₃.path hclimbs₃.short, hneeded] at hsame
  have heq : (if t₃.isFull c x then 1 + t₃.neededAbove c ps₃ else 0) = needed := Option.some.inj hsame
  have hleaf₃ : (t₃.cache x).raw.isLeaf = true := by rw [hs₃.raw, (hth.as x).isLeaf, hs₁.raw, hleaf]
  have hkeys₃ : (t₃.cache x).raw.keys ≤ c.leafOrder := by
    have hle := (hb₂.relocks hs₃) x (hclimbs₃.used x List.mem_cons_self)
    rwa [hleaf₃, if_pos rfl] at hle
  have hroom₃ : t₃.countSetBits + (if t₃.isFull c x then 1 + t₃.neededAbove c ps₃ else 0) ≤ size := by
    have hle := t₂.countSetBits_le
    have hcount : t₃.countSetBits = t₂.countSetBits := by rw [countSetBits, hs₃.cacheUsage, countSetBits]
    have := hroom hok
    omega
  obtain ⟨t₄, hrun, htakes⟩ := insertIntoTarget_takes (o := o) hclimbs₃ hleaf₃ hkeys₃ hroom₃ inode
  rw [heq] at htakes
  exact ⟨t₃, t₄, hunlock, hrun, htakes⟩

/-! A root that is a full leaf: it is split, and both halves get a new root. -/

def fullRoot : TreeCache 3 where
  cacheRoot := 0
  cache := fun _ =>
    ⟨⟨.leaf ⟨[1, 2, 3, 4, 5].map fun no => (no, .empty (.ofNat no)), []⟩, 1⟩, some 0, fun _ => none, true, false, false⟩
  cacheUsage := fun i => i = 0
  rootnodeAddr := 0
  flash := fun _ => none
  pageList := []
  clock := 0
  added := 0

theorem fullRoot_valid : fullRoot.Valid := by
  have hused : ∀ a, fullRoot.cacheUsage a = true → a = 0 := fun a ha => by simpa [fullRoot] using ha
  refine ⟨⟨.inl rfl, fun _ _ => rfl, ?_, nofun, nofun, fun _ => 0, nofun, fun _ => by decide⟩, nofun, nofun, nofun, nofun, nofun⟩
  exact fun a ha hne => absurd (hused a ha) hne

theorem fullRoot_bounded : fullRoot.Bounded .default := fun _ _ => (by decide : 5 ≤ Config.default.leafOrder)

theorem fullRoot_takes_two : (∃ t₁ needed, Action.lock 0 fullRoot = some (.ok (), t₁) ∧
    t₁.calculateMaxNeededNewNodesForInsertion .default 3 0 = some needed ∧
      ∃ r t₂, t₁.reserveNodes quietDevice needed = some (r, t₂) ∧
        (r = .ok → ∃ t₃ t₄, Action.unlock 0 t₂ = some (.ok (), t₃) ∧
          insertIntoTarget quietDevice .default 0 (.empty 6) t₃ = some (.ok (), t₄) ∧ Takes needed t₃ t₄)) ∧
    fullRoot.calculateMaxNeededNewNodesForInsertion .default 3 0 = some 2 ∧
    ((fullRoot.lockTreeCacheNode 0).bind (·.reserveNodes quietDevice 2)).map Prod.fst = some .ok :=
  ⟨insertion_takes_predicted quietDevice_careful fullRoot_valid fullRoot_bounded rfl rfl (.empty 6), by decide, by decide⟩

end TreeCache
end Paffs.Tree
