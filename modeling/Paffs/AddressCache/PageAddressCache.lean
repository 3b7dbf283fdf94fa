import Paffs.AddressCache.Device

/-! The page address cache: of each indirection of one inode, the path of address lists that was used last. -/
namespace Paffs.AddressCache
open Journal

structure AddrListCacheElem (n : Nat) where
  cache : AddrList n
  positionInParent : Fin n
  dirty : Bool
  active : Bool

/-- The constructor clears the flags only. -/
def AddrListCacheElem.fresh (n : Nat) [NeZero n] : AddrListCacheElem n := ⟨fun _ => 0, 0, false, false⟩

def AddrListCacheElem.setAddr {n : Nat} (elem : AddrListCacheElem n) (pos : Fin n) (addr : Addr) : AddrListCacheElem n :=
  if elem.cache pos = addr then elem
  else { elem with cache := Function.update elem.cache pos addr, dirty := true }

/-- No valid entries. -/
def AddrListCacheElem.Empty {n : Nat} (elem : AddrListCacheElem n) : Prop := ∀ i, elem.cache i = 0

instance {n : Nat} (elem : AddrListCacheElem n) : Decidable elem.Empty := inferInstanceAs (Decidable (∀ _, _))

/-- `loadCacheElem` -/
def AddrListCacheElem.load {n : Nat} (elem : AddrListCacheElem n) (d : Device n) (source : Addr) : AddrListCacheElem n :=
  { elem with cache := d.readAddrList source, active := true, dirty := false }

/-- What `loadPath` and `commitPath` get: the device, the list array `start`, and the inode's address of the
first list. -/
structure Path (n : Nat) where
  dev : Device n
  start : Nat → AddrListCacheElem n
  anchor : Addr

namespace Path
variable {n : Nat} (areas : Areas n)

def setElem (i : Nat) (elem : AddrListCacheElem n) (w : Path n) : Path n := { w with start := Function.update w.start i elem }

/-- `commitElem(start[i - 1], start[i])` -/
def commitElem (i : Nat) (w : Path n) : Result × Path n :=
  let parent := w.start (i - 1)
  let elem := w.start i
  if !elem.active then (.bug, w)
  else if !elem.dirty then (.ok, w)
  else if elem.Empty then
    let (r, dev) := w.dev.setPageStatus (parent.cache elem.positionInParent) .dirty
    if r ≠ .ok then (r, { w with dev })
    else
      let parent := { parent with cache := Function.update parent.cache elem.positionInParent 0, dirty := true }
      (.ok, setElem i { elem with dirty := false, active := false } (setElem (i - 1) parent { w with dev }))
  else
    let (r, addr, dev) := w.dev.writeAddrList areas (parent.cache elem.positionInParent) elem.cache
    if r ≠ .ok then (r, { w with dev })
    else
      let parent := { parent with cache := Function.update parent.cache elem.positionInParent addr, dirty := true }
      (.ok, setElem i { elem with dirty := false } (setElem (i - 1) parent { w with dev }))

/-- List `i` of position `pos`. -/
def loaded (i : Nat) (pos : Fin n) (w : Path n) : Path n :=
  w.setElem i { (w.start i).load w.dev ((w.start (i - 1)).cache pos) with positionInParent := pos }

/-- Load it if it was inactive or has just been committed. -/
def reload (i : Nat) (pos : Fin n) (w : Path n) : Path n :=
  if !(w.start i).active || (w.start i).positionInParent ≠ pos then w.loaded i pos else w

/-- One turn of the loop in `loadPath`, for list `i` at position `pos` of its parent. Another list that is there
would be overridden. -/
def loadElem (i : Nat) (pos : Fin n) (w : Path n) : Result × Path n :=
  andThen (if (w.start i).active && (w.start i).positionInParent ≠ pos then w.commitElem areas i else (.ok, w)) fun w =>
    (.ok, w.reload i pos)

/-- The loop from list `i` on. -/
def loadRest : List (Fin n) → Nat → Path n → Result × Path n
  | [], _, w => (.ok, w)
  | pos :: path, i, w => andThen (w.loadElem areas i pos) (loadRest path (i + 1))

def loadRoot (w : Path n) : Path n :=
  if (w.start 0).active then w else w.setElem 0 ((w.start 0).load w.dev w.anchor)

/-- `path` holds the positions of the lists below the first one; the last position of the source's `path` is `addrPos`. -/
def loadPath (path : List (Fin n)) (w : Path n) : Result × Path n := loadRest areas path 1 w.loadRoot

/-- The loop of `commitPath`, from the deepest list up. -/
def commitBelow : Nat → Path n → Result × Path n
  | 0, w => (.ok, w)
  | i + 1, w => andThen (if (w.start (i + 1)).dirty then w.commitElem areas (i + 1) else (.ok, w)) (commitBelow i)

def commitRoot (w : Path n) : Result × Path n :=
  let elem := w.start 0
  if !elem.dirty then (.ok, w)
  else if elem.Empty then
    let (r, dev) := w.dev.setPageStatus w.anchor .dirty
    if r ≠ .ok then (r, { w with dev })
    else (.ok, setElem 0 { elem with dirty := false } { w with dev, anchor := 0 })
  else
    let (r, addr, dev) := w.dev.writeAddrList areas w.anchor elem.cache
    if r ≠ .ok then (r, { w with dev })
    else (.ok, setElem 0 { elem with dirty := false } { w with dev, anchor := addr })

def commitPath (depth : Nat) (w : Path n) : Result × Path n := andThen (w.commitBelow areas depth) (commitRoot areas)

end Path

/-- `singl`, `doubl` and `tripl` -/
inductive Indirection where
  | singl | doubl | tripl
  deriving DecidableEq, Repr

namespace Indirection

/-- The index of the last list. -/
def depth : Indirection → Nat
  | singl => 0
  | doubl => 1
  | tripl => 2

/-- The address of the first list. -/
def anchor (inode : Inode) : Indirection → Addr
  | singl => inode.indir
  | doubl => inode.d_indir
  | tripl => inode.t_indir

def setAnchor (inode : Inode) (addr : Addr) : Indirection → Inode
  | singl => { inode with indir := addr }
  | doubl => { inode with d_indir := addr }
  | tripl => { inode with t_indir := addr }

/-- The pages of all smaller indirections. -/
def offset (n : Nat) : Indirection → Nat
  | singl => directAddrCount
  | doubl => directAddrCount + n
  | tripl => directAddrCount + n + n ^ 2

end Indirection

/-- `path[0]` to `path[depth]` -/
def positions (n : Nat) [NeZero n] : Nat → Nat → List (Fin n)
  | 0, pageOffs => [Fin.ofNat n pageOffs]
  | depth + 1, pageOffs => Fin.ofNat n (pageOffs / n ^ (depth + 1)) :: positions n depth pageOffs

/-- The address of an inode object in RAM. -/
abbrev Slot := Nat

structure PageAddressCache (n : Nat) where
  lists : Indirection → Nat → AddrListCacheElem n
  mInodePtr : Option Slot
  isInodeDirty : Bool

/-- The cache, and the memory it points to. -/
structure State (n : Nat) where
  dev : Device n
  ram : Slot → Inode
  pac : PageAddressCache n

namespace State
variable {n : Nat} [NeZero n] (areas : Areas n)

/-- Where a page number belongs: to the inode itself, or into the lists of an indirection. -/
def locate (n : Nat) [NeZero n] (page : PageNo) : Option (Fin directAddrCount ⊕ Indirection × List (Fin n)) :=
  if h : page < directAddrCount then some (.inl ⟨page, h⟩)
  else
    let page := page - directAddrCount
    if page < n then some (.inr (.singl, positions n 0 page))
    else
      let page := page - n
      if page < n ^ 2 then some (.inr (.doubl, positions n 1 page))
      else
        let page := page - n ^ 2
        if page < n ^ 3 then some (.inr (.tripl, positions n 2 page)) else none

def path (s : State n) (slot : Slot) (t : Indirection) : Path n := ⟨s.dev, s.pac.lists t, t.anchor (s.ram slot)⟩

def setPath (s : State n) (slot : Slot) (t : Indirection) (w : Path n) : State n :=
  { dev := w.dev
    ram := Function.update s.ram slot (t.setAnchor (s.ram slot) w.anchor)
    pac := { s.pac with lists := Function.update s.pac.lists t w.start } }

/-- An action on one of the three list paths. -/
def onPath (slot : Slot) (t : Indirection) (f : Path n → Result × Path n) (s : State n) : Result × State n :=
  let (r, w) := f (s.path slot t)
  (r, s.setPath slot t w)

def isDirty (s : State n) : Bool :=
  (s.pac.lists .singl 0).dirty || (s.pac.lists .doubl 0).dirty || (s.pac.lists .doubl 1).dirty ||
    (s.pac.lists .tripl 0).dirty || (s.pac.lists .tripl 1).dirty || (s.pac.lists .tripl 2).dirty

def commit (s : State n) : Result × State n :=
  match s.pac.mInodePtr with
  | none => (.bug, s)
  | some slot =>
    if !s.pac.isInodeDirty then (.ok, s)
    else
      andThen (s.onPath slot .singl (Path.commitPath areas 0)) fun s =>
      andThen (s.onPath slot .doubl (Path.commitPath areas 1)) fun s =>
      andThen (s.onPath slot .tripl (Path.commitPath areas 2)) fun s =>
        if s.isDirty then (.bug, s)
        else
          let (r, dev) := s.dev.updateExistingInode (s.ram slot)
          (r, { s with dev := dev.invalidateOldPages.addEvent (.entry (.checkpoint .pac))
                       pac := { s.pac with isInodeDirty := false } })

def setTargetInode (slot : Slot) (s : State n) : Result × State n :=
  if s.pac.mInodePtr = some slot then (.ok, s)
  else
    andThen (if s.isDirty then s.commit areas else (.ok, s)) fun s =>
      let lists := fun t i => { s.pac.lists t i with active := false }
      (.ok, { s with pac := { s.pac with lists, mInodePtr := some slot } })

/-- The address comes with the result. -/
def getPage (page : PageNo) (s : State n) : Result × Addr × State n :=
  match s.pac.mInodePtr with
  | none => (.bug, 0, s)
  | some slot =>
    match locate n page with
    | some (.inl i) => (.ok, (s.ram slot).direct i, s)
    | some (.inr (t, path)) =>
      let (r, s) := s.onPath slot t (Path.loadPath areas path.dropLast)
      if r ≠ .ok then (r, 0, s) else (.ok, (s.pac.lists t t.depth).cache (path.getLastD 0), s)
    | none => (.tooBig, 0, s)

/-- The journal is told before the change. -/
def change (slot : Slot) (page : PageNo) (addr : Addr) (f : State n → State n) (s : State n) : State n :=
  let s := f { s with dev := s.dev.addEvent (.entry (.setAddress (s.ram slot).no page addr)) }
  { s with pac := { s.pac with isInodeDirty := true } }

def setPage (page : PageNo) (addr : Addr) (s : State n) : Result × State n :=
  match s.pac.mInodePtr with
  | none => (.bug, s)
  | some slot =>
    if s.dev.readOnly then (.bug, s)
    else
      match locate n page with
      | some (.inl i) =>
        if (s.ram slot).direct i = addr then (.ok, s)
        else
          (.ok, s.change slot page addr fun s =>
            let inode := { s.ram slot with direct := Function.update (s.ram slot).direct i addr }
            { s with ram := Function.update s.ram slot inode })
      | some (.inr (t, path)) =>
        andThen (if s.dev.getMinSpaceLeft < 6 then s.commit areas else (.ok, s)) fun s =>
        andThen (s.onPath slot t (Path.loadPath areas path.dropLast)) fun s =>
          if (s.pac.lists t t.depth).cache (path.getLastD 0) = addr then (.ok, s)
          else
            (.ok, s.change slot page addr fun s =>
              s.setPath slot t ((s.path slot t).setElem t.depth ((s.pac.lists t t.depth).setAddr (path.getLastD 0) addr)))
      | none =>
        andThen (if s.dev.getMinSpaceLeft < 6 then s.commit areas else (.ok, s)) fun s => (.tooBig, s)

/-- Data pages are replaced by now; only what the lists have superseded is given up. -/
def setValid (s : State n) : Result × State n := (.ok, { s with dev := s.dev.invalidateOldPages })

end State
end Paffs.AddressCache
