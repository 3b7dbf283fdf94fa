import Paffs.DataIO.Tracked

/-! The count of the pages, when the address cache may fail. -/
namespace Paffs.DataIO
open Bytes (Byte Memory)

def directAddrCount : Nat := 11

/-- The address cache has to read lists, and to write some before it takes a new address. Direct addresses need no list. -/
structure CacheEnv extends Env where
  getPage : Nat → PageNo → Result
  setPage : Nat → PageNo → Result
  direct : ∀ n p, p < directAddrCount → setPage n p = .ok

variable {c : Config} {env : CacheEnv}

namespace CacheEnv
open State (finishWrite pagesBehind bytesToWrite)

/-! ### Writing -/

/-- The page is written, but not mapped. -/
def storeUnmapped (s : State) (page : PageNo) (newAddress : Addr) (content : Memory) : State :=
  { s with
    flash := Function.update s.flash newAddress content
    reservedPages := if s.page page = 0 then (s.reservedPages + 1) % 2 ^ 16 else s.reservedPages }

variable (c env)

/-- One round of `writePageData`. The result of `setPage` is not looked at. -/
def writePage (s : State) (pageFrom page offs bytes filesize bytesWritten : Nat) (data : Memory) : (Result × Nat) × State :=
  match env.findFreePage s.clock s.used with
  | .error r => ((r, bytesWritten), s)
  | .ok newAddress =>
    if page + pageFrom ≥ env.addressable then ((.tooBig, bytesWritten), s)
    else
      match env.getPage s.clock (page + pageFrom) with
      | .ok =>
        let oldAddr := s.page (page + pageFrom)
        let s := (s.replacePage c newAddress oldAddr).2
        let content := s.pageContent c pageFrom page offs bytes filesize bytesWritten data oldAddr
        let bytesWritten := bytesWritten + bytesToWrite c offs bytes bytesWritten
        match env.outcome s.clock with
        | .ok =>
          let s' := if env.setPage s.clock (page + pageFrom) = .ok then s.storePage (page + pageFrom) newAddress content
            else storeUnmapped s (page + pageFrom) newAddress content
          ((env.outcome (s.clock + 1), bytesWritten), s'.tick.tick)
        | r => ((r, bytesWritten), s.tick)
      | r => ((r, bytesWritten), s)

def writePageData (pageFrom bytes filesize : Nat) (data : Memory) : Nat → Nat → Nat → Nat → State → (Result × Nat) × State
  | 0, _, _, bytesWritten, s => ((.ok, bytesWritten), s)
  | k + 1, page, offs, bytesWritten, s =>
    match writePage c env s pageFrom page offs bytes filesize bytesWritten data with
    | ((.ok, bytesWritten), s) => writePageData pageFrom bytes filesize data k (page + 1) 0 bytesWritten s
    | r => r

def writeInodeData (s : State) (offs bytes : Nat) (data : Memory) : (Result × Nat) × State :=
  let end_ := (offs + bytes) % 2 ^ 32
  if end_ = 0 then ((.invalidInput, 0), s)
  else if pagesBehind c offs end_ > c.maxPagesPerWrite then ((.tooBig, 0), s)
  else
    finishWrite env.toEnv offs (writePageData c env (offs / c.dataBytesPerPage) bytes s.size data (pagesBehind c offs end_ + 1) 0
      (offs % c.dataBytesPerPage) 0 s)

/-! ### Truncating -/

def deletePage (s : State) (page : PageNo) : Result × State :=
  if page ≥ env.addressable then (.tooBig, s)
  else
    match env.getPage s.clock page with
    | .ok => s.deletePage c env.toEnv page
    | r => (r, s)

def deletePages : List PageNo → State → Result × State
  | [], s => (.ok, s)
  | page :: rest, s =>
    match deletePage c env s page with
    | (.ok, s) => deletePages rest s
    | r => r

def deleteInodeData (s : State) (offs : Nat) : Result × State :=
  if s.size = offs then (.ok, s)
  else if s.size < offs then (.invalidInput, s)
  else
    match deletePages c env (s.tailPages c offs) s with
    | (.ok, s) => (.ok, { s with size := offs }.invalidateOldPages)
    | r => r

variable {c env} {s : State} {pageFrom bytes filesize : Nat} {data : Memory}

/-! ### A cache that does not fail -/

theorem writePage_steady (hget : ∀ n p, env.getPage n p = .ok) (hset : ∀ n p, env.setPage n p = .ok) (page offs bytesWritten : Nat) :
    writePage c env s pageFrom page offs bytes filesize bytesWritten data =
      s.writePage c env.toEnv pageFrom page offs bytes filesize bytesWritten data := by
  unfold writePage State.writePage
  cases env.findFreePage s.clock s.used with
  | error r => rfl
  | ok newAddress =>
    dsimp only
    by_cases hlimit : page + pageFrom ≥ env.addressable
    · rw [if_pos hlimit, if_pos hlimit]
    · rw [if_neg hlimit, if_neg hlimit, hget]
      simp only [hset, if_true] <;>
        cases env.outcome (s.replacePage c newAddress (s.page (page + pageFrom))).2.clock <;> rfl

theorem writePageData_steady (hget : ∀ n p, env.getPage n p = .ok) (hset : ∀ n p, env.setPage n p = .ok) (k page offs bytesWritten : Nat) :
    writePageData c env pageFrom bytes filesize data k page offs bytesWritten s =
      State.writePageData c env.toEnv pageFrom bytes filesize data k page offs bytesWritten s := by
  induction k generalizing page offs bytesWritten s with
  | zero => rfl
  | succ k ih =>
    rw [writePageData, State.writePageData, writePage_steady hget hset]
    generalize s.writePage c env.toEnv pageFrom page offs bytes filesize bytesWritten data = r
    obtain ⟨⟨r, bytesWritten'⟩, s'⟩ := r
    cases r with
    | ok => exact ih _ _ _
    | _ => rfl

/-- Writes are as before. -/
theorem writeInodeData_steady (hget : ∀ n p, env.getPage n p = .ok) (hset : ∀ n p, env.setPage n p = .ok) (s : State)
    (offs bytes : Nat) (data : Memory) : writeInodeData c env s offs bytes data = s.writeInodeData c env.toEnv offs bytes data := by
  unfold writeInodeData State.writeInodeData
  simp only [writePageData_steady hget hset]

theorem deletePages_steady (hget : ∀ n p, env.getPage n p = .ok) (pages : List PageNo) :
    deletePages c env pages s = State.deletePages c env.toEnv pages s := by
  induction pages generalizing s with
  | nil => rfl
  | cons page pages ih =>
    have hpage : deletePage c env s page = s.deletePage c env.toEnv page := by
      unfold deletePage State.deletePage
      by_cases hlimit : page ≥ env.addressable
      · rw [if_pos hlimit, if_pos hlimit]
      · rw [if_neg hlimit, hget]
    rw [deletePages, State.deletePages, hpage]
    generalize s.deletePage c env.toEnv page = r
    obtain ⟨r, s'⟩ := r
    cases r with
    | ok => exact ih
    | _ => rfl

/-- Truncations are as before. -/
theorem deleteInodeData_steady (hget : ∀ n p, env.getPage n p = .ok) (s : State) (offs : Nat) :
    deleteInodeData c env s offs = s.deleteInodeData c env.toEnv offs := by
  unfold deleteInodeData
  by_cases hoffs : offs < s.size
  · rw [State.deleteInodeData_eq hoffs, if_neg hoffs.ne', if_neg (Nat.not_lt.mpr hoffs.le), deletePages_steady hget]
      <;> rfl
  · unfold State.deleteInodeData
    by_cases heq : s.size = offs
    · rw [if_pos heq, if_pos heq]
    · rw [if_neg heq, if_neg heq, if_pos (by omega), if_pos (by omega)]

/-! ### The count -/

/-- The cache takes every address of a page that had none. -/
def Takes (c : Config) (env : CacheEnv) (pageFrom bytes filesize : Nat) (data : Memory) : Nat → Nat → Nat → Nat → State → Prop
  | 0, _, _, _, _ => True
  | k + 1, page, offs, bytesWritten, s =>
    (s.page (page + pageFrom) = 0 → env.setPage s.clock (page + pageFrom) = .ok) ∧
    ∀ bytesWritten' s', writePage c env s pageFrom page offs bytes filesize bytesWritten data = ((.ok, bytesWritten'), s') →
      Takes c env pageFrom bytes filesize data k (page + 1) 0 bytesWritten' s'

theorem counted_writePage {page offs bytesWritten : Nat} (h : s.Counted)
    (htakes : s.page (page + pageFrom) = 0 → env.setPage s.clock (page + pageFrom) = .ok) :
    (writePage c env s pageFrom page offs bytes filesize bytesWritten data).2.Counted := by
  unfold writePage
  cases hfind : env.findFreePage s.clock s.used with
  | error r => exact h
  | ok newAddress =>
    obtain ⟨hne, -⟩ := env.free hfind
    obtain ⟨-, hreserved, hpage, -⟩ := s.replacePage_frame (c := c) newAddress (s.page (page + pageFrom))
    have hcounted := h.congr hpage hreserved
    have hclock : (s.replacePage c newAddress (s.page (page + pageFrom))).2.clock = s.clock := by
      unfold State.replacePage
      split <;> rfl
    dsimp only
    by_cases hlimit : page + pageFrom ≥ env.addressable
    · rwa [if_pos hlimit]
    rw [if_neg hlimit]
    split
    swap
    · exact h
    rw [hclock]
    generalize (s.replacePage c newAddress (s.page (page + pageFrom))).2.pageContent c pageFrom page offs bytes filesize
      bytesWritten data (s.page (page + pageFrom)) = content
    generalize (s.replacePage c newAddress (s.page (page + pageFrom))).2 = s' at hpage hcounted ⊢
    split
    swap
    · exact hcounted.tick
    split_ifs with hset
    · exact (hcounted.storePage _ content hne).tick.tick
    · -- the page has an address already, and keeps it
      have hmapped : s'.page (page + pageFrom) ≠ 0 := fun hzero => hset (htakes (by rwa [← hpage]))
      refine State.Counted.tick (State.Counted.tick (hcounted.congr rfl ?_))
      exact if_neg hmapped

theorem counted_writePageData (k : Nat) {page offs bytesWritten : Nat}
    (h : s.Counted) (htakes : Takes c env pageFrom bytes filesize data k page offs bytesWritten s) :
    (writePageData c env pageFrom bytes filesize data k page offs bytesWritten s).2.Counted := by
  induction k generalizing page offs bytesWritten s with
  | zero => exact h
  | succ k ih =>
    obtain ⟨htakes, hrest⟩ := htakes
    have hnext := @counted_writePage c env s pageFrom bytes filesize data page offs bytesWritten h htakes
    rw [writePageData]
    split
    · rename_i bytesWritten' s' hround
      rw [hround] at hnext
      exact ih hnext (hrest _ _ hround)
    · exact hnext

theorem counted_deletePages (pages : List PageNo) (h : s.Counted) : (deletePages c env pages s).2.Counted := by
  induction pages generalizing s with
  | nil => exact h
  | cons page pages ih =>
    have hnext : (deletePage c env s page).2.Counted := by
      unfold deletePage
      split_ifs
      · exact h
      · split
        · exact h.deletePage page
        · exact h
    rw [deletePages]
    split
    · rename_i s' hdelete
      rw [hdelete] at hnext
      exact ih hnext
    · exact hnext

theorem counted_finishWrite {offs : Nat} {r : (Result × Nat) × State} (h : r.2.Counted) : (finishWrite env.toEnv offs r).2.Counted := by
  unfold finishWrite
  split
  · dsimp only
    split
    · exact h.congr rfl rfl
    · exact h.congr rfl rfl
  · exact h

/-! ### Runs -/

inductive Op where
  | write (offs bytes : Nat) (data : Memory)
  | truncate (offs : Nat)

/-- What a call leaves, whatever its result. -/
def Op.call (c : Config) (env : CacheEnv) (s : State) : Op → State
  | .write offs bytes data => (writeInodeData c env s offs bytes data).2
  | .truncate offs => (deleteInodeData c env s offs).2

/-- A write that is not refused at once has its addresses taken. -/
def Op.Keeps (c : Config) (env : CacheEnv) (s : State) : Op → Prop
  | .write offs bytes data => State.Accepted c offs bytes →
    Takes c env (offs / c.dataBytesPerPage) bytes s.size data (State.rounds c offs bytes) 0 (offs % c.dataBytesPerPage) 0 s
  | .truncate _ => True

def run (c : Config) (env : CacheEnv) (ops : List Op) (s : State) : State := ops.foldl (Op.call c env) s

def AllKeep (c : Config) (env : CacheEnv) : List Op → State → Prop
  | [], _ => True
  | op :: ops, s => op.Keeps c env s ∧ AllKeep c env ops (op.call c env s)

theorem counted_call (h : s.Counted) {op : Op} (hkeeps : op.Keeps c env s) : (op.call c env s).Counted := by
  cases op with
  | write offs bytes data =>
    change (writeInodeData c env s offs bytes data).2.Counted
    unfold writeInodeData
    dsimp only
    split_ifs with hzero hpages
    · exact h
    · exact h
    · have htakes := hkeeps ⟨hzero, Nat.not_lt.mp hpages⟩
      unfold State.rounds at htakes
      exact counted_finishWrite (counted_writePageData _ h htakes)
  | truncate offs =>
    change (deleteInodeData c env s offs).2.Counted
    unfold deleteInodeData
    split_ifs
    · exact h
    · exact h
    · have hpages := @counted_deletePages c env s (s.tailPages c offs) h
      split
      · rename_i s' hdelete
        rw [hdelete] at hpages
        exact hpages.congr rfl rfl
      · exact hpages

open State (fourBytes nextPage newFile newFile_empty sevens)

/-- The lists of the file cannot be written. -/
def fullCache : CacheEnv :=
  { nextPage with
    getPage := fun _ _ => .ok
    setPage := fun _ p => if p < directAddrCount then .ok else .noSpace
    direct := fun _ _ hp => if_pos hp }

def steadyCache : CacheEnv := { nextPage with getPage := fun _ _ => .ok, setPage := fun _ _ => .ok, direct := fun _ _ _ => rfl }

theorem takes_of_steady (hset : ∀ n p, env.setPage n p = .ok) (k page offs bytesWritten : Nat) :
    Takes c env pageFrom bytes filesize data k page offs bytesWritten s := by
  induction k generalizing page offs bytesWritten s with
  | zero => trivial
  | succ k ih => exact ⟨fun _ => hset _ _, fun _ _ _ => ih _ _ _⟩

/-- A page whose address is refused stays unmapped. -/
theorem refused_writePageData (hset : ∀ n p, pageFrom ≤ p → env.setPage n p ≠ .ok) (k : Nat) {page offs bytesWritten : Nat} :
    (writePageData c env pageFrom bytes filesize data k page offs bytesWritten s).2.page = s.page := by
  induction k generalizing page offs bytesWritten s with
  | zero => rfl
  | succ k ih =>
    have hround : (writePage c env s pageFrom page offs bytes filesize bytesWritten data).2.page = s.page := by
      unfold writePage
      cases env.findFreePage s.clock s.used with
      | error r => rfl
      | ok newAddress =>
        obtain ⟨-, -, hpage, -⟩ := s.replacePage_frame (c := c) newAddress (s.page (page + pageFrom))
        dsimp only
        by_cases hlimit : page + pageFrom ≥ env.addressable
        · rw [if_pos hlimit]
        rw [if_neg hlimit]
        split
        · split
          · rw [if_neg (hset _ _ (Nat.le_add_left ..))]
            exact hpage
          · exact hpage
        · rfl
    rw [writePageData]
    split
    · rename_i s' hok
      rw [hok] at hround
      exact ih.trans hround
    · exact hround

theorem finishWrite_page {offs : Nat} {r : (Result × Nat) × State} : (finishWrite env.toEnv offs r).2.page = r.2.page := by
  obtain ⟨⟨r, bytesWritten⟩, s⟩ := r
  unfold finishWrite
  split
  · rename_i heq
    cases heq
    dsimp only
    split <;> rfl
  · rfl

theorem refused_writeInodeData {offs : Nat} (hset : ∀ n p, offs / c.dataBytesPerPage ≤ p → env.setPage n p ≠ .ok) :
    (writeInodeData c env s offs bytes data).2.page = s.page := by
  unfold writeInodeData
  dsimp only
  split_ifs
  · rfl
  · rfl
  · rw [finishWrite_page, refused_writePageData hset]

end CacheEnv
end Paffs.DataIO
