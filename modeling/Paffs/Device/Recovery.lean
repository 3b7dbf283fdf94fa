import Paffs.Device.Files

/-! A power loss: what a device logs of its own operations, and what it makes of that when it is mounted again. -/
namespace Paffs.DataIO.State
variable (c : Config) (env : Env)

/-- With `journalMode`: the page may have been given back before. -/
def deletePageAgain (s : State) (page : PageNo) : Result × State :=
  if page ≥ env.addressable then (.tooBig, s)
  else if s.page page = 0 then (.ok, s)
  else
    let s := (s.replacePage c 0 (s.page page)).2
    match env.outcome s.clock with
    | .ok => (.ok, (s.unmapPage page).tick)
    | r => (r, s.tick)

def deletePagesAgain : List PageNo → State → Result × State
  | [], s => (.ok, s)
  | page :: rest, s =>
    match s.deletePageAgain c env page with
    | (.ok, s) => deletePagesAgain rest s
    | r => r

def deleteInodeDataAgain (s : State) (offs : Nat) : Result × State :=
  if s.size = offs then (.ok, s)
  else if s.size < offs then (.invalidInput, s)
  else
    let pageFrom := offs / c.dataBytesPerPage + if offs % c.dataBytesPerPage ≠ 0 then 1 else 0
    let toPage := lastPage c s.size
    let pages := if pageFrom ≤ toPage ∧ s.reservedPages ≠ 0 then (List.range' pageFrom (toPage - pageFrom + 1)).reverse else []
    match deletePagesAgain c env pages s with
    | (.ok, s) => (.ok, { s with size := offs }.invalidateOldPages)
    | r => r

end Paffs.DataIO.State

namespace Paffs.Directory
open Bytes (Byte ofBytes)

/-- The loop of `getNameOfInodeInDir`. The name goes to the variable that holds the address of the buffer, of `pointerBytes` bytes:
`none` when it does not fit there, or when it is read from behind the data. -/
def findTarget (pointerBytes : Nat) (data : List Byte) (target : InodeNo) : Nat → Nat → Option (Except Result Name)
  | 0, _ => none
  | fuel + 1, p =>
    if data.length ≤ p then some (.error .notFound)
    else
      let direntryl := (data.getD p 0).toNat
      if direntryl < 6 then some (.error .bug)
      else if data.length < direntryl then some (.error .bug)
      else
        let dirnamel := direntryl - 5
        if data.length < p + 5 then none
        else if UInt32.ofNat (ofBytes ((data.drop (p + 1)).take 4)) = target then
          if data.length < p + 5 + min dirnamel 200 ∨ pointerBytes < min dirnamel 200 then none
          else some (.ok ((data.drop (p + 5)).take dirnamel))
        else findTarget pointerBytes data target fuel (p + direntryl)

/-- The directory is known to be one. -/
def getNameOfInodeInDir (c : DataIO.Config) (env : DataIO.Env) (pointerBytes : Nat) (folder : DataIO.State) (target : InodeNo) :
    Option (Except Result Name) :=
  if folder.size ≤ 2 then some (.error .notFound)
  else
    match folder.readInodeData c env 0 folder.size with
    | none => none
    | some (.ok, data) =>
      if data.length ≠ folder.size then some (.error .bug) else findTarget pointerBytes data target (data.length + 1) 2
    | some (r, _) => some (.error r)

end Paffs.Directory

namespace Paffs.Namespace
open Directory (maxDirEntryLength getNameOfInodeInDir insertInodeInDir removeInodeFromDir)

/-! ### Mounting -/

/-- What the device logs. -/
inductive Action where
  | mkObjInode (inode : InodeNo)
  | insertIntoDir (dirInode : InodeNo)
  | removeObj (obj parDir : InodeNo)

inductive JournalState where
  | ok
  | makeObj
  | insertObj
  | removeObj

/-- What the device notes while the log is replayed. The numbers stay from earlier replays. -/
structure Replay where
  journalState : JournalState
  targetInodeNo : InodeNo
  folderInodeNo : InodeNo

namespace Replay

def resetState (r : Replay) : Replay := { r with journalState := .ok }

def processEntry (r : Replay) : Action → Replay
  | .mkObjInode inode => { r with targetInodeNo := inode, journalState := .makeObj }
  | .insertIntoDir dirInode => { r with folderInodeNo := dirInode, journalState := .insertObj }
  | .removeObj obj parDir => ⟨.removeObj, obj, parDir⟩

/-- The entries behind the last checkpoint of the device. -/
def process (r : Replay) (log : List Action) : Replay := log.foldl processEntry r.resetState

end Replay

section Recovering
variable (c : DataIO.Config) (env : Env) (pointerBytes : Nat)

namespace Device
variable (d : Device)

/-- The object goes with its data, if it is still there. `false` when that fails. -/
def deleteTarget (target : InodeNo) : Bool × Device :=
  match d.lookup target with
  | none => (true, d)
  | some obj =>
    if obj.size ≠ 0 then
      match (d.view obj).deleteInodeDataAgain c env.toEnv 0 with
      -- the result of the commit of the address cache is only printed
      | (.ok, s) => (true, (deleteInode env (d.put target s).tick target).2)
      | (_, s) => (false, d.put target s)
    else (true, (deleteInode env d target).2)

def finishRemoval (target folder : InodeNo) : Option Device :=
  match d.deleteTarget c env target with
  | (false, d) => some d
  | (true, d) =>
    match d.lookup folder with
    | none => some d
    | some dir => (removeInodeFromDir c env.toEnv (d.view dir) target).map fun r => d.put folder r.2

/-- `none` when memory is overwritten. -/
def signalEndOfLog (r : Replay) : Option Device :=
  match r.journalState with
  | .ok => some d
  | .makeObj => some (deleteInode env d r.targetInodeNo).2
  | .insertObj =>
    match d.lookup r.folderInodeNo with
    | none => some d
    | some folder =>
      if folder.type ≠ .dir then some d
      else
        match getNameOfInodeInDir c env.toEnv pointerBytes (d.view folder) r.targetInodeNo with
        | none => none
        | some (.error .notFound) => some (deleteInode env d r.targetInodeNo).2
        | some _ => some d
  | .removeObj => d.finishRemoval c env r.targetInodeNo r.folderInodeNo

end Device

/-- What a power loss leaves: the entries of the device behind its last checkpoint, and the device as the logs of the tree and of
the data restore it. -/
structure Cut where
  log : List Action
  device : Device

/-- A mount that may write. -/
def Cut.recover (cut : Cut) (r : Replay) : Option Device := cut.device.signalEndOfLog c env pointerBytes (r.process cut.log)

end Recovering

/-! ### Every moment of a call -/

section Moments
variable (c : DataIO.Config) (env : Env)

namespace Device
variable (d : Device) (log : List Action)

/-- Of `createFile`, and of `mkDir` up to its own checkpoint. -/
def createCuts (fullPath : Path) (type : InodeType) (mask : Nat) : List Cut :=
  ⟨log, d⟩ ::
    if env.noRoom d.clock then []
    else
      match getParentDir c env d fullPath with
      | some (.ok (parDir, last)) =>
        if (fullPath.drop last).length > maxDirEntryLength then []
        else
          let no := d.findFirstFreeNo
          let made := log ++ [.mkObjInode no]
          ⟨made, d⟩ ::
            match insertInode env d no (createInode type mask) with
            | (.ok, d) =>
              ⟨made, d⟩ ::
                match d.lookup parDir with
                | none => []
                | some dir =>
                  let inserted := made ++ [.insertIntoDir parDir]
                  ⟨inserted, d⟩ ::
                    match insertInodeInDir c env.toEnv (d.view dir) (fullPath.drop last) no with
                    | some (.ok, s) => [⟨inserted, d.put parDir s⟩, ⟨[], d.put parDir s⟩]
                    | some (_, s) => [⟨inserted, d.put parDir s⟩]
                    | none => []
            | (_, d) => [⟨made, d⟩]
      | _ => []

/-- The removal of an entry makes a checkpoint of its own, unless it is the last one of its directory. -/
def removeCuts (readOnly : Bool) (path : Path) : List Cut :=
  ⟨log, d⟩ ::
    match getInodeOfElem c env d path with
    | some (.ok object) =>
      if env.opened d.clock object then []
      else
        match getParentDir c env d path with
        | some (.ok (parentDir, _)) =>
          let removing := log ++ [.removeObj object parentDir]
          ⟨removing, d⟩ ::
            if readOnly then []
            else
              match truncate c env d path with
              | some (.ok, d) =>
                ⟨removing, d⟩ ::
                  match d.lookup parentDir with
                  | none => []
                  | some dir =>
                    match removeInodeFromDir c env.toEnv (d.view dir) object with
                    | some (.ok, s) =>
                      let d := d.put parentDir s
                      let checked := if s.size = 0 then removing else []
                      ⟨removing, d⟩ :: ⟨checked, d⟩ ::
                        match deleteInode env d object with
                        | (.ok, d) => [⟨checked, d⟩, ⟨[], d.tick⟩]
                        | (_, d) => [⟨checked, d⟩]
                    | some (_, s) => [⟨removing, d.put parentDir s⟩]
                    | none => []
              | some (_, d) => [⟨removing, d⟩]
              | none => []
        | _ => []
    | _ => []

end Device
end Moments

namespace Mounted
variable (c : DataIO.Config) (env : FileEnv) (m : Mounted) (log : List Action)

/-- A call that logs nothing but a checkpoint, when it succeeds. A flush of all caches that fails is taken to keep the log. -/
def checkedCuts (r : Option (Answer × Mounted)) : List Cut :=
  match r with
  | none => [⟨log, m.device⟩]
  | some (.ok, m') | some (.written _, m') => [⟨log, m.device⟩, ⟨log, m'.device⟩, ⟨if m.readOnly then log else [], m'.device⟩]
  | some (_, m') => [⟨log, m.device⟩, ⟨log, m'.device⟩]

/-- A call that logs nothing. -/
def plainCuts (r : Option (Answer × Mounted)) : List Cut := ⟨log, m.device⟩ :: (r.map fun r => ⟨log, r.2.device⟩).toList

/-- Where nothing is at the path, `create` says what is made there. -/
def creatingCuts (path : Path) (create : Bool) (r : Option (Answer × Mounted)) : List Cut :=
  match Device.getInodeOfElem c env.toNamespace m.device path with
  | some (.error .notFound) =>
    if create then Device.createCuts c env.toNamespace m.device log path .file (permR ||| permW) else m.plainCuts log r
  | _ => m.plainCuts log r

/-- The moments of a call at which the device may be left, the last one being its end. -/
def cuts : Call → List Cut
  | .openObj path mask =>
    m.creatingCuts c env log path (!m.readOnly && mask &&& openC ≠ 0) (m.openObj c env path mask)
  | .touch path => m.creatingCuts c env log path (!m.readOnly && !env.noRoom m.device.clock) (m.touch c env path)
  | .mkDir path mask =>
    if m.readOnly then [⟨log, m.device⟩]
    else
      Device.createCuts c env.toNamespace m.device log path .dir mask ++
        match m.mkDir c env path mask with
        | some (.ok, m') => [⟨[], m'.device⟩]
        | _ => []
  | .remove path =>
    Device.removeCuts c { env.toNamespace with opened := fun _ no => m.isOpen no } m.device log m.readOnly path
  | .write i bytesToWrite buf => m.checkedCuts log (m.write c env i bytesToWrite buf)
  | .flush i => m.checkedCuts log (m.flush env i)
  | .close i => m.checkedCuts log (m.close env i)
  | .truncate path newLength => m.checkedCuts log (m.truncate c env path newLength)
  | call => m.plainCuts log (m.call c env call)

/-- The entries of the device that a call leaves in the log. -/
def logAfter (call : Call) : List Action := ((m.cuts c env log call).getLast?.map Cut.log).getD log

/-- Those that a run leaves. -/
def logged : List Call → Mounted → List Action → List Action
  | [], _, log => log
  | call :: calls, m, log =>
    match m.call c env call with
    | none => log
    | some (_, m') => logged calls m' (m.logAfter c env log call)

end Mounted
end Paffs.Namespace
