import Paffs.Tree.BtreeSpec

/-! The inode tree as a map from inode numbers to inodes. -/
namespace Paffs.Tree

/-- What the tree is for. -/
abbrev InodeMap := InodeNo → Option Inode

/-- The calls made on the tree. `commitCache` is among them since the cache may also commit by itself. -/
inductive Call where
  | insertInode (inode : Inode)
  | updateExistingInode (inode : Inode)
  | deleteInode (number : InodeNo)
  | getInode (number : InodeNo)
  | findFirstFreeNo
  | commitCache

inductive Answer where
  | result (r : Result)
  | inode (r : Except Result Inode)
  | number (r : Except Result InodeNo)

/-- The call failed for want of space or memory. -/
def Answer.lacksMemory : Answer → Bool
  | .result r => r = .lowMem || r = .noSpace
  | .inode (.error r) => r = .lowMem || r = .noSpace
  | .number (.error r) => r = .lowMem || r = .noSpace
  | _ => false

namespace InodeMap

def set (m : InodeMap) (number : InodeNo) (v : Option Inode) : InodeMap := fun k => if k = number then v else m k

/-- The map after a call. -/
def after (m : InodeMap) : Call → InodeMap
  | .insertInode inode => if (m inode.no).isSome then m else m.set inode.no (some inode)
  | .updateExistingInode inode => if (m inode.no).isSome then m.set inode.no (some inode) else m
  | .deleteInode number => m.set number none
  | _ => m

/-- What a call on the map may answer. -/
def Answers (m : InodeMap) : Call → Answer → Prop
  | .insertInode inode, .result r => r = if (m inode.no).isSome then .exists else .ok
  | .updateExistingInode inode, .result r => r = .ok ↔ (m inode.no).isSome
  | .deleteInode number, .result r => r = .ok ↔ (m number).isSome
  | .getInode number, .inode (.ok inode) => m number = some inode
  | .getInode number, .inode (.error r) => r = .notFound ∧ m number = none
  | .findFirstFreeNo, .number (.ok number) => m number = none
  | .commitCache, .result r => r = .ok
  | _, _ => False

instance (m : InodeMap) (call : Call) (a : Answer) : Decidable (m.Answers call a) := by
  unfold Answers
  split <;> infer_instance

end InodeMap

namespace Btree
variable (c : Config)

def perform (s : Btree) : Call → Answer × Btree
  | .insertInode inode => (s.insertInode c inode).map .result id
  | .updateExistingInode inode => (s.updateExistingInode c inode).map .result id
  | .deleteInode number => (s.deleteInode c number).map .result id
  | .getInode number => (s.getInode c number).map .inode id
  | .findFirstFreeNo => (s.findFirstFreeNo c).map .number id
  | .commitCache => (.result .ok, s.commitCache)

/-- Every call answers as on the map, up to the first one that lacks space or memory. -/
def AnswersLike : Btree → InodeMap → List Call → Prop
  | _, _, [] => True
  | s, m, call :: calls => (s.perform c call).1.lacksMemory ∨
      (m.Answers call (s.perform c call).1 ∧ AnswersLike (s.perform c call).2 (m.after call) calls)

instance decidableAnswersLike : (s : Btree) → (m : InodeMap) → (calls : List Call) →
    Decidable (AnswersLike c s m calls)
  | _, _, [] => isTrue trivial
  | s, m, call :: calls =>
    have := decidableAnswersLike (s.perform c call).2 (m.after call) calls
    inferInstanceAs (Decidable (_ ∨ _ ∧ _))

/-- The root is at hand, so the last number was not removed. No number is inserted that its leaf
still has in a slot behind its used ones, and no key of more than 16 bits has to be handed from a
node that is split, coalesced or refilled to its parent. The numbers do not wrap around. -/
def CallFits (s : Btree) (call : Call) : Bool :=
  match s.cached, call with
  | none, .commitCache => true
  | none, _ => false
  | some n, .insertInode inode =>
    (n.entries.lookup inode.no.toNat).isSome || (!leftover c n inode.no && insertionOk c n inode)
  | some n, .deleteInode number => (n.entries.lookup number.toNat).isNone || deletionOk c n number
  | some n, .findFirstFreeNo => (n.entries.lookup 4294967295).isNone || (n.entries.lookup 0).isNone
  | some _, _ => true

variable {c}

/-- The tree holds the inodes of the map. -/
def Represents (c : Config) (s : Btree) (m : InodeMap) : Prop :=
  match s.cached with
  | some n => (∃ h, RootWF c 4294967296 h n) ∧ ∀ k : InodeNo, n.entries.lookup k.toNat = m k
  | none => ∀ k, m k = none

theorem represents_some {s : Btree} {m : InodeMap} {n : Node} (hs : s.cached = some n) :
    Represents c s m ↔ (∃ h, RootWF c 4294967296 h n) ∧ ∀ k : InodeNo, n.entries.lookup k.toNat = m k := by
  rw [Represents, hs]

theorem startNewTree_represents : Represents c (startNewTree c) fun _ => none := by
  refine ⟨⟨0, ?_⟩, fun k => rfl⟩
  have hp := c.leafOrder_pos
  exact zeroPadded_wf (by omega) List.Pairwise.nil (by simp) (by simp) (by simp [rootFill]) (by simp)

@[simp] theorem commitCache_cached (s : Btree) : s.commitCache.cached = s.cached := by
  unfold commitCache
  split
  · next h => exact h.symm
  · rfl

/-- The lookups of a changed tree, in terms of the map. -/
theorem lookup_set {n : Node} {m : InodeMap} (hm : ∀ k : InodeNo, n.entries.lookup k.toNat = m k) {es : List Entry}
    {number : InodeNo} {v : Option Inode}
    (hes : ∀ k, es.lookup k = if k = number.toNat then v else n.entries.lookup k) (k : InodeNo) :
    es.lookup k.toNat = m.set number v k := by
  rw [hes, InodeMap.set, hm]
  simp only [UInt32.toNat_inj]

section Step
variable {s : Btree} {m : InodeMap} {n : Node} (hs : s.cached = some n) (hr : Represents c s m)
include hs hr

theorem insertInode_represents (inode : Inode) (hfit : CallFits c s (.insertInode inode)) :
    (s.insertInode c inode).1 = .lowMem ∨
      m.Answers (.insertInode inode) (.result (s.insertInode c inode).1) ∧
        Represents c (s.insertInode c inode).2 (m.after (.insertInode inode)) := by
  obtain ⟨⟨h, hn⟩, hm⟩ := (represents_some hs).1 hr
  simp only [CallFits, hs, hm, Bool.or_eq_true, Bool.and_eq_true, Bool.not_eq_true'] at hfit
  have hok : n.entries.lookup inode.no.toNat = none → insertionOk c n inode := by
    intro hnone
    rw [hm] at hnone
    exact (hfit.resolve_left (by simp [hnone])).2
  simp only [InodeMap.Answers, InodeMap.after]
  rcases insertInode_cases hs hn inode.no.toNat_lt hok with he | ⟨he, hin⟩ | ⟨n', he, hnone, hwf, hes⟩
  · exact .inl (by rw [he])
  · right
    have hin : (m inode.no).isSome := by
      rw [hm] at hin
      rcases hfit with h | ⟨hleft, -⟩
      · exact h
      · exact hin.resolve_right (by simp [hleft])
    simp only [he, hin, if_true, true_and]
    exact hr
  · right
    rw [hm] at hnone
    simp only [he, hnone, Option.isSome_none, Bool.false_eq_true, if_false, true_and]
    exact ⟨hwf, lookup_set hm hes⟩

theorem updateExistingInode_represents (inode : Inode) :
    (s.updateExistingInode c inode).1 = .lowMem ∨
      m.Answers (.updateExistingInode inode) (.result (s.updateExistingInode c inode).1) ∧
        Represents c (s.updateExistingInode c inode).2 (m.after (.updateExistingInode inode)) := by
  obtain ⟨⟨h, hn⟩, hm⟩ := (represents_some hs).1 hr
  simp only [InodeMap.Answers, InodeMap.after]
  rcases updateExistingInode_cases hs hn inode.no.toNat_lt with he | ⟨he, hnone⟩ | ⟨n', he, hin, hwf, hes⟩
  · exact .inl (by rw [he])
  · right
    rw [hm] at hnone
    simp only [he, hnone]
    exact ⟨by simp, hr⟩
  · right
    rw [hm] at hin
    simp only [he, hin, if_true, true_and]
    exact ⟨hwf, lookup_set hm hes⟩

theorem deleteInode_represents (number : InodeNo) (hfit : CallFits c s (.deleteInode number)) :
    (s.deleteInode c number).1 = .lowMem ∨
      m.Answers (.deleteInode number) (.result (s.deleteInode c number).1) ∧
        Represents c (s.deleteInode c number).2 (m.after (.deleteInode number)) := by
  obtain ⟨⟨h, hn⟩, hm⟩ := (represents_some hs).1 hr
  simp only [CallFits, hs, Bool.or_eq_true] at hfit
  have hok : (n.entries.lookup number.toNat).isSome → deletionOk c n number := fun hin =>
    hfit.resolve_left (by rwa [Option.isNone_iff_eq_none, ← ne_eq, ← Option.isSome_iff_ne_none])
  simp only [InodeMap.Answers, InodeMap.after]
  rcases deleteInode_cases hs hn number.toNat_lt hok with he | ⟨he, hnone⟩ | ⟨t, he, hin, es, ht, hes⟩
  · exact .inl (by rw [he])
  · right
    rw [hm] at hnone
    have hsame : m.set number none = m := by
      funext k
      rw [InodeMap.set]
      split
      · next hk => rw [hk, hnone]
      · rfl
    rw [he, hsame, hnone]
    exact ⟨by simp, hr⟩
  · right
    rw [hm] at hin
    rw [he]
    refine ⟨by simp [hin], ?_⟩
    match t, ht with
    | some n', ⟨hwf, hn'⟩ => exact ⟨hwf, lookup_set hm (hn' ▸ hes)⟩
    | none, ht =>
      obtain rfl : es = [] := ht
      exact fun k => (lookup_set hm hes k).symm

theorem getInode_represents (number : InodeNo) :
    (s.getInode c number).1 = .error .lowMem ∨
      m.Answers (.getInode number) (.inode (s.getInode c number).1) ∧ (s.getInode c number).2 = s := by
  obtain ⟨⟨h, hn⟩, hm⟩ := (represents_some hs).1 hr
  rcases getInode_cases hs hn number.toNat_lt with he | he
  · exact .inl (by rw [he])
  · right
    rw [he, hm]
    cases hv : m number <;> simp [InodeMap.Answers, hv]

theorem findFirstFreeNo_represents (hfit : CallFits c s .findFirstFreeNo) :
    (s.findFirstFreeNo c).1 = .error .lowMem ∨
      m.Answers .findFirstFreeNo (.number (s.findFirstFreeNo c).1) ∧ (s.findFirstFreeNo c).2 = s := by
  obtain ⟨⟨h, hn⟩, hm⟩ := (represents_some hs).1 hr
  simp only [CallFits, hs, Bool.or_eq_true, Option.isNone_iff_eq_none] at hfit
  rcases findFirstFreeNo_cases hs hn with he | ⟨no, he, hfree⟩
  · exact .inl (by rw [he])
  · right
    rw [he]
    exact ⟨(hm no).symm.trans (hfree hfit), rfl⟩

end Step

/-- What one call preserves. -/
theorem perform_represents {s : Btree} {m : InodeMap} {call : Call} (hr : Represents c s m)
    (hfit : CallFits c s call) : (s.perform c call).1.lacksMemory ∨
      (m.Answers call (s.perform c call).1 ∧ Represents c (s.perform c call).2 (m.after call)) := by
  cases hs : s.cached with
  | none =>
    match call with
    | .commitCache => exact .inr ⟨rfl, by simpa [Represents, perform, InodeMap.after] using hr⟩
    | .insertInode _ | .updateExistingInode _ | .deleteInode _ | .getInode _ | .findFirstFreeNo =>
      simp [CallFits, hs] at hfit
  | some n =>
    cases call with
    | insertInode inode =>
      exact (insertInode_represents hs hr inode hfit).imp_left fun h => by simp [perform, Answer.lacksMemory, h]
    | updateExistingInode inode =>
      exact (updateExistingInode_represents hs hr inode).imp_left fun h => by simp [perform, Answer.lacksMemory, h]
    | deleteInode number =>
      exact (deleteInode_represents hs hr number hfit).imp_left fun h => by simp [perform, Answer.lacksMemory, h]
    | getInode number =>
      refine (getInode_represents hs hr number).imp (fun h => by simp [perform, Answer.lacksMemory, h]) ?_
      rintro ⟨ha, hsame⟩
      exact ⟨ha, by simpa [perform, hsame, InodeMap.after] using hr⟩
    | findFirstFreeNo =>
      refine (findFirstFreeNo_represents hs hr hfit).imp (fun h => by simp [perform, Answer.lacksMemory, h]) ?_
      rintro ⟨ha, hsame⟩
      exact ⟨ha, by simpa [perform, hsame, InodeMap.after] using hr⟩
    | commitCache => exact .inr ⟨rfl, by simpa [Represents, perform, InodeMap.after] using hr⟩

/-- Every call of the run fits the state it is made in. -/
def CallsFit (c : Config) : Btree → List Call → Bool
  | _, [] => true
  | s, call :: calls => CallFits c s call && CallsFit c (s.perform c call).2 calls

theorem answersLike_of_represents {s : Btree} {m : InodeMap} {calls : List Call} (hr : Represents c s m)
    (hfit : CallsFit c s calls) : AnswersLike c s m calls := by
  induction calls generalizing s m with
  | nil => trivial
  | cons call calls ih =>
    rw [CallsFit, Bool.and_eq_true] at hfit
    exact (perform_represents hr hfit.1).imp_right fun h => ⟨h.1, ih h.2 hfit.2⟩

end Btree
end Paffs.Tree
