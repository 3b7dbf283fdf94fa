import Paffs.Device.Namespace
import Paffs.Directory.Shared

/-! The parent of a path, and the way to an object over its parent. -/
namespace Paffs.Namespace
open Directory (Name elemName)

/-! ### Paths -/

theorem tokens_append (xs : Path) (cur : Name) (ys : Path) :
    tokens cur (xs ++ slash :: ys) = tokens cur xs ++ tokens [] ys := by
  induction xs generalizing cur with
  | nil =>
    rw [List.nil_append, tokens, tokens, if_pos rfl]
    split_ifs <;> rfl
  | cons b xs ih =>
    rw [List.cons_append, tokens, tokens]
    split_ifs
    · exact ih []
    · rw [ih [], List.cons_append]
    · exact ih _

theorem tokens_name {ys : Path} (h : slash ∉ ys) (cur : Name) : tokens cur ys = if cur ++ ys = [] then [] else [cur ++ ys] := by
  induction ys generalizing cur with
  | nil => rw [tokens, List.append_nil]
  | cons b ys ih =>
    have hb : b ≠ slash := fun heq => h (heq ▸ List.mem_cons_self)
    rw [tokens, if_neg hb, ih (fun hmem => h (List.mem_cons_of_mem _ hmem)), List.append_assoc]
    rfl

/-- A path is its parent, which ends with a slash, and a name without slashes, but for one at its end. -/
structure Split (path : Path) (last : Nat) (elem : Name) : Prop where
  parent : last = 0 ∨ ∃ xs, path.take last = xs ++ [slash]
  noSlash : slash ∉ elem
  name : path.drop last = elem ∨ path.drop last = elem ++ [slash]
  lt : path ≠ [] → last < path.length

theorem lastSlash_split (rest : Path) {pre : Path} {last : Nat} (hle : last ≤ pre.length) (hmid : slash ∉ pre.drop last)
    (hparent : last = 0 ∨ ∃ xs, pre.take last = xs ++ [slash]) (hlt : rest = [] → pre ≠ [] → last < pre.length) :
    ∃ elem, Split (pre ++ rest) (lastSlash pre.length last rest) elem := by
  induction rest generalizing pre last with
  | nil =>
    rw [List.append_nil]
    exact ⟨_, hparent, hmid, .inl rfl, hlt rfl⟩
  | cons b rest ih =>
    rw [lastSlash, show pre ++ b :: rest = (pre ++ [b]) ++ rest by simp, ← List.length_singleton (a := b), ← List.length_append]
    by_cases hb : b = slash ∧ rest ≠ []
    · rw [if_pos hb]
      refine ih (Nat.le_refl _) (by simp) (.inr ⟨pre, ?_⟩) (fun hnil => absurd hnil hb.2)
      rw [List.take_length, hb.1]
    · rw [if_neg hb]
      by_cases hslash : b = slash
      · -- the slash is the last character
        have hnil : rest = [] := by
          by_contra hne
          exact hb ⟨hslash, hne⟩
        subst hnil
        rw [lastSlash, List.append_nil]
        refine ⟨pre.drop last, ?_, hmid, .inr ?_, fun _ => ?_⟩
        · rwa [List.take_append_of_le_length hle]
        · rw [List.drop_append_of_le_length hle, hslash]
        · rw [List.length_append, List.length_singleton]
          omega
      · refine ih (by rw [List.length_append]; omega) ?_ ?_ fun _ _ => ?_
        · rw [List.drop_append_of_le_length hle, List.mem_append, List.mem_singleton]
          exact fun hmem => hmem.elim hmid fun heq => hslash heq.symm
        · rwa [List.take_append_of_le_length hle]
        · rw [List.length_append, List.length_singleton]
          omega

theorem exists_split (path : Path) : ∃ elem, Split path (lastSlash 0 0 path) elem :=
  lastSlash_split path (Nat.le_refl 0) List.not_mem_nil (.inl rfl) fun _ h => absurd rfl h

variable {path : Path} {last : Nat} {elem : Name}

theorem Split.tokens_eq (h : Split path last elem) :
    tokens [] path = tokens [] (path.take last) ++ if elem = [] then [] else [elem] := by
  have hname : tokens [] (path.drop last) = if elem = [] then [] else [elem] := by
    rcases h.name with hname | hname <;> rw [hname]
    · exact tokens_name h.noSlash []
    · rw [tokens_append, tokens_name h.noSlash, List.nil_append]
      exact List.append_nil _
  rw [← hname]
  rcases h.parent with rfl | ⟨xs, hxs⟩
  · rfl
  · conv_lhs => rw [← List.take_append_drop last path]
    rw [hxs, List.append_assoc, List.singleton_append, tokens_append, tokens_append]
    exact (congrArg (· ++ _) (List.append_nil _)).symm

theorem Split.elemName_eq (h : Split path last elem) (hne : path ≠ []) (hlength : path.length < 2 ^ 16) :
    elemName (path.drop last) = some elem := by
  have hlt := h.lt hne
  have hdrop : (path.drop last).length = path.length - last := List.length_drop
  unfold elemName
  rw [Nat.mod_eq_of_lt (by omega), if_neg (by omega)]
  rcases h.name with hname | hname
  · rw [hname] at hdrop ⊢
    have hlast : elem.getD (elem.length - 1) 0 ≠ 47 := by
      rw [List.getD_eq_getElem _ _ (by omega)]
      exact fun heq => h.noSlash ((show _ = slash from heq) ▸ List.getElem_mem _)
    rw [if_neg hlast, List.take_length]
  · rw [hname, List.length_append, List.length_singleton, Nat.add_sub_cancel,
      List.getD_append_right _ _ _ _ (Nat.le_refl _), Nat.sub_self,
      if_pos (show [slash].getD 0 0 = 47 from rfl), List.take_left]

/-! ### Walking -/

variable {c : DataIO.Config} {env : Env} {d : Device}

namespace Device

theorem walk_append (xs ys : List Name) (curr : InodeNo) : walk c env d (xs ++ ys) curr =
    match walk c env d xs curr with
    | some (.ok no) => walk c env d ys no
    | r => r := by
  induction xs generalizing curr with
  | nil => rfl
  | cons x xs ih =>
    rw [List.cons_append, walk, walk]
    cases d.lookup curr with
    | none => rfl
    | some inode =>
      dsimp only
      split_ifs
      · rfl
      · cases Directory.getInodeNoInDir c env.toEnv (d.view inode) x with
        | none => rfl
        | some r =>
          cases r with
          | error r => rfl
          | ok next =>
            dsimp only
            split_ifs
            · rfl
            · exact ih next

theorem walk_some (xs : List Name) {curr no : InodeNo} (hcurr : (d.lookup curr).isSome) (h : walk c env d xs curr = some (.ok no)) :
    (d.lookup no).isSome := by
  induction xs generalizing curr with
  | nil =>
    cases h
    exact hcurr
  | cons x xs ih =>
    rw [walk] at h
    split at h
    · cases h
    · split_ifs at h
      · cases h
      · split at h
        · cases h
        · cases h
        · rename_i next _
          split_ifs at h with hnext
          · cases h
          · exact ih (by simpa [Option.isSome_iff_ne_none] using hnext) h

/-- The parent of a path. -/
theorem getParentDir_ok {p : InodeNo} (h : getParentDir c env d path = some (.ok (p, last))) :
    path ≠ [] ∧ path.length < 2 ^ 16 ∧ last = lastSlash 0 0 path ∧ (d.lookup 0).isSome ∧
      walk c env d (tokens [] (path.take last)) 0 = some (.ok p) := by
  unfold getParentDir at h
  split_ifs at h with hnil hlength
  · cases h
  · obtain ⟨r, hr, heq⟩ := Option.map_eq_some_iff.mp h
    cases r with
    | error r => cases heq
    | ok no =>
      cases heq
      unfold getInodeOfElem at hr
      split_ifs at hr with hroot
      · cases hr
      · have htake : (path.take (lastSlash 0 0 path)).length < 2 ^ 16 :=
          lt_of_le_of_lt (List.length_take_le' _ _) (Nat.not_le.mp hlength)
        rw [Nat.mod_eq_of_lt htake, List.take_length] at hr
        exact ⟨hnil, Nat.not_le.mp hlength, rfl, by simpa [Option.isSome_iff_ne_none] using hroot, hr⟩

/-- The last step to an object leads from its parent. -/
theorem getInodeOfElem_eq {p : InodeNo} (hparent : getParentDir c env d path = some (.ok (p, last))) (hsplit : Split path last elem) :
    getInodeOfElem c env d path = walk c env d (if elem = [] then [] else [elem]) p := by
  obtain ⟨-, hlength, -, hroot, hwalk⟩ := getParentDir_ok hparent
  have hsome : (d.lookup 0).isNone = false := by simpa [Option.isSome_iff_ne_none] using hroot
  rw [getInodeOfElem, hsome, if_neg (by decide), Nat.mod_eq_of_lt hlength, List.take_length, hsplit.tokens_eq, walk_append, hwalk]

end Device
end Paffs.Namespace
