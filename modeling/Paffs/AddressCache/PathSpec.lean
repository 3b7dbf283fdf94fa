import Paffs.AddressCache.Represents

/-! Loading and committing a path of lists: what it stands for stays, and so do all pages that belong elsewhere. -/
namespace Paffs.AddressCache
open Journal

/-! ### Ownership -/

/-- The list pages of a path are in use, are told apart, and are none of the frame's. Pages that will be given
up belong to nobody. -/
structure Device.Owns {n : Nat} (d : Device n) (frame : Set Addr) (depth : Nat) (V : List (Fin n) → Addr) : Prop where
  used : ∀ ps : List (Fin n), ps.length ≤ depth → V ps ≠ 0 → d.statuses (V ps) = .used
  kept : ∀ ps : List (Fin n), ps.length ≤ depth → V ps ∉ olds d.statemachine.list
  apart : ∀ ps : List (Fin n), ps.length ≤ depth → V ps ≠ 0 → V ps ∉ frame
  inj : ∀ ps qs : List (Fin n), ps.length ≤ depth → qs.length ≤ depth → V ps = V qs → V ps ≠ 0 → ps = qs
  frame_used : ∀ a ∈ frame, d.statuses a = .used
  frame_kept : ∀ a ∈ frame, a ∉ olds d.statemachine.list
  olds_used : ∀ a ∈ olds d.statemachine.list, d.statuses a = .used

/-- What an action on one path leaves alone. -/
structure Device.Keeps {n : Nat} (frame : Set Addr) (d d' : Device n) : Prop where
  flash : ∀ a ∈ frame, d'.flash a = d.flash a
  tree : d'.tree = d.tree
  readOnly : d'.readOnly = d.readOnly

namespace Device
variable {n : Nat} {frame : Set Addr} {depth : Nat} {V : List (Fin n) → Addr} {d d' d'' : Device n}

theorem Keeps.refl (frame : Set Addr) (d : Device n) : d.Keeps frame d := ⟨fun _ _ => rfl, rfl, rfl⟩

theorem Keeps.trans (h : Keeps frame d d') (h' : Keeps frame d' d'') : Keeps frame d d'' :=
  ⟨fun a ha => (h'.flash a ha).trans (h.flash a ha), h'.tree.trans h.tree, h'.readOnly.trans h.readOnly⟩

theorem zero_not_mem_olds (rs : List Replacement) : 0 ∉ olds rs := by simp [olds, pages]

theorem olds_concat (rs : List Replacement) (r : Replacement) {a : Addr} :
    a ∈ olds (rs ++ [r]) ↔ a ∈ olds rs ∨ a = r.old ∧ a ≠ 0 := by
  simp only [olds, pages, List.map_append, List.filter_append, List.mem_append, List.map_singleton, List.mem_filter,
    List.mem_singleton, decide_eq_true_eq]

theorem Owns.congr {V' : List (Fin n) → Addr} (h : d.Owns frame depth V)
    (hV : ∀ ps : List (Fin n), ps.length ≤ depth → V' ps = V ps) : d.Owns frame depth V' where
  used ps hps := by
    rw [hV ps hps]
    exact h.used ps hps
  kept ps hps := by
    rw [hV ps hps]
    exact h.kept ps hps
  apart ps hps := by
    rw [hV ps hps]
    exact h.apart ps hps
  inj ps qs hps hqs := by
    rw [hV ps hps, hV qs hqs]
    exact h.inj ps qs hps hqs
  frame_used := h.frame_used
  frame_kept := h.frame_kept
  olds_used := h.olds_used

/-- A list moves to a page that nobody uses. -/
theorem Owns.written (h : d.Owns frame depth V) {ps : List (Fin n)} (hps : ps.length ≤ depth) {neu : Addr}
    (h0 : neu ≠ 0) (hfree : d.statuses neu ≠ .used) (list : AddrList n) :
    (d.written neu (V ps) list).Owns frame depth (Function.update V ps neu) := by
  have hst : ∀ a, d.statuses a = .used → (d.written neu (V ps) list).statuses a = .used := by
    intro a ha
    simp only [Device.written, Function.update_apply]
    split
    · rfl
    · exact ha
  have holds : ∀ a, a ∈ olds (d.written neu (V ps) list).statemachine.list ↔
      a ∈ olds d.statemachine.list ∨ a = V ps ∧ a ≠ 0 := fun a => olds_concat _ _
  have hnew : ∀ qs : List (Fin n), qs.length ≤ depth → V qs ≠ neu := by
    rintro qs hqs rfl
    exact hfree (h.used qs hqs h0)
  constructor
  · intro qs hqs hq0
    by_cases heq : qs = ps
    · rw [heq, Function.update_self]
      exact Function.update_self ..
    · rw [Function.update_of_ne heq] at hq0 ⊢
      exact hst _ (h.used qs hqs hq0)
  · intro qs hqs
    rw [holds, not_or]
    by_cases heq : qs = ps
    · rw [heq, Function.update_self]
      exact ⟨fun hold => hfree (h.olds_used _ hold), fun hself => hnew ps hps hself.1.symm⟩
    · rw [Function.update_of_ne heq]
      exact ⟨h.kept qs hqs, fun hself => heq (h.inj qs ps hqs hps hself.1 hself.2)⟩
  · intro qs hqs hq0
    by_cases heq : qs = ps
    · rw [heq, Function.update_self]
      exact fun hf => hfree (h.frame_used _ hf)
    · rw [Function.update_of_ne heq] at hq0 ⊢
      exact h.apart qs hqs hq0
  · intro qs rs hqs hrs
    by_cases hq : qs = ps
    · by_cases hr : rs = ps
      · intro _ _
        rw [hq, hr]
      · rw [hq, Function.update_self, Function.update_of_ne hr]
        exact fun heq => (hnew rs hrs heq.symm).elim
    · by_cases hr : rs = ps
      · rw [hr, Function.update_self, Function.update_of_ne hq]
        exact fun heq => (hnew qs hqs heq).elim
      · rw [Function.update_of_ne hq, Function.update_of_ne hr]
        exact h.inj qs rs hqs hrs
  · exact fun a ha => hst a (h.frame_used a ha)
  · intro a ha
    rw [holds, not_or]
    refine ⟨h.frame_kept a ha, ?_⟩
    rintro ⟨rfl, ha0⟩
    exact h.apart ps hps ha0 ha
  · intro a ha
    rcases (holds a).1 ha with ha | ⟨rfl, ha0⟩
    · exact hst a (h.olds_used a ha)
    · exact hst _ (h.used ps hps ha0)

/-- An empty list is given up. -/
theorem Owns.invalidated (h : d.Owns frame depth V) {ps : List (Fin n)} (hps : ps.length ≤ depth) (h0 : V ps ≠ 0) :
    (d.invalidated (V ps)).Owns frame depth (Function.update V ps 0) := by
  have hst : ∀ a, a ≠ V ps → d.statuses a = .used → (d.invalidated (V ps)).statuses a = .used := by
    intro a hne ha
    exact (Function.update_of_ne hne ..).trans ha
  have hother : ∀ qs : List (Fin n), qs.length ≤ depth → qs ≠ ps → V qs ≠ V ps := by
    intro qs hqs hne heq
    exact hne (h.inj qs ps hqs hps heq (heq ▸ h0))
  constructor
  · intro qs hqs hq0
    by_cases heq : qs = ps
    · rw [heq, Function.update_self] at hq0
      exact (hq0 rfl).elim
    · rw [Function.update_of_ne heq] at hq0 ⊢
      exact hst _ (hother qs hqs heq) (h.used qs hqs hq0)
  · intro qs hqs
    by_cases heq : qs = ps
    · rw [heq, Function.update_self]
      exact zero_not_mem_olds _
    · rw [Function.update_of_ne heq]
      exact h.kept qs hqs
  · intro qs hqs hq0
    by_cases heq : qs = ps
    · rw [heq, Function.update_self] at hq0
      exact (hq0 rfl).elim
    · rw [Function.update_of_ne heq] at hq0 ⊢
      exact h.apart qs hqs hq0
  · intro qs rs hqs hrs heq hq0
    by_cases hq : qs = ps
    · rw [hq, Function.update_self] at hq0
      exact (hq0 rfl).elim
    · rw [Function.update_of_ne hq] at heq hq0
      by_cases hr : rs = ps
      · rw [hr, Function.update_self] at heq
        exact (hq0 heq).elim
      · rw [Function.update_of_ne hr] at heq
        exact h.inj qs rs hqs hrs heq hq0
  · exact fun a ha => hst a (fun heq => h.apart ps hps h0 (heq ▸ ha)) (h.frame_used a ha)
  · exact h.frame_kept
  · exact fun a ha => hst a (fun heq => h.kept ps hps (heq ▸ ha)) (h.olds_used a ha)

theorem Keeps.written (hframe : ∀ a ∈ frame, d.statuses a = .used) {neu : Addr} (hfree : d.statuses neu ≠ .used)
    (source : Addr) (list : AddrList n) : d.Keeps frame (d.written neu source list) := by
  refine ⟨fun a ha => Function.update_of_ne ?_ .., rfl, rfl⟩
  rintro rfl
  exact hfree (hframe _ ha)

end Device
/-! ### Committing one list -/

namespace Path
variable {n : Nat} {areas : Areas n} {hollow frame : Set Addr} {depth live : Nat} {V V' V'' : List (Fin n) → Addr} {w w' w'' : Path n}

/-- A list's address, as its parent knows it. -/
def entry (w : Path n) (i : Nat) : Addr := (w.start (i - 1)).cache (w.start i).positionInParent

/-- What committing a list can do. -/
theorem commitElem_cases {i : Nat} (h : (w.commitElem areas i).1 = .ok) : (w.start i).active ∧
    ((w.start i).dirty = false ∧ w.commitElem areas i = (.ok, w) ∨
      (w.start i).dirty ∧ (w.start i).Empty ∧ w.entry i ≠ 0 ∧
        w.commitElem areas i = (.ok, w.relinked i 0 false (w.dev.invalidated (w.entry i))) ∨
      (w.start i).dirty ∧ ¬ (w.start i).Empty ∧ ∃ neu, neu ≠ 0 ∧ w.dev.statuses neu ≠ .used ∧
        w.commitElem areas i = (.ok, w.relinked i neu true (w.dev.written neu (w.entry i) (w.start i).cache))) := by
  unfold commitElem at h ⊢
  by_cases hact : (w.start i).active
  swap
  · simp [hact] at h
  refine ⟨hact, ?_⟩
  by_cases hdirty : (w.start i).dirty
  swap
  · simp [hact, hdirty]
  by_cases hempty : (w.start i).Empty
  · refine .inr (.inl ⟨hdirty, hempty, ?_⟩)
    simp only [hact, hdirty, hempty, Device.setPageStatus_dirty] at h ⊢
    by_cases h0 : w.entry i = 0
    · rw [entry] at h0
      simp [h0] at h
    · refine ⟨h0, ?_⟩
      rw [entry] at h0
      simp [h0, relinked, entry]
  · refine .inr (.inr ⟨hdirty, hempty, ?_⟩)
    simp only [hact, hdirty, hempty] at h ⊢
    by_cases hok : (w.dev.writeAddrList areas (w.entry i) (w.start i).cache).1 = .ok
    · obtain ⟨neu, h0, hfree, heq⟩ := Device.writeAddrList_cases areas _ _ hok
      refine ⟨neu, h0, hfree, ?_⟩
      rw [entry] at heq
      simp [heq, relinked, entry]
    · rw [entry] at hok
      simp [hok] at h

/-- The path stands for the addresses, and owns its lists. -/
structure Stands (hollow frame : Set Addr) (depth live : Nat) (V : List (Fin n) → Addr) (w : Path n) : Prop where
  rep : Represents hollow depth live V w
  owns : w.dev.Owns frame depth V

/-- Lists may have moved, but the file's pages are the same. -/
structure Moves (frame : Set Addr) (depth : Nat) (V V' : List (Fin n) → Addr) (w w' : Path n) : Prop where
  leaves : ∀ ps : List (Fin n), depth < ps.length → V' ps = V ps
  keeps : w.dev.Keeps frame w'.dev

theorem Moves.refl (frame : Set Addr) (depth : Nat) (V : List (Fin n) → Addr) (w : Path n) : Moves frame depth V V w w :=
  ⟨fun _ _ => rfl, .refl ..⟩

theorem Moves.trans (h : Moves frame depth V V' w w') (h' : Moves frame depth V' V'' w' w'') :
    Moves frame depth V V'' w w'' :=
  ⟨fun ps hps => (h'.leaves ps hps).trans (h.leaves ps hps), h.keeps.trans h'.keeps⟩

/-- After list `i + 1` was committed, only its parent may be dirty that was not before. -/
structure Settles (i : Nat) (w w' : Path n) : Prop where
  clean : (w'.start (i + 1)).dirty = false
  positions : ∀ k, (w'.start k).positionInParent = (w.start k).positionInParent
  others : ∀ k, k ≠ i → k ≠ i + 1 → w'.start k = w.start k
  parent_active : (w'.start i).active = (w.start i).active

theorem settles_relinked (i : Nat) (addr : Addr) (stays : Bool) (dev : Device n) (w : Path n) :
    Settles i w (w.relinked (i + 1) addr stays dev) := by
  constructor
  · rw [relinked_start, if_pos rfl]
  · intro k
    rw [relinked_start]
    split
    · next h => rw [h]
    · split
      · next h => rw [h]
      · rfl
  · intro k h1 h2
    rw [relinked_start, if_neg h2, if_neg h1]
  · rw [relinked_start, if_neg (by omega), if_pos rfl]

theorem commitElem_settles {i : Nat} (hok : (w.commitElem areas (i + 1)).1 = .ok) :
    Settles i w (w.commitElem areas (i + 1)).2 := by
  obtain ⟨-, ⟨hclean, heq⟩ | ⟨-, -, -, heq⟩ | ⟨-, -, neu, -, -, heq⟩⟩ := commitElem_cases hok
  · rw [heq]
    exact ⟨hclean, fun _ => rfl, fun _ _ _ => rfl, rfl⟩
  · rw [heq]
    exact settles_relinked ..
  · rw [heq]
    exact settles_relinked ..

/-- A list that is dropped leaves no dirty one behind. -/
def Droppable (depth i : Nat) (w : Path n) : Prop :=
  (w.start i).dirty → (w.start i).Empty → ∀ k ≤ depth, i < k → (w.start k).dirty = false

theorem Stands.entry_eq (h : Stands hollow frame depth live V w) {i : Nat} (hi : i + 1 ≤ depth)
    (hdirty : (w.start (i + 1)).dirty) : w.entry (i + 1) = V (position w.start (i + 1)) := by
  have hlive := h.rep.dirty_live _ hi hdirty
  rw [position]
  exact h.rep.cached i (by omega) (by omega) (h.rep.parent_active i hi hdirty) _

theorem Stands.ne_fresh (h : Stands hollow frame depth live V w) {neu : Addr} (h0 : neu ≠ 0) (hfree : w.dev.statuses neu ≠ .used)
    {ps : List (Fin n)} (hps : ps.length ≤ depth) : V ps ≠ neu := by
  rintro rfl
  exact hfree (h.owns.used ps hps h0)

theorem commitElem_spec (h : Stands hollow frame depth live V w) (hdepth : depth ≤ 2) {i : Nat} (hi : i + 1 ≤ depth)
    (hdrop : Droppable depth (i + 1) w) (hok : (w.commitElem areas (i + 1)).1 = .ok) :
    ∃ V', Stands hollow frame depth live V' (w.commitElem areas (i + 1)).2 ∧
      Moves frame depth V V' w (w.commitElem areas (i + 1)).2 := by
  have hlen : (position w.start (i + 1)).length ≤ depth := by simpa using hi
  have hleaves : ∀ (addr : Addr) (ps : List (Fin n)), depth < ps.length →
      Function.update V (position w.start (i + 1)) addr ps = V ps := by
    intro addr ps hps
    refine Function.update_of_ne ?_ ..
    rintro rfl
    omega
  obtain ⟨-, ⟨hclean, heq⟩ | ⟨hdirty, hempty, h0, heq⟩ | ⟨hdirty, hne, neu, h0, hfree, heq⟩⟩ := commitElem_cases hok
  · rw [heq]
    exact ⟨V, h, .refl ..⟩
  · rw [heq]
    rw [h.entry_eq hi hdirty] at h0 ⊢
    refine ⟨_, ⟨h.rep.relinked hdepth hi hdirty (.inr (hdrop hdirty hempty)) (fun _ _ _ => rfl) ?_ fun h => (h rfl).elim,
      h.owns.invalidated hlen h0⟩, ⟨hleaves 0, fun _ _ => rfl, rfl, rfl⟩⟩
    funext p
    exact (hempty p).symm
  · rw [heq, h.entry_eq hi hdirty]
    refine ⟨_, ⟨h.rep.relinked hdepth hi hdirty (.inl rfl) (fun ps hps hne => ?_) (Device.readAddrList_written h0 ..)
      fun _ => hne, h.owns.written hlen h0 hfree _⟩, ⟨hleaves neu, .written h.owns.frame_used hfree ..⟩⟩
    exact Device.readAddrList_written_of_ne (h.ne_fresh h0 hfree hps) ..

/-! ### Loading a path -/

/-- Nothing is left over from another list: a list below one that is exchanged is not dirty, and at another position. -/
def Undisturbed : List (Fin n) → Nat → Bool → Path n → Prop
  | [], _, _, _ => True
  | pos :: path, i, moved, w =>
    (moved → (w.start i).active = false ∨ (w.start i).dirty = false ∧ (w.start i).positionInParent ≠ pos) ∧
      Undisturbed path (i + 1) (moved || (w.start i).positionInParent ≠ pos) w

theorem Undisturbed.congr {path : List (Fin n)} {i : Nat} {moved : Bool} (h : Undisturbed path i moved w)
    (hstart : ∀ k, i ≤ k → w'.start k = w.start k) : Undisturbed path i moved w' := by
  induction path generalizing i moved with
  | nil => trivial
  | cons pos path ih =>
    rw [Undisturbed] at h ⊢
    rw [hstart i (Nat.le_refl i)]
    exact ⟨h.1, ih h.2 fun k hk => hstart k (by omega)⟩


theorem Undisturbed.clean {path : List (Fin n)} {i : Nat} (h : Undisturbed path i true w)
    (hw : ∀ k ≤ depth, (w.start k).dirty → (w.start k).active) (hlen : path.length + i = depth + 1) :
    ∀ k ≤ depth, i ≤ k → (w.start k).dirty = false := by
  induction path generalizing i with
  | nil =>
    intro k hk hik
    simp at hlen
    omega
  | cons pos path ih =>
    intro k hk hik
    rw [List.length_cons] at hlen
    by_cases hki : k = i
    · subst hki
      rcases h.1 rfl with hoff | hclean
      · by_contra hd
        rw [hw k hk (by simpa using hd)] at hoff
        cases hoff
      · exact hclean.1
    · exact ih h.2 (by omega) k hk (by omega)

theorem reload_of_ne {i : Nat} {pos : Fin n} (h : (w.start i).active = false ∨ (w.start i).positionInParent ≠ pos) :
    w.reload i pos = w.loaded i pos := if_pos (by simpa using h)

theorem reload_of_eq {i : Nat} {pos : Fin n} (hon : (w.start i).active) (hpos : (w.start i).positionInParent = pos) :
    w.reload i pos = w := if_neg (by simp [hon, hpos])

/-- After the turn of the loop for list `i + 1`. -/
structure Turned (i : Nat) (pos : Fin n) (w w' : Path n) : Prop where
  active : (w'.start (i + 1)).active
  loaded_at : (w'.start (i + 1)).positionInParent = pos
  below : ∀ k, i + 1 < k → w'.start k = w.start k
  above : ∀ k ≤ i, (w'.start k).positionInParent = (w.start k).positionInParent ∧ (w'.start k).active = (w.start k).active

theorem turned_loaded {i : Nat} {pos : Fin n} (hother : ∀ k, k ≠ i → k ≠ i + 1 → w'.start k = w.start k)
    (hpos : (w'.start i).positionInParent = (w.start i).positionInParent) (hact : (w'.start i).active = (w.start i).active) :
    Turned i pos w (w'.loaded (i + 1) pos) := by
  have hstart := setElem_start (i + 1) { (w'.start (i + 1)).load w'.dev ((w'.start i).cache pos) with positionInParent := pos } w'
  refine ⟨?_, ?_, fun k hk => ?_, fun k hk => ?_⟩
  · exact congrArg AddrListCacheElem.active ((hstart (i + 1)).trans (if_pos rfl))
  · exact congrArg AddrListCacheElem.positionInParent ((hstart (i + 1)).trans (if_pos rfl))
  · exact ((hstart k).trans (if_neg (by omega))).trans (hother k (by omega) (by omega))
  · have hk' : (w'.loaded (i + 1) pos).start k = w'.start k := (hstart k).trans (if_neg (by omega))
    rw [hk']
    by_cases hki : k = i
    · rw [hki]
      exact ⟨hpos, hact⟩
    · rw [hother k hki (by omega)]
      exact ⟨rfl, rfl⟩

/-- What a turn of the loop can do: the list is evicted, it is there already, or it is loaded into an inactive one. -/
theorem loadElem_cases {i : Nat} {pos : Fin n} (hok : (w.loadElem areas (i + 1) pos).1 = .ok) :
    (w.start (i + 1)).active = true ∧ (w.start (i + 1)).positionInParent ≠ pos ∧ (w.commitElem areas (i + 1)).1 = .ok ∧
        w.loadElem areas (i + 1) pos = (.ok, (w.commitElem areas (i + 1)).2.loaded (i + 1) pos) ∨
      (w.start (i + 1)).active = true ∧ (w.start (i + 1)).positionInParent = pos ∧
        w.loadElem areas (i + 1) pos = (.ok, w) ∨
      (w.start (i + 1)).active = false ∧ w.loadElem areas (i + 1) pos = (.ok, w.loaded (i + 1) pos) := by
  unfold loadElem at hok ⊢
  by_cases hevict : (w.start (i + 1)).active && (w.start (i + 1)).positionInParent ≠ pos
  · obtain ⟨hon, hpos⟩ : (w.start (i + 1)).active = true ∧ (w.start (i + 1)).positionInParent ≠ pos := by simpa using hevict
    rw [if_pos hevict] at hok ⊢
    obtain ⟨w₁, hw₁, -⟩ := ok_of_andThen hok
    have hok₁ : (w.commitElem areas (i + 1)).1 = .ok := by rw [hw₁]
    have hsettles := commitElem_settles hok₁
    rw [hw₁] at hsettles ⊢
    rw [andThen_ok, reload_of_ne (.inr (by rwa [hsettles.positions]))]
    exact .inl ⟨hon, hpos, rfl, rfl⟩
  · rw [if_neg hevict, andThen_ok]
    by_cases hon : (w.start (i + 1)).active
    · have hpos : (w.start (i + 1)).positionInParent = pos := by simpa [hon] using hevict
      rw [reload_of_eq hon hpos]
      exact .inr (.inl ⟨hon, hpos, rfl⟩)
    · have hoff : (w.start (i + 1)).active = false := by simpa using hon
      rw [reload_of_ne (.inl hoff)]
      exact .inr (.inr ⟨hoff, rfl⟩)

theorem loadElem_turned {i : Nat} {pos : Fin n} (hok : (w.loadElem areas (i + 1) pos).1 = .ok) :
    Turned i pos w (w.loadElem areas (i + 1) pos).2 := by
  rcases loadElem_cases hok with ⟨-, -, hok₁, heq⟩ | ⟨hon, hpos, heq⟩ | ⟨-, heq⟩
  · have hsettles := commitElem_settles hok₁
    rw [heq]
    exact turned_loaded hsettles.others (hsettles.positions i) hsettles.parent_active
  · rw [heq]
    exact ⟨hon, hpos, fun _ _ => rfl, fun _ _ => ⟨rfl, rfl⟩⟩
  · rw [heq]
    exact turned_loaded (fun _ _ _ => rfl) rfl rfl

theorem loadElem_spec {i : Nat} {pos : Fin n} {path : List (Fin n)} {moved : Bool}
    (h : Stands hollow frame depth (if moved then i else depth) V w) (hdepth : depth ≤ 2) (hi : i + 1 ≤ depth)
    (hlen : path.length + (i + 2) = depth + 1) (hact : (w.start i).active)
    (hun : Undisturbed (pos :: path) (i + 1) moved w) (hok : (w.loadElem areas (i + 1) pos).1 = .ok) :
    ∃ V', Stands hollow frame depth (if moved || (w.start (i + 1)).positionInParent ≠ pos then i + 1 else depth) V'
        (w.loadElem areas (i + 1) pos).2 ∧
      Moves frame depth V V' w (w.loadElem areas (i + 1) pos).2 := by
  have hlive : i ≤ if moved then i else depth := by split <;> omega
  -- whenever another list is loaded, there is nothing dirty below it
  have hbelow : (moved || (w.start (i + 1)).positionInParent ≠ pos) = true →
      ∀ k ≤ depth, i + 1 < k → (w.start k).dirty = false := by
    intro hm k hk hik
    have hrest := hun.2
    rw [hm] at hrest
    exact hrest.clean h.rep.dirty_active hlen k hk (by omega)
  rcases loadElem_cases hok with ⟨hon, hpos, hok₁, heq⟩ | ⟨hon, hpos, heq⟩ | ⟨hoff, heq⟩
  · have hmoved : (moved || (w.start (i + 1)).positionInParent ≠ pos) = true := by simp [hpos]
    have hsettles := commitElem_settles hok₁
    obtain ⟨V', hstands, hmoves⟩ := commitElem_spec h hdepth hi (fun _ _ k hk hik => hbelow hmoved k hk hik) hok₁
    rw [heq, hmoved, if_pos rfl]
    refine ⟨V', ⟨?_, hstands.owns⟩, hmoves.leaves, hmoves.keeps⟩
    refine hstands.rep.load_new hi hlive (hsettles.parent_active.trans hact) (fun k hk hik => ?_) pos
    by_cases hki : k = i + 1
    · rw [hki, hsettles.clean]
    · rw [hsettles.others k (by omega) hki]
      exact hbelow hmoved k hk (by omega)
  · have hmoved : moved = false := by
      by_contra hm
      rcases hun.1 (by simpa using hm) with hoff | hclean
      · rw [hon] at hoff
        cases hoff
      · exact hclean.2 hpos
    subst hmoved
    rw [heq, if_neg (by simp [hpos])]
    exact ⟨V, h, .refl ..⟩
  · have hclean : (w.start (i + 1)).dirty = false := by
      by_contra hd
      rw [h.rep.dirty_active _ hi (by simpa using hd)] at hoff
      cases hoff
    rw [heq]
    refine ⟨V, ⟨?_, h.owns⟩, fun _ _ => rfl, .refl ..⟩
    by_cases hmoved : (moved || (w.start (i + 1)).positionInParent ≠ pos) = true
    · rw [hmoved, if_pos rfl]
      refine h.rep.load_new hi hlive hact (fun k hk hik => ?_) pos
      by_cases hki : k = i + 1
      · rw [hki, hclean]
      · exact hbelow hmoved k hk (by omega)
    · rw [if_neg hmoved]
      obtain ⟨hm, hpos⟩ : moved = false ∧ (w.start (i + 1)).positionInParent = pos := by simpa using hmoved
      subst hm
      rw [← hpos]
      exact h.rep.load_again hi hact hoff

theorem loadRest_spec {path : List (Fin n)} {i : Nat} {moved : Bool}
    (h : Stands hollow frame depth (if moved then i else depth) V w) (hdepth : depth ≤ 2) (hlen : path.length + i = depth)
    (hact : ∀ k ≤ i, (w.start k).active) (hun : Undisturbed path (i + 1) moved w)
    (hok : (loadRest areas path (i + 1) w).1 = .ok) :
    ∃ V', Stands hollow frame depth depth V' (loadRest areas path (i + 1) w).2 ∧
      Moves frame depth V V' w (loadRest areas path (i + 1) w).2 ∧
      (∀ k ≤ depth, ((loadRest areas path (i + 1) w).2.start k).active) ∧
      position (loadRest areas path (i + 1) w).2.start depth = position w.start i ++ path := by
  induction path generalizing i moved V w with
  | nil =>
    obtain rfl : i = depth := by simpa using hlen
    rw [ite_self] at h
    exact ⟨V, h, .refl .., hact, by simp [loadRest]⟩
  | cons pos path ih =>
    rw [List.length_cons] at hlen
    rw [loadRest] at hok ⊢
    obtain ⟨w₁, hw₁, hok⟩ := ok_of_andThen hok
    have hok₁ : (w.loadElem areas (i + 1) pos).1 = .ok := by rw [hw₁]
    have hturned := loadElem_turned hok₁
    obtain ⟨V₁, hstands, hmoves⟩ := loadElem_spec h hdepth (by omega) (by omega) (hact i (Nat.le_refl i)) hun hok₁
    rw [hw₁] at hstands hmoves hturned ⊢
    rw [andThen_ok]
    have hrest : Undisturbed path (i + 1 + 1) _ w₁ :=
      hun.2.congr fun k hk => hturned.below k (by omega)
    have hact₁ : ∀ k ≤ i + 1, (w₁.start k).active := by
      intro k hk
      by_cases hki : k = i + 1
      · rw [hki]
        exact hturned.active
      · rw [(hturned.above k (by omega)).2]
        exact hact k (by omega)
    obtain ⟨V₂, hstands₂, hmoves₂, hactive, hpos⟩ := ih hstands (by omega) hact₁ hrest hok
    refine ⟨V₂, hstands₂, hmoves.trans hmoves₂, hactive, ?_⟩
    have hsame : position w₁.start i = position w.start i :=
      position_congr fun j hj => (hturned.above (j + 1) (by omega)).1
    rw [hpos, position, hturned.loaded_at, hsame, List.append_assoc, List.singleton_append]

theorem loadRoot_start (w : Path n) {k : Nat} (hk : 1 ≤ k) : w.loadRoot.start k = w.start k := by
  unfold loadRoot
  split
  · rfl
  · rw [setElem_start, if_neg (by omega)]

theorem loadRoot_active (w : Path n) : (w.loadRoot.start 0).active := by
  unfold loadRoot
  split
  · next h => exact h
  · rfl

theorem loadRoot_dev (w : Path n) : w.loadRoot.dev = w.dev := by
  unfold loadRoot
  split <;> rfl

theorem loadPath_spec {path : List (Fin n)} (h : Stands hollow frame depth depth V w) (hdepth : depth ≤ 2)
    (hlen : path.length = depth) (hun : Undisturbed path 1 false w) (hok : (w.loadPath areas path).1 = .ok) :
    ∃ V', Stands hollow frame depth depth V' (w.loadPath areas path).2 ∧
      Moves frame depth V V' w (w.loadPath areas path).2 ∧
      (∀ k ≤ depth, ((w.loadPath areas path).2.start k).active) ∧
      position (w.loadPath areas path).2.start depth = path := by
  have hroot : Stands hollow frame depth (if false then 0 else depth) V w.loadRoot :=
    ⟨h.rep.loadRoot, by rw [w.loadRoot_dev]; exact h.owns⟩
  have hact : ∀ k ≤ 0, (w.loadRoot.start k).active := by
    intro k hk
    obtain rfl : k = 0 := by omega
    exact w.loadRoot_active
  obtain ⟨V', hstands, hmoves, hactive, hpos⟩ :=
    loadRest_spec hroot hdepth (by simpa using hlen) hact (hun.congr fun k hk => w.loadRoot_start hk) hok
  refine ⟨V', hstands, ⟨hmoves.leaves, ?_⟩, hactive, hpos⟩
  rw [← w.loadRoot_dev]
  exact hmoves.keeps

/-! ### Committing a path -/

theorem commitBelow_spec (hdepth : depth ≤ 2) {i : Nat} (hi : i ≤ depth) (h : Stands hollow frame depth depth V w)
    (hclean : ∀ k ≤ depth, i < k → (w.start k).dirty = false) (hok : (commitBelow areas i w).1 = .ok) :
    ∃ V', Stands hollow frame depth depth V' (commitBelow areas i w).2 ∧
      Moves frame depth V V' w (commitBelow areas i w).2 ∧
      ∀ k ≤ depth, 0 < k → ((commitBelow areas i w).2.start k).dirty = false := by
  induction i generalizing V w with
  | zero => exact ⟨V, h, .refl .., fun k hk h0 => hclean k hk h0⟩
  | succ i ih =>
    rw [commitBelow] at hok ⊢
    by_cases hdirty : (w.start (i + 1)).dirty
    · rw [if_pos hdirty] at hok ⊢
      obtain ⟨w₁, hw₁, hok⟩ := ok_of_andThen hok
      have hok₁ : (w.commitElem areas (i + 1)).1 = .ok := by rw [hw₁]
      have hsettles := commitElem_settles hok₁
      obtain ⟨V₁, hstands, hmoves⟩ := commitElem_spec h hdepth hi (fun _ _ k hk hik => hclean k hk hik) hok₁
      rw [hw₁] at hstands hmoves hsettles ⊢
      rw [andThen_ok]
      have hclean₁ : ∀ k ≤ depth, i < k → (w₁.start k).dirty = false := by
        intro k hk hik
        by_cases hki : k = i + 1
        · rw [hki, hsettles.clean]
        · rw [hsettles.others k (by omega) hki]
          exact hclean k hk (by omega)
      obtain ⟨V₂, hstands₂, hmoves₂, hclean₂⟩ := ih (by omega) hstands hclean₁ hok
      exact ⟨V₂, hstands₂, hmoves.trans hmoves₂, hclean₂⟩
    · rw [if_neg hdirty, andThen_ok] at hok ⊢
      refine ih (by omega) h (fun k hk hik => ?_) hok
      by_cases hki : k = i + 1
      · rw [hki]
        simpa using hdirty
      · exact hclean k hk (by omega)

theorem commitRoot_cases (h : (w.commitRoot areas).1 = .ok) :
    (w.start 0).dirty = false ∧ w.commitRoot areas = (.ok, w) ∨
      (w.start 0).dirty ∧ (w.start 0).Empty ∧ w.anchor ≠ 0 ∧
        w.commitRoot areas = (.ok, w.rerooted 0 (w.dev.invalidated w.anchor)) ∨
      (w.start 0).dirty ∧ ¬ (w.start 0).Empty ∧ ∃ neu, neu ≠ 0 ∧ w.dev.statuses neu ≠ .used ∧
        w.commitRoot areas = (.ok, w.rerooted neu (w.dev.written neu w.anchor (w.start 0).cache)) := by
  unfold commitRoot at h ⊢
  by_cases hdirty : (w.start 0).dirty
  swap
  · simp [hdirty]
  by_cases hempty : (w.start 0).Empty
  · refine .inr (.inl ⟨hdirty, hempty, ?_⟩)
    simp only [hdirty, hempty, Device.setPageStatus_dirty] at h ⊢
    by_cases h0 : w.anchor = 0
    · simp [h0] at h
    · simp [h0, rerooted]
  · refine .inr (.inr ⟨hdirty, hempty, ?_⟩)
    simp only [hdirty, hempty] at h ⊢
    by_cases hok : (w.dev.writeAddrList areas w.anchor (w.start 0).cache).1 = .ok
    · obtain ⟨neu, h0, hfree, heq⟩ := Device.writeAddrList_cases areas _ _ hok
      refine ⟨neu, h0, hfree, ?_⟩
      simp [heq, rerooted]
    · simp [hok] at h

theorem commitRoot_spec (h : Stands hollow frame depth depth V w) (hok : (w.commitRoot areas).1 = .ok) :
    ∃ V', Stands hollow frame depth depth V' (w.commitRoot areas).2 ∧ Moves frame depth V V' w (w.commitRoot areas).2 ∧
      ((w.commitRoot areas).2.start 0).dirty = false ∧ ∀ k, k ≠ 0 → (w.commitRoot areas).2.start k = w.start k := by
  have hleaves : ∀ (addr : Addr) (ps : List (Fin n)), depth < ps.length → Function.update V [] addr ps = V ps := by
    intro addr ps hps
    refine Function.update_of_ne ?_ ..
    rintro rfl
    simp at hps
  have hstart : ∀ (addr : Addr) (dev : Device n), ((w.rerooted addr dev).start 0).dirty = false ∧
      ∀ k, k ≠ 0 → (w.rerooted addr dev).start k = w.start k := by
    intro addr dev
    refine ⟨?_, fun k hk => ?_⟩
    · rw [rerooted, setElem_start, if_pos rfl]
    · rw [rerooted, setElem_start, if_neg hk]
  rcases commitRoot_cases hok with ⟨hclean, heq⟩ | ⟨hdirty, hempty, h0, heq⟩ | ⟨hdirty, hne, neu, h0, hfree, heq⟩
  · rw [heq]
    exact ⟨V, h, .refl .., hclean, fun _ _ => rfl⟩
  · rw [heq]
    rw [← h.rep.anchor] at h0 ⊢
    refine ⟨_, ⟨h.rep.rerooted hdirty (fun _ _ _ => rfl) ?_ fun h => (h rfl).elim, h.owns.invalidated (by simp) h0⟩,
      ⟨hleaves 0, fun _ _ => rfl, rfl, rfl⟩, hstart ..⟩
    funext p
    exact (hempty p).symm
  · rw [heq, ← h.rep.anchor]
    refine ⟨_, ⟨h.rep.rerooted hdirty (fun ps hps _ => ?_) (Device.readAddrList_written h0 ..) fun _ => hne,
      h.owns.written (by simp) h0 hfree _⟩, ⟨hleaves neu, .written h.owns.frame_used hfree ..⟩, hstart ..⟩
    exact Device.readAddrList_written_of_ne (h.ne_fresh h0 hfree hps) ..

theorem commitPath_spec (h : Stands hollow frame depth depth V w) (hdepth : depth ≤ 2)
    (hok : (w.commitPath areas depth).1 = .ok) :
    ∃ V', Stands hollow frame depth depth V' (w.commitPath areas depth).2 ∧
      Moves frame depth V V' w (w.commitPath areas depth).2 ∧
      ∀ k ≤ depth, ((w.commitPath areas depth).2.start k).dirty = false := by
  obtain ⟨w₁, hw₁, hok₁⟩ := ok_of_andThen hok
  have hok₀ : (w.commitBelow areas depth).1 = .ok := by rw [hw₁]
  obtain ⟨V₁, hstands, hmoves, hclean⟩ := commitBelow_spec hdepth (Nat.le_refl _) h (fun k hk hik => by omega) hok₀
  rw [commitPath]
  rw [hw₁] at hstands hmoves hclean ⊢
  rw [andThen_ok]
  obtain ⟨V₂, hstands₂, hmoves₂, hroot, hothers⟩ := commitRoot_spec hstands hok₁
  refine ⟨V₂, hstands₂, hmoves.trans hmoves₂, fun k hk => ?_⟩
  by_cases h0 : k = 0
  · rw [h0, hroot]
  · rw [hothers k h0]
    exact hclean k hk (by omega)

/-- What a commit leaves in the cache: positions stay, no list becomes active, and an empty one does not stay so. -/
structure Leaves (i : Nat) (w w' : Path n) : Prop where
  positions : ∀ k, (w'.start k).positionInParent = (w.start k).positionInParent
  active : ∀ k, (w'.start k).active → (w.start k).active
  below : ∀ k, i < k → w'.start k = w.start k

theorem leaves_relinked (i : Nat) {addr : Addr} {stays : Bool} {dev : Device n} (hact : (w.start (i + 1)).active) :
    Leaves (i + 1) w (w.relinked (i + 1) addr stays dev) := by
  refine ⟨(settles_relinked ..).positions, fun k => ?_, fun k hk => (settles_relinked ..).others k (by omega) (by omega)⟩
  rw [relinked_start]
  split
  · next h => rw [h]; exact fun _ => hact
  · split
    · next h => rw [h]; exact id
    · exact id

theorem commitElem_leaves {i : Nat} (hok : (w.commitElem areas (i + 1)).1 = .ok) :
    Leaves (i + 1) w (w.commitElem areas (i + 1)).2 := by
  obtain ⟨hact, ⟨-, heq⟩ | ⟨-, -, -, heq⟩ | ⟨-, -, neu, -, -, heq⟩⟩ := commitElem_cases hok
  · rw [heq]
    exact ⟨fun _ => rfl, fun _ => id, fun _ _ => rfl⟩
  · rw [heq]
    exact leaves_relinked i hact
  · rw [heq]
    exact leaves_relinked i hact

theorem commitBelow_leaves {i : Nat} (hok : (commitBelow areas i w).1 = .ok) : Leaves i w (commitBelow areas i w).2 := by
  induction i generalizing w with
  | zero => exact ⟨fun _ => rfl, fun _ => id, fun _ _ => rfl⟩
  | succ i ih =>
    rw [commitBelow] at hok ⊢
    obtain ⟨w₁, hw₁, hok⟩ := ok_of_andThen hok
    rw [hw₁, andThen_ok]
    have hfirst : Leaves (i + 1) w w₁ := by
      split at hw₁
      · have hok₁ : (w.commitElem areas (i + 1)).1 = .ok := by rw [hw₁]
        have h := commitElem_leaves hok₁
        rwa [hw₁] at h
      · obtain rfl : w = w₁ := congrArg Prod.snd hw₁
        exact ⟨fun _ => rfl, fun _ => id, fun _ _ => rfl⟩
    have hrest := ih hok
    exact ⟨fun k => (hrest.positions k).trans (hfirst.positions k), fun k hk => hfirst.active k (hrest.active k hk),
      fun k hk => (hrest.below k (by omega)).trans (hfirst.below k hk)⟩

theorem commitRoot_leaves (hok : (w.commitRoot areas).1 = .ok) (k : Nat) :
    ((w.commitRoot areas).2.start k).positionInParent = (w.start k).positionInParent ∧
      ((w.commitRoot areas).2.start k).active = (w.start k).active := by
  have hroot : ∀ (addr : Addr) (dev : Device n), ((w.rerooted addr dev).start k).positionInParent =
      (w.start k).positionInParent ∧ ((w.rerooted addr dev).start k).active = (w.start k).active := by
    intro addr dev
    rw [rerooted, setElem_start]
    split
    · next h => rw [h]; exact ⟨rfl, rfl⟩
    · exact ⟨rfl, rfl⟩
  rcases commitRoot_cases hok with ⟨-, heq⟩ | ⟨-, -, -, heq⟩ | ⟨-, -, neu, -, -, heq⟩
  · rw [heq]
    exact ⟨rfl, rfl⟩
  · rw [heq]
    exact hroot ..
  · rw [heq]
    exact hroot ..

theorem commitPath_leaves (hok : (w.commitPath areas depth).1 = .ok) (k : Nat) :
    ((w.commitPath areas depth).2.start k).positionInParent = (w.start k).positionInParent ∧
      (((w.commitPath areas depth).2.start k).active → (w.start k).active) := by
  obtain ⟨w₁, hw₁, hok₁⟩ := ok_of_andThen hok
  have hok₀ : (w.commitBelow areas depth).1 = .ok := by rw [hw₁]
  have hbelow := commitBelow_leaves hok₀
  obtain ⟨hpos, hact⟩ := commitRoot_leaves hok₁ k
  rw [commitPath]
  rw [hw₁] at hbelow ⊢
  rw [andThen_ok, hpos, hact]
  exact ⟨hbelow.positions k, hbelow.active k⟩

/-- The deepest list, if it is empty, is gone after a commit. -/
theorem commitPath_drops (hok : (w.commitPath areas (depth + 1)).1 = .ok) (hdirty : (w.start (depth + 1)).dirty)
    (hempty : (w.start (depth + 1)).Empty) :
    ((w.commitPath areas (depth + 1)).2.start (depth + 1)).active = false := by
  obtain ⟨w₁, hw₁, hok₁⟩ := ok_of_andThen hok
  rw [commitBelow, if_pos hdirty] at hw₁
  have hok₀ : (andThen (w.commitElem areas (depth + 1)) (commitBelow areas depth)).1 = .ok := by rw [hw₁]
  obtain ⟨w₂, hw₂, hok₂⟩ := ok_of_andThen hok₀
  have hoff : (w₂.start (depth + 1)).active = false := by
    have hok₂ : (w.commitElem areas (depth + 1)).1 = .ok := by rw [hw₂]
    obtain ⟨-, ⟨hclean, -⟩ | ⟨-, -, -, heq⟩ | ⟨-, hne, -⟩⟩ := commitElem_cases hok₂
    · rw [hdirty] at hclean
      cases hclean
    · rw [heq] at hw₂
      obtain rfl := (Prod.mk.inj hw₂).2
      rw [relinked_start, if_pos rfl]
    · exact (hne hempty).elim
  rw [hw₂, andThen_ok] at hw₁
  have hbelow := commitBelow_leaves hok₂
  rw [hw₁] at hbelow
  have hwhole : w.commitPath areas (depth + 1) = w₁.commitRoot areas := by
    rw [commitPath, commitBelow, if_pos hdirty, hw₂, andThen_ok, hw₁, andThen_ok]
  rw [hwhole, (commitRoot_leaves hok₁ _).2, hbelow.below _ (by omega)]
  exact hoff

end Path
end Paffs.AddressCache
