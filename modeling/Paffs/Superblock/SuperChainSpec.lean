import Paffs.Superblock.ChainElement
import Paffs.Superblock.SuperChain

/-! A commit of the super chain leaves a chain that leads to the new index. -/
namespace Paffs.Superblock
open Bytes (Memory Word)

variable {g : Geometry} {d : Driver} {flash flash' : Flash} {w w' : Written} {ws : List Written} {path : List Link}
  {places : Places} {createNew testmode : Bool} {param : Memory} {index : Entry} {p : Progress}

/-! ### Chains -/

/-- An entry on one page that names an area. -/
structure Names (w : Written) (area : Nat) : Prop where
  needed : w.entry.needed = 1
  next : (w.content 0).readWord 6 2 = Word.ofNat 2 area

/-- All entries are kept, and each of them names the area of the next. No two elements share an area. -/
structure Intact (g : Geometry) (flash : Flash) (ws : List Written) : Prop where
  kept : ∀ w ∈ ws, Kept g flash w.area w
  names : ws.IsChain fun w w' => Names w w'.area
  inRange : ∀ w ∈ ws, InRange g w.area
  area_lt : ∀ w ∈ ws, w.area < g.areasNo
  nodup : (ws.map Written.area).Nodup

/-- What is read of an element, and what was written. -/
def Linked (l : Link) (w : Written) : Prop := l.1 = combineAddress w.area w.found ∧ l.2.outIndex = w.no

theorem Intact.singleton (hkept : Kept g flash w.area w) (hrange : InRange g w.area) (harea : w.area < g.areasNo) :
    Intact g flash [w] :=
  ⟨List.forall_mem_singleton.mpr hkept, .singleton w, List.forall_mem_singleton.mpr hrange,
    List.forall_mem_singleton.mpr harea, List.nodup_singleton _⟩

theorem Intact.cons (h : Intact g flash (w' :: ws)) (hkept : Kept g flash w.area w) (hrange : InRange g w.area)
    (harea : w.area < g.areasNo) (hnames : Names w w'.area) (hapart : w.area ∉ (w' :: ws).map Written.area) :
    Intact g flash (w :: w' :: ws) :=
  ⟨List.forall_mem_cons.mpr ⟨hkept, h.kept⟩, .cons_cons hnames h.names, List.forall_mem_cons.mpr ⟨hrange, h.inRange⟩,
    List.forall_mem_cons.mpr ⟨harea, h.area_lt⟩, List.nodup_cons.mpr ⟨hapart, h.nodup⟩⟩

theorem Intact.congr (h : Intact g flash ws) (hsame : ∀ w ∈ ws, Same g flash flash' w.area) : Intact g flash' ws :=
  ⟨fun w hw => (h.kept w hw).congr (hsame w hw), h.names, h.inRange, h.area_lt, h.nodup⟩

theorem Intact.tail (h : Intact g flash (w :: ws)) : Intact g flash ws :=
  ⟨(List.forall_mem_cons.mp h.kept).2, h.names.tail, (List.forall_mem_cons.mp h.inRange).2,
    (List.forall_mem_cons.mp h.area_lt).2, (List.nodup_cons.mp h.nodup).2⟩

theorem Intact.kept_head (h : Intact g flash (w :: ws)) : Kept g flash w.area w := h.kept w List.mem_cons_self

theorem Names.next_eq {e : Recent} {area : Nat} (hnames : Names w area) (harea : area < 2 ^ 16)
    (hnext : e.next = (w.content (foundAt w.entry.needed w.no)).readWord 6 2) : e.next.toNat = area := by
  have hfound : foundAt w.entry.needed w.no = 0 := by
    unfold foundAt
    rw [hnames.needed, ite_self]
  rw [hnext, hfound, hnames.next]
  exact Word.toNat_ofNat harea

/-- What is read names the areas that are read. -/
def Follow (l l' : Link) : Prop := l.2.next.toNat = extractLogicalArea l'.1

/-- Reading goes along the chain. -/
theorem readPath_intact (h : Intact g flash (w :: ws)) (hreads : ∀ v ∈ w :: ws, AreaReadable g d v.area) {i : Nat}
    (hhead : 0 < i → w.area ≠ 0) (htail : ∀ v ∈ ws, v.area ≠ 0) :
    ∃ path, readPath g d flash (ws.length + 1) i w.area = (.ok, path) ∧ List.Forall₂ Linked path (w :: ws) ∧
      path.IsChain Follow := by
  induction ws generalizing w i with
  | nil =>
    have hrange := h.inRange w List.mem_cons_self
    obtain ⟨e, hrun, hindex, _⟩ := h.kept_head.recent hrange (hreads w List.mem_cons_self) (Word.ofNat 2 0) (Word.ofNat 2 0)
    have hnot : ¬ (0 < i ∧ extractLogicalArea (combineAddress w.area w.found) = 0) := by
      rw [(h.kept_head.extract hrange).1]
      exact fun h => hhead h.1 h.2
    refine ⟨[(combineAddress w.area w.found, e)], ?_, .cons ⟨rfl, hindex⟩ .nil, .singleton _⟩
    unfold readPath
    rw [hrun]
    dsimp only
    rw [if_neg hnot]
    rfl
  | cons w' ws ih =>
    have hrange := h.inRange w List.mem_cons_self
    have hrange' := h.inRange w' (List.mem_cons_of_mem w List.mem_cons_self)
    obtain ⟨e, hrun, hindex, _, hnext, _⟩ :=
      h.kept_head.recent hrange (hreads w List.mem_cons_self) (Word.ofNat 2 0) (Word.ofNat 2 0)
    have hnot : ¬ (0 < i ∧ extractLogicalArea (combineAddress w.area w.found) = 0) := by
      rw [(h.kept_head.extract hrange).1]
      exact fun h => hhead h.1 h.2
    have hnames := (List.isChain_cons_cons.mp h.names).1.next_eq hrange'.area_lt hnext
    obtain ⟨path, hpath, hlinked, hfollow⟩ := @ih w' h.tail (fun v hv => hreads v (List.mem_cons_of_mem w hv)) (i + 1)
      (fun _ => htail w' List.mem_cons_self) fun v hv => htail v (List.mem_cons_of_mem w' hv)
    refine ⟨(combineAddress w.area w.found, e) :: path, ?_, .cons ⟨rfl, hindex⟩ hlinked, ?_⟩
    · rw [List.length_cons]
      unfold readPath
      rw [hrun]
      dsimp only
      rw [if_neg hnot, hnames, hpath]
    · cases hlinked with
      | @cons l _ path _ hl _ =>
        refine .cons_cons ?_ hfollow
        unfold Follow
        rw [hl.1, (h.tail.kept_head.extract hrange').1]
        exact hnames

/-! ### Commits -/

theorem names_of_link {rest : Memory} {next : Nat} (hentry : w.entry = linkEntry rest (Word.ofNat 2 next)) : Names w next := by
  refine ⟨by rw [hentry]; rfl, ?_⟩
  unfold Written.content
  rw [hentry]
  exact Memory.readWord_writeWord_self _ _ _ _

theorem Fresh.of_same {area : Nat} (h : Fresh g flash' area) (hsame : Same g flash flash' area) : Fresh g flash area := by
  intro block hblock page hpage
  have hempty := h block hblock page hpage
  unfold serialOn at hempty ⊢
  rwa [hsame block hblock page hpage] at hempty

/-- Nothing that the commit writes takes more than a page or leaves its block. -/
def Calm (g : Geometry) (testmode : Bool) (index : Entry) (ws : List Written) : Prop :=
  index.needed = 1 ∧ ∀ w ∈ ws.drop (ws.length - if testmode then 2 else 1), w.Room g 1

theorem Calm.tail (h : Calm g testmode index (w :: ws)) : Calm g testmode index ws := by
  refine ⟨h.1, fun v hv => h.2 v ?_⟩
  rw [List.length_cons]
  generalize (if testmode then 2 else 1 : Nat) = n at hv
  rcases Nat.lt_or_ge ws.length n with hlt | hge
  · have hzero : ws.length + 1 - n = 0 := by omega
    rw [hzero]
    exact List.mem_cons_of_mem w (List.mem_of_mem_drop hv)
  · have hsucc : ws.length + 1 - n = ws.length - n + 1 := by omega
    rw [hsucc]
    exact hv

theorem Calm.room (h : Calm g testmode index [w]) : w.Room g 1 := by
  refine h.2 w ?_
  cases testmode
  · exact List.mem_cons_self
  · exact List.mem_cons_self

/-- What a commit does to the elements from the `i`-th one on, whether it goes through or not. -/
structure Advanced (g : Geometry) (testmode : Bool) (param : Memory) (index : Entry) (i : Nat) (flash : Flash) (ws : List Written)
    (r : Result) (p : Progress) (flash' : Flash) (ws' : List Written) : Prop where
  intact : Intact g flash' ws'
  written : ws' = ws.take (ws.length - p.written.length) ++ p.written
  length_eq : ws'.length = ws.length
  all_written : p.goOn = true → ws' = p.written
  head_area : p.goOn = false ∨ Calm g testmode index ws ∨ i = 0 ∧ 1 < ws.length →
    ws'.head?.map Written.area = ws.head?.map Written.area
  others : ∀ area, InRange g area → ¬ Fresh g flash area → area ∉ ws.map Written.area →
    Same g flash flash' area ∧ area ∉ ws'.map Written.area
  ok : r = .ok → p.written ≠ []
  goes : p.goOn = true → r = .ok
  calm : Calm g testmode index ws → p.goOn = true → testmode = true ∧ ws.length = 1
  last : ∀ w', p.written.getLast? = some w' → w'.entry = index ∧ index.isPlausible ∧
    ∀ w, ws.getLast? = some w → index.needed = 1 ∨ w.Room g index.needed → w'.found = w'.page
  anchor : i = 0 → 1 < ws.length → ws'.head? = ws.head? ∨ ∃ w area, ws'.head? = some w ∧ w.entry = anchorEntry param area

theorem Same.trans {flash'' : Flash} {area : Nat} (h : Same g flash flash' area) (h' : Same g flash' flash'' area) :
    Same g flash flash'' area :=
  fun block hblock page hpage => (h' block hblock page hpage).trans (h block hblock page hpage)

theorem Same.symm {area : Nat} (h : Same g flash flash' area) : Same g flash' flash area :=
  fun block hblock page hpage => (h block hblock page hpage).symm

/-- The super index is written. -/
theorem commitFrom_index {l : Link} {i : Nat} {r : Result} (hl : Linked l w) (h : Intact g flash [w]) (htwo : 2 ≤ g.blocksPerArea)
    (hreads : AreaReadable g d w.area) (hfits : index.needed ≤ g.pagesPerBlock)
    (hfree : ∀ i flash area, places.findBestNextFreeArea i flash = some area → Vacant g flash area)
    (hgoes : r = .ok ∨ Calm g testmode index [w])
    (hcommit : commitFrom g d places false testmode param index flash i [l] = (r, p, flash')) :
    ∃ ws', Advanced g testmode param index i flash [w] r p flash' ws' := by
  obtain ⟨addr, e⟩ := l
  obtain ⟨haddr, hindex⟩ := hl
  dsimp only at haddr hindex
  have hkept : Kept g flash w.area w := h.kept_head
  have hrange := h.inRange w List.mem_cons_self
  have harea := h.area_lt w List.mem_cons_self
  rw [haddr] at hcommit
  unfold commitFrom at hcommit
  rw [(hkept.extract hrange).1, hindex] at hcommit
  dsimp only at hcommit
  split at hcommit
  · rename_i w' flash₁ hinsert
    simp only [Prod.mk.injEq] at hcommit
    obtain ⟨rfl, rfl, rfl⟩ := hcommit
    have hfollows := hkept.follows hrange harea htwo hreads hfits (fun area => hfree _ _ _) hinsert
    have hwhere : InRange g w'.area ∧ w'.area < g.areasNo := by
      by_cases heq : w'.area = w.area
      · rw [heq]
        exact ⟨hrange, harea⟩
      · exact ⟨(hfollows.vacant heq).inRange, (hfollows.vacant heq).area_lt⟩
    have hroom : Calm g testmode index [w] → w.Room g index.needed := fun hcalm => hcalm.1.symm ▸ hcalm.room
    refine ⟨[w'], ?_⟩
    refine { intact := .singleton hfollows.kept hwhere.1 hwhere.2, written := rfl, length_eq := rfl,
             all_written := fun _ => rfl, head_area := fun hstop => ?_, others := fun area hrangea hnot hmem => ?_,
             ok := fun _ => List.cons_ne_nil _ _, goes := fun _ => rfl, calm := fun hcalm hgo => ?_, last := fun v hv => ?_,
             anchor := fun _ hlt => absurd hlt (Nat.lt_irrefl 1) }
    · have heq : w'.area = w.area := by
        rcases hstop with hstop | hcalm | ⟨_, hlt⟩
        · by_contra hne
          simp [hne] at hstop
        · exact hfollows.stays (hroom hcalm)
        · exact absurd hlt (Nat.lt_irrefl 1)
      exact congrArg some heq
    · have hne : area ≠ w.area := by simpa using hmem
      have hne' : area ≠ w'.area := by
        rintro rfl
        exact hnot (hfollows.vacant hne).fresh
      exact ⟨hfollows.same area hrangea hne hne', by simpa using hne'⟩
    · have hsame := hfollows.stays (hroom hcalm)
      simp only [hsame, ne_eq, not_true_eq_false, decide_false, Bool.or_false, Bool.false_or] at hgo
      exact ⟨hgo, rfl⟩
    · obtain rfl : w' = v := Option.some.inj hv
      refine ⟨hfollows.entry_eq, hfollows.isPlausible, fun u hu => ?_⟩
      obtain rfl : w = u := Option.some.inj hu
      exact hfollows.found
  · rename_i r' _ _ herror hinsert
    simp only [Prod.mk.injEq] at hcommit
    obtain ⟨rfl, rfl, rfl⟩ := hcommit
    have hr : r' ≠ .ok := by
      rintro rfl
      obtain ⟨w', rfl⟩ := insertNewEntry_some hinsert
      exact herror w' rfl rfl
    have hcalm := hgoes.resolve_left hr
    rw [hkept.interrupted hrange hreads hcalm.1 hcalm.room hinsert hr]
    refine ⟨[w], ?_⟩
    exact { intact := h, written := rfl, length_eq := rfl, all_written := fun hgo => absurd hgo Bool.false_ne_true,
            head_area := fun _ => rfl, others := fun area _ _ hmem => ⟨fun _ _ _ _ => rfl, hmem⟩, ok := fun hok => absurd hok hr,
            goes := fun hgo => absurd hgo Bool.false_ne_true,
            calm := fun _ hgo => absurd hgo Bool.false_ne_true, last := fun v hv => absurd hv (Option.some_ne_none v).symm, anchor := fun _ _ => .inl rfl }

variable {i : Nat} {r r' : Result} {ws' : List Written}

/-- An element that has no entry for the one above, which is in another area. -/
theorem Kept.apart (h : Kept g flash w.area w) (hintact : Intact g flash (w :: ws)) (hadvanced : Advanced g testmode param index i flash ws r p flash' ws') :
    Same g flash flash' w.area ∧ w.area ∉ ws'.map Written.area :=
  hadvanced.others _ (hintact.inRange w List.mem_cons_self) h.not_fresh (List.nodup_cons.mp hintact.nodup).1

/-- The element above is not written. -/
theorem Advanced.above (hintact : Intact g flash (w :: w' :: ws))
    (h : Advanced g testmode param index (i + 1) flash (w' :: ws) r p flash' ws')
    (hhead : ws'.head?.map Written.area = some w'.area) (hok : r' = .ok → r = .ok) :
    Advanced g testmode param index i flash (w :: w' :: ws) r' ⟨p.written, false⟩ flash' (w :: ws') := by
  obtain ⟨hsame, hapart⟩ := hintact.kept_head.apart hintact h
  obtain ⟨v, vs, rfl⟩ : ∃ v vs, ws' = v :: vs := by
    cases ws' with
    | nil => cases hhead
    | cons v vs => exact ⟨v, vs, rfl⟩
  have harea : v.area = w'.area := Option.some.inj hhead
  have hlength := h.length_eq
  have hle : p.written.length ≤ (w' :: ws).length := by
    rw [← hlength, h.written, List.length_append]
    omega
  refine { intact := h.intact.cons (hintact.kept_head.congr hsame) (hintact.inRange w List.mem_cons_self)
             (hintact.area_lt w List.mem_cons_self) (harea ▸ (List.isChain_cons_cons.mp hintact.names).1) hapart,
           written := ?_, length_eq := ?_, all_written := fun hgo => absurd hgo Bool.false_ne_true, head_area := fun _ => rfl,
           others := ?_, ok := fun hr => h.ok (hok hr), goes := fun hgo => absurd hgo Bool.false_ne_true,
           calm := fun _ hgo => absurd hgo Bool.false_ne_true,
           last := fun u hu => ?_, anchor := fun _ _ => .inl rfl }
  · have hsucc : (w :: w' :: ws).length - p.written.length = (w' :: ws).length - p.written.length + 1 := by
      rw [List.length_cons]
      omega
    rw [hsucc, List.take_succ_cons, List.cons_append, ← h.written]
  · rw [List.length_cons, hlength, @List.length_cons _ w]
  · intro area hrange hnot hmem
    rw [List.map_cons, List.mem_cons, not_or] at hmem
    obtain ⟨hsame', hmem'⟩ := h.others area hrange hnot hmem.2
    refine ⟨hsame', ?_⟩
    rw [List.map_cons, List.mem_cons, not_or]
    exact ⟨hmem.1, hmem'⟩
  · obtain ⟨hentry, hplausible, hfound⟩ := h.last u hu
    refine ⟨hentry, hplausible, fun x hx => hfound x ?_⟩
    rwa [List.getLast?_cons_cons] at hx

/-- The element above is written too, and names the area of the next one. -/
theorem Advanced.inserted {entry : Entry} {flash'' : Flash} (hintact : Intact g flash (w :: w' :: ws))
    (h : Advanced g testmode param index (i + 1) flash (w' :: ws) .ok p flash' ws') (hgo : p.goOn = true) {v u : Written}
    {vs : List Written} (hwritten : p.written = v :: vs) (hnames : Names u v.area) (hfollows : Follows g flash' w entry u flash'')
    (hcalm : Calm g testmode index (w :: w' :: ws) → u.area = w.area) (hzero : i = 0 → u.area = w.area)
    (hanchor : i = 0 → ∃ area, u.entry = anchorEntry param area) :
    Advanced g testmode param index i flash (w :: w' :: ws) .ok ⟨u :: p.written, decide (u.area ≠ w.area)⟩ flash''
      (u :: p.written) := by
  obtain ⟨hsame, hapart⟩ := hintact.kept_head.apart hintact h
  have hall := h.all_written hgo
  rw [hall] at hapart
  have hbelow : Intact g flash' p.written := hall ▸ h.intact
  have hlength : p.written.length = (w' :: ws).length := by rw [← hall, h.length_eq]
  have hother : u.area ≠ w.area → ∀ x ∈ p.written, x.area ≠ u.area := by
    intro hne x hx heq
    exact (hbelow.kept x hx).not_fresh (heq ▸ (hfollows.vacant hne).fresh)
  have hnotmem : u.area ∉ p.written.map Written.area := by
    by_cases heq : u.area = w.area
    · rwa [heq]
    · intro hmem
      obtain ⟨x, hx, hxarea⟩ := List.mem_map.mp hmem
      exact hother heq x hx hxarea
  have hkeptBelow : ∀ x ∈ p.written, Same g flash' flash'' x.area := by
    intro x hx
    refine hfollows.same x.area (hbelow.inRange x hx) (fun heq => ?_) fun heq => ?_
    · exact hapart (heq ▸ List.mem_map_of_mem hx)
    · exact hnotmem (heq ▸ List.mem_map_of_mem hx)
  have hwhere : InRange g u.area ∧ u.area < g.areasNo := by
    by_cases heq : u.area = w.area
    · rw [heq]
      exact ⟨hintact.inRange w List.mem_cons_self, hintact.area_lt w List.mem_cons_self⟩
    · exact ⟨(hfollows.vacant heq).inRange, (hfollows.vacant heq).area_lt⟩
  have hwhole : Intact g flash'' (u :: p.written) := by
    have hcongr := hbelow.congr hkeptBelow
    rw [hwritten] at hcongr hnotmem ⊢
    exact hcongr.cons hfollows.kept hwhere.1 hwhere.2 hnames hnotmem
  refine { intact := hwhole, written := ?_, length_eq := ?_,
           all_written := fun _ => rfl, head_area := fun hstop => ?_, others := ?_, ok := fun _ => List.cons_ne_nil _ _,
           goes := fun _ => rfl, calm := fun hc hmoved => ?_, last := fun x hx => ?_, anchor := fun hi _ => ?_ }
  · have hzero : (w :: w' :: ws).length - (u :: p.written).length = 0 := by
      rw [List.length_cons, @List.length_cons _ u, hlength]
      exact Nat.sub_self _
    rw [hzero]
    rfl
  · rw [List.length_cons, hlength, @List.length_cons _ w]
  · have heq : u.area = w.area := by
      rcases hstop with hstop | hc | ⟨hi, _⟩
      · exact not_not.mp (of_decide_eq_false hstop)
      · exact hcalm hc
      · exact hzero hi
    exact congrArg some heq
  · intro area hrange hnot hmem
    rw [List.map_cons, List.mem_cons, not_or] at hmem
    obtain ⟨hsame', hmem'⟩ := h.others area hrange hnot hmem.2
    rw [hall] at hmem'
    have hne : area ≠ u.area := by
      rintro rfl
      exact hnot (Fresh.of_same (hfollows.vacant hmem.1).fresh hsame')
    refine ⟨hsame'.trans (hfollows.same area hrange hmem.1 hne), ?_⟩
    rw [List.map_cons, List.mem_cons, not_or]
    exact ⟨hne, hmem'⟩
  · exact absurd (hcalm hc) (of_decide_eq_true hmoved)
  · have hne : p.written ≠ [] := h.ok rfl
    rw [List.getLast?_cons, List.getLast?_eq_some_getLast hne] at hx
    obtain ⟨hentry, hplausible, hfound⟩ := h.last x ((List.getLast?_eq_some_getLast hne).trans hx)
    refine ⟨hentry, hplausible, fun y hy => hfound y ?_⟩
    rwa [List.getLast?_cons_cons] at hy
  · obtain ⟨area, harea⟩ := hanchor hi
    exact .inr ⟨u, area, rfl, harea⟩

/-- One commit. -/
theorem commitFrom_advanced {links : List Link} (hlinks : List.Forall₂ Linked links ws) (hne : ws ≠ []) (h : Intact g flash ws)
    (htwo : 2 ≤ g.blocksPerArea) (hreads : ∀ v ∈ ws, AreaReadable g d v.area) (hfits : index.needed ≤ g.pagesPerBlock)
    (hfree : ∀ i flash area, places.findBestNextFreeArea i flash = some area → Vacant g flash area)
    (hgoes : r = .ok ∨ Calm g testmode index ws)
    (hcommit : commitFrom g d places false testmode param index flash i links = (r, p, flash')) :
    ∃ ws', Advanced g testmode param index i flash ws r p flash' ws' := by
  induction hlinks generalizing i r p flash' with
  | nil => exact absurd rfl hne
  | @cons l w links ws hl hlinks ih =>
    cases hlinks with
    | nil => exact commitFrom_index hl h htwo (hreads w List.mem_cons_self) hfits hfree hgoes hcommit
    | @cons l' w' links ws hl' hlinks =>
      obtain ⟨addr, e⟩ := l
      obtain ⟨haddr, hindex⟩ := hl
      dsimp only at haddr hindex
      have hrange := h.inRange w List.mem_cons_self
      rcases hrun : commitFrom g d places false testmode param index flash (i + 1) (l' :: links) with ⟨r₁, p₁, flash₁⟩
      have hbelow : ∀ hgoes₁, ∃ ws', Advanced g testmode param index (i + 1) flash (w' :: ws) r₁ p₁ flash₁ ws' := fun hgoes₁ =>
        ih (List.cons_ne_nil _ _) h.tail (fun v hv => hreads v (List.mem_cons_of_mem w hv)) hgoes₁ hrun
      unfold commitFrom at hcommit
      rw [hrun] at hcommit
      split at hcommit
      · rename_i next written flash₂ heq
        simp only [Prod.mk.injEq] at heq
        obtain ⟨rfl, rfl, rfl⟩ := heq
        obtain ⟨ws₁, hadvanced⟩ := hbelow (.inl rfl)
        have hkept : Kept g flash₁ w.area w := h.kept_head.congr (h.kept_head.apart h hadvanced).1
        rw [haddr, (hkept.extract hrange).1, hindex] at hcommit
        dsimp only at hcommit
        generalize hfreeArea : (if i = 0 then none else places.findBestNextFreeArea i flash₁) = free at hcommit
        generalize hentry : (if i = 0 then anchorEntry param (Word.ofNat 2 next.area)
          else jumpPadEntry (Word.ofNat 2 next.area)) = entry at hcommit
        have hfree₁ : ∀ area, free = some area → Vacant g flash₁ area := by
          intro area hsome
          rw [← hfreeArea] at hsome
          split_ifs at hsome
          exact hfree _ _ _ hsome
        have hlink : ∃ rest, entry = linkEntry rest (Word.ofNat 2 next.area) := by
          rw [← hentry]
          split_ifs
          · exact ⟨_, rfl⟩
          · exact ⟨_, rfl⟩
        obtain ⟨rest, hlink⟩ := hlink
        have hone : entry.needed = 1 := by rw [hlink]; rfl
        have hroom : Calm g testmode index (w :: w' :: ws) → w.Room g 1 := by
          intro hcalm
          obtain ⟨htest, hlast⟩ := hadvanced.calm hcalm.tail rfl
          refine hcalm.2 w ?_
          rw [htest, List.length_cons, hlast]
          exact List.mem_cons_self
        split at hcommit
        · rename_i u flash₃ hinsert
          simp only [Prod.mk.injEq, Bool.false_or] at hcommit
          obtain ⟨rfl, rfl, rfl⟩ := hcommit
          have hfollows := hkept.follows hrange (h.area_lt w List.mem_cons_self) htwo (hreads w List.mem_cons_self)
            (hone.symm ▸ g.pagesPerBlock_pos) hfree₁ hinsert
          have hnames : Names u next.area := names_of_link (hfollows.entry_eq.trans hlink)
          refine ⟨_, Advanced.inserted h hadvanced rfl rfl hnames hfollows
            (fun hcalm => hfollows.stays (hone.symm ▸ hroom hcalm)) (fun hi => ?_) fun hi => ?_⟩
          · rw [if_pos hi] at hfreeArea
            rw [← hfreeArea] at hinsert
            rcases (insertNewEntry_ok hinsert).2 with ⟨_, harea⟩ | ⟨_, _, harea⟩
            · exact harea
            · exact harea
          · rw [if_pos hi] at hentry
            exact ⟨_, hfollows.entry_eq.trans hentry.symm⟩
        · rename_i r' _ _ herror hinsert
          simp only [Prod.mk.injEq] at hcommit
          obtain ⟨rfl, rfl, rfl⟩ := hcommit
          have hr : r' ≠ .ok := by
            rintro rfl
            obtain ⟨u, rfl⟩ := insertNewEntry_some hinsert
            exact herror u rfl rfl
          have hcalm := hgoes.resolve_left hr
          rw [hkept.interrupted hrange (hreads w List.mem_cons_self) hone (hroom hcalm) hinsert hr]
          exact ⟨_, Advanced.above h hadvanced (hadvanced.head_area (.inr (.inl hcalm.tail))) fun hok => absurd hok hr⟩
      · rename_i hnot
        simp only [Prod.mk.injEq] at hcommit
        obtain ⟨rfl, rfl, rfl⟩ := hcommit
        obtain ⟨ws₁, hadvanced⟩ := hbelow (hgoes.imp_right Calm.tail)
        obtain ⟨written, goOn⟩ := p₁
        have hstop : goOn = false := by
          by_contra hgo
          have hgo : goOn = true := by simpa using hgo
          obtain ⟨next, rest, rfl⟩ := List.exists_cons_of_ne_nil (hadvanced.ok (hadvanced.goes hgo))
          exact hnot next rest flash₁ (by rw [hadvanced.goes hgo, hgo])
        subst hstop
        exact ⟨_, Advanced.above h hadvanced (hadvanced.head_area (.inl rfl)) id⟩

/-! ### A new chain -/

/-- What the creation of a chain leaves: an element in each area. -/
structure Created (g : Geometry) (param : Memory) (index : Entry) (i : Nat) (flash : Flash) (areas : List Nat) (p : Progress)
    (flash' : Flash) : Prop where
  intact : Intact g flash' p.written
  areas_eq : p.written.map Written.area = areas
  goOn : p.goOn = true
  others : ∀ area, InRange g area → area ∉ areas → Same g flash flash' area
  last : ∀ w, p.written.getLast? = some w → w.entry = index ∧ index.isPlausible ∧ w.found = w.page
  anchor : i = 0 → 1 < areas.length → ∃ w area, p.written.head? = some w ∧ w.entry = anchorEntry param area

/-- The entry of an area that is empty. -/
theorem Vacant.created {area : Nat} {free : Option Nat} {left : AreaPos} {entry : Entry} (h : Vacant g flash area)
    (hreads : AreaReadable g d area) (hfits : entry.needed ≤ g.pagesPerBlock)
    (hinsert : insertNewEntry g d flash area free left (combineAddress area 0) (Word.ofNat 4 ((Word.ofNat 4 0).toNat + 1)) entry =
      (.ok, some w, flash')) :
    Kept g flash' w.area w ∧ w.area = area ∧ w.entry = entry ∧ entry.isPlausible ∧ w.found = w.page ∧
      ∀ area', InRange g area' → area' ≠ area → Same g flash flash' area' := by
  rw [toNat_zero] at hinsert
  obtain ⟨hkept, hno⟩ := kept_created h.fresh h.inRange hreads hfits hinsert
  obtain ⟨hinserted, _⟩ := insertNewEntry_ok hinsert
  obtain ⟨_, _, harea, _⟩ := id hkept
  exact ⟨harea.symm ▸ hkept, harea, hinserted.entry_eq, hinserted.isPlausible, found_eq (.inr hno), created_same hinserted hkept h.inRange⟩

theorem commitFrom_created {areas : List Nat} (hne : areas ≠ []) (hvacant : ∀ area ∈ areas, Vacant g flash area)
    (hnodup : areas.Nodup) (hreads : ∀ area ∈ areas, AreaReadable g d area) (hfits : index.needed ≤ g.pagesPerBlock)
    (hcommit : commitFrom g d places true testmode param index flash i (firstPath areas) = (.ok, p, flash')) :
    Created g param index i flash areas p flash' := by
  induction areas generalizing i p flash' with
  | nil => exact absurd rfl hne
  | cons area areas ih =>
    have hhere := hvacant area List.mem_cons_self
    have hpos : 0 < 2 ^ 16 := Nat.two_pow_pos 16
    obtain ⟨hextract, _⟩ := extract_combine hhere.inRange.area_lt hpos
    cases areas with
    | nil =>
      unfold firstPath at hcommit
      rw [List.map_cons, List.map_nil] at hcommit
      unfold commitFrom at hcommit
      rw [hextract] at hcommit
      dsimp only at hcommit
      split at hcommit
      · rename_i w flash₁ hinsert
        simp only [Prod.mk.injEq, Bool.true_or, true_and] at hcommit
        obtain ⟨rfl, rfl⟩ := hcommit
        obtain ⟨hkept, harea, hentry, hplausible, hfound, hothers⟩ := hhere.created (hreads area List.mem_cons_self) hfits hinsert
        refine ⟨.singleton hkept (harea ▸ hhere.inRange) (harea ▸ hhere.area_lt), by rw [← harea]; rfl, rfl, fun area' hrange hmem => ?_, fun v hv => ?_,
          fun _ hlt => absurd hlt (Nat.lt_irrefl 1)⟩
        · exact hothers area' hrange fun heq => hmem (heq ▸ List.mem_cons_self)
        · obtain rfl : w = v := Option.some.inj hv
          exact ⟨hentry, hplausible, hfound⟩
      · rename_i r' _ _ herror hinsert
        simp only [Prod.mk.injEq] at hcommit
        obtain ⟨rfl, _, _⟩ := hcommit
        obtain ⟨u, rfl⟩ := insertNewEntry_some hinsert
        exact absurd rfl (herror u rfl)
    | cons area' areas =>
      have hmem := List.nodup_cons.mp hnodup
      unfold firstPath at hcommit
      rw [List.map_cons, List.map_cons] at hcommit
      unfold commitFrom at hcommit
      have hbelow := fun p flash' => @ih flash' p (i + 1) (List.cons_ne_nil _ _) (fun a ha => hvacant a (List.mem_cons_of_mem area ha))
        hmem.2 fun a ha => hreads a (List.mem_cons_of_mem area ha)
      unfold firstPath at hbelow
      rw [List.map_cons] at hbelow
      split at hcommit
      · rename_i next written flash₁ hrun
        have hcreated := hbelow _ _ hrun
        have hsame := hcreated.others area hhere.inRange hmem.1
        have hvacant₁ : Vacant g flash₁ area := ⟨hhere.area_lt, hhere.fresh.of_same hsame.symm, hhere.inRange⟩
        rw [hextract] at hcommit
        dsimp only at hcommit
        generalize (if i = 0 then none else places.findBestNextFreeArea i flash₁) = free at hcommit
        generalize hentry : (if i = 0 then anchorEntry param (Word.ofNat 2 next.area)
          else jumpPadEntry (Word.ofNat 2 next.area)) = entry at hcommit
        have hlink : ∃ rest, entry = linkEntry rest (Word.ofNat 2 next.area) := by
          rw [← hentry]
          split_ifs
          · exact ⟨_, rfl⟩
          · exact ⟨_, rfl⟩
        obtain ⟨rest, hlink⟩ := hlink
        have hone : entry.needed = 1 := by rw [hlink]; rfl
        split at hcommit
        · rename_i u flash₂ hinsert
          simp only [Prod.mk.injEq, Bool.true_or, true_and] at hcommit
          obtain ⟨rfl, rfl⟩ := hcommit
          obtain ⟨hkept, harea, heq, _, _, hothers⟩ := hvacant₁.created (hreads area List.mem_cons_self)
            (hone.symm ▸ g.pagesPerBlock_pos) hinsert
          have hnotmem : area ∉ (next :: written).map Written.area := by
            rw [hcreated.areas_eq]
            exact hmem.1
          have hkeptBelow : ∀ x ∈ next :: written, Same g flash₁ flash₂ x.area := fun x hx =>
            hothers x.area (hcreated.intact.inRange x hx) fun hxa => hnotmem (hxa ▸ List.mem_map_of_mem hx)
          refine ⟨(hcreated.intact.congr hkeptBelow).cons hkept (harea ▸ hhere.inRange) (harea ▸ hhere.area_lt)
            (names_of_link (heq.trans hlink)) (harea ▸ hnotmem), ?_, rfl, fun a hrange ha => ?_, fun v hv => ?_, fun hi _ => ?_⟩
          · rw [List.map_cons, harea, hcreated.areas_eq]
          · rw [List.mem_cons, not_or] at ha
            exact (hcreated.others a hrange ha.2).trans (hothers a hrange ha.1)
          · rw [List.getLast?_cons_cons] at hv
            exact hcreated.last v hv
          · rw [if_pos hi] at hentry
            exact ⟨u, _, rfl, heq.trans hentry.symm⟩
        · rename_i r' _ _ herror hinsert
          simp only [Prod.mk.injEq] at hcommit
          obtain ⟨rfl, _, _⟩ := hcommit
          obtain ⟨u, rfl⟩ := insertNewEntry_some hinsert
          exact absurd rfl (herror u rfl)
      · rename_i hnot
        obtain ⟨written, goOn⟩ := p
        have hcreated := hbelow _ _ hcommit
        have hgo : goOn = true := hcreated.goOn
        obtain ⟨next, rest, rfl⟩ : ∃ next rest, written = next :: rest := by
          cases written with
          | nil => cases hcreated.areas_eq
          | cons next rest => exact ⟨next, rest, rfl⟩
        exact absurd (hcommit.trans (by rw [hgo])) (hnot next rest flash')

end Paffs.Superblock
