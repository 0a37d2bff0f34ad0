import CppProjects.Vector.CppVectorSteps

/-!
# `vector` as a sequence

Each operation on vectors with given elements returns, or is refused an allocation, and
leaves the elements of the corresponding list operation.  Beside it stands which slots
hold objects: in front of `size_` all of them, behind it none.
-/

namespace CppProjects

open CInt Program

namespace CppVector

variable {ι α β γ : Type} {s s' s'' : Store ι α} {v w : ι} {xs ys zs : List α} {x : α}
  {data own : Option ℕ} {cells cells' : List (Slot α)} {n p i count : ℕ}

/-! ## Outcomes -/

/-- Behind the elements of the vector there is no object. -/
def Clean (s : Store ι α) (v : ι) : Prop :=
  ∀ cells, s.heap.cellsAt (s.vectors v).data = some cells →
    objects (cells.drop (s.vectors v).size) = 0

/-- The outcome of an operation on `v`, whose buffer was `own` and which has the elements
`ys` now.  Where `tidy` holds no object was lost, and none is left behind. -/
structure Leads (s : Store ι α) (own : Option ℕ) (v : ι) (ys : List α) (tidy : Prop)
    (s' : Store ι α) : Prop where
  opened : ∃ data cells, Opened s' v ys data cells
  place : ∀ addr, (s'.vectors v).data = some addr → own = some addr ∨ s.heap.next ≤ addr
  others : ∀ w, w ≠ v → s'.vectors w = s.vectors w
  keeps : ArrayHeap.Keeps own s.heap s'.heap
  owned : ∀ addr, (s'.heap.arrays addr).isSome →
    (s'.vectors v).data = some addr ∨ own ≠ some addr ∧ (s.heap.arrays addr).isSome
  grows : s.heap.next ≤ s'.heap.next
  clean : tidy → s'.lost = s.lost ∧ Clean s' v

theorem Opened.data_eq (hopened : Opened s v xs data cells) : (s.vectors v).data = data := by
  rw [hopened.vector]

theorem Opened.clean_iff (hopened : Opened s v xs data cells) :
    Clean s v ↔ objects (cells.drop xs.length) = 0 := by
  rw [Clean, hopened.vector]
  constructor
  · exact fun hclean => hclean cells hopened.buffer
  · intro hnone other hother
    obtain rfl := Option.some.inj (hopened.buffer.symm.trans hother)
    exact hnone

variable {P Q : Prop}

theorem Opened.leads_self (hopened : Opened s v xs data cells) :
    Leads s data v xs (Clean s v) s where
  opened := ⟨data, cells, hopened⟩
  place addr haddr := .inl (hopened.data_eq.symm.trans haddr)
  others _ _ := rfl
  keeps := .refl _ _
  owned addr haddr := by
    by_cases hdata : data = some addr
    · exact .inl (hopened.data_eq.trans hdata)
    · exact .inr ⟨hdata, haddr⟩
  grows := le_rfl
  clean hclean := ⟨rfl, hclean⟩

/-- One step of an operation after the other. -/
theorem Leads.trans (h : Leads s own v ys P s') (hopened : Opened s' v xs data cells)
    (h' : Leads s' data v zs Q s'') (htidy : P → Clean s' v → Q) : Leads s own v zs P s'' where
  opened := h'.opened
  place addr haddr := by
    rcases h'.place addr haddr with hsame | hnew
    · exact h.place addr (hopened.data_eq.trans hsame)
    · exact .inr (h.grows.trans hnew)
  others w hne := (h'.others w hne).trans (h.others w hne)
  keeps addr cells hother haddr := by
    refine h'.keeps addr cells (fun hdata => ?_) (h.keeps addr cells hother haddr)
    rcases h.place addr (hopened.data_eq.trans hdata) with hsame | hnew
    · exact hother hsame
    · exact absurd (ArrayHeap.lt_next haddr) (Nat.not_lt.mpr hnew)
  owned addr haddr := by
    rcases h'.owned addr haddr with hthis | ⟨hother, hbefore⟩
    · exact .inl hthis
    · exact .inr ((h.owned addr hbefore).resolve_left fun hdata =>
        hother (hopened.data_eq.symm.trans hdata))
  grows := h.grows.trans h'.grows
  clean hP := by
    obtain ⟨hlost, hclean⟩ := h.clean hP
    obtain ⟨hlost', hclean'⟩ := h'.clean (htidy hP hclean)
    exact ⟨hlost'.trans hlost, hclean'⟩

/-! ## Arguments -/

/-- An argument that has the value `x` as long as no buffer but `own` changes. -/
inductive Arg.Denotes (heap : ArrayHeap (Slot α)) (own : Option ℕ) (x : α) : Arg α → Prop
  | temp : Denotes heap own x (.temp x)
  | slot {addr i : ℕ} {cells : List (Slot α)} (hother : own ≠ some addr)
      (haddr : heap.arrays addr = some cells) (hget : cells[i]? = some (.full x)) :
      Denotes heap own x (.slot (some addr) i)

variable {heap heap' : ArrayHeap (Slot α)} {arg : Arg α}

theorem Arg.Denotes.keeps (harg : Arg.Denotes heap own x arg)
    (hkeeps : ArrayHeap.Keeps own heap heap') : Arg.Denotes heap' own x arg := by
  cases harg with
  | temp => exact .temp
  | slot hother haddr hget => exact .slot hother (hkeeps _ _ hother haddr) hget

theorem Arg.Denotes.returns (harg : Arg.Denotes s.heap own x arg) : Returns arg.get s x s := by
  cases harg with
  | temp => exact returns_pure x s
  | slot hother haddr hget => exact returns_valueAt haddr hget

theorem Arg.Denotes.withCells (harg : Arg.Denotes s.heap data x arg) (cells : List (Slot α)) (lost : ℕ) :
    Returns arg.get (s.withCells data cells lost) x (s.withCells data cells lost) :=
  (harg.keeps (.replaceAt data s.heap cells)).returns

/-- An argument outlives a step of the operation. -/
theorem Leads.denotes (h : Leads s own v ys P s') (hopened : Opened s' v xs data cells)
    (harg : Arg.Denotes s.heap own x arg) : Arg.Denotes s'.heap data x arg := by
  cases harg with
  | temp => exact .temp
  | slot hother haddr hget =>
      refine .slot (fun hdata => ?_) (h.keeps _ _ hother haddr) hget
      rcases h.place _ (hopened.data_eq.trans hdata) with hsame | hnew
      · exact hother hsame
      · exact absurd (ArrayHeap.lt_next haddr) (Nat.not_lt.mpr hnew)

/-! ## Programs that may be refused an allocation -/

/-- The program returns as `Q` says, or throws. -/
def Turns (program : M ι α β) (s : Store ι α) (Q : β → Store ι α → Prop) : Prop :=
  (∃ value s', Returns program s value s' ∧ Q value s') ∨ ∃ error s', Throws program s error s'

section Turns

variable {program : M ι α β} {next : β → M ι α γ} {value : β} {R : β → Store ι α → Prop}
  {R' : γ → Store ι α → Prop}

theorem Turns.of_returns (h : Returns program s value s') (hR : R value s') : Turns program s R :=
  .inl ⟨value, s', h, hR⟩

theorem Turns.bind (h : Turns program s R)
    (hnext : ∀ value s', R value s' → Turns (next value) s' R') : Turns (program >>= next) s R' := by
  rcases h with ⟨value, s', hreturns, hR⟩ | ⟨error, s', hthrows⟩
  · rcases hnext value s' hR with ⟨value', s'', hreturns', hR'⟩ | ⟨error, s'', hthrows⟩
    · exact .inl ⟨value', s'', hreturns.bind hreturns', hR'⟩
    · exact .inr ⟨error, s'', hreturns.bind_throws hthrows⟩
  · exact .inr ⟨error, s', hthrows.bind⟩

theorem Turns.after (h : Returns program s value s') (hnext : Turns (next value) s' R') :
    Turns (program >>= next) s R' :=
  (Turns.of_returns (R := fun value₁ s₁ => value₁ = value ∧ s₁ = s') h ⟨rfl, rfl⟩).bind
    (by rintro _ _ ⟨rfl, rfl⟩; exact hnext)

theorem Turns.mono (h : Turns program s R) {R₁ : β → Store ι α → Prop}
    (himp : ∀ value s', R value s' → R₁ value s') : Turns program s R₁ :=
  h.imp (fun ⟨value, s', hreturns, hR⟩ => ⟨value, s', hreturns, himp value s' hR⟩) id

end Turns

/-! ## Objects -/

theorem objects_of_sublist (hsub : List.Sublist cells' cells) (hnone : objects cells = 0) :
    objects cells' = 0 := Nat.le_zero.mp (hnone ▸ hsub.countP_le)

/-- There are none behind a place that is behind another one with none. -/
theorem objects_drop_of_le (hnone : objects (cells.drop n) = 0) (hle : n ≤ p) :
    objects (cells.drop p) = 0 := by
  refine objects_of_sublist ?_ hnone
  obtain ⟨rest, rfl⟩ := Nat.exists_eq_add_of_le hle
  rw [← List.drop_drop]
  exact List.drop_sublist rest _

theorem objects_moved (xs : List α) (n : ℕ) : objects ((moved n xs).drop xs.length) = 0 := by
  have hdrop : (moved n xs).drop 0 = xs.map .full ++ (List.replicate n .raw).drop (0 + _) :=
    drop_overwrite (Nat.zero_le _)
  rw [List.drop_zero, List.length_map, Nat.zero_add, List.drop_replicate] at hdrop
  rw [hdrop, List.drop_left' (List.length_map _), objects_replicate_raw]

variable [DecidableEq ι]

/-! ## Stores that operations lead to -/

/-- The vector has other contents in the same buffer. -/
theorem Opened.extended (hopened : Opened s v xs data cells) (hlength : cells'.length = cells.length)
    (hfront : ys.map .full <+: cells') (lost : ℕ) :
    Opened (s.extended v data cells' lost ys.length) v ys data cells' where
  vector := by rw [Store.extended, Store.vectors_withVector]
  buffer := Store.cellsAt_withCells s hopened.buffer hlength lost
  small := hlength ▸ hopened.small
  front := hfront

theorem Opened.leads_extended (hopened : Opened s v xs data cells)
    (hlength : cells'.length = cells.length) (hfront : ys.map .full <+: cells') {lost : ℕ}
    (htidy : P → lost = s.lost ∧ objects (cells'.drop ys.length) = 0) :
    Leads s data v ys P (s.extended v data cells' lost ys.length) where
  opened := ⟨data, cells', hopened.extended hlength hfront lost⟩
  place addr haddr := .inl (((hopened.extended hlength hfront lost).data_eq).symm.trans haddr)
  others w hne := Function.update_of_ne hne ..
  keeps := .replaceAt data s.heap cells'
  owned addr haddr := by
    by_cases hdata : data = some addr
    · exact .inl ((hopened.extended hlength hfront lost).data_eq.trans hdata)
    · refine .inr ⟨hdata, ?_⟩
      rwa [← ArrayHeap.replaceAt_arrays_of_ne hdata]
  grows := by
    cases data <;> exact le_rfl
  clean hP := ⟨(htidy hP).1, (hopened.extended hlength hfront lost).clean_iff.mpr (htidy hP).2⟩

theorem Opened.leads_reallocated (hopened : Opened s v xs data cells) (hfits : xs.length ≤ n)
    (hgrants : s.Grants n) :
    Leads s data v xs (Clean s v) (s.reallocated v data cells xs n) where
  opened := ⟨_, _, hopened.reallocated hfits hgrants⟩
  place addr haddr := by
    have hnew := (hopened.reallocated hfits hgrants).data_eq.symm.trans haddr
    exact .inr (Option.some.inj hnew).le
  others w hne := Function.update_of_ne hne ..
  keeps := (ArrayHeap.Keeps.alloc data s.heap _).trans (.freeAt data _)
  owned addr haddr := by
    obtain ⟨hother, hsome⟩ := ArrayHeap.isSome_freeAt_iff.mp haddr
    by_cases hnew : addr = s.heap.next
    · exact .inl ((hopened.reallocated hfits hgrants).data_eq.trans (congrArg some hnew.symm))
    · refine .inr ⟨hother, ?_⟩
      have hbefore : (s.heap.alloc (moved n xs)).arrays addr = s.heap.arrays addr :=
        ArrayHeap.alloc_arrays_of_ne hnew
      rwa [← hbefore]
  grows := by
    cases data <;> exact Nat.le_succ _
  clean hclean := by
    have hlost : (s.reallocated v data cells xs n).lost = s.lost + objects (cells.drop xs.length) := rfl
    rw [hlost, hopened.clean_iff.mp hclean]
    exact ⟨rfl, (hopened.reallocated hfits hgrants).clean_iff.mpr (objects_moved xs n)⟩

/-- The elements from `p` on are others now, and `n` slots behind them are raw. -/
theorem Opened.leads_overwrite (hopened : Opened s v xs data cells) (hp : p ≤ xs.length)
    (hfits : p + zs.length + n ≤ cells.length) {lost : ℕ}
    (htidy : P → lost = s.lost ∧ objects (cells.drop (p + zs.length + n)) = 0) :
    Leads s data v (xs.take p ++ zs) P (s.extended v data
      (overwrite cells p (zs.map Slot.full ++ List.replicate n .raw)) lost (p + zs.length)) := by
  have hrun : (zs.map Slot.full ++ List.replicate n Slot.raw).length = zs.length + n := by
    rw [List.length_append, List.length_map, List.length_replicate]
  have htake : (xs.take p).length = p := List.length_take_of_le hp
  have hsize : p + zs.length = (xs.take p ++ zs).length := by rw [List.length_append, htake]
  have hlength : (overwrite cells p (zs.map Slot.full ++ List.replicate n .raw)).length = cells.length :=
    length_overwrite (by rw [hrun]; omega)
  have hfront : (xs.take p ++ zs).map Slot.full <+:
      overwrite cells p (zs.map Slot.full ++ List.replicate n .raw) := by
    have hprefix : (xs.take p).map Slot.full <+: cells :=
      ((List.take_prefix p xs).map _).trans hopened.front
    have hwhole := prefix_overwrite (zs.map Slot.full ++ List.replicate n .raw) hprefix
    rw [List.length_map, htake, ← List.append_assoc, ← List.map_append] at hwhole
    exact (List.prefix_append ..).trans hwhole
  have hdrop : (overwrite cells p (zs.map Slot.full ++ List.replicate n .raw)).drop (p + zs.length) =
      List.replicate n .raw ++ cells.drop (p + zs.length + n) := by
    rw [← List.drop_drop, drop_overwrite (by omega), hrun, List.append_assoc,
      List.drop_left' (List.length_map _), Nat.add_assoc]
  rw [hsize] at hdrop htidy ⊢
  refine hopened.leads_extended hlength hfront fun hP => ⟨(htidy hP).1, ?_⟩
  rw [hdrop, objects_append, objects_replicate_raw, (htidy hP).2]

/-- The buffer is released, and the vector has none. -/
theorem Opened.leads_released (hopened : Opened s v xs data cells) (a : ℕ) :
    Leads s data v [] (Clean s v) ((s.without data
      (s.lost + objects (cells.drop xs.length))).withVector v ⟨a, none, 0, 0⟩) where
  opened := ⟨none, [], opened_none (Store.vectors_withVector _)⟩
  place addr haddr := by
    rw [Store.vectors_withVector] at haddr
    cases haddr
  others w hne := Function.update_of_ne hne ..
  keeps := .freeAt data s.heap
  owned addr haddr := .inr (ArrayHeap.isSome_freeAt_iff.mp haddr)
  grows := by
    cases data <;> exact le_rfl
  clean hclean := by
    refine ⟨?_, (opened_none (Store.vectors_withVector _)).clean_iff.mpr rfl⟩
    change s.lost + objects (cells.drop xs.length) = s.lost
    rw [hopened.clean_iff.mp hclean, Nat.add_zero]

/-- The vector has a new buffer, and had none before. -/
theorem leads_new {a : ℕ} (hsmall : cells.length < 2 ^ 63) (hfront : ys.map .full <+: cells)
    (htidy : P → objects (cells.drop ys.length) = 0) :
    Leads s none v ys P ((s.withNew cells).withVector v ⟨a, some s.heap.next, ys.length, cells.length⟩) := by
  have hopened : Opened ((s.withNew cells).withVector v ⟨a, some s.heap.next, ys.length, cells.length⟩)
      v ys (some s.heap.next) cells :=
    ⟨by rw [Store.vectors_withVector], ArrayHeap.alloc_arrays_next .., hsmall, hfront⟩
  refine ⟨⟨_, _, hopened⟩, ?_, fun w hne => Function.update_of_ne hne .., .alloc none s.heap cells, ?_,
    Nat.le_succ _, fun hP => ⟨rfl, hopened.clean_iff.mpr (htidy hP)⟩⟩
  · intro addr haddr
    exact .inr (Option.some.inj (hopened.data_eq.symm.trans haddr)).le
  · intro addr haddr
    by_cases hnew : addr = s.heap.next
    · exact .inl (hopened.data_eq.trans (congrArg some hnew.symm))
    · refine .inr ⟨nofun, ?_⟩
      have hbefore : (s.heap.alloc cells).arrays addr = s.heap.arrays addr :=
        ArrayHeap.alloc_arrays_of_ne hnew
      rwa [← hbefore]

/-- The vector has no buffer, and had none before. -/
theorem leads_null (a : ℕ) : Leads s none v [] P (s.withVector v ⟨a, none, 0, 0⟩) where
  opened := ⟨none, [], opened_none (Store.vectors_withVector _)⟩
  place addr haddr := by
    rw [Store.vectors_withVector] at haddr
    cases haddr
  others w hne := Function.update_of_ne hne ..
  keeps := .refl _ _
  owned addr haddr := .inr ⟨nofun, haddr⟩
  grows := le_rfl
  clean _ := ⟨rfl, (opened_none (Store.vectors_withVector _)).clean_iff.mpr rfl⟩

/-! ## Capacity -/

theorem Opened.turns_reallocate (hopened : Opened s v xs data cells) (hfits : xs.length ≤ n) :
    Turns (reallocate v n) s fun _ s' => s' = s.reallocated v data cells xs n ∧ s.Grants n := by
  by_cases hgrants : s.Grants n
  · exact .of_returns (hopened.returns_reallocate hfits hgrants) ⟨rfl, hgrants⟩
  · obtain ⟨error, hthrows⟩ := throws_reallocate (v := v) hgrants
    exact .inr ⟨error, s, hthrows⟩

/-- The vector has `n` slots or more now. -/
def Roomy (s : Store ι α) (data : Option ℕ) (v : ι) (xs : List α) (n : ℕ) (s' : Store ι α) : Prop :=
  Leads s data v xs (Clean s v) s' ∧ n ≤ (s'.vectors v).capacity

omit [DecidableEq ι] in
theorem Opened.roomy_self (hopened : Opened s v xs data cells) (hroom : n ≤ cells.length) :
    Roomy s data v xs n s := by
  refine ⟨hopened.leads_self, ?_⟩
  rw [hopened.vector]
  exact hroom

theorem Opened.roomy_reallocated (hopened : Opened s v xs data cells) (hfits : xs.length ≤ n)
    (hgrants : s.Grants n) : Roomy s data v xs n (s.reallocated v data cells xs n) := by
  refine ⟨hopened.leads_reallocated hfits hgrants, ?_⟩
  rw [Store.reallocated, Store.vectors_withVector]

theorem Opened.turns_growIfFull (hopened : Opened s v xs data cells) :
    Turns (growIfFull v) s fun _ s' => Roomy s data v xs (xs.length + 1) s' := by
  by_cases hroom : xs.length < cells.length
  · exact .of_returns (hopened.returns_growIfFull_of_room hroom) (hopened.roomy_self hroom)
  · refine .after (returns_self hopened.vector) ?_
    have hgrow := doubled_spec hopened.small
    have hfits := hopened.fits
    rw [if_pos (Nat.not_lt.mp hroom)]
    refine (hopened.turns_reallocate (hfits.trans hgrow.le)).mono ?_
    rintro _ s' ⟨rfl, hgrants⟩
    obtain ⟨hleads, hle⟩ := hopened.roomy_reallocated (hfits.trans hgrow.le) hgrants
    exact ⟨hleads, Nat.le_trans (hfits.trans_lt hgrow) hle⟩

theorem Opened.turns_reserve (hopened : Opened s v xs data cells) (n : ℕ) :
    Turns (reserve v n) s fun _ s' => Roomy s data v xs n s' := by
  refine .after (returns_self hopened.vector) ?_
  split_ifs with hmore
  · have hfits : xs.length ≤ n := hopened.fits.trans (Nat.le_of_lt hmore)
    refine (hopened.turns_reallocate hfits).mono ?_
    rintro _ s' ⟨rfl, hgrants⟩
    exact hopened.roomy_reallocated hfits hgrants
  · exact .of_returns (returns_pure () s) (hopened.roomy_self (Nat.not_lt.mp hmore))

theorem Opened.turns_shrinkToFit (hopened : Opened s v xs data cells) :
    Turns (shrinkToFit v) s fun _ s' => Leads s data v xs (Clean s v) s' := by
  refine .after (returns_self hopened.vector) ?_
  split_ifs with hspare
  · refine (hopened.turns_reallocate le_rfl).mono ?_
    rintro _ s' ⟨rfl, hgrants⟩
    exact hopened.leads_reallocated le_rfl hgrants
  · exact .of_returns (returns_pure () s) hopened.leads_self

/-! ## More elements -/

/-- The result of an operation that returns the position `i` of the vector. -/
def Inserts (s : Store ι α) (data : Option ℕ) (v : ι) (ys : List α) (i : ℕ) (pos : Iterator)
    (s' : Store ι α) : Prop :=
  Leads s data v ys (Clean s v) s' ∧ pos = ⟨(s'.vectors v).data, i⟩

omit [DecidableEq ι] in
/-- The first slot behind the elements. -/
theorem Opened.clean_cons (hopened : Opened s v xs data cells) (hroom : xs.length < cells.length)
    (hclean : Clean s v) :
    objects [cells[xs.length]] = 0 ∧ objects (cells.drop (xs.length + 1)) = 0 := by
  have hnone := hopened.clean_iff.mp hclean
  refine ⟨objects_of_sublist ?_ hnone, objects_drop_of_le hnone (Nat.le_succ _)⟩
  rw [List.drop_eq_getElem_cons hroom]
  exact List.singleton_sublist.mpr List.mem_cons_self

theorem Opened.leads_inserted (hopened : Opened s v xs data cells) (hroom : xs.length < cells.length)
    (hp : p ≤ xs.length) (x : α) :
    Leads s data v (xs.take p ++ x :: xs.drop p) (Clean s v) (s.extended v data
      (gapped cells xs p (.full x)) (s.lost + objects [cells[xs.length]]) (xs.length + 1)) := by
  have hcells : gapped cells xs p (.full x) =
      overwrite cells p ((x :: xs.drop p).map Slot.full ++ List.replicate 0 .raw) := by
    rw [gapped, List.replicate_zero, List.append_nil, List.map_cons]
  have hsize : xs.length + 1 = p + (x :: xs.drop p).length := by
    rw [List.length_cons, List.length_drop]
    omega
  rw [hcells, hsize]
  refine hopened.leads_overwrite hp (by omega) fun hclean => ?_
  rw [(hopened.clean_cons hroom hclean).1, Nat.add_zero, ← hsize]
  exact ⟨rfl, (hopened.clean_cons hroom hclean).2⟩

theorem Opened.inserts_append (hopened : Opened s v xs data cells) (hroom : xs.length < cells.length)
    {arg : Arg α} (harg : Arg.Denotes s.heap data x arg) :
    ∃ pos s', Returns (appendElement v arg) s pos s' ∧
      Inserts s data v (xs ++ [x]) xs.length pos s' := by
  have happend := hopened.returns_appendElement hroom harg.returns
  have hleads := hopened.leads_inserted hroom le_rfl x
  have hcells : gapped cells xs xs.length (.full x) = cells.set xs.length (.full x) := by
    rw [gapped, List.drop_length, List.map_nil, set_eq_overwrite hroom]
  rw [hcells, List.take_length, List.drop_length] at hleads
  refine ⟨_, _, happend, hleads, ?_⟩
  rw [Store.extended, Store.vectors_withVector]

omit [DecidableEq ι] in
theorem Inserts.after {s₁ : Store ι α} {pos : Iterator} (hleads : Leads s own v xs (Clean s v) s₁)
    (hopened : Opened s₁ v xs data cells) (h : Inserts s₁ data v ys i pos s') :
    Inserts s own v ys i pos s' :=
  ⟨hleads.trans hopened h.1 fun _ hclean => hclean, h.2⟩

theorem Opened.turns_emplaceBack (hopened : Opened s v xs data cells) {arg : Arg α}
    (harg : Arg.Denotes s.heap data x arg) :
    Turns (emplaceBack v arg) s fun pos s' => Inserts s data v (xs ++ [x]) xs.length pos s' := by
  refine hopened.turns_growIfFull.bind ?_
  rintro _ s₁ ⟨hleads, hroom⟩
  obtain ⟨data₁, cells₁, hopened₁⟩ := hleads.opened
  rw [hopened₁.vector] at hroom
  obtain ⟨pos, s', happend, hinserts⟩ :=
    hopened₁.inserts_append hroom (hleads.denotes hopened₁ harg)
  exact .of_returns happend (hinserts.after hleads hopened₁)

theorem Opened.turns_pushBack (hopened : Opened s v xs data cells) {arg : Arg α}
    (harg : Arg.Denotes s.heap data x arg) :
    Turns (pushBack v arg) s fun _ s' => Leads s data v (xs ++ [x]) (Clean s v) s' :=
  (hopened.turns_emplaceBack harg).bind fun _ s' hinserts =>
    .of_returns (returns_pure () s') hinserts.1

theorem Opened.inserts_before (hopened : Opened s v xs data cells) (hroom : xs.length < cells.length)
    (hp : p < xs.length) {arg : Arg α} (harg : Arg.Denotes s.heap data x arg) :
    ∃ pos s', Returns (insertElement v p arg) s pos s' ∧
      Inserts s data v (xs.take p ++ x :: xs.drop p) p pos s' := by
  refine ⟨_, _, hopened.returns_insertElement hroom hp (harg.withCells _ _),
    hopened.leads_inserted hroom hp.le x, ?_⟩
  rw [Store.extended, Store.vectors_withVector]

theorem Opened.turns_emplace (hopened : Opened s v xs data cells) (hp : p ≤ xs.length) {arg : Arg α}
    (harg : Arg.Denotes s.heap data x arg) :
    Turns (emplace v ⟨data, p⟩ arg) s fun pos s' =>
      Inserts s data v (xs.take p ++ x :: xs.drop p) p pos s' := by
  have hwithin : Returns (assertWithin ⟨(s.vectors v).alloc, data, xs.length, cells.length⟩ ⟨data, p⟩)
      s () s := by
    rw [assertWithin, if_pos ⟨rfl, hp⟩]
    exact returns_pure () s
  refine .after (returns_self hopened.vector) (.after hwithin ?_)
  split_ifs with hend
  · obtain rfl : p = xs.length := hend
    rw [List.take_length, List.drop_length]
    exact hopened.turns_emplaceBack harg
  · refine hopened.turns_growIfFull.bind ?_
    rintro _ s₁ ⟨hleads, hroom⟩
    obtain ⟨data₁, cells₁, hopened₁⟩ := hleads.opened
    rw [hopened₁.vector] at hroom
    have hlt : p < xs.length := Nat.lt_of_le_of_ne hp hend
    obtain ⟨pos, s', hinsert, hinserts⟩ :=
      hopened₁.inserts_before hroom hlt (hleads.denotes hopened₁ harg)
    exact .of_returns hinsert (hinserts.after hleads hopened₁)

/-! ## Fewer elements -/

/-- `count` elements from `p` on are gone. -/
theorem Opened.leads_erased (hopened : Opened s v xs data cells) (hp : p + count ≤ xs.length) :
    Leads s data v (xs.take p ++ xs.drop (p + count)) (Clean s v)
      ((s.withCells data (overwrite cells p ((xs.drop (p + count)).map .full ++
        List.replicate count .raw)) s.lost).withVector v
        ⟨(s.vectors v).alloc, data, xs.length - count, cells.length⟩) := by
  have hfits := hopened.fits
  have hrest : (xs.drop (p + count)).length = xs.length - (p + count) := List.length_drop
  have hleads : Leads s data v (xs.take p ++ xs.drop (p + count)) (Clean s v) (s.extended v data
      (overwrite cells p ((xs.drop (p + count)).map Slot.full ++ List.replicate count .raw)) s.lost
      (p + (xs.drop (p + count)).length)) :=
    hopened.leads_overwrite (by omega) (by omega) fun hclean =>
      ⟨rfl, objects_drop_of_le (hopened.clean_iff.mp hclean) (by omega)⟩
  have hsize : p + (xs.drop (p + count)).length = xs.length - count := by omega
  have hlength : (overwrite cells p ((xs.drop (p + count)).map Slot.full ++
      List.replicate count .raw)).length = cells.length := by
    refine length_overwrite ?_
    rw [List.length_append, List.length_map, List.length_replicate]
    omega
  rwa [Store.extended, hsize, hlength] at hleads

/-- The last elements are destroyed. -/
theorem Opened.leads_cut (hopened : Opened s v xs data cells) (hle : n ≤ xs.length) :
    Leads s data v (xs.take n) (Clean s v)
      ((s.withCells data (overwrite cells n (List.replicate (xs.length - n) .raw)) s.lost).withVector v
        ⟨(s.vectors v).alloc, data, n, cells.length⟩) := by
  have hleads := hopened.leads_erased (show n + (xs.length - n) ≤ xs.length by omega)
  have hend : n + (xs.length - n) = xs.length := by omega
  have hsize : xs.length - (xs.length - n) = n := by omega
  rwa [hend, List.drop_length, List.append_nil, List.map_nil, List.nil_append, hsize] at hleads

theorem Opened.clear_leads (hopened : Opened s v xs data cells) :
    ∃ s', Returns (clear v) s () s' ∧ Leads s data v [] (Clean s v) s' :=
  ⟨_, hopened.returns_clear, hopened.leads_cut (Nat.zero_le _)⟩

theorem Opened.popBack_leads (hopened : Opened s v xs data cells) :
    ∃ s', Returns (popBack v) s () s' ∧ Leads s data v xs.dropLast (Clean s v) s' := by
  have hfits := hopened.fits
  rcases Nat.eq_zero_or_pos xs.length with hempty | hpos
  · obtain rfl := List.length_eq_zero_iff.mp hempty
    exact ⟨s, (returns_self hopened.vector).bind (returns_pure () s), hopened.leads_self⟩
  · have hlast : cells[xs.length - 1]? = some (.full xs[xs.length - 1]) :=
      hopened.getElem? (List.getElem?_eq_getElem (by omega))
    have hupdate := returns_update hopened.vector fun this => { this with size := this.size - 1 }
    have hbuffer : (s.withVector v ⟨(s.vectors v).alloc, data, xs.length - 1, cells.length⟩).heap.cellsAt
        data = some cells := hopened.buffer
    have hdestroy := returns_destroyAt hbuffer hlast rfl
    have hleads := hopened.leads_cut (show xs.length - 1 ≤ xs.length by omega)
    have hone : xs.length - (xs.length - 1) = 1 := by omega
    rw [hone, List.replicate_one, ← set_eq_overwrite (by omega), ← List.dropLast_eq_take] at hleads
    refine ⟨_, (returns_self hopened.vector).bind ?_, hleads⟩
    rw [if_pos hpos]
    exact hupdate.bind hdestroy

theorem Opened.erase_leads (hopened : Opened s v xs data cells) (hp : p < xs.length) :
    ∃ s', Returns (erase v ⟨data, p⟩) s ⟨data, p⟩ s' ∧
      Inserts s data v (xs.eraseIdx p) p ⟨data, p⟩ s' := by
  have hfits := hopened.fits
  have hwithin : Returns (assertWithin ⟨(s.vectors v).alloc, data, xs.length, cells.length⟩ ⟨data, p⟩)
      s () s := by
    rw [assertWithin, if_pos ⟨rfl, hp.le⟩]
    exact returns_pure () s
  have hclose := hopened.returns_close Nat.one_pos hp
  have hcount : xs.length - (p + 1) = xs.length - 1 - p := by omega
  have hend : p + (xs.length - (p + 1)) = xs.length - 1 := by omega
  have hall : p + 1 + (xs.length - (p + 1)) ≤ xs.length := by omega
  have hlength := length_closing hall hfits
  have hthis : (s.withCells data (closing cells xs p 1 (xs.length - (p + 1))) s.lost).vectors v = _ :=
    hopened.vector
  have hupdate := returns_update hthis fun this => { this with size := this.size - 1 }
  obtain ⟨slot, hslot, hobject⟩ := hopened.object_closing hall hend.le (by omega)
  have hbuffer : ((s.withCells data (closing cells xs p 1 (xs.length - (p + 1))) s.lost).withVector v
      ⟨(s.vectors v).alloc, data, xs.length - 1, cells.length⟩).heap.cellsAt data = some _ :=
    Store.cellsAt_withCells s hopened.buffer hlength s.lost
  have hdestroy := returns_destroyAt hbuffer hslot hobject
  have hset : (closing cells xs p 1 (xs.length - (p + 1))).set (xs.length - 1) .raw =
      overwrite cells p ((xs.drop (p + 1)).map .full ++ List.replicate 1 .raw) := by
    rw [set_eq_overwrite (by omega), ← overwrite_closing hp hfits, hend, List.replicate_one]
  have hfinal : ((s.withCells data (closing cells xs p 1 (xs.length - (p + 1))) s.lost).withVector v
      ⟨(s.vectors v).alloc, data, xs.length - 1, cells.length⟩).withCells data
      (overwrite cells p ((xs.drop (p + 1)).map .full ++ List.replicate 1 .raw)) s.lost =
      (s.withCells data (overwrite cells p ((xs.drop (p + 1)).map .full ++ List.replicate 1 .raw))
        s.lost).withVector v ⟨(s.vectors v).alloc, data, xs.length - 1, cells.length⟩ := by
    simp only [Store.withCells, Store.withVector, ArrayHeap.replaceAt_replaceAt]
  have hleads := hopened.leads_erased (show p + 1 ≤ xs.length from hp)
  rw [← hfinal, ← List.eraseIdx_eq_take_drop_succ] at hleads
  rw [hset] at hdestroy
  refine ⟨_, (returns_self hopened.vector).bind (hwithin.bind ?_), hleads, ?_⟩
  · rw [if_neg hp.ne]
    dsimp only
    rw [← hcount]
    exact hclose.bind (hupdate.bind (hdestroy.bind (returns_pure _ _)))
  · rw [hfinal, Store.vectors_withVector]

theorem Opened.eraseRange_leads (hopened : Opened s v xs data cells) (hp : p + count ≤ xs.length) :
    ∃ s', Returns (eraseRange v ⟨data, p⟩ ⟨data, p + count⟩) s ⟨data, p⟩ s' ∧
      Inserts s data v (xs.take p ++ xs.drop (p + count)) p ⟨data, p⟩ s' := by
  have hwithin : Returns (assertWithin ⟨(s.vectors v).alloc, data, xs.length, cells.length⟩
      ⟨data, p + count⟩) s () s := by
    rw [assertWithin, if_pos ⟨rfl, hp⟩]
    exact returns_pure () s
  rcases Nat.eq_zero_or_pos count with rfl | hcount
  · refine ⟨s, (returns_self hopened.vector).bind (hwithin.bind ?_), ?_, ?_⟩
    · rw [if_pos ⟨rfl, Nat.le_add_right p 0⟩, if_pos (by rw [Nat.add_zero])]
      exact returns_pure _ s
    · rw [Nat.add_zero, List.take_append_drop]
      exact hopened.leads_self
    · rw [hopened.data_eq]
  · have hne : (⟨data, p⟩ : Iterator) ≠ ⟨data, p + count⟩ := fun heq => by
      have hoffset := congrArg Iterator.offset heq
      dsimp only at hoffset
      omega
    have hclose := hopened.returns_close hcount hp
    have herase := hopened.returns_erase hp
    have hthis : (s.withCells data (overwrite cells p ((xs.drop (p + count)).map .full ++
        List.replicate count .raw)) s.lost).vectors v = _ := hopened.vector
    have hupdate := returns_update hthis fun this => { this with size := this.size - count }
    have hwidth : p + count - p = count := Nat.add_sub_cancel_left p count
    refine ⟨_, (returns_self hopened.vector).bind (hwithin.bind ?_), hopened.leads_erased hp, ?_⟩
    · rw [if_pos ⟨rfl, Nat.le_add_right p count⟩, if_neg hne]
      dsimp only
      rw [hwidth]
      exact hclose.bind (herase.bind (hupdate.bind (returns_pure _ _)))
    · rw [Store.vectors_withVector]

/-! ## A given number of elements -/

/-- Copies of `x` follow the elements. -/
theorem Opened.leads_filled (hopened : Opened s v xs data cells) (hlonger : xs.length ≤ n)
    (hroom : n ≤ cells.length) (x : α) :
    Leads s data v (xs ++ List.replicate (n - xs.length) x) (Clean s v)
      ((s.withCells data (overwrite cells xs.length (List.replicate (n - xs.length) (.full x)))
        (s.lost + objects ((cells.drop xs.length).take (n - xs.length)))).withVector v
        ⟨(s.vectors v).alloc, data, n, cells.length⟩) := by
  have hsize : xs.length + (List.replicate (n - xs.length) x).length = n := by
    rw [List.length_replicate]
    omega
  have hleads : Leads s data v (xs.take xs.length ++ List.replicate (n - xs.length) x) (Clean s v)
      (s.extended v data (overwrite cells xs.length
        ((List.replicate (n - xs.length) x).map Slot.full ++ List.replicate 0 .raw))
        (s.lost + objects ((cells.drop xs.length).take (n - xs.length)))
        (xs.length + (List.replicate (n - xs.length) x).length)) := by
    refine hopened.leads_overwrite le_rfl (by omega) fun hclean => ?_
    have hnone := hopened.clean_iff.mp hclean
    rw [objects_of_sublist (List.take_sublist ..) hnone]
    exact ⟨rfl, objects_drop_of_le hnone (by omega)⟩
  have hlength : (overwrite cells xs.length (List.replicate (n - xs.length) (Slot.full x))).length =
      cells.length := length_overwrite (by rw [List.length_replicate]; omega)
  rwa [Store.extended, hsize, List.take_length, List.replicate_zero, List.append_nil, List.map_replicate,
    hlength] at hleads

/-- A longer vector is grown and filled up. -/
theorem Opened.turns_lengthen (hopened : Opened s v xs data cells) (hlonger : xs.length < n)
    {arg : Arg α} (harg : Arg.Denotes s.heap data x arg) :
    Turns (do reserve v n; fillUp v n arg; update v fun this => { this with size := n }) s fun _ s' =>
      Leads s data v (xs ++ List.replicate (n - xs.length) x) (Clean s v) s' := by
  refine (hopened.turns_reserve n).bind ?_
  rintro _ s₁ ⟨hleads, hroom⟩
  obtain ⟨data₁, cells₁, hopened₁⟩ := hleads.opened
  have harg₁ := hleads.denotes hopened₁ harg
  rw [hopened₁.vector] at hroom
  have hfill := hopened₁.returns_fillUp hroom hlonger.le fun k hk lost => harg₁.withCells _ lost
  have hthis : (s₁.withCells data₁ (overwrite cells₁ xs.length
      (List.replicate (n - xs.length) (.full x)))
      (s₁.lost + objects ((cells₁.drop xs.length).take (n - xs.length)))).vectors v = _ := hopened₁.vector
  exact .of_returns (hfill.bind (returns_update hthis _))
    (hleads.trans hopened₁ (hopened₁.leads_filled hlonger.le hroom x) fun _ hclean => hclean)

theorem Opened.turns_resize (hopened : Opened s v xs data cells) (n : ℕ) {arg : Arg α}
    (harg : Arg.Denotes s.heap data x arg) :
    Turns (resize v n arg) s fun _ s' =>
      Leads s data v (xs.take n ++ List.replicate (n - xs.length) x) (Clean s v) s' := by
  refine .after (returns_self hopened.vector) ?_
  dsimp only
  rcases lt_trichotomy xs.length n with hlonger | rfl | hshorter
  · rw [if_pos hlonger, List.take_of_length_le hlonger.le]
    exact hopened.turns_lengthen hlonger harg
  · rw [if_neg (lt_irrefl _), if_neg (lt_irrefl _), Nat.sub_self, List.take_length, List.replicate_zero,
      List.append_nil]
    have hleads : Leads s data v xs (Clean s v)
        (s.withVector v ⟨(s.vectors v).alloc, data, xs.length, cells.length⟩) := by
      rw [Store.withVector_self hopened.vector]
      exact hopened.leads_self
    exact .of_returns (returns_update hopened.vector _) hleads
  · have hnone : n - xs.length = 0 := by omega
    rw [if_neg hshorter.le.not_gt, if_pos hshorter, hnone, List.replicate_zero, List.append_nil]
    have hthis : (s.withCells data (overwrite cells n (List.replicate (xs.length - n) .raw))
        s.lost).vectors v = _ := hopened.vector
    exact .of_returns ((hopened.returns_destroy_from hshorter.le).bind (returns_update hthis _))
      (hopened.leads_cut hshorter.le)

end CppVector

end CppProjects
