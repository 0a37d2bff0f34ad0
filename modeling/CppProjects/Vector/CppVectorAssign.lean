import CppProjects.Vector.CppVectorSequence

/-!
# Construction and assignment of `vector`

What the constructors, the assignments, `swap` and the destructor do to the elements, and
which objects a copy assignment constructs over.
-/

namespace CppProjects

open CInt Program

namespace CppVector

variable {ι α : Type} {s s' : Store ι α} {v w : ι} {xs ys : List α} {x : α} {data data' : Option ℕ}
  {cells cells' : List (Slot α)} {n a : ℕ} {P : Prop}

theorem Leads.weaken {own : Option ℕ} {Q : Prop} (h : Leads s own v ys P s') (himp : Q → P) :
    Leads s own v ys Q s' :=
  { h with clean := fun hQ => h.clean (himp hQ) }

/-! ## Constructors -/

/-- The stores in which a constructor looks at what it copies. -/
theorem keeps_building (s : Store ι α) (cells cells' : List (Slot α)) :
    ArrayHeap.Keeps none s.heap ((s.heap.alloc cells).replaceAt (some s.heap.next) cells') := by
  intro addr kept _ haddr
  have hne : addr ≠ s.heap.next := (ArrayHeap.lt_next haddr).ne
  exact (ArrayHeap.replace_arrays_of_ne hne).trans (ArrayHeap.alloc_arrays_of_some haddr)

variable [DecidableEq ι]

theorem returns_newBuffer_zero (v : ι) (a : ℕ) :
    Returns (newBuffer v a 0) s () (s.withVector v ⟨a, none, 0, 0⟩) := by
  rw [newBuffer, if_pos rfl]
  exact returns_update rfl _

/-- A buffer for `n` elements, which are still to be made. -/
theorem returns_newBuffer (v : ι) (a : ℕ) (hpos : 0 < n) (hgrants : s.Grants n) :
    Returns (newBuffer v a n) s ()
      ((s.withNew (List.replicate n .raw)).withVector v ⟨a, some s.heap.next, n, n⟩) := by
  rw [newBuffer, if_neg hpos.ne']
  exact (returns_allocate hgrants).bind (returns_update rfl _)

theorem throws_newBuffer (v : ι) (a : ℕ) (hpos : 0 < n) (hrefused : ¬ s.Grants n) :
    ∃ error, Throws (newBuffer v a n) s error s := by
  obtain ⟨error, hthrows⟩ := throws_allocate hrefused
  refine ⟨error, ?_⟩
  rw [newBuffer, if_neg hpos.ne']
  exact hthrows.bind

/-- The elements are made in a new buffer. -/
theorem returns_built {source : ℕ → M ι α α} {this : CppVector}
    (hsource : ∀ t : Store ι α, ArrayHeap.Keeps none s.heap t.heap →
      ∀ k (hk : k < ys.length), Returns (source k) t ys[k] t) :
    Returns (forEach (fun k => do construct (some s.heap.next) k (← source k)) 0 ys.length)
      ((s.withNew (List.replicate ys.length .raw)).withVector v this) ()
      ((s.withNew (ys.map .full)).withVector v this) := by
  have hbuffer : ((s.withNew (List.replicate ys.length .raw)).withVector v this).heap.cellsAt
      (some s.heap.next) = some (List.replicate ys.length .raw) := ArrayHeap.alloc_arrays_next ..
  have hloop := returns_forEach_construct hbuffer (show 0 + ys.length ≤ _ by simp) fun k hk lost => by
    rw [Nat.zero_add]
    exact hsource _ (keeps_building s _ _) k hk
  have hcells : overwrite (List.replicate ys.length Slot.raw) 0 (ys.map .full) = ys.map .full := by
    rw [overwrite, List.take_zero, List.nil_append, List.length_map, Nat.zero_add, List.drop_replicate,
      Nat.sub_self, List.replicate_zero, List.append_nil]
  have hlost : objects (((List.replicate ys.length (Slot.raw : Slot α)).drop 0).take ys.length) = 0 := by
    rw [List.drop_zero, List.take_replicate, objects_replicate_raw]
  rw [hcells, hlost, Nat.add_zero] at hloop
  have hfinal : ((s.withNew (List.replicate ys.length .raw)).withVector v this).withCells
      (some s.heap.next) (ys.map .full) s.lost = (s.withNew (ys.map .full)).withVector v this := by
    simp only [Store.withCells, Store.withVector, Store.withNew]
    congr 1
    exact ArrayHeap.alloc_replace ..
  rw [← hfinal]
  exact hloop

/-- A constructor makes a buffer and then one element after another. -/
theorem turns_build (v : ι) (a : ℕ) {source : ℕ → M ι α α} {ys : List α}
    (hsource : ∀ t : Store ι α, ArrayHeap.Keeps none s.heap t.heap →
      ∀ k (hk : k < ys.length), Returns (source k) t ys[k] t) :
    Turns (do
      newBuffer v a ys.length
      let this ← self v
      forEach (fun k => do construct this.data k (← source k)) 0 ys.length) s fun _ s' =>
        Leads s none v ys P s' := by
  rcases Nat.eq_zero_or_pos ys.length with hempty | hpos
  · obtain rfl := List.length_eq_zero_iff.mp hempty
    exact .of_returns ((returns_newBuffer_zero v a).bind ((returns_self rfl).bind (returns_pure () _)))
      (leads_null a)
  · by_cases hgrants : s.Grants ys.length
    · have hthis : ((s.withNew (List.replicate ys.length .raw)).withVector v
          ⟨a, some s.heap.next, ys.length, ys.length⟩).vectors v = _ := Store.vectors_withVector _
      have hfront : ys.map Slot.full <+: ys.map .full := List.prefix_rfl
      have hsmall : (ys.map (Slot.full : α → Slot α)).length < 2 ^ 63 := by
        rw [List.length_map]
        exact hgrants.2.1
      have hleads := leads_new (s := s) (v := v) (P := P) (a := a) hsmall hfront fun _ => by
        rw [List.drop_of_length_le (List.length_map _).le]
        rfl
      rw [List.length_map] at hleads
      exact .of_returns ((returns_newBuffer v a hpos hgrants).bind ((returns_self hthis).bind
        (returns_built hsource))) hleads
    · obtain ⟨error, hthrows⟩ := throws_newBuffer v a hpos hgrants
      exact .inr ⟨error, s, hthrows.bind⟩

theorem turns_createFilled (v : ι) (n a : ℕ) {arg : Arg α} (harg : Arg.Denotes s.heap none x arg) :
    Turns (createFilled v n arg a) s fun _ s' => Leads s none v (List.replicate n x) P s' := by
  have hbuild : Turns (do
      newBuffer v a (List.replicate n x).length
      let this ← self v
      forEach (fun k => do construct this.data k (← arg.get)) 0 (List.replicate n x).length) s
      fun _ s' => Leads s none v (List.replicate n x) P s' :=
    turns_build v a fun t hkeeps k hk => by
      rw [List.getElem_replicate]
      exact (harg.keeps hkeeps).returns
  rwa [List.length_replicate] at hbuild

theorem turns_createFrom (v : ι) (init : List α) (a : ℕ) :
    Turns (createFrom v init a) s fun _ s' => Leads s none v init P s' :=
  turns_build v a fun t _ _ hk => returns_defined (List.getElem?_eq_getElem hk) t

omit [DecidableEq ι] in
/-- What is copied stays where it is. -/
theorem Opened.returns_source (hopened : Opened s w ys data cells) {t : Store ι α}
    (hdata : t.heap.cellsAt data = some cells) {k : ℕ} (hk : k < ys.length) :
    Returns (valueAt data k) t ys[k] t :=
  returns_valueAt hdata (hopened.getElem? (List.getElem?_eq_getElem hk))

theorem turns_copyConstruct (v : ι) (hopened : Opened s w ys data cells) :
    Turns (copyConstruct v w) s fun _ s' => Leads s none v ys P s' := by
  refine .after (returns_get s) (.after (returns_self hopened.vector) ?_)
  exact turns_build v _ fun t hkeeps k hk =>
    hopened.returns_source (hkeeps.cellsAt (fun hsome heq => hsome heq.symm) hopened.buffer) hk

/-! ## Copy assignment -/

/-- The allocator of `w` is taken over. -/
def Takes (s : Store ι α) (v w : ι) : Prop :=
  s.traits.propagateOnCopy = true ∧ (s.vectors v).alloc ≠ (s.vectors w).alloc

/-- A copy assignment that keeps the buffer of `v` with the elements in it. -/
def Overwrites (s : Store ι α) (v w : ι) : Prop :=
  v ≠ w ∧ ¬ Takes s v w ∧ (s.vectors w).size ≤ (s.vectors v).capacity ∧ 0 < (s.vectors v).size

theorem Opened.returns_copyAllocator_of_takes (hopened : Opened s v xs data cells) (htakes : Takes s v w) :
    Returns (copyAllocator v (s.vectors w).alloc) s () ((s.without data
      (s.lost + objects (cells.drop xs.length))).withVector v ⟨(s.vectors w).alloc, none, 0, 0⟩) := by
  refine (returns_get s).bind ?_
  rw [if_pos htakes.1]
  exact hopened.returns_takeAllocator htakes.2

theorem returns_copyAllocator_of_keeps (hkeeps : ¬ Takes s v w) :
    Returns (copyAllocator v (s.vectors w).alloc) s () s := by
  refine (returns_get s).bind ?_
  split_ifs with hpropagates
  · have hsame : (s.vectors v).alloc = (s.vectors w).alloc := by
      by_contra hother
      exact hkeeps ⟨hpropagates, hother⟩
    rw [← hsame]
    exact returns_takeAllocator_self
  · exact returns_pure () s

omit [DecidableEq ι] in
/-- Another vector stays as it was. -/
theorem Leads.opened_other (h : Leads s data v xs P s') (hw : Opened s w ys data' cells') (hne : w ≠ v)
    (hapart : data' ≠ none → data ≠ data') : Opened s' w ys data' cells' where
  vector := by
    rw [h.others w hne]
    exact hw.vector
  buffer := h.keeps.cellsAt hapart hw.buffer
  small := hw.small
  front := hw.front

omit [DecidableEq ι] in
theorem Leads.apart (h : Leads s data v xs P s') (hw : Opened s w ys data' cells')
    (hapart : data' ≠ none → data ≠ data') : data' ≠ none → (s'.vectors v).data ≠ data' := by
  intro hsome heq
  obtain ⟨addr, rfl⟩ := Option.ne_none_iff_exists'.mp hsome
  rcases h.place addr heq with hsame | hnew
  · exact hapart hsome hsame
  · exact absurd (ArrayHeap.lt_next hw.buffer) (Nat.not_lt.mpr hnew)

/-- The vector has a new buffer without elements, and had none before. -/
theorem leads_empty (hsmall : n < 2 ^ 63) :
    Leads s none v [] P
      ((s.withNew (List.replicate n .raw)).withVector v ⟨a, some s.heap.next, 0, n⟩) := by
  have hfront : ([] : List α).map Slot.full <+: List.replicate n .raw := List.nil_prefix
  have hleads : Leads s none v [] P ((s.withNew (List.replicate n .raw)).withVector v
      ⟨a, some s.heap.next, ([] : List α).length, (List.replicate n (Slot.raw : Slot α)).length⟩) :=
    leads_new (by rwa [List.length_replicate]) hfront fun _ => objects_replicate_raw n
  rwa [List.length_replicate, List.length_nil] at hleads

/-- To release a buffer does not change which allocations succeed. -/
theorem Store.grants_released {this : CppVector} {lost : ℕ} :
    ((s.without data lost).withVector v this).Grants n ↔ s.Grants n := by
  cases data <;> exact Iff.rfl

/-- The buffer is released before there is a new one. -/
theorem Opened.turns_makeRoom (hopened : Opened s v xs data cells) (hmore : cells.length < n) :
    Turns (makeRoom v n) s fun _ s' =>
      Leads s data v [] (Clean s v) s' ∧ n ≤ (s'.vectors v).capacity := by
  refine .after (returns_self hopened.vector) ?_
  rw [if_pos hmore]
  refine .after hopened.returns_release ?_
  by_cases hgrants : s.Grants n
  · have hempty : Opened ((s.without data (s.lost + objects (cells.drop xs.length))).withVector v
        ⟨(s.vectors v).alloc, none, 0, 0⟩) v [] none [] := opened_none (Store.vectors_withVector _)
    have hleads := (hopened.leads_released (s.vectors v).alloc).trans hempty
      (leads_empty (a := (s.vectors v).alloc) hgrants.2.1) fun _ _ => trivial
    have hthis : (((s.without data (s.lost + objects (cells.drop xs.length))).withVector v
        ⟨(s.vectors v).alloc, data, 0, cells.length⟩).withNew (List.replicate n .raw)).vectors v = _ :=
      Store.vectors_withVector _
    refine .of_returns ((returns_allocate (Store.grants_released.mpr hgrants)).bind
      (returns_update hthis _)) ⟨?_, ?_⟩
    · simp only [Store.withVector, Store.withNew, Function.update_idem] at hleads ⊢
      exact hleads
    · rw [Store.vectors_withVector]
  · obtain ⟨error, hthrows⟩ := throws_allocate fun hgrants' => hgrants (Store.grants_released.mp hgrants')
    exact .inr ⟨error, _, hthrows.bind⟩

/-- Copies of the elements of another vector, from the first slot on. -/
theorem Opened.returns_copyElements (hopened : Opened s v xs data cells)
    (hw : Opened s w ys data' cells') (hapart : data' ≠ none → data ≠ data')
    (hroom : ys.length ≤ cells.length) :
    Returns (do
      update v fun this => { this with size := ys.length }
      copyElements (← self v).data ⟨a, data', ys.length, n⟩) s ()
      (s.extended v data (overwrite cells 0 (ys.map .full)) (s.lost + objects (cells.take ys.length))
        (0 + ys.length)) := by
  have hthis : (s.withVector v ⟨(s.vectors v).alloc, data, ys.length, cells.length⟩).vectors v = _ :=
    Store.vectors_withVector _
  have hbuffer : (s.withVector v ⟨(s.vectors v).alloc, data, ys.length, cells.length⟩).heap.cellsAt
      data = some cells := hopened.buffer
  have hloop := returns_forEach_construct hbuffer (show 0 + ys.length ≤ cells.length by omega)
    fun k hk lost => by
      rw [Nat.zero_add]
      exact hw.returns_source ((ArrayHeap.Keeps.replaceAt data s.heap _).cellsAt hapart hw.buffer) hk
  have hlength : (overwrite cells 0 (ys.map Slot.full)).length = cells.length :=
    length_overwrite (by rw [List.length_map]; omega)
  rw [Store.extended, hlength, Nat.zero_add]
  exact (returns_update hopened.vector _).bind ((returns_self hthis).bind hloop)

theorem Opened.leads_copied (hopened : Opened s v xs data cells) (hroom : ys.length ≤ cells.length)
    (htidy : P → objects cells = 0) :
    Leads s data v ys P (s.extended v data (overwrite cells 0 (ys.map .full))
      (s.lost + objects (cells.take ys.length)) (0 + ys.length)) := by
  have hleads : Leads s data v (xs.take 0 ++ ys) P (s.extended v data
      (overwrite cells 0 (ys.map Slot.full ++ List.replicate 0 .raw))
      (s.lost + objects (cells.take ys.length)) (0 + ys.length)) := by
    refine hopened.leads_overwrite (Nat.zero_le _) (by omega) fun hP => ⟨?_, ?_⟩
    · rw [objects_of_sublist (List.take_sublist ..) (htidy hP), Nat.add_zero]
    · exact objects_of_sublist (List.drop_sublist ..) (htidy hP)
  rwa [List.take_zero, List.nil_append, List.replicate_zero, List.append_nil] at hleads

omit [DecidableEq ι] in
/-- Without elements there is no object in the whole buffer. -/
theorem Opened.objects_of_clean (hopened : Opened s v [] data cells) (hclean : Clean s v) :
    objects cells = 0 := hopened.clean_iff.mp hclean

theorem Opened.returns_makeRoom_of_room (hopened : Opened s v xs data cells) (hroom : n ≤ cells.length) :
    Returns (makeRoom v n) s () s := by
  refine (returns_self hopened.vector).bind ?_
  rw [if_neg (Nat.not_lt.mpr hroom)]
  exact returns_pure () s

/-- Elements that are there, and have room for the new ones, are constructed over. -/
theorem Opened.turns_refill (hv : Opened s v xs data cells) (hw : Opened s w ys data' cells')
    (hne : v ≠ w) (hapart : data' ≠ none → data ≠ data') :
    Turns (do
      makeRoom v ys.length
      update v fun this => { this with size := ys.length }
      copyElements (← self v).data ⟨a, data', ys.length, n⟩) s fun _ s' =>
        Leads s data v ys (Clean s v ∧ (ys.length ≤ cells.length → xs = [])) s' := by
  by_cases hroom : ys.length ≤ cells.length
  · refine .of_returns ((hv.returns_makeRoom_of_room hroom).bind
      (hv.returns_copyElements hw hapart hroom)) (hv.leads_copied hroom ?_)
    rintro ⟨hclean, hempty⟩
    obtain rfl := hempty hroom
    exact hv.objects_of_clean hclean
  · refine (hv.turns_makeRoom (Nat.not_le.mp hroom)).bind ?_
    rintro _ s₁ ⟨hleads, hroom₁⟩
    obtain ⟨data₁, cells₁, hopened₁⟩ := hleads.opened
    rw [hopened₁.vector] at hroom₁
    have hw₁ := hleads.opened_other hw hne.symm hapart
    have hapart₁ := hleads.apart hw hapart
    rw [hopened₁.data_eq] at hapart₁
    have hcopied := hopened₁.leads_copied hroom₁ hopened₁.objects_of_clean
    refine .of_returns (hopened₁.returns_copyElements hw₁ hapart₁ hroom₁) ?_
    exact (hleads.trans hopened₁ hcopied fun _ hclean => hclean).weaken And.left

/-- With the allocator and the buffer that are there, a copy assignment constructs over the
elements. -/
theorem Opened.turns_copyAssign (hv : Opened s v xs data cells) (hw : Opened s w ys data' cells')
    (hne : v ≠ w) (hapart : data' ≠ none → data ≠ data') :
    Turns (copyAssign v w) s fun _ s' => Leads s data v ys (Clean s v ∧ ¬ Overwrites s v w) s' := by
  rw [copyAssign, if_neg hne]
  refine .after (returns_self hw.vector) ?_
  by_cases htakes : Takes s v w
  · refine .after (hv.returns_copyAllocator_of_takes htakes) ?_
    have hreleased := hv.leads_released (s.vectors w).alloc
    have hempty : Opened ((s.without data (s.lost + objects (cells.drop xs.length))).withVector v
        ⟨(s.vectors w).alloc, none, 0, 0⟩) v [] none [] := opened_none (Store.vectors_withVector _)
    have hw₁ := hreleased.opened_other hw hne.symm hapart
    refine (hempty.turns_refill hw₁ hne fun hsome => hsome.symm).mono fun _ s' hleads => ?_
    exact (hreleased.trans hempty hleads fun _ hclean => ⟨hclean, fun _ => rfl⟩).weaken And.left
  · refine .after (returns_copyAllocator_of_keeps htakes) ?_
    refine (hv.turns_refill hw hne hapart).mono fun _ s' hleads => hleads.weaken ?_
    rintro ⟨hclean, hkept⟩
    refine ⟨hclean, fun hroom => ?_⟩
    by_contra hsome
    refine hkept ⟨hne, htakes, ?_, ?_⟩
    · rw [hw.vector, hv.vector]
      exact hroom
    · rw [hv.vector]
      exact List.length_pos_iff.mpr hsome

end CppVector

end CppProjects
