import CppProjects.Xml.XmlOwned

/-!
# What `clear` and `remove` free

`clear` frees what is below a node and nothing else, as everything there has one owner.
-/

namespace CppProjects

namespace XmlHeap

open NodeHeap

variable {heap heap' : XmlHeap} {a c p r addr fuel : ℕ} {xml : Xml} {field : XmlField}
  {elements rest : List ℕ} {name : XmlText}

/-! ## `clear` -/

/-- The node points to nothing else now, and what it held is gone. -/
theorem Detached.shrinks (hdetached : Detached heap heap' a xml field) (htidy : heap.Tidy ∅)
    (hnode : heap.nodes a = some xml) : Shrinks heap heap' {a} where
  top := hdetached.top
  roots := hdetached.roots
  live := by
    intro b hlive
    by_cases heq : b = a
    · exact heq ▸ Option.isSome_of_eq_some hnode
    · by_cases hheld : ∃ p, field.get xml = some p ∧ heap.Contains p b
      · obtain ⟨p, hget, hcontains⟩ := hheld
        exact htidy.owned.isScoped.live hcontains
      · rwa [hdetached.nodes b heq fun p hget hcontains => hheld ⟨p, hget, hcontains⟩] at hlive
  points := by
    rintro b q ⟨node, hnode', hmem⟩
    by_cases heq : b = a
    · rw [heq, hdetached.node, Option.some.injEq] at hnode'
      rw [← hnode', XmlField.mem_pointers_set] at hmem
      rcases hmem with hnone | ⟨field', -, hget⟩
      · cases hnone
      · exact heq ▸ points_of_get field' hnode hget
    · by_cases hheld : ∃ p, field.get xml = some p ∧ heap.Contains p b
      · obtain ⟨p, hget, hcontains⟩ := hheld
        rw [hdetached.dropped b p hget hcontains] at hnode'
        cases hnode'
      · rw [hdetached.nodes b heq fun p hget hcontains => hheld ⟨p, hget, hcontains⟩] at hnode'
        exact ⟨node, hnode', hmem⟩
  contains := by
    rintro q b ⟨block, hblock, hmem⟩
    by_cases hget : field.get xml = some q
    · rw [hdetached.absent q hget] at hblock
      cases hblock
    · exact ⟨block, (hdetached.blocks q hget).symm.trans hblock, hmem⟩
  nodes := by
    intro b hout
    have habove : ¬ heap.InTree a b := hout a rfl
    refine hdetached.nodes b (fun heq => habove (heq ▸ .refl)) fun p hget hcontains => habove ?_
    exact .single ⟨p, points_of_get field hnode hget, hcontains⟩
  blocks := by
    intro b q hpoints hout
    refine hdetached.blocks q fun hget => hout a rfl ?_
    exact htidy.owned.unique hpoints (points_of_get field hnode hget) ▸ .refl

/-- A field that holds no nodes leaves the tree. -/
theorem Detached.inTree (hdetached : Detached heap heap' a xml field) (hnode : heap.nodes a = some xml)
    (hnone : ∀ p c, field.get xml = some p → ¬ heap.Contains p c) {b : ℕ} (hbelow : heap.InTree r b) :
    heap'.InTree r b := by
  induction hbelow with
  | refl => exact .refl
  | @tail b c _ hchild ih =>
      obtain ⟨q, ⟨node, hnode', hmem⟩, hcontains⟩ := hchild
      have hother : field.get xml ≠ some q := fun hget => hnone q c hget hcontains
      refine ih.tail ⟨q, ?_, ?_⟩
      · by_cases heq : b = a
        · subst heq
          obtain rfl := Option.some.inj (hnode.symm.trans hnode')
          obtain ⟨field', hget⟩ := XmlField.mem_pointers_iff.mp hmem
          have hne : field' ≠ field := fun heq => hother (heq ▸ hget)
          exact points_of_get field' hdetached.node ((XmlField.get_set_of_ne hne).trans hget)
        · exact ⟨node, (hdetached.nodes b heq fun p hget => hnone p b hget).trans hnode', hmem⟩
      · rw [Contains, hdetached.blocks q hother]
        exact hcontains

/-- The children behind the pointer of a node. -/
theorem Tidy.exists_childrenAt (htidy : heap.Tidy ∅) (hnode : heap.nodes a = some xml) :
    ∃ elements, childrenAt heap xml.mChildren = some elements ∧ elements.Nodup ∧
      ∀ c, c ∈ elements ↔ ∃ p, xml.mChildren = some p ∧ heap.Contains p c := by
  cases hget : xml.mChildren with
  | none =>
      refine ⟨[], rfl, List.nodup_nil, fun c => iff_of_false List.not_mem_nil ?_⟩
      rintro ⟨p, hp, -⟩
      cases hp
  | some p =>
      obtain ⟨elements, hlists⟩ := htidy.lists hnode hget
      exact ⟨elements, hlists.childrenAt, htidy.owned.isScoped.nodup hlists.block,
        fun c => (contains_iff_of_childrenAt hlists.childrenAt).symm⟩

/-- Nodes are only in the list. -/
theorem Tidy.mChildren_eq (htidy : heap.Tidy ∅) (hnode : heap.nodes a = some xml) (hpoints : heap.Points a p)
    (hcontains : heap.Contains p c) : xml.mChildren = some p := by
  obtain ⟨field, hget⟩ := XmlField.mem_pointers_iff.mp (hpoints.mem hnode)
  by_cases hfield : field = .children
  · subst hfield
    exact hget
  · exact absurd hcontains (htidy.not_contains hnode hfield hget c)

/-- The nodes point to nothing any more, and there are none below them. -/
structure Emptied (heap heap' : XmlHeap) (nodes : Set ℕ) : Prop where
  tidy : heap'.Tidy ∅
  shrinks : Shrinks heap heap' nodes
  nodes_null : ∀ c ∈ nodes, heap'.nodes c = some null
  gone : ∀ c ∈ nodes, ∀ b ≠ c, heap.InTree c b → heap'.nodes b = none

/-- The loop of `clear`, over nodes directly below `a`. -/
theorem Tidy.exists_clear_all (hclear : ∀ {heap : XmlHeap} {c : ℕ}, heap.Tidy ∅ → (heap.nodes c).isSome →
      heap.top ≤ c + fuel → ∃ heap', clear fuel c heap = some heap' ∧ Emptied heap heap' {c})
    (htidy : heap.Tidy ∅) (hnodup : elements.Nodup) (hchild : ∀ c ∈ elements, heap.Child a c)
    (hfuel : heap.top ≤ a + (fuel + 1)) :
    ∃ heap', elements.foldlM (fun heap addr => clear fuel addr heap) heap = some heap' ∧
      Emptied heap heap' {c | c ∈ elements} := by
  induction elements generalizing heap with
  | nil =>
      refine ⟨heap, rfl, htidy, .refl heap _, ?_, ?_⟩
      · exact fun c hc => absurd hc List.not_mem_nil
      · exact fun c hc => absurd hc List.not_mem_nil
  | cons c elements ih =>
      obtain ⟨hnew, hnodup⟩ := List.nodup_cons.mp hnodup
      have hc := hchild c List.mem_cons_self
      have hlt := htidy.owned.child_lt hc
      obtain ⟨q, -, hcontains⟩ := hc
      obtain ⟨middle, hfirst, hemptied⟩ := hclear htidy (htidy.owned.isScoped.live hcontains) (by omega)
      have hout : ∀ b ∈ ({c} : Set ℕ), ¬ heap.InTree b a := by
        rintro b rfl
        exact htidy.owned.not_inTree_child (hchild b List.mem_cons_self)
      have hsibling : ∀ c' ∈ elements, ¬ heap.InTree c c' ∧ ¬ heap.InTree c' c := by
        intro c' hc'
        have hne : c ≠ c' := fun heq => hnew (heq ▸ hc')
        have hc := hchild c List.mem_cons_self
        have hc' := hchild c' (List.mem_cons_of_mem _ hc')
        exact ⟨htidy.owned.not_inTree_sibling hc hc' hne, htidy.owned.not_inTree_sibling hc' hc hne.symm⟩
      obtain ⟨heap', hfold, hrest⟩ := ih hemptied.tidy hnodup
        (fun c' hc' => hemptied.shrinks.child_of (hchild c' (List.mem_cons_of_mem _ hc')) hout)
        (hemptied.shrinks.top ▸ hfuel)
      refine ⟨heap', ?_, hrest.tidy, ?_, ?_, ?_⟩
      · rw [List.foldlM_cons, hfirst]
        exact hfold
      · refine (hemptied.shrinks.trans hrest.shrinks).mono fun b hb => ⟨b, ?_, .refl⟩
        exact hb.elim (fun heq => heq ▸ List.mem_cons_self) fun hmem => List.mem_cons_of_mem _ hmem
      · intro b hb
        rcases List.mem_cons.mp hb with rfl | hmem
        · rw [hrest.shrinks.nodes b fun c' hc' hbelow => (hsibling c' hc').2 (hemptied.shrinks.inTree hbelow)]
          exact hemptied.nodes_null b rfl
        · exact hrest.nodes_null b hmem
      · intro c' hc' b hne hbelow
        rcases List.mem_cons.mp hc' with rfl | hmem
        · have hgone := hemptied.gone c' rfl b hne hbelow
          by_contra hlive
          have hsome := hrest.shrinks.live (Option.isSome_iff_ne_none.mpr hlive)
          rw [hgone] at hsome
          cases hsome
        · refine hrest.gone c' hmem b hne (hemptied.shrinks.inTree_of hbelow ?_)
          rintro d hd _ rfl hd'
          -- the trees of two children have no node in common
          exact (htidy.owned.inTree_total hd hd').elim (hsibling c' hmem).2 (hsibling c' hmem).1

/-- `clear()` ends, and leaves a node that has nothing. -/
theorem Tidy.exists_clear (htidy : heap.Tidy ∅) (hlive : (heap.nodes a).isSome) (hfuel : heap.top ≤ a + fuel) :
    ∃ heap', clear fuel a heap = some heap' ∧ Emptied heap heap' {a} := by
  induction fuel generalizing heap a with
  | zero =>
      obtain ⟨xml, hnode⟩ := Option.isSome_iff_exists.mp hlive
      exact absurd (htidy.owned.isScoped.nodes_lt hnode) (Nat.not_lt.mpr hfuel)
  | succ fuel ih =>
      obtain ⟨xml, hnode⟩ := Option.isSome_iff_exists.mp hlive
      have hclear : ∀ (field : XmlField) {heap : XmlHeap} {xml : Xml}, heap.Tidy ∅ → heap.nodes a = some xml →
          field ≠ .children → ∃ heap', clearField heap a field.get (field.set none) = some heap' ∧
            Detached heap heap' a xml field ∧ Shrinks heap heap' {a} ∧
            ∀ b, heap.InTree a b → heap'.InTree a b := by
        intro field heap xml htidy hnode hfield
        have hnone : ∀ p c, field.get xml = some p → ¬ heap.Contains p c :=
          fun p c hget => htidy.not_contains hnode hfield hget c
        obtain ⟨heap', hcleared, hdetached⟩ := htidy.exists_clearField hnode field fun p c hget hcontains =>
          absurd hcontains (hnone p c hget)
        exact ⟨heap', hcleared, hdetached, hdetached.shrinks htidy hnode,
          fun b hbelow => hdetached.inTree hnode hnone hbelow⟩
      obtain ⟨first, hfirst, hdetached₁, hshrinks₁, hkept₁⟩ := hclear .name htidy hnode nofun
      obtain ⟨second, hsecond, hdetached₂, hshrinks₂, hkept₂⟩ :=
        hclear .attrs hdetached₁.tidy hdetached₁.node nofun
      obtain ⟨third, hthird, hdetached₃, hshrinks₃, hkept₃⟩ :=
        hclear .text hdetached₂.tidy hdetached₂.node nofun
      obtain ⟨elements, helements, hnodup, hmem⟩ := hdetached₃.tidy.exists_childrenAt hdetached₃.node
      have hchild : ∀ c ∈ elements, third.Child a c := by
        intro c hc
        obtain ⟨p, hget, hcontains⟩ := (hmem c).mp hc
        exact ⟨p, points_of_get .children hdetached₃.node hget, hcontains⟩
      have hshrinks₃' := (hshrinks₁.trans hshrinks₂).trans hshrinks₃
      rw [Set.union_self, Set.union_self] at hshrinks₃'
      obtain ⟨fourth, hfourth, hemptied⟩ := hdetached₃.tidy.exists_clear_all ih hnodup hchild
        (hshrinks₃'.top ▸ hfuel)
      have hnode₄ : fourth.nodes a = third.nodes a := hemptied.shrinks.nodes a fun c hc =>
        hdetached₃.tidy.owned.not_inTree_child (hchild c hc)
      obtain ⟨heap', hlast, hdetached₅⟩ := hemptied.tidy.exists_clearField (hnode₄.trans hdetached₃.node)
        .children fun p c hget hcontains =>
          hemptied.nodes_null c ((hmem c).mpr ⟨p, hget, hemptied.shrinks.contains hcontains⟩)
      have hshrinks₅ := hdetached₅.shrinks hemptied.tidy (hnode₄.trans hdetached₃.node)
      have hshrinks₄ : Shrinks third fourth {a} := hemptied.shrinks.mono fun c hc => ⟨a, rfl, .single (hchild c hc)⟩
      have hshrinks := (hshrinks₃'.trans hshrinks₄).trans hshrinks₅
      rw [Set.union_self, Set.union_self] at hshrinks
      refine ⟨heap', clear_eq_some.mpr ⟨first, second, third, _, elements, fourth, hfirst, hsecond, hthird,
        hdetached₃.node, helements, hfourth, hlast⟩, hdetached₅.tidy, hshrinks, ?_, ?_⟩
      · rintro _ rfl
        exact hdetached₅.node
      · intro b' hb' b hne hbelow
        rw [Set.mem_singleton_iff.mp hb'] at hne hbelow
        rcases Relation.ReflTransGen.cases_head (hkept₃ b (hkept₂ b (hkept₁ b hbelow))) with
          rfl | ⟨c, hc, hbelow'⟩
        · exact absurd rfl hne
        · obtain ⟨p, hpoints, hcontains⟩ := hc
          have hget := hdetached₃.tidy.mChildren_eq hdetached₃.node hpoints hcontains
          have hin := (hmem c).mpr ⟨p, hget, hcontains⟩
          by_cases heq : b = c
          · -- a child goes with the list
            refine heq ▸ hdetached₅.dropped c p hget ?_
            rw [Contains, hemptied.shrinks.blocks a p hpoints fun c' hc' =>
              hdetached₃.tidy.owned.not_inTree_child (hchild c' hc')]
            exact hcontains
          · by_contra hlive
            have hsome := hshrinks₅.live (Option.isSome_iff_ne_none.mpr hlive)
            rw [hemptied.gone c hin b heq hbelow'] at hsome
            cases hsome

theorem Tidy.step_of_frame (htidy : heap.Tidy ∅) (htidy' : heap'.Tidy ∅) (hroots : heap'.roots = heap.roots)
    (hframe : Frame heap heap' a) : Step heap heap' a :=
  ⟨htidy', hroots, fun _ hroot hout => hframe.same htidy.owned hroot hout⟩

theorem Emptied.step (hemptied : Emptied heap heap' {a}) (htidy : heap.Tidy ∅) : Step heap heap' a :=
  htidy.step_of_frame hemptied.tidy hemptied.shrinks.roots hemptied.shrinks.frame

/-! ## `remove` -/

/-- Nodes that point to nothing may go. -/
theorem Tidy.discard {addrs : List ℕ} (htidy : heap.Tidy ∅) (hscoped : (heap.discard addrs).Scoped)
    (hempty : ∀ c ∈ addrs, ∀ q, ¬ heap.Points c q) : Tidy (heap.discard addrs) ∅ where
  owned := htidy.owned.discard hscoped hempty
  typed := fun hnode => htidy.typed (nodes_of_discard hnode).2

/-- A child is cleared and erased. -/
theorem Lists.exists_eraseChild (hlists : heap.Lists a p elements) (htidy : heap.Tidy ∅)
    (haddr : addr ∈ elements) (hfuel : heap.top ≤ fuel) :
    ∃ heap', XmlHeap.eraseChild heap fuel p addr = some heap' ∧ Step heap heap' a ∧
      heap'.Lists a p (elements.erase addr) ∧ heap'.top = heap.top := by
  have hchild := hlists.child haddr
  obtain ⟨cleared, hclear, hemptied⟩ := htidy.exists_clear (htidy.owned.isScoped.live (hlists.contains haddr))
    (hfuel.trans (Nat.le_add_left fuel addr))
  have hout : ∀ c ∈ ({addr} : Set ℕ), ¬ heap.InTree c a := by
    rintro c rfl
    exact htidy.owned.not_inTree_child hchild
  obtain ⟨xml, hnode, hget⟩ := hlists.node
  have hnode' := (hemptied.shrinks.nodes a hout).trans hnode
  have hlists' : cleared.Lists a p elements :=
    ⟨⟨xml, hnode', hget⟩, (hemptied.shrinks.blocks a p hlists.points hout).trans hlists.block⟩
  have howned := hemptied.tidy.owned
  have hunlisted : Tidy (cleared.setBlock p (.list (elements.erase addr))) ∅ := by
    refine hemptied.tidy.setBlock hlists'.block (fun _ => XmlField.fits_list)
      (scoped_unlist howned.isScoped hlists'.block addr) fun b hpoints c hc => ?_
    exact howned.order hpoints (hlists'.contains (List.mem_of_mem_erase hc))
  have hfinal : Tidy ((cleared.setBlock p (.list (elements.erase addr))).discard [addr]) ∅ := by
    refine hunlisted.discard (scoped_erase howned.isScoped hlists'.block haddr) ?_
    rintro c hc q ⟨node, hnode, hmem⟩
    rw [List.mem_singleton.mp hc] at hnode
    obtain rfl := Option.some.inj ((hemptied.nodes_null addr rfl).symm.trans hnode)
    exact List.not_mem_nil hmem
  have hne : a ≠ addr := (htidy.owned.child_lt hchild).ne
  refine ⟨_, ?_, ((hemptied.step htidy).of_child htidy hchild).trans
    (hemptied.tidy.step_of_frame hfinal rfl ⟨?_, ?_⟩), ⟨⟨xml, ?_, hget⟩, blocks_setBlock_self⟩,
    hemptied.shrinks.top⟩
  · rw [XmlHeap.eraseChild, hclear, Option.bind_eq_bind, Option.bind_some, hlists'.childrenAt,
      Option.bind_eq_bind, Option.bind_some, if_pos haddr]
  · intro b _ hnot
    refine nodes_discard_of_notMem fun hmem => hnot ?_
    exact .single (List.mem_singleton.mp hmem ▸ hlists'.child haddr)
  · intro b q hpoints hnot
    refine blocks_setBlock_of_ne fun heq => hnot ?_
    exact howned.unique (heq ▸ hpoints) hlists'.points ▸ .refl
  · exact (nodes_discard_of_notMem fun hmem => hne (List.mem_singleton.mp hmem)).trans hnode'

theorem Tidy.exists_remove (htidy : heap.Tidy ∅) (hnode : heap.nodes a = some xml) (i : ℤ)
    (hfuel : heap.top ≤ fuel) : ∃ heap' outcome, remove heap fuel a i = some (heap', outcome) ∧ Step heap heap' a := by
  rw [remove, hnode, Option.bind_eq_bind, Option.bind_some]
  cases hget : xml.mChildren with
  | none => exact ⟨heap, _, rfl, htidy.step_self a⟩
  | some p =>
      obtain ⟨elements, hlists⟩ := htidy.lists hnode hget
      dsimp only
      rw [hlists.childrenAt, Option.bind_eq_bind, Option.bind_some]
      cases hfound : if i < 0 then none else elements[i.toNat]? with
      | none => exact ⟨heap, _, rfl, htidy.step_self a⟩
      | some addr =>
          have haddr : addr ∈ elements := List.mem_of_getElem? (Option.ite_none_left_eq_some.mp hfound).2
          obtain ⟨heap', herase, hstep, -⟩ := hlists.exists_eraseChild htidy haddr hfuel
          dsimp only
          rw [herase]
          exact ⟨heap', _, rfl, hstep⟩

/-- The loop of `remove`, over some of the children. -/
theorem Lists.exists_removeLoop (hlists : heap.Lists a p elements) (htidy : heap.Tidy ∅)
    (hsubset : rest ⊆ elements) (hnodup : rest.Nodup) (hfuel : heap.top ≤ fuel) :
    ∃ heap', XmlHeap.removeLoop fuel p name rest heap = some heap' ∧ Step heap heap' a := by
  induction rest generalizing heap elements with
  | nil => exact ⟨heap, rfl, htidy.step_self a⟩
  | cons c rest ih =>
      obtain ⟨hnew, hnodup⟩ := List.nodup_cons.mp hnodup
      obtain ⟨hc, hsubset⟩ := List.cons_subset.mp hsubset
      obtain ⟨child, hchild⟩ := Option.isSome_iff_exists.mp (htidy.owned.isScoped.live (hlists.contains hc))
      obtain ⟨text, htext⟩ := htidy.exists_name hchild
      rw [XmlHeap.removeLoop, hchild, Option.bind_eq_bind, Option.bind_some, htext, Option.bind_eq_bind,
        Option.bind_some]
      split_ifs
      · obtain ⟨middle, herase, hstep, hlists', htop⟩ := hlists.exists_eraseChild htidy hc hfuel
        have hsubset' : rest ⊆ elements.erase c := by
          intro b hb
          have hne : b ≠ c := fun heq => hnew (heq ▸ hb)
          exact (List.mem_erase_of_ne hne).mpr (hsubset hb)
        obtain ⟨heap', hloop, hstep'⟩ := ih hlists' hstep.tidy hsubset' hnodup (htop ▸ hfuel)
        rw [herase, Option.bind_eq_bind, Option.bind_some]
        exact ⟨heap', hloop, hstep.trans hstep'⟩
      · exact ih hlists htidy hsubset hnodup hfuel

theorem Tidy.exists_removeName (htidy : heap.Tidy ∅) (hnode : heap.nodes a = some xml) (name : XmlText)
    (hfuel : heap.top ≤ fuel) : ∃ heap', removeName heap fuel a name = some heap' ∧ Step heap heap' a := by
  rw [removeName, hnode, Option.bind_eq_bind, Option.bind_some]
  cases hget : xml.mChildren with
  | none => exact ⟨heap, rfl, htidy.step_self a⟩
  | some p =>
      obtain ⟨elements, hlists⟩ := htidy.lists hnode hget
      dsimp only
      rw [hlists.childrenAt, Option.bind_eq_bind, Option.bind_some]
      exact hlists.exists_removeLoop htidy (List.Subset.refl _)
        (htidy.owned.isScoped.nodup hlists.block) hfuel

end XmlHeap

end CppProjects
