import CppProjects.Json.JsonCopies

/-!
# Which member of the union an observer reads

Every observer but `size`, `begin` and `end` asks for the tag first.  What it reads is
what was written last as long as each copy is constructed in storage that held the tag
of the original, or a tag that stands for no member.
-/

namespace CppProjects

variable {δ : Type}

/-- A copy of `source` in storage that held the tag `stale` can be read. -/
def Json.Fits (stale : JsonType) (source : Json δ) : Prop := stale.member = none ∨ stale = source.mType

instance (stale : JsonType) (source : Json δ) : Decidable (Json.Fits stale source) :=
  inferInstanceAs (Decidable (_ ∨ _))

theorem Json.agrees_iff_fits {stale : JsonType} {source copy : Json δ}
    (hcopied : source.copied stale = some copy) : copy.Agrees ↔ source.Fits stale := by
  obtain ⟨htype, hvalue⟩ := copied_eq_some hcopied
  constructor
  · intro hagrees
    cases hmember : stale.member with
    | none => exact .inl hmember
    | some m =>
        have hread := hagrees m (htype ▸ hmember)
        rcases hvalue with ⟨-, hunwritten⟩ | ⟨m', htag, hsource, hsame⟩
        · rw [hunwritten] at hread
          cases hread
        · rw [hsame, hsource] at hread
          exact .inr (JsonType.member_injective hmember (hread ▸ htag))
  · intro hfits m hm
    rw [htype] at hm
    rcases hfits with hnone | rfl
    · rw [hnone] at hm
      cases hm
    · rcases hvalue with ⟨hnone, -⟩ | ⟨m', htag, hsource, hsame⟩
      · rw [hnone] at hm
        cases hm
      · rw [hsame, hsource, ← htag, hm]

namespace JsonHeap

open NodeHeap

/-- The tag without which an observer throws or returns `false`. -/
def Observer.guard : Observer → Option JsonType
  | .toBool => some .jsonBool
  | .toInt => some .jsonInt
  | .toDouble => some .jsonDouble
  | .toString => some .jsonString
  | .hasIndex => some .jsonArray
  | .hasKey => some .jsonObject
  | .size | .begin | .finish | .str | .equals _ => none

/-- `size`, `begin` and `end` do not ask for the tag. -/
def Observer.Unguarded (observer : Observer) : Prop :=
  observer = .size ∨ observer = .begin ∨ observer = .finish

/-- An observer of `addr` reads the member `m` of the node at `a`. -/
inductive Reads (heap : JsonHeap δ) : Observer → ℕ → ℕ → Member → Prop
  | unguarded {observer : Observer} {addr : ℕ} {j : Json δ} (hunguarded : observer.Unguarded)
      (hnode : heap.nodes addr = some j) : Reads heap observer addr addr .mArray
  | guarded {observer : Observer} {addr : ℕ} {j : Json δ} {m : Member}
      (hnode : heap.nodes addr = some j) (hguard : observer.guard = some j.mType)
      (hm : j.mType.member = some m) : Reads heap observer addr addr m
  | str {addr : ℕ} {j : Json δ} {m : Member} (hnode : heap.nodes addr = some j)
      (hm : j.mType.member = some m) : Reads heap .str addr addr m
  | strElement {addr element a : ℕ} {m : Member} (hmem : element ∈ heap.elementsOf addr)
      (hreads : Reads heap .str element a m) : Reads heap .str addr a m
  | equals {addr other : ℕ} {j j' : Json δ} {m : Member} (hnode : heap.nodes addr = some j)
      (hother : heap.nodes other = some j') (htype : j.mType = j'.mType)
      (hm : j'.mType.member = some m) : Reads heap (.equals other) addr addr m
  | equalsOther {addr other : ℕ} {j j' : Json δ} {m : Member} (hnode : heap.nodes addr = some j)
      (hother : heap.nodes other = some j') (htype : j.mType = j'.mType)
      (hm : j'.mType.member = some m) : Reads heap (.equals other) addr other m

/-- What an observer reads stands for the tag and was written last. -/
def WellRead (heap : JsonHeap δ) (observer : Observer) (addr : ℕ) : Prop :=
  ∀ a m, heap.Reads observer addr a m →
    ∃ j, heap.nodes a = some j ∧ j.mType.member = some m ∧ j.mValue.member = some m

/-- All observers that ask for the tag read what was written last. -/
def Readable (heap : JsonHeap δ) : Prop :=
  ∀ addr observer, ¬ observer.Unguarded → heap.WellRead observer addr

/-- The copies that a step makes fit, and `size`, `begin` and `end` are called on
arrays. -/
def Fitting (storage : Storage) (heap : JsonHeap δ) (a : Action δ) : Prop :=
  (∀ made ∈ heap.copies a, made.2.Fits (storage.stale made.1)) ∧
    ∀ this observer, a = .observe this observer → observer.Unguarded →
      ∃ j, heap.nodes this = some j ∧ j.mType = .jsonArray

variable {heap heap' : JsonHeap δ} {storage : Storage} {addr a : ℕ} {observer : Observer} {m : Member}

/-- A guarded observer reads the member that the tag stands for. -/
theorem Reads.exists_tag (hreads : heap.Reads observer addr a m) (hguarded : ¬ observer.Unguarded) :
    ∃ j, heap.nodes a = some j ∧ j.mType.member = some m := by
  induction hreads with
  | unguarded hunguarded _ => exact absurd hunguarded hguarded
  | guarded hnode _ hm => exact ⟨_, hnode, hm⟩
  | str hnode hm => exact ⟨_, hnode, hm⟩
  | strElement _ _ ih => exact ih hguarded
  | equals hnode _ htype hm => exact ⟨_, hnode, htype ▸ hm⟩
  | equalsOther _ hother _ hm => exact ⟨_, hother, hm⟩

theorem Reads.of_unguarded (hreads : heap.Reads observer addr a m) (hunguarded : observer.Unguarded) :
    a = addr ∧ m = .mArray := by
  cases hreads with
  | unguarded _ _ => exact ⟨rfl, rfl⟩
  | guarded _ hguard _ => rcases hunguarded with rfl | rfl | rfl <;> cases hguard
  | _ => rcases hunguarded with heq | heq | heq <;> cases heq

theorem readable_iff : heap.Readable ↔ heap.Every Json.Agrees := by
  constructor
  · intro hreadable addr j hnode m hm
    have hstr : ¬ Observer.str.Unguarded := by rintro (heq | heq | heq) <;> cases heq
    obtain ⟨j', hnode', -, hvalue⟩ := hreadable addr .str hstr addr m (.str hnode hm)
    obtain rfl := Option.some.inj (hnode.symm.trans hnode')
    exact hvalue
  · intro hevery addr observer hguarded a m hreads
    obtain ⟨j, hnode, hm⟩ := hreads.exists_tag hguarded
    exact ⟨j, hnode, hm, hevery a j hnode m hm⟩

theorem wellRead_iff_of_unguarded (hevery : heap.Every Json.Agrees) (hunguarded : observer.Unguarded)
    {j : Json δ} (hnode : heap.nodes addr = some j) :
    heap.WellRead observer addr ↔ j.mType = .jsonArray := by
  constructor
  · intro hwell
    obtain ⟨j', hnode', hm, -⟩ := hwell addr .mArray (.unguarded hunguarded hnode)
    obtain rfl := Option.some.inj (hnode.symm.trans hnode')
    exact JsonType.member_injective hm rfl
  · intro htype a m hreads
    obtain ⟨rfl, rfl⟩ := hreads.of_unguarded hunguarded
    have hm : j.mType.member = some .mArray := htype ▸ rfl
    exact ⟨j, hnode, hm, hevery _ j hnode _ hm⟩

/-- A copy of the step does not fit. -/
def Misfit (storage : Storage) (heap : JsonHeap δ) (a : Action δ) : Prop :=
  ∃ made ∈ heap.copies a, ¬ made.2.Fits (storage.stale made.1)

theorem not_misfit {a : Action δ} : ¬ Misfit storage heap a ↔
    ∀ made ∈ heap.copies a, made.2.Fits (storage.stale made.1) := by
  rw [Misfit]
  push Not
  rfl

/-- A step keeps tags and members in agreement exactly if its copies fit. -/
theorem agrees_step_iff [Zero δ] {a : Action δ} (hscoped : heap.Scoped) (hevery : heap.Every Json.Agrees)
    (hstep : step storage heap a = some heap') :
    heap'.Every Json.Agrees ↔ ∀ made ∈ heap.copies a, made.2.Fits (storage.stale made.1) := by
  have hmade := made_step hscoped hstep
  constructor
  · intro hafter made hmem
    obtain ⟨copy, hcopied, hnode⟩ := hmade.copied made hmem
    exact (Json.agrees_iff_fits hcopied).mp (hafter _ copy hnode)
  · intro hfits addr node hnode
    rcases hmade.origin addr node hnode with hold | hagrees | ⟨made, hmem, rfl, hcopied⟩
    · exact hevery addr node hold
    · exact hagrees
    · exact (Json.agrees_iff_fits hcopied).mpr (hfits made hmem)

variable [Zero δ] {visited : List (JsonHeap δ × Action δ)}

theorem agrees_run_iff (hrun : (system storage).Run visited heap) :
    ((∀ before ∈ visited, before.1.Every Json.Agrees) ∧ heap.Every Json.Agrees) ↔
      ∀ taken ∈ visited, ¬ Misfit storage taken.1 taken.2 := by
  apply TransitionSystem.Run.forall_iff (P := fun heap => heap.Every Json.Agrees)
    (Q := fun heap => heap.Scoped ∧ heap.Every Json.Agrees) _ _ _ _ hrun
  · exact fun heap hboth => hboth.2
  · rintro heap rfl
    exact ⟨scoped_empty, fun addr j hnode => by cases hnode⟩
  · intro heap a heap' hboth hstep hfits
    exact ⟨Scoped.step hboth.1 hstep, (agrees_step_iff hboth.1 hboth.2 hstep).mpr (not_misfit.mp hfits)⟩
  · intro heap a heap' hboth hstep hmisfit hafter
    exact not_misfit.mpr ((agrees_step_iff hboth.1 hboth.2 hstep).mp hafter) hmisfit

/-- In a run, what each observer reads is what was written last for the tag exactly if
every copy fits its storage and `size`, `begin` and `end` are called on arrays. -/
theorem well_read_iff (hrun : (system storage).Run visited heap) :
    ((∀ before ∈ visited, before.1.Readable) ∧ heap.Readable ∧
      ∀ taken ∈ visited, ∀ this observer, taken.2 = .observe this observer →
        taken.1.WellRead observer this) ↔
      ∀ taken ∈ visited, Fitting storage taken.1 taken.2 := by
  have hagree := agrees_run_iff hrun
  simp only [readable_iff]
  constructor
  · rintro ⟨hbefore, hafter, hobserved⟩ taken hmem
    refine ⟨not_misfit.mp (hagree.mp ⟨hbefore, hafter⟩ taken hmem), ?_⟩
    intro this observer haction hunguarded
    obtain ⟨after, hstep⟩ := hrun.enabled taken hmem
    rw [haction] at hstep
    obtain ⟨j, hnode, -⟩ := Option.bind_eq_some_iff.mp hstep
    have hwell := hobserved taken hmem this observer haction
    exact ⟨j, hnode, (wellRead_iff_of_unguarded (hbefore taken hmem) hunguarded hnode).mp hwell⟩
  · intro hfitting
    obtain ⟨hbefore, hafter⟩ := hagree.mpr fun taken hmem => not_misfit.mpr (hfitting taken hmem).1
    refine ⟨hbefore, hafter, ?_⟩
    intro taken hmem this observer haction
    by_cases hunguarded : observer.Unguarded
    · obtain ⟨j, hnode, htype⟩ := (hfitting taken hmem).2 this observer haction hunguarded
      exact (wellRead_iff_of_unguarded (hbefore taken hmem) hunguarded hnode).mpr htype
    · exact readable_iff.mpr (hbefore taken hmem) this observer hunguarded

/-- `Json(true)`, and a copy of it where a `bool` was before. -/
theorem well_read_copy : Readable (trueHeap.newRoot ⟨.jsonBool, .mBool true⟩) := by
  have hrun : (system ⟨fun _ => .jsonBool, fun n => 2 * n⟩).Run
      [((NodeHeap.empty : JsonHeap ℕ), .constructFrom (.bool true)), (trueHeap, .copyConstruct 0)]
      (trueHeap.newRoot ⟨.jsonBool, .mBool true⟩) :=
    (TransitionSystem.Run.step (.initial rfl) rfl).step rfl
  have hfitting : ∀ taken ∈ [((NodeHeap.empty : JsonHeap ℕ), Action.constructFrom (.bool true)),
      (trueHeap, .copyConstruct 0)], Fitting ⟨fun _ => .jsonBool, fun n => 2 * n⟩ taken.1 taken.2 := by
    intro taken hmem
    rcases List.mem_pair.mp hmem with rfl | rfl
    · exact ⟨fun made hmade => absurd hmade List.not_mem_nil, fun _ _ haction => by cases haction⟩
    · refine ⟨fun made hmade => ?_, fun _ _ haction => by cases haction⟩
      obtain rfl := List.mem_singleton.mp hmade
      exact .inr rfl
  exact ((well_read_iff hrun).mpr hfitting).2.1

/-- `Json(true)`, and a copy of it where an `int` was before: `asInt` of the copy reads
`m_int`, and `size` of the first reads `m_array`. -/
theorem misread_copy :
    (system ⟨fun _ => .jsonInt, fun n => 2 * n⟩).Reachable
        (trueHeap.newRoot ⟨.jsonInt, .mBool true⟩) ∧
      ¬ WellRead (trueHeap.newRoot ⟨.jsonInt, .mBool true⟩) .toInt 1 ∧
      ¬ WellRead (trueHeap.newRoot ⟨.jsonInt, .mBool true⟩) .size 0 := by
  have hcopy : (system ⟨fun _ => .jsonInt, fun n => 2 * n⟩).step trueHeap (.copyConstruct 0) =
      some (trueHeap.newRoot ⟨.jsonInt, .mBool true⟩) := rfl
  refine ⟨(reachable_trueHeap _).step hcopy, ?_, ?_⟩
  · intro hwell
    obtain ⟨j, hnode, -, hvalue⟩ := hwell 1 .mInt (.guarded rfl rfl rfl)
    obtain rfl := Option.some.inj hnode
    cases hvalue
  · intro hwell
    obtain ⟨j, hnode, hm, -⟩ := hwell 0 .mArray (.unguarded (.inl rfl) rfl)
    obtain rfl := Option.some.inj hnode
    cases hm

end JsonHeap

end CppProjects
