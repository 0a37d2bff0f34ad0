import CppProjects.Json.JsonPrints

/-!
# What is left of a `Json` when an operation throws

The conversions only look at the value.  `operator[](int)` makes an array of it
before it checks the index.
-/

namespace CppProjects

variable {δ : Type}

namespace JsonHeap

open NodeHeap

/-- The operations that may throw. -/
inductive Throwing
  | index (i : ℤ)
  | toBool
  | toInt
  | toDouble
  | toString
  | asBool
  | asInt
  | asDouble
  | asString
deriving DecidableEq, Repr

/-- The exception of a result. -/
def thrown {β : Type} : Except JsonError β → Option JsonError
  | .ok _ => none
  | .error error => some error

/-- The heap after a call, with the exception that was thrown. -/
def Throwing.call (storage : Storage) (heap : JsonHeap δ) (this : ℕ) :
    Throwing → Option (JsonHeap δ × Option JsonError)
  | .index i => (heap.index storage this i).map fun result =>
      (result.1, result.2.elim (some (.outOfRange "out of range: array")) fun _ => none)
  | .toBool => (heap.toBool this).map fun result => (heap, thrown result)
  | .toInt => (heap.toInt this).map fun result => (heap, thrown result)
  | .toDouble => (heap.toDouble this).map fun result => (heap, thrown result)
  | .toString => (heap.toString this).map fun result => (heap, thrown result)
  | .asBool => (heap.asBool this).map fun result => (heap, thrown result)
  | .asInt => (heap.asInt this).map fun result => (heap, thrown result)
  | .asDouble => (heap.asDouble this).map fun result => (heap, thrown result)
  | .asString => (heap.asString this).map fun result => (heap, thrown result)

variable {heap heap' : JsonHeap δ} {storage : Storage} {this : ℕ} {j : Json δ} {error : JsonError}

/-- Type and text of the value at `this` are those that `j` has in `heap`. -/
def Unchanged (heap heap' : JsonHeap δ) (this : ℕ) (j : Json δ) : Prop :=
  ∃ j', heap'.nodes this = some j' ∧ j'.mType = j.mType ∧
    ∀ ostream text, heap'.Prints ostream j' text ↔ heap.Prints ostream j text

theorem unchanged_self (hnode : heap.nodes this = some j) : Unchanged heap heap this j :=
  ⟨j, hnode, rfl, fun _ _ => Iff.rfl⟩

/-- `operator[](int)` throws for a negative index, when there is an array. -/
theorem index_throws {index : ℤ} (hindex : heap.index storage this index = some (heap', none)) :
    index < 0 ∧ heap.becomeArray this = some heap' := by
  obtain ⟨ready, hready, hrest⟩ := Option.bind_eq_some_iff.mp hindex
  split_ifs at hrest with hneg
  · obtain ⟨rfl, -⟩ := Prod.mk.inj (Option.some.inj hrest)
    exact ⟨hneg, hready⟩
  · simp only [Option.bind_eq_bind, Option.bind_eq_some_iff, Option.some.injEq, Prod.mk.injEq,
      reduceCtorEq, and_false, exists_false] at hrest

theorem unchanged_index_iff {index : ℤ} (hnode : heap.nodes this = some j)
    (hindex : heap.index storage this index = some (heap', none)) :
    Unchanged heap heap' this j ↔ j.mType = .jsonArray := by
  obtain ⟨j', hnode', hcases⟩ := becomeArray_cases (index_throws hindex).2
  obtain rfl := Option.some.inj (hnode.symm.trans hnode')
  rcases hcases with ⟨htype, rfl⟩ | ⟨cleared, htype, -, rfl⟩
  · exact iff_of_true (unchanged_self hnode) htype
  · refine iff_of_false ?_ htype
    rintro ⟨made, hmade, hsame, -⟩
    rw [nodes_setNode_self] at hmade
    obtain rfl := Option.some.inj hmade
    exact htype hsame.symm

/-- A call that throws leaves the value as it was, unless it is the indexing of a
value that is no array. -/
theorem unchanged_iff (storage : Storage) (call : Throwing) (hnode : heap.nodes this = some j)
    (hcall : call.call storage heap this = some (heap', some error)) :
    Unchanged heap heap' this j ↔ ∀ i, call = .index i → j.mType = .jsonArray := by
  have hconversion : ∀ {β : Type} {result : Option (Except JsonError β)},
      (result.map fun result => (heap, thrown result)) = some (heap', some error) → heap' = heap := by
    intro β result hresult
    obtain ⟨_, _, hpair⟩ := Option.map_eq_some_iff.mp hresult
    exact (congrArg Prod.fst hpair).symm
  cases call with
  | index i =>
      obtain ⟨⟨made, found⟩, hindex, hpair⟩ := Option.map_eq_some_iff.mp hcall
      obtain ⟨rfl, hfound⟩ := Prod.mk.inj hpair
      cases found with
      | some addr => cases hfound
      | none =>
          rw [unchanged_index_iff hnode hindex]
          exact ⟨fun htype _ _ => htype, fun htype => htype i rfl⟩
  | _ =>
      obtain rfl := hconversion hcall
      exact iff_of_true (unchanged_self hnode) fun _ heq => nomatch heq

/-- `asInt()` of a `bool`. -/
theorem unchanged_iff_asInt :
    Unchanged (ofScalar NodeHeap.empty (.bool true) : JsonHeap Unit)
      (ofScalar NodeHeap.empty (.bool true)) 0 ⟨.jsonBool, .mBool true⟩ :=
  (unchanged_iff ⟨fun _ => .stray, fun _ => 0⟩ .asInt rfl rfl).mpr
    fun _ heq => nomatch heq

/-- `j[-1]` of the `int` 5 throws, and leaves an empty array. -/
theorem not_unchanged :
    ¬ ∀ (storage : Storage) (heap heap' : JsonHeap Unit) (this : ℕ) (j : Json Unit)
      (error : JsonError) (call : Throwing), heap.nodes this = some j →
      call.call storage heap this = some (heap', some error) → Unchanged heap heap' this j := by
  intro hall
  have hunchanged := hall ⟨fun _ => .stray, fun _ => 0⟩ (ofScalar NodeHeap.empty (.int 5)) _ 0 _
    _ (.index (-1)) rfl rfl
  obtain ⟨j', hnode', htype, -⟩ := hunchanged
  obtain rfl := Option.some.inj hnode'
  cases htype

end JsonHeap

end CppProjects
