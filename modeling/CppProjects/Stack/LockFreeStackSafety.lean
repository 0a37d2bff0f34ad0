import CppProjects.Core.ListUpdate
import CppProjects.Stack.LockFreeStack

/-!
# What `LockFreeStack` keeps

The nodes that are allocated are those of the chain from `head` and one for each
thread that is about to link a node or to delete one.
-/

namespace CppProjects

namespace LockFreeStack

variable {α : Type}

/-- The node a thread has allocated and not linked, or unlinked and not
deleted. -/
def Pc.owned : Pc α → Option ℕ
  | .allocated _ new | .loaded _ new _ | .linking _ new => some new
  | .unlinked old | .deleting old _ => some old
  | .idle | .pushing _ | .popping | .holding _ | .comparing _ _ => none

namespace State

variable {s s' : State α} {t : ℕ} {pc pc' : Pc α} {addrs addrs' : List ℕ} {addr : ℕ} {value : α}

def owned (s : State α) : List ℕ := s.threads.filterMap Pc.owned

/-- The chain from `head` is `addrs`; each allocated node is in it or has one
owner; an owner of a node holds its value. -/
structure Inv (s : State α) (addrs : List ℕ) : Prop where
  walk : LinkedHeap.Walk s.follow s.head addrs
  nodup : (addrs ++ s.owned).Nodup
  allocated : ∀ addr, (s.nodes addr).isSome ↔ addr ∈ addrs ++ s.owned
  values : ∀ pc ∈ s.threads, ∀ addr, pc.owned = some addr → s.valueAt addr = s.held pc
  conserved : s.pushed.Perm
    (s.popped ++ addrs.filterMap s.valueAt ++ s.threads.filterMap s.held)

/-- What a thread holds depends on its own node alone. -/
theorem held_congr (hvalue : ∀ addr, pc.owned = some addr → s'.valueAt addr = s.valueAt addr) :
    s'.held pc = s.held pc := by
  cases pc with
  | unlinked old => exact hvalue old rfl
  | _ => rfl

theorem isSome_iff_of_valueAt (hvalue : s'.valueAt addr = s.valueAt addr) :
    (s'.nodes addr).isSome ↔ (s.nodes addr).isSome := by
  rw [valueAt, valueAt] at hvalue
  rw [← Option.isSome_map (f := Node.value), hvalue, Option.isSome_map]

/-- The owners of a state in which one thread has moved. -/
theorem owned_setThread (s' : State α) (hget : s.threads[t]? = some pc)
    (hthreads : s'.threads = s.threads.set t pc') :
    (pc.owned.toList ++ s'.owned).Perm (pc'.owned.toList ++ s.owned) := by
  rw [owned, hthreads]
  exact filterMap_set_perm Pc.owned hget pc'

theorem heldList_setThread (s' : State α) (hget : s.threads[t]? = some pc)
    (hthreads : s'.threads = s.threads.set t pc')
    (hheld : ∀ other ∈ s'.threads, s'.held other = s.held other) :
    ((s.held pc).toList ++ s'.threads.filterMap s'.held).Perm
      ((s.held pc').toList ++ s.threads.filterMap s.held) := by
  rw [List.filterMap_congr hheld, hthreads]
  exact filterMap_set_perm s.held hget pc'

/-- A step of a thread that keeps its node and its value. -/
theorem Inv.move (hinv : s.Inv addrs) (hget : s.threads[t]? = some pc)
    (hthreads : s'.threads = s.threads.set t pc') (howned : pc'.owned = pc.owned)
    (hheld : s.held pc' = s.held pc) (hhead : s'.head = s.head) (hpushed : s'.pushed = s.pushed)
    (hpopped : s'.popped = s.popped) (hvalues : ∀ addr, s'.valueAt addr = s.valueAt addr)
    (hfollow : ∀ addr ∈ addrs, s'.follow addr = s.follow addr) : s'.Inv addrs := by
  have hsame : ∀ other : Pc α, s'.held other = s.held other :=
    fun other => held_congr fun addr _ => hvalues addr
  have hnodes : (addrs ++ s'.owned).Perm (addrs ++ s.owned) := by
    have hperm := owned_setThread s' hget hthreads
    rw [howned, List.perm_append_left_iff] at hperm
    exact hperm.append_left addrs
  have hholds := heldList_setThread s' hget hthreads fun other _ => hsame other
  rw [hheld, List.perm_append_left_iff] at hholds
  refine ⟨?_, hnodes.nodup_iff.mpr hinv.nodup, fun addr => ?_, ?_, ?_⟩
  · rw [hhead]
    exact hinv.walk.congr hfollow
  · rw [isSome_iff_of_valueAt (hvalues addr), hinv.allocated addr, hnodes.mem_iff]
  · intro other hmem addr howns
    rw [hvalues, hsame]
    rw [hthreads] at hmem
    rcases List.mem_or_eq_of_mem_set hmem with hold | rfl
    · exact hinv.values other hold addr howns
    · rw [hheld]
      exact hinv.values pc (List.mem_of_getElem? hget) addr (howned ▸ howns)
  · rw [hpushed, hpopped, show s'.valueAt = s.valueAt from funext hvalues]
    exact hinv.conserved.trans (hholds.symm.append_left _)

theorem Inv.exists_node (hinv : s.Inv addrs) (hget : s.threads[t]? = some pc)
    (howned : pc.owned = some addr) : ∃ node, s.nodes addr = some node := by
  have hmem : addr ∈ addrs ++ s.owned :=
    List.mem_append_right _ (List.mem_filterMap.mpr ⟨pc, List.mem_of_getElem? hget, howned⟩)
  exact Option.isSome_iff_exists.mp ((hinv.allocated addr).mpr hmem)

/-- An owned node is not in the chain. -/
theorem Inv.notMem (hinv : s.Inv addrs) (hget : s.threads[t]? = some pc)
    (howned : pc.owned = some addr) : addr ∉ addrs := by
  have hmem : addr ∈ s.owned := List.mem_filterMap.mpr ⟨pc, List.mem_of_getElem? hget, howned⟩
  exact fun h => (List.nodup_append'.mp hinv.nodup).2.2 h hmem

/-- A call of `push` begins. -/
theorem Inv.push (hinv : s.Inv addrs) (hget : s.threads[t]? = some .idle) (value : α) :
    ({ s with pushed := s.pushed ++ [value] }.setThread t (.pushing value)).Inv addrs := by
  have hnodes := owned_setThread (s.setThread t (.pushing value)) hget rfl
  have hholds := heldList_setThread (s.setThread t (.pushing value)) hget rfl fun _ _ => rfl
  refine ⟨hinv.walk, (hnodes.append_left addrs).nodup_iff.mpr hinv.nodup, fun addr => ?_, ?_, ?_⟩
  · exact (hinv.allocated addr).trans (hnodes.append_left addrs).mem_iff.symm
  · intro other hmem addr howns
    rcases List.mem_or_eq_of_mem_set hmem with hold | rfl
    · exact hinv.values other hold addr howns
    · cases howns
  · calc List.Perm _ (s.popped ++ addrs.filterMap s.valueAt ++ s.threads.filterMap s.held ++ [value]) :=
          hinv.conserved.append_right [value]
      List.Perm _ (s.popped ++ addrs.filterMap s.valueAt ++
          ([value] ++ s.threads.filterMap s.held)) := by
        rw [List.append_assoc]
        exact List.perm_append_comm.append_left _
      List.Perm _ _ := hholds.symm.append_left _

theorem nodes_setNode_of_ne {other : ℕ} (hne : addr ≠ other) (node : Option (Node α)) :
    (s.setNode other node).nodes addr = s.nodes addr := Function.update_of_ne hne ..

theorem nodes_setNode_self (node : Option (Node α)) : (s.setNode addr node).nodes addr = node :=
  Function.update_self ..

theorem valueAt_setNode_of_ne {other : ℕ} (hne : addr ≠ other) (node : Option (Node α)) :
    (s.setNode other node).valueAt addr = s.valueAt addr := by
  rw [valueAt, nodes_setNode_of_ne hne, valueAt]

theorem follow_setNode_of_ne {other : ℕ} (hne : addr ≠ other) (node : Option (Node α)) :
    (s.setNode other node).follow addr = s.follow addr := by
  rw [follow, nodes_setNode_of_ne hne, follow]

theorem filterMap_valueAt_setNode {other : ℕ} (hother : other ∉ addrs) (node : Option (Node α)) :
    addrs.filterMap (s.setNode other node).valueAt = addrs.filterMap s.valueAt := by
  apply List.filterMap_congr
  intro addr hmem
  exact valueAt_setNode_of_ne (ne_of_mem_of_not_mem hmem hother) node

/-- A thread stores the `next` of the node it has allocated. -/
theorem Inv.store {new : ℕ} {node : Node α} (hinv : s.Inv addrs) (hget : s.threads[t]? = some pc)
    (howns : pc.owned = some new) (hnode : s.nodes new = some node) (next : Option ℕ)
    (howned : pc'.owned = pc.owned) (hheld : s.held pc' = s.held pc) :
    ((s.setNode new (some { node with next := next })).setThread t pc').Inv addrs := by
  have hvalues : ∀ addr, (s.setNode new (some { node with next := next })).valueAt addr =
      s.valueAt addr := by
    intro addr
    by_cases heq : addr = new
    · rw [heq, valueAt, valueAt, hnode, nodes_setNode_self]
      rfl
    · exact valueAt_setNode_of_ne heq _
  have hchain : new ∉ addrs := hinv.notMem hget howns
  exact hinv.move hget rfl howned hheld rfl rfl rfl hvalues fun addr hmem =>
    follow_setNode_of_ne (ne_of_mem_of_not_mem hmem hchain) _

/-- A node is allocated at any address that is not in use. -/
theorem Inv.allocate (hinv : s.Inv addrs) (hget : s.threads[t]? = some (.pushing value))
    (hfree : s.nodes addr = none) :
    ((s.setNode addr (some ⟨value, none⟩)).setThread t (.allocated value addr)).Inv addrs := by
  have hnew : addr ∉ addrs ++ s.owned := by
    rw [← hinv.allocated addr, hfree]
    simp
  have hchain : addr ∉ addrs := fun hmem => hnew (List.mem_append_left _ hmem)
  have howners : ∀ pc ∈ s.threads, ∀ other, pc.owned = some other → other ≠ addr := by
    rintro pc hmem other howns rfl
    exact hnew (List.mem_append_right _ (List.mem_filterMap.mpr ⟨pc, hmem, howns⟩))
  let s' := (s.setNode addr (some ⟨value, none⟩)).setThread t (.allocated value addr)
  have hnodes : (addrs ++ s'.owned).Perm (addr :: (addrs ++ s.owned)) :=
    ((owned_setThread s' hget rfl).append_left addrs).trans List.perm_middle
  have hheld : ∀ pc ∈ s'.threads, s'.held pc = s.held pc := by
    intro pc hmem
    rcases List.mem_or_eq_of_mem_set hmem with hold | rfl
    · exact held_congr fun other howns => valueAt_setNode_of_ne (howners pc hold other howns) _
    · rfl
  have hholds : ([value] ++ s'.threads.filterMap s'.held).Perm
      ([value] ++ s.threads.filterMap s.held) := heldList_setThread s' hget rfl hheld
  rw [List.perm_append_left_iff] at hholds
  refine ⟨?_, hnodes.nodup_iff.mpr (List.nodup_cons.mpr ⟨hnew, hinv.nodup⟩), fun other => ?_, ?_, ?_⟩
  · exact hinv.walk.congr fun other hmem =>
      follow_setNode_of_ne (ne_of_mem_of_not_mem hmem hchain) _
  · rw [hnodes.mem_iff, List.mem_cons]
    by_cases heq : other = addr
    · subst heq
      simp [State.setNode, State.setThread]
    · have hnode : s'.nodes other = s.nodes other := nodes_setNode_of_ne heq _
      rw [or_iff_right heq, ← hinv.allocated other, hnode]
  · intro pc hmem other howns
    rw [hheld pc hmem]
    rcases List.mem_or_eq_of_mem_set hmem with hold | rfl
    · exact (valueAt_setNode_of_ne (howners pc hold other howns) _).trans
        (hinv.values pc hold other howns)
    · obtain rfl := Option.some.inj howns
      have hnode : s'.nodes addr = some ⟨value, none⟩ := nodes_setNode_self _
      exact congrArg (Option.map Node.value) hnode
  · have hvalues : addrs.filterMap s'.valueAt = addrs.filterMap s.valueAt :=
      filterMap_valueAt_setNode hchain _
    rw [hvalues]
    exact hinv.conserved.trans (hholds.symm.append_left _)

/-- The exchange of `push` succeeds. -/
theorem Inv.link {new : ℕ} (hinv : s.Inv addrs) (hget : s.threads[t]? = some (.linking value new))
    (hnext : s.follow new = some s.head) :
    ({ s with head := some new }.setThread t .idle).Inv (new :: addrs) := by
  let s' := { s with head := some new }.setThread t .idle
  have hnodes : (new :: addrs ++ s'.owned).Perm (addrs ++ s.owned) :=
    List.perm_middle.symm.trans ((owned_setThread s' hget rfl).append_left addrs)
  have hheld : ∀ pc ∈ s'.threads, s'.held pc = s.held pc := fun _ _ => rfl
  have hholds := heldList_setThread s' hget rfl hheld
  have hvalue : s.valueAt new = some value :=
    hinv.values _ (List.mem_of_getElem? hget) new rfl
  refine ⟨.step hnext hinv.walk, hnodes.nodup_iff.mpr hinv.nodup, fun addr => ?_, ?_, ?_⟩
  · exact (hinv.allocated addr).trans hnodes.mem_iff.symm
  · intro pc hmem addr howns
    rcases List.mem_or_eq_of_mem_set hmem with hold | rfl
    · exact hinv.values pc hold addr howns
    · cases howns
  · have hchain : (new :: addrs).filterMap s'.valueAt = value :: addrs.filterMap s.valueAt :=
      List.filterMap_cons_some hvalue
    rw [hchain]
    calc List.Perm _ (s.popped ++ addrs.filterMap s.valueAt ++ s.threads.filterMap s.held) :=
          hinv.conserved
      List.Perm _ (s.popped ++ addrs.filterMap s.valueAt ++
          (value :: s'.threads.filterMap s'.held)) := hholds.symm.append_left _
      List.Perm _ (s.popped ++ (value :: addrs.filterMap s.valueAt) ++
          s'.threads.filterMap s'.held) := (append_cons_append_perm ..).symm

/-- The exchange of `pop` succeeds and finds the successor of the first node. -/
theorem Inv.unlink {old : ℕ} {next : Option ℕ} (hinv : s.Inv (old :: addrs))
    (hget : s.threads[t]? = some (.comparing old next)) (hrest : LinkedHeap.Walk s.follow next addrs) :
    ({ s with head := next }.setThread t (.unlinked old)).Inv addrs := by
  let s' := { s with head := next }.setThread t (.unlinked old)
  obtain ⟨node, hnode⟩ := Option.isSome_iff_exists.mp ((hinv.allocated old).mpr List.mem_cons_self)
  have hvalue : s.valueAt old = some node.value := congrArg (Option.map Node.value) hnode
  have hnodes : (addrs ++ s'.owned).Perm (old :: addrs ++ s.owned) :=
    ((owned_setThread s' hget rfl).append_left addrs).trans List.perm_middle
  have hheld : ∀ pc ∈ s'.threads, s'.held pc = s.held pc := fun pc _ => held_congr fun _ _ => rfl
  have hholds := heldList_setThread s' hget rfl hheld
  rw [State.held, State.held, hvalue] at hholds
  refine ⟨hrest, hnodes.nodup_iff.mpr hinv.nodup, fun addr => ?_, ?_, ?_⟩
  · exact (hinv.allocated addr).trans hnodes.mem_iff.symm
  · intro pc hmem addr howns
    rcases List.mem_or_eq_of_mem_set hmem with hold | rfl
    · exact (hinv.values pc hold addr howns).trans (hheld pc hmem).symm
    · obtain rfl := Option.some.inj howns
      rfl
  · have hchain : (old :: addrs).filterMap s.valueAt = node.value :: addrs.filterMap s.valueAt :=
      List.filterMap_cons_some hvalue
    have hconserved := hinv.conserved
    rw [hchain] at hconserved
    calc List.Perm _ (s.popped ++ (node.value :: addrs.filterMap s.valueAt) ++
          s.threads.filterMap s.held) := hconserved
      List.Perm _ (s.popped ++ addrs.filterMap s.valueAt ++
          (node.value :: s.threads.filterMap s.held)) := append_cons_append_perm ..
      List.Perm _ _ := hholds.symm.append_left _

/-- A thread deletes the node it has unlinked and returns the value. -/
theorem Inv.delete {old : ℕ} (hinv : s.Inv addrs)
    (hget : s.threads[t]? = some (.deleting old value)) :
    ({ s.setNode old none with popped := s.popped ++ [value] }.setThread t .idle).Inv addrs := by
  let s' := { s.setNode old none with popped := s.popped ++ [value] }.setThread t .idle
  have hnodes : (old :: (addrs ++ s'.owned)).Perm (addrs ++ s.owned) :=
    List.perm_middle.symm.trans ((owned_setThread s' hget rfl).append_left addrs)
  have hnodup := List.nodup_cons.mp (hnodes.nodup_iff.mpr hinv.nodup)
  have hchain : old ∉ addrs := hinv.notMem hget rfl
  have howners : ∀ pc ∈ s'.threads, ∀ other, pc.owned = some other → other ≠ old := by
    rintro pc hmem other howns rfl
    exact hnodup.1 (List.mem_append_right _ (List.mem_filterMap.mpr ⟨pc, hmem, howns⟩))
  have hheld : ∀ pc ∈ s'.threads, s'.held pc = s.held pc := fun pc hmem =>
    held_congr fun other howns => valueAt_setNode_of_ne (howners pc hmem other howns) _
  have hholds : ([value] ++ s'.threads.filterMap s'.held).Perm (s.threads.filterMap s.held) :=
    heldList_setThread s' hget rfl hheld
  refine ⟨?_, hnodup.2, fun other => ?_, ?_, ?_⟩
  · exact hinv.walk.congr fun other hmem =>
      follow_setNode_of_ne (ne_of_mem_of_not_mem hmem hchain) _
  · by_cases heq : other = old
    · subst heq
      refine iff_of_false ?_ hnodup.1
      simp [State.setNode, State.setThread]
    · have hnode : s'.nodes other = s.nodes other := nodes_setNode_of_ne heq _
      rw [hnode, hinv.allocated other, ← hnodes.mem_iff, List.mem_cons, or_iff_right heq]
  · intro pc hmem other howns
    have hvalue : s'.valueAt other = s.valueAt other :=
      valueAt_setNode_of_ne (howners pc hmem other howns) _
    rw [hheld pc hmem, hvalue]
    rcases List.mem_or_eq_of_mem_set hmem with hold | rfl
    · exact hinv.values pc hold other howns
    · cases howns
  · have hvalues : addrs.filterMap s'.valueAt = addrs.filterMap s.valueAt :=
      filterMap_valueAt_setNode hchain _
    rw [hvalues]
    calc List.Perm _ (s.popped ++ addrs.filterMap s.valueAt ++ s.threads.filterMap s.held) :=
          hinv.conserved
      List.Perm _ (s.popped ++ addrs.filterMap s.valueAt ++
          (value :: s'.threads.filterMap s'.held)) := hholds.symm.append_left _
      List.Perm _ (s.popped ++ (value :: addrs.filterMap s.valueAt) ++
          s'.threads.filterMap s'.held) := (append_cons_append_perm ..).symm
      List.Perm _ (s.popped ++ [value] ++ addrs.filterMap s.valueAt ++
          s'.threads.filterMap s'.held) := by rw [List.append_assoc s.popped [value]]; rfl

end State

end LockFreeStack

end CppProjects
