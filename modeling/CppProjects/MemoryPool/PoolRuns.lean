import CppProjects.Core.TransitionSystem
import CppProjects.MemoryPool.PoolMoves

/-!
# Runs of a memory pool

Callers allocate and give back slots in any order, write into the objects they hold,
and the rest of the program writes elsewhere.  `operator new` may return any free range,
or throw.  Each operation is a sequence of moves, so that what moves keep holds in
every run.
-/

namespace CppProjects

namespace MemoryPool

open CInt Program LittleEndian ByteHeap

/-- The pool, the memory, and the slots that callers hold. -/
structure State where
  store : Store
  held : List ℕ

inductive Action
  | allocate (os : Option ℕ)
  | deallocate (p : ℕ)
  | newElement (os : Option ℕ) (val : List Byte)
  | deleteElement (p : ℕ) (left : List Byte)
  /-- A caller writes into its object. -/
  | write (p offset : ℕ) (data : List Byte)
  /-- The rest of the program writes to memory of its own. -/
  | elsewhere (q : ℕ) (data : List Byte)

variable (t : PoolType)

def call : Action → M (List Event)
  | .allocate os => do
      let p ← allocate t os
      return [.handedOut p]
  | .deallocate p => do
      deallocate p
      return if p ≠ 0 then [.released p] else []
  | .newElement os val => do
      let p ← newElement t os val
      return [.handedOut p, .wrote p 0 val]
  | .deleteElement p left => do
      deleteElement p left
      return if p ≠ 0 then [.wrote p 0 left, .released p] else []
  | .write p offset data => do
      writeBytes (p + offset) data
      return [.wrote p offset data]
  | .elsewhere q data => do
      modify fun s => s.patch q data
      return []

/-- What callers and the operating system have to respect. -/
def Allowed (s : State) : Action → Prop
  | .allocate os => ∀ start ∈ os, Answer t s.store.heap start
  | .deallocate p => p = 0 ∨ p ∈ s.held
  | .newElement os val =>
      (∀ start ∈ os, Answer t s.store.heap start) ∧ val.length ≤ t.sizeofSlot
  | .deleteElement p left => (p = 0 ∨ p ∈ s.held) ∧ left.length ≤ t.sizeofSlot
  | .write p offset data => p ∈ s.held ∧ offset + data.length ≤ t.sizeofSlot
  | .elsewhere q data =>
      ∀ region ∈ s.store.heap.regions, Apart q data.length region.start region.size

instance (s : State) (a : Action) : Decidable (Allowed t s a) := by
  cases a <;> unfold Allowed <;> infer_instance

/-- The callers' slots after a call; a call that throws hands out nothing. -/
def system : TransitionSystem State Action where
  initial s := s.store.pool = new ∧ s.store.heap.regions = [] ∧ s.held = []
  step s a :=
    if Allowed t s a then
      match (call t a).run.run s.store with
      | some (.ok events, store) => some ⟨store, events.foldl hold s.held⟩
      | some (.error _, store) => some ⟨store, s.held⟩
      | none => none
    else none

/-- The events of a call. -/
def told (s : State) (a : Action) : List Event :=
  match (call t a).run.run s.store with
  | some (.ok events, _) => events
  | _ => []

variable {t} {s s' : State} {a : Action} {free : List ℕ}

theorem Move.held_eq {w w' : World} {events : List Event} (hmove : Move t w events w') :
    w'.held = events.foldl hold w.held := by
  cases hmove <;> rfl

theorem Moves.held_eq {w w' : World} {events : List Event} (hmoves : Moves t w events w') :
    w'.held = events.foldl hold w.held := by
  induction hmoves with
  | nil => rfl
  | cons hmove _ ih => rw [ih, hmove.held_eq, List.foldl_append]

theorem Moves.one {w w' : World} {events : List Event} (hmove : Move t w events w') :
    Moves t w events w' := by
  have := Moves.cons hmove .nil
  rwa [List.append_nil] at this

/-- `allocate` hands out a slot, unless it needs a block and gets none. -/
theorem allocate_move {store : Store} {held : List ℕ} (hsound : Sound t store held free)
    {os : Option ℕ} (hanswer : ∀ start ∈ os, Answer t store.heap start)
    (hfits : 2 * t.sizeofSlot ≤ t.blockSize) :
    (∃ p w', Returns (allocate t os) store p w'.store ∧
      Move t ⟨store, held, free⟩ [.handedOut p] w') ∨
    os = none ∧ Throws (allocate t os) store .badAlloc store := by
  have hword := t.word_le
  cases free with
  | cons p rest =>
      obtain ⟨hp, hne, -⟩ := hsound.frees
      have hbacked := (hsound.backed (p := p) (by simp)).within le_rfl (Nat.add_le_add_left hword p)
      have hreturns : Returns (allocate t os) _ _ _ :=
        returns_allocate_reuse (hp ▸ hne) (hp ▸ hbacked)
      rw [hp] at hreturns
      exact .inl ⟨p, _, hreturns, .reuse⟩
  | nil =>
      have hfree : store.pool.freeSlots = 0 := hsound.frees
      rcases lt_or_ge store.pool.currentSlot store.pool.lastSlot with hroom | hfull
      · exact .inl ⟨_, ⟨_, _, []⟩, returns_allocate_carve hfree hroom, .carve hroom⟩
      · cases os with
        | none => exact .inr ⟨rfl, throws_allocate hfree hfull⟩
        | some start =>
            exact .inl ⟨_, ⟨_, _, []⟩, returns_allocate_grow hfree hfull (by omega),
              .grow hfull (hanswer start rfl)⟩

theorem deallocate_move {store : Store} {held : List ℕ} (hsound : Sound t store held free) {p : ℕ}
    (hp : p ∈ held) : ∃ w', Returns (deallocate p) store () w'.store ∧
      Move t ⟨store, held, free⟩ [.released p] w' := by
  have hmem : p ∈ held ++ free := List.mem_append_left _ hp
  have hbacked := (hsound.backed hmem).within le_rfl (Nat.add_le_add_left t.word_le p)
  exact ⟨_, returns_deallocate (hsound.lt_of_mem hmem).2.ne' hbacked, .release hp⟩

theorem writeBytes_move {store : Store} {held : List ℕ} (hsound : Sound t store held free)
    {p offset : ℕ} {data : List Byte} (hp : p ∈ held)
    (hdata : offset + data.length ≤ t.sizeofSlot) :
    Returns (writeBytes (p + offset) data) store () (store.patch (p + offset) data) ∧
      Move t ⟨store, held, free⟩ [.wrote p offset data]
        ⟨store.patch (p + offset) data, held, free⟩ := by
  have hbacked := (hsound.backed (List.mem_append_left _ hp)).within
    (Nat.le_add_right p offset) (m := data.length) (by omega)
  exact ⟨returns_writeBytes hbacked, .write hp hdata⟩

/-- An allowed call is a sequence of moves, or it throws and changes nothing.  It cuts
off a slot only where none was free. -/
theorem call_moves (hsound : Sound t s.store s.held free) (hallowed : Allowed t s a)
    (hfits : 2 * t.sizeofSlot ≤ t.blockSize) :
    (∃ events w', Returns (call t a) s.store events w'.store ∧
      Moves t ⟨s.store, s.held, free⟩ events w' ∧
      (w'.carved = s.held.length + free.length ∨ w'.free = [])) ∨
    Throws (call t a) s.store .badAlloc s.store := by
  cases a with
  | allocate os =>
      rcases allocate_move hsound hallowed hfits with ⟨p, w', hreturns, hmove⟩ | ⟨-, hthrows⟩
      · exact .inl ⟨_, w', hreturns.bind (returns_pure _ _), .one hmove, hmove.carved_eq_or⟩
      · exact .inr hthrows.bind
  | deallocate p =>
      by_cases hp : p = 0
      · subst hp
        exact .inl ⟨_, ⟨_, _, _⟩, (returns_deallocate_null _).bind (returns_pure _ _), .nil, .inl rfl⟩
      · obtain ⟨w', hreturns, hmove⟩ := deallocate_move hsound (hallowed.resolve_left hp)
        refine .inl ⟨_, w', hreturns.bind (returns_pure _ _), ?_, hmove.carved_eq_or⟩
        rw [if_pos hp]
        exact .one hmove
  | newElement os val =>
      rcases allocate_move hsound hallowed.1 hfits with ⟨p, w', hreturns, hmove⟩ | ⟨-, hthrows⟩
      · have hp : p ∈ w'.held := by
          rw [hmove.held_eq]
          exact List.mem_cons_self
        have hval : 0 + val.length ≤ t.sizeofSlot := (zero_add _).trans_le hallowed.2
        obtain ⟨hwrite, hmove'⟩ := writeBytes_move (hsound.move hmove hfits) hp hval
        have hconstruct : Returns (construct p val) w'.store () _ := hwrite
        have hnew : Returns (newElement t os val) s.store p (w'.store.patch (p + 0) val) :=
          hreturns.bind (hconstruct.bind (returns_pure p _))
        exact .inl ⟨_, ⟨w'.store.patch (p + 0) val, w'.held, w'.free⟩,
          hnew.bind (returns_pure _ _), .cons hmove (.one hmove'), hmove.carved_eq_or⟩
      · exact .inr (hthrows.bind.bind)
  | deleteElement p left =>
      by_cases hp : p = 0
      · subst hp
        exact .inl ⟨_, ⟨_, _, _⟩, (returns_pure () _).bind (returns_pure _ _), .nil, .inl rfl⟩
      · have hmem := hallowed.1.resolve_left hp
        have hleft : 0 + left.length ≤ t.sizeofSlot := (zero_add _).trans_le hallowed.2
        obtain ⟨hwrite, hmove⟩ := writeBytes_move hsound hmem hleft
        obtain ⟨w', hreturns, hmove'⟩ := deallocate_move (hsound.move hmove hfits) hmem
        have hdelete : Returns (deleteElement p left) s.store () w'.store := by
          rw [deleteElement, if_pos hp]
          exact hwrite.bind hreturns
        refine .inl ⟨_, w', hdelete.bind (returns_pure _ _), ?_, hmove'.carved_eq_or⟩
        rw [if_pos hp]
        exact .cons hmove (.one hmove')
  | write p offset data =>
      obtain ⟨hwrite, hmove⟩ := writeBytes_move hsound hallowed.1 hallowed.2
      exact .inl ⟨_, ⟨s.store.patch (p + offset) data, s.held, free⟩,
        hwrite.bind (returns_pure _ _), .one hmove, .inl rfl⟩
  | elsewhere q data =>
      exact .inl ⟨_, ⟨s.store.patch q data, s.held, free⟩, rfl, .one (.elsewhere hallowed), .inl rfl⟩

/-- What a step is. -/
theorem step_cases (hsound : Sound t s.store s.held free) (hstep : (system t).step s a = some s')
    (hfits : 2 * t.sizeofSlot ≤ t.blockSize) :
    (∃ w', s' = ⟨w'.store, w'.held⟩ ∧ Moves t ⟨s.store, s.held, free⟩ (told t s a) w' ∧
      (w'.carved = s.held.length + free.length ∨ w'.free = [])) ∨
    s' = s ∧ told t s a = [] := by
  simp only [system] at hstep
  split_ifs at hstep with hallowed
  rcases call_moves hsound hallowed hfits with ⟨events, w', hreturns, hmoves, hcarved⟩ | hthrows
  · left
    have hrun : (call t a).run.run s.store = some (.ok events, w'.store) := hreturns
    rw [hrun] at hstep
    have htold : told t s a = events := by rw [told, hrun]
    rw [htold]
    refine ⟨w', ?_, hmoves, hcarved⟩
    rw [hmoves.held_eq]
    exact (Option.some.inj hstep).symm
  · right
    have hrun : (call t a).run.run s.store = some (.error .badAlloc, s.store) := hthrows
    rw [hrun] at hstep
    exact ⟨(Option.some.inj hstep).symm, by rw [told, hrun]⟩

theorem sound_initial (hinitial : (system t).initial s) : Sound t s.store s.held [] := by
  obtain ⟨hpool, hregions, hheld⟩ := hinitial
  have hlinked : Chain (wordAt s.store.heap.bytes) s.store.pool.currentBlock
      (s.store.heap.regions.map Region.start) := by
    rw [hpool, hregions]
    rfl
  refine ⟨⟨?_, ?_, ?_, ?_, hlinked⟩, ⟨?_, ?_, ?_⟩, ?_, ?_⟩ <;> simp [hpool, hregions, hheld, new, Chain]

theorem exists_sound (hfits : 2 * t.sizeofSlot ≤ t.blockSize) (hreach : (system t).Reachable s) :
    ∃ free, Sound t s.store s.held free := by
  refine hreach.invariant (P := fun s => ∃ free, Sound t s.store s.held free)
    (fun s h => ⟨[], sound_initial h⟩) ?_
  rintro s a s' ⟨free, hsound⟩ hstep
  rcases step_cases hsound hstep hfits with ⟨w', rfl, hmoves, -⟩ | ⟨rfl, -⟩
  · exact ⟨w'.free, hsound.moves hmoves hfits⟩
  · exact ⟨free, hsound⟩

/-! ## A first slot -/

/-- An address where the padding takes all but a pointer of a slot. -/
def worstStart (t : PoolType) : ℕ := 2 ^ 64 % t.sizeofSlot + t.sizeofSlot

theorem firstSlot_worstStart (hsize : t.sizeofSlot ≤ 2 ^ 61) :
    firstSlot t (worstStart t) = worstStart t + t.sizeofSlot := by
  have hpos := t.sizeofSlot_pos
  have hword := t.word_le
  have hrest := Nat.mod_lt (2 ^ 64) hpos
  have hturns := Nat.div_add_mod (2 ^ 64) t.sizeofSlot
  obtain ⟨turns, hone⟩ : ∃ turns, 2 ^ 64 / t.sizeofSlot = turns + 1 :=
    Nat.exists_eq_add_one.mpr (Nat.div_pos (hsize.trans (by norm_num)) hpos)
  rw [hone, mul_add, mul_one] at hturns
  -- the subtraction wraps around once
  have hwrapped : toSize ((t.sizeofSlot : ℤ) - (worstStart t + sizeofPointer : ℕ)) =
      t.sizeofSlot - 8 + t.sizeofSlot * turns := by
    rw [toSize, worstStart, sizeofPointer]
    omega
  rw [firstSlot, padPointer, hwrapped, Nat.add_mul_mod_self_left, Nat.mod_eq_of_lt (by omega),
    sizeofPointer]
  omega

/-- The pool after its first slot, from a block at the worst address. -/
def firstRun (t : PoolType) : State :=
  ⟨grown t ⟨⟨fun _ => 0, []⟩, new⟩ (worstStart t), [firstSlot t (worstStart t)]⟩

/-- A pool without blocks, in a memory of zeros. -/
def atFirst : State := ⟨⟨⟨fun _ => 0, []⟩, new⟩, []⟩

theorem run_firstRun (hword : 8 ≤ t.blockSize) (hsize : t.sizeofSlot ≤ 2 ^ 61)
    (hblock : t.blockSize < 2 ^ 62) :
    (system t).Run [(atFirst, .allocate (some (worstStart t)))] (firstRun t) := by
  have hrest := Nat.mod_lt (2 ^ 64) t.sizeofSlot_pos
  have hanswer : Answer t atFirst.store.heap (worstStart t) := by
    refine ⟨Nat.add_pos_right _ t.sizeofSlot_pos, ?_, ?_, by simp [atFirst]⟩
    · rw [worstStart]
      omega
    · exact ((Nat.dvd_mod_iff t.dvd_sizeofSlot).mpr (by norm_num)).add t.dvd_sizeofSlot
  have hcall : Returns (call t (.allocate (some (worstStart t)))) atFirst.store
      [.handedOut (firstSlot t (worstStart t))] (firstRun t).store :=
    (returns_allocate_grow rfl le_rfl hword).bind (returns_pure _ _)
  have hallowed : Allowed t atFirst (.allocate (some (worstStart t))) := by
    intro start hstart
    obtain rfl := Option.mem_some.mp hstart
    exact hanswer
  have hinitial : (system t).initial atFirst := ⟨rfl, rfl, rfl⟩
  refine TransitionSystem.Run.step (.initial hinitial) ?_
  simp only [system, if_pos hallowed]
  rw [show (call t (.allocate (some (worstStart t)))).run.run atFirst.store =
    some (.ok [.handedOut (firstSlot t (worstStart t))], (firstRun t).store) from hcall]
  rfl

/-- Slots of 24 bytes in the smallest blocks that they fit. -/
def smallBlocks : PoolType := ⟨24, 48, by decide, by decide⟩

theorem run_smallBlocks :
    (system smallBlocks).Run [(atFirst, .allocate (some (worstStart smallBlocks)))]
      (firstRun smallBlocks) := run_firstRun (by decide) (by decide) (by decide)

/-! ## The slots that callers hold -/

theorem inside_of_reachable (hfits : 2 * t.sizeofSlot ≤ t.blockSize) (hreach : (system t).Reachable s)
    {p : ℕ} (hp : p ∈ s.held) : ∃ region ∈ s.store.heap.regions,
      region.start + 8 ≤ p ∧ p + t.sizeofSlot ≤ region.start + region.size := by
  obtain ⟨free, hsound⟩ := exists_sound hfits hreach
  obtain ⟨region, hmem, hlo, hhi⟩ := hsound.slots.inside p (List.mem_append_left _ hp)
  exact ⟨region, hmem, hlo, by rw [hsound.blocks.size region hmem]; exact hhi⟩

theorem Sound.two_pow_dvd {store : Store} {held : List ℕ} (hsound : Sound t store held free)
    {p k : ℕ} (hp : p ∈ held) (hk : 2 ^ k ∣ t.sizeofSlot) : 2 ^ k ∣ p := by
  have hmem : p ∈ held ++ free := List.mem_append_left _ hp
  obtain ⟨region, hregion, hlo, hhi⟩ := hsound.slots.inside p hmem
  have hend := hsound.blocks.end_lt region hregion
  have hpow : 2 ^ k < 2 ^ 64 := by
    have := Nat.le_of_dvd t.sizeofSlot_pos hk
    omega
  exact hsound.slots.aligned p hmem _ hk
    (Nat.pow_dvd_pow 2 ((Nat.pow_lt_pow_iff_right (by norm_num)).mp hpow).le)

theorem exists_step (hsound : Sound t s.store s.held free) (hallowed : Allowed t s a)
    (hfits : 2 * t.sizeofSlot ≤ t.blockSize) : ∃ s', (system t).step s a = some s' := by
  simp only [system, if_pos hallowed]
  rcases call_moves hsound hallowed hfits with ⟨events, w', hreturns, -⟩ | hthrows
  · rw [show (call t a).run.run s.store = some (.ok events, w'.store) from hreturns]
    exact ⟨_, rfl⟩
  · rw [show (call t a).run.run s.store = some (.error .badAlloc, s.store) from hthrows]
    exact ⟨_, rfl⟩

/-- In every reachable state the slots that callers hold do not overlap, each lies in a
block behind the word that links it, at a multiple of every power of two that divides
the size of a slot, and no allowed call goes wrong. -/
theorem held_slots_usable (hfits : 2 * t.sizeofSlot ≤ t.blockSize) (hreach : (system t).Reachable s) :
    (s.held.Pairwise fun p q => Apart p t.sizeofSlot q t.sizeofSlot) ∧
    (∀ p ∈ s.held,
      (∃ region ∈ s.store.heap.regions,
        region.start + 8 ≤ p ∧ p + t.sizeofSlot ≤ region.start + region.size) ∧
      ∀ k, 2 ^ k ∣ t.sizeofSlot → 2 ^ k ∣ p) ∧
    ∀ a, Allowed t s a → ∃ s', (system t).step s a = some s' := by
  obtain ⟨free, hsound⟩ := exists_sound hfits hreach
  exact ⟨(List.pairwise_append.mp hsound.slots.apart).1,
    fun p hp => ⟨inside_of_reachable hfits hreach hp, fun k hk => hsound.two_pow_dvd hp hk⟩,
    fun a hallowed => exists_step hsound hallowed hfits⟩

theorem held_slots_usable_smallBlocks :
    ((firstRun smallBlocks).held.Pairwise fun p q =>
      Apart p smallBlocks.sizeofSlot q smallBlocks.sizeofSlot) ∧
    ∀ p ∈ (firstRun smallBlocks).held, 2 ^ 3 ∣ p := by
  have husable := held_slots_usable (t := smallBlocks) (by decide) run_smallBlocks.reachable
  exact ⟨husable.1, fun p hp => (husable.2.1 p hp).2 3 (by decide)⟩

/-- What callers wrote last into the objects they hold is what memory has there, in
every run. -/
theorem held_objects_kept (hfits : 2 * t.sizeofSlot ≤ t.blockSize)
    {visited : List (State × Action)} (hrun : (system t).Run visited s) {p i : ℕ} {byte : Byte}
    (hknown : (TransitionSystem.history (told t) visited).foldl remember (fun _ _ => none) p i =
      some byte) :
    p ∈ s.held ∧ i < t.sizeofSlot ∧ s.store.heap.bytes (p + i) = byte := by
  obtain ⟨-, -, hremembers⟩ : ∃ free, Sound t s.store s.held free ∧ Remembers t s.store s.held
      ((TransitionSystem.history (told t) visited).foldl remember fun _ _ => none) := by
    refine hrun.history_invariant (R := fun events s => ∃ free, Sound t s.store s.held free ∧
      Remembers t s.store s.held (events.foldl remember fun _ _ => none)) ?_ ?_
    · exact fun s hinitial => ⟨[], sound_initial hinitial, fun p i byte h => by cases h⟩
    rintro events s a s' ⟨free, hsound, hremembers⟩ hstep
    rw [List.foldl_append]
    rcases step_cases hsound hstep hfits with ⟨w', rfl, hmoves, -⟩ | ⟨rfl, htold⟩
    · exact ⟨w'.free, hsound.moves hmoves hfits, hremembers.moves hsound hmoves hfits⟩
    · rw [htold]
      exact ⟨free, hsound, hremembers⟩
  exact hremembers p i byte hknown

/-- The first object of a pool. -/
def firstObject : Action := .newElement (some 64) [7, 9]

theorem exists_firstObject : ∃ s, (system smallBlocks).step atFirst firstObject = some s :=
  Option.isSome_iff_exists.mp (by decide +kernel)

theorem held_objects_kept_firstObject : ∃ s, (system smallBlocks).step atFirst firstObject = some s ∧
    s.store.heap.bytes (firstSlot smallBlocks 64 + 1) = 9 := by
  obtain ⟨s, hstep⟩ := exists_firstObject
  have hinitial : (system smallBlocks).initial atFirst := ⟨rfl, rfl, rfl⟩
  refine ⟨s, hstep, (held_objects_kept (by decide) (.step (.initial hinitial) hstep) ?_).2.2⟩
  decide +kernel

/-! ## Memory use -/

theorem counted_initial (hinitial : (system t).initial s) : Counted t s.store s.held.length := by
  obtain ⟨hpool, hregions, hheld⟩ := hinitial
  have hnone : remaining t s.store.pool = 0 := remaining_of_full (by rw [hpool]; exact le_rfl)
  exact ⟨by simp [hregions], by simp [hregions, hheld, hnone], .inl hregions⟩

theorem Counted.moves {w w' : World} {events : List Event} (hcounted : Counted t w.store w.carved)
    (hmoves : Moves t w events w') (hfits : 2 * t.sizeofSlot ≤ t.blockSize) :
    Counted t w'.store w'.carved := by
  induction hmoves with
  | nil => exact hcounted
  | cons hmove _ ih => exact ih (hcounted.move hmove hfits)

/-- The slots that were cut off have all been held at one time. -/
theorem exists_counted (hfits : 2 * t.sizeofSlot ≤ t.blockSize) {visited : List (State × Action)}
    (hrun : (system t).Run visited s) :
    ∃ free, Sound t s.store s.held free ∧ Counted t s.store (s.held.length + free.length) ∧
      ∃ peak ∈ visited.map Prod.fst ++ [s], s.held.length + free.length ≤ peak.held.length := by
  induction hrun with
  | @initial s hinitial => exact ⟨[], sound_initial hinitial, counted_initial hinitial, s, by simp, le_rfl⟩
  | @step visited s s' a hrun hstep ih =>
      obtain ⟨free, hsound, hcounted, peak, hpeak, hle⟩ := ih
      have hpeak' : peak ∈ (visited ++ [(s, a)]).map Prod.fst := by simpa using hpeak
      rcases step_cases hsound hstep hfits with ⟨w', rfl, hmoves, hcarved⟩ | ⟨rfl, -⟩
      · refine ⟨w'.free, hsound.moves hmoves hfits, hcounted.moves hmoves hfits, ?_⟩
        rcases hcarved with hsame | hnone
        · exact ⟨peak, List.mem_append_left _ hpeak', hsame.trans_le hle⟩
        · exact ⟨⟨w'.store, w'.held⟩, by simp, by simp [hnone]⟩
      · exact ⟨free, hsound, hcounted, peak, List.mem_append_left _ hpeak', hle⟩

/-- The pool asks for another block only when the callers hold more slots at once than
the blocks it has can be relied on to give: memory grows with the peak of use, however
slots are allocated and given back. -/
theorem blocks_needed (hfits : 2 * t.sizeofSlot ≤ t.blockSize) {visited : List (State × Action)}
    (hrun : (system t).Run visited s) :
    s.store.heap.regions = [] ∨ ∃ peak ∈ visited.map Prod.fst ++ [s],
      (s.store.heap.regions.length - 1) * (t.blockSize / t.sizeofSlot - 1) < peak.held.length := by
  obtain ⟨free, -, hcounted, peak, hpeak, hle⟩ := exists_counted hfits hrun
  exact hcounted.needed.imp_right fun hlt => ⟨peak, hpeak, hlt.trans_le hle⟩

theorem blocks_needed_smallBlocks : (firstRun smallBlocks).store.heap.regions = [] ∨
    ∃ peak ∈ [atFirst, firstRun smallBlocks],
      ((firstRun smallBlocks).store.heap.regions.length - 1) * (48 / 24 - 1) < peak.held.length :=
  blocks_needed (t := smallBlocks) (by decide) run_smallBlocks

/-- There is no room for more than `-1 / BlockSize` blocks in the address space. -/
theorem regions_le_maxBlocks {store : Store} {held : List ℕ} (hsound : Sound t store held free)
    (hpos : 0 < t.blockSize) : store.heap.regions.length ≤ maxBlocks t := by
  have hpairs : (store.heap.regions.map Region.start).Pairwise
      fun p q => Apart p t.blockSize q t.blockSize := List.pairwise_map.mpr hsound.blocks.apart
  have hlength := length_mul_le_of_apart (a := 1) (b := 2 ^ 64) hpairs (by
    intro p hp
    obtain ⟨region, hmem, rfl⟩ := List.mem_map.mp hp
    have := hsound.blocks.start_pos region hmem
    have := hsound.blocks.end_lt region hmem
    omega)
  rw [List.length_map] at hlength
  exact (Nat.le_div_iff_mul_le hpos).mpr hlength

/-- The product that `max_size` computes does not overflow. -/
theorem maxSize_eq (hword : 8 ≤ t.blockSize) (hsize : t.blockSize < 2 ^ 64) :
    maxSize t = most t * maxBlocks t := by
  have hbody : toSize ((t.blockSize : ℤ) - sizeofPointer) = t.blockSize - sizeofPointer := by
    rw [sizeofPointer, ← Nat.cast_sub hword, toSize_natCast (by omega)]
  have hmost : most t ≤ t.blockSize := (Nat.div_le_self _ _).trans (Nat.sub_le _ _)
  have hproduct : most t * maxBlocks t < 2 ^ 64 :=
    calc most t * maxBlocks t ≤ t.blockSize * ((2 ^ 64 - 1) / t.blockSize) :=
          Nat.mul_le_mul_right _ hmost
      _ ≤ 2 ^ 64 - 1 := Nat.mul_div_le _ _
      _ < 2 ^ 64 := by norm_num
  rw [maxSize, hbody]
  exact toSize_natCast hproduct

/-- `max_size()` is a bound on the objects that callers can hold at one time. -/
theorem held_le_maxSize (hfits : 2 * t.sizeofSlot ≤ t.blockSize) {visited : List (State × Action)}
    (hrun : (system t).Run visited s) : s.held.length ≤ maxSize t := by
  have hword := t.word_le
  obtain ⟨free, hsound, hcounted, -⟩ := exists_counted hfits hrun
  have hheld : s.held.length ≤ s.store.heap.regions.length * most t :=
    (Nat.le_add_right _ _).trans ((Nat.le_add_right _ _).trans hcounted.most)
  rcases hregions : s.store.heap.regions with _ | ⟨region, older⟩
  · rw [hregions, List.length_nil, zero_mul] at hheld
    exact hheld.trans (Nat.zero_le _)
  · have hend := hsound.blocks.end_lt region (by simp [hregions])
    rw [maxSize_eq (by omega) (by omega), mul_comm]
    exact hheld.trans (Nat.mul_le_mul_right _ (regions_le_maxBlocks hsound (by omega)))

theorem held_le_maxSize_smallBlocks : (firstRun smallBlocks).held.length ≤ maxSize smallBlocks :=
  held_le_maxSize (by decide) run_smallBlocks

/-! ## The end of the pool -/

/-- The loop of the destructor frees the blocks from the newest on. -/
theorem returns_loop_deleteBlock {bytes : ℕ → Byte} {pool : MemoryPool} {curr fuel : ℕ}
    (regions : List Region) (hlinked : Chain (wordAt bytes) curr (regions.map Region.start))
    (hword : ∀ region ∈ regions, 8 ≤ region.size) (hfuel : regions.length < fuel) :
    Returns (loop deleteBlock fuel curr) ⟨⟨bytes, regions⟩, pool⟩ 0 ⟨⟨bytes, []⟩, pool⟩ := by
  obtain ⟨fuel, rfl⟩ : ∃ rest, fuel = rest + 1 := ⟨fuel - 1, by omega⟩
  induction regions generalizing curr fuel with
  | nil =>
      obtain rfl : curr = 0 := hlinked
      exact Returns.loop_exit (returns_pure none _)
  | cons region older ih =>
      obtain ⟨rfl, hne, hlinked⟩ := hlinked
      rw [List.length_cons] at hfuel
      obtain ⟨fuel, rfl⟩ : ∃ rest, fuel = rest + 1 := ⟨fuel - 1, by omega⟩
      have hbacked : ByteHeap.Backed ⟨bytes, region :: older⟩ region.start 8 :=
        ⟨region, by simp, le_rfl, Nat.add_le_add_left (hword region (by simp)) _⟩
      have hrelease : ByteHeap.release ⟨bytes, region :: older⟩ region.start = some ⟨bytes, older⟩ := by
        simp [ByteHeap.release]
      have hbody : Returns (deleteBlock region.start) ⟨⟨bytes, region :: older⟩, pool⟩
          (some (wordAt bytes region.start)) ⟨⟨bytes, older⟩, pool⟩ := by
        rw [deleteBlock, if_pos hne]
        have hdelete : Returns (operatorDelete region.start) ⟨⟨bytes, region :: older⟩, pool⟩ ()
            ⟨⟨bytes, older⟩, pool⟩ := (returns_get _).bind ((returns_defined hrelease _).bind rfl)
        exact (returns_load hbacked).bind (hdelete.bind (returns_pure _ _))
      exact hbody.loop_next
        (ih hlinked (fun other hother => hword other (by simp [hother])) fuel (by omega))

theorem Sound.exists_destruct {store : Store} {held : List ℕ} (hsound : Sound t store held free)
    (hfits : 2 * t.sizeofSlot ≤ t.blockSize) {fuel : ℕ} (hfuel : store.heap.regions.length < fuel) :
    ∃ after, Returns (destruct fuel) store () after ∧ after.heap.regions = [] := by
  have hword := t.word_le
  have hloop : Returns (loop deleteBlock fuel store.pool.currentBlock) store 0
      ⟨⟨store.heap.bytes, []⟩, store.pool⟩ :=
    returns_loop_deleteBlock store.heap.regions hsound.blocks.linked
      (fun region hmem => by rw [hsound.blocks.size region hmem]; omega) hfuel
  exact ⟨_, (returns_self _).bind (hloop.bind (returns_pure _ _)), rfl⟩

/-- The destructor of a pool gives every block back to the operating system, each one
once, whatever callers wrote into their objects. -/
theorem destruct_frees_blocks (hfits : 2 * t.sizeofSlot ≤ t.blockSize)
    (hreach : (system t).Reachable s) :
    ∃ after, Returns (destruct (s.store.heap.regions.length + 1)) s.store () after ∧
      after.heap.regions = [] := by
  obtain ⟨free, hsound⟩ := exists_sound hfits hreach
  exact hsound.exists_destruct hfits (Nat.lt_succ_self _)

theorem destruct_frees_smallBlocks :
    ∃ after, Returns (destruct ((firstRun smallBlocks).store.heap.regions.length + 1))
      (firstRun smallBlocks).store () after ∧ after.heap.regions = [] :=
  destruct_frees_blocks (by decide) run_smallBlocks.reachable

/-! ## The assertion that is commented out -/

/-- The block size that the commented assertion asks for is the least one for which no
slot reaches over the end of its block. -/
theorem slots_inside_iff (hword : 8 ≤ t.blockSize) (hsize : t.sizeofSlot ≤ 2 ^ 61) :
    (∀ s, (system t).Reachable s → ∀ p ∈ s.held, ∃ region ∈ s.store.heap.regions,
      region.start ≤ p ∧ p + t.sizeofSlot ≤ region.start + region.size) ↔
    2 * t.sizeofSlot ≤ t.blockSize := by
  constructor
  · intro hinside
    by_contra hsmall
    obtain ⟨region, hmem, -, hend⟩ := hinside _ (run_firstRun hword hsize (by omega)).reachable
      (firstSlot t (worstStart t)) (by simp [firstRun])
    obtain rfl : region = ⟨worstStart t, t.blockSize⟩ := by simpa [firstRun, grown] using hmem
    rw [firstSlot_worstStart hsize] at hend
    dsimp only at hend
    omega
  · intro hfits s hreach p hp
    obtain ⟨region, hmem, hlo, hhi⟩ := inside_of_reachable hfits hreach hp
    exact ⟨region, hmem, by omega, hhi⟩

theorem slots_inside_smallBlocks :
    (∀ s, (system smallBlocks).Reachable s → ∀ p ∈ s.held, ∃ region ∈ s.store.heap.regions,
      region.start ≤ p ∧ p + smallBlocks.sizeofSlot ≤ region.start + region.size) ↔
    2 * smallBlocks.sizeofSlot ≤ smallBlocks.blockSize := slots_inside_iff (by decide) (by decide)

end MemoryPool

end CppProjects
