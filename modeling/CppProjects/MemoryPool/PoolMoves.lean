import CppProjects.MemoryPool.MemoryPool

/-!
# What can happen to a pool

Callers hold some slots, and the others that were ever handed out are on the free
list.  A move is one thing that an operation does.  Slots never overlap, lie inside
blocks behind the word that links them, and are aligned; a move keeps this and the
bytes of the objects it does not write.
-/

namespace CppProjects

namespace MemoryPool

open LittleEndian ByteHeap

/-- A pool with the slots its callers hold and the slots on its free list. -/
structure World where
  store : Store
  held : List ℕ
  free : List ℕ

/-- What callers see of an operation. -/
inductive Event
  | handedOut (p : ℕ)
  | wrote (p offset : ℕ) (data : List Byte)
  | released (p : ℕ)
deriving DecidableEq, Repr

/-- The slots held after an event. -/
def hold (held : List ℕ) : Event → List ℕ
  | .handedOut p => p :: held
  | .wrote .. => held
  | .released p => held.erase p

/-- What may be known of the bytes of the objects, by slot and offset. -/
abbrev Known := ℕ → ℕ → Option Byte

/-- What was written last into an object is known of it. -/
def remember (known : Known) : Event → Known
  | .handedOut p => Function.update known p fun _ => none
  | .wrote p offset data => Function.update known p fun i =>
      if offset ≤ i then data[i - offset]?.or (known p i) else known p i
  | .released p => Function.update known p fun _ => none

/-- An address that `operator new(BlockSize)` may return: a range that is not in use,
aligned for a pointer. -/
def Answer (t : PoolType) (heap : ByteHeap) (start : ℕ) : Prop :=
  0 < start ∧ start + t.blockSize < 2 ^ 64 ∧ 8 ∣ start ∧
    ∀ region ∈ heap.regions, Apart start t.blockSize region.start region.size

instance (t : PoolType) (heap : ByteHeap) (start : ℕ) : Decidable (Answer t heap start) :=
  inferInstanceAs (Decidable (_ ∧ _ ∧ _ ∧ _))

/-- `data` written at `q`. -/
def Store.patch (s : Store) (q : ℕ) (data : List Byte) : Store :=
  { s with heap := { s.heap with bytes := ByteHeap.patch s.heap.bytes q data } }

inductive Move (t : PoolType) : World → List Event → World → Prop
  | reuse {s : Store} {held free : List ℕ} {p : ℕ} :
      Move t ⟨s, held, p :: free⟩ [.handedOut p]
        ⟨{ s with pool := { s.pool with freeSlots := wordAt s.heap.bytes p } }, p :: held, free⟩
  | carve {s : Store} {held : List ℕ} (hroom : s.pool.currentSlot < s.pool.lastSlot) :
      Move t ⟨s, held, []⟩ [.handedOut s.pool.currentSlot]
        ⟨{ s with pool := { s.pool with currentSlot := s.pool.currentSlot + t.sizeofSlot } },
          s.pool.currentSlot :: held, []⟩
  | grow {s : Store} {held : List ℕ} {start : ℕ} (hfull : s.pool.lastSlot ≤ s.pool.currentSlot)
      (hanswer : Answer t s.heap start) :
      Move t ⟨s, held, []⟩ [.handedOut (firstSlot t start)]
        ⟨grown t s start, firstSlot t start :: held, []⟩
  | write {s : Store} {held free : List ℕ} {p offset : ℕ} {data : List Byte} (hp : p ∈ held)
      (hfits : offset + data.length ≤ t.sizeofSlot) :
      Move t ⟨s, held, free⟩ [.wrote p offset data] ⟨s.patch (p + offset) data, held, free⟩
  | release {s : Store} {held free : List ℕ} {p : ℕ} (hp : p ∈ held) :
      Move t ⟨s, held, free⟩ [.released p]
        ⟨{ s.patch p (toBytes 8 s.pool.freeSlots) with pool := { s.pool with freeSlots := p } },
          held.erase p, p :: free⟩
  | elsewhere {s : Store} {held free : List ℕ} {q : ℕ} {data : List Byte}
      (hapart : ∀ region ∈ s.heap.regions, Apart q data.length region.start region.size) :
      Move t ⟨s, held, free⟩ [] ⟨s.patch q data, held, free⟩

/-- Moves one after another. -/
inductive Moves (t : PoolType) : World → List Event → World → Prop
  | nil {w : World} : Moves t w [] w
  | cons {w w' w'' : World} {events events' : List Event} (hmove : Move t w events w')
      (hmoves : Moves t w' events' w'') : Moves t w (events ++ events') w''

/-! ## Slots and blocks -/

/-- The blocks come from `operator new` and are linked by their first words. -/
structure Blocks (t : PoolType) (heap : ByteHeap) (currentBlock : ℕ) : Prop where
  size : ∀ region ∈ heap.regions, region.size = t.blockSize
  start_pos : ∀ region ∈ heap.regions, 0 < region.start
  end_lt : ∀ region ∈ heap.regions, region.start + t.blockSize < 2 ^ 64
  apart : heap.regions.Pairwise fun r r' => Apart r.start t.blockSize r'.start t.blockSize
  linked : Chain (wordAt heap.bytes) currentBlock (heap.regions.map Region.start)

/-- A multiple of every power of two that divides the size of a slot. -/
def Aligned (t : PoolType) (p : ℕ) : Prop := ∀ d, d ∣ t.sizeofSlot → d ∣ 2 ^ 64 → d ∣ p

/-- Slots inside the blocks, apart from each other. -/
structure Slots (t : PoolType) (regions : List Region) (slots : List ℕ) : Prop where
  apart : slots.Pairwise fun p q => Apart p t.sizeofSlot q t.sizeofSlot
  inside : ∀ p ∈ slots, ∃ region ∈ regions,
    region.start + 8 ≤ p ∧ p + t.sizeofSlot ≤ region.start + t.blockSize
  aligned : ∀ p ∈ slots, Aligned t p

/-- The rest of the newest block, from `current` to `last`, has not been handed out. -/
structure Room (t : PoolType) (regions : List Region) (current last : ℕ) (slots : List ℕ)
    (start : ℕ) : Prop where
  newest : ⟨start, t.blockSize⟩ ∈ regions
  last_eq : last = start + t.blockSize - t.sizeofSlot + 1
  behind : start + 8 ≤ current
  aligned : Aligned t current
  apart : ∀ p ∈ slots, Apart p t.sizeofSlot current (start + t.blockSize - current)

/-- The pool and the memory, with the slots that are held and those that are free. -/
structure Sound (t : PoolType) (s : Store) (held free : List ℕ) : Prop where
  blocks : Blocks t s.heap s.pool.currentBlock
  slots : Slots t s.heap.regions (held ++ free)
  frees : Chain (wordAt s.heap.bytes) s.pool.freeSlots free
  room : s.pool.currentSlot < s.pool.lastSlot →
    ∃ start, Room t s.heap.regions s.pool.currentSlot s.pool.lastSlot (held ++ free) start

/-- The bytes that are known of an object are there. -/
def Remembers (t : PoolType) (s : Store) (held : List ℕ) (known : Known) : Prop :=
  ∀ p i byte, known p i = some byte → p ∈ held ∧ i < t.sizeofSlot ∧ s.heap.bytes (p + i) = byte

variable {t : PoolType} {w w' : World} {s : Store} {events : List Event} {held free slots : List ℕ}
  {known : Known} {p q : ℕ} {data : List Byte}

theorem Slots.perm {slots' : List ℕ} {regions : List Region} (hslots : Slots t regions slots)
    (hperm : slots'.Perm slots) : Slots t regions slots' where
  apart := (hperm.pairwise_iff fun h => Apart.symm h).mpr hslots.apart
  inside := fun p hp => hslots.inside p (hperm.subset hp)
  aligned := fun p hp => hslots.aligned p (hperm.subset hp)

/-- A slot more, apart from the others. -/
theorem Slots.cons {regions : List Region} (hslots : Slots t regions slots)
    (hapart : ∀ q ∈ slots, Apart p t.sizeofSlot q t.sizeofSlot)
    (hinside : ∃ region ∈ regions,
      region.start + 8 ≤ p ∧ p + t.sizeofSlot ≤ region.start + t.blockSize)
    (haligned : Aligned t p) : Slots t regions (p :: slots) where
  apart := List.pairwise_cons.mpr ⟨hapart, hslots.apart⟩
  inside := by
    intro q hq
    rcases List.mem_cons.mp hq with rfl | hq
    · exact hinside
    · exact hslots.inside q hq
  aligned := by
    intro q hq
    rcases List.mem_cons.mp hq with rfl | hq
    · exact haligned
    · exact hslots.aligned q hq

theorem Slots.more {regions regions' : List Region} (hslots : Slots t regions slots)
    (hsubset : regions ⊆ regions') : Slots t regions' slots where
  apart := hslots.apart
  inside := by
    intro p hp
    obtain ⟨region, hmem, hin⟩ := hslots.inside p hp
    exact ⟨region, hsubset hmem, hin⟩
  aligned := hslots.aligned

theorem Slots.apart_of_ne {regions : List Region} (hslots : Slots t regions slots) (hp : p ∈ slots)
    (hq : q ∈ slots) (hne : p ≠ q) : Apart p t.sizeofSlot q t.sizeofSlot :=
  apart_of_mem (f := id) hslots.apart hp hq hne

theorem Slots.nodup {regions : List Region} (hslots : Slots t regions slots) : slots.Nodup := by
  refine hslots.apart.imp ?_
  rintro p q h rfl
  have := t.sizeofSlot_pos
  rcases h with h | h <;> omega

theorem Room.perm {slots' : List ℕ} {regions : List Region} {current last start : ℕ}
    (hroom : Room t regions current last slots start) (hperm : slots'.Perm slots) :
    Room t regions current last slots' start :=
  { hroom with apart := fun p hp => hroom.apart p (hperm.subset hp) }

theorem Sound.backed (hsound : Sound t s held free) (hp : p ∈ held ++ free) :
    s.heap.Backed p t.sizeofSlot := by
  obtain ⟨region, hmem, hlo, hhi⟩ := hsound.slots.inside p hp
  exact ⟨region, hmem, by omega, by rw [hsound.blocks.size region hmem]; exact hhi⟩

theorem Sound.lt_of_mem (hsound : Sound t s held free) (hp : p ∈ held ++ free) : p < 2 ^ 64 ∧ 0 < p := by
  obtain ⟨region, hmem, hlo, hhi⟩ := hsound.slots.inside p hp
  have hend := hsound.blocks.end_lt region hmem
  have := t.sizeofSlot_pos
  omega

/-- What lies in a slot is apart from the words that link the blocks. -/
theorem Sound.header_apart (hsound : Sound t s held free) (hp : p ∈ held ++ free) {n : ℕ}
    (hq : p ≤ q) (hfits : q + n ≤ p + t.sizeofSlot) :
    ∀ region ∈ s.heap.regions, Apart q n region.start 8 := by
  intro region hmem
  obtain ⟨home, hhome, hlo, hhi⟩ := hsound.slots.inside p hp
  by_cases heq : home = region
  · subst heq
    exact .inr (by omega)
  · have hblock := t.word_le
    have hapart := apart_of_mem hsound.blocks.apart hhome hmem heq
    exact Apart.within hapart ⟨by omega, by omega⟩ ⟨le_rfl, by omega⟩

theorem Sound.patch (hsound : Sound t s held free)
    (hheaders : ∀ region ∈ s.heap.regions, Apart q data.length region.start 8)
    (hfrees : ∀ p ∈ free, Apart q data.length p 8) : Sound t (s.patch q data) held free where
  blocks :=
    { hsound.blocks with
      linked := hsound.blocks.linked.congr fun start hstart => by
        obtain ⟨region, hmem, rfl⟩ := List.mem_map.mp hstart
        exact wordAt_patch_of_apart (hheaders region hmem) }
  slots := hsound.slots
  frees := hsound.frees.congr fun p hp => wordAt_patch_of_apart (hfrees p hp)
  room := hsound.room

theorem Sound.mem_apart (hsound : Sound t s held free) (hp : p ∈ held ++ free) (hq : q ∈ held ++ free)
    (hne : p ≠ q) : Apart p t.sizeofSlot q t.sizeofSlot := hsound.slots.apart_of_ne hp hq hne

/-- The callers hold no slot that is free. -/
theorem Sound.ne_of_held (hsound : Sound t s held free) (hp : p ∈ held) (hq : q ∈ free) : p ≠ q := by
  rintro rfl
  exact List.disjoint_of_nodup_append hsound.slots.nodup hp hq

/-- A write into an object that is held. -/
theorem Sound.write (hsound : Sound t s held free) (hp : p ∈ held) {offset : ℕ}
    (hfits : offset + data.length ≤ t.sizeofSlot) :
    Sound t (s.patch (p + offset) data) held free := by
  have hmem : p ∈ held ++ free := List.mem_append_left _ hp
  refine hsound.patch (hsound.header_apart hmem (by omega) (by omega)) fun q hq => ?_
  have hword := t.word_le
  exact (hsound.mem_apart hmem (List.mem_append_right _ hq) (hsound.ne_of_held hp hq)).within
    ⟨by omega, by omega⟩ ⟨le_rfl, by omega⟩

theorem Sound.release (hsound : Sound t s held free) (hp : p ∈ held) :
    Sound t { s.patch p (toBytes 8 s.pool.freeSlots) with pool := { s.pool with freeSlots := p } }
      (held.erase p) (p :: free) := by
  have hfits : 0 + (toBytes 8 s.pool.freeSlots).length ≤ t.sizeofSlot := by
    rw [length_toBytes, zero_add]
    exact t.word_le
  have hwrite : Sound t (s.patch p (toBytes 8 s.pool.freeSlots)) held free := hsound.write hp hfits
  have hperm : (held.erase p ++ p :: free).Perm (held ++ free) :=
    List.perm_middle.trans ((List.perm_cons_erase hp).symm.append_right free)
  have hnext : s.pool.freeSlots < 2 ^ 64 := by
    rcases hsound.frees.head_mem_or with hnull | hmem
    · exact hnull ▸ by norm_num
    · exact (hsound.lt_of_mem (List.mem_append_right _ hmem)).1
  have hpos := (hsound.lt_of_mem (List.mem_append_left _ hp)).2
  refine ⟨hwrite.blocks, hwrite.slots.perm hperm, ⟨rfl, hpos.ne', ?_⟩, fun hlt => ?_⟩
  · exact (wordAt_patch_self hnext).symm ▸ hwrite.frees
  · obtain ⟨start, hroom⟩ := hwrite.room hlt
    exact ⟨start, hroom.perm hperm⟩

theorem Sound.reuse (hsound : Sound t s held (p :: free)) :
    Sound t { s with pool := { s.pool with freeSlots := wordAt s.heap.bytes p } } (p :: held) free := by
  have hperm : (p :: held ++ free).Perm (held ++ p :: free) := List.perm_middle.symm
  refine ⟨hsound.blocks, hsound.slots.perm hperm, hsound.frees.2.2, fun hlt => ?_⟩
  obtain ⟨start, hroom⟩ := hsound.room hlt
  exact ⟨start, hroom.perm hperm⟩

/-- The slot at `currentSlot` is cut off from the rest of its block. -/
theorem Sound.carve (hsound : Sound t s held []) (hlt : s.pool.currentSlot < s.pool.lastSlot) :
    Sound t { s with pool := { s.pool with currentSlot := s.pool.currentSlot + t.sizeofSlot } }
      (s.pool.currentSlot :: held) [] := by
  obtain ⟨start, hroom⟩ := hsound.room hlt
  have hlast := hroom.last_eq
  have hbehind := hroom.behind
  have hpos := t.sizeofSlot_pos
  have hinside : s.pool.currentSlot + t.sizeofSlot ≤ start + t.blockSize := by omega
  refine ⟨hsound.blocks, ?_, hsound.frees, fun _ => ⟨start, hroom.newest, hlast, ?_, ?_, ?_⟩⟩
  · refine hsound.slots.cons (fun q hq => ?_) ⟨_, hroom.newest, hbehind, hinside⟩
      hroom.aligned
    exact ((hroom.apart q hq).within ⟨le_rfl, le_rfl⟩ ⟨le_rfl, by omega⟩).symm
  · exact hbehind.trans (Nat.le_add_right _ _)
  · exact fun d hd hword => (hroom.aligned d hd hword).add hd
  · intro q hq
    rcases List.mem_cons.mp hq with rfl | hq
    · exact .inl le_rfl
    · exact (hroom.apart q hq).within ⟨le_rfl, le_rfl⟩ ⟨Nat.le_add_right _ _, by dsimp only; omega⟩

/-- A block that does not overlap the others has room for a first slot. -/
theorem Sound.grow (hsound : Sound t s held []) {start : ℕ} (hanswer : Answer t s.heap start)
    (hfits : 2 * t.sizeofSlot ≤ t.blockSize) :
    Sound t (grown t s start) (firstSlot t start :: held) [] := by
  obtain ⟨hpos, hend, haligned, hfresh⟩ := hanswer
  have hfirst := firstSlot_le (t := t) haligned
  have hbehind := le_firstSlot (t := t) start
  have hword := t.word_le
  have hpatch (region : Region) (hmem : region ∈ s.heap.regions) :
      Apart start (toBytes 8 s.pool.currentBlock).length region.start 8 := by
    have hsize := hsound.blocks.size region hmem
    exact (hfresh region hmem).within ⟨le_rfl, by rw [length_toBytes]; omega⟩ ⟨le_rfl, by omega⟩
  have hcurrent : s.pool.currentBlock < 2 ^ 64 := by
    rcases hsound.blocks.linked.head_mem_or with hnull | hmem
    · exact hnull ▸ by norm_num
    · obtain ⟨region, hmem, heq⟩ := List.mem_map.mp hmem
      have := hsound.blocks.end_lt region hmem
      omega
  -- no slot of an older block meets the new one
  have hnew (q : ℕ) (hq : q ∈ held ++ []) {p n : ℕ} (hp : start ≤ p)
      (hn : p + n ≤ start + t.blockSize) : Apart q t.sizeofSlot p n := by
    obtain ⟨region, hmem, hlo, hhi⟩ := hsound.slots.inside q hq
    have hsize := hsound.blocks.size region hmem
    exact ((hfresh region hmem).symm.within ⟨by omega, by omega⟩ ⟨hp, hn⟩)
  refine ⟨⟨?_, ?_, ?_, ?_, ?_⟩, ?_, hsound.frees.congr (by simp),
    fun _ => ⟨start, List.mem_cons_self, rfl, ?_, ?_, ?_⟩⟩
  · exact List.forall_mem_cons.mpr ⟨rfl, hsound.blocks.size⟩
  · exact List.forall_mem_cons.mpr ⟨hpos, hsound.blocks.start_pos⟩
  · exact List.forall_mem_cons.mpr ⟨hend, hsound.blocks.end_lt⟩
  · refine List.pairwise_cons.mpr ⟨fun region hmem => ?_, hsound.blocks.apart⟩
    exact hsound.blocks.size region hmem ▸ hfresh region hmem
  · refine ⟨rfl, hpos.ne', ?_⟩
    have hnext : wordAt (grown t s start).heap.bytes start = s.pool.currentBlock :=
      wordAt_patch_self hcurrent
    rw [hnext]
    refine hsound.blocks.linked.congr fun other hother => ?_
    obtain ⟨region, hmem, rfl⟩ := List.mem_map.mp hother
    exact wordAt_patch_of_apart (hpatch region hmem)
  · refine (hsound.slots.more (List.subset_cons_self _ _)).cons (fun q hq => ?_)
      ⟨_, List.mem_cons_self, hbehind, by dsimp only; omega⟩ fun d hd hd' => dvd_firstSlot hd hd' start
    exact (hnew q hq (by omega) (by omega)).symm
  · exact hbehind.trans (Nat.le_add_right _ _)
  · exact fun d hd hd' => (dvd_firstSlot hd hd' start).add hd
  · intro q hq
    rcases List.mem_cons.mp hq with rfl | hq
    · exact .inl le_rfl
    · refine hnew q hq ?_ ?_
      · exact (by omega : start ≤ firstSlot t start + t.sizeofSlot)
      · have : firstSlot t start + t.sizeofSlot ≤ start + t.blockSize := by omega
        exact (Nat.add_sub_cancel' this).le

theorem Sound.move (hsound : Sound t w.store w.held w.free) (hmove : Move t w events w')
    (hfits : 2 * t.sizeofSlot ≤ t.blockSize) : Sound t w'.store w'.held w'.free := by
  cases hmove with
  | reuse => exact hsound.reuse
  | carve hroom => exact hsound.carve hroom
  | grow _ hanswer => exact hsound.grow hanswer hfits
  | write hp hdata => exact hsound.write hp hdata
  | release hp => exact hsound.release hp
  | @elsewhere s held free q data hapart =>
      have hword := t.word_le
      refine hsound.patch (fun region hmem => ?_) fun p hp => ?_
      · have hsize := hsound.blocks.size region hmem
        exact (hapart region hmem).within ⟨le_rfl, le_rfl⟩ ⟨le_rfl, by omega⟩
      · obtain ⟨region, hmem, hlo, hhi⟩ := hsound.slots.inside p (List.mem_append_right _ hp)
        have hsize := hsound.blocks.size region hmem
        exact (hapart region hmem).within ⟨le_rfl, le_rfl⟩ ⟨by omega, by omega⟩

theorem Sound.moves (hsound : Sound t w.store w.held w.free) (hmoves : Moves t w events w')
    (hfits : 2 * t.sizeofSlot ≤ t.blockSize) : Sound t w'.store w'.held w'.free := by
  induction hmoves with
  | nil => exact hsound
  | cons hmove _ ih => exact ih (hsound.move hmove hfits)

/-! ## Bytes of objects -/

theorem forget_eq_some {i : ℕ} {byte : Byte}
    (h : Function.update known q (fun _ => none) p i = some byte) : p ≠ q ∧ known p i = some byte := by
  by_cases heq : p = q
  · subst heq
    simp at h
  · rw [Function.update_of_ne heq] at h
    exact ⟨heq, h⟩

/-- Nothing is known of a slot that has just been handed out. -/
theorem Remembers.handedOut (hknown : Remembers t s held known) (p : ℕ) :
    Remembers t s (p :: held) (remember known (.handedOut p)) := by
  intro q i byte hbyte
  obtain ⟨-, hbyte⟩ := forget_eq_some hbyte
  obtain ⟨hmem, hrest⟩ := hknown q i byte hbyte
  exact ⟨List.mem_cons_of_mem _ hmem, hrest⟩

/-- A write that is apart from the objects. -/
theorem Remembers.patch (hknown : Remembers t s held known)
    (hapart : ∀ p i byte, known p i = some byte → Apart q data.length p t.sizeofSlot) :
    Remembers t (s.patch q data) held known := by
  intro p i byte hbyte
  obtain ⟨hmem, hi, hvalue⟩ := hknown p i byte hbyte
  refine ⟨hmem, hi, Eq.trans (patch_outside ?_) hvalue⟩
  rcases hapart p i byte hbyte with hbefore | hbehind <;> omega

/-- A write into an object changes what is known of that object only. -/
theorem Remembers.write (hknown : Remembers t s held known) (hsound : Sound t s held free)
    (hp : p ∈ held) {offset : ℕ} (hfits : offset + data.length ≤ t.sizeofSlot) :
    Remembers t (s.patch (p + offset) data) held (remember known (.wrote p offset data)) := by
  intro q i byte hbyte
  by_cases heq : q = p
  · subst heq
    simp only [remember, Function.update_self] at hbyte
    by_cases hoff : offset ≤ i
    · obtain ⟨j, rfl⟩ := Nat.exists_eq_add_of_le hoff
      rw [if_pos hoff, Nat.add_sub_cancel_left] at hbyte
      rcases hdata : data[j]? with _ | written
      · rw [hdata, Option.none_or] at hbyte
        obtain ⟨-, hi, hvalue⟩ := hknown q _ byte hbyte
        rw [List.getElem?_eq_none_iff] at hdata
        exact ⟨hp, hi, Eq.trans (patch_outside (by omega)) hvalue⟩
      · rw [hdata, Option.some_or] at hbyte
        have hj : j < data.length := (List.getElem?_eq_some_iff.mp hdata).1
        refine ⟨hp, by omega, ?_⟩
        rw [← add_assoc]
        exact patch_inside (hdata.trans hbyte)
    · rw [if_neg hoff] at hbyte
      obtain ⟨-, hi, hvalue⟩ := hknown q i byte hbyte
      exact ⟨hp, hi, Eq.trans (patch_outside (by omega)) hvalue⟩
  · rw [remember, Function.update_of_ne heq] at hbyte
    obtain ⟨hmem, hi, hvalue⟩ := hknown q i byte hbyte
    have hapart := hsound.mem_apart (List.mem_append_left _ hp) (List.mem_append_left _ hmem)
      (Ne.symm heq)
    refine ⟨hmem, hi, Eq.trans (patch_outside ?_) hvalue⟩
    rcases hapart with hbefore | hbehind <;> omega

theorem Remembers.move (hknown : Remembers t w.store w.held known)
    (hsound : Sound t w.store w.held w.free) (hmove : Move t w events w') :
    Remembers t w'.store w'.held (events.foldl remember known) := by
  cases hmove with
  | reuse => exact hknown.handedOut _
  | carve => exact hknown.handedOut _
  | @grow s held start _ hanswer =>
      have hword := t.word_le
      refine Remembers.handedOut (s := s.patch start (toBytes 8 s.pool.currentBlock)) ?_ _
      refine hknown.patch fun p i byte hbyte => ?_
      obtain ⟨hmem, -⟩ := hknown p i byte hbyte
      obtain ⟨region, hregion, hlo, hhi⟩ := hsound.slots.inside p (List.mem_append_left _ hmem)
      have hsize := hsound.blocks.size region hregion
      have hfresh := hanswer.2.2.2 region hregion
      by_cases hbig : 8 ≤ t.blockSize
      · exact hfresh.within ⟨le_rfl, by rw [length_toBytes]; omega⟩ ⟨by omega, by omega⟩
      · omega
  | write hp hfits => exact hknown.write hsound hp hfits
  | @release s held free p hp =>
      have hsize : (toBytes 8 s.pool.freeSlots).length ≤ t.sizeofSlot := by
        rw [length_toBytes]
        exact t.word_le
      intro q i byte hbyte
      obtain ⟨hne, hbyte⟩ := forget_eq_some hbyte
      obtain ⟨hmem, hi, hvalue⟩ := hknown q i byte hbyte
      have hapart := hsound.mem_apart (List.mem_append_left _ hp) (List.mem_append_left _ hmem)
        hne.symm
      refine ⟨(List.mem_erase_of_ne hne).mpr hmem, hi, Eq.trans (patch_outside ?_) hvalue⟩
      rcases hapart with hbefore | hbehind <;> omega
  | elsewhere hapart =>
      refine hknown.patch fun p i byte hbyte => ?_
      obtain ⟨hmem, -⟩ := hknown p i byte hbyte
      obtain ⟨region, hregion, hlo, hhi⟩ := hsound.slots.inside p (List.mem_append_left _ hmem)
      have hsize := hsound.blocks.size region hregion
      exact (hapart region hregion).within ⟨le_rfl, le_rfl⟩ ⟨by omega, by omega⟩

theorem Remembers.moves (hknown : Remembers t w.store w.held known)
    (hsound : Sound t w.store w.held w.free) (hmoves : Moves t w events w')
    (hfits : 2 * t.sizeofSlot ≤ t.blockSize) :
    Remembers t w'.store w'.held (events.foldl remember known) := by
  induction hmoves generalizing known with
  | nil => exact hknown
  | cons hmove _ ih =>
      rw [List.foldl_append]
      exact ih (hknown.move hsound hmove) (hsound.move hmove hfits)

/-- The slot that an event is about. -/
def Event.slot : Event → ℕ
  | .handedOut p => p
  | .wrote p _ _ => p
  | .released p => p

theorem foldl_remember_of_ne (hother : ∀ event ∈ events, event.slot ≠ q) :
    events.foldl remember known q = known q := by
  induction events generalizing known with
  | nil => rfl
  | cons event rest ih =>
      rw [List.foldl_cons, ih fun other hmem => hother other (by simp [hmem])]
      have hne : q ≠ event.slot := (hother event (by simp)).symm
      cases event <;> exact Function.update_of_ne hne ..

/-- An object keeps its bytes while moves are about other slots. -/
theorem Moves.bytes_eq (hmoves : Moves t w events w') (hsound : Sound t w.store w.held w.free)
    (hfits : 2 * t.sizeofSlot ≤ t.blockSize) (hq : q ∈ w.held)
    (hother : ∀ event ∈ events, event.slot ≠ q) {i : ℕ} (hi : i < t.sizeofSlot) :
    w'.store.heap.bytes (q + i) = w.store.heap.bytes (q + i) := by
  have hknown : Remembers t w.store w.held fun p i =>
      if p = q ∧ i < t.sizeofSlot then some (w.store.heap.bytes (q + i)) else none := by
    intro p i byte hbyte
    dsimp only at hbyte
    split_ifs at hbyte with hin
    obtain ⟨rfl, hi⟩ := hin
    exact ⟨hq, hi, Option.some.inj hbyte⟩
  refine (hknown.moves hsound hmoves hfits q i _ ?_).2.2
  rw [foldl_remember_of_ne hother, if_pos ⟨rfl, hi⟩]

/-! ## Counting slots and blocks -/

/-- The slots that the newest block still has. -/
def remaining (t : PoolType) (pool : MemoryPool) : ℕ :=
  (pool.lastSlot + t.sizeofSlot - 1 - pool.currentSlot) / t.sizeofSlot

/-- The slots that a block has at least and at most. -/
def fewest (t : PoolType) : ℕ := t.blockSize / t.sizeofSlot - 1

def most (t : PoolType) : ℕ := (t.blockSize - sizeofPointer) / t.sizeofSlot

/-- How many slots were handed out and come back, against the number of blocks. -/
structure Counted (t : PoolType) (s : Store) (carved : ℕ) : Prop where
  least : s.heap.regions.length * fewest t ≤ carved + remaining t s.pool
  most : carved + remaining t s.pool ≤ s.heap.regions.length * most t
  needed : s.heap.regions = [] ∨ (s.heap.regions.length - 1) * fewest t < carved

def World.carved (w : World) : ℕ := w.held.length + w.free.length

theorem remaining_of_full {pool : MemoryPool} (hfull : pool.lastSlot ≤ pool.currentSlot) :
    remaining t pool = 0 := Nat.div_eq_of_lt (by have := t.sizeofSlot_pos; omega)

theorem remaining_carve {pool : MemoryPool} (hroom : pool.currentSlot < pool.lastSlot) :
    remaining t pool =
      remaining t { pool with currentSlot := pool.currentSlot + t.sizeofSlot } + 1 := by
  have hpos := t.sizeofSlot_pos
  rw [remaining, remaining, ← Nat.add_div_right _ hpos]
  congr 1
  dsimp only
  omega

/-- A new block has one slot that is taken at once and the remaining ones. -/
theorem remaining_grown {start : ℕ} (haligned : 8 ∣ start)
    (hfits : 2 * t.sizeofSlot ≤ t.blockSize) :
    fewest t ≤ remaining t (grown t s start).pool + 1 ∧
      remaining t (grown t s start).pool + 1 ≤ most t := by
  have hpos := t.sizeofSlot_pos
  have hfirst := firstSlot_le (t := t) haligned
  have hbehind := le_firstSlot (t := t) start
  have hremaining : remaining t (grown t s start).pool + 1 =
      (start + t.blockSize - firstSlot t start) / t.sizeofSlot := by
    rw [remaining, ← Nat.add_div_right _ hpos]
    congr 1
    dsimp only [grown]
    omega
  rw [hremaining]
  constructor
  · calc fewest t = (t.blockSize - t.sizeofSlot) / t.sizeofSlot := by
          rw [fewest, Nat.div_eq_sub_div hpos (by omega), Nat.add_sub_cancel]
      _ ≤ (start + t.blockSize - firstSlot t start) / t.sizeofSlot :=
          Nat.div_le_div_right (by omega)
  · exact Nat.div_le_div_right (by rw [sizeofPointer]; omega)

/-- An operation that only exchanges slots between the callers and the free list. -/
theorem Counted.of_eq {s' : Store} {carved carved' : ℕ} (hcounted : Counted t s carved)
    (hregions : s'.heap.regions = s.heap.regions)
    (hremaining : remaining t s'.pool = remaining t s.pool) (hcarved : carved' = carved) :
    Counted t s' carved' := by
  subst hcarved
  exact ⟨by rw [hregions, hremaining]; exact hcounted.least,
    by rw [hregions, hremaining]; exact hcounted.most, by rw [hregions]; exact hcounted.needed⟩

theorem Counted.carve {carved : ℕ} (hcounted : Counted t s carved)
    (hroom : s.pool.currentSlot < s.pool.lastSlot) :
    Counted t { s with pool := { s.pool with currentSlot := s.pool.currentSlot + t.sizeofSlot } }
      (carved + 1) := by
  have hremaining := remaining_carve (t := t) hroom
  obtain ⟨hleast, hmost, hneeded⟩ := hcounted
  rw [hremaining] at hleast hmost
  refine ⟨?_, ?_, hneeded.imp_right fun h => h.trans (Nat.lt_succ_self carved)⟩
  · rwa [add_assoc, add_comm 1]
  · rwa [add_assoc, add_comm 1]

theorem Counted.grow {carved start : ℕ} (hcounted : Counted t s carved)
    (hfull : s.pool.lastSlot ≤ s.pool.currentSlot) (haligned : 8 ∣ start)
    (hfits : 2 * t.sizeofSlot ≤ t.blockSize) : Counted t (grown t s start) (carved + 1) := by
  obtain ⟨hleast, hmost, -⟩ := hcounted
  obtain ⟨hlow, hhigh⟩ := remaining_grown (t := t) (s := s) haligned hfits
  have hlength : (grown t s start).heap.regions.length = s.heap.regions.length + 1 := rfl
  rw [remaining_of_full hfull, add_zero] at hleast hmost
  refine ⟨?_, ?_, .inr ?_⟩
  · rw [hlength, Nat.add_mul, one_mul]
    omega
  · rw [hlength, Nat.add_mul, one_mul]
    omega
  · rw [hlength, Nat.add_sub_cancel]
    omega

theorem Counted.move (hcounted : Counted t w.store w.carved) (hmove : Move t w events w')
    (hfits : 2 * t.sizeofSlot ≤ t.blockSize) : Counted t w'.store w'.carved := by
  cases hmove with
  | reuse => exact hcounted.of_eq rfl rfl (by simp only [World.carved, List.length_cons]; omega)
  | carve hroom => exact hcounted.carve hroom
  | grow hfull hanswer => exact hcounted.grow hfull hanswer.2.2.1 hfits
  | write => exact hcounted.of_eq rfl rfl rfl
  | release hp =>
      have hlength := List.length_pos_of_mem hp
      refine hcounted.of_eq rfl rfl ?_
      simp only [World.carved, List.length_cons, List.length_erase_of_mem hp]
      omega
  | elsewhere => exact hcounted.of_eq rfl rfl rfl

/-- A slot more is cut off only when none is free. -/
theorem Move.carved_eq_or (hmove : Move t w events w') : w'.carved = w.carved ∨ w'.free = [] := by
  cases hmove with
  | reuse =>
      left
      simp [World.carved]
      omega
  | carve => exact .inr rfl
  | grow => exact .inr rfl
  | write => exact .inl rfl
  | release hp =>
      left
      have := List.length_pos_of_mem hp
      simp [World.carved, List.length_erase_of_mem hp]
      omega
  | elsewhere => exact .inl rfl

end MemoryPool

end CppProjects
