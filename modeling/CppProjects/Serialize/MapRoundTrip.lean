import CppProjects.Serialize.Containers
import CppProjects.Serialize.Stored

/-!
# Reading a map back

`write` counts the entries of a map and writes two records for each; the loop of
`read` goes on by two for each entry, so it stops after half of them.
-/

namespace CppProjects

open LittleEndian CInt DataStream

namespace DataStream

variable {α β : Type}

theorem length_assignKey_le (lt : α → α → Bool) (key : α) (val : β) (entries : List (α × β)) :
    (assignKey lt key val entries).length ≤ entries.length + 1 := by
  induction entries with
  | nil => rfl
  | cons head tail ih =>
      rw [assignKey]
      split_ifs
      · rfl
      · exact Nat.succ_le_succ ih
      · exact Nat.le_succ _

/-- The loop stores one entry a round at most. -/
theorem length_readElements_le {σ : Type} (size : σ → ℕ) (readOne : ReadM α) (store : σ → α → σ)
    (hstore : ∀ acc elem, size (store acc elem) ≤ size acc + 1) (rounds : ℕ) (acc : σ)
    (state : ReadState) : size (readElements readOne store rounds acc state).1 ≤ size acc + rounds := by
  induction rounds generalizing acc state with
  | zero => rfl
  | succ rounds ih =>
      change size (readElements readOne store rounds (store acc (readOne state).1) (readOne state).2).1 ≤ _
      have hrest := ih (store acc (readOne state).1) (readOne state).2
      have hone := hstore acc (readOne state).1
      omega

end DataStream

namespace Ty

variable {env : Env} {key val : Ty}

/-- What `write` stores of an entry. -/
def storedEntry (key val : Ty) (entry : key.Value × val.Value) : key.Value × val.Value :=
  (key.stored entry.1, val.stored entry.2)

def encodeEntry (key val : Ty) (entry : key.Value × val.Value) : List Byte :=
  key.encode entry.1 ++ val.encode entry.2

/-- What `write` makes of a map of scalars and strings. -/
def mapBytes (key val : Ty) (entries : List (key.Value × val.Value)) : List Byte :=
  DataType.map.code :: (encodeLen entries ++
    entries.flatMap fun entry => encodeEntry key val (storedEntry key val entry))

theorem mBuf_of_write_map (hkey : key.isFlat) (hval : val.isFlat)
    {entries : List (key.Value × val.Value)} {stream : DataStream}
    (hwrite : (map key val).write entries fresh = some stream) :
    stream.mBuf = mapBytes key val entries ∧ stream.mPos = 0 := by
  have hleaves : Leaves ((map key val).write entries) (mapBytes key val entries) :=
    leaves_writeSequence .map entries fun entry _ =>
      (key.leaves_write_flat hkey entry.1).bind (val.leaves_write_flat hval entry.2)
  exact hleaves fresh stream hwrite

/-- A round of the loop of `read`. -/
def readEntry (env : Env) (key val : Ty) : ReadM (key.Value × val.Value) := do
  let key ← readNew (key.declare env) (key.read env)
  let val ← readNew (val.declare env) (val.read env)
  return (key, val)

theorem consumes_readEntry (hkey : key.isFlat) (hval : val.isFlat)
    (entry : key.Value × val.Value) :
    Consumes (readEntry env key val) (encodeEntry key val (storedEntry key val entry)) 0
      (storedEntry key val entry) := by
  have hfirst := key.consumes_readNew env fun old =>
    key.consumes_short env hkey old (key.stored entry.1) (key.short_stored entry.1)
  have hsecond := val.consumes_readNew env fun old =>
    val.consumes_short env hval old (val.stored entry.2) (val.short_stored entry.2)
  exact hfirst.bind (hsecond.map fun val => (key.stored entry.1, val))

/-- The entries of a map of one entry at most are read as they were stored. -/
theorem read_map_of_length_le (hkey : key.isFlat) (hval : val.isFlat)
    (entries old : List (key.Value × val.Value)) (hlength : entries.length ≤ 1) (stream : DataStream)
    (hbuf : stream.mBuf = mapBytes key val entries) (hpos : stream.mPos = 0) :
    ((map key val).read env old stream.reader).1 =
      (true, entries.map (storedEntry key val)) := by
  have hlen : (intSize entries).toInt = entries.length := toInt_intSize entries (by omega)
  have hrounds : ((intSize entries).toInt.toNat + 1) / 2 = (entries.map (storedEntry key val)).length := by
    rw [List.length_map]
    omega
  have hstored : (entries.map (storedEntry key val)).foldl
      (fun value entry => assignKey key.lt entry.1 entry.2 value) [] =
      entries.map (storedEntry key val) := by
    rcases entries with _ | ⟨entry, _ | ⟨next, rest⟩⟩
    · rfl
    · rfl
    · simp at hlength
  have hone : ∀ entry ∈ entries.map (storedEntry key val),
      Consumes (readEntry env key val) (encodeEntry key val entry) 0 entry := by
    intro entry hmem
    obtain ⟨written, -, rfl⟩ := List.mem_map.mp hmem
    exact consumes_readEntry hkey hval written
  have helems := @consumes_readElements _ _ (readEntry env key val) (encodeEntry key val) (fun _ => 0)
    (fun value entry => assignKey key.lt entry.1 entry.2 value)
    (entries.map (storedEntry key val)) (fun entry hmem => hone entry (List.mem_of_mem_dropLast hmem))
    (fun entry hmem => hone entry (List.mem_of_getLast? hmem)) []
  rw [hstored, List.flatMap_map, ← hrounds] at helems
  have hread : Consumes ((map key val).read env old) (mapBytes key val entries)
      (((entries.map (storedEntry key val)).getLast?.map fun _ => 0).getD 0 + entries.length)
      (true, entries.map (storedEntry key val)) := by
    apply consumes_tagged env .map (false, [])
    apply (consumes_readLen env entries).bind
    have hend := helems.map_advance entries.length fun value => (true, value)
    rw [← hlen] at hend
    exact hend
  obtain ⟨state, hrun, -, -⟩ := hread [] [] stream.reader (by simpa [reader] using hbuf)
    (by simpa [reader] using hpos)
  rw [hrun]
  rfl

/-- From a map of several entries half of them are missing. -/
theorem length_read_map_lt (entries old : List (key.Value × val.Value)) (hlength : 1 < entries.length)
    (stream : DataStream) (hbuf : stream.mBuf = mapBytes key val entries) (hpos : stream.mPos = 0) :
    (((map key val).read env old stream.reader).1.2 : List (key.Value × val.Value)).length <
      entries.length := by
  have hload : (load env 1 stream.reader) = ([DataType.map.code], stream.reader) :=
    load_inside env [] [DataType.map.code] (encodeLen entries ++ _) stream.reader hbuf hpos
  obtain ⟨counted, hcounted, -, -⟩ := consumes_readLen env entries [DataType.map.code] _
    { stream.reader with stream.mPos := stream.mPos + 1 } hbuf (by simp [hpos])
  let rounds := ((intSize entries).toInt.toNat + 1) / 2
  have hrounds : rounds < entries.length := by
    have hint := toInt_intSize_le entries
    omega
  have hread : ((map key val).read env old stream.reader).1.2 = (readElements (readEntry env key val) (fun value entry => assignKey key.lt entry.1 entry.2 value) rounds []
        counted).1 := by
    change (readMap env _ key.lt _ stream.reader).1.2 = _
    rw [readMap, tagged_of_eq env _ (by rw [hload]), hload]
    let counting : ReadState := { stream.reader with stream.mPos := stream.mPos + 1 }
    change (readElements _ _ (((readLen env counting).1.toInt.toNat + 1) / 2) []
      (readLen env counting).2).1 = _
    rw [hcounted]
    rfl
  have hbound := length_readElements_le List.length (readEntry env key val)
    (fun value entry => assignKey key.lt entry.1 entry.2 value)
    (fun acc entry => length_assignKey_le key.lt entry.1 entry.2 acc) rounds [] counted
  rw [List.length_nil, Nat.zero_add] at hbound
  change List.length ((map key val).read env old stream.reader).1.2 < _
  rw [hread]
  exact hbound.trans_lt hrounds

end Ty

/-- A map of scalars and strings is read back as it was written exactly if it has no
more than one entry, with strings shorter than `2^31`. -/
theorem map_round_trip_iff (env : Env) (key val : Ty) (hkey : key.isFlat) (hval : val.isFlat)
    (entries old : List (key.Value × val.Value)) (stream : DataStream)
    (hwrite : (Ty.map key val).write entries fresh = some stream) :
    ((Ty.map key val).read env old stream.reader).1 = (true, entries) ↔
      entries.length ≤ 1 ∧ ∀ entry ∈ entries, key.Short entry.1 ∧ val.Short entry.2 := by
  obtain ⟨hbuf, hpos⟩ := Ty.mBuf_of_write_map hkey hval hwrite
  by_cases hlength : entries.length ≤ 1
  · have hpair : ((true, entries.map (Ty.storedEntry key val)) : Bool × List _) = (true, entries) ↔
        ∀ entry ∈ entries, Ty.storedEntry key val entry = entry := by
      have hsame := List.map_inj_left (f := Ty.storedEntry key val) (g := id) (l := entries)
      rw [List.map_id] at hsame
      rw [Prod.mk.injEq, and_iff_right rfl, hsame]
      rfl
    rw [Ty.read_map_of_length_le hkey hval entries old hlength stream hbuf hpos, and_iff_right hlength]
    refine hpair.trans (forall₂_congr fun entry _ => ?_)
    rw [Ty.storedEntry, Prod.ext_iff, Ty.stored_eq_iff, Ty.stored_eq_iff]
  · refine iff_of_false (fun hread => ?_) fun hboth => hlength hboth.1
    have hlost := @Ty.length_read_map_lt env key val entries old (not_le.mp hlength) stream hbuf hpos
    have hsame : ((Ty.map key val).read env old stream.reader).1.2 = entries := congrArg Prod.snd hread
    rw [hsame] at hlost
    exact absurd hlost (lt_irrefl _)

/-- A map of one number to a string. -/
theorem map_round_trip_iff_single :
    ((Ty.map .int32 .string).read ⟨fun _ => 0, fun _ => 0⟩ []
      (DataStream.reader ⟨[11, 3, 1, 0, 0, 0, 3, 5, 0, 0, 0, 7, 3, 1, 0, 0, 0, 0x61], 32, 0⟩)).1 =
      (true, ([(5, [0x61])] : List (Word 4 × List Byte))) := by
  refine (map_round_trip_iff _ .int32 .string rfl rfl ([(5, [0x61])] : List (Word 4 × List Byte)) []
    _ (by decide +kernel)).mpr ⟨le_rfl, ?_⟩
  intro entry hmem
  obtain rfl := List.mem_singleton.mp hmem
  exact ⟨trivial, by decide⟩

/-- A map of two numbers: one entry is read. -/
theorem map_loses_entry :
    (Ty.map .int32 .int32).write ([(1, 2), (3, 4)] : List (Word 4 × Word 4)) fresh =
      some ⟨[11, 3, 2, 0, 0, 0, 3, 1, 0, 0, 0, 3, 2, 0, 0, 0, 3, 3, 0, 0, 0, 3, 4, 0, 0, 0], 32, 0⟩ ∧
    ((Ty.map .int32 .int32).read ⟨fun _ => 0, fun _ => 0⟩ [] (DataStream.reader
      ⟨[11, 3, 2, 0, 0, 0, 3, 1, 0, 0, 0, 3, 2, 0, 0, 0, 3, 3, 0, 0, 0, 3, 4, 0, 0, 0], 32, 0⟩)).1 =
      (true, ([(1, 2)] : List (Word 4 × Word 4))) ∧
    (Ty.map .int32 .int32).Valid ([(1, 2), (3, 4)] : List (Word 4 × Word 4)) ∧
    ([(1, 2)] : List (Word 4 × Word 4)) ≠ [(1, 2), (3, 4)] := by
  refine ⟨by decide +kernel, ?_, ⟨?_, fun _ _ => ⟨trivial, trivial⟩⟩, by decide⟩
  · apply @of_decide_eq_true _
      (@instDecidableEqProd Bool (Ty.map .int32 .int32).Value inferInstance inferInstance _ _)
    decide +kernel
  · exact List.pairwise_pair.mpr (by decide)

end CppProjects
