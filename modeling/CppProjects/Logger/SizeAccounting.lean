import CppProjects.Logger.Logger

/-!
# The size of the current file

`open` takes the size from the file, but `log` adds up less than it inserts: the space
behind the header and the end of the line are not counted.  The count is wrong from the
first record on that is not followed by a rotation in the same call.
-/

namespace CppProjects

namespace Logger

open CInt

variable {localtime : ℤ → Tm}

/-! ## What a record inserts -/

/-- Two bytes of a record are not counted, and what its text has from the first NUL on
is counted but not inserted. -/
theorem length_record {head content : Text} (hhead : cString head = head) (hne : head ≠ [])
    (hfits : head.length ≤ intMax) (hfits' : content.length ≤ intMax) :
    (record head content).length + content.length = counted head content + 2 + (cString content).length := by
  have hpositive : 0 < snprintf head := by
    rw [snprintf, if_pos hfits]
    exact_mod_cast List.length_pos_iff.mpr hne
  have hsize : snprintf content = content.length := if_pos hfits'
  rw [record, counted, if_pos hpositive, if_pos hpositive, hhead, hsize, snprintf, if_pos hfits]
  by_cases hcontent : content = []
  · subst hcontent
    simp [cString]
  · have hlength : 0 < (content.length : ℤ) := by exact_mod_cast List.length_pos_iff.mpr hcontent
    rw [if_pos hlength, if_pos hlength]
    simp only [List.length_append, List.length_singleton, Nat.cast_add, Nat.cast_one]
    ring

theorem fileLength_append (pieces : List Piece) (piece : Piece) :
    fileLength (pieces ++ [piece]) = fileLength pieces + piece.text.length := by
  simp [fileLength]

theorem strftime_ne_nil (tm : Tm) : strftime tm ≠ [] := by simp [strftime]

namespace State

/-- The current file is as long as `cur_size` says. -/
def Sized (s : State) : Prop :=
  ∀ name, s.mFout.file = some name →
    ∃ pieces, s.files name = some pieces ∧ s.curSize = fileLength pieces

/-- What every state has: a stream that has not failed is open on `m_filename`. -/
structure Accounted (s : State) : Prop where
  sized : s.Sized
  named : ∀ name, s.mFout.file = some name → s.mFout.fail = false → name = s.mFilename

/-- The call inserts a record into a file. -/
def Writes (s : State) : Action → Prop
  | .log level _ _ _ _ _ => s.accepts level ∧ s.mFout.file.isSome
  | _ => False

/-- The call inserts a record of another length than it counts, and does not go on to
rotate the file. -/
def Drifts (localtime : ℤ → Tm) (s : State) : Action → Prop
  | .log level file line content elapsed _ =>
      s.accepts level ∧ s.mFout.file.isSome ∧
        counted (header (strftime (localtime (s.clock + elapsed))) level file line) content ≠
          (record (header (strftime (localtime (s.clock + elapsed))) level file line) content).length ∧
        ¬ (s.insert localtime level file line content elapsed).full
  | _ => False

/-- The current file is shorter than the limit. -/
def Below (s : State) : Prop :=
  0 < s.maxSize → ∀ name pieces, s.mFout.file = some name → s.files name = some pieces →
    (fileLength pieces : ℤ) < s.maxSize

variable {s : State}

/-! ## Opening and rotating -/

theorem accounted_openFile_closed (hclosed : s.mFout.file = none) (filename : Text) :
    (s.openFile filename).state.Accounted := by
  rw [openFile, hclosed]
  refine ⟨fun name hname => ?_, fun name hname _ => (Option.some.inj hname).symm⟩
  obtain rfl := Option.some.inj hname
  refine ⟨_, Function.update_self _ _ _, ?_⟩
  simp [Directory.create]

theorem Accounted.openFile (haccounted : s.Accounted) (filename : Text) :
    (s.openFile filename).state.Accounted := by
  by_cases hopen : s.mFout.file.isSome
  · rw [State.openFile, if_pos hopen]
    exact ⟨haccounted.sized, fun _ _ hfail => nomatch hfail⟩
  · exact accounted_openFile_closed (by simpa using hopen) filename

/-- A rotation leaves the right count, whatever it was before. -/
theorem accounted_rotate (elapsed : ℕ) : (s.rotate localtime elapsed).state.Accounted := by
  rw [rotate]
  dsimp only
  split
  · exact ⟨fun _ hname => (nomatch hname), fun _ hname => (nomatch hname)⟩
  · exact accounted_openFile_closed rfl _

/-- Behind a rotation of the current file the new one is empty. -/
theorem below_rotate (elapsed : ℕ) (hpresent : (s.files s.mFilename).isSome) :
    (s.rotate localtime elapsed).state.Below := by
  have hne : s.rotatedName localtime elapsed ≠ s.mFilename := by
    rw [rotatedName]
    simpa using strftime_ne_nil _
  obtain ⟨pieces, hpieces⟩ := Option.isSome_iff_exists.mp hpresent
  obtain ⟨files, hfiles⟩ : ∃ files,
      s.files.rename s.mFilename (s.rotatedName localtime elapsed) = some files := by
    rw [Directory.rename, hpieces]
    exact ⟨_, rfl⟩
  have hgone := Directory.source_of_rename hne hfiles
  intro hmax name pieces hname hpieces
  rw [rotate] at hname hpieces hmax ⊢
  dsimp only [close] at hname hpieces hmax ⊢
  rw [hfiles] at hname hpieces hmax ⊢
  obtain rfl := Option.some.inj hname
  have hempty : pieces = [] := by
    have hcreated : files.create s.mFilename s.mFilename = some pieces := hpieces
    rw [Directory.create, Function.update_self, hgone] at hcreated
    exact (Option.some.inj hcreated).symm
  rw [hempty]
  exact hmax

/-! ## Logging -/

section Log

variable {level : Level} {file content : Text} {line : ℤ} {elapsed later : ℕ} {name : Text}

theorem log_of_not_accepts (hrefused : s.accepts level = false) :
    (s.log localtime level file line content elapsed later).state = s := by
  rw [accepts, Bool.and_eq_false_iff, decide_eq_false_iff_not, Bool.not_eq_false'] at hrefused
  rw [log]
  split_ifs with hlevel hfail
  · rfl
  · rfl
  · exact absurd hrefused (not_or.mpr ⟨not_not.mpr (not_le.mp hlevel), hfail⟩)

theorem log_of_accepts (haccepts : s.accepts level = true) :
    s.log localtime level file line content elapsed later =
      if (s.insert localtime level file line content elapsed).full then
        (s.insert localtime level file line content elapsed).rotate localtime later
      else ⟨s.insert localtime level file line content elapsed, none⟩ := by
  rw [accepts, Bool.and_eq_true, decide_eq_true_iff, Bool.not_eq_true'] at haccepts
  rw [log, if_neg (not_le.mpr haccepts.1), if_neg (by simp [haccepts.2])]

/-- An insertion into the current file keeps the count exactly if it counts what it
inserts. -/
theorem sized_insert_iff (hsized : s.Sized) (hopen : s.mFout.file = some name) :
    (s.insert localtime level file line content elapsed).Sized ↔
      counted (header (strftime (localtime (s.clock + elapsed))) level file line) content =
        (record (header (strftime (localtime (s.clock + elapsed))) level file line) content).length := by
  obtain ⟨pieces, hpieces, hcount⟩ := hsized name hopen
  have happended : ∀ piece, s.files.append name piece name = some (pieces ++ [piece]) := by
    intro piece
    rw [Directory.append, Function.update_self, hpieces]
    rfl
  rw [insert]
  dsimp only
  split
  next hclosed => rw [hopen] at hclosed; cases hclosed
  next other hname =>
    obtain rfl := Option.some.inj (hopen.symm.trans hname)
    constructor
    · intro hsized'
      obtain ⟨pieces', hpieces', hcount'⟩ := hsized' name hopen
      obtain rfl := Option.some.inj ((happended _).symm.trans hpieces')
      rw [fileLength_append, Nat.cast_add, ← hcount] at hcount'
      exact add_left_cancel hcount'
    · intro heq other' hother'
      obtain rfl := Option.some.inj (hopen.symm.trans hother')
      refine ⟨_, happended _, ?_⟩
      rw [fileLength_append, Nat.cast_add, ← hcount, ← heq]

theorem file_insert : (s.insert localtime level file line content elapsed).mFout.file = s.mFout.file := by
  rw [insert]
  dsimp only
  split <;> simp [*]

theorem mFilename_insert :
    (s.insert localtime level file line content elapsed).mFilename = s.mFilename := by
  rw [insert]
  dsimp only
  split <;> rfl

theorem Accounted.insert (haccounted : s.Accounted) (haccepts : s.accepts level = true)
    (hexact : s.mFout.file.isSome →
      counted (header (strftime (localtime (s.clock + elapsed))) level file line) content =
        (record (header (strftime (localtime (s.clock + elapsed))) level file line) content).length) :
    (s.insert localtime level file line content elapsed).Accounted where
  sized := by
    cases hfile : s.mFout.file with
    | none =>
        intro name hname
        rw [file_insert, hfile] at hname
        cases hname
    | some name => exact (sized_insert_iff haccounted.sized hfile).mpr (hexact (by simp [hfile]))
  named := by
    intro name hname _
    rw [accepts, Bool.and_eq_true, Bool.not_eq_true'] at haccepts
    rw [file_insert] at hname
    rw [mFilename_insert]
    exact haccounted.named name hname haccepts.2

end Log

/-! ## One call -/

theorem Accounted.perform {a : Action} (haccounted : s.Accounted) (hkeeps : ¬ s.Drifts localtime a) :
    (s.perform localtime a).state.Accounted := by
  cases a with
  | openFile filename => exact haccounted.openFile filename
  | log level file line content elapsed later =>
      by_cases haccepts : s.accepts level = true
      · rw [State.perform, log_of_accepts haccepts]
        split_ifs with hfull
        · exact accounted_rotate later
        · apply haccounted.insert haccepts
          intro hopen
          by_contra hne
          exact hkeeps ⟨haccepts, hopen, hne, hfull⟩
      · rw [State.perform, log_of_not_accepts (by simpa using haccepts)]
        exact haccounted
  | setLevel level => exact ⟨haccounted.sized, haccounted.named⟩
  | setLogMax bytes => exact ⟨haccounted.sized, haccounted.named⟩
  | rotate elapsed => exact accounted_rotate elapsed

theorem Accounted.not_sized_of_drifts {a : Action} (haccounted : s.Accounted)
    (hdrifts : s.Drifts localtime a) : ¬ (s.perform localtime a).state.Sized := by
  cases a with
  | log level file line content elapsed later =>
      obtain ⟨haccepts, hopen, hne, hfull⟩ := hdrifts
      obtain ⟨name, hname⟩ := Option.isSome_iff_exists.mp hopen
      rw [State.perform, log_of_accepts haccepts, if_neg hfull]
      exact fun hsized => hne ((sized_insert_iff haccounted.sized hname).mp hsized)
  | _ => exact hdrifts.elim

/-- Behind a call that inserts a record the file is shorter than the limit. -/
theorem Accounted.below {a : Action} (haccounted : s.Accounted) (hwrites : s.Writes a)
    (hkeeps : ¬ s.Drifts localtime a) : (s.perform localtime a).state.Below := by
  cases a with
  | log level file line content elapsed later =>
      obtain ⟨haccepts, hopen⟩ := hwrites
      obtain ⟨name, hname⟩ := Option.isSome_iff_exists.mp hopen
      have hnamed : name = s.mFilename := by
        apply haccounted.named name hname
        rw [accepts, Bool.and_eq_true, Bool.not_eq_true'] at haccepts
        exact haccepts.2
      have hkept := haccounted.perform hkeeps
      rw [State.perform, log_of_accepts haccepts] at hkept ⊢
      split_ifs at hkept ⊢ with hfull
      · apply below_rotate
        obtain ⟨pieces, hpieces, -⟩ := haccounted.sized name hname
        rw [mFilename_insert, ← hnamed, State.insert]
        dsimp only
        rw [hname]
        dsimp only
        rw [Directory.append, Function.update_self, hpieces]
        rfl
      · intro hmax name' pieces' hname' hpieces'
        obtain ⟨pieces'', hpieces'', hcount⟩ := hkept.sized name' hname'
        obtain rfl := Option.some.inj (hpieces''.symm.trans hpieces')
        rw [← hcount]
        by_contra hlong
        exact hfull ⟨not_lt.mp hlong, hmax⟩
  | _ => exact hwrites.elim

end State

/-! ## Runs -/

theorem accounted_fresh (files : Directory Text Piece) (clock : ℤ) :
    (State.fresh files clock).Accounted :=
  ⟨fun _ hname => (nomatch hname), fun _ hname => (nomatch hname)⟩

/-- The runs in which `cur_size` is the length of the current file, so that a limit is
kept behind every record, are those in which no record drifts. -/
theorem sized_iff {visited : List (State × Action)} {s : State}
    (hrun : (system localtime).Run visited s) :
    (((∀ before ∈ visited, before.1.Sized) ∧ s.Sized) ∧
      ∀ taken ∈ visited, taken.1.Writes taken.2 → (taken.1.perform localtime taken.2).state.Below) ↔
      ∀ taken ∈ visited, ¬ taken.1.Drifts localtime taken.2 := by
  have hinitial : ∀ s, (system localtime).initial s → s.Accounted := by
    rintro _ ⟨files, clock, rfl⟩
    exact accounted_fresh files clock
  have hgood : ∀ s a s', s.Accounted → (system localtime).step s a = some s' →
      ¬ s.Drifts localtime a → s'.Accounted := by
    intro s a s' haccounted hstep hkeeps
    obtain rfl := Option.some.inj hstep
    exact haccounted.perform hkeeps
  have hiff := hrun.forall_iff (P := State.Sized) (fun _ h => h.sized) hinitial hgood (by
    intro s a s' haccounted hstep hdrifts
    obtain rfl := Option.some.inj hstep
    exact haccounted.not_sized_of_drifts hdrifts)
  constructor
  · exact fun hall => hiff.mp hall.1
  · intro hkeeps
    obtain ⟨hbefore, -⟩ := hrun.forall_of_forall_not hinitial hgood hkeeps
    exact ⟨hiff.mpr hkeeps, fun taken hmem hwrites =>
      (hbefore taken hmem).below hwrites (hkeeps taken hmem)⟩

/-- The first day, in UTC. -/
def firstDay (time : ℤ) : Tm :=
  ⟨1970, 1, 1, time.toNat / 3600 % 24, time.toNat / 60 % 60, time.toNat % 60⟩

/-- A new logger on an empty file system, with its file `l` opened. -/
def opened : State := ((State.fresh (fun _ => none) 0).openFile ['l']).state

theorem run_opened : (system firstDay).Run
    [(State.fresh (fun _ => none) 0, .openFile ['l'])] opened := by
  have hstart : (system firstDay).Run [] (State.fresh (fun _ => none) 0) := .initial ⟨_, _, rfl⟩
  exact hstart.step (a := .openFile ['l']) rfl

/-- With a limit of one byte every record is followed by a rotation. -/
theorem sized_iff_limited :
    (({ opened with maxSize := 1 }.log firstDay .info ['a'] 1 ['x'] 0 0).state).Sized := by
  have hlimit := run_opened.step (a := .setLogMax 1) rfl
  have hlog := hlimit.step (a := .log .info ['a'] 1 ['x'] 0 0) rfl
  refine ((sized_iff hlog).mpr ?_).1.2
  intro taken hmem
  rcases List.mem_append.mp hmem with hmem | hmem
  · rcases List.mem_append.mp hmem with hmem | hmem
    · obtain rfl := List.mem_singleton.mp hmem
      exact fun hdrifts => hdrifts
    · obtain rfl := List.mem_singleton.mp hmem
      exact fun hdrifts => hdrifts
  · obtain rfl := List.mem_singleton.mp hmem
    rintro ⟨-, -, -, hnotFull⟩
    exact hnotFull (by decide +kernel)

/-- One record without a limit: two bytes are not counted. -/
theorem not_sized_log : ¬ ∀ visited s, (system firstDay).Run visited s → s.Sized := by
  intro hsized
  have hlog := run_opened.step (a := .log .info ['a'] 1 ['x'] 0 0) rfl
  obtain ⟨pieces, hpieces, hcount⟩ := hsized _ _ hlog ['l'] (by decide +kernel)
  have hlength : ((opened.log firstDay .info ['a'] 1 ['x'] 0 0).state.files ['l']).map fileLength =
      some 32 := by decide +kernel
  have hsize : (opened.log firstDay .info ['a'] 1 ['x'] 0 0).state.curSize = 30 := by decide +kernel
  have hfile : (opened.log firstDay .info ['a'] 1 ['x'] 0 0).state.files ['l'] = some pieces := hpieces
  rw [hfile, Option.map_some, Option.some.injEq] at hlength
  have hcount' : (30 : ℤ) = fileLength pieces := hsize ▸ hcount
  rw [hlength] at hcount'
  exact absurd hcount' (by decide)

end Logger

end CppProjects
