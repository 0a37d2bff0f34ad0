import CppProjects.Logger.SizeAccounting

/-!
# What rotation does to earlier records

The name of a rotated file has the second of its rotation in it.  A second rotation in
the same second therefore replaces the file of the first, and the records in it are
gone.
-/

namespace CppProjects

namespace Logger

variable {localtime : ℤ → Tm}

namespace State

/-- The file holds the record. -/
def HoldsRecord (s : State) (name : Text) (ticket : ℕ) : Prop :=
  ∃ piece, s.files.Holds name piece ∧ piece.ticket = some ticket

/-- Every record written is in the current file or in one that `rotate` has made. -/
def Kept (s : State) : Prop :=
  ∀ ticket < s.written, ∃ name, (s.mFout.file = some name ∨ name ∈ s.rotated) ∧
    s.HoldsRecord name ticket

/-- The state in which a call begins to rotate, if it does, and the seconds until
`rotate` reads the clock. -/
def rotating (localtime : ℤ → Tm) (s : State) : Action → Option (State × ℕ)
  | .rotate elapsed => some (s, elapsed)
  | .log level file line content elapsed later =>
      let inserted := s.insert localtime level file line content elapsed
      if s.accepts level ∧ inserted.full then some (inserted, later) else none
  | _ => none

/-- The call rotates under a name under which there is a record already. -/
def Clobbers (localtime : ℤ → Tm) (s : State) (a : Action) : Prop :=
  ∃ start elapsed ticket, s.rotating localtime a = some (start, elapsed) ∧
    start.HoldsRecord (start.rotatedName localtime elapsed) ticket

/-- The logger is at work on its file, and every record is in one place at most. -/
structure Orderly (s : State) : Prop where
  open_eq : s.mFout = ⟨some s.mFilename, false⟩
  present : (s.files s.mFilename).isSome
  once : ∀ ticket name other, s.HoldsRecord name ticket → s.HoldsRecord other ticket → other = name
  bounded : ∀ ticket name, s.HoldsRecord name ticket → ticket < s.written

/-- Orderly, and no record is lost. -/
structure Complete (s : State) : Prop extends Orderly s where
  kept : s.Kept

variable {s : State} {level : Level} {file content : Text} {line : ℤ} {elapsed : ℕ}

/-! ## Inserting a record -/

theorem holdsRecord_insert (horderly : s.Orderly) (name : Text) (ticket : ℕ) :
    (s.insert localtime level file line content elapsed).HoldsRecord name ticket ↔
      s.HoldsRecord name ticket ∨ name = s.mFilename ∧ ticket = s.written := by
  rw [HoldsRecord, insert, horderly.open_eq]
  dsimp only
  simp only [Directory.holds_append, horderly.present, true_and]
  constructor
  · rintro ⟨piece, hold | ⟨rfl, rfl⟩, hticket⟩
    · exact Or.inl ⟨piece, hold, hticket⟩
    · exact Or.inr ⟨rfl, (Option.some.inj hticket).symm⟩
  · rintro (⟨piece, hold, hticket⟩ | ⟨rfl, rfl⟩)
    · exact ⟨piece, Or.inl hold, hticket⟩
    · exact ⟨_, Or.inr ⟨rfl, rfl⟩, rfl⟩

theorem Complete.insert (hcomplete : s.Complete) :
    (s.insert localtime level file line content elapsed).Complete := by
  have hholds : ∀ name ticket,
      (s.insert localtime level file line content elapsed).HoldsRecord name ticket ↔ _ :=
    holdsRecord_insert hcomplete.toOrderly
  have hwritten : (s.insert localtime level file line content elapsed).written = s.written + 1 := by
    rw [State.insert, hcomplete.open_eq]
  have hrotated : (s.insert localtime level file line content elapsed).rotated = s.rotated := by
    rw [State.insert, hcomplete.open_eq]
  have hfout : (s.insert localtime level file line content elapsed).mFout = s.mFout := by
    rw [State.insert, hcomplete.open_eq]
  refine ⟨⟨?_, ?_, ?_, ?_⟩, ?_⟩
  · rw [hfout, mFilename_insert]
    exact hcomplete.open_eq
  · obtain ⟨pieces, hpieces⟩ := Option.isSome_iff_exists.mp hcomplete.present
    rw [mFilename_insert, State.insert, hcomplete.open_eq]
    dsimp only
    rw [Directory.append, Function.update_self, hpieces]
    rfl
  · intro ticket name other hname hother
    rcases (hholds name ticket).mp hname with hname | ⟨rfl, rfl⟩
    · rcases (hholds other ticket).mp hother with hother | ⟨rfl, rfl⟩
      · exact hcomplete.once ticket name other hname hother
      · exact absurd (hcomplete.bounded _ _ hname) (lt_irrefl _)
    · rcases (hholds other _).mp hother with hother | ⟨rfl, -⟩
      · exact absurd (hcomplete.bounded _ _ hother) (lt_irrefl _)
      · rfl
  · intro ticket name hname
    rw [hwritten]
    rcases (hholds name ticket).mp hname with hname | ⟨-, rfl⟩
    · exact (hcomplete.bounded _ _ hname).trans (Nat.lt_succ_self _)
    · exact Nat.lt_succ_self _
  · intro ticket hlt
    rw [hwritten] at hlt
    rw [hfout, hrotated]
    rcases Nat.lt_succ_iff_lt_or_eq.mp hlt with hold | rfl
    · obtain ⟨name, hplace, hname⟩ := hcomplete.kept ticket hold
      exact ⟨name, hplace, (hholds name ticket).mpr (Or.inl hname)⟩
    · exact ⟨s.mFilename, Or.inl (by rw [hcomplete.open_eq]), (hholds _ _).mpr (Or.inr ⟨rfl, rfl⟩)⟩

/-! ## Rotating -/

theorem rotatedName_ne (s : State) (elapsed : ℕ) : s.rotatedName localtime elapsed ≠ s.mFilename := by
  rw [rotatedName]
  simpa using strftime_ne_nil _

/-- The records of the current file move to the new name, and replace what is there. -/
structure Rotates (target : Text) (s s' : State) : Prop where
  mFout_eq : s'.mFout = s.mFout
  mFilename_eq : s'.mFilename = s.mFilename
  written_eq : s'.written = s.written
  rotated_eq : s'.rotated = s.rotated ++ [target]
  present : (s'.files s.mFilename).isSome
  holds_iff : ∀ name ticket, s'.HoldsRecord name ticket ↔
    if name = target then s.HoldsRecord s.mFilename ticket
    else name ≠ s.mFilename ∧ s.HoldsRecord name ticket

theorem Orderly.rotates (horderly : s.Orderly) (localtime : ℤ → Tm) (elapsed : ℕ) :
    Rotates (s.rotatedName localtime elapsed) s (s.rotate localtime elapsed).state := by
  have hne : s.rotatedName localtime elapsed ≠ s.mFilename := rotatedName_ne s elapsed
  obtain ⟨pieces, hpieces⟩ := Option.isSome_iff_exists.mp horderly.present
  obtain ⟨files, hfiles⟩ : ∃ files,
      s.files.rename s.mFilename (s.rotatedName localtime elapsed) = some files := by
    rw [Directory.rename, hpieces]
    exact ⟨_, rfl⟩
  rw [rotate]
  dsimp only [close]
  rw [hfiles]
  refine ⟨horderly.open_eq.symm, rfl, rfl, rfl, ?_, fun name ticket => ?_⟩
  · exact Option.isSome_iff_exists.mpr ⟨_, Function.update_self _ _ _⟩
  · rw [HoldsRecord]
    change (∃ piece, (files.create s.mFilename).Holds name piece ∧ piece.ticket = some ticket) ↔ _
    simp only [Directory.holds_create, Directory.holds_rename hne hfiles]
    split_ifs
    · rfl
    · simp [HoldsRecord, and_assoc]

/-- A rotation under a name without records keeps all of them. -/
theorem Complete.rotate (hcomplete : s.Complete)
    (hfree : ∀ ticket, ¬ s.HoldsRecord (s.rotatedName localtime elapsed) ticket) :
    (s.rotate localtime elapsed).state.Complete := by
  obtain ⟨hfout, hfilename, hwritten, hrotated, hpresent, hholds⟩ :=
    hcomplete.rotates localtime elapsed
  generalize (s.rotate localtime elapsed).state = s' at *
  generalize s.rotatedName localtime elapsed = target at *
  have hold : ∀ {name ticket}, s'.HoldsRecord name ticket →
      ∃ before, s.HoldsRecord before ticket ∧
        name = if before = s.mFilename then target else before := by
    intro name ticket hname
    rw [hholds] at hname
    split_ifs at hname with htarget
    · exact ⟨s.mFilename, hname, by rw [if_pos rfl, htarget]⟩
    · exact ⟨name, hname.2, by rw [if_neg hname.1]⟩
  refine ⟨⟨?_, ?_, ?_, ?_⟩, ?_⟩
  · rw [hfout, hfilename]
    exact hcomplete.open_eq
  · rw [hfilename]
    exact hpresent
  · intro ticket name other hname hother
    obtain ⟨before, hbefore, rfl⟩ := hold hname
    obtain ⟨before', hbefore', rfl⟩ := hold hother
    rw [hcomplete.once ticket before before' hbefore hbefore']
  · intro ticket name hname
    obtain ⟨before, hbefore, -⟩ := hold hname
    rw [hwritten]
    exact hcomplete.bounded ticket before hbefore
  · intro ticket hlt
    rw [hwritten] at hlt
    obtain ⟨name, hplace, hname⟩ := hcomplete.kept ticket hlt
    rw [hrotated]
    by_cases hcurrent : name = s.mFilename
    · subst hcurrent
      exact ⟨target, Or.inr (List.mem_append_right _ List.mem_cons_self),
        (hholds _ _).mpr (by rw [if_pos rfl]; exact hname)⟩
    · have hmoved : name ≠ target := by
        rintro rfl
        exact hfree ticket hname
      refine ⟨name, Or.inr (List.mem_append_left _ ?_),
        (hholds _ _).mpr (by rw [if_neg hmoved]; exact ⟨hcurrent, hname⟩)⟩
      refine hplace.resolve_left fun hopen => hcurrent ?_
      rw [hcomplete.open_eq] at hopen
      exact (Option.some.inj hopen).symm

/-- What stood under the new name is lost. -/
theorem Orderly.not_kept_of_holds (horderly : s.Orderly) {ticket : ℕ}
    (hholds : s.HoldsRecord (s.rotatedName localtime elapsed) ticket) :
    ¬ (s.rotate localtime elapsed).state.Kept := by
  intro hkept
  have hrotates := horderly.rotates localtime elapsed
  have hlt := horderly.bounded ticket _ hholds
  obtain ⟨name, -, hname⟩ := hkept ticket (by rw [hrotates.written_eq]; exact hlt)
  rw [hrotates.holds_iff] at hname
  split_ifs at hname with htarget
  · exact rotatedName_ne s elapsed (horderly.once ticket _ _ hname hholds)
  · exact htarget (horderly.once ticket _ _ hholds hname.2)

/-! ## One call -/

theorem log_state (later : ℕ) :
    (s.log localtime level file line content elapsed later).state =
      if s.accepts level then
        if (s.insert localtime level file line content elapsed).full then
          ((s.insert localtime level file line content elapsed).rotate localtime later).state
        else s.insert localtime level file line content elapsed
      else s := by
  by_cases haccepts : s.accepts level = true
  · rw [if_pos haccepts, log_of_accepts haccepts]
    split_ifs <;> rfl
  · rw [if_neg haccepts, log_of_not_accepts (by simpa using haccepts)]

theorem Complete.perform {a : Action} (hcomplete : s.Complete)
    (hlogging : ∀ filename, a ≠ .openFile filename) (hkeeps : ¬ s.Clobbers localtime a) :
    (s.perform localtime a).state.Complete := by
  cases a with
  | openFile filename => exact absurd rfl (hlogging filename)
  | log level file line content elapsed later =>
      rw [State.perform, log_state]
      split_ifs with haccepts hfull
      · apply hcomplete.insert.rotate
        intro ticket hholds
        refine hkeeps ⟨_, later, ticket, ?_, hholds⟩
        rw [rotating]
        exact if_pos ⟨haccepts, hfull⟩
      · exact hcomplete.insert
      · exact hcomplete
  | setLevel level =>
      exact ⟨⟨hcomplete.open_eq, hcomplete.present, hcomplete.once, hcomplete.bounded⟩,
        hcomplete.kept⟩
  | setLogMax bytes =>
      exact ⟨⟨hcomplete.open_eq, hcomplete.present, hcomplete.once, hcomplete.bounded⟩,
        hcomplete.kept⟩
  | rotate elapsed =>
      exact hcomplete.rotate fun ticket hholds => hkeeps ⟨s, elapsed, ticket, rfl, hholds⟩

theorem Complete.not_kept_of_clobbers {a : Action} (hcomplete : s.Complete)
    (hclobbers : s.Clobbers localtime a) : ¬ (s.perform localtime a).state.Kept := by
  obtain ⟨start, elapsed, ticket, hstart, hholds⟩ := hclobbers
  cases a with
  | log level file line content elapsed' later =>
      rw [rotating] at hstart
      split_ifs at hstart with hrotates
      cases hstart
      rw [State.perform, log_state, if_pos hrotates.1, if_pos hrotates.2]
      exact hcomplete.insert.not_kept_of_holds hholds
  | rotate elapsed' =>
      cases hstart
      exact hcomplete.not_kept_of_holds hholds
  | _ => cases hstart

end State

/-! ## Runs -/

theorem complete_opened {files : Directory Text Piece} (huntouched : Untouched files) (clock : ℤ)
    (filename : Text) : ((State.fresh files clock).openFile filename).state.Complete := by
  have hnone : ∀ name ticket,
      ¬ ((State.fresh files clock).openFile filename).state.HoldsRecord name ticket := by
    rintro name ticket ⟨piece, hpiece, hticket⟩
    have hold := huntouched name piece (Directory.holds_create.mp hpiece)
    rw [hold] at hticket
    cases hticket
  refine ⟨⟨rfl, ?_, fun _ _ _ hname => absurd hname (hnone _ _), fun _ _ hname =>
    absurd hname (hnone _ _)⟩, fun _ hlt => absurd hlt (Nat.not_lt_zero _)⟩
  exact Option.isSome_iff_exists.mpr ⟨_, Function.update_self _ _ _⟩

/-- The runs that lose no record are those in which no call rotates under a name under
which there is a record already. -/
theorem records_kept_iff {visited : List (State × Action)} {s : State}
    (hrun : (logging localtime).Run visited s) :
    ((∀ before ∈ visited, before.1.Kept) ∧ s.Kept) ↔
      ∀ taken ∈ visited, ¬ taken.1.Clobbers localtime taken.2 := by
  have hstep : ∀ {s s' a}, (logging localtime).step s a = some s' →
      (∀ filename, a ≠ .openFile filename) ∧ s' = (s.perform localtime a).state := by
    intro s s' a hstep
    cases a with
    | openFile filename => cases hstep
    | _ => exact ⟨fun _ heq => (nomatch heq), (Option.some.inj hstep).symm⟩
  apply hrun.forall_iff (Q := State.Complete)
  · exact fun _ hcomplete => hcomplete.kept
  · rintro _ ⟨files, clock, filename, huntouched, rfl⟩
    exact complete_opened huntouched clock filename
  · intro s a s' hcomplete hs' hkeeps
    obtain ⟨hlogging, rfl⟩ := hstep hs'
    exact hcomplete.perform hlogging hkeeps
  · intro s a s' hcomplete hs' hclobbers
    obtain ⟨-, rfl⟩ := hstep hs'
    exact hcomplete.not_kept_of_clobbers hclobbers

/-- With a limit of one byte, one record. -/
def once : State := ({ opened with maxSize := 1 }.log firstDay .info ['a'] 1 ['x'] 0 0).state

/-- Another one, `later` seconds behind it. -/
def twice (later : ℕ) : State := (once.log firstDay .info ['a'] 1 ['y'] later 0).state

theorem run_twice (later : ℕ) : (logging firstDay).Run
    [(opened, .setLogMax 1), ({ opened with maxSize := 1 }, .log .info ['a'] 1 ['x'] 0 0),
      (once, .log .info ['a'] 1 ['y'] later 0)] (twice later) := by
  have hstart : (logging firstDay).Run [] opened := by
    refine .initial ⟨fun _ => none, 0, ['l'], ?_, rfl⟩
    rintro name piece ⟨pieces, hpieces, -⟩
    cases hpieces
  have hlimit := hstart.step (a := .setLogMax 1) rfl
  have hlog := hlimit.step (a := .log .info ['a'] 1 ['x'] 0 0) rfl
  exact hlog.step (a := .log .info ['a'] 1 ['y'] later 0) rfl

theorem not_clobbers_of_free {s : State} {a : Action}
    (hfree : ((s.rotating localtime a).all fun start =>
      (start.1.files (start.1.rotatedName localtime start.2)).isNone) = true) :
    ¬ s.Clobbers localtime a := by
  rintro ⟨start, elapsed, ticket, hstart, piece, ⟨pieces, hpieces, -⟩, -⟩
  rw [hstart, Option.all_some, hpieces] at hfree
  cases hfree

/-- Two records in different seconds. -/
theorem records_kept_iff_later : (twice 1).Kept := by
  refine ((records_kept_iff (run_twice 1)).mpr ?_).2
  intro taken hmem
  apply not_clobbers_of_free
  fin_cases hmem <;> decide +kernel

/-- Two records in the same second. -/
theorem records_lost : ¬ ∀ visited s, (logging firstDay).Run visited s → s.Kept := by
  intro hkept
  obtain ⟨name, hplace, piece, ⟨pieces, hpieces, hmem⟩, hticket⟩ :=
    hkept _ _ (run_twice 0) 0 (by decide +kernel)
  have hothers : ∀ name ∈ (twice 0).rotated ++ [['l']], ((twice 0).files name).map
      (fun pieces : List Piece => pieces.all fun piece => piece.ticket ≠ some 0) = some true := by
    decide +kernel
  have hcurrent : (twice 0).mFout.file = some ['l'] := by decide +kernel
  have hname : name ∈ (twice 0).rotated ++ [['l']] := by
    rcases hplace with hopen | hrotated
    · obtain rfl := Option.some.inj (hopen.symm.trans hcurrent)
      exact List.mem_append_right _ List.mem_cons_self
    · exact List.mem_append_left _ hrotated
  have hall := hothers name hname
  rw [hpieces, Option.map_some, Option.some.injEq, List.all_eq_true] at hall
  exact absurd hticket (by simpa using hall piece hmem)

end Logger

end CppProjects
