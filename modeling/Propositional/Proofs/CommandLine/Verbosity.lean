import Propositional.CommandLine.Run
import Propositional.Proofs.Logged

/-!
# Verbosity

Every step of a run at a console says what its account says it does, and so does the whole run: `perform_eq`
gives the exit code and all that is written from `run`, which knows nothing of consoles. `verbosity_filters`
follows: the flags on verbosity choose among the messages of a run and have no other effect.
-/

namespace Propositional

namespace Logged

open CommandLine

variable {ε α β : Type} {x : Logged Stop α} {t : Traced α} {next : α → Logged Stop β} {more : α → Traced β}
  {analyses : Analyses}

/-- The computation says and comes to what the account of it says, at every console. -/
def Follows (x : Logged Stop α) (t : Traced α) : Prop :=
  Gives x t.messages t.result

/-! ### Steps -/

theorem follows_pure (a : α) : Follows (pure a) (pure a) :=
  gives_pure a

theorem follows_throw (why : Stop) : Follows (throw why : Logged Stop α) (Traced.stop why) :=
  gives_throw why

theorem follows_say (m : Message) : Follows (say m) (Traced.say [m]) :=
  gives_say m

theorem follows_sayAll (ms : List Message) : Follows (sayAll ms) (Traced.say ms) :=
  gives_sayAll ms

theorem Follows.bind (first : Follows x t) (rest : ∀ a, Follows (next a) (more a)) :
    Follows (x >>= next) (t >>= more) := by
  obtain ⟨messages, result⟩ := t
  cases result with
  | ok a => exact Gives.bind first (rest a)
  | error why => exact Gives.bind_error first

/-- What is accounted for at once may be said in several steps. -/
theorem Follows.after {ms : List Message} {a : α} {more : Unit → Traced β} (first : Gives x ms (.ok a))
    (rest : Follows (next a) (more ())) : Follows (x >>= next) (Traced.say ms >>= more) :=
  first.bind rest

/-! ### The steps of a run -/

theorem compileOne_follows (source : String) (maxVars : Int) :
    Follows (compileOne source maxVars) (CommandLine.compileOne source maxVars) := by
  refine Follows.after (gives_compile source).attempt ?_
  cases Propositional.compile source with
  | error e =>
    simp only
    cases e.rejection? with
    | some r => exact (follows_sayAll _).bind fun _ => follows_throw _
    | none => exact follows_throw _
  | ok r =>
    simp only
    split
    · exact follows_throw _
    · exact (follows_say _).bind fun _ => follows_pure r

theorem compileAll_follows (maxVars : Int) (sources : List String) :
    Follows (compileAll maxVars sources) (CommandLine.compileAll maxVars sources) := by
  induction sources with
  | nil => exact follows_pure []
  | cons source rest ih =>
    refine (compileOne_follows source maxVars).bind fun r => ?_
    exact ih.bind fun rs => follows_pure (r :: rs)

theorem gives_classify (r : Compiled) : Gives (classify analyses r : Logged ε Classification)
    (Message.classifyTrace r (analyses.classify r)) (.ok (analyses.classify r)) :=
  (gives_sayAll _).bind_quiet (gives_pure _)

theorem gives_fullTable (r : Compiled) : Gives (fullTable analyses r : Logged ε Table)
    (Message.tableTrace r (analyses.fullTable r)) (.ok (analyses.fullTable r)) :=
  (gives_sayAll _).bind_quiet (gives_pure _)

theorem gives_jointVerdict (rs : List Compiled) : Gives (jointVerdict analyses rs : Logged ε JointVerdict)
    (Message.jointTrace rs (analyses.jointVerdict rs)) (.ok (analyses.jointVerdict rs)) :=
  (gives_sayAll _).bind_quiet (gives_pure _)

theorem gives_reportOne (showTable : Bool) (r : Compiled) :
    Gives (reportOne analyses showTable r : Logged ε Unit) (CommandLine.reportOne analyses showTable r) (.ok ()) := by
  unfold reportOne CommandLine.reportOne
  simp only
  rw [List.append_assoc]
  refine (gives_classify r).bind (Gives.after_say ?_)
  cases showTable with
  | false => exact gives_pure ()
  | true => exact (gives_fullTable r).bind (gives_sayAll _)

theorem gives_reportAll (showTable : Bool) (rs : List Compiled) :
    Gives (reportAll analyses showTable rs : Logged ε Unit) (CommandLine.reportAll analyses showTable rs) (.ok ()) := by
  unfold reportAll CommandLine.reportAll
  split
  · exact gives_pure ()
  · exact Gives.after_say (gives_forM (gives_reportOne showTable) rs)

theorem reportJoint_follows (maxVars : Int) (showTable : Bool) (rs : List Compiled) :
    Follows (reportJoint analyses maxVars showTable rs) (CommandLine.reportJoint analyses maxVars showTable rs) := by
  unfold reportJoint CommandLine.reportJoint
  simp only
  split
  · exact follows_throw _
  · refine Follows.after (gives_jointVerdict rs) ((follows_say _).bind fun _ => ?_)
    split
    · exact follows_sayAll _
    · exact follows_pure ()

variable (read : String → Except FormulaFile.ReadFault (List UInt8))

theorem fileFormulas_follows (file : Option String) :
    Follows (fileFormulas file read) (CommandLine.fileFormulas file read) := by
  cases file with
  | none => exact follows_pure []
  | some path =>
    unfold fileFormulas CommandLine.fileFormulas
    simp only
    cases FormulaFile.read (FormulaFile.normalPath path) (read (FormulaFile.normalPath path)) with
    | ok sources => exact gives_silent _
    | error fault => exact gives_silent _

theorem analyse_follows (o : Options) : Follows (analyse analyses o read) (CommandLine.analyse analyses o read) := by
  refine (fileFormulas_follows read o.file).bind fun fromFile => ?_
  simp only
  split
  · exact follows_say _
  · refine (compileAll_follows _ _).bind fun rs => Follows.after (gives_reportAll o.table rs) ?_
    split
    · exact reportJoint_follows _ _ rs
    · exact follows_pure ()

end Logged

namespace CommandLine

variable (o : Options) (read : String → Except FormulaFile.ReadFault (List UInt8)) (analyses : Analyses)

/-- A run at a console comes to what its account says. -/
theorem perform_eq (c : Console) : perform o read c analyses =
    ((run o read analyses).exitCode, (c.configure o.debug o.quiet).sayAll (run o read analyses).messages) := by
  have follows := @Logged.analyse_follows analyses read o (c.configure o.debug o.quiet)
  unfold perform run
  rw [follows]
  cases result : (analyse analyses o read).result with
  | ok _ => simp only [result]
  | error why => simp only [result, Console.sayAll_append]

/-- The whole program writes the account of its run, as far as the logger accepts it. -/
theorem execute_eq {arguments : List String} {o : Options} (accepted : Options.ofArguments arguments = .ok o)
    (logger : Logger) : execute logger arguments read =
      { stdout := (logger.configure o.debug o.quiet).write (run o read).messages
        exitCode := (run o read).exitCode } := by
  unfold execute
  rw [accepted]
  simp only [perform_eq]
  rfl

/-- The run with these flags on verbosity. Nothing has been written yet, but earlier runs may have left the
logger at any level. -/
def performWith (debug quiet : Bool) (before : Logger) : Nat × Console :=
  perform { o with debug, quiet } read { logger := before } analyses

def writtenWith (debug quiet : Bool) (before : Logger) : List Message :=
  (performWith o read analyses debug quiet before).2.written.toList

theorem performWith_eq (debug quiet : Bool) (before : Logger) : performWith o read analyses debug quiet before =
    ((run o read analyses).exitCode,
      Console.sayAll { logger := before.configure debug quiet } (run o read analyses).messages) :=
  perform_eq { o with debug, quiet } read analyses { logger := before }

def chosen (debug quiet : Bool) : Level :=
  if debug then .debug else if quiet then .warning else .info

theorem accepts_configure (before : Logger) (debug quiet : Bool) (m : Message) :
    (before.configure debug quiet).accepts m = decide ((chosen debug quiet).severity ≤ m.severity) :=
  Bool.and_self _

theorem debug_le (level : Level) : Level.debug.severity ≤ level.severity := by
  cases level <;> decide

theorem writtenWith_eq (debug quiet : Bool) (before : Logger) : writtenWith o read analyses debug quiet before =
    (run o read analyses).messages.filter fun m => (chosen debug quiet).severity ≤ m.severity := by
  unfold writtenWith
  rw [performWith_eq, Console.written_sayAll]
  exact List.filter_congr fun m _ => accepts_configure before debug quiet m

/-- A debugging run writes all that any run writes. -/
theorem writtenWith_eq_filter (debug quiet : Bool) (before before' : Logger) :
    writtenWith o read analyses debug quiet before =
      (writtenWith o read analyses true false before').filter fun m => (chosen debug quiet).severity ≤ m.severity := by
  rw [writtenWith_eq, writtenWith_eq, List.filter_filter]
  refine List.filter_congr fun m _ => ?_
  have lowest : (chosen true false).severity ≤ (chosen debug quiet).severity := debug_le _
  rw [Bool.eq_iff_iff, Bool.and_eq_true, decide_eq_true_eq, decide_eq_true_eq]
  exact ⟨fun kept => ⟨kept, Int.le_trans lowest kept⟩, And.left⟩

/-- The flags on verbosity choose among the messages of a debugging run and have no other effect, and earlier
settings of the logger have none. -/
theorem verbosity_filters :
    (∀ debug quiet before debug' quiet' before', (performWith o read analyses debug quiet before).1 =
      (performWith o read analyses debug' quiet' before').1) ∧
    (∀ before before', writtenWith o read analyses false false before =
      (writtenWith o read analyses true false before').filter fun m => Level.info.severity ≤ m.severity) ∧
    (∀ before before', writtenWith o read analyses false true before =
      (writtenWith o read analyses true false before').filter fun m => Level.warning.severity ≤ m.severity) ∧
    (∀ before before', writtenWith o read analyses true true before = writtenWith o read analyses true false before') ∧
    ∀ debug quiet before, (performWith o read analyses debug quiet before).2.logger =
      ⟨(chosen debug quiet).severity, (chosen debug quiet).severity⟩ := by
  refine ⟨?_, writtenWith_eq_filter o read analyses false false, writtenWith_eq_filter o read analyses false true,
    ?_, ?_⟩
  · intro debug quiet before debug' quiet' before'
    rw [performWith_eq, performWith_eq]
  · intro before before'
    rw [writtenWith_eq, writtenWith_eq]
    rfl
  · intro debug quiet before
    rw [performWith_eq]
    exact Console.logger_sayAll _ _

end CommandLine

end Propositional
