import Mathlib.Data.List.Forall2
import Propositional.CommandLine.Run
import Propositional.Proofs.WellFormed

/-!
# How a run ends

`Ends` lists the ways in which a run can end, each with its exit code and with all that is said on the way.
`run_outcome` says that a run ends in just one of them, and that it asks nothing about more variables than the
limit allows.
-/

namespace Propositional.CommandLine

/-! ### What a run may come to -/

/-- The formulas of the command line and then those of the file, unless it cannot be read or decoded. -/
def sources (o : Options) (read : String → Except FormulaFile.ReadFault (List UInt8)) :
    Except FormulaFile.Fault (List String) :=
  match o.file with
  | none => .ok o.formulas
  | some path => (FormulaFile.read (FormulaFile.normalPath path) (read (FormulaFile.normalPath path))).map
      (o.formulas ++ ·)

structure Accepts (maxVars : Int) (source : String) (r : Compiled) : Prop where
  compiled : compile source = .ok r
  within : (r.variableCount : Int) ≤ maxVars

/-- What is said of an accepted formula before any of the formulas is classified. -/
def acceptance (r : Compiled) : List Message :=
  Message.compileTrace r.source ++ [Message.formulaCompiled r.source r.formatted r.names]

/-- The formula does not compile or exceeds the limit; the exit code for it, and what is said. -/
inductive Refused (maxVars : Int) (source : String) : Nat → List Message → Prop where
  | mistake {e : CompileError} {rejection : Rejection} (failed : compile source = .error e)
      (shown : e.rejection? = some rejection) :
      Refused maxVars source 2 (Message.compileTrace source ++ Message.rejected source rejection)
  | tooLarge {r : Compiled} (compiled : compile source = .ok r) (beyond : maxVars < r.variableCount) :
      Refused maxVars source 4 (Message.compileTrace source ++ [Message.error ("Too many variables: " ++
        (r.formatted ++ s!" has {r.variableCount} variables (limit {maxVars})"))])

def formulaReport (analyses : Analyses) (showTable : Bool) (r : Compiled) : List Message :=
  Message.classifyTrace r (analyses.classify r) ++
    [Message.info ("  " ++ r.formatted ++ ": " ++ (analyses.classify r).label)] ++
    if showTable then Message.tableTrace r (analyses.fullTable r) ++ Message.table (analyses.fullTable r) else []

def classificationReport (analyses : Analyses) (showTable : Bool) : List Compiled → List Message
  | [] => []
  | r :: rs => Message.info "\n📊 Classification:" :: (r :: rs).flatMap (formulaReport analyses showTable)

def jointReport (analyses : Analyses) (showTable : Bool) (rs : List Compiled) : List Message :=
  Message.jointTrace rs (analyses.jointVerdict rs) ++
    [Message.joint (analyses.jointVerdict rs).label ((analyses.jointWitness rs).map Message.witness)] ++
    if showTable && !rs.isEmpty then Message.table (analyses.jointTable rs) else []

/-- How a run ends: its messages and its exit code. -/
inductive Ends (analyses : Analyses) (o : Options) (read : String → Except FormulaFile.ReadFault (List UInt8)) :
    Outcome → Prop where
  | unreadable {fault : FormulaFile.Fault} (failed : sources o read = .error fault) :
      Ends analyses o read ⟨[Message.error ("Formula file error: " ++ fault.message)], 3⟩
  | nothing (listed : sources o read = .ok []) (alone : (o.joint || o.jointTable) = false) :
      Ends analyses o read ⟨[Message.warning "No formulas given."], 0⟩
  /-- The first formula that is refused decides. -/
  | refused {before after : List String} {source : String} {rs : List Compiled} {code : Nat}
      {messages : List Message} (listed : sources o read = .ok (before ++ source :: after))
      (accepted : List.Forall₂ (Accepts o.maxVars) before rs) (refused : Refused o.maxVars source code messages) :
      Ends analyses o read ⟨rs.flatMap acceptance ++ messages, code⟩
  | classified {given : List String} {rs : List Compiled} (listed : sources o read = .ok given)
      (accepted : List.Forall₂ (Accepts o.maxVars) given rs) (nonempty : given ≠ [])
      (alone : (o.joint || o.jointTable) = false) :
      Ends analyses o read ⟨rs.flatMap acceptance ++ classificationReport analyses o.table rs, 0⟩
  | joint {given : List String} {rs : List Compiled} (listed : sources o read = .ok given)
      (accepted : List.Forall₂ (Accepts o.maxVars) given rs) (joint : (o.joint || o.jointTable) = true)
      (within : ((commonNames rs).length : Int) ≤ o.maxVars) :
      Ends analyses o read ⟨rs.flatMap acceptance ++ classificationReport analyses o.table rs ++
        jointReport analyses o.jointTable rs, 0⟩
  | tooLarge {given : List String} {rs : List Compiled} (listed : sources o read = .ok given)
      (accepted : List.Forall₂ (Accepts o.maxVars) given rs) (joint : (o.joint || o.jointTable) = true)
      (beyond : o.maxVars < (commonNames rs).length) :
      Ends analyses o read ⟨rs.flatMap acceptance ++ classificationReport analyses o.table rs ++
        [Message.error ("Too many variables: " ++
          s!"Formula set has {(commonNames rs).length} variables (limit {o.maxVars})")], 4⟩

/-- The same answers about anything with at most so many variables. -/
structure Analyses.Agree (limit : Int) (a b : Analyses) : Prop where
  classify : ∀ r : Compiled, (r.variableCount : Int) ≤ limit → a.classify r = b.classify r
  fullTable : ∀ r : Compiled, (r.variableCount : Int) ≤ limit → a.fullTable r = b.fullTable r
  jointVerdict : ∀ rs, ((commonNames rs).length : Int) ≤ limit → a.jointVerdict rs = b.jointVerdict rs
  jointWitness : ∀ rs, ((commonNames rs).length : Int) ≤ limit → a.jointWitness rs = b.jointWitness rs
  jointTable : ∀ rs, ((commonNames rs).length : Int) ≤ limit → a.jointTable rs = b.jointTable rs

variable {α β : Type} {a b analyses : Analyses} {o : Options} {maxVars : Int} {source : String} {r : Compiled}
  {given : List String} {rs : List Compiled} {code : Nat} {messages ms : List Message}
  {read : String → Except FormulaFile.ReadFault (List UInt8)} {outcome : Outcome}

/-! ### Steps -/

/-- The steps stop, and this is what the run comes to with what is still to be said. -/
def Traced.Stops (t : Traced α) (messages : List Message) (code : Nat) : Prop :=
  ∃ why, t.result = .error why ∧ t.messages ++ why.messages = messages ∧ why.exitCode = code

theorem Traced.stops_stop (why : Stop) : (Traced.stop why : Traced α).Stops why.messages why.exitCode :=
  ⟨why, rfl, rfl, rfl⟩

theorem Traced.bind_silent {t : Traced α} {x : α} {next : α → Traced β} (done : t = ⟨[], .ok x⟩) :
    t >>= next = next x := by
  rw [done]
  rfl

theorem Traced.bind_ok {t : Traced α} {x : α} {next : α → Traced β} (done : t = ⟨ms, .ok x⟩) :
    t >>= next = ⟨ms ++ (next x).messages, (next x).result⟩ := by
  rw [done]
  rfl

theorem Traced.say_bind (ms : List Message) (next : Unit → Traced β) :
    Traced.say ms >>= next = ⟨ms ++ (next ()).messages, (next ()).result⟩ :=
  rfl

theorem Traced.Stops.bind {t : Traced α} {next : α → Traced β} (stops : t.Stops messages code) :
    (t >>= next).Stops messages code := by
  obtain ⟨said, result⟩ := t
  obtain ⟨why, rfl, all, exit⟩ := stops
  exact ⟨why, rfl, all, exit⟩

theorem Traced.Stops.after {t : Traced α} {x : α} {next : α → Traced β} (done : t = ⟨ms, .ok x⟩)
    (stops : (next x).Stops messages code) : (t >>= next).Stops (ms ++ messages) code := by
  obtain ⟨why, failed, rfl, exit⟩ := stops
  rw [Traced.bind_ok done]
  exact ⟨why, failed, List.append_assoc .., exit⟩

/-! ### Compiling the formulas -/

theorem compileOne_accepts (accepts : Accepts maxVars source r) :
    compileOne source maxVars = ⟨acceptance r, .ok r⟩ := by
  obtain ⟨compiled, within⟩ := accepts
  obtain rfl := (parse_of_compile compiled).1
  have small : ¬ (r.variableCount : Int) > maxVars := by omega
  unfold compileOne
  rw [compiled]
  simp only [if_neg small]
  rfl

theorem compileOne_refused (refused : Refused maxVars source code messages) :
    (compileOne source maxVars).Stops messages code := by
  unfold compileOne
  cases refused with
  | @mistake e rejection failed shown =>
    rw [failed]
    simp only [shown]
    -- The mistake is shown before the run stops, so nothing is left to say of it.
    have stops : (Traced.say (Message.rejected source rejection) >>= fun _ =>
        (Traced.stop .rejected : Traced Compiled)).Stops (Message.rejected source rejection ++ []) 2 :=
      .after rfl (Traced.stops_stop .rejected)
    rw [List.append_nil] at stops
    exact .after rfl stops
  | tooLarge compiled beyond =>
    rw [compiled]
    simp only [if_pos (show _ > _ from beyond)]
    exact .after rfl (Traced.stops_stop _)

theorem accepts_or_refused (maxVars : Int) (source : String) :
    (∃ r, Accepts maxVars source r) ∨ ∃ code messages, Refused maxVars source code messages := by
  obtain ⟨e, failed⟩ | ⟨fault, start, stop, failed⟩ | ⟨r, compiled, _⟩ := compile_outcome source
  · exact Or.inr ⟨_, _, .mistake failed rfl⟩
  · exact Or.inr ⟨_, _, .mistake failed rfl⟩
  · by_cases beyond : maxVars < r.variableCount
    · exact Or.inr ⟨_, _, .tooLarge compiled beyond⟩
    · exact Or.inl ⟨r, compiled, Int.not_lt.mp beyond⟩

theorem compileAll_accepted (accepted : List.Forall₂ (Accepts maxVars) given rs) :
    compileAll maxVars given = ⟨rs.flatMap acceptance, .ok rs⟩ := by
  induction accepted with
  | nil => rfl
  | cons first _ ih =>
    rw [compileAll, Traced.bind_ok (compileOne_accepts first), Traced.bind_ok ih, List.flatMap_cons]
    show Traced.mk (_ ++ (_ ++ [])) _ = _
    rw [List.append_nil]
    rfl

/-- The first formula that is refused stops the run, whatever comes after it. -/
theorem compileAll_refused {before : List String} (after : List String)
    (accepted : List.Forall₂ (Accepts maxVars) before rs) (refused : Refused maxVars source code messages) :
    (compileAll maxVars (before ++ source :: after)).Stops (rs.flatMap acceptance ++ messages) code := by
  induction accepted with
  | nil =>
    rw [List.nil_append, compileAll]
    exact (compileOne_refused refused).bind
  | cons first _ ih =>
    rw [List.cons_append, compileAll, List.flatMap_cons, List.append_assoc]
    exact .after (compileOne_accepts first) ih.bind

theorem accepted_or_refused (maxVars : Int) (given : List String) :
    (∃ rs, List.Forall₂ (Accepts maxVars) given rs) ∨
    ∃ before source after rs code messages, given = before ++ source :: after ∧
      List.Forall₂ (Accepts maxVars) before rs ∧ Refused maxVars source code messages := by
  induction given with
  | nil => exact Or.inl ⟨[], .nil⟩
  | cons source given ih =>
    obtain ⟨r, accepts⟩ | ⟨code, messages, refused⟩ := accepts_or_refused maxVars source
    · obtain ⟨rs, accepted⟩ | ⟨before, later, after, rs, code, messages, rfl, accepted, refused⟩ := ih
      · exact Or.inl ⟨r :: rs, .cons accepts accepted⟩
      · exact Or.inr ⟨source :: before, later, after, r :: rs, code, messages, rfl, .cons accepts accepted, refused⟩
    · exact Or.inr ⟨[], source, given, [], code, messages, rfl, .nil, refused⟩

/-! ### The whole run -/

theorem reportAll_eq (analyses : Analyses) (showTable : Bool) (rs : List Compiled) :
    reportAll analyses showTable rs = classificationReport analyses showTable rs := by
  cases rs with
  | nil => rfl
  | cons r rs => rfl

theorem reportJoint_within (showTable : Bool) (within : ((commonNames rs).length : Int) ≤ maxVars) :
    reportJoint analyses maxVars showTable rs = ⟨jointReport analyses showTable rs, .ok ()⟩ := by
  unfold reportJoint jointReport
  rw [if_neg (Int.not_lt.mpr within)]
  split
  · show Traced.mk (_ ++ (_ ++ _)) _ = _
    rw [List.append_assoc]
    rfl
  · show Traced.mk (_ ++ (_ ++ [])) _ = _
    rw [List.append_nil, List.append_nil]
    rfl

theorem reportJoint_tooLarge (showTable : Bool) (beyond : maxVars < (commonNames rs).length) :
    (reportJoint analyses maxVars showTable rs).Stops [Message.error ("Too many variables: " ++
      s!"Formula set has {(commonNames rs).length} variables (limit {maxVars})")] 4 := by
  unfold reportJoint
  rw [if_pos beyond]
  exact Traced.stops_stop _

theorem fileFormulas_outcome (o : Options) (read : String → Except FormulaFile.ReadFault (List UInt8)) :
    (∃ fault, sources o read = .error fault ∧ fileFormulas o.file read = ⟨[], .error (.fileFault fault)⟩) ∨
    ∃ fromFile, sources o read = .ok (o.formulas ++ fromFile) ∧ fileFormulas o.file read = ⟨[], .ok fromFile⟩ := by
  unfold sources fileFormulas
  cases o.file with
  | none => exact Or.inr ⟨[], congrArg Except.ok (List.append_nil _).symm, rfl⟩
  | some path =>
    simp only
    cases FormulaFile.read (FormulaFile.normalPath path) (read (FormulaFile.normalPath path)) with
    | error fault => exact Or.inl ⟨fault, rfl, rfl⟩
    | ok fromFile => exact Or.inr ⟨fromFile, rfl, rfl⟩

theorem fileFormulas_read (listed : sources o read = .ok given) :
    ∃ fromFile, fileFormulas o.file read = ⟨[], .ok fromFile⟩ ∧ o.formulas ++ fromFile = given := by
  obtain ⟨fault, failed, _⟩ | ⟨fromFile, all, done⟩ := fileFormulas_outcome o read
  · cases failed.symm.trans listed
  · exact ⟨fromFile, done, Except.ok.inj (all.symm.trans listed)⟩

theorem analyse_unreadable {fault : FormulaFile.Fault} (failed : sources o read = .error fault) :
    (analyse analyses o read).Stops [Message.error ("Formula file error: " ++ fault.message)] 3 := by
  obtain ⟨fault', failed', stopped⟩ | ⟨_, all, _⟩ := fileFormulas_outcome o read
  · obtain rfl := Except.error.inj (failed.symm.trans failed')
    unfold analyse
    rw [stopped]
    exact (Traced.stops_stop (.fileFault fault)).bind
  · cases failed.symm.trans all

theorem analyse_nothing (listed : sources o read = .ok []) (alone : (o.joint || o.jointTable) = false) :
    analyse analyses o read = ⟨[Message.warning "No formulas given."], .ok ()⟩ := by
  obtain ⟨fromFile, done, all⟩ := fileFormulas_read listed
  unfold analyse
  rw [Traced.bind_silent done]
  simp only [all, alone]
  rfl

/-- With something to do a run compiles the formulas and goes on with what they compile to. -/
theorem analyse_listed (listed : sources o read = .ok given)
    (busy : given ≠ [] ∨ (o.joint || o.jointTable) = true) :
    analyse analyses o read = compileAll o.maxVars given >>= fun rs =>
      Traced.say (reportAll analyses o.table rs) >>= fun _ =>
        if o.joint || o.jointTable then reportJoint analyses o.maxVars o.jointTable rs else pure () := by
  obtain ⟨fromFile, done, all⟩ := fileFormulas_read listed
  have something : ¬ (given.isEmpty && !(o.joint || o.jointTable)) = true := by
    obtain filled | joint := busy
    · simp [filled]
    · simp [joint]
  unfold analyse
  rw [Traced.bind_silent done]
  simp only [all, if_neg something]

theorem analyse_accepted (listed : sources o read = .ok given)
    (accepted : List.Forall₂ (Accepts o.maxVars) given rs) (busy : given ≠ [] ∨ (o.joint || o.jointTable) = true) :
    analyse analyses o read =
      Traced.say (rs.flatMap acceptance ++ classificationReport analyses o.table rs) >>= fun _ =>
        if o.joint || o.jointTable then reportJoint analyses o.maxVars o.jointTable rs else pure () := by
  rw [analyse_listed listed busy, Traced.bind_ok (compileAll_accepted accepted), Traced.say_bind,
    Traced.say_bind, reportAll_eq, List.append_assoc]

theorem run_done (done : analyse analyses o read = ⟨ms, .ok ()⟩) : run o read analyses = ⟨ms, 0⟩ := by
  rw [run, done]

theorem run_stops (stops : (analyse analyses o read).Stops messages code) :
    run o read analyses = ⟨messages, code⟩ := by
  obtain ⟨why, failed, rfl, rfl⟩ := stops
  unfold run
  simp only [failed]

theorem run_of_ends (ends : Ends analyses o read outcome) : run o read analyses = outcome := by
  cases ends with
  | unreadable failed => exact run_stops (analyse_unreadable failed)
  | nothing listed alone => exact run_done (analyse_nothing listed alone)
  | @refused before after source rs code messages listed accepted refused =>
    have filled : before ++ source :: after ≠ [] := List.append_ne_nil_of_right_ne_nil _ (List.cons_ne_nil _ _)
    apply run_stops
    rw [analyse_listed listed (Or.inl filled)]
    exact (compileAll_refused after accepted refused).bind
  | classified listed accepted nonempty alone =>
    apply run_done
    rw [analyse_accepted listed accepted (Or.inl nonempty), alone, Traced.say_bind]
    show Traced.mk (_ ++ []) _ = _
    rw [List.append_nil]
    rfl
  | joint listed accepted joint within =>
    apply run_done
    rw [analyse_accepted listed accepted (Or.inr joint), Traced.say_bind, if_pos joint,
      reportJoint_within o.jointTable within]
  | tooLarge listed accepted joint beyond =>
    apply run_stops
    rw [analyse_accepted listed accepted (Or.inr joint)]
    apply Traced.Stops.after rfl
    rw [if_pos joint]
    exact reportJoint_tooLarge o.jointTable beyond

theorem exists_ends (analyses : Analyses) (o : Options)
    (read : String → Except FormulaFile.ReadFault (List UInt8)) : ∃ outcome, Ends analyses o read outcome := by
  cases listed : sources o read with
  | error fault => exact ⟨_, .unreadable listed⟩
  | ok given =>
    obtain ⟨rs, accepted⟩ | ⟨before, source, after, rs, code, messages, rfl, accepted, refused⟩ :=
      accepted_or_refused o.maxVars given
    · cases joint : o.joint || o.jointTable with
      | true =>
        by_cases beyond : o.maxVars < (commonNames rs).length
        · exact ⟨_, .tooLarge listed accepted joint beyond⟩
        · exact ⟨_, .joint listed accepted joint (Int.not_lt.mp beyond)⟩
      | false =>
        by_cases nonempty : given = []
        · subst nonempty
          exact ⟨_, .nothing listed joint⟩
        · exact ⟨_, .classified listed accepted nonempty joint⟩
    · exact ⟨_, .refused listed accepted refused⟩

theorem run_iff_ends : run o read analyses = outcome ↔ Ends analyses o read outcome := by
  constructor
  · rintro rfl
    obtain ⟨outcome, ends⟩ := exists_ends analyses o read
    rw [run_of_ends ends]
    exact ends
  · exact run_of_ends

theorem Ends.exitCode_ne (ends : Ends analyses o read outcome) : outcome.exitCode ≠ 5 := by
  cases ends with
  | unreadable | nothing | classified | joint | tooLarge => simp
  | refused _ _ refused => cases refused <;> simp

/-! ### The limit -/

theorem classificationReport_agree (agree : a.Agree maxVars b) (showTable : Bool)
    (accepted : List.Forall₂ (Accepts maxVars) given rs) :
    classificationReport a showTable rs = classificationReport b showTable rs := by
  have each : rs.flatMap (formulaReport a showTable) = rs.flatMap (formulaReport b showTable) := by
    induction accepted with
    | nil => rfl
    | @cons _ r _ rs first _ ih =>
      have same : formulaReport a showTable r = formulaReport b showTable r := by
        unfold formulaReport
        rw [agree.classify r first.within, agree.fullTable r first.within]
      rw [List.flatMap_cons, List.flatMap_cons, same, ih]
  cases rs with
  | nil => rfl
  | cons r rs => rw [classificationReport, classificationReport, each]

theorem jointReport_agree (agree : a.Agree maxVars b) (showTable : Bool)
    (within : ((commonNames rs).length : Int) ≤ maxVars) : jointReport a showTable rs = jointReport b showTable rs := by
  rw [jointReport, jointReport, agree.jointVerdict rs within, agree.jointWitness rs within,
    agree.jointTable rs within]

theorem Ends.agree (agree : a.Agree o.maxVars b) (ends : Ends a o read outcome) : Ends b o read outcome := by
  cases ends with
  | unreadable failed => exact .unreadable failed
  | nothing listed alone => exact .nothing listed alone
  | refused listed accepted refused => exact .refused listed accepted refused
  | classified listed accepted nonempty alone =>
    rw [classificationReport_agree agree o.table accepted]
    exact .classified listed accepted nonempty alone
  | joint listed accepted joint within =>
    rw [classificationReport_agree agree o.table accepted, jointReport_agree agree o.jointTable within]
    exact .joint listed accepted joint within
  | tooLarge listed accepted joint beyond =>
    rw [classificationReport_agree agree o.table accepted]
    exact .tooLarge listed accepted joint beyond

/-- A run ends in just one of the listed ways, and asks nothing about more variables than the limit allows. -/
theorem run_outcome (o : Options) (read : String → Except FormulaFile.ReadFault (List UInt8))
    (analyses : Analyses) :
    (∀ outcome, run o read analyses = outcome ↔ Ends analyses o read outcome) ∧
    (run o read analyses).exitCode ≠ 5 ∧
    (∀ source r, Accepts o.maxVars source r → ∃ tokens, WellFormed source tokens r) ∧
    ∀ others, analyses.Agree o.maxVars others → run o read others = run o read analyses := by
  have ends : Ends analyses o read (run o read analyses) := run_iff_ends.mp rfl
  refine ⟨fun _ => run_iff_ends, ends.exitCode_ne, fun _ _ accepts => wellFormed_of_compile accepts.compiled, ?_⟩
  exact fun others agree => run_of_ends (ends.agree agree)

end Propositional.CommandLine
