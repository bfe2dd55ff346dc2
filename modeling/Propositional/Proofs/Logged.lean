import Propositional.Logged
import Propositional.Proofs.Scanning

/-!
# What a computation says

`Logged.Gives` holds of a computation that says the same messages and comes to the same result at every
console, whatever the logger is set to and whatever has been written before. `gives_compile` says so of
compiling a formula: its messages are those of `Message.compileTrace` and its result is that of `compile`.
-/

namespace Propositional

namespace Console

variable {c : Console} {m : Message}

theorem logger_say (c : Console) (m : Message) : (c.say m).logger = c.logger := by
  unfold say
  split <;> rfl

theorem logger_sayAll (c : Console) (ms : List Message) : (c.sayAll ms).logger = c.logger := by
  induction ms generalizing c with
  | nil => rfl
  | cons m ms ih => exact (ih (c.say m)).trans (logger_say c m)

theorem written_say (c : Console) (m : Message) :
    (c.say m).written.toList = c.written.toList ++ [m].filter c.logger.accepts := by
  unfold say
  split
  · rename_i accepted
    rw [List.filter_cons_of_pos accepted]
    exact Array.toList_push
  · rename_i lost
    rw [List.filter_cons_of_neg lost]
    exact (List.append_nil _).symm

/-- Exactly the messages that the logger accepts are written, in order. -/
theorem written_sayAll (c : Console) (ms : List Message) :
    (c.sayAll ms).written.toList = c.written.toList ++ ms.filter c.logger.accepts := by
  induction ms generalizing c with
  | nil => exact (List.append_nil _).symm
  | cons m ms ih =>
    show ((c.say m).sayAll ms).written.toList = _
    rw [ih, written_say, logger_say, List.append_assoc, ← List.filter_append, List.singleton_append]

theorem sayAll_append (c : Console) (ms more : List Message) : c.sayAll (ms ++ more) = (c.sayAll ms).sayAll more :=
  List.foldl_append

end Console

namespace Logged

variable {ε δ α β : Type} {x : Logged ε α} {next : α → Logged ε β} {a : α} {e : ε} {ms more : List Message}
  {result : Except ε β}

/-- At every console the computation says these messages and comes to this result. -/
def Gives (x : Logged ε α) (messages : List Message) (result : Except ε α) : Prop :=
  ∀ c, x.onConsole c = (result, c.sayAll messages)

theorem onConsole_bind (x : Logged ε α) (next : α → Logged ε β) (c : Console) :
    (x >>= next).onConsole c = match x.onConsole c with
      | (.ok a, d) => (next a).onConsole d
      | (.error e, d) => (.error e, d) := by
  unfold onConsole ExceptT.run StateT.run Id.run
  simp only [bind, ExceptT.bind, ExceptT.mk, StateT.bind, ExceptT.bindCont]
  cases x c with
  | mk result d => cases result <;> rfl

theorem onConsole_tryCatch (x : Logged ε α) (handle : ε → Logged ε α) (c : Console) :
    (tryCatch x handle).onConsole c = match x.onConsole c with
      | (.ok a, d) => (.ok a, d)
      | (.error e, d) => (handle e).onConsole d := by
  unfold onConsole ExceptT.run StateT.run Id.run
  simp only [tryCatch, tryCatchThe, MonadExceptOf.tryCatch, ExceptT.tryCatch, ExceptT.mk, bind, StateT.bind]
  cases x c with
  | mk result d => cases result <;> rfl

/-! ### Computations in general -/

theorem gives_pure (a : α) : Gives (pure a : Logged ε α) [] (.ok a) :=
  fun _ => rfl

theorem gives_throw (e : ε) : Gives (throw e : Logged ε α) [] (.error e) :=
  fun _ => rfl

theorem gives_say (m : Message) : Gives (say m : Logged ε Unit) [m] (.ok ()) :=
  fun _ => rfl

theorem gives_sayAll (ms : List Message) : Gives (sayAll ms : Logged ε Unit) ms (.ok ()) :=
  fun _ => rfl

theorem gives_silent (result : Except ε α) : Gives (silent result) [] result :=
  fun _ => rfl

theorem Gives.attempt {result : Except ε α} (given : Gives x ms result) :
    Gives (attempt x : Logged δ (Except ε α)) ms (.ok result) := by
  intro c
  show (Except.ok (x.onConsole c).1, (x.onConsole c).2) = _
  rw [given c]

theorem Gives.bind (first : Gives x ms (.ok a)) (rest : Gives (next a) more result) :
    Gives (x >>= next) (ms ++ more) result := by
  intro c
  rw [onConsole_bind, first c, c.sayAll_append]
  exact rest (c.sayAll ms)

theorem Gives.bind_quiet (first : Gives x ms (.ok a)) (rest : Gives (next a) [] result) :
    Gives (x >>= next) ms result := by
  have both := first.bind rest
  rwa [List.append_nil] at both

theorem Gives.after_say {next : Unit → Logged ε β} {m : Message} (rest : Gives (next ()) more result) :
    Gives (say m >>= next) (m :: more) result :=
  (gives_say m).bind rest

theorem Gives.silent_bind {x : Except ε α} (done : x = .ok a) (rest : Gives (next a) more result) :
    Gives (silent x >>= next) more result := by
  rw [done]
  exact (gives_silent _).bind rest

theorem Gives.bind_error (failed : Gives x ms (.error e)) : Gives (x >>= next) ms (.error e) := by
  intro c
  rw [onConsole_bind, failed c]

theorem Gives.silent_error {x : Except ε α} (failed : x = .error e) : Gives (silent x >>= next) [] (.error e) := by
  rw [failed]
  exact (gives_silent _).bind_error

theorem Gives.tryCatch_ok {handle : ε → Logged ε α} (done : Gives x ms (.ok a)) :
    Gives (tryCatch x handle) ms (.ok a) := by
  intro c
  rw [onConsole_tryCatch, done c]

theorem Gives.tryCatch_error {handle : ε → Logged ε α} {result : Except ε α} (failed : Gives x ms (.error e))
    (handled : Gives (handle e) more result) : Gives (tryCatch x handle) (ms ++ more) result := by
  intro c
  rw [onConsole_tryCatch, failed c, c.sayAll_append]
  exact handled (c.sayAll ms)

theorem gives_forM {f : α → Logged ε Unit} {messages : α → List Message}
    (each : ∀ a, Gives (f a) (messages a) (.ok ())) (as : List α) :
    Gives (as.forM f) (as.flatMap messages) (.ok ()) := by
  induction as with
  | nil => exact gives_pure ()
  | cons a as ih =>
    rw [List.flatMap_cons]
    exact (each a).bind ih

/-! ### Compiling -/

def ofScan : Token.ScanError → CompileError
  | .lex e => .lex e
  | .unknown e => .unknownName e.name

theorem gives_lex (source : String) : Gives (lex source)
    (match Token.lex source with
      | .error (.misplaced c position) => [Message.unexpected c position]
      | _ => [])
    ((Token.lex source).mapError .lex) := by
  unfold lex
  cases Token.lex source with
  | ok tokens => exact gives_pure tokens
  | error e =>
    cases e with
    | illegal position => exact gives_throw _
    | misplaced c position => exact (gives_say _).bind (gives_throw _)

/-- Only a character that is allowed but starts no lexeme is spoken of. -/
theorem gives_scan (source : String) :
    Gives (scan source) (Message.scanTrace source) ((Token.scan source).mapError ofScan) := by
  have lexed := gives_lex source
  refine (gives_say (Message.scanning source)).bind ?_
  obtain allowed | ⟨before, c, after, split, clean, illegal⟩ := Token.exists_first_illegal source.toList
  · rw [Token.scan, Token.checkAllowed_ok 0 allowed]
    refine (gives_silent _).bind ?_
    cases read : Token.lex source with
    | error e =>
      rw [read] at lexed
      cases e <;> exact lexed.bind_error
    | ok tokens =>
      rw [read] at lexed
      refine lexed.bind ?_
      simp only
      cases Token.number tokens (Token.seenNames tokens) with
      | error e => exact (gives_silent _).bind_error
      | ok scanned => exact (gives_silent _).bind ((gives_say _).bind (gives_pure scanned))
  · rw [Token.scan_illegal split clean illegal, split, Token.checkAllowed_illegal 0 after clean illegal, Nat.zero_add]
    exact (gives_silent _).bind_error

/-- Whatever stops a parse is spoken of on the way out. -/
theorem gives_parse (source : String) :
    Gives (parse source) (Message.parseTrace source) (Propositional.parse source) := by
  have scanned := gives_scan source
  have passed (e : CompileError) : Gives (do sayAll (Message.failureTrace e); throw e : Logged CompileError Parsed)
      (Message.failureTrace e) (.error e) := (gives_sayAll _).bind_quiet (gives_throw e)
  unfold parse Message.parseTrace Propositional.parse
  rw [List.cons_append]
  refine Gives.after_say (m := Message.parsing source) ?_
  cases read : Token.scan source with
  | error e =>
    rw [read] at scanned
    cases e <;> exact Gives.tryCatch_error scanned.bind_error (passed _)
  | ok s =>
    rw [read] at scanned
    simp only
    cases built : parseTokens s.tokens with
    | error failure =>
      exact Gives.tryCatch_error (scanned.bind_quiet (Gives.silent_error (by rw [built]; rfl))) (passed _)
    | ok ast =>
      refine Gives.tryCatch_ok (scanned.bind (Gives.silent_bind (a := ast) (by rw [built]; rfl) ?_))
      exact Gives.after_say (gives_pure _)

theorem gives_compile (source : String) :
    Gives (compile source) (Message.compileTrace source) (Propositional.compile source) := by
  have parsed := gives_parse source
  unfold compile Message.compileTrace Propositional.compile
  cases read : Propositional.parse source with
  | error e =>
    rw [read] at parsed
    show Gives _ (_ ++ []) _
    rw [List.append_nil]
    exact parsed.bind_error
  | ok p =>
    rw [read] at parsed
    refine parsed.bind ?_
    simp only [Except.bind]
    cases p.ast.resolve (place? p.names.length) with
    | none => exact gives_throw _
    | some ast => exact (gives_say _).bind (gives_pure _)

end Logged

end Propositional
