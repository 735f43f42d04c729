import OrderedCompletion.Proofs.Console
import OrderedCompletion.Proofs.Lifecycle
import OrderedCompletion.Proofs.Reading

/-! The run of a console is what its settings and the commands since make of it. -/

namespace OrderedCompletion

namespace Engine

open TermM (Yields)

variable {ctx : Context} {α β : Type} {x : EngineM α} {f : α → EngineM β} {eq : Equation}

/-- The action leaves the configuration as it is, also if it fails. -/
def Steadfast (x : EngineM α) : Prop :=
  ∀ e, Yields e x (fun _ e' => e'.config = e.config) fun _ e' => e'.config = e.config

theorem Steadfast.pure (a : α) : Steadfast (Pure.pure a) := fun _ => .pure rfl

theorem Steadfast.bind (hx : Steadfast x) (hf : ∀ a, Steadfast (f a)) : Steadfast (x >>= f) :=
  fun e => (hx e).bind fun a e₁ same =>
    (hf a e₁).mono (fun _ _ h => h.trans same) fun _ _ h => h.trans same

theorem Steadfast.bindGet {g : Engine → EngineM β} (h : ∀ e, Steadfast (g e)) : Steadfast (get >>= g) :=
  fun e => .bindGet (h e e)

theorem Steadfast.bindModify {m : Engine → Engine} {g : PUnit → EngineM β}
    (hm : ∀ e, (m e).config = e.config) (h : Steadfast (g ⟨⟩)) : Steadfast (modify m >>= g) :=
  fun e => .bindModify ((h (m e)).mono (fun _ _ same => same.trans (hm e)) fun _ _ same => same.trans (hm e))

theorem steadfast_of_idles {Q : α → Prop} (h : ∀ e, Idles e x Q) : Steadfast x :=
  fun e => (h e).mono (fun _ _ h => h.1.config) fun _ _ h => h.1.config

theorem steadfast_of_sure (h : ∀ e, Sure e x) : Steadfast x :=
  fun e => (h e).mono (fun _ _ h => h.config) fun _ _ no => no.elim

theorem fail_steadfast (failure : Failure) : Steadfast (fail ctx failure : EngineM α) :=
  fun _ => fail_yields fun _ => rfl

theorem poisonOnError_steadfast (hx : Steadfast x) : Steadfast (poisonOnError x) :=
  fun e => poisonOnError_yields (hx e) fun _ _ same => same

theorem checkTerminal_steadfast : Steadfast (checkTerminal ctx) := by
  rw [checkTerminal]
  refine .bindGet fun e => ?_
  split
  · exact .pure true
  · exact .pure true
  · exact fail_steadfast _
  · refine .bindGet fun e => ?_
    dsimp only
    split
    · exact .bindModify (fun _ => rfl) (.pure true)
    · refine (steadfast_of_sure fun _ => allUnorientable_sure _).bind fun none => ?_
      split
      · exact .pure false
      · refine (poisonOnError_steadfast (steadfast_of_idles fun _ => allPairsJoin_idles)).bind fun joined => ?_
        split
        · exact .pure false
        · exact .bindModify (fun _ => rfl) (.pure true)

theorem advance_steadfast : Steadfast (advance ctx) :=
  poisonOnError_steadfast fun _ => advanceInner_yields.mono (fun _ _ h => h.1.config) fun _ _ h => h.1.config

theorem step_steadfast : Steadfast (step ctx) := by
  rw [step]
  refine checkTerminal_steadfast.bind fun ended => ?_
  split
  · exact .pure true
  · exact advance_steadfast.bind fun _ => .pure false

theorem checkBudget_steadfast (taken : Nat) : Steadfast (checkBudget ctx taken) :=
  fun _ => checkBudget_yields.mono (fun _ _ same => congrArg config same) fun _ _ h => congrArg config h.1

theorem completeFrom_steadfast (fuel taken : Nat) : Steadfast (completeFrom ctx fuel taken) := by
  induction fuel generalizing taken with
  | zero => exact fun _ => .throw rfl
  | succ fuel ih =>
      rw [completeFrom]
      refine checkTerminal_steadfast.bind fun ended => ?_
      split
      · exact .pure _
      · exact (checkBudget_steadfast taken).bind fun _ => advance_steadfast.bind fun _ => ih (taken + 1)

theorem complete_steadfast : Steadfast (complete ctx) :=
  .bindModify (fun _ => rfl) (completeFrom_steadfast ctx.fuel 0)

theorem equalFrom_steadfast (fuel taken : Nat) : Steadfast (equalFrom ctx eq fuel taken) := by
  induction fuel generalizing taken with
  | zero => exact fun _ => .throw rfl
  | succ fuel ih =>
      rw [equalFrom]
      refine (steadfast_of_idles fun _ => normalizeSides_idles eq).bind fun sides => ?_
      split
      · exact .pure true
      · refine checkTerminal_steadfast.bind fun ended => ?_
        split
        · exact .pure false
        · exact (checkBudget_steadfast taken).bind fun _ => advance_steadfast.bind fun _ => ih (taken + 1)

theorem ensureUsable_steadfast : Steadfast (ensureUsable ctx) :=
  fun _ => ensureUsable_yields.mono (fun _ _ same => congrArg config same) fun _ _ h => congrArg config h.1

theorem reserve_steadfast (r : Ref) : Steadfast (reserve r) := steadfast_of_sure fun _ => reserve_sure r

theorem equal_steadfast (eq : Equation) : Steadfast (equal ctx eq) :=
  ensureUsable_steadfast.bind fun _ => (reserve_steadfast eq.lhs).bind fun _ =>
    (reserve_steadfast eq.rhs).bind fun _ => .bindModify (fun _ => rfl) (equalFrom_steadfast ctx.fuel 0)

theorem reduce_steadfast (r : Ref) : Steadfast (reduce ctx r) :=
  ensureUsable_steadfast.bind fun _ => (reserve_steadfast r).bind fun _ => .bindGet fun _ =>
    steadfast_of_idles fun _ => reduceWith_idles

theorem normalForm_steadfast (r : Ref) : Steadfast (normalForm ctx r) := by
  rw [normalForm]
  refine ensureUsable_steadfast.bind fun _ => .bindGet fun e => ?_
  have refused : ∀ failure, Steadfast (fail ctx failure >>= fun _ : PUnit => reduce ctx r) :=
    fun failure => (fail_steadfast failure).bind fun _ => reduce_steadfast r
  refine Steadfast.bind (fun _ _ => rfl) fun ground => ?_
  dsimp only
  split
  · split
    · exact refused _
    · exact reduce_steadfast r
  · split
    · exact refused _
    · exact reduce_steadfast r

theorem Steadfast.config_eq (h : Steadfast x) (e : Engine) (s : Store) : (after x e s).1.config = e.config := by
  have kept := h e s
  rw [after]
  cases outcome : (x e s).1.1 with
  | ok a =>
      rw [outcome] at kept
      exact kept
  | error halt =>
      rw [outcome] at kept
      exact kept

end Engine

/-- The commands that are calls of a run. -/
def Command.calls : Command → Bool
  | .complete => true
  | .step _ => true
  | .normalForm _ => true
  | .reduce _ => true
  | .equal _ => true
  | _ => false

/-- The commands that need a run: calls, and questions how it stands. -/
def Command.asks : Command → Bool
  | .display => true
  | .stats => true
  | command => command.calls

theorem Command.asks_of_calls {command : Command} (h : command.calls = true) : command.asks = true := by
  cases command with
  | display => rfl
  | stats => rfl
  | _ => exact h

/-- The commands that drop the run when they succeed. -/
def Command.drops : Command → Bool
  | .assume _ => true
  | .load _ => true
  | .order _ => true
  | .precedence _ => true
  | .unfailing _ => true
  | .reset => true
  | _ => false

def Reply.succeeds : Reply → Bool
  | .text _ => true
  | _ => false

/-- The names and the terms that are known. -/
structure Environment where
  symbols : SymbolTable
  store : Store

/-- How to read the files that a command may name. -/
abbrev Files := String → Except FileError String

/-- The texts that a command reads and that are no query, piece by piece. -/
def Command.texts (files : Files) : Command → List (List Reader.Piece)
  | .assume text => [Reader.equationPieces text.toList]
  | .load path =>
    if path.isEmpty then []
    else match files path with
      | .ok content => Reader.linePieces (Text.linesWithEnds content.toList)
      | .error _ => []
  | _ => []

/-- What a console was told that is of concern for its run. -/
inductive Told where
  /-- A call, with the step budget that was in force. -/
  | call (maxSteps : Option Nat) (command : Command)
  /-- A text that could not be read to its end. Its pieces became known. -/
  | unread (pieces : List Reader.Piece)

def Told.call? : Told → Option (Option Nat × Command)
  | .call maxSteps command => some (maxSteps, command)
  | .unread _ => none

namespace Console

/-- Puts a step budget into force, also for the run if there is one. -/
def budgeted (c : Console) (maxSteps : Option Nat) : Console :=
  { c with
    config := { c.config with maxSteps }
    run := c.run.map fun run => { run with engine := run.engine.setBudget maxSteps c.config.timeLimit } }

/-- A run that is new, and built from the settings of the console where `env` is known. -/
def fresh (c : Console) (env : Environment) : Console :=
  { c with symbols := env.symbols, store := env.store, run := none }.start.2

/-- Carries out calls again, each with the step budget that was in force. What became known in between becomes
known again. -/
def replay (c : Console) : List Told → Console
  | [] => c
  | .call budget command :: rest =>
    replay ((c.budgeted budget).execute (fun _ => .error .notFound) command).2 rest
  | .unread pieces :: rest => replay (c.keep pieces) rest

/-- The console with a new run, after the calls again, and with its own step budget. -/
def rebuilt (c : Console) (env : Environment) (issued : List Told) : Console :=
  ((c.fresh env).replay issued).budgeted c.config.maxSteps

end Console

/-- A console with the calls that it was asked for since it last dropped its run, each with the step budget
then in force, and with the texts in between that could not be read. -/
structure Session where
  console : Console := {}
  issued : List Told := []

/-- What is known was well formed, had the axioms of the console, and has grown since. -/
structure Environment.Serves (env : Environment) (c : Console) : Prop where
  names : env.symbols.names <+: c.symbols.names
  wellFormed : env.store.WellFormed
  axioms : env.store.HasAll .full c.axioms
  store : env.store ≤ c.store

namespace Session

/-- Carries out a command and keeps account of it. -/
def execute (session : Session) (files : Files) (command : Command) : Reply × Session :=
  let (reply, console) := session.console.execute files command
  let issued :=
    if command.calls then session.issued ++ [.call session.console.config.maxSteps command]
    else if command.drops then
      if reply.succeeds then [] else session.issued ++ (command.texts files).map .unread
    else session.issued
  (reply, { console, issued })

/-- Answers a line of input. -/
def answer (session : Session) (files : Files) (line : String) : Reply × Session :=
  session.execute files (.ofLine line)

/-- What lines make of a new console, each with the files that can be read then. -/
def ofLines (lines : List (Files × String)) : Session :=
  lines.foldl (fun session line => (session.answer line.1 line.2).2) {}

end Session

namespace Console

open Engine

variable {c c' c'' : Console} {α : Type} {files : Files} {env : Environment} {command : Command}
variable {issued : List Told} {pieces : List Reader.Piece}

/-- The run has the settings of the console. -/
def Fits (c : Console) : Prop := ∀ run ∈ c.run, run.order = c.order ∧ run.engine.config = c.config

/-- The settings are the same, and there is at least what there was. -/
structure Advances (c c' : Console) : Prop where
  sound : Sound c'
  fits : Fits c'
  axioms : c'.axioms = c.axioms
  order : c'.order = c.order
  precedence : c'.precedence = c.precedence
  config : c'.config = c.config
  symbols : c.symbols.names <+: c'.symbols.names
  store : c.store ≤ c'.store
  run : c'.run = none → c.run = none

theorem Advances.refl (h : Sound c) (fits : Fits c) : Advances c c :=
  ⟨h, fits, rfl, rfl, rfl, rfl, List.prefix_refl _, le_rfl, id⟩

theorem Advances.trans (h : Advances c c') (h' : Advances c' c'') : Advances c c'' where
  sound := h'.sound
  fits := h'.fits
  axioms := h'.axioms.trans h.axioms
  order := h'.order.trans h.order
  precedence := h'.precedence.trans h.precedence
  config := h'.config.trans h.config
  symbols := h.symbols.trans h'.symbols
  store := h.store.trans h'.store
  run := fun none => h.run (h'.run none)

theorem start_of_some {run : Run} (h : c.run = some run) : c.start = (run, c) := by
  rw [start, h]

/-- What is built from the settings. -/
def built (c : Console) : Run where
  order := c.order
  precedence := (Precedence.ofNames c.precedence c.symbols).1
  engine := ((Engine.ofAxioms c.config c.axioms).run c.store).1

theorem start_of_none (h : c.run = none) : c.start = (c.built, { c with
    symbols := (Precedence.ofNames c.precedence c.symbols).2
    store := ((Engine.ofAxioms c.config c.axioms).run c.store).2
    run := some c.built }) := by
  rw [start, h]
  rfl

theorem start_run (c : Console) : (c.start).2.run = some c.start.1 := by
  rw [start]
  cases here : c.run with
  | some run => exact here
  | none => rfl

theorem start_start (c : Console) : c.start.2.start = c.start := start_of_some c.start_run

theorem start_advances (h : Sound c) (fits : Fits c) : Advances c c.start.2 := by
  have started := h.start
  cases here : c.run with
  | some run =>
      rw [start_of_some here]
      exact .refl h fits
  | none =>
      have built := start_of_none here
      have fits' : Fits c.start.2 := by
        intro run same
        rw [start_run] at same
        obtain rfl := Option.some.inj same
        rw [built]
        exact ⟨rfl, rfl⟩
      have grows := started.grows
      have sound := started.sound
      rw [built] at fits' grows sound ⊢
      exact ⟨sound, fits', rfl, rfl, rfl, rfl, c.symbols.internAll_grows c.precedence, grows, fun _ => here⟩

theorem call_start (c : Console) (action : Context → EngineM α) : c.start.2.call action = c.call action := by
  rw [call, call, start_start]

/-- A call keeps the settings, if it keeps the configuration. -/
theorem call_advances {action : Context → EngineM α} (h : Sound c) (fits : Fits c)
    (harmless : Harmless c.store action) (steadfast : ∀ ctx, Steadfast (action ctx)) :
    Advances c (c.call action).2 := by
  have started := start_advances h fits
  obtain ⟨p, axioms, posed, kept⟩ := h.start.carries
  -- the call goes on from the store as it is when the run is there
  let later : Problem := { p with store := c.start.2.store }
  have posed' : later.Posed .full := ⟨kept.wellFormed, posed.has.mono posed.wellFormed kept.wellFormed kept.later⟩
  have kept' : later.Kept .conserving c.start.1.engine c.start.2.store := by
    refine ⟨kept.wellFormed, le_rfl, ?_⟩
    have same : later.theory = p.theory := posed.has.theory_eq posed.wellFormed kept.wellFormed kept.later
    rw [same]
    exact kept.presents
  have obeys : (c.start.2.context c.start.1).order.Obeys .conserving := Order.ofKind_conserves _ _
  have called := harmless obeys posed' kept' started.store
  refine started.trans ⟨h.call harmless, ?_, rfl, rfl, rfl, rfl, List.prefix_refl _, called.later, nofun⟩
  intro run same
  obtain rfl := Option.some.inj same
  obtain ⟨order, config⟩ := started.fits _ c.start_run
  exact ⟨order, ((steadfast _).config_eq _ _).trans config⟩

theorem display_advances (h : Sound c) (fits : Fits c) : Advances c c.display.2 := start_advances h fits

theorem complete_advances (h : Sound c) (fits : Fits c) : Advances c c.complete.2 := by
  have called := call_advances h fits harmless_complete fun _ => complete_steadfast
  rw [Console.complete]
  split
  · rename_i c' same
    rw [same] at called
    exact called.trans (display_advances called.sound called.fits)
  · rename_i text c' same
    rw [same] at called
    exact called

theorem takeSteps_advances (h : Sound c) (fits : Fits c) (taken n : Nat) :
    Advances c (takeSteps taken n c).2 := by
  induction n generalizing c taken with
  | zero => exact .refl h fits
  | succ n ih =>
      have called := call_advances h fits harmless_step fun _ => step_steadfast
      rw [takeSteps]
      split
      · rename_i c' same
        rw [same] at called
        exact called
      · rename_i c' same
        rw [same] at called
        exact called.trans (ih called.sound called.fits (taken + 1))
      · rename_i text c' same
        rw [same] at called
        exact called

theorem step_advances (h : Sound c) (fits : Fits c) (arg : String) : Advances c (c.step arg).2 := by
  rw [Console.step]
  split
  · exact .refl h fits
  · rename_i n _
    have stepped := takeSteps_advances h fits 0 n
    split
    · rename_i text c' same
      rw [same] at stepped
      exact stepped
    · rename_i taken c' same
      rw [same] at stepped
      exact stepped.trans (start_advances stepped.sound stepped.fits)

/-- Pieces of a text change no settings. -/
theorem keep_advances (h : Sound c) (fits : Fits c) (pieces : List Reader.Piece) : Advances c (c.keep pieces) :=
  ⟨h.keep pieces, fits, rfl, rfl, rfl, rfl, (h.grows_keep pieces).names, (h.grows_keep pieces).store, id⟩

/-- What is known once the term of a query is stored. -/
def readTerm (c : Console) (read : ReadTerm) : Console :=
  { c with symbols := read.symbols, store := (Store.ofTerm read.term c.store).2 }

/-- What is known once the equation of a query is stored. -/
def readEquation (c : Console) (read : ReadEquation) : Console :=
  { c with symbols := read.symbols, store := (Equation.ofTerms read.lhs read.rhs c.store).2 }

/-- A text that can be read is one piece. -/
theorem keep_textPieces {read : ReadTerm} {text : String} (ok : c.symbols.readTerm text = .ok read) :
    c.keep (Reader.textPieces text.toList) = c.readTerm read := by
  obtain ⟨e, written, rfl⟩ := SymbolTable.readTerm_ok_iff.1 ok
  rw [keep, Reader.textPieces_of_ok written]
  rfl

theorem keep_equationPieces {read : ReadEquation} {text : String} (ok : c.symbols.readEquation text = .ok read) :
    c.keep (Reader.equationPieces text.toList) = c.readEquation read := by
  obtain ⟨pair, written, rfl⟩ := SymbolTable.readEquation_ok_iff.1 ok
  rw [keep, Reader.equationPieces_of_ok written]
  rfl

theorem readTerm_advances {read : ReadTerm} {text : String} (h : Sound c) (fits : Fits c)
    (ok : c.symbols.readTerm text = .ok read) : Advances c (c.readTerm read) :=
  keep_textPieces ok ▸ keep_advances h fits _

theorem readEquation_advances {read : ReadEquation} {text : String} (h : Sound c) (fits : Fits c)
    (ok : c.symbols.readEquation text = .ok read) : Advances c (c.readEquation read) :=
  keep_equationPieces ok ▸ keep_advances h fits _

/-- The answer to a query about a term is what the call that it makes has found. -/
def answerTerm (names : List String) : Except String Ref × Console → Reply × Console
  | (.ok u, c) => (.text ((c.store.term u).printOr c.symbols (spellNamed names)), c)
  | (.error fault, c) => (.error fault, c)

def answerEqual : Except String Bool × Console → Reply × Console
  | (.ok yes, c) => (.text (if yes then "true" else "false"), c)
  | (.error fault, c) => (.error fault, c)

theorem answerTerm_console (names : List String) (out : Except String Ref × Console) :
    (answerTerm names out).2 = out.2 := by
  obtain ⟨outcome, c⟩ := out
  cases outcome with
  | ok u => rfl
  | error fault => rfl

theorem answerEqual_console (out : Except String Bool × Console) : (answerEqual out).2 = out.2 := by
  obtain ⟨outcome, c⟩ := out
  cases outcome with
  | ok yes => rfl
  | error fault => rfl

theorem termQuery_of_ok {read : ReadTerm} {text : String} (action : Context → Ref → EngineM Ref)
    (ok : c.symbols.readTerm text = .ok read) : c.termQuery text action =
      answerTerm read.varNames
        ((c.readTerm read).call fun ctx => action ctx (Store.ofTerm read.term c.store).1) := by
  rw [termQuery, ok]
  rfl

theorem equal_of_ok {read : ReadEquation} {text : String} (ok : c.symbols.readEquation text = .ok read) :
    c.equal text = answerEqual ((c.readEquation read).call fun ctx =>
      Engine.equal ctx (Equation.ofTerms read.lhs read.rhs c.store).1) := by
  rw [Console.equal, ok]
  rfl

theorem termQuery_advances {action : Context → Ref → EngineM Ref} (h : Sound c) (fits : Fits c) (text : String)
    (harmless : ∀ {s : Store} {r : Ref} {t : Term}, s.WellFormed → s.Denotes r t →
      Harmless s fun ctx => action ctx r)
    (steadfast : ∀ ctx r, Steadfast (action ctx r)) : Advances c (c.termQuery text action).2 := by
  cases found : c.symbols.readTerm text with
  | error fault =>
      rw [termQuery, found]
      exact keep_advances h fits _
  | ok read =>
      have known := readTerm_advances h fits found
      obtain ⟨-, denotes⟩ := h.stored found
      rw [termQuery_of_ok action found, answerTerm_console]
      exact known.trans (call_advances known.sound known.fits (harmless known.sound.wellFormed denotes)
        fun ctx => steadfast ctx _)

theorem equal_advances (h : Sound c) (fits : Fits c) (text : String) : Advances c (c.equal text).2 := by
  cases found : c.symbols.readEquation text with
  | error fault =>
      rw [Console.equal, found]
      exact keep_advances h fits _
  | ok read =>
      have known := readEquation_advances h fits found
      obtain ⟨hl, hr⟩ := SymbolTable.readEquation_over found
      obtain ⟨wf, -, means⟩ := Equation.ofTerms_spec h.wellFormed hl hr
      rw [equal_of_ok found, answerEqual_console]
      exact known.trans (call_advances known.sound known.fits (harmless_equal wf means)
        fun _ => equal_steadfast _)

theorem execute_advances (h : Sound c) (fits : Fits c) (asks : command.asks = true) :
    Advances c (c.execute files command).2 := by
  cases command with
  | complete => exact complete_advances h fits
  | step arg => exact step_advances h fits arg
  | display => exact display_advances h fits
  | stats => exact start_advances h fits
  | normalForm text =>
      exact termQuery_advances h fits text harmless_normalForm fun _ r => normalForm_steadfast r
  | reduce text => exact termQuery_advances h fits text harmless_reduce fun _ r => reduce_steadfast r
  | equal text => exact equal_advances h fits text
  | none => cases asks
  | help => cases asks
  | quit => cases asks
  | assume text => cases asks
  | load path => cases asks
  | order arg => cases asks
  | precedence arg => cases asks
  | unfailing arg => cases asks
  | steps arg => cases asks
  | reset => cases asks
  | unknown word => cases asks

theorem Advances.known (h : Advances c c') : c.known.Grows c'.known := ⟨h.symbols, h.store, h.sound.wellFormed⟩

/-- Nothing changes where at least as much is known as in the console. -/
def Idle (c : Console) : Told → Prop
  | .call _ command => ∀ (files : Files) (c' : Console), c.known.Grows c'.known → (c'.execute files command).2 = c'
  | .unread pieces => ∀ c' : Console, c.known.Grows c'.known → c'.keep pieces = c'

theorem Idle.mono {told : Told} (idle : Idle c told) (later : c.known.Grows c'.known) : Idle c' told := by
  cases told with
  | call n command => exact fun files c'' more => idle files c'' (later.trans more)
  | unread pieces => exact fun c'' more => idle c'' (later.trans more)

/-- What is known already is not kept again. -/
theorem keep_again (h : Sound c) (later : (c.keep pieces).known.Grows c'.known) : c'.keep pieces = c' := by
  have again : pieces.foldl Reader.Known.add (c.known.within c'.symbols c'.store) = _ :=
    Reader.Known.foldl_again h.wellFormed ⟨later.names, later.store, later.wellFormed⟩
  have here : c'.known = c.known.within c'.symbols c'.store := rfl
  rw [keep, here, again]
  rfl

theorem keepAll_advances (h : Sound c) (fits : Fits c) (lines : List (List Reader.Piece)) :
    Advances c (c.keepAll lines) := by
  induction lines generalizing c with
  | nil => exact .refl h fits
  | cons pieces lines ih => exact (keep_advances h fits pieces).trans (ih (h.keep pieces) fits)

theorem keepAll_run (c : Console) (lines : List (List Reader.Piece)) : (c.keepAll lines).run = c.run := by
  induction lines generalizing c with
  | nil => rfl
  | cons pieces lines ih => exact ih (c.keep pieces)

theorem keepAll_idle (h : Sound c) (fits : Fits c) (lines : List (List Reader.Piece)) :
    ∀ pieces ∈ lines, Idle (c.keepAll lines) (.unread pieces) := by
  induction lines generalizing c with
  | nil => exact fun _ no => absurd no List.not_mem_nil
  | cons pieces lines ih =>
      intro some mem
      rcases List.mem_cons.1 mem with rfl | later
      · exact fun c' later => keep_again h ((keepAll_advances (h.keep some) fits lines).known.trans later)
      · exact ih (h.keep pieces) fits some later

theorem Advances.serves (later : Advances c c') (h : env.Serves c) : env.Serves c' where
  names := h.names.trans later.symbols
  wellFormed := h.wellFormed
  axioms := later.axioms ▸ h.axioms
  store := h.store.trans later.store

theorem fresh_here (none : c.run = none) : c.fresh ⟨c.symbols, c.store⟩ = c.start.2 := by
  obtain ⟨symbols, store, axioms, order, precedence, config, run⟩ := c
  obtain rfl : run = Option.none := none
  rfl

/-- A command that reads nothing is answered alike where a run is built at once. -/
theorem complete_start (c : Console) : c.start.2.complete = c.complete := by
  rw [Console.complete, Console.complete, call_start]

theorem takeSteps_start (c : Console) (taken n : Nat) :
    takeSteps taken (n + 1) c.start.2 = takeSteps taken (n + 1) c := by
  rw [takeSteps, takeSteps, call_start]

theorem step_start {arg : String} {n : Nat} (c : Console)
    (count : (if arg.isEmpty then some 1 else readCount? arg) = some n) : c.start.2.step arg = c.step arg := by
  rw [Console.step, Console.step, count]
  cases n with
  | zero =>
      dsimp only [takeSteps]
      rw [start_start]
  | succ n =>
      dsimp only
      rw [takeSteps_start]

theorem stats_start (c : Console) : c.start.2.stats = c.stats := by
  rw [Console.stats, Console.stats, start_start]

theorem display_start (c : Console) : c.start.2.display = c.display := by
  rw [Console.display, Console.display, start_start]

/-- Where the term of a query is known, it is read as the same. -/
theorem termQuery_start {read : ReadTerm} {text : String} (action : Context → Ref → EngineM Ref) (h : Sound c)
    (fits : Fits c) (ok : c.symbols.readTerm text = .ok read) :
    (c.readTerm read).start.2.termQuery text action = c.termQuery text action := by
  have known := readTerm_advances h fits ok
  have started := start_advances known.sound known.fits
  obtain ⟨-, denotes⟩ := h.stored ok
  have stored := Store.ofTerm_of_denotes started.sound.wellFormed
    (denotes.mono known.sound.wellFormed started.sound.wellFormed started.store)
  have same : (c.readTerm read).start.2.readTerm { read with symbols := (c.readTerm read).start.2.symbols } =
      (c.readTerm read).start.2 := by
    rw [Console.readTerm, stored]
  rw [termQuery_of_ok action ok, termQuery_of_ok action (SymbolTable.readTerm_again ok started.symbols), same,
    call_start, stored]

theorem equal_start {read : ReadEquation} {text : String} (h : Sound c) (fits : Fits c)
    (ok : c.symbols.readEquation text = .ok read) :
    (c.readEquation read).start.2.equal text = c.equal text := by
  have known := readEquation_advances h fits ok
  have started := start_advances known.sound known.fits
  obtain ⟨hl, hr⟩ := SymbolTable.readEquation_over ok
  obtain ⟨wf, -, means⟩ := Equation.ofTerms_spec h.wellFormed hl hr
  have stored := Store.ofTerms_of_means started.sound.wellFormed
    (Equation.means_mono means wf started.sound.wellFormed started.store)
  have same : (c.readEquation read).start.2.readEquation
      { read with symbols := (c.readEquation read).start.2.symbols } = (c.readEquation read).start.2 := by
    rw [Console.readEquation, stored]
  rw [equal_of_ok ok, equal_of_ok (SymbolTable.readEquation_again ok started.symbols), same, call_start, stored]

/-- The console gets its run where `env` is known: with the run there from the start the command is answered
alike, and makes the same of the console unless it changes nothing. -/
structure Ready (c : Console) (env : Environment) (command : Command) : Prop where
  known : c.known.Grows (c.fresh env).known
  serves : ∀ files, env.Serves (c.execute files command).2
  reply : ∀ files, (c.execute files command).1 = ((c.fresh env).execute files command).1
  idle : ∀ files n, (c.execute files command).2.run = none → Idle (c.execute files command).2 (.call n command)
  console : ∀ files run, (c.execute files command).2.run = some run →
    (c.execute files command).2 = ((c.fresh env).execute files command).2

theorem serves_here (h : Sound c) : Environment.Serves ⟨c.symbols, c.store⟩ c :=
  ⟨List.prefix_refl _, h.wellFormed, h.axioms, le_rfl⟩

/-- A command that is answered alike once the run is built in the console `c'` is ready where that console is. -/
theorem Advances.ready (h : Advances c c') (none : c'.run = none) (asks : command.asks = true)
    (same : ∀ files, c'.start.2.execute files command = c.execute files command) :
    c.Ready ⟨c'.symbols, c'.store⟩ command := by
  have fresh : c.fresh ⟨c'.symbols, c'.store⟩ = c'.start.2 := by
    rw [← fresh_here none, Console.fresh, Console.fresh, h.axioms, h.order, h.precedence, h.config]
  have started := start_advances h.sound h.fits
  have done : ∀ files, Advances c'.start.2 (c.execute files command).2 := by
    intro files
    rw [← same files]
    exact execute_advances started.sound started.fits asks
  refine ⟨?_, fun files => ?_, fun files => ?_, fun files _ none => ?_, fun files _ _ => ?_⟩
  · rw [fresh]
    exact (h.trans started).known
  · exact (started.trans (done files)).serves (serves_here h.sound)
  · rw [fresh, same files]
  · have some := (done files).run none
    rw [start_run] at some
    cases some
  · rw [fresh, same files]

/-- A command that is refused whatever is known, as its text cannot be read. -/
theorem ready_of_refused (reply : Reply) (pieces : List Reader.Piece) (h : Sound c) (fits : Fits c)
    (none : c.run = none) (refused : ∀ files c, Console.execute files c command = (reply, c.keep pieces)) :
    c.Ready ⟨c.symbols, c.store⟩ command := by
  have kept := keep_advances h fits pieces
  refine ⟨?_, fun files => ?_, fun files => ?_, fun files _ _ files' c' later => ?_, fun files run some => ?_⟩
  · rw [fresh_here none]
    exact (start_advances h fits).known
  · rw [refused]
    exact kept.serves (serves_here h)
  · rw [refused, refused]
  · rw [refused] at later ⊢
    exact keep_again h later
  · rw [refused] at some
    cases none.symm.trans some

theorem ready_termQuery {action : Context → Ref → EngineM Ref} {text : String} (h : Sound c) (fits : Fits c)
    (none : c.run = none) (asks : command.asks = true)
    (query : ∀ files c, Console.execute files c command = c.termQuery text action) :
    ∃ env, c.Ready env command := by
  cases found : c.symbols.readTerm text with
  | error fault =>
      refine ⟨_, ready_of_refused (.error fault.message) (Reader.textPieces text.toList) h fits none
        fun files c => ?_⟩
      rw [query, termQuery, SymbolTable.readTerm_error found]
  | ok read =>
      refine ⟨_, (readTerm_advances h fits found).ready none asks fun files => ?_⟩
      rw [query, query, termQuery_start action h fits found]

theorem exists_ready (h : Sound c) (fits : Fits c) (none : c.run = none) (asks : command.asks = true) :
    ∃ env, c.Ready env command := by
  have here := Advances.refl h fits
  cases command with
  | complete => exact ⟨_, here.ready none asks fun _ => c.complete_start⟩
  | step arg =>
      cases count : (if arg.isEmpty then some 1 else readCount? arg) with
      | none =>
          refine ⟨_, ready_of_refused (.error (badCount "step")) [] h fits none fun files c => ?_⟩
          rw [execute, Console.step, count]
          rfl
      | some n => exact ⟨_, here.ready none asks fun _ => c.step_start count⟩
  | display =>
      refine ⟨_, here.ready none asks fun files => ?_⟩
      rw [execute, execute, display_start]
  | stats => exact ⟨_, here.ready none asks fun _ => c.stats_start⟩
  | normalForm text => exact ready_termQuery h fits none asks fun _ _ => rfl
  | reduce text => exact ready_termQuery h fits none asks fun _ _ => rfl
  | equal text =>
      cases found : c.symbols.readEquation text with
      | error fault =>
          refine ⟨_, ready_of_refused (.error fault.message) (Reader.equationPieces text.toList) h fits none
            fun files c => ?_⟩
          rw [execute, Console.equal, SymbolTable.readEquation_error found]
      | ok read =>
          exact ⟨_, (readEquation_advances h fits found).ready none asks fun _ => equal_start h fits found⟩
  | none => cases asks
  | help => cases asks
  | quit => cases asks
  | assume text => cases asks
  | load path => cases asks
  | order arg => cases asks
  | precedence arg => cases asks
  | unfailing arg => cases asks
  | steps arg => cases asks
  | reset => cases asks
  | unknown word => cases asks

theorem budgeted_self (fits : Fits c) : c.budgeted c.config.maxSteps = c := by
  obtain ⟨symbols, store, axioms, order, precedence, config, run⟩ := c
  cases run with
  | none => rfl
  | some run =>
      obtain ⟨-, same⟩ := fits run rfl
      obtain ⟨kind, ranks, engine⟩ := run
      obtain rfl : engine.config = config := same
      rfl

theorem budgeted_budgeted (c : Console) (m n : Option Nat) : (c.budgeted m).budgeted n = c.budgeted n := by
  obtain ⟨symbols, store, axioms, order, precedence, config, run⟩ := c
  cases run with
  | none => rfl
  | some run => rfl

theorem fresh_budgeted (c : Console) (n : Option Nat) : (c.budgeted n).fresh env = (c.fresh env).budgeted n := rfl

theorem replay_append (c : Console) (before after : List Told) :
    c.replay (before ++ after) = (c.replay before).replay after := by
  induction before generalizing c with
  | nil => rfl
  | cons told before ih =>
      cases told with
      | call n command => exact ih _
      | unread pieces => exact ih _

theorem replay_unread (c : Console) (lines : List (List Reader.Piece)) :
    c.replay (lines.map .unread) = c.keepAll lines := by
  induction lines generalizing c with
  | nil => rfl
  | cons pieces lines ih => exact ih (c.keep pieces)

theorem keepAll_budgeted (c : Console) (n : Option Nat) (lines : List (List Reader.Piece)) :
    (c.budgeted n).keepAll lines = (c.keepAll lines).budgeted n := by
  induction lines generalizing c with
  | nil => rfl
  | cons pieces lines ih => exact ih (c.keep pieces)

/-- The budget before the first call counts for nothing. -/
theorem replay_budgeted (c : Console) (m n : Option Nat) :
    ((c.budgeted m).replay issued).budgeted n = (c.replay issued).budgeted n := by
  induction issued generalizing c with
  | nil => exact c.budgeted_budgeted m n
  | cons told rest ih =>
      cases told with
      | call k command => rw [replay, replay, budgeted_budgeted]
      | unread pieces => exact ih (c.keep pieces)

theorem replay_idle (idle : ∀ told ∈ issued, Idle c told) (later : c.known.Grows c'.known) (n : Option Nat) :
    (c'.replay issued).budgeted n = c'.budgeted n := by
  induction issued generalizing c' with
  | nil => rfl
  | cons told rest ih =>
      have first := idle told List.mem_cons_self
      have others : ∀ told ∈ rest, Idle c told := fun told mem => idle told (List.mem_cons_of_mem _ mem)
      cases told with
      | call k command =>
          have later' : c.known.Grows (c'.budgeted k).known := later
          rw [replay, first _ _ later', ih others later', budgeted_budgeted]
      | unread pieces =>
          rw [replay, first c' later]
          exact ih others later

theorem fresh_fits (c : Console) (env : Environment) : Fits (c.fresh env) := by
  intro run here
  rw [Console.fresh, start_of_none rfl] at here ⊢
  obtain rfl := Option.some.inj here
  exact ⟨rfl, rfl⟩

theorem rebuilt_idle (idle : ∀ told ∈ issued, Idle c told) (later : c.known.Grows (c.fresh env).known) :
    c.rebuilt env issued = c.fresh env := by
  have config : (c.fresh env).config = c.config := by
    rw [Console.fresh, start_of_none rfl]
  rw [rebuilt, replay_idle idle later, ← config, budgeted_self (c.fresh_fits env)]

theorem rebuilt_budgeted (c : Console) (n : Option Nat) :
    (c.budgeted n).rebuilt env issued = (c.rebuilt env issued).budgeted n := by
  rw [rebuilt, rebuilt, fresh_budgeted, replay_budgeted, budgeted_budgeted]
  rfl

theorem Advances.rebuilt_eq (h : Advances c c') : c'.rebuilt env issued = c.rebuilt env issued := by
  rw [rebuilt, rebuilt, Console.fresh, Console.fresh, h.axioms, h.order, h.precedence, h.config]

/-- A command that needs a run names no files. -/
theorem execute_files (c : Console) (asks : command.asks = true) (files files' : Files) :
    c.execute files command = c.execute files' command := by
  cases command with
  | load path => cases asks
  | _ => rfl

/-- A command that may drop the run drops it if it succeeds, and keeps what it reads if it does not. -/
theorem execute_drops (drops : command.drops = true) :
    (c.execute files command).1.succeeds = true ∧ (c.execute files command).2.run = none ∨
      (c.execute files command).1.succeeds = false ∧
        (c.execute files command).2 = c.keepAll (command.texts files) := by
  cases command with
  | assume text =>
      rw [execute, addAxiom]
      split
      · exact .inr ⟨rfl, rfl⟩
      · exact .inl ⟨rfl, rfl⟩
  | load path =>
      rw [execute, load, Command.texts]
      split
      · exact .inr ⟨rfl, rfl⟩
      · cases files path with
        | error e => exact .inr ⟨rfl, rfl⟩
        | ok content =>
            dsimp only
            split
            · exact .inr ⟨rfl, rfl⟩
            · exact .inl ⟨rfl, rfl⟩
  | order arg =>
      rw [execute]
      unfold setOrder
      split
      · exact .inl ⟨rfl, rfl⟩
      · exact .inl ⟨rfl, rfl⟩
      · exact .inr ⟨rfl, rfl⟩
  | precedence arg =>
      rw [execute, setPrecedence]
      split
      · exact .inr ⟨rfl, rfl⟩
      · exact .inl ⟨rfl, rfl⟩
  | unfailing arg =>
      rw [execute]
      unfold setUnfailing
      dsimp only
      split
      · exact .inl ⟨rfl, rfl⟩
      · exact .inl ⟨rfl, rfl⟩
      · exact .inr ⟨rfl, rfl⟩
  | reset => exact .inl ⟨rfl, rfl⟩
  | none => cases drops
  | help => cases drops
  | quit => cases drops
  | complete => cases drops
  | step arg => cases drops
  | display => cases drops
  | stats => cases drops
  | normalForm text => cases drops
  | reduce text => cases drops
  | equal text => cases drops
  | steps arg => cases drops
  | unknown word => cases drops

theorem setSteps_budgeted (c : Console) (arg : String) :
    (c.setSteps arg).2 = c ∨ ∃ n, (c.setSteps arg).2 = c.budgeted n := by
  unfold setSteps
  dsimp only
  split
  · exact .inr ⟨none, rfl⟩
  · split
    · rename_i n _
      exact .inr ⟨some n, rfl⟩
    · exact .inl rfl

end Console

namespace Session

open Console

variable {session : Session} {files : Files} {line : String} {command : Command}

/-- The run is what its settings and the calls make of it. Without a run no call changed anything. -/
structure Sound (session : Session) : Prop where
  console : session.console.Sound
  fits : session.console.Fits
  rebuilt : ∀ run, session.console.run = some run → ∃ env : Environment, env.Serves session.console ∧
    session.console = session.console.rebuilt env session.issued
  idle : session.console.run = none → ∀ told ∈ session.issued, Idle session.console told

theorem new_sound : Sound {} where
  console := Opened.new.sound
  fits := fun run some => by cases some
  rebuilt := fun run some => by cases some
  idle := fun _ told no => absurd no List.not_mem_nil

/-- A command that needs a run finds it as the settings and the calls make it. -/
theorem Sound.asked (h : Sound session) (asks : command.asks = true) :
    ∃ env : Environment,
      (∀ files, env.Serves (session.console.execute files command).2) ∧
      (∀ files, (session.console.execute files command).1 =
        ((session.console.rebuilt env session.issued).execute files command).1) ∧
      (∀ files n, (session.console.execute files command).2.run = none →
        Idle (session.console.execute files command).2 (.call n command)) ∧
      (∀ files run, (session.console.execute files command).2.run = some run →
        (session.console.execute files command).2 =
          ((session.console.rebuilt env session.issued).execute files command).2) := by
  rcases Option.eq_none_or_eq_some session.console.run with here | ⟨run, here⟩
  · obtain ⟨env, ready⟩ := exists_ready h.console h.fits here asks
    refine ⟨env, ready.serves, ?_⟩
    rw [rebuilt_idle (h.idle here) ready.known]
    exact ⟨ready.reply, ready.idle, ready.console⟩
  · obtain ⟨env, serves, same⟩ := h.rebuilt run here
    have done : ∀ files, Advances session.console (session.console.execute files command).2 :=
      fun files => execute_advances h.console h.fits asks
    refine ⟨env, fun files => (done files).serves serves, ?_⟩
    rw [← same]
    refine ⟨fun _ => rfl, fun files _ none => ?_, fun _ _ _ => rfl⟩
    rw [(done files).run none] at here
    cases here

/-- A call adds to what the run is made of. -/
theorem Sound.called (h : Sound session) (calls : command.calls = true) :
    Sound (session.execute files command).2 := by
  have asks := Command.asks_of_calls calls
  have done : Advances session.console (session.console.execute files command).2 :=
    execute_advances h.console h.fits asks
  obtain ⟨env, serves, -, idle, console⟩ := h.asked asks
  rw [Session.execute, calls]
  refine ⟨done.sound, done.fits, fun run here => ⟨env, serves files, ?_⟩, fun none told mem => ?_⟩
  · have again : (session.console.rebuilt env session.issued).execute (fun _ => .error .notFound) command =
        (session.console.rebuilt env session.issued).execute files command :=
      execute_files _ asks _ _
    change (session.console.execute files command).2 = (session.console.execute files command).2.rebuilt env
      (session.issued ++ [.call session.console.config.maxSteps command])
    rw [done.rebuilt_eq, Console.rebuilt, replay_append]
    change _ = (((session.console.rebuilt env session.issued).execute _ command).2).budgeted _
    rw [again, ← console files run here, ← done.config, budgeted_self done.fits]
  · rcases List.mem_append.1 mem with old | new
    · exact (h.idle (done.run none) told old).mono done.known
    · obtain rfl := List.mem_singleton.1 new
      exact idle files _ none

/-- Where there was no run, there is one now. -/
theorem Sound.started (h : Sound session) : Sound { session with console := session.console.start.2 } := by
  have done := start_advances h.console h.fits
  refine ⟨done.sound, done.fits, fun run here => ?_, fun none told mem =>
    (h.idle (done.run none) told mem).mono done.known⟩
  change ∃ env : Environment, env.Serves session.console.start.2 ∧
    session.console.start.2 = session.console.start.2.rebuilt env session.issued
  rcases Option.eq_none_or_eq_some session.console.run with none | ⟨run, some⟩
  · refine ⟨_, done.serves (serves_here h.console), ?_⟩
    have here := fresh_here none
    have later := done.known
    rw [← here] at later
    rw [done.rebuilt_eq, rebuilt_idle (h.idle none) later, here]
  · rw [start_of_some some]
    exact h.rebuilt run some

/-- Another step budget is in force from now on. -/
theorem Sound.budgeted (h : Sound session) (n : Option Nat) :
    Sound { session with console := session.console.budgeted n } := by
  refine ⟨h.console.withBudget _ n session.console.config.timeLimit, fun run here => ?_, fun run here => ?_,
    fun none told mem => (h.idle (Option.map_eq_none_iff.1 none) told mem).mono ?_⟩
  · obtain ⟨run, before, rfl⟩ := Option.map_eq_some_iff.1 here
    obtain ⟨order, config⟩ := h.fits run before
    refine ⟨order, ?_⟩
    change { run.engine.config with maxSteps := n, timeLimit := session.console.config.timeLimit } =
      { session.console.config with maxSteps := n }
    rw [config]
  · obtain ⟨run, before, -⟩ := Option.map_eq_some_iff.1 here
    obtain ⟨env, serves, same⟩ := h.rebuilt run before
    refine ⟨env, ⟨serves.names, serves.wellFormed, serves.axioms, serves.store⟩, ?_⟩
    change session.console.budgeted n = (session.console.budgeted n).rebuilt env session.issued
    rw [rebuilt_budgeted, ← same]
  · exact ⟨List.prefix_refl _, le_rfl, h.console.wellFormed⟩

/-- A command that drops the run leaves nothing to make it of. -/
theorem sound_of_dropped {c : Console} (h : c.Sound) (none : c.run = none) : Sound { console := c } where
  console := h
  fits := fun run here => by
    rw [none] at here
    cases here
  rebuilt := fun run here => by
    rw [none] at here
    cases here
  idle := fun _ told no => absurd no List.not_mem_nil

/-- Texts that cannot be read add to what becomes known again. -/
theorem Sound.unread (h : Sound session) (lines : List (List Reader.Piece)) :
    Sound ⟨session.console.keepAll lines, session.issued ++ lines.map .unread⟩ := by
  have kept := keepAll_advances h.console h.fits lines
  refine ⟨kept.sound, kept.fits, fun run here => ?_, fun none told mem => ?_⟩
  · rw [keepAll_run] at here
    obtain ⟨env, serves, same⟩ := h.rebuilt run here
    refine ⟨env, kept.serves serves, ?_⟩
    change session.console.keepAll lines = (session.console.keepAll lines).rebuilt env
      (session.issued ++ lines.map .unread)
    rw [kept.rebuilt_eq, Console.rebuilt, replay_append, replay_unread, ← keepAll_budgeted]
    exact congrArg (·.keepAll lines) same
  · rcases List.mem_append.1 mem with old | new
    · exact (h.idle (kept.run none) told old).mono kept.known
    · obtain ⟨pieces, inside, rfl⟩ := List.mem_map.1 new
      exact keepAll_idle h.console h.fits lines pieces inside

theorem Sound.dropped (h : Sound session) (drops : command.drops = true) (calls : command.calls = false)
    (console : (session.console.execute files command).2.Sound) : Sound (session.execute files command).2 := by
  have left : (session.execute files command).2 = ⟨(session.console.execute files command).2,
      if (session.console.execute files command).1.succeeds then []
      else session.issued ++ (command.texts files).map .unread⟩ := by
    rw [Session.execute, calls, drops]
    rfl
  rw [left]
  rcases execute_drops drops with ⟨yes, none⟩ | ⟨no, same⟩
  · rw [yes]
    exact sound_of_dropped console none
  · rw [no, same]
    exact h.unread _

theorem Sound.execute (h : Sound session) (files : Files) (command : Command) :
    Sound (session.execute files command).2 := by
  cases command with
  | none => exact h
  | help => exact h
  | quit => exact h
  | unknown word => exact h
  | complete => exact h.called rfl
  | step arg => exact h.called rfl
  | normalForm text => exact h.called rfl
  | reduce text => exact h.called rfl
  | equal text => exact h.called rfl
  | display => exact h.started
  | stats => exact h.started
  | assume text => exact h.dropped rfl rfl (h.console.addAxiom text)
  | load path => exact h.dropped rfl rfl (h.console.load path)
  | order arg => exact h.dropped rfl rfl (h.console.setOrder arg)
  | precedence arg => exact h.dropped rfl rfl (h.console.setPrecedence arg)
  | unfailing arg => exact h.dropped rfl rfl (h.console.setUnfailing arg)
  | reset => exact h.dropped rfl rfl ⟨h.console.wellFormed, fun eq no => absurd no List.not_mem_nil, carries_none⟩
  | steps arg =>
      change Sound { session with console := (session.console.setSteps arg).2 }
      rcases session.console.setSteps_budgeted arg with same | ⟨n, same⟩
      · rw [same]
        exact h
      · rw [same]
        exact h.budgeted n

theorem sound_ofLines (lines : List (Files × String)) : (ofLines lines).Sound := by
  suffices later : ∀ session : Session, session.Sound →
      (lines.foldl (fun session line => (session.answer line.1 line.2).2) session).Sound from later {} new_sound
  induction lines with
  | nil => exact fun _ h => h
  | cons line lines ih => exact fun session h => ih _ (h.execute line.1 (.ofLine line.2))

/-- Whatever lines a console was given: if it has a run, the console is the same as if the run was built from
its settings now, where some of what it knows was known, and had then been given the calls since a setting was
changed, each with the step budget that was in force, and the texts in between that could not be read, which are of
no concern to settings and runs. And a line that needs a run is answered as there. -/
theorem run_replayed (lines : List (Files × String)) :
    (∀ run, (ofLines lines).console.run = some run → ∃ env : Environment, env.Serves (ofLines lines).console ∧
      (ofLines lines).console = (ofLines lines).console.rebuilt env (ofLines lines).issued) ∧
    ∀ files line, (Command.ofLine line).asks = true → ∃ env : Environment,
      env.Serves ((ofLines lines).console.answer files line).2 ∧
      ((ofLines lines).console.answer files line).1 =
        (((ofLines lines).console.rebuilt env (ofLines lines).issued).answer files line).1 := by
  have sound := sound_ofLines lines
  refine ⟨sound.rebuilt, fun files line asks => ?_⟩
  obtain ⟨env, serves, reply, -⟩ := sound.asked asks
  exact ⟨env, serves files, reply files⟩

/-- Two inversions cancel. Between two calls half an equation is read, and the step budget changes. -/
def inversion : List (Files × String) :=
  ["(i (i $x)) = $x", "complete", "(j a) = (k", "steps 5", "nf (i (i a))"].map (fun _ => .error .notFound, ·)

theorem run_replayed_inversion :
    (ofLines inversion).issued.map Told.call? =
        [some (some 10000, .complete), none, some (some 5, .normalForm "(i (i a))")] ∧
      (∃ env : Environment, env.Serves (ofLines inversion).console ∧
        (ofLines inversion).console = (ofLines inversion).console.rebuilt env (ofLines inversion).issued) ∧
      ∃ env : Environment, env.Serves ((ofLines inversion).console.answer (fun _ => .error .notFound) "show").2 ∧
        ((ofLines inversion).console.answer (fun _ => .error .notFound) "show").1 =
          (((ofLines inversion).console.rebuilt env (ofLines inversion).issued).answer
            (fun _ => .error .notFound) "show").1 := by
  have issued : (ofLines inversion).issued.map Told.call? =
      [some (some 10000, .complete), none, some (some 5, .normalForm "(i (i a))")] := by
    decide +kernel
  have cached : (ofLines inversion).console.run.isSome = true := by decide +kernel
  obtain ⟨run, here⟩ := Option.isSome_iff_exists.1 cached
  obtain ⟨state, answers⟩ := run_replayed inversion
  exact ⟨issued, state run here, answers _ "show" (by decide +kernel)⟩

end Session
end OrderedCompletion
