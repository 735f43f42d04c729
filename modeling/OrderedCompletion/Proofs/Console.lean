import OrderedCompletion.Console.Basic
import OrderedCompletion.Proofs.Completeness
import OrderedCompletion.Proofs.Conservation
import OrderedCompletion.Proofs.Known

/-! What the console keeps from line to line, and the variables that it shows. -/

namespace OrderedCompletion

namespace Console

open Engine

variable {c c' : Console} {α : Type} {readFile : String → Except FileError String} {text : String}

/-- The run says what the axioms say, and introduces no variables. -/
def Carries (axioms : List Equation) (s : Store) (e : Engine) : Prop :=
  ∃ p : Problem, p.axioms = axioms ∧ p.Posed .full ∧ p.Kept .conserving e s

/-- What lines of input make of a new console. The files that can be read may change in between. -/
inductive Opened : Console → Prop
  | new : Opened {}
  | line {c : Console} (readFile : String → Except FileError String) (line : String) : Opened c →
      Opened (c.answer readFile line).2

/-- The axioms are stored, and the run keeps to them. -/
structure Sound (c : Console) : Prop where
  wellFormed : c.store.WellFormed
  axioms : c.store.HasAll .full c.axioms
  run : ∀ run ∈ c.run, Carries c.axioms c.store run.engine

theorem Sound.grow {s : Store} (h : Sound c) (symbols : SymbolTable) (wf : s.WellFormed)
    (le : c.store ≤ s) : Sound { c with symbols, store := s } where
  wellFormed := wf
  axioms := h.axioms.mono h.wellFormed wf le
  run := fun run here => by
    obtain ⟨p, axioms, posed, kept⟩ := h.run run here
    exact ⟨p, axioms, posed, kept.grow posed wf le⟩

/-- What is known where a console has kept some pieces of a text. -/
theorem Sound.grows_keep (h : Sound c) (pieces : List Reader.Piece) : c.known.Grows (c.keep pieces).known := by
  have grows : c.known.Grows (pieces.foldl Reader.Known.add c.known) := Reader.Known.grows_foldl h.wellFormed pieces
  exact ⟨grows.names, grows.store, grows.wellFormed⟩

theorem Sound.keep (h : Sound c) (pieces : List Reader.Piece) : Sound (c.keep pieces) :=
  h.grow _ (h.grows_keep pieces).wellFormed (h.grows_keep pieces).store

theorem Sound.keepAll (h : Sound c) (lines : List (List Reader.Piece)) : Sound (c.keepAll lines) := by
  induction lines generalizing c with
  | nil => exact h
  | cons pieces lines ih => exact ih (h.keep pieces)

theorem carries_none {axioms : List Equation} {s : Store} :
    ∀ run ∈ (none : Option Run), Carries axioms s run.engine :=
  fun run no => absurd no (Option.not_mem_none run)

/-- Settings that a run depends on drop it. -/
theorem Sound.drop (h : Sound c) (store : c'.store = c.store) (axioms : c'.axioms = c.axioms)
    (run : c'.run = none) : Sound c' where
  wellFormed := store ▸ h.wellFormed
  axioms := by
    rw [store, axioms]
    exact h.axioms
  run := by
    rw [run]
    exact carries_none

/-- What a console has once it has a run. -/
structure Started (c : Console) (run : Run) (c' : Console) : Prop where
  sound : Sound c'
  carries : Carries c'.axioms c'.store run.engine
  grows : c.store ≤ c'.store

theorem Sound.start (h : Sound c) : Started c c.start.1 c.start.2 := by
  rw [Console.start]
  cases here : c.run with
  | some run => exact ⟨h, h.run run here, le_rfl⟩
  | none =>
      let p : Problem := { store := c.store, axioms := c.axioms, order := { greater := fun _ _ => return false },
                           config := c.config }
      have posed : p.Posed .full := ⟨h.wellFormed, h.axioms⟩
      obtain ⟨wf, le, -, inv⟩ := Problem.start_spec (G := .conserving) posed
      have carries : Carries c.axioms p.start.2 p.start.1 := ⟨p, rfl, posed, wf, le, inv fun no => no.elim⟩
      refine ⟨⟨wf, h.axioms.mono h.wellFormed wf le, fun run same => ?_⟩, carries, le⟩
      obtain rfl := Option.some.inj same
      exact carries

/-- In stores later than the given one the action keeps what a run says. -/
def Harmless (s : Store) (action : Context → EngineM α) : Prop :=
  ∀ {ctx : Context} {p : Problem} {e : Engine} {s' : Store}, ctx.order.Obeys .conserving →
    p.Posed .full → p.Kept .conserving e s' → s ≤ s' →
    p.Kept .conserving (after (action ctx) e s').1 (after (action ctx) e s').2

theorem Sound.call {action : Context → EngineM α} (h : Sound c) (harmless : Harmless c.store action) :
    Sound (c.call action).2 := by
  have started := h.start
  obtain ⟨p, axioms, posed, kept⟩ := started.carries
  have obeys : (c.start.2.context c.start.1).order.Obeys .conserving := Order.ofKind_conserves _ _
  have kept' := harmless obeys posed kept started.grows
  have wf := kept'.wellFormed
  refine ⟨wf, ?_, fun run same => ?_⟩
  · have has := posed.has.mono posed.wellFormed wf kept'.later
    rwa [axioms] at has
  · obtain rfl := Option.some.inj same
    exact ⟨p, axioms, posed, kept'⟩

/-- What a call that succeeds answers is what the run answers. -/
theorem Sound.call_ok {action : Context → EngineM α} {a : α} (h : Sound c) (ok : (c.call action).1 = .ok a) :
    ∃ (ctx : Context) (p : Problem) (e : Engine) (s : Store), ctx.order.Obeys .conserving ∧
      p.Posed .full ∧ p.Kept .conserving e s ∧ c.store ≤ s ∧
      Engine.answer (action ctx) e s = .ok a ∧ (c.call action).2.store = (after (action ctx) e s).2 := by
  obtain ⟨p, -, posed, kept⟩ := h.start.carries
  refine ⟨c.start.2.context c.start.1, p, _, _, Order.ofKind_conserves _ _, posed, kept, h.start.grows, ?_,
    rfl⟩
  change (Engine.answer (action (c.start.2.context c.start.1)) c.start.1.engine c.start.2.store).mapError
    describe = .ok a at ok
  cases outcome : Engine.answer (action (c.start.2.context c.start.1)) c.start.1.engine c.start.2.store with
  | error halt =>
      rw [outcome] at ok
      cases ok
  | ok b =>
      rw [outcome] at ok
      obtain rfl := Except.ok.inj ok
      rfl

theorem harmless_step {s : Store} : Harmless s Engine.step :=
  fun obeys posed kept _ => kept.call posed obeys .step nofun

theorem harmless_complete {s : Store} : Harmless s Engine.complete :=
  fun obeys posed kept _ => kept.call posed obeys .complete nofun

section
variable {s : Store} {r : Ref} {t : Term}

theorem known_later {s' : Store} (wf : s.WellFormed) (wf' : s'.WellFormed) (le : s ≤ s')
    (h : s.Denotes r t) : ∃ a, s'.Denotes r a ∧ a.Over .full :=
  ⟨t, h.mono wf wf' le, (h.mono wf wf' le).over_full wf'⟩

theorem harmless_reduce (wf : s.WellFormed) (h : s.Denotes r t) :
    Harmless s fun ctx => Engine.reduce ctx r := by
  refine fun obeys posed kept le => kept.call posed obeys (.reduce r) fun q hq => ?_
  obtain rfl := List.mem_singleton.1 hq
  exact known_later wf kept.wellFormed le h

theorem harmless_normalForm (wf : s.WellFormed) (h : s.Denotes r t) :
    Harmless s fun ctx => Engine.normalForm ctx r := by
  refine fun obeys posed kept le => kept.call posed obeys (.normalForm r) fun q hq => ?_
  obtain rfl := List.mem_singleton.1 hq
  exact known_later wf kept.wellFormed le h

theorem harmless_equal {eq : Equation} {d : Term × Term} (wf : s.WellFormed) (h : s.Means eq d) :
    Harmless s fun ctx => Engine.equal ctx eq := by
  refine fun obeys posed kept le => kept.call posed obeys (.equal eq) fun q hq => ?_
  rcases List.mem_cons.1 hq with rfl | hq
  · exact known_later wf kept.wellFormed le h.1
  · obtain rfl := List.mem_singleton.1 hq
    exact known_later wf kept.wellFormed le h.2

end

/-- More axioms drop the run. -/
theorem Sound.assume {symbols : SymbolTable} {s : Store} {es : List Equation} (h : Sound c)
    (wf : s.WellFormed) (le : c.store ≤ s) (has : s.HasAll .full es) :
    Sound { c with symbols, store := s, axioms := c.axioms ++ es, run := none } where
  wellFormed := wf
  axioms := fun eq heq => by
    rcases List.mem_append.1 heq with heq | heq
    · exact h.axioms.mono h.wellFormed wf le eq heq
    · exact has eq heq
  run := carries_none

theorem Sound.addAxiom (h : Sound c) (text : String) : Sound (c.addAxiom text).2 := by
  rw [Console.addAxiom]
  split
  · exact h.keep _
  · rename_i read ok
    obtain ⟨hl, hr⟩ := SymbolTable.readEquation_over ok
    obtain ⟨wf, le, means⟩ := Equation.ofTerms_spec h.wellFormed hl hr
    refine h.assume wf le fun eq heq => ?_
    obtain rfl := List.mem_singleton.1 heq
    exact ⟨read.lhs, read.rhs, means, hl, hr⟩

theorem Sound.load (h : Sound c) (path : String) : Sound (c.load readFile path).2 := by
  rw [Console.load]
  split
  · exact h
  · split
    · exact h
    · split
      · exact h.keepAll _
      · rename_i pairs symbols ok
        obtain ⟨wf, le, has, -⟩ :=
          Store.listOfTerms_spec h.wellFormed (SymbolTable.readEquations_over ok)
        exact h.assume wf le has

theorem Sound.display (h : Sound c) : Sound c.display.2 := h.start.sound

theorem Sound.complete (h : Sound c) : Sound c.complete.2 := by
  have called := h.call harmless_complete
  rw [Console.complete]
  split
  · rename_i c' same
    rw [same] at called
    exact called.display
  · rename_i text c' same
    rw [same] at called
    exact called

theorem Sound.takeSteps (h : Sound c) (taken n : Nat) : Sound (Console.takeSteps taken n c).2 := by
  induction n generalizing c taken with
  | zero => exact h
  | succ n ih =>
      have called := h.call harmless_step
      rw [Console.takeSteps]
      split
      · rename_i c' same
        rw [same] at called
        exact called
      · rename_i c' same
        rw [same] at called
        exact ih called (taken + 1)
      · rename_i text c' same
        rw [same] at called
        exact called

theorem Sound.step (h : Sound c) (arg : String) : Sound (c.step arg).2 := by
  rw [Console.step]
  split
  · exact h
  · rename_i n _
    have stepped := h.takeSteps 0 n
    split
    · rename_i text c' same
      rw [same] at stepped
      exact stepped
    · rename_i taken c' same
      rw [same] at stepped
      exact stepped.start.sound

/-- The call that a query makes. Its term is stored before. -/
def ask (c : Console) (read : ReadTerm) (action : Context → Ref → EngineM Ref) :
    Except String Ref × Console :=
  { c with symbols := read.symbols, store := (Store.ofTerm read.term c.store).2 }.call fun ctx =>
    action ctx (Store.ofTerm read.term c.store).1

theorem termQuery_eq {read : ReadTerm} (action : Context → Ref → EngineM Ref)
    (ok : c.symbols.readTerm text = .ok read) : c.termQuery text action =
      match c.ask read action with
      | (.ok u, c) => (.text ((c.store.term u).printOr c.symbols (spellNamed read.varNames)), c)
      | (.error fault, c) => (.error fault, c) := by
  rw [Console.termQuery, ok]
  rfl

/-- The console once the term of a query is stored. -/
theorem Sound.stored {read : ReadTerm} (h : Sound c) (ok : c.symbols.readTerm text = .ok read) :
    Sound { c with symbols := read.symbols, store := (Store.ofTerm read.term c.store).2 } ∧
      (Store.ofTerm read.term c.store).2.Denotes (Store.ofTerm read.term c.store).1 read.term := by
  obtain ⟨e, -, numbers⟩ := SymbolTable.readTerm_spec ok
  obtain ⟨wf, le, denotes⟩ := Store.ofTerm_spec h.wellFormed (numbers.inSig _ (List.mem_singleton.2 rfl))
  exact ⟨h.grow read.symbols wf le, denotes⟩

theorem Sound.termQuery {action : Context → Ref → EngineM Ref} (h : Sound c) (text : String)
    (harmless : ∀ {s : Store} {r : Ref} {t : Term}, s.WellFormed → s.Denotes r t →
      Harmless s fun ctx => action ctx r) : Sound (c.termQuery text action).2 := by
  cases found : c.symbols.readTerm text with
  | error fault =>
      rw [Console.termQuery, found]
      exact h.keep _
  | ok read =>
      obtain ⟨sound, denotes⟩ := h.stored found
      have called : Sound (c.ask read action).2 := sound.call (harmless sound.wellFormed denotes)
      rw [termQuery_eq action found]
      split
      · rename_i u c' same
        rw [same] at called
        exact called
      · rename_i fault c' same
        rw [same] at called
        exact called

theorem Sound.equal (h : Sound c) (text : String) : Sound (c.equal text).2 := by
  rw [Console.equal]
  split
  · exact h.keep _
  · rename_i read ok
    obtain ⟨hl, hr⟩ := SymbolTable.readEquation_over ok
    split
    rename_i eq s made
    have stored := Equation.ofTerms_spec h.wellFormed hl hr
    rw [StateT.run] at made
    rw [Store.Ensures, made] at stored
    have called := (h.grow read.symbols stored.1 stored.2.1).call (harmless_equal stored.1 stored.2.2)
    split
    · rename_i yes c' same
      rw [same] at called
      exact called
    · rename_i fault c' same
      rw [same] at called
      exact called

theorem Sound.setOrder (h : Sound c) (arg : String) : Sound (c.setOrder arg).2 := by
  unfold Console.setOrder
  split
  · exact h.drop rfl rfl rfl
  · exact h.drop rfl rfl rfl
  · exact h

theorem Sound.setPrecedence (h : Sound c) (arg : String) : Sound (c.setPrecedence arg).2 := by
  rw [Console.setPrecedence]
  split
  · exact h
  · exact h.drop rfl rfl rfl

theorem Sound.setUnfailing (h : Sound c) (arg : String) : Sound (c.setUnfailing arg).2 := by
  unfold Console.setUnfailing
  dsimp only
  split
  · exact h.drop rfl rfl rfl
  · exact h.drop rfl rfl rfl
  · exact h

/-- Another budget is the run's affair. -/
theorem Sound.withBudget (h : Sound c) (config : Config) (maxSteps timeLimit : Option Nat) :
    Sound { c with
      config
      run := c.run.map fun run => { run with engine := run.engine.setBudget maxSteps timeLimit } } where
  wellFormed := h.wellFormed
  axioms := h.axioms
  run := fun run here => by
    obtain ⟨run, same, rfl⟩ := Option.map_eq_some_iff.1 here
    obtain ⟨p, axioms, posed, kept⟩ := h.run run same
    have obeys : (c.context run).order.Obeys .conserving := Order.ofKind_conserves _ _
    exact ⟨p, axioms, posed, kept.call posed obeys (.setBudget maxSteps timeLimit) nofun⟩

theorem Sound.setSteps (h : Sound c) (arg : String) : Sound (c.setSteps arg).2 := by
  rw [Console.setSteps]
  dsimp only
  split
  · exact h.withBudget _ none c.config.timeLimit
  · split
    · exact h.withBudget _ _ c.config.timeLimit
    · exact h

theorem Sound.answer (h : Sound c) (line : String) : Sound (c.answer readFile line).2 := by
  rw [Console.answer]
  cases Command.ofLine line with
  | none => exact h
  | help => exact h
  | quit => exact h
  | assume text => exact h.addAxiom text
  | load path => exact h.load path
  | complete => exact h.complete
  | step arg => exact h.step arg
  | display => exact h.display
  | stats => exact h.start.sound
  | normalForm text => exact h.termQuery text harmless_normalForm
  | reduce text => exact h.termQuery text harmless_reduce
  | equal text => exact h.equal text
  | order arg => exact h.setOrder arg
  | precedence arg => exact h.setPrecedence arg
  | unfailing arg => exact h.setUnfailing arg
  | steps arg => exact h.setSteps arg
  | reset => exact ⟨h.wellFormed, nofun, carries_none⟩
  | unknown word => exact h

theorem Opened.sound (h : Opened c) : Sound c := by
  induction h with
  | new => exact ⟨Store.empty_wellFormed, nofun, carries_none⟩
  | line readFile line _ ih => exact ih.answer line

theorem spellNamed_of_lt {names : List String} {v : Var} (h : v < names.length) :
    ∃ name ∈ names, spellNamed names v = "$" ++ name := by
  refine ⟨names[v], List.getElem_mem h, ?_⟩
  rw [spellNamed, List.getElem?_eq_getElem h]

/-- The query answers with a term, and all variables of it have names that are written in the query. -/
def Shows (c : Console) (action : Context → Ref → EngineM Ref) : Prop :=
  ∀ text read u c', c.symbols.readTerm text = .ok read → c.ask read action = (.ok u, c') →
    c.termQuery text action =
      (.text ((c'.store.term u).printOr c'.symbols (spellNamed read.varNames)), c') ∧
    ∃ e, Reader.termExpr text.toList = .ok e ∧
      ∀ v ∈ (c'.store.term u).vars, ∃ name ∈ e.varNames, spellNamed read.varNames v = "$" ++ name

/-- So it is if the outcome has only variables of the term that is asked about. -/
theorem Sound.shows {action : Context → Ref → EngineM Ref} (h : Sound c)
    (keeps : ∀ {ctx : Context} {p : Problem} {e : Engine} {s : Store} {r u : Ref},
      p.Kept .conserving e s → p.Posed .full → ctx.order.Obeys .conserving → r < s.size →
      Engine.answer (action ctx r) e s = .ok u →
      ∃ b, (after (action ctx r) e s).2.Denotes u b ∧ (s.term r).Keeps b) : c.Shows action := by
  intro text read u c' found asked
  obtain ⟨e, written, numbers⟩ := SymbolTable.readTerm_spec found
  obtain ⟨sound, denotes⟩ := h.stored found
  obtain ⟨ctx, p, e', s', obeys, posed, kept, later, ok, stored⟩ := sound.call_ok (congrArg Prod.fst asked)
  have denotes' := denotes.mono sound.wellFormed kept.wellFormed later
  obtain ⟨b, hb, only⟩ := keeps kept posed obeys denotes'.1 ok
  have here : c'.store = (after (action ctx (Store.ofTerm read.term c.store).1) e' s').2 :=
    (congrArg (fun out => out.2.store) asked).symm.trans stored
  refine ⟨by rw [termQuery_eq action found, asked], e, written, fun v hv => ?_⟩
  rw [here, hb.2] at hv
  have known := numbers.known _ (List.mem_singleton.2 rfl) v (denotes'.2 ▸ only v hv)
  obtain ⟨name, mem, spelled⟩ := spellNamed_of_lt known
  exact ⟨name, (numbers.named name mem).resolve_left nofun, spelled⟩

end Console

namespace Problem

open Engine

variable {p : Problem} {ctx : Context} {cmp : HeadComparison} {kind : OrderKind} {e : Engine} {s : Store}
variable {c : Console}

/-- Runs with the orders that come with the library invent no variables: no left side of a rule is a
variable, and no rule and no normal form has variables that its left side or the query has not. So the
console answers in the names of the query. -/
theorem variables_kept (order : p.order = .ofKind cmp kind) (posed : p.Posed .full)
    (h : p.Reaches .full e s) (same : ctx.order = p.order) (opened : Console.Opened c) :
    (∀ eq ∈ e.rules, ∃ l r, s.Means eq (l, r) ∧ l.IsApp ∧ l.Keeps r) ∧
    (∀ r u, r < s.size → answer (reduce ctx r) e s = .ok u →
      ∃ b, (after (reduce ctx r) e s).2.Denotes u b ∧ (s.term r).Keeps b) ∧
    (∀ r u, r < s.size → answer (normalForm ctx r) e s = .ok u →
      ∃ b, (after (normalForm ctx r) e s).2.Denotes u b ∧ (s.term r).Keeps b) ∧
    c.Shows reduce ∧ c.Shows normalForm := by
  have obeys : p.order.Obeys .conserving := order ▸ Order.ofKind_conserves cmp kind
  have kept := Reaches.kept (G := .conserving) h posed obeys fun no => no.elim
  have sound := opened.sound
  refine ⟨fun eq rule => kept.rule_keeps rule, fun r u hr ok => ?_, fun r u hr ok => ?_, ?_, ?_⟩
  · exact kept.reduce_keeps posed (same ▸ obeys) hr ok
  · exact kept.normalForm_keeps posed (same ▸ obeys) hr ok
  · exact sound.shows Kept.reduce_keeps
  · exact sound.shows Kept.normalForm_keeps

/-- A console that was told that two inversions cancel. -/
def inverting : Console :=
  (({} : Console).answer (fun _ => .error .notFound) "(i (i $x)) = $x").2

theorem variables_kept_involution :
    involutionEnd.1.rules = [⟨2, 0⟩] ∧ (inverse (inverse (.var 0))).Keeps (.var 0) ∧
      inverting.Shows reduce ∧ (inverting.termQuery "(i $y)" reduce).1 = .text "(i $y)" := by
  have opened : Console.Opened inverting := .line (fun _ => .error .notFound) _ .new
  have reached : involution.Reaches .full involutionEnd.1 involutionEnd.2 :=
    .call .complete involutionContext .start rfl nofun
  have outcome : involutionEnd.1.rules = [⟨2, 0⟩] ∧
      involutionEnd.2.term 2 = inverse (inverse (.var 0)) ∧ involutionEnd.2.term 0 = .var 0 := by
    decide +kernel
  have order : involution.order = .ofKind (Precedence.compare inversion (.ranking [])) .lpo := rfl
  have same : involutionContext.order = involution.order := rfl
  obtain ⟨rules, -, -, shows, -⟩ := variables_kept order involution_posed.full reached same opened
  obtain ⟨_, _, ⟨⟨-, rfl⟩, -, rfl⟩, -, keeps⟩ := rules ⟨2, 0⟩ (by simp [outcome.1])
  refine ⟨outcome.1, ?_, shows, ?_⟩
  · rwa [outcome.2.1, outcome.2.2] at keeps
  · decide +kernel

end Problem
end OrderedCompletion
