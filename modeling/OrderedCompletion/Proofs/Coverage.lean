import OrderedCompletion.Proofs.Outcomes
import OrderedCompletion.Proofs.Superposition

/-! Over its lifetime a superposer runs every pair of donors that a call requires, and runs none twice. -/

namespace OrderedCompletion
namespace Superposer

open Superposition (mem_addNew mem_foldl_addNew)

/-- What a superposer is asked for. -/
inductive Call where
  | againstRules (rules : List Equation) (ab : Equation)
  | againstAll (equations rules : List Equation) (ab : Equation)
  deriving DecidableEq, Repr

namespace Call

def donors : Call → List (Equation × Equation)
  | .againstRules rules ab => ruleDonors rules ab
  | .againstAll equations rules ab => allDonors equations rules ab

def run (o : Order) : Call → TermM Superposer OverlapError (List Equation)
  | .againstRules rules ab => Superposer.againstRules o rules ab
  | .againstAll equations rules ab => Superposer.againstAll o equations rules ab

theorem run_eq (o : Order) (c : Call) : c.run o = superposeAll o c.donors := by
  cases c <;> rfl

/-- The ways in which the equation takes part. -/
def Candidate : Call → Equation → Prop
  | .againstRules _ ab, x => x = ab
  | .againstAll _ _ ab, x => x = ab ∨ x = ab.reversed

/-- What the equation is superposed with. -/
def Partner : Call → Equation → Prop
  | .againstRules rules _, y => y ∈ rules
  | .againstAll equations rules ab, y =>
      y ∈ rules ∨ (∃ e ∈ equations, y = e ∨ y = e.reversed) ∨ y = ab ∨ y = ab.reversed

/-- The pair of donors is one of a candidate and a partner, in either role. -/
def Requires (c : Call) (d : Equation × Equation) : Prop :=
  ∃ x y, c.Candidate x ∧ c.Partner y ∧ (d = (x, y) ∨ d = (y, x))

end Call

theorem mem_ruleDonors {rules : List Equation} {ab : Equation} {d : Equation × Equation} :
    d ∈ ruleDonors rules ab ↔ (Call.againstRules rules ab).Requires d := by
  simp only [ruleDonors, List.mem_flatMap, List.mem_cons, List.not_mem_nil, or_false, Call.Requires,
    Call.Candidate, Call.Partner]
  constructor
  · rintro ⟨gd, hgd, roles⟩
    exact ⟨ab, gd, rfl, hgd, roles⟩
  · rintro ⟨_, gd, rfl, hgd, roles⟩
    exact ⟨gd, hgd, roles⟩

/-- The equations that both sides of a call are taken from, in either direction. -/
theorem mem_foldl_sides {equations : List Equation} {ab y : Equation} :
    (∃ gd ∈ [ab, ab.reversed].foldl addNew equations, y = gd ∨ y = gd.reversed) ↔
      (∃ e ∈ equations, y = e ∨ y = e.reversed) ∨ y = ab ∨ y = ab.reversed := by
  simp only [mem_foldl_addNew, List.mem_cons, List.not_mem_nil, or_false]
  constructor
  · rintro ⟨gd, hgd | rfl | rfl, side⟩
    · exact .inl ⟨gd, hgd, side⟩
    · exact .inr side
    · exact .inr side.symm
  · rintro (⟨e, he, side⟩ | side)
    · exact ⟨e, .inl he, side⟩
    · exact ⟨ab, .inr (.inl rfl), side⟩

theorem mem_allDonors {equations rules : List Equation} {ab : Equation} {d : Equation × Equation} :
    d ∈ allDonors equations rules ab ↔ (Call.againstAll equations rules ab).Requires d := by
  have other : ∀ x,
      (∃ gd ∈ [ab, ab.reversed].foldl addNew equations, ∃ y, (y = gd ∨ y = gd.reversed) ∧
        (d = (x, y) ∨ d = (y, x))) ↔
      ∃ y, ((∃ e ∈ equations, y = e ∨ y = e.reversed) ∨ y = ab ∨ y = ab.reversed) ∧
        (d = (x, y) ∨ d = (y, x)) := by
    intro x
    simp only [← mem_foldl_sides]
    constructor
    · rintro ⟨gd, hgd, y, side, roles⟩
      exact ⟨y, ⟨gd, hgd, side⟩, roles⟩
    · rintro ⟨y, ⟨gd, hgd, side⟩, roles⟩
      exact ⟨gd, hgd, y, side, roles⟩
  simp only [allDonors, List.mem_append, List.mem_flatMap, Call.Requires, Call.Candidate, Call.Partner]
  constructor
  · rintro (⟨gd, hgd, x, hx, y, hy, hd⟩ | ⟨y, hy, x, hx, hd⟩)
    · simp only [List.mem_cons, List.not_mem_nil, or_false] at hx hy hd
      obtain ⟨y, hy, roles⟩ := (other x).1 ⟨gd, hgd, y, hy, hd⟩
      exact ⟨x, y, hx, .inr hy, roles⟩
    · simp only [List.mem_cons, List.not_mem_nil, or_false] at hx hd
      exact ⟨x, y, hx, .inl hy, hd⟩
  · rintro ⟨x, y, hx, hy | hy, roles⟩
    · exact .inr ⟨y, hy, x, by simpa using hx, by simpa using roles⟩
    · obtain ⟨gd, hgd, y, side, roles⟩ := (other x).2 ⟨y, hy, roles⟩
      exact .inl ⟨gd, hgd, x, by simpa using hx, y, by simpa using side, by simpa using roles⟩

theorem Call.mem_donors {c : Call} {d : Equation × Equation} : d ∈ c.donors ↔ c.Requires d := by
  cases c with
  | againstRules rules ab => exact mem_ruleDonors
  | againstAll equations rules ab => exact mem_allDonors

/-- A run of `criticalPairs` on a pair of donors. -/
structure Round where
  donors : Equation × Equation
  pairs : List Equation
  deriving DecidableEq, Repr

/-- A superposer with the rounds that it has gone through. -/
structure Journal where
  superposer : Superposer := {}
  rounds : List Round := []
  deriving Inhabited

namespace Journal

/-- Superposition of a pair of donors that notes the round if there is one. -/
def superpose (o : Order) (found : List Equation) (donors : Equation × Equation) :
    TermM Journal OverlapError (List Equation) := do
  if (← get).superposer.seen.contains donors then return found
  modify fun j => { j with superposer.seen := j.superposer.seen.insert donors () }
  let pairs ← (onWorkspace (criticalPairs o donors.1 donors.2)).within superposer
    (fun superposer j => { j with superposer }) id
  modify fun j => { j with rounds := j.rounds ++ [⟨donors, pairs⟩] }
  return pairs.foldl addNew found

def superposeAll (o : Order) (donors : List (Equation × Equation)) :
    TermM Journal OverlapError (List Equation) :=
  donors.foldlM (superpose o) []

/-- Without its notes the one action does what the other one does. -/
def Erases {α : Type} (x : TermM Journal OverlapError α) (y : TermM Superposer OverlapError α) : Prop :=
  ∀ j s, y j.superposer s = (((x j s).1.1, (x j s).1.2.superposer), (x j s).2)

section
variable {α β : Type} {x : TermM Journal OverlapError α} {y : TermM Superposer OverlapError α}
variable {f : α → TermM Journal OverlapError β} {g : α → TermM Superposer OverlapError β}

theorem Erases.pure (a : α) : Erases (Pure.pure a) (Pure.pure a) := fun _ _ => rfl

theorem Erases.bind (hx : Erases x y) (hf : ∀ a, Erases (f a) (g a)) : Erases (x >>= f) (y >>= g) := by
  intro j s
  rw [TermM.bind_apply, TermM.bind_apply, hx j s]
  cases (x j s).1.1 with
  | ok a => exact hf a _ _
  | error e => rfl

theorem Erases.bindGet {f : Journal → TermM Journal OverlapError β}
    {g : Superposer → TermM Superposer OverlapError β}
    (h : ∀ j, Erases (f j) (g j.superposer)) : Erases (get >>= f) (get >>= g) := by
  intro j s
  rw [TermM.bind_apply, TermM.bind_apply]
  exact h j j s

theorem Erases.bindModify {m : Journal → Journal} {n : Superposer → Superposer}
    {f : PUnit → TermM Journal OverlapError β} {g : PUnit → TermM Superposer OverlapError β}
    (same : ∀ j, (m j).superposer = n j.superposer) (h : Erases (f ⟨⟩) (g ⟨⟩)) :
    Erases (modify m >>= f) (modify n >>= g) := by
  intro j s
  rw [TermM.bind_apply, TermM.bind_apply]
  change g ⟨⟩ (n j.superposer) s = _
  rw [← same]
  exact h (m j) s

/-- The journal may note something more. -/
theorem Erases.note {m : Journal → Journal} {f : PUnit → TermM Journal OverlapError β}
    (same : ∀ j, (m j).superposer = j.superposer) {y : TermM Superposer OverlapError β}
    (h : Erases (f ⟨⟩) y) : Erases (modify m >>= f) y := by
  intro j s
  rw [TermM.bind_apply, ← same j]
  exact h (m j) s

theorem Erases.within (y : TermM Superposer OverlapError α) :
    Erases (y.within superposer (fun superposer j => { j with superposer }) id) y := by
  intro j s
  rw [TermM.within]
  rcases y j.superposer s with ⟨⟨e | a, sp⟩, s'⟩ <;> rfl

end

theorem superpose_erases (o : Order) (found : List Equation) (donors : Equation × Equation) :
    Erases (superpose o found donors) (Superposer.superpose o found donors) := by
  refine .bindGet fun j => ?_
  split
  · exact .pure found
  · refine .bindModify (fun _ => rfl) ((Erases.within _).bind fun pairs => ?_)
    refine .note ?_ (.pure _)
    exact fun _ => rfl

theorem superposeAll_erases (o : Order) (donors : List (Equation × Equation)) :
    Erases (superposeAll o donors) (Superposer.superposeAll o donors) := by
  suffices gen : ∀ found, Erases (donors.foldlM (superpose o) found)
      (donors.foldlM (Superposer.superpose o) found) from gen []
  induction donors with
  | nil => exact fun found => .pure found
  | cons d donors ih =>
      intro found
      rw [List.foldlM_cons, List.foldlM_cons]
      exact (superpose_erases o found d).bind ih

/-- The pair of donors was treated. -/
def Covers (j : Journal) (d : Equation × Equation) : Prop := ∃ pairs, ⟨d, pairs⟩ ∈ j.rounds

/-- What has been seen is what the rounds were about, and no two of them were about the same. -/
structure Tidy (j : Journal) : Prop where
  seen : ∀ d, j.superposer.seen.contains d = true ↔ j.Covers d
  once : (j.rounds.map Round.donors).Nodup

/-- Rounds were added for the donors that had none, and their pairs are among those found. -/
structure Extends (j : Journal) (donors : List (Equation × Equation)) (found : List Equation)
    (out : List Equation) (j' : Journal) : Prop where
  tidy : j'.Tidy
  old : j.rounds <+: j'.rounds
  covers : ∀ d, j'.Covers d ↔ j.Covers d ∨ d ∈ donors
  found : found ⊆ out
  pairs : ∀ round ∈ j'.rounds, round ∈ j.rounds ∨ round.pairs ⊆ out

variable {j j' : Journal} {o : Order} {found : List Equation} {d : Equation × Equation}
variable {donors : List (Equation × Equation)}

theorem Covers.mem_donors : j.Covers d ↔ d ∈ j.rounds.map Round.donors := by
  rw [List.mem_map]
  constructor
  · rintro ⟨pairs, h⟩
    exact ⟨_, h, rfl⟩
  · rintro ⟨⟨_, pairs⟩, h, rfl⟩
    exact ⟨pairs, h⟩

/-- A round is noted for donors that had none. -/
theorem Tidy.note {sp : Superposer} {pairs : List Equation} (tidy : j.Tidy) (fresh : ¬ j.Covers d)
    (seen : sp.seen = j.superposer.seen.insert d ()) :
    Tidy { superposer := sp, rounds := j.rounds ++ [⟨d, pairs⟩] } where
  seen := by
    intro d'
    rw [seen, contains_insert, tidy.seen, Covers.mem_donors, Covers.mem_donors]
    simp [or_comm]
  once := by
    rw [List.map_append, List.map_singleton, List.nodup_append]
    refine ⟨tidy.once, List.nodup_singleton d, fun d' hd' other hother same => ?_⟩
    rw [same, List.mem_singleton.1 hother] at hd'
    exact fresh (Covers.mem_donors.2 hd')

theorem onWorkspace_yields {α : Type} {sp : Superposer} (x : TermM Workspace OverlapError α) :
    TermM.Yields sp (onWorkspace x) (fun _ sp' => sp'.seen = sp.seen) fun _ _ => True := by
  have any : TermM.Yields sp.workspace x (fun _ _ => True) fun _ _ => True := fun s => by split <;> trivial
  refine any.within.mono ?_ fun _ _ _ => trivial
  rintro _ _ ⟨_, rfl, -⟩
  rfl

theorem superpose_extends (tidy : j.Tidy) :
    TermM.Yields j (superpose o found d) (fun out j' => j.Extends [d] found out j') fun _ _ => True := by
  refine .bindGet ?_
  split
  · rename_i seen
    refine .pure ⟨tidy, List.prefix_rfl, fun d' => ?_, fun _ h => h, fun _ h => .inl h⟩
    rw [List.mem_singleton]
    exact ⟨.inl, fun h => h.elim id fun same => same ▸ (tidy.seen d).1 seen⟩
  · rename_i seen
    have fresh : ¬ j.Covers d := fun h => seen ((tidy.seen d).2 h)
    refine .bindModify ?_
    have round : TermM.Yields { j with superposer.seen := j.superposer.seen.insert d () }
        ((onWorkspace (criticalPairs o d.1 d.2)).within superposer
          (fun superposer j => { j with superposer }) id)
        (fun _ j' => j'.superposer.seen = j.superposer.seen.insert d () ∧ j'.rounds = j.rounds)
        fun _ _ => True := by
      refine (TermM.Yields.within (onWorkspace_yields _)).mono ?_ fun _ _ _ => trivial
      rintro _ _ ⟨_, rfl, seen⟩
      exact ⟨seen, rfl⟩
    refine round.bind ?_
    rintro pairs ⟨sp, rounds⟩ ⟨seen, rfl⟩
    refine .bindModify (.pure ⟨tidy.note fresh seen, List.prefix_append _ _, fun d' => ?_, ?_, ?_⟩)
    · rw [Covers.mem_donors, Covers.mem_donors]
      simp
    · exact fun e he => mem_foldl_addNew.2 (.inl he)
    · intro round hround
      refine (List.mem_append.1 hround).imp_right fun new => ?_
      rw [List.mem_singleton.1 new]
      exact fun e he => mem_foldl_addNew.2 (.inr he)

theorem Extends.append {j'' : Journal} {donors' : List (Equation × Equation)} {out out' : List Equation}
    (h : j.Extends donors found out j') (h' : j'.Extends donors' out out' j'') :
    j.Extends (donors ++ donors') found out' j'' where
  tidy := h'.tidy
  old := h.old.trans h'.old
  covers := by
    intro d
    rw [h'.covers, h.covers, List.mem_append, or_assoc]
  found := fun e he => h'.found (h.found he)
  pairs := by
    intro round hround
    rcases h'.pairs round hround with old | new
    · exact (h.pairs round old).imp_right fun sub e he => h'.found (sub he)
    · exact .inr new

theorem superposeAll_extends (tidy : j.Tidy) :
    TermM.Yields j (superposeAll o donors) (fun out j' => j.Extends donors [] out j') fun _ _ => True := by
  suffices gen : ∀ found, TermM.Yields j (donors.foldlM (superpose o) found)
      (fun out j' => j.Extends donors found out j') fun _ _ => True from gen []
  induction donors generalizing j with
  | nil => exact fun found => .pure ⟨tidy, List.prefix_rfl, by simp, fun _ h => h, fun _ h => .inl h⟩
  | cons d donors ih =>
      intro found
      rw [List.foldlM_cons]
      refine (superpose_extends tidy).bind fun out j' h => ?_
      exact (ih h.tidy out).mono (fun _ _ h' => h.append h') fun _ _ _ => trivial

/-- The call with its rounds noted. -/
def run (o : Order) (c : Call) : TermM Journal OverlapError (List Equation) := superposeAll o c.donors

theorem run_extends (tidy : j.Tidy) (c : Call) :
    TermM.Yields j (run o c) (fun out j' => j.Extends c.donors [] out j') fun _ _ => True :=
  superposeAll_extends tidy

theorem run_erases (o : Order) (c : Call) : Erases (run o c) (c.run o) := by
  rw [Call.run_eq]
  exact superposeAll_erases o c.donors

end Journal

/-- The journals that calls lead to which all return, with what they returned. Each of them has its own
order, workspace and store. -/
inductive Ran : Journal → List (Call × List Equation) → Prop where
  | start (workspace : Workspace) : Ran { superposer := { workspace } } []
  | call {j : Journal} {done : List (Call × List Equation)} (ran : Ran j done) (o : Order) (c : Call)
      (workspace : Workspace) (s : Store) (answer : List Equation)
      (ok : (c.run o { j.superposer with workspace } s).1.1 = .ok answer) :
      Ran (Journal.run o c { j with superposer.workspace := workspace } s).1.2 (done ++ [(c, answer)])

namespace Ran

variable {j : Journal} {done : List (Call × List Equation)} {d : Equation × Equation}

theorem extends_of_ok {o : Order} {c : Call} {workspace : Workspace} {s : Store} {answer : List Equation}
    (tidy : j.Tidy) (ok : (c.run o { j.superposer with workspace } s).1.1 = .ok answer) :
    j.Extends c.donors [] answer (Journal.run o c { j with superposer.workspace := workspace } s).1.2 := by
  have erased := Journal.run_erases o c { j with superposer.workspace := workspace } s
  have h := Journal.run_extends (j := { j with superposer.workspace := workspace }) (o := o)
    ⟨tidy.seen, tidy.once⟩ c s
  rw [erased] at ok
  rw [ok] at h
  exact ⟨h.tidy, h.old, h.covers, h.found, h.pairs⟩

theorem tidy (ran : Ran j done) : j.Tidy := by
  induction ran with
  | start workspace =>
      exact ⟨fun d => by simp [Journal.Covers, Index.contains, Index.find?_empty], List.nodup_nil⟩
  | call ran o c workspace s answer ok ih => exact (extends_of_ok ih ok).tidy

theorem covers_iff (ran : Ran j done) : j.Covers d ↔ ∃ e ∈ done, e.1.Requires d := by
  induction ran with
  | start workspace => simp [Journal.Covers]
  | call ran o c workspace s answer ok ih =>
      rw [(extends_of_ok ran.tidy ok).covers, ih, Call.mem_donors]
      simp [or_and_right, exists_or]

/-- The call that requires a pair of donors first answers with all its pairs. -/
theorem pairs_subset (ran : Ran j done) {before after : List (Call × List Equation)} {c : Call}
    {answer : List Equation} (at_ : done = before ++ (c, answer) :: after) (requires : c.Requires d)
    (first : ∀ e ∈ before, ¬ e.1.Requires d) : ∃ pairs, ⟨d, pairs⟩ ∈ j.rounds ∧ pairs ⊆ answer := by
  induction ran generalizing after with
  | start workspace => simp at at_
  | @call j done ran o c' workspace s answer' ok ih =>
      have step := extends_of_ok ran.tidy ok
      rcases List.eq_nil_or_concat after with rfl | ⟨after, last, rfl⟩
      · obtain ⟨rfl, same⟩ := List.append_inj' at_ rfl
        obtain ⟨rfl, rfl⟩ := Prod.mk.inj (List.singleton_inj.1 same)
        obtain ⟨pairs, hpairs⟩ := (step.covers d).2 (.inr (Call.mem_donors.2 requires))
        refine ⟨pairs, hpairs, (step.pairs _ hpairs).resolve_left fun old => ?_⟩
        obtain ⟨e, he, again⟩ := ran.covers_iff.1 ⟨pairs, old⟩
        exact first e he again
      · rw [List.concat_eq_append, ← List.cons_append, ← List.append_assoc] at at_
        obtain ⟨pairs, hpairs, sub⟩ := ih (List.append_inj' at_ rfl).1
        exact ⟨pairs, step.old.subset hpairs, sub⟩

/-- After calls that all returned, every required pair of donors has been superposed in either role, its
pairs were in the first answer that had to have them, and none has been superposed twice. -/
theorem covers_once (ran : Ran j done) :
    (∀ c answer, (c, answer) ∈ done → ∀ x y, c.Candidate x → c.Partner y →
      j.Covers (x, y) ∧ j.Covers (y, x)) ∧
    (∀ before c answer after d, done = before ++ (c, answer) :: after → c.Requires d →
      (∀ e ∈ before, ¬ e.1.Requires d) → ∃ pairs, ⟨d, pairs⟩ ∈ j.rounds ∧ pairs ⊆ answer) ∧
    (j.rounds.map Round.donors).Nodup := by
  refine ⟨fun c answer called x y hx hy => ?_, fun _ _ _ _ _ => ran.pairs_subset, ran.tidy.once⟩
  exact ⟨ran.covers_iff.2 ⟨_, called, x, y, hx, hy, .inl rfl⟩,
    ran.covers_iff.2 ⟨_, called, x, y, hx, hy, .inr rfl⟩⟩

end Ran

/-- Two equations that apply the same symbol twice on the left. -/
def squares : List Equation × Store :=
  Equation.listOfTerms [
    (.app (.symbol ⟨1⟩) [.app (.symbol ⟨1⟩) [.var 0]], .app (.symbol ⟨0⟩) [.var 0]),
    (.app (.symbol ⟨1⟩) [.app (.symbol ⟨1⟩) [.var 0]],
      .app (.symbol ⟨0⟩) [.app (.symbol ⟨0⟩) [.var 0]])] .empty

def squares.order : Order := .ofKind (Precedence.compare default .empty) .lpo

/-- What the second one leaves when it is superposed with the first one as a rule. -/
def squares.once : Workspace × Store :=
  let out := (Call.againstRules [⟨2, 3⟩] ⟨2, 4⟩).run order {} squares.2
  (out.1.2.workspace, out.2)

theorem Ran.covers_once_squares : ∃ j answer answer',
    Ran j [(.againstRules [⟨2, 3⟩] ⟨2, 4⟩, answer), (.againstAll [⟨2, 4⟩] [⟨2, 3⟩] ⟨2, 3⟩, answer')] ∧
    (j.Covers (⟨3, 2⟩, ⟨4, 2⟩) ∧ j.Covers (⟨4, 2⟩, ⟨3, 2⟩)) ∧
    (∃ pairs, ⟨(⟨2, 4⟩, ⟨2, 3⟩), pairs⟩ ∈ j.rounds ∧ pairs ⊆ answer) ∧
    (j.rounds.map Round.donors).Nodup := by
  have once := (Ran.start {}).call squares.order (.againstRules [⟨2, 3⟩] ⟨2, 4⟩) {} squares.2
    [⟨14, 8⟩, ⟨17, 18⟩, ⟨22, 23⟩, ⟨29, 30⟩] (by decide +kernel)
  have twice := once.call squares.order (.againstAll [⟨2, 4⟩] [⟨2, 3⟩] ⟨2, 3⟩)
    squares.once.1 squares.once.2 [⟨93, 93⟩, ⟨99, 100⟩] (by decide +kernel)
  obtain ⟨covered, first, nodup⟩ := twice.covers_once
  have required : (Call.againstRules [⟨2, 3⟩] ⟨2, 4⟩).Requires (⟨2, 4⟩, ⟨2, 3⟩) :=
    ⟨⟨2, 4⟩, ⟨2, 3⟩, rfl, List.mem_singleton_self _, .inl rfl⟩
  have partner : (Call.againstAll [⟨2, 4⟩] [⟨2, 3⟩] ⟨2, 3⟩).Partner ⟨4, 2⟩ :=
    .inr (.inl ⟨⟨2, 4⟩, List.mem_singleton_self _, .inr rfl⟩)
  have inFirst := first [] _ _ _ _ rfl required (List.forall_mem_nil _)
  have inSecond := covered _ _ (List.mem_append_right _ (List.mem_singleton_self _)) _ _ (.inr rfl) partner
  exact ⟨_, _, _, twice, inSecond, inFirst, nodup⟩

end Superposer
end OrderedCompletion
