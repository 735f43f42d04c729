import OrderedCompletion.Proofs.Calls

/-! Runs of completion from axioms, call after call. -/

namespace OrderedCompletion

/-- Whatever the order answers, it leads to a store that has all the terms the given one has. -/
def Order.Preserves (o : Order) : Prop :=
  ∀ {s : Store} {r q : Ref}, s.WellFormed → r < s.size → q < s.size →
    s.Ensures (o.greater r q) fun _ _ => True

/-- On terms over a signature the order answers as a relation says. -/
def Order.Decides (o : Order) (sig : Signature) (gt : Term → Term → Prop) : Prop :=
  ∀ {s : Store} {r q : Ref} {a b : Term}, s.WellFormed → s.Denotes r a → s.Denotes q b →
    a.Over sig → b.Over sig → s.Ensures (o.greater r q) fun yes _ => yes = true ↔ gt a b

theorem Order.Preserves.obeys {o : Order} (h : o.Preserves) : o.Obeys .free := by
  intro s r q a b wf ha hb _ _
  exact (h wf ha.1 hb.1).mono fun _ _ _ _ _ => ⟨fun _ => trivial, fun no => no.elim⟩

theorem Order.Decides.obeys {o : Order} {sig : Signature} {gt : Term → Term → Prop}
    (h : o.Decides sig gt) (laws : ReductionOrder sig gt) : o.Obeys laws.gauge := by
  intro s r q a b wf ha hb inSig inSig'
  refine (h wf ha hb inSig inSig').mono fun yes _ _ _ answer => ⟨answer.1, fun _ no greater => ?_⟩
  rw [no] at answer
  cases answer.2 greater

namespace Store

mutual
theorem ofTerm_spec {s : Store} {t : Term} (wf : s.WellFormed) (ht : t.Over .full) :
    s.Ensures (ofTerm t) fun r s' => s'.Denotes r t := by
  cases t with
  | var v => exact var_spec wf v
  | app f args =>
      rw [ofTerm]
      refine (ofTerms_spec wf (Term.over_app_iff.1 ht).2).bind fun rs s₁ wf₁ le₁ h => ?_
      exact app_spec wf₁ h
  | missing r => exact absurd ht Term.not_over_missing

theorem ofTerms_spec {s : Store} {ts : List Term} (wf : s.WellFormed) (hts : ∀ t ∈ ts, t.Over .full) :
    s.Ensures (ofTerms ts) fun rs s' => s'.DenotesAll rs ts := by
  cases ts with
  | nil => exact .pure wf .nil
  | cons t ts =>
      rw [ofTerms]
      refine (ofTerm_spec wf (hts t List.mem_cons_self)).bind fun r s₁ wf₁ le₁ h => ?_
      refine (ofTerms_spec wf₁ fun u hu => hts u (List.mem_cons_of_mem _ hu)).bind ?_
      exact fun rs s₂ wf₂ le₂ hs => .pure wf₂ (.cons (h.mono wf₁ wf₂ le₂) hs)
end

end Store

namespace Equation

variable {s : Store} {pairs : List (Term × Term)}

theorem ofTerms_spec {l r : Term} (wf : s.WellFormed) (hl : l.Over .full) (hr : r.Over .full) :
    s.Ensures (ofTerms l r) fun e s' => s'.Means e (l, r) := by
  refine (Store.ofTerm_spec wf hl).bind fun q s₁ wf₁ le₁ left => ?_
  refine (Store.ofTerm_spec wf₁ hr).bind fun q' s₂ wf₂ le₂ right => ?_
  exact .pure wf₂ ⟨left.mono wf₁ wf₂ le₂, right⟩

/-- Equations that are given as terms are stored in turn. -/
theorem listOfTerms_means (wf : s.WellFormed) (full : ∀ d ∈ pairs, d.1.Over .full ∧ d.2.Over .full) :
    s.Ensures (listOfTerms pairs) fun es s' => List.Forall₂ (fun d e => s'.Means e d) pairs es := by
  have all := Store.Ensures.mapM (f := fun d : Term × Term => ofTerms d.1 d.2)
    (I := fun _ => True) (Q := fun d e s' => s'.Means e d) wf trivial
    (fun _ _ _ _ wf₁ wf₂ le h => means_mono h wf₁ wf₂ le) fun d hd s' wf' _ _ =>
      (ofTerms_spec wf' (full d hd).1 (full d hd).2).mono fun _ _ _ _ means => ⟨trivial, means⟩
  exact all.mono fun _ _ _ _ h => h.2

end Equation

namespace Store

theorem listOfTerms_spec {s : Store} {pairs : List (Term × Term)} {sig : Signature}
    (wf : s.WellFormed) (inSig : ∀ d ∈ pairs, d.1.Over sig ∧ d.2.Over sig) :
    s.Ensures (Equation.listOfTerms pairs) fun es s' =>
      s'.HasAll sig es ∧ s'.theory es = {d | d ∈ pairs} := by
  have all := Equation.listOfTerms_means wf fun d hd => ⟨(inSig d hd).1.full, (inSig d hd).2.full⟩
  refine all.mono fun es s' wf' _ h => ⟨fun eq heq => ?_, ?_⟩
  · obtain ⟨d, hd, means⟩ := exists_of_forall₂_right h heq
    exact ⟨d.1, d.2, means, inSig d hd⟩
  · ext d
    constructor
    · rintro ⟨eq, heq, rfl⟩
      obtain ⟨d, hd, means⟩ := exists_of_forall₂_right h heq
      rw [means.1.2, means.2.2]
      exact hd
    · intro hd
      obtain ⟨eq, heq, means⟩ := exists_of_forall₂_left h hd
      exact mem_theory heq means

theorem wellFormed_listOfTerms {pairs : List (Term × Term)}
    (inSig : ∀ d ∈ pairs, d.1.Over .full ∧ d.2.Over .full) :
    (Equation.listOfTerms pairs .empty).2.WellFormed :=
  (listOfTerms_spec empty_wellFormed inSig).1

end Store

namespace Engine

/-- The calls of a run. -/
inductive Call where
  | step
  | complete
  | equal (eq : Equation)
  | reduce (r : Ref)
  | normalForm (r : Ref)
  | setBudget (maxSteps timeLimit : Option Nat)
  | cancel
  deriving DecidableEq, Repr

/-- The state and the store that an action leaves, also if it fails. -/
def after {α : Type} (x : EngineM α) (e : Engine) (s : Store) : Engine × Store :=
  ((x e s).1.2, (x e s).2)

/-- What an action answers. -/
def answer {α : Type} (x : EngineM α) (e : Engine) (s : Store) : Except Halt α := (x e s).1.1

namespace Call

def run (ctx : Context) : Call → Engine → Store → Engine × Store
  | .step => after (Engine.step ctx)
  | .complete => after (Engine.complete ctx)
  | .equal eq => after (Engine.equal ctx eq)
  | .reduce r => after (Engine.reduce ctx r)
  | .normalForm r => after (Engine.normalForm ctx r)
  | .setBudget maxSteps timeLimit => fun e s => (e.setBudget maxSteps timeLimit, s)
  | .cancel => fun e s => (e.setStop true, s)

/-- The terms that a call is about. -/
def refs : Call → List Ref
  | .equal eq => [eq.lhs, eq.rhs]
  | .reduce r => [r]
  | .normalForm r => [r]
  | _ => []

end Call
end Engine

/-- What a run starts from. -/
structure Problem where
  store : Store
  axioms : List Equation
  order : Order
  config : Config := {}
  source : VarSource := .counting firstFresh

namespace Problem

open Engine

/-- The problem that axioms pose which are given as terms. -/
def ofTerms (order : Order) (pairs : List (Term × Term)) : Problem where
  store := (Equation.listOfTerms pairs .empty).2
  axioms := (Equation.listOfTerms pairs .empty).1
  order := order

/-- What the axioms say. -/
def theory (p : Problem) : Theory := p.store.theory p.axioms

/-- The axioms are stored terms over a signature. -/
structure Posed (p : Problem) (sig : Signature) : Prop where
  wellFormed : p.store.WellFormed
  has : p.store.HasAll sig p.axioms

/-- The state and the store that a run starts with. -/
def start (p : Problem) : Engine × Store := ofAxioms p.config p.axioms p.source p.store

/-- The states and stores that calls about terms over a signature lead to. Between calls terms may be
added to the store, and calls may differ in what bounds their loops and in how they write symbols. -/
inductive Reaches (p : Problem) (sig : Signature) : Engine → Store → Prop
  | start : Reaches p sig p.start.1 p.start.2
  | grow {e : Engine} {s s' : Store} : Reaches p sig e s → s'.WellFormed → s ≤ s' → Reaches p sig e s'
  | call {e : Engine} {s : Store} (c : Call) (ctx : Context) : Reaches p sig e s →
      ctx.order = p.order → (∀ r ∈ c.refs, ∃ a, s.Denotes r a ∧ a.Over sig) →
      Reaches p sig (c.run ctx e s).1 (c.run ctx e s).2

variable {p : Problem} {G : Gauge} {A : Theory} {ctx : Context} {e : Engine} {s : Store}

theorem Posed.fits (h : p.Posed G.sig) : G.Fits p.theory := h.has.fits

theorem Posed.full {sig : Signature} (h : p.Posed sig) : p.Posed .full := by
  refine ⟨h.wellFormed, fun eq heq => ?_⟩
  obtain ⟨l, r, means, hl, hr⟩ := h.has eq heq
  exact ⟨l, r, means, hl.full, hr.full⟩

theorem posed_ofTerms {order : Order} {pairs : List (Term × Term)} {sig : Signature}
    (inSig : ∀ d ∈ pairs, d.1.Over sig ∧ d.2.Over sig) : (ofTerms order pairs).Posed sig := by
  obtain ⟨wf, -, has, -⟩ := Store.listOfTerms_spec Store.empty_wellFormed inSig
  exact ⟨wf, has⟩

theorem theory_ofTerms {order : Order} {pairs : List (Term × Term)} {sig : Signature}
    (inSig : ∀ d ∈ pairs, d.1.Over sig ∧ d.2.Over sig) :
    (ofTerms order pairs).theory = {d | d ∈ pairs} :=
  (Store.listOfTerms_spec Store.empty_wellFormed inSig).2.2.2

/-- Reserving variables leaves the source of a supply alone. -/
theorem reserveAll_spec {es : List Equation} {supply : Supply} {sig : Signature} (wf : s.WellFormed)
    (has : s.HasAll sig es) :
    s.Ensures (es.foldlM (fun supply e => return supply.reserve (← e.vars)) supply)
      fun supply' s' => supply.Later supply' ∧ Store.SameTerms s s' := by
  induction es generalizing s supply with
  | nil => exact .pure wf ⟨.refl supply, .refl s⟩
  | cons eq es ih =>
      rw [List.foldlM_cons]
      obtain ⟨l, r, means, -⟩ := has eq List.mem_cons_self
      refine Store.Ensures.bind ((Equation.vars_spec wf means).bind fun vs s₁ wf₁ le₁ h =>
        .pure (Q := fun out s₁ => supply.Later out ∧ Store.SameTerms s s₁) wf₁
          ⟨Supply.reserve_later vs, h.2⟩) ?_
      rintro out s₁ wf₁ le₁ ⟨later, same⟩
      have rest := (has.of_subset (List.subset_cons_self eq es)).mono wf wf₁ le₁
      exact (ih wf₁ rest).mono fun _ _ _ _ h => ⟨later.trans h.1, same.trans h.2⟩

/-- The worklist that a run starts with. -/
def worklist (p : Problem) : List Equation := (p.axioms.filter fun e => !e.isTrivial).foldl addNew []

theorem mem_worklist {eq : Equation} : eq ∈ p.worklist ↔ eq ∈ p.axioms ∧ eq.isTrivial = false := by
  simp [worklist, Superposition.mem_foldl_addNew]

theorem start_spec (posed : p.Posed G.sig) :
    p.store.Ensures (ofAxioms p.config p.axioms p.source) fun e s =>
      ({ source := p.source } : Supply).Later e.workspace.supply ∧
      ((G.distinct → e.workspace.supply.Distinct) → Presents G p.theory p.config.unfailing s e) := by
  have wf := posed.wellFormed
  have fewer : p.worklist ⊆ p.axioms := fun eq h => (mem_worklist.1 h).1
  have has := posed.has.of_subset fewer
  refine (reserveAll_spec wf has).bind ?_
  rintro supply s₁ wf₁ le₁ ⟨later, same⟩
  refine .pure wf₁ ⟨later, fun distinct => ?_⟩
  change Presents G p.theory p.config.unfailing s₁
    { config := p.config, equations := p.worklist, workspace := { supply } }
  have theory : Engine.theory { config := p.config, equations := p.worklist, workspace := { supply } } s₁ =
      p.store.theory p.worklist := by
    rw [Engine.theory, Store.theory_nil, Set.union_empty, same.theory]
  refine ⟨rfl, ⟨has.mono wf wf₁ le₁, fun _ h => (by cases h), ?_,
    distinct⟩, ?_, ?_, ?_, fun _ _ => .of_nil rfl, fun h => (by cases h), fun h => by cases h⟩
  · rw [Store.theory_nil]
    exact fun _ _ h => h.elim
  · intro l r hl
    rw [theory] at hl
    exact .of_mem (Store.theory_mono fewer hl)
  · intro l r hl
    obtain ⟨eq, heq, means, hl', hr'⟩ := posed.has.exists_means hl
    rw [theory]
    cases isTrivial : eq.isTrivial with
    | true =>
        obtain rfl := means_eq_of_trivial isTrivial means
        exact .refl l
    | false => exact .of_mem (Store.mem_theory (mem_worklist.2 ⟨heq, isTrivial⟩) means) hl' hr'
  · rintro - - d (⟨no, -⟩ | no)
    · cases no
    · simp [Index.contains] at no

/-- A source that offers no variable twice goes on to do so when variables are reserved. -/
theorem distinct_start {sig : Signature} (posed : p.Posed sig)
    (distinct : ({ source := p.source } : Supply).Distinct) : p.start.1.workspace.supply.Distinct := by
  exact (start_spec (G := .free) posed.full).2.2.1.distinct distinct

/-- What every run keeps. -/
structure Kept (G : Gauge) (p : Problem) (e : Engine) (s : Store) : Prop where
  wellFormed : s.WellFormed
  later : p.store ≤ s
  presents : Presents G p.theory p.config.unfailing s e

theorem Kept.grow {s' : Store} (h : Kept G p e s) (posed : p.Posed G.sig) (wf' : s'.WellFormed)
    (le : s ≤ s') : Kept G p e s' :=
  ⟨wf', h.later.trans le, h.presents.aside posed.fits (.refl e) h.wellFormed wf' le⟩

theorem Kept.of_keeping {α : Type} {x : EngineM α} {Q : α → Engine → Store → Prop} (h : Kept G p e s)
    (kept : Keeping G p.theory p.config.unfailing e s x Q) :
    Kept G p (after x e s).1 (after x e s).2 := by
  obtain ⟨wf', le', out⟩ := kept
  refine ⟨wf', h.later.trans le', ?_⟩
  rw [after]
  cases hr : (x e s).1.1 with
  | ok a =>
      rw [hr] at out
      exact out.1
  | error halt =>
      rw [hr] at out
      exact out

/-- Every call keeps it. -/
theorem Kept.call (h : Kept G p e s) (posed : p.Posed G.sig) (obeys : ctx.order.Obeys G) (c : Call)
    (known : ∀ r ∈ c.refs, ∃ a, s.Denotes r a ∧ a.Over G.sig) :
    Kept G p (c.run ctx e s).1 (c.run ctx e s).2 := by
  have wf := h.wellFormed
  have inv := h.presents
  cases c with
  | step => exact h.of_keeping (step_spec obeys wf posed.fits inv)
  | complete => exact h.of_keeping (complete_spec obeys wf posed.fits inv)
  | equal eq =>
      obtain ⟨l, hl, inSig⟩ := known eq.lhs (by simp [Call.refs])
      obtain ⟨r, hr, inSig'⟩ := known eq.rhs (by simp [Call.refs])
      exact h.of_keeping (equal_spec obeys wf posed.fits inv ⟨hl, hr⟩ inSig inSig')
  | reduce r =>
      obtain ⟨a, ha, inSig⟩ := known r (by simp [Call.refs])
      exact h.of_keeping (reduce_spec obeys wf posed.fits inv ha inSig)
  | normalForm r =>
      obtain ⟨a, ha, inSig⟩ := known r (by simp [Call.refs])
      exact h.of_keeping (normalForm_spec obeys wf posed.fits inv ha inSig)
  | setBudget maxSteps timeLimit =>
      obtain ⟨unfailing, fine, sound, covers, peaks, reduced, complete, ground⟩ := inv
      exact ⟨wf, h.later, unfailing, ⟨fine.equations, fine.rules, fine.descends, fine.distinct⟩, sound,
        covers, peaks, fun strict live => (reduced strict live).of_subset rfl fun _ hc => hc, complete, ground⟩
  | cancel => exact ⟨wf, h.later, inv.aside posed.fits (setStop_aside true) wf wf le_rfl⟩

/-- Every run keeps it. -/
theorem Reaches.kept (h : p.Reaches G.sig e s) (posed : p.Posed G.sig) (obeys : p.order.Obeys G)
    (distinct : G.distinct → p.start.1.workspace.supply.Distinct) : Kept G p e s := by
  induction h with
  | start =>
      obtain ⟨wf, le, -, inv⟩ := start_spec posed
      exact ⟨wf, le, inv distinct⟩
  | grow _ wf' le ih => exact ih.grow posed wf' le
  | call c ctx _ order known ih => exact ih.call posed (order ▸ obeys) c known

end Problem
end OrderedCompletion
