import OrderedCompletion.Proofs.Conservation
import OrderedCompletion.Proofs.Shrinking
import OrderedCompletion.Proofs.Simplification
import OrderedCompletion.Proofs.Verdict

/-! Orders that go by a relation which does not look at the names of variables, and the states that runs with
them reach. -/

namespace OrderedCompletion

/-- What is smaller has no other variables. -/
def Gauge.keeping (sig : Signature) : Gauge where
  sig := sig
  gt := Term.Keeps
  strict := False
  distinct := True
  trans := fun _ _ _ h h' => h.trans h'
  subst := fun _ _ _ h => h.subst
  arg := fun _ _ h => h.arg
  irrefl := fun h => h.elim

variable {Q : Term → UInt32 → Prop} {sig : Signature} {gt : Term → Term → Prop} {o : Order} {cmp : HeadComparison}

namespace Order

/-- In stores all of whose terms have a property the order answers as a relation says. -/
structure Reads (o : Order) (Q : Term → UInt32 → Prop) (sig : Signature) (gt : Term → Term → Prop) :
    Prop where
  grows : o.Grows
  answers : ∀ {s : Store} {r q : Ref} {a b : Term}, s.WellFormed → s.All Q → s.Denotes r a →
    s.Denotes q b → a.Over sig → b.Over sig → s.Ensures (o.greater r q) fun yes _ => yes = true ↔ gt a b

/-- In stores all of whose terms have a property the order answers as a relation says, and the names of
variables do not matter to that. -/
structure Judges (o : Order) (Q : Term → UInt32 → Prop) (sig : Signature) (gt : Term → Term → Prop) : Prop where
  grows : o.Grows
  blind : Term.Blind gt
  answers : ∀ {s : Store} {r q : Ref} {a b : Term}, s.WellFormed → s.All Q → s.Denotes r a →
    s.Denotes q b → a.Over sig → b.Over sig → s.Ensures (o.greater r q) fun yes _ => yes = true ↔ gt a b

theorem Judges.reads (h : o.Judges Q sig gt) : o.Reads Q sig gt := ⟨h.grows, h.answers⟩

open Classical in
/-- The order as it would be if it went by the relation in all stores. -/
noncomputable def settled (Q : Term → UInt32 → Prop) (gt : Term → Term → Prop) (o : Order) : Order where
  greater := fun r q s => if s.All Q then o.greater r q s else (decide (gt (s.term r) (s.term q)), s)
  alarm := o.alarm

theorem Reads.tracks (h : o.Reads Q sig gt) : o.Tracks Q (o.settled Q gt) where
  alarm := rfl
  greater := fun r q s => ⟨h.grows r q s, fun all => if_pos (all.of_grown (h.grows r q s))⟩

/-- In stores that only the settled order leads to both are the same as well. -/
theorem Reads.tracked (h : o.Reads Q sig gt) : (o.settled Q gt).Tracks Q o where
  alarm := rfl
  greater := by
    intro r q s
    by_cases all : s.All Q
    · have same : (o.settled Q gt).greater r q s = o.greater r q s := if_pos all
      rw [same]
      exact ⟨h.grows r q s, fun _ => rfl⟩
    · have still : (o.settled Q gt).greater r q s = (_, s) := if_neg all
      rw [still]
      exact ⟨.refl s, fun all' => absurd all' all⟩

theorem Reads.decides (h : o.Reads Q sig gt) : (o.settled Q gt).Decides sig gt := by
  classical
  intro s r q a b wf ha hb inSig inSig'
  by_cases all : s.All Q
  · have same : (o.settled Q gt).greater r q s = o.greater r q s := if_pos all
    rw [Store.Ensures, same]
    exact h.answers wf all ha hb inSig inSig'
  · have same : (o.settled Q gt).greater r q s = (decide (gt (s.term r) (s.term q)), s) := if_neg all
    rw [Store.Ensures, same, ha.2, hb.2]
    exact ⟨wf, le_rfl, by simp⟩

theorem Judges.tracks (h : o.Judges Q sig gt) : o.Tracks Q (o.settled Q gt) := h.reads.tracks

theorem Judges.decides (h : o.Judges Q sig gt) : (o.settled Q gt).Decides sig gt := h.reads.decides

theorem Judges.keeps (h : o.Judges Q sig gt) : (o.settled Q gt).Obeys (.keeping sig) := by
  intro s r q a b wf ha hb inSig inSig'
  refine (h.decides wf ha hb inSig inSig').mono fun yes _ _ _ answer => ⟨fun isYes => ?_, fun no => no.elim⟩
  exact h.blind.vars (answer.1 isYes)

end Order

namespace Term

/-- A variable of a term becomes one of the renamed term. -/
theorem exists_var_of_mem {s : Term} {ρ ρ' : Var → Term} {v : Var} (restores : Restores ρ ρ' (.var v))
    (hv : v ∈ s.vars) : ∃ w, ρ v = .var w ∧ w ∈ (s.subst ρ).vars := by
  obtain ⟨w, hw⟩ := exists_var_of_subst_eq_var (restores_iff.1 restores v (mem_vars_var.2 rfl))
  exact ⟨w, hw, mem_vars_subst.2 ⟨v, hv, by rw [hw]; exact mem_vars_var.2 rfl⟩⟩

end Term

namespace Kbo

variable {s t : Term} {ρ ρ' : Var → Term}

/-- A renamed term is as large as the term. -/
theorem size_subst_of_restores (h : Term.Restores ρ ρ' t) : (t.subst ρ).size = t.size := by
  have back : (t.subst ρ).size ≤ ((t.subst ρ).subst ρ').size := Term.size_le_size_subst
  rw [show (t.subst ρ).subst ρ' = t from h] at back
  exact le_antisymm back Term.size_le_size_subst

end Kbo

namespace Lpo

theorem gt_blind : Term.Blind (Gt cmp) where
  vars := fun h _ => h.mem_vars
  renamable := fun _ _ _ _ _ h => h.subst

theorem judges (lawful : cmp.Lawful sig) :
    (Order.ofKind cmp .lpo).Judges (fun _ _ => True) sig (Gt cmp) where
  grows := greater_grows cmp
  blind := gt_blind
  answers := fun wf _ ha hb inSig inSig' => decides lawful wf ha hb inSig inSig'

end Lpo

namespace Problem

open Engine

variable {p : Problem} {e : Engine} {s : Store}

/-- Every state that a run reaches can be checked. -/
theorem Runs.checkable (h : p.Runs sig e s) (judges : p.order.Judges Q sig gt) (posed : p.Posed sig)
    (distinct : ({ source := p.source } : Supply).Distinct) (all : s.All Q) :
    s.WellFormed ∧ Checkable sig gt (p.order.settled Q gt) s e := by
  have posed' : (p.withOrder (p.order.settled Q gt)).Posed sig := ⟨posed.wellFormed, posed.has⟩
  have kept := Runs.kept (G := .keeping sig) (h.tracked judges.tracks all) posed' judges.keeps
    fun _ => distinct_start posed' distinct
  have fine := kept.presents.fine
  refine ⟨kept.wellFormed, ⟨judges.decides, judges.blind, fine.equations, fine.rules, fun d hd => ?_⟩,
    fine.distinct trivial⟩
  exact (fine.descends d.1 d.2 (Store.mem_sides.1 hd)).2.2

end Problem
end OrderedCompletion
