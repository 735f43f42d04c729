import OrderedCompletion.Proofs.Printing
import OrderedCompletion.Proofs.TwinEngine

/-! The texts of runs side by side are the same. -/

namespace OrderedCompletion

open Term Parallel

namespace Term

variable {symbols : SymbolTable} {spell spell' : Var → String} {ρ : Equiv.Perm Var} {t : Term}

theorem occurrences_rename : (t.rename ρ).occurrences = t.occurrences.map ρ := by
  rw [rename, occurrences_subst]
  simp [List.map_eq_flatMap]

/-- If variables are spelled alike under their other names, terms are printed alike. -/
theorem printWith_rename (same : ∀ v ∈ t.vars, spell' (ρ v) = spell v) :
    (t.rename ρ).printWith symbols spell' = t.printWith symbols spell := printWith_subst same

end Term

/-- The variables of both sides from left to right. -/
theorem Equation.occurrences_eq {s : Store} {e : Equation} {c : Term × Term} (wf : s.WellFormed) (h : s.Means e c) :
    [e.lhs, e.rhs].flatMap s.occurrences = c.1.occurrences ++ c.2.occurrences := by
  rw [List.flatMap_cons, List.flatMap_cons, List.flatMap_nil, List.append_nil, wf.below.occurrences_eq h.1.1,
    wf.below.occurrences_eq h.2.1, h.1.2, h.2.2]

namespace Parallel

variable {P : Parallel} {v : Var} {symbols : SymbolTable} {c : Term × Term} {d d' : Equation}

theorem Shows.means (h : P.Shows c d d') : P.left.store.Means d c := ⟨h.lhs.left, h.rhs.left⟩

theorem Shows.means_renamed (h : P.Shows c d d') :
    P.right.store.Means d' (c.1.rename P.names, c.2.rename P.names) := ⟨h.lhs.right, h.rhs.right⟩

section
variable {supply supply' : Supply} (left : supply.reserved = P.left.reserved)
variable (right : supply'.reserved = P.right.reserved)
include left right

theorem isReserved_eq (hv : v ∈ P.known) : supply'.isReserved (P.names v) = supply.isReserved v := by
  rw [Supply.isReserved, Supply.isReserved, left, right]
  refine decide_eq_decide.2 ⟨fun held => ?_, fun held => ?_⟩
  · by_contra free
    exact (P.drawn v hv free).2.2.2 held
  · obtain ⟨-, same, held'⟩ := P.own v held
    exact same.symm ▸ held'

theorem madeUpVars_eq (h : P.Shows c d d') : supply'.madeUpVars P.right.store [d'.lhs, d'.rhs] =
    (supply.madeUpVars P.left.store [d.lhs, d.rhs]).map P.names := by
  rw [Supply.madeUpVars, Supply.madeUpVars, Equation.occurrences_eq P.left.wellFormed h.means,
    Equation.occurrences_eq P.right.wellFormed h.means_renamed, occurrences_rename, occurrences_rename,
    ← List.map_append, List.filter_map, eraseDups_map P.names.injective]
  refine congrArg (fun vs => (List.eraseDups vs).map P.names) (List.filter_congr fun v hv => ?_)
  have known : v ∈ P.known := (List.mem_append.1 hv).elim (fun hv => h.lhs.known v (mem_occurrences.1 hv))
    fun hv => h.rhs.known v (mem_occurrences.1 hv)
  rw [Function.comp, isReserved_eq left right known]

/-- Made-up variables are spelled by their place, the others have the same names. -/
theorem spell_eq (h : P.Shows c d d') (hv : v ∈ c.1.vars ∨ v ∈ c.2.vars) :
    spellMadeUp (supply'.madeUpVars P.right.store [d'.lhs, d'.rhs]) (P.names v) =
      spellMadeUp (supply.madeUpVars P.left.store [d.lhs, d.rhs]) v := by
  have place : ∀ vs : List Var, (vs.map P.names).idxOf? (P.names v) = vs.idxOf? v := by
    intro vs
    induction vs with
    | nil => rfl
    | cons w vs ih => rw [List.map_cons, List.idxOf?_cons, List.idxOf?_cons, ih, P.names.injective.beq_eq]
  rw [madeUpVars_eq left right h, spellMadeUp, spellMadeUp, place]
  cases found : (supply.madeUpVars P.left.store [d.lhs, d.rhs]).idxOf? v with
  | some i => rfl
  | none =>
      have own : v ∈ P.left.reserved := by
        by_contra free
        refine List.idxOf?_eq_none_iff.1 found ?_
        rw [Supply.madeUpVars, List.mem_eraseDups, List.mem_filter, Equation.occurrences_eq P.left.wellFormed h.means,
          List.mem_append, mem_occurrences, mem_occurrences, Supply.isReserved, left]
        exact ⟨hv, Bool.not_eq_true' _ ▸ decide_eq_false free⟩
      rw [(P.own v own).2.1]

end

variable {e e' : Engine}

theorem renderPair_eq {sep : String} (h : P.TwinEq d d') (left : e.workspace.supply.reserved = P.left.reserved)
    (right : e'.workspace.supply.reserved = P.right.reserved) :
    e'.renderPair symbols P.right.store sep d' = e.renderPair symbols P.left.store sep d := by
  obtain ⟨c, h⟩ := h
  rw [Engine.renderPair, Engine.renderPair, h.lhs.left.2, h.lhs.right.2, h.rhs.left.2, h.rhs.right.2,
    printOr, printOr, printOr, printOr, printWith_rename fun v hv => spell_eq left right h (.inl hv),
    printWith_rename fun v hv => spell_eq left right h (.inr hv)]

/-- Runs at the same place have the same text. -/
theorem render_eq (h : e.Twins P e') (left : e.workspace.supply.reserved = P.left.reserved)
    (right : e'.workspace.supply.reserved = P.right.reserved) :
    e'.render symbols P.right.store = e.render symbols P.left.store := by
  have texts : ∀ {es ds : List Equation} (sep : String), List.Forall₂ P.TwinEq es ds →
      ds.map (e'.renderPair symbols P.right.store sep) = es.map (e.renderPair symbols P.left.store sep) := by
    intro es ds sep all
    induction all with
    | nil => rfl
    | cons here _ ih => rw [List.map_cons, List.map_cons, ih, renderPair_eq here left right]
  rw [Engine.render, Engine.render, Engine.snapshot, Engine.snapshot, texts "=" h.equations, texts "->" h.ruleEquations]

end Parallel

namespace Text

variable {α β : Type} {R : α → β → Prop} {as : List α} {bs : List β} {text : α → String} {text' : β → String}

theorem insertBy_rel {le : α → α → Bool} {le' : β → β → Bool} {a : α} {b : β}
    (same : ∀ {a a' b b'}, R a b → R a' b' → le' b b' = le a a') (here : R a b) (h : List.Forall₂ R as bs) :
    List.Forall₂ R (insertBy le a as) (insertBy le' b bs) := by
  induction h with
  | nil => exact .cons here .nil
  | @cons a' b' as bs first rest ih =>
      rw [insertBy, insertBy, same here first]
      cases le a a' with
      | true => exact .cons here (.cons first rest)
      | false => exact .cons first ih

/-- Sorting looks at the texts only. -/
theorem sortByText_rel (same : ∀ {a b}, R a b → text' b = text a) (h : List.Forall₂ R as bs) :
    List.Forall₂ R (sortByText text as) (sortByText text' bs) := by
  have keyed : List.Forall₂ (fun (x : String × α) (y : String × β) => y.1 = x.1 ∧ R x.2 y.2)
      (as.map fun a => (text a, a)) (bs.map fun b => (text' b, b)) :=
    List.rel_map (fun _ _ here => ⟨same here, here⟩) h
  have sorted : List.Forall₂ (fun (x : String × α) (y : String × β) => y.1 = x.1 ∧ R x.2 y.2)
      (sortBy (fun a b => shorterFirst a.1 b.1) (as.map fun a => (text a, a)))
      (sortBy (fun a b => shorterFirst a.1 b.1) (bs.map fun b => (text' b, b))) := by
    refine List.rel_foldr (fun _ _ here _ _ h => insertBy_rel (fun h h' => ?_) here h) .nil keyed
    rw [h.1, h'.1]
  exact List.rel_map (fun _ _ here => here.2) sorted

end Text
end OrderedCompletion
