import OrderedCompletion.Proofs.EarlyAnswers
import OrderedCompletion.Proofs.Kbo

/-! Two histories of a store, in one of which it is also asked about references that it does not know yet. -/

namespace OrderedCompletion

namespace Store

variable {early : Set Ref} {s s' s₀ : Store} {r u : Ref} {σ : Subst} {pair : Ref × Ref} {pairs : List (Ref × Ref)}

/-- One of two different sides is not known, so that the pair cannot be unified. -/
def Stuck (s : Store) (pair : Ref × Ref) : Prop := (s.size ≤ pair.1 ∨ s.size ≤ pair.2) ∧ pair.1 ≠ pair.2

/-- What can be asked of a store, substitutions included. -/
inductive Request where
  | basic (op : Op)
  | apply (σ : Subst) (r : Ref)
  | matching (pairs : List (Ref × Ref))
  | unifying (pairs : List (Ref × Ref))

/-- What it replies. -/
inductive Reply where
  | basic (answer : Answer)
  | ref (r : Ref)
  | subst (σ : Option Subst)

namespace Request

def run : Request → StoreM Reply
  | .basic op => return .basic (← op.run)
  | .apply σ r => return .ref (← Store.apply σ r)
  | .matching pairs => return .subst (← (matchPairs? pairs).run)
  | .unifying pairs => return .subst (← (unifyPairs? pairs).run)

/-- The references that a request is about. -/
def refs : Request → List Ref
  | .basic op => op.refs
  | .apply σ r => r :: σ.bindings.map (·.2)
  | .matching pairs => pairs.flatMap fun pair => [pair.1, pair.2]
  | .unifying pairs => pairs.flatMap fun pair => [pair.1, pair.2]

/-- Those of them about which something is noted whether they are known or not. -/
def consults : Request → List Ref
  | .basic (.vars r) => [r]
  | .basic (.isGround r) => [r]
  | .basic (.occurs _ r) => [r]
  | .basic (.freeze r) => [r]
  | .basic _ => []
  | .apply σ r => if σ.isEmpty then [] else [r]
  | .matching pairs => pairs.map (·.1)
  | .unifying _ => []

/-- Requests that look up variables and build nothing. -/
def Looks : Request → Prop
  | .basic (.vars _) => True
  | .basic (.isGround _) => True
  | .basic (.occurs _ _) => True
  | .basic _ => False
  | .apply _ _ => False
  | .matching _ => True
  | .unifying _ => False

/-- A request that what was asked early does not reach: the terms whose notes it looks up are clear. Unification
looks up those of terms all over the store, also of terms that it builds itself. -/
def Clear (early : Set Ref) (s : Store) : Request → Prop
  | .basic op => ∀ r ∈ (basic op).consults, s.Clear early r
  | .apply σ r => ∀ q ∈ (apply σ r).consults, s.Clear early q
  | .matching pairs => ∀ p ∈ (matching pairs).consults, s.Clear early p
  | .unifying pairs => Calm early ((unifyPairs? pairs).run s).2

/-- Questions that need not wait for the references that they are about, as nothing is built. -/
def Premature (s : Store) : Request → Prop
  | .basic (.vars _) => True
  | .basic (.isGround _) => True
  | .basic (.occurs _ _) => True
  | .basic (.freeze r) => s.size ≤ r
  | .basic _ => False
  | .apply _ r => ∀ f args, s.node? r ≠ some (.app f args)
  | .matching _ => True
  | .unifying pairs => (∃ pair ∈ pairs, s.Stuck pair) ∨ ∀ pair ∈ pairs, pair.1 = pair.2

end Request

/-- Both stores got the same requests about references that they knew, and the first one besides was asked
prematurely, which gives the set. Whatever builds a term after looking up notes is clear. -/
inductive Ahead : Set Ref → Store → Store → Prop
  | new : Ahead ∅ .empty .empty
  | both {early : Set Ref} {s s' : Store} (request : Request) : Ahead early s s' →
      (∀ r ∈ request.refs, r < s'.size) → (request.Looks ∨ request.Clear early s') →
      Ahead early (request.run s).2 (request.run s').2
  | early {early : Set Ref} {s s' : Store} (request : Request) : Ahead early s s' → request.Premature s →
      Ahead (early ∪ {r | r ∈ request.consults ∧ s.size ≤ r}) (request.run s).2 s'

section
variable {α β : Type} {x : StoreM α} {g : α → β}

theorem Undisturbed.answer (hx : Undisturbed early s₀ x) : Undisturbed early s₀ (do return g (← x)) :=
  hx.bind (.pure hx.wellFormed)

theorem Undisturbed.read {g : Store → β} (wf : s₀.WellFormed) (same : ∀ s, SameTerms s₀ s → g s = g s₀) :
    Undisturbed early s₀ (do return g (← get)) :=
  .bindGet (fun s hs => congrArg Pure.pure (same s hs.same)) (.pure wf)

theorem Gives.answer {Q : α → Prop} (hx : Gives early s₀ x Q s₀) :
    Gives early s₀ (do return g (← x)) (fun _ => True) s₀ := hx.bind fun _ _ => .pure trivial

end

theorem SameTerms.containsWithin (same : SameTerms s s') (n : Nat) (r u : Ref) :
    s'.containsWithin n r u = s.containsWithin n r u := by
  induction n generalizing r with
  | zero => rfl
  | succ n ih =>
      rw [Store.containsWithin, Store.containsWithin, same.node?]
      simp only [ih]

theorem SameTerms.appPositionsWithin (same : SameTerms s s') (n : Nat) (r : Ref) :
    s'.appPositionsWithin n r = s.appPositionsWithin n r := by
  induction n generalizing r with
  | zero => rfl
  | succ n ih =>
      rw [Store.appPositionsWithin, Store.appPositionsWithin, same.node?]
      simp only [ih]

theorem Melts.undisturbed {x : ExceptT TermError StoreM Ref} {t : Term} {Q : Except TermError Ref → Store → Prop}
    (hx : Melts early s₀ x t) (self : Reliable early s₀ s₀) (spec : s₀.Ensures x.run Q) :
    Undisturbed early s₀ x.run := by
  rw [Melts] at hx
  cases outcome : t.unfreeze with
  | ok u =>
      rw [outcome] at hx
      exact hx.undisturbed self spec
  | error e =>
      rw [outcome] at hx
      obtain ⟨s₁, -, -, stops⟩ := hx
      exact stops.undisturbed self spec

/-- Whatever a clear request about known references finds or builds does not depend on what was asked early. -/
theorem Op.undisturbed (h : s₀.Faithful) {op : Op} (known : ∀ r ∈ op.refs, r < s₀.size)
    (clear : Request.Clear early s₀ (.basic op)) : Undisturbed early s₀ op.run := by
  have wf := h.toWellFormed
  have self : Reliable early s₀ s₀ := h.reliable
  have asked : ∀ r ∈ op.refs, s₀.size ≤ r → r ∈ early :=
    fun r hr unknown => absurd (known r hr) (Nat.not_lt_of_le unknown)
  cases op with
  | var v =>
      have made : Undisturbed early s₀ (Store.var v) := intern_undisturbed wf trivial
      exact made.answer
  | app f args =>
      have made : Undisturbed early s₀ (Store.app f args) := intern_undisturbed wf known
      exact made.answer
  | rigid v =>
      have made : Undisturbed early s₀ (Store.rigid v) := intern_undisturbed wf nofun
      exact made.answer
  | resolve r => exact .read wf fun s same => by rw [same.node?]
  | sizeOf r => exact .read wf fun s same => by rw [same.sizeOf]
  | vars r =>
      have right := (vars_gives wf (asked r List.mem_cons_self)).mono fun _ right => right (clear r List.mem_cons_self)
      exact (right.undisturbed self (vars_spec wf (denotes_term (known r List.mem_cons_self)))).answer
  | isGround r =>
      have right := (isGround_gives wf (asked r List.mem_cons_self)).mono
        fun _ right => right (clear r List.mem_cons_self)
      exact (right.undisturbed self (isGround_spec wf (denotes_term (known r List.mem_cons_self)))).answer
  | occurs v r =>
      have right := (occurs_gives (v := v) wf (asked r List.mem_cons_self)).mono
        fun _ right => right (clear r List.mem_cons_self)
      exact (right.undisturbed self (occurs_spec wf (denotes_term (known r List.mem_cons_self)) v)).answer
  | contains r u =>
      refine .read wf fun s same => ?_
      rw [Store.contains, Store.contains, bound, bound, same.size, same.containsWithin]
  | subtermAt r p => exact .read wf fun s same => by rw [same.subtermAt]
  | replaceAt r p u =>
      exact (replaceAt_undisturbed h (known r List.mem_cons_self)
        (known u (List.mem_cons_of_mem r List.mem_cons_self))).answer
  | appPositions r =>
      refine .read wf fun s same => ?_
      rw [Store.appPositions, Store.appPositions, bound, bound, same.size, same.appPositionsWithin]
  | freeze r =>
      have hr := known r List.mem_cons_self
      have built := freeze_builds wf hr (clear r List.mem_cons_self)
      exact (Gives.undisturbed built self (freeze_spec h (denotes_term hr))).answer
  | unfreeze r =>
      have hr := known r List.mem_cons_self
      exact ((unfreeze_melts wf hr).undisturbed self (unfreeze_spec h (denotes_term hr))).answer

theorem knows_of_bindings (known : ∀ q ∈ σ.bindings.map (·.2), q < s.size) : s.Knows σ := by
  intro v q hv
  obtain ⟨before, after, split, -⟩ := List.lookup_eq_some_iff.1 hv
  refine known q (List.mem_map.2 ⟨(v, q), ?_, rfl⟩)
  rw [split]
  exact List.mem_append_right _ List.mem_cons_self

theorem known_of_pairs (known : ∀ r ∈ pairs.flatMap fun pair => [pair.1, pair.2], r < s.size) :
    ∀ pair ∈ pairs, pair.1 < s.size ∧ pair.2 < s.size := by
  intro pair hpair
  exact ⟨known _ (List.mem_flatMap.2 ⟨pair, hpair, by simp⟩), known _ (List.mem_flatMap.2 ⟨pair, hpair, by simp⟩)⟩

namespace Request

theorem consults_subset {request : Request} (h : r ∈ request.consults) : r ∈ request.refs := by
  cases request with
  | basic op =>
      cases op with
      | vars q => exact h
      | isGround q => exact h
      | occurs v q => exact h
      | freeze q => exact h
      | _ => exact absurd h List.not_mem_nil
  | apply σ q =>
      rw [consults] at h
      split at h
      · exact absurd h List.not_mem_nil
      · exact List.mem_singleton.1 h ▸ List.mem_cons_self
  | matching pairs =>
      obtain ⟨pair, hpair, rfl⟩ := List.mem_map.1 h
      exact List.mem_flatMap.2 ⟨pair, hpair, List.mem_cons_self⟩
  | unifying pairs => exact absurd h List.not_mem_nil

theorem clear_nothing (request : Request) : request.Clear ∅ s := by
  cases request with
  | basic op => exact fun r _ => Store.clear_nothing
  | apply σ r => exact fun q _ => Store.clear_nothing
  | matching pairs => exact fun r _ => Store.clear_nothing
  | unifying pairs => exact fun r asked => absurd asked (Set.notMem_empty r)

theorem undisturbed (h : s₀.Faithful) {request : Request} (known : ∀ r ∈ request.refs, r < s₀.size)
    (clear : request.Clear early s₀) : Undisturbed early s₀ request.run := by
  have wf := h.toWellFormed
  have self : Reliable early s₀ s₀ := h.reliable
  cases request with
  | basic op => exact (Op.undisturbed h known clear).answer
  | apply σ r =>
      have hr := known r List.mem_cons_self
      have binds := (knows_of_bindings fun q hq => known q (List.mem_cons_of_mem r hq)).binds
      have applied : Undisturbed early s₀ (Store.apply σ r) := by
        by_cases idle : σ.isEmpty
        · rw [Store.apply, if_pos idle]
          exact .pure wf
        · rw [Clear, consults, if_neg idle] at clear
          have built := apply_builds wf binds hr (clear r List.mem_cons_self)
          exact Gives.undisturbed built self (apply_spec wf binds (denotes_term hr))
      exact applied.answer
  | matching pairs =>
      have stored := known_of_pairs known
      have asked : ∀ pair ∈ pairs, s₀.size ≤ pair.1 → pair.1 ∈ early := fun pair hpair unknown =>
        absurd (stored pair hpair).1 (Nat.not_lt_of_le unknown)
      have clear : ∀ pair ∈ pairs, s₀.Clear early pair.1 := fun pair hpair => clear _ (List.mem_map_of_mem hpair)
      exact ((matchPairs?_tells wf asked).undisturbed clear self (matchPairs?_spec wf stored)).answer
  | unifying pairs => exact (unifyPairs?_undisturbed wf self (known_of_pairs known) clear).answer

/-- Notes stay reliable when variables are looked up, whichever references are asked about. -/
theorem Looks.gives {request : Request} (looks : request.Looks) (wf : s₀.WellFormed)
    (asked : ∀ r ∈ request.consults, s₀.size ≤ r → r ∈ early) :
    Gives early s₀ request.run (fun _ => True) s₀ := by
  cases request with
  | basic op =>
      cases op with
      | vars r => exact (vars_gives wf (asked r List.mem_cons_self)).answer.answer
      | isGround r => exact (isGround_gives wf (asked r List.mem_cons_self)).answer.answer
      | occurs v r => exact (occurs_gives wf (asked r List.mem_cons_self)).answer.answer
      | _ => exact looks.elim
  | apply σ r => exact looks.elim
  | matching pairs =>
      exact (matchPairs?_tells wf fun pair hpair => asked _ (List.mem_map_of_mem hpair)).gives.answer
  | unifying pairs => exact looks.elim

end Request

theorem freezeWithin_premature {n : Nat} (unknown : s₀.size ≤ r) (asked : r ∈ early) :
    Gives early s₀ (freezeWithin n r) (fun _ => True) s₀ := by
  cases n with
  | zero => exact .pure trivial
  | succ n =>
      rw [freezeWithin]
      refine .bindGet fun s hs => ?_
      split
      · exact .pure trivial
      · refine .bindGet fun s hs => ?_
        rw [hs.same.node?, node?_eq_none.2 unknown]
        exact fun s hs => ⟨trivial, hs.noteFrozen (.inl ⟨asked, rfl⟩)⟩

theorem freeze_premature (unknown : s₀.size ≤ r) (asked : r ∈ early) :
    Gives early s₀ (freeze r) (fun _ => True) s₀ :=
  .bindGet fun _ _ => freezeWithin_premature unknown asked

theorem apply_premature (wf : s₀.WellFormed) (plain : ∀ f args, s₀.node? r ≠ some (.app f args))
    (asked : ∀ q ∈ (Request.apply σ r).consults, s₀.size ≤ q → q ∈ early) :
    Gives early s₀ (apply σ r) (fun _ => True) s₀ := by
  rw [apply]
  split
  · exact .pure trivial
  · rename_i binds
    rw [Request.consults, if_neg binds] at asked
    refine .bindGet fun s hs => ?_
    rw [bound, applyWithin]
    refine (vars_gives wf (asked r List.mem_cons_self)).bind fun vs _ => ?_
    split
    · exact .pure trivial
    · refine .bindGet fun s hs => ?_
      rw [hs.same.node?]
      split
      · exact .pure trivial
      · rename_i f args hnode
        exact absurd hnode (plain f args)
      · exact .pure trivial

theorem follow_unknown (unknown : s.size ≤ r) : s.follow σ r = r := by
  rw [follow]
  cases σ.bindings.length with
  | zero => rfl
  | succ n => rw [followUpTo, node?_eq_none.2 unknown]

theorem Stuck.of_follow (knows : s.Knows σ) (stuck : s.Stuck pair) :
    s.follow σ pair.1 ≠ s.follow σ pair.2 ∧
      (s.node? (s.follow σ pair.1) = none ∨ s.node? (s.follow σ pair.2) = none) := by
  obtain ⟨unknown, differ⟩ := stuck
  have apart : ∀ a b, a ≠ b → s.size ≤ a → s.follow σ a ≠ s.follow σ b := by
    intro a b differ unknown
    rw [follow_unknown unknown]
    by_cases hb : b < s.size
    · exact (Nat.ne_of_lt (Nat.lt_of_lt_of_le (knows.follow hb) unknown)).symm
    · rwa [follow_unknown (Nat.le_of_not_lt hb)]
  have nothing : ∀ a, s.size ≤ a → s.node? (s.follow σ a) = none := by
    intro a unknown
    rw [follow_unknown unknown, node?_eq_none.2 unknown]
  rcases unknown with left | right
  · exact ⟨apart _ _ differ left, .inl (nothing _ left)⟩
  · exact ⟨(apart _ _ differ.symm right).symm, .inr (nothing _ right)⟩

/-- Trying to unify a pair only takes notes, and it fails if the pair is stuck. -/
theorem unifyWithin_gives {n : Nat} (wf : s₀.WellFormed) (knows : s₀.Knows σ) :
    Gives early s₀ (unifyWithin n σ pair).run (fun o => ∀ σ' ∈ o, s₀.Knows σ' ∧ ¬ s₀.Stuck pair) s₀ := by
  by_cases known : pair.1 < s₀.size ∧ pair.2 < s₀.size
  · refine (unifyWithin_tells wf knows known.1 known.2).gives.mono fun o all σ' found => ⟨all σ' found, ?_⟩
    rintro ⟨left | right, -⟩
    · exact Nat.not_lt_of_le left known.1
    · exact Nat.not_lt_of_le right known.2
  · have unknown : s₀.size ≤ pair.1 ∨ s₀.size ≤ pair.2 :=
      (not_and_or.1 known).imp Nat.le_of_not_lt Nat.le_of_not_lt
    obtain ⟨a, b⟩ := pair
    intro s hs
    have fails : ∀ σ' ∈ (none : Option Subst), s₀.Knows σ' ∧ ¬ s₀.Stuck (a, b) :=
      fun σ' found => absurd found (Option.not_mem_none σ')
    cases n with
    | zero => exact ⟨fails, hs⟩
    | succ n =>
        rw [unifyWithin, run_getThe_bindOption]
        simp only [hs.same.follow, hs.same.node?]
        by_cases same : s₀.follow σ a = s₀.follow σ b
        · rw [if_pos same]
          refine ⟨?_, hs⟩
          rintro _ ⟨⟩
          exact ⟨knows, fun stuck => (stuck.of_follow knows).1 same⟩
        · rw [if_neg same]
          have stuck : s₀.Stuck (a, b) := ⟨unknown, fun h => same (congrArg (s₀.follow σ) h)⟩
          rcases (stuck.of_follow knows).2 with left | right
          · rw [left]
            exact ⟨fails, hs⟩
          · rw [right]
            cases s₀.node? (s₀.follow σ a) with
            | none => exact ⟨fails, hs⟩
            | some node =>
                cases node with
                | var v => exact ⟨fails, hs⟩
                | app f args => exact ⟨fails, hs⟩

theorem unifyAll_stuck {n : Nat} (wf : s₀.WellFormed) (knows : s₀.Knows σ) (stuck : ∃ pair ∈ pairs, s₀.Stuck pair) :
    Gives early s₀ (pairs.foldlM (unifyWithin n) σ).run (· = none) s₀ := by
  obtain ⟨bad, hbad, stuck⟩ := stuck
  induction pairs generalizing σ with
  | nil => exact absurd hbad List.not_mem_nil
  | cons pair pairs ih =>
      rw [List.foldlM_cons, OptionT.run_bind, Option.elimM]
      refine (unifyWithin_gives wf knows).bind fun o all => ?_
      cases o with
      | none => exact .pure rfl
      | some σ' =>
          obtain ⟨knows', free⟩ := all σ' rfl
          rcases List.mem_cons.1 hbad with rfl | later
          · exact absurd stuck free
          · exact ih knows' later

theorem unifyAll_idle {n : Nat} (equal : ∀ pair ∈ pairs, pair.1 = pair.2) :
    (pairs.foldlM (unifyWithin n) σ).run s = (none, s) ∨ (pairs.foldlM (unifyWithin n) σ).run s = (some σ, s) := by
  induction pairs with
  | nil => exact .inr rfl
  | cons pair pairs ih =>
      rw [List.foldlM_cons]
      have first : (unifyWithin n σ pair).run s = (none, s) ∨ (unifyWithin n σ pair).run s = (some σ, s) := by
        cases n with
        | zero => exact .inl rfl
        | succ n =>
            obtain ⟨a, b⟩ := pair
            cases equal (a, b) List.mem_cons_self
            rw [unifyWithin, run_getThe_bindOption, if_pos rfl]
            exact .inr rfl
      rcases first with failed | free
      · exact .inl (run_bind_none failed)
      · rw [run_bind_some free]
        exact ih fun other h => equal other (List.mem_cons_of_mem pair h)

theorem unifyPairs?_premature (wf : s₀.WellFormed)
    (premature : (∃ pair ∈ pairs, s₀.Stuck pair) ∨ ∀ pair ∈ pairs, pair.1 = pair.2) :
    Gives early s₀ (unifyPairs? pairs).run (fun _ => True) s₀ := by
  intro s hs
  refine ⟨trivial, ?_⟩
  rw [unifyPairs?, run_getThe_bindOption]
  rcases premature with ⟨pair, hpair, stuck⟩ | equal
  · have knows : s₀.Knows .empty := fun v q hv => by cases hv
    obtain ⟨failed, reliable⟩ := unifyAll_stuck (n := s.bound * s.bound) wf knows
      ⟨pair, List.mem_reverse.2 hpair, stuck⟩ s hs
    rw [run_bind_none (Prod.ext failed rfl)]
    exact reliable
  · rcases unifyAll_idle (n := s.bound * s.bound) (σ := .empty) fun pair hpair => equal pair (List.mem_reverse.1 hpair)
      with failed | free
    · rw [run_bind_none failed]
      exact hs
    · rw [run_bind_some free]
      exact hs

/-- After a premature question all notes are as reliable as before. -/
theorem Request.Premature.gives {request : Request} (premature : request.Premature s₀) (wf : s₀.WellFormed)
    (asked : ∀ r ∈ request.consults, s₀.size ≤ r → r ∈ early) :
    Gives early s₀ request.run (fun _ => True) s₀ := by
  cases request with
  | basic op =>
      cases op with
      | vars r => exact Looks.gives trivial wf asked
      | isGround r => exact Looks.gives trivial wf asked
      | occurs v r => exact Looks.gives trivial wf asked
      | freeze r => exact (freeze_premature premature (asked r List.mem_cons_self premature)).answer.answer
      | _ => exact premature.elim
  | apply σ r => exact (apply_premature wf premature asked).answer
  | matching pairs => exact Looks.gives trivial wf asked
  | unifying pairs => exact (unifyPairs?_premature wf premature).answer

theorem SameTerms.premature {request : Request} (same : SameTerms s s') (h : request.Premature s') :
    request.Premature s := by
  cases request with
  | basic op =>
      cases op with
      | freeze r => exact same.size.ge.trans h
      | _ => exact h
  | apply σ r => exact fun f args => same.node? r ▸ h f args
  | matching pairs => exact h
  | unifying pairs =>
      rw [Request.Premature] at h ⊢
      simp only [Stuck, same.size] at h
      exact h

theorem Ahead.reliable (h : Ahead early s s') : s'.Faithful ∧ Reliable early s' s := by
  induction h with
  | new => exact ⟨empty_faithful, empty_faithful.reliable⟩
  | @both early s s' request _ known mode ih =>
      obtain ⟨faithful, reliable⟩ := ih
      have wf := faithful.toWellFormed
      rcases mode with looks | clear
      · have asked : ∀ (more : Set Ref), ∀ r ∈ request.consults, s'.size ≤ r → r ∈ more :=
          fun _ r hr unknown => absurd (known r (Request.consults_subset hr)) (Nat.not_lt_of_le unknown)
        have noted := (looks.gives wf (asked early) s reliable).2
        have noted' := (looks.gives wf (asked ∅) s' faithful.reliable).2
        exact ⟨noted'.faithful wf, noted.rebase noted'.same⟩
      · have plain := Request.undisturbed faithful known request.clear_nothing
        refine ⟨(plain.self faithful.reliable).faithful plain.wellFormed, ?_⟩
        exact ((Request.undisturbed faithful known clear).gives s reliable).2
  | @early early s s' request _ premature ih =>
      obtain ⟨faithful, reliable⟩ := ih
      have more : Reliable (early ∪ {r | r ∈ request.consults ∧ s.size ≤ r}) s' s :=
        reliable.mono Set.subset_union_left
      refine ⟨faithful, ((more.same.premature premature).gives faithful.toWellFormed ?_ s more).2⟩
      exact fun r hr unknown => .inr ⟨hr, reliable.same.size ▸ unknown⟩

/-- What was asked early about references that now stand for terms without variables, or for nothing, has no
effect: a request is answered as by a store that was never asked. So an answer can differ only if notes are looked
up about a term with variables whose reference was asked about early, or about a term around such a one; for
unification, if there is such a reference at all. -/
theorem early_unnoticed {request : Request} (h : Ahead early s s') (known : ∀ r ∈ request.refs, r < s'.size)
    (clear : request.Clear early s') : (request.run s).1 = (request.run s').1 := by
  obtain ⟨faithful, reliable⟩ := h.reliable
  exact ((request.undisturbed faithful known clear).gives s reliable).1

/-- A variable and a constant enter a store, and then a term around both. -/
def enterThree : StoreM Ref := do
  let x ← var 3
  let c ← app (.symbol ⟨0⟩) []
  app (.symbol ⟨1⟩) [x, c]

theorem early_unnoticed_constant :
    Ahead {1} (enterThree (vars 1 .empty).2).2 (enterThree .empty).2 ∧
      (∀ r ∈ [2], r < (enterThree .empty).2.size) ∧ (Request.basic (.vars 2)).Clear {1} (enterThree .empty).2 ∧
      ((Request.basic (.vars 2)).run (enterThree (vars 1 .empty).2).2).1 =
        ((Request.basic (.vars 2)).run (enterThree .empty).2).1 ∧
      (vars 2 (enterThree (vars 1 .empty).2).2).1 = [3] := by
  have asked : Ahead {1} (vars 1 .empty).2 .empty := by
    have only : (∅ ∪ {r | r ∈ (Request.basic (.vars 1)).consults ∧ Store.empty.size ≤ r} : Set Ref) = {1} := by
      ext r
      simp [Request.consults, Store.size, Store.empty]
    exact only ▸ Ahead.new.early (.basic (.vars 1)) trivial
  have nothing : ∀ {P : Ref → Prop}, ∀ r ∈ ([] : List Ref), P r := fun r hr => absurd hr List.not_mem_nil
  have one := asked.both (.basic (.var 3)) nothing (.inr nothing)
  have two := one.both (.basic (.app (.symbol ⟨0⟩) [])) nothing (.inr nothing)
  have three := two.both (.basic (.app (.symbol ⟨1⟩) [0, 1])) (by decide +kernel) (.inr nothing)
  have ahead : Ahead {1} (enterThree (vars 1 .empty).2).2 (enterThree .empty).2 := three
  have known : ∀ r ∈ [2], r < (enterThree .empty).2.size := by decide +kernel
  have clear : (Request.basic (.vars 2)).Clear {1} (enterThree .empty).2 := by
    intro r _ p q _ one
    cases one
    have ground : ((enterThree .empty).2.term 1).vars = [] := by decide +kernel
    exact ground
  exact ⟨ahead, known, clear, early_unnoticed ahead known clear, by decide +kernel⟩

/-- A store that was asked about the reference of a variable before the variable entered goes on saying that it
has none. -/
theorem early_question_sticks :
    (var 3 .empty).1 = 0 ∧ (isGround 0 (var 3 .empty).2).1 = false ∧
      (var 3 (isGround 0 .empty).2).1 = 0 ∧ (isGround 0 (var 3 (isGround 0 .empty).2).2).1 = true := by
  decide +kernel

end Store
end OrderedCompletion
