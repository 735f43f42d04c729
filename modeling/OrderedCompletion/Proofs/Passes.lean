import Mathlib.Logic.Relation
import OrderedCompletion.Proofs.Supply
import OrderedCompletion.Reduction

/-! Passes over terms, whatever the uses of rules and equations at the top come to. -/

namespace OrderedCompletion

namespace Reducer

variable {rd : Reducer} {s s' : Store} {st : ReduceState} {T P : Term → Term → Prop}
variable {I : Supply → Term → Prop} {t : Ref} {a : Term}

/-- Outcomes of passes stay noted, and the supply is used up. -/
structure Keeps (st st' : ReduceState) : Prop where
  memo : st'.memo = st.memo
  later : st.workspace.supply.Later st'.workspace.supply

theorem Keeps.refl (st : ReduceState) : Keeps st st := ⟨rfl, .refl _⟩

theorem Keeps.trans {st st' st'' : ReduceState} (h : Keeps st st') (h' : Keeps st' st'') :
    Keeps st st'' := ⟨h'.memo.trans h.memo, h.later.trans h'.later⟩

/-- What a failure at the top leaves. -/
abbrev Spent (st st' : ReduceState) (_ : Store) : Prop := Keeps st st'

/-- What is noted about passes is true. -/
def Noted (P : Term → Term → Prop) (st : ReduceState) (s : Store) : Prop :=
  ∀ t out, st.memo[t]? = some out → ∃ a b, s.Denotes t a ∧ s.Denotes out b ∧ P a b

theorem Noted.mono (h : Noted P st s) (wf : s.WellFormed) (wf' : s'.WellFormed) (le : s ≤ s') :
    Noted P st s' := by
  intro t out ht
  obtain ⟨a, b, hd, hout, passes⟩ := h t out ht
  exact ⟨a, b, hd.mono wf wf' le, hout.mono wf wf' le, passes⟩

theorem Noted.keeps {st' : ReduceState} (h : Noted P st s) (kept : Keeps st st') : Noted P st' s := by
  intro t out ht
  rw [kept.memo] at ht
  exact h t out ht

/-- What passes leave, if they fail as well: true notes, and a supply that was used up. -/
structure Remains (P : Term → Term → Prop) (st st' : ReduceState) (s' : Store) : Prop where
  noted : Noted P st' s'
  later : st.workspace.supply.Later st'.workspace.supply

theorem Remains.after {st₁ st' : ReduceState} (later : st.workspace.supply.Later st₁.workspace.supply)
    (h : Remains P st₁ st' s') : Remains P st st' s' :=
  ⟨h.noted, later.trans h.later⟩

theorem noted_nothing (h : st.memo = {}) : Noted P st s := by
  intro t out ht
  rw [h] at ht
  simp at ht

/-- The uses at the top of the terms `I` come to `T`, and these make up passes that come to `P`. -/
structure Walk (rd : Reducer) (s : Store) (I : Supply → Term → Prop) (T P : Term → Term → Prop) : Prop where
  top : ∀ {st : ReduceState} {s' : Store} {t : Ref} {a : Term}, s'.WellFormed → s ≤ s' → s'.Denotes t a →
    I st.workspace.supply a → TermM.Ensures st s' (rd.reduceTop t)
      (fun out st' s'' => Keeps st st' ∧ ∃ u, s''.Denotes out u ∧ T a u) (Spent st)
  later : ∀ {supply supply' : Supply} {a : Term}, I supply a → supply.Later supply' → I supply' a
  arg : ∀ {supply : Supply} {f : Head} {as : List Term}, I supply (.app f as) → ∀ a ∈ as, I supply a
  args : ∀ {supply : Supply} {f : Head} {as bs : List Term}, I supply (.app f as) → List.Forall₂ P as bs →
    I supply (.app f bs)
  passed : ∀ {supply : Supply} {a b : Term}, I supply a → P a b → I supply b
  var : ∀ {supply : Supply} {v : Var} {u : Term}, I supply (.var v) → T (.var v) u → P (.var v) u
  app : ∀ {supply : Supply} {f : Head} {as bs : List Term} {u : Term}, I supply (.app f as) →
    List.Forall₂ P as bs → T (.app f bs) u → P (.app f as) u

theorem Walk.mono (walk : rd.Walk s I T P) (le : s ≤ s') : rd.Walk s' I T P :=
  { walk with top := fun wf le' hd ha => walk.top wf (le.trans le') hd ha }

theorem settle_spec {call : ReduceCall} {inner : Ref} {b : Term} (walk : rd.Walk s I T P)
    (wf : s.WellFormed) (noted : Noted P st s) (hd : s.Denotes t a) (hi : s.Denotes inner b)
    (hb : I st.workspace.supply b) (whole : ∀ c, T b c → P a c) :
    TermM.Ensures st s (rd.settle call t inner) (fun out st' s' => Remains P st st' s' ∧
      ∃ c, s'.Denotes out c ∧ P a c) (Remains P st) := by
  have remains : ∀ st' s', s'.WellFormed → s ≤ s' → Keeps st st' → Remains P st st' s' :=
    fun _ _ wf' le kept => ⟨(noted.mono wf wf' le).keeps kept, kept.later⟩
  rw [settle]
  refine ((walk.top wf (le_refl s) hi hb).mono (fun _ _ _ _ _ h => h) remains).bind ?_
  rintro out st₁ s₁ wf₁ le₁ ⟨kept, c, hc, use⟩
  refine .bindStore ?_
  split
  · exact .throw wf₁ (remains st₁ s₁ wf₁ le₁ kept)
  · have passes := whole c use
    refine .bindModify (.pure wf₁ ⟨⟨fun t' out' ht' => ?_, kept.later⟩, c, hc, passes⟩)
    dsimp only at ht'
    rw [Std.TreeMap.getElem?_insert] at ht'
    split at ht'
    · rename_i same
      rw [Std.LawfulEqCmp.compare_eq_iff_eq] at same
      cases ht'
      exact ⟨a, c, same ▸ hd.mono wf wf₁ le₁, hc, passes⟩
    · exact (noted.mono wf wf₁ le₁).keeps kept t' out' ht'

/-- What passes over a list of terms in turn come to. -/
theorem mapM_passes {f : Ref → ReduceM Ref} {args : List Ref} (wf : s.WellFormed) (noted : Noted P st s)
    (h : ∀ arg ∈ args, ∀ st₁ s₁, s₁.WellFormed → s ≤ s₁ → Noted P st₁ s₁ →
      st.workspace.supply.Later st₁.workspace.supply →
      TermM.Ensures st₁ s₁ (f arg) (fun out st' s' => Remains P st₁ st' s' ∧
        ∃ b, s'.Denotes out b ∧ P (s.term arg) b) (Remains P st₁)) :
    TermM.Ensures st s (args.mapM f) (fun outs st' s' => Remains P st st' s' ∧
      ∃ bs, s'.DenotesAll outs bs ∧ List.Forall₂ P (args.map s.term) bs) (Remains P st) := by
  have all : TermM.Ensures st s (args.mapM f) (fun outs st' s' => Remains P st st' s' ∧
      List.Forall₂ (fun arg out => ∃ b, s'.Denotes out b ∧ P (s.term arg) b) args outs) (Remains P st) := by
    refine TermM.Ensures.mapM wf ⟨noted, .refl _⟩ ?_ ?_
    · rintro arg out s₁ s₂ wf₁ wf₂ le ⟨b, hb, passes⟩
      exact ⟨b, hb.mono wf₁ wf₂ le, passes⟩
    · rintro arg harg st₁ s₁ wf₁ le₁ ⟨noted₁, later₁⟩
      exact (h arg harg st₁ s₁ wf₁ le₁ noted₁ later₁).mono (fun _ _ _ _ _ h => h.imp_left (.after later₁))
        fun _ _ _ _ h => h.after later₁
  refine all.mono ?_ fun _ _ _ _ h => h
  rintro outs st₁ s₁ - - ⟨remains, houts⟩
  refine ⟨remains, ?_⟩
  clear all h
  induction houts with
  | nil => exact ⟨[], .nil, .nil⟩
  | cons hd _ ih =>
      obtain ⟨b, hb, passes⟩ := hd
      obtain ⟨bs, hbs, passed⟩ := ih
      exact ⟨b :: bs, .cons hb hbs, .cons passes passed⟩

theorem Walk.passWithin {call : ReduceCall} {n : Nat} (walk : rd.Walk s I T P) (wf : s.WellFormed)
    (noted : Noted P st s) (hd : s.Denotes t a) (ha : I st.workspace.supply a) :
    TermM.Ensures st s (rd.passWithin call n t) (fun out st' s' => Remains P st st' s' ∧
      ∃ b, s'.Denotes out b ∧ P a b) (Remains P st) := by
  induction n generalizing st s t a with
  | zero => exact .throw wf ⟨noted, .refl _⟩
  | succ n ih =>
      rw [Reducer.passWithin]
      refine .bindGet ?_
      split
      · rename_i out there
        obtain ⟨a', b, hd', hb, passes⟩ := noted t out there
        obtain rfl := hd.unique hd'
        exact .pure wf ⟨⟨noted, .refl _⟩, b, hb, passes⟩
      · refine .bindStore ?_
        obtain ⟨node, hnode⟩ := Store.exists_node hd.1
        rw [hnode]
        cases node with
        | var v =>
            obtain rfl := hd.unique (wf.denotes_var hnode)
            exact settle_spec walk wf noted hd hd ha fun c use => walk.var ha use
        | app f args =>
            obtain rfl := hd.unique ⟨hd.1, wf.below.term_app hnode⟩
            have inside := walk.arg ha
            refine (mapM_passes wf noted fun arg harg st₁ s₁ wf₁ le₁ noted₁ later₁ => ?_).bind ?_
            · have hd' : s.Denotes arg (s.term arg) :=
                Store.denotes_term (Nat.lt_trans (wf.below hnode arg harg) hd.1)
              exact ih (walk.mono le₁) wf₁ noted₁ (hd'.mono wf wf₁ le₁)
                (walk.later (inside _ (List.mem_map_of_mem harg)) later₁)
            rintro outs st₁ s₁ wf₁ le₁ ⟨⟨noted₁, later₁⟩, bs, hbs, passed⟩
            refine .bindLift (Store.app_spec (f := f) wf₁ hbs) fun q s₂ wf₂ le₂ hq => ?_
            have le₁₂ := le₁.trans le₂
            refine (settle_spec (walk.mono le₁₂) wf₂ (noted₁.mono wf₁ wf₂ le₂) (hd.mono wf wf₂ le₁₂) hq
              (walk.later (walk.args ha passed) later₁) fun c use => walk.app ha passed use).mono
              (fun _ _ _ _ _ h => h.imp_left (.after later₁)) fun _ _ _ _ h => h.after later₁

/-- Passes lead from the term to one that a further pass leaves as it is. -/
def Settles (P : Term → Term → Prop) (s : Store) (a : Term) (out : Ref) : Prop :=
  ∃ b, s.Denotes out b ∧ Relation.ReflTransGen P a b ∧ P b b

theorem Walk.passUntilFixed {start : Ref} {ceiling left done : Nat} (walk : rd.Walk s I T P)
    (wf : s.WellFormed) (noted : Noted P st s) (hd : s.Denotes t a) (ha : I st.workspace.supply a) :
    TermM.Ensures st s (rd.passUntilFixed start ceiling left done t) (fun out st' s' =>
      Remains P st st' s' ∧ Settles P s' a out) (Remains P st) := by
  induction left generalizing st s t a done with
  | zero => exact .throw wf ⟨noted, .refl _⟩
  | succ left ih =>
      rw [Reducer.passUntilFixed, pass]
      refine TermM.Ensures.bind (.bindStore (walk.passWithin wf noted hd ha)) ?_
      rintro u st₁ s₁ wf₁ le₁ ⟨⟨noted₁, later₁⟩, b, hb, passes⟩
      refine .bindModify ?_
      have hd₁ := hd.mono wf wf₁ le₁
      split
      · rename_i same
        obtain rfl := hb.unique (same ▸ hd₁)
        exact .pure wf₁ ⟨⟨noted₁, later₁⟩, b, hd₁, .refl, passes⟩
      · have counted : Noted P { st₁ with passes := st₁.passes + 1 } s₁ := noted₁
        refine (ih (walk.mono le₁) wf₁ counted hb (walk.later (walk.passed ha passes) later₁)).mono ?_
          fun _ _ _ _ h => ⟨h.noted, later₁.trans h.later⟩
        rintro out st₂ s₂ - - ⟨⟨noted₂, later₂⟩, c, hc, chain, fixed⟩
        exact ⟨⟨noted₂, later₁.trans later₂⟩, c, hc, .head passes chain, fixed⟩

theorem Walk.normalize (walk : rd.Walk s I T P) (wf : s.WellFormed) (noted : Noted P st s)
    (hd : s.Denotes t a) (ha : I st.workspace.supply a) :
    TermM.Ensures st s (rd.normalize t) (fun out st' s' => Remains P st st' s' ∧ Settles P s' a out)
      (Remains P st) := by
  rw [Reducer.normalize]
  exact .bindStore (walk.passUntilFixed wf noted hd ha)

end Reducer
end OrderedCompletion
