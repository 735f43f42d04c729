import OrderedCompletion.Proofs.Gauge
import OrderedCompletion.Proofs.Substitution
import OrderedCompletion.Workspace

/-! What actions with a state of their own leave behind, if they succeed and if they fail. -/

namespace OrderedCompletion

namespace TermM

variable {σ τ ε δ α β : Type}

/-- From the given state and store the action leads to a well-formed later store. `Q` holds of its outcome,
`F` of what a failure leaves. -/
def Ensures (w : σ) (s : Store) (x : TermM σ ε α) (Q : α → σ → Store → Prop)
    (F : σ → Store → Prop) : Prop :=
  (x w s).2.WellFormed ∧ s ≤ (x w s).2 ∧
    match (x w s).1.1 with
    | .ok a => Q a (x w s).1.2 (x w s).2
    | .error _ => F (x w s).1.2 (x w s).2

section
variable {w : σ} {s : Store} {x : TermM σ ε α} {f : α → TermM σ ε β}
variable {Q Q' : α → σ → Store → Prop} {R : β → σ → Store → Prop} {F F' : σ → Store → Prop}

theorem Ensures.pure {a : α} (wf : s.WellFormed) (h : Q a w s) :
    Ensures w s (Pure.pure a : TermM σ ε α) Q F :=
  ⟨wf, le_refl s, h⟩

theorem Ensures.throw {e : ε} (wf : s.WellFormed) (h : F w s) :
    Ensures w s (throwThe ε e : TermM σ ε α) Q F :=
  ⟨wf, le_refl s, h⟩

theorem Ensures.mono (hx : Ensures w s x Q F)
    (ok : ∀ a w' s', s'.WellFormed → s ≤ s' → Q a w' s' → Q' a w' s')
    (err : ∀ w' s', s'.WellFormed → s ≤ s' → F w' s' → F' w' s') : Ensures w s x Q' F' := by
  obtain ⟨wf, le, h⟩ := hx
  refine ⟨wf, le, ?_⟩
  cases hr : (x w s).1.1 with
  | ok a =>
      rw [hr] at h
      exact ok _ _ _ wf le h
  | error e =>
      rw [hr] at h
      exact err _ _ wf le h

theorem Ensures.and (h : Ensures w s x Q F) (h' : Ensures w s x Q' F') :
    Ensures w s x (fun a w' s' => Q a w' s' ∧ Q' a w' s') fun w' s' => F w' s' ∧ F' w' s' := by
  obtain ⟨wf, le, h⟩ := h
  obtain ⟨-, -, h'⟩ := h'
  refine ⟨wf, le, ?_⟩
  cases outcome : (x w s).1.1 with
  | ok a =>
      rw [outcome] at h h'
      exact ⟨h, h'⟩
  | error err =>
      rw [outcome] at h h'
      exact ⟨h, h'⟩

/-- An action that never fails has an outcome. -/
theorem Ensures.exists_eq (h : Ensures w s x Q fun _ _ => False) :
    ∃ a w' s', x w s = ((.ok a, w'), s') ∧ s'.WellFormed ∧ s ≤ s' ∧ Q a w' s' := by
  obtain ⟨wf, le, h⟩ := h
  rcases outcome : x w s with ⟨⟨err | a, w'⟩, s'⟩
  · rw [outcome] at h
    exact h.elim
  · rw [outcome] at wf le h
    exact ⟨a, w', s', rfl, wf, le, h⟩

/-- What holds after a success and after a failure holds in any case. -/
theorem Ensures.leaves (h : Ensures w s x (fun _ => F) F) : F (x w s).1.2 (x w s).2 := by
  obtain ⟨-, -, h⟩ := h
  cases outcome : (x w s).1.1 with
  | ok a =>
      rw [outcome] at h
      exact h
  | error err =>
      rw [outcome] at h
      exact h

theorem bind_apply (w : σ) (s : Store) : (x >>= f) w s =
    match (x w s).1.1 with
    | .ok a => f a (x w s).1.2 (x w s).2
    | .error e => ((.error e, (x w s).1.2), (x w s).2) := by
  change (StateT.bind x (ExceptT.bindCont f)) w s = _
  rw [StateT.bind]
  change ExceptT.bindCont f (x w s).1.1 (x w s).1.2 (x w s).2 = _
  cases (x w s).1.1 with
  | ok a => rfl
  | error e => rfl

theorem Ensures.bind (hx : Ensures w s x Q F)
    (hf : ∀ a w' s', s'.WellFormed → s ≤ s' → Q a w' s' → Ensures w' s' (f a) R F) :
    Ensures w s (x >>= f) R F := by
  obtain ⟨wf, le, h⟩ := hx
  rw [Ensures, bind_apply]
  cases hr : (x w s).1.1 with
  | ok a =>
      rw [hr] at h
      obtain ⟨wf', le', h'⟩ := hf _ _ _ wf le h
      exact ⟨wf', le.trans le', h'⟩
  | error e =>
      rw [hr] at h
      exact ⟨wf, le, h⟩

/-- An action on the store leaves the rest alone. -/
theorem Ensures.lift {y : StoreM α} {P : α → Store → Prop} (h : s.Ensures y P)
    (ok : ∀ a s', s'.WellFormed → s ≤ s' → P a s' → Q a w s') :
    Ensures w s (liftM y : TermM σ ε α) Q F :=
  ⟨h.1, h.2.1, ok _ _ h.1 h.2.1 h.2.2⟩

theorem Ensures.bindLift {y : StoreM α} {P : α → Store → Prop} (h : s.Ensures y P)
    (hf : ∀ a s', s'.WellFormed → s ≤ s' → P a s' → Ensures w s' (f a) R F) :
    Ensures w s ((liftM y : TermM σ ε α) >>= f) R F := by
  have done : Ensures w s (liftM y : TermM σ ε α) (fun a w' s' => w' = w ∧ P a s') F :=
    .lift h fun _ _ _ _ ha => ⟨rfl, ha⟩
  refine done.bind ?_
  rintro a _ s' wf' le' ⟨rfl, ha⟩
  exact hf a s' wf' le' ha

theorem Ensures.bindGet {g : σ → TermM σ ε β} (h : Ensures w s (g w) R F) :
    Ensures w s (get >>= g) R F := by
  rw [Ensures, bind_apply]
  exact h

theorem Ensures.bindModify {m : σ → σ} {g : PUnit → TermM σ ε β} (h : Ensures (m w) s (g ⟨⟩) R F) :
    Ensures w s (modify m >>= g) R F := by
  rw [Ensures, bind_apply]
  exact h

theorem Ensures.bindSet {w' : σ} {g : PUnit → TermM σ ε β} (h : Ensures w' s (g ⟨⟩) R F) :
    Ensures w s (set w' >>= g) R F := by
  rw [Ensures, bind_apply]
  exact h

theorem Ensures.modify {m : σ → σ} {Q : PUnit → σ → Store → Prop} (wf : s.WellFormed)
    (h : Q ⟨⟩ (m w) s) : Ensures w s (modify m : TermM σ ε PUnit) Q F :=
  ⟨wf, le_refl s, h⟩

theorem Ensures.bindStore {g : Store → TermM σ ε β} (h : Ensures w s (g s) R F) :
    Ensures w s (getThe Store >>= g) R F := by
  rw [Ensures, bind_apply]
  exact h

/-- What an action ensures for each element of a list, if it keeps an invariant and what holds of an
outcome goes on to hold. -/
theorem Ensures.mapM {g : α → TermM σ ε β} {as : List α} {I : σ → Store → Prop}
    {P : α → β → Store → Prop} (wf : s.WellFormed) (inv : I w s)
    (later : ∀ a b s₁ s₂, s₁.WellFormed → s₂.WellFormed → s₁ ≤ s₂ → P a b s₁ → P a b s₂)
    (h : ∀ a ∈ as, ∀ w' s', s'.WellFormed → s ≤ s' → I w' s' →
      Ensures w' s' (g a) (fun b w'' s'' => I w'' s'' ∧ P a b s'') F) :
    Ensures w s (as.mapM g) (fun bs w' s' => I w' s' ∧ List.Forall₂ (fun a b => P a b s') as bs) F := by
  induction as generalizing w s with
  | nil => exact .pure wf ⟨inv, .nil⟩
  | cons a as ih =>
      rw [List.mapM_cons]
      refine (h a (by simp) w s wf (le_refl s) inv).bind fun b w₁ s₁ wf₁ le₁ hb => ?_
      have rest := ih wf₁ hb.1 fun a' ha w' s' wf' le => h a' (by simp [ha]) w' s' wf' (le₁.trans le)
      refine rest.bind fun bs w₂ s₂ wf₂ le₂ hbs => .pure wf₂ ⟨hbs.1, .cons ?_ hbs.2⟩
      exact later a b s₁ s₂ wf₁ wf₂ le₂ hb.2

/-- A loop over a list, where the invariant may speak of the elements that are left. -/
theorem Ensures.foldlM {k : β → α → TermM σ ε β} {as : List α} {b : β} {I : List α → β → σ → Store → Prop}
    (wf : s.WellFormed) (start : I as b w s)
    (step : ∀ a ∈ as, ∀ rest b' w' s', s'.WellFormed → s ≤ s' → I (a :: rest) b' w' s' →
      Ensures w' s' (k b' a) (I rest) F) :
    Ensures w s (as.foldlM k b) (I []) F := by
  induction as generalizing b w s with
  | nil => exact .pure wf start
  | cons a as ih =>
      rw [List.foldlM_cons]
      refine (step a List.mem_cons_self as b w s wf (le_refl s) start).bind ?_
      intro b₁ w₁ s₁ wf₁ le₁ here
      refine ih wf₁ here fun c hc rest b' w' s' wf' le => ?_
      exact step c (List.mem_cons_of_mem _ hc) rest b' w' s' wf' (le₁.trans le)

/-- An action on a part of the state does to the part what it does. -/
theorem Ensures.within {part : τ → σ} {put : σ → τ → τ} {fault : ε → δ} {t : τ}
    (h : Ensures (part t) s x Q F) :
    Ensures t s (x.within part put fault) (fun a t' s' => ∃ w', t' = put w' t ∧ Q a w' s')
      fun t' s' => ∃ w', t' = put w' t ∧ F w' s' := by
  obtain ⟨wf, le, h⟩ := h
  rw [Ensures, TermM.within]
  rcases hr : x (part t) s with ⟨⟨_ | a, w'⟩, s'⟩
  · rw [hr] at wf le h
    exact ⟨wf, le, w', rfl, h⟩
  · rw [hr] at wf le h
    exact ⟨wf, le, w', rfl, h⟩

theorem Ensures.adapt {fault : ε → δ} (h : Ensures w s x Q F) :
    Ensures w s (ExceptT.adapt fault x : TermM σ δ α) Q F := by
  obtain ⟨wf, le, h⟩ := h
  have outcome : (ExceptT.adapt fault x : TermM σ δ α) w s =
      (((x w s).1.1.mapError fault, (x w s).1.2), (x w s).2) := rfl
  rw [Ensures, outcome]
  refine ⟨wf, le, ?_⟩
  cases hr : (x w s).1.1 with
  | ok a =>
      rw [hr] at h
      exact h
  | error e =>
      rw [hr] at h
      exact h

/-- The same as `Ensures` with one condition on whatever comes out, which sees the failure itself. -/
def Ends (w : σ) (s : Store) (x : TermM σ ε α) (Q : Except ε α → σ → Store → Prop) : Prop :=
  (x w s).2.WellFormed ∧ s ≤ (x w s).2 ∧ Q (x w s).1.1 (x w s).1.2 (x w s).2

variable {P P' : Except ε α → σ → Store → Prop} {S : Except ε β → σ → Store → Prop}

theorem Ends.pure {a : α} (wf : s.WellFormed) (h : P (.ok a) w s) : Ends w s (Pure.pure a : TermM σ ε α) P :=
  ⟨wf, le_refl s, h⟩

theorem Ends.throw {e : ε} (wf : s.WellFormed) (h : P (.error e) w s) :
    Ends w s (throwThe ε e : TermM σ ε α) P :=
  ⟨wf, le_refl s, h⟩

theorem Ends.mono (hx : Ends w s x P)
    (h : ∀ out w' s', s'.WellFormed → s ≤ s' → P out w' s' → P' out w' s') : Ends w s x P' :=
  ⟨hx.1, hx.2.1, h _ _ _ hx.1 hx.2.1 hx.2.2⟩

theorem Ends.bind (hx : Ends w s x P)
    (ok : ∀ a w' s', s'.WellFormed → s ≤ s' → P (.ok a) w' s' → Ends w' s' (f a) S)
    (err : ∀ e w' s', s'.WellFormed → s ≤ s' → P (.error e) w' s' → S (.error e) w' s') :
    Ends w s (x >>= f) S := by
  obtain ⟨wf, le, h⟩ := hx
  rw [Ends, bind_apply]
  cases hr : (x w s).1.1 with
  | ok a =>
      rw [hr] at h
      obtain ⟨wf', le', h'⟩ := ok _ _ _ wf le h
      exact ⟨wf', le.trans le', h'⟩
  | error e =>
      rw [hr] at h
      exact ⟨wf, le, err _ _ _ wf le h⟩

/-- An action that never fails comes first. -/
theorem Ensures.bindEnds (hx : Ensures w s x Q fun _ _ => False)
    (h : ∀ a w' s', s'.WellFormed → s ≤ s' → Q a w' s' → Ends w' s' (f a) S) : Ends w s (x >>= f) S := by
  obtain ⟨a, w', s', ran, wf, le, ha⟩ := hx.exists_eq
  obtain ⟨wf', le', h'⟩ := h a w' s' wf le ha
  rw [Ends, bind_apply, ran]
  exact ⟨wf', le.trans le', h'⟩

theorem Ends.bindLift {y : StoreM α} {R : α → Store → Prop} (hy : s.Ensures y R)
    (h : ∀ a s', s'.WellFormed → s ≤ s' → R a s' → Ends w s' (f a) S) :
    Ends w s ((liftM y : TermM σ ε α) >>= f) S := by
  have done : Ensures w s (liftM y : TermM σ ε α) (fun a w' s' => w' = w ∧ R a s') fun _ _ => False :=
    .lift hy fun _ _ _ _ ha => ⟨rfl, ha⟩
  refine done.bindEnds ?_
  rintro a _ s' wf' le' ⟨rfl, ha⟩
  exact h a s' wf' le' ha

theorem Ends.bindGet {g : σ → TermM σ ε β} (h : Ends w s (g w) S) : Ends w s (get >>= g) S := by
  rw [Ends, bind_apply]
  exact h

theorem Ends.bindModify {m : σ → σ} {g : PUnit → TermM σ ε β} (h : Ends (m w) s (g ⟨⟩) S) :
    Ends w s (modify m >>= g) S := by
  rw [Ends, bind_apply]
  exact h

theorem Ends.bindStore {g : Store → TermM σ ε β} (h : Ends w s (g s) S) :
    Ends w s (getThe Store >>= g) S := by
  rw [Ends, bind_apply]
  exact h

end
end TermM

/-- Whatever the order answers about terms over a signature is admitted. -/
def Order.Answers (o : Order) (sig : Signature) (J : Bool → Term → Term → Prop) : Prop :=
  ∀ {s : Store} {r q : Ref} {a b : Term}, s.WellFormed → s.Denotes r a → s.Denotes q b →
    a.Over sig → b.Over sig → s.Ensures (o.greater r q) fun yes _ => J yes a b

/-- Everything that the order is asked, it answers as the gauge says. -/
def Order.Obeys (o : Order) (G : Gauge) : Prop :=
  ∀ {s : Store} {r q : Ref} {a b : Term}, s.WellFormed → s.Denotes r a → s.Denotes q b →
    a.Over G.sig → b.Over G.sig → s.Ensures (o.greater r q) fun yes _ =>
      (yes = true → G.gt a b) ∧ (G.strict → yes = false → ¬ G.gt a b)

namespace Workspace

variable {o : Order} {G : Gauge} {s : Store} {w : Workspace} {r q : Ref} {a b : Term} {ε : Type}

theorem ask_answers {F : Workspace → Store → Prop} {sig : Signature} {J : Bool → Term → Term → Prop}
    (answers : o.Answers sig J) (wf : s.WellFormed) (ha : s.Denotes r a) (hb : s.Denotes q b)
    (inSig : a.Over sig) (inSig' : b.Over sig) :
    TermM.Ensures w s (ask o r q : TermM Workspace ε Bool)
      (fun yes w' _ => w'.supply = w.supply ∧ J yes a b) F := by
  refine .bindStore (.bindModify ?_)
  exact .lift (answers wf ha hb inSig inSig') fun yes s' _ _ h => ⟨rfl, h⟩

theorem ask_spec {F : Workspace → Store → Prop} (obeys : o.Obeys G) (wf : s.WellFormed)
    (ha : s.Denotes r a) (hb : s.Denotes q b) (inSig : a.Over G.sig) (inSig' : b.Over G.sig) :
    TermM.Ensures w s (ask o r q : TermM Workspace ε Bool)
      (fun yes w' _ => w'.supply = w.supply ∧ (yes = true → G.gt a b) ∧
        (G.strict → yes = false → ¬ G.gt a b)) F :=
  ask_answers obeys wf ha hb inSig inSig'

theorem askEither_answers {F : Workspace → Store → Prop} {sig : Signature} {J : Bool → Term → Term → Prop}
    (answers : o.Answers sig J) (wf : s.WellFormed) (ha : s.Denotes r a) (hb : s.Denotes q b)
    (inSig : a.Over sig) (inSig' : b.Over sig) :
    TermM.Ensures w s (askEither o r q : TermM Workspace ε Bool)
      (fun yes w' _ => w'.supply = w.supply ∧ (yes = true → J true a b ∨ J true b a) ∧
        (yes = false → J false a b ∧ J false b a)) F := by
  refine (ask_answers answers wf ha hb inSig inSig').bind fun yes w₁ s₁ wf₁ le₁ h₁ => ?_
  split
  · rename_i straight
    exact .pure wf₁ ⟨h₁.1, fun _ => .inl (straight ▸ h₁.2), fun no => by cases no⟩
  · rename_i no
    have ha₁ := ha.mono wf wf₁ le₁
    have hb₁ := hb.mono wf wf₁ le₁
    refine (ask_answers answers wf₁ hb₁ ha₁ inSig' inSig).mono ?_ fun _ _ _ _ h => h
    intro yes w₂ s₂ _ _ h₂
    refine ⟨h₂.1.trans h₁.1, ?_, ?_⟩
    · rintro rfl
      exact .inr h₂.2
    · rintro rfl
      exact ⟨eq_false_of_ne_true no ▸ h₁.2, h₂.2⟩

theorem askEither_spec {F : Workspace → Store → Prop} (obeys : o.Obeys G) (wf : s.WellFormed)
    (ha : s.Denotes r a) (hb : s.Denotes q b) (inSig : a.Over G.sig) (inSig' : b.Over G.sig) :
    TermM.Ensures w s (askEither o r q : TermM Workspace ε Bool)
      (fun yes w' _ => w'.supply = w.supply ∧ (yes = true → G.gt a b ∨ G.gt b a) ∧
        (G.strict → yes = false → ¬ G.gt a b ∧ ¬ G.gt b a)) F := by
  have answers : o.Answers G.sig _ := obeys
  refine (askEither_answers answers wf ha hb inSig inSig').mono ?_ fun _ _ _ _ h => h
  rintro yes w' s' - - ⟨same, up, none⟩
  refine ⟨same, fun isYes => (up isYes).imp (·.1 rfl) (·.1 rfl), fun strict isNo => ?_⟩
  exact (none isNo).imp (·.2 strict rfl) (·.2 strict rfl)

end Workspace
end OrderedCompletion
