import OrderedCompletion.Proofs.StoreActions
import OrderedCompletion.Store.Position

/-! Positions in stored terms are positions in what they denote. -/

namespace OrderedCompletion.Store

variable {s s' : Store} {r q u : Ref} {t : Term} {p : Position}

/-- One step down leads to an argument. -/
theorem subtermAt_cons_eq_some_iff {i : Nat} : s.subtermAt r (i :: p) = some u ↔
    ∃ f args a, s.node? r = some (.app f args) ∧ args[i]? = some a ∧ s.subtermAt a p = some u := by
  rw [subtermAt]
  split
  · rename_i f args hnode
    rw [hnode]
    cases hi : args[i]? with
    | none => simp [hi]
    | some a => simp [hi]
  · simp [*]
  · simp [*]

theorem subtermAt_var_iff {v : Var} (hnode : s.node? r = some (.var v)) :
    s.subtermAt r p = some u ↔ p = [] ∧ u = r := by
  cases p with
  | nil => simp [subtermAt, eq_comm]
  | cons i p => simp [subtermAt_cons_eq_some_iff, hnode]

theorem subtermAt_app_iff {f : Head} {args : List Ref} (hnode : s.node? r = some (.app f args)) :
    s.subtermAt r p = some u ↔
      p = [] ∧ u = r ∨ ∃ i q a, p = i :: q ∧ args[i]? = some a ∧ s.subtermAt a q = some u := by
  cases p with
  | nil => simp [subtermAt, eq_comm]
  | cons i p =>
      rw [subtermAt_cons_eq_some_iff, hnode]
      constructor
      · rintro ⟨_, _, a, ⟨⟩, ha, at_⟩
        exact .inr ⟨i, p, a, rfl, ha, at_⟩
      · rintro (⟨⟨⟩, -⟩ | ⟨_, _, a, ⟨⟩, ha, at_⟩)
        exact ⟨f, args, a, rfl, ha, at_⟩

theorem subtermAt_of_le (below : s.Descends) (le : s ≤ s') (hr : r < s.size) (p : Position) :
    s'.subtermAt r p = s.subtermAt r p := by
  induction p generalizing r with
  | nil => rfl
  | cons i p ih =>
      obtain ⟨node, hnode⟩ := exists_node hr
      rw [subtermAt, subtermAt, le r node hnode, hnode]
      cases node with
      | var v => rfl
      | app f args =>
          dsimp only
          cases ha : args[i]? with
          | none => rfl
          | some a => exact ih (Nat.lt_trans (below hnode a (List.mem_of_getElem? ha)) hr)

/-- The subterms of a stored term are stored. -/
theorem Denotes.exists_subtermAt {t' : Term} (wf : s.WellFormed) (hd : s.Denotes r t)
    (at_ : t.subtermAt p = some t') : ∃ q, s.Denotes q t' := by
  induction p generalizing r t with
  | nil =>
      rw [Term.subtermAt_nil, Option.some.injEq] at at_
      exact ⟨r, at_ ▸ hd⟩
  | cons i p ih =>
      obtain ⟨f, ts, a, rfl, ha, hs⟩ := Term.subtermAt_cons_eq_some at_
      obtain ⟨args, -, hargs⟩ := hd.node_app wf
      obtain ⟨q, -, hq⟩ := exists_of_forall₂_right hargs (List.mem_of_getElem? ha)
      exact ih hq hs

/-- A reference is found at a position if it denotes what stands there in the tree. -/
theorem Denotes.subtermAt_iff (wf : s.WellFormed) (hd : s.Denotes r t) :
    s.subtermAt r p = some q ↔ ∃ a, t.subtermAt p = some a ∧ s.Denotes q a := by
  induction p generalizing r t with
  | nil =>
      simp only [subtermAt, Term.subtermAt_nil, Option.some.injEq, exists_eq_left']
      constructor
      · rintro rfl
        exact hd
      · exact fun hq => hd.inj hq wf
  | cons i p ih =>
      rw [subtermAt_cons_eq_some_iff]
      constructor
      · rintro ⟨f, args, b, hnode, hi, at_⟩
        have lt := wf.below hnode b (List.mem_of_getElem? hi)
        have hb : (args.map s.term)[i]? = some (s.term b) := by rw [List.getElem?_map, hi]; rfl
        rw [← hd.2, wf.below.term_app hnode, Term.subtermAt_cons hb]
        exact (ih (denotes_term (Nat.lt_trans lt hd.1))).1 at_
      · rintro ⟨a, at_, hq⟩
        obtain ⟨f, ts, b, rfl, hb, at_⟩ := Term.subtermAt_cons_eq_some at_
        obtain ⟨args, hnode, hargs⟩ := hd.node_app wf
        obtain ⟨hi, rfl⟩ := List.getElem?_eq_some_iff.1 hb
        have hi' : i < args.length := hargs.length_eq ▸ hi
        have hc : s.Denotes args[i] ts[i] := List.Forall₂.get hargs hi' hi
        exact ⟨f, args, args[i], hnode, List.getElem?_eq_getElem hi', (ih hc).2 ⟨a, at_, hq⟩⟩

/-- The applications are listed with the positions at which they are found. -/
theorem mem_appPositionsWithin {n : Nat} (wf : s.WellFormed) (hr : r < s.size) (hn : r < n) :
    (p, u) ∈ s.appPositionsWithin n r ↔
      s.subtermAt r p = some u ∧ ∃ f args, s.node? u = some (.app f args) := by
  induction n generalizing r p with
  | zero => exact absurd hn (Nat.not_lt_zero r)
  | succ n ih =>
      obtain ⟨node, hnode⟩ := exists_node hr
      rw [appPositionsWithin, hnode]
      cases node with
      | var v =>
          rw [subtermAt_var_iff hnode]
          constructor
          · nofun
          · rintro ⟨⟨-, rfl⟩, f, args, hu⟩
            rw [hnode] at hu
            cases hu
      | app f args =>
          have inside : ∀ {b q}, b ∈ args → ((q, u) ∈ s.appPositionsWithin n b ↔
              s.subtermAt b q = some u ∧ ∃ f args, s.node? u = some (.app f args)) := by
            intro b q hb
            have lt := wf.below hnode b hb
            exact ih (Nat.lt_trans lt hr) (Nat.lt_of_lt_of_le lt (Nat.le_of_lt_succ hn))
          rw [subtermAt_app_iff hnode]
          simp only [List.mem_cons, Prod.mk.injEq, List.mem_flatMap, List.mem_map]
          constructor
          · rintro (⟨rfl, rfl⟩ | ⟨⟨b, i⟩, hb, ⟨q, _⟩, hq, rfl, rfl⟩)
            · exact ⟨.inl ⟨rfl, rfl⟩, f, args, hnode⟩
            · have hi := List.mem_zipIdx_iff_getElem?.1 hb
              obtain ⟨at_, app⟩ := (inside (List.mem_of_getElem? hi)).1 hq
              exact ⟨.inr ⟨i, q, b, rfl, hi, at_⟩, app⟩
          · rintro ⟨⟨rfl, rfl⟩ | ⟨i, q, b, rfl, hi, at_⟩, app⟩
            · exact .inl ⟨rfl, rfl⟩
            · have hq := (inside (List.mem_of_getElem? hi)).2 ⟨at_, app⟩
              exact .inr ⟨(b, i), List.mem_zipIdx_iff_getElem?.2 hi, (q, u), hq, rfl, rfl⟩

/-- A reference denotes an application if one stands behind it. -/
theorem Denotes.isApp_iff (wf : s.WellFormed) (hd : s.Denotes r t) :
    t.IsApp ↔ ∃ f args, s.node? r = some (.app f args) := by
  obtain ⟨node, hnode⟩ := exists_node hd.1
  rw [← hd.2, hnode]
  cases node with
  | var v => simp [wf.below.term_var hnode, Term.IsApp]
  | app f args => simp [wf.below.term_app hnode, Term.IsApp]

/-- The positions of applications are listed with what is there. -/
theorem mem_appPositions (wf : s.WellFormed) (hd : s.Denotes r t) :
    (p, u) ∈ s.appPositions r ↔ ∃ t', t.subtermAt p = some t' ∧ t'.IsApp ∧ s.Denotes u t' := by
  have deep : r < s.bound := Nat.lt_succ_of_lt hd.1
  rw [appPositions, mem_appPositionsWithin wf hd.1 deep, hd.subtermAt_iff wf]
  constructor
  · rintro ⟨⟨t', at_, hu⟩, app⟩
    exact ⟨t', at_, (hu.isApp_iff wf).2 app, hu⟩
  · rintro ⟨t', at_, app, hu⟩
    exact ⟨⟨t', at_, hu⟩, (hu.isApp_iff wf).1 app⟩

theorem run_getThe_bind {ε α : Type} (f : Store → ExceptT ε StoreM α) :
    (getThe Store >>= f).run s = (f s).run s := rfl

/-- An action that does not fail hands its outcome on. -/
theorem Ensures.bindOk {ε α β : Type} {x : ExceptT ε StoreM α} {f : α → ExceptT ε StoreM β}
    {Q : α → Store → Prop} {R : Except ε β → Store → Prop}
    (hx : s.Ensures x.run fun out s' => ∃ a, out = .ok a ∧ Q a s')
    (hf : ∀ a s', s'.WellFormed → s ≤ s' → Q a s' → s'.Ensures (f a).run R) :
    s.Ensures (x >>= f).run R := by
  rw [ExceptT.run_bind]
  refine Ensures.bind hx ?_
  rintro _ s' wf' le' ⟨a, rfl, ha⟩
  exact hf a s' wf' le' ha

/-- An action of the store that is run where actions may fail. -/
theorem Ensures.liftOk {ε α : Type} {x : StoreM α} {Q : α → Store → Prop} (hx : s.Ensures x Q) :
    s.Ensures (liftM x : ExceptT ε StoreM α).run fun out s' => ∃ a, out = .ok a ∧ Q a s' :=
  Ensures.map hx fun a _ _ _ h => ⟨a, rfl, h⟩

/-- At a position that is there a term is replaced. What holds of the store goes on to hold if it does when
a subterm in which something is replaced is stored. -/
theorem replaceAt_keeps {t' b : Term} {J : Store → Prop} {D : Term → Prop} (wf : s.WellFormed)
    (hd : s.Denotes r t) (hu : s.Denotes u b) (at_ : t.subtermAt p = some t') (ht : D t)
    (arg : ∀ {f : Head} {ts : List Term} {a : Term}, D (.app f ts) → a ∈ ts → D a) (inv : J s)
    (step : ∀ {s' : Store} {w : Term} {i : Nat} {p : Position} {f : Head} {args : List Ref}
      {ts : List Term}, s'.WellFormed → s ≤ s' → J s' → D w → w.subtermAt (i :: p) = some t' →
      s'.DenotesAll args ts → .app f ts = Term.replaceAt b w (i :: p) → J (app f args s').2) :
    s.Ensures (replaceAt r p u).run fun out s' =>
      J s' ∧ ∃ q, out = .ok q ∧ s'.Denotes q (Term.replaceAt b t p) := by
  induction p generalizing r t with
  | nil =>
      rw [replaceAt, Term.replaceAt_nil]
      exact .pure wf ⟨inv, u, rfl, hu⟩
  | cons i p ih =>
      obtain ⟨f, ts, a, rfl, ha, hs⟩ := Term.subtermAt_cons_eq_some at_
      obtain ⟨args, hnode, hargs⟩ := hd.node_app wf
      have len := hargs.length_eq
      obtain ⟨hi, rfl⟩ := List.getElem?_eq_some_iff.1 ha
      have hi' : i < args.length := len ▸ hi
      have here : s.Denotes args[i] ts[i] := List.Forall₂.get hargs hi' hi
      have replaced := Term.replaceAt_cons (f := f) (u := b) (p := p) ha
      rw [replaceAt, replaced]
      have store : s.Ensures (getThe Store : ExceptT TermError StoreM Store).run fun out s' =>
          ∃ a, out = .ok a ∧ a = s ∧ s' = s := ⟨wf, le_refl s, s, rfl, rfl, rfl⟩
      refine store.bindOk ?_
      rintro _ s₀ - - ⟨rfl, rfl⟩
      simp only [hnode, List.getElem?_eq_getElem hi']
      have inner : s₀.Ensures (ExceptT.adapt (fun _ => TermError.invalidPosition (i :: p))
          (replaceAt args[i] p u)).run fun out s' =>
            ∃ q, out = .ok q ∧ J s' ∧ s'.Denotes q (Term.replaceAt b ts[i] p) := by
        refine Ensures.map (ih here hs (arg ht (List.getElem_mem hi))) ?_
        rintro _ s' - - ⟨inv', q, rfl, hq⟩
        exact ⟨q, rfl, inv', hq⟩
      refine inner.bindOk ?_
      rintro q s₁ wf₁ le₁ ⟨inv₁, hq⟩
      have all : s₁.DenotesAll (args.set i q) (ts.set i (Term.replaceAt b ts[i] p)) := by
        have old := hargs.mono wf wf₁ le₁
        rw [List.set_eq_take_append_cons_drop, List.set_eq_take_append_cons_drop, if_pos hi, if_pos hi']
        exact List.rel_append (List.forall₂_take i old) (.cons hq (List.forall₂_drop (i + 1) old))
      have kept := step wf₁ le₁ inv₁ ht at_ all replaced.symm
      obtain ⟨wf₂, le₂, denotes⟩ := app_spec (f := f) wf₁ all
      exact ⟨wf₂, le₂, kept, _, rfl, denotes⟩

theorem replaceAt_spec {t' b : Term} (wf : s.WellFormed) (hd : s.Denotes r t) (hu : s.Denotes u b)
    (at_ : t.subtermAt p = some t') :
    s.Ensures (replaceAt r p u).run fun out s' =>
      ∃ q, out = .ok q ∧ s'.Denotes q (Term.replaceAt b t p) :=
  (replaceAt_keeps (J := fun _ => True) (D := fun _ => True) wf hd hu at_ trivial (fun _ _ => trivial) trivial
    fun _ _ _ _ _ _ _ => trivial).mono fun _ _ _ _ h => h.2

end OrderedCompletion.Store
