import OrderedCompletion.Proofs.Position
import OrderedCompletion.Store.Freeze

/-! Freezing and unfreezing of trees, and of stored terms whatever was noted before. -/

namespace OrderedCompletion

namespace Term

mutual
/-- Every variable becomes its rigid constant. -/
def freeze : Term → Term
  | .var v => .app (.frozen v) []
  | .app f args => .app f (freezeList args)
  | .missing r => .missing r

def freezeList : List Term → List Term
  | [] => []
  | t :: ts => freeze t :: freezeList ts
end

mutual
/-- Every rigid constant becomes its variable. The first variable from the left that is met is reported. -/
def unfreeze : Term → Except TermError Term
  | .var v => .error (.notFrozen v)
  | .app (.frozen v) _ => .ok (.var v)
  | .app (.symbol f) args => do
    let args ← unfreezeList args
    return .app (.symbol f) args
  | .missing r => .error (.unknownTerm r)

def unfreezeList : List Term → Except TermError (List Term)
  | [] => .ok []
  | t :: ts => do
    let u ← unfreeze t
    let us ← unfreezeList ts
    return u :: us
end

theorem freezeList_eq_map (ts : List Term) : freezeList ts = ts.map freeze := by
  induction ts with
  | nil => rfl
  | cons t ts ih => rw [freezeList, ih, List.map_cons]

end Term

/-- The action changes nothing in what is noted about freezing and unfreezing. -/
def StoreM.Spares {α : Type} (x : StoreM α) : Prop :=
  ∀ s, (x s).2.frozenOf = s.frozenOf ∧ (x s).2.thawedOf = s.thawedOf

namespace StoreM

variable {α β : Type} {x : StoreM α} {f : α → StoreM β}

theorem Spares.pure (a : α) : Spares (Pure.pure a) := fun _ => ⟨rfl, rfl⟩

theorem Spares.get : Spares MonadState.get := fun _ => ⟨rfl, rfl⟩

theorem Spares.bind (hx : Spares x) (hf : ∀ a, Spares (f a)) : Spares (x >>= f) := by
  intro s
  obtain ⟨frozen, thawed⟩ := hx s
  obtain ⟨frozen', thawed'⟩ := hf (x s).1 (x s).2
  exact ⟨frozen'.trans frozen, thawed'.trans thawed⟩

theorem Spares.mapM {as : List α} (h : ∀ a, Spares (f a)) : Spares (as.mapM f) := by
  induction as with
  | nil => exact .pure []
  | cons a as ih =>
      rw [List.mapM_cons]
      exact (h a).bind fun b => ih.bind fun bs => .pure (b :: bs)

end StoreM

namespace Store

open StoreM

theorem intern_spares (node : Node) : Spares (intern node) := by
  intro s
  rw [intern]
  split
  · exact ⟨rfl, rfl⟩
  · exact ⟨rfl, rfl⟩

theorem varsWithin_spares (n : Nat) (r : Ref) : Spares (varsWithin n r) := by
  induction n generalizing r with
  | zero => exact .pure []
  | succ n ih =>
      rw [varsWithin]
      refine .bind .get fun s => ?_
      split
      · exact .pure _
      · refine .bind .get fun s => ?_
        extract_lets note
        have noted : ∀ vs, Spares (note vs) := fun vs => .bind (fun _ => ⟨rfl, rfl⟩) fun _ => .pure vs
        split
        · exact .bind (.pure _) noted
        · exact .bind (.mapM ih) fun _ => .bind (.pure _) noted
        · exact .bind (.pure _) noted

variable {s s' : Store} {r q u : Ref} {t : Term} {p : Position}

/-- Besides, what is noted about freezing and unfreezing is true of the terms as trees. -/
structure Faithful (s : Store) : Prop extends WellFormed s where
  frozen : ∀ {r q : Ref}, s.frozenOf[r]? = some q → r < s.size ∧ s.Denotes q (s.term r).freeze
  thawed : ∀ {r q : Ref}, s.thawedOf[r]? = some q →
    r < s.size ∧ ∃ t, (s.term r).unfreeze = .ok t ∧ s.Denotes q t

theorem empty_faithful : empty.Faithful where
  toWellFormed := empty_wellFormed
  frozen := by
    intro r q h
    simp [empty] at h
  thawed := by
    intro r q h
    simp [empty] at h

/-- New terms do not make a note about an old one false. -/
theorem Faithful.later (h : s.Faithful) (wf' : s'.WellFormed) (le : s ≤ s')
    (frozen : s'.frozenOf = s.frozenOf) (thawed : s'.thawedOf = s.thawedOf) : s'.Faithful where
  toWellFormed := wf'
  frozen := by
    intro r q noted
    rw [frozen] at noted
    obtain ⟨lt, denotes⟩ := h.frozen noted
    rw [h.below.term_of_le wf'.below le lt]
    exact ⟨Nat.lt_of_lt_of_le lt (size_le_of_le le), denotes.mono h.toWellFormed wf' le⟩
  thawed := by
    intro r q noted
    rw [thawed] at noted
    obtain ⟨lt, t, same, denotes⟩ := h.thawed noted
    rw [h.below.term_of_le wf'.below le lt]
    exact ⟨Nat.lt_of_lt_of_le lt (size_le_of_le le), t, same, denotes.mono h.toWellFormed wf' le⟩

/-- So it is after an action that only adds terms. -/
theorem Faithful.after {α : Type} {x : StoreM α} {Q : α → Store → Prop} (h : s.Faithful)
    (spares : Spares x) (hx : s.Ensures x Q) : s.Ensures x fun a s' => s'.Faithful ∧ Q a s' := by
  obtain ⟨wf', le, out⟩ := hx
  obtain ⟨frozen, thawed⟩ := spares s
  exact ⟨wf', le, h.later wf' le frozen thawed, out⟩

/-- A true note about freezing. -/
theorem noteFrozen_spec (h : s.Faithful) (hr : r < s.size) (hq : s.Denotes q (s.term r).freeze) :
    s.Ensures (modify fun s => { s with frozenOf := s.frozenOf.insert r q })
      fun _ s' => s'.Faithful ∧ SameTerms s s' := by
  have same : SameTerms s { s with frozenOf := s.frozenOf.insert r q } := ⟨rfl, rfl⟩
  have wf' := same.wellFormed h.toWellFormed h.noted
  have faithful : Faithful { s with frozenOf := s.frozenOf.insert r q } := by
    refine { toWellFormed := wf', frozen := ?_, thawed := ?_ }
    · intro r' q' noted
      rw [same.size, same.term, same.denotes]
      rw [Std.TreeMap.getElem?_insert] at noted
      split at noted
      · rename_i eq
        rw [Std.LawfulEqCmp.compare_eq_iff_eq] at eq
        cases noted
        subst eq
        exact ⟨hr, hq⟩
      · exact h.frozen noted
    · intro r' q' noted
      simp only [same.size, same.term, same.denotes]
      exact h.thawed noted
  exact ⟨wf', same.le, faithful, same⟩

theorem denotes_of_noteFrozen (h : s.Faithful) (hd : s.Denotes r t) (hq : s.Denotes q t.freeze) :
    s.Ensures (do
      modify fun s => { s with frozenOf := s.frozenOf.insert r q }
      return q) fun q s' => s'.Faithful ∧ s'.Denotes q t.freeze := by
  refine (noteFrozen_spec h hd.1 (hd.2.symm ▸ hq)).bind ?_
  rintro _ s₁ wf₁ - ⟨h₁, same⟩
  exact .pure wf₁ ⟨h₁, same.denotes.2 hq⟩

theorem freezeWithin_spec {n : Nat} (h : s.Faithful) (hr : r < s.size) (hn : r < n) :
    s.Ensures (freezeWithin n r) fun q s' => s'.Faithful ∧ s'.Denotes q (s.term r).freeze := by
  induction n generalizing s r with
  | zero => exact absurd hn (Nat.not_lt_zero r)
  | succ n ih =>
      rw [freezeWithin]
      refine (Ensures.get h.toWellFormed).bind ?_
      rintro _ s' - - ⟨rfl, rfl⟩
      split
      · rename_i q noted
        exact .pure h.toWellFormed ⟨h, (h.frozen noted).2⟩
      · refine (Ensures.get h.toWellFormed).bind ?_
        rintro _ s' - - ⟨rfl, rfl⟩
        extract_lets note
        have noted : ∀ (q : Ref) (s₁ : Store), s' ≤ s₁ → s₁.Faithful →
            s₁.Denotes q (s'.term r).freeze →
            s₁.Ensures (note q) fun q s'' => s''.Faithful ∧ s''.Denotes q (s'.term r).freeze :=
          fun q s₁ le₁ h₁ hq =>
            denotes_of_noteFrozen h₁ ((denotes_term hr).mono h.toWellFormed h₁.toWellFormed le₁) hq
        obtain ⟨node, hnode⟩ := exists_node hr
        rw [hnode]
        cases node with
        | var v =>
            have made := h.after (intern_spares _) (app_spec (f := .frozen v) h.toWellFormed .nil)
            refine made.bind fun q s₁ _ le₁ hq => noted q s₁ le₁ hq.1 ?_
            rw [h.below.term_var hnode]
            exact hq.2
        | app f args =>
            have parts : s'.Ensures (args.mapM (freezeWithin n)) fun qs s₁ => (s' ≤ s₁ ∧ s₁.Faithful) ∧
                List.Forall₂ (fun a q => s₁.Denotes q (s'.term a).freeze) args qs := by
              refine Ensures.mapM h.toWellFormed ⟨le_rfl, h⟩
                (fun _ _ _ _ wf₁ wf₂ le hd => hd.mono wf₁ wf₂ le) fun a ha s₁ _ le₁ inv => ?_
              have lt := h.below hnode a ha
              have small : a < s₁.size := Nat.lt_of_lt_of_le (Nat.lt_trans lt hr) (size_le_of_le le₁)
              refine (ih inv.2 small (Nat.lt_of_lt_of_le lt (Nat.le_of_lt_succ hn))).mono ?_
              rintro q s₂ - le₂ ⟨h₂, hq⟩
              rw [h.below.term_of_le inv.2.below le₁ (Nat.lt_trans lt hr)] at hq
              exact ⟨⟨le₁.trans le₂, h₂⟩, hq⟩
            refine parts.bind ?_
            rintro qs s₁ wf₁ - ⟨⟨le₁, h₁⟩, hqs⟩
            have all : s₁.DenotesAll qs ((args.map s'.term).map Term.freeze) := by
              rw [List.map_map]
              exact List.forall₂_map_right_iff.2 hqs.flip
            refine (h₁.after (intern_spares _) (app_spec (f := f) wf₁ all)).bind ?_
            rintro q s₂ - le₂ ⟨h₂, hq⟩
            refine noted q s₂ (le₁.trans le₂) h₂ ?_
            rw [h.below.term_app hnode, Term.freeze, Term.freezeList_eq_map]
            exact hq

/-- Freezing a stored term stores the frozen tree. -/
theorem freeze_spec (h : s.Faithful) (hd : s.Denotes r t) :
    s.Ensures (freeze r) fun q s' => s'.Faithful ∧ s'.Denotes q t.freeze := by
  obtain ⟨hr, rfl⟩ := hd
  refine (Ensures.get h.toWellFormed).bind ?_
  rintro _ s' - - ⟨rfl, rfl⟩
  exact freezeWithin_spec h hr (Nat.lt_of_lt_of_le hr (Nat.le_add_right _ _))

/-- What unfreezing stored terms answers, if it answers as unfreezing the trees does. -/
def ThawsAll (s : Store) (ts : List Term) : Except TermError (List Ref) → Prop
  | .ok qs => ∃ us, Term.unfreezeList ts = .ok us ∧ s.DenotesAll qs us
  | .error e => Term.unfreezeList ts = .error e

/-- And for one of them. -/
def Thaws (s : Store) (t : Term) : Except TermError Ref → Prop
  | .ok q => ∃ u, t.unfreeze = .ok u ∧ s.Denotes q u
  | .error e => t.unfreeze = .error e

theorem Thaws.map_term {out : Except TermError Ref} (h : s.Thaws t out) : out.map s.term = t.unfreeze := by
  cases out with
  | error e => exact Eq.symm h
  | ok q =>
      obtain ⟨u, same, hq⟩ := h
      rw [same, ← hq.2]
      rfl

/-- A true note about unfreezing. -/
theorem noteThawed_spec (h : s.Faithful) (hr : r < s.size) (same : (s.term r).unfreeze = .ok t)
    (hq : s.Denotes q t) :
    s.Ensures (modify fun s => { s with thawedOf := s.thawedOf.insert r q })
      fun _ s' => s'.Faithful ∧ SameTerms s s' := by
  have terms : SameTerms s { s with thawedOf := s.thawedOf.insert r q } := ⟨rfl, rfl⟩
  have wf' := terms.wellFormed h.toWellFormed h.noted
  have faithful : Faithful { s with thawedOf := s.thawedOf.insert r q } := by
    refine { toWellFormed := wf', frozen := ?_, thawed := ?_ }
    · intro r' q' noted
      rw [terms.size, terms.term, terms.denotes]
      exact h.frozen noted
    · intro r' q' noted
      simp only [terms.size, terms.term, terms.denotes]
      rw [Std.TreeMap.getElem?_insert] at noted
      split at noted
      · rename_i eq
        rw [Std.LawfulEqCmp.compare_eq_iff_eq] at eq
        cases noted
        subst eq
        exact ⟨hr, t, same, hq⟩
      · exact h.thawed noted
  exact ⟨wf', terms.le, faithful, terms⟩

theorem thaws_of_noteThawed {u : Term} (h : s.Faithful) (hd : s.Denotes r t) (thawed : t.unfreeze = .ok u)
    (hq : s.Denotes q u) :
    s.Ensures (do
      modifyThe Store fun s => { s with thawedOf := s.thawedOf.insert r q }
      return q : ExceptT TermError StoreM Ref).run fun out s' => s'.Faithful ∧ s'.Thaws t out := by
  have noted : s.Ensures (modifyThe Store (fun s => { s with thawedOf := s.thawedOf.insert r q }) :
      ExceptT TermError StoreM PUnit).run fun out s' => ∃ a, out = .ok a ∧ s'.Faithful ∧ SameTerms s s' :=
    (noteThawed_spec h hd.1 (hd.2.symm ▸ thawed) hq).map fun a s' _ _ out => ⟨a, rfl, out⟩
  refine noted.bindOk ?_
  rintro _ s₁ wf₁ - ⟨h₁, same⟩
  exact .pure wf₁ ⟨h₁, u, thawed, same.denotes.2 hq⟩

theorem Ensures.getThe {ε : Type} (wf : s.WellFormed) :
    s.Ensures (getThe Store : ExceptT ε StoreM Store).run fun out s' => ∃ a, out = .ok a ∧ a = s ∧ s' = s :=
  ⟨wf, le_rfl, _, rfl, rfl, rfl⟩

/-- One action after another, either of which may fail. -/
theorem Ensures.bindExcept {ε α β : Type} {x : ExceptT ε StoreM α} {f : α → ExceptT ε StoreM β}
    {Q : Except ε α → Store → Prop} {R : Except ε β → Store → Prop} (hx : s.Ensures x.run Q)
    (ok : ∀ a s', s'.WellFormed → s ≤ s' → Q (.ok a) s' → s'.Ensures (f a).run R)
    (error : ∀ e s', s'.WellFormed → s ≤ s' → Q (.error e) s' → R (.error e) s') :
    s.Ensures (x >>= f).run R := by
  rw [ExceptT.run_bind]
  refine Ensures.bind hx ?_
  rintro (e | a) s' wf' le' out
  · exact .pure wf' (error e s' wf' le' out)
  · exact ok a s' wf' le' out

/-- If every argument is answered for as its tree is, so are all of them together. -/
theorem unfreezeAll_spec {f : Ref → ExceptT TermError StoreM Ref} {rs : List Ref} (h : s.Faithful)
    (hf : ∀ r ∈ rs, ∀ s', s ≤ s' → s'.Faithful →
      s'.Ensures (f r).run fun out s'' => s''.Faithful ∧ s''.Thaws (s.term r) out) :
    s.Ensures (rs.mapM f).run fun out s' => s'.Faithful ∧ s'.ThawsAll (rs.map s.term) out := by
  suffices later : ∀ s', s ≤ s' → s'.Faithful → s'.Ensures (rs.mapM f).run fun out s'' =>
      s''.Faithful ∧ s''.ThawsAll (rs.map s.term) out from later s le_rfl h
  induction rs with
  | nil =>
      intro s' _ h'
      exact .pure h'.toWellFormed ⟨h', [], rfl, .nil⟩
  | cons r rs ih =>
      intro s' le' h'
      rw [List.mapM_cons]
      refine (hf r (by simp) s' le' h').bindExcept ?_ ?_
      · rintro q s₁ wf₁ le₁ ⟨h₁, u, hu, hq⟩
        have rest := ih (fun r hr => hf r (by simp [hr])) s₁ (le'.trans le₁) h₁
        refine rest.bindExcept ?_ ?_
        · rintro qs s₂ wf₂ le₂ ⟨h₂, us, hus, hqs⟩
          refine .pure wf₂ ⟨h₂, u :: us, ?_, .cons (hq.mono wf₁ wf₂ le₂) hqs⟩
          rw [List.map_cons, Term.unfreezeList, hu, hus]
          rfl
        · rintro e s₂ - - ⟨h₂, failed⟩
          refine ⟨h₂, ?_⟩
          change Term.unfreezeList (rs.map s.term) = .error e at failed
          change Term.unfreezeList (s.term r :: rs.map s.term) = .error e
          rw [Term.unfreezeList, hu, failed]
          rfl
      · rintro e s₁ - - ⟨h₁, failed⟩
        refine ⟨h₁, ?_⟩
        change (s.term r).unfreeze = .error e at failed
        change Term.unfreezeList (s.term r :: rs.map s.term) = .error e
        rw [Term.unfreezeList, failed]
        rfl

theorem unfreezeWithin_spec {n : Nat} (h : s.Faithful) (hr : r < s.size) (hn : r < n) :
    s.Ensures (unfreezeWithin n r).run fun out s' => s'.Faithful ∧ s'.Thaws (s.term r) out := by
  induction n generalizing s r with
  | zero => exact absurd hn (Nat.not_lt_zero r)
  | succ n ih =>
      rw [unfreezeWithin]
      refine (Ensures.getThe h.toWellFormed).bindOk ?_
      rintro _ s' - - ⟨rfl, rfl⟩
      split
      · rename_i q noted
        obtain ⟨-, u, hu, hq⟩ := h.thawed noted
        exact .pure h.toWellFormed ⟨h, u, hu, hq⟩
      · refine (Ensures.getThe h.toWellFormed).bindOk ?_
        rintro _ s' - - ⟨rfl, rfl⟩
        extract_lets note
        have noted : ∀ (q : Ref) (u : Term) (s₁ : Store), s' ≤ s₁ → s₁.Faithful →
            (s'.term r).unfreeze = .ok u → s₁.Denotes q u →
            s₁.Ensures (note q).run fun out s'' => s''.Faithful ∧ s''.Thaws (s'.term r) out :=
          fun q u s₁ le₁ h₁ thawed hq =>
            thaws_of_noteThawed h₁ ((denotes_term hr).mono h.toWellFormed h₁.toWellFormed le₁) thawed hq
        obtain ⟨node, hnode⟩ := exists_node hr
        rw [hnode]
        cases node with
        | var v =>
            refine .pure h.toWellFormed ⟨h, ?_⟩
            change (s'.term r).unfreeze = .error (.notFrozen v)
            rw [h.below.term_var hnode, Term.unfreeze]
        | app f args =>
            cases f with
            | frozen v =>
                have made := h.after (intern_spares _) (var_spec h.toWellFormed v)
                refine made.liftOk.bindOk ?_
                rintro q s₁ - le₁ ⟨h₁, hq⟩
                refine noted q (.var v) s₁ le₁ h₁ ?_ hq
                rw [h.below.term_app hnode, Term.unfreeze]
            | symbol f =>
                have parts : s'.Ensures (args.mapM (unfreezeWithin n)).run fun out s₁ =>
                    s₁.Faithful ∧ s₁.ThawsAll (args.map s'.term) out := by
                  refine unfreezeAll_spec h fun a ha s₁ le₁ h₁ => ?_
                  have lt := h.below hnode a ha
                  have small := Nat.lt_trans lt hr
                  rw [← h.below.term_of_le h₁.below le₁ small]
                  exact ih h₁ (Nat.lt_of_lt_of_le small (size_le_of_le le₁))
                    (Nat.lt_of_lt_of_le lt (Nat.le_of_lt_succ hn))
                refine parts.bindExcept ?_ ?_
                · rintro qs s₁ wf₁ le₁ ⟨h₁, us, hus, hqs⟩
                  have made := h₁.after (intern_spares _) (app_spec (f := .symbol f) wf₁ hqs)
                  refine made.liftOk.bindOk ?_
                  rintro q s₂ - le₂ ⟨h₂, hq⟩
                  refine noted q _ s₂ (le₁.trans le₂) h₂ ?_ hq
                  rw [h.below.term_app hnode, Term.unfreeze, hus]
                  rfl
                · rintro e s₁ - - ⟨h₁, failed⟩
                  refine ⟨h₁, ?_⟩
                  change Term.unfreezeList (args.map s'.term) = .error e at failed
                  change (s'.term r).unfreeze = .error e
                  rw [h.below.term_app hnode, Term.unfreeze, failed]
                  rfl

/-- Unfreezing a stored term answers as unfreezing the tree does. -/
theorem unfreeze_spec (h : s.Faithful) (hd : s.Denotes r t) :
    s.Ensures (unfreeze r).run fun out s' => s'.Faithful ∧ s'.Thaws t out := by
  obtain ⟨hr, rfl⟩ := hd
  refine (Ensures.getThe h.toWellFormed).bindOk ?_
  rintro _ s' - - ⟨rfl, rfl⟩
  exact unfreezeWithin_spec h hr (Nat.lt_of_lt_of_le hr (Nat.le_add_right _ _))

end Store
end OrderedCompletion
