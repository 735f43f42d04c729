import Mathlib.Data.Fintype.EquivFin
import OrderedCompletion.Proofs.Confined
import OrderedCompletion.Proofs.GroundCompleteness
import OrderedCompletion.Proofs.KboLaws

/-! Orders that are right about ground terms as long as all stored terms are of a kind. Runs with such an
order are runs with one that is always right, up to the first store with a term of another kind. -/

namespace OrderedCompletion

theorem Store.not_all_of_var {s : Store} {Q : Term → UInt32 → Prop} {v : Var} (wf : s.WellFormed)
    (unmarked : ∀ n, ¬ Q (.var v) n) : ¬ ((Store.var v s).2.All Q) := by
  obtain ⟨-, -, hr, same⟩ := var_spec wf v
  intro all
  have known := all.2 _ hr
  rw [same] at known
  exact unmarked _ known

namespace Order

variable {Q : Term → UInt32 → Prop} {I : Term → Prop} {gt : Term → Term → Prop} {mark : Var} {o : Order}

/-- In stores all of whose terms have a property the order is right about given terms, and leaves the store
alone. -/
structure Reliable (Q : Term → UInt32 → Prop) (I : Term → Prop) (gt : Term → Term → Prop) (o : Order) :
    Prop where
  grows : o.Grows
  alarm : ∀ s r q, o.alarm s r q = false
  answers : ∀ {s : Store} {r q : Ref} {a b : Term}, s.WellFormed → s.All Q → s.Denotes r a →
    s.Denotes q b → I a → I b →
    s.Ensures (o.greater r q) fun yes s' => Store.SameTerms s s' ∧ (yes = true ↔ gt a b)

open Classical in
/-- The order as it would be if it were right about all terms of all stores. A question about other terms than
the given ones leaves a variable in the store. -/
noncomputable def corrected (Q : Term → UInt32 → Prop) (I : Term → Prop) (gt : Term → Term → Prop)
    (mark : Var) (o : Order) : Order where
  greater := fun r q s =>
    if s.WellFormed ∧ ¬ (I (s.term r) ∧ I (s.term q)) then
      (decide (gt (s.term r) (s.term q)), (Store.var mark s).2)
    else if s.All Q then o.greater r q s
    else (decide (gt (s.term r) (s.term q)), s)
  alarm := o.alarm

theorem Reliable.tracks (h : o.Reliable Q I gt) (unmarked : ∀ n, ¬ Q (.var mark) n) :
    (o.corrected Q I gt mark).Tracks Q o where
  alarm := rfl
  greater := by
    intro r q s
    dsimp only [corrected]
    split
    · rename_i other
      exact ⟨Store.intern_grows (.var mark) s, fun all => absurd all (Store.not_all_of_var other.1 unmarked)⟩
    · split
      · exact ⟨h.grows r q s, fun _ => rfl⟩
      · rename_i other
        exact ⟨.refl s, fun all => absurd all other⟩

/-- Where it matters, the corrected order answers as the relation says. -/
theorem Reliable.corrected_spec {s : Store} {r q : Ref} {a b : Term} (h : o.Reliable Q I gt)
    (wf : s.WellFormed) (ha : s.Denotes r a) (hb : s.Denotes q b) :
    s.Ensures ((o.corrected Q I gt mark).greater r q) fun yes s' =>
      (I a → I b → Store.SameTerms s s') ∧ (yes = true ↔ gt a b) := by
  obtain ⟨hr, rfl⟩ := ha
  obtain ⟨hq, rfl⟩ := hb
  dsimp only [corrected, Store.Ensures]
  split
  · rename_i other
    obtain ⟨wf', le, -⟩ := Store.var_spec wf mark
    exact ⟨wf', le, fun ha hb => absurd ⟨ha, hb⟩ other.2, by simp⟩
  · rename_i given
    obtain ⟨ha, hb⟩ := not_not.1 fun other => given ⟨wf, other⟩
    split
    · rename_i all
      obtain ⟨wf', le, same, yes⟩ := h.answers wf all (Store.denotes_term hr) (Store.denotes_term hq) ha hb
      exact ⟨wf', le, fun _ _ => same, yes⟩
    · exact ⟨wf, le_rfl, fun _ _ => .refl s, by simp⟩

theorem Reliable.quiet (h : o.Reliable Q I gt) : (o.corrected Q I gt mark).Quiet I where
  alarm := h.alarm
  same := fun wf ha hb inA inB =>
    (h.corrected_spec wf ha hb).mono fun _ _ _ _ spec => spec.1 inA inB

theorem Reliable.obeys {sig : Signature} {distinct : Prop} (h : o.Reliable Q I gt)
    (laws : ReductionOrder sig gt) : (o.corrected Q I gt mark).Obeys (laws.gauge distinct) := by
  intro s r q a b wf ha hb _ _
  refine (h.corrected_spec wf ha hb).mono fun yes _ _ _ spec => ⟨spec.2.1, fun _ no greater => ?_⟩
  rw [no] at spec
  cases spec.2.2 greater

end Order

namespace OrderKind

variable {symbols : SymbolTable} {ranked : List Symbol} {kind : OrderKind} {sig : Signature} {s : Store}
variable {a b t : Term}

/-- What an order of the kind goes by, over the precedence that ranks some symbols of a table. -/
def gt (symbols : SymbolTable) (ranked : List Symbol) : OrderKind → Term → Term → Prop
  | .kbo => Kbo.Gt (Precedence.compare symbols (.ranking ranked)) Term.Covers
  | .lpo => Lpo.Gt (Precedence.compare symbols (.ranking ranked))

/-- Ground terms over the symbols of a table. The Knuth-Bendix order needs their node counts. -/
structure Given (kind : OrderKind) (symbols : SymbolTable) (t : Term) : Prop where
  inSig : t.Over (.named symbols)
  ground : t.IsGround
  small : kind = .kbo → t.size < 2 ^ 32

/-- What a run on given terms stores: such terms, and what was stored before. -/
def Stored (kind : OrderKind) (symbols : SymbolTable) (s : Store) (t : Term) : Prop :=
  (∃ r, s.Denotes r t) ∨ kind.Given symbols t

/-- The same, with the right node count if it is needed. -/
def Measured (kind : OrderKind) (symbols : SymbolTable) (s : Store) (t : Term) (n : UInt32) : Prop :=
  kind.Stored symbols s t ∧ (kind = .kbo → n.toNat = t.size)

theorem reductionOrder (symbols : SymbolTable) (ranked : List Symbol) (kind : OrderKind)
    (le : ∀ f n, sig f n → Signature.interned symbols f n) : ReductionOrder sig (kind.gt symbols ranked) := by
  have lawful := (Precedence.lawful symbols ranked).mono le
  cases kind with
  | kbo => exact Kbo.reductionOrder lawful
  | lpo => exact Lpo.reductionOrder lawful

theorem total (ha : kind.Given symbols a) (hb : kind.Given symbols b) (differ : a ≠ b) :
    kind.gt symbols ranked a b ∨ kind.gt symbols ranked b a := by
  have lawful := (Precedence.lawful symbols ranked).mono fun _ _ => Signature.interned_of_named
  have compares := Precedence.total symbols ranked
  cases kind with
  | kbo => exact Kbo.total lawful compares ha.inSig hb.inSig ha.ground hb.ground differ
  | lpo => exact Lpo.total lawful compares ha.inSig hb.inSig ha.ground hb.ground differ

theorem realm (laws : ReductionOrder (.named symbols) (kind.gt symbols ranked)) :
    Realm laws.groundGauge (kind.Given symbols) (kind.Stored symbols s) where
  ground := fun h => h.ground
  inSig := fun h => h.inSig
  arg := fun h ht => ⟨(Term.over_app_iff.1 h.inSig).2 _ ht, h.ground.arg ht,
    fun same => (Term.size_lt_of_mem ht).trans (h.small same)⟩
  below := by
    intro a b ha ⟨hb, down⟩
    refine ⟨hb, ha.ground.of_subset (laws.vars_subset ha.inSig hb down), ?_⟩
    rintro rfl
    exact (Kbo.Gt.size_le down).trans_lt (ha.small rfl)
  storable := .inr

theorem grows (symbols : SymbolTable) (ranked : List Symbol) (kind : OrderKind) :
    (Order.ofKind (Precedence.compare symbols (.ranking ranked)) kind).Grows := by
  cases kind with
  | kbo => exact Kbo.greater_grows _
  | lpo => exact Lpo.greater_grows _

/-- Where all node counts are right, the orders that come with the library can be relied on. -/
theorem reliable (symbols : SymbolTable) (ranked : List Symbol) (kind : OrderKind) (store : Store) :
    (Order.ofKind (Precedence.compare symbols (.ranking ranked)) kind).Reliable
      (kind.Measured symbols store) (kind.Given symbols) (kind.gt symbols ranked) where
  grows := grows symbols ranked kind
  alarm := by
    cases kind with
    | kbo => exact fun _ _ _ => rfl
    | lpo => exact fun _ _ _ => rfl
  answers := by
    rintro s r q a b wf all ⟨hr, rfl⟩ ⟨hq, rfl⟩ ha hb
    have lawful := (Precedence.lawful symbols ranked).mono fun _ _ => Signature.interned_of_named
    cases kind with
    | kbo =>
        have counted : s.Exact := all.mono fun _ _ known => known.2 rfl
        refine (Kbo.greater_spec lawful.reflexive wf hr hq).mono fun yes _ _ _ ⟨same, spec⟩ => ⟨same, ?_⟩
        rw [spec counted ha.inSig]
        exact Kbo.gt_iff_of_ground lawful ha.inSig hb.ground
    | lpo => exact Lpo.greater_spec lawful wf hr hq ha.inSig hb.inSig

/-- Some variable is not stored by a run on given terms. -/
theorem exists_unmeasured (kind : OrderKind) (symbols : SymbolTable) (s : Store) :
    ∃ mark, ∀ n, ¬ kind.Measured symbols s (.var mark) n := by
  let vars : Finset Var := ((List.range s.size).flatMap fun r => (s.term r).vars).toFinset
  obtain ⟨mark, other⟩ := Infinite.exists_notMem_finset vars
  refine ⟨mark, fun n known => other ?_⟩
  rcases known.1 with ⟨r, hr, same⟩ | given
  · rw [List.mem_toFinset, List.mem_flatMap]
    exact ⟨r, List.mem_range.2 hr, by simp [same]⟩
  · exact absurd given.ground (by simp [Term.IsGround, Term.vars])

/-- A store that a run on given terms makes has the right node counts. -/
theorem all_measured {store : Store} (made : Store.Grown .empty s) (below : s.Descends)
    (confined : s.Confined (kind.Stored symbols store))
    (small : kind = .kbo → ∀ r < store.size, (store.term r).size < 2 ^ 32) :
    s.All (kind.Measured symbols store) := by
  refine ⟨below, fun r hr => ⟨confined r hr, ?_⟩⟩
  rintro rfl
  refine (made.exact below fun q hq => ?_).2 r hr
  rcases confined q hq with ⟨x, hx, same⟩ | given
  · rw [← same]
    exact small rfl x hx
  · exact given.small rfl

end OrderKind
end OrderedCompletion
