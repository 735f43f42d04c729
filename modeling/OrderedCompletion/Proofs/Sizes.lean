import OrderedCompletion.Proofs.KnuthBendix
import OrderedCompletion.Proofs.StoreActions

/-! How stores grow, and the node counts that they keep. -/

namespace OrderedCompletion

/-- The node count of a term that fits into a word. -/
def Term.wordSize (t : Term) : Nat := t.size % 2 ^ 32

namespace Store

/-- The second store has the entries of the first one and then others, each made with the node count that
the entries before it give. What is noted may differ. -/
inductive Grown (s : Store) : Store → Prop
  | same {s' : Store} : s'.entries = s.entries → Grown s s'
  | push {s' s'' : Store} (node : Node) : Grown s s' →
      s''.entries = s'.entries.push ⟨node, s'.nodeSize node⟩ → Grown s s''

/-- Arguments come first, and every term has a property together with its node count. -/
def All (Q : Term → UInt32 → Prop) (s : Store) : Prop :=
  s.Descends ∧ ∀ r < s.size, Q (s.term r) (s.sizeOf r)

/-- Node counts have wrapped around at most. -/
def Counted (s : Store) : Prop := s.All fun t n => n.toNat = t.size % 2 ^ 32

/-- No node count has wrapped around. -/
def Exact (s : Store) : Prop := s.All fun t n => n.toNat = t.size

variable {s s' s'' : Store} {r : Ref} {t : Term} {Q : Term → UInt32 → Prop}

theorem Grown.refl (s : Store) : Grown s s := .same rfl

theorem Grown.of_entries_eq (h : Grown s s') (same : s''.entries = s'.entries) : Grown s s'' := by
  cases h with
  | same h => exact .same (same.trans h)
  | push node h pushed => exact .push node h (same.trans pushed)

theorem Grown.trans (h : Grown s s') (h' : Grown s' s'') : Grown s s'' := by
  induction h' with
  | same same => exact h.of_entries_eq same
  | push node _ pushed ih => exact .push node ih pushed

theorem Grown.getElem? (h : Grown s s') {entry : Entry} (hr : s.entries[r]? = some entry) :
    s'.entries[r]? = some entry := by
  induction h with
  | same same => rwa [same]
  | push node _ pushed ih =>
      obtain ⟨lt, -⟩ := Array.getElem?_eq_some_iff.1 ih
      rw [pushed, Array.getElem?_push_lt lt]
      exact (Array.getElem?_eq_getElem lt).symm.trans ih

theorem Grown.le (h : Grown s s') : s ≤ s' := by
  intro r node hr
  obtain ⟨entry, hentry, rfl⟩ := Option.map_eq_some_iff.1 hr
  rw [node?, h.getElem? hentry]
  rfl

theorem exists_entry (hr : r < s.size) : ∃ entry, s.entries[r]? = some entry :=
  ⟨_, Array.getElem?_eq_getElem hr⟩

theorem Grown.sizeOf_eq (h : Grown s s') (hr : r < s.size) : s'.sizeOf r = s.sizeOf r := by
  obtain ⟨entry, here⟩ := exists_entry hr
  rw [sizeOf, sizeOf, h.getElem? here, here]

theorem Descends.of_le (below : s'.Descends) (le : s ≤ s') : s.Descends :=
  fun r _ _ hr => below (le r _ hr)

theorem All.of_grown (all : s'.All Q) (h : Grown s s') : s.All Q := by
  have below := all.1.of_le h.le
  refine ⟨below, fun r hr => ?_⟩
  have known := all.2 r (Nat.lt_of_lt_of_le hr (size_le_of_le h.le))
  rwa [below.term_of_le all.1 h.le hr, h.sizeOf_eq hr] at known

theorem All.mono {Q' : Term → UInt32 → Prop} (all : s.All Q) (h : ∀ t n, Q t n → Q' t n) : s.All Q' :=
  ⟨all.1, fun r hr => h _ _ (all.2 r hr)⟩

theorem nodeSize_toNat {f : Head} {args : List Ref} (known : ∀ a ∈ args, a < s.size) :
    (s.nodeSize (.app f args)).toNat = ((args.map fun a => (s.sizeOf a).toNat).sum + 1) % 2 ^ 32 := by
  have gen : ∀ n : UInt32, (args.foldl (fun n r => n + (s.entries[r]?.map (·.size)).getD 1) n).toNat =
      ((args.map fun a => (s.sizeOf a).toNat).sum + n.toNat) % 2 ^ 32 := by
    induction args with
    | nil =>
        intro n
        simp
    | cons a args ih =>
        intro n
        obtain ⟨entry, here⟩ := exists_entry (known a List.mem_cons_self)
        rw [List.foldl_cons, ih fun b hb => known b (List.mem_cons_of_mem _ hb), List.map_cons,
          List.sum_cons, sizeOf, here]
        simp only [Option.map_some, Option.getD_some, UInt32.toNat_add]
        omega
  exact gen 1

/-- The node count of a new entry is right up to wrapping around. -/
theorem Counted.push {node : Node} (counted : s.Counted)
    (pushed : s'.entries = s.entries.push ⟨node, s.nodeSize node⟩) (below : s'.Descends) : s'.Counted := by
  have next : Grown s s' := .push node (.refl s) pushed
  have older : ∀ r < s.size, (s'.sizeOf r).toNat = (s'.term r).size % 2 ^ 32 := by
    intro r hr
    rw [next.sizeOf_eq hr, counted.1.term_of_le below next.le hr]
    exact counted.2 r hr
  refine ⟨below, fun r hr => ?_⟩
  rw [size, pushed, Array.size_push] at hr
  rcases Nat.lt_or_eq_of_le (Nat.le_of_lt_succ hr) with lt | rfl
  · exact older r lt
  · have count : s'.sizeOf s.entries.size = s.nodeSize node := by
      rw [sizeOf, pushed, Array.getElem?_push_size]
      rfl
    have here : s'.node? s.entries.size = some node := by
      rw [node?, pushed, Array.getElem?_push_size]
      rfl
    cases node with
    | var v =>
        rw [count, below.term_var here]
        rfl
    | app f args =>
        have known := below here
        have total : (args.map fun a => (s.sizeOf a).toNat).sum % 2 ^ 32 =
            (args.map fun a => (s'.term a).size).sum % 2 ^ 32 := by
          clear count here pushed
          induction args with
          | nil => rfl
          | cons a args ih =>
              have first := older a (known a List.mem_cons_self)
              have rest := ih fun b hb => known b (List.mem_cons_of_mem _ hb)
              rw [next.sizeOf_eq (known a List.mem_cons_self)] at first
              rw [List.map_cons, List.map_cons, List.sum_cons, List.sum_cons, Nat.add_mod, rest, first,
                Nat.mod_mod, ← Nat.add_mod]
        rw [count, nodeSize_toNat known, below.term_app here, Term.size_app, List.map_map, Nat.add_mod, total,
          ← Nat.add_mod]
        rfl

theorem empty_counted : empty.Counted := ⟨empty_wellFormed.below, nofun⟩

theorem Counted.grown (counted : s.Counted) (h : Grown s s') (below : s'.Descends) : s'.Counted := by
  induction h with
  | same same => exact counted.of_grown (.same same.symm)
  | push node _ pushed ih =>
      have next : Grown _ _ := .push node (.refl _) pushed
      exact (ih (below.of_le next.le)).push pushed below

theorem Exact.counted (h : s.Exact) : s.Counted := by
  refine h.mono fun t n same => ?_
  rw [← same, Nat.mod_eq_of_lt n.toNat_lt]

/-- A node count is right if the term is not too large. -/
theorem Counted.sizeOf_eq (counted : s.Counted) (hd : s.Denotes r t) (small : t.size < 2 ^ 32) :
    (s.sizeOf r).toNat = t.size := by
  rw [counted.2 r hd.1, hd.2, Nat.mod_eq_of_lt small]

/-- Node counts are right as long as no term is too large. -/
theorem Grown.exact (h : Grown .empty s) (below : s.Descends)
    (small : ∀ r < s.size, (s.term r).size < 2 ^ 32) : s.Exact :=
  ⟨below, fun r hr => (empty_counted.grown h below).sizeOf_eq ⟨hr, rfl⟩ (small r hr)⟩

theorem empty_exact : empty.Exact := ⟨empty_wellFormed.below, nofun⟩

theorem intern_exact (node : Node) (wf : s.WellFormed) (counted : s.Exact) (admits : s.Admits node)
    (small : ((intern node s).2.term (intern node s).1).size < 2 ^ 32) : (intern node s).2.Exact := by
  have spec := intern_spec wf node admits
  cases found : s.refs.find? node with
  | some r =>
      have same : intern node s = (r, s) := by rw [intern, found]
      rw [same]
      exact counted
  | none =>
      have same : intern node s = (s.size, s.pushed node) := by rw [intern, found]; rfl
      rw [Ensures, same] at spec
      rw [same] at small ⊢
      have below := spec.1.below
      have next : Grown s (s.pushed node) := .push node (.refl s) rfl
      refine ⟨below, fun r hr => ?_⟩
      have known : r < s.size + 1 := by simpa [size, pushed] using hr
      rcases Nat.lt_or_eq_of_le (Nat.le_of_lt_succ known) with lt | rfl
      · rw [next.sizeOf_eq lt, counted.1.term_of_le below next.le lt]
        exact counted.2 r lt
      · exact (counted.counted.grown next below).sizeOf_eq ⟨hr, rfl⟩ small

end Store
end OrderedCompletion
