import Mathlib.Order.WellFounded
import OrderedCompletion.Order.Kbo
import OrderedCompletion.Proofs.StoreActions

/-! Comparison of applications by their heads, and of arguments where they first differ. -/

namespace OrderedCompletion

/-- What a comparison of heads has to be like: only equal heads are equal, and it is transitive and
well-founded. -/
structure HeadComparison.Lawful (cmp : HeadComparison) (sig : Signature) : Prop where
  eq_iff : ∀ {f g : Head} {m n : Nat}, sig f m → sig g n →
    (cmp f m g n = some .eq ↔ f = g ∧ m = n)
  trans : ∀ {f g h : Head} {m n k : Nat}, sig f m → sig g n → sig h k →
    cmp f m g n = some .gt → cmp g n h k = some .gt → cmp f m h k = some .gt
  wf : WellFounded fun x y : Head × Nat =>
    sig x.1 x.2 ∧ sig y.1 y.2 ∧ cmp y.1 y.2 x.1 x.2 = some .gt

/-- Every head is equal to itself. -/
def HeadComparison.Reflexive (cmp : HeadComparison) (sig : Signature) : Prop :=
  ∀ (f : Head) (n : Nat), sig f n → cmp f n f n = some .eq

theorem HeadComparison.Lawful.reflexive {cmp : HeadComparison} {sig : Signature} (h : cmp.Lawful sig) :
    cmp.Reflexive sig :=
  fun _ _ known => (h.eq_iff known known).2 ⟨rfl, rfl⟩

/-- Any two heads can be compared. -/
structure HeadComparison.Total (cmp : HeadComparison) (sig : Signature) : Prop where
  some : ∀ {f g : Head} {m n : Nat}, sig f m → sig g n → ∃ o, cmp f m g n = Option.some o
  swap : ∀ {f g : Head} {m n : Nat}, sig f m → sig g n → cmp f m g n = Option.some .lt →
    cmp g n f m = Option.some .gt

section
variable {cmp : HeadComparison} {sig : Signature} {gt : Term → Term → Prop}
variable {f g : Head} {ss ts : List Term}

theorem Term.sizeOf_lt {a : Term} (h : a ∈ ss) : sizeOf a < sizeOf (Term.app f ss) := by
  have := List.sizeOf_lt_of_mem h
  rw [Term.app.sizeOf_spec]
  omega

/-- The left list has the greater element where the lists first differ. -/
def LexGt (gt : Term → Term → Prop) (ss ts : List Term) : Prop :=
  ∃ pre a b post post', ss = pre ++ a :: post ∧ ts = pre ++ b :: post' ∧ gt a b

/-- One application beats another one by its head or by its arguments. -/
def Beats (cmp : HeadComparison) (gt : Term → Term → Prop) (f : Head) (ss : List Term) (g : Head)
    (ts : List Term) : Prop :=
  cmp f ss.length g ts.length = some .gt ∨ cmp f ss.length g ts.length = some .eq ∧ LexGt gt ss ts

/-- Comparing where lists first differ is transitive if comparing arguments at one place is. -/
theorem LexGt.trans {us : List Term} (h : LexGt gt ss ts) (h' : LexGt gt ts us)
    (trans : ∀ pre a b c post post' post'', ss = pre ++ a :: post → ts = pre ++ b :: post' →
      us = pre ++ c :: post'' → gt a b → gt b c → gt a c) :
    LexGt gt ss us := by
  obtain ⟨pre, a, b, post₁, post₂, rfl, rfl, first⟩ := h
  obtain ⟨pre', b', c, post₂', post₃, split, rfl, second⟩ := h'
  rcases List.append_eq_append_iff.1 split with ⟨mid, rfl, rest⟩ | ⟨mid, rfl, rest⟩
  · cases mid with
    | nil =>
        obtain ⟨rfl, rfl⟩ := List.cons.inj rest
        have both := trans pre a b c post₁ post₂ post₃ rfl rfl (by simp) first second
        exact ⟨pre, a, c, post₁, post₃, rfl, by simp, both⟩
    | cons d mid =>
        obtain ⟨rfl, rfl⟩ := List.cons.inj rest
        exact ⟨pre, a, b, post₁, mid ++ c :: post₃, rfl, by simp, first⟩
  · cases mid with
    | nil =>
        obtain ⟨rfl, rfl⟩ := List.cons.inj rest
        have both := trans pre' a b' c post₁ post₂' post₃ (by simp) (by simp) rfl first second
        exact ⟨pre', a, c, post₁, post₃, by simp, rfl, both⟩
    | cons d mid =>
        obtain ⟨rfl, rfl⟩ := List.cons.inj rest
        exact ⟨pre', b', c, mid ++ a :: post₁, post₃, by simp, rfl, second⟩

theorem Beats.trans {k : Head} {us : List Term} (lawful : cmp.Lawful sig) (hf : sig f ss.length)
    (hg : sig g ts.length) (hk : sig k us.length) (h : Beats cmp gt f ss g ts) (h' : Beats cmp gt g ts k us)
    (trans : cmp f ss.length k us.length = some .eq → ∀ pre a b c post post' post'',
      ss = pre ++ a :: post → ts = pre ++ b :: post' → us = pre ++ c :: post'' →
      gt a b → gt b c → gt a c) :
    Beats cmp gt f ss k us := by
  rcases h with greater | ⟨same, lex⟩
  · rcases h' with greater' | ⟨same', lex'⟩
    · exact .inl (lawful.trans hf hg hk greater greater')
    · obtain ⟨rfl, length⟩ := (lawful.eq_iff hg hk).1 same'
      exact .inl (length ▸ greater)
  · obtain ⟨rfl, length⟩ := (lawful.eq_iff hf hg).1 same
    rcases h' with greater' | ⟨same', lex'⟩
    · exact .inl (length ▸ greater')
    · have both : cmp f ss.length k us.length = some .eq := length ▸ same'
      exact .inr ⟨both, lex.trans lex' (trans both)⟩

/-- No application beats itself if no argument is greater than itself. -/
theorem Beats.irrefl (self : cmp f ss.length f ss.length = some .eq) (irrefl : ∀ a ∈ ss, ¬ gt a a) :
    ¬ Beats cmp gt f ss f ss := by
  rintro (greater | ⟨-, pre, a, b, post, post', rfl, same, down⟩)
  · rw [self] at greater
    cases greater
  · obtain ⟨rfl, -⟩ := List.cons.inj (List.append_cancel_left same)
    exact irrefl a (by simp) down

end

section
variable {α : Type} {lt : α → α → Prop}

/-- The first list is smaller where the lists first differ, and has only accessible elements. -/
def LexLess (lt : α → α → Prop) (ts ss : List α) : Prop :=
  (∀ t ∈ ts, Acc lt t) ∧ ts.length = ss.length ∧
    ∃ pre a b post post', ss = pre ++ a :: post ∧ ts = pre ++ b :: post' ∧ lt b a

/-- Lists of accessible elements are accessible. The induction is on the length, then on the first element
and then on the rest. -/
theorem acc_lexLess {ss : List α} (h : ∀ a ∈ ss, Acc lt a) : Acc (LexLess lt) ss := by
  induction size : ss.length generalizing ss with
  | zero =>
      constructor
      rintro ts ⟨-, -, pre, a, b, post, post', rfl, -⟩
      simp at size
  | succ n ih =>
      obtain ⟨a, rest, rfl⟩ := List.exists_cons_of_length_eq_add_one size
      have accA := h a List.mem_cons_self
      induction accA generalizing rest with
      | intro a _ ihA =>
          have accRest : ∀ c ∈ rest, Acc lt c := fun c hc => h c (List.mem_cons_of_mem _ hc)
          have lengthRest : rest.length = n := by simpa using size
          have accR := ih accRest lengthRest
          induction accR with
          | intro rest _ ihR =>
              constructor
              rintro ts ⟨accs, length, pre, c, b, post, post', split, rfl, less⟩
              cases pre with
              | nil =>
                  obtain ⟨rfl, rfl⟩ := List.cons.inj split
                  exact ihA b less post' accs (by simpa using length.trans size)
              | cons d pre =>
                  obtain ⟨rfl, rfl⟩ := List.cons.inj split
                  have accs' : ∀ t ∈ pre ++ b :: post', Acc lt t :=
                    fun t ht => accs t (List.mem_cons_of_mem _ ht)
                  have length' : (pre ++ b :: post').length = (pre ++ c :: post).length := by
                    simpa using length
                  exact ihR (pre ++ b :: post') ⟨accs', length', pre, c, b, post, post', rfl, rfl, less⟩
                    accs (by simpa using length.trans size) accs' (length'.trans lengthRest)

/-- The first place where two lists differ. -/
theorem exists_first_difference {α : Type} {as bs : List α} (length : as.length = bs.length)
    (differ : as ≠ bs) :
    ∃ pre a b post post', as = pre ++ a :: post ∧ bs = pre ++ b :: post' ∧ a ≠ b := by
  induction as generalizing bs with
  | nil =>
      cases bs with
      | nil => exact absurd rfl differ
      | cons b bs => simp at length
  | cons a as ih =>
      cases bs with
      | nil => simp at length
      | cons b bs =>
          by_cases same : a = b
          · subst same
            have differ' : as ≠ bs := fun h => differ (by rw [h])
            obtain ⟨pre, x, y, post, post', rfl, rfl, xy⟩ := ih (by simpa using length) differ'
            exact ⟨a :: pre, x, y, post, post', rfl, rfl, xy⟩
          · exact ⟨[], a, b, as, bs, rfl, rfl, same⟩

theorem first_difference_unique {pre pre' post₁ post₂ post₁' post₂' : List α} {a b c d : α} (ab : a ≠ b)
    (cd : c ≠ d) (left : pre ++ a :: post₁ = pre' ++ c :: post₁')
    (right : pre ++ b :: post₂ = pre' ++ d :: post₂') : c = a ∧ d = b := by
  induction pre generalizing pre' with
  | nil =>
      cases pre' with
      | nil => exact ⟨(List.cons.inj left).1.symm, (List.cons.inj right).1.symm⟩
      | cons x pre' => exact absurd ((List.cons.inj left).1.trans (List.cons.inj right).1.symm) ab
  | cons y pre ih =>
      cases pre' with
      | nil => exact absurd ((List.cons.inj left).1.symm.trans (List.cons.inj right).1) cd
      | cons x pre' => exact ih (List.cons.inj left).2 (List.cons.inj right).2

end

section
variable {gt : Term → Term → Prop} {s : Store} {rs qs : List Ref}

theorem firstDifference_append {pre post post' : List Ref} {a b : Ref} (differ : a ≠ b) :
    firstDifference (pre ++ a :: post) (pre ++ b :: post') = some (a, b) := by
  induction pre with
  | nil => simp [firstDifference, differ]
  | cons c pre ih =>
      rw [firstDifference] at ih ⊢
      simpa using ih

theorem firstDifference_eq_some {rs qs : List Ref} {a b : Ref}
    (h : firstDifference rs qs = some (a, b)) :
    ∃ pre post post', rs = pre ++ a :: post ∧ qs = pre ++ b :: post' := by
  induction rs generalizing qs with
  | nil => simp [firstDifference] at h
  | cons r rs ih =>
      cases qs with
      | nil => simp [firstDifference] at h
      | cons q qs =>
          rw [firstDifference, List.zip_cons_cons, List.find?_cons] at h
          split at h
          · obtain ⟨rfl, rfl⟩ := Prod.mk.inj (Option.some.inj h)
            exact ⟨[], rs, qs, rfl, rfl⟩
          · rename_i here
            have same : r = q := by simpa using here
            obtain ⟨pre, post, post', rfl, rfl⟩ := ih h
            exact ⟨r :: pre, post, post', rfl, by rw [same]; rfl⟩

theorem eq_of_map_term_eq (wf : s.WellFormed) (knownR : ∀ r ∈ rs, r < s.size)
    (knownQ : ∀ q ∈ qs, q < s.size) (h : rs.map s.term = qs.map s.term) : rs = qs := by
  induction rs generalizing qs with
  | nil => exact (List.map_eq_nil_iff.1 h.symm).symm
  | cons r rs ih =>
      obtain ⟨q, qs', rfl, head, tail⟩ := List.map_eq_cons_iff.1 h.symm
      have same : r = q :=
        (Store.term_eq_iff wf (knownR r List.mem_cons_self) (knownQ q List.mem_cons_self)).1 head.symm
      have rest := ih (fun r hr => knownR r (List.mem_cons_of_mem _ hr))
        (fun q hq => knownQ q (List.mem_cons_of_mem _ hq)) tail.symm
      rw [same, rest]

/-- The arguments of a stored application come before it, and are over the signature with it. -/
theorem arg_of_node {r a : Ref} {f : Head} (wf : s.WellFormed) (hr : r < s.size)
    (hnode : s.node? r = some (.app f rs)) (inSig : (s.term r).Over sig) (ha : a ∈ rs) :
    a < r ∧ a < s.size ∧ (s.term a).Over sig := by
  have less := wf.below hnode a ha
  rw [wf.below.term_app hnode] at inSig
  exact ⟨less, less.trans hr, (Term.over_app_iff.1 inSig).2 _ (List.mem_map_of_mem ha)⟩

/-- Arguments are compared where their references first differ. -/
theorem lexGt_iff (wf : s.WellFormed) (knownR : ∀ r ∈ rs, r < s.size) (knownQ : ∀ q ∈ qs, q < s.size)
    (irrefl : ∀ r ∈ rs, ¬ gt (s.term r) (s.term r)) :
    LexGt gt (rs.map s.term) (qs.map s.term) ↔
      ∃ a b, firstDifference rs qs = some (a, b) ∧ gt (s.term a) (s.term b) := by
  constructor
  · rintro ⟨pre, x, y, post, post', splitR, splitQ, down⟩
    obtain ⟨rs₁, rs₂, rfl, rfl, restR⟩ := List.map_eq_append_iff.1 splitR
    obtain ⟨a, rs₃, rfl, rfl, rfl⟩ := List.map_eq_cons_iff.1 restR
    obtain ⟨qs₁, qs₂, rfl, same, restQ⟩ := List.map_eq_append_iff.1 splitQ
    obtain ⟨b, qs₃, rfl, rfl, rfl⟩ := List.map_eq_cons_iff.1 restQ
    obtain rfl : qs₁ = rs₁ := eq_of_map_term_eq wf (fun q hq => knownQ q (by simp [hq]))
      (fun r hr => knownR r (by simp [hr])) same
    have differ : a ≠ b := by
      rintro rfl
      exact irrefl a (by simp) down
    exact ⟨a, b, firstDifference_append differ, down⟩
  · rintro ⟨a, b, found, down⟩
    obtain ⟨pre, post, post', rfl, rfl⟩ := firstDifference_eq_some found
    exact ⟨pre.map s.term, s.term a, s.term b, post.map s.term, post'.map s.term, by simp, by simp, down⟩

/-- What is to be asked about two stored applications to know whether one beats the other. -/
theorem beats_iff {cmp : HeadComparison} {f g : Head} (wf : s.WellFormed) (knownR : ∀ r ∈ rs, r < s.size)
    (knownQ : ∀ q ∈ qs, q < s.size) (irrefl : ∀ r ∈ rs, ¬ gt (s.term r) (s.term r)) :
    Beats cmp gt f (rs.map s.term) g (qs.map s.term) ↔
      cmp f rs.length g qs.length = some .gt ∨ cmp f rs.length g qs.length = some .eq ∧
        ∃ a b, firstDifference rs qs = some (a, b) ∧ gt (s.term a) (s.term b) := by
  rw [Beats, List.length_map, List.length_map, lexGt_iff wf knownR knownQ irrefl]

end

namespace Store

/-- In every store with the same terms the question adds no term and gets an answer that fits. -/
def Asks (s : Store) (ask : StoreM Bool) (Fits : Bool → Prop) : Prop :=
  ∀ s' : Store, s'.WellFormed → SameTerms s s' →
    s'.Ensures ask fun yes s'' => SameTerms s s'' ∧ Fits yes

namespace Asks

variable {s : Store} {ask : StoreM Bool} {Fits Fits' : Bool → Prop}

theorem pure {b : Bool} (h : Fits b) : s.Asks (Pure.pure b) Fits :=
  fun _ wf same => .pure wf ⟨same, h⟩

theorem mono (h : s.Asks ask Fits) (weaker : ∀ yes, Fits yes → Fits' yes) : s.Asks ask Fits' :=
  fun s' wf same => (h s' wf same).mono fun yes _ _ _ h => ⟨h.1, weaker yes h.2⟩

theorem bind {next : Bool → StoreM Bool} (h : s.Asks ask Fits)
    (h' : ∀ yes, Fits yes → s.Asks (next yes) Fits') : s.Asks (ask >>= next) Fits' := by
  intro s' wf same
  apply (h s' wf same).bind
  intro yes s₁ wf₁ _ answer
  exact h' yes answer.2 s₁ wf₁ answer.1

theorem bindGet {next : Store → StoreM Bool} (h : ∀ s', SameTerms s s' → s.Asks (next s') Fits) :
    s.Asks (get >>= next) Fits := by
  intro s' wf same
  apply (Ensures.get wf).bind
  rintro _ s₁ wf₁ - ⟨rfl, rfl⟩
  exact h s₁ same s₁ wf₁ same

theorem anyM {α : Type} {ask : α → StoreM Bool} {as : List α} {P : α → Prop}
    (h : ∀ a ∈ as, s.Asks (ask a) fun yes => yes = true ↔ P a) :
    s.Asks (as.anyM ask) fun yes => yes = true ↔ ∃ a ∈ as, P a :=
  fun _ wf same => .anyM wf same fun a ha s' wf' _ same' => h a ha s' wf' same'

theorem allM {α : Type} {ask : α → StoreM Bool} {as : List α} {P : α → Prop}
    (h : ∀ a ∈ as, s.Asks (ask a) fun yes => yes = true ↔ P a) :
    s.Asks (as.allM ask) fun yes => yes = true ↔ ∀ a ∈ as, P a :=
  fun _ wf same => .allM wf same fun a ha s' wf' _ same' => h a ha s' wf' same'

theorem occurs {r : Ref} (hr : r < s.size) (v : Var) :
    s.Asks (Store.occurs v r) fun yes => yes = true ↔ v ∈ (s.term r).vars := by
  intro s' wf same
  apply (occurs_spec wf (same.denotes.2 (denotes_term hr)) v).mono
  rintro yes s₁ - - ⟨rfl, same₁⟩
  exact ⟨same.trans same₁, List.contains_iff_mem⟩

end Asks
end Store
end OrderedCompletion
