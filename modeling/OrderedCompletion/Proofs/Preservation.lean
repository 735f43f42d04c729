import OrderedCompletion.Proofs.Runs

/-! Whatever the order answers, a run says what its axioms say, and what it answers follows from them. -/

namespace OrderedCompletion.Problem

open Engine

variable {p : Problem} {e : Engine} {s : Store} {ctx : Context}

theorem Reaches.kept_free (h : p.Reaches .full e s) (posed : p.Posed .full)
    (order : p.order.Preserves) : Kept .free p e s :=
  Reaches.kept (G := .free) h posed order.obeys fun no => no.elim

/-- In every state of every run, also after a failure half-way through a step, the worklist and the rules
generate the theory of the axioms. -/
theorem theory_preserved (posed : p.Posed .full) (order : p.order.Preserves) (h : p.Reaches .full e s) :
    (∀ eq ∈ e.equations ++ e.rules, Derives p.theory (s.term eq.lhs) (s.term eq.rhs)) ∧
    (∀ eq ∈ p.axioms, Derives (e.theory s) (s.term eq.lhs) (s.term eq.rhs)) ∧
    ∀ a b, Derives (e.theory s) a b ↔ Derives p.theory a b := by
  obtain ⟨wf, le, inv⟩ := h.kept_free posed order
  have lost : ∀ l r, (l, r) ∈ p.theory → Derives (e.theory s) l r :=
    fun l r hl => (inv.covers l r hl).derives
  refine ⟨fun eq heq => inv.sound _ _ ?_, fun eq heq => lost _ _ ?_, fun a b => ⟨?_, ?_⟩⟩
  · rcases List.mem_append.1 heq with heq | heq
    · exact .inl ⟨eq, heq, rfl⟩
    · exact .inr ⟨eq, heq, rfl⟩
  · rw [theory, ← posed.has.theory_eq posed.wellFormed wf le]
    exact ⟨eq, heq, rfl⟩
  · exact fun derives => derives.cut inv.sound
  · exact fun derives => derives.cut lost

/-- Two constants are equal, and the order goes by age. -/
def twoConstants : Problem :=
  ofTerms { greater := fun r q => return decide (q < r) }
    [(.app (.symbol ⟨0⟩) [], .app (.symbol ⟨1⟩) [])]

def twoConstantsContext : Context :=
  { symbols := default, order := twoConstants.order, fuel := 5 }

theorem twoConstants_posed : twoConstants.Posed .full := by
  refine posed_ofTerms fun d hd => ?_
  obtain rfl := List.mem_singleton.1 hd
  exact ⟨.app trivial nofun, .app trivial nofun⟩

theorem twoConstants_preserves : twoConstants.order.Preserves :=
  fun wf _ _ => .pure wf trivial

/-- The state and store after some calls. -/
def runCalls (p : Problem) (ctx : Context) (calls : List Call) : Engine × Store :=
  calls.foldl (fun st c => c.run ctx st.1 st.2) p.start

/-- The state and store after some steps. -/
def stepped (p : Problem) (ctx : Context) (steps : Nat) : Engine × Store :=
  p.runCalls ctx (.replicate steps .step)

theorem stepped_succ (n : Nat) :
    p.stepped ctx (n + 1) = after (step ctx) (p.stepped ctx n).1 (p.stepped ctx n).2 := by
  rw [stepped, runCalls, List.replicate_succ', List.foldl_append]
  rfl

theorem reaches_stepped {sig : Signature} (same : ctx.order = p.order) (n : Nat) :
    p.Reaches sig (p.stepped ctx n).1 (p.stepped ctx n).2 := by
  induction n with
  | zero => exact .start
  | succ n ih =>
      rw [stepped_succ]
      exact .call .step ctx ih same nofun

theorem theory_preserved_twoConstants :
    (twoConstants.runCalls twoConstantsContext [.step]).1.rules = [⟨1, 0⟩] ∧
    ∀ a b, Derives ((twoConstants.runCalls twoConstantsContext [.step]).1.theory
        (twoConstants.runCalls twoConstantsContext [.step]).2) a b ↔
      Derives twoConstants.theory a b := by
  have reached : twoConstants.Reaches .full _ _ :=
    .call .step twoConstantsContext .start rfl nofun
  exact ⟨by decide +kernel, (theory_preserved twoConstants_posed twoConstants_preserves reached).2.2⟩

/-- What a call ensures of its answer. -/
theorem Kept.answers {α : Type} {x : EngineM α} {Q : α → Engine → Store → Prop} {G : Gauge} {a : α}
    (kept : Keeping G p.theory p.config.unfailing e s x Q) (ok : answer x e s = .ok a) :
    Presents G p.theory p.config.unfailing (after x e s).2 (after x e s).1 ∧
      Q a (after x e s).1 (after x e s).2 := by
  obtain ⟨-, -, out⟩ := kept
  rw [answer] at ok
  rw [ok] at out
  exact out

/-- In every state of every run, positive answers and normal forms follow from the axioms. -/
theorem answers_sound (posed : p.Posed .full) (order : p.order.Preserves) (h : p.Reaches .full e s)
    (same : ctx.order = p.order) :
    (∀ eq : Equation, eq.lhs < s.size → eq.rhs < s.size → answer (equal ctx eq) e s = .ok true →
      Derives p.theory (s.term eq.lhs) (s.term eq.rhs)) ∧
    (∀ r u, r < s.size → answer (reduce ctx r) e s = .ok u →
      ∃ b, (after (reduce ctx r) e s).2.Denotes u b ∧ Derives p.theory (s.term r) b) ∧
    ∀ r u, r < s.size → answer (normalForm ctx r) e s = .ok u →
      ∃ b, (after (normalForm ctx r) e s).2.Denotes u b ∧ Derives p.theory (s.term r) b := by
  obtain ⟨wf, le, inv⟩ := h.kept_free posed order
  have obeys : ctx.order.Obeys .free := same ▸ order.obeys
  have stored : ∀ {r}, r < s.size → s.Denotes r (s.term r) ∧ (s.term r).Over .full := by
    intro r hr
    have hd := Store.denotes_term hr
    exact ⟨hd, hd.over_full wf⟩
  have normalizes : ∀ {r u} {x : EngineM Ref}, (s.term r).Over .full → answer x e s = .ok u →
      Keeping .free p.theory p.config.unfailing e s x (fun out e' s' =>
        Aside e e' ∧ NormalFormOf .free e' s' (s.term r) out) →
      ∃ b, (after x e s).2.Denotes u b ∧ Derives p.theory (s.term r) b := by
    intro r u x inSig ok kept
    obtain ⟨inv', -, b, hb, reduces, -⟩ := Kept.answers kept ok
    exact ⟨b, hb, Rewrites.derives inv' reduces inSig⟩
  refine ⟨fun eq hl hr ok => ?_, fun r u hr ok => ?_, fun r u hr ok => ?_⟩
  · obtain ⟨hdl, overL⟩ := stored hl
    obtain ⟨hdr, overR⟩ := stored hr
    obtain ⟨inv', meets, -, -⟩ := Kept.answers
      (equal_spec obeys wf posed.fits inv ⟨hdl, hdr⟩ overL overR) ok
    obtain ⟨z, left, right⟩ := meets rfl
    exact (Rewrites.derives inv' left overL).trans (Rewrites.derives inv' right overR).symm
  · obtain ⟨hd, inSig⟩ := stored hr
    exact normalizes inSig ok (reduce_spec obeys wf posed.fits inv hd inSig)
  · obtain ⟨hd, inSig⟩ := stored hr
    exact normalizes inSig ok (normalForm_spec obeys wf posed.fits inv hd inSig)

theorem answers_sound_twoConstants :
    Derives twoConstants.theory (.app (.symbol ⟨0⟩) []) (.app (.symbol ⟨1⟩) []) := by
  have same : twoConstantsContext.order = twoConstants.order := rfl
  have sound := (answers_sound twoConstants_posed twoConstants_preserves .start same).1
  exact sound ⟨0, 1⟩ (by decide +kernel) (by decide +kernel) (by decide +kernel)

end OrderedCompletion.Problem
