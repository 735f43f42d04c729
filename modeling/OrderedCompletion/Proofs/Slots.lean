import Mathlib.Data.List.Basic
import Mathlib.Tactic.LinearCombination
import Mathlib.Tactic.Ring
import Mathlib.Data.Int.ModEq
import OrderedCompletion.Slots

/-! A walk over a table of slots meets the variables that were added and no others. -/

namespace OrderedCompletion.Slots

variable {slots : Slots} {v w : Var}

/-- Modulo a power of two the triangular numbers meet every number. -/
theorem exists_run (e a : Nat) :
    ∃ run : Nat, run < 2 ^ e ∧ (2 ^ (e + 1) : Int) ∣ run * (run + 1) - 2 * a := by
  induction e with
  | zero => exact ⟨0, by simp, ⟨-a, by simp⟩⟩
  | succ e ih =>
      obtain ⟨run, small, c, hc⟩ := ih
      have twice : (2 : Int) ^ (e + 2) = 2 ^ (e + 1) * 2 := pow_succ 2 (e + 1)
      rcases Int.even_or_odd' c with ⟨d, hd | hd⟩
      · refine ⟨run, by rw [pow_succ]; omega, d, ?_⟩
        rw [hc, hd, twice]
        ring
      · -- the run at the mirrored place is off by exactly half of the modulus
        have size : (2 : Nat) ^ (e + 1) = 2 ^ e * 2 := pow_succ 2 e
        refine ⟨2 ^ (e + 1) - 1 - run, by omega, 2 ^ e - run + d, ?_⟩
        have cast : ((2 ^ (e + 1) - 1 - run : Nat) : Int) = 2 ^ (e + 1) - 1 - run := by
          rw [Nat.cast_sub (by omega), Nat.cast_sub Nat.one_le_two_pow]
          push_cast
          rfl
        have half : (2 : Int) ^ (e + 1) = 2 ^ e * 2 := pow_succ 2 e
        rw [cast]
        calc (2 ^ (e + 1) - 1 - (run : Int)) * (2 ^ (e + 1) - 1 - run + 1) - 2 * a
            = 2 ^ (e + 1) * (2 ^ (e + 1) - (2 * run + 1)) + (run * (run + 1) - 2 * a) := by ring
          _ = 2 ^ (e + 1) * (2 ^ (e + 1) - (2 * run + 1)) + 2 ^ (e + 1) * (2 * d + 1) := by rw [hc, hd]
          _ = 2 ^ (e + 1) * (2 ^ e * 2 - 2 * run + 2 * d) := by rw [half]; ring
          _ = 2 ^ (e + 1 + 1) * (2 ^ e - run + d) := by rw [twice]; ring

/-- A search comes by every slot of a table whose size is a power of two. -/
theorem exists_probe {m i : Nat} (start : Nat) (hi : i < 2 ^ m) :
    ∃ k < 16 * 2 ^ m, probe (2 ^ m) start k = i := by
  have pos : 0 < 2 ^ m := Nat.two_pow_pos m
  -- how far the slot is from where the search starts
  obtain ⟨d, hd, reach⟩ : ∃ d < 2 ^ m, (start + d) % 2 ^ m = i := by
    refine ⟨(i + (2 ^ m - start % 2 ^ m)) % 2 ^ m, Nat.mod_lt _ pos, ?_⟩
    have lt := Nat.mod_lt start pos
    rw [Nat.add_mod, Nat.mod_mod, ← Nat.add_mod, ← Nat.mod_add_mod]
    rw [show start % 2 ^ m + (i + (2 ^ m - start % 2 ^ m)) = i + 2 ^ m by omega, Nat.add_mod_right,
      Nat.mod_eq_of_lt hi]
  rcases Nat.lt_or_ge m 4 with low | high
  · have : 2 ^ m ≤ 2 ^ 3 := Nat.pow_le_pow_right (by decide) (Nat.le_of_lt_succ low)
    refine ⟨d, by omega, ?_⟩
    rw [probe, Nat.div_eq_of_lt (by omega), Nat.mod_eq_of_lt (a := d) (by omega)]
    simpa using reach
  · obtain ⟨e, rfl⟩ := Nat.exists_eq_add_of_le' high
    have size : 2 ^ (e + 4) = 2 ^ e * 16 := by rw [pow_add]; norm_num
    obtain ⟨run, small, c, hc⟩ := exists_run e (d / 16)
    refine ⟨16 * run + d % 16, by omega, ?_⟩
    rw [probe, show (16 * run + d % 16) / 16 = run by omega, show (16 * run + d % 16) % 16 = d % 16 by omega,
      ← reach]
    -- the two sums differ by a multiple of the size
    refine Nat.modEq_iff_dvd.2 ⟨-c, ?_⟩
    have whole : (d : Int) = 16 * (d / 16 : Nat) + (d % 16 : Nat) := by omega
    have power : (2 : Int) ^ (e + 4) = 8 * 2 ^ (e + 1) := by ring
    push_cast at whole hc ⊢
    rw [power]
    linear_combination whole - 8 * hc

/-- Some slot is free in a table that is not full. -/
theorem exists_free (h : slots.inUse.length < slots.length) : ∃ i : Nat, slots[i]? = some none := by
  induction slots with
  | nil => simp [inUse] at h
  | cons slot slots ih =>
      cases slot with
      | none => exact ⟨0, rfl⟩
      | some v =>
          obtain ⟨i, hi⟩ := ih (by simpa [inUse] using h)
          exact ⟨i + 1, hi⟩

theorem inUse_set {i : Nat} (h : slots[i]? = some none) :
    (inUse (slots.set i (some v))).Perm (v :: slots.inUse) := by
  induction slots generalizing i with
  | nil => cases h
  | cons slot slots ih =>
      cases i with
      | zero =>
          cases h
          exact .refl _
      | succ i =>
          have rest := ih (i := i) h
          cases slot with
          | none => exact rest
          | some w => exact (rest.cons w).trans (.swap v w _)

theorem fill_spec (left k : Nat)
    (free : ∃ j < left, slots[probe slots.length (home slots.length v) (k + j)]? = some none) :
    ∃ i : Nat, slots[i]? = some none ∧ fill slots v left k = slots.set i (some v) := by
  induction left generalizing k with
  | zero =>
      obtain ⟨j, hj, -⟩ := free
      exact absurd hj (Nat.not_lt_zero j)
  | succ left ih =>
      rw [fill]
      split
      · rename_i here
        exact ⟨_, here, rfl⟩
      · rename_i taken
        obtain ⟨j, hj, hfree⟩ := free
        cases j with
        | zero => exact absurd hfree taken
        | succ j => exact ih (k + 1) ⟨j, Nat.lt_of_succ_lt_succ hj, by rwa [Nat.add_right_comm]⟩

/-- The sizes that a table can have once it has slots. -/
def Sized (slots : Slots) : Prop := ∃ m, 2 ≤ m ∧ slots.length = 2 ^ m

theorem put_spec (sized : slots.Sized) (room : slots.inUse.length < slots.length) :
    (slots.put v).inUse.Perm (v :: slots.inUse) ∧ (slots.put v).length = slots.length := by
  obtain ⟨m, -, size⟩ := sized
  obtain ⟨i, hi⟩ := exists_free room
  have small : i < 2 ^ m := size ▸ (List.getElem?_eq_some_iff.1 hi).1
  obtain ⟨k, hk, hprobe⟩ := exists_probe (home slots.length v) small
  obtain ⟨i', hi', filled⟩ := fill_spec (v := v) (16 * slots.length) 0
    ⟨k, by rwa [size], by rw [Nat.zero_add, size]; rw [size] at hprobe; rwa [hprobe]⟩
  rw [put, filled]
  exact ⟨inUse_set hi', List.length_set⟩

theorem putAll_spec {vs : List Var} (sized : slots.Sized)
    (room : slots.inUse.length + vs.length ≤ slots.length) :
    (vs.foldl put slots).inUse.Perm (slots.inUse ++ vs) ∧
      (vs.foldl put slots).length = slots.length := by
  induction vs generalizing slots with
  | nil => simp
  | cons v vs ih =>
      rw [List.length_cons] at room
      obtain ⟨perm, size⟩ := put_spec (v := v) sized (by omega)
      have grown : (slots.put v).inUse.length = slots.inUse.length + 1 := by
        rw [perm.length_eq, List.length_cons]
      obtain ⟨m, hm, hsize⟩ := sized
      obtain ⟨rest, size'⟩ := ih ⟨m, hm, size.trans hsize⟩ (by omega)
      refine ⟨?_, size'.trans size⟩
      calc (vs.foldl put (slots.put v)).inUse
        List.Perm _ ((slots.put v).inUse ++ vs) := rest
        List.Perm _ (v :: slots.inUse ++ vs) := perm.append_right vs
        List.Perm _ (slots.inUse ++ v :: vs) := List.perm_middle.symm

/-- A table has no slots yet or is sized, and never holds more than its slots. -/
def Sound (slots : Slots) : Prop := slots = [] ∨ slots.Sized

theorem inUse_length_le : slots.inUse.length ≤ slots.length := List.length_filterMap_le _ _

theorem doubled_spec (sound : slots.Sound) :
    slots.doubled.inUse.Perm slots.inUse ∧ slots.doubled.Sized ∧
      slots.doubled.inUse.length < slots.doubled.length := by
  obtain ⟨m, hm, big⟩ : ∃ m, 2 ≤ m ∧ max 4 (2 * slots.length) = 2 ^ m := by
    rcases sound with rfl | ⟨m, hm, size⟩
    · exact ⟨2, by omega, rfl⟩
    · refine ⟨m + 1, by omega, ?_⟩
      have : 2 ^ 2 ≤ 2 ^ m := Nat.pow_le_pow_right (by decide) hm
      rw [size, pow_succ]
      omega
  have unused : inUse (List.replicate (max 4 (2 * slots.length)) none) = [] := by
    rw [inUse, List.filterMap_eq_nil_iff]
    intro slot hslot
    rw [(List.mem_replicate.1 hslot).2]
    rfl
  have le := slots.inUse_length_le
  have sized' : Sized (List.replicate (max 4 (2 * slots.length)) none) :=
    ⟨m, hm, by rw [List.length_replicate, big]⟩
  have room : (inUse (List.replicate (max 4 (2 * slots.length)) none)).length + slots.inUse.length ≤
      (List.replicate (max 4 (2 * slots.length)) (none : Option Var)).length := by
    rw [unused, List.length_replicate, List.length_nil]
    omega
  obtain ⟨perm, size⟩ := putAll_spec sized' room
  rw [unused, List.nil_append] at perm
  rw [List.length_replicate] at size
  refine ⟨perm, ⟨m, hm, size.trans big⟩, ?_⟩
  rw [doubled, perm.length_eq, size]
  omega

theorem add_spec (sound : slots.Sound) :
    (slots.add v).Sound ∧ ∀ w, w ∈ (slots.add v).inUse ↔ w = v ∨ w ∈ slots.inUse := by
  rw [add]
  generalize hroomy : (if slots.inUse.length < capacity slots.length then slots else slots.doubled) = roomy
  have holds : (∀ w, w ∈ roomy.inUse ↔ w ∈ slots.inUse) ∧ roomy.Sized ∧
      roomy.inUse.length < roomy.length := by
    subst hroomy
    split
    · rename_i room
      have small : capacity slots.length ≤ slots.length := by
        rw [capacity]
        split <;> omega
      rcases sound with rfl | sized
      · simp [inUse, capacity] at room
      · exact ⟨fun w => Iff.rfl, sized, by omega⟩
    · obtain ⟨perm, sized, room⟩ := doubled_spec sound
      exact ⟨fun w => perm.mem_iff, sized, room⟩
  obtain ⟨same, sized, room⟩ := holds
  split
  · rename_i old
    refine ⟨.inr sized, fun w => ?_⟩
    rw [same]
    exact ⟨.inr, fun h => h.elim (fun eq => eq ▸ (same v).1 old) id⟩
  · obtain ⟨perm, size⟩ := put_spec (v := v) sized room
    obtain ⟨m, hm, hsize⟩ := sized
    refine ⟨.inr ⟨m, hm, size.trans hsize⟩, fun w => ?_⟩
    rw [perm.mem_iff, List.mem_cons, same]

theorem mem_walk {vs : List Var} : w ∈ walk vs ↔ w ∈ vs := by
  suffices gen : ∀ slots : Slots, slots.Sound →
      (w ∈ inUse (vs.foldl add slots) ↔ w ∈ slots.inUse ∨ w ∈ vs) by
    rw [walk, gen [] (.inl rfl)]
    simp [inUse]
  induction vs with
  | nil => simp
  | cons v vs ih =>
      intro slots sound
      obtain ⟨sound', mem⟩ := add_spec (v := v) sound
      rw [List.foldl_cons, ih _ sound', mem, List.mem_cons, or_assoc, or_left_comm]

end OrderedCompletion.Slots
