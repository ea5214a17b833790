import VirtualDom.Template.Plan

/-!
This module contains what happens in a plan when nodes become active. Activation goes up from a node
and stops at the first node that is active already; it does not matter to it what the other changes of
the plan are, or which nodes come after those that it goes up to.
-/

namespace VirtualDom.Template.Plan

section Modify

variable {α : Type u} {f g : α → α} {xs ys : Array α} {i j : Nat}

theorem modify_append (h : i < xs.size) : (xs ++ ys).modify i f = xs.modify i f ++ ys := by
  apply Array.ext_getElem?
  intro j
  simp only [Array.getElem?_modify, Array.getElem?_append, Array.size_modify]
  by_cases hij : i = j
  . rw [if_pos hij, if_pos hij, if_pos (by omega), if_pos (by omega)]
  . rw [if_neg hij, if_neg hij]

theorem modify_push (a : α) : (xs.push a).modify xs.size f = xs.push (f a) := by
  apply Array.ext_getElem?
  intro j
  simp only [Array.getElem?_modify, Array.getElem?_push]
  by_cases hj : j = xs.size
  . simp [hj]
  . rw [if_neg (Ne.symm hj), if_neg hj, if_neg hj]

theorem modify_comm (h : ∀ a, f (g a) = g (f a))
    : (xs.modify j g).modify i f = (xs.modify i f).modify j g := by
  apply Array.ext_getElem?
  intro k
  simp only [Array.getElem?_modify]
  cases xs[k]? with
  | none => simp
  | some a => split <;> split <;> simp [h]

end Modify

section Activate

variable {p xs : Plan} {n : Node} {i : Option Nat} {k : Nat} {f : Node → Node}

theorem activate_none : p.activate none = p := by
  rw [activate]

theorem activate_of_active (hn : p[k]? = some n) (h : n.active) : p.activate (some k) = p := by
  unfold activate
  split
  . rfl
  . next hm =>
    cases hn.symm.trans hm
    rw [if_pos h]

theorem activate_of_inactive (hn : p[k]? = some n) (h : n.active = false)
    : p.activate (some k) = activate (p.modify k Node.activated) n.up := by
  rw [activate]
  split
  . next hm => cases hn.symm.trans hm
  . next hm =>
    cases hn.symm.trans hm
    rw [if_neg (by simp [h])]

@[simp]
theorem size_activate : (p.activate i).size = p.size := by
  fun_induction activate p i with
  | case1 | case2 | case3 => rfl
  | case4 p k n hn h ih => rw [ih, Array.size_modify]

theorem up?_modify (hf : ∀ n, (f n).up = n.up) (i j : Nat) : up? (p.modify i f) j = p.up? j := by
  unfold up?
  rw [Array.getElem?_modify]
  split
  . cases p[j]? <;> simp [hf]
  . rfl

theorem up?_activate (j : Nat) : (p.activate i).up? j = p.up? j := by
  fun_induction activate p i with
  | case1 | case2 | case3 => rfl
  | case4 p k n hn h ih => rw [ih, up?_modify (f := Node.activated) fun _ => rfl]

def Closed (p : Plan) : Prop :=
  ∀ i, ∀ j ∈ p.up? i, j < p.size

theorem Closed.modify (hp : p.Closed) (hf : ∀ n, (f n).up = n.up) (k : Nat)
    : Closed (p.modify k f) := by
  intro i j hj
  rw [up?_modify hf] at hj
  rw [Array.size_modify]
  apply hp i j hj

theorem Closed.activate (hp : p.Closed) : (p.activate i).Closed := by
  intro k j hj
  rw [up?_activate] at hj
  rw [size_activate]
  apply hp k j hj

theorem activate_append (hp : p.Closed) (hi : ∀ j ∈ i, j < p.size)
    : activate (p ++ xs) i = p.activate i ++ xs := by
  fun_induction activate p i with
  | case1 => rw [activate_none]
  | case2 p k hk =>
    have := Array.getElem?_eq_none_iff.1 hk
    have := hi k rfl
    omega
  | case3 p k n hn h =>
    apply activate_of_active _ h
    rw [Array.getElem?_append_left (hi k rfl), hn]
  | case4 p k n hn h ih =>
    rw [activate_of_inactive (n := n) _ (by simpa using h), modify_append (hi k rfl)]
    . apply ih (hp.modify (f := Node.activated) (fun _ => rfl) k)
      intro j hj
      rw [Array.size_modify]
      apply hp k j
      rw [up?, hn]
      exact hj
    . rw [Array.getElem?_append_left (hi k rfl), hn]

/-- From the last node on, activation gets to the others only if the node is not active yet. -/
theorem activate_add (hp : p.Closed) (hn : ∀ j ∈ n.up, j < p.size)
    : (p.add n).activate (some p.size)
        = (if n.active then p else p.activate n.up).add n.activated := by
  have hlast : (p.add n)[p.size]? = some n := Array.getElem?_push_size
  split
  . next h =>
    rw [activate_of_active hlast h]
    obtain ⟨_, _, _, _, _, _, _⟩ := n
    cases h
    rfl
  . next h =>
    rw [activate_of_inactive hlast (by simpa using h)]
    unfold add
    rw [modify_push, ← Array.append_singleton, activate_append hp hn, Array.append_singleton]

/-- A change of a node that has nothing to do with activation. -/
structure Quiet (f : Node → Node) : Prop where
  up : ∀ n, (f n).up = n.up
  active : ∀ n, (f n).active = n.active
  activated : ∀ n, f n.activated = (f n).activated

theorem Quiet.getElem?_modify (hf : Quiet f) {j : Nat} (hn : p[j]? = some n)
    : ∃ m, (p.modify k f)[j]? = some m ∧ m.up = n.up ∧ m.active = n.active := by
  rw [Array.getElem?_modify, hn]
  split
  . exact ⟨f n, rfl, hf.up n, hf.active n⟩
  . exact ⟨n, rfl, rfl, rfl⟩

theorem activate_modify (hf : Quiet f) : activate (p.modify k f) i = (p.activate i).modify k f := by
  fun_induction activate p i with
  | case1 => rw [activate_none]
  | case2 p j hj =>
    rw [activate]
    split
    . rfl
    . next hm => simp [Array.getElem?_modify, hj] at hm
  | case3 p j n hn h =>
    obtain ⟨m, hm, -, hactive⟩ := hf.getElem?_modify (k := k) hn
    apply activate_of_active hm
    rw [hactive, h]
  | case4 p j n hn h ih =>
    obtain ⟨m, hm, hup, hactive⟩ := hf.getElem?_modify (k := k) hn
    rw [activate_of_inactive hm (by simpa [hactive] using h), hup, modify_comm, ih]
    intro n
    exact (hf.activated n).symm

end Activate

end VirtualDom.Template.Plan
