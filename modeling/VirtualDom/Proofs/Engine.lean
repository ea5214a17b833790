import VirtualDom.Host

/-!
This module contains what engine actions do: the run of a sequence is the run of its parts, and an
action that yields something can be followed by one that starts from that.
-/

namespace VirtualDom.Engine

variable {α β : Type} {h h' : Host}

theorem toOption_eq_some {α : Type} {x : Except Fault α} {a : α} (h : x.toOption = some a)
    : x = .ok a := by
  cases x with
  | ok b =>
    cases h
    rfl
  | error e => cases h

theorem bind_run {x : Engine α} {f : α → Engine β} {a : α} (hx : x h = .ok a h')
    : (x >>= f) h = f a h' := by
  simp only [bind, EStateM.bind, hx]

theorem bind_eq_result {ε σ : Type} {x : EStateM ε σ α} {f : α → EStateM ε σ β} {s s' : σ} {b : β}
    : (x >>= f) s = .ok b s' ↔ ∃ a t, x s = .ok a t ∧ f a t = .ok b s' := by
  simp only [bind, EStateM.bind]
  cases x s with
  | error e t => simp
  | ok a t =>
    constructor
    . intro h
      exact ⟨a, t, rfl, h⟩
    . rintro ⟨_, _, ⟨⟩, h⟩
      exact h

theorem read_eq_ok {f : Document → Except Fault α} {a : α} (hf : f h.document = .ok a)
    : read f h = .ok a h := by
  unfold read
  rw [hf]

theorem edit_eq_ok {f : Document → Except Fault Document} {d : Document}
    (hf : f h.document = .ok d) : edit f h = .ok () { h with document := d } := by
  unfold edit
  rw [hf]

theorem clear_eq_ok {p : NodeId} {children own : List NodeId} {d : Document}
    (hchildren : h.document.children p = .ok children)
    (hclear : (h.document.recordClearing ⟨p, children, own⟩).discardChildren p = .ok d)
    : clear p own h = .ok () { h with document := d } := by
  have hrecord : edit (fun d => .ok (d.recordClearing ⟨p, children, own⟩)) h
      = .ok () { h with document := h.document.recordClearing ⟨p, children, own⟩ } := edit_eq_ok rfl
  unfold clear
  exact (bind_run (read_eq_ok hchildren)).trans ((bind_run hrecord).trans (edit_eq_ok hclear))

theorem change_eq_ok {f : Document → Except Fault (α × Document)} {a : α} {d : Document}
    (hf : f h.document = .ok (a, d)) : change f h = .ok a { h with document := d } := by
  unfold change
  rw [hf]

theorem create_eq_ok {f : Document → α × Document} {a : α} {d : Document}
    (hf : f h.document = (a, d)) : create f h = .ok a { h with document := d } := by
  have : create f h = .ok (f h.document).1 { h with document := (f h.document).2 } := rfl
  rw [this, hf]

/-- Whether the action gives a result, and the host after it passes a test. -/
def passes (x : Engine α) (h : Host) (test : Host → Bool) : Bool :=
  match x h with
  | .ok _ h' => test h'
  | .error _ _ => false

theorem exists_of_passes {x : Engine α} {test : Host → Bool} (hx : x.passes h test)
    : ∃ a h', x h = .ok a h' ∧ test h' := by
  unfold passes at hx
  cases hr : x h with
  | ok a h' =>
    rw [hr] at hx
    exact ⟨a, h', rfl, hx⟩
  | error e h' =>
    rw [hr] at hx
    cases hx

/-- The action gives a result, for which and for the host after it `Q` holds. -/
def Yields (x : Engine α) (h : Host) (Q : α → Host → Prop) : Prop :=
  ∃ a h', x h = .ok a h' ∧ Q a h'

namespace Yields

variable {x : Engine α} {f : α → Engine β} {P : α → Host → Prop} {Q : β → Host → Prop}

theorem bind (hx : x.Yields h P) (hf : ∀ a h', P a h' → (f a).Yields h' Q)
    : (x >>= f).Yields h Q := by
  obtain ⟨a, h₁, hx, hP⟩ := hx
  obtain ⟨b, h₂, hf, hQ⟩ := hf a h₁ hP
  exact ⟨b, h₂, (bind_run hx).trans hf, hQ⟩

theorem bind_ok {a : α} {h₁ : Host} (hx : x h = .ok a h₁) (hf : (f a).Yields h₁ Q)
    : (x >>= f).Yields h Q := by
  obtain ⟨b, h₂, hf, hQ⟩ := hf
  exact ⟨b, h₂, (bind_run hx).trans hf, hQ⟩

theorem pure {a : α} (hP : P a h) : Yields (Pure.pure a) h P :=
  ⟨a, h, rfl, hP⟩

theorem mono {P' : α → Host → Prop} (hx : x.Yields h P) (hP : ∀ a h', P a h' → P' a h')
    : x.Yields h P' := by
  obtain ⟨a, h', hx, hQ⟩ := hx
  exact ⟨a, h', hx, hP a h' hQ⟩

theorem and_run (hx : x.Yields h P) : x.Yields h fun a h' => x h = .ok a h' ∧ P a h' := by
  obtain ⟨a, h', hx, hP⟩ := hx
  exact ⟨a, h', hx, hx, hP⟩

theorem of_ok {a : α} (hx : x.Yields h P) (hr : x h = .ok a h') : P a h' := by
  obtain ⟨_, _, hx, hP⟩ := hx
  cases hx.symm.trans hr
  exact hP

theorem edit {g : Document → Except Fault Document} {R : Unit → Host → Prop}
    (hg : ∃ d, g h.document = .ok d ∧ R () { h with document := d }) : (Engine.edit g).Yields h R := by
  obtain ⟨d, hd, hR⟩ := hg
  exact ⟨(), _, edit_eq_ok hd, hR⟩

theorem log {entries : List Entry} {R : Unit → Host → Prop}
    (hR : R () { h with trace := h.trace ++ entries }) : (Engine.log entries).Yields h R :=
  ⟨(), _, rfl, hR⟩

theorem forM {γ : Type} {xs : List γ} {g : γ → Engine PUnit} {I : Host → Prop} (hI : I h)
    (hg : ∀ x ∈ xs, ∀ h, I h → (g x).Yields h fun _ h' => I h')
    : (xs.forM g).Yields h fun _ h' => I h' := by
  induction xs generalizing h with
  | nil => exact pure hI
  | cons x xs ih =>
    refine bind (hg x (by simp) h hI) ?_
    intro _ h' hI
    exact ih hI fun x hx => hg x (by simp [hx])

end Yields

/--
The action gives a result, for which and for the host after it `Q` holds, or there is a fault, where
that is not ruled out by `sure`.
-/
def Gives (sure : Prop) (x : Engine α) (h : Host) (Q : α → Host → Prop) : Prop :=
  match x h with
  | .ok a h' => Q a h'
  | .error _ _ => ¬ sure

variable {sure : Prop} {x : Engine α} {f : α → Engine β} {P : α → Host → Prop} {Q : β → Host → Prop}

theorem Yields.gives (hx : x.Yields h P) : x.Gives sure h P := by
  obtain ⟨a, h', hx, hP⟩ := hx
  unfold Gives
  rwa [hx]

namespace Gives

theorem yields (hx : x.Gives sure h P) (hsure : sure) : x.Yields h P := by
  unfold Gives at hx
  cases hr : x h with
  | ok a h' =>
    rw [hr] at hx
    exact ⟨a, h', hr, hx⟩
  | error e h' =>
    rw [hr] at hx
    exact absurd hsure hx

theorem of_ok {a : α} (hx : x.Gives sure h P) (hr : x h = .ok a h') : P a h' := by
  unfold Gives at hx
  rwa [hr] at hx

theorem and_run (hx : x.Gives sure h P) : x.Gives sure h fun a h' => x h = .ok a h' ∧ P a h' := by
  unfold Gives at hx ⊢
  cases hr : x h with
  | ok a h' =>
    rw [hr] at hx
    exact ⟨rfl, hx⟩
  | error e h' => rwa [hr] at hx

theorem bind (hx : x.Gives sure h P) (hf : ∀ a h', P a h' → (f a).Gives sure h' Q)
    : (x >>= f).Gives sure h Q := by
  unfold Gives at hx
  cases hr : x h with
  | ok a h' =>
    rw [hr] at hx
    have := hf a h' hx
    unfold Gives at this ⊢
    rwa [bind_run hr]
  | error e h' =>
    rw [hr] at hx
    unfold Gives
    simp only [Bind.bind, EStateM.bind, hr]
    exact hx

theorem after (hx : x.Yields h P) (hf : ∀ a h', P a h' → (f a).Gives sure h' Q)
    : (x >>= f).Gives sure h Q :=
  hx.gives.bind hf

theorem bind_ok {a : α} {h₁ : Host} (hx : x h = .ok a h₁) (hf : (f a).Gives sure h₁ Q)
    : (x >>= f).Gives sure h Q := by
  unfold Gives at hf ⊢
  rwa [bind_run hx]

theorem pure {a : α} (hP : P a h) : Gives sure (Pure.pure a) h P :=
  hP

theorem fault {e : Fault} (hsure : ¬ sure) : Gives sure (throw e) h P :=
  hsure

theorem mono {P' : α → Host → Prop} (hx : x.Gives sure h P) (hP : ∀ a h', P a h' → P' a h')
    : x.Gives sure h P' := by
  unfold Gives at hx ⊢
  cases hr : x h with
  | ok a h' =>
    rw [hr] at hx
    exact hP a h' hx
  | error e h' => rwa [hr] at hx

end Gives

end VirtualDom.Engine
