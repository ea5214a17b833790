import VirtualDom.Proofs.Document.Annals
import VirtualDom.Proofs.Engine
import VirtualDom.Proofs.Ownership.Telling
import VirtualDom.View.Patch

/-!
This module contains what can be said of actions that may end in a fault: which components are told
that they go, and what holds of the document afterwards.
-/

namespace VirtualDom

namespace Engine

/-- From one host to the other nothing was recorded, and no component or callback was told anything. -/
structure Calmly (h h' : Host) : Prop where
  trace : ∃ es, h'.trace = h.trace ++ es ∧ (∀ e ∈ es, e.isQuiet) ∧ es.filterMap Entry.link? = []
  annals : h'.document.annals = h.document.annals

namespace Calmly

variable {h h' h'' : Host}

theorem refl (h : Host) : Calmly h h :=
  ⟨⟨[], by simp⟩, rfl⟩

theorem trans (first : Calmly h h') (second : Calmly h' h'') : Calmly h h'' := by
  obtain ⟨es, htrace, hes, hlinks⟩ := first.trace
  obtain ⟨fs, htrace', hfs, hlinks'⟩ := second.trace
  refine ⟨⟨es ++ fs, ?_, List.forall_mem_append.2 ⟨hes, hfs⟩, ?_⟩, second.annals.trans first.annals⟩
  . rw [htrace', htrace, List.append_assoc]
  . rw [List.filterMap_append, hlinks, hlinks', List.append_nil]

theorem edited {d : Document} (hd : d.annals = h.document.annals)
    : Calmly h { h with document := d } :=
  ⟨⟨[], by simp⟩, hd⟩

end Calmly

variable {α β : Type}

/-- The action records nothing and tells nothing of note, whether it gives a result or not. -/
def Calm (x : Engine α) : Prop :=
  ∀ h, match x h with
    | .ok _ h' | .error _ h' => Calmly h h'

namespace Calm

variable {x : Engine α} {f : α → Engine β}

theorem ok (hx : Calm x) {h h' : Host} {a : α} (ha : x h = .ok a h') : Calmly h h' := by
  have := hx h
  rwa [ha] at this

theorem pure (a : α) : Calm (Pure.pure a) :=
  fun h => .refl h

theorem throw (e : Fault) : Calm (MonadExcept.throw e : Engine α) :=
  fun h => .refl h

theorem bind (hx : Calm x) (hf : ∀ a, Calm (f a)) : Calm (x >>= f) := by
  intro h
  have hx := hx h
  simp only [Bind.bind, EStateM.bind]
  cases hr : x h with
  | error e h' =>
    rw [hr] at hx
    exact hx
  | ok a h' =>
    rw [hr] at hx
    have hf := hf a h'
    dsimp only at hx ⊢
    revert hf
    cases f a h' with
    | ok _ _ => exact fun hf => hx.trans hf
    | error _ _ => exact fun hf => hx.trans hf

theorem read (g : Document → Except Fault α) : Calm (Engine.read g) := by
  intro h
  unfold Engine.read
  cases g h.document <;> exact .refl h

theorem edit {g : Document → Except Fault Document}
    (hg : ∀ d d', g d = .ok d' → d'.annals = d.annals) : Calm (Engine.edit g) := by
  intro h
  unfold Engine.edit
  cases hr : g h.document with
  | error e => exact .refl h
  | ok d => exact .edited (hg _ d hr)

theorem change {g : Document → Except Fault (α × Document)}
    (hg : ∀ d a d', g d = .ok (a, d') → d'.annals = d.annals) : Calm (Engine.change g) := by
  intro h
  unfold Engine.change
  cases hr : g h.document with
  | error e => exact .refl h
  | ok r => exact .edited (hg _ r.1 r.2 hr)

theorem create (c : Content) : Calm (Engine.create (·.create c)) :=
  fun _ => .edited (Document.annals_create c)

theorem log {entries : List Entry} (h : ∀ e ∈ entries, e.isQuiet)
    (hlinks : entries.filterMap Entry.link? = []) : Calm (Engine.log entries) :=
  fun _ => ⟨⟨entries, rfl, h, hlinks⟩, rfl⟩

theorem insert (parent id : NodeId) (anchor : Option NodeId)
    : Calm (Engine.insert parent id anchor) :=
  .edit fun _ _ h => Document.annals_insertBefore h

theorem discard (id : NodeId) : Calm (Engine.discard id) :=
  .edit fun _ _ h => Document.annals_discard h

theorem warn (w : Warning) : Calm (Engine.warn w) :=
  .log (by simp [Entry.isQuiet]) rfl

theorem forM {γ : Type} {xs : List γ} {g : γ → Engine PUnit} (hg : ∀ x ∈ xs, Calm (g x))
    : Calm (xs.forM g) := by
  induction xs with
  | nil => exact pure _
  | cons x xs ih =>
    exact (hg x List.mem_cons_self).bind fun _ => ih fun x hx => hg x (List.mem_cons_of_mem _ hx)

theorem foldlM {γ : Type} {g : α → γ → Engine α} (hg : ∀ a x, Calm (g a x)) (xs : List γ) (a : α)
    : Calm (xs.foldlM g a) := by
  induction xs generalizing a with
  | nil => exact pure _
  | cons x xs ih =>
    rw [List.foldlM_cons]
    exact (hg a x).bind fun a => ih a

end Calm

/-- These entries were added from one host to the other, and they tell just what came and went. -/
structure Accounts (proper : Prop) (h h' : Host) (es : List Entry) (x : Exchange) : Prop where
  trace : h'.trace = h.trace ++ es
  tells : proper → Tells es x.2
  links : (es.filterMap Entry.link? : Multiset Link) = x.1.2
  arrivals : (h'.document.annals.arrivals : Multiset Component) = h.document.annals.arrivals + x.1.1

namespace Accounts

variable {proper : Prop} {h h' h'' : Host} {es fs : List Entry} {x x' : Exchange}

theorem refl (h : Host) : Accounts proper h h [] 0 :=
  ⟨(List.append_nil _).symm, fun _ => .quiet (by simp), rfl, (add_zero _).symm⟩

theorem trans (first : Accounts proper h h' es x) (second : Accounts proper h' h'' fs x')
    : Accounts proper h h'' (es ++ fs) (x + x') where
  trace := by rw [second.trace, first.trace, List.append_assoc]
  tells hp := (first.tells hp).append (second.tells hp)
  links := by
    rw [List.filterMap_append, ← Multiset.coe_add, first.links, second.links, Prod.fst_add,
      Prod.snd_add]
  arrivals := by rw [second.arrivals, first.arrivals, Prod.fst_add, Prod.fst_add, add_assoc]

theorem of_calmly (hc : Calmly h h') : ∃ es, Accounts proper h h' es 0 := by
  obtain ⟨⟨es, htrace, hes, hlinks⟩, hannals⟩ := hc
  exact ⟨es, htrace, fun _ => .quiet hes, by rw [hlinks]; rfl, by rw [hannals]; exact (add_zero _).symm⟩

end Accounts

/--
The action ends in a result for which `Q` holds, together with what came and went, or else it ends in a
fault, after which all clearings were in order. If it is `proper`, there is no fault, and the trace tells
just what went.
-/
def Performs (proper : Prop) (action : Engine α) (h : Host) (Q : α → Exchange → Document → Prop)
    : Prop :=
  match action h with
  | .ok a h' => ∃ es x, Accounts proper h h' es x ∧ Q a x h'.document
  | .error _ h' => ¬ proper ∧ h'.document.Orderly

/-- The action does so, and nothing comes or goes. -/
abbrev Settles (proper : Prop) (x : Engine α) (h : Host) (Q : α → Document → Prop) : Prop :=
  Performs proper x h fun a change d => change = 0 ∧ Q a d

namespace Performs

variable {proper : Prop} {action : Engine α} {f : α → Engine β} {h h₁ : Host}
  {P : α → Exchange → Document → Prop} {Q : β → Exchange → Document → Prop}

theorem pure {a : α} (hP : P a 0 h.document) : Performs proper (Pure.pure a) h P :=
  ⟨[], 0, .refl h, hP⟩

theorem of_ok {a : α} {es : List Entry} {x : Exchange} (ha : action h = .ok a h₁)
    (haccounts : Accounts proper h h₁ es x) (hP : P a x h₁.document) : Performs proper action h P := by
  unfold Performs
  rw [ha]
  exact ⟨es, x, haccounts, hP⟩

theorem exists_ok (hx : Performs proper action h P) (hp : proper)
    : ∃ a h' es x, action h = .ok a h' ∧ Accounts proper h h' es x ∧ P a x h'.document := by
  unfold Performs at hx
  split at hx
  . next a h' hr =>
    obtain ⟨es, x, haccounts, ha⟩ := hx
    exact ⟨a, h', es, x, hr, haccounts, ha⟩
  . exact absurd hp hx.1

theorem mono {P' : α → Exchange → Document → Prop} (hx : Performs proper action h P)
    (hP : ∀ a x d, P a x d → P' a x d) : Performs proper action h P' := by
  unfold Performs at hx ⊢
  cases hr : action h with
  | error e h' => rwa [hr] at hx
  | ok a h' =>
    rw [hr] at hx
    obtain ⟨es, x, haccounts, ha⟩ := hx
    exact ⟨es, x, haccounts, hP _ _ _ ha⟩

theorem bind (hx : Performs proper action h P)
    (hf : ∀ a x h', P a x h'.document →
      Performs proper (f a) h' fun b x' d => Q b (x + x') d)
    : Performs proper (action >>= f) h Q := by
  unfold Performs at hx ⊢
  simp only [Bind.bind, EStateM.bind]
  cases hr : action h with
  | error e h' => rwa [hr] at hx
  | ok a h' =>
    rw [hr] at hx
    obtain ⟨es, x, haccounts, ha⟩ := hx
    have hf := hf a x h' ha
    unfold Performs at hf
    revert hf
    dsimp only
    cases f a h' with
    | error e h'' => exact fun hf => hf
    | ok b h'' =>
      rintro ⟨fs, x', haccounts', hb⟩
      exact ⟨es ++ fs, x + x', haccounts.trans haccounts', hb⟩

theorem settled {R : α → Document → Prop} (hx : Settles proper action h R)
    (hf : ∀ a h', R a h'.document → Performs proper (f a) h' Q)
    : Performs proper (action >>= f) h Q := by
  refine bind hx ?_
  rintro a _ h' ⟨rfl, ha⟩
  simpa only [zero_add] using hf a h' ha

theorem finish {g : α → β} (hx : Performs proper action h P)
    (hg : ∀ a x d, P a x d → Q (g a) x d) : Performs proper (do return g (← action)) h Q := by
  refine bind hx ?_
  intro a x h' ha
  refine pure ?_
  rw [add_zero]
  exact hg a x _ ha

theorem bind_ok {a : α} (hx : action h = .ok a h₁) (htrace : h₁.trace = h.trace)
    (hcame : h₁.document.annals.arrivals = h.document.annals.arrivals)
    (hf : Performs proper (f a) h₁ Q) : Performs proper (action >>= f) h Q := by
  unfold Performs at hf ⊢
  rw [bind_run hx]
  split at hf
  . next b h₂ hb =>
    obtain ⟨es, x, haccounts, hQ⟩ := hf
    exact ⟨es, x, ⟨htrace ▸ haccounts.trace, haccounts.tells, haccounts.links,
      hcame ▸ haccounts.arrivals⟩, hQ⟩
  . exact hf

theorem read_ok {g : Document → Except Fault α} {a : α} (hg : g h.document = .ok a)
    (hf : Performs proper (f a) h Q) : Performs proper (Engine.read g >>= f) h Q :=
  bind_ok (read_eq_ok hg) rfl rfl hf

/-- Where an action surely gives a result and is calm, all that is said of it holds. -/
theorem of_yields {R : α → Document → Prop} (hx : action.Yields h fun a h' => R a h'.document)
    (hcalm : Calm action) (hd : h.document.Orderly)
    : Settles proper action h fun a d => d.Orderly ∧ R a d := by
  obtain ⟨a, h', ha, hR⟩ := hx
  have hcalmly := hcalm.ok ha
  obtain ⟨es, haccounts⟩ := Accounts.of_calmly hcalmly
  exact of_ok ha haccounts ⟨rfl, hd.of_annals_eq hcalmly.annals, hR⟩

theorem throw {e : Fault} (hnot : ¬ proper) (hd : h.document.Orderly)
    : Performs proper (MonadExcept.throw e) h P :=
  ⟨hnot, hd⟩

theorem edit_error {g : Document → Except Fault Document} {f : Unit → Engine β} {e : Fault}
    (hg : g h.document = .error e) (hnot : ¬ proper) (hd : h.document.Orderly)
    : Performs proper (Engine.edit g >>= f) h Q := by
  unfold Performs
  simp only [Engine.edit, Bind.bind, EStateM.bind, hg]
  exact ⟨hnot, hd⟩

theorem edit {g : Document → Except Fault Document} {R : Unit → Document → Prop}
    (hcalm : Calm (Engine.edit g))
    (hg : (∃ d, g h.document = .ok d ∧ R () d) ∨ ((∃ e, g h.document = .error e) ∧ ¬ proper))
    (hd : h.document.Orderly) : Settles proper (Engine.edit g) h R := by
  rcases hg with ⟨d, hg, hR⟩ | ⟨⟨e, hg⟩, hnot⟩
  . refine (of_yields (R := R) (Yields.edit ⟨d, hg, hR⟩) hcalm hd).mono ?_
    exact fun _ _ _ h => h.imp_right And.right
  . have := edit_error (f := Pure.pure) (Q := fun a change d => change = 0 ∧ R a d) hg hnot hd
    rwa [bind_pure] at this

theorem log {entries : List Entry} {R : Unit → Document → Prop} (hes : ∀ e ∈ entries, e.isQuiet)
    (hlinks : entries.filterMap Entry.link? = []) (hR : R () h.document)
    : Settles proper (Engine.log entries) h R :=
  of_ok rfl ⟨rfl, fun _ => .quiet hes, by rw [hlinks]; rfl, (add_zero _).symm⟩ ⟨rfl, hR⟩

theorem arrival (c : Component) {R : Unit → Document → Prop} (hR : R () (h.document.recordArrival c))
    : Performs proper (Engine.edit fun d => .ok (d.recordArrival c)) h
        fun a x d => x = (({c}, 0), 0) ∧ R a d :=
  ⟨[], (({c}, 0), 0), ⟨(List.append_nil _).symm, fun _ => .quiet (by simp), rfl,
    (Multiset.coe_add _ [c]).symm⟩, rfl, hR⟩

end Performs

end Engine
end VirtualDom
