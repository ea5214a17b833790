import VirtualDom.Proofs.Ownership.Departure

/-!
This module contains what it is for a trace to tell that views go: to their components, before any of their
nodes goes, and to callbacks.
-/

namespace VirtualDom

namespace Component

def farewell (c : Component) (d : Document) : Entry :=
  .component c.name (.beforeRemove (some c.element) d)

def removal (c : Component) : Entry :=
  .component c.name (.remove (some c.element))

end Component

namespace Entry

/-- The entry is no part of the end of a component, nor of a callback. -/
def isQuiet : Entry → Bool
  | .component _ (.beforeRemove _ _) | .component _ (.remove _) | .refCall _ none => false
  | _ => true

/-- The component that an entry tells that it is about to go, by its name and element. -/
def farewell? : Entry → Option (String × Option NodeId)
  | .component name (.beforeRemove element _) => some (name, element)
  | _ => none

def link? : Entry → Option Link
  | .refCall label (some node) => some (label, node)
  | _ => none

def unlink? : Entry → Option String
  | .refCall label none => some label
  | _ => none

theorem farewell?_of_isQuiet {e : Entry} (h : e.isQuiet) : e.farewell? = none := by
  unfold farewell?
  split
  . cases h
  . rfl

theorem unlink?_of_isQuiet {e : Entry} (h : e.isQuiet) : e.unlink? = none := by
  unfold unlink?
  split
  . cases h
  . rfl

end Entry

/--
After the farewells, an entry tells no component but these that it is removed, and callbacks at most that
their elements are gone.
-/
def Parting (cs : List Component) (e : Entry) : Prop :=
  e.isQuiet ∧ e.link? = none ∨ (∃ label, e = .refCall label none) ∨ ∃ c ∈ cs, e = c.removal

namespace Parting

variable {cs cs' : List Component} {e : Entry}

theorem mono (h : Parting cs e) (hsub : ∀ c ∈ cs, c ∈ cs') : Parting cs' e :=
  h.imp_right fun h => h.imp_right fun ⟨c, hc, he⟩ => ⟨c, hsub c hc, he⟩

theorem farewell?_eq (h : Parting cs e) : e.farewell? = none := by
  obtain ⟨hquiet, -⟩ | ⟨label, rfl⟩ | ⟨c, -, rfl⟩ := h
  . exact Entry.farewell?_of_isQuiet hquiet
  . rfl
  . rfl

theorem link?_eq (h : Parting cs e) : e.link? = none := by
  obtain ⟨-, hlink⟩ | ⟨label, rfl⟩ | ⟨c, -, rfl⟩ := h
  . exact hlink
  . rfl
  . rfl

end Parting

def labelsOf (lodgers : List Lodger) : Multiset String :=
  (lodgers.flatMap (·.links)).map Prod.fst

theorem labelsOf_append (ls ls' : List Lodger) : labelsOf (ls ++ ls') = labelsOf ls + labelsOf ls' := by
  simp only [labelsOf, List.flatMap_append, List.map_append, ← Multiset.coe_add]

/-- Of the callbacks of these views, just those that are not buried are told that their elements go. -/
def Unlinks (es : List Entry) (buried lodgers : List Lodger) : Prop :=
  (es.filterMap Entry.unlink? : Multiset String) + labelsOf buried = labelsOf lodgers

namespace Unlinks

theorem none (lodgers : List Lodger) : Unlinks [] lodgers lodgers :=
  zero_add _

theorem append {es es' : List Entry} {bs bs' ls ls' : List Lodger} (h : Unlinks es bs ls)
    (h' : Unlinks es' bs' ls') : Unlinks (es ++ es') (bs ++ bs') (ls ++ ls') := by
  unfold Unlinks at *
  rw [List.filterMap_append, ← Multiset.coe_add, labelsOf_append, labelsOf_append, add_add_add_comm, h, h']

end Unlinks

/--
The entries tell that these views go, each after the other: first all components of a view are told, at
one moment, at which every view in it has all of its nodes where they belong. Only then are elements
removed, and callbacks are told, those of all blocks that are freed by themselves.
-/
inductive Tells : List Entry → Multiset Lodger → Prop
  | quiet {es : List Entry} (h : ∀ e ∈ es, e.isQuiet) : Tells es 0
  | gone {view : View} {p : NodeId} {d : Document} {es : List Entry}
      (intact : ∀ l ∈ view.lodgers p, ∀ n ∈ l.view.nodes, d.parent n = .ok (some l.parent))
      (after : ∀ e ∈ es, Parting (view.components p) e)
      (released : Unlinks es (view.buried p) (view.lodgers p)) :
      Tells ((view.components p).map (·.farewell d) ++ es) {⟨p, view⟩}
  | append {es es' : List Entry} {gone gone' : Multiset Lodger} (first : Tells es gone)
      (second : Tells es' gone') : Tells (es ++ es') (gone + gone')

namespace Tells

variable {es : List Entry} {gone : Multiset Lodger}

theorem isQuiet_of_zero (h : Tells es 0) : ∀ e ∈ es, e.isQuiet := by
  generalize hgone : (0 : Multiset Lodger) = gone at h
  induction h with
  | quiet h => exact h
  | gone => exact absurd hgone (Multiset.singleton_ne_zero _).symm
  | append _ _ ih ih' =>
    obtain ⟨rfl, rfl⟩ :=
      (add_eq_zero_iff_of_nonneg (Multiset.zero_le _) (Multiset.zero_le _)).1 hgone.symm
    exact List.forall_mem_append.2 ⟨ih rfl, ih' rfl⟩

/-- Just the components of these views are told, each of them once. -/
theorem filterMap_farewell? (h : Tells es gone)
    : (es.filterMap Entry.farewell? : Multiset (String × Option NodeId))
        = (holdingsGone gone).1.map fun c => (c.name, some c.element) := by
  have silent : ∀ {es : List Entry}, (∀ e ∈ es, e.farewell? = none) → es.filterMap Entry.farewell? = [] :=
    fun h => List.filterMap_eq_nil_iff.2 h
  induction h with
  | quiet h =>
    rw [silent fun e he => Entry.farewell?_of_isQuiet (h e he)]
    rfl
  | @gone view p d es intact after released =>
    have hsome : Entry.farewell? ∘ (fun c : Component => c.farewell d)
        = fun c => some (c.name, some c.element) := rfl
    rw [List.filterMap_append, silent fun e he => (after e he).farewell?_eq, List.append_nil,
      List.filterMap_map, hsome, List.filterMap_eq_map', holdingsGone_singleton]
    rfl
  | append _ _ ih ih' =>
    rw [List.filterMap_append, ← Multiset.coe_add, ih, ih', holdingsGone_add, Prod.fst_add,
      Multiset.map_add]

/-- Of the callbacks in these views, all are told but for those that are buried. -/
theorem filterMap_unlink? (h : Tells es gone)
    : (es.filterMap Entry.unlink? : Multiset String)
        + (gone.map fun l => labelsOf (l.view.buried l.parent)).sum
        = (holdingsGone gone).2.map Prod.fst := by
  induction h with
  | @quiet es h =>
    rw [List.filterMap_eq_nil_iff.2 fun e he => Entry.unlink?_of_isQuiet (h e he)]
    rfl
  | @gone view p d es intact after released =>
    have hmute : ((view.components p).map (·.farewell d)).filterMap Entry.unlink? = [] := by
      rw [List.filterMap_map]
      exact List.filterMap_eq_nil_iff.2 fun _ _ => rfl
    rw [List.filterMap_append, hmute, List.nil_append, Multiset.map_singleton, Multiset.sum_singleton,
      holdingsGone_singleton]
    exact released
  | append _ _ ih ih' =>
    rw [List.filterMap_append, ← Multiset.coe_add, Multiset.map_add, Multiset.sum_add,
      holdingsGone_add, Prod.snd_add, Multiset.map_add, ← ih, ← ih', add_add_add_comm]

end Tells
end VirtualDom
