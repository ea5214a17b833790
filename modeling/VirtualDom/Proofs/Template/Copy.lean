import VirtualDom.Proofs.Template.Compile
import VirtualDom.Proofs.Template.Fill

/-!
This module contains what stays true of a copy of a template, whatever its nodes hold later on and
whichever children come and go.
-/

namespace VirtualDom.Template

/-- The copy `S` of a template, which is under `root`, and the references of the wiring to it. -/
structure Copied (t : Template) (root : NodeId) (references : List NodeId) (S : Marked) : Prop where
  sketch : S.sketch = t.sketch
  tidy : Tidy S.sketch
  nodup : S.nodes.ids.Nodup
  rootIds : ∀ held guests, (S.filled held guests).rootIds = [root]
  bounds : t.wiring.locations.map (·.resolve references) = S.bounds.map some
  openings : ∀ p, t.wiring.slots.map (·.resolve references) = (S.openings p).map some

theorem Compiled.copied {t : Template} {source : String} {normalize : Bool}
    (ht : t.Compiled source normalize) {S : Marked} (hS : S.sketch = t.sketch)
    (hnd : S.nodes.ids.Nodup) {h : Host} (hwalks : Walks h.document S.nodes)
    : ∃ root references, S.nodes.rootIds = [root] ∧ t.wiring.locate root h = .ok references h ∧
        t.Copied root references S := by
  obtain ⟨item, children, -, hdrafts, -⟩ := ht.drafts
  obtain ⟨root, c, marks, C, rfl⟩ := ht.exists_root hS
  have hroot : (Marked.nodes (.cons ((root, c), marks) C .nil)).rootIds = [root] := rfl
  obtain ⟨references, hlocate, -, hserves⟩ := ht.locate_eq_ok hS hroot hwalks
  have hmarks := ht.not_child_before_root hS
  refine ⟨root, references, hroot, hlocate, hS, hS ▸ hdrafts.tidy, hnd, ?_, hserves.bounds, ?_⟩
  . intro held guests
    rw [Marked.filled_cons, Mark.hosted_of_not_mem hmarks]
    rfl
  . intro p
    rw [hserves.openings]
    simp only [Marked.openings]
    congr 3
    apply List.filterMap_congr
    intro m hm
    cases m with
    | child i sole =>
      cases sole with
      | false => exact absurd hm (hmarks i)
      | true => rfl
    | _ => rfl

theorem Location.resolve_eq_some {references : List NodeId} {l : Location} {b : Bound}
    (h : l.resolve references = some b)
    : references[l.reference]? = some b.node ∧ l.dataIndex = b.dataIndex ∧ l.binding = b.binding := by
  obtain ⟨x, hx, rfl⟩ := Option.map_eq_some_iff.1 h
  exact ⟨hx, rfl, rfl⟩

theorem ChildSlot.resolve_eq_some {references : List NodeId} {s : ChildSlot} {o : Opening}
    (h : s.resolve references = some o)
    : s.index = o.index ∧ s.sole = o.sole ∧ references[s.parent]? = some o.parent ∧
        (s.anchor = none ∧ o.anchor = none ∨
          ∃ i x, s.anchor = some i ∧ references[i]? = some x ∧ o.anchor = some x) := by
  obtain ⟨parent, hp, h⟩ := Option.bind_eq_some_iff.1 h
  split at h
  . next ha =>
    cases h
    exact ⟨rfl, rfl, hp, .inl ⟨ha, rfl⟩⟩
  . next i ha =>
    obtain ⟨x, hx, h⟩ := Option.bind_eq_some_iff.1 h
    cases h
    exact ⟨rfl, rfl, hp, .inr ⟨i, x, ha, hx, rfl⟩⟩

namespace Copied

variable {t : Template} {root p : NodeId} {references : List NodeId} {S : Marked}

theorem mem_labels (h : t.Copied root references S) {l : (NodeId × Content) × List Mark}
    (hl : l ∈ S.labels)
    : (l.1.2, l.2) ∈ t.sketch.labels := by
  rw [← h.sketch, Marked.sketch, Forest.labels_map]
  exact List.mem_map_of_mem hl

theorem exists_slot (h : t.Copied root references S) {o : Opening} (ho : o ∈ S.openings p)
    : ∃ s ∈ t.wiring.slots, s.index = o.index := by
  have : some o ∈ t.wiring.slots.map (·.resolve references) := by
    rw [h.openings p]
    exact List.mem_map_of_mem ho
  obtain ⟨s, hs, hso⟩ := List.mem_map.1 this
  exact ⟨s, hs, (ChildSlot.resolve_eq_some hso).1⟩

theorem exists_opening (h : t.Copied root references S) {s : ChildSlot} (hs : s ∈ t.wiring.slots)
    (p : NodeId) : ∃ o ∈ S.openings p, s.index = o.index := by
  have : s.resolve references ∈ (S.openings p).map some := by
    rw [← h.openings p]
    exact List.mem_map_of_mem hs
  obtain ⟨o, ho, hso⟩ := List.mem_map.1 this
  exact ⟨o, ho, (ChildSlot.resolve_eq_some hso.symm).1⟩

theorem indices_eq (h : t.Copied root references S) (p : NodeId)
    : (S.openings p).map (·.index) = t.wiring.slots.map (·.index) := by
  have hlist : ∀ {ss : List ChildSlot} {os : List Opening},
      ss.map (·.resolve references) = os.map some → os.map (·.index) = ss.map (·.index) := by
    intro ss
    induction ss with
    | nil =>
      intro os hos
      cases os with
      | nil => rfl
      | cons _ _ => cases hos
    | cons s ss ih =>
      intro os hos
      cases os with
      | nil => cases hos
      | cons o os =>
        simp only [List.map_cons, List.cons.injEq] at hos ⊢
        exact ⟨(ChildSlot.resolve_eq_some hos.1).1.symm, ih hos.2⟩
  exact hlist (h.openings p)

end Copied
end VirtualDom.Template
