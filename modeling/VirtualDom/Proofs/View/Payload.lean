import VirtualDom.Proofs.View.Facet
import VirtualDom.Proofs.View.FirstNode

/-!
This module contains the payloads that the elements of blocks hold for events: where only one place of a
template provides it, that of the last data, whatever the block was patched with before.
-/

namespace VirtualDom

open Template (Binding Mark Marked Drafts)

/-- The element holds a payload for the event, one that no comparison tells from `value`. -/
def Element.Delivers (e : Element) (event : String) (value : Value) : Prop :=
  ∃ payload, e.handlers.get? event = some payload ∧ payload.Like value

namespace Template

namespace Binding

variable {e : Element}

theorem handlers_inscribe (value : Value) (event : String)
    : ∀ b : Binding, ∃ e', b.inscribe value (.element e) = .element e' ∧
        e'.handlers.get? event = if b = .handler event then some value else e.handlers.get? event
  | .text | .ref => ⟨e, rfl, rfl⟩
  | .property name => ⟨e.withProperty name value, rfl, rfl⟩
  | .classes => ⟨e.withClasses value.classTokens, rfl,
      Element.facet_withClasses (f := .handler event) fun t => by simp⟩
  | .attribute name => ⟨e.withAttribute name value.attribute?, rfl, rfl⟩
  | .bag => ⟨_, rfl, congrArg (Dict.get? · event) (Element.fields_withAttributes _).2⟩
  | .handler name => ⟨e.withHandler name value, rfl, by simp [Element.withHandler, Dict.get?_put]⟩

theorem handlers_revise (value old : Value) (event : String)
    : ∀ b : Binding, ∃ e', b.revise value old (.element e) = .element e' ∧
        e'.handlers.get? event = if b = .handler event then some value else e.handlers.get? event
  | .classes => ⟨_, rfl,
      (Element.facet_withClasses (f := .handler event) fun t => by simp).trans
        (Element.facet_withoutClasses (f := .handler event) fun t => by simp)⟩
  | .bag => ⟨_, rfl, congrArg (Dict.get? · event)
      ((Element.fields_withAttributes _).2.trans (Element.fields_withoutAttributes _).2)⟩
  | .text => handlers_inscribe value event .text
  | .ref => handlers_inscribe value event .ref
  | .property name => handlers_inscribe value event (.property name)
  | .attribute name => handlers_inscribe value event (.attribute name)
  | .handler name => handlers_inscribe value event (.handler name)

end Binding

section Loop

variable {γ : Type} {xs : List γ} {f : γ → Content → Content} {P : Element → Prop}
  (hkeep : ∀ x ∈ xs, ∀ e, ∃ e', f x (.element e) = .element e' ∧ (P e → P e'))
include hkeep

theorem exists_foldl (e : Element)
    : ∃ e', xs.foldl (fun c x => f x c) (.element e) = .element e' ∧ (P e → P e') := by
  induction xs generalizing e with
  | nil => exact ⟨e, rfl, fun h => h⟩
  | cons x rest ih =>
    obtain ⟨e₁, hx, hstep⟩ := hkeep x List.mem_cons_self e
    obtain ⟨e₂, hrest, hsteps⟩ := ih (fun y hy => hkeep y (List.mem_cons_of_mem _ hy)) e₁
    exact ⟨e₂, by rw [List.foldl_cons, hx, hrest], fun h => hsteps (hstep h)⟩

theorem exists_foldl_of_mem {x : γ} (hx : x ∈ xs)
    (hwrite : ∀ e, ∃ e', f x (.element e) = .element e' ∧ P e') (e : Element)
    : ∃ e', xs.foldl (fun c x => f x c) (.element e) = .element e' ∧ P e' := by
  obtain ⟨A, B, rfl⟩ := List.append_of_mem hx
  obtain ⟨e₁, hA, -⟩ := exists_foldl (fun y hy => hkeep y (List.mem_append_left _ hy)) e
  obtain ⟨e₂, hwritten, hP⟩ := hwrite e₁
  have hrest := fun y (hy : y ∈ B) => hkeep y (List.mem_append_right A (List.mem_cons_of_mem x hy))
  obtain ⟨e₃, hB, hkept⟩ := exists_foldl hrest e₂
  exact ⟨e₃, by rw [List.foldl_append, hA, List.foldl_cons, hwritten, hB], hkept hP⟩

end Loop

/-- Where only one place provides the payload for an event, the element holds that of the data. -/
def Bears (data : Data) (n : Content × List Mark) (c : Content) : Prop :=
  ∀ event index, (index, .handler event) ∈ Mark.sources n.2 →
    (∀ i, (i, .handler event) ∈ Mark.sources n.2 → i = index) →
      ∃ e, c = .element e ∧ e.Delivers event (data.at index)

section Bears

variable {data old : Data} {n : Content × List Mark} {c : Content} {m : Markup} {s : Sketch}

theorem Mark.eq_handler_of_source? {m : Mark} {index : Nat} {event : String}
    (h : m.source? = some (index, .handler event)) : m = .handler index event := by
  match m with
  | .attribute _ name tag =>
    rw [source?, Binding.ofAttribute] at h
    split at h
    . cases h
    . split at h <;> cases h
  | .handler _ _ =>
    cases h
    rfl

theorem Drafts.exists_element (h : Drafts m s) {index : Nat} {event : String} {n : Content × List Mark}
    (hn : n ∈ s.labels) (hm : .handler index event ∈ n.2) : ∃ e, n.1 = .element e := by
  induction h with
  | nil => cases hn
  | textMarker _ _ ih | childMarker _ _ ih | text _ ih | comment _ ih =>
    rcases List.mem_cons.1 hn with rfl | hn
    . simp at hm
    . exact ih hn
  | soleChild marker sole rest ih =>
    rcases List.mem_cons.1 hn with rfl | hn
    . exact ⟨_, rfl⟩
    . exact ih hn
  | element marker sole inside rest ihc ih =>
    rcases List.mem_cons.1 hn with rfl | hn
    . exact ⟨_, rfl⟩
    . rcases List.mem_append.1 hn with hn | hn
      . exact ihc hn
      . exact ih hn

theorem delivers_of_handlers {e e' : Element} {event : String} {index i : Nat} {b : Binding}
    (hindex : b = .handler event → i = index)
    (h : e'.handlers.get? event = if b = .handler event then some (data.at i) else e.handlers.get? event)
    (he : e.Delivers event (data.at index)) : e'.Delivers event (data.at index) := by
  split at h
  . next hb => exact ⟨_, h, hindex hb ▸ .refl _⟩
  . obtain ⟨payload, hpayload, hlike⟩ := he
    exact ⟨payload, h.trans hpayload, hlike⟩

theorem bears_inscribed {t : Template} {source : String} {normalize : Bool}
    (compiled : t.Compiled source normalize) (hn : n ∈ t.sketch.labels)
    : Bears data n (inscribed data n.2 n.1) := by
  intro event index hs hsole
  obtain ⟨item, children, -, hdrafts, -⟩ := compiled.drafts
  obtain ⟨m, hm, hsource⟩ := List.mem_filterMap.1 hs
  obtain ⟨e, he⟩ := hdrafts.exists_element hn (Mark.eq_handler_of_source? hsource ▸ hm)
  rw [he]
  refine exists_foldl_of_mem (f := fun s c => s.2.inscribe (data.at s.1) c) ?_ hs ?_ e
  . rintro ⟨i, b⟩ hs e
    obtain ⟨e', he', hhandlers⟩ := b.handlers_inscribe (e := e) (data.at i) event
    exact ⟨e', he', delivers_of_handlers (fun hb => hsole i (hb ▸ hs)) hhandlers⟩
  . intro e
    obtain ⟨e', he', hhandlers⟩ :=
      Binding.handlers_inscribe (e := e) (data.at index) event (.handler event)
    exact ⟨e', he', _, hhandlers.trans (if_pos rfl), .refl _⟩

/-- What a place holds after its value was written, unless that is the same as before. -/
def revisedAt (data old : Data) (s : Nat × Binding) (c : Content) : Content :=
  if (old.at s.1).same (data.at s.1) then c else s.2.revise (data.at s.1) (old.at s.1) c

theorem exists_revisedAt {s : Nat × Binding} {event : String} {index : Nat}
    (hindex : s.2 = .handler event → s.1 = index) (e : Element)
    : ∃ e', revisedAt data old s (.element e) = .element e' ∧
        (e.Delivers event (data.at index) → e'.Delivers event (data.at index)) := by
  unfold revisedAt
  split
  . exact ⟨e, rfl, fun h => h⟩
  . obtain ⟨e', he', hhandlers⟩ := s.2.handlers_revise (e := e) (data.at s.1) (old.at s.1) event
    exact ⟨e', he', delivers_of_handlers hindex hhandlers⟩

theorem Bears.revised (hc : Bears old n c) : Bears data n (revised data old n.2 c) := by
  intro event index hs hsole
  obtain ⟨e, rfl, payload, hpayload, hlike⟩ := hc event index hs hsole
  have hkeep : ∀ s ∈ Mark.sources n.2, ∀ e : Element, ∃ e',
      revisedAt data old s (.element e) = .element e' ∧
        (e.Delivers event (data.at index) → e'.Delivers event (data.at index)) :=
    fun s hs => exists_revisedAt fun hhandler => hsole s.1 (hhandler ▸ hs)
  -- A value that is the same as before is not written, so that the payload is still the old one.
  by_cases hsame : (old.at index).same (data.at index)
  . obtain ⟨e', he', hdelivers⟩ := exists_foldl hkeep e
    exact ⟨e', he', hdelivers ⟨payload, hpayload, hlike.trans (.inr hsame)⟩⟩
  . refine exists_foldl_of_mem hkeep hs (fun e => ?_) e
    obtain ⟨e', he', hhandlers⟩ :=
      Binding.handlers_revise (e := e) (data.at index) (old.at index) event (.handler event)
    exact ⟨e', (if_neg hsame).trans he', _, hhandlers.trans (if_pos rfl), .refl _⟩

end Bears

def payloads (alloc : Allocations) : Upkeep where
  alloc
  Keeps := Bears
  inscribed _ compiled _ hn := bears_inscribed compiled hn
  revised := Bears.revised
  congr hat hc event index hs hsole := hat index ▸ hc event index hs hsole

/-- The values that the template binds to the event on `node`, of which there are some, are at one index. -/
structure Provides (t : Template) (references : List NodeId) (node : NodeId) (event : String)
    (index : Nat) : Prop where
  exists_place : ∃ l ∈ t.wiring.locations,
    references[l.reference]? = some node ∧ l.binding = .handler event
  index_eq : ∀ l ∈ t.wiring.locations, references[l.reference]? = some node →
    l.binding = .handler event → l.dataIndex = index

theorem Copied.exists_node {t : Template} {root : NodeId} {references : List NodeId} {S : Marked}
    (copied : t.Copied root references S) {l : Location} (hl : l ∈ t.wiring.locations)
    : ∃ node, references[l.reference]? = some node := by
  have hmem := List.mem_map_of_mem (f := (·.resolve references)) hl
  rw [copied.bounds] at hmem
  obtain ⟨b, -, hb⟩ := List.mem_map.1 hmem
  exact ⟨b.node, (Location.resolve_eq_some hb.symm).1⟩

section Places

variable {t : Template} {root node : NodeId} {references : List NodeId} {S : Marked} {event : String}
  {index : Nat}

theorem Marked.mem_bounds_of_source {l : (NodeId × Content) × List Mark} (hl : l ∈ S.labels)
    {s : Nat × Binding} (hs : s ∈ Mark.sources l.2) : ⟨s.1, l.1.1, s.2⟩ ∈ S.bounds := by
  induction S with
  | nil => cases hl
  | cons label children siblings ihc ihs =>
    obtain ⟨⟨id, c⟩, marks⟩ := label
    rw [bounds, List.append_assoc, List.mem_append, List.mem_append]
    rw [Forest.labels, List.cons_append, List.mem_cons, List.mem_append] at hl
    rcases hl with rfl | hl | hl
    . rw [Mark.filterMap_bound?]
      exact .inl (List.mem_map_of_mem hs)
    . exact .inr (.inl (ihc hl))
    . exact .inr (.inr (ihs hl))

theorem Provides.exists_label (h : t.Provides references node event index)
    (copied : t.Copied root references S)
    : ∃ l ∈ S.labels, l.1.1 = node ∧ (index, .handler event) ∈ Mark.sources l.2 ∧
        ∀ i, (i, .handler event) ∈ Mark.sources l.2 → i = index := by
  obtain ⟨location, hlocation, hnode, hbinding⟩ := h.exists_place
  obtain rfl := h.index_eq location hlocation hnode hbinding
  have hresolve : location.resolve references = some ⟨location.dataIndex, node, .handler event⟩ := by
    rw [Location.resolve, hnode, hbinding]
    rfl
  have hbound : some ⟨location.dataIndex, node, .handler event⟩ ∈ S.bounds.map some :=
    copied.bounds ▸ hresolve ▸ List.mem_map_of_mem hlocation
  rw [List.mem_map_of_injective (Option.some_injective _)] at hbound
  obtain ⟨l, hl, rfl, m, hm, hmark⟩ := Marked.mem_bounds hbound
  refine ⟨l, hl, rfl, ?_, fun i hi => ?_⟩
  . rw [Mark.bound?_eq_map] at hmark
    obtain ⟨⟨i, b⟩, hs, heq⟩ := Option.map_eq_some_iff.1 hmark
    cases heq
    exact List.mem_filterMap.2 ⟨m, hm, hs⟩
  . have hmem := List.mem_map_of_mem (f := some) (Marked.mem_bounds_of_source hl hi)
    rw [← copied.bounds] at hmem
    obtain ⟨k, hk, hkb⟩ := List.mem_map.1 hmem
    obtain ⟨hreference, hindex, hhandler⟩ := Location.resolve_eq_some hkb
    exact hindex.symm.trans (h.index_eq k hk hreference hhandler)

end Places
end Template

/--
Each place that the template binds has a node, and those with one place for an event have the value of the
data there as their payload, or one that no comparison tells from it.
-/
structure Anchorage.Delivers (a : Anchorage) (t : Template) (data : Data) (d : Document) : Prop where
  exists_node : ∀ l ∈ t.wiring.locations, ∃ node, a.references[l.reference]? = some node
  payload : ∀ node event index, t.Provides a.references node event index →
    ∃ payload, d.handler? node event = .ok (some payload) ∧ payload.Like (data.at index) ∧
      payload.isNull = (data.at index).isNull

namespace View

open Document (Place Shows)
open Engine

variable {alloc : Allocations} {t : Template} {data : Data} {children : List (Option View)}
  {mounted : Option Anchorage} {pl : Place} {F : Forest (NodeId × Content)} {d : Document}

theorem Tends.delivers
    (hv : Tends (Template.payloads alloc) (.block t data children mounted) pl.node F) (hd : d.Shows pl F)
    : ∃ a, mounted = some a ∧ a.Delivers t data d := by
  generalize hp : pl.node = p at hv
  cases hv with
  | @block _ _ _ root _ references S held guests copied _ _ _ kept =>
    refine ⟨⟨root, references⟩, rfl, fun l hl => copied.exists_node hl, ?_⟩
    intro node event index hprovides
    obtain ⟨l, hl, rfl, hsource, hsole⟩ := hprovides.exists_label copied
    obtain ⟨e, he, payload, hpayload, hlike⟩ := kept l hl event index hsource hsole
    obtain ⟨above, ks, M, hM⟩ :=
      Marked.exists_holds held guests pl copied.nodup (Marked.mem_ids_of_mem_labels hl)
    have hholds := (hM d (held l.1.1)).1 (by rwa [Function.update_eq_self])
    refine ⟨payload, ?_, hlike, hlike.isNull_eq⟩
    unfold Document.handler? Document.element?
    rw [hholds.content, he]
    exact congrArg Except.ok hpayload

variable {h : Host} {parent : NodeId} {above : Option NodeId} {content : Content}
  {before after : List NodeId} {first : View} {later : List View}

/--
After any run, the mounted view stands for the last one, and the elements of each block in it hold the
payloads of its data.
-/
theorem run_payloads (hwf : h.document.WellFormed)
    (hparent : h.document.standing? parent = some ⟨above, before ++ after, content⟩)
    (hbuilt : ∀ w ∈ first :: later, Built alloc w) (hchain : (first :: later).IsChain Compatible)
    : ∃ v h', run first later parent after.head? h = .ok v h' ∧ h'.document.WellFormed ∧
        Alike v (later.getLastD first) ∧
        ∀ t data children mounted, Part (.block t data children mounted) v →
          ∃ a, mounted = some a ∧ a.Delivers t data h'.document := by
  obtain ⟨M, hd⟩ := hwf.exists_place hparent
  have hserves : ∀ w ∈ first :: later,
      Incoming.Serves True (Template.payloads alloc) ⟨w, w.patchAs⟩ :=
    fun w hw => Built.serves_kept (Template.payloads alloc) True (hbuilt w hw)
  obtain ⟨v, h', hrun, F, htends, halike, -, hd'⟩ := Incoming.Serves.run_yields hserves hchain hd
  refine ⟨v, h', hrun, hd'.wellFormed, halike, ?_⟩
  intro t data children mounted hpart
  obtain ⟨pl, G, hG, hd, -⟩ := Tends.part_whole hpart htends hd'
  exact hG.delivers hd

end View
end VirtualDom
