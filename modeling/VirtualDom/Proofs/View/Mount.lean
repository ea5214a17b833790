import VirtualDom.Proofs.Document.Tally
import VirtualDom.Proofs.View.Raw
import VirtualDom.Proofs.View.Stands
import VirtualDom.Proofs.View.Wiring

/-!
This module contains the correctness of mounting: a view that is put into an empty place has all that
is there afterwards.
-/

namespace VirtualDom.View

open Engine
open Document (Place Shows Standing)
open Template (Marked Opening ChildSlot)

variable {alloc : Allocations} {lore : Lore} {care : Upkeep} {pl : Place} {h : Host}

def Builds (x : Engine (List NodeId)) (T : Forest Shape) : Prop :=
  ∀ (h : Host) (M : Multiset (NodeId × Standing)), h.document.Holds M → x.Yields h fun ids h' =>
    ∃ L : Forest (NodeId × Content), ids = L.rootIds ∧ L.map (·.2.shape) = T ∧
      h'.document.Holds (L.census none + M)

section Markup

theorem Makes.builds {x : Engine (List NodeId)} {T : Forest Content} (hx : Makes x T)
    : Builds x (T.map Content.shape) := by
  intro h M hd
  refine (hx h M hd).mono ?_
  rintro _ h' ⟨L, rfl, rfl, hd⟩
  exact ⟨L, rfl, (Forest.map_map _ _ L).symm, hd⟩

theorem rawNodes_builds (s : String) : Builds (rawNodes s) (rawShapes s) := by
  rw [← map_rawContents]
  exact (rawNodes_makes s).builds

end Markup

/-- The view can be mounted at every empty place. -/
def Mounts (lore : Lore) (w : View) : Prop :=
  ∀ (sole : Bool) (pl : Place) (h : Host), h.document.Shows pl .nil →
    (w.mountAs sole pl.node pl.after.head?).Yields h (Stands lore w sole pl)

section Lists

theorem incomingItems_eq_map (items : List (Key × View))
    : incomingItems items = items.map fun item => (item.1, ⟨item.2, patchAs item.2⟩) := by
  induction items with
  | nil => rw [incomingItems, List.map_nil]
  | cons item rest ih => rw [incomingItems, ih, List.map_cons]

theorem mountItems_eq (parent anchor : NodeId) (items : List (Key × View))
    : mountItems parent anchor items
        = Reconcile.mountAll parent (some anchor) (incomingItems items) := by
  induction items with
  | nil => rw [mountItems, incomingItems, Reconcile.mountAll]
  | cons item rest ih =>
    rw [mountItems, incomingItems, Reconcile.mountAll, ih]
    rfl

theorem mountAll_yields {new : List (Key × Incoming)}
    (hnew : ∀ e ∈ new, Mounts lore e.2.view ∧ e.2.view.isSole = false)
    (hd : h.document.Shows pl .nil)
    : (Reconcile.mountAll pl.node pl.after.head? new).Yields h fun items h' => ∃ rows : List Row,
        items = rows.map Row.item ∧
          List.Forall₂ (fun r e => r.Fits lore pl.node (e.1, e.2.view)) rows new ∧
            h'.document.Shows pl (.join (rows.map Row.forest)) := by
  induction new generalizing h pl with
  | nil =>
    rw [Reconcile.mountAll]
    exact Yields.pure ⟨[], rfl, .nil, hd⟩
  | cons e rest ih =>
    obtain ⟨key, incoming⟩ := e
    obtain ⟨hmounts, hnot⟩ := hnew _ List.mem_cons_self
    rw [Reconcile.mountAll]
    refine Yields.bind (hmounts incoming.view.isSole pl h hd) ?_
    rintro v h₁ ⟨F, hdraws, halike, hsole, hd⟩
    have hd : h₁.document.Shows (pl.narrow F .nil) .nil := Document.shows_end.2 hd
    have hrest := ih (fun e he => hnew e (List.mem_cons_of_mem _ he)) hd
    refine Yields.bind hrest ?_
    rintro _ h₂ ⟨rows, rfl, hrows, hd⟩
    refine Yields.pure ⟨⟨key, v, F⟩ :: rows, rfl, .cons ⟨rfl, halike, hdraws, ?_⟩ hrows, ?_⟩
    . rw [hnot] at hsole
      simpa using hsole
    . exact Document.shows_behind.1 hd

theorem mountChildren_yields {children : List (Option View)}
    (hchild : ∀ w, some w ∈ children → Mounts lore w ∧ w.isSole = false)
    (hd : h.document.Shows pl .nil)
    : (mountChildren pl.node pl.after.head? children).Yields h fun result h' => ∃ cells : List Cell,
        result = (cells.map Cell.child, cells.map Cell.standIn) ∧
          List.Forall₂ (Cell.Fits lore pl.node) cells children ∧
            h'.document.Shows pl (.join (cells.map Cell.forest)) := by
  induction children generalizing h pl with
  | nil =>
    rw [mountChildren]
    exact Yields.pure ⟨[], rfl, .nil, hd⟩
  | cons child rest ih =>
    -- Whatever was mounted first, the rest is mounted behind it.
    have next : ∀ {F : Forest (NodeId × Content)} {h : Host}, h.document.Shows pl F →
        (mountChildren pl.node pl.after.head? rest).Yields h fun result h' => ∃ cells : List Cell,
          result = (cells.map Cell.child, cells.map Cell.standIn) ∧
            List.Forall₂ (Cell.Fits lore pl.node) cells rest ∧
              h'.document.Shows pl (F ++ .join (cells.map Cell.forest)) := by
      intro F h hd
      have hd : h.document.Shows (pl.narrow F .nil) .nil := Document.shows_end.2 hd
      refine (ih (fun w hw => hchild w (List.mem_cons_of_mem _ hw)) hd).mono ?_
      rintro _ h' ⟨cells, rfl, hcells, hd⟩
      exact ⟨cells, rfl, hcells, Document.shows_behind.1 hd⟩
    cases child with
    | none =>
      rw [mountChildren]
      refine Yields.bind (mountStandIn_yields (A := .nil) (B := .nil) hd) ?_
      intro id h₁ hd
      refine Yields.bind (next hd) ?_
      rintro _ h₂ ⟨cells, rfl, hcells, hd⟩
      exact Yields.pure ⟨_ :: cells, rfl, .cons .absent hcells, hd⟩
    | some w =>
      obtain ⟨hmounts, hnot⟩ := hchild w List.mem_cons_self
      rw [mountChildren]
      refine Yields.bind (hmounts w.isSole pl h hd) ?_
      rintro v h₁ ⟨F, hdraws, halike, hsole, hd⟩
      rw [hnot] at hsole
      refine Yields.bind (next hd) ?_
      rintro _ h₂ ⟨cells, rfl, hcells, hd⟩
      exact Yields.pure ⟨⟨some v, none, F⟩ :: cells, rfl,
        .cons (.present hdraws halike (by simpa using hsole)) hcells, hd⟩

end Lists

section Block

theorem mountings_eq_map (children : List (Option View))
    : mountings children = children.map (·.map fun child => child.mountAs) := by
  induction children with
  | nil => rw [mountings, List.map_nil]
  | cons child rest ih => cases child <;> rw [mountings, ih] <;> rfl

/-- What comes first when a block is mounted: a copy of its template, with data and no children. -/
def plantBlock (template : Template) (data : Data) (parent : NodeId) (anchor : Option NodeId)
    : Engine Anchorage := do
  match ← change (·.plant none template.content) with
  | [] => throw .strayStep
  | root :: _ =>
    insert parent root anchor
    let references ← template.wiring.locate root
    template.wiring.locations.forM fun location => do
      location.binding.set (← Template.reference references location.reference)
        (data.at location.dataIndex)
    return ⟨root, references⟩

theorem mountBlock_eq (template : Template) (data : Data) (children : List (Option View))
    (mountings : List (Option Mounting)) (parent : NodeId) (anchor : Option NodeId)
    : mountBlock template data children mountings parent anchor = do
        let anchorage ← plantBlock template data parent anchor
        let children ←
          template.wiring.slots.foldlM (mountSlot anchorage.references mountings) children
        return .block template data children (some anchorage) := by
  unfold mountBlock plantBlock
  simp only [bind_assoc]
  congr
  funext roots
  cases roots with
  | nil => rfl
  | cons root rest => simp only [bind_assoc, pure_bind]

theorem plantBlock_yields_of_locations {template : Template} {source : String} {normalize : Bool}
    (compiled : template.Compiled source normalize) {data : Data} {Q : Anchorage → Host → Prop}
    (hd : h.document.Shows pl .nil)
    (hlocations : ∀ root references S held h', template.Copied root references S →
      (∀ l ∈ S.labels, held l.1.1 = l.1.2) → h'.document.Shows pl (S.filled held fun _ => .nil) →
      h'.document.tally = h.document.tally + { created := template.content.labels.length, inserted := 1 } →
      (template.wiring.locations.forM fun location => do
        location.binding.set (← Template.reference references location.reference)
          (data.at location.dataIndex)).Yields h' fun _ => Q ⟨root, references⟩)
    : (plantBlock template data pl.node pl.after.head?).Yields h Q := by
  obtain ⟨L, d, hplant, hL, hd⟩ := hd.plant template.content
  obtain ⟨S, rfl, hS⟩ := Marked.exists_of_content hL
  obtain ⟨root, c, marks, C, rfl⟩ := compiled.exists_root hS
  refine Yields.bind_ok (change_eq_ok hplant) ?_
  obtain ⟨d₁, hinsert, hd₁⟩ := Document.Shows.insert (A := .nil) (B := .nil) hd rfl
  have htally := Document.Shows.tally_insert (A := .nil) (B := .nil) hd rfl hinsert
  rw [Document.tally_plant hplant, add_assoc] at htally
  refine Yields.bind_ok (edit_eq_ok hinsert) ?_
  rw [Forest.append_nil, Forest.nil_append] at hd₁
  obtain ⟨held, hfilled, hheld⟩ := Marked.exists_held hd₁.nodup
  have hwalks : Template.Walks d₁ (Marked.nodes (.cons ((root, c), marks) C .nil)) :=
    Template.walks_tree hd₁
  obtain ⟨root, references, hroot, hlocate, copied⟩ :=
    compiled.copied (h := ⟨d₁, h.trace⟩) hS hd₁.nodup hwalks
  cases hroot
  refine Yields.bind_ok hlocate ?_
  rw [← hfilled] at hd₁
  exact Yields.bind (hlocations root references _ held _ copied hheld hd₁ htally) fun _ _ hQ =>
    Yields.pure hQ

theorem plantBlock_inscribes {template : Template} {source : String} {normalize : Bool}
    (compiled : template.Compiled source normalize) (data : Data) (hd : h.document.Shows pl .nil)
    : (plantBlock template data pl.node pl.after.head?).Yields h fun anchorage h' => ∃ S held,
        template.Copied anchorage.root anchorage.references S ∧
          (∀ l ∈ S.labels, held l.1.1 = Template.inscribed data l.2 l.1.2) ∧
            h'.document.Shows pl (S.filled held fun _ => .nil) := by
  refine plantBlock_yields_of_locations compiled hd ?_
  rintro root references S held h₁ copied hheld hd -
  have hwrite : ∀ (l : Template.Location) b, l.resolve references = some b → Recasts
      (do l.binding.set (← Template.reference references l.reference) (data.at l.dataIndex))
      b.node (b.binding.inscribe (data.at b.dataIndex)) := by
    intro l b hb
    rw [Template.set_location hb]
    exact Template.Binding.set_recasts _ b.binding
  refine (Template.locations_yields (f := fun s => s.2.inscribe (data.at s.1)) copied hwrite hd).mono ?_
  rintro _ h₂ ⟨held', hinscribed, hd⟩
  refine ⟨S, held', copied, fun l hl => ?_, hd⟩
  rw [hinscribed l hl, hheld l hl]
  rfl

theorem plantBlock_yields {N : String → Prop} {template : Template} {source : String}
    {normalize : Bool} (compiled : template.Compiled source normalize)
    (named : template.sketch.Named N) (data : Data) (hd : h.document.Shows pl .nil)
    : (plantBlock template data pl.node pl.after.head?).Yields h fun anchorage h' => ∃ S held,
        template.Copied anchorage.root anchorage.references S ∧
          (∀ l ∈ S.labels, (held l.1.1).shape = Template.paint data (l.1.2, l.2)) ∧
            (∀ l ∈ S.labels, (held l.1.1).Named N) ∧
              h'.document.Shows pl (S.filled held fun _ => .nil) := by
  refine (plantBlock_inscribes compiled data hd).mono ?_
  rintro anchorage h' ⟨S, held, copied, hheld, hd⟩
  refine ⟨S, held, copied, fun l hl => ?_, fun l hl => ?_, hd⟩
  . rw [hheld l hl]
    exact Template.shape_inscribed copied.tidy hl data
  . have hn : l.1.2.Named N ∧ ∀ m ∈ l.2, m.Named N := named _ (copied.mem_labels hl)
    rw [hheld l hl]
    exact Template.named_inscribed hn.1 hn.2 data

theorem mountBlock_yields_of_slots {N : String → Prop} {template : Template} {source : String}
    {normalize : Bool} (compiled : template.Compiled source normalize)
    (named : template.sketch.Named N) {data : Data}
    {children : List (Option View)} {mountings : List (Option Mounting)} {Q : View → Host → Prop}
    (hd : h.document.Shows pl .nil)
    (hslots : ∀ root references S held h', template.Copied root references S →
      (∀ l ∈ S.labels, (held l.1.1).shape = Template.paint data (l.1.2, l.2)) →
      (∀ l ∈ S.labels, (held l.1.1).Named N) → h'.document.Shows pl (S.filled held fun _ => .nil) →
      (template.wiring.slots.foldlM (mountSlot references mountings) children).Yields h' fun children' =>
        Q (.block template data children' (some ⟨root, references⟩)))
    : (mountBlock template data children mountings pl.node pl.after.head?).Yields h Q := by
  rw [mountBlock_eq]
  refine Yields.bind (plantBlock_yields compiled named data hd) ?_
  rintro ⟨root, references⟩ h₁ ⟨S, held, copied, painted, named', hd⟩
  refine Yields.bind (hslots root references S held h₁ copied painted named' hd) ?_
  intro children' h₂ hQ
  exact Yields.pure hQ

theorem mountSlots_yields {template : Template} {root : NodeId} {references : List NodeId} {S : Marked}
    {held : NodeId → Content} (copied : template.Copied root references S)
    (indices : (template.wiring.slots.map (·.index)).Nodup) {children : List (Option View)}
    (hchild : ∀ w, some w ∈ children → Mounts lore w)
    (capacity : ∀ slot ∈ template.wiring.slots, slot.index < children.length)
    (hd : h.document.Shows pl (S.filled held fun _ => .nil))
    : (template.wiring.slots.foldlM (mountSlot references (mountings children)) children).Yields h
        fun shown h' => ∃ guests, Housed lore S pl.node guests shown children ∧
          h'.document.Shows pl (S.filled held guests) := by
  refine (Template.slots_gives True copied indices (fun state i => state[i]?)
    (fun o cell G => cell = children[o.index]? ∧ G = .nil)
    (fun o cell G => ∃ v w, cell = some v ∧ children[o.index]? = some w ∧ Hosts lore o v w G)
    ?_ hd fun o ho => ⟨rfl, rfl⟩).yields trivial
  rintro slot o state h pl' G hso ho hnode hanchor hsole ⟨hcell, rfl⟩ hd
  dsimp only at hcell ⊢
  refine Yields.gives ?_
  obtain ⟨hindex, hslot, hparent, -⟩ := Template.ChildSlot.resolve_eq_some hso
  obtain ⟨s, hs, hi⟩ := copied.exists_slot ho
  have hlt := capacity s hs
  rw [hi] at hlt
  obtain ⟨w, hw⟩ : ∃ w, children[o.index]? = some w := ⟨_, List.getElem?_eq_getElem hlt⟩
  rw [hw] at hcell
  unfold mountSlot
  rw [hindex, hslot, mountings_eq_map, List.getElem?_map, hw]
  cases w with
  | none => exact Yields.pure ⟨.nil, ⟨none, none, hcell, rfl, .absent⟩, fun _ _ => rfl, hd⟩
  | some w =>
    refine Yields.bind_ok (Template.Wiring.reference_eq_ok hparent) ?_
    refine Yields.bind_ok (Template.anchor_eq_ok hso) ?_
    rw [← hnode, ← hanchor]
    refine Yields.bind (hchild w (List.mem_of_getElem? hw) o.sole pl' h hd) ?_
    rintro v h' ⟨F, hdraws, halike, hvsole, hd⟩
    have hset : (state.set o.index (some v))[o.index]? = some (some v) :=
      List.getElem?_set_self (List.getElem?_eq_some_iff.1 hcell).1
    refine Yields.pure ⟨F, ⟨some v, some w, hset, rfl, .present (hnode ▸ hdraws) halike hvsole⟩, ?_, hd⟩
    exact fun i hne => List.getElem?_set_ne hne.symm

theorem mountSlots_absent {references : List NodeId} {children : List (Option View)}
    (h : ∀ child ∈ children, child = none) (slots : List ChildSlot)
    : slots.foldlM (mountSlot references (mountings children)) children = pure children := by
  have hnone : ∀ i : Nat, (mountings children)[i]?.join = none := by
    intro i
    rw [mountings_eq_map, List.getElem?_map]
    cases hi : children[i]? with
    | none => rfl
    | some child =>
      rw [h child (List.mem_of_getElem? hi)]
      rfl
  induction slots with
  | nil => rfl
  | cons slot slots ih =>
    rw [List.foldlM_cons, mountSlot, hnone]
    exact ih

theorem mountBlock_yields {template : Template} {source : String} {normalize : Bool}
    (compiled : template.Compiled source normalize)
    (indices : (template.wiring.slots.map (·.index)).Nodup) {data : Data}
    (data_from : data.From care.alloc) {children : List (Option View)}
    (hchild : ∀ w, some w ∈ children → Mounts care w)
    (capacity : ∀ slot ∈ template.wiring.slots, slot.index < children.length)
    (hd : h.document.Shows pl .nil) {mounted : Option Anchorage} {sole : Bool}
    : (mountBlock template data children (mountings children) pl.node pl.after.head?).Yields h
        (Stands care (.block template data children mounted) sole pl) := by
  rw [mountBlock_eq]
  refine Yields.bind (plantBlock_inscribes compiled data hd) ?_
  rintro ⟨root, references⟩ h₁ ⟨S, held, copied, hheld, hd⟩
  refine Yields.bind (mountSlots_yields copied indices hchild capacity hd) ?_
  rintro children' h₂ ⟨guests, hosts, hd⟩
  refine Yields.pure (stands_block copied indices data_from (fun l hl => ?_) (fun l hl => ?_) hosts hd)
  . rw [hheld l hl]
    exact Template.shape_inscribed copied.tidy hl data
  . rw [hheld l hl]
    exact care.inscribed data compiled _ (copied.mem_labels hl)

end Block

section Built

theorem Built.not_sole {w : View} (hw : Built alloc w) : w.isSole = false := by
  cases hw with
  | block compiled indices data_from child made =>
    unfold ofTemplate at made
    obtain ⟨capacity, -, made⟩ := bind_eq_ok.1 made
    split at made
    . cases made
    . cases made
      rfl
  | _ => rfl

theorem ofTemplate_eq_ok {template : Template} {data : Data} {children : List (Option View)} {w : View}
    (h : ofTemplate template data children = .ok w)
    : ∃ children', w = .block template data children' none ∧
        (∀ v, some v ∈ children' → some v ∈ children) ∧
        ∀ slot ∈ template.wiring.slots, slot.index < children'.length := by
  unfold ofTemplate at h
  obtain ⟨capacity, hcapacity, h⟩ := bind_eq_ok.1 h
  split at h
  . cases h
  . cases h
    refine ⟨_, rfl, ?_, ?_⟩
    . intro v hv
      simpa [List.mem_replicate] using hv
    . intro slot hs
      unfold Template.Wiring.childCapacity at hcapacity
      split at hcapacity
      . cases hcapacity
      . cases hcapacity
        have hm : slot.index + 1 ∈ template.wiring.slots.map (·.index + 1) := List.mem_map_of_mem hs
        have : slot.index + 1 ≤ (template.wiring.slots.map (·.index + 1)).foldl max 0 := by
          rw [List.foldl_max_eq_max (List.ne_nil_of_mem hm)]
          exact Nat.le_trans (List.le_max_of_mem hm) (Nat.le_max_right _ _)
        simp only [List.length_append, List.length_replicate]
        omega

variable (care) in
/-- Every view of a render can be mounted, whatever is kept of its nodes. -/
theorem Built.mounts_kept {w : View} (hw : Built care.alloc w) : Mounts care w := by
  induction hw with
  | @text value value_from =>
    intro sole pl h hd
    unfold ofText
    rw [mountAs]
    refine Yields.bind (createText_yields hd value.text) ?_
    intro id h₁ hd
    refine Yields.bind (insert_yields (A := .nil) (B := .nil) hd rfl) ?_
    intro _ h₂ hd
    exact Yields.pure ⟨_, .text value_from, .text rfl, nofun, hd⟩
  | html markup =>
    intro sole pl h hd
    unfold ofMarkup
    rw [mountAs]
    refine Yields.bind (rawNodes_builds markup h _ hd) ?_
    rintro _ h₁ ⟨L, rfl, hL, hd⟩
    refine Yields.bind (insertAll_yields (A := .nil) (B := .nil) (Document.shows_beside.2 hd)) ?_
    intro _ h₂ hd
    rw [Forest.append_nil, Forest.nil_append] at hd
    exact Yields.pure ⟨_, .html hL, .html, nofun, hd⟩
  | @list items item ih =>
    intro sole pl h hd
    unfold ofItems
    rw [mountAs]
    refine Yields.bind (mountStandIn_yields (A := .nil) (B := .nil) hd) ?_
    intro anchor h₁ hd
    rw [Forest.append_nil, Forest.nil_append] at hd
    have hd : h₁.document.Shows (pl.narrow .nil (.leaf (anchor, .text ""))) .nil :=
      Document.shows_narrow.2 hd
    have hnew : ∀ e ∈ incomingItems items, Mounts care e.2.view ∧ e.2.view.isSole = false := by
      rw [incomingItems_eq_map]
      intro e he
      obtain ⟨w, hw, rfl⟩ := List.mem_map.1 he
      exact ⟨ih w hw, (item w hw).not_sole⟩
    have hall := mountAll_yields hnew hd
    rw [mountItems_eq]
    refine Yields.bind hall ?_
    rintro _ h₂ ⟨rows, rfl, hrows, hd⟩
    rw [incomingItems_eq_map, List.forall₂_map_right_iff] at hrows
    refine Yields.pure (stands_list ?_ (Document.shows_narrow.1 hd) fun hs => hs)
    exact hrows
  | @multi children ne_nil child ih =>
    intro sole pl h hd
    unfold ofChildren
    rw [mountAs]
    refine Yields.bind (mountChildren_yields (fun w hw => ⟨ih w hw, (child w hw).not_sole⟩) hd) ?_
    rintro _ h₁ ⟨cells, rfl, hcells, hd⟩
    exact Yields.pure (stands_multi ne_nil hcells hd fun hs => hs)
  | @toggler key child inner ih =>
    intro sole pl h hd
    unfold ofKey
    rw [mountAs]
    refine Yields.bind (ih child.isSole pl h hd) ?_
    rintro v h₁ ⟨F, hdraws, halike, hsole, hd⟩
    rw [inner.not_sole] at hsole
    exact Yields.pure ⟨F, .toggler hdraws (by simpa using hsole), .toggler halike, nofun, hd⟩
  | block compiled indices data_from child made ih =>
    intro sole pl h hd
    obtain ⟨children', rfl, hmem, capacity⟩ := ofTemplate_eq_ok made
    rw [mountAs]
    exact mountBlock_yields compiled indices data_from (fun w hw => ih w (hmem w hw)) capacity hd

theorem Built.mounts {w : View} (hw : Built alloc w) : Mounts alloc w :=
  lore_none alloc ▸ hw.mounts_kept (.none alloc)

end Built

end VirtualDom.View
