import VirtualDom.Proofs.View.FirstNode

/-!
This module contains what becomes of a mounted view that is patched by one of another kind: the other one
is mounted in the same parent, and the view is told that it goes and is removed, once. Only a view that
has no node in the document cannot be told from one that is mounted nowhere.
-/

namespace VirtualDom

open Engine
open Document (Site)

/--
The action, when it gives a result, has told no component that it goes or is removed, and the result is as
`P` says.
-/
def Hushed {α : Type} (x : Engine α) (P : α → Prop) : Prop :=
  ∀ h a h', x h = .ok a h' → P a ∧ ∃ es, h'.trace = h.trace ++ es ∧ ∀ e ∈ es, e.isQuiet

namespace Hushed

variable {α β : Type} {x : Engine α} {f : α → Engine β} {P : α → Prop} {Q : β → Prop}

theorem of_announces {links : α → List Link} (hx : Announces x links) : Hushed x fun _ => True := by
  intro h a h' ha
  obtain ⟨-, es, htrace, hes, -⟩ := hx h a h' ha
  exact ⟨trivial, es, htrace, hes⟩

theorem of_calm (hx : Calm x) : Hushed x fun _ => True :=
  of_announces (.of_calm hx)

theorem pure {a : α} (ha : P a) : Hushed (Pure.pure a) P := by
  rintro h _ _ ⟨⟩
  exact ⟨ha, [], by simp⟩

theorem bind (hx : Hushed x P) (hf : ∀ a, P a → Hushed (f a) Q) : Hushed (x >>= f) Q := by
  intro h b h₂ hb
  obtain ⟨a, h₁, ha, hb⟩ := bind_eq_result.1 hb
  obtain ⟨hP, es, htrace, hes⟩ := hx h a h₁ ha
  obtain ⟨hQ, fs, htrace', hfs⟩ := hf a hP h₁ b h₂ hb
  exact ⟨hQ, es ++ fs, by rw [htrace', htrace, List.append_assoc], List.forall_mem_append.2 ⟨hes, hfs⟩⟩

theorem map {g : α → β} (hx : Hushed x P) (hg : ∀ a, P a → Q (g a)) : Hushed (do return g (← x)) Q :=
  hx.bind fun a ha => pure (hg a ha)

theorem foldlM {γ : Type} {g : α → γ → Engine α} (hg : ∀ a x, Hushed (g a x) fun _ => True)
    (xs : List γ) (a : α) : Hushed (xs.foldlM g a) fun _ => True := by
  induction xs generalizing a with
  | nil => exact pure trivial
  | cons x xs ih =>
    rw [List.foldlM_cons]
    exact (hg a x).bind fun a _ => ih a

theorem recordArrival (c : Component) : Hushed (edit fun d => .ok (d.recordArrival c)) fun _ => True := by
  rintro h _ _ ⟨⟩
  exact ⟨trivial, [], by simp⟩

end Hushed

theorem Document.Carries.gone {s : Site} {d d' : Document} {F : Forest (NodeId × Content)}
    (h : d.Carries s F) (h' : d'.Carries s .nil) {x : NodeId} (hx : x ∈ F.ids)
    : d'.contains x = false := by
  obtain ⟨M, hM, hbonds⟩ := h.holds
  obtain ⟨M', hM', hbonds'⟩ := h'.holds
  have hnd := hM.nodup_bonds
  rw [hbonds, Site.bonds, Multiset.map_add, map_bonds, Multiset.map_cons] at hnd
  rw [Bool.eq_false_iff, ne_eq, hM'.contains_iff, ← map_fst_bonds, hbonds', Site.bonds, Forest.bonds_nil,
    zero_add, Multiset.map_cons]
  exact Multiset.disjoint_left.1 (Multiset.nodup_add.1 hnd).2.2 hx

namespace View

mutual

/-- Whether the view has no nodes, even when it is mounted. -/
def isHollow : View → Bool
  | .multi children _ _ _ => childrenHollow children
  | .toggler _ child _ => child.isHollow
  | .ghost => true
  | _ => false

/-- A node stands in for each child that is absent. -/
def childrenHollow : List (Option View) → Bool
  | [] => true
  | none :: _ => false
  | some child :: rest => child.isHollow && childrenHollow rest

end

section Mount

theorem mountStandIn_hushed (parent : NodeId) (anchor : Option NodeId)
    : Hushed (mountStandIn parent anchor) fun _ => True :=
  .bind (.of_calm (.create (.text ""))) fun _ _ => .map (.of_calm (.insert _ _ _)) fun _ => id

theorem mountBlock_hushed {mountings : List (Option Mounting)}
    (hm : ∀ m, some m ∈ mountings → ∀ sole parent anchor, Hushed (m sole parent anchor) fun _ => True)
    (template : Template) (data : Data) (children : List (Option View)) (parent : NodeId)
    (anchor : Option NodeId)
    : Hushed (mountBlock template data children mountings parent anchor) fun v => v.isHollow = false := by
  rw [mountBlock_eq]
  refine (Hushed.of_announces (plantBlock_announces _ _ _ _)).bind fun anchorage _ => ?_
  refine Hushed.map (P := fun _ => True) ?_ fun _ _ => rfl
  refine .foldlM (fun children slot => ?_) _ _
  unfold mountSlot
  split
  . exact .pure trivial
  . next m hslot =>
    have hmem : some m ∈ mountings := List.mem_of_getElem? (Option.join_eq_some_iff.1 hslot)
    refine (Hushed.of_calm (Template.reference_calm _ _)).bind fun parent _ => ?_
    refine Hushed.bind (P := fun _ => True) ?_ fun anchor _ => (hm m hmem _ _ _).map fun _ => id
    cases slot.anchor with
    | none => exact .pure trivial
    | some index => exact .map (.of_calm (Template.reference_calm _ _)) fun _ => id

mutual

/-- While a view is mounted, no component is told that it goes, and nothing of it is lost. -/
theorem mountAs_hushed : ∀ (v : View) (sole : Bool) (parent : NodeId) (anchor : Option NodeId),
    Hushed (v.mountAs sole parent anchor) fun v' => v'.isHollow = v.isHollow
  | .block template data children _, _, parent, anchor => by
    rw [mountAs]
    exact mountBlock_hushed (mountings_hushed children) _ _ _ _ _
  | .text value _ _, _, parent, anchor => by
    rw [mountAs]
    exact .bind (.of_calm (.create (.text value.text))) fun _ _ =>
      .map (.of_calm (.insert _ _ _)) fun _ _ => rfl
  | .html markup _ _, _, parent, anchor => by
    rw [mountAs]
    refine (Hushed.of_calm (rawNodes_calm markup)).bind fun content _ => ?_
    exact .map (.of_calm (.forM fun _ _ => .insert _ _ _)) fun _ _ => rfl
  | .list items _ _ _, _, parent, anchor => by
    rw [mountAs]
    exact (mountStandIn_hushed parent anchor).bind fun last _ =>
      (mountItems_hushed items _ _).map fun _ _ => rfl
  | .multi children _ _ _, _, parent, anchor => by
    rw [mountAs]
    exact (mountChildren_hushed children parent anchor).map fun _ heq => heq
  | .toggler key child _, _, parent, anchor => by
    rw [mountAs]
    exact (mountAs_hushed child _ parent anchor).map fun _ heq => heq
  | .component name child _, _, parent, anchor => by
    rw [mountAs]
    refine (Hushed.of_calm (.create (.element { tag := "i" }))).bind fun node _ => ?_
    refine (Hushed.of_calm (.setAttribute node "id" name)).bind fun _ _ => ?_
    refine (Hushed.of_calm (.insert parent node anchor)).bind fun _ _ => ?_
    refine (Hushed.recordArrival ⟨name, node, parent⟩).bind fun _ _ => ?_
    cases child with
    | none => exact .pure rfl
    | some child => exact (mountAs_hushed child _ node none).map fun _ _ => rfl
  | .ghost, _, _, _ => by
    rw [mountAs]
    exact .map (.of_calm (.log (by simp [Entry.isQuiet]) rfl)) fun _ _ => rfl

theorem mountings_hushed : ∀ (children : List (Option View)) (m : Mounting),
    some m ∈ mountings children → ∀ sole parent anchor, Hushed (m sole parent anchor) fun _ => True
  | [], m, hm => nomatch hm
  | none :: rest, m, hm => by
    rw [mountings, List.mem_cons] at hm
    exact mountings_hushed rest m (hm.resolve_left nofun)
  | some child :: rest, m, hm => by
    rw [mountings, List.mem_cons] at hm
    rcases hm with hm | hm
    . cases hm
      intro sole parent anchor h a h' ha
      exact ⟨trivial, (mountAs_hushed child sole parent anchor h a h' ha).2⟩
    . exact mountings_hushed rest m hm

theorem mountItems_hushed : ∀ (items : List (Key × View)) (parent anchor : NodeId),
    Hushed (mountItems parent anchor items) fun _ => True
  | [], _, _ => by
    rw [mountItems]
    exact .pure trivial
  | (key, item) :: rest, parent, anchor => by
    rw [mountItems]
    exact (mountAs_hushed item _ _ _).bind fun item _ =>
      (mountItems_hushed rest parent anchor).map fun _ => id

theorem mountChildren_hushed : ∀ (children : List (Option View)) (parent : NodeId)
    (anchor : Option NodeId), Hushed (mountChildren parent anchor children) fun result =>
      childrenHollow result.1 = childrenHollow children
  | [], _, _ => by
    rw [mountChildren]
    exact .pure rfl
  | none :: rest, parent, anchor => by
    rw [mountChildren]
    exact (mountStandIn_hushed parent anchor).bind fun _ _ =>
      (mountChildren_hushed rest parent anchor).map fun _ _ => rfl
  | some child :: rest, parent, anchor => by
    rw [mountChildren]
    refine (mountAs_hushed child _ parent anchor).bind fun child' heq => ?_
    refine (mountChildren_hushed rest parent anchor).map fun result heq' => ?_
    rw [childrenHollow, heq, heq', childrenHollow]

end

end Mount

variable {u : Usage} {s : Site} {h h₁ : Host} {v w next : View} {p : NodeId}
  {F : Forest (NodeId × Content)}

/-- The view is `v` or somewhere in it, also below components, where it is mounted with it. -/
inductive Inside (w : View) : View → Prop
  | part {v : View} (part : Part w v) : Inside w v
  | deep {name : String} {child v : View} {node : Option NodeId}
      (part : Part (.component name (some child) node) v) (inside : Inside w child) : Inside w v

theorem Owns.inside {d : Document} (hw : Inside w v) (hv : Owns u v s.node F) (hd : d.Carries s F)
    : ∃ (s' : Site) (G : Forest (NodeId × Content)), Owns u w s'.node G ∧ d.Carries s' G := by
  induction hw generalizing s F with
  | part part => exact hv.part part hd
  | deep part inside ih =>
    obtain ⟨s', G, hcomponent, hd⟩ := hv.part part hd
    generalize hp : s'.node = p at hcomponent
    cases hcomponent with
    | component custom absent inner =>
      exact ih (s := s'.inside _) (inner _ rfl) (Document.Carries.inside_iff.2 hd)

theorem exists_of_not_hollow {cells : List Cell} (h : childrenHollow (cells.map Cell.child) = false)
    : ∃ c ∈ cells, ∀ w, c.child = some w → w.isHollow = false := by
  induction cells with
  | nil => cases h
  | cons c cells ih =>
    rw [List.map_cons] at h
    cases hc : c.child with
    | none => exact ⟨c, List.mem_cons_self, by simp [hc]⟩
    | some w =>
      rw [hc, childrenHollow, Bool.and_eq_false_iff] at h
      rcases h with h | h
      . refine ⟨c, List.mem_cons_self, ?_⟩
        rintro w' hw
        cases hc.symm.trans hw
        exact h
      . obtain ⟨c', hc', hw⟩ := ih h
        exact ⟨c', List.mem_cons_of_mem _ hc', hw⟩

theorem Owns.nodes_ne_nil (hv : Owns u v p F) (hp : u.proper) (hh : v.isHollow = false) : v.nodes ≠ [] := by
  rw [hv.nodes_eq]
  induction hv with
  | text tree => simp [tree]
  | html ne_nil => exact ne_nil hp
  | list row not_sole tree => simp [tree]
  | @multi cells p sole child not_sole standIn ih =>
    obtain ⟨c, hc, hw⟩ := exists_of_not_hollow hh
    have hne : c.forest.rootIds ≠ [] := by
      cases hcc : c.child with
      | none =>
        obtain ⟨id, -, hF⟩ := standIn c hc hcc
        simp [hF]
      | some w => exact ih c hc w hcc (hw w hcc)
    obtain ⟨xs, ys, rfl⟩ := List.append_of_mem hc
    simp [Forest.join_append, hne]
  | toggler inner not_sole ih => exact ih hh
  | block mountable copied => simp [copied.rootIds]
  | component => simp
  | ghost => cases hh

/--
By the patch, `next` takes the place of `w` in `p`. It is mounted there as `v`, of which no component is
told; then those in `w` are told once that they go, and then `w` is removed.
-/
structure Replaces (p : NodeId) (sole : Bool) (next w v : View) (h h₁ h₂ h₃ : Host) : Prop where
  mounts : next.mountAs (sole || w.isSole) p w.firstNode h = .ok v h₁
  tells : (w.withSole false).beforeRemove h₁ = .ok () h₂
  removes : ∃ w', (w.withSole false).remove h₂ = .ok w' h₃
  patches : next.patchAs sole w h = .ok v h₃
  nodes_ne_nil : next.isHollow = false → v.nodes ≠ []
  attached : ∀ n ∈ v.nodes, h₃.document.parent n = .ok (some p)
  gone : ∀ n ∈ w.nodes, h₃.document.contains n = false
  once : ((w.components p).map (·.element)).Nodup
  trace : ∃ es, h₃.trace = h.trace ++ es ++ (w.components p).map (·.farewell h₁.document)
      ++ (w.withSole false).releases ∧
    (∀ e ∈ es, e.isQuiet) ∧ ∀ e ∈ (w.withSole false).releases, Parting (w.components p) e

theorem Owns.replaces (hw : Owns .careful w s.node F) (hd : h.document.Carries s F) (hnot : w ≠ .ghost)
    (hnext : Mountable .careful next) (hk : next.kind ≠ w.kind) (sole : Bool)
    : ∃ v h₁ h₂ h₃, Replaces s.node sole next w v h h₁ h₂ h₃ := by
  have hadmits : Admits .careful (s.beside F) w.firstNode :=
    .of_others fun x hx => Multiset.mem_add.2 (.inr (hw.firstNode_mem hx))
  obtain ⟨v, h₁, -, -, hmount, -, ⟨G, hv, -, -, hd₁⟩, -⟩ :=
    (hnext.lodges (sole || w.isSole) (s.beside F) h _ (Document.Carries.gone_iff.2 hd) hadmits).exists_ok
      trivial
  -- What was there is beside the new nodes now.
  have hd₁ : h₁.document.Carries (s.beside G) F :=
    Document.Carries.beside_iff.2 (Document.Carries.focus_iff.1 hd₁)
  have hold : Owns .careful (w.withSole false) (s.beside G).node F := hw.withSole false
  have hnot_sole := Draws.isSole_withSole w
  obtain ⟨w', h₃, -, -, hdown, -, -, -, hd₃⟩ :=
    (hold.tearDown_performs hd₁ (by simp [hnot_sole])).exists_ok trivial
  obtain ⟨_, h₂, htold, hremove⟩ := bind_eq_result.1 hdown
  obtain ⟨hhollow, es, htrace, hes⟩ := mountAs_hushed next _ _ _ h v h₁ hmount
  have hcomponents : (w.withSole false).components (s.beside G).node = w.components s.node := by
    cases w <;> rfl
  refine ⟨v, h₁, h₂, h₃, hmount, htold, ⟨w', hremove⟩, ?_, fun hh => hv.nodes_ne_nil trivial (hhollow ▸ hh),
    fun n hn => ?_, fun n hn => ?_, hw.nodup_elements hd.nodup, ?_⟩
  . rw [patchAs_eq_replace hk.symm]
    unfold replace
    exact (bind_run (read_eq_ok (hw.parentNode hd hnot))).trans ((bind_run hmount).trans (bind_run hdown))
  . exact (Document.Carries.gone_iff.1 hd₃).parent (hv.nodes_eq ▸ hn)
  . rw [hw.nodes_eq] at hn
    exact hd₁.gone hd₃ (Forest.mem_rootIds hn)
  . have htrace₃ := tearDown_trace hdown
    rw [hold.farewells_eq, hcomponents, htrace] at htrace₃
    refine ⟨es, htrace₃, hes, ?_⟩
    have hparting := hold.parting
    rwa [hcomponents] at hparting

section Theorems

variable {first : View} {later : List View} {parent : NodeId} {above : Option NodeId} {content : Content}
  {before after : List NodeId}

/--
After any run, each view that is mounted can be replaced by one of any other kind, in its parent and with
all that it is to be told, but for ghosts. A view without a node is not replaced: the other one takes its
place, but is not mounted, and the view is not told anything.
-/
theorem run_replaces (hwf : h.document.WellFormed) (horderly : h.document.Orderly)
    (hparent : h.document.standing? parent = some ⟨above, before ++ after, content⟩)
    (hmountable : ∀ w ∈ first :: later, Mountable .careful w ∧ w.isSole = false)
    (hchain : (first :: later).IsChain (Precedes .careful))
    : (∃ v h', run first later parent after.head? h = .ok v h' ∧ ∀ w, Inside w v → w ≠ .ghost →
        ∃ p, w.parentNode h'.document = .ok (some p) ∧
          ∀ next sole, Mountable .careful next → next.kind ≠ w.kind →
            ∃ v' h₁ h₂ h₃, Replaces p sole next w v' h' h₁ h₂ h₃) ∧
      ∀ (next : View) (sole : Bool), next.kind ≠ kind .ghost →
        next.patchAs sole .ghost = pure (next.withSole sole) := by
  refine ⟨?_, fun next sole hk => ?_⟩
  . obtain ⟨s, rfl, ha, hd⟩ := hwf.exists_site_before horderly hparent
    obtain ⟨v₀, h₀, _, v, h', _, x, hmount, -, htracks, -, ⟨F, hv, -, -, hd⟩, -⟩ :=
      run_tracks (u := .careful) trivial hd ha hmountable hchain
    refine ⟨v, h', (bind_run hmount).trans htracks.foldlM, fun w hw hnot => ?_⟩
    obtain ⟨s', G, hw, hd⟩ := hv.inside hw hd
    exact ⟨s'.node, hw.parentNode hd hnot, fun next sole hnext hk => hw.replaces hd hnot hnext hk sole⟩
  . rw [patchAs_eq_replace hk.symm]
    funext h
    rfl

def visitors : View :=
  .ofItems [(.int 1, .ofName "c" none)]

theorem exists_component_of_run (hr : run visitors [] parent none h = .ok v h₁)
    : ∃ node, Part (.component "c" none (some node)) v := by
  obtain ⟨v, _, hmount, hr⟩ := bind_eq_result.1 hr
  cases hr
  rw [mount, visitors, ofItems, mountAs] at hmount
  obtain ⟨last, _, -, hmount⟩ := bind_eq_result.1 hmount
  obtain ⟨items, _, hitems, hmount⟩ := bind_eq_result.1 hmount
  cases hmount
  rw [mountItems, ofName, mountAs] at hitems
  obtain ⟨item, _, hitem, hitems⟩ := bind_eq_result.1 hitems
  obtain ⟨rest, _, -, hitems⟩ := bind_eq_result.1 hitems
  cases hitems
  obtain ⟨node, _, -, hitem⟩ := bind_eq_result.1 hitem
  obtain ⟨_, _, -, hitem⟩ := bind_eq_result.1 hitem
  obtain ⟨_, _, -, hitem⟩ := bind_eq_result.1 hitem
  obtain ⟨_, _, -, hitem⟩ := bind_eq_result.1 hitem
  cases hitem
  exact ⟨node, .item List.mem_cons_self .self⟩

theorem run_replaces_visitors
    : ∃ v h node p v' h₁ h₂ h₃, run visitors [] ⟨0, 0⟩ none .paragraph = .ok v h ∧
        Inside (.component "c" none (some node)) v ∧
        (component "c" none (some node)).parentNode h.document = .ok (some p) ∧
        Replaces p false (.ofText (.str "x")) (.component "c" none (some node)) v' h h₁ h₂ h₃ ∧
        (ofText (.str "x")).patchAs false .ghost = pure (.ofText (.str "x")) := by
  have hparent : Host.paragraph.document.standing? ⟨0, 0⟩
      = some ⟨none, [] ++ [], .element { tag := "p" }⟩ := rfl
  have hmountable : ∀ w ∈ [visitors], Mountable .careful w ∧ w.isSole = false := by
    have hleaf : Mountable .careful (.ofName "c" none) := .component trivial nofun nofun
    rw [List.forall_mem_singleton]
    exact ⟨.list (by simpa using hleaf) (by simp [isSole, ofName]), rfl⟩
  obtain ⟨⟨v, h, hr, hreplaces⟩, hghost⟩ := run_replaces (h := .paragraph)
    Host.paragraph_run.wellFormed_and_capacity.1 Host.paragraph_run.orderly hparent hmountable (.singleton _)
  obtain ⟨node, hpart⟩ := exists_component_of_run hr
  obtain ⟨p, hparent, hreplaces⟩ := hreplaces _ (.part hpart) (by simp)
  obtain ⟨v', h₁, h₂, h₃, hreplaces⟩ :=
    hreplaces (.ofText (.str "x")) false .text (by simp [kind, ofText])
  exact ⟨v, h, node, p, v', h₁, h₂, h₃, hr, .part hpart, hparent, hreplaces,
    hghost (.ofText (.str "x")) false (by simp [kind, ofText])⟩

/-- A view without a node is patched by a text, and there is no text. -/
theorem patch_loses_text
    : ∃ h, View.ghost.mount ⟨0, 0⟩ none .paragraph = .ok .ghost h ∧
        patch .ghost (.ofText (.str "x")) h = .ok (.ofText (.str "x")) h ∧
        h.document.children ⟨0, 0⟩ = .ok [] ∧ h.trace = [.ghost .mount] :=
  ⟨_, rfl, rfl, rfl, rfl⟩

end Theorems

end View
end VirtualDom
