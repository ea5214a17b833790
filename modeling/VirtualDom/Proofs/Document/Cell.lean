import VirtualDom.Proofs.Document.Run

/-!
This module contains what the operations do to the slots of a document: each slot keeps its cell, is
filled, is emptied for the next generation, or gets other content of the same kind.
-/

namespace VirtualDom

inductive Content.Kin : Content → Content → Prop
  | element {e e' : Element} (tag : e'.tag = e.tag) : Kin (.element e) (.element e')
  | text (s s' : String) : Kin (.text s) (.text s')
  | comment (s s' : String) : Kin (.comment s) (.comment s')

theorem Content.Kin.refl (c : Content) : c.Kin c := by
  cases c with
  | element e => exact .element rfl
  | text s => exact .text s s
  | comment s => exact .comment s s

theorem Content.Kin.trans {c c' c'' : Content} (h : c.Kin c') (h' : c'.Kin c'') : c.Kin c'' := by
  cases h with
  | element tag =>
    cases h' with
    | element tag' => exact .element (tag'.trans tag)
  | text =>
    cases h' with
    | text => exact .text _ _
  | comment =>
    cases h' with
    | comment => exact .comment _ _

namespace Document

/-- The generation of a slot, which is zero before the slot is there, and what the node in it holds. -/
def cell (d : Document) (i : Nat) : UInt32 × Option Content :=
  match d.slots[i]? with
  | some slot => (slot.generation, slot.node.map Node.content)
  | none => (0, none)

def Grows (d d' : Document) : Prop :=
  ∀ i, d'.cell i = d.cell i ∨ ∃ g c, d.cell i = (g, none) ∧ d'.cell i = (g, some c)

def Shrinks (d d' : Document) : Prop :=
  ∀ i, d'.cell i = d.cell i ∨ ∃ g c, d.cell i = (g, some c) ∧ d'.cell i = (g + 1, none)

def Writes (id : NodeId) (d d' : Document) : Prop :=
  ∀ i, d'.cell i = d.cell i ∨ ∃ c c', i = id.index ∧ d.cell i = (id.generation, some c) ∧
    d'.cell i = (id.generation, some c') ∧ c.Kin c'

/-- What becomes of the slot `i` in a step that may write to `written`. -/
inductive Turn (written : Option NodeId) (i : Nat) :
    UInt32 × Option Content → UInt32 × Option Content → Prop
  | keep (cell : UInt32 × Option Content) : Turn written i cell cell
  | fill (g : UInt32) (c : Content) : Turn written i (g, none) (g, some c)
  | empty (g : UInt32) (c : Content) : Turn written i (g, some c) (g + 1, none)
  | write {g : UInt32} {c c' : Content} (object : written = some ⟨i, g⟩) (kin : c.Kin c') :
      Turn written i (g, some c) (g, some c')

section Cells

variable {d d' d'' : Document} {x : NodeId} {c : Content}

theorem cell_eq_some : d.cell x.index = (x.generation, some c) ↔
    (d.node? x).map Node.content = some c := by
  unfold cell node?
  cases d.slots[x.index]? with
  | none => simp
  | some slot =>
    by_cases hg : slot.generation = x.generation <;> simp [hg]

theorem contains_iff_cell : d.contains x ↔ ∃ c, d.cell x.index = (x.generation, some c) := by
  simp only [cell_eq_some]
  unfold contains
  cases d.node? x <;> simp

theorem contains_of_cell_eq (h : d'.cell = d.cell) : d'.contains x = d.contains x := by
  rw [Bool.eq_iff_iff, contains_iff_cell, contains_iff_cell, h]

theorem content_eq_ok_iff : d.content x = .ok c ↔ d.cell x.index = (x.generation, some c) := by
  rw [cell_eq_some]
  unfold content node
  cases d.node? x <;> simp [bind, Except.bind, pure, Except.pure]

theorem Grows.of_eq (h : d'.cell = d.cell) : d.Grows d' :=
  fun i => .inl (congrFun h i)

theorem Shrinks.of_eq (h : d'.cell = d.cell) : d.Shrinks d' :=
  fun i => .inl (congrFun h i)

theorem Grows.trans (h : d.Grows d') (h' : d'.Grows d'') : d.Grows d'' := by
  intro i
  rcases h i with h | ⟨g, c, h, hd'⟩
  . rcases h' i with h' | ⟨g, c, h', hd''⟩
    . exact .inl (h'.trans h)
    . exact .inr ⟨g, c, h.symm.trans h', hd''⟩
  . rcases h' i with h' | ⟨g', c', h', -⟩
    . exact .inr ⟨g, c, h, h'.trans hd'⟩
    . cases hd'.symm.trans h'

theorem Shrinks.trans (h : d.Shrinks d') (h' : d'.Shrinks d'') : d.Shrinks d'' := by
  intro i
  rcases h i with h | ⟨g, c, h, hd'⟩
  . rcases h' i with h' | ⟨g, c, h', hd''⟩
    . exact .inl (h'.trans h)
    . exact .inr ⟨g, c, h.symm.trans h', hd''⟩
  . rcases h' i with h' | ⟨g', c', h', -⟩
    . exact .inr ⟨g, c, h, h'.trans hd'⟩
    . cases hd'.symm.trans h'

theorem SameSlots.reusable (hs : d.SameSlots d') (h : d.Reusable) : d'.Reusable where
  nodup := hs.free ▸ h.nodup
  empty i hi := by
    obtain ⟨g, hg⟩ := h.empty i (hs.free ▸ hi)
    exact ⟨g, (hs.empty i g).2 hg⟩

theorem reusable_empty : ({} : Document).Reusable :=
  ⟨List.nodup_nil, fun _ hi => absurd hi List.not_mem_nil⟩

end Cells

section Links

variable {d d' : Document} {id p : NodeId}

theorem cell_modify {f : Node → Node} (hf : ∀ n, (f n).content = n.content)
    : (d.modify id f).cell = d.cell := by
  funext i
  unfold cell modify
  simp only [Array.getElem?_modify]
  by_cases hi : id.index = i
  . subst hi
    cases d.slots[id.index]? with
    | none => simp
    | some slot =>
      obtain ⟨generation, node⟩ := slot
      by_cases hg : generation = id.generation <;> cases node <;> simp [hg, hf]
  . simp [hi]

theorem cell_update {f : Node → Node} (h : d.update id f = .ok d')
    (hf : ∀ n, (f n).content = n.content) : d'.cell = d.cell := by
  obtain ⟨_, _, h⟩ := bind_eq_ok.1 h
  cases h
  exact cell_modify hf

theorem cell_setNext {prev next : Option NodeId} (h : d.setNext p prev next = .ok d')
    : d'.cell = d.cell := by
  cases prev <;> exact cell_update h fun _ => rfl

theorem cell_setPrev {prev next : Option NodeId} (h : d.setPrev p next prev = .ok d')
    : d'.cell = d.cell := by
  cases next <;> exact cell_update h fun _ => rfl

theorem cell_unlink {attached : Bool} (h : d.unlink id = .ok (d', attached)) : d'.cell = d.cell := by
  obtain ⟨node, _, h⟩ := bind_eq_ok.1 h
  split at h
  . cases h
    rfl
  . obtain ⟨d₁, h₁, h⟩ := bind_eq_ok.1 h
    obtain ⟨d₂, h₂, h⟩ := bind_eq_ok.1 h
    obtain ⟨d₃, h₃, h⟩ := bind_eq_ok.1 h
    cases h
    rw [cell_update h₃ (fun _ => rfl), cell_setPrev h₂, cell_setNext h₁]

theorem cell_link {reference : Option NodeId} (h : d.link p id reference = .ok d')
    : d'.cell = d.cell := by
  obtain ⟨prev, _, h⟩ := bind_eq_ok.1 h
  obtain ⟨d₁, h₁, h⟩ := bind_eq_ok.1 h
  obtain ⟨d₂, h₂, h⟩ := bind_eq_ok.1 h
  rw [cell_setPrev h, cell_setNext h₂, cell_update h₁ fun _ => rfl]

theorem cell_insertBefore {reference : Option NodeId} (h : d.insertBefore p id reference = .ok d')
    : d'.cell = d.cell := by
  unfold insertBefore at h
  split at h
  . cases h
    rfl
  . obtain ⟨⟨d₁, attached⟩, h₁, h⟩ := bind_eq_ok.1 h
    exact (cell_link h).trans (cell_unlink h₁ :)

theorem cell_remove (h : d.remove id = .ok d') : d'.cell = d.cell := by
  obtain ⟨⟨d₁, attached⟩, h₁, h⟩ := bind_eq_ok.1 h
  cases h
  exact (cell_unlink h₁ :)

end Links

section Emptied

variable {d d' : Document} {id p : NodeId}

theorem cell_release {n : Node} (hn : d.node? id = some n) (i : Nat)
    : (d.release id.index).cell i
      = if i = id.index then (id.generation + 1, none) else d.cell i := by
  unfold cell release
  simp only [Array.getElem?_modify]
  by_cases hi : id.index = i
  . subst hi
    simp [node?_eq_some.1 hn]
  . simp [hi, Ne.symm hi]

theorem release_shrinks {n : Node} (hn : d.node? id = some n) : d.Shrinks (d.release id.index) := by
  intro i
  rw [cell_release hn]
  split
  . next hi => exact .inr ⟨_, n.content, hi ▸ cell_eq_some.2 (by rw [hn]; rfl), rfl⟩
  . exact .inl rfl

theorem release_reusable {n : Node} (hn : d.node? id = some n) (h : d.Reusable)
    : (d.release id.index).Reusable := by
  have hs := node?_eq_some.1 hn
  constructor
  . refine List.nodup_cons.2 ⟨?_, h.nodup⟩
    intro hi
    obtain ⟨g, hg⟩ := h.empty _ hi
    cases hs.symm.trans hg
  . intro i hi
    unfold release
    simp only [Array.getElem?_modify]
    by_cases heq : id.index = i
    . subst heq
      simp [hs]
    . simpa [heq] using h.empty i ((List.mem_cons.1 hi).resolve_left (Ne.symm heq))

theorem releaseAll_shrinks {pending : List NodeId} (h : d.Reusable)
    (hd : d.releaseAll pending = .ok d') : d'.Reusable ∧ d.Shrinks d' := by
  refine releaseAll_induction (P := fun d _ => d.Reusable → d'.Reusable ∧ d.Shrinks d')
    (fun h => ⟨h, .of_eq rfl⟩) ?_ hd h
  intro d id pending children n hn _ ih h
  obtain ⟨hr, hs⟩ := ih (release_reusable hn h)
  exact ⟨hr, (release_shrinks hn).trans hs⟩

theorem discard_shrinks (h : d.Reusable) (hd : d.discard id = .ok d')
    : d'.Reusable ∧ d.Shrinks d' := by
  obtain ⟨d₁, h₁, hd⟩ := bind_eq_ok.1 hd
  obtain ⟨hr, hs⟩ := releaseAll_shrinks ((sameSlots_remove h₁).reusable h) hd
  exact ⟨hr, (Shrinks.of_eq (cell_remove h₁)).trans hs⟩

theorem not_contains_of_discard (h : d.Reusable) (hd : d.discard id = .ok d')
    : d.contains id ∧ d'.contains id = false := by
  obtain ⟨d₁, h₁, hd⟩ := bind_eq_ok.1 hd
  rw [releaseAll] at hd
  split at hd
  . next children hc =>
    obtain ⟨n, hn⟩ := node?_of_children hc
    have hcell : d₁.cell id.index = (id.generation, some n.content) :=
      cell_eq_some.2 (by rw [hn]; rfl)
    obtain ⟨-, hs⟩ := releaseAll_shrinks (release_reusable hn ((sameSlots_remove h₁).reusable h)) hd
    refine ⟨contains_iff_cell.2 ⟨_, cell_remove h₁ ▸ hcell⟩, ?_⟩
    have hgone : d'.cell id.index = (id.generation + 1, none) := by
      have hone := cell_release hn id.index
      rw [if_pos rfl] at hone
      rcases hs id.index with heq | ⟨g, c, heq, -⟩
      . exact heq.trans hone
      . cases heq.symm.trans hone
    rw [Bool.eq_false_iff]
    intro hlive
    obtain ⟨c, hlive⟩ := contains_iff_cell.1 hlive
    cases congrArg Prod.snd (hlive.symm.trans hgone)
  . cases hd

theorem discardChildren_shrinks (h : d.Reusable) (hd : d.discardChildren p = .ok d')
    : d'.Reusable ∧ d.Shrinks d' := by
  refine discardChildren_induction (P := fun d => d.Reusable → d'.Reusable ∧ d.Shrinks d')
    (fun _ h => ⟨h, .of_eq rfl⟩) ?_ hd h
  intro d child d₁ _ h₁ _ ih h
  obtain ⟨hr₁, hs₁⟩ := discard_shrinks h h₁
  obtain ⟨hr, hs⟩ := ih hr₁
  exact ⟨hr, hs₁.trans hs⟩

end Emptied

section Filled

variable {d d' : Document} {id p x : NodeId}

theorem Grows.contains (h : d.Grows d') (hx : d.contains x) : d'.contains x := by
  obtain ⟨c, hc⟩ := contains_iff_cell.1 hx
  rcases h x.index with heq | ⟨g, c', heq, -⟩
  . exact contains_iff_cell.2 ⟨c, heq.trans hc⟩
  . cases hc.symm.trans heq

theorem Shrinks.not_contains (h : d.Shrinks d') (hx : d.contains x = false) : d'.contains x = false := by
  rw [Bool.eq_false_iff, ne_eq, contains_iff_cell] at hx ⊢
  rintro ⟨c, hc⟩
  rcases h x.index with heq | ⟨g, c', -, heq⟩
  . exact hx ⟨c, heq.symm.trans hc⟩
  . cases congrArg Prod.snd (hc.symm.trans heq)

theorem Grows.not_contains (h : d.Grows d') (hx : d'.contains x = false) : d.contains x = false := by
  rw [Bool.eq_false_iff] at hx ⊢
  exact fun hlive => hx (h.contains hlive)

theorem create_grows (h : d.Reusable) (c : Content)
    : (d.create c).2.Reusable ∧ d.Grows (d.create c).2 := by
  unfold create
  cases hf : d.free with
  | nil =>
    refine ⟨⟨List.nodup_nil, nofun⟩, ?_⟩
    intro i
    unfold cell
    simp only [Array.getElem?_push]
    by_cases hi : i = d.slots.size
    . subst hi
      exact .inr ⟨0, c, by simp, by simp⟩
    . simp [hi]
  | cons i free =>
    obtain ⟨g, hg⟩ := h.empty i (by simp [hf])
    have hnd := h.nodup
    rw [hf, List.nodup_cons] at hnd
    refine ⟨⟨hnd.2, ?_⟩, ?_⟩
    . intro j hj
      have hne : i ≠ j := fun hij => hnd.1 (hij ▸ hj)
      simpa [Array.getElem?_modify, hne] using h.empty j (by simp [hf, hj])
    . intro j
      unfold cell
      simp only [Array.getElem?_modify]
      by_cases hj : i = j
      . subst hj
        exact .inr ⟨g, c, by simp [hg], by simp [hg]⟩
      . simp [hj]

theorem create_fresh (h : d.Reusable) (c : Content)
    : d.contains (d.create c).1 = false ∧ (d.create c).2.contains (d.create c).1 := by
  obtain ⟨hfree, hl⟩ := h.node?_create c
  unfold contains
  rw [hfree, hl, if_pos rfl]
  exact ⟨rfl, rfl⟩

theorem plant_grows {T : Forest Content} {parent : Option NodeId} {ids : List NodeId} (h : d.Reusable)
    (hd : d.plant parent T = .ok (ids, d'))
    : d'.Reusable ∧ d.Grows d' ∧ ∀ x ∈ ids, d.contains x = false ∧ d'.contains x := by
  induction T generalizing d d' parent ids with
  | nil =>
    cases hd
    exact ⟨h, .of_eq rfl, nofun⟩
  | cons content children siblings ihc ihs =>
    obtain ⟨id, d₁, inner, d₂, d₃, later, hcreate, h₂, h₃, h₄, rfl⟩ := plant_cons hd
    obtain ⟨hr₁, hg₁⟩ := create_grows h content
    obtain ⟨hfresh, hmade⟩ := create_fresh h content
    rw [hcreate] at hr₁ hg₁ hfresh hmade
    obtain ⟨hr₂, hg₂, -⟩ := ihc hr₁ h₂
    obtain ⟨hss, hcell⟩ : d₂.SameSlots d₃ ∧ d₃.cell = d₂.cell := by
      rcases h₃ with ⟨-, rfl⟩ | ⟨p, -, h₃⟩
      . exact ⟨SameSlots.refl _, rfl⟩
      . exact ⟨sameSlots_link h₃, cell_link h₃⟩
    obtain ⟨hr, hg₄, hlater⟩ := ihs (hss.reusable hr₂) h₄
    have hg₃ : d₁.Grows d' := hg₂.trans ((Grows.of_eq hcell).trans hg₄)
    have hg₀ : d.Grows d₃ := hg₁.trans (hg₂.trans (.of_eq hcell))
    refine ⟨hr, hg₁.trans hg₃, ?_⟩
    intro x hx
    rcases List.mem_cons.1 hx with rfl | hx
    . exact ⟨hfresh, hg₃.contains hmade⟩
    . exact ⟨hg₀.not_contains (hlater x hx).1, (hlater x hx).2⟩

theorem copy_grows {source : Document} {root : NodeId} (h : d.Reusable)
    (hd : d.copy source id = .ok (root, d'))
    : d'.Reusable ∧ d.Grows d' ∧ d.contains root = false ∧ d'.contains root := by
  obtain ⟨T, later, hplant⟩ := plant_of_copy hd
  obtain ⟨hr, hg, hroots⟩ := plant_grows h hplant
  exact ⟨hr, hg, hroots _ List.mem_cons_self⟩

end Filled

structure Edits (id : NodeId) (d d' : Document) : Prop where
  slots : d.SameSlots d'
  writes : d.Writes id d'
  contents : ∃ f : NodeId → Node → Content,
    ∀ x, d'.node? x = (d.node? x).map fun m => { m with content := f x m }

section Written

variable {d d' : Document} {id : NodeId} {c c' : Content}

namespace Edits

theorem refl (id : NodeId) (d : Document) : d.Edits id d where
  slots := SameSlots.refl d
  writes _ := .inl rfl
  contents := ⟨fun _ => Node.content, fun x => by cases d.node? x <;> rfl⟩

theorem of_slots_eq {d'' : Document} (h : d.Edits id d') (hslots : d''.slots = d'.slots)
    (hfree : d''.free = d'.free) : d.Edits id d'' := by
  have hcell : d''.cell = d'.cell := by
    funext i
    unfold cell
    rw [hslots]
  have hnode : d''.node? = d'.node? := by
    funext x
    unfold node?
    rw [hslots]
  refine ⟨⟨hslots ▸ h.slots.size, hfree ▸ h.slots.free, hslots ▸ h.slots.empty⟩, ?_, hnode ▸ h.contents⟩
  unfold Writes
  rw [hcell]
  exact h.writes

theorem setContent (hc : d.content id = .ok c) (hkin : c.Kin c')
    : d.Edits id (d.setContent id c') := by
  refine ⟨SameSlots.modify d id _, ?_, fun x m => if x = id then c' else m.content, ?_⟩
  . intro i
    by_cases hi : i = id.index
    . subst hi
      have hcell := content_eq_ok_iff.1 hc
      refine .inr ⟨c, c', rfl, hcell, ?_, hkin⟩
      rw [cell_eq_some, Document.setContent, node?_modify, if_pos rfl]
      have hnode := cell_eq_some.1 hcell
      cases hn : d.node? id with
      | none =>
        rw [hn] at hnode
        cases hnode
      | some n => rfl
    . left
      unfold cell Document.setContent modify
      simp only [Array.getElem?_modify, if_neg (Ne.symm hi)]
  . intro x
    rw [Document.setContent, node?_modify]
    by_cases hx : x = id <;> cases d.node? x <;> simp [hx]

theorem setText {s : String} (h : d.setText id s = .ok d') : d.Edits id d' := by
  obtain ⟨c, hc, h⟩ := bind_eq_ok.1 h
  cases c <;> cases h
  . exact .refl id d
  . exact (setContent hc (.text _ s)).of_slots_eq rfl rfl
  . exact (setContent hc (.comment _ s)).of_slots_eq rfl rfl

theorem modifyElement {f : Element → Option Element} {count : Tally → Tally}
    (hf : ∀ e e', f e = some e' → e'.tag = e.tag) (h : d.modifyElement id f count = .ok d')
    : d.Edits id d' := by
  obtain ⟨e?, he, h⟩ := bind_eq_ok.1 h
  split at h
  . next e' hfe =>
    cases h
    obtain ⟨e, rfl, hfe⟩ := Option.bind_eq_some_iff.1 hfe
    have hc : d.content id = .ok (.element e) := by
      obtain ⟨c, hc, he⟩ := bind_eq_ok.1 he
      split at he
      . cases he
        exact hc
      . cases he
    exact (setContent hc (.element (hf e e' hfe))).of_slots_eq rfl rfl
  . cases h
    exact .refl id d

theorem setAttribute {name value : String} (h : d.setAttribute id name value = .ok d')
    : d.Edits id d' :=
  modifyElement (by rintro e e' ⟨⟩; rfl) h

theorem removeAttribute {name : String} (h : d.removeAttribute id name = .ok d') : d.Edits id d' := by
  refine modifyElement ?_ h
  intro e e' he
  split at he <;> cases he
  rfl

theorem addClass {token : String} (h : d.addClass id token = .ok d') : d.Edits id d' := by
  obtain ⟨tokens, _, h⟩ := bind_eq_ok.1 h
  split at h
  . cases h
    exact .refl id d
  . exact setAttribute h

theorem removeClass {token : String} (h : d.removeClass id token = .ok d') : d.Edits id d' := by
  obtain ⟨tokens, _, h⟩ := bind_eq_ok.1 h
  split at h
  . exact setAttribute h
  . cases h
    exact .refl id d

theorem setProperty {name : String} {value : Value} (h : d.setProperty id name value = .ok d')
    : d.Edits id d' :=
  modifyElement (by rintro e e' ⟨⟩; rfl) h

theorem setHandler {event : String} {payload : Value}
    (h : d.setHandler id event payload = .ok d') : d.Edits id d' :=
  modifyElement (by rintro e e' ⟨⟩; rfl) h

end Edits

theorem Writes.contains {id : NodeId} (h : d.Writes id d') (hx : d.contains x) : d'.contains x := by
  obtain ⟨c, hc⟩ := contains_iff_cell.1 hx
  rw [contains_iff_cell]
  rcases h x.index with heq | ⟨c', c'', -, heq, heq', -⟩
  . exact ⟨c, heq.trans hc⟩
  . have hg : x.generation = id.generation := congrArg Prod.fst (hc.symm.trans heq)
    exact ⟨c'', hg ▸ heq'⟩

end Written

section Turns

variable {d d' : Document} {written : Option NodeId} {i : Nat} {x : NodeId}

theorem Turn.of_eq (h : d'.cell = d.cell) : Turn written i (d.cell i) (d'.cell i) := by
  rw [h]
  exact .keep _

theorem Turn.of_grows (h : d.Grows d') : Turn written i (d.cell i) (d'.cell i) := by
  rcases h i with heq | ⟨g, c, heq, heq'⟩
  . rw [heq]
    exact .keep _
  . rw [heq, heq']
    exact .fill g c

theorem Turn.of_shrinks (h : d.Shrinks d') : Turn written i (d.cell i) (d'.cell i) := by
  rcases h i with heq | ⟨g, c, heq, heq'⟩
  . rw [heq]
    exact .keep _
  . rw [heq, heq']
    exact .empty g c

theorem Turn.of_writes (h : d.Writes x d') : Turn (some x) i (d.cell i) (d'.cell i) := by
  rcases h i with heq | ⟨c, c', rfl, heq, heq', hkin⟩
  . rw [heq]
    exact .keep _
  . rw [heq, heq']
    exact .write rfl hkin

end Turns

end Document
end VirtualDom
