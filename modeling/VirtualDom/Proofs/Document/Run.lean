import VirtualDom.Proofs.Document.Tree
import VirtualDom.Proofs.Document.Write
import VirtualDom.Host

/-!
This module contains runs of calls on a document. Every document that a run leads to is well-formed,
no call of a run fails, and there are never more slots than there were live nodes at once.
-/

namespace VirtualDom.Document

inductive Call where
  | createElement (tag : String)
  | createText (s : String)
  | createComment (s : String)
  | insertBefore (parent id : NodeId) (reference : Option NodeId)
  | append (parent id : NodeId)
  | remove (id : NodeId)
  | discard (id : NodeId)
  | discardChildren (id : NodeId)
  | setText (id : NodeId) (s : String)
  | setAttribute (id : NodeId) (name value : String)
  | removeAttribute (id : NodeId) (name : String)
  | addClass (id : NodeId) (token : String)
  | removeClass (id : NodeId) (token : String)
  | setProperty (id : NodeId) (name : String) (value : Value)
  | setHandler (id : NodeId) (event : String) (payload : Value)

namespace Call

def run (d : Document) : Call → Except Fault Document
  | .createElement tag => return (d.createElement tag).2
  | .createText s => return (d.createText s).2
  | .createComment s => return (d.createComment s).2
  | .insertBefore parent id reference => d.insertBefore parent id reference
  | .append parent id => d.append parent id
  | .remove id => d.remove id
  | .discard id => d.discard id
  | .discardChildren id => d.discardChildren id
  | .setText id s => d.setText id s
  | .setAttribute id name value => d.setAttribute id name value
  | .removeAttribute id name => d.removeAttribute id name
  | .addClass id token => d.addClass id token
  | .removeClass id token => d.removeClass id token
  | .setProperty id name value => d.setProperty id name value
  | .setHandler id event payload => d.setHandler id event payload

def Legal (d : Document) : Call → Prop
  | .createElement _ | .createText _ | .createComment _ => True
  | .insertBefore parent id reference =>
    d.contains parent ∧ d.contains id ∧ ¬ d.Within parent id ∧
      ∀ r, reference = some r → r = id ∨ d.parent r = .ok (some parent)
  | .append parent id => d.contains parent ∧ d.contains id ∧ ¬ d.Within parent id
  | .remove id | .discard id | .discardChildren id | .setText id _ | .setAttribute id _ _
  | .removeAttribute id _ | .addClass id _ | .removeClass id _ | .setProperty id _ _
  | .setHandler id _ _ => d.contains id

end Call

/--
A document that calls lead to from an empty one, with the largest number of live nodes on the way.
Copies may be taken from any other such document.
-/
inductive Run : Document → Nat → Prop
  | empty : Run {} 0
  | call {d d' : Document} {peak : Nat} {c : Call} (run : Run d peak) (legal : c.Legal d)
      (ok : c.run d = .ok d') : Run d' (max peak d'.size)
  | copy {d d' source : Document} {peak n : Nat} {id root : NodeId} (run : Run d peak)
      (from_run : Run source n) (live : source.contains id)
      (ok : d.copy source id = .ok (root, d')) : Run d' (max peak d'.size)

section Live

variable {d : Document} {id : NodeId}

theorem contains_iff : d.contains id ↔ ∃ a ks c, d.standing? id = some ⟨a, ks, c⟩ := by
  unfold contains standing?
  cases d.node? id <;> simp

theorem Holds.contains_iff {M : Multiset (NodeId × Standing)} (h : d.Holds M)
    : d.contains id ↔ id ∈ M.map (·.1) := by
  rw [Document.contains_iff, Multiset.mem_map]
  constructor
  . rintro ⟨a, ks, c, hs⟩
    exact ⟨_, (h.mem id _).2 hs, rfl⟩
  . rintro ⟨⟨_, s⟩, hs, rfl⟩
    exact ⟨_, _, _, h.standing? hs⟩

theorem parent_eq_ok {p : Option NodeId}
    : d.parent id = .ok p ↔ ∃ n, d.node? id = some n ∧ n.parent = p := by
  unfold parent node
  cases d.node? id <;> simp [bind, Except.bind, pure, Except.pure]

end Live

namespace WellFormed

variable {d : Document} {id p : NodeId} {a : Option NodeId} {ks : List NodeId} {c : Content}

theorem detach (h : d.WellFormed) (hid : d.standing? id = some ⟨a, ks, c⟩)
    : ∃ d' attached, d.unlink id = .ok (d', attached) ∧ d'.WellFormed ∧
        d'.standing? id = some ⟨none, ks, c⟩ ∧
        (∀ x b ls e, x ≠ id → d.standing? x = some ⟨b, ls, e⟩ →
          ∃ ls', d'.standing? x = some ⟨b, ls', e⟩) ∧
        ∀ x y, d'.Within x y → d.Within x y := by
  cases a with
  | none => exact ⟨d, false, unlink_root hid, h, hid, fun x b ls e _ hx => ⟨ls, hx⟩, fun _ _ hw => hw⟩
  | some q =>
    obtain ⟨b, ls, e, hq, hmem⟩ := h.standing?_parent hid
    obtain ⟨xs, ys, rfl⟩ := List.append_of_mem hmem
    obtain ⟨d', hd', hwf, -, -, hs⟩ := h.unlink hid hq
    refine ⟨d', true, hd', hwf, by rw [hs, if_pos rfl], ?_, ?_⟩
    . intro x b' ls' e' hx hx'
      rw [hs, if_neg hx]
      split
      . next hxq =>
        subst hxq
        cases hq.symm.trans hx'
        exact ⟨_, rfl⟩
      . exact ⟨_, hx'⟩
    . intro x y hw
      apply within_of_standing? _ hw
      intro z r ls' e' hz
      rw [hs] at hz
      split at hz
      . cases hz
      . split at hz
        . next hzq =>
          cases hz
          subst hzq
          exact ⟨_, _, hq⟩
        . exact ⟨_, _, hz⟩

theorem insertBefore {reference : Option NodeId} (h : d.WellFormed) (hp : d.contains p)
    (hid : d.contains id) (hw : ¬ d.Within p id)
    (hr : ∀ r, reference = some r → r = id ∨ d.parent r = .ok (some p))
    : ∃ d', d.insertBefore p id reference = .ok d' ∧ d'.WellFormed := by
  by_cases hself : reference = some id
  . exact ⟨d, by simp [Document.insertBefore, hself]; rfl, h⟩
  obtain ⟨a, ks, c, hid⟩ := contains_iff.1 hid
  obtain ⟨b, ls, cp, hp⟩ := contains_iff.1 hp
  have hne : p ≠ id := by
    rintro rfl
    exact hw Relation.ReflTransGen.refl
  obtain ⟨d₁, attached, hun, hwf, hid₁, hother, hwithin⟩ := h.detach hid
  obtain ⟨ls', hp₁⟩ := hother p b ls cp hne hp
  -- the reference cuts the children of `p` in two
  have hcut : ∃ xs ys, ls' = xs ++ ys ∧ reference = ys.head? := by
    cases reference with
    | none => exact ⟨ls', [], by simp⟩
    | some r =>
      obtain ⟨n, hn, hnp⟩ := parent_eq_ok.1 ((hr r rfl).resolve_left fun h => hself (h ▸ rfl))
      obtain ⟨us, hr₁⟩ := hother r _ _ _ (fun h => hself (h ▸ rfl))
        (standing?_eq_some.2 ⟨n, hn, hnp, rfl, rfl⟩)
      obtain ⟨_, vs, _, hp₁', hmem⟩ := hwf.standing?_parent hr₁
      cases hp₁.symm.trans hp₁'
      obtain ⟨xs, ys, rfl⟩ := List.append_of_mem hmem
      exact ⟨xs, r :: ys, rfl, rfl⟩
  obtain ⟨xs, ys, rfl, hy⟩ := hcut
  obtain ⟨d', hd', hwf', -, -⟩ := insertBefore_of_unlink hun hwf hid₁ hp₁ hy hself
    fun hw₁ => hw (hwithin _ _ hw₁)
  exact ⟨d', hd', hwf'⟩

theorem remove (h : d.WellFormed) (hid : d.contains id)
    : ∃ d', d.remove id = .ok d' ∧ d'.WellFormed := by
  obtain ⟨a, ks, c, hid⟩ := contains_iff.1 hid
  obtain ⟨d₁, attached, hun, hwf, -⟩ := h.detach hid
  refine ⟨_, ?_, (hwf.withTally (if attached then { d₁.tally with removed := d₁.tally.removed + 1 }
    else d₁.tally)).1⟩
  rw [Document.remove, hun]
  rfl

theorem discard (h : d.WellFormed) (hid : d.contains id)
    : ∃ d', d.discard id = .ok d' ∧ d'.WellFormed := by
  obtain ⟨a, ks, c, hid⟩ := contains_iff.1 hid
  obtain ⟨F, M, hF, hw, hT⟩ := h.exists_tree hid
  cases a with
  | none =>
    obtain ⟨d', hd', hM⟩ := hT.discard_root rfl
    exact ⟨d', hd', hM.wellFormed⟩
  | some q =>
    obtain ⟨b, ls, e, hq, hmem⟩ := h.standing?_parent hid
    obtain ⟨xs, ys, rfl⟩ := List.append_of_mem hmem
    have hqM : (q, ⟨b, xs ++ id :: ys, e⟩) ∈ M := by
      have hq := (hT.mem _ _).2 hq
      rw [Multiset.mem_add] at hq
      apply hq.resolve_left
      intro hq
      obtain ⟨height, hh⟩ := h.acyclic
      obtain ⟨n, hn, hnp, -⟩ := standing?_eq_some.1 hid
      have hlt := hh hn hnp
      have hle : height q ≤ height id := by
        apply height_le_of_within height hh
        have hq := Forest.mem_census hq
        simp only [Forest.ids_cons, Forest.ids_nil, List.append_nil, List.mem_cons] at hq
        rcases hq with rfl | hq
        . exact Relation.ReflTransGen.refl
        . exact hw q hq
      omega
    obtain ⟨N, rfl⟩ := Multiset.exists_cons_of_mem hqM
    have hs : xs ++ id :: ys = xs ++ (Forest.cons (id, c) F .nil).rootIds ++ ys := by simp
    rw [hs] at hT
    obtain ⟨d', hd', hM⟩ := hT.discard rfl
    exact ⟨d', hd', hM.wellFormed⟩

theorem discardChildren (h : d.WellFormed) (hid : d.contains id)
    : ∃ d', d.discardChildren id = .ok d' ∧ d'.WellFormed := by
  obtain ⟨a, ks, c, hid⟩ := contains_iff.1 hid
  obtain ⟨F, M, hF, -, hT⟩ := h.exists_tree hid
  rw [Forest.census_single] at hT
  obtain ⟨d', hd', hM⟩ := hT.discardChildren
  exact ⟨d', hd', hM.wellFormed⟩

theorem copy {source : Document} (h : d.WellFormed) (hs : source.WellFormed)
    (hid : source.contains id) : ∃ root d', d.copy source id = .ok (root, d') ∧ d'.WellFormed := by
  obtain ⟨a, ks, c, hid⟩ := contains_iff.1 hid
  obtain ⟨F, M, -, -, hT⟩ := hs.exists_tree hid
  obtain ⟨N, hN⟩ := h.exists_holds
  obtain ⟨L, d', hd', hL, hM⟩ := hN.plant ((Forest.cons (id, c) F .nil).map (·.2))
  cases L with
  | nil => simp [Forest.map] at hL
  | cons label children siblings =>
    obtain ⟨root, c'⟩ := label
    refine ⟨root, d', ?_, hM.wellFormed⟩
    simp only [Document.copy, hT.subtree (Forest.rootIds_cons id c F .nil), hd', bind, Except.bind]
    rfl

theorem write {f : Except Fault Document} {g : Content → Content} (h : d.WellFormed) (hid : d.contains id)
    (hf : ∀ {a ks c M}, d.Holds ((id, ⟨a, ks, c⟩) ::ₘ M) →
      ∃ d', f = .ok d' ∧ d'.Holds ((id, ⟨a, ks, g c⟩) ::ₘ M))
    : ∃ d', f = .ok d' ∧ d'.WellFormed := by
  obtain ⟨a, ks, c, hid⟩ := contains_iff.1 hid
  obtain ⟨M, hM⟩ := h.exists_holds
  obtain ⟨N, rfl⟩ := Multiset.exists_cons_of_mem ((hM.mem _ _).2 hid)
  obtain ⟨d', hd', hN⟩ := hf hM
  exact ⟨d', hd', hN.wellFormed⟩

theorem call (h : d.WellFormed) {c : Call} (hc : c.Legal d)
    : ∃ d', c.run d = .ok d' ∧ d'.WellFormed := by
  cases c with
  | createElement tag =>
    obtain ⟨_, d', hd', hwf, -⟩ := h.create (.element { tag })
    exact ⟨_, rfl, by rwa [createElement, hd']⟩
  | createText s =>
    obtain ⟨_, d', hd', hwf, -⟩ := h.create (.text s)
    exact ⟨_, rfl, by rwa [createText, hd']⟩
  | createComment s =>
    obtain ⟨_, d', hd', hwf, -⟩ := h.create (.comment s)
    exact ⟨_, rfl, by rwa [createComment, hd']⟩
  | insertBefore parent id reference => exact h.insertBefore hc.1 hc.2.1 hc.2.2.1 hc.2.2.2
  | append parent id => exact h.insertBefore hc.1 hc.2.1 hc.2.2 fun r hr => nomatch (hr : none = some r)
  | remove id => exact h.remove hc
  | discard id => exact h.discard hc
  | discardChildren id => exact h.discardChildren hc
  | setText id s => exact h.write hc fun hM => hM.setText s
  | setAttribute id name value => exact h.write hc fun hM => hM.setAttribute name value
  | removeAttribute id name => exact h.write hc fun hM => hM.removeAttribute name
  | addClass id token => exact h.write hc fun hM => hM.addClass token
  | removeClass id token => exact h.write hc fun hM => hM.removeClass token
  | setProperty id name value => exact h.write hc fun hM => hM.setProperty name value
  | setHandler id event payload => exact h.write hc fun hM => hM.setHandler event payload

end WellFormed

section Capacity

variable {d d' : Document} {id p : NodeId}

theorem sameSlots_update {f : Node → Node} (h : d.update id f = .ok d') : d.SameSlots d' := by
  obtain ⟨_, _, h⟩ := bind_eq_ok.1 h
  cases h
  exact SameSlots.modify d id f

theorem sameSlots_setNext {prev next : Option NodeId} (h : d.setNext p prev next = .ok d')
    : d.SameSlots d' := by
  cases prev <;> exact sameSlots_update h

theorem sameSlots_setPrev {prev next : Option NodeId} (h : d.setPrev p next prev = .ok d')
    : d.SameSlots d' := by
  cases next <;> exact sameSlots_update h

theorem sameSlots_unlink {attached : Bool} (h : d.unlink id = .ok (d', attached))
    : d.SameSlots d' := by
  obtain ⟨node, _, h⟩ := bind_eq_ok.1 h
  split at h
  . cases h
    exact SameSlots.refl d
  . obtain ⟨d₁, h₁, h⟩ := bind_eq_ok.1 h
    obtain ⟨d₂, h₂, h⟩ := bind_eq_ok.1 h
    obtain ⟨d₃, h₃, h⟩ := bind_eq_ok.1 h
    cases h
    exact (sameSlots_setNext h₁).trans ((sameSlots_setPrev h₂).trans (sameSlots_update h₃))

theorem sameSlots_link {reference : Option NodeId} (h : d.link p id reference = .ok d')
    : d.SameSlots d' := by
  obtain ⟨prev, _, h⟩ := bind_eq_ok.1 h
  obtain ⟨d₁, h₁, h⟩ := bind_eq_ok.1 h
  obtain ⟨d₂, h₂, h⟩ := bind_eq_ok.1 h
  exact (sameSlots_update h₁).trans ((sameSlots_setNext h₂).trans (sameSlots_setPrev h))

theorem sameSlots_insertBefore {reference : Option NodeId}
    (h : d.insertBefore p id reference = .ok d') : d.SameSlots d' := by
  unfold insertBefore at h
  split at h
  . cases h
    exact SameSlots.refl d
  . obtain ⟨⟨d₁, attached⟩, h₁, h⟩ := bind_eq_ok.1 h
    have h₂ := sameSlots_link h
    exact (sameSlots_unlink h₁).trans ⟨h₂.size, h₂.free, h₂.empty⟩

theorem sameSlots_remove (h : d.remove id = .ok d') : d.SameSlots d' := by
  obtain ⟨⟨d₁, attached⟩, h₁, h⟩ := bind_eq_ok.1 h
  have h₁ := sameSlots_unlink h₁
  cases h
  exact ⟨h₁.size, h₁.free, h₁.empty⟩

theorem capacity_releaseAll {pending : List NodeId} (h : d.releaseAll pending = .ok d')
    : d'.capacity = d.capacity := by
  refine releaseAll_induction (P := fun d _ => d'.capacity = d.capacity) rfl ?_ h
  intro d id pending children n _ _ ih
  rw [ih]
  simp [capacity, release]

theorem capacity_discard (h : d.discard id = .ok d') : d'.capacity = d.capacity := by
  obtain ⟨d₁, h₁, h⟩ := bind_eq_ok.1 h
  exact (capacity_releaseAll h).trans (sameSlots_remove h₁).size

theorem capacity_discardChildren (h : d.discardChildren p = .ok d') : d'.capacity = d.capacity := by
  refine discardChildren_induction (P := fun d => d'.capacity = d.capacity) (fun _ => rfl) ?_ h
  intro d child d₁ _ h₁ _ ih
  exact ih.trans (capacity_discard h₁)

theorem capacity_setText {s : String} (h : d.setText id s = .ok d') : d'.capacity = d.capacity := by
  obtain ⟨c, _, h⟩ := bind_eq_ok.1 h
  cases c <;> cases h
  . rfl
  . exact (SameSlots.modify d id _).size
  . exact (SameSlots.modify d id _).size

theorem capacity_modifyElement {f : Element → Option Element} {count : Tally → Tally}
    (h : d.modifyElement id f count = .ok d') : d'.capacity = d.capacity := by
  obtain ⟨e, _, h⟩ := bind_eq_ok.1 h
  split at h <;> cases h
  . exact (SameSlots.modify d id _).size
  . rfl

theorem capacity_setProperty {name : String} {value : Value}
    (h : d.setProperty id name value = .ok d') : d'.capacity = d.capacity := by
  unfold setProperty at h
  exact capacity_modifyElement h

theorem capacity_setHandler {event : String} {payload : Value}
    (h : d.setHandler id event payload = .ok d') : d'.capacity = d.capacity := by
  unfold setHandler at h
  exact capacity_modifyElement h

theorem capacity_addClass {token : String} (h : d.addClass id token = .ok d')
    : d'.capacity = d.capacity := by
  obtain ⟨tokens, _, h⟩ := bind_eq_ok.1 h
  split at h
  . cases h
    rfl
  . exact capacity_modifyElement h

theorem capacity_removeClass {token : String} (h : d.removeClass id token = .ok d')
    : d'.capacity = d.capacity := by
  obtain ⟨tokens, _, h⟩ := bind_eq_ok.1 h
  split at h
  . exact capacity_modifyElement h
  . cases h
    rfl

theorem size_le_capacity (d : Document) : d.size ≤ d.capacity :=
  Nat.sub_le _ _

theorem slots_create (content : Content) (hfree : d.free.length ≤ d.slots.size)
    : (d.create content).2.capacity = max d.capacity (d.create content).2.size ∧
      d.size ≤ (d.create content).2.size ∧
      (d.create content).2.free.length ≤ (d.create content).2.slots.size := by
  unfold create capacity size
  cases hf : d.free with
  | nil => simp
  | cons i free =>
    rw [hf, List.length_cons] at hfree
    simp only [Array.size_modify, List.length_cons]
    omega

theorem Call.capacity_run {c : Call} (hwf : d.WellFormed) (h : c.run d = .ok d')
    : d'.capacity = max d.capacity d'.size := by
  have same : d'.capacity = d.capacity → d'.capacity = max d.capacity d'.size := by
    have := d'.size_le_capacity
    omega
  cases c with
  | createElement tag =>
    cases h
    exact (slots_create _ hwf.length_free_le).1
  | createText s =>
    cases h
    exact (slots_create _ hwf.length_free_le).1
  | createComment s =>
    cases h
    exact (slots_create _ hwf.length_free_le).1
  | insertBefore parent id reference => exact same (sameSlots_insertBefore h).size
  | append parent id =>
    unfold run Document.append at h
    exact same (sameSlots_insertBefore h).size
  | remove id => exact same (sameSlots_remove h).size
  | discard id => exact same (capacity_discard h)
  | discardChildren id => exact same (capacity_discardChildren h)
  | setText id s => exact same (capacity_setText h)
  | setAttribute id name value => exact same (capacity_modifyElement h)
  | removeAttribute id name => exact same (capacity_modifyElement h)
  | addClass id token => exact same (capacity_addClass h)
  | removeClass id token => exact same (capacity_removeClass h)
  | setProperty id name value =>
    exact same (capacity_setProperty h)
  | setHandler id event payload =>
    exact same (capacity_setHandler h)

theorem capacity_plant {T : Forest Content} {parent : Option NodeId} {ids : List NodeId}
    (hfree : d.free.length ≤ d.slots.size) (h : d.plant parent T = .ok (ids, d'))
    : d'.capacity = max d.capacity d'.size ∧ d.size ≤ d'.size ∧ d'.free.length ≤ d'.slots.size := by
  induction T generalizing d d' parent ids with
  | nil =>
    cases h
    have := d.size_le_capacity
    omega
  | cons content children siblings ihc ihs =>
    obtain ⟨id, d₁, inner, d₂, d₃, later, h₁, h₂, h₃, h₄, rfl⟩ := plant_cons h
    have hcreate := slots_create content hfree
    rw [h₁] at hcreate
    obtain ⟨hc₂, hs₂, hf₂⟩ := ihc hcreate.2.2 h₂
    have hss : d₂.SameSlots d₃ := by
      rcases h₃ with ⟨-, rfl⟩ | ⟨p, -, h₃⟩
      . exact SameSlots.refl _
      . exact sameSlots_link h₃
    obtain ⟨hc₄, hs₄, hf₄⟩ := ihs (by rw [hss.size, hss.free]; exact hf₂) h₄
    have hcap : d₃.capacity = d₂.capacity := hss.size
    have hsize : d₃.size = d₂.size := by rw [size, size, hss.size, hss.free]
    omega

end Capacity

namespace Run

theorem wellFormed_and_capacity {d : Document} {peak : Nat} (h : Run d peak)
    : d.WellFormed ∧ d.capacity = peak := by
  induction h with
  | empty => exact ⟨WellFormed.empty, rfl⟩
  | call run legal ok ih =>
    obtain ⟨hwf, rfl⟩ := ih
    obtain ⟨d', hd', hwf'⟩ := hwf.call legal
    cases ok.symm.trans hd'
    exact ⟨hwf', Call.capacity_run hwf ok⟩
  | copy run from_run live ok ih ihs =>
    obtain ⟨hwf, rfl⟩ := ih
    obtain ⟨root, d', hd', hwf'⟩ := hwf.copy ihs.1 live
    cases ok.symm.trans hd'
    obtain ⟨T, later, hplant⟩ := plant_of_copy ok
    exact ⟨hwf', (capacity_plant hwf.length_free_le hplant).1⟩

theorem exists_paragraph
    : ∃ d c, Run d 2 ∧ d.children ⟨0, 0⟩ = .ok [⟨1, 0⟩] ∧
        d.standing? ⟨0, 0⟩ = some ⟨none, [⟨1, 0⟩], c⟩ := by
  have h₁ : Run _ _ := .call .empty (c := .createElement "p") trivial rfl
  have h₂ : Run _ _ := .call h₁ (c := .createText "a") trivial rfl
  have hlegal : (Call.append ⟨0, 0⟩ ⟨1, 0⟩).Legal ((createElement {} "p").2.createText "a").2 := by
    refine ⟨rfl, rfl, ?_⟩
    intro hw
    rcases Relation.ReflTransGen.cases_head hw with h | ⟨_, ⟨n, hn, hp⟩, _⟩
    . cases h
    . cases hn
      cases hp
  have h₃ : Run _ _ := .call h₂ hlegal rfl
  exact ⟨_, _, h₃, rfl, rfl⟩

/-- Every document of a run is sound, and the run can go on with any legal call. -/
theorem document_invariant {d : Document} {peak : Nat} (h : Run d peak)
    : d.WellFormed ∧ d.capacity = peak ∧
      (∀ id, d.contains id → ∃ ids, d.children id = .ok ids ∧
        d.childrenBackward id = .ok ids.reverse ∧ ids.Nodup ∧
        ∀ c, c ∈ ids ↔ d.parent c = .ok (some id)) ∧
      (∀ c : Call, c.Legal d → ∃ d', c.run d = .ok d') ∧
      ∀ source n id, Run source n → source.contains id → ∃ root d', d.copy source id = .ok (root, d')
    := by
  obtain ⟨hwf, hcap⟩ := h.wellFormed_and_capacity
  refine ⟨hwf, hcap, ?_, ?_, ?_⟩
  . intro id hid
    obtain ⟨a, ks, c, hid⟩ := contains_iff.1 hid
    obtain ⟨n, hn, -⟩ := standing?_eq_some.1 hid
    obtain ⟨hf, hb, hnd, hmem⟩ := hwf.traversal hn
    refine ⟨d.kids id, hf, hb, hnd, ?_⟩
    intro c
    rw [parent_eq_ok]
    exact hmem c
  . intro c hc
    obtain ⟨d', hd', -⟩ := hwf.call hc
    exact ⟨d', hd'⟩
  . intro source n id hs hid
    obtain ⟨root, d', hd', -⟩ := hwf.copy hs.wellFormed_and_capacity.1 hid
    exact ⟨root, d', hd'⟩

theorem document_invariant_paragraph
    : ∃ d, Run d 2 ∧ d.children ⟨0, 0⟩ = .ok [⟨1, 0⟩] ∧ d.WellFormed ∧ d.capacity = 2 ∧
        (∀ id, d.contains id → ∃ ids, d.children id = .ok ids ∧
          d.childrenBackward id = .ok ids.reverse ∧ ids.Nodup ∧
          ∀ c, c ∈ ids ↔ d.parent c = .ok (some id)) ∧
        (∀ c : Call, c.Legal d → ∃ d', c.run d = .ok d') ∧
        ∀ source n id, Run source n → source.contains id →
          ∃ root d', d.copy source id = .ok (root, d') := by
  obtain ⟨d, c, hrun, hchildren, -⟩ := exists_paragraph
  exact ⟨d, hrun, hchildren, document_invariant hrun⟩

end Run

end VirtualDom.Document

namespace VirtualDom.Host

def paragraph : Host :=
  ⟨(Document.createElement {} "p").2, []⟩

theorem paragraph_run : Document.Run paragraph.document 1 :=
  .call .empty (c := .createElement "p") trivial rfl

end VirtualDom.Host
