import VirtualDom.Proofs.Document.Run
import VirtualDom.Proofs.Forest

/-!
This module contains outlines, which are documents as forests of child lists without any links. The
edits of a document are, on its outline, the edits of such lists.
-/

namespace VirtualDom

def Tally.insertion (t : Tally) (attached : Bool) : Tally :=
  if attached then { t with moved := t.moved + 1 } else { t with inserted := t.inserted + 1 }

def Tally.removal (t : Tally) (attached : Bool) : Tally :=
  if attached then { t with removed := t.removed + 1 } else t

namespace Document

abbrev Outline :=
  NodeId → Option Standing

namespace Outline

/-- Puts `id` into a list right before `reference`, or at the end. -/
def place (id : NodeId) (reference : Option NodeId) (ids : List NodeId) : List NodeId :=
  match reference with
  | some r => ids.takeWhile (· ≠ r) ++ id :: ids.dropWhile (· ≠ r)
  | none => ids ++ [id]

variable (o : Outline)

def parent? (id : NodeId) : Option NodeId :=
  (o id).bind Standing.parent

def Under : NodeId → NodeId → Prop :=
  Relation.ReflTransGen fun x y => o.parent? x = some y

def remove (id : NodeId) : Outline := fun x =>
  (o x).map fun s =>
    { s with
      parent := if x = id then none else s.parent
      children := if o.parent? id = some x then s.children.erase id else s.children }

def attach (p id : NodeId) (reference : Option NodeId) : Outline := fun x =>
  (o x).map fun s =>
    { s with
      parent := if x = id then some p else s.parent
      children := if x = p then place id reference s.children else s.children }

/-- The node `id` leaves its parent and gets among the children of `p`, unless it is to precede itself. -/
def insertBefore (p id : NodeId) (reference : Option NodeId) : Outline :=
  if reference = some id then o else (o.remove id).attach p id reference

open scoped Classical in
/-- The node `id` leaves its parent and is gone with everything below it. -/
noncomputable def discard (id : NodeId) : Outline := fun x =>
  if o.Under x id then none else o.remove id x

open scoped Classical in
noncomputable def discardChildren (p : NodeId) : Outline := fun x =>
  if x ≠ p ∧ o.Under x p then none
  else (o x).map fun s => { s with children := if x = p then [] else s.children }

/--
`o'` is `o` and a copy under the names that `name` gives of everything in `source` from `id` down,
which is in no parent there.
-/
structure Copied (source : Outline) (id : NodeId) (name : NodeId → NodeId) (o' : Outline) : Prop where
  injective : ∀ x y, source.Under x id → source.Under y id → name x = name y → x = y
  fresh : ∀ x, source.Under x id → o (name x) = none
  copy : ∀ x s, source.Under x id → source x = some s →
    o' (name x) = some ⟨if x = id then none else s.parent.map name, s.children.map name, s.content⟩
  other : ∀ y, (∀ x, source.Under x id → name x ≠ y) → o' y = o y

section Lists

variable {id : NodeId} {xs ys : List NodeId}

theorem place_append (h : (xs ++ ys).Nodup) : place id ys.head? (xs ++ ys) = xs ++ id :: ys := by
  cases ys with
  | nil => simp [place]
  | cons y ys =>
    have hxs : ∀ x ∈ xs, x ≠ y := by
      rintro x hx rfl
      exact List.disjoint_of_nodup_append h hx List.mem_cons_self
    rw [List.head?_cons, place, List.takeWhile_append_of_pos (by simpa using hxs),
      List.dropWhile_append_of_pos (by simpa using hxs)]
    simp

theorem erase_append (h : (xs ++ id :: ys).Nodup) : (xs ++ id :: ys).erase id = xs ++ ys := by
  have hxs : id ∉ xs := fun hx => List.disjoint_of_nodup_append h hx List.mem_cons_self
  rw [List.erase_append_right _ hxs, List.erase_cons_head]

end Lists

section Under

variable {o : Outline} {x id : NodeId}

theorem remove_of_root (h : o.parent? id = none) : o.remove id = o := by
  funext x
  unfold remove
  rw [h]
  cases hx : o x with
  | none => rfl
  | some s =>
    have hp : (if x = id then none else s.parent) = s.parent := by
      split
      . next heq =>
        rw [heq] at hx
        rw [parent?, hx] at h
        exact h.symm
      . rfl
    simp [hp]

theorem parent?_remove (o : Outline) (id x : NodeId)
    : (o.remove id).parent? x = if x = id then none else o.parent? x := by
  unfold parent? remove
  cases o x <;> simp

theorem under_of_remove {y : NodeId} (h : (o.remove id).Under x y) : o.Under x y := by
  induction h with
  | refl => exact Relation.ReflTransGen.refl
  | tail _ hyz ih =>
    rw [parent?_remove] at hyz
    split at hyz
    . cases hyz
    . exact ih.tail hyz

theorem under_remove : (o.remove id).Under x id ↔ o.Under x id := by
  constructor
  . exact under_of_remove
  . intro h
    induction h using Relation.ReflTransGen.head_induction_on with
    | refl => exact Relation.ReflTransGen.refl
    | @head y z hyz _ ih =>
      by_cases hy : y = id
      . exact hy ▸ Relation.ReflTransGen.refl
      . exact Relation.ReflTransGen.head (by rwa [parent?_remove, if_neg hy]) ih

end Under

end Outline

variable {d d' : Document} {id p : NodeId} {a : Option NodeId} {ks : List NodeId} {c : Content}

theorem within_iff {x y : NodeId} : d.Within x y ↔ Outline.Under d.standing? x y := by
  have hstep : (fun x y => ∃ n, d.node? x = some n ∧ n.parent = some y)
      = fun x y => Outline.parent? d.standing? x = some y := by
    funext x y
    unfold Outline.parent? standing?
    cases d.node? x <;> simp
  rw [Within, hstep, Outline.Under]

theorem parent?_standing? (h : d.standing? id = some ⟨a, ks, c⟩) : Outline.parent? d.standing? id = a := by
  rw [Outline.parent?, h]
  rfl

theorem parent_eq_ok_iff (h : d.contains id)
    : d.parent id = .ok a ↔ Outline.parent? d.standing? id = a := by
  obtain ⟨b, ks, c, hid⟩ := contains_iff.1 h
  obtain ⟨n, hn, hnb, -⟩ := standing?_eq_some.1 hid
  rw [parent_eq_ok, parent?_standing? hid]
  simp [hn, hnb]

namespace WellFormed

theorem unlink_outline (h : d.WellFormed) (hid : d.contains id)
    : ∃ d', d.unlink id = .ok (d', (Outline.parent? d.standing? id).isSome) ∧ d'.WellFormed ∧
        d'.tally = d.tally ∧ d'.standing? = Outline.remove d.standing? id := by
  obtain ⟨a, ks, c, hid⟩ := contains_iff.1 hid
  rw [parent?_standing? hid]
  cases a with
  | none =>
    exact ⟨d, unlink_root hid, h, rfl, (Outline.remove_of_root (parent?_standing? hid)).symm⟩
  | some p =>
    obtain ⟨b, ls, e, hp, hmem⟩ := h.standing?_parent hid
    obtain ⟨xs, ys, rfl⟩ := List.append_of_mem hmem
    obtain ⟨d', hd', hwf, -, ht, hs⟩ := h.unlink hid hp
    refine ⟨d', hd', hwf, ht, ?_⟩
    funext x
    rw [hs, Outline.remove, parent?_standing? hid]
    split
    . next hx =>
      subst hx
      simp [hid, h.parent_ne hid]
    . next hx =>
      split
      . next hxp =>
        subst hxp
        simp [hp, Outline.erase_append (h.nodup_children hp)]
      . next hxp =>
        cases d.standing? x <;> simp [Ne.symm hxp]

theorem link_outline {reference : Option NodeId} (h : d.WellFormed)
    (hid : d.standing? id = some ⟨none, ks, c⟩) (hp : d.contains p)
    (hr : ∀ r, reference = some r → Outline.parent? d.standing? r = some p) (hw : ¬ d.Within p id)
    : ∃ d', d.link p id reference = .ok d' ∧ d'.WellFormed ∧ d'.tally = d.tally ∧
        d'.standing? = Outline.attach d.standing? p id reference := by
  obtain ⟨b, ls, cp, hp⟩ := contains_iff.1 hp
  have hne : id ≠ p := by
    rintro rfl
    exact hw Relation.ReflTransGen.refl
  -- The reference cuts the children of `p` in two.
  have hcut : ∃ xs ys, ls = xs ++ ys ∧ reference = ys.head? := by
    cases reference with
    | none => exact ⟨ls, [], by simp⟩
    | some r =>
      obtain ⟨⟨_, us, e⟩, hr, rfl⟩ := Option.bind_eq_some_iff.1 (hr r rfl)
      obtain ⟨_, vs, _, hp', hmem⟩ := h.standing?_parent hr
      cases hp.symm.trans hp'
      obtain ⟨xs, ys, rfl⟩ := List.append_of_mem hmem
      exact ⟨xs, r :: ys, rfl, rfl⟩
  obtain ⟨xs, ys, rfl, rfl⟩ := hcut
  obtain ⟨d', hd', hwf, -, ht, hs⟩ := h.link hid hp hw
  refine ⟨d', hd', hwf, ht, ?_⟩
  funext x
  rw [hs, Outline.attach]
  split
  . next hx =>
    subst hx
    simp [hid, hne]
  . next hx =>
    split
    . next hxp =>
      subst hxp
      simp [hp, Outline.place_append (h.nodup_children hp)]
    . next hxp =>
      cases d.standing? x <;> simp

theorem withTally_outline (h : d.WellFormed) (tally : Tally)
    : WellFormed { d with tally } ∧ standing? { d with tally } = d.standing? := by
  obtain ⟨hwf, -, hs⟩ := h.withTally tally
  exact ⟨hwf, funext hs⟩

theorem insertBefore_outline {reference : Option NodeId} (h : d.WellFormed) (hp : d.contains p)
    (hid : d.contains id) (hw : ¬ d.Within p id)
    (hr : ∀ r, reference = some r → r = id ∨ d.parent r = .ok (some p))
    : ∃ d', d.insertBefore p id reference = .ok d' ∧ d'.WellFormed ∧
        d'.standing? = Outline.insertBefore d.standing? p id reference ∧
        d'.tally = if reference = some id then d.tally
          else d.tally.insertion (Outline.parent? d.standing? id).isSome := by
  unfold Document.insertBefore Outline.insertBefore
  by_cases hself : reference = some id
  . simp only [if_pos hself]
    exact ⟨d, rfl, h, rfl, rfl⟩
  simp only [if_neg hself]
  obtain ⟨d₁, hd₁, hwf₁, ht₁, hs₁⟩ := h.unlink_outline hid
  obtain ⟨hwf₂, hs₂⟩ := hwf₁.withTally_outline
    (d₁.tally.insertion (Outline.parent? d.standing? id).isSome)
  rw [hs₁] at hs₂
  have hcontains : ∀ x, d.contains x → contains { d₁ with
      tally := d₁.tally.insertion (Outline.parent? d.standing? id).isSome } x := by
    intro x hx
    obtain ⟨a, ks, c, hx⟩ := contains_iff.1 hx
    refine contains_iff.2 ?_
    rw [hs₂, Outline.remove, hx]
    exact ⟨_, _, _, rfl⟩
  obtain ⟨a, ks, c, hid'⟩ := contains_iff.1 (hcontains id hid)
  have ha : a = none := by
    have := parent?_standing? hid'
    rw [hs₂, Outline.parent?_remove, if_pos rfl] at this
    exact this.symm
  subst ha
  have hreference : ∀ r, reference = some r →
      Outline.parent? (standing? { d₁ with
        tally := d₁.tally.insertion (Outline.parent? d.standing? id).isSome }) r = some p := by
    rintro r rfl
    have hne : r ≠ id := fun heq => hself (congrArg some heq)
    rw [hs₂, Outline.parent?_remove, if_neg hne]
    have hparent := (hr r rfl).resolve_left hne
    obtain ⟨n, hn, -⟩ := parent_eq_ok.1 hparent
    exact (parent_eq_ok_iff (by simp [contains, hn])).1 hparent
  obtain ⟨d', hd', hwf, ht, hs⟩ := hwf₂.link_outline hid' (hcontains p hp) hreference (by
    rw [within_iff, hs₂]
    intro hu
    exact hw (within_iff.2 (Outline.under_of_remove hu)))
  refine ⟨d', ?_, hwf, by rw [hs, hs₂], by rw [ht, ht₁]⟩
  rw [hd₁]
  exact hd'

theorem parent?_of_insertBefore {r : NodeId} (h : d.WellFormed) (hne : r ≠ id)
    (hd : d.insertBefore p id (some r) = .ok d') : Outline.parent? d.standing? r = some p := by
  rw [Document.insertBefore, if_neg fun heq => hne (Option.some.inj heq)] at hd
  obtain ⟨⟨d₁, attached⟩, hun, hd⟩ := bind_eq_ok.1 hd
  obtain ⟨n, hn, -⟩ := bind_eq_ok.1 hun
  have hid : d.contains id := by simp [contains, node_eq_ok.1 hn]
  obtain ⟨d₂, hun', -, -, hs⟩ := h.unlink_outline hid
  cases hun.symm.trans hun'
  obtain ⟨prev, hprev, -⟩ := bind_eq_ok.1 hd
  obtain ⟨m, hm, hprev⟩ := bind_eq_ok.1 hprev
  have hm : d₁.node? r = some m := node_eq_ok.1 hm
  split at hprev
  . next hparent =>
    have hp : Outline.parent? d₁.standing? r = some p := by
      simp [Outline.parent?, standing?, hm, hparent]
    rwa [hs, Outline.parent?_remove, if_neg hne] at hp
  . cases hprev

theorem remove_outline (h : d.WellFormed) (hid : d.contains id)
    : ∃ d', d.remove id = .ok d' ∧ d'.WellFormed ∧ d'.standing? = Outline.remove d.standing? id ∧
        d'.tally = d.tally.removal (Outline.parent? d.standing? id).isSome := by
  obtain ⟨d₁, hd₁, hwf₁, ht₁, hs₁⟩ := h.unlink_outline hid
  obtain ⟨hwf, hs⟩ := hwf₁.withTally_outline
    (d₁.tally.removal (Outline.parent? d.standing? id).isSome)
  refine ⟨_, ?_, hwf, hs.trans hs₁, by rw [ht₁]⟩
  rw [Document.remove, hd₁]
  rfl

end WellFormed

section Gone

variable {F : Forest (NodeId × Content)} {M A B : Multiset (NodeId × Standing)} {x : NodeId}

theorem Holds.standing?_elsewhere (h : d.Holds (A + M)) (h' : d'.Holds (B + M))
    (hA : x ∉ A.map (·.1)) (hB : x ∉ B.map (·.1)) : d'.standing? x = d.standing? x := by
  apply Option.ext
  intro s
  have hA : (x, s) ∉ A := fun hx => hA (Multiset.mem_map_of_mem (·.1) hx)
  have hB : (x, s) ∉ B := fun hx => hB (Multiset.mem_map_of_mem (·.1) hx)
  rw [← h.mem, ← h'.mem, Multiset.mem_add, Multiset.mem_add]
  simp [hA, hB]

theorem Holds.not_mem_rest (h : d.Holds (F.census a + M)) (hx : x ∈ F.ids) (s : Standing)
    : (x, s) ∉ M := by
  intro hs
  obtain ⟨t, ht⟩ := Forest.exists_mem_census (a := a) hx
  exact h.ne ht hs rfl

theorem Holds.standing?_eq_none (h : d.Holds M) (hx : ∀ s, (x, s) ∉ M) : d.standing? x = none := by
  rw [Option.eq_none_iff_forall_ne_some]
  exact fun s hs => hx s ((h.mem x s).2 hs)

theorem tally_releaseAll {pending : List NodeId} (h : d.releaseAll pending = .ok d')
    : d'.tally = d.tally :=
  releaseAll_induction (P := fun d _ => d'.tally = d.tally) rfl (fun _ _ _ _ _ _ _ ih => ih) h

end Gone

namespace WellFormed

theorem exists_tree_under (h : d.WellFormed) (hid : d.standing? id = some ⟨a, ks, c⟩)
    : ∃ (F : Forest (NodeId × Content)) (M : _), F.rootIds = ks ∧
        (∀ x, Outline.Under d.standing? x id ↔ x ∈ (Forest.cons (id, c) F .nil).ids) ∧
        d.Holds ((Forest.cons (id, c) F .nil).census a + M) := by
  obtain ⟨F, M, hF, hw, hT⟩ := h.exists_tree hid
  refine ⟨F, M, hF, ?_, hT⟩
  intro x
  rw [← within_iff]
  constructor
  . exact fun hx => hT.mem_ids_of_within hx (by simp)
  . intro hx
    simp only [Forest.ids_cons, Forest.ids_nil, List.append_nil, List.mem_cons] at hx
    rcases hx with rfl | hx
    . exact Relation.ReflTransGen.refl
    . exact hw x hx

theorem discard_outline (h : d.WellFormed) (hid : d.contains id)
    : ∃ d', d.discard id = .ok d' ∧ d'.WellFormed ∧ d'.standing? = Outline.discard d.standing? id ∧
        d'.tally = d.tally.removal (Outline.parent? d.standing? id).isSome := by
  obtain ⟨d₁, hd₁, hwf₁, hs₁, ht₁⟩ := h.remove_outline hid
  obtain ⟨a, ks, c, hid⟩ := contains_iff.1 hid
  have hid₁ : d₁.standing? id = some ⟨none, (if a = some id then ks.erase id else ks), c⟩ := by
    rw [hs₁, Outline.remove, hid, parent?_standing? hid]
    simp
  obtain ⟨F, M, -, hunder, hT⟩ := hwf₁.exists_tree_under hid₁
  obtain ⟨d', hd', hM⟩ := hT.releaseAll
  simp only [hs₁, Outline.under_remove] at hunder
  refine ⟨d', ?_, hM.wellFormed, ?_, by rw [tally_releaseAll hd', ht₁]⟩
  . simp only [Document.discard, hd₁, bind, Except.bind]
    exact hd'
  . funext x
    rw [Outline.discard, ← hs₁]
    split
    . next hx => exact hM.standing?_eq_none (hT.not_mem_rest ((hunder x).1 hx))
    . next hx =>
      rw [← Multiset.zero_add M] at hM
      refine hT.standing?_elsewhere hM ?_ (by simp)
      rw [Forest.map_census]
      exact fun hmem => hx ((hunder x).2 (Multiset.mem_coe.1 hmem))

theorem discardChildren_outline (h : d.WellFormed) (hp : d.contains p)
    : ∃ d', d.discardChildren p = .ok d' ∧ d'.WellFormed ∧
        d'.standing? = Outline.discardChildren d.standing? p := by
  obtain ⟨a, ks, c, hp⟩ := contains_iff.1 hp
  obtain ⟨F, M, rfl, hunder, hT⟩ := h.exists_tree_under hp
  have hnot : p ∉ F.ids := by
    have := hT.nodup_ids
    rw [Forest.ids_cons] at this
    exact fun hmem => (List.nodup_cons.1 this).1 (List.mem_append_left _ hmem)
  have hbelow : ∀ x, x ≠ p ∧ Outline.Under d.standing? x p ↔ x ∈ F.ids := by
    intro x
    rw [hunder]
    constructor
    . rintro ⟨hne, hx⟩
      simpa [hne] using hx
    . intro hx
      exact ⟨fun heq => hnot (heq ▸ hx), by simp [hx]⟩
  rw [Forest.census_single] at hT
  obtain ⟨d', hd', hM⟩ := hT.discardChildren
  refine ⟨d', hd', hM.wellFormed, ?_⟩
  funext x
  rw [Outline.discardChildren]
  by_cases hgone : x ≠ p ∧ Outline.Under d.standing? x p
  . rw [if_pos hgone]
    apply hM.standing?_eq_none
    intro s hs
    have hrest := (Multiset.mem_cons.1 hs).resolve_left fun heq => hgone.1 (Prod.mk.inj heq).1
    exact hT.not_mem_rest ((hbelow x).1 hgone) s (Multiset.mem_cons_of_mem hrest)
  . rw [if_neg hgone]
    by_cases hx : x = p
    . subst hx
      rw [hM.head, hp]
      simp
    . have hmem : x ∉ F.ids := fun hmem => hgone ((hbelow x).2 hmem)
      have hsame : d'.standing? x = d.standing? x := by
        have hs : F.census (some p) + (p, ⟨a, F.rootIds, c⟩) ::ₘ M
            = (F.census (some p) + {(p, ⟨a, F.rootIds, c⟩)}) + M := by
          rw [← Multiset.singleton_add, ← Multiset.add_assoc]
        rw [hs] at hT
        rw [← Multiset.singleton_add] at hM
        refine hT.standing?_elsewhere hM ?_ (by simpa using hx)
        rw [Multiset.map_add, Forest.map_census, Multiset.mem_add]
        simp [hmem, hx]
      rw [hsame]
      cases d.standing? x <;> simp [hx]

end WellFormed

end Document

namespace Forest

variable {T L : Forest (NodeId × Content)} {a : Option NodeId} {f : NodeId → NodeId}

def rename (f : NodeId → NodeId) (T : Forest (NodeId × Content)) : Forest (NodeId × Content) :=
  T.map fun n => (f n.1, n.2)

theorem rootIds_rename : (T.rename f).rootIds = T.rootIds.map f := by
  induction T with
  | nil => rfl
  | cons n children siblings _ ih =>
    unfold rename at ih ⊢
    rw [map_cons, rootIds_cons, rootIds_cons, ih, List.map_cons]

theorem census_rename
    : (T.rename f).census (a.map f)
      = (T.census a).map fun e =>
          (f e.1, ⟨e.2.parent.map f, e.2.children.map f, e.2.content⟩) := by
  induction T generalizing a with
  | nil => rfl
  | cons n children siblings ihc ihs =>
    have hroots : (children.rename f).rootIds = children.rootIds.map f := rootIds_rename
    have hc := ihc (a := some n.1)
    have hs := ihs (a := a)
    unfold rename at hroots hc hs ⊢
    rw [Option.map_some] at hc
    rw [map_cons, census_cons, census_cons, hroots, hc, hs]
    simp

theorem length_ids_of_map_eq (h : L.map (·.2) = T.map (·.2)) : L.ids.length = T.ids.length := by
  have := congrArg (·.labels.length) h
  simpa [ids, labels_map] using this

theorem eq_rename (hmap : L.map (·.2) = T.map (·.2)) (hids : L.ids = T.ids.map f)
    : L = T.rename f := by
  induction T generalizing L with
  | nil =>
    cases L with
    | nil => rfl
    | cons _ _ _ => cases hmap
  | cons n children siblings ihc ihs =>
    cases L with
    | nil => cases hmap
    | cons m below after =>
      injection hmap with hn hbelow hafter
      rw [ids_cons, ids_cons, List.map_cons, List.map_append] at hids
      injection hids with hid hids
      obtain ⟨hb, ha⟩ := List.append_inj hids
        (by rw [List.length_map]; exact length_ids_of_map_eq hbelow)
      have hc := ihc hbelow hb
      have hs := ihs hafter ha
      unfold rename at hc hs ⊢
      rw [map_cons, ← hc, ← hs, ← hid, ← show m.2 = n.2 from hn]

end Forest

namespace Document.WellFormed

variable {d : Document} {id : NodeId}

theorem exists_rename {xs ys : List NodeId} (hnd : xs.Nodup) (hlength : ys.length = xs.length)
    : ∃ f, ys = xs.map f := by
  induction xs generalizing ys with
  | nil => exact ⟨fun x => x, List.length_eq_zero_iff.1 hlength⟩
  | cons x xs ih =>
    cases ys with
    | nil => cases hlength
    | cons y ys =>
      rw [List.nodup_cons] at hnd
      obtain ⟨f, rfl⟩ := ih hnd.2 (Nat.succ.inj hlength)
      refine ⟨Function.update f x y, ?_⟩
      rw [List.map_cons, Function.update_self]
      congr 1
      apply List.map_congr_left
      intro z hz
      rw [Function.update_of_ne]
      rintro rfl
      exact hnd.1 hz

theorem copy_outline {source : Document} (h : d.WellFormed) (hs : source.WellFormed)
    (hid : source.contains id)
    : ∃ name d', d.copy source id = .ok (name id, d') ∧ d'.WellFormed ∧
        Outline.Copied d.standing? source.standing? id name d'.standing? := by
  obtain ⟨a, ks, c, hid⟩ := contains_iff.1 hid
  obtain ⟨F, M, rfl, hunder, hT⟩ := hs.exists_tree_under hid
  obtain ⟨N, hN⟩ := h.exists_holds
  obtain ⟨L, d', hd', hL, hM⟩ := hN.plant ((Forest.cons (id, c) F .nil).map (·.2))
  obtain ⟨name, hids⟩ := exists_rename hT.nodup_ids (Forest.length_ids_of_map_eq hL)
  have hrename := Forest.eq_rename hL hids
  have hcopied : ∀ x, Outline.Under source.standing? x id → name x ∈ L.ids := by
    intro x hx
    rw [hids]
    exact List.mem_map_of_mem ((hunder x).1 hx)
  refine ⟨name, d', ?_, hM.wellFormed, ?_, ?_, ?_, ?_⟩
  . simp only [Document.copy, hT.subtree (Forest.rootIds_cons id c F .nil), hd', hrename,
      Forest.rootIds_rename, bind, Except.bind]
    rfl
  . intro x y hx hy hxy
    have hnd := hM.nodup_ids
    rw [hids] at hnd
    exact List.inj_on_of_nodup_map hnd ((hunder x).1 hx) ((hunder y).1 hy) hxy
  . exact fun x hx => hN.standing?_eq_none (hM.not_mem_rest (hcopied x hx))
  . intro x s hx hs
    have hcensus : L.census none = (name id, ⟨none, F.rootIds.map name, c⟩) ::ₘ
        (F.census (some id)).map fun e =>
          (name e.1, ⟨e.2.parent.map name, e.2.children.map name, e.2.content⟩) := by
      rw [← Forest.census_rename, hrename, ← Forest.rootIds_rename]
      simp [Forest.rename, Forest.census_cons]
    by_cases hxid : x = id
    . subst hxid
      cases hid.symm.trans hs
      rw [if_pos rfl]
      exact hM.left (by rw [hcensus]; exact Multiset.mem_cons_self _ _)
    . rw [if_neg hxid]
      have hmem : x ∈ F.ids := by simpa [hxid] using (hunder x).1 hx
      obtain ⟨t, ht⟩ := Forest.exists_mem_census (a := some id) hmem
      have ht' : source.standing? x = some t := by
        rw [Forest.census_single] at hT
        exact hT.left ht
      cases hs.symm.trans ht'
      apply hM.left
      rw [hcensus]
      exact Multiset.mem_cons_of_mem (Multiset.mem_map_of_mem _ ht)
  . intro y hy
    rw [← Multiset.zero_add N] at hN
    refine hN.standing?_elsewhere hM (by simp) ?_
    rw [Forest.map_census, hids]
    intro hmem
    obtain ⟨x, hx, rfl⟩ := List.mem_map.1 (Multiset.mem_coe.1 hmem)
    exact hy x ((hunder x).2 hx) rfl

/-- An outline is what can be read off a document. -/
theorem standing?_iff (h : d.WellFormed) {s : Standing}
    : d.standing? id = some s ↔ d.parent id = .ok s.parent ∧ d.children id = .ok s.children ∧
        d.content id = .ok s.content := by
  obtain ⟨a, ks, c⟩ := s
  rw [standing?_eq_some]
  constructor
  . rintro ⟨n, hn, rfl, rfl, rfl⟩
    refine ⟨parent_eq_ok.2 ⟨n, hn, rfl⟩, h.children hn, ?_⟩
    simp only [Document.content, node_eq_ok.2 hn, bind, Except.bind]
    rfl
  . rintro ⟨hparent, hchildren, hcontent⟩
    obtain ⟨n, hn, rfl⟩ := parent_eq_ok.1 hparent
    rw [h.children hn] at hchildren
    simp only [Document.content, node_eq_ok.2 hn, bind, Except.bind] at hcontent
    cases hchildren
    cases hcontent
    exact ⟨n, hn, rfl, rfl, rfl⟩

/--
A well-formed document is a forest of child lists, and the edits of its tree are edits of these lists.
They leave it well-formed and count what they do.
-/
theorem refines_outline (h : d.WellFormed)
    : (∀ id s, d.standing? id = some s ↔ d.parent id = .ok s.parent ∧
        d.children id = .ok s.children ∧ d.content id = .ok s.content) ∧
      (∀ p id reference, (Call.insertBefore p id reference).Legal d →
        ∃ d', d.insertBefore p id reference = .ok d' ∧ d'.WellFormed ∧
          d'.standing? = Outline.insertBefore d.standing? p id reference ∧
          d'.tally = if reference = some id then d.tally
            else d.tally.insertion (Outline.parent? d.standing? id).isSome) ∧
      (∀ id, (Call.remove id).Legal d →
        ∃ d', d.remove id = .ok d' ∧ d'.WellFormed ∧
          d'.standing? = Outline.remove d.standing? id ∧
          d'.tally = d.tally.removal (Outline.parent? d.standing? id).isSome) ∧
      (∀ id, (Call.discard id).Legal d →
        ∃ d', d.discard id = .ok d' ∧ d'.WellFormed ∧
          d'.standing? = Outline.discard d.standing? id ∧
          d'.tally = d.tally.removal (Outline.parent? d.standing? id).isSome) ∧
      (∀ p, (Call.discardChildren p).Legal d →
        ∃ d', d.discardChildren p = .ok d' ∧ d'.WellFormed ∧
          d'.standing? = Outline.discardChildren d.standing? p) ∧
      ∀ source id, source.WellFormed → source.contains id →
        ∃ name d', d.copy source id = .ok (name id, d') ∧ d'.WellFormed ∧
          Outline.Copied d.standing? source.standing? id name d'.standing? :=
  ⟨fun _ _ => h.standing?_iff, fun _ _ _ hc => h.insertBefore_outline hc.1 hc.2.1 hc.2.2.1 hc.2.2.2,
    fun _ hc => h.remove_outline hc, fun _ hc => h.discard_outline hc,
    fun _ hc => h.discardChildren_outline hc, fun _ _ hs hid => h.copy_outline hs hid⟩

theorem refines_outline_paragraph
    : ∃ d : Document, d.WellFormed ∧ d.children ⟨0, 0⟩ = .ok [⟨1, 0⟩] ∧ d.contains ⟨2, 0⟩ ∧
        (∃ d', d.insertBefore ⟨0, 0⟩ ⟨2, 0⟩ (some ⟨1, 0⟩) = .ok d' ∧
          d'.children ⟨0, 0⟩ = .ok [⟨2, 0⟩, ⟨1, 0⟩]) ∧
        (∃ d', d.remove ⟨1, 0⟩ = .ok d' ∧ d'.children ⟨0, 0⟩ = .ok []) ∧
        (∃ d', d.discard ⟨0, 0⟩ = .ok d' ∧ d'.standing? ⟨1, 0⟩ = none) ∧
        (∃ d', d.discardChildren ⟨0, 0⟩ = .ok d' ∧ d'.standing? ⟨1, 0⟩ = none) ∧
        ∃ (name : NodeId → NodeId) (d' : Document), d.copy d ⟨0, 0⟩ = .ok (name ⟨0, 0⟩, d') ∧
          d'.children (name ⟨0, 0⟩) = .ok [name ⟨1, 0⟩] := by
  have hroot : ∀ {d : Document} {n : Node} {id : NodeId}, d.node? ⟨0, 0⟩ = some n → n.parent = none →
      id ≠ ⟨0, 0⟩ → ¬ d.Within ⟨0, 0⟩ id := by
    intro d n id hn hroot hne hw
    rcases Relation.ReflTransGen.cases_head hw with h | ⟨_, ⟨m, hm, hp⟩, _⟩
    . exact hne h.symm
    . cases hn.symm.trans hm
      cases hroot.symm.trans hp
  have h₁ : Run _ _ := .call .empty (c := .createElement "p") trivial rfl
  have h₂ : Run _ _ := .call h₁ (c := .createText "a") trivial rfl
  have h₃ : Run _ _ := .call h₂ (c := .append ⟨0, 0⟩ ⟨1, 0⟩) ⟨rfl, rfl, hroot rfl rfl (by decide)⟩ rfl
  have h₄ : Run _ _ := .call h₃ (c := .createText "b") trivial rfl
  have hwf := h₄.wellFormed_and_capacity.1
  have hchild : ∀ {o : Outline}, o.parent? ⟨1, 0⟩ = some ⟨0, 0⟩ → o.Under ⟨1, 0⟩ ⟨0, 0⟩ :=
    fun h => Relation.ReflTransGen.single h
  obtain ⟨-, hinsert, hremove, hdiscard, hclear, hcopy⟩ := refines_outline hwf
  refine ⟨_, hwf, rfl, rfl, ?_, ?_, ?_, ?_, ?_⟩
  . obtain ⟨d', hd', hwf', hs, -⟩ := hinsert ⟨0, 0⟩ ⟨2, 0⟩ (some ⟨1, 0⟩)
      ⟨rfl, rfl, hroot rfl rfl (by decide), by rintro _ ⟨⟩; exact .inr rfl⟩
    exact ⟨d', hd', hwf'.children_of_standing? ((congrFun hs _).trans rfl)⟩
  . obtain ⟨d', hd', hwf', hs, -⟩ := hremove ⟨1, 0⟩ rfl
    exact ⟨d', hd', hwf'.children_of_standing? ((congrFun hs _).trans rfl)⟩
  . obtain ⟨d', hd', -, hs, -⟩ := hdiscard ⟨0, 0⟩ rfl
    exact ⟨d', hd', (congrFun hs _).trans (if_pos (hchild rfl))⟩
  . obtain ⟨d', hd', -, hs⟩ := hclear ⟨0, 0⟩ rfl
    exact ⟨d', hd', (congrFun hs _).trans (if_pos ⟨by decide, hchild rfl⟩)⟩
  . obtain ⟨name, d', hd', hwf', hs⟩ := hcopy _ ⟨0, 0⟩ hwf rfl
    exact ⟨name, d', hd', hwf'.children_of_standing?
      (hs.copy ⟨0, 0⟩ _ Relation.ReflTransGen.refl rfl)⟩

end Document.WellFormed

end VirtualDom
