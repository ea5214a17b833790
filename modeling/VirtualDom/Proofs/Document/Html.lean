import VirtualDom.Proofs.Document.Run
import VirtualDom.Proofs.Markup.Write

/-!
This module contains the proof that the HTML form of what is below a node is read back as what is below
the node, with adjacent texts joined.
-/

namespace VirtualDom

variable {d : Document} {F : Forest (NodeId × Content)} {M : Multiset (NodeId × Document.Standing)}
  {a : Option NodeId} {p id : NodeId}

namespace Document

/-- Whether reading markup takes the node for what it is. -/
def Lexical (d : Document) (id : NodeId) : Prop :=
  ∀ c, d.content id = .ok c → c.item.Lexical (d.children id = .ok [])

/-- Whether `F` has all nodes below `p`, with what they hold. -/
structure IsBelow (d : Document) (p : NodeId) (F : Forest (NodeId × Content)) : Prop where
  children : d.children p = .ok F.rootIds
  spans : F.Spans d.kids
  content : ∀ n ∈ F.labels, d.content n.1 = .ok n.2

theorem IsBelow.unique {G : Forest (NodeId × Content)} (hF : d.IsBelow p F) (hG : d.IsBelow p G)
    : F = G := by
  have hroots : F.rootIds = G.rootIds := Except.ok.inj (hF.children.symm.trans hG.children)
  have hspansF := hF.spans
  have hspansG := hG.spans
  have hcontentF := hF.content
  have hcontentG := hG.content
  clear hF hG
  induction F generalizing G with
  | nil =>
    cases G with
    | nil => rfl
    | cons => cases hroots
  | cons label children siblings ihc ihs =>
    cases G with
    | nil => cases hroots
    | cons label' children' siblings' =>
      obtain ⟨hid, hrest⟩ := List.cons.inj hroots
      obtain ⟨hkids, hchildren, hsiblings⟩ := hspansF
      obtain ⟨hkids', hchildren', hsiblings'⟩ := hspansG
      have hcontent := hcontentF label List.mem_cons_self
      have hcontent' := hcontentG label' List.mem_cons_self
      have hlabel : label = label' := by
        apply Prod.ext hid
        dsimp only at hid
        rw [← hid, hcontent] at hcontent'
        exact Except.ok.inj hcontent'
      subst hlabel
      have hc := ihc (hkids.symm.trans hkids') hchildren hchildren'
        (fun n hn => hcontentF n (List.mem_cons_of_mem _ (List.mem_append_left _ hn)))
        fun n hn => hcontentG n (List.mem_cons_of_mem _ (List.mem_append_left _ hn))
      have hs := ihs hrest hsiblings hsiblings'
        (fun n hn => hcontentF n (List.mem_cons_of_mem _ (List.mem_append_right _ hn)))
        fun n hn => hcontentG n (List.mem_cons_of_mem _ (List.mem_append_right _ hn))
      rw [hc, hs]

theorem Holds.isBelow {c : Content} (h : d.Holds ((Forest.cons (p, c) F .nil).census a + M))
    : d.below p = .ok F ∧ d.IsBelow p F := by
  rw [Forest.census_single] at h
  obtain ⟨n, hn, -, hk, -⟩ := standing?_eq_some.1 h.parent
  refine ⟨h.below, ?_, h.spans, ?_⟩
  . rw [h.wellFormed.children hn, hk]
  . intro n hn
    obtain ⟨⟨b, ls, e⟩, hs, rfl⟩ := Forest.exists_mem_census_of_label (a := some p) hn
    obtain ⟨m, hm, -, -, hc⟩ := standing?_eq_some.1 (h.left hs)
    rw [Document.content, node_eq_ok.2 hm]
    exact congrArg Except.ok hc

theorem WellFormed.exists_below (h : d.WellFormed) (hp : d.contains p)
    : ∃ F : Forest (NodeId × Content), d.below p = .ok F ∧ d.IsBelow p F ∧
        ∀ id ∈ F.ids, d.Within id p ∧ id ≠ p := by
  obtain ⟨a, ks, c, hp⟩ := contains_iff.1 hp
  obtain ⟨F, M, rfl, hwithin, hT⟩ := h.exists_tree hp
  refine ⟨F, hT.isBelow.1, hT.isBelow.2, fun id hid => ⟨hwithin id hid, ?_⟩⟩
  rintro rfl
  have hnd := hT.nodup_ids
  rw [Forest.ids_cons, List.nodup_cons, List.mem_append] at hnd
  exact hnd.1 (.inl hid)

theorem WellFormed.lexical_iff (h : d.WellFormed) (hs : F.Spans d.kids)
    (hc : ∀ n ∈ F.labels, d.content n.1 = .ok n.2)
    : Markup.Lexical (F.map (·.2.item)) ↔ ∀ n ∈ F.labels, d.Lexical n.1 := by
  induction F with
  | nil => simp [Markup.Lexical, Forest.labels]
  | cons label children siblings ihc ihs =>
    obtain ⟨hkids, hchildren, hsiblings⟩ := hs
    have hcontent := hc label List.mem_cons_self
    have hempty : children.map (·.2.item) = .nil ↔ d.children label.1 = .ok [] := by
      obtain ⟨n, hn, -⟩ := bind_eq_ok.1 hcontent
      rw [h.children (node_eq_ok.1 hn), hkids]
      cases children <;> simp [Forest.rootIds, Forest.roots]
    have hlabel : label.2.item.Lexical (children.map (·.2.item) = .nil) ↔ d.Lexical label.1 := by
      rw [hempty]
      constructor
      . intro hl c hc'
        cases hcontent.symm.trans hc'
        exact hl
      . intro hl
        exact hl _ hcontent
    rw [Forest.map_cons, Markup.Lexical, hlabel,
      ihc hchildren fun n hn => hc n (List.mem_cons_of_mem _ (List.mem_append_left _ hn)),
      ihs hsiblings fun n hn => hc n (List.mem_cons_of_mem _ (List.mem_append_right _ hn))]
    simp only [Forest.labels, List.cons_append, List.mem_cons, List.mem_append, or_imp, forall_and,
      forall_eq]

/--
What is below a node is read back from its HTML form: the same nodes in the same order, but for the
texts, of which adjacent ones are joined and empty ones are dropped.
-/
theorem parse_innerHtml (h : d.WellFormed) (hp : d.contains p)
    (hl : ∀ id, d.Within id p → id ≠ p → d.Lexical id)
    : ∃ (F : Forest (NodeId × Content)) (s : String), d.IsBelow p F ∧ d.innerHtml p = .ok s ∧
        Markup.parse s = .ok (Markup.joinTexts "" (F.map (·.2.item))) := by
  obtain ⟨F, hbelow, hF, hwithin⟩ := h.exists_below hp
  have hlexical : Markup.Lexical (F.map (·.2.item)) := by
    apply (h.lexical_iff hF.spans hF.content).2
    intro n hn
    obtain ⟨hw, hne⟩ := hwithin n.1 (List.mem_map_of_mem hn)
    exact hl n.1 hw hne
  refine ⟨F, .ofList (Html.write (F.map (·.2))), hF, ?_, ?_⟩
  . rw [innerHtml, hbelow]
    rfl
  . rw [← Forest.map_map] at hlexical
    rw [Html.parse_write hlexical, Forest.map_map]

def breaks : Forest Content :=
  .cons (.text "a <") .nil (.cons (.text "br>b") .nil (.cons (.element { tag := "br" }) .nil .nil))

theorem parse_innerHtml_breaks
    : ∃ (d : Document) (p : NodeId) (F : Forest (NodeId × Content)) (s : String),
        d.WellFormed ∧ d.contains p ∧ (∀ id, d.Within id p → id ≠ p → d.Lexical id) ∧
          d.IsBelow p F ∧ F.map (·.2) = breaks ∧ d.innerHtml p = .ok s ∧
            Markup.parse s
              = .ok (.cons (.text "a <br>b") .nil (.cons (.element "br" []) .nil .nil)) := by
  obtain ⟨N, hN⟩ := WellFormed.empty.exists_holds
  obtain ⟨L, d, -, hL, hd⟩ := hN.plant (.cons (.element { tag := "p" }) breaks .nil)
  cases L with
  | nil => cases hL
  | cons label G siblings =>
  obtain ⟨p, c⟩ := label
  simp only [Forest.map_cons, Forest.cons.injEq] at hL
  obtain ⟨rfl, hG, hsiblings⟩ := hL
  cases siblings with
  | cons => cases hsiblings
  | nil =>
  have hp : d.contains p := contains_iff.2 ⟨_, _, _, hd.left (Multiset.mem_cons_self _ _)⟩
  obtain ⟨-, hbelow⟩ := hd.isBelow
  have hlexical : ∀ id, d.Within id p → id ≠ p → d.Lexical id := by
    have hbreaks : Markup.Lexical (breaks.map Content.item) :=
      ⟨trivial, trivial, trivial, trivial, ⟨⟨rfl, List.all_eq_true.1 rfl⟩, by simp, fun _ => rfl⟩, trivial,
        trivial⟩
    rw [← hG, Forest.map_map, hd.wellFormed.lexical_iff hbelow.spans hbelow.content] at hbreaks
    intro id hw hne
    have hid := hd.mem_ids_of_within hw (by simp)
    rw [Forest.ids_cons, List.mem_cons, Forest.ids_nil, List.append_nil] at hid
    obtain ⟨n, hn, rfl⟩ := List.mem_map.1 (hid.resolve_left hne)
    exact hbreaks n hn
  obtain ⟨F, s, hF, hs, hparse⟩ := parse_innerHtml hd.wellFormed hp hlexical
  cases hbelow.unique hF
  refine ⟨d, p, G, s, hd.wellFormed, hp, hlexical, hbelow, hG, hs, ?_⟩
  have hitems : G.map (·.2.item) = breaks.map Content.item := by
    rw [← hG, Forest.map_map]
  rw [hparse, hitems]
  rfl

end Document

end VirtualDom
