import VirtualDom.Proofs.Document.Run
import VirtualDom.Proofs.View.Binding

/-!
This module contains what bags of attributes leave on an element: after an update just the attributes of
the last bag, whatever the bag before it was, unless both are lists and the last one is not a pair.
-/

namespace VirtualDom

open Engine

/-- No key is twice in the bag, and the values in it agree with their allocations. -/
structure Value.BagFrom (alloc : Allocations) (bag : Value) : Prop where
  nodup : (Dict.keys (Template.Binding.bagEntries bag)).Nodup
  value : ∀ entry ∈ Template.Binding.bagEntries bag, entry.2.From alloc

theorem Value.attribute?_eq_of_same {alloc : Allocations} {v w : Value} (hv : v.From alloc)
    (hw : w.From alloc) (h : v.same w) : v.attribute? = w.attribute? := by
  have htext := Value.text_eq_of_same hv hw h
  cases v <;> cases w <;> simp only [Value.same, beq_iff_eq, Bool.false_eq_true] at h
  case bool.bool => rw [h]
  all_goals exact congrArg some htext

namespace Element

variable {e : Element} {attributes : List (String × Value)} {name : String}

theorem get?_withAttributes (hnd : (Dict.keys attributes).Nodup)
    : (e.withAttributes attributes).attributes.get? name
        = ((Dict.get? attributes name).map Value.attribute?).getD (e.attributes.get? name) := by
  induction attributes generalizing e with
  | nil => rfl
  | cons entry rest ih =>
    obtain ⟨k, v⟩ := entry
    obtain ⟨hk, hrest⟩ := List.nodup_cons.1 hnd
    refine (ih hrest).trans ?_
    simp only [withAttribute, Dict.get?_assign, Dict.get?]
    by_cases heq : k = name
    . subst heq
      simp [Dict.get?_eq_none_iff.2 hk]
    . simp [heq]

theorem get?_withoutAttributes {names : List String}
    : (e.withoutAttributes names).attributes.get? name
        = if name ∈ names then none else e.attributes.get? name := by
  induction names generalizing e with
  | nil => simp [withoutAttributes]
  | cons first rest ih =>
    refine ih.trans ?_
    simp only [withAttribute, Dict.get?_assign]
    by_cases hrest : name ∈ rest
    . simp [hrest]
    . by_cases hfirst : name = first
      . simp [hfirst]
      . simp [hrest, hfirst, Ne.symm hfirst]

/--
An element on which some attributes were written has those of another list alone, when the names in
`stale` are taken away and those in `fresh` are written: what was written before and is not to stay is
stale, and what is not fresh was there before with the same value.
-/
theorem get?_replaced {old fresh : List (String × Value)} {stale : List String}
    (hnd : (Dict.keys attributes).Nodup) (hold : (Dict.keys old).Nodup)
    (hfresh : (Dict.keys fresh).Nodup) (hstale : stale ⊆ Dict.keys old)
    (free : ∀ name ∈ Dict.keys old, e.attributes.get? name = none)
    (gone : ∀ name ∈ Dict.keys old, name ∉ Dict.keys attributes → name ∈ stale)
    (kept : ∀ name, Dict.get? fresh name = Dict.get? attributes name ∨
      (Dict.get? fresh name = none ∧ name ∉ stale ∧ ∃ v w, Dict.get? attributes name = some v ∧
        Dict.get? old name = some w ∧ v.attribute? = w.attribute?))
    : (((e.withAttributes old).withoutAttributes stale).withAttributes fresh).attributes.get? name
        = (e.withAttributes attributes).attributes.get? name := by
  rw [get?_withAttributes hfresh, get?_withoutAttributes, get?_withAttributes hold,
    get?_withAttributes hnd]
  rcases kept name with hsame | ⟨hnone, hname, v, w, hv, hw, heq⟩
  . rw [hsame]
    cases hv : Dict.get? attributes name with
    | some v => rfl
    | none =>
      rw [Dict.get?_eq_none_iff] at hv
      simp only [Option.map_none, Option.getD_none]
      by_cases hk : name ∈ Dict.keys old
      . rw [if_pos (gone name hk hv), free name hk]
      . rw [if_neg fun hs => hk (hstale hs), Dict.get?_eq_none_iff.2 hk]
        rfl
  . rw [hnone, if_neg hname, hv, hw]
    exact heq.symm

end Element

theorem Document.Holds.attribute?_element {d : Document} {M : Multiset (NodeId × Document.Standing)}
    {id : NodeId} {a : Option NodeId} {ks : List NodeId} {e : Element}
    (h : d.Holds ((id, ⟨a, ks, .element e⟩) ::ₘ M)) {name : String}
    : d.attribute? id name = .ok (e.attributes.get? name) := by
  unfold attribute? element?
  rw [h.content]
  rfl

namespace Template.Binding

variable {alloc : Allocations} {bag old : Value}

/-- The bag whose attributes an element has when `bag` comes after `old`. -/
def lasting : Value → Value → Value
  | .list identity items, .list oldIdentity oldItems =>
    if (pair? items).isNone then .list oldIdentity oldItems else .list identity items
  | value, _ => value

theorem exists_of_isKept {oldEntries : List (String × Value)} {name : String} {value : Value}
    (hkept : isKept oldEntries (name, value))
    : ∃ w, Dict.get? oldEntries name = some w ∧ w.same value := by
  unfold isKept at hkept
  cases hw : Dict.get? oldEntries name with
  | none => simp [hw] at hkept
  | some w => exact ⟨w, rfl, by simpa [hw] using hkept⟩

theorem renewed_sublist (bag old : Value) : (renewed bag old).Sublist (bagEntries bag) := by
  unfold renewed
  split
  . next items _ oldItems =>
    rw [bagEntries]
    cases pair? items with
    | none => exact .refl _
    | some entry =>
      cases pair? oldItems with
      | none => exact .refl _
      | some oldEntry =>
        dsimp only
        split
        . exact List.nil_sublist _
        . exact .refl _
  . exact List.filter_sublist
  . exact .refl _

theorem nodup_keys_renewed (h : (Dict.keys (bagEntries bag)).Nodup) (old : Value)
    : (Dict.keys (renewed bag old)).Nodup :=
  h.sublist ((renewed_sublist bag old).map _)

theorem get?_updated_pair {e : Element} {k l : String} {v w : Value} (hv : v.From alloc)
    (hw : w.From alloc) (free : ∀ name ∈ Dict.keys [(l, w)], e.attributes.get? name = none) (name : String)
    : (((e.withAttributes [(l, w)]).withoutAttributes (if k ≠ l then [l] else [])).withAttributes
        (if k = l && v.same w then [] else [(k, v)])).attributes.get? name
        = (e.withAttributes [(k, v)]).attributes.get? name := by
  refine Element.get?_replaced (by simp [Dict.keys]) (by simp [Dict.keys]) ?_ ?_ free ?_ ?_
  . split <;> simp [Dict.keys]
  . split <;> simp [Dict.keys]
  . intro name hname hnot
    simp only [Dict.keys, List.map_cons, List.map_nil, List.mem_singleton] at hname hnot
    simp [hname ▸ Ne.symm hnot, hname]
  . intro name
    by_cases hkl : k = l
    . subst hkl
      cases hsame : v.same w with
      | false => exact .inl (by simp)
      | true =>
        by_cases hname : k = name
        . subst hname
          exact .inr ⟨by simp [Dict.get?], by simp, v, w, by simp [Dict.get?],
            by simp [Dict.get?], Value.attribute?_eq_of_same hv hw hsame⟩
        . exact .inl (by simp [Dict.get?, hname])
    . exact .inl (by simp [hkl])

theorem get?_updated_map {e : Element} {i j : Nat} {entries oldEntries : List (String × Value)}
    (hbag : (Value.map i entries).BagFrom alloc) (hold : (Value.map j oldEntries).BagFrom alloc)
    (free : ∀ name ∈ Dict.keys oldEntries, e.attributes.get? name = none) (name : String)
    : (((e.withAttributes oldEntries).withoutAttributes
        (outdated (.map i entries) (.map j oldEntries))).withAttributes
          (renewed (.map i entries) (.map j oldEntries))).attributes.get? name
        = (e.withAttributes entries).attributes.get? name := by
  have hrenewed : ∀ name, Dict.get? (renewed (.map i entries) (.map j oldEntries)) name
      = (Dict.get? entries name).filter fun value => !isKept oldEntries (name, value) :=
    fun name => Dict.get?_filter hbag.nodup _
  refine Element.get?_replaced hbag.nodup hold.nodup (nodup_keys_renewed hbag.nodup _)
    List.filter_sublist.subset free ?_ ?_
  . intro name hname hnot
    exact List.mem_filter.2 ⟨hname, by simpa using hnot⟩
  . intro name
    rw [hrenewed]
    cases hv : Dict.get? entries name with
    | none => exact .inl (by simp)
    | some v =>
      cases hkept : isKept oldEntries (name, v) with
      | false => exact .inl (by simp [hkept])
      | true =>
        obtain ⟨w, hw, hsame⟩ := exists_of_isKept hkept
        have hname : name ∈ Dict.keys entries := by
          rw [← Dict.get?_isSome_iff, hv]
          rfl
        refine .inr ⟨by simp [hkept], ?_, v, w, rfl, hw, ?_⟩
        . intro hstale
          have := (List.mem_filter.1 hstale).2
          simp [hname] at this
        . exact (Value.attribute?_eq_of_same (hold.value _ (Dict.mem_of_get? hw))
            (hbag.value _ (Dict.mem_of_get? hv)) hsame).symm

theorem get?_updated {e : Element} (hbag : bag.BagFrom alloc) (hold : old.BagFrom alloc)
    (free : ∀ name ∈ Dict.keys (bagEntries old), e.attributes.get? name = none) (name : String)
    : (((e.withAttributes (bagEntries old)).withoutAttributes (outdated bag old)).withAttributes
        (renewed bag old)).attributes.get? name
        = (e.withAttributes (bagEntries (lasting bag old))).attributes.get? name := by
  -- Where the two are not of the same form, all of the old bag goes and all of the new one comes.
  have other : outdated bag old = Dict.keys (bagEntries old) → renewed bag old = bagEntries bag →
      lasting bag old = bag → (((e.withAttributes (bagEntries old)).withoutAttributes
        (outdated bag old)).withAttributes (renewed bag old)).attributes.get? name
          = (e.withAttributes (bagEntries (lasting bag old))).attributes.get? name := by
    intro houtdated hrenewed hlasting
    rw [houtdated, hrenewed, hlasting]
    exact Element.get?_replaced hbag.nodup hold.nodup hbag.nodup (fun _ h => h) free
      (fun _ h _ => h) fun _ => .inl rfl
  cases bag with
  | list i items =>
    cases old with
    | list j oldItems =>
      cases hp : pair? items with
      | none =>
        simp only [outdated, renewed, lasting, bagEntries, hp]
        rfl
      | some entry =>
        obtain ⟨k, v⟩ := entry
        have hentries : bagEntries (.list i items) = [(k, v)] := by simp [bagEntries, hp]
        have hlasting : lasting (.list i items) (.list j oldItems) = .list i items := by
          simp [lasting, hp]
        rw [hlasting]
        cases hq : pair? oldItems with
        | none =>
          simp only [outdated, renewed, bagEntries, hp, hq]
          rfl
        | some oldEntry =>
          obtain ⟨l, w⟩ := oldEntry
          have holdEntries : bagEntries (.list j oldItems) = [(l, w)] := by simp [bagEntries, hq]
          have hv : v.From alloc := hbag.value (k, v) (by simp [hentries])
          have hw : w.From alloc := hold.value (l, w) (by simp [holdEntries])
          rw [holdEntries] at free
          simp only [outdated, renewed, hp, hq, hentries, holdEntries]
          exact get?_updated_pair hv hw free name
    | _ => exact other rfl rfl rfl
  | map i entries =>
    cases old with
    | map j oldEntries => exact get?_updated_map hbag hold free name
    | _ => exact other rfl rfl rfl
  | _ => cases old <;> exact other rfl rfl rfl

section Theorems

variable {node : NodeId} {h : Host} {a : Option NodeId} {ks : List NodeId} {e : Element}

/--
On an element that has no attributes of its own with the names of a bag, setting that bag and then
bringing it in line with another one leaves the attributes that the lasting one of them gives the element
when it is set alone: names that only the bag before had are gone, and those of the lasting bag have its
values. The lasting bag is the last one, but where that is a list without a pair that comes after a list.
-/
theorem update_forgets_bag (hwf : h.document.WellFormed)
    (hnode : h.document.standing? node = some ⟨a, ks, .element e⟩) (hbag : bag.BagFrom alloc)
    (hold : old.BagFrom alloc)
    (free : ∀ name ∈ Dict.keys (bagEntries old), e.attributes.get? name = none)
    : ∃ h₁ h₂ h₃, Binding.bag.set node old h = .ok () h₁ ∧
        Binding.bag.update node bag old h₁ = .ok () h₂ ∧
        Binding.bag.set node (lasting bag old) h = .ok () h₃ ∧
        ∀ name, h₂.document.attribute? node name = h₃.document.attribute? node name ∧
          h₂.document.attribute? node name = .ok (((Dict.get? (bagEntries (lasting bag old)) name).map
            Value.attribute?).getD (e.attributes.get? name)) := by
  obtain ⟨N, hN⟩ := hwf.exists_holds
  obtain ⟨M, rfl⟩ := Multiset.exists_cons_of_mem ((hN.mem _ _).2 hnode)
  obtain ⟨_, h₁, hset, hd₁⟩ := set_recasts old .bag h a ks _ M hN
  obtain ⟨_, h₂, hupdate, hd₂⟩ := update_recasts bag old .bag h₁ a ks _ M hd₁
  obtain ⟨_, h₃, hlast, hd₃⟩ := set_recasts (lasting bag old) .bag h a ks _ M hN
  have hlasting : (lasting bag old).BagFrom alloc := by
    unfold lasting
    split
    . split
      . exact hold
      . exact hbag
    . exact hbag
  refine ⟨h₁, h₂, h₃, hset, hupdate, hlast, fun name => ?_⟩
  have hupdated := get?_updated hbag hold free name
  have hattribute : h₂.document.attribute? node name
      = .ok ((e.withAttributes (bagEntries (lasting bag old))).attributes.get? name) :=
    hd₂.attribute?_element.trans (congrArg _ hupdated)
  refine ⟨hattribute.trans hd₃.attribute?_element.symm, ?_⟩
  rw [hattribute, Element.get?_withAttributes hlasting.nodup]

theorem update_forgets_bag_map
    : Value.BagFrom noData (.map 1 [("lang", .str "en"), ("hidden", .bool true)]) ∧
      ∃ h₁ h₂ h₃, Binding.bag.set ⟨0, 0⟩ (.list 0 [.str "title", .str "x"]) .paragraph = .ok () h₁ ∧
        Binding.bag.update ⟨0, 0⟩ (.map 1 [("lang", .str "en"), ("hidden", .bool true)])
          (.list 0 [.str "title", .str "x"]) h₁ = .ok () h₂ ∧
        Binding.bag.set ⟨0, 0⟩ (.map 1 [("lang", .str "en"), ("hidden", .bool true)]) .paragraph
          = .ok () h₃ ∧
        h₂.document.attribute? ⟨0, 0⟩ "title" = .ok none ∧
        h₂.document.attribute? ⟨0, 0⟩ "lang" = .ok (some "en") ∧
        h₂.document.attribute? ⟨0, 0⟩ "lang" = h₃.document.attribute? ⟨0, 0⟩ "lang" := by
  have hwf := Host.paragraph_run.wellFormed_and_capacity.1
  have hbag : Value.BagFrom noData (.map 1 [("lang", .str "en"), ("hidden", .bool true)]) :=
    ⟨by decide, by simp [bagEntries, Value.From]⟩
  have hold : Value.BagFrom noData (.list 0 [.str "title", .str "x"]) :=
    ⟨by decide, by simp [bagEntries, pair?, Value.From]⟩
  have hnode : Host.paragraph.document.standing? ⟨0, 0⟩ = some ⟨none, [], .element { tag := "p" }⟩ := rfl
  have free : ∀ name ∈ Dict.keys (bagEntries (.list 0 [.str "title", .str "x"])),
      Dict.get? ([] : Dict String) name = none := fun _ _ => rfl
  obtain ⟨h₁, h₂, h₃, hset, hupdate, hlast, hattribute⟩ :=
    update_forgets_bag hwf hnode hbag hold free
  exact ⟨hbag, h₁, h₂, h₃, hset, hupdate, hlast, (hattribute "title").2, (hattribute "lang").2,
    (hattribute "lang").1⟩

/-- A list without a pair that comes after a pair takes nothing away. -/
theorem update_keeps_pair
    : ∃ h₁ h₂ h₃, Binding.bag.set ⟨0, 0⟩ (.list 0 [.str "title", .str "x"]) .paragraph = .ok () h₁ ∧
        Binding.bag.update ⟨0, 0⟩ (.list 1 []) (.list 0 [.str "title", .str "x"]) h₁ = .ok () h₂ ∧
        Binding.bag.set ⟨0, 0⟩ (.list 1 []) .paragraph = .ok () h₃ ∧
        h₂.document.attribute? ⟨0, 0⟩ "title" = .ok (some "x") ∧
        h₃.document.attribute? ⟨0, 0⟩ "title" = .ok none := by
  refine ⟨_, _, _, rfl, rfl, rfl, ?_, ?_⟩ <;> rfl

end Theorems

end Template.Binding
end VirtualDom
