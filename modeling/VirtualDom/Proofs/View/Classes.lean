import VirtualDom.Proofs.View.Facet

/-!
This module contains what class values leave on an element that has classes of its own: an update takes
back all tokens that only the value before has, also those that the element had without it.
-/

namespace VirtualDom.Template.Binding

variable {e : Element}

theorem mem_classes_set (value : Value) (t : String)
    : t ∈ (e.withClasses value.classTokens).classes ↔ t ∈ e.classes ∨ t ∈ value.classTokens :=
  Element.mem_classes_withClasses fun _ => Value.isWord_of_mem_classTokens

theorem mem_classes_updated (value old : Value) (t : String)
    : t ∈ (((e.withClasses old.classTokens).withoutClasses (old.classTokens.filter fun token =>
        !value.classTokens.contains token)).withClasses (value.classTokens.filter fun token =>
          !old.classTokens.contains token)).classes ↔
        (t ∈ e.classes ∧ (t ∈ old.classTokens → t ∈ value.classTokens)) ∨ t ∈ value.classTokens := by
  rw [mem_classes_reclassed, mem_classes_set]
  by_cases hold : t ∈ old.classTokens <;> by_cases hvalue : t ∈ value.classTokens <;> simp [hold, hvalue]

section Theorems

variable {node : NodeId} {h : Host} {a : Option NodeId} {ks : List NodeId}

/--
Setting a class value and then bringing the element in line with another one leaves the tokens of the last
value and the element's own ones, but for those that the value before has and the last one has not. So it
leaves the same tokens as setting the last value alone just if the values take none of its own ones back.
-/
theorem update_reclasses (hwf : h.document.WellFormed)
    (hnode : h.document.standing? node = some ⟨a, ks, .element e⟩) (value old : Value)
    : ∃ h₁ h₂ h₃ updated fresh, Binding.classes.set node old h = .ok () h₁ ∧
        Binding.classes.update node value old h₁ = .ok () h₂ ∧
        Binding.classes.set node value h = .ok () h₃ ∧ h.document.classList node = .ok e.classes ∧
        h₂.document.classList node = .ok updated ∧ h₃.document.classList node = .ok fresh ∧
        (∀ t, t ∈ fresh ↔ t ∈ e.classes ∨ t ∈ value.classTokens) ∧
        (∀ t, t ∈ updated ↔
          (t ∈ e.classes ∧ (t ∈ old.classTokens → t ∈ value.classTokens)) ∨ t ∈ value.classTokens) ∧
        ((∀ t, t ∈ updated ↔ t ∈ fresh) ↔
          ∀ t ∈ e.classes, t ∈ old.classTokens → t ∈ value.classTokens) := by
  obtain ⟨N, hN⟩ := hwf.exists_holds
  obtain ⟨M, rfl⟩ := Multiset.exists_cons_of_mem ((hN.mem _ _).2 hnode)
  obtain ⟨_, h₁, hset, hd₁⟩ := set_recasts old .classes h a ks _ M hN
  obtain ⟨_, h₂, hupdate, hd₂⟩ := update_recasts value old .classes h₁ a ks _ M hd₁
  obtain ⟨_, h₃, halone, hd₃⟩ := set_recasts value .classes h a ks _ M hN
  refine ⟨h₁, h₂, h₃, _, _, hset, hupdate, halone, hN.classList_element, hd₂.classList_element,
    hd₃.classList_element, mem_classes_set value, mem_classes_updated value old, ?_⟩
  constructor
  . intro same t ht hold
    have hfresh := (mem_classes_set value t).2 (.inl ht)
    rcases (mem_classes_updated value old t).1 ((same t).2 hfresh) with ⟨-, hkept⟩ | hvalue
    . exact hkept hold
    . exact hvalue
  . intro kept t
    refine (mem_classes_updated value old t).trans (.trans ?_ (mem_classes_set value t).symm)
    exact or_congr_left (and_iff_left_of_imp (kept t))

def classedElement : Host :=
  ⟨((({} : Document).createElement "p").2.setAttribute ⟨0, 0⟩ "class" "wide btn").toOption.getD {}, []⟩

theorem update_reclasses_button
    : ∃ e, classedElement.document.WellFormed ∧
        classedElement.document.standing? ⟨0, 0⟩ = some ⟨none, [], .element e⟩ ∧
        ∃ h₁ h₂ h₃ updated fresh,
          Binding.classes.set ⟨0, 0⟩ (.str "btn active") classedElement = .ok () h₁ ∧
          Binding.classes.update ⟨0, 0⟩ (.str "open btn") (.str "btn active") h₁ = .ok () h₂ ∧
          Binding.classes.set ⟨0, 0⟩ (.str "open btn") classedElement = .ok () h₃ ∧
          h₂.document.classList ⟨0, 0⟩ = .ok updated ∧ h₃.document.classList ⟨0, 0⟩ = .ok fresh ∧
          (∀ t, t ∈ updated ↔ t ∈ fresh) ∧ "wide" ∈ updated ∧ "open" ∈ updated ∧
          "active" ∉ updated := by
  have hmake : Document.Run _ _ := .call .empty (c := .createElement "p") trivial rfl
  have hrun : Document.Run classedElement.document _ :=
    .call hmake (c := .setAttribute ⟨0, 0⟩ "class" "wide btn") rfl rfl
  have hwf := hrun.wellFormed_and_capacity.1
  have hnode : classedElement.document.standing? ⟨0, 0⟩
      = some ⟨none, [], .element { tag := "p", attributes := [("class", "wide btn")] }⟩ := rfl
  obtain ⟨h₁, h₂, h₃, updated, fresh, hset, hupdate, halone, -, hupdated, hfresh, hmem, hmem', hsame⟩ :=
    update_reclasses hwf hnode (.str "open btn") (.str "btn active")
  rw [Element.classes] at hmem hmem' hsame
  refine ⟨_, hwf, hnode, h₁, h₂, h₃, updated, fresh, hset, hupdate, halone, hupdated, hfresh,
    hsame.2 ?_, (hmem' _).2 ?_, (hmem' _).2 ?_, (hmem' _).not.2 ?_⟩ <;> decide +kernel

/-- A token of the element's own is gone when it was in a value and then is not. -/
theorem update_takes_own
    : ∃ h₁ h₂ h₃, Binding.classes.set ⟨0, 0⟩ (.str "btn") classedElement = .ok () h₁ ∧
        Binding.classes.update ⟨0, 0⟩ (.str "") (.str "btn") h₁ = .ok () h₂ ∧
        Binding.classes.set ⟨0, 0⟩ (.str "") classedElement = .ok () h₃ ∧
        h₂.document.classList ⟨0, 0⟩ = .ok ["wide"] ∧
        h₃.document.classList ⟨0, 0⟩ = .ok ["wide", "btn"] := by
  refine ⟨_, _, _, rfl, rfl, rfl, ?_, ?_⟩ <;> decide +kernel

end Theorems

end VirtualDom.Template.Binding
