import VirtualDom.Proofs.Engine
import VirtualDom.Proofs.View.Draws

/-!
This module contains what the writes of bound values change: what exactly they make of the content of
their node, of which only the text of a text node shows in the tree, apart from attributes with the names
that are bound.
-/

namespace VirtualDom

open Engine

/-- What an attribute is that the value is written to; `false` takes it away. -/
def Value.attribute? : Value → Option String
  | .bool false => none
  | .bool true => some ""
  | v => some v.text

namespace Element

def withAttributes (e : Element) (attributes : List (String × Value)) : Element :=
  attributes.foldl (fun e (name, value) => e.withAttribute name value.attribute?) e

def withoutAttributes (e : Element) (names : List String) : Element :=
  names.foldl (fun e name => e.withAttribute name none) e

def withClasses (e : Element) (tokens : List String) : Element :=
  tokens.foldl withClass e

def withoutClasses (e : Element) (tokens : List String) : Element :=
  tokens.foldl withoutClass e

end Element

/-- The action makes `f c` of the content `c` of a node, and leaves all other nodes as they are. -/
def Recasts (x : Engine Unit) (id : NodeId) (f : Content → Content) : Prop :=
  ∀ (h : Host) a ks c M, h.document.Holds ((id, ⟨a, ks, c⟩) ::ₘ M) → x.Yields h fun _ h' =>
    h'.document.Holds ((id, ⟨a, ks, f c⟩) ::ₘ M)

namespace Recasts

variable {x y : Engine Unit} {id : NodeId} {f g : Content → Content}

theorem pure : Recasts (Pure.pure ()) id fun c => c :=
  fun _ _ _ _ _ hd => Yields.pure hd

theorem log (entries : List Entry) : Recasts (Engine.log entries) id fun c => c :=
  fun _ _ _ _ _ hd => Yields.log hd

theorem edit {e : Document → Except Fault Document}
    (he : ∀ {d : Document} {a ks c M}, d.Holds ((id, ⟨a, ks, c⟩) ::ₘ M) →
      ∃ d' : Document, e d = .ok d' ∧ d'.Holds ((id, ⟨a, ks, f c⟩) ::ₘ M))
    : Recasts (Engine.edit e) id f :=
  fun _ _ _ _ _ hd => Yields.edit (he hd)

theorem bind (hx : Recasts x id f) (hy : Recasts y id g) : Recasts (do x; y) id fun c => g (f c) :=
  fun h a ks c M hd => Yields.bind (hx h a ks c M hd) fun _ h' hd => hy h' a ks (f c) M hd

theorem congr (hx : Recasts x id f) (h : ∀ c, f c = g c) : Recasts x id g := by
  rwa [← funext h]

theorem forM {γ : Type} {xs : List γ} {e : γ → Engine PUnit} {k : Element → γ → Element}
    (he : ∀ x, Recasts (e x) id (·.onElement (k · x)))
    : Recasts (xs.forM e) id (·.onElement fun element => xs.foldl k element) := by
  induction xs with
  | nil => exact Recasts.congr pure fun c => c.onElement_id.symm
  | cons x xs ih => exact ((he x).bind ih).congr (Content.onElement_onElement _ _)

end Recasts

/--
The action changes the shape of a node by `f`, writes attributes with names of `N` to it, and leaves
all other nodes as they are.
-/
def Rewrites (N : String → Prop) (x : Engine Unit) (id : NodeId) (f : Shape → Shape) : Prop :=
  ∀ (h : Host) a ks c M, h.document.Holds ((id, ⟨a, ks, c⟩) ::ₘ M) → x.Yields h fun _ h' =>
    ∃ c' : Content, c.Becomes N f c' ∧ h'.document.Holds ((id, ⟨a, ks, c'⟩) ::ₘ M)

theorem Recasts.rewrites {N : String → Prop} {x : Engine Unit} {id : NodeId} {f : Content → Content}
    {g : Shape → Shape} (hx : Recasts x id f) (h : ∀ c : Content, c.Becomes N g (f c)) : Rewrites N x id g :=
  fun host a ks c M hd => (hx host a ks c M hd).mono fun _ _ hd => ⟨f c, h c, hd⟩

namespace Template.Binding

variable {node : NodeId}

theorem writeAttribute_recasts (name : String) (value : Value)
    : Recasts (writeAttribute node name value) node
        (·.onElement (·.withAttribute name value.attribute?)) := by
  unfold writeAttribute
  split
  . exact .edit (·.removeAttribute name)
  . exact .edit (·.setAttribute name "")
  . next hfalse htrue =>
    have : value.attribute? = some value.text := by
      unfold Value.attribute?
      split
      . exact absurd rfl hfalse
      . exact absurd rfl htrue
      . rfl
    rw [this]
    exact .edit (·.setAttribute name _)

theorem writeAttributes_recasts (attributes : List (String × Value))
    : Recasts (writeAttributes node attributes) node (·.onElement (·.withAttributes attributes)) :=
  .forM fun (name, value) => writeAttribute_recasts name value

theorem removeAttributes_recasts (names : List String)
    : Recasts (removeAttributes node names) node (·.onElement (·.withoutAttributes names)) :=
  .forM fun name => .edit (·.removeAttribute name)

theorem setBag_recasts (bag : Value)
    : Recasts (setBag node bag) node (·.onElement (·.withAttributes (bagEntries bag))) := by
  unfold setBag
  split
  . exact writeAttributes_recasts _
  . exact writeAttributes_recasts _
  . exact writeAttributes_recasts _
  . next hlist hmap _ =>
    have : bagEntries bag = [] := by
      unfold bagEntries
      split
      . exact absurd rfl (hlist _ _)
      . exact absurd rfl (hmap _ _)
      . rfl
    rw [this]
    exact (Recasts.log _).congr fun c => c.onElement_id.symm

/-- The names that are taken away when `bag` comes after `old`. -/
def outdated : Value → Value → List String
  | .list _ items, .list _ oldItems =>
    match pair? items, pair? oldItems with
    | some (name, _), some (oldName, _) => if name ≠ oldName then [oldName] else []
    | _, _ => []
  | .map _ entries, .map _ oldEntries =>
    (Dict.keys oldEntries).filter fun name => !(Dict.keys entries).contains name
  | _, old => (bagEntries old).map (·.1)

/-- The attributes that are written when `bag` comes after `old`. -/
def renewed : Value → Value → List (String × Value)
  | .list identity items, .list _ oldItems =>
    match pair? items, pair? oldItems with
    | some (name, value), some (oldName, oldValue) =>
      if name = oldName && value.same oldValue then [] else [(name, value)]
    | _, _ => bagEntries (.list identity items)
  | .map _ entries, .map _ oldEntries => entries.filter fun entry => !isKept oldEntries entry
  | value, _ => bagEntries value

theorem updateBag_recasts (bag old : Value)
    : Recasts (updateBag node bag old) node
        (·.onElement fun e => (e.withoutAttributes (outdated bag old)).withAttributes
          (renewed bag old)) := by
  unfold updateBag
  split
  . next items _ oldItems =>
    simp only [outdated, renewed]
    cases pair? items with
    | none => exact setBag_recasts _
    | some entry =>
      obtain ⟨name, value⟩ := entry
      cases pair? oldItems with
      | none => exact setBag_recasts _
      | some oldEntry =>
        obtain ⟨oldName, oldValue⟩ := oldEntry
        by_cases hname : name = oldName
        . cases hsame : value.same oldValue with
          | true =>
            simp only [hname, hsame, ne_eq, not_true_eq_false, if_false, Bool.not_true,
              Bool.false_eq_true, decide_true, Bool.and_self, if_true]
            exact Recasts.congr .pure fun c => c.onElement_id.symm
          | false =>
            simp only [hname, hsame, ne_eq, not_true_eq_false, if_false, Bool.not_false, if_true,
              Bool.and_false, Bool.false_eq_true]
            exact writeAttribute_recasts _ _
        . simp only [hname, ne_eq, not_false_eq_true, if_true, decide_false, Bool.false_and,
            Bool.false_eq_true, if_false]
          exact (Recasts.bind (.edit (·.removeAttribute oldName)) (writeAttribute_recasts _ _)).congr
            (Content.onElement_onElement _ _)
  . exact ((removeAttributes_recasts _).bind (writeAttributes_recasts _)).congr
      (Content.onElement_onElement _ _)
  . next hlist hmap =>
    have houtdated : outdated bag old = (bagEntries old).map (·.1) := by
      unfold outdated
      split
      . exact absurd rfl (hlist _ _ _ _ rfl)
      . exact absurd rfl (hmap _ _ _ _ rfl)
      . rfl
    have hrenewed : renewed bag old = bagEntries bag := by
      unfold renewed
      split
      . exact absurd rfl (hlist _ _ _ _ rfl)
      . exact absurd rfl (hmap _ _ _ _ rfl)
      . rfl
    rw [houtdated, hrenewed]
    exact ((removeAttributes_recasts _).bind (setBag_recasts _)).congr (Content.onElement_onElement _ _)

def inscribe (value : Value) : Binding → Content → Content
  | .text => (·.withText value.text)
  | .property name => (·.onElement (·.withProperty name value))
  | .classes => (·.onElement (·.withClasses value.classTokens))
  | .attribute name => (·.onElement (·.withAttribute name value.attribute?))
  | .bag => (·.onElement (·.withAttributes (bagEntries value)))
  | .handler event => (·.onElement (·.withHandler event value))
  | .ref => fun c => c

def revise (value old : Value) : Binding → Content → Content
  | .classes => (·.onElement fun e =>
      (e.withoutClasses (old.classTokens.filter fun token => !value.classTokens.contains token)).withClasses
        (value.classTokens.filter fun token => !old.classTokens.contains token))
  | .bag => (·.onElement fun e =>
      (e.withoutAttributes (outdated value old)).withAttributes (renewed value old))
  | .ref => fun c => c
  | b => b.inscribe value

theorem addClasses_recasts (tokens : List String)
    : Recasts (addClasses node tokens) node (·.onElement (·.withClasses tokens)) :=
  .forM fun token => .edit (·.addClass token)

theorem removeClasses_recasts (tokens : List String)
    : Recasts (removeClasses node tokens) node
        (·.onElement (·.withoutClasses tokens)) :=
  .forM fun token => .edit (·.removeClass token)

theorem set_recasts (value : Value)
    : ∀ b : Binding, Recasts (b.set node value) node (b.inscribe value)
  | .text => .edit (·.setText value.text)
  | .property name => .edit (·.setProperty name value)
  | .classes => addClasses_recasts _
  | .attribute name => writeAttribute_recasts name value
  | .bag => setBag_recasts value
  | .handler event => .edit (·.setHandler event value)
  | .ref => by
    simp only [set]
    split
    . exact .log _
    . exact .pure

theorem update_recasts (value old : Value)
    : ∀ b : Binding, Recasts (b.update node value old) node (b.revise value old)
  | .classes =>
    ((removeClasses_recasts _).bind (addClasses_recasts _)).congr (Content.onElement_onElement _ _)
  | .bag => updateBag_recasts value old
  | .ref => .pure
  | .text => set_recasts value .text
  | .property name => set_recasts value (.property name)
  | .attribute name => set_recasts value (.attribute name)
  | .handler event => set_recasts value (.handler event)

def reshape (value : Value) : Binding → Shape → Shape
  | .text, .text _ => .text value.text
  | .text, .comment _ => .comment value.text
  | _, s => s

theorem reshape_of_ne {b : Binding} (h : b ≠ .text) (value : Value) : b.reshape value = fun s => s := by
  cases b with
  | text => exact absurd rfl h
  | _ => rfl

def Named (N : String → Prop) : Binding → Prop
  | .classes => N "class"
  | .attribute name => N name
  | .bag => ∀ name, N name
  | .text | .property _ | .handler _ | .ref => True

variable {N : String → Prop}

section Writes

variable (hN : ∀ name, N name)
include hN

theorem withAttributes_writes (attributes : List (String × Value))
    : Element.Writes N (·.withAttributes attributes) :=
  .foldl fun _ _ => .withAttribute fun _ => hN _

theorem withoutAttributes_writes (names : List String)
    : Element.Writes N (·.withoutAttributes names) :=
  .foldl fun _ _ => .withAttribute fun _ => hN _

end Writes

theorem withClasses_writes (h : N "class") (tokens : List String)
    : Element.Writes N (·.withClasses tokens) :=
  .foldl fun token _ => .withClass h token

theorem withoutClasses_writes (h : N "class") (tokens : List String)
    : Element.Writes N (·.withoutClasses tokens) :=
  .foldl fun token _ => .withoutClass h token

theorem inscribe_becomes (value : Value)
    : ∀ b : Binding, b.Named N → ∀ c : Content, c.Becomes N (b.reshape value) (b.inscribe value c)
  | .text, _ => fun c => by cases c <;> exact ⟨rfl, fun h => h⟩
  | .property name, _ => (Element.Writes.withProperty name value).becomes
  | .handler event, _ => (Element.Writes.withHandler event value).becomes
  | .classes, hclass => (withClasses_writes hclass _).becomes
  | .attribute _, hname => (Element.Writes.withAttribute fun _ => hname).becomes
  | .bag, hN => (withAttributes_writes hN _).becomes
  | .ref, _ => .refl N

theorem revise_becomes (value old : Value)
    : ∀ b : Binding, b.Named N → ∀ c : Content, c.Becomes N (b.reshape value) (b.revise value old c)
  | .classes, hclass => ((withoutClasses_writes hclass _).comp (withClasses_writes hclass _)).becomes
  | .bag, hN => ((withoutAttributes_writes hN _).comp (withAttributes_writes hN _)).becomes
  | .ref, _ => .refl N
  | .text, h => inscribe_becomes value .text h
  | .property name, h => inscribe_becomes value (.property name) h
  | .attribute name, h => inscribe_becomes value (.attribute name) h
  | .handler event, h => inscribe_becomes value (.handler event) h

theorem set_rewrites (value : Value) (b : Binding) (h : b.Named N)
    : Rewrites N (b.set node value) node (b.reshape value) :=
  (set_recasts value b).rewrites (inscribe_becomes value b h)

theorem update_rewrites (value old : Value) (b : Binding) (h : b.Named N)
    : Rewrites N (b.update node value old) node (b.reshape value) :=
  (update_recasts value old b).rewrites (revise_becomes value old b h)

theorem named_true (b : Binding) : b.Named fun _ => True := by
  cases b <;> simp [Named]

end Template.Binding

namespace Template

def Mark.Named (N : String → Prop) : Mark → Prop
  | .attribute _ name _ => N name
  | .bag _ => ∀ name, N name
  | .text _ | .child _ _ | .handler _ _ | .ref _ => True

def Mark.source? : Mark → Option (Nat × Binding)
  | .text index => some (index, .text)
  | .child _ _ => none
  | .handler index event => some (index, .handler event)
  | .attribute index name tag => some (index, .ofAttribute tag name)
  | .bag index => some (index, .bag)
  | .ref index => some (index, .ref)

def Mark.sources (marks : List Mark) : List (Nat × Binding) :=
  marks.filterMap (·.source?)

theorem Mark.bound?_eq_map (m : Mark) (node : NodeId)
    : m.bound? node = m.source?.map fun s => ⟨s.1, node, s.2⟩ := by
  cases m <;> rfl

theorem Mark.Named.source {N : String → Prop} {m : Mark} {s : Nat × Binding} (h : m.Named N)
    (hs : m.source? = some s) : s.2.Named N := by
  match m with
  | .child _ _ => cases hs
  | .attribute index name tag =>
    cases hs
    unfold Binding.ofAttribute
    split
    . trivial
    . split
      . next hname =>
        subst hname
        exact h
      . exact h
  | .text _ | .handler _ _ | .bag _ | .ref _ =>
    cases hs
    exact h

theorem Mark.ne_text_of_source? {m : Mark} {s : Nat × Binding} (hs : m.source? = some s)
    (hm : ∀ i, m ≠ .text i) : s.2 ≠ .text := by
  match m with
  | .text i => exact absurd rfl (hm i)
  | .child _ _ => cases hs
  | .attribute _ name tag =>
    cases hs
    unfold Binding.ofAttribute
    split
    . nofun
    . split <;> nofun
  | .handler _ _ | .bag _ | .ref _ =>
    cases hs
    nofun

def Sketch.Named (N : String → Prop) (s : Sketch) : Prop :=
  ∀ n ∈ s.labels, n.1.Named N ∧ ∀ m ∈ n.2, m.Named N

theorem Sketch.named_cons {N : String → Prop} {c : Content} {marks : List Mark} {A B : Sketch}
    : Named N (.cons (c, marks) A B)
        ↔ (c.Named N ∧ ∀ m ∈ marks, m.Named N) ∧ A.Named N ∧ B.Named N := by
  simp only [Named, Forest.labels, List.cons_append, List.forall_mem_cons, List.forall_mem_append]

theorem Sketch.named_true (s : Sketch) : s.Named fun _ => True := by
  refine fun n _ => ⟨n.1.named_true, fun m _ => ?_⟩
  cases m <;> simp [Mark.Named]

section Sources

variable {S : Marked} {l : (NodeId × Content) × List Mark} {data before : Data}
  {f : Nat × Binding → Content → Content} {c : Content}

theorem paint_empty (hT : Tidy S.sketch) (hl : l ∈ S.labels)
    : paint ⟨0, []⟩ (l.1.2, l.2) = l.1.2.shape := by
  rcases Marked.paint_label hT hl with ⟨-, hpaint⟩ | ⟨i, hi, hc, -⟩
  . exact hpaint _
  . rw [hi, hc]
    rfl

/--
Writes for all that is bound to a node bring it from its shape with the data before to that with the
new data. A value with the text that was there before need not be written.
-/
theorem shape_foldl (hT : Tidy S.sketch) (hl : l ∈ S.labels)
    (hf : ∀ s ∈ Mark.sources l.2, ∀ c : Content,
      (f s c).shape = s.2.reshape (data.at s.1) c.shape ∨
        (f s c = c ∧ (before.at s.1).text = (data.at s.1).text))
    (hc : c.shape = paint before (l.1.2, l.2))
    : ((Mark.sources l.2).foldl (fun c s => f s c) c).shape = paint data (l.1.2, l.2) := by
  rcases Marked.paint_label hT hl with ⟨hne, hpaint⟩ | ⟨i, hi, -, -⟩
  . have htext : ∀ s ∈ Mark.sources l.2, s.2 ≠ .text := by
      intro s hs
      obtain ⟨m, hm, hms⟩ := List.mem_filterMap.1 hs
      exact Mark.ne_text_of_source? hms (hne m hm)
    rw [hpaint] at hc ⊢
    generalize Mark.sources l.2 = sources at hf htext
    -- No value shows in the shape of such a node.
    induction sources generalizing c with
    | nil => exact hc
    | cons s sources ih =>
      refine ih ?_ (fun t ht => hf t (List.mem_cons_of_mem _ ht)) fun t ht =>
        htext t (List.mem_cons_of_mem _ ht)
      rcases hf s List.mem_cons_self c with hs | ⟨hs, -⟩
      . rw [hs, Binding.reshape_of_ne (htext s List.mem_cons_self), hc]
      . exact (congrArg Content.shape hs).trans hc
  . rw [hi] at hf hc ⊢
    rcases hf (i, .text) (by simp [Mark.sources, Mark.source?]) c with hs | ⟨hs, htext⟩
    . refine hs.trans ?_
      rw [hc]
      rfl
    . refine (congrArg Content.shape hs).trans (hc.trans ?_)
      exact congrArg Shape.text htext

def inscribed (data : Data) (marks : List Mark) (c : Content) : Content :=
  (Mark.sources marks).foldl (fun c s => s.2.inscribe (data.at s.1) c) c

def revised (data old : Data) (marks : List Mark) (c : Content) : Content :=
  (Mark.sources marks).foldl (fun c s =>
    if (old.at s.1).same (data.at s.1) then c else s.2.revise (data.at s.1) (old.at s.1) c) c

theorem shape_inscribed (hT : Tidy S.sketch) (hl : l ∈ S.labels) (data : Data)
    : (inscribed data l.2 l.1.2).shape = paint data (l.1.2, l.2) :=
  shape_foldl hT hl
    (fun s _ c => .inl (Binding.inscribe_becomes (data.at s.1) s.2 s.2.named_true c).shape_eq)
    (paint_empty hT hl).symm

theorem shape_revised (hT : Tidy S.sketch) (hl : l ∈ S.labels)
    (htext : ∀ i, (before.at i).same (data.at i) → (before.at i).text = (data.at i).text)
    (hc : c.shape = paint before (l.1.2, l.2))
    : (revised data before l.2 c).shape = paint data (l.1.2, l.2) := by
  refine shape_foldl (f := fun s c => if (before.at s.1).same (data.at s.1) then c
    else s.2.revise (data.at s.1) (before.at s.1) c) hT hl (fun s _ c => ?_) hc
  by_cases hsame : (before.at s.1).same (data.at s.1)
  . exact .inr ⟨if_pos hsame, htext s.1 hsame⟩
  . rw [if_neg hsame]
    exact .inl (Binding.revise_becomes (data.at s.1) _ s.2 s.2.named_true c).shape_eq

theorem named_inscribed {N : String → Prop} {marks : List Mark} (hc : c.Named N)
    (hmarks : ∀ m ∈ marks, m.Named N) (data : Data) : (inscribed data marks c).Named N := by
  have hnamed : ∀ s ∈ Mark.sources marks, s.2.Named N := by
    intro s hs
    obtain ⟨m, hm, hms⟩ := List.mem_filterMap.1 hs
    exact (hmarks m hm).source hms
  unfold inscribed
  generalize Mark.sources marks = sources at hnamed
  induction sources generalizing c with
  | nil => exact hc
  | cons s sources ih =>
    refine ih ?_ fun t ht => hnamed t (List.mem_cons_of_mem _ ht)
    exact (Binding.inscribe_becomes (data.at s.1) s.2 (hnamed s List.mem_cons_self) c).named hc

end Sources

end Template
end VirtualDom
