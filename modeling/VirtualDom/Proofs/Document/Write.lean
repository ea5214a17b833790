import VirtualDom.Proofs.Dict
import VirtualDom.Proofs.Document.Census

/-!
This module contains what writes to the content of a node change: nothing but what that node holds, of
an element not its tag, and no attributes but those with the name that is written.
-/

namespace VirtualDom

/-- What is seen of a node apart from the attributes of an element. -/
inductive Shape where
  | element (tag : String)
  | text (s : String)
  | comment (s : String)
deriving DecidableEq

namespace Content

def shape : Content → Shape
  | .element e => .element e.tag
  | .text s => .text s
  | .comment s => .comment s

@[simp]
theorem shape_element (e : Element) : (Content.element e).shape = .element e.tag :=
  rfl

@[simp]
theorem shape_text (s : String) : (Content.text s).shape = .text s :=
  rfl

@[simp]
theorem shape_comment (s : String) : (Content.comment s).shape = .comment s :=
  rfl

def withText (s : String) : Content → Content
  | .element e => .element e
  | .text _ => .text s
  | .comment _ => .comment s

def changed (f : Element → Option Element) : Content → Content
  | .element e => .element ((f e).getD e)
  | content => content

def onElement (f : Element → Element) : Content → Content
  | .element e => .element (f e)
  | content => content

theorem onElement_id (c : Content) : c.onElement (fun e => e) = c := by
  cases c <;> rfl

theorem onElement_onElement (f g : Element → Element) (c : Content)
    : (c.onElement f).onElement g = c.onElement fun e => g (f e) := by
  cases c <;> rfl

theorem changed_eq_onElement {f : Element → Option Element} {g : Element → Element}
    (h : ∀ e, (f e).getD e = g e) (c : Content) : c.changed f = c.onElement g := by
  cases c with
  | element e => exact congrArg Content.element (h e)
  | _ => rfl

def Named (N : String → Prop) : Content → Prop
  | .element e => ∀ entry ∈ e.attributes, N entry.1
  | .text _ | .comment _ => True

theorem named_true (c : Content) : c.Named fun _ => True := by
  cases c <;> simp [Named]

/-- A write makes `c'` of `c`: it changes the shape by `f`, and writes no names but those of `N`. -/
structure Becomes (N : String → Prop) (f : Shape → Shape) (c c' : Content) : Prop where
  shape_eq : c'.shape = f c.shape
  named : c.Named N → c'.Named N

theorem Becomes.refl (N : String → Prop) (c : Content) : c.Becomes N (fun s => s) c :=
  ⟨rfl, fun h => h⟩

end Content

namespace Element

def withAttribute (e : Element) (name : String) (value : Option String) : Element :=
  { e with attributes := e.attributes.assign name value }

def withProperty (e : Element) (name : String) (value : Value) : Element :=
  { e with properties := e.properties.put name value }

def withHandler (e : Element) (event : String) (payload : Value) : Element :=
  { e with handlers := e.handlers.put event payload }

def classes (e : Element) : List String :=
  ((e.attributes.get? "class").map Text.words).getD []

def withClass (e : Element) (token : String) : Element :=
  if e.classes.contains token then e
  else e.withAttribute "class" (some (" ".intercalate (e.classes ++ [token])))

def withoutClass (e : Element) (token : String) : Element :=
  if e.classes.contains token then
    e.withAttribute "class" (some (" ".intercalate (e.classes.filter (· ≠ token))))
  else
    e

/-- The change leaves the tag, and gives the element no attributes but some with names of `N`. -/
structure Writes (N : String → Prop) (f : Element → Element) : Prop where
  tag : ∀ e, (f e).tag = e.tag
  named : ∀ e, ∀ entry ∈ (f e).attributes, entry ∈ e.attributes ∨ N entry.1

namespace Writes

variable {N : String → Prop} {f g : Element → Element}

theorem id : Writes N fun e => e :=
  ⟨fun _ => rfl, fun _ _ h => .inl h⟩

theorem comp (hf : Writes N f) (hg : Writes N g) : Writes N fun e => g (f e) := by
  refine ⟨fun e => (hg.tag _).trans (hf.tag e), fun e entry h => ?_⟩
  rcases hg.named _ entry h with h | h
  . exact hf.named e entry h
  . exact .inr h

theorem foldl {γ : Type} {xs : List γ} {k : Element → γ → Element} (h : ∀ x ∈ xs, Writes N (k · x))
    : Writes N fun e => xs.foldl k e := by
  induction xs with
  | nil => exact id
  | cons x xs ih =>
    exact (h x List.mem_cons_self).comp (ih fun x hx => h x (List.mem_cons_of_mem _ hx))

theorem withAttribute {name : String} {value : Option String} (h : value.isSome → N name)
    : Writes N (·.withAttribute name value) := by
  refine ⟨fun _ => rfl, fun e entry hentry => ?_⟩
  refine (Dict.mem_assign hentry).imp_right ?_
  rintro ⟨hsome, rfl⟩
  exact h hsome

theorem withProperty (name : String) (value : Value) : Writes N (·.withProperty name value) :=
  ⟨fun _ => rfl, fun _ _ h => .inl h⟩

theorem withHandler (event : String) (payload : Value) : Writes N (·.withHandler event payload) :=
  ⟨fun _ => rfl, fun _ _ h => .inl h⟩

theorem withClass (h : N "class") (token : String) : Writes N (·.withClass token) := by
  constructor
  . intro e
    dsimp only [Element.withClass]
    split <;> rfl
  . intro e entry hentry
    dsimp only [Element.withClass] at hentry
    split at hentry
    . exact .inl hentry
    . exact (withAttribute fun _ => h).named e entry hentry

theorem withoutClass (h : N "class") (token : String) : Writes N (·.withoutClass token) := by
  constructor
  . intro e
    dsimp only [Element.withoutClass]
    split <;> rfl
  . intro e entry hentry
    dsimp only [Element.withoutClass] at hentry
    split at hentry
    . exact (withAttribute fun _ => h).named e entry hentry
    . exact .inl hentry

theorem becomes (hf : Writes N f) (c : Content) : c.Becomes N (fun s => s) (c.onElement f) := by
  cases c with
  | element e =>
    refine ⟨congrArg Shape.element (hf.tag e), fun he entry hentry => ?_⟩
    exact (hf.named e entry hentry).elim (he entry) fun h => h
  | _ => exact .refl N _

end Writes
end Element

namespace Document.Holds

variable {d : Document} {M : Multiset (NodeId × Standing)} {id : NodeId} {a : Option NodeId}
  {ks : List NodeId} {c : Content}

theorem content (h : d.Holds ((id, ⟨a, ks, c⟩) ::ₘ M)) : d.content id = .ok c := by
  obtain ⟨n, hn, -, -, rfl⟩ := standing?_eq_some.1 h.head
  simp only [Document.content, node_eq_ok.2 hn, bind, Except.bind]
  rfl

theorem setText (h : d.Holds ((id, ⟨a, ks, c⟩) ::ₘ M)) (s : String)
    : ∃ d', d.setText id s = .ok d' ∧ d'.Holds ((id, ⟨a, ks, c.withText s⟩) ::ₘ M) := by
  unfold Document.setText
  rw [h.content]
  cases c with
  | element e => exact ⟨_, rfl, h⟩
  | text _ => exact ⟨_, rfl, (h.setContent _).withTally _⟩
  | comment _ => exact ⟨_, rfl, (h.setContent _).withTally _⟩

theorem modifyElement_changed (h : d.Holds ((id, ⟨a, ks, c⟩) ::ₘ M)) (f : Element → Option Element)
    (count : Tally → Tally)
    : ∃ d', d.modifyElement id f count = .ok d' ∧ d'.Holds ((id, ⟨a, ks, c.changed f⟩) ::ₘ M) := by
  unfold Document.modifyElement element?
  rw [h.content]
  cases c with
  | element e =>
    simp only [bind, Except.bind, pure, Except.pure, Option.bind, Content.changed]
    cases f e with
    | none => exact ⟨d, rfl, h⟩
    | some e' => exact ⟨_, rfl, (h.setContent _).withTally _⟩
  | text s => exact ⟨d, rfl, h⟩
  | comment s => exact ⟨d, rfl, h⟩

theorem modifyElement (h : d.Holds ((id, ⟨a, ks, c⟩) ::ₘ M)) {f : Element → Option Element}
    {g : Element → Element} (hf : ∀ e, (f e).getD e = g e) (count : Tally → Tally)
    : ∃ d', d.modifyElement id f count = .ok d' ∧ d'.Holds ((id, ⟨a, ks, c.onElement g⟩) ::ₘ M) := by
  rw [← Content.changed_eq_onElement hf]
  exact h.modifyElement_changed f count

theorem setAttribute (h : d.Holds ((id, ⟨a, ks, c⟩) ::ₘ M)) (name value : String)
    : ∃ d', d.setAttribute id name value = .ok d' ∧
        d'.Holds ((id, ⟨a, ks, c.onElement (·.withAttribute name (some value))⟩) ::ₘ M) :=
  h.modifyElement (fun _ => rfl) _

theorem removeAttribute (h : d.Holds ((id, ⟨a, ks, c⟩) ::ₘ M)) (name : String)
    : ∃ d', d.removeAttribute id name = .ok d' ∧
        d'.Holds ((id, ⟨a, ks, c.onElement (·.withAttribute name none)⟩) ::ₘ M) := by
  refine h.modifyElement (fun e => ?_) _
  split
  . rfl
  . next hnone =>
    rw [Option.not_isSome_iff_eq_none] at hnone
    simp only [Option.getD_none, Element.withAttribute, Dict.assign, Dict.erase_of_get?_eq_none hnone]

theorem setProperty (h : d.Holds ((id, ⟨a, ks, c⟩) ::ₘ M)) (name : String) (value : Value)
    : ∃ d', d.setProperty id name value = .ok d' ∧
        d'.Holds ((id, ⟨a, ks, c.onElement (·.withProperty name value)⟩) ::ₘ M) :=
  h.modifyElement (fun _ => rfl) _

theorem setHandler (h : d.Holds ((id, ⟨a, ks, c⟩) ::ₘ M)) (event : String) (payload : Value)
    : ∃ d', d.setHandler id event payload = .ok d' ∧
        d'.Holds ((id, ⟨a, ks, c.onElement (·.withHandler event payload)⟩) ::ₘ M) :=
  h.modifyElement (fun _ => rfl) _

theorem classList (h : d.Holds ((id, ⟨a, ks, c⟩) ::ₘ M)) : ∃ tokens, d.classList id = .ok tokens := by
  unfold Document.classList attribute? element?
  rw [h.content]
  cases c <;> exact ⟨_, rfl⟩

theorem classList_element {e : Element} (h : d.Holds ((id, ⟨a, ks, .element e⟩) ::ₘ M))
    : d.classList id = .ok e.classes := by
  unfold Document.classList attribute? element?
  rw [h.content]
  rfl

theorem addClass (h : d.Holds ((id, ⟨a, ks, c⟩) ::ₘ M)) (token : String)
    : ∃ d', d.addClass id token = .ok d' ∧
        d'.Holds ((id, ⟨a, ks, c.onElement (·.withClass token)⟩) ::ₘ M) := by
  unfold Document.addClass
  cases c with
  | element e =>
    simp only [h.classList_element, bind, Except.bind, Content.onElement, Element.withClass]
    split
    . exact ⟨d, rfl, h⟩
    . exact h.setAttribute _ _
  | _ =>
    obtain ⟨tokens, ht⟩ := h.classList
    simp only [ht, bind, Except.bind]
    split
    . exact ⟨d, rfl, h⟩
    . exact h.setAttribute _ _

theorem removeClass (h : d.Holds ((id, ⟨a, ks, c⟩) ::ₘ M)) (token : String)
    : ∃ d', d.removeClass id token = .ok d' ∧
        d'.Holds ((id, ⟨a, ks, c.onElement (·.withoutClass token)⟩) ::ₘ M) := by
  unfold Document.removeClass
  cases c with
  | element e =>
    simp only [h.classList_element, bind, Except.bind, Content.onElement, Element.withoutClass]
    split
    . exact h.setAttribute _ _
    . exact ⟨d, rfl, h⟩
  | _ =>
    obtain ⟨tokens, ht⟩ := h.classList
    simp only [ht, bind, Except.bind]
    split
    . exact h.setAttribute _ _
    . exact ⟨d, rfl, h⟩

end Document.Holds
end VirtualDom
