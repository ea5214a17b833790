import VirtualDom.Document.Content
import VirtualDom.Document.Tree

/-!
This module contains documents that differ at most in what was counted and recorded of them: the same
operation does the same to either.
-/

namespace VirtualDom

inductive Match {α β : Type} (R : α → β → Prop) : Except Fault α → Except Fault β → Prop
  | ok {a : α} {b : β} (h : R a b) : Match R (.ok a) (.ok b)
  | error (e : Fault) : Match R (.error e) (.error e)

namespace Match

variable {α β γ δ : Type} {R : α → β → Prop} {S : γ → δ → Prop}

theorem bind {x : Except Fault α} {y : Except Fault β} {f : α → Except Fault γ}
    {g : β → Except Fault δ} (h : Match R x y) (hf : ∀ a b, R a b → Match S (f a) (g b))
    : Match S (x >>= f) (y >>= g) := by
  cases h with
  | ok h => exact hf _ _ h
  | error e => exact .error e

theorem of_ok {a : α} {y : Except Fault β} (h : Match R (.ok a) y) : ∃ b, y = .ok b ∧ R a b := by
  cases h with
  | ok h => exact ⟨_, rfl, h⟩

theorem of_error {e : Fault} {y : Except Fault β} (h : Match R (.error e) y) : y = .error e := by
  cases h
  rfl

theorem after {x : Except Fault α} {f : α → Except Fault γ} {g : α → Except Fault δ}
    (hf : ∀ a, Match S (f a) (g a)) : Match S (x >>= f) (x >>= g) := by
  cases x with
  | ok a => exact hf a
  | error e => exact .error e

end Match

namespace Document

section Equations

variable (d : Document)

theorem releaseAll_cons (id : NodeId) (pending : List NodeId)
    : d.releaseAll (id :: pending)
        =
      d.children id >>= fun children =>
        (d.release id.index).releaseAll (children.reverse ++ pending) := by
  rw [releaseAll]
  split
  . next h => rw [h]; rfl
  . next h => rw [h]; rfl

theorem discardChildren_eq (p : NodeId)
    : d.discardChildren p
        =
      d.firstChild p >>= fun
        | some child => d.discard child >>= (·.discardChildren p)
        | none => .ok d := by
  rw [discardChildren]
  split
  . next h =>
    rw [h]
    split
    . next h => simp only [bind, Except.bind, h]
    . next h => simp only [bind, Except.bind, h]
  . next h => rw [h]; rfl
  . next h => rw [h]; rfl

end Equations

structure Twin (d d' : Document) : Prop where
  slots : d'.slots = d.slots
  free : d'.free = d.free

/-- A result of an operation with the document after it, on either of two twins. -/
def TwinWith {α : Type} (x y : α × Document) : Prop :=
  x.1 = y.1 ∧ x.2.Twin y.2

variable {d d' d'' : Document}

namespace Twin

theorem refl (d : Document) : d.Twin d :=
  ⟨rfl, rfl⟩

theorem recounted {tally tally' : Tally} (h : d.Twin d')
    : Twin { d with tally } { d' with tally := tally' } :=
  ⟨h.slots, h.free⟩

section Read

variable (h : d.Twin d') (id : NodeId)
include h

theorem node? : d'.node? id = d.node? id := by
  unfold Document.node?
  rw [h.slots]

theorem node : d'.node id = d.node id := by
  unfold Document.node
  rw [h.node?]

theorem content : d'.content id = d.content id := by
  unfold Document.content
  rw [h.node]

theorem parent : d'.parent id = d.parent id := by
  unfold Document.parent
  rw [h.node]

theorem firstChild : d'.firstChild id = d.firstChild id := by
  unfold Document.firstChild
  rw [h.node]

theorem lastChild : d'.lastChild id = d.lastChild id := by
  unfold Document.lastChild
  rw [h.node]

theorem nextSibling : d'.nextSibling id = d.nextSibling id := by
  unfold Document.nextSibling
  rw [h.node]

theorem siblingsFrom (bound : Nat) (start : Option NodeId)
    : d'.siblingsFrom bound start = d.siblingsFrom bound start := by
  induction bound generalizing start with
  | zero => cases start <;> rfl
  | succ bound ih =>
    cases start with
    | none => rfl
    | some id => simp only [Document.siblingsFrom, h.nextSibling, ih]

theorem children : d'.children id = d.children id := by
  unfold Document.children
  rw [h.firstChild, h.slots]
  simp only [h.siblingsFrom]

theorem element? : d'.element? id = d.element? id := by
  unfold Document.element?
  rw [h.content]

theorem classList : d'.classList id = d.classList id := by
  unfold Document.classList Document.attribute?
  rw [h.element?]

end Read

section Write

variable (h : d.Twin d') (id p : NodeId)
include h

theorem modify (f : Node → Node) : (d.modify id f).Twin (d'.modify id f) where
  slots := by
    unfold Document.modify
    rw [h.slots]
  free := h.free

theorem update (f : Node → Node) : Match Twin (d.update id f) (d'.update id f) := by
  unfold Document.update
  rw [h.node]
  exact .after fun _ => .ok (h.modify id f)

theorem create (content : Content) : TwinWith (d.create content) (d'.create content) := by
  unfold Document.create
  rw [h.free, h.slots]
  split
  . exact ⟨rfl, rfl, rfl⟩
  . exact ⟨rfl, rfl, rfl⟩

theorem release (index : Nat) : (d.release index).Twin (d'.release index) where
  slots := by
    unfold Document.release
    rw [h.slots]
  free := congrArg (index :: ·) h.free

theorem setNext (prev next : Option NodeId)
    : Match Twin (d.setNext p prev next) (d'.setNext p prev next) := by
  cases prev <;> exact h.update _ _

theorem setPrev (next prev : Option NodeId)
    : Match Twin (d.setPrev p next prev) (d'.setPrev p next prev) := by
  cases next <;> exact h.update _ _

theorem unlink : Match (fun x y => x.1.Twin y.1 ∧ x.2 = y.2) (d.unlink id) (d'.unlink id) := by
  unfold Document.unlink
  rw [h.node]
  refine .after fun n => ?_
  cases n.parent with
  | none => exact .ok ⟨h, rfl⟩
  | some p =>
    refine (h.setNext p _ _).bind fun _ _ h₁ => ?_
    refine (h₁.setPrev p _ _).bind fun _ _ h₂ => ?_
    exact (h₂.update id _).bind fun _ _ h₃ => .ok ⟨h₃, rfl⟩

theorem prevAt (reference : Option NodeId) : d'.prevAt p reference = d.prevAt p reference := by
  cases reference with
  | none => exact h.lastChild p
  | some reference =>
    unfold Document.prevAt
    simp only [h.node]

theorem link (reference : Option NodeId) : Match Twin (d.link p id reference) (d'.link p id reference) := by
  unfold Document.link
  rw [h.prevAt]
  refine .after fun prev => ?_
  refine (h.update id _).bind fun _ _ h₁ => ?_
  exact (h₁.setNext p _ _).bind fun _ _ h₂ => h₂.setPrev p _ _

theorem insertBefore (reference : Option NodeId)
    : Match Twin (d.insertBefore p id reference) (d'.insertBefore p id reference) := by
  unfold Document.insertBefore
  split
  . exact .ok h
  . refine (h.unlink id).bind ?_
    rintro ⟨_, _⟩ ⟨_, _⟩ ⟨h₁, -⟩
    exact h₁.recounted.link id p reference

theorem remove : Match Twin (d.remove id) (d'.remove id) := by
  unfold Document.remove
  exact (h.unlink id).bind fun _ _ h₁ => .ok h₁.1.recounted

theorem recordClearing (c : Clearing) : (d.recordClearing c).Twin (d'.recordClearing c) :=
  ⟨h.slots, h.free⟩

theorem recordArrival (c : Component) : (d.recordArrival c).Twin (d'.recordArrival c) :=
  ⟨h.slots, h.free⟩

theorem setContent (content : Content) : (d.setContent id content).Twin (d'.setContent id content) :=
  h.modify id _

theorem setText (s : String) : Match Twin (d.setText id s) (d'.setText id s) := by
  unfold Document.setText
  rw [h.content]
  refine .after fun c => ?_
  cases c with
  | element e => exact .ok h
  | text t => exact .ok (h.setContent id (.text s)).recounted
  | comment t => exact .ok (h.setContent id (.comment s)).recounted

theorem modifyElement (f : Element → Option Element) (count : Tally → Tally)
    : Match Twin (d.modifyElement id f count) (d'.modifyElement id f count) := by
  unfold Document.modifyElement
  rw [h.element?]
  refine .after fun e => ?_
  cases e.bind f with
  | none => exact .ok h
  | some e => exact .ok (h.setContent id (.element e)).recounted

theorem addClass (token : String) : Match Twin (d.addClass id token) (d'.addClass id token) := by
  unfold Document.addClass
  rw [h.classList]
  refine .after fun tokens => ?_
  split
  . exact .ok h
  . exact h.modifyElement id _ _

theorem removeClass (token : String) : Match Twin (d.removeClass id token) (d'.removeClass id token) := by
  unfold Document.removeClass
  rw [h.classList]
  refine .after fun tokens => ?_
  split
  . exact h.modifyElement id _ _
  . exact .ok h

end Write

section Subtrees

theorem releaseAll {pending : List NodeId} (h : d.Twin d')
    : Match Twin (d.releaseAll pending) (d'.releaseAll pending) := by
  induction d, pending using releaseAll.induct generalizing d' with
  | case1 d =>
    rw [Document.releaseAll, Document.releaseAll]
    exact .ok h
  | case2 d id pending children hc ih =>
    rw [releaseAll_cons, releaseAll_cons, h.children, hc]
    exact ih (h.release id.index)
  | case3 d id pending e he =>
    rw [releaseAll_cons, releaseAll_cons, h.children, he]
    exact .error e

theorem discard (h : d.Twin d') (id : NodeId) : Match Twin (d.discard id) (d'.discard id) := by
  unfold Document.discard
  exact (h.remove id).bind fun _ _ h₁ => h₁.releaseAll

theorem discardChildren {p : NodeId} (h : d.Twin d')
    : Match Twin (d.discardChildren p) (d'.discardChildren p) := by
  induction d using discardChildren.induct p generalizing d' with
  | case1 d child hf d₁ h₁ ih =>
    obtain ⟨d₁', h₁', htwin⟩ := (h₁ ▸ h.discard child).of_ok
    rw [discardChildren_eq, discardChildren_eq, h.firstChild, hf]
    dsimp only [bind, Except.bind]
    rw [h₁, h₁']
    exact ih htwin
  | case2 d child hf e he =>
    have he' := (he ▸ h.discard child).of_error
    rw [discardChildren_eq, discardChildren_eq, h.firstChild, hf]
    dsimp only [bind, Except.bind]
    rw [he, he']
    exact .error e
  | case3 d hf =>
    rw [discardChildren_eq, discardChildren_eq, h.firstChild, hf]
    exact .ok h
  | case4 d e hf =>
    rw [discardChildren_eq, discardChildren_eq, h.firstChild, hf]
    exact .error e

theorem plant {T : Forest Content} {parent : Option NodeId} (h : d.Twin d')
    : Match TwinWith (d.plant parent T) (d'.plant parent T) := by
  induction T generalizing d d' parent with
  | nil => exact .ok ⟨rfl, h⟩
  | cons content children siblings ihc ihs =>
    rw [Document.plant, Document.plant]
    obtain ⟨hid, h₁⟩ := h.create content
    generalize d.create content = created at hid h₁ ⊢
    generalize d'.create content = created' at hid h₁ ⊢
    obtain ⟨id, d₁⟩ := created
    obtain ⟨_, d₁'⟩ := created'
    obtain rfl : id = _ := hid
    refine (ihc h₁).bind ?_
    rintro ⟨_, d₂⟩ ⟨_, d₂'⟩ ⟨-, h₂⟩
    cases parent with
    | none =>
      refine (ihs h₂).bind ?_
      rintro ⟨later, d₃⟩ ⟨_, d₃'⟩ ⟨rfl, h₃⟩
      exact .ok ⟨rfl, h₃⟩
    | some parent =>
      refine (h₂.link id parent none).bind fun d₃ d₃' h₃ => (ihs h₃).bind ?_
      rintro ⟨later, d₄⟩ ⟨_, d₄'⟩ ⟨rfl, h₄⟩
      exact .ok ⟨rfl, h₄⟩

end Subtrees

end Twin
end Document
end VirtualDom
