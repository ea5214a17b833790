import VirtualDom.Proofs.Document.Fate
import VirtualDom.Proofs.Document.Linked

/-!
This module contains the identity of nodes: an id that resolves keeps resolving to the same node until
that node is freed, and an id that stopped resolving starts again only after a full round of the
generations of its slot.
-/

namespace VirtualDom.Document

def Call.made? (d : Document) : Call → Option NodeId
  | .createElement tag => (d.createElement tag).1
  | .createText s => (d.createText s).1
  | .createComment s => (d.createComment s).1
  | _ => none

def Call.written? : Call → Option NodeId
  | .setText id _ | .setAttribute id _ _ | .removeAttribute id _ | .addClass id _ | .removeClass id _
  | .setProperty id _ _ | .setHandler id _ _ => some id
  | _ => none

/-- The node that the call is about. A node that is to go before itself is not looked at. -/
def Call.subject? : Call → Option NodeId
  | .createElement _ | .createText _ | .createComment _ => none
  | .insertBefore _ id reference => if reference = some id then none else some id
  | .append _ id | .remove id | .discard id | .discardChildren id | .setText id _
  | .setAttribute id _ _ | .removeAttribute id _ | .addClass id _ | .removeClass id _
  | .setProperty id _ _ | .setHandler id _ _ => some id

inductive Step where
  | call (c : Call)
  | copy (source : Document) (id : NodeId)
  | resetTally

namespace Step

/-- The id of a new node, if the step returns one, and the document after the step. -/
def run (d : Document) : Step → Except Fault (Option NodeId × Document)
  | .call c => return (c.made? d, ← c.run d)
  | .copy source id => do
    let (root, d) ← d.copy source id
    return (some root, d)
  | .resetTally => return (none, d.resetTally)

def written? : Step → Option NodeId
  | .call c => c.written?
  | _ => none

/-- Whether the step is to free the node `x`, itself or with all that is below some node. -/
def Discards (d : Document) (x : NodeId) : Step → Prop
  | .call (.discard id) => d.contains x ∧ d.Within x id
  | .call (.discardChildren p) => d.contains x ∧ x ≠ p ∧ d.Within x p
  | _ => False

end Step

def held? (d : Document) (i : Nat) : Option NodeId :=
  match d.cell i with
  | (g, some _) => some ⟨i, g⟩
  | (_, none) => none

def ids (d : Document) : List NodeId :=
  (List.range d.slots.size).filterMap d.held?

/--
What happens to ids from one document to the next one: ids that resolve in the first one only, ids that
resolve in the second one only, and the object of a write.
-/
def fates (d d' : Document) (written : Option NodeId) : List Fate :=
  (d.ids.filter fun x => !d'.contains x).map .freed ++
    (d'.ids.filter fun x => !d.contains x).map .issued ++ written.toList.map .written

def lost (d d' : Document) : List NodeId :=
  d.ids.filter fun x => !d'.contains x

section Steps

variable {d d' : Document} {s : Step} {r written : Option NodeId} {i : Nat} {x : NodeId} {c : Content}

theorem Call.turns {c : Call} (h : d.Reusable) (hd : c.run d = .ok d')
    : d'.Reusable ∧ ∀ i, Turn c.written? i (d.cell i) (d'.cell i) := by
  have writes : ∀ {id}, c.written? = some id → d.Edits id d' →
      d'.Reusable ∧ ∀ i, Turn c.written? i (d.cell i) (d'.cell i) :=
    fun hid he => ⟨he.slots.reusable h, fun _ => hid ▸ .of_writes he.writes⟩
  have grows : d'.Reusable ∧ d.Grows d' → d'.Reusable ∧ ∀ i, Turn c.written? i (d.cell i) (d'.cell i) :=
    fun hg => ⟨hg.1, fun _ => .of_grows hg.2⟩
  have shrinks : d'.Reusable ∧ d.Shrinks d' →
      d'.Reusable ∧ ∀ i, Turn c.written? i (d.cell i) (d'.cell i) :=
    fun hs => ⟨hs.1, fun _ => .of_shrinks hs.2⟩
  cases c with
  | createElement tag =>
    cases hd
    exact grows (create_grows h _)
  | createText s =>
    cases hd
    exact grows (create_grows h _)
  | createComment s =>
    cases hd
    exact grows (create_grows h _)
  | insertBefore parent id reference =>
    exact ⟨(sameSlots_insertBefore hd).reusable h, fun _ => .of_eq (cell_insertBefore hd)⟩
  | append parent id =>
    unfold run Document.append at hd
    exact ⟨(sameSlots_insertBefore hd).reusable h, fun _ => .of_eq (cell_insertBefore hd)⟩
  | remove id => exact ⟨(sameSlots_remove hd).reusable h, fun _ => .of_eq (cell_remove hd)⟩
  | discard id => exact shrinks (discard_shrinks h hd)
  | discardChildren id => exact shrinks (discardChildren_shrinks h hd)
  | setText id s => exact writes rfl (.setText hd)
  | setAttribute id name value => exact writes rfl (.setAttribute hd)
  | removeAttribute id name => exact writes rfl (.removeAttribute hd)
  | addClass id token => exact writes rfl (.addClass hd)
  | removeClass id token => exact writes rfl (.removeClass hd)
  | setProperty id name value => exact writes rfl (.setProperty hd)
  | setHandler id event payload => exact writes rfl (.setHandler hd)

theorem Step.turns (h : d.Reusable) (hd : s.run d = .ok (r, d'))
    : d'.Reusable ∧ ∀ i, Turn s.written? i (d.cell i) (d'.cell i) := by
  cases s with
  | call c =>
    obtain ⟨d₁, h₁, hd⟩ := bind_eq_ok.1 hd
    cases hd
    exact Call.turns h h₁
  | copy source id =>
    obtain ⟨⟨root, d₁⟩, h₁, hd⟩ := bind_eq_ok.1 hd
    cases hd
    obtain ⟨hr, hg, -⟩ := copy_grows h h₁
    exact ⟨hr, fun _ => .of_grows hg⟩
  | resetTally =>
    cases hd
    exact ⟨⟨h.nodup, h.empty⟩, fun _ => .keep _⟩

theorem Step.returns (h : d.Reusable) (hd : s.run d = .ok (some x, d'))
    : d.contains x = false ∧ d'.contains x := by
  cases s with
  | call c =>
    obtain ⟨d₁, h₁, hd⟩ := bind_eq_ok.1 hd
    cases c with
    | createElement tag =>
      cases h₁
      cases hd
      exact create_fresh h _
    | createText s =>
      cases h₁
      cases hd
      exact create_fresh h _
    | createComment s =>
      cases h₁
      cases hd
      exact create_fresh h _
    | _ => cases hd
  | copy source id =>
    obtain ⟨⟨root, d₁⟩, h₁, hd⟩ := bind_eq_ok.1 hd
    cases hd
    exact (copy_grows h h₁).2.2
  | resetTally => cases hd

end Steps

section Held

variable {d d' : Document} {s : Step} {written : Option NodeId} {i : Nat} {x : NodeId}
  {log : List Fate}

theorem held?_eq_some : d.held? i = some x ↔ x.index = i ∧ ∃ c, d.cell i = (x.generation, some c) := by
  obtain ⟨j, g⟩ := x
  unfold held?
  cases d.cell i with
  | mk g' content =>
    cases content with
    | none => simp
    | some c =>
      simp only [Option.some.injEq, NodeId.mk.injEq, Prod.mk.injEq, exists_and_left, exists_eq', and_true]
      exact and_congr_left' eq_comm

theorem contains_iff_held? : d.contains x ↔ d.held? x.index = some x := by
  rw [held?_eq_some, contains_iff_cell]
  simp

theorem mem_ids : x ∈ d.ids ↔ d.contains x := by
  unfold ids
  rw [contains_iff_held?, List.mem_filterMap]
  constructor
  . rintro ⟨i, -, hi⟩
    rwa [(held?_eq_some.1 hi).1]
  . intro hx
    refine ⟨x.index, ?_, hx⟩
    obtain ⟨-, c, hc⟩ := held?_eq_some.1 hx
    obtain ⟨n, hn, -⟩ := Option.map_eq_some_iff.1 (cell_eq_some.1 hc)
    exact List.mem_range.2 (index_lt hn)

theorem nodup_index_ids (d : Document) : (d.ids.map NodeId.index).Nodup := by
  have hguard : ∀ i, (d.held? i).map NodeId.index = if (d.held? i).isSome then some i else none := by
    intro i
    cases hi : d.held? i with
    | none => rfl
    | some x => simp [(held?_eq_some.1 hi).1]
  unfold ids
  rw [List.map_filterMap]
  simp only [hguard]
  apply List.nodup_range.filterMap
  intro i j k hi hj
  split at hi <;> cases hi
  split at hj <;> cases hj
  rfl

/-- The log tells which id is in each slot and the generation of the slot. -/
structure Tracks (log : List Fate) (d : Document) : Prop where
  sound : Sound log
  held : ∀ i, holder i log = d.held? i
  generation : ∀ i, (d.cell i).1 = UInt32.ofNat (frees i log)

theorem mem_fates {f : Fate} : f ∈ d.fates d' written ↔
    (∃ x, f = .freed x ∧ d.contains x ∧ d'.contains x = false) ∨
      (∃ x, f = .issued x ∧ d'.contains x ∧ d.contains x = false) ∨
      ∃ x, f = .written x ∧ written = some x := by
  unfold fates
  simp only [List.mem_append, List.mem_map, List.mem_filter, mem_ids, Option.mem_toList,
    Bool.not_eq_true', or_assoc]
  grind

theorem mem_lost : x ∈ d.lost d' ↔ d.held? x.index = some x ∧ d'.held? x.index ≠ some x := by
  rw [lost, List.mem_filter, mem_ids, contains_iff_held?, Bool.not_eq_true', Bool.eq_false_iff, ne_eq,
    contains_iff_held?]

theorem mem_index_lost : i ∈ (d.lost d').map NodeId.index ↔
    ∃ x, d.held? i = some x ∧ d'.held? i ≠ some x := by
  rw [List.mem_map]
  constructor
  . rintro ⟨x, hx, rfl⟩
    exact ⟨x, mem_lost.1 hx⟩
  . rintro ⟨x, hx, hx'⟩
    have hi := (held?_eq_some.1 hx).1
    subst hi
    exact ⟨x, mem_lost.2 ⟨hx, hx'⟩, rfl⟩

theorem nodup_index_lost (d d' : Document) : ((d.lost d').map NodeId.index).Nodup :=
  (nodup_index_ids d).sublist (List.filter_sublist.map _)

theorem Turn.held? (h : Turn written i (d.cell i) (d'.cell i))
    : (d'.held? i = d.held? i ∧ (d'.cell i).1 = (d.cell i).1) ∨
      (∃ x, d.held? i = none ∧ d'.held? i = some x ∧ (d'.cell i).1 = (d.cell i).1) ∨
      ∃ x, d.held? i = some x ∧ d'.held? i = none ∧ (d'.cell i).1 = (d.cell i).1 + 1 := by
  unfold Document.held?
  generalize d.cell i = before at h
  generalize d'.cell i = after at h
  cases h with
  | keep cell => exact .inl ⟨rfl, rfl⟩
  | fill g c => exact .inr (.inl ⟨_, rfl, rfl, rfl⟩)
  | empty g c => exact .inr (.inr ⟨_, rfl, rfl, rfl⟩)
  | write object kin => exact .inl ⟨rfl, rfl⟩

theorem Turn.lost (h : Turn written i (d.cell i) (d'.cell i))
    : (i ∉ (d.lost d').map NodeId.index ∧ i ∉ (d'.lost d).map NodeId.index ∧
        d'.held? i = d.held? i ∧ (d'.cell i).1 = (d.cell i).1) ∨
      (i ∉ (d.lost d').map NodeId.index ∧ (∃ x ∈ d'.lost d, x.index = i ∧ d'.held? i = some x) ∧
        d.held? i = none ∧ (d'.cell i).1 = (d.cell i).1) ∨
      i ∈ (d.lost d').map NodeId.index ∧ i ∉ (d'.lost d).map NodeId.index ∧
        d'.held? i = none ∧ (d'.cell i).1 = (d.cell i).1 + 1 := by
  simp only [mem_index_lost]
  rcases h.held? with ⟨heq, hgen⟩ | ⟨x, hnone, hx, hgen⟩ | ⟨x, hx, hnone, hgen⟩
  . rw [heq]
    refine .inl ⟨?_, ?_, rfl, hgen⟩ <;> exact fun ⟨_, hy, hy'⟩ => hy' hy
  . have hi := (held?_eq_some.1 hx).1
    subst hi
    refine .inr (.inl ⟨?_, ⟨x, mem_lost.2 ⟨hx, by rw [hnone]; nofun⟩, rfl, hx⟩, hnone, hgen⟩)
    rintro ⟨y, hy, -⟩
    cases hnone.symm.trans hy
  . refine .inr (.inr ⟨⟨x, hx, by rw [hnone]; nofun⟩, ?_, hnone, hgen⟩)
    rintro ⟨y, hy, -⟩
    cases hnone.symm.trans hy

theorem Turn.gained (h : Turn written x.index (d.cell x.index) (d'.cell x.index)) (hx : x ∈ d'.lost d)
    : x.index ∉ (d.lost d').map NodeId.index ∧ d.held? x.index = none ∧
        d'.held? x.index = some x ∧ (d.cell x.index).1 = x.generation := by
  obtain ⟨hheld, -⟩ := mem_lost.1 hx
  obtain ⟨-, c, hc⟩ := held?_eq_some.1 hheld
  rcases h.lost with ⟨-, hnot, -⟩ | ⟨hnot, -, hnone, hgen⟩ | ⟨-, -, hnone, -⟩
  . exact absurd (List.mem_map_of_mem hx) hnot
  . exact ⟨hnot, hnone, hheld, hgen.symm.trans (congrArg Prod.fst hc)⟩
  . cases hheld.symm.trans hnone

namespace Tracks

theorem freed (h : Tracks log d) (d' : Document)
    : Sound (log ++ (d.lost d').map .freed) ∧
        (∀ i ∉ (d.lost d').map NodeId.index, holder i (log ++ (d.lost d').map .freed) = d.held? i) ∧
        ∀ i ∈ (d.lost d').map NodeId.index, holder i (log ++ (d.lost d').map .freed) = none := by
  obtain ⟨hs, hother, hemptied⟩ := h.sound.append_freed (nodup_index_lost d d')
    fun x hx => (h.held x.index).trans (mem_lost.1 hx).1
  exact ⟨hs, fun i hi => (hother i hi).trans (h.held i), hemptied⟩

theorem frees_freed (h : Tracks log d) (d' : Document) (i : Nat)
    : UInt32.ofNat (frees i (log ++ (d.lost d').map .freed))
      = (d.cell i).1 + UInt32.ofNat (((d.lost d').map NodeId.index).count i) := by
  rw [frees_append, Document.frees_freed, UInt32.ofNat_add, h.generation]

theorem issued (h : Tracks log d) (hturn : ∀ i, Turn written i (d.cell i) (d'.cell i))
    : Tracks (log ++ (d.lost d').map .freed ++ (d'.lost d).map .issued) d' := by
  obtain ⟨hs₁, hother₁, hemptied⟩ := h.freed d'
  obtain ⟨hs, hother, hfilled⟩ := hs₁.append_issued (nodup_index_lost d' d)
    (by
      intro x hx
      obtain ⟨hnot, hnone, -⟩ := (hturn x.index).gained hx
      rw [hother₁ _ hnot, hnone])
    (by
      intro x hx
      obtain ⟨hnot, -, -, hgen⟩ := (hturn x.index).gained hx
      rw [h.frees_freed, List.count_eq_zero_of_not_mem hnot, hgen]
      exact (UInt32.add_zero _).symm)
  refine ⟨hs, fun i => ?_, fun i => ?_⟩
  . rcases (hturn i).lost with ⟨hl, hg, hheld, -⟩ | ⟨-, ⟨x, hx, rfl, hheld⟩, -⟩ | ⟨hl, hg, hheld, -⟩
    . rw [hother i hg, hother₁ i hl, hheld]
    . rw [hfilled x hx, hheld]
    . rw [hother i hg, hemptied i hl, hheld]
  . rw [frees_append, frees_issued, Nat.add_zero, h.frees_freed]
    rcases (hturn i).lost with ⟨hl, -, -, hgen⟩ | ⟨hl, -, -, hgen⟩ | ⟨hl, -, -, hgen⟩
    . rw [List.count_eq_zero_of_not_mem hl, hgen]
      exact (UInt32.add_zero _).symm
    . rw [List.count_eq_zero_of_not_mem hl, hgen]
      exact (UInt32.add_zero _).symm
    . rw [List.count_eq_one_of_mem (nodup_index_lost d d') hl, hgen]
      rfl

theorem after_write (h : Tracks log d) (x : NodeId) : Tracks (log ++ [.written x]) d where
  sound := h.sound.written
  held i := by
    rw [holder_append, h.held]
    rfl
  generation i := by
    rw [frees_append, h.generation]
    rfl

theorem step (h : Tracks log d) (hturn : ∀ i, Turn written i (d.cell i) (d'.cell i))
    : Tracks (log ++ d.fates d' written) d' := by
  have hfates : d.fates d' written = (d.lost d').map .freed ++ (d'.lost d).map .issued ++
    written.toList.map .written := rfl
  have hissued := h.issued hturn
  rw [hfates, ← List.append_assoc, ← List.append_assoc]
  cases written with
  | none => simpa using hissued
  | some x => exact hissued.after_write x

end Tracks

end Held

/--
What steps from `start` lead to: the ids that they return, all that happens to ids, and the document at
the end. Only steps that succeed count, but they need not make sense.
-/
inductive Course (start : Document) : List NodeId → List Fate → Document → Prop
  | start : Course start [] [] start
  | step {returned : List NodeId} {log : List Fate} {d d' : Document} {s : Step} {r : Option NodeId}
      (course : Course start returned log d) (ok : s.run d = .ok (r, d')) :
      Course start (returned ++ r.toList) (log ++ d.fates d' s.written?) d'

/-- The id does not resolve, whatever it is used for. -/
structure Refuses (d : Document) (x : NodeId) : Prop where
  contains : d.contains x = false
  node : d.node x = .error (.deadNode x)
  update : ∀ f, d.update x f = .error (.deadNode x)
  content : d.content x = .error (.deadNode x)
  parent : d.parent x = .error (.deadNode x)
  firstChild : d.firstChild x = .error (.deadNode x)
  lastChild : d.lastChild x = .error (.deadNode x)
  nextSibling : d.nextSibling x = .error (.deadNode x)
  prevSibling : d.prevSibling x = .error (.deadNode x)
  children : d.children x = .error (.deadNode x)
  call : ∀ c : Call, c.subject? = some x → c.run d = .error (.deadNode x)
  copy : ∀ e : Document, e.copy d x = .error (.deadNode x)
  before : ∀ p id, id ≠ x → ∃ f, d.insertBefore p id (some x) = .error f
  place : ∀ id reference, reference ≠ some id → ∃ f, d.insertBefore x id reference = .error f

section Refused

variable {d d' : Document} {x p id : NodeId}

section Dead

variable (h : d.contains x = false)
include h

theorem node_dead : d.node x = .error (.deadNode x) := by
  unfold node
  unfold contains at h
  cases hx : d.node? x with
  | none => rfl
  | some n => simp [hx] at h

theorem bind_dead {α : Type} (f : Node → Except Fault α) : (d.node x >>= f) = .error (.deadNode x) := by
  rw [node_dead h]
  rfl

theorem content_dead : d.content x = .error (.deadNode x) :=
  bind_dead h _

theorem firstChild_dead : d.firstChild x = .error (.deadNode x) :=
  bind_dead h _

theorem remove_dead : d.remove x = .error (.deadNode x) := by
  have hunlink : d.unlink x = .error (.deadNode x) := bind_dead h _
  rw [remove, hunlink]
  rfl

theorem insertBefore_dead {reference : Option NodeId} (hself : reference ≠ some x)
    : d.insertBefore p x reference = .error (.deadNode x) := by
  have hunlink : d.unlink x = .error (.deadNode x) := bind_dead h _
  rw [insertBefore, if_neg hself, hunlink]
  rfl

theorem element?_dead : d.element? x = .error (.deadNode x) := by
  rw [element?, content_dead h]
  rfl

theorem modifyElement_dead (f : Element → Option Element) (count : Tally → Tally)
    : d.modifyElement x f count = .error (.deadNode x) := by
  rw [modifyElement, element?_dead h]
  rfl

theorem classList_dead : d.classList x = .error (.deadNode x) := by
  rw [classList, attribute?, element?_dead h]
  rfl

theorem children_dead : d.children x = .error (.deadNode x) := by
  rw [Document.children, firstChild_dead h]
  rfl

theorem copy_dead (e : Document) : e.copy d x = .error (.deadNode x) := by
  have hsubtree : d.subtree x = .error (.deadNode x) := by
    simp only [subtree, forest, List.foldr_cons, content_dead h, bind, Except.bind]
  rw [copy, hsubtree]
  rfl

theorem call_dead {c : Call} (hc : c.subject? = some x) : c.run d = .error (.deadNode x) := by
  cases c with
  | createElement tag | createText s | createComment s => cases hc
  | insertBefore p id reference =>
    by_cases hself : reference = some id
    . simp [Call.subject?, hself] at hc
    . simp only [Call.subject?, if_neg hself, Option.some.injEq] at hc
      subst hc
      exact insertBefore_dead h hself
  | append p id =>
    cases hc
    have hself : none ≠ some x := nofun
    exact insertBefore_dead h hself
  | remove id =>
    cases hc
    exact remove_dead h
  | discard id =>
    cases hc
    rw [Call.run, discard, remove_dead h]
    rfl
  | discardChildren id =>
    cases hc
    rw [Call.run, discardChildren, firstChild_dead h]
  | setText id s =>
    cases hc
    rw [Call.run, setText, content_dead h]
    rfl
  | setAttribute id name value | removeAttribute id name =>
    cases hc
    exact modifyElement_dead h _ _
  | setProperty id name value =>
    cases hc
    unfold Call.run setProperty
    exact modifyElement_dead h _ _
  | setHandler id event payload =>
    cases hc
    unfold Call.run setHandler
    exact modifyElement_dead h _ _
  | addClass id token =>
    cases hc
    rw [Call.run, addClass, classList_dead h]
    rfl
  | removeClass id token =>
    cases hc
    rw [Call.run, removeClass, classList_dead h]
    rfl

theorem insertBefore_beside_dead {reference : Option NodeId} (hl : d.Linked)
    (hself : reference ≠ some id) (hneeds : reference = some x ∨ p = x)
    : ∃ f, d.insertBefore p id reference = .error f := by
  cases hd : d.insertBefore p id reference with
  | error f => exact ⟨f, rfl⟩
  | ok d' =>
    obtain ⟨-, hplace, hreference⟩ := hl.insertBefore hself hd
    have hx : d.contains x := by
      rcases hneeds with hr | rfl
      . exact hreference x hr
      . exact hplace
    rw [h] at hx
    cases hx

theorem refuses (hl : d.Linked) : d.Refuses x where
  contains := h
  node := node_dead h
  update _ := bind_dead h _
  content := content_dead h
  parent := bind_dead h _
  firstChild := firstChild_dead h
  lastChild := bind_dead h _
  nextSibling := bind_dead h _
  prevSibling := bind_dead h _
  children := children_dead h
  call _ := call_dead h
  copy := copy_dead h
  before _ _ hne := insertBefore_beside_dead h hl (fun heq => hne (Option.some.inj heq).symm) (.inl rfl)
  place _ _ hself := insertBefore_beside_dead h hl hself (.inr rfl)

end Dead

end Refused

section Discards

variable {d d' : Document} {s : Step} {r : Option NodeId} {x : NodeId}

theorem Call.freed {c : Call} (h : d.Reusable) (hd : c.run d = .ok d') (hx : d.contains x)
    (hx' : d'.contains x = false) : ∃ id, c = .discard id ∨ c = .discardChildren id := by
  have absurd_of : d'.contains x → ∃ id, c = .discard id ∨ c = .discardChildren id := by
    intro hlive
    rw [hx'] at hlive
    cases hlive
  have same : d'.cell = d.cell → ∃ id, c = .discard id ∨ c = .discardChildren id :=
    fun heq => absurd_of ((contains_of_cell_eq heq).trans hx)
  cases c with
  | discard id => exact ⟨id, .inl rfl⟩
  | discardChildren id => exact ⟨id, .inr rfl⟩
  | createElement tag | createText s | createComment s =>
    cases hd
    exact absurd_of ((create_grows h _).2.contains hx)
  | insertBefore parent id reference => exact same (cell_insertBefore hd)
  | append parent id =>
    unfold run Document.append at hd
    exact same (cell_insertBefore hd)
  | remove id => exact same (cell_remove hd)
  | setText id s => exact absurd_of ((Edits.setText hd).writes.contains hx)
  | setAttribute id name value => exact absurd_of ((Edits.setAttribute hd).writes.contains hx)
  | removeAttribute id name => exact absurd_of ((Edits.removeAttribute hd).writes.contains hx)
  | addClass id token => exact absurd_of ((Edits.addClass hd).writes.contains hx)
  | removeClass id token => exact absurd_of ((Edits.removeClass hd).writes.contains hx)
  | setProperty id name value => exact absurd_of ((Edits.setProperty hd).writes.contains hx)
  | setHandler id event payload => exact absurd_of ((Edits.setHandler hd).writes.contains hx)

theorem Step.freed (h : d.Reusable) (hd : s.run d = .ok (r, d')) (hx : d.contains x)
    (hx' : d'.contains x = false)
    : ∃ id, s = .call (.discard id) ∨ s = .call (.discardChildren id) := by
  cases s with
  | call c =>
    obtain ⟨d₁, h₁, hd⟩ := bind_eq_ok.1 hd
    cases hd
    obtain ⟨id, hc⟩ := Call.freed h h₁ hx hx'
    exact ⟨id, hc.imp (congrArg _) (congrArg _)⟩
  | copy source id =>
    obtain ⟨⟨root, d₁⟩, h₁, hd⟩ := bind_eq_ok.1 hd
    cases hd
    rw [(copy_grows h h₁).2.1.contains hx] at hx'
    cases hx'
  | resetTally =>
    cases hd
    exact Bool.noConfusion (hx.symm.trans hx')

theorem Call.linked {c : Call} (h : d.Linked) (hd : c.run d = .ok d') : d'.Linked := by
  have insert : ∀ {p id reference}, d.insertBefore p id reference = .ok d' → d'.Linked := by
    intro p id reference hd
    by_cases hself : reference = some id
    . rw [Document.insertBefore, if_pos hself] at hd
      cases hd
      exact h
    . exact (h.insertBefore hself hd).1
  cases c with
  | createElement tag | createText s | createComment s =>
    cases hd
    exact (h.create _).1
  | insertBefore parent id reference => exact insert hd
  | append parent id =>
    unfold run Document.append at hd
    exact insert hd
  | remove id => exact (h.remove hd).1
  | discard id => exact (h.discard hd).1
  | discardChildren p => exact (h.discardChildren hd).1
  | setText id s => exact h.edit (.setText hd)
  | setAttribute id name value => exact h.edit (.setAttribute hd)
  | removeAttribute id name => exact h.edit (.removeAttribute hd)
  | addClass id token => exact h.edit (.addClass hd)
  | removeClass id token => exact h.edit (.removeClass hd)
  | setProperty id name value => exact h.edit (.setProperty hd)
  | setHandler id event payload => exact h.edit (.setHandler hd)

theorem Step.linked (h : d.Linked) (hd : s.run d = .ok (r, d')) : d'.Linked := by
  cases s with
  | call c =>
    obtain ⟨d₁, h₁, hd⟩ := bind_eq_ok.1 hd
    cases hd
    exact Call.linked h h₁
  | copy source id =>
    obtain ⟨⟨root, d₁⟩, h₁, hd⟩ := bind_eq_ok.1 hd
    cases hd
    exact h.copy h₁
  | resetTally =>
    cases hd
    exact (h.withTally _).1

/-- A node is freed when it is discarded, itself or with one that it is below. -/
theorem Step.freed_iff (h : d.Linked) (hd : s.run d = .ok (r, d'))
    : d.contains x ∧ d'.contains x = false ↔ s.Discards d x := by
  have other : (∀ id, s ≠ .call (.discard id)) → (∀ id, s ≠ .call (.discardChildren id)) →
      ¬ (d.contains x ∧ d'.contains x = false) := by
    rintro hdiscard hchildren ⟨hx, hx'⟩
    obtain ⟨id, hs | hs⟩ := Step.freed h.reusable hd hx hx'
    . exact hdiscard id hs
    . exact hchildren id hs
  cases s with
  | call c =>
    obtain ⟨d₁, h₁, hd⟩ := bind_eq_ok.1 hd
    cases hd
    cases c with
    | discard id =>
      obtain ⟨-, hfreed⟩ := h.discard h₁
      refine and_congr_right fun hx => ⟨fun hx' => ?_, (hfreed x).1⟩
      by_contra hw
      rw [contains_congr ((hfreed x).2 hw), hx] at hx'
      cases hx'
    | discardChildren p =>
      obtain ⟨-, -, hfreed⟩ := h.discardChildren h₁
      exact and_congr_right (hfreed x)
    | _ => exact iff_of_false (other nofun nofun) id
  | copy source id => exact iff_of_false (other nofun nofun) fun hf => hf
  | resetTally => exact iff_of_false (other nofun nofun) fun hf => hf

end Discards

namespace Course

variable {start d d' : Document} {returned later : List NodeId} {log : List Fate} {x : NodeId} {c : Content}

theorem tracks (h : Course {} returned log d) : d.Linked ∧ Tracks log d := by
  induction h with
  | start => exact ⟨.empty, ⟨.nil, fun _ => rfl, fun _ => rfl⟩⟩
  | step _ ok ih => exact ⟨Step.linked ih.1 ok, ih.2.step (Step.turns ih.1.reusable ok).2⟩

theorem returned_issued (hstart : start.Reusable) (h : Course start returned log d)
    : d.Reusable ∧ returned.Sublist (issues log) := by
  induction h with
  | start => exact ⟨hstart, List.Sublist.refl _⟩
  | @step _ _ _ _ s r _ ok ih =>
    refine ⟨(Step.turns ih.1 ok).1, ?_⟩
    rw [issues_append]
    refine ih.2.append ?_
    cases r with
    | none => exact List.nil_sublist _
    | some x =>
      rw [Option.toList_some, List.singleton_sublist, mem_issues, mem_fates]
      obtain ⟨hx, hx'⟩ := Step.returns ih.1 ok
      exact .inr (.inl ⟨x, rfl, hx', hx⟩)

theorem same_node (hstart : start.Reusable) (h : Course start returned log d)
    (hc : start.content x = .ok c) (hfreed : .freed x ∉ log)
    : ∃ c', d.content x = .ok c' ∧ c.Kin c' ∧ (.written x ∉ log → c' = c) := by
  induction h with
  | start => exact ⟨c, hc, .refl c, fun _ => rfl⟩
  | @step _ _ d d' s r course ok ih =>
    simp only [List.mem_append, not_or] at hfreed ⊢
    obtain ⟨c', hc', hkin, hsame⟩ := ih hfreed.1
    have hcell := content_eq_ok_iff.1 hc'
    have hturn := (Step.turns (course.returned_issued hstart).1 ok).2 x.index
    rw [hcell] at hturn
    generalize hcell' : d'.cell x.index = after at hturn
    cases hturn with
    | keep => exact ⟨c', content_eq_ok_iff.2 hcell', hkin, fun hw => hsame hw.1⟩
    | empty =>
      refine absurd (mem_fates.2 (.inl ⟨x, rfl, contains_iff_cell.2 ⟨c', hcell⟩, ?_⟩)) hfreed.2
      rw [Bool.eq_false_iff, ne_eq, contains_iff_cell, hcell']
      rintro ⟨e, he⟩
      cases congrArg Prod.snd he
    | write object kin =>
      refine ⟨_, content_eq_ok_iff.2 hcell', hkin.trans kin, fun hw => ?_⟩
      exact absurd (mem_fates.2 (.inr (.inr ⟨x, rfl, object⟩))) hw.2

/--
No id is given out twice, and none resolves after it was freed, while no slot goes through all
generations. An id resolves to the same node from when it is given out until it is freed, which happens
to what is discarded and to nothing else.
-/
theorem ids_resolve (h : Course {} returned log d)
    : returned.Sublist (issues log) ∧
      (∀ x a b c, log = a ++ .issued x :: (b ++ .issued x :: c) →
        ∃ n, 0 < n ∧ frees x.index b = n * 2 ^ 32) ∧
      ((∀ i, frees i log < 2 ^ 32) →
        (issues log).Nodup ∧ returned.Nodup ∧ ∀ x, .freed x ∈ log → d.Refuses x) ∧
      (∀ x a b, log = a ++ .issued x :: b → .freed x ∉ b → d.contains x) ∧
      (∀ returned' log' d', Course d returned' log' d' → ∀ x c, d.content x = .ok c →
        .freed x ∉ log' → ∃ c', d'.content x = .ok c' ∧ c.Kin c' ∧ (.written x ∉ log' → c' = c)) ∧
      ∀ (s : Step) r d', s.run d = .ok (r, d') →
        (∀ x, r = some x → .issued x ∈ d.fates d' s.written?) ∧
        (∀ id, s = .call (.discard id) → .freed id ∈ d.fates d' s.written?) ∧
        ∀ x, .freed x ∈ d.fates d' s.written? ↔ s.Discards d x := by
  obtain ⟨hlinked, htracks⟩ := h.tracks
  have hreusable := hlinked.reusable
  obtain ⟨-, hreturned⟩ := h.returned_issued reusable_empty
  refine ⟨hreturned, ?_, ?_, ?_, ?_, ?_⟩
  . rintro x a b c rfl
    exact htracks.sound.issued_again
  . intro hfrees
    have hnd := htracks.sound.nodup_issues hfrees
    refine ⟨hnd, hnd.sublist hreturned, fun x hx => refuses ?_ hlinked⟩
    have hgone := htracks.sound.holder_of_freed hfrees hx
    rw [htracks.held] at hgone
    rwa [Bool.eq_false_iff, ne_eq, contains_iff_held?]
  . rintro x a b rfl hb
    rw [contains_iff_held?, ← htracks.held]
    exact htracks.sound.holder_of_issued hb
  . exact fun _ _ _ h' _ _ hc hx => h'.same_node hreusable hc hx
  . intro s r d' hd
    have hfreed : ∀ x, .freed x ∈ d.fates d' s.written? ↔ d.contains x ∧ d'.contains x = false := by
      intro x
      rw [mem_fates]
      simp
    refine ⟨?_, ?_, ?_⟩
    . rintro x rfl
      obtain ⟨hx, hx'⟩ := Step.returns hreusable hd
      exact mem_fates.2 (.inr (.inl ⟨x, rfl, hx', hx⟩))
    . rintro id rfl
      obtain ⟨d₁, h₁, hd⟩ := bind_eq_ok.1 hd
      cases hd
      exact (hfreed id).2 (not_contains_of_discard hreusable h₁)
    . exact fun x => (hfreed x).trans (Step.freed_iff hlinked hd)

/-- The slot of a text that was discarded is used again, under a new id. -/
theorem ids_resolve_paragraph
    : ∃ (d : Document) (log : List Fate), Course {} [⟨0, 0⟩, ⟨1, 0⟩, ⟨1, 1⟩] log d ∧
        log = [.issued ⟨0, 0⟩, .issued ⟨1, 0⟩, .freed ⟨1, 0⟩, .issued ⟨1, 1⟩] ∧
        d.Refuses ⟨1, 0⟩ ∧ d.contains ⟨1, 1⟩ := by
  have h₁ : Course {} _ _ _ := .step .start (s := .call (.createElement "p")) rfl
  have h₂ : Course {} _ _ _ := .step h₁ (s := .call (.createText "a")) rfl
  have hdiscard : (Step.call (.discard ⟨1, 0⟩)).run ((createElement {} "p").2.createText "a").2
      = .ok (none, ((createElement {} "p").2.createText "a").2.release 1) := by
    have hleaf : (((createElement {} "p").2.createText "a").2.releaseAll [⟨1, 0⟩])
        = .ok (((createElement {} "p").2.createText "a").2.release 1) := by
      rw [releaseAll]
      split
      . next children hc =>
        cases hc
        exact releaseAll.eq_1 _
      . next hc => cases hc
    have hrun : (Call.discard ⟨1, 0⟩).run ((createElement {} "p").2.createText "a").2
        = .ok (((createElement {} "p").2.createText "a").2.release 1) := hleaf
    simp only [Step.run, hrun]
    rfl
  have h₃ : Course {} _ _ _ := .step h₂ hdiscard
  have h₄ : Course {} _ _ _ := .step h₃ (s := .call (.createText "b")) rfl
  obtain ⟨-, -, hrefuses, hlive, -⟩ := h₄.ids_resolve
  refine ⟨_, _, h₄, rfl, ?_, hlive ⟨1, 1⟩ [.issued ⟨0, 0⟩, .issued ⟨1, 0⟩, .freed ⟨1, 0⟩] [] rfl (by simp)⟩
  refine (hrefuses ?_).2.2 ⟨1, 0⟩ (List.mem_cons_of_mem _ (List.mem_cons_of_mem _ List.mem_cons_self))
  intro i
  exact Nat.lt_of_le_of_lt List.countP_le_length (by decide)

end Course

end VirtualDom.Document
