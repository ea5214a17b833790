import VirtualDom.Proofs.View.Mount

/-!
This module contains what mounting adds to the tally of a document. Of a block without slots it is the
same wherever the block is mounted.
-/

namespace VirtualDom

open Engine
open Document (Place Shows)

/-- What a write to an element adds to the tally, if it is one with something to write to. -/
def Content.due (p : Element → Bool) (t : Tally) : Content → Tally
  | .element e => bif p e then t else 0
  | _ => 0

theorem Content.still_due {p : Element → Bool} {t : Tally} (ht : t.Still) (c : Content)
    : (c.due p t).Still := by
  unfold due
  split
  . next e =>
    cases p e
    . exact .zero
    . exact ht
  . exact .zero

namespace Document.Holds

variable {d : Document} {M : Multiset (NodeId × Standing)} {id : NodeId} {a : Option NodeId}
  {ks : List NodeId} {c : Content}

theorem tally_modifyElement (h : d.Holds ((id, ⟨a, ks, c⟩) ::ₘ M)) {f : Element → Option Element}
    {count : Tally → Tally} {t : Tally} (hcount : ∀ s, count s = s + t)
    : ∃ d', d.modifyElement id f count = .ok d' ∧
        d'.tally = d.tally + c.due (fun e => (f e).isSome) t := by
  unfold Document.modifyElement element?
  rw [h.content]
  cases c with
  | element e =>
    simp only [bind, Except.bind, pure, Except.pure, Option.bind, Content.due]
    cases f e with
    | none => exact ⟨d, rfl, rfl⟩
    | some e' => exact ⟨_, rfl, hcount d.tally⟩
  | text s => exact ⟨d, rfl, rfl⟩
  | comment s => exact ⟨d, rfl, rfl⟩

theorem tally_setAttribute (h : d.Holds ((id, ⟨a, ks, c⟩) ::ₘ M)) (name value : String)
    : ∃ d', d.setAttribute id name value = .ok d' ∧
        d'.tally = d.tally + c.due (fun _ => true) { attributeWrites := 1 } :=
  h.tally_modifyElement fun _ => rfl

theorem tally_setProperty (h : d.Holds ((id, ⟨a, ks, c⟩) ::ₘ M)) (name : String) (value : Value)
    : ∃ d', d.setProperty id name value = .ok d' ∧
        d'.tally = d.tally + c.due (fun _ => true) { propertyWrites := 1 } :=
  h.tally_modifyElement fun _ => rfl

theorem tally_setHandler (h : d.Holds ((id, ⟨a, ks, c⟩) ::ₘ M)) (event : String) (payload : Value)
    : ∃ d', d.setHandler id event payload = .ok d' ∧ d'.tally = d.tally + c.due (fun _ => true) 0 :=
  h.tally_modifyElement fun _ => rfl

theorem tally_addClass (h : d.Holds ((id, ⟨a, ks, c⟩) ::ₘ M)) (token : String)
    : ∃ d', d.addClass id token = .ok d' ∧
        d'.tally = d.tally + c.due (fun e => !e.classes.contains token) { attributeWrites := 1 } := by
  unfold Document.addClass
  cases c with
  | element e =>
    simp only [h.classList_element, bind, Except.bind, Content.due]
    cases e.classes.contains token with
    | true => exact ⟨d, rfl, rfl⟩
    | false => exact h.tally_setAttribute _ _
  | _ =>
    obtain ⟨tokens, ht⟩ := h.classList
    simp only [ht, bind, Except.bind]
    split
    . exact ⟨d, rfl, rfl⟩
    . exact h.tally_setAttribute _ _

end Document.Holds

/-- What the action writes to a node adds `n` of what the node holds to the tally. -/
structure Charges (x : NodeId → Engine Unit) (n : Content → Tally) : Prop where
  still : ∀ c, (n c).Still
  tally : ∀ id (h : Host) a ks c M, h.document.Holds ((id, ⟨a, ks, c⟩) ::ₘ M) → (x id).Yields h fun _ h' =>
    h'.document.tally = h.document.tally + n c

namespace Charges

variable {x y : NodeId → Engine Unit} {n m : Content → Tally} {f : Content → Content}

theorem pure : Charges (fun _ => Pure.pure ()) fun _ => 0 :=
  ⟨fun _ => .zero, fun _ _ _ _ _ _ _ => Yields.pure rfl⟩

theorem log (entries : NodeId → List Entry) : Charges (fun id => Engine.log (entries id)) fun _ => 0 :=
  ⟨fun _ => .zero, fun _ _ _ _ _ _ _ => Yields.log rfl⟩

theorem edit {e : NodeId → Document → Except Fault Document} (still : ∀ c, (n c).Still)
    (he : ∀ {id} {d : Document} {a ks c M}, d.Holds ((id, ⟨a, ks, c⟩) ::ₘ M) →
      ∃ d' : Document, e id d = .ok d' ∧ d'.tally = d.tally + n c)
    : Charges (fun id => Engine.edit (e id)) n :=
  ⟨still, fun _ _ _ _ _ _ hd => Yields.edit (he hd)⟩

/-- The second action finds what the first one has made of the node. -/
theorem bind (hx : Charges x n) (hf : ∀ id, Recasts (x id) id f) (hy : Charges y m)
    : Charges (fun id => do x id; y id) fun c => n c + m (f c) := by
  refine ⟨fun c => (hx.still c).add (hy.still (f c)), fun id h a ks c M hd => ?_⟩
  refine Yields.bind (hx.tally id h a ks c M hd).and_run ?_
  rintro _ h₁ ⟨hrun, ht⟩
  have hd := (hf id h a ks c M hd).of_ok hrun
  refine (hy.tally id h₁ a ks _ M hd).mono ?_
  intro _ h' ht'
  rw [ht', ht, add_assoc]

theorem exists_forM {γ : Type} {e : NodeId → γ → Engine PUnit} {k : Element → γ → Element}
    (hk : ∀ id x, Recasts (e id x) id (·.onElement (k · x))) (he : ∀ x, ∃ n, Charges (e · x) n)
    (xs : List γ) : ∃ n, Charges (fun id => xs.forM (e id)) n := by
  induction xs with
  | nil => exact ⟨_, pure⟩
  | cons x xs ih =>
    obtain ⟨n, hn⟩ := he x
    obtain ⟨m, hm⟩ := ih
    exact ⟨_, hn.bind (fun id => hk id x) hm⟩

end Charges

namespace Template.Binding

theorem exists_writeAttribute_charges (name : String) (value : Value)
    : ∃ n, Charges (writeAttribute · name value) n := by
  have still : ∀ p (c : Content), (c.due p { attributeWrites := 1 }).Still := fun p c =>
    Content.still_due ⟨rfl, rfl, rfl⟩ c
  unfold writeAttribute
  split
  . exact ⟨_, .edit (still _) (·.tally_modifyElement fun _ => rfl)⟩
  . exact ⟨_, .edit (still _) (·.tally_setAttribute name "")⟩
  . exact ⟨_, .edit (still _) (·.tally_setAttribute name _)⟩

theorem exists_writeAttributes_charges (attributes : List (String × Value))
    : ∃ n, Charges (writeAttributes · attributes) n := by
  unfold writeAttributes
  refine Charges.exists_forM (k := fun e entry => e.withAttribute entry.1 entry.2.attribute?) ?_ ?_ attributes
  . exact fun _ entry => writeAttribute_recasts entry.1 entry.2
  . exact fun entry => exists_writeAttribute_charges entry.1 entry.2

theorem exists_charges (value : Value) : ∀ b : Binding, ∃ n, Charges (b.set · value) n
  | .text => by
    refine ⟨fun c => if c matches .element _ then 0 else { textWrites := 1 }, ?_⟩
    refine .edit (e := fun id d => d.setText id value.text) (fun c => ?_) fun {id d a ks c M} hd => ?_
    . split
      . exact .zero
      . exact ⟨rfl, rfl, rfl⟩
    . unfold Document.setText
      rw [hd.content]
      cases c <;> exact ⟨_, rfl, rfl⟩
  | .property name =>
    ⟨_, .edit (Content.still_due ⟨rfl, rfl, rfl⟩) (·.tally_setProperty name value)⟩
  | .classes => by
    refine Charges.exists_forM (fun _ token => .edit (·.addClass token)) (fun token => ?_) _
    exact ⟨_, .edit (Content.still_due ⟨rfl, rfl, rfl⟩) (·.tally_addClass token)⟩
  | .attribute name => exists_writeAttribute_charges name value
  | .bag => by
    simp only [set]
    unfold setBag
    split
    . exact exists_writeAttributes_charges _
    . exact exists_writeAttributes_charges _
    . exact exists_writeAttributes_charges _
    . exact ⟨_, .log _⟩
  | .handler event => ⟨_, .edit (Content.still_due .zero) (·.tally_setHandler event value)⟩
  | .ref => by
    simp only [set]
    split
    . exact ⟨_, .log _⟩
    . exact ⟨_, .pure⟩

end Template.Binding

namespace Template

section Toll

variable (f : Nat × Binding → Content → Content) (n : Nat × Binding → Content → Tally)

def dues : Content → List (Nat × Binding) → Tally
  | _, [] => 0
  | c, s :: sources => n s c + dues (f s c) sources

def toll (held : NodeId → Content) : List Bound → Tally
  | [] => 0
  | b :: bounds =>
    n (b.dataIndex, b.binding) (held b.node)
      + toll (Function.update held b.node (f (b.dataIndex, b.binding) (held b.node))) bounds

variable {f n} {held held' : NodeId → Content}

theorem still_dues (hn : ∀ s c, (n s c).Still) (c : Content) (sources : List (Nat × Binding))
    : (dues f n c sources).Still := by
  induction sources generalizing c with
  | nil => exact .zero
  | cons s sources ih => exact (hn s c).add (ih _)

theorem toll_append (bounds bounds' : List Bound)
    : toll f n held (bounds ++ bounds')
        = toll f n held bounds + toll f n (rewrite f held bounds) bounds' := by
  induction bounds generalizing held with
  | nil => exact (zero_add _).symm
  | cons b bounds ih =>
    rw [List.cons_append, toll, toll, ih, add_assoc]
    rfl

theorem toll_congr {bounds : List Bound} (h : ∀ b ∈ bounds, held b.node = held' b.node)
    : toll f n held bounds = toll f n held' bounds := by
  induction bounds generalizing held held' with
  | nil => rfl
  | cons b bounds ih =>
    rw [toll, toll, h b List.mem_cons_self]
    refine congrArg _ (ih fun b' hb' => ?_)
    rw [Function.update_apply, Function.update_apply, h b' (List.mem_cons_of_mem _ hb')]

theorem toll_marks (marks : List Mark) (x : NodeId)
    : toll f n held (marks.filterMap (·.bound? x)) = dues f n (held x) (Mark.sources marks) := by
  rw [Mark.filterMap_bound?]
  generalize Mark.sources marks = sources
  induction sources generalizing held with
  | nil => rfl
  | cons s sources ih => rw [List.map_cons, toll, ih, dues, Function.update_self]

theorem toll_bounds {S : Marked} (hnd : S.nodes.ids.Nodup)
    : toll f n held S.bounds
        = (S.labels.map fun l => dues f n (held l.1.1) (Mark.sources l.2)).sum := by
  induction S generalizing held with
  | nil => rfl
  | cons label children siblings ihc ihs =>
    obtain ⟨⟨id, c⟩, marks⟩ := label
    simp only [Marked.nodes_cons, Forest.ids_cons, List.nodup_cons, List.nodup_append,
      List.mem_append, not_or] at hnd
    obtain ⟨⟨hidc, hids⟩, hndc, hnds, hdisjoint⟩ := hnd
    -- What was written before was written to other nodes.
    have hbelow : toll f n (rewrite f held (marks.filterMap (·.bound? id))) (Marked.bounds children)
        = toll f n held (Marked.bounds children) :=
      toll_congr fun b hb => rewrite_of_ne fun b' hb' heq =>
        hidc (((Mark.bound_node hb').symm.trans heq) ▸ Marked.bound_mem hb)
    have hbeside : toll f n (rewrite f held
        (marks.filterMap (·.bound? id) ++ Marked.bounds children)) (Marked.bounds siblings)
        = toll f n held (Marked.bounds siblings) := by
      refine toll_congr fun b hb => rewrite_of_ne fun b' hb' heq => ?_
      rcases List.mem_append.1 hb' with hb' | hb'
      . exact hids (((Mark.bound_node hb').symm.trans heq) ▸ Marked.bound_mem hb)
      . exact hdisjoint _ (Marked.bound_mem hb') _ (Marked.bound_mem hb) heq
    rw [Marked.bounds, toll_append, toll_append, toll_marks, hbelow, hbeside, ihc hndc, ihs hnds]
    simp only [Forest.labels, List.cons_append, List.map_cons, List.map_append, List.sum_cons,
      List.sum_append, add_assoc]

end Toll

end Template

namespace View

open Template (Bound Mark)

variable {pl : Place} {h h' : Host} {w v : View} {F G A B : Forest (NodeId × Content)}

theorem exists_plantBlock_tally {template : Template} {source : String} {normalize : Bool}
    (compiled : template.Compiled source normalize) (data : Data)
    : ∃ t : Tally, t.Still ∧ ∀ (pl : Place) (h : Host), h.document.Shows pl .nil →
        (plantBlock template data pl.node pl.after.head?).Yields h fun _ h' =>
          h'.document.tally = h.document.tally + t + { inserted := 1 } := by
  choose n hn using fun s : Nat × Template.Binding => s.2.exists_charges (data.at s.1)
  let f := fun s : Nat × Template.Binding => s.2.inscribe (data.at s.1)
  let written : Tally := (template.sketch.labels.map fun l => Template.dues f n l.1 (Mark.sources l.2)).sum
  refine ⟨{ created := template.content.labels.length } + written, ?_, fun pl h hd => ?_⟩
  . refine .add ⟨rfl, rfl, rfl⟩ (.sum fun t ht => ?_)
    obtain ⟨l, -, rfl⟩ := List.mem_map.1 ht
    exact Template.still_dues (fun s => (hn s).still) _ _
  refine plantBlock_yields_of_locations compiled hd ?_
  intro root references S held h₁ copied hheld hd ht
  have hwritten : Template.toll f n held S.bounds = written := by
    rw [Template.toll_bounds copied.nodup]
    simp only [written, ← copied.sketch, Template.Marked.sketch, Forest.labels_map, List.map_map]
    refine congrArg List.sum (List.map_congr_left fun l hl => ?_)
    rw [hheld l hl]
    rfl
  -- What is added and what is still to be added make up the same all the time.
  refine (Template.locations_run
    (I := fun bs h' => ∃ held', h'.document.Shows pl (S.filled held' fun _ => .nil) ∧
    h'.document.tally + Template.toll f n held' bs = h₁.document.tally + written) copied ?_
    ⟨held, hd, by rw [hwritten]⟩).mono ?_
  . rintro l b bs h hl hb ⟨held', hd, ht⟩
    obtain ⟨a, ks, M, hM⟩ := copied.exists_holds pl held' (fun _ => .nil) hb
    have hd := (hM h.document (held' b.node)).1 (by rwa [Function.update_eq_self])
    rw [Template.set_location hl]
    refine ((hn (b.dataIndex, b.binding)).tally b.node h a ks _ M hd).and_run.mono ?_
    rintro _ h' ⟨hrun, ht'⟩
    have hd := (Template.Binding.set_recasts (data.at b.dataIndex) b.binding h a ks _ M hd).of_ok hrun
    refine ⟨_, (hM _ _).2 hd, ?_⟩
    rw [← ht, Template.toll, ht', add_assoc]
  . rintro _ h' ⟨held', -, ht'⟩
    rw [Template.toll, add_zero, ht] at ht'
    rw [ht']
    have hsplit : ({ created := template.content.labels.length, inserted := 1 } : Tally)
        = { created := template.content.labels.length } + { inserted := 1 } := rfl
    rw [hsplit]
    abel

/-- A block of a template without slots, which is all a copy of the template. -/
inductive Bare : View → Prop
  | block {template : Template} {source : String} {normalize : Bool} {data : Data}
      {children : List (Option View)} {mounted : Option Anchorage}
      (compiled : template.Compiled source normalize) (slots : template.wiring.slots = []) :
      Bare (.block template data children mounted)

/-- The bare block is mounted, with one tree of nodes. -/
inductive Planted : View → Forest (NodeId × Content) → Prop
  | block {template : Template} {data : Data} {children : List (Option View)} {root : NodeId}
      {references : List NodeId} {F : Forest (NodeId × Content)} (slots : template.wiring.slots = [])
      (rootIds : F.rootIds = [root]) : Planted (.block template data children (some ⟨root, references⟩)) F

/-- Besides its insertion, a mount of the view adds `t` to the tally, wherever it is. -/
structure Costs (w : View) (t : Tally) : Prop where
  still : t.Still
  mount : ∀ (pl : Place) (h : Host), h.document.Shows pl .nil →
    (w.mount pl.node pl.after.head?).Yields h fun _ h' =>
      h'.document.tally = h.document.tally + t + { inserted := 1 }

namespace Bare

theorem mount_eq {template : Template} (slots : template.wiring.slots = []) (data : Data)
    (children : List (Option View)) (mounted : Option Anchorage) (parent : NodeId) (anchor : Option NodeId)
    : (View.block template data children mounted).mount parent anchor = do
        let anchorage ← plantBlock template data parent anchor
        return View.block template data children (some anchorage) := by
  rw [mount, mountAs, mountBlock_eq, slots]
  simp only [List.foldlM_nil, pure_bind]

theorem exists_costs (hw : Bare w) : ∃ t, Costs w t := by
  cases hw with
  | block compiled slots =>
    obtain ⟨t, hstill, hplant⟩ := exists_plantBlock_tally compiled ‹Data›
    refine ⟨t, hstill, fun pl h hd => ?_⟩
    rw [mount_eq slots]
    exact Yields.bind (hplant pl h hd) fun _ _ ht => Yields.pure ht

theorem mount_yields (hw : Bare w) (hd : h.document.Shows pl .nil)
    : (w.mount pl.node pl.after.head?).Yields h fun v h' => ∃ F, Planted v F ∧ h'.document.Shows pl F := by
  cases hw with
  | block compiled slots =>
    rw [mount_eq slots]
    refine Yields.bind (plantBlock_inscribes compiled _ hd) ?_
    rintro _ h' ⟨S, held, copied, -, hd⟩
    exact Yields.pure ⟨_, .block slots (copied.rootIds _ _), hd⟩

theorem planted {alloc : Allocations} {p : NodeId} (hw : Bare v) (hv : Draws alloc v p F) : Planted v F := by
  cases hv with
  | block copied =>
    cases hw with
    | block _ slots => exact .block slots (copied.rootIds _ _)
  | _ => cases hw

end Bare

end View
end VirtualDom
