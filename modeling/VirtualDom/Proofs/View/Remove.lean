import VirtualDom.Proofs.View.Draws
import VirtualDom.Proofs.View.Nodes

/-!
This module contains what becomes of mounted views that move or go. A view takes all its nodes along,
and leaves nothing but its place behind.
-/

namespace VirtualDom

open Engine
open Document (Place Shows)

variable {alloc : Allocations} {v : View} {p : NodeId} {pl : Place} {h : Host}
  {A B F G : Forest (NodeId × Content)}

/--
The action takes the nodes of `F` to where `target` is next, from wherever they are at the place. What
is between is of no account.
-/
def Moves (x : Engine Unit) (pl : Place) (F : Forest (NodeId × Content)) (target : Option NodeId)
    : Prop :=
  ∀ h A B C D, h.document.Shows pl (A ++ F ++ B) → A ++ B = C ++ D →
    (D.rootIds ++ pl.after).head? = target → x.Yields h fun _ h' => h'.document.Shows pl (C ++ F ++ D)

namespace Moves

variable {x y : Engine Unit} {target : Option NodeId}

theorem nil : Moves (pure ()) pl .nil target := by
  intro h A B C D hd hs _
  rw [Forest.append_nil] at hd ⊢
  exact Yields.pure (hs ▸ hd)

theorem tree {id : NodeId} (hF : F.rootIds = [id]) : Moves (insert pl.node id target) pl F target := by
  rintro h A B C D hd hs rfl
  exact Yields.edit (hd.move hF hs)

theorem append (hx : Moves x pl F target) (hy : Moves y pl G target)
    : Moves (do x; y) pl (F ++ G) target := by
  intro h A B C D hd hs ht
  have onward : ∀ X, C = A ++ X → B = X ++ D → Yields (do x; y) h
      fun _ h' => h'.document.Shows pl (C ++ (F ++ G) ++ D) := by
    rintro X rfl rfl
    apply Yields.bind (hx h A (G ++ (X ++ D)) (A ++ G ++ X) D (by simpa [Forest.append_assoc] using hd)
      (by simp [Forest.append_assoc]) ht)
    intro _ h' hd
    have := hy h' A (X ++ F ++ D) (A ++ X ++ F) D (by simpa [Forest.append_assoc] using hd)
      (by simp [Forest.append_assoc]) ht
    simpa [Forest.append_assoc] using this
  -- Where the target is in front, it is the first node of what is passed, if there is any.
  rcases Forest.append_eq_append hs with ⟨X, hC, hB⟩ | ⟨X, rfl, rfl⟩
  . exact onward X hC hB
  . cases X with
    | nil => exact onward .nil (by simp) rfl
    | cons label children siblings =>
      obtain ⟨id, c⟩ := label
      generalize hX : Forest.cons (id, c) children siblings = X at *
      have hfirst : ∀ E : Forest (NodeId × Content), ((X ++ E).rootIds ++ pl.after).head? = some id := by
        intro E
        rw [← hX]
        rfl
      rw [hfirst] at ht
      apply Yields.bind (hx h (C ++ X) (G ++ B) C (X ++ (G ++ B))
        (by simpa [Forest.append_assoc] using hd) (by simp [Forest.append_assoc])
        ((hfirst _).trans ht))
      intro _ h' hd
      have := hy h' (C ++ F ++ X) B (C ++ F) (X ++ B) (by simpa [Forest.append_assoc] using hd)
        (by simp [Forest.append_assoc]) ((hfirst _).trans ht)
      simpa [Forest.append_assoc] using this

end Moves

namespace View

section Move

variable {target : Option NodeId} {P : Engine Unit → Forest (NodeId × Content) → Prop}

/--
A property of moving nodes of `p` to before `target`. It is true of moving several in turn if it is of
moving each of them.
-/
structure Piecemeal (p : NodeId) (target : Option NodeId)
    (P : Engine Unit → Forest (NodeId × Content) → Prop) : Prop where
  nil : P (pure ()) .nil
  tree : ∀ {F : Forest (NodeId × Content)} {id : NodeId}, F.rootIds = [id] → P (insert p id target) F
  led : ∀ {F : Forest (NodeId × Content)} {id : NodeId} {f : Option NodeId → Engine Unit},
    F.rootIds = [id] → f (some p) = insert p id target → P (do f (← read (·.parent id))) F
  append : ∀ {x y : Engine Unit} {F G : Forest (NodeId × Content)}, P x F → P y G → P (do x; y) (F ++ G)

namespace Piecemeal

theorem roots (hP : Piecemeal p target P) (F : Forest (NodeId × Content))
    : P (F.rootIds.forM fun node => insert p node target) F := by
  induction F with
  | nil => exact hP.nil
  | cons label children siblings _ ih =>
    obtain ⟨id, c⟩ := label
    exact hP.append (hP.tree (F := .cons (id, c) children .nil) rfl) ih

theorem items (hP : Piecemeal p target P) {rows : List Row}
    (hr : ∀ r ∈ rows, P (r.view.moveBefore target) r.forest)
    : P (moveItems target (rows.map Row.item)) (.join (rows.map Row.forest)) := by
  induction rows with
  | nil =>
    rw [List.map_nil, moveItems]
    exact hP.nil
  | cons r rows ih =>
    rw [List.map_cons, Row.item, moveItems]
    exact hP.append (hr r List.mem_cons_self) (ih fun r' hr' => hr r' (List.mem_cons_of_mem _ hr'))

theorem children (hP : Piecemeal p target P) {cells : List Cell}
    (hc : ∀ c ∈ cells, ∀ v, c.child = some v → P (v.moveBefore target) c.forest)
    (standIn : ∀ c ∈ cells, c.child = none → ∃ id, c.standIn = some id ∧ c.forest.rootIds = [id])
    : P (moveChildren target p (cells.map Cell.child) (cells.map Cell.standIn))
        (.join (cells.map Cell.forest)) := by
  induction cells with
  | nil =>
    rw [List.map_nil, moveChildren.eq_def]
    exact hP.nil
  | cons c cells ih =>
    have ih := ih (fun c' hc' => hc c' (List.mem_cons_of_mem _ hc'))
      fun c' hc' => standIn c' (List.mem_cons_of_mem _ hc')
    rw [List.map_cons, List.map_cons, List.map_cons, Forest.join_cons]
    cases hcc : c.child with
    | none =>
      obtain ⟨id, hid, hF⟩ := standIn c List.mem_cons_self hcc
      rw [hid, moveChildren]
      exact hP.append (hP.tree hF) ih
    | some child =>
      rw [moveChildren]
      exact hP.append (hc c List.mem_cons_self child hcc) ih

end Piecemeal

theorem Draws.piecemeal (hv : Draws alloc v p F) (hP : Piecemeal p target P) : P (v.moveBefore target) F := by
  induction hv with
  | text value_from => exact hP.tree rfl
  | html shapes => exact hP.roots _
  | list row not_sole ih => exact hP.append (hP.items fun r hr => ih r hr hP) (hP.tree rfl)
  | multi ne_nil child not_sole standIn ih =>
    refine hP.children (fun c hc v hv => ih c hc v hv hP) fun c hc hnone => ?_
    obtain ⟨id, hid, hF⟩ := standIn c hc hnone
    exact ⟨id, hid, by rw [hF]; rfl⟩
  | toggler inner not_sole ih => exact ih hP
  | block copied =>
    rw [moveBefore]
    exact hP.led (copied.rootIds _ _) rfl

theorem Draws.moves (hd : Draws alloc v p F) (hp : pl.node = p)
    : Moves (v.moveBefore target) pl F target := by
  subst hp
  refine hd.piecemeal (P := fun x F => Moves x pl F target) ⟨.nil, .tree, ?_, .append⟩
  intro F id f hF hf h A B C D hd hs ht
  refine Yields.bind_ok (read_eq_ok (hd.parent (by simp [hF]))) ?_
  rw [hf]
  exact Moves.tree hF h A B C D hd hs ht

end Move

section Gone

mutual

def farewells (d : Document) : View → List Entry
  | .block _ _ children _ | .multi children _ _ _ => childFarewells d children
  | .list items _ _ _ => itemFarewells d items
  | .toggler _ child _ => child.farewells d
  | .component name none node => [.component name (.beforeRemove node d)]
  | .component name (some child) node => .component name (.beforeRemove node d) :: child.farewells d
  | .text _ _ _ | .html _ _ _ | .ghost => []

def itemFarewells (d : Document) : List (Key × View) → List Entry
  | [] => []
  | (_, item) :: rest => item.farewells d ++ itemFarewells d rest

def childFarewells (d : Document) : List (Option View) → List Entry
  | [] => []
  | none :: rest => childFarewells d rest
  | some child :: rest => child.farewells d ++ childFarewells d rest

end

mutual

theorem beforeRemove_eq (h : Host)
    : ∀ v : View, v.beforeRemove h = .ok () { h with trace := h.trace ++ v.farewells h.document }
  | .block _ _ children _ | .multi children _ _ _ => by
    rw [beforeRemove, farewells]
    exact beforeRemoveChildren_eq h children
  | .list items _ _ _ => by
    rw [beforeRemove, farewells]
    exact beforeRemoveItems_eq h items
  | .toggler _ child _ => by
    rw [beforeRemove, farewells]
    exact beforeRemove_eq h child
  | .component name none _ => by
    rw [beforeRemove, farewells]
    rfl
  | .component name (some child) node => by
    rw [beforeRemove, farewells]
    have := beforeRemove_eq
      { h with trace := h.trace ++ [.component name (.beforeRemove node h.document)] } child
    rw [List.append_assoc] at this
    exact this
  | .text _ _ _ | .html _ _ _ | .ghost => by
    rw [beforeRemove, farewells, List.append_nil]
    rfl

theorem beforeRemoveItems_eq (h : Host)
    : ∀ items : List (Key × View),
        beforeRemoveItems items h = .ok () { h with trace := h.trace ++ itemFarewells h.document items }
  | [] => by
    rw [beforeRemoveItems, itemFarewells, List.append_nil]
    rfl
  | (_, item) :: rest => by
    rw [beforeRemoveItems, itemFarewells, ← List.append_assoc, bind_run (beforeRemove_eq h item)]
    exact beforeRemoveItems_eq _ rest

theorem beforeRemoveChildren_eq (h : Host)
    : ∀ children : List (Option View),
        beforeRemoveChildren children h
          = .ok () { h with trace := h.trace ++ childFarewells h.document children }
  | [] => by
    rw [beforeRemoveChildren, childFarewells, List.append_nil]
    rfl
  | none :: rest => by
    rw [beforeRemoveChildren, childFarewells]
    exact beforeRemoveChildren_eq h rest
  | some child :: rest => by
    rw [beforeRemoveChildren, childFarewells, ← List.append_assoc, bind_run (beforeRemove_eq h child)]
    exact beforeRemoveChildren_eq _ rest

end

theorem beforeRemove_yields (h : Host) (v : View)
    : v.beforeRemove.Yields h fun _ h' => h'.document = h.document :=
  ⟨_, _, beforeRemove_eq h v, rfl⟩

theorem beforeRemoveItems_yields (h : Host) (items : List (Key × View))
    : (beforeRemoveItems items).Yields h fun _ h' => h'.document = h.document :=
  ⟨_, _, beforeRemoveItems_eq h items, rfl⟩

/-- A view that was taken out: it knows of no nodes by which more could be freed. -/
inductive Spent : View → Prop
  | text {value : Value} {parent : Option NodeId} : Spent (.text value none parent)
  | html {markup : String} {parent : Option NodeId} : Spent (.html markup [] parent)
  | list {items : List (Key × View)} {parent : Option NodeId} {sole : Bool} :
      Spent (.list items none parent sole)
  | multi {children : List (Option View)} {standIns : List (Option NodeId)} {sole : Bool} :
      Spent (.multi children standIns none sole)
  | toggler {key : Key} {child : View} {parent : Option NodeId} (inner : Spent child) :
      Spent (.toggler key child parent)
  | block {template : Template} {data : Data} {children : List (Option View)} :
      Spent (.block template data children none)
  | component {name : String} {child : Option View} : Spent (.component name child none)

theorem Spent.remove_yields (hv : v.Spent) (h : Host)
    : v.remove.Yields h fun _ h' => h'.document = h.document := by
  induction hv with
  | toggler inner ih =>
    rw [View.remove]
    refine Yields.bind ih ?_
    intro _ h' hd
    exact Yields.pure hd
  | _ =>
    unfold View.remove
    exact Yields.pure rfl

theorem Spent.tearDown_yields (hv : v.Spent) (h : Host)
    : v.tearDown.Yields h fun _ h' => h'.document = h.document := by
  refine Yields.bind (beforeRemove_yields h v) ?_
  intro _ h' hd
  rw [← hd]
  exact hv.remove_yields h'

theorem releaseCallbacks_yields (template : Template) (data : Data) (h : Host)
    : (releaseCallbacks template data).Yields h fun _ h' => h'.document = h.document := by
  apply Yields.forM (I := fun h' => h'.document = h.document) rfl
  intro index _ h' hd
  split
  . exact Yields.log hd
  . exact Yields.pure hd

theorem removeItems_yields {rows : List Row} (hd : h.document.Shows pl (.join (rows.map Row.forest)))
    (hr : ∀ r ∈ rows, ∀ (pl' : Place) (h : Host), h.document.Shows pl' r.forest →
      pl'.node = pl.node → r.view.remove.Yields h fun _ h' => h'.document.Shows pl' .nil)
    : (removeItems (rows.map Row.item)).Yields h fun _ h' => h'.document.Shows pl .nil := by
  induction rows generalizing h with
  | nil =>
    rw [List.map_nil, removeItems]
    exact Yields.pure hd
  | cons r rows ih =>
    rw [List.map_cons, Row.item, removeItems]
    rw [List.map_cons, Forest.join_cons] at hd
    have hd : h.document.Shows (pl.narrow .nil (.join (rows.map Row.forest))) r.forest :=
      Document.shows_narrow.2 hd
    refine Yields.bind (hr r List.mem_cons_self _ _ hd rfl) ?_
    intro item h' hd
    have hd := Document.shows_narrow.1 hd
    refine Yields.bind (ih hd fun r' hr' => hr r' (List.mem_cons_of_mem _ hr')) ?_
    intro _ h' hd
    exact Yields.pure hd

theorem removeChildren_yields {cells : List Cell}
    (hd : h.document.Shows pl (.join (cells.map Cell.forest)))
    (hc : ∀ c ∈ cells, ∀ v, c.child = some v → ∀ (pl' : Place) (h : Host),
      h.document.Shows pl' c.forest → pl'.node = pl.node →
        v.remove.Yields h fun _ h' => h'.document.Shows pl' .nil)
    (standIn : ∀ c ∈ cells, c.child = none →
      ∃ id, c.standIn = some id ∧ c.forest = .leaf (id, .text ""))
    : (removeChildren (cells.map Cell.child) (cells.map Cell.standIn)).Yields h
        fun _ h' => h'.document.Shows pl .nil := by
  induction cells generalizing h with
  | nil =>
    rw [List.map_nil, removeChildren.eq_def]
    exact Yields.pure hd
  | cons c cells ih =>
    have ih := fun {h} hd => ih (h := h) hd (fun c' hc' => hc c' (List.mem_cons_of_mem _ hc'))
      fun c' hc' => standIn c' (List.mem_cons_of_mem _ hc')
    rw [List.map_cons, List.map_cons]
    rw [List.map_cons, Forest.join_cons] at hd
    cases hcc : c.child with
    | none =>
      obtain ⟨id, hid, hF⟩ := standIn c List.mem_cons_self hcc
      rw [hid, removeChildren]
      rw [hF] at hd
      refine Yields.bind (discard_yields (A := .nil) hd rfl) ?_
      intro _ h' hd
      refine Yields.bind (ih hd) ?_
      intro _ h' hd
      exact Yields.pure hd
    | some child =>
      rw [removeChildren]
      have hd : h.document.Shows (pl.narrow .nil (.join (cells.map Cell.forest))) c.forest :=
        Document.shows_narrow.2 hd
      refine Yields.bind (hc c List.mem_cons_self child hcc _ _ hd rfl) ?_
      intro _ h' hd
      refine Yields.bind (ih (Document.shows_narrow.1 hd)) ?_
      intro _ h' hd
      exact Yields.pure hd

theorem Draws.remove_yields (hv : Draws alloc v p F) (hp : pl.node = p) (hd : h.document.Shows pl F)
    (hsole : v.isSole → pl.before = [] ∧ pl.after = [])
    : v.remove.Yields h fun v' h' => v'.Spent ∧ h'.document.Shows pl .nil := by
  induction hv generalizing pl h with
  | @text value id p value_from =>
    rw [View.remove]
    refine Yields.bind (discard_whole_yields hd rfl) ?_
    intro _ h' hd
    exact Yields.pure ⟨.text, hd⟩
  | html shapes =>
    rw [View.remove]
    refine Yields.bind (discardAll_yields hd) ?_
    intro _ h' hd
    exact Yields.pure ⟨.html, hd⟩
  | @list rows anchor p sole row not_sole ih =>
    subst hp
    rw [View.remove]
    -- A sole list need not free its items, which go with all else in the parent.
    cases sole with
    | true =>
      refine Yields.bind (clear_yields hd (hsole rfl) _) ?_
      intro _ h' hd
      exact Yields.pure ⟨.list, hd⟩
    | false =>
      have hd : h.document.Shows (pl.narrow .nil (.leaf (anchor, .text "")))
          (.join (rows.map Row.forest)) := Document.shows_narrow.2 hd
      refine Yields.bind (removeItems_yields hd fun r hr pl' h hd hp => ?_) ?_
      . have hnot : r.view.isSole → pl'.before = [] ∧ pl'.after = [] := by
          simp [not_sole r hr]
        exact (ih r hr hp hd hnot).mono fun _ _ h => h.2
      intro _ h' hd
      have hd := Document.shows_narrow.1 hd
      refine Yields.bind (discard_whole_yields hd rfl) ?_
      intro _ h' hd
      exact Yields.pure ⟨.list, hd⟩
  | @multi cells p sole ne_nil child not_sole standIn ih =>
    subst hp
    rw [View.remove]
    cases sole with
    | true =>
      refine Yields.bind (clear_yields hd (hsole rfl) _) ?_
      intro _ h' hd
      exact Yields.pure ⟨.multi, hd⟩
    | false =>
      refine Yields.bind (removeChildren_yields hd (fun c hc v hv pl' h hd hp => ?_) standIn) ?_
      . have hnot : v.isSole → pl'.before = [] ∧ pl'.after = [] := by
          simp [not_sole c hc v hv]
        exact (ih c hc v hv hp hd hnot).mono fun _ _ h => h.2
      intro _ h' hd
      exact Yields.pure ⟨.multi, hd⟩
  | @toggler key child p F inner not_sole ih =>
    rw [View.remove]
    refine Yields.bind (ih hp hd (by simp [not_sole])) ?_
    intro _ h' hd
    exact Yields.pure ⟨.toggler hd.1, hd.2⟩
  | block copied =>
    rw [View.remove]
    refine Yields.bind (discard_whole_yields hd (copied.rootIds _ _)) ?_
    intro _ h' hd
    refine Yields.bind (releaseCallbacks_yields _ _ h') ?_
    intro _ h'' heq
    exact Yields.pure ⟨.block, heq ▸ hd⟩

theorem Draws.tearDown_yields (hv : Draws alloc v pl.node F) (hd : h.document.Shows pl F)
    (hsole : v.isSole → pl.before = [] ∧ pl.after = [])
    : v.tearDown.Yields h fun v' h' => v'.Spent ∧ h'.document.Shows pl .nil := by
  refine Yields.bind (beforeRemove_yields h v) ?_
  intro _ h' heq
  exact hv.remove_yields rfl (heq ▸ hd) hsole

end Gone

end View
end VirtualDom
