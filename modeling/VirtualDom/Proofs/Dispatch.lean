import VirtualDom.Dispatch
import VirtualDom.Proofs.Document.Lineage
import VirtualDom.Proofs.Template.Registered
import VirtualDom.Proofs.View.Payload

/-!
This module contains the delivery of delegated events: the nearest payload on the way up from the target of
an event gets to the handler once, and after any run the payloads are those of the last data.
-/

namespace VirtualDom

open Engine

namespace Document

variable {d : Document} {event : String} {id : NodeId} {ids : List NodeId}

def payload? (d : Document) (event : String) (id : NodeId) : Option Value :=
  match d.handler? id event with
  | .ok (some payload) => if payload.isNull then none else some payload
  | _ => none

theorem payload?_eq_some {payload : Value}
    : d.payload? event id = some payload ↔
        d.handler? id event = .ok (some payload) ∧ payload.isNull = false := by
  unfold payload?
  split
  . next payload' heq =>
    rw [heq]
    cases hnull : payload'.isNull with
    | true =>
      simp only [if_true, reduceCtorEq, false_iff, not_and]
      rintro heq'
      cases heq'
      simp [hnull]
    | false =>
      simp only [Bool.false_eq_true, if_false, Option.some.injEq, Except.ok.injEq]
      constructor
      . rintro rfl
        exact ⟨rfl, hnull⟩
      . exact (·.1)
  . next hne =>
    simp only [reduceCtorEq, false_iff, not_and]
    exact fun heq => absurd heq (hne _)

theorem handler?_eq_ok {parent : Option NodeId} (h : d.parent id = .ok parent) (event : String)
    : ∃ payload, d.handler? id event = .ok payload := by
  obtain ⟨n, hn, -⟩ := parent_eq_ok.1 h
  unfold handler? element? content
  rw [node_eq_ok.2 hn]
  simp only [bind, Except.bind, pure, Except.pure]
  cases n.content <;> exact ⟨_, rfl⟩

theorem contains_of_handler? {payload : Option Value} (h : d.handler? id event = .ok payload)
    : d.contains id := by
  unfold handler? element? content node at h
  rw [contains]
  cases hn : d.node? id with
  | some n => rfl
  | none =>
    rw [hn] at h
    cases h

theorem nearestPayload?_succ {parent : Option NodeId} (h : d.parent id = .ok parent) (height : Nat)
    : d.nearestPayload? event (height + 1) id = match d.payload? event id with
        | some payload => .ok (some payload)
        | none => nearestPayload?.climb d event height id := by
  obtain ⟨payload, hpayload⟩ := handler?_eq_ok h event
  rw [nearestPayload?, payload?, hpayload]
  simp only [bind, Except.bind]
  cases payload with
  | none => rfl
  | some payload =>
    dsimp only
    cases payload.isNull <;> rfl

/-- A search that goes as high as the way up finds the first payload on it. -/
theorem Lineage.nearestPayload?_eq (hl : d.Lineage id ids) {height : Nat} (hheight : ids.length ≤ height)
    : d.nearestPayload? event height id = .ok (ids.findSome? (d.payload? event)) := by
  induction hl generalizing height with
  | @root id parent =>
    obtain ⟨height, rfl⟩ := Nat.exists_eq_add_of_le' hheight
    rw [List.length_singleton, nearestPayload?_succ parent, List.findSome?_cons]
    cases d.payload? event id with
    | some payload => rfl
    | none =>
      rw [nearestPayload?.climb, parent]
      rfl
  | @child id _ ids parent_eq rest ih =>
    rw [List.length_cons] at hheight
    obtain ⟨height, rfl⟩ := Nat.exists_eq_add_of_le' ((Nat.le_add_left 1 _).trans hheight)
    rw [nearestPayload?_succ parent_eq, List.findSome?_cons]
    cases d.payload? event id with
    | some payload => rfl
    | none =>
      rw [nearestPayload?.climb, parent_eq]
      exact ih (Nat.le_of_succ_le_succ hheight)

end Document

namespace Session

variable {s : Session} {event : Event} {h : Host} {path : List NodeId}

/--
What dispatching an event comes to, when `path` is the way up from its target: the nearest payload that is
not null gets to the handler once, together with the event.
-/
structure Dispatches (s : Session) (event : Event) (path : List NodeId) (h : Host) : Prop where
  unregistered : s.isDelegated event.name = false → s.dispatch event h = .ok false h
  nearest : s.isDelegated event.name → ∀ below node above payload, path = below ++ node :: above →
    (∀ x ∈ below, h.document.payload? event.name x = none) →
    h.document.handler? node event.name = .ok (some payload) → payload.isNull = false →
      s.dispatch event h = .ok true { h with trace := h.trace ++ s.settings.handler payload event }
  unheard : (∀ x ∈ path, h.document.payload? event.name x = none) → s.dispatch event h = .ok false h

theorem dispatch_eq (hwf : h.document.WellFormed) (hpath : h.document.Lineage event.target path)
    (hdelegated : s.isDelegated event.name)
    : s.dispatch event h = match path.findSome? (h.document.payload? event.name) with
        | some payload => .ok true { h with trace := h.trace ++ s.settings.handler payload event }
        | none => .ok false h := by
  have hfound : h.document.nearestPayload? event.name (h.document.capacity + 1) event.target
      = .ok (path.findSome? (h.document.payload? event.name)) :=
    hpath.nearestPayload?_eq ((hpath.length_le hwf).trans (Nat.le_succ _))
  rw [dispatch, if_pos hdelegated, bind_run (read_eq_ok hfound)]
  cases path.findSome? (h.document.payload? event.name) <;> rfl

theorem dispatch_of_not_delegated (hdelegated : s.isDelegated event.name = false)
    : s.dispatch event h = .ok false h := by
  rw [dispatch, hdelegated]
  rfl

theorem dispatches (s : Session) (hwf : h.document.WellFormed)
    (hpath : h.document.Lineage event.target path) : s.Dispatches event path h where
  unregistered := dispatch_of_not_delegated
  nearest hdelegated below node above payload heq hbelow hpayload hnull := by
    have hnode := Document.payload?_eq_some.2 ⟨hpayload, hnull⟩
    rw [dispatch_eq hwf hpath hdelegated, heq, List.findSome?_append,
      List.findSome?_eq_none_iff.2 hbelow, Option.none_or, List.findSome?_cons, hnode]
  unheard hsilent := by
    cases hdelegated : s.isDelegated event.name with
    | false => exact dispatch_of_not_delegated hdelegated
    | true => rw [dispatch_eq hwf hpath hdelegated, List.findSome?_eq_none_iff.2 hsilent]

end Session

namespace View

open Relation (ReflTransGen)

variable {alloc : Allocations} {h : Host} {parent : NodeId} {above : Option NodeId} {content : Content}
  {before after : List NodeId} {first : View} {later : List View}

/--
After any run, an event gets from any node to the nearest payload on the way up. An element of a block that
has one place for the event has the value of the last data there as its payload, or one that no comparison
tells from it. All events of a template that was asked for are registered.
-/
theorem run_dispatches (hwf : h.document.WellFormed)
    (hparent : h.document.standing? parent = some ⟨above, before ++ after, content⟩)
    (hbuilt : ∀ w ∈ first :: later, Built alloc w) (hchain : (first :: later).IsChain Compatible)
    : ∃ v h', run first later parent after.head? h = .ok v h' ∧ Alike v (later.getLastD first) ∧
        (∀ (s : Session) (event : Event), h'.document.contains event.target →
          ∃ path, h'.document.Lineage event.target path ∧ s.Dispatches event path h') ∧
        (∀ t data children mounted, Part (.block t data children mounted) v →
          ∃ a, mounted = some a ∧ a.Delivers t data h'.document) ∧
        ∀ (s s' s'' : Session) source t, s.Reached → Session.compile source s = .ok t s' →
          ReflTransGen Session.Step s' s'' → s''.Registers t := by
  obtain ⟨v, h', hrun, hwf', halike, hpayloads⟩ := run_payloads hwf hparent hbuilt hchain
  refine ⟨v, h', hrun, halike, ?dispatch, hpayloads, ?registered⟩
  case dispatch =>
    intro s event hcontains
    obtain ⟨path, hpath⟩ := hwf'.exists_lineage hcontains
    exact ⟨path, hpath, s.dispatches hwf' hpath⟩
  case registered =>
    intro s s' s'' source t hs hcompile hsteps
    exact (hs.compile_registers hcompile).mono hsteps

/-- Blocks of a list: they come to other data, some of it absent, and in the end one of them goes. -/
def buttons (t : Template) : List View :=
  [.ofItems [(.int 1, .block t ⟨0, [.handler 0 "go"]⟩ [] none), (.int 2, .block t ⟨1, [.str "a"]⟩ [] none)],
    .ofItems [(.int 2, .block t ⟨2, []⟩ [] none), (.int 1, .block t ⟨3, [.str "b"]⟩ [] none)],
    .ofItems [(.int 2, .block t ⟨1, [.str "a"]⟩ [] none)]]

def buttonData : Allocations where
  items := fun _ => []
  display := fun _ => ""
  data := fun
    | 0 => [.handler 0 "go"]
    | 1 => [.str "a"]
    | 2 => []
    | _ => [.str "b"]

theorem exists_buttons
    : ∃ t : Template, t.Compiled "<button><b block-handler-0='click'></b></button>" true ∧
        t.wiring.locations.map (fun l => (l.dataIndex, l.binding)) = [(0, .handler "click")] ∧
        (∀ w ∈ .ofText (.str "x") :: buttons t, Built buttonData w) ∧
        (.ofText (.str "x") :: buttons t).IsChain Compatible := by
  have hmakes : Template.makes "<button><b block-handler-0='click'></b></button>" true fun t =>
      t.wiring.slots.isEmpty &&
        t.wiring.locations.map (fun l => (l.dataIndex, l.binding)) = [(0, .handler "click")] := by
    decide +kernel
  obtain ⟨t, ht, htest⟩ := Template.exists_compiled hmakes
  rw [Bool.and_eq_true, List.isEmpty_iff] at htest
  obtain ⟨hslots, hlocations⟩ := htest
  have hblock : ∀ i values, buttonData.data i = values → (∀ v ∈ values, v.From buttonData) →
      Built buttonData (.block t ⟨i, values⟩ [] none) := by
    intro i values hvalues hfrom
    have hmade : ofTemplate t ⟨i, values⟩ [] = .ok (.block t ⟨i, values⟩ [] none) := by
      simp [ofTemplate, Template.Wiring.childCapacity, hslots, childLimit]
      rfl
    exact .block ht (by simp [hslots]) ⟨hvalues.symm, hfrom⟩ (by simp) hmade
  refine ⟨t, ht, of_decide_eq_true hlocations, ?_, ?_⟩
  . have hgo := hblock 0 [.handler 0 "go"] rfl (List.forall_mem_singleton.2 trivial)
    have ha := hblock 1 [.str "a"] rfl (List.forall_mem_singleton.2 trivial)
    have hnone := hblock 2 [] rfl (List.forall_mem_nil _)
    have hb := hblock 3 [.str "b"] rfl (List.forall_mem_singleton.2 trivial)
    simp only [buttons, List.forall_mem_cons]
    exact ⟨.text trivial, .list (by simpa using ⟨hgo, ha⟩), .list (by simpa using ⟨hnone, hb⟩),
      .list (by simpa using ha), by simp⟩
  . have hblocks : ∀ data data', Compatible (.block t data [] none) (.block t data' [] none) :=
      fun _ _ => .block (by simp)
    refine .cons_cons (.replaced (by simp [kind, ofText, ofItems])) (.cons_cons (.list ?_) ?_)
    . simp [hblocks]
    . exact .cons_cons (.list (by simp [hblocks])) (.singleton _)

/-- Where a template binds nothing but one event, its copies have a node with the payload for it. -/
theorem exists_payload {a : Anchorage} {t : Template} {data : Data} {d : Document} {index : Nat}
    {event : String} (h : a.Delivers t data d)
    (hlone : t.wiring.locations.map (fun l => (l.dataIndex, l.binding)) = [(index, .handler event)])
    : ∃ node payload, d.handler? node event = .ok (some payload) ∧ payload.Like (data.at index) := by
  obtain ⟨l, hl, heq⟩ := List.map_eq_singleton_iff.1 hlone
  obtain ⟨hindex, hbinding⟩ := Prod.mk.inj heq
  have hmem : l ∈ t.wiring.locations := hl ▸ List.mem_cons_self
  obtain ⟨node, hnode⟩ := h.exists_node l hmem
  have hprovides : t.Provides a.references node event index := by
    refine ⟨⟨l, hmem, hnode, hbinding⟩, fun l' hl' _ _ => ?_⟩
    rw [hl] at hl'
    exact List.mem_singleton.1 hl' ▸ hindex
  obtain ⟨payload, hpayload, hlike, -⟩ := h.payload node event index hprovides
  exact ⟨node, payload, hpayload, hlike⟩

/-- A click on the button that is left delivers the text of its last data, whatever it had before. -/
theorem run_dispatches_buttons
    : ∃ d t, d.children ⟨0, 0⟩ = .ok [⟨1, 0⟩] ∧
        t.Compiled "<button><b block-handler-0='click'></b></button>" true ∧
        ∃ v h' node, run (.ofText (.str "x")) (buttons t) ⟨0, 0⟩ (some ⟨1, 0⟩) ⟨d, []⟩ = .ok v h' ∧
          h'.document.handler? node "click" = .ok (some (.str "a")) ∧
          (∀ s : Session, s.isDelegated "click" →
            s.dispatch ⟨"click", node⟩ h' = .ok true
              { h' with trace := h'.trace ++ s.settings.handler (.str "a") ⟨"click", node⟩ }) ∧
          ∀ (s s' s'' : Session) source t, s.Reached → Session.compile source s = .ok t s' →
            ReflTransGen Session.Step s' s'' → s''.Registers t := by
  obtain ⟨d, c, hrun, hchildren, hparent⟩ := Document.Run.exists_paragraph
  have hparent : d.standing? ⟨0, 0⟩ = some ⟨none, [] ++ [⟨1, 0⟩], c⟩ := hparent
  obtain ⟨t, ht, hlone, hbuilt, hchain⟩ := exists_buttons
  obtain ⟨v, h', hrun, halike, hdispatch, hpayloads, hregistered⟩ :=
    run_dispatches (h := ⟨d, []⟩) hrun.wellFormed_and_capacity.1 hparent hbuilt hchain
  have halike : Alike v (.ofItems [(.int 2, .block t ⟨1, [.str "a"]⟩ [] none)]) := halike
  cases halike with
  | @list items _ anchor _ parent _ sole _ keys item =>
    obtain ⟨⟨key, w⟩, rfl, -⟩ := List.map_eq_singleton_iff.1 keys
    have hitem : Alike w (.block t ⟨1, [.str "a"]⟩ [] none) := item 0 _ _ rfl rfl
    cases hitem with
    | @block _ _ children _ mounted =>
      have hpart : Part (.block t ⟨1, [.str "a"]⟩ children mounted) (.list [(key, _)] anchor parent sole) :=
        .item List.mem_cons_self .self
      obtain ⟨a, rfl, hdelivers⟩ := hpayloads _ _ _ _ hpart
      obtain ⟨node, payload, hpayload, hlike⟩ := exists_payload hdelivers hlone
      obtain rfl : payload = .str "a" := hlike.eq_str
      refine ⟨d, t, hchildren, ht, _, h', node, hrun, hpayload, fun s hs => ?_, hregistered⟩
      obtain ⟨path, hpath, hdispatches⟩ :=
        hdispatch s ⟨"click", node⟩ (Document.contains_of_handler? hpayload)
      obtain ⟨rest, rfl⟩ := hpath.exists_cons
      exact hdispatches.nearest hs [] node rest _ rfl (List.forall_mem_nil _) hpayload rfl

def keepsZero (t : Template) : Bool :=
  t.wiring.locations.map (fun l => (l.dataIndex, l.binding)) = [(0, .handler "click")] &&
    match run (.block t ⟨0, [.number ⟨0⟩]⟩ [] none)
        [.block t ⟨1, [.number ⟨0x8000000000000000⟩]⟩ [] none] ⟨0, 0⟩ none .paragraph with
    | .ok v h =>
      v.firstNode = some ⟨1, 0⟩ &&
        match h.document.handler? ⟨1, 0⟩ "click" with
        | .ok (some (.number x)) => x = ⟨0⟩
        | _ => false
    | .error _ _ => false

/-- The payload for an event stays the number that it is when one comes that is numerically equal. -/
theorem run_keeps_zero_payload
    : ∃ t : Template, t.Compiled "<p block-handler-0='click'></p>" true ∧
        t.wiring.locations.map (fun l => (l.dataIndex, l.binding)) = [(0, .handler "click")] ∧
        ∃ v h', run (.block t ⟨0, [.number ⟨0⟩]⟩ [] none)
            [.block t ⟨1, [.number ⟨0x8000000000000000⟩]⟩ [] none] ⟨0, 0⟩ none .paragraph = .ok v h' ∧
          v.firstNode = some ⟨1, 0⟩ ∧
          h'.document.handler? ⟨1, 0⟩ "click" = .ok (some (.number ⟨0⟩)) ∧
          Data.at ⟨1, [.number ⟨0x8000000000000000⟩]⟩ 0 ≠ .number ⟨0⟩ := by
  have hmakes : Template.makes "<p block-handler-0='click'></p>" true keepsZero := by
    decide +kernel
  obtain ⟨t, ht, htest⟩ := Template.exists_compiled hmakes
  unfold keepsZero at htest
  rw [Bool.and_eq_true] at htest
  obtain ⟨hlocations, htest⟩ := htest
  split at htest
  . next v h' hrun =>
    rw [Bool.and_eq_true] at htest
    obtain ⟨hfirst, htest⟩ := htest
    split at htest
    . next x hclick =>
      obtain rfl := of_decide_eq_true htest
      exact ⟨t, ht, of_decide_eq_true hlocations, v, h', hrun, of_decide_eq_true hfirst, hclick,
        by simp [Data.at]⟩
    . cases htest
  . cases htest

end View
end VirtualDom
