import VirtualDom.Proofs.Markup.Write
import VirtualDom.Proofs.View.Raw

/-!
This module contains what a view that is rendered on its own gives, and the proof that raw markup is
settled after it is rendered once.
-/

namespace VirtualDom

open Engine
open Document (Place Shows)
open Markup.Grammar

namespace View

theorem render_yields {v : View} {Q : Forest Content → Prop}
    (hv : ∀ (h : Host) (pl : Place), h.document.Shows pl .nil →
      (v.mount pl.node pl.after.head?).Yields h fun _ h' =>
        ∃ F, h'.document.Shows pl F ∧ Q (F.map (·.2)))
    : ∃ F, v.render = .ok (.ofList (Html.write F)) ∧ Q F := by
  obtain ⟨N, hN⟩ := Document.WellFormed.empty.exists_holds
  obtain ⟨root, d, hcreate, -, hd⟩ := hN.create (.element { tag := "div" })
  let pl : Place := ⟨root, none, .element { tag := "div" }, [], [], N⟩
  have hshows : Shows d pl .nil := by
    simpa [pl, Shows, Place.census_nil] using hd
  obtain ⟨v', h', hmount, F, hshows', hQ⟩ := hv { document := d } pl hshows
  refine ⟨F.map (·.2), ?_, hQ⟩
  have hbelow : h'.document.below root = .ok F := by
    unfold Shows at hshows'
    simp only [pl, Place.census, List.nil_append, List.append_nil] at hshows'
    exact hshows'.below
  have hread : read (·.innerHtml root) h' = .ok (.ofList (Html.write (F.map (·.2)))) h' := by
    apply read_eq_ok
    rw [Document.innerHtml, hbelow]
    rfl
  have hcreate' : create (·.createElement "div") ({} : Host) = .ok root { document := d } :=
    create_eq_ok hcreate
  have hmount : v.mount root none { document := d } = .ok v' h' := hmount
  have hrun : (do
      let root ← create (·.createElement "div")
      let _ ← v.mount root none
      read (·.innerHtml root) : Engine String) {}
        = .ok (.ofList (Html.write (F.map (·.2)))) h' := by
    rw [bind_run hcreate', bind_run hmount, hread]
  unfold render
  simp only [hrun]

theorem render_ofMarkup (m : String)
    : (View.ofMarkup m).render = .ok (.ofList (Html.write (rawContents m))) := by
  obtain ⟨F, hrender, rfl⟩ := render_yields (v := .ofMarkup m) (Q := (· = rawContents m)) (by
    intro h pl hd
    unfold mount ofMarkup
    rw [mountAs]
    refine Yields.bind (rawNodes_makes m h _ hd) ?_
    rintro _ h₁ ⟨L, rfl, hL, hd⟩
    refine Yields.bind (insertAll_yields (A := .nil) (B := .nil) (Document.shows_beside.2 hd)) ?_
    intro _ h₂ hd
    rw [Forest.append_nil, Forest.nil_append] at hd
    exact Yields.pure ⟨L, hd, hL⟩)
  exact hrender

end View

def Forest.Distinct (F : Forest Content) : Prop :=
  ∀ e, .element e ∈ F.labels → e.attributes.keys.Nodup

section Read

theorem lexical_contents {m : Markup} (h : Markup.Lexical m)
    : Markup.Lexical (m.contents.map Content.item) := by
  induction m with
  | nil => trivial
  | cons item children siblings ihc ihs =>
    obtain ⟨hitem, hchildren, hsiblings⟩ := h
    have ihs := ihs hsiblings
    cases item with
    | element tag attributes =>
      obtain ⟨htag, hattributes, hvoid⟩ := hitem
      refine ⟨⟨htag, fun entry hentry => hattributes entry (Dict.mem_ofEntries hentry), ?_⟩,
        ihc hchildren, ihs⟩
      intro hv
      cases hvoid hv
      rfl
    | text s | cdata s => exact ⟨trivial, trivial, ihs⟩
    | comment s => exact ⟨hitem, trivial, ihs⟩
    | doctype s | instruction s => exact ihs

theorem lexical_rawContents (s : String) : Markup.Lexical ((rawContents s).map Content.item) := by
  unfold rawContents
  split
  . exact ⟨trivial, trivial, trivial⟩
  . next m hm =>
    obtain ⟨t, -, rfl⟩ := exists_derivation hm
    have h := lexical_contents (Markup.lexical_markup t)
    split
    . exact ⟨trivial, trivial, trivial⟩
    . exact h

theorem distinct_contents (m : Markup) : m.contents.Distinct := by
  intro e he
  induction m with
  | nil => cases he
  | cons item children siblings ihc ihs =>
    cases item with
    | element tag attributes =>
      rcases List.mem_cons.1 he with he | he
      . cases he
        exact Dict.nodup_keys_ofEntries attributes
      . exact (List.mem_append.1 he).elim ihc ihs
    | text s | cdata s | comment s =>
      refine ihs ((List.mem_cons.1 he).resolve_left nofun)
    | doctype s | instruction s => exact ihs he

theorem distinct_rawContents (s : String) : (rawContents s).Distinct := by
  unfold rawContents
  split
  . intro e he
    cases List.mem_singleton.1 he
  . next m _ =>
    have h := distinct_contents m
    split
    . intro e he
      cases List.mem_singleton.1 he
    . exact h

end Read

section Settled

theorem write_behind (run : String) (m : Markup)
    : Html.write (Markup.behind run m).contents = Html.lead run ++ Html.write m.contents := by
  unfold Markup.behind
  split
  . next h => simp [h, Html.lead]
  . rfl

theorem write_joinTexts {F : Forest Content} (hF : Markup.Lexical (F.map Content.item))
    (hd : F.Distinct) (run : String)
    : Html.write (Markup.joinTexts run (F.map Content.item)).contents
        = Html.lead run ++ Html.write F := by
  induction F generalizing run with
  | nil => exact write_behind run .nil
  | cons content children siblings ihc ihs =>
    obtain ⟨hcontent, hchildren, hsiblings⟩ := hF
    have hdc : children.Distinct :=
      fun e he => hd e (List.mem_cons_of_mem _ (List.mem_append_left _ he))
    have hds : siblings.Distinct :=
      fun e he => hd e (List.mem_cons_of_mem _ (List.mem_append_right _ he))
    have ihs := ihs hsiblings hds
    have hempty : (Html.lead "").1 = [] := rfl
    cases content with
    | text s =>
      rw [Forest.map_cons, Content.item, Markup.joinTexts, ihs, Html.lead_append, Html.write,
        List.append_assoc]
    | comment s =>
      have hjoin : Markup.joinTexts run ((Forest.cons (.comment s) children siblings).map Content.item)
          = .behind run (.cons (.comment s) .nil (Markup.joinTexts "" (siblings.map Content.item))) := rfl
      rw [hjoin, write_behind, Markup.contents, Html.write, Html.write, ihs, hempty]
      rfl
    | element e =>
      have hkeys := hd e List.mem_cons_self
      rw [Forest.map_cons, Content.item, Markup.joinTexts, write_behind, Markup.contents,
        Dict.ofEntries_eq_self hkeys, Html.write, Html.write, ihc hchildren hdc, ihs, hempty]
      cases hv : Markup.isVoid e.tag with
      | true =>
        obtain rfl := Forest.map_eq_nil.1 (hcontent.2.2 hv)
        rfl
      | false => rfl

theorem write_rawContents {F : Forest Content} (hF : Markup.Lexical (F.map Content.item))
    (hd : F.Distinct)
    : Html.write (rawContents (.ofList (Html.write F))) = Html.write F := by
  have hjoin := write_joinTexts hF hd ""
  rw [rawContents, Html.parse_write hF]
  dsimp only
  rw [show (Html.lead "").1 = [] from rfl, List.nil_append] at hjoin
  split
  . next hnil =>
    rw [hnil] at hjoin
    rw [← hjoin]
    rfl
  . exact hjoin

/-- Raw markup that was rendered once stays as it is when it is rendered again. -/
theorem View.render_ofMarkup_again (m : String)
    : ∃ h, (View.ofMarkup m).render = .ok h ∧ (View.ofMarkup h).render = .ok h := by
  refine ⟨_, render_ofMarkup m, ?_⟩
  rw [render_ofMarkup, write_rawContents (lexical_rawContents m) (distinct_rawContents m)]

end Settled

end VirtualDom
