import VirtualDom.Proofs.Template.Sketching
import VirtualDom.Tool.Request

/-!
This module contains what the answer to a command depends on when other commands came before it in the
same session: a text that made a template once is never read again, whatever is asked about blanks.
-/

namespace VirtualDom.Tool

open Template (make)

def File.source? (file : File) : Option String :=
  file.text.toOption

structure Job where
  action : Action
  file : File
  words : List String := []
  keepBlank : Bool := false

namespace Job

def run (j : Job) : Command String :=
  match j.action with
  | .inspect => inspect j.file j.keepBlank
  | .render => render j.file j.words j.keepBlank

def answer (j : Job) (s : Session) : Except Error String :=
  outcome (j.run s)

def next (s : Session) (j : Job) : Session :=
  remainder (j.run s)

/-- The session after some commands, which goes on when one of them fails. -/
def session (jobs : List Job) : Session :=
  jobs.foldl next {}

/-- The template that the command makes of a text on its own, if it is about this text. -/
def template? (source : String) (j : Job) : Option Template :=
  if j.file.source? = some source then (make source (!j.keepBlank)).toOption else none

def first? (jobs : List Job) (j : Job) : Option Job :=
  jobs.find? fun earlier => j.file.source?.any fun source => (earlier.template? source).isSome

/-- The command, but with blanks kept or not as in the first one that makes a template of its text. -/
def heeding (jobs : List Job) (j : Job) : Job :=
  match j.first? jobs with
  | some earlier => { j with keepBlank := earlier.keepBlank }
  | none => j

def print (j : Job) (t : Template) : Except Fault String :=
  match j.action with
  | .inspect => t.report
  | .render => do (← View.ofTemplate t ⟨0, j.words.map Value.ofWord⟩ []).render

def reply (j : Job) : Except Template.Error Template → Except Error String
  | .ok t => (j.print t).mapError .fault
  | .error e => .error (.uncompilable j.file.name e)

section Load

variable {file : File} {source : String} {s : Session}

theorem check_bind {α β : Type} (x : Except Fault α) (f : α → Except Fault β)
    : (check x >>= fun a => check (f a)) = check (x >>= f) := by
  cases x <;> rfl

theorem run_eq (j : Job) : j.run = load j.file j.keepBlank >>= fun t => check (j.print t) := by
  obtain ⟨action, file, words, keepBlank⟩ := j
  cases action with
  | inspect => rfl
  | render =>
    have hprint : ∀ t : Template,
        (check (View.ofTemplate t ⟨0, words.map Value.ofWord⟩ []) >>= fun view => check view.render)
          = check (print ⟨.render, file, words, keepBlank⟩ t) := fun t => check_bind _ _
    funext s
    show render file words keepBlank s = _
    unfold render
    simp only [hprint]

theorem load_unreadable {problem : ReadProblem} (h : file.text = .error problem) (keepBlank : Bool)
    : load file keepBlank s = .error (.unreadable file.name problem) s := by
  simp only [load, h]

theorem load_eq (hs : s.settings = {}) (h : file.text = .ok source) (keepBlank : Bool)
    : ∃ delegated, load file keepBlank s = match s.templates.get? source with
      | some t => .ok t s
      | none => match make source (!keepBlank) with
        | .ok t => .ok t { s with delegated, templates := s.templates.put source t }
        | .error e => .error (.uncompilable file.name e) { s with delegated } := by
  obtain ⟨settings, templates, events⟩ := s
  cases hs
  have hnormalize : (if keepBlank then { ({} : Settings) with normalizeBlank := false }
      else {}).normalizeBlank = !keepBlank := by
    cases keepBlank <;> rfl
  simp only [load, h, Session.compile, hnormalize,
    ← Template.outcome_ofSource source (!keepBlank) events]
  cases templates.get? source with
  | some t => exact ⟨events, rfl⟩
  | none =>
    cases Template.ofSource source (!keepBlank) events with
    | ok t delegated => exact ⟨delegated, rfl⟩
    | error e delegated => exact ⟨delegated, rfl⟩

end Load

/-- The session knows just the templates that some commands make, each by the first that makes it. -/
structure Recalls (jobs : List Job) (s : Session) : Prop where
  settings : s.settings = {}
  templates : ∀ source, s.templates.get? source = jobs.findSome? (template? source)

section Sessions

variable {jobs : List Job} {s : Session}

theorem recalls_nil : Recalls [] {} :=
  ⟨rfl, fun _ => rfl⟩

theorem next_eq (s : Session) (j : Job) : next s j = remainder (load j.file j.keepBlank s) := by
  unfold next
  rw [run_eq]
  simp only [Bind.bind, EStateM.bind]
  cases load j.file j.keepBlank s with
  | error e s => rfl
  | ok t s =>
    dsimp only
    cases j.print t <;> rfl

theorem Recalls.next (h : Recalls jobs s) (j : Job) : Recalls (jobs ++ [j]) (next s j) := by
  rw [next_eq]
  have hsnoc : ∀ source, (jobs ++ [j]).findSome? (template? source)
      = (s.templates.get? source).or (j.template? source) := by
    intro source
    rw [List.findSome?_append, h.templates, List.findSome?_singleton]
  cases htext : j.file.text with
  | error problem =>
    have hnone : ∀ source, j.template? source = none := by
      intro source
      simp [template?, File.source?, htext, Except.toOption]
    rw [load_unreadable htext]
    exact ⟨h.settings, fun source => by rw [hsnoc, hnone, Option.or_none, remainder]⟩
  | ok text =>
    have hsome : ∀ source, j.template? source
        = if text = source then (make source (!j.keepBlank)).toOption else none := by
      intro source
      simp [template?, File.source?, htext, Except.toOption]
    obtain ⟨delegated, hload⟩ := load_eq h.settings htext j.keepBlank
    rw [hload]
    -- The text made a template before, it makes one now, or it does not make one.
    cases hget : s.templates.get? text with
    | some t =>
      refine ⟨h.settings, fun source => ?_⟩
      rw [hsnoc, hsome, remainder]
      split
      . next heq => rw [← heq, hget, Option.some_or]
      . rw [Option.or_none]
    | none =>
      cases hmake : make text (!j.keepBlank) with
      | ok t =>
        refine ⟨h.settings, fun source => ?_⟩
        rw [hsnoc, hsome, remainder, Dict.get?_put]
        split
        . next heq => rw [← heq, hget, hmake, Option.none_or, Except.toOption]
        . rw [Option.or_none]
      | error e =>
        refine ⟨h.settings, fun source => ?_⟩
        rw [hsnoc, hsome, remainder]
        split
        . next heq => rw [← heq, hmake, Except.toOption, Option.or_none]
        . rw [Option.or_none]

theorem recalls_session (jobs : List Job) : Recalls jobs (session jobs) := by
  induction jobs using List.reverseRecOn with
  | nil => exact recalls_nil
  | append_singleton jobs j ih =>
    unfold session at ih ⊢
    rw [List.foldl_append]
    exact ih.next j

theorem Recalls.answer_eq (h : Recalls jobs s) {j : Job} {source : String}
    (htext : j.file.text = .ok source)
    : j.answer s = j.reply (match jobs.findSome? (template? source) with
      | some t => .ok t
      | none => make source (!j.keepBlank)) := by
  obtain ⟨delegated, hload⟩ := load_eq h.settings htext j.keepBlank
  have hprint : ∀ t s, outcome (check (j.print t) s) = j.reply (.ok t) := by
    intro t s
    simp only [reply]
    cases j.print t <;> rfl
  unfold answer
  rw [run_eq]
  simp only [Bind.bind, EStateM.bind, hload, h.templates]
  cases jobs.findSome? (template? source) with
  | some t => exact hprint t s
  | none =>
    cases make source (!j.keepBlank) with
    | ok t => exact hprint t _
    | error e => rfl

theorem find?_eq_none_of_first? {j : Job} {source : String} (htext : j.file.text = .ok source)
    (h : j.first? jobs = none) : jobs.findSome? (template? source) = none := by
  unfold first? at h
  rw [List.findSome?_eq_none_iff]
  intro earlier hmem
  have := List.find?_eq_none.1 h earlier hmem
  simpa [File.source?, htext, Except.toOption] using this

theorem findSome?_eq_some_of_first? {j earlier : Job} {source : String}
    (htext : j.file.text = .ok source) (h : j.first? jobs = some earlier)
    : ∃ t, jobs.findSome? (template? source) = some t ∧ make source (!earlier.keepBlank) = .ok t := by
  obtain ⟨hearlier, before, after, rfl, hbefore⟩ := List.find?_eq_some_iff_append.1 h
  simp only [File.source?, htext, Except.toOption, Option.any_some] at hearlier hbefore
  obtain ⟨t, ht⟩ := Option.isSome_iff_exists.1 hearlier
  have hnone : before.findSome? (template? source) = none := by
    rw [List.findSome?_eq_none_iff]
    intro e he
    simpa using hbefore e he
  refine ⟨t, by rw [List.findSome?_append, hnone, List.findSome?_cons, ht, Option.none_or], ?_⟩
  unfold template? at ht
  split at ht
  . cases hmake : make source (!earlier.keepBlank) with
    | ok t' =>
      rw [hmake] at ht
      cases ht
      rfl
    | error e =>
      rw [hmake] at ht
      cases ht
  . cases ht

end Sessions

section Theorems

/--
The answer to a command in a session is the answer in a new one to the command with blanks kept or not
as in the first command of the session that made a template of the same text.
-/
theorem answer_session (jobs : List Job) (j : Job)
    : j.answer (session jobs) = (j.heeding jobs).answer {} := by
  have hfile : (j.heeding jobs).file = j.file := by
    unfold heeding
    split <;> rfl
  have hreply : (j.heeding jobs).reply = j.reply := by
    unfold heeding
    split <;> rfl
  cases htext : j.file.text with
  | error problem =>
    have hunread : ∀ (k : Job) (s : Session), k.file = j.file →
        k.answer s = .error (.unreadable j.file.name problem) := by
      intro k s hk
      unfold answer
      rw [run_eq]
      simp only [Bind.bind, EStateM.bind, hk, load_unreadable htext, outcome]
    rw [hunread j _ rfl, hunread _ _ hfile]
  | ok source =>
    rw [(recalls_session jobs).answer_eq htext, recalls_nil.answer_eq (hfile ▸ htext), hreply]
    congr 1
    cases hfirst : j.first? jobs with
    | none =>
      have hsame : j.heeding jobs = j := by
        unfold heeding
        rw [hfirst]
      rw [find?_eq_none_of_first? htext hfirst, hsame]
      rfl
    | some earlier =>
      obtain ⟨t, hknown, hmake⟩ := findSome?_eq_some_of_first? htext hfirst
      have hkeep : (j.heeding jobs).keepBlank = earlier.keepBlank := by
        unfold heeding
        rw [hfirst]
      rw [hknown, hkeep, List.findSome?_nil, hmake]

def paragraph : File :=
  ⟨"paragraph.html", .ok "<p> <b>x</b> </p>"⟩

/-- A text asked for without its blanks is shown without them also when it is then asked for with them. -/
theorem answer_session_paragraph
    : ¬ ∀ (jobs : List Job) (j : Job), j.answer (session jobs) = j.answer {} := by
  have hanswers : ((⟨.render, paragraph, [], true⟩ : Job).answer
        (session [⟨.render, paragraph, [], false⟩])).toOption = some "<p><b>x</b></p>" ∧
      ((⟨.render, paragraph, [], true⟩ : Job).answer {}).toOption = some "<p> <b>x</b> </p>" := by
    decide +kernel
  intro h
  rw [h] at hanswers
  exact absurd (hanswers.1.symm.trans hanswers.2) (by decide)

end Theorems

end Job
end VirtualDom.Tool
