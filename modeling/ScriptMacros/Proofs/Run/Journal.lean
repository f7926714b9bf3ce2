import ScriptMacros.Proofs.Grouping
import ScriptMacros.Proofs.Run.OpenFiles
import ScriptMacros.Proofs.Run.Passes
import ScriptMacros.Run.Journal

namespace ScriptMacros

namespace Event

def resolved? : Event → Option Include
  | resolved i => some i
  | _ => none

def skipped? : Event → Option Include
  | skipped i => some i
  | _ => none

def failed? : Event → Option Location
  | failed place => some place
  | _ => none

def defines (name : Text) : Event → Bool
  | defined n _ | redefined n _ _ => n = name
  | _ => false

theorem failed?_eq_some_iff {e : Event} {place : Location} : e.failed? = some place ↔ e = failed place := by
  cases e <;> simp [failed?]

end Event

/-- What is told of the definitions of a macro: the first is new, and each of the others tells how many there are. -/
def Macro.history (m : Macro) : List Event :=
  m.definitions.mapIdx fun k d => if k = 0 then .defined m.name d.location else .redefined m.name d.location (k + 1)

theorem Macro.history_extend {m : Macro} (h : m.definitions ≠ []) (d : Definition) :
    (m.extend d).history = m.history ++ [.redefined m.name d.location (m.definitions.length + 1)] := by
  rw [history, extend, List.mapIdx_concat, if_neg (mt List.length_eq_zero_iff.1 h)]
  rfl

namespace MacroTable

variable {t : MacroTable} {r : Registration}

def history (t : MacroTable) (name : Text) : List Event := ((t.get? name).map Macro.history).getD []

def Established (t : MacroTable) : Prop := ∀ name m, t.get? name = some m → m.definitions ≠ []

theorem Established.define (h : t.Established) (r : Registration) : (t.define r).Established := by
  intro name m hm
  rw [get?_define] at hm
  split at hm
  · cases hget : t.get? name with
    | none =>
      rw [hget] at hm
      cases hm
      exact List.cons_ne_nil _ _
    | some m' =>
      rw [hget] at hm
      cases hm
      exact List.append_ne_nil_of_right_ne_nil _ (List.cons_ne_nil _ _)
  · exact h name m hm

theorem history_define_of_ne {name : Text} (h : r.name ≠ name) : (t.define r).history name = t.history name := by
  rw [history, get?_define, if_neg h]
  rfl

theorem history_define_of_none (h : t.get? r.name = none) :
    (t.define r).history r.name = t.history r.name ++ [.defined r.name r.definition.location] := by
  rw [history, get?_define, if_pos rfl, history, h]
  rfl

theorem history_define_of_some (ht : t.Established) {m : Macro} (h : t.get? r.name = some m) :
    (t.define r).history r.name =
      t.history r.name ++ [.redefined r.name r.definition.location (m.definitions.length + 1)] := by
  have hname : m.name = r.name := (get?_eq_some_iff.1 h).2
  rw [history, get?_define, if_pos rfl, history, h, Option.map_some, Option.getD_some, Option.map_some,
    Option.getD_some, Macro.history_extend (ht _ _ h), hname]
  rfl

end MacroTable

namespace Expansion

variable {ms : List Macro} {left count : Nat} {line t : Text} {f : Fault}

/-- Replacements that lead from one line to another, each made in the line that the one before has left. -/
inductive Leads (ms : List Macro) : Text → List Step → Text → Prop
  | done (t : Text) : Leads ms t [] t
  | next {line t : Text} {m : Macro} {i : Invocation} {l : List Step} (hf : firstInvocation? ms line = some (m, i))
      (h : Leads ms (i.result line) l t) : Leads ms line (⟨m.name, line, i.result line⟩ :: l) t

theorem steps_of_none (hf : firstInvocation? ms line = none) : steps ms left line = [] := by
  cases left with
  | zero => rfl
  | succ left => rw [steps, hf]

theorem steps_of_same {m : Macro} {i : Invocation} (hf : firstInvocation? ms line = some (m, i))
    (hi : i.replacement = i.written) : steps ms left line = [] := by
  cases left with
  | zero => rfl
  | succ left =>
    rw [steps, hf]
    exact if_pos hi

theorem steps_of_differ {m : Macro} {i : Invocation} (hf : firstInvocation? ms line = some (m, i))
    (hi : ¬ i.replacement = i.written) :
    steps ms (left + 1) line = ⟨m.name, line, i.result line⟩ :: steps ms left (i.result line) := by
  rw [steps, hf]
  exact if_neg hi

theorem leads_steps (h : expandWithin ms left count line = .ok t) : Leads ms line (steps ms left line) t := by
  fun_induction expandWithin ms left count line with
  | case1 left count line hf =>
    cases h
    rw [steps_of_none hf]
    exact .done _
  | case2 => contradiction
  | case3 => contradiction
  | case4 count line m i hf hi left ih =>
    rw [steps_of_differ hf hi]
    exact .next hf (ih h)

theorem exists_leads_steps (h : expandWithin ms left count line = .error f) :
    ∃ u m i, Leads ms line (steps ms left line) u ∧ firstInvocation? ms u = some (m, i) ∧
      f = .recursion m.name (count + (steps ms left line).length + 1) := by
  fun_induction expandWithin ms left count line with
  | case1 => contradiction
  | case2 left count line m i hf hi =>
    cases h
    rw [steps_of_same hf hi]
    exact ⟨line, m, i, .done line, hf, rfl⟩
  | case3 count line m i hf hi =>
    cases h
    exact ⟨line, m, i, .done line, hf, rfl⟩
  | case4 count line m i hf hi left ih =>
    obtain ⟨u, m', i', hleads, hu, rfl⟩ := ih h
    rw [steps_of_differ hf hi, List.length_cons]
    exact ⟨u, m', i', .next hf hleads, hu, by rw [Nat.add_assoc count 1, Nat.add_comm 1]⟩

end Expansion

def Failure.unexpanded? : Failure → Option Location
  | expansion _ place _ => some place
  | _ => none

theorem Failure.unexpanded?_eq_some_iff {failure : Failure} {place : Location} :
    failure.unexpanded? = some place ↔ ∃ f line, failure = .expansion f place line := by
  cases failure <;> simp [unexpanded?]

def reached : Except Halt Progress → Progress
  | .ok g => g
  | .error halt => halt.progress

def unexpanded? : Except Halt Progress → Option Location
  | .ok _ => none
  | .error halt => halt.failure.unexpanded?

/-- Events that tell what a part of a run has collected on top of what was there, and where it ended, if it did so at
a line that cannot be expanded. -/
structure Tells (es : List Event) (g : Progress) (o : Except Halt Progress) : Prop where
  established : (reached o).macros.Established
  includes : (reached o).includes = g.includes ++ es.filterMap Event.resolved?
  missing : es.filterMap Event.skipped? = (es.filterMap Event.resolved?).filter (!·.found)
  history : ∀ name, (reached o).macros.history name = g.macros.history name ++ es.filter (Event.defines name)
  failures : es.filterMap Event.failed? = (unexpanded? o).toList

namespace Tells

variable {es es' : List Event} {g g' : Progress} {o : Except Halt Progress} {i : Include}

theorem append (h : Tells es g (.ok g')) (h' : Tells es' g' o) : Tells (es ++ es') g o where
  established := h'.established
  includes := by
    have hfirst : g'.includes = g.includes ++ es.filterMap Event.resolved? := h.includes
    rw [h'.includes, hfirst, List.filterMap_append, List.append_assoc]
  missing := by rw [List.filterMap_append, List.filterMap_append, List.filter_append, h.missing, h'.missing]
  history name := by
    have hfirst : g'.macros.history name = g.macros.history name ++ es.filter (Event.defines name) := h.history name
    rw [h'.history, hfirst, List.filter_append, List.append_assoc]
  failures := by
    have hfirst : es.filterMap Event.failed? = [] := h.failures
    rw [List.filterMap_append, hfirst, List.nil_append, h'.failures]

theorem located (h : Tells es g o) (place : Location) : Tells es g (o.mapError (·.located place)) := by
  cases o with
  | ok g' => exact h
  | error halt =>
    have hsame : (halt.failure.located place).unexpanded? = halt.failure.unexpanded? := by
      cases halt.failure with
      | directive f place => cases place <;> rfl
      | _ => rfl
    exact ⟨h.established, h.includes, h.missing, h.history, h.failures.trans (congrArg _ hsame.symm)⟩

theorem resolved (hfound : i.found = true) (h : Tells es (g.record i) o) : Tells (.resolved i :: es) g o where
  established := h.established
  includes := h.includes.trans (List.append_assoc _ _ _)
  missing := by
    change es.filterMap Event.skipped? = (i :: es.filterMap Event.resolved?).filter (!·.found)
    rw [h.missing, List.filter_cons_of_neg (by simp [hfound])]
  history := h.history
  failures := h.failures

end Tells

namespace Project

variable {p : Project} {active : List Address} {telling : Telling p active} {entering : Entering p active}
  {place : Location} {g : Progress}

section

variable (hg : g.macros.Established)

include hg

theorem tells_nil {o : Except Halt Progress} (hreached : reached o = g) (hexpanded : unexpanded? o = none) :
    Tells [] g o where
  established := hreached ▸ hg
  includes := by rw [hreached]; exact (List.append_nil _).symm
  missing := rfl
  history name := by rw [hreached]; exact (List.append_nil _).symm
  failures := by rw [hexpanded]; rfl

theorem tells_registered (r : Registration) {e : Event} (hname : ∀ name, e.defines name = decide (r.name = name))
    (hother : e.resolved? = none ∧ e.skipped? = none ∧ e.failed? = none)
    (hhistory : (g.macros.define r).history r.name = g.macros.history r.name ++ [e]) :
    Tells [e] g (.ok { g with macros := g.macros.define r }) where
  established := hg.define r
  includes := by rw [List.filterMap_cons_none hother.1]; exact (List.append_nil _).symm
  missing := by rw [List.filterMap_cons_none hother.2.1, List.filterMap_cons_none hother.1]; rfl
  history name := by
    by_cases h : r.name = name
    · rw [List.filter_cons_of_pos (by simpa [hname] using h), ← h]
      exact hhistory
    · rw [List.filter_cons_of_neg (by simpa [hname] using h)]
      exact (MacroTable.history_define_of_ne h).trans (List.append_nil _).symm
  failures := by rw [List.filterMap_cons_none hother.2.2]; rfl

theorem tells_replaced (l : List Expansion.Step) : Tells (l.map .replaced) g (.ok g) := by
  induction l with
  | nil => exact tells_nil hg rfl rfl
  | cons s l ih => exact ⟨ih.established, ih.includes, ih.missing, ih.history, ih.failures⟩

variable (hnested : ∀ i t a ha hf g, g.macros.Established →
  Tells (telling i t a ha hf g) g ((entering i t a ha hf g).map (·.2)))

include hnested

theorem tells_include (i : Include) :
    Tells (.resolved i :: p.eventsOfInclude active telling i (g.record i)) g
      (p.enter active entering place i (g.record i)) := by
  have hrecord : (g.record i).macros.Established := hg
  rw [eventsOfInclude, enter]
  cases he : p.entry active i with
  | absent =>
    have hmissing : [i] = [i].filter (!·.found) := by simp [entry_eq_absent_iff.1 he]
    exact ⟨hg, rfl, hmissing, fun _ => (List.append_nil _).symm, rfl⟩
  | circular a =>
    exact (tells_nil hrecord rfl rfl).resolved (entry_eq_circular he).2.2
  | unusable f =>
    refine Tells.resolved (entry_eq_unusable he).1 (tells_nil hrecord rfl ?_)
    change (Failure.ofRead i.requested place f).unexpanded? = none
    rw [Failure.ofRead]
    split <;> rfl
  | text t a ha hf =>
    have hinside := hnested i t a ha hf (g.record i) hrecord
    exact hinside.resolved (entry_read he).2.1

theorem tells_directive (tagged : Bool) (d : Directive) :
    Tells (p.eventsOfDirective active telling place d g) g (p.applyDirective active entering tagged place d g) := by
  refine Tells.located ?_ place
  rw [eventsOfDirective, dispatch]
  cases d.kind with
  | define =>
    dsimp only
    cases Declaration.parse d.value with
    | error f => exact tells_nil hg rfl rfl
    | ok e =>
      dsimp only
      split
      · next hget =>
        exact tells_registered hg _ (fun _ => rfl) ⟨rfl, rfl, rfl⟩ (MacroTable.history_define_of_none hget)
      · next m hget =>
        exact tells_registered hg _ (fun _ => rfl) ⟨rfl, rfl, rfl⟩ (MacroTable.history_define_of_some hg hget)
  | inclusion =>
    dsimp only
    cases Directive.fileName d.value with
    | error f => exact tells_nil hg rfl rfl
    | ok requested =>
      dsimp only
      cases Include.resolve p.options.prefixes p.tree requested place.file with
      | error fault => exact tells_nil hg rfl rfl
      | ok i => exact tells_include hg hnested i
  | condition | unknown =>
    exact ⟨hg, (List.append_nil _).symm, rfl, fun _ => (List.append_nil _).symm, rfl⟩

theorem tells_line (tagged : Bool) (raw : Text) :
    Tells (p.eventsOfLine active telling place raw g !(p.passLine active entering tagged place raw g).isOk) g
      ((p.passLine active entering tagged place raw g).map (·.2)) := by
  rw [eventsOfLine, passLine]
  cases Directive.ofLine? (Line.normalize raw) with
  | some d =>
    dsimp only
    rw [map_map, map_same]
    exact tells_directive hg hnested tagged d
  | none =>
    dsimp only
    refine (tells_replaced hg _).append ?_
    cases g.macros.expand p.options.limit (Line.normalize raw) with
    | ok t => exact tells_nil hg rfl rfl
    | error f => exact ⟨hg, (List.append_nil _).symm, rfl, fun _ => (List.append_nil _).symm, rfl⟩

end

theorem tells_lines (hnested : ∀ i t a ha hf g, g.macros.Established →
      Tells (telling i t a ha hf g) g ((entering i t a ha hf g).map (·.2)))
    (source : Text) (tagged : Bool) (n : Nat) (lines : List Text) (hg : g.macros.Established) :
    Tells (p.eventsOfLines active telling entering source tagged n lines g) g
      ((p.passLines active entering source tagged n lines g).map (·.2)) := by
  induction lines generalizing n g with
  | nil => exact tells_nil hg rfl rfl
  | cons raw rest ih =>
    have hline : Tells (p.eventsOfLine active telling ⟨source, n, 1⟩ raw g _) g _ := tells_line hg hnested tagged raw
    rw [eventsOfLines, passLines_cons_map]
    cases h : p.passLine active entering tagged ⟨source, n, 1⟩ raw g with
    | error halt =>
      rw [h] at hline
      exact hline
    | ok q =>
      rw [h] at hline
      exact hline.append (ih (n + 1) hline.established)

theorem tells_pass (bound : Nat) (active : List Address) (h : p.tree.remaining active ≤ bound) (source : Text)
    (tagged : Bool) (lines : List Text) (hg : g.macros.Established) :
    Tells (p.eventsWithin bound active h source tagged lines g) g
      ((p.pass active source tagged lines g).map (·.2)) := by
  rw [pass_eq]
  induction bound generalizing active source tagged lines g with
  | zero =>
    exact tells_lines (fun i t a ha hf => absurd (FileTree.remaining_lt ha hf) (by omega)) source tagged 1 lines hg
  | succ bound ih =>
    refine tells_lines (fun i t a ha hf g hg => ?_) source tagged 1 lines hg
    rw [nested, pass_eq]
    exact ih (active ++ [a]) _ _ true _ hg

theorem tells_run (p : Project) (source : Text) (tagged : Bool) (script : Text) :
    Tells (p.events source tagged script) {} ((p.run source tagged script).map (·.2)) := by
  have hg : ({} : Progress).macros.Established := nofun
  rw [events, run, runLines]
  cases FileTree.askSource source with
  | error f => exact tells_nil hg rfl rfl
  | ok _ =>
    rw [map_map]
    exact tells_pass p.tree.addressBound _ _ source tagged (sourceLines script) hg

/-- The journal of a run, whether it succeeds or fails, is a true account of what the run leaves: its records in their
order, which of them are missing, all definitions of each macro, and the line that could not be expanded, if one ended
the run. -/
theorem events_agree (p : Project) (source : Text) (tagged : Bool) (script : Text) :
    let es := p.events source tagged script
    let g := (Report.ofRun (p.run source tagged script)).progress
    es.filterMap Event.resolved? = g.includes ∧ es.filterMap Event.skipped? = g.includes.filter (!·.found) ∧
      (∀ name, es.filter (Event.defines name) = g.macros.history name) ∧
      ∀ place, .failed place ∈ es ↔
        ∃ f line active, p.run source tagged script = .error ⟨.expansion f place line, active, g⟩ := by
  intro es g
  have h := p.tells_run source tagged script
  have hg : reached ((p.run source tagged script).map (·.2)) = g := by
    change _ = (Report.ofRun (p.run source tagged script)).progress
    cases p.run source tagged script with
    | ok q => rfl
    | error halt => rfl
  have hincludes : g.includes = es.filterMap Event.resolved? := hg ▸ h.includes
  refine ⟨hincludes.symm, hincludes ▸ h.missing, fun name => (hg ▸ h.history name).symm, fun place => ?_⟩
  have hmem : .failed place ∈ es ↔ place ∈ es.filterMap Event.failed? := by
    simp [List.mem_filterMap, Event.failed?_eq_some_iff]
  rw [hmem, h.failures, Option.mem_toList]
  cases hr : p.run source tagged script with
  | ok q => exact iff_of_false nofun (by rintro ⟨f, line, active, he⟩; nomatch he)
  | error halt =>
    have hprogress : halt.progress = g := by
      rw [← hg, hr]
      rfl
    refine (Option.mem_def.trans Failure.unexpanded?_eq_some_iff).trans ⟨?_, ?_⟩
    · rintro ⟨f, line, hf⟩
      exact ⟨f, line, halt.active, by rw [← hf, ← hprogress]⟩
    · rintro ⟨f, line, active, he⟩
      cases he
      exact ⟨f, line, rfl⟩

/-- The replacements that are told of a line of code lead from it to the line that is written, or to the one in which
they were given up. -/
theorem replaced_leads {n : Nat} (hlimit : p.options.limit.allowed? = some n) {raw : Text} {tagged : Bool}
    (hcode : Directive.ofLine? (Line.normalize raw) = none) :
    ∃ l u, Expansion.Leads g.macros.byLength (Line.normalize raw) l u ∧
      ((p.passLine active entering tagged place raw g = .ok (u, g) ∧
          p.eventsOfLine active telling place raw g false = l.map .replaced) ∨
        ∃ m i, Expansion.firstInvocation? g.macros.byLength u = some (m, i) ∧
          p.passLine active entering tagged place raw g =
            .error ⟨.expansion (.recursion m.name (l.length + 1)) place (Line.normalize raw), active, g⟩ ∧
          p.eventsOfLine active telling place raw g true = l.map .replaced ++ [.failed place]) := by
  have hexpand : g.macros.expand p.options.limit (Line.normalize raw) =
      Expansion.expandWithin g.macros.byLength n 0 (Line.normalize raw) := by
    rw [MacroTable.expand, Expansion.expand, hlimit]
  rw [passLine, eventsOfLine, eventsOfLine, hcode, hlimit]
  dsimp only [Option.getD_some]
  rw [hexpand]
  cases he : Expansion.expandWithin g.macros.byLength n 0 (Line.normalize raw) with
  | ok t => exact ⟨_, t, Expansion.leads_steps he, .inl ⟨rfl, List.append_nil _⟩⟩
  | error f =>
    obtain ⟨u, m, i, hleads, hu, rfl⟩ := Expansion.exists_leads_steps he
    exact ⟨_, u, hleads, .inr ⟨m, i, hu, by rw [Nat.zero_add], rfl⟩⟩

end Project

end ScriptMacros
