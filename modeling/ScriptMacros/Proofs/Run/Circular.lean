import ScriptMacros.Proofs.Run.OpenFiles

namespace ScriptMacros.Project

variable {p : Project} {s s' t : RunState} {source : Text} {tagged : Bool} {script : Text} {i : Include}
  {place : Location} {requested : Text} {chain active : List Address} {g : Progress}

def Refuses (p : Project) (s : RunState) : Prop :=
  ∃ requested place chain active g, p.step s = .error ⟨.circular requested place chain, active, g⟩

theorem stepEnter_eq_circular {asked : Text} {here : Location}
    (h : p.stepEnter s here i = .error ⟨.circular asked place chain, active, g⟩) :
    p.entry s.stack i = .circular (i.path.address p.tree.here) ∧ asked = i.requested ∧ place = here ∧
      chain = s.stack ++ [i.path.address p.tree.here] ∧ active = s.stack ∧ g = s.progress := by
  rw [stepEnter] at h
  split at h
  · cases h
  · next a he =>
    cases h
    obtain ⟨rfl, -, -⟩ := entry_eq_circular he
    exact ⟨he, rfl, rfl, rfl, rfl, rfl⟩
  · rw [Failure.ofRead] at h
    split at h <;> cases h
  · cases h

theorem stepRewrite_ne_circular {f : Frame} {outer : List Frame} {w : Rewriting} :
    p.stepRewrite s f outer w ≠ .error ⟨.circular requested place chain, active, g⟩ := by
  intro h
  rw [stepRewrite] at h
  dsimp only at h
  split at h
  · cases h
  · split at h
    · cases h
    · split at h
      · cases h
      · split at h <;> cases h

theorem stepDirective_eq_circular {tagged : Bool} {here : Location} {d : Directive}
    (h : p.stepDirective s tagged here d = .error ⟨.circular requested place chain, active, g⟩) :
    d.kind = .inclusion ∧ ∃ asked i, Directive.fileName d.value = .ok asked ∧
      Include.resolve p.options.prefixes p.tree asked here.file = .ok i ∧
      p.stepEnter { s with progress := s.progress.record i } here i =
        .error ⟨.circular requested place chain, active, g⟩ := by
  rw [stepDirective_eq] at h
  split at h
  · split at h <;> cases h
  · next hk =>
    split at h
    · cases h
    · next asked hr =>
      split at h
      · cases h
      · next i hi => exact ⟨hk, asked, i, hr, hi, h⟩
  · cases h
  · cases h

theorem step_eq_circular (h : p.step s = .error ⟨.circular requested place chain, active, g⟩) :
    ∃ f outer raw rest i, p.Includes s f outer raw rest i ∧ i.found = true ∧
      i.path.address p.tree.here ∈ s.stack ∧ requested = i.requested ∧ place = f.place ∧
      chain = s.stack ++ [i.path.address p.tree.here] ∧ active = s.stack ∧ g = s.progress.record i := by
  rw [step_eq] at h
  split at h
  · cases h
  · next f outer hf =>
    rw [stepInside] at h
    split at h
    · exact absurd h stepRewrite_ne_circular
    · cases h
    · next raw rest hw hl =>
      split at h
      · cases h
      · next d hd =>
        obtain ⟨hk, asked, i, hr, hi, henter⟩ := stepDirective_eq_circular h
        obtain ⟨he, rfl, rfl, rfl, rfl, rfl⟩ := stepEnter_eq_circular henter
        obtain ⟨-, hmem, hfound⟩ := entry_eq_circular he
        exact ⟨f, outer, raw, rest, i, ⟨hw, hf, hl, d, asked, hd, hk, hr, hi⟩, hfound, hmem, rfl, rfl, rfl, rfl, rfl⟩

theorem Includes.step_of_mem {f : Frame} {outer : List Frame} {raw : Text} {rest : List Text}
    (h : p.Includes s f outer raw rest i) (hfound : i.found = true) (ha : i.path.address p.tree.here ∈ s.stack) :
    p.step s = .error
      ⟨.circular i.requested f.place (s.stack ++ [i.path.address p.tree.here]), s.stack, s.progress.record i⟩ := by
  rw [h.step_eq, stepEnter, entry_of_mem hfound ha]

theorem Includes.frames_ne_nil {f : Frame} {outer : List Frame} {raw : Text} {rest : List Text}
    (h : p.Includes s f outer raw rest i) : s.frames ≠ [] := by
  rw [h.frames]
  exact List.cons_ne_nil f outer

theorem Includes.unique {f f' : Frame} {outer outer' : List Frame} {raw raw' : Text} {rest rest' : List Text}
    {j : Include} (h : p.Includes s f outer raw rest i) (h' : p.Includes s f' outer' raw' rest' j) :
    f = f' ∧ i = j := by
  obtain ⟨-, hf, hl, d, asked, hd, -, hr, hi⟩ := h
  obtain ⟨-, hf', hl', d', asked', hd', -, hr', hi'⟩ := h'
  rw [hf, List.cons.injEq] at hf'
  obtain ⟨rfl, rfl⟩ := hf'
  rw [hl, List.cons.injEq] at hl'
  obtain ⟨rfl, rfl⟩ := hl'
  rw [hd] at hd'
  cases hd'
  rw [hr] at hr'
  cases hr'
  rw [hi] at hi'
  cases hi'
  exact ⟨rfl, rfl⟩

theorem Includes.refuses_iff {f : Frame} {outer : List Frame} {raw : Text} {rest : List Text}
    (h : p.Includes s f outer raw rest i) (hfound : i.found = true) :
    p.Refuses s ↔ i.path.address p.tree.here ∈ s.stack := by
  constructor
  · rintro ⟨requested, place, chain, active, g, he⟩
    obtain ⟨f', outer', raw', rest', j, hj, -, hmem, -⟩ := step_eq_circular he
    obtain ⟨-, rfl⟩ := h.unique hj
    exact hmem
  · intro hmem
    exact ⟨_, _, _, _, _, h.step_of_mem hfound hmem⟩

theorem Visits.run_eq_circular {f : Frame} {outer : List Frame} {raw : Text} {rest : List Text}
    (h : p.Visits source tagged script s) (hi : p.Includes s f outer raw rest i) (hfound : i.found = true)
    (hmem : i.path.address p.tree.here ∈ s.stack) :
    p.run source tagged script = .error
      ⟨.circular i.requested f.place (s.stack ++ [i.path.address p.tree.here]), s.stack, s.progress.record i⟩ := by
  have ha : p.Answers s (.error
      ⟨.circular i.requested f.place (s.stack ++ [i.path.address p.tree.here]), s.stack, s.progress.record i⟩) :=
    ⟨hi.frames_ne_nil, hi.step_of_mem hfound hmem⟩
  exact (h.answers ha.final).unique ha

theorem exists_of_run_eq_ok {text : Text} (h : p.run source tagged script = .ok (text, g)) :
    ∃ s, p.Visits source tagged script s ∧ s.frames = [] ∧ s.stack = [] ∧ text = Text.ofLines s.output := by
  obtain ⟨s, hv, hframes, ht, -⟩ := exists_visited_answers h (by simp)
  have hlen := hv.orderly.depth
  rw [hframes, List.length_nil] at hlen
  exact ⟨s, hv, hframes, List.length_eq_zero_iff.1 hlen, ht⟩

theorem exists_of_run_eq_circular
    (h : p.run source tagged script = .error ⟨.circular requested place chain, active, g⟩) :
    ∃ s f outer raw rest i, p.Visits source tagged script s ∧ p.Includes s f outer raw rest i ∧ i.found = true ∧
      i.path.address p.tree.here ∈ s.stack ∧ requested = i.requested ∧ place = f.place ∧
      chain = s.stack ++ [i.path.address p.tree.here] ∧ g = s.progress.record i := by
  obtain ⟨s, hv, ha⟩ := exists_visited_answers h (by simp)
  obtain ⟨f, outer, raw, rest, i, hi, hfound, hmem, hr, hp, hc, -, hg⟩ := step_eq_circular ha.2
  exact ⟨s, f, outer, raw, rest, i, hv, hi, hfound, hmem, hr, hp, hc, hg⟩

/-- A circular inclusion is reported for files that are open and for no others, files that were dealt with are not
open any more, and the report tells the open files in order and then the one among them that was asked for. -/
theorem circular_exact (p : Project) (source : Text) (tagged : Bool) (script : Text)
    (hh : p.tree.here.Canonical) :
    (∀ s f outer raw rest i, p.Visits source tagged script s → p.Includes s f outer raw rest i → i.found = true →
      (p.Refuses s ↔ i.path.address p.tree.here ∈ s.active p.tree.here) ∧
      (i.path.address p.tree.here ∈ s.active p.tree.here → p.run source tagged script = .error
        ⟨.circular i.requested f.place (s.active p.tree.here ++ [i.path.address p.tree.here]),
          s.active p.tree.here, s.progress.record i⟩)) ∧
    (∀ s t, p.Visits source tagged script s → p.Keeps s.frames.length s t → t.frames.length = s.frames.length →
      t.stack = s.stack) ∧
    (∀ t g, p.run source tagged script = .ok (t, g) →
      ∃ s, p.Visits source tagged script s ∧ s.frames = [] ∧ s.stack = [] ∧ t = Text.ofLines s.output) ∧
    (∀ requested place chain active g,
      p.run source tagged script = .error ⟨.circular requested place chain, active, g⟩ →
      ∃ s f outer raw rest i, p.Visits source tagged script s ∧ p.Includes s f outer raw rest i ∧ i.found = true ∧
        requested = i.requested ∧ place = f.place ∧
        chain = s.active p.tree.here ++ [i.path.address p.tree.here] ∧
        chain.dropLast.Nodup ∧ ∃ a ∈ chain.dropLast, chain.getLast? = some a) := by
  refine ⟨?_, ?_, ?_, ?_⟩
  · intro s f outer raw rest i hv hi hfound
    rw [← hv.stack_eq hh]
    constructor
    · exact hi.refuses_iff hfound
    · exact hv.run_eq_circular hi hfound
  · intro s t hv hk hlen
    exact hv.stack_eq_of_keeps hk hlen
  · intro t g hrun
    exact exists_of_run_eq_ok hrun
  · intro requested place chain active g hrun
    obtain ⟨s, f, outer, raw, rest, i, hv, hi, hfound, hmem, hr, hp, hc, -⟩ := exists_of_run_eq_circular hrun
    refine ⟨s, f, outer, raw, rest, i, hv, hi, hfound, hr, hp, ?_, ?_, ?_⟩
    · rw [hc, hv.stack_eq hh]
    · rw [hc, List.dropLast_concat]
      exact hv.orderly.nodup
    · rw [hc, List.dropLast_concat]
      exact ⟨_, hmem, by simp⟩

theorem circular_exact_detour :
    let w : Text := "w".toText
    let a : Text := "a".toText
    let b : Text := "b".toText
    let file := fun (name text : String) =>
      ([Utf8.encode "w".toList, Utf8.encode name.toList], Node.file (Utf8.encode text.toList))
    let p : Project := { tree :=
      ⟨[([Utf8.encode "w".toList], .directory), file "a" "", file "b" "#include '..\\\\w/./a'", file "c" ""], [w]⟩ }
    let script := "#include 'c'\n#include './c'\n#include 'b'".toText
    p.tree.here.Canonical ∧ ∃ halt s f outer raw rest i, p.run a false script = .error halt ∧
      halt.failure = .circular "..\\\\w/./a".toText ⟨"/w/b".toText, 1, 1⟩ [[w, a], [w, b], [w, a]] ∧
      p.Visits a false script s ∧ p.Includes s f outer raw rest i ∧ i.found = true ∧
      [[w, a], [w, b], [w, a]] = s.active p.tree.here ++ [i.path.address p.tree.here] := by
  intro w a b file p script
  have hh : p.tree.here.Canonical := by
    intro n hn
    obtain rfl : n = w := by simpa [p] using hn
    exact ⟨⟨by decide, by decide, by decide⟩, by decide⟩
  have hrun : (p.run a false script).mapError (·.failure) = .error
      (.circular "..\\\\w/./a".toText ⟨"/w/b".toText, 1, 1⟩ [[w, a], [w, b], [w, a]]) := by
    decide +kernel
  obtain ⟨⟨failure, active, g⟩, h, rfl⟩ := exists_of_mapError_eq_error hrun
  obtain ⟨s, f, outer, raw, rest, i, hv, hi, hfound, -, -, hc, -⟩ :=
    (circular_exact p a false script hh).2.2.2 _ _ _ _ _ h
  exact ⟨hh, _, s, f, outer, raw, rest, i, h, rfl, hv, hi, hfound, hc⟩

end ScriptMacros.Project
