import ScriptMacros.Proofs.Declaration
import ScriptMacros.Proofs.Merging
import ScriptMacros.Proofs.Run.Executing

namespace ScriptMacros

namespace Directive

variable {path value requested : Text}

def quoting (path : Text) : Text := "#include \"".toText ++ (path ++ [.char '"'])

theorem fileName_quoted (path : Text) : fileName (.char '"' :: (path ++ [.char '"'])) = .ok path := by
  have htrim : Text.trim (.char '"' :: (path ++ [.char '"'])) = .char '"' :: (path ++ [.char '"']) := by
    rw [Text.trim, Text.trimStart_cons (by decide), Text.trimEnd_eq_reverse, List.reverse_cons, List.reverse_append,
      List.reverse_singleton, List.singleton_append, List.cons_append, Text.trimStart_cons (by decide)]
    simp
  rw [fileName]
  simp only [htrim]
  rw [if_neg (by simp), ← List.cons_append, List.dropLast_concat, List.tail_cons]

theorem length_fileName (h : fileName value = .ok requested) : requested.length + 2 ≤ value.length := by
  rw [fileName] at h
  split at h
  · contradiction
  · have hstart : value.trimStart.length ≤ value.length := (List.dropWhile_sublist _).length_le
    have htrim : value.trim.length ≤ value.trimStart.length := (Text.trimEnd_prefix _).length_le
    cases h
    rw [List.length_tail, List.length_dropLast]
    omega

theorem ofLine?_quoting (hn : .char '\n' ∉ path) (ht : .char '\t' ∉ path) :
    ofLine? (Line.normalize (quoting path)) =
      some ⟨"include".toText, .char '"' :: Line.dropComments (path ++ [.char '"'])⟩ := by
  have hkept : ∀ c ∉ path, c ≠ '"' → c ∉ Line.dropComments (path ++ [.char '"']) := by
    intro c hc hne hm
    rcases List.mem_append.1 ((Line.dropCommentsFrom_sublist 0 _).subset hm) with hm | hm
    · exact hc hm
    · exact hne (List.mem_singleton.1 hm)
  have hstart : Text.trimStart (quoting path) = quoting path := Text.trimStart_cons (by decide)
  have hdrop : Line.dropComments (quoting path) = "#include \"".toText ++ Line.dropComments (path ++ [.char '"']) :=
    Line.dropComments_append (by decide) _
  have htab : .char '\t' ∉ "#include \"".toText ++ Line.dropComments (path ++ [.char '"']) :=
    List.not_mem_append (by decide) (hkept _ ht (by decide))
  have hnormal : Line.normalize (quoting path) =
      .char '#' :: ("include".toText ++ .char ' ' :: .char '"' :: Line.dropComments (path ++ [.char '"'])) := by
    have hspaces : ∀ c ∈ "#include \"".toText ++ Line.dropComments (path ++ [.char '"']),
        (if c = '\t' then .char ' ' else c) = c := by
      intro c hc
      exact if_neg fun he : c = '\t' => htab (he ▸ hc)
    rw [Line.normalize, hstart, hdrop, map_eq_self hspaces]
    rfl
  have hvalue : .char '\n' ∉ .char '"' :: Line.dropComments (path ++ [.char '"']) :=
    List.not_mem_cons_of_ne_of_not_mem (by decide) (hkept _ hn (by decide))
  rw [hnormal, ofLine?_word (by decide) hvalue]

def quoted (path : Text) : Except Fault Text := fileName (.char '"' :: Line.dropComments (path ++ [.char '"']))

theorem quoted_of_not_hasComment (h : ¬Line.HasComment path) : quoted path = .ok path := by
  rw [quoted, Line.dropComments_of_not_hasComment (mt (Line.hasComment_concat (by decide)).1 h), fileName_quoted]

theorem length_quoted (hc : Line.HasComment path) (h : quoted path = .ok requested) :
    requested.length < path.length := by
  have hname := length_fileName h
  have hdrop := Line.length_dropComments_of_hasComment ((Line.hasComment_concat (s := '"') (by decide)).2 hc)
  rw [List.length_append, List.length_singleton] at hdrop
  rw [List.length_cons] at hname
  omega

end Directive

namespace Project

variable {p : Project} {source : Text} {path : Text} {i : Include}

theorem asked?_quoting (hn : .char '\n' ∉ path) (ht : .char '\t' ∉ path) :
    p.asked? source (Directive.quoting path) =
      match Directive.quoted path with
      | .error _ => none
      | .ok requested => (Include.resolve p.options.prefixes p.tree requested source).toOption := by
  rw [asked?, Directive.ofLine?_quoting hn ht]
  exact if_pos rfl

theorem resolve_of_asked? (hn : .char '\n' ∉ path) (ht : .char '\t' ∉ path)
    (h : p.asked? source (Directive.quoting path) = some i) :
    Directive.quoted path = .ok i.requested ∧ i.file = p.options.prefixes.resolve i.requested := by
  rw [asked?_quoting hn ht] at h
  split at h
  · contradiction
  · next requested hr =>
    cases hi : Include.resolve p.options.prefixes p.tree requested source with
    | error e =>
      rw [hi] at h
      contradiction
    | ok j =>
      rw [hi] at h
      obtain rfl : j = i := Option.some.inj h
      have hrecords := Include.resolve_eq_ok_iff.1 hi
      rw [hrecords.requested]
      exact ⟨hr, hrecords.file⟩

/-- A run records what its lines ask for. A line that asks for a path in quotes asks for what is left of the path
without its comments, which is the path as written if and only if there are none in it; the recorded file is what is
asked for with its first prefix replaced. -/
theorem run_include_requested (p : Project) (source : Text) (tagged : Bool) (script : Text)
    (hh : p.tree.here.Canonical) :
    (Report.ofRun (p.run source tagged script)).progress.includes = p.records (p.executed source tagged script) ∧
    ∀ l ∈ p.executed source tagged script, ∀ path, l.raw = Directive.quoting path →
      .char '\n' ∉ path → .char '\t' ∉ path →
      (p.asked? l.file.source l.raw =
        match Directive.quoted path with
        | .error _ => none
        | .ok requested => (Include.resolve p.options.prefixes p.tree requested l.file.source).toOption) ∧
      (¬Line.HasComment path → Directive.quoted path = .ok path) ∧
      ∀ i, p.asked? l.file.source l.raw = some i →
        (i.requested = path ↔ ¬Line.HasComment path) ∧ p.options.prefixes.Replaces i.requested i.file := by
  refine ⟨includes_executed hh, ?_⟩
  intro l _ path hraw hn ht
  rw [hraw]
  refine ⟨asked?_quoting hn ht, Directive.quoted_of_not_hasComment, ?_⟩
  intro i hi
  obtain ⟨hr, hfile⟩ := resolve_of_asked? hn ht hi
  refine ⟨⟨?_, ?_⟩, hfile ▸ PrefixMap.replaces_resolve _ _⟩
  · intro he hc
    have hlt := Directive.length_quoted hc hr
    rw [he] at hlt
    exact Nat.lt_irrefl _ hlt
  · intro hc
    exact Except.ok.inj (hr.symm.trans (Directive.quoted_of_not_hasComment hc))

theorem run_include_requested_prefix :
    let p : Project := { options := { prefixes := .ofList [(['x'], ['y'])] }, tree := ⟨[], []⟩ }
    let source : Text := "main".toText
    let script := Directive.quoting "xa/*".toText ++ .char '\n' :: Directive.quoting "b//c".toText
    p.tree.here.Canonical ∧ Line.HasComment "b//c".toText ∧ ¬Line.HasComment "xa/*".toText ∧
      ∃ i j, (Report.ofRun (p.run source false script)).progress.includes = [i, j] ∧
        (i.requested = "xa/*".toText ↔ ¬Line.HasComment "xa/*".toText) ∧ i.file = "ya/*".toText ∧
        p.options.prefixes.Replaces i.requested i.file ∧
        (j.requested = "b//c".toText ↔ ¬Line.HasComment "b//c".toText) ∧ j.requested = [] := by
  intro p source script
  have hh : p.tree.here.Canonical := by
    intro n hn
    contradiction
  let f : OpenFile := ⟨[], source, false⟩
  let active := [(Path.ofText source).address p.tree.here]
  let first : ScriptLine := ⟨f, 1, Directive.quoting "xa/*".toText⟩
  let second : ScriptLine := ⟨f, 2, Directive.quoting "b//c".toText⟩
  have hrun : (p.run source false script).map (fun r => r.2.includes.map (·.requested)) = .ok ["xa/*".toText, []] := by
    decide +kernel
  obtain ⟨⟨t, g⟩, h, -⟩ := exists_of_map_eq_ok hrun
  have hnone : ∀ raw ∈ sourceLines script, p.target? active f.source raw = none := by
    simp only [← Option.isNone_iff_eq_none]
    decide +kernel
  have hsplit : sourceLines script = [Directive.quoting "xa/*".toText, Directive.quoting "b//c".toText] := by
    decide +kernel
  have hlines : p.executed source false script = [first, second] := by
    have hall : p.scriptLines source false script = (sourceLines script).mapIdx fun k raw => ⟨f, 1 + k, raw⟩ :=
      depthFirst_of_forall_none hnone
    rw [executed_of_ok hh h, hall, hsplit]
    rfl
  have hfirst : (p.asked? source first.raw).map (·.file) = some ("ya/*".toText) := by decide +kernel
  have hsecond : (p.asked? source second.raw).map (·.requested) = some [] := by decide +kernel
  obtain ⟨i, hi, hfile⟩ := Option.map_eq_some_iff.1 hfirst
  obtain ⟨j, hj, hempty⟩ := Option.map_eq_some_iff.1 hsecond
  obtain ⟨hincludes, hrequested⟩ := run_include_requested p source false script hh
  rw [hlines] at hincludes hrequested
  have hrecords : p.records [first, second] = [i, j] := by
    rw [records_cons, records_cons, hi, hj]
    rfl
  obtain ⟨-, -, hquoted⟩ := hrequested first List.mem_cons_self "xa/*".toText rfl (by decide) (by decide)
  obtain ⟨-, -, hquoted'⟩ := hrequested second (List.mem_cons_of_mem _ List.mem_cons_self) "b//c".toText rfl (by decide)
    (by decide)
  obtain ⟨hwritten, hreplaces⟩ := hquoted i hi
  exact ⟨hh, by decide +kernel, by decide +kernel, i, j, hincludes.trans hrecords, hwritten, hfile, hreplaces,
    (hquoted' j hj).1, hempty⟩

theorem run_include_unrequested :
    let p : Project := { tree := ⟨[], []⟩ }
    let path := "a//b".toText
    .char '\n' ∉ path ∧ .char '\r' ∉ path ∧ .char '\t' ∉ path ∧ .char '"' ∉ path ∧
      ∃ t g, p.run ("main.sqf".toText) false (Directive.quoting path) = .ok (t, g) ∧
        sourceLines (Directive.quoting path) = [Directive.quoting path] ∧ g.includes.map (·.requested) = [[]] := by
  intro p path
  have hrun : (p.run ("main.sqf".toText) false (Directive.quoting path)).map
      (fun r => r.2.includes.map (·.requested)) = .ok [[]] := by
    decide +kernel
  obtain ⟨⟨t, g⟩, h, hg⟩ := exists_of_map_eq_ok hrun
  exact ⟨by decide, by decide, by decide, by decide, t, g, h, by decide +kernel, hg⟩

end Project

end ScriptMacros
