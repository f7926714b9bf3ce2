import ScriptMacros.Proofs.Run.Inlining

namespace ScriptMacros

/-- The characters that a run can write by the time that its progress tells. -/
inductive Given (p : Project) (script : Text) (g : Progress) (c : CodePoint) : Prop
  | script : c ∈ script → Given p script g c
  | included {i : Include} {u : Text} : i ∈ g.includes → p.readText i.path = .ok u → c ∈ u → Given p script g c
  | quote : c = '"' → Given p script g c
  | space : c = ' ' → Given p script g c

def GivenBodies (p : Project) (script : Text) (g : Progress) : Prop :=
  ∀ m ∈ g.macros.macros, ∀ c ∈ m.body, Given p script g c

structure Conserves (p : Project) (script : Text) (g g' : Progress) (out : List Text) : Prop where
  includes : g.includes ⊆ g'.includes
  bodies : GivenBodies p script g'
  lines : ∀ l ∈ out, ∀ c ∈ l, Given p script g' c

namespace Given

variable {p : Project} {script : Text} {g g' : Progress} {c : CodePoint}

theorem mono (hi : g.includes ⊆ g'.includes) (h : Given p script g c) : Given p script g' c := by
  cases h with
  | script hc => exact .script hc
  | included hg hu hc => exact .included (hi hg) hu hc
  | quote hc => exact .quote hc
  | space hc => exact .space hc

theorem normalize {raw : Text} (h : ∀ c ∈ raw, Given p script g c) : ∀ c ∈ Line.normalize raw, Given p script g c := by
  intro c hc
  rcases (Line.mem_normalize hc).2 with hc | hc
  · exact h c hc
  · exact .space hc

theorem sourceLines {t raw : Text} (h : ∀ c ∈ t, Given p script g c) (hraw : raw ∈ sourceLines t) :
    ∀ c ∈ raw, Given p script g c := by
  intro c hc
  exact h c (List.mem_of_mem_filter (Text.subset_of_mem_lines hraw hc))

end Given

namespace Project

variable {p : Project} {active : List Address} {entering : Entering p active} {source : Text} {tagged : Bool}
  {place : Location} {script raw t : Text} {n : Nat} {lines out : List Text} {g g' : Progress}

def ConservesNested (p : Project) (active : List Address) (script : Text) (entering : Entering p active) : Prop :=
  ∀ i u a ha hf g out g', GivenBodies p script g → (∀ c ∈ u, Given p script g c) →
    entering i u a ha hf g = .ok (out, g') → Conserves p script g g' out

theorem conserves_applyDirective [entering.Settles] (hent : p.ConservesNested active script entering)
    (hbodies : GivenBodies p script g) {d : Directive}
    (hvalue : ∀ c ∈ d.value, Given p script g c) (h : p.applyDirective active entering tagged place d g = .ok g') :
    Conserves p script g g' [] := by
  have hnone : ∀ l ∈ ([] : List Text), ∀ c ∈ l, Given p script g' c := by
    intro l hl
    contradiction
  rcases applyDirective_eq_ok h with ⟨-, e, he, rfl⟩ | ⟨-, requested, i, -, -, hi⟩ | ⟨-, rfl⟩
  · have hsame : g.includes ⊆ (g.define place tagged d.value e).includes := List.Subset.refl _
    have hdefined := Progress.forall_mem_body_define he hvalue hbodies place tagged
    exact ⟨hsame, fun m hm c hc => (hdefined m hm c hc).mono hsame, hnone⟩
  · have hrecord : g.includes ⊆ (g.record i).includes := List.subset_append_left _ _
    have hbodies' : GivenBodies p script (g.record i) :=
      fun m hm c hc => (hbodies m hm c hc).mono hrecord
    rcases enter_eq_ok hi with ⟨-, rfl⟩ | ⟨u, a, ha, hf, out, hentry, hnested⟩
    · exact ⟨hrecord, hbodies', hnone⟩
    · have hi : i ∈ (g.record i).includes := List.mem_concat_self
      have hout := hent i u a ha hf _ out g' hbodies'
        (fun c hc => .included hi (entry_read hentry).2.2 hc) hnested
      exact ⟨List.Subset.trans hrecord hout.includes, hout.bodies, hnone⟩
  · exact ⟨List.Subset.refl _, hbodies, hnone⟩

theorem conserves_passLine [entering.Settles] (hent : p.ConservesNested active script entering)
    (hbodies : GivenBodies p script g) (hraw : ∀ c ∈ raw, Given p script g c)
    (h : p.passLine active entering tagged place raw g = .ok (t, g')) : Conserves p script g g' [t] := by
  have hline := Given.normalize hraw
  rcases passLine_eq_ok h with ⟨d, hd, rfl, ha⟩ | ⟨-, rfl, ht⟩
  · have happlied := conserves_applyDirective hent hbodies
      (fun c hc => hline c (Directive.value_subset hd hc)) ha
    exact ⟨happlied.includes, happlied.bodies, by simp⟩
  · refine ⟨List.Subset.refl _, hbodies, ?_⟩
    intro l hl
    obtain rfl := List.mem_singleton.1 hl
    exact Expansion.forall_mem_expand (.quote rfl) (fun m hm => hbodies m (mem_longestFirst.1 hm)) hline ht

theorem conserves_passLines [entering.Settles] (hent : p.ConservesNested active script entering)
    (hbodies : GivenBodies p script g) (hlines : ∀ raw ∈ lines, ∀ c ∈ raw, Given p script g c)
    (h : p.passLines active entering source tagged n lines g = .ok (out, g')) : Conserves p script g g' out := by
  induction lines generalizing n g out with
  | nil =>
    cases h
    exact ⟨List.Subset.refl _, hbodies, fun l hl => by contradiction⟩
  | cons raw rest ih =>
    obtain ⟨t, g₁, out', ht, hrest, rfl⟩ := passLines_cons_eq_ok h
    obtain ⟨hraw, hlines⟩ := List.forall_mem_cons.1 hlines
    have hfirst := conserves_passLine hent hbodies hraw ht
    have hlater := ih hfirst.bodies (fun raw hm c hc => (hlines raw hm c hc).mono hfirst.includes) hrest
    refine ⟨List.Subset.trans hfirst.includes hlater.includes, hlater.bodies, List.forall_mem_cons.2 ⟨?_, hlater.lines⟩⟩
    exact fun c hc => (hfirst.lines t (List.mem_singleton_self t) c hc).mono hlater.includes

theorem conserves_pass (hbodies : GivenBodies p script g)
    (hlines : ∀ raw ∈ lines, ∀ c ∈ raw, Given p script g c)
    (h : p.pass active source tagged lines g = .ok (out, g')) : Conserves p script g g' out := by
  -- Each nested file leaves fewer addresses to enter.
  induction hk : p.tree.remaining active using Nat.strongRecOn generalizing active source tagged lines g out g' with
  | _ k ih =>
    rw [pass_eq] at h
    refine conserves_passLines ?_ hbodies hlines h
    intro i u a ha hf g out g' hbodies hu h
    have hlt : p.tree.remaining (active ++ [a]) < k := hk ▸ FileTree.remaining_lt ha hf
    exact ih _ hlt hbodies (fun raw hraw => Given.sourceLines hu hraw) h rfl

theorem newline_mem_of_run (h : p.run source tagged script = .ok (t, g)) (hn : .char '\n' ∈ t) :
    .char '\n' ∈ script := by
  have hrun := run_eq_ok_iff.1 h
  have hk := askSource_of_runLines hrun
  rw [runLines_eq_passLines hk] at hrun
  -- There are as many written lines as lines of the script, so what joins them was read too.
  have hlength := length_passLines hrun
  rw [Text.lines, length_splitOn, length_sourceLines] at hlength
  rw [← List.count_pos_iff] at hn ⊢
  omega

theorem given_of_run (h : p.run source tagged script = .ok (t, g)) : ∀ c ∈ t, Given p script g c := by
  obtain ⟨⟨out, g₁⟩, hlines, he⟩ := exists_of_map_eq_ok h
  cases he
  rw [runLines] at hlines
  split at hlines
  · contradiction
  have hempty : GivenBodies p script {} := by
    intro m hm
    contradiction
  have hpass := conserves_pass hempty
    (fun raw hraw => Given.sourceLines (fun c hc => .script hc) hraw) hlines
  intro c hc
  rcases Text.mem_ofLines hc with rfl | ⟨l, hl, hc⟩
  · exact .script (newline_mem_of_run h hc)
  · exact hpass.lines l hl c hc

theorem has_of_readText {path : Path} {u : Text} {e : Encoding} (he : p.codec = .ok e.codec)
    (h : p.readText path = .ok u) {c : CodePoint} (hc : c ∈ u) : e.Has c ∧ c ≠ '\r' := by
  obtain ⟨bytes, -, hd⟩ := readText_eq_ok_iff.1 h
  obtain ⟨codec, v, hcodec, hv, rfl⟩ := decode_eq_ok hd
  obtain rfl : e.codec = codec := Except.ok.inj (he.symm.trans hcodec)
  refine ⟨?_, fun hr => Encoding.return_notMem_unifyLineEnds v (hr ▸ hc)⟩
  rcases Encoding.mem_unifyLineEnds hc with hc | rfl
  · exact Encoding.has_of_decode (mapError_eq_ok_iff.1 hv) hc
  · exact Encoding.has_of_lt (by decide) e

theorem exists_encode_of_run {path : Path} {e : Encoding} (he : p.codec = .ok e.codec)
    (hscript : p.readText path = .ok script) (h : p.run source tagged script = .ok (t, g)) :
    ∃ bytes, e.encode t = .ok bytes ∧ p.decode bytes = .ok t := by
  have hall : ∀ c ∈ t, e.Has c ∧ c ≠ '\r' := by
    intro c hc
    cases given_of_run h c hc with
    | script hc => exact has_of_readText he hscript hc
    | included _ hu hc => exact has_of_readText he hu hc
    | quote hc => exact hc ▸ ⟨Encoding.has_of_lt (by decide) e, by decide⟩
    | space hc => exact hc ▸ ⟨Encoding.has_of_lt (by decide) e, by decide⟩
  obtain ⟨bytes, hbytes⟩ := Encoding.exists_encode fun c hc => (hall c hc).1
  have hback : e.codec.decode bytes = .ok t := mapError_eq_ok_iff.2 (Encoding.decode_encode hbytes)
  refine ⟨bytes, hbytes, ?_⟩
  rw [decode, he]
  dsimp only
  rw [hback]
  dsimp only
  rw [Encoding.unifyLineEnds_of_notMem fun hr => (hall _ hr).2 rfl]

end Project

end ScriptMacros
