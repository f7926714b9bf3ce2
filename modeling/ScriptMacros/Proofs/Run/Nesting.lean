import Mathlib.Data.List.Dedup
import Mathlib.Data.List.Perm.Subperm
import ScriptMacros.Proofs.Run.Circular
import ScriptMacros.Proofs.Run.Collecting
import ScriptMacros.Proofs.Spelling

namespace ScriptMacros

def Node.isFile : Node → Bool
  | file .. => true
  | directory _ => false

namespace FileTree

variable {t : FileTree} {a : Address} {bytes : List UInt8}

def places (t : FileTree) : List Place := t.files.dedup.filter fun q => (Association.get? q t.nodes).any Node.isFile

theorem exists_place_of_file? (h : t.file? a = some bytes) : ∃ q ∈ t.places, a.place? = some q := by
  obtain ⟨q, r, hq, hb⟩ := exists_get?_of_file? h
  have hmem : q ∈ t.files := List.mem_filterMap.2 ⟨(q, .file bytes r), Association.mem_keys_of_get? hb, rfl⟩
  refine ⟨q, List.mem_filter.2 ⟨List.mem_dedup.2 hmem, ?_⟩, hq⟩
  rw [hb]
  rfl

end FileTree

namespace Project

variable {p : Project} {s s' : RunState} {source : Text} {tagged : Bool} {script : Text}

theorem length_le_of_nodup_tail {α β : Type} {l : List α} {m : List β} {f : α → β} (hl : l.Nodup)
    (hf : ∀ x ∈ l.tail, ∀ y ∈ l.tail, f x = f y → x = y) (hm : ∀ x ∈ l.tail, f x ∈ m) :
    l.length ≤ 1 + m.length := by
  have hnodup : (l.tail.map f).Nodup := (hl.sublist (List.tail_sublist l)).map_on hf
  have hsub : l.tail.map f ⊆ m := by
    intro y hy
    obtain ⟨x, hx, rfl⟩ := List.mem_map.1 hy
    exact hm x hx
  have hle := (List.subperm_of_subset hnodup hsub).length_le
  rw [List.length_map, List.length_tail] at hle
  omega

theorem Orderly.length_le_addresses (h : p.Orderly s) : s.frames.length ≤ 1 + p.tree.addresses.dedup.length := by
  rw [← h.depth]
  apply length_le_of_nodup_tail (f := id) h.nodup (fun x _ y _ he => he)
  intro a ha
  obtain ⟨bytes, hf⟩ := h.files a ha
  exact List.mem_dedup.2 (FileTree.mem_addresses_of_file? hf)

def WholeNames (s : RunState) : Prop := ∀ n ∈ s.frames.map (·.source), Address.Whole (Path.ofText n).names

theorem Moves.includes_subset (h : p.Moves s s') : s.progress.includes ⊆ s'.progress.includes := by
  have hc : s.Collects (collected (p.step s)) := collects_step s
  rw [h.2, collected] at hc
  generalize s'.progress = g at hc ⊢
  cases hc with
  | keep => exact List.Subset.refl _
  | define => exact List.Subset.refl _
  | record i => exact List.subset_append_left _ [i]

theorem Change.wholeNames (h : p.Change s s') (hh : p.tree.here.Canonical) (hw : p.tree.here.Whole)
    (hi : ∀ i ∈ s'.progress.includes, i.file.Whole) (hs : WholeNames s) : WholeNames s' := by
  rw [WholeNames] at hs ⊢
  cases h with
  | stay _ hsources => exact hsources ▸ hs
  | close hframes _ =>
    intro n hn
    exact hs n (by rw [hframes]; exact List.mem_cons_of_mem _ hn)
  | @enter f outer raw rest i t a ha hf hasks he _ hsources hmem =>
    intro n hn
    rw [hsources] at hn
    rcases List.mem_cons.1 hn with rfl | hn
    · rw [Path.ofText_toText (hasks.sound hh)]
      obtain ⟨d, requested, -, -, -, hr⟩ := hasks.asks
      have hrecords := Include.resolve_eq_ok_iff.1 hr
      rw [hrecords.path, hrecords.source]
      refine Include.whole_target hw (hs f.source ?_) (hi i hmem)
      rw [hasks.frames]
      exact List.mem_cons_self
    · exact hs n hn

theorem Visits.whole (h : p.Visits source tagged script s) (hh : p.tree.here.Canonical) (hw : p.tree.here.Whole)
    (hsource : source.Whole) (hi : ∀ i ∈ s.progress.includes, i.file.Whole) : ∀ a ∈ s.stack, a.Whole := by
  have hnames : WholeNames s := by
    revert hi
    apply Visits.invariant (I := fun s => (∀ i ∈ s.progress.includes, i.file.Whole) → WholeNames s) _ _ h
    · intro s₀ h₀ _ n hn
      rw [(start_eq_ok h₀).2] at hn
      obtain rfl : n = source := List.mem_singleton.1 hn
      intro m hm
      exact hsource.mono (Path.infix_of_mem_names hm)
    · intro s s' _ hs hm hi
      exact hm.change.wholeNames hh hw hi (hs fun i hmem => hi i (hm.includes_subset hmem))
  intro a ha m hm
  rw [h.stack_eq hh, RunState.active, List.mem_reverse] at ha
  obtain ⟨n, hn, rfl⟩ := List.mem_map.1 ha
  rcases Path.mem_address hm with hm | ⟨hm, -⟩
  · exact hw m hm
  · exact hnames n hn m hm

theorem Orderly.length_le_places (h : p.Orderly s) (hw : ∀ a ∈ s.stack, a.Whole) :
    s.frames.length ≤ 1 + p.tree.places.length := by
  have hplaces : (p.tree.places.map some).length = p.tree.places.length := List.length_map some
  rw [← h.depth, ← hplaces]
  refine length_le_of_nodup_tail (f := Address.place?) h.nodup ?_ ?_
  · intro a ha b hb he
    obtain ⟨bytes, hf⟩ := h.files a ha
    obtain ⟨q, -, hq⟩ := FileTree.exists_place_of_file? hf
    exact Address.eq_of_place?_eq (hw a (List.mem_of_mem_tail ha)) (hw b (List.mem_of_mem_tail hb)) hq (he ▸ hq)
  · intro a ha
    obtain ⟨bytes, hf⟩ := h.files a ha
    obtain ⟨q, hmem, hq⟩ := FileTree.exists_place_of_file? hf
    exact List.mem_map.2 ⟨q, hmem, hq.symm⟩

/-- A run ends, and gives what its last state answers. At all times the open files have different addresses without
detours, so that no more of them are open than there are files, apart from the script, as long as no path that was
followed takes a character apart. -/
theorem nesting_bounded (p : Project) (source : Text) (tagged : Bool) (script : Text)
    (hh : p.tree.here.Canonical) :
    ((∃ f, p.run source tagged script = .error ⟨.source f source, [], {}⟩) ∨
      ∃ s, p.Visits source tagged script s ∧ p.Answers s (p.run source tagged script)) ∧
    ∀ s, p.Visits source tagged script s →
      (¬∃ states : Nat → RunState, states 0 = s ∧ ∀ n, p.Moves (states n) (states (n + 1))) ∧
      (∀ a ∈ s.stack, a.Canonical) ∧ (s.stack.map Address.toText).Nodup ∧ s.stack.length = s.frames.length ∧
      s.frames.length ≤ 1 + p.tree.addresses.dedup.length ∧
      (source.Whole → p.tree.here.Whole → (∀ i ∈ s.progress.includes, i.file.Whole) →
        s.frames.length ≤ 1 + p.tree.places.length) := by
  refine ⟨?_, ?_⟩
  · by_cases hf : ∃ f, p.run source tagged script = .error ⟨.source f source, [], {}⟩
    · exact Or.inl hf
    · exact Or.inr (exists_visited_answers rfl fun f he => hf ⟨f, he⟩)
  · intro s hv
    have ho := hv.orderly
    have hc := hv.canonical hh
    refine ⟨hv.not_endless, hc, ?_, ho.depth, ho.length_le_addresses, ?_⟩
    · exact ho.nodup.map_on fun a ha b hb => (hc a ha).eq_of_toText_eq (hc b hb)
    · intro hsource hw hi
      exact ho.length_le_places (hv.whole hh hw hsource hi)

def ring (real : Text) : Project :=
  let w := Utf8.encode "w".toList
  let e := Utf8.encode "é".toList
  let script := fun (name next : String) =>
    ([w, e, Utf8.encode name.toList], Node.file (Utf8.encode ("#include '" ++ next ++ "'").toList))
  { options := { prefixes := .ofList [("x".toText, real)] }
    tree :=
      { nodes := [([w], .directory), ([w, e], .directory), script "a" "b", script "b" "c", script "c" "x",
          ([w, Utf8.encode "c.json".toList], .file [])]
        here := ["w".toText] } }

theorem ring_here (real : Text) : (ring real).tree.here.Canonical := by
  intro n hn
  obtain rfl : n = "w".toText := List.mem_singleton.1 hn
  exact ⟨⟨by decide, by decide, by decide⟩, by decide⟩

def chainOf : Failure → List Address
  | .circular _ _ chain => chain
  | _ => []

theorem exists_frames_of_chain {n : Nat} {files : List Text}
    (h : (p.run source tagged script).mapError
      (fun halt => ((chainOf halt.failure).length, halt.progress.includes.map (·.file))) = .error (n + 1, files)) :
    ∃ s, p.Visits source tagged script s ∧ s.frames.length = n ∧ ∀ i ∈ s.progress.includes, i.file ∈ files := by
  obtain ⟨⟨failure, active, g⟩, hrun, hn⟩ := exists_of_mapError_eq_error h
  obtain ⟨hdepth, rfl⟩ : (chainOf failure).length = n + 1 ∧ g.includes.map (·.file) = files := Prod.mk.inj hn
  cases failure with
  | circular requested place chain =>
    obtain ⟨s, f, outer, raw, rest, i, hv, -, -, -, -, -, rfl, rfl⟩ := exists_of_run_eq_circular hrun
    rw [chainOf, List.length_append, hv.orderly.depth] at hdepth
    refine ⟨s, hv, Nat.succ.inj hdepth, fun j hj => ?_⟩
    exact List.mem_map_of_mem (List.mem_append_left [i] hj)
  | _ => cases hdepth

theorem nesting_bounded_ring :
    let p := ring ("../é//./a".toText)
    let source : Text := "é/a".toText
    p.tree.here.Canonical ∧ source.Whole ∧ p.tree.here.Whole ∧
      ∃ s, p.Visits source false "#include 'b'".toText s ∧ s.frames.length = 3 ∧
        (∀ i ∈ s.progress.includes, i.file.Whole) ∧ (s.stack.map Address.toText).Nodup ∧
        s.frames.length ≤ 1 + p.tree.places.length := by
  intro p source
  have hsource : source.Whole := Text.whole_of_characters _
  have hhere : p.tree.here.Whole := by
    intro n hn
    obtain rfl : n = "w".toText := List.mem_singleton.1 hn
    exact Text.whole_of_characters _
  have hrun : (p.run source false "#include 'b'".toText).mapError
      (fun halt => ((chainOf halt.failure).length, halt.progress.includes.map (·.file))) =
      .error (3 + 1, ["b", "c", "../é//./a"].map String.toText) := by
    decide +kernel
  obtain ⟨s, hv, hs, hfiles⟩ := exists_frames_of_chain hrun
  have hwhole : ∀ i ∈ s.progress.includes, i.file.Whole := by
    intro i hi
    obtain ⟨file, -, hfile⟩ := List.mem_map.1 (hfiles i hi)
    exact hfile ▸ Text.whole_of_characters _
  obtain ⟨-, -, hnodup, -, -, hbound⟩ := (nesting_bounded p source false _ (ring_here _)).2 s hv
  exact ⟨ring_here _, hsource, hhere, s, hv, hs, hwhole, hnodup, hbound hsource hhere hwhole⟩

/-- Where a character is taken apart, one file can be open under several addresses. -/
theorem nesting_exceeds_places :
    let p := ring ("../".toText ++ (Utf8.ofChar 'é').map DiskName.escape ++ "/a".toText)
    p.tree.here.Canonical ∧ p.tree.places.length = 4 ∧
      ∃ s, p.Visits "é/a".toText false "#include 'b'".toText s ∧ s.frames.length = 6 ∧
        ¬s.frames.length ≤ 1 + p.tree.places.length := by
  intro p
  have hplaces : p.tree.places.length = 4 := by decide +kernel
  have hrun : (p.run "é/a".toText false "#include 'b'".toText).mapError
      (fun halt => ((chainOf halt.failure).length, halt.progress.includes.map (·.file))) =
      .error (6 + 1, ["b".toText, "c".toText, p.options.prefixes.resolve "x".toText, "b".toText, "c".toText,
        p.options.prefixes.resolve "x".toText]) := by
    decide +kernel
  obtain ⟨s, hv, hs, -⟩ := exists_frames_of_chain hrun
  exact ⟨ring_here _, hplaces, s, hv, hs, by omega⟩

end Project

end ScriptMacros
